import Mathlib.Data.Nat.Find
import Mathlib.Tactic.Common

/-!
# Block Allocation Tables

A pool of `N` equal blocks is managed by a table that gives each block a kind. An allocation is
a chain: a block that starts it, followed by tail blocks. A chain that is found to be in use is
marked at its start; a sweep frees the chains without a mark.

A table is any function from blocks to kinds of which only the first `N` values matter, so that
the lemmas apply to tables that are stored in memory together with other data.

## Main results

* `IsChain.disjoint`: two chains do not share a block.
* `place`, `IsChain.grow`, `IsChain.trim`: what becomes of the chains when one is allocated,
  lengthened, shortened or freed.
* `WellFormed.swept`, `IsChain.swept_mark`, `IsChain.swept_head`: a sweep keeps the marked chains
  and frees the others.
-/

namespace BlockTable

/-- The kind of a block. -/
inductive Kind
  | free
  | head
  | tail
  | mark
  deriving DecidableEq, Repr

/-- Tail blocks follow blocks in use. -/
structure WellFormed (N : ℕ) (t : ℕ → Kind) : Prop where
  first : 0 < N → t 0 ≠ .tail
  follows : ∀ b, b + 1 < N → t (b + 1) = .tail → t b ≠ .free

instance (N : ℕ) (t : ℕ → Kind) : Decidable (WellFormed N t) :=
  decidable_of_iff ((0 < N → t 0 ≠ .tail) ∧ ∀ b < N - 1, t (b + 1) = .tail → t b ≠ .free)
    ⟨fun h => ⟨h.1, fun b hb => h.2 b (by omega)⟩, fun h => ⟨h.1, fun b hb => h.2 b (by omega)⟩⟩

/-- The `n` blocks from `h` on are a chain. -/
structure IsChain (N : ℕ) (t : ℕ → Kind) (h n : ℕ) : Prop where
  starts : t h = .head ∨ t h = .mark
  pos : 0 < n
  le : h + n ≤ N
  tails : ∀ i, h < i → i < h + n → t i = .tail
  ends : h + n < N → t (h + n) ≠ .tail

variable {N : ℕ} {t t' : ℕ → Kind} {h n : ℕ}

/-! ### Chains -/

theorem exists_isChain (hh : h < N) (hstart : t h = .head ∨ t h = .mark) :
    ∃ n, IsChain N t h n := by
  have hex : ∃ k, 0 < k ∧ (N ≤ h + k ∨ t (h + k) ≠ .tail) := ⟨N - h, by omega, .inl (by omega)⟩
  obtain ⟨hpos, hstop⟩ := Nat.find_spec hex
  have hmin : ∀ k, 0 < k → k < Nat.find hex → h + k < N ∧ t (h + k) = .tail := by
    intro k hk hlt
    have := Nat.find_min hex hlt
    rw [not_and, not_or, not_not, Nat.not_le] at this
    exact this hk
  refine ⟨Nat.find hex, hstart, hpos, ?_, ?_, ?_⟩
  · rcases Nat.lt_or_ge 1 (Nat.find hex) with hlt | hge
    · have := (hmin (Nat.find hex - 1) (by omega) (by omega)).1
      omega
    · omega
  · intro i hi hlt
    have := (hmin (i - h) (by omega) (by omega)).2
    rwa [Nat.add_sub_cancel' (Nat.le_of_lt hi)] at this
  · intro hlt
    exact hstop.resolve_left (by omega)

variable {b : ℕ}

/-- A chain ends before the next start. -/
theorem IsChain.le_of_lt (hc : IsChain N t h n) (hb : t b ≠ .tail) (hlt : h < b) : h + n ≤ b := by
  by_contra hcon
  exact hb (hc.tails b hlt (by omega))

theorem IsChain.start_ne_tail (hc : IsChain N t h n) : t h ≠ .tail := by
  rcases hc.starts with hk | hk <;> rw [hk] <;> decide

/-- **Two chains do not share a block.** -/
theorem IsChain.disjoint {h' n' : ℕ} (hc : IsChain N t h n) (hc' : IsChain N t h' n')
    (hne : h ≠ h') : h + n ≤ h' ∨ h' + n' ≤ h := by
  rcases Nat.lt_or_gt_of_ne hne with hlt | hlt
  · exact .inl (hc.le_of_lt hc'.start_ne_tail hlt)
  · exact .inr (hc'.le_of_lt hc.start_ne_tail hlt)

theorem IsChain.unique {n' : ℕ} (hc : IsChain N t h n) (hc' : IsChain N t h n') : n = n' := by
  rcases Nat.lt_trichotomy n n' with hlt | heq | hlt
  · have hle := hc'.le
    exact absurd (hc'.tails (h + n) (by have := hc.pos; omega) (by omega)) (hc.ends (by omega))
  · exact heq
  · have hle := hc.le
    exact absurd (hc.tails (h + n') (by have := hc'.pos; omega) (by omega)) (hc'.ends (by omega))

variable {i : ℕ}

theorem IsChain.ne_free (hc : IsChain N t h n) (hi : h ≤ i) (hlt : i < h + n) : t i ≠ .free := by
  rcases Nat.lt_or_eq_of_le hi with hi | rfl
  · rw [hc.tails i hi hlt]
    decide
  · rcases hc.starts with hk | hk <;> rw [hk] <;> decide

/-- A chain depends on its own blocks and on the one after it. -/
theorem IsChain.congr (hc : IsChain N t h n) (heq : ∀ i, h ≤ i → i < h + n → t' i = t i)
    (hend : h + n < N → t' (h + n) ≠ .tail) : IsChain N t' h n where
  starts := by
    rw [heq h (Nat.le_refl h) (by have := hc.pos; omega)]
    exact hc.starts
  pos := hc.pos
  le := hc.le
  tails i hi hlt := by
    rw [heq i (Nat.le_of_lt hi) hlt]
    exact hc.tails i hi hlt
  ends := hend

theorem starts_of_ne (hfree : t b ≠ .free) (htail : t b ≠ .tail) : t b = .head ∨ t b = .mark := by
  cases hk : t b with
  | free => exact absurd hk hfree
  | head => exact .inl rfl
  | tail => exact absurd hk htail
  | mark => exact .inr rfl

theorem WellFormed.exists_isChain (hwf : WellFormed N t) (hb : b < N) (hk : t b ≠ .free) :
    ∃ h n, IsChain N t h n ∧ h ≤ b ∧ b < h + n := by
  induction b with
  | zero =>
    obtain ⟨n, hc⟩ := BlockTable.exists_isChain hb (starts_of_ne hk (hwf.first hb))
    exact ⟨0, n, hc, Nat.le_refl 0, by have := hc.pos; omega⟩
  | succ b ih =>
    by_cases htail : t (b + 1) = .tail
    · obtain ⟨h, n, hc, hle, hlt⟩ := ih (by omega) (hwf.follows b hb htail)
      refine ⟨h, n, hc, by omega, ?_⟩
      by_contra hcon
      have hend : h + n = b + 1 := by omega
      exact hc.ends (by omega) (hend ▸ htail)
    · obtain ⟨n, hc⟩ := BlockTable.exists_isChain hb (starts_of_ne hk htail)
      exact ⟨b + 1, n, hc, Nat.le_refl _, by have := hc.pos; omega⟩

/-! ### Changing a table -/

/-- A run of free blocks becomes a chain. -/
theorem place (hwf : WellFormed N t) (hn : 0 < n) (hle : b + n ≤ N)
    (hfree : ∀ i, b ≤ i → i < b + n → t i = .free)
    (ht' : ∀ i < N, t' i = if i = b then .head else if b < i ∧ i < b + n then .tail else t i) :
    WellFormed N t' ∧ IsChain N t' b n ∧
      ∀ h' n', IsChain N t h' n' → IsChain N t' h' n' := by
  have hin : ∀ i, b < i → i < b + n → t' i = .tail := fun i hi hlt => by
    rw [ht' i (by omega), if_neg (by omega), if_pos ⟨hi, hlt⟩]
  have hb : t' b = .head := by rw [ht' b (by omega), if_pos rfl]
  have hout : ∀ i < N, ¬(b ≤ i ∧ i < b + n) → t' i = t i := fun i hi hni => by
    rw [ht' i hi, if_neg (by omega), if_neg (by omega)]
  -- no tail follows the run, since its last block was free
  have hafter : b + n < N → t (b + n) ≠ .tail := fun hlt htail =>
    hwf.follows (b + n - 1) (by omega) (by rwa [show b + n - 1 + 1 = b + n by omega])
      (hfree _ (by omega) (by omega))
  refine ⟨⟨fun h0 => ?_, fun i hi htail => ?_⟩, ⟨.inl hb, hn, hle, hin, fun hlt => ?_⟩,
    fun h' n' hc => ?_⟩
  · by_cases hb0 : b = 0
    · rw [← hb0, hb]
      decide
    · rw [hout 0 h0 (by omega)]
      exact hwf.first h0
  · by_cases hi' : b ≤ i ∧ i < b + n
    · rcases Nat.lt_or_eq_of_le hi'.1 with hlt | rfl
      · rw [hin i hlt hi'.2]
        decide
      · rw [hb]
        decide
    · rw [hout i (by omega) hi']
      by_cases hsucc : b ≤ i + 1 ∧ i + 1 < b + n
      · have hib : i + 1 = b := by omega
        rw [hib, hb] at htail
        cases htail
      · rw [hout (i + 1) hi hsucc] at htail
        exact hwf.follows i hi htail
  · rw [hout _ hlt (by omega)]
    exact hafter hlt
  · have hdis : h' + n' ≤ b ∨ b + n ≤ h' := by
      by_contra hcon
      have hpos := hc.pos
      have hle' := hc.le
      exact hc.ne_free (Nat.le_max_left h' b) (by omega)
        (hfree (max h' b) (Nat.le_max_right h' b) (by omega))
    refine hc.congr (fun i hi hlt => hout i (by have := hc.le; omega) (by omega)) fun hlt => ?_
    by_cases heq : h' + n' = b
    · rw [heq, hb]
      decide
    · rw [hout _ hlt (by omega)]
      exact hc.ends hlt

/-- The free blocks after a chain become part of it. -/
theorem IsChain.grow (hwf : WellFormed N t) (hc : IsChain N t h n) {m : ℕ} (hnm : n < m)
    (hle : h + m ≤ N) (hfree : ∀ i, h + n ≤ i → i < h + m → t i = .free)
    (ht' : ∀ i < N, t' i = if h + n ≤ i ∧ i < h + m then .tail else t i) :
    WellFormed N t' ∧ IsChain N t' h m ∧
      ∀ h' n', h' ≠ h → IsChain N t h' n' → IsChain N t' h' n' := by
  have hpos := hc.pos
  have hin : ∀ i, h + n ≤ i → i < h + m → t' i = .tail := fun i hi hlt => by
    rw [ht' i (by omega), if_pos ⟨hi, hlt⟩]
  have hout : ∀ i < N, ¬(h + n ≤ i ∧ i < h + m) → t' i = t i := fun i hi hni => by
    rw [ht' i hi, if_neg hni]
  refine ⟨⟨fun h0 => ?_, fun i hi htail => ?_⟩, ⟨?_, by omega, hle, fun i hi hlt => ?_,
    fun hlt => ?_⟩, fun h' n' hne hc' => ?_⟩
  · rw [hout 0 h0 (by omega)]
    exact hwf.first h0
  · by_cases hi' : h + n ≤ i ∧ i < h + m
    · rw [hin i hi'.1 hi'.2]
      decide
    · rw [hout i (by omega) hi']
      by_cases hsucc : h + n ≤ i + 1 ∧ i + 1 < h + m
      · exact hc.ne_free (by omega) (by omega)
      · rw [hout (i + 1) hi hsucc] at htail
        exact hwf.follows i hi htail
  · rw [hout h (by omega) (by omega)]
    exact hc.starts
  · by_cases hi' : h + n ≤ i
    · exact hin i hi' hlt
    · rw [hout i (by omega) (by omega)]
      exact hc.tails i hi (by omega)
  · rw [hout _ hlt (by omega)]
    intro htail
    exact hwf.follows (h + m - 1) (by omega) (by rwa [show h + m - 1 + 1 = h + m by omega])
      (hfree _ (by omega) (by omega))
  · have hpos' := hc'.pos
    have hle' := hc'.le
    have hdis : h' + n' ≤ h + n ∨ h + m ≤ h' := by
      by_contra hcon
      exact hc'.ne_free (Nat.le_max_left h' (h + n)) (by omega)
        (hfree (max h' (h + n)) (Nat.le_max_right h' (h + n)) (by omega))
    have hdis' := hc.disjoint hc' (Ne.symm hne)
    refine hc'.congr (fun i hi hlt => hout i (by omega) (by omega)) fun hlt => ?_
    rw [hout _ hlt (by omega)]
    exact hc'.ends hlt

/-- The last blocks of a chain are freed, or all of them. -/
theorem IsChain.trim (hwf : WellFormed N t) (hc : IsChain N t h n) {m : ℕ} (hmn : m ≤ n)
    (ht' : ∀ i < N, t' i = if h + m ≤ i ∧ i < h + n then .free else t i) :
    WellFormed N t' ∧ (0 < m → IsChain N t' h m) ∧
      ∀ h' n', h' ≠ h → IsChain N t h' n' → IsChain N t' h' n' := by
  have hpos := hc.pos
  have hle := hc.le
  have hin : ∀ i, h + m ≤ i → i < h + n → t' i = .free := fun i hi hlt => by
    rw [ht' i (by omega), if_pos ⟨hi, hlt⟩]
  have hout : ∀ i < N, ¬(h + m ≤ i ∧ i < h + n) → t' i = t i := fun i hi hni => by
    rw [ht' i hi, if_neg hni]
  have hntail : ∀ i < N, t i ≠ .tail → t' i ≠ .tail := fun i hi hk => by
    by_cases hi' : h + m ≤ i ∧ i < h + n
    · rw [hin i hi'.1 hi'.2]
      decide
    · rwa [hout i hi hi']
  refine ⟨⟨fun h0 => hntail 0 h0 (hwf.first h0), fun i hi htail => ?_⟩, fun hm =>
    ⟨?_, hm, by omega, fun i hi hlt => ?_, fun hlt => ?_⟩, fun h' n' hne hc' => ?_⟩
  · have hsucc : t (i + 1) = .tail := by
      by_contra hk
      exact hntail (i + 1) hi hk htail
    have hi' : ¬(h + m ≤ i ∧ i < h + n) := by
      rintro ⟨hge, hlt⟩
      rcases Nat.lt_or_ge (i + 1) (h + n) with hin' | hge'
      · rw [hin (i + 1) (by omega) hin'] at htail
        cases htail
      · have heq : h + n = i + 1 := by omega
        exact hc.ends (by omega) (heq ▸ hsucc)
    rw [hout i (by omega) hi']
    exact hwf.follows i hi hsucc
  · rw [hout h (by omega) (by omega)]
    exact hc.starts
  · rw [hout i (by omega) (by omega)]
    exact hc.tails i hi (by omega)
  · rcases Nat.lt_or_eq_of_le hmn with hlt' | rfl
    · rw [hin _ (Nat.le_refl _) (by omega)]
      decide
    · exact hntail _ hlt (hc.ends hlt)
  · have hle' := hc'.le
    have hdis := hc.disjoint hc' (Ne.symm hne)
    exact hc'.congr (fun i hi hlt => hout i (by omega) (by omega))
      fun hlt => hntail _ hlt (hc'.ends hlt)

/-! ### Sweeping -/

/-- Whether a sweep that comes to a block is freeing tails: the last start it met has no mark. -/
def sweeping (t : ℕ → Kind) : ℕ → Bool
  | 0 => false
  | b + 1 =>
    match t b with
    | .head => true
    | .mark => false
    | _ => sweeping t b

/-- The kind a sweep leaves. -/
def swept (t : ℕ → Kind) (b : ℕ) : Kind :=
  match t b with
  | .mark => .head
  | .tail => if sweeping t b then .free else .tail
  | _ => .free

theorem swept_eq_tail_iff : swept t b = .tail ↔ t b = .tail ∧ sweeping t b = false := by
  rw [swept]
  cases hk : t b <;> cases hs : sweeping t b <;> simp

theorem swept_eq_head_iff : swept t b = .head ↔ t b = .mark := by
  rw [swept]
  cases hk : t b <;> cases hs : sweeping t b <;> simp

theorem swept_ne_mark (t : ℕ → Kind) (b : ℕ) : swept t b ≠ .mark := by
  rw [swept]
  cases hk : t b <;> cases hs : sweeping t b <;> simp

theorem WellFormed.swept (hwf : WellFormed N t) : WellFormed N (swept t) where
  first h0 htail := hwf.first h0 (swept_eq_tail_iff.mp htail).1
  follows b hb htail hfree := by
    obtain ⟨hk, hs⟩ := swept_eq_tail_iff.mp htail
    have hne := hwf.follows b hb hk
    rw [sweeping] at hs
    rw [BlockTable.swept] at hfree
    cases hkb : t b <;> simp_all

/-- Along a chain the sweep remembers its start. -/
theorem IsChain.sweeping (hc : IsChain N t h n) (hi : h < i) (hlt : i ≤ h + n) :
    sweeping t i = decide (t h = .head) := by
  induction i with
  | zero => omega
  | succ i ih =>
    rw [BlockTable.sweeping]
    rcases Nat.lt_or_eq_of_le (Nat.le_of_lt_succ hi) with hlt' | rfl
    · rw [hc.tails i hlt' (by omega)]
      exact ih hlt' (by omega)
    · rcases hc.starts with hk | hk <;> rw [hk] <;> rfl

/-- **A marked chain survives.** -/
theorem IsChain.swept_mark (hc : IsChain N t h n) (hmark : t h = .mark) :
    IsChain N (BlockTable.swept t) h n where
  starts := .inl (swept_eq_head_iff.mpr hmark)
  pos := hc.pos
  le := hc.le
  tails i hi hlt := by
    rw [swept_eq_tail_iff, hc.sweeping hi (by omega), hmark]
    exact ⟨hc.tails i hi hlt, rfl⟩
  ends hlt htail := hc.ends hlt (swept_eq_tail_iff.mp htail).1

/-- **A chain without a mark is freed.** -/
theorem IsChain.swept_head (hc : IsChain N t h n) (hhead : t h = .head) (hi : h ≤ i)
    (hlt : i < h + n) : BlockTable.swept t i = .free := by
  rw [BlockTable.swept]
  rcases Nat.lt_or_eq_of_le hi with hi' | rfl
  · rw [hc.tails i hi' hlt, hc.sweeping hi' (by omega), hhead]
    rfl
  · rw [hhead]

end BlockTable
