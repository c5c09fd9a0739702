import Mathlib.Data.Multiset.AddSub
import Mathlib.Tactic.Common

/-!
# Open Addressing with Linear Probing

A hash table is a list of slots, each never used, deleted or filled. A search starts at the
slot the hash selects and goes round the table until it meets the element, a slot that was
never used, or the place where it started; on its way it remembers the first slot that can
take a new element.

`Chained` is the invariant that makes the search complete: between the slot its hash selects
and the slot it is in, no element has a slot that was never used. `Separated` says that no
two slots hold related elements.

## Main results

* `search_spec`: what a search has seen when it ends.
* `search_absent`: a search that ends without a hit has missed nothing.
* `Chained.set_filled`, `Chained.set_sentinel`, `Chained.set_null`: the invariant is kept when
  an element is stored and when one is deleted.
* `contents_set_filled`, `contents_of_set`: the contents change by one element.
-/

namespace OpenAddressing

universe u

variable {α : Type u}

/-- A slot that was never used, one whose element was deleted, or one that is filled. -/
inductive Slot (α : Type u)
  | null
  | sentinel
  | filled (a : α)
  deriving DecidableEq, Repr

variable {s : Slot α} {a : α}

namespace Slot

/-- The element of a slot. -/
def elem? : Slot α → Option α
  | .filled a => some a
  | _ => none

theorem elem?_eq_some_iff : s.elem? = some a ↔ s = .filled a := by
  cases s <;> simp [elem?]

end Slot

/-- The elements of a table, with their multiplicities. -/
def contents (t : List (Slot α)) : Multiset α := (t.filterMap Slot.elem? : List α)

/-! ### Searching -/

/-- The end of a search: a hit, or the first slot that can take a new element, if any. -/
inductive Probe (α : Type u)
  | found (pos : ℕ) (a : α)
  | absent (slot : Option ℕ)
  | fault
  deriving Repr

/-- The search loop, for at most `fuel` rounds. -/
def probe (t : List (Slot α)) (hit : α → Bool) (start : ℕ) : ℕ → ℕ → Option ℕ → Probe α
  | 0, _, _ => .fault
  | fuel + 1, pos, avail =>
    let next := (pos + 1) % t.length
    match t[pos]? with
    | none => .fault
    | some .null => .absent (some (avail.getD pos))
    | some .sentinel =>
      let avail := some (avail.getD pos)
      if next = start then .absent avail else probe t hit start fuel next avail
    | some (.filled a) =>
      if hit a then .found pos a
      else if next = start then .absent avail else probe t hit start fuel next avail

/-- A search from the slot `start`. -/
def search (t : List (Slot α)) (hit : α → Bool) (start : ℕ) : Probe α :=
  probe t hit start t.length start none

/-- The slot `j` places after `start`, round the table. -/
def slotAt (t : List (Slot α)) (start j : ℕ) : Option (Slot α) := t[(start + j) % t.length]?

/-- The first `m` slots from `start` on are in use and hold no hit. -/
def Passed (t : List (Slot α)) (hit : α → Bool) (start m : ℕ) : Prop :=
  ∀ j < m, slotAt t start j = some .sentinel ∨
    ∃ a, slotAt t start j = some (.filled a) ∧ hit a = false

/-- What is remembered as the slot for a new element after `m` slots. -/
def Remembered (t : List (Slot α)) (start m : ℕ) : Option ℕ → Prop
  | none => ∀ j < m, ∃ a, slotAt t start j = some (.filled a)
  | some p => ∃ j < m, p = (start + j) % t.length ∧ slotAt t start j = some .sentinel

/-- What a search has seen when it ends. -/
inductive SearchEnd (t : List (Slot α)) (hit : α → Bool) (start : ℕ) : Probe α → Prop
  | found {p : ℕ} {a : α} (hp : t[p]? = some (.filled a)) (hhit : hit a = true) :
      SearchEnd t hit start (.found p a)
  | atNull {m : ℕ} {avail : Option ℕ} (hm : m < t.length) (hpass : Passed t hit start m)
      (hnull : slotAt t start m = some .null) (hrem : Remembered t start m avail) :
      SearchEnd t hit start (.absent (some (avail.getD ((start + m) % t.length))))
  | round {avail : Option ℕ} (hpass : Passed t hit start t.length)
      (hrem : Remembered t start t.length avail) : SearchEnd t hit start (.absent avail)

variable {start : ℕ}

theorem add_mod_eq_self_iff {n i : ℕ} (hs : start < n) (hi : i < n) :
    (start + (i + 1)) % n = start ↔ i + 1 = n := by
  constructor
  · intro h
    by_contra hne
    rcases Nat.lt_or_ge (start + (i + 1)) n with hlt | hge
    · rw [Nat.mod_eq_of_lt hlt] at h
      omega
    · rw [Nat.mod_eq_sub_mod hge, Nat.mod_eq_of_lt (by omega)] at h
      omega
  · intro h
    rw [h, Nat.add_mod_right, Nat.mod_eq_of_lt hs]

variable {t : List (Slot α)} {hit : α → Bool}

theorem Passed.succ {i : ℕ} (h : Passed t hit start i) (hi : slotAt t start i = some .sentinel ∨
      ∃ a, slotAt t start i = some (.filled a) ∧ hit a = false) :
    Passed t hit start (i + 1) := by
  intro j hj
  rcases Nat.lt_succ_iff_lt_or_eq.mp hj with hlt | rfl
  · exact h j hlt
  · exact hi

/-- The invariant of the loop, `i` slots after the start. -/
theorem probe_spec {t : List (Slot α)} {hit : α → Bool} {start : ℕ} (hs : start < t.length)
    {fuel i : ℕ} {avail : Option ℕ} (hi : i < t.length) (hfuel : t.length ≤ fuel + i)
    (hpass : Passed t hit start i) (hrem : Remembered t start i avail) :
    SearchEnd t hit start (probe t hit start fuel ((start + i) % t.length) avail) := by
  induction fuel generalizing i avail with
  | zero => omega
  | succ fuel ih =>
    have hlt : (start + i) % t.length < t.length := Nat.mod_lt _ (by omega)
    obtain ⟨s, hslot⟩ : ∃ s, slotAt t start i = some s := ⟨_, List.getElem?_eq_getElem hlt⟩
    have hnext : ((start + i) % t.length + 1) % t.length = (start + (i + 1)) % t.length := by
      rw [Nat.mod_add_mod, Nat.add_assoc]
    -- one more slot is passed: the search is round, or goes on
    have hgo : ∀ avail', Passed t hit start (i + 1) → Remembered t start (i + 1) avail' →
        SearchEnd t hit start (if (start + (i + 1)) % t.length = start then .absent avail'
          else probe t hit start fuel ((start + (i + 1)) % t.length) avail') := by
      intro avail' hpass' hrem'
      split
      · rename_i hround
        rw [add_mod_eq_self_iff hs hi] at hround
        rw [hround] at hpass' hrem'
        exact .round hpass' hrem'
      · rename_i hround
        rw [add_mod_eq_self_iff hs hi] at hround
        exact ih (by omega) (by omega) hpass' hrem'
    have hslot' : t[(start + i) % t.length]? = some s := hslot
    rw [probe, hnext, hslot']
    cases s with
    | null => exact .atNull hi hpass hslot hrem
    | sentinel =>
      refine hgo _ (hpass.succ (.inl hslot)) ?_
      cases avail with
      | none => exact ⟨i, Nat.lt_succ_self i, rfl, hslot⟩
      | some p =>
        obtain ⟨j, hj, hp⟩ := hrem
        exact ⟨j, Nat.lt_succ_of_lt hj, hp⟩
    | filled a =>
      dsimp only
      split
      · rename_i hhit
        exact .found hslot' hhit
      · rename_i hhit
        refine hgo avail (hpass.succ (.inr ⟨a, hslot, Bool.not_eq_true _ ▸ hhit⟩)) ?_
        cases avail with
        | none =>
          intro j hj
          rcases Nat.lt_succ_iff_lt_or_eq.mp hj with hlt | rfl
          · exact hrem j hlt
          · exact ⟨a, hslot⟩
        | some p =>
          obtain ⟨j, hj, hp⟩ := hrem
          exact ⟨j, Nat.lt_succ_of_lt hj, hp⟩

/-- **A search ends**, and has passed only slots in use that hold no hit. -/
theorem search_spec {t : List (Slot α)} {hit : α → Bool} {start : ℕ} (hs : start < t.length) :
    SearchEnd t hit start (search t hit start) := by
  have h := @probe_spec α t hit start hs t.length 0 none (by omega) (by omega)
    (fun j hj => absurd hj (Nat.not_lt_zero j)) (fun j hj => absurd hj (Nat.not_lt_zero j))
  rwa [Nat.add_zero, Nat.mod_eq_of_lt hs] at h

/-! ### Probe chains -/

/-- Between the slot its hash selects and its own slot, no element has a slot that was never
used. -/
def Chained (h : α → ℕ) (t : List (Slot α)) : Prop :=
  ∀ (p : ℕ) (a : α), t[p]? = some (.filled a) →
    ∃ d < t.length, (h a % t.length + d) % t.length = p ∧
      ∀ j < d, slotAt t (h a % t.length) j ≠ some .null

/-- No two slots hold related elements. -/
def Separated (R : α → α → Prop) (t : List (Slot α)) : Prop :=
  ∀ (p q : ℕ) (a b : α), t[p]? = some (.filled a) → t[q]? = some (.filled b) → R a b → p = q

/-- **A search misses nothing** when all hits have the hash it started from. -/
theorem search_absent {h : α → ℕ} {t : List (Slot α)} {hit : α → Bool} {start : ℕ}
    {slot : Option ℕ} (hch : Chained h t) (hend : SearchEnd t hit start (.absent slot))
    (hhash : ∀ a, hit a = true → h a % t.length = start) {p : ℕ} {a : α}
    (hp : t[p]? = some (.filled a)) : hit a = false := by
  by_contra hhit
  rw [Bool.not_eq_false] at hhit
  obtain ⟨d, hd, rfl, hpath⟩ := hch p a hp
  rw [hhash a hhit] at hp hpath
  have hpast : ∀ {m}, Passed t hit start m → ¬d < m := by
    intro m hpass hdm
    rcases hpass d hdm with hs | ⟨b, hb, hmiss⟩
    · rw [slotAt, hp] at hs
      cases hs
    · rw [slotAt, hp] at hb
      cases hb
      rw [hhit] at hmiss
      cases hmiss
  cases hend with
  | @atNull m avail hm hpass hnull hrem =>
    rcases Nat.lt_or_eq_of_le (Nat.le_of_not_lt (hpast hpass)) with hlt | rfl
    · exact hpath m hlt hnull
    · rw [slotAt, hp] at hnull
      cases hnull
  | round hpass hrem => exact hpast hpass hd

variable {p : ℕ}

theorem slotAt_set {j : ℕ} (hp : p < t.length) : slotAt (t.set p s) start j =
      if p = (start + j) % t.length then some s else slotAt t start j := by
  rw [slotAt, List.length_set, List.getElem?_set]
  simp only [hp, if_true]
  rfl

variable {h : α → ℕ}

/-- A store that does not make a slot unused lets the chains of the other elements stand. -/
theorem Chained.of_set (hch : Chained h t) (hp : p < t.length)
    (hpath : ∀ q a, q ≠ p → t[q]? = some (.filled a) → ∀ d,
      (h a % t.length + d) % t.length = q →
        (∀ j < d, slotAt t (h a % t.length) j ≠ some .null) →
          s = .null → ∀ j < d, (h a % t.length + j) % t.length ≠ p)
    (hnew : ∀ a, s = .filled a → ∃ d < t.length, (h a % t.length + d) % t.length = p ∧
      ∀ j < d, slotAt t (h a % t.length) j ≠ some .null) :
    Chained h (t.set p s) := by
  intro q a hq
  rw [List.length_set]
  rw [List.getElem?_set] at hq
  by_cases hqp : p = q
  · subst hqp
    simp only [hp, if_true, Option.some.injEq] at hq
    subst hq
    obtain ⟨d, hd, hdp, hnn⟩ := hnew a rfl
    refine ⟨d, hd, hdp, fun j hj => ?_⟩
    rw [slotAt_set hp]
    split
    · exact fun h0 => nomatch h0
    · exact hnn j hj
  · rw [if_neg hqp] at hq
    obtain ⟨d, hd, hdq, hnn⟩ := hch q a hq
    refine ⟨d, hd, hdq, fun j hj => ?_⟩
    rw [slotAt_set hp]
    split
    · rename_i hjp
      intro h0
      exact hpath q a (Ne.symm hqp) hq d hdq hnn (Option.some.inj h0) j hj hjp.symm
    · exact hnn j hj

/-- A new element goes where its search ended. -/
theorem Chained.set_filled (hch : Chained h t) {d : ℕ} {x : α}
    (hd : d < t.length) (hdp : (h x % t.length + d) % t.length = p)
    (hpath : ∀ j < d, slotAt t (h x % t.length) j ≠ some .null) :
    Chained h (t.set p (.filled x)) := by
  refine hch.of_set (hdp ▸ Nat.mod_lt _ (by omega)) (fun _ _ _ _ _ _ _ h0 => nomatch h0) ?_
  rintro a ⟨⟩
  exact ⟨d, hd, hdp, hpath⟩

/-- A deleted element leaves a mark. -/
theorem Chained.set_sentinel (hch : Chained h t)
    (hp : p < t.length) : Chained h (t.set p .sentinel) :=
  hch.of_set hp (fun _ _ _ _ _ _ _ h0 => nomatch h0) (fun _ h0 => nomatch h0)

/-- No mark is needed before a slot that was never used: no chain goes through. -/
theorem Chained.set_null (hch : Chained h t)
    (hp : p < t.length) (hnext : t[(p + 1) % t.length]? = some .null) :
    Chained h (t.set p .null) := by
  refine hch.of_set hp ?_ (fun _ h0 => nomatch h0)
  intro q a hqp hq d hdq hnn _ j hj hjp
  have hsucc : slotAt t (h a % t.length) (j + 1) = some .null := by
    rw [slotAt, ← Nat.add_assoc, ← Nat.mod_add_mod, hjp, hnext]
  rcases Nat.lt_or_eq_of_le (Nat.succ_le_of_lt hj) with hlt | heq
  · exact hnn (j + 1) hlt hsucc
  · rw [slotAt, ← Nat.succ_eq_add_one, heq, hdq, hq] at hsucc
    cases hsucc

theorem Passed.ne_null {m j : ℕ}
    (h : Passed t hit start m) (hj : j < m) : slotAt t start j ≠ some .null := by
  intro h0
  rcases h j hj with hs | ⟨a, ha, -⟩
  · rw [h0] at hs
    cases hs
  · rw [h0] at ha
    cases ha

/-- The slot a search returns for a new element can be reached and is not filled. -/
theorem SearchEnd.slot (hend : SearchEnd t hit start (.absent (some p))) :
    ∃ d < t.length, (start + d) % t.length = p ∧ (∀ j < d, slotAt t start j ≠ some .null) ∧
      ∃ s, t[p]? = some s ∧ s.elem? = none := by
  cases hend with
  | @atNull m avail hm hpass hnull hrem =>
    cases avail with
    | none => exact ⟨m, hm, rfl, fun j hj => hpass.ne_null hj, _, hnull, rfl⟩
    | some q =>
      obtain ⟨j, hj, rfl, hs⟩ := hrem
      exact ⟨j, hj.trans hm, rfl, fun i hi => hpass.ne_null (hi.trans hj), _, hs, rfl⟩
  | round hpass hrem =>
    obtain ⟨j, hj, rfl, hs⟩ := hrem
    exact ⟨j, hj, rfl, fun i hi => hpass.ne_null (hi.trans hj), _, hs, rfl⟩

/-! ### Contents -/

theorem mem_contents : a ∈ contents t ↔ ∃ p : ℕ, t[p]? = some (.filled a) := by
  rw [contents, Multiset.mem_coe, List.mem_filterMap]
  constructor
  · rintro ⟨s, hs, ha⟩
    rw [Slot.elem?_eq_some_iff] at ha
    subst ha
    exact List.mem_iff_getElem?.mp hs
  · rintro ⟨p, hp⟩
    exact ⟨_, List.mem_of_getElem? hp, rfl⟩

@[simp] theorem contents_replicate_null (n : ℕ) :
    contents (List.replicate n (.null : Slot α)) = 0 := by
  rw [contents, List.filterMap_replicate_of_none rfl]
  rfl

theorem contents_append (l m : List (Slot α)) : contents (l ++ m) = contents l + contents m := by
  rw [contents, List.filterMap_append, contents, contents, Multiset.coe_add]

theorem contents_singleton (s : Slot α) : contents [s] = s.elem?.elim 0 ({·}) := by
  cases s <;> rfl

/-- Storing into a slot exchanges the element of the slot and leaves the rest. -/
theorem contents_set {old : Slot α} (hp : t[p]? = some old) :
    ∃ rest : Multiset α, contents t = old.elem?.elim 0 ({·}) + rest ∧
      ∀ s : Slot α, contents (t.set p s) = s.elem?.elim 0 ({·}) + rest := by
  obtain ⟨hlt, hget⟩ := List.getElem?_eq_some_iff.mp hp
  have hsplit : ∀ s : Slot α, contents (t.take p ++ s :: t.drop (p + 1)) =
      s.elem?.elim 0 ({·}) + (contents (t.take p) + contents (t.drop (p + 1))) := by
    intro s
    rw [← List.singleton_append, contents_append, contents_append, contents_singleton,
      ← Multiset.add_assoc, Multiset.add_comm (contents _), Multiset.add_assoc]
  refine ⟨contents (t.take p) + contents (t.drop (p + 1)), ?_, fun s => ?_⟩
  · rw [← hsplit old, ← hget, List.getElem_cons_drop, List.take_append_drop]
  · rw [← hsplit s, List.set_eq_take_append_cons_drop, if_pos hlt]

/-- A filled slot in place of one that was not. -/
theorem contents_set_filled (hp : t[p]? = some s)
    (hs : s.elem? = none) (x : α) : contents (t.set p (.filled x)) = x ::ₘ contents t := by
  obtain ⟨rest, hold, hnew⟩ := contents_set hp
  rw [hnew, hold, hs, Option.elim_none, Multiset.zero_add]
  rfl

/-- A filled slot gives up its element. -/
theorem contents_of_set (hp : t[p]? = some (.filled a)) (hs : s.elem? = none) :
    contents t = a ::ₘ contents (t.set p s) := by
  obtain ⟨rest, hold, hnew⟩ := contents_set hp
  rw [hnew, hold, hs, Option.elim_none, Multiset.zero_add]
  rfl

/-- A filled slot exchanges its element. -/
theorem contents_set_replace (hp : t[p]? = some (.filled a)) :
    ∃ rest, contents t = a ::ₘ rest ∧ ∀ b, contents (t.set p (.filled b)) = b ::ₘ rest := by
  obtain ⟨rest, hold, hnew⟩ := contents_set hp
  exact ⟨rest, hold, fun b => hnew (.filled b)⟩

theorem card_contents_le (t : List (Slot α)) : (contents t).card ≤ t.length :=
  List.length_filterMap_le _ _

/-- Inserting the elements of some slots one by one into a table that has room for them. -/
theorem insertAll {σ : Type*} {R : α → α → Prop} {Good : σ → Prop} (table : σ → List (Slot α))
    (insert : σ → α → Option σ)
    (hinsert : ∀ s a, Good s → (contents (table s)).card < (table s).length →
      (∀ b ∈ contents (table s), ¬R b a) → ∃ s', insert s a = some s' ∧ Good s' ∧
        contents (table s') = a ::ₘ contents (table s) ∧ (table s').length = (table s).length)
    (slots : List (Slot α)) {s : σ} (hs : Good s)
    (hroom : (contents slots).card + (contents (table s)).card ≤ (table s).length)
    (hpair : (slots.filterMap Slot.elem?).Pairwise fun a b => ¬R a b)
    (hnew : ∀ a ∈ contents (table s), ∀ b ∈ contents slots, ¬R a b) :
    ∃ s', slots.foldlM
        (fun s slot =>
          match slot with
          | .filled a => insert s a
          | _ => some s) s = some s' ∧ Good s' ∧
      contents (table s') = contents slots + contents (table s) ∧
        (table s').length = (table s).length := by
  induction slots generalizing s with
  | nil => exact ⟨s, rfl, hs, (Multiset.zero_add _).symm, rfl⟩
  | cons slot slots ih =>
    rw [List.foldlM_cons]
    cases slot with
    | null => exact ih hs hroom hpair hnew
    | sentinel => exact ih hs hroom hpair hnew
    | filled a =>
      have hcons : contents (.filled a :: slots) = a ::ₘ contents slots := rfl
      rw [hcons, Multiset.card_cons] at hroom
      rw [hcons] at hnew
      obtain ⟨s₁, hins, hs₁, hcont₁, hlen₁⟩ :=
        hinsert s a hs (by omega) fun b hb => hnew b hb a (Multiset.mem_cons_self _ _)
      obtain ⟨hhead, htail⟩ := List.pairwise_cons.mp hpair
      obtain ⟨s', hfold, hs', hcont', hlen'⟩ := ih hs₁
        (by rw [hcont₁, Multiset.card_cons, hlen₁]; omega) htail (by
          intro b hb c hc
          rw [hcont₁, Multiset.mem_cons] at hb
          rcases hb with rfl | hb
          · exact hhead c hc
          · exact hnew b hb c (Multiset.mem_cons_of_mem hc))
      refine ⟨s', ?_, hs', ?_, hlen'.trans hlen₁⟩
      · dsimp only
        rw [hins]
        exact hfold
      · rw [hcont', hcont₁, hcons, Multiset.cons_add, Multiset.add_cons]

/-- A search that found no slot for a new element went round a full table. -/
theorem SearchEnd.card_contents
    (hs : start < t.length) (hend : SearchEnd t hit start (.absent none)) :
    (contents t).card = t.length := by
  have hall : ∀ s ∈ t, (Slot.elem? s).isSome := by
    cases hend with
    | round hpass hrem =>
      intro s hmem
      obtain ⟨p, hp⟩ := List.mem_iff_getElem?.mp hmem
      obtain ⟨hlt, -⟩ := List.getElem?_eq_some_iff.mp hp
      obtain ⟨a, ha⟩ := hrem ((p + (t.length - start)) % t.length) (Nat.mod_lt _ (by omega))
      rw [slotAt, Nat.add_mod_mod, show start + (p + (t.length - start)) = p + t.length by omega,
        Nat.add_mod_right, Nat.mod_eq_of_lt hlt, hp, Option.some.injEq] at ha
      rw [ha]
      rfl
  rw [contents, Multiset.coe_card]
  exact List.filterMap_length_eq_length.mpr hall

/-! ### Consistent tables -/

/-- A table that searches can rely on. -/
structure Consistent (h : α → ℕ) (R : α → α → Prop) (t : List (Slot α)) : Prop where
  chained : Chained h t
  separated : Separated R t

theorem getElem?_set_filled {q : ℕ} (hq : (t.set p s)[q]? = some (.filled a)) :
    (p = q ∧ s = .filled a) ∨ (p ≠ q ∧ t[q]? = some (.filled a)) := by
  rw [List.getElem?_set] at hq
  split at hq
  · rename_i hpq
    split at hq
    · exact .inl ⟨hpq, Option.some.inj hq⟩
    · cases hq
  · rename_i hpq
    exact .inr ⟨hpq, hq⟩

variable {R : α → α → Prop}

theorem Separated.set_unfilled (hsep : Separated R t) (hs : s.elem? = none) : Separated R
    (t.set p s) := by
  have hold : ∀ (q : ℕ) (a : α), (t.set p s)[q]? = some (.filled a) → t[q]? = some (.filled a) := by
    intro q a hq
    rcases getElem?_set_filled hq with ⟨-, rfl⟩ | ⟨-, hq'⟩
    · cases hs
    · exact hq'
  exact fun q r a b hq hr hab => hsep q r a b (hold q a hq) (hold r b hr) hab

theorem Separated.set_filled (hsymm : ∀ a b, R a b → R b a) (hsep : Separated R t) {x : α}
    (hnew : ∀ q b, q ≠ p → t[q]? = some (.filled b) → ¬R b x) :
    Separated R (t.set p (.filled x)) := by
  intro q r a b hq hr hab
  rcases getElem?_set_filled hq with ⟨rfl, ha⟩ | ⟨hpq, hq'⟩ <;>
    rcases getElem?_set_filled hr with ⟨rfl, hb⟩ | ⟨hpr, hr'⟩
  · rfl
  · cases ha
    exact absurd (hsymm _ _ hab) (hnew r b (Ne.symm hpr) hr')
  · cases hb
    exact absurd hab (hnew q a (Ne.symm hpq) hq')
  · exact hsep q r a b hq' hr' hab

/-- The elements of the other slots are not related to the element of a slot. -/
theorem Separated.not_rel (hsep : Separated R t) (hp : t[p]? = some (.filled a))
    {rest : Multiset α} (hrest : contents t = a ::ₘ rest) :
    ∀ b ∈ rest, ¬R b a := by
  intro b hb hba
  rw [contents_of_set hp (s := .null) rfl, Multiset.cons_inj_right] at hrest
  rw [← hrest] at hb
  obtain ⟨q, hq⟩ := mem_contents.mp hb
  rcases getElem?_set_filled hq with ⟨-, hnull⟩ | ⟨hpq, hq'⟩
  · cases hnull
  · exact hpq (hsep q p b a hq' hp hba).symm

/-- The elements of a separated table, in order, are pairwise unrelated. -/
theorem Separated.pairwise (hsep : Separated R t) :
    (t.filterMap Slot.elem?).Pairwise fun a b => ¬R a b := by
  rw [List.pairwise_filterMap, List.pairwise_iff_getElem]
  intro i j hi hj hij a ha b hb hab
  rw [Slot.elem?_eq_some_iff] at ha hb
  exact absurd (hsep i j a b (List.getElem?_eq_some_iff.mpr ⟨hi, ha⟩)
    (List.getElem?_eq_some_iff.mpr ⟨hj, hb⟩) hab) (by omega)

theorem Consistent.replicate_null (h : α → ℕ) (R : α → α → Prop) (n : ℕ) :
    Consistent h R (List.replicate n .null) := by
  have hnone : ∀ (p : ℕ) (a : α), (List.replicate n (.null : Slot α))[p]? ≠ some (.filled a) := by
    intro p a hp
    rw [List.getElem?_replicate] at hp
    split at hp <;> cases hp
  exact ⟨fun p a hp => absurd hp (hnone p a), fun p q a b hp => absurd hp (hnone p a)⟩

/-- **Insertion** of an element that is not there yet, where its search has ended. -/
theorem Consistent.insert {h : α → ℕ} {R : α → α → Prop} {t : List (Slot α)}
    (ht : Consistent h R t) (hsymm : ∀ a b, R a b → R b a) {hit : α → Bool} {x : α} {p : ℕ}
    (hend : SearchEnd t hit (h x % t.length) (.absent (some p)))
    (hnew : ∀ a ∈ contents t, ¬R a x) :
    Consistent h R (t.set p (.filled x)) ∧
      contents (t.set p (.filled x)) = x ::ₘ contents t := by
  obtain ⟨d, hd, hdp, hpath, s, hs, hnone⟩ := hend.slot
  exact ⟨⟨ht.chained.set_filled hd hdp hpath,
      ht.separated.set_filled hsymm fun q b _ hq => hnew b (mem_contents.mpr ⟨q, hq⟩)⟩,
    contents_set_filled hs hnone x⟩

/-- **Deletion** with a mark. -/
theorem Consistent.set_sentinel (ht : Consistent h R t) (hp : t[p]? = some (.filled a)) :
    Consistent h R (t.set p .sentinel) ∧ contents t = a ::ₘ contents (t.set p .sentinel) := by
  obtain ⟨hlt, -⟩ := List.getElem?_eq_some_iff.mp hp
  exact ⟨⟨ht.chained.set_sentinel hlt, ht.separated.set_unfilled rfl⟩, contents_of_set hp rfl⟩

/-- What is left in a slot when its element is deleted: no mark before a slot that was never
used. -/
def tombstone (t : List (Slot α)) (p : ℕ) : Slot α :=
  match t[(p + 1) % t.length]? with
  | some .null => .null
  | _ => .sentinel

/-- **Deletion** with a mark only where it is needed. -/
theorem Consistent.set_tombstone (ht : Consistent h R t) (hp : t[p]? = some (.filled a)) :
    Consistent h R (t.set p (tombstone t p)) ∧
      contents t = a ::ₘ contents (t.set p (tombstone t p)) := by
  obtain ⟨hlt, -⟩ := List.getElem?_eq_some_iff.mp hp
  rw [tombstone]
  split
  · rename_i hnext
    exact ⟨⟨ht.chained.set_null hlt hnext, ht.separated.set_unfilled rfl⟩, contents_of_set hp rfl⟩
  · exact ht.set_sentinel hp

/-- **Replacement** of an element by one with its hash and no further relatives. -/
theorem Consistent.replace {h : α → ℕ} {R : α → α → Prop} {t : List (Slot α)}
    (ht : Consistent h R t) (hsymm : ∀ a b, R a b → R b a) {p : ℕ} {a b : α}
    (hp : t[p]? = some (.filled a)) (hh : h b = h a) (hR : ∀ c, R c b → R c a) :
    Consistent h R (t.set p (.filled b)) := by
  obtain ⟨hlt, -⟩ := List.getElem?_eq_some_iff.mp hp
  refine ⟨?_, ht.separated.set_filled hsymm ?_⟩
  · obtain ⟨d, hd, hdp, hpath⟩ := ht.chained p a hp
    rw [← hh] at hdp hpath
    exact ht.chained.set_filled hd hdp hpath
  · intro q c hqp hq hcb
    exact hqp (ht.separated q p c a hq hp (hR c hcb))

/-! ### The first filled slot -/

/-- The first filled slot, positions counted from `pos`. -/
def firstFilled : List (Slot α) → ℕ → Option (ℕ × α)
  | [], _ => none
  | .filled a :: _, pos => some (pos, a)
  | _ :: t, pos => firstFilled t (pos + 1)

theorem firstFilled_some {pos : ℕ}
    (h : firstFilled t pos = some (p, a)) : pos ≤ p ∧ t[p - pos]? = some (.filled a) := by
  induction t generalizing pos with
  | nil => cases h
  | cons s t ih =>
    have hrest : firstFilled t (pos + 1) = some (p, a) →
        pos ≤ p ∧ (s :: t)[p - pos]? = some (.filled a) := by
      intro h'
      obtain ⟨hle, hget⟩ := ih h'
      refine ⟨by omega, ?_⟩
      rw [show p - pos = (p - (pos + 1)) + 1 by omega, List.getElem?_cons_succ, hget]
    cases s with
    | filled b =>
      cases h
      exact ⟨le_refl _, by rw [Nat.sub_self]; rfl⟩
    | null => exact hrest h
    | sentinel => exact hrest h

theorem firstFilled_none {pos : ℕ} (h : firstFilled t pos = none) : contents t = 0 := by
  induction t generalizing pos with
  | nil => rfl
  | cons s t ih =>
    cases s with
    | filled b => cases h
    | null => exact ih h
    | sentinel => exact ih h

end OpenAddressing
