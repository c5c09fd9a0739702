import Mathlib.Algebra.Order.Group.Nat
import Mathlib.Data.Finset.Image
import Mathlib.Data.Finset.Range
import Mathlib.Logic.Equiv.Basic
import Mathlib.Order.WithBot

/-!
# Binary Heaps in Arrays

A binary heap in an array that is sifted with a hole: an item is taken out, others are moved into
the hole one after the other, and the item is put where the hole is at the end. `siftdown` moves the
hole towards the root, down to a place `start`. `siftup` moves it to a leaf along the smaller
children and then back.

Arrays are functions, and `len` is the number of places in use. What the sifts do to the order is
shown for keys, and `siftup_map` takes it to items with a relation that agrees with their keys.

## Main results

* `siftdown_rearranged`, `siftup_rearranged`: the items are only moved.
* `siftdown_ordered`: an item behind the end is moved to its place.
* `siftup_ordered_iff`: when an item that was put into the middle is moved to its place. It is not
  moved above the place where it was put.
* `siftup_orderedFrom`: a heap is built from its end.
-/

namespace BinaryHeap

open Function

variable {α κ : Type}

/-- The hole is moved towards the root, but not above `start`, as long as the item is less than the
parent, with fuel. -/
def rise (lt : α → α → Bool) (start : ℕ) (item : α) : ℕ → (ℕ → α) → ℕ → (ℕ → α) × ℕ
  | 0, h, pos => (h, pos)
  | fuel + 1, h, pos =>
    if start < pos ∧ lt item (h ((pos - 1) / 2)) then
      rise lt start item fuel (update h pos (h ((pos - 1) / 2))) ((pos - 1) / 2)
    else (h, pos)

/-- The child that is moved into the hole: the right one if it is not greater -/
def childPos (lt : α → α → Bool) (len : ℕ) (h : ℕ → α) (pos : ℕ) : ℕ :=
  if 2 * pos + 1 + 1 < len ∧ ¬lt (h (2 * pos + 1)) (h (2 * pos + 1 + 1)) then 2 * pos + 1 + 1
  else 2 * pos + 1

/-- The hole is moved to a leaf, with fuel. -/
def sink (lt : α → α → Bool) (len : ℕ) : ℕ → (ℕ → α) → ℕ → (ℕ → α) × ℕ
  | 0, h, pos => (h, pos)
  | fuel + 1, h, pos =>
    if 2 * pos + 1 < len then
      sink lt len fuel (update h pos (h (childPos lt len h pos))) (childPos lt len h pos)
    else (h, pos)

/-- The item at `pos` is moved towards the root. -/
def siftdown (lt : α → α → Bool) (start : ℕ) (h : ℕ → α) (pos : ℕ) : ℕ → α :=
  update (rise lt start (h pos) pos h pos).1 (rise lt start (h pos) pos h pos).2 (h pos)

/-- The item at `pos` is moved to a leaf and from there towards the root. -/
def siftup (lt : α → α → Bool) (len : ℕ) (h : ℕ → α) (pos : ℕ) : ℕ → α :=
  siftdown lt pos (update (sink lt len len h pos).1 (sink lt len len h pos).2 (h pos))
    (sink lt len len h pos).2

/-! ### Items are only moved -/

/-- The first `len` items of `h'` are those of `h` in another order. -/
def Rearranged (len : ℕ) (h h' : ℕ → α) : Prop :=
  ∃ σ : Equiv.Perm ℕ, (∀ i, len ≤ i → σ i = i) ∧ h' = h ∘ σ

variable {lt : α → α → Bool} {len pos fuel start : ℕ} {h h' h'' : ℕ → α} {item : α}

theorem Rearranged.refl (len : ℕ) (h : ℕ → α) : Rearranged len h h :=
  ⟨Equiv.refl ℕ, fun _ _ => rfl, rfl⟩

theorem Rearranged.trans (h₁ : Rearranged len h h') (h₂ : Rearranged len h' h'') :
    Rearranged len h h'' := by
  obtain ⟨σ, hσ, rfl⟩ := h₁
  obtain ⟨τ, hτ, rfl⟩ := h₂
  refine ⟨τ.trans σ, fun i hi => ?_, rfl⟩
  rw [Equiv.trans_apply, hτ i hi, hσ i hi]

/-- What is not moved out of the first places is not moved into them. -/
theorem perm_lt_iff {σ : Equiv.Perm ℕ} (hσ : ∀ i, len ≤ i → σ i = i) (i : ℕ) :
    σ i < len ↔ i < len := by
  constructor
  · intro hi
    by_contra hge
    rw [hσ i (not_lt.mp hge)] at hi
    exact hge hi
  · intro hi
    by_contra hge
    have hfix := hσ (σ i) (not_lt.mp hge)
    rw [σ.injective hfix] at hge
    exact hge hi

/-- The items are the same with their numbers. -/
theorem Rearranged.map_range (hre : Rearranged len h h') :
    (Multiset.range len).map h' = (Multiset.range len).map h := by
  obtain ⟨σ, hσ, rfl⟩ := hre
  have hrange : (Finset.range len).map σ.toEmbedding = Finset.range len := by
    ext i
    rw [Finset.mem_map_equiv, Finset.mem_range, Finset.mem_range, ← perm_lt_iff hσ,
      σ.apply_symm_apply]
  have hval := congrArg (fun s => Multiset.map h s.val) hrange
  simp only [Finset.map_val, Multiset.map_map] at hval
  exact hval

/-- One move of the hole -/
theorem Rearranged.move {pos' : ℕ} (hne : pos' ≠ pos) (hpos : pos < len) (hpos' : pos' < len) :
    Rearranged len (update h pos item) (update (update h pos (h pos')) pos' item) := by
  refine ⟨Equiv.swap pos pos', fun i hi => Equiv.swap_apply_of_ne_of_ne (by omega) (by omega), ?_⟩
  funext i
  rw [comp_apply]
  by_cases hi' : i = pos'
  · rw [hi', update_self, Equiv.swap_apply_right, update_self]
  · rw [update_of_ne hi']
    by_cases hi : i = pos
    · rw [hi, update_self, Equiv.swap_apply_left, update_of_ne hne]
    · rw [update_of_ne hi, Equiv.swap_apply_of_ne_of_ne hi hi', update_of_ne hi]

theorem rise_rearranged (lt : α → α → Bool) (start fuel : ℕ) (item : α) (hpos : pos < len) :
    (rise lt start item fuel h pos).2 < len ∧ Rearranged len (update h pos item)
      (update (rise lt start item fuel h pos).1 (rise lt start item fuel h pos).2 item) := by
  induction fuel generalizing h pos with
  | zero => exact ⟨hpos, .refl _ _⟩
  | succ fuel ih =>
    rw [rise]
    split_ifs with hmove
    · have hlt : (pos - 1) / 2 < pos := by omega
      obtain ⟨hlen, hre⟩ := ih (h := update h pos (h ((pos - 1) / 2))) (hlt.trans hpos)
      exact ⟨hlen, (Rearranged.move hlt.ne hpos (hlt.trans hpos)).trans hre⟩
    · exact ⟨hpos, .refl _ _⟩

theorem siftdown_rearranged (hpos : pos < len) : Rearranged len h (siftdown lt start h pos) := by
  have hre := (rise_rearranged lt start pos (h pos) (h := h) hpos).2
  rwa [update_eq_self] at hre

theorem childPos_spec (lt : α → α → Bool) (h : ℕ → α) (hchild : 2 * pos + 1 < len) :
    (childPos lt len h pos = 2 * pos + 1 ∨ childPos lt len h pos = 2 * pos + 2) ∧
      childPos lt len h pos < len := by
  unfold childPos
  split_ifs with h2 <;> omega

theorem sink_rearranged (lt : α → α → Bool) (fuel : ℕ) (item : α) (hpos : pos < len) :
    (sink lt len fuel h pos).2 < len ∧ Rearranged len (update h pos item)
      (update (sink lt len fuel h pos).1 (sink lt len fuel h pos).2 item) := by
  induction fuel generalizing h pos with
  | zero => exact ⟨hpos, .refl _ _⟩
  | succ fuel ih =>
    rw [sink]
    split_ifs with hchild
    · obtain ⟨hside, hlt⟩ := childPos_spec lt h hchild
      obtain ⟨hlen, hre⟩ := ih (h := update h pos (h (childPos lt len h pos))) hlt
      exact ⟨hlen, (Rearranged.move (by omega) hpos hlt).trans hre⟩
    · exact ⟨hpos, .refl _ _⟩

theorem siftup_rearranged (hpos : pos < len) : Rearranged len h (siftup lt len h pos) := by
  obtain ⟨hlen, hre⟩ := sink_rearranged lt len (h pos) (h := h) hpos
  rw [update_eq_self] at hre
  exact hre.trans (siftdown_rearranged hlen)

/-! ### The order of keys -/

variable [LinearOrder κ] {k c : ℕ → κ} {x : κ}

/-- Every key is at least the key of its parent. -/
def Ordered (len : ℕ) (k : ℕ → κ) : Prop := ∀ i, 0 < i → i < len → k ((i - 1) / 2) ≤ k i

theorem Ordered.congr {k' : ℕ → κ} (h : ∀ i < len, k i = k' i) :
    Ordered len k ↔ Ordered len k' := by
  refine forall_congr' fun i => forall_congr' fun hi => forall_congr' fun hlen => ?_
  rw [h i hlen, h _ (by omega)]

/-- The keys are in order apart from a hole, and those below the hole are at least the one above. -/
structure OrderedAround (len : ℕ) (c : ℕ → κ) (hole : ℕ) : Prop where
  apart : ∀ i, 0 < i → i < len → i ≠ hole → (i - 1) / 2 ≠ hole → c ((i - 1) / 2) ≤ c i
  across : 0 < hole → ∀ i, 0 < i → i < len → (i - 1) / 2 = hole → c ((hole - 1) / 2) ≤ c i

/-- The comparison of keys -/
def keyLt (x y : κ) : Bool := decide (x < y)

/-- `p` is `start` or below it. -/
inductive Under (start : ℕ) : ℕ → Prop
  | refl : Under start start
  | child (p : ℕ) : 0 < p → Under start ((p - 1) / 2) → Under start p

theorem Under.le {p : ℕ} (hp : Under start p) : start ≤ p := by
  induction hp with
  | refl => exact le_rfl
  | child p _ _ ih => omega

theorem Under.zero (p : ℕ) : Under 0 p := by
  induction p using Nat.strong_induction_on with
  | _ p ih =>
    rcases Nat.eq_zero_or_pos p with rfl | hp
    · exact .refl
    · exact .child p hp (ih _ (by omega))

theorem Under.parent {p : ℕ} (hp : Under start p) (hlt : start < p) :
    Under start ((p - 1) / 2) := by
  cases hp with
  | refl => omega
  | child _ _ hq => exact hq

/-- Keys grow from a place to the places below it. -/
theorem Ordered.le_of_under (hk : Ordered len k) {p : ℕ} (hp : Under start p) (hlen : p < len) :
    k start ≤ k p := by
  induction hp with
  | refl => exact le_rfl
  | child p hpos _ ih => exact (ih (by omega)).trans (hk p hpos hlen)

theorem Ordered.root_le (hk : Ordered len k) {p : ℕ} (hlen : p < len) : k 0 ≤ k p :=
  hk.le_of_under (Under.zero p) hlen

/-- The place of the hole is filled. -/
theorem OrderedAround.fill (hc : OrderedAround len c pos)
    (hbelow : ∀ i, 0 < i → i < len → (i - 1) / 2 = pos → x ≤ c i)
    (habove : 0 < pos → c ((pos - 1) / 2) ≤ x) : Ordered len (update c pos x) := by
  intro i hi hlen
  by_cases hip : i = pos
  · rw [hip, update_self, update_of_ne (by omega)]
    exact habove (by omega)
  · rw [update_of_ne hip]
    by_cases hpar : (i - 1) / 2 = pos
    · rw [hpar, update_self]
      exact hbelow i hi hlen hpar
    · rw [update_of_ne hpar]
      exact hc.apart i hi hlen hip hpar

/-- The hole is moved to its parent. -/
theorem OrderedAround.up (hc : OrderedAround len c pos) (hpos : 0 < pos) (hlen : pos < len) :
    OrderedAround len (update c pos (c ((pos - 1) / 2))) ((pos - 1) / 2) := by
  have hup (hq : 0 < (pos - 1) / 2) : c (((pos - 1) / 2 - 1) / 2) ≤ c ((pos - 1) / 2) :=
    hc.apart _ hq (by omega) (by omega) (by omega)
  constructor
  · intro i hi hi' hne hpar
    have hip : i ≠ pos := fun heq => hpar (by rw [heq])
    rw [update_of_ne hip]
    by_cases hchild : (i - 1) / 2 = pos
    · rw [hchild, update_self]
      exact hc.across hpos i hi hi' hchild
    · rw [update_of_ne hchild]
      exact hc.apart i hi hi' hip hchild
  · intro hq i hi hi' hpar
    rw [update_of_ne (by omega : ((pos - 1) / 2 - 1) / 2 ≠ pos)]
    by_cases hip : i = pos
    · rw [hip, update_self]
      exact hup hq
    · rw [update_of_ne hip]
      refine (hup hq).trans ?_
      have hside := hc.apart i hi hi' hip (by omega)
      rwa [hpar] at hside

/-- The hole is moved to the smaller child. -/
theorem OrderedAround.down (hc : OrderedAround len c pos) (hchild : 2 * pos + 1 < len) :
    OrderedAround len (update c pos (c (childPos keyLt len c pos))) (childPos keyLt len c pos) := by
  obtain ⟨hside, hlt⟩ := childPos_spec keyLt c hchild
  have hmin (i : ℕ) (hi : 0 < i) (hi' : i < len) (hpar : (i - 1) / 2 = pos) :
      c (childPos keyLt len c pos) ≤ c i := by
    have hi2 : i = 2 * pos + 1 ∨ i = 2 * pos + 1 + 1 := by omega
    unfold childPos keyLt
    split_ifs with hright
    · obtain ⟨-, hle⟩ := hright
      rw [decide_eq_true_eq, not_lt] at hle
      rcases hi2 with rfl | rfl
      · exact hle
      · exact le_rfl
    · rcases hi2 with rfl | rfl
      · exact le_rfl
      · rw [decide_eq_true_eq, not_and_not_right] at hright
        exact (hright hi').le
  obtain ⟨q, hq⟩ : ∃ q, q = childPos keyLt len c pos := ⟨_, rfl⟩
  rw [← hq] at hside hlt hmin ⊢
  have hparent : (q - 1) / 2 = pos := by omega
  constructor
  · intro i hi hi' hne hpar
    by_cases hip : i = pos
    · rw [hip, update_self, update_of_ne (by omega)]
      exact hc.across (by omega) q (by omega) hlt hparent
    · rw [update_of_ne hip]
      by_cases hpos : (i - 1) / 2 = pos
      · rw [hpos, update_self]
        exact hmin i hi hi' hpos
      · rw [update_of_ne hpos]
        exact hc.apart i hi hi' hip hpos
  · intro _ i hi hi' hpar
    rw [hparent, update_self, update_of_ne (by omega : i ≠ pos)]
    have hbelow := hc.apart i hi hi' (by omega) (by omega)
    rwa [hpar] at hbelow

/-- **The hole on its way up**: it stops at `start` or below a key that is not greater. -/
theorem rise_spec (hc : OrderedAround len c pos) (hlen : pos < len) (hfuel : pos ≤ fuel)
    (hunder : Under start pos) (hbelow : ∀ i, 0 < i → i < len → (i - 1) / 2 = pos → x ≤ c i) :
    ∃ c' p, rise keyLt start x fuel c pos = (c', p) ∧ OrderedAround len c' p ∧ p < len ∧
      Under start p ∧ (∀ i, 0 < i → i < len → (i - 1) / 2 = p → x ≤ c' i) ∧
      (start < p → c' ((p - 1) / 2) ≤ x) ∧ ∀ i < start, c' i = c i := by
  induction fuel generalizing c pos with
  | zero =>
    refine ⟨c, pos, rfl, hc, hlen, hunder, hbelow, ?_, fun _ _ => rfl⟩
    intro hlt
    omega
  | succ fuel ih =>
    rw [rise]
    split_ifs with hmove
    · obtain ⟨hlt, hx⟩ := hmove
      have hx : x < c ((pos - 1) / 2) := of_decide_eq_true hx
      have hpar : Under start ((pos - 1) / 2) := hunder.parent hlt
      obtain ⟨c', p, heq, hc', hp, hup, hb, ha, hout⟩ := ih (hc.up (by omega) hlen) (by omega)
        (by omega) hpar (by
          intro i hi hi' hq
          by_cases hip : i = pos
          · rw [hip, update_self]
            exact hx.le
          · rw [update_of_ne hip]
            have hside := hc.apart i hi hi' hip (by omega)
            rw [hq] at hside
            exact hx.le.trans hside)
      refine ⟨c', p, heq, hc', hp, hup, hb, ha, ?_⟩
      intro i hi
      rw [hout i hi, update_of_ne (by have := hpar.le; omega)]
    · refine ⟨c, pos, rfl, hc, hlen, hunder, hbelow, ?_, fun _ _ => rfl⟩
      intro hlt
      have hnot : ¬keyLt x (c ((pos - 1) / 2)) = true := fun hx => hmove ⟨hlt, hx⟩
      rw [keyLt, decide_eq_true_eq, not_lt] at hnot
      exact hnot

/-- **An item behind the end** is moved to its place. -/
theorem siftdown_ordered (hk : Ordered len k) : Ordered (len + 1) (siftdown keyLt 0 k len) := by
  have hc : OrderedAround (len + 1) k len :=
    ⟨fun i hi hi' hne _ => hk i hi (by omega), fun _ i hi hi' hpar => by omega⟩
  obtain ⟨c', p, heq, hc', hp, -, hb, ha, -⟩ := rise_spec hc (Nat.lt_succ_self len) le_rfl
    (Under.zero len) (x := k len) (fun i hi hi' hpar => by omega)
  rw [siftdown, heq]
  exact hc'.fill hb ha

/-- **The hole on its way to a leaf** -/
theorem sink_spec (hc : OrderedAround len c pos) (hlen : pos < len) (hfuel : len ≤ fuel + pos)
    (hunder : Under start pos) :
    ∃ c' p, sink keyLt len fuel c pos = (c', p) ∧ OrderedAround len c' p ∧ p < len ∧
      Under start p ∧ len ≤ 2 * p + 1 ∧ ∀ i < start, c' i = c i := by
  induction fuel generalizing c pos with
  | zero => omega
  | succ fuel ih =>
    rw [sink]
    split_ifs with hchild
    · obtain ⟨hside, hlt⟩ := childPos_spec keyLt c hchild
      have hparent : (childPos keyLt len c pos - 1) / 2 = pos := by omega
      obtain ⟨c', p, heq, hc', hp, hup, hleaf, hout⟩ := ih (hc.down hchild) hlt (by omega)
        (.child _ (by omega) (by rwa [hparent]))
      refine ⟨c', p, heq, hc', hp, hup, hleaf, ?_⟩
      intro i hi
      rw [hout i hi, update_of_ne (by have := hunder.le; omega)]
    · exact ⟨c, pos, rfl, hc, hlen, hunder, by omega, fun _ _ => rfl⟩

/-- **An item in the middle** of a heap is moved to its place if and only if it is not less than the
parent of the place where it was put. -/
theorem siftup_ordered_iff (hk : Ordered len k) (hlen : pos < len) (x : κ) :
    Ordered len (siftup keyLt len (update k pos x) pos) ↔ (0 < pos → k ((pos - 1) / 2) ≤ x) := by
  have hc : OrderedAround len (update k pos x) pos := by
    constructor
    · intro i hi hi' hne hpar
      rw [update_of_ne hne, update_of_ne hpar]
      exact hk i hi hi'
    · intro hpos i hi hi' hpar
      rw [update_of_ne (by omega), update_of_ne (by omega)]
      have hi := hk i hi hi'
      rw [hpar] at hi
      exact (hk pos hpos hlen).trans hi
  obtain ⟨c₁, p₁, heq₁, hc₁, hp₁, hunder₁, hleaf, hout₁⟩ := sink_spec hc hlen
    (Nat.le_add_right len pos) .refl
  have hput : OrderedAround len (update c₁ p₁ x) p₁ := by
    constructor
    · intro i hi hi' hne hpar
      rw [update_of_ne hne, update_of_ne hpar]
      exact hc₁.apart i hi hi' hne hpar
    · intro _ i hi hi' hpar
      omega
  obtain ⟨c₂, p₂, heq₂, hc₂, hp₂, hunder₂, hbelow, habove, hout₂⟩ :=
    rise_spec hput hp₁ le_rfl hunder₁
    (x := x) (fun i hi hi' hpar => by omega)
  have hup : siftup keyLt len (update k pos x) pos = update c₂ p₂ x := by
    rw [siftup, siftdown, heq₁, update_self, update_self, heq₂]
  have hparent (hpos : 0 < pos) : c₂ ((pos - 1) / 2) = k ((pos - 1) / 2) := by
    rw [hout₂ _ (by omega), update_of_ne (by have := hunder₁.le; omega), hout₁ _ (by omega),
      update_of_ne (by omega)]
  rw [hup]
  constructor
  · intro hord hpos
    -- the item is at `pos` or below it
    have hitem := hord.le_of_under hunder₂ hp₂
    have hpar := hord pos hpos hlen
    have hle := hunder₂.le
    rw [update_self] at hitem
    rw [update_of_ne (by omega), hparent hpos] at hpar
    exact hpar.trans hitem
  · intro hpos
    refine hc₂.fill hbelow fun hp => ?_
    rcases hunder₂.le.lt_or_eq with hlt | heq
    · exact habove hlt
    · rw [← heq] at hp ⊢
      rw [hparent hp]
      exact hpos hp

/-! ### Arrays that agree from a place on -/

section Agree

variable (lt : α → α → Bool) (hag : ∀ i, start ≤ i → h i = h' i)
include hag

theorem update_agree (pos : ℕ) (item : α) :
    ∀ i, start ≤ i → update h pos item i = update h' pos item i := by
  intro i hi
  by_cases hip : i = pos
  · rw [hip, update_self, update_self]
  · rw [update_of_ne hip, update_of_ne hip]
    exact hag i hi

theorem rise_agree (fuel : ℕ) (item : α) (hunder : Under start pos) :
    (rise lt start item fuel h pos).2 = (rise lt start item fuel h' pos).2 ∧
      ∀ i, start ≤ i →
        (rise lt start item fuel h pos).1 i = (rise lt start item fuel h' pos).1 i := by
  induction fuel generalizing h h' pos with
  | zero => exact ⟨rfl, hag⟩
  | succ fuel ih =>
    rw [rise, rise]
    by_cases hlt : start < pos
    · have hpar := hunder.parent hlt
      rw [← hag _ hpar.le]
      split_ifs with hmove
      · exact ih (update_agree hag _ _) hpar
      · exact ⟨rfl, hag⟩
    · rw [if_neg fun hmove => hlt hmove.1, if_neg fun hmove => hlt hmove.1]
      exact ⟨rfl, hag⟩

theorem sink_agree (len fuel : ℕ) (hunder : Under start pos) :
    (sink lt len fuel h pos).2 = (sink lt len fuel h' pos).2 ∧
      Under start (sink lt len fuel h pos).2 ∧
      ∀ i, start ≤ i → (sink lt len fuel h pos).1 i = (sink lt len fuel h' pos).1 i := by
  induction fuel generalizing h h' pos with
  | zero => exact ⟨rfl, hunder, hag⟩
  | succ fuel ih =>
    rw [sink, sink]
    split_ifs with hchild
    · have hle := hunder.le
      have hsame : childPos lt len h pos = childPos lt len h' pos := by
        rw [childPos, childPos, hag _ (by omega), hag _ (by omega)]
      obtain ⟨hside, hlt⟩ := childPos_spec lt h hchild
      have hparent : (childPos lt len h pos - 1) / 2 = pos := by omega
      rw [← hsame, ← hag _ (by omega)]
      exact ih (update_agree hag _ _) (.child _ (by omega) (by rwa [hparent]))
    · exact ⟨rfl, hunder, hag⟩

end Agree

/-- **Only what is from the place on** matters for moving an item there. -/
theorem siftup_agree (lt : α → α → Bool) (len : ℕ) (hag : ∀ i, pos ≤ i → h i = h' i) :
    ∀ i, pos ≤ i → siftup lt len h pos i = siftup lt len h' pos i := by
  obtain ⟨hp, hunder, hsink⟩ := sink_agree lt hag len len .refl
  obtain ⟨hp', hrise⟩ := rise_agree lt
    (update_agree hsink (sink lt len len h pos).2 (h pos)) (sink lt len len h pos).2 (h pos) hunder
  intro i hi
  rw [siftup, siftup, siftdown, siftdown, ← hp, ← hag pos le_rfl, update_self, update_self, ← hp']
  exact update_agree hrise _ _ i hi

/-! ### From keys to items -/

section Map

variable {key : α → κ} {P : α → Prop}

theorem update_all (hh : ∀ i < len, P (h i)) (hitem : P item) :
    ∀ i < len, P (update h pos item i) := by
  intro i hi
  by_cases hip : i = pos
  · rwa [hip, update_self]
  · rw [update_of_ne hip]
    exact hh i hi

variable (hP : ∀ x y, P x → P y → lt x y = keyLt (key x) (key y))
include hP

theorem rise_map (hitem : P item) (hh : ∀ i < len, P (h i)) (hpos : pos < len) :
    rise keyLt start (key item) fuel (key ∘ h) pos =
      (key ∘ (rise lt start item fuel h pos).1, (rise lt start item fuel h pos).2) := by
  induction fuel generalizing h pos with
  | zero => rfl
  | succ fuel ih =>
    have hlt : (pos - 1) / 2 < len := by omega
    rw [rise, rise, comp_apply, ← hP _ _ hitem (hh _ hlt)]
    split_ifs with hmove
    · rw [← comp_update]
      exact ih (update_all hh (hh _ hlt)) hlt
    · rfl

theorem siftdown_map (hh : ∀ i < len, P (h i)) (hpos : pos < len) :
    siftdown keyLt start (key ∘ h) pos = key ∘ siftdown lt start h pos := by
  rw [siftdown, siftdown, comp_apply, rise_map hP (hh pos hpos) hh hpos, comp_update]

theorem sink_map (fuel : ℕ) (hh : ∀ i < len, P (h i)) (hpos : pos < len) :
    sink keyLt len fuel (key ∘ h) pos =
        (key ∘ (sink lt len fuel h pos).1, (sink lt len fuel h pos).2) ∧
      ∀ i < len, P ((sink lt len fuel h pos).1 i) := by
  induction fuel generalizing h pos with
  | zero => exact ⟨rfl, hh⟩
  | succ fuel ih =>
    rw [sink, sink]
    by_cases hchild : 2 * pos + 1 < len
    · have hkey : childPos keyLt len (key ∘ h) pos = childPos lt len h pos := by
        unfold childPos
        by_cases hright : 2 * pos + 1 + 1 < len
        · rw [comp_apply, comp_apply, ← hP _ _ (hh _ hchild) (hh _ hright)]
        · rw [if_neg fun hand => hright hand.1, if_neg fun hand => hright hand.1]
      obtain ⟨-, hlt⟩ := childPos_spec lt h hchild
      rw [if_pos hchild, if_pos hchild, hkey, comp_apply, ← comp_update]
      exact ih (update_all hh (hh _ hlt)) hlt
    · rw [if_neg hchild, if_neg hchild]
      exact ⟨rfl, hh⟩

/-- **The keys are moved as the items are**, if the relation agrees with the keys of the items. -/
theorem siftup_map (hh : ∀ i < len, P (h i)) (hpos : pos < len) :
    siftup keyLt len (key ∘ h) pos = key ∘ siftup lt len h pos := by
  obtain ⟨hsink, hall⟩ := sink_map hP len hh hpos
  obtain ⟨hlt, -⟩ := sink_rearranged lt len (h pos) (h := h) hpos
  rw [siftup, siftup, hsink, comp_apply, ← comp_update,
    siftdown_map hP (update_all hall (hh pos hpos)) hlt]

end Map

/-! ### Building a heap -/

/-- The keys of the places from `start` on are at most those of their children. -/
def OrderedFrom (start len : ℕ) (k : ℕ → κ) : Prop :=
  ∀ i, 0 < i → i < len → start ≤ (i - 1) / 2 → k ((i - 1) / 2) ≤ k i

/-- **One more place is in order** after its item has been moved. The places in front of it are as
if there was something less than all keys in them. -/
theorem siftup_orderedFrom (hk : OrderedFrom (pos + 1) len k) (hpos : pos < len) :
    OrderedFrom pos len (siftup keyLt len k pos) := by
  let low (i : ℕ) : WithBot κ := if pos < i then k i else ⊥
  have hlow : Ordered len low := by
    intro i hi hlen
    by_cases hpar : pos < (i - 1) / 2
    · have hle := hk i hi hlen hpar
      simp only [low, if_pos hpar, if_pos (show pos < i by omega)]
      exact WithBot.coe_le_coe.mpr hle
    · simp only [low, if_neg hpar]
      exact bot_le
  have hord := (siftup_ordered_iff hlow hpos (k pos : WithBot κ)).mpr fun hp => by
    simp only [low, if_neg (show ¬pos < (pos - 1) / 2 by omega)]
    exact bot_le
  have hmap : siftup keyLt len (WithBot.some ∘ k) pos = WithBot.some ∘ siftup keyLt len k pos :=
    siftup_map (P := fun _ => True)
      (fun x y _ _ => by rw [keyLt, keyLt, decide_eq_decide, WithBot.coe_lt_coe])
      (fun _ _ => trivial) hpos
  have hag : ∀ i, pos ≤ i → update low pos (k pos : WithBot κ) i = (WithBot.some ∘ k) i := by
    intro i hi
    by_cases hip : i = pos
    · rw [hip, update_self, comp_apply]
    · rw [update_of_ne hip, comp_apply]
      exact if_pos (by omega)
  have hsame := siftup_agree keyLt len hag
  intro i hi hlen hpar
  have hle := hord i hi hlen
  rw [hsame _ hpar, hsame i (by omega), hmap] at hle
  exact WithBot.coe_le_coe.mp hle

theorem ordered_of_orderedFrom_zero (hk : OrderedFrom 0 len k) : Ordered len k :=
  fun i hi hlen => hk i hi hlen (Nat.zero_le _)

end BinaryHeap
