import Mathlib.Algebra.Order.Ring.Int
import Mathlib.Data.Nat.Log
import Mathlib.Order.Basic

/-!
# Sorting of Lists

`mp_quicksort` of `py/objlist.c` sorts a part of a list in place. Two pointers run towards each
other and exchange what is on the wrong side of the pivot, the last element. Of the two parts that
are left, the smaller one is sorted by a call and the larger one by the loop. Pointers are indices
here, and a read or a write outside the list is no result; fuel stands for the rounds of the loops,
and there is always enough of it.

## Main results

* `mpObjListSort_sorted`: a list is sorted in the order that is asked for, with calls that are
  nested at most logarithmically. -/

namespace Pycopy

variable {α κ : Type}

/-! ### Definitions -/

/-- `p[0]`, for a pointer given by its index -/
def listAt (items : List α) (i : ℤ) : Option α := if 0 ≤ i then items[i.toNat]? else none

/-- `p[0] = x` -/
def listPut (items : List α) (i : ℤ) (x : α) : Option (List α) :=
  if 0 ≤ i ∧ i < items.length then some (items.set i.toNat x) else none

/-- Two elements are exchanged. -/
def listSwap (items : List α) (i j : ℤ) : Option (List α) := do
  let x ← listAt items i
  let y ← listAt items j
  let items ← listPut items i y
  listPut items j x

/-- `do { ++h; } while (h < t && ...)` -/
def scanUp (test : α → Bool) (items : List α) (t : ℤ) : ℕ → ℤ → Option ℤ
  | 0, _ => none
  | fuel + 1, h =>
    if h + 1 < t then do
      let x ← listAt items (h + 1)
      if test x then scanUp test items t fuel (h + 1) else some (h + 1)
    else some (h + 1)

/-- `do { --t; } while (h < t && ...)` -/
def scanDown (test : α → Bool) (items : List α) (h : ℤ) : ℕ → ℤ → Option ℤ
  | 0, _ => none
  | fuel + 1, t =>
    if h < t - 1 then do
      let x ← listAt items (t - 1)
      if test x then scanDown test items h fuel (t - 1) else some (t - 1)
    else some (t - 1)

/-- The loop `for (;;)`. The function `less` is the comparison of two elements by their keys, and
`lessResult` the answer that it is compared with. -/
def partitionLoop (less : α → α → Bool) (lessResult : Bool) (v : α) :
    ℕ → List α → ℤ → ℤ → Option (List α × ℤ × ℤ)
  | 0, _, _, _ => none
  | fuel + 1, items, h, t => do
    let h ← scanUp (fun x => less x v == lessResult) items t (items.length + 1) h
    let t ← scanDown (fun x => less v x == lessResult) items h (items.length + 1) t
    if t ≤ h then some (items, h, t)
    else do
      let items ← listSwap items h t
      partitionLoop less lessResult v fuel items h t

/-- `mp_quicksort`, with the number of calls that are nested in it -/
def mpQuicksort (less : α → α → Bool) (lessResult : Bool) :
    ℕ → List α → ℤ → ℤ → Option (List α × ℕ)
  | 0, _, _, _ => none
  | fuel + 1, items, head, tail =>
    if head < tail then do
      let v ← listAt items tail
      let (items, h, t) ←
        partitionLoop less lessResult v (items.length + 1) items (head - 1) tail
      let items ← listSwap items h tail
      if t - head < tail - h - 1 then do
        let (items, called) ← mpQuicksort less lessResult fuel items head t
        let (items, looped) ← mpQuicksort less lessResult fuel items (h + 1) tail
        return (items, max (called + 1) looped)
      else do
        let (items, called) ← mpQuicksort less lessResult fuel items (h + 1) tail
        let (items, looped) ← mpQuicksort less lessResult fuel items head t
        return (items, max (called + 1) looped)
    else some (items, 1)

/-- `mp_obj_list_sort` -/
def mpObjListSort (key : α → κ) (less : κ → κ → Bool) (reverse : Bool) (items : List α) :
    Option (List α × ℕ) :=
  if 1 < items.length then
    mpQuicksort (fun x y => less (key x) (key y)) (!reverse) (items.length + 1) items 0
      (items.length - 1)
  else some (items, 0)

/-! ### Elements -/

section Elements

variable {items out : List α} {i j k : ℤ}

theorem exists_listAt (h0 : 0 ≤ i) (hi : i < items.length) : ∃ x, listAt items i = some x := by
  rw [listAt, if_pos h0]
  exact ⟨_, List.getElem?_eq_getElem (by omega)⟩

theorem listAt_set (h0 : 0 ≤ i) (hi : i < items.length) (x : α) (k : ℤ) :
    listAt (items.set i.toNat x) k = if k = i then some x else listAt items k := by
  rw [listAt, listAt]
  by_cases hk : k = i
  · rw [if_pos hk, if_pos (by omega), hk, List.getElem?_set_self (by omega)]
  · rw [if_neg hk]
    split
    · rw [List.getElem?_set_ne (by omega)]
    · rfl

/-- Only the elements from `lo` to `hi` were moved, and none of them out of there. -/
structure Within (lo hi : ℤ) (items out : List α) : Prop where
  perm : out.Perm items
  outside : ∀ k, k < lo ∨ hi < k → listAt out k = listAt items k
  inside : ∀ k, lo ≤ k → k ≤ hi → ∃ j, lo ≤ j ∧ j ≤ hi ∧ listAt out k = listAt items j

theorem Within.length_eq {lo hi : ℤ} (h : Within lo hi items out) : out.length = items.length :=
  h.perm.length_eq

theorem Within.refl (lo hi : ℤ) (items : List α) : Within lo hi items items :=
  ⟨.refl _, fun _ _ => rfl, fun k h1 h2 => ⟨k, h1, h2, rfl⟩⟩

theorem Within.trans {lo hi : ℤ} {mid : List α} (h : Within lo hi items mid)
    (h' : Within lo hi mid out) : Within lo hi items out := by
  refine ⟨h'.perm.trans h.perm, fun k hk => (h'.outside k hk).trans (h.outside k hk), ?_⟩
  intro k h1 h2
  obtain ⟨j, hj1, hj2, hj⟩ := h'.inside k h1 h2
  obtain ⟨l, hl1, hl2, hl⟩ := h.inside j hj1 hj2
  exact ⟨l, hl1, hl2, hj.trans hl⟩

theorem Within.mono {lo hi lo' hi' : ℤ} (h : Within lo hi items out) (hlo : lo' ≤ lo)
    (hhi : hi ≤ hi') : Within lo' hi' items out := by
  refine ⟨h.perm, fun k hk => h.outside k (by omega), fun k h1 h2 => ?_⟩
  by_cases hk : k < lo ∨ hi < k
  · exact ⟨k, h1, h2, h.outside k hk⟩
  · obtain ⟨j, hj1, hj2, hj⟩ := h.inside k (by omega) (by omega)
    exact ⟨j, by omega, by omega, hj⟩

theorem listSwap_spec (hi0 : 0 ≤ i) (hi : i < items.length) (hj0 : 0 ≤ j) (hj : j < items.length) :
    ∃ out, listSwap items i j = some out ∧ out.Perm items ∧
      ∀ k, listAt out k =
        if k = j then listAt items i else if k = i then listAt items j else listAt items k := by
  obtain ⟨x, hx⟩ := exists_listAt hi0 hi
  obtain ⟨y, hy⟩ := exists_listAt hj0 hj
  have hlen : (items.set i.toNat y).length = items.length := List.length_set
  refine ⟨(items.set i.toNat y).set j.toNat x, ?_, ?_, fun k => ?_⟩
  · simp only [listSwap, hx, hy, listPut, if_pos (And.intro hi0 hi), Option.bind_eq_bind,
      Option.bind_some, hlen, if_pos (And.intro hj0 hj)]
  · rw [listAt, if_pos hi0, List.getElem?_eq_some_iff] at hx
    rw [listAt, if_pos hj0, List.getElem?_eq_some_iff] at hy
    obtain ⟨hi', rfl⟩ := hx
    obtain ⟨hj', rfl⟩ := hy
    exact List.set_set_perm hi' hj'
  · rw [listAt_set hj0 (by omega), listAt_set hi0 hi, hx, hy]

theorem listSwap_within {lo hi : ℤ} (h0 : 0 ≤ lo) (hlen : hi < items.length) (hi1 : lo ≤ i)
    (hi2 : i ≤ hi) (hj1 : lo ≤ j) (hj2 : j ≤ hi) :
    ∃ out, listSwap items i j = some out ∧ Within lo hi items out ∧
      ∀ k, listAt out k =
        if k = j then listAt items i else if k = i then listAt items j else listAt items k := by
  obtain ⟨out, hswap, hperm, hat⟩ :=
    listSwap_spec (by omega : 0 ≤ i) (by omega : i < items.length) (by omega : 0 ≤ j) (by omega)
  refine ⟨out, hswap, ⟨hperm, fun k hk => ?_, fun k h1 h2 => ?_⟩, hat⟩
  · rw [hat, if_neg (by omega), if_neg (by omega)]
  · rw [hat]
    split_ifs
    · exact ⟨i, hi1, hi2, rfl⟩
    · exact ⟨j, hj1, hj2, rfl⟩
    · exact ⟨k, h1, h2, rfl⟩

end Elements

/-! ### The pointers -/

section Scan

variable (test : α → Bool) {items : List α} {h t : ℤ}

/-- Every element from `lo` to `hi` has a property. -/
def AllIn (items : List α) (lo hi : ℤ) (P : α → Prop) : Prop :=
  ∀ k, lo ≤ k → k ≤ hi → ∀ x, listAt items k = some x → P x

theorem scanUp_spec {fuel : ℕ} (h0 : -1 ≤ h) (hlt : h < t) (ht : t ≤ items.length)
    (hfuel : t - h ≤ fuel) :
    ∃ h', scanUp test items t fuel h = some h' ∧ h < h' ∧ h' ≤ t ∧
      AllIn items (h + 1) (h' - 1) (fun x => test x = true) ∧
      (h' < t → AllIn items h' h' fun x => test x = false) := by
  induction fuel generalizing h with
  | zero => omega
  | succ fuel ih =>
    rw [scanUp]
    by_cases hend : h + 1 < t
    · obtain ⟨x, hx⟩ := exists_listAt (by omega : 0 ≤ h + 1) (by omega : h + 1 < items.length)
      rw [if_pos hend, hx, Option.bind_eq_bind, Option.bind_some]
      by_cases htest : test x = true
      · rw [if_pos htest]
        obtain ⟨h', hscan, h1, h2, hall, hstop⟩ := ih (by omega) hend (by omega)
        refine ⟨h', hscan, by omega, h2, fun k hk1 hk2 y hy => ?_, hstop⟩
        rcases eq_or_lt_of_le hk1 with rfl | hk1
        · rw [hx] at hy
          cases hy
          exact htest
        · exact hall k (by omega) hk2 y hy
      · rw [if_neg htest]
        refine ⟨h + 1, rfl, by omega, by omega, fun k hk1 hk2 => by omega,
          fun _ k hk1 hk2 y hy => ?_⟩
        obtain rfl : k = h + 1 := by omega
        rw [hx] at hy
        cases hy
        exact Bool.eq_false_iff.mpr htest
    · rw [if_neg hend]
      exact ⟨h + 1, rfl, by omega, by omega, fun k hk1 hk2 => by omega, fun hlt => by omega⟩

theorem scanDown_spec {fuel : ℕ} (h0 : 0 ≤ h) (hle : h ≤ t) (ht : t ≤ items.length)
    (hfuel : t - h < fuel) :
    ∃ t', scanDown test items h fuel t = some t' ∧ t' < t ∧ h - 1 ≤ t' ∧ (h < t → h ≤ t') ∧
      AllIn items (max (t' + 1) (h + 1)) (t - 1) (fun x => test x = true) ∧
      (h < t' → AllIn items t' t' fun x => test x = false) := by
  induction fuel generalizing t with
  | zero => omega
  | succ fuel ih =>
    rw [scanDown]
    by_cases hend : h < t - 1
    · obtain ⟨x, hx⟩ := exists_listAt (by omega : 0 ≤ t - 1) (by omega : t - 1 < items.length)
      rw [if_pos hend, hx, Option.bind_eq_bind, Option.bind_some]
      by_cases htest : test x = true
      · rw [if_pos htest]
        obtain ⟨t', hscan, h1, h2, h3, hall, hstop⟩ :=
          ih (t := t - 1) (by omega) (by omega) (by omega)
        refine ⟨t', hscan, by omega, h2, by omega, fun k hk1 hk2 y hy => ?_, hstop⟩
        rcases eq_or_lt_of_le hk2 with rfl | hk2
        · rw [hx] at hy
          cases hy
          exact htest
        · exact hall k hk1 (by omega) y hy
      · rw [if_neg htest]
        refine ⟨t - 1, rfl, by omega, by omega, by omega, fun k hk1 hk2 => by omega,
          fun _ k hk1 hk2 y hy => ?_⟩
        obtain rfl : k = t - 1 := by omega
        rw [hx] at hy
        cases hy
        exact Bool.eq_false_iff.mpr htest
    · rw [if_neg hend]
      exact ⟨t - 1, rfl, by omega, by omega, by omega, fun k hk1 hk2 => by omega,
        fun hlt => by omega⟩

end Scan

/-! ### The pivot -/

/-- The order that is asked for: what the two tests say about an element and the pivot -/
structure SortOrder (less : α → α → Bool) (lessResult : Bool) (ok : α → α → Prop) : Prop where
  trans : ∀ {x y z}, ok x y → ok y z → ok x z
  left : ∀ {x v}, less x v = lessResult ∨ less v x ≠ lessResult → ok x v

variable {less : α → α → Bool} {lessResult : Bool} {ok : α → α → Prop}

/-- **The partition.** What is before `h` may stand before the pivot, and the rest after it. -/
theorem partitionLoop_spec (hok : SortOrder less lessResult ok) (v : α) {head tail : ℤ} {fuel : ℕ}
    {items : List α} {h t : ℤ} (hhead : 0 ≤ head) (htail : tail < items.length)
    (hh : head - 1 ≤ h) (hlt : h < t) (ht : t ≤ tail) (hfuel : t - h < fuel)
    (hleft : AllIn items head h fun x => ok x v)
    (hright : AllIn items t (tail - 1) fun x => ok v x) :
    ∃ out h' t', partitionLoop less lessResult v fuel items h t = some (out, h', t') ∧
      Within head (tail - 1) items out ∧ head ≤ h' ∧ h' ≤ tail ∧
      (t' = h' ∧ h' < tail ∨ t' = h' - 1) ∧ AllIn out head (h' - 1) (fun x => ok x v) ∧
      AllIn out h' (tail - 1) fun x => ok v x := by
  induction fuel generalizing items h t with
  | zero => omega
  | succ fuel ih =>
    obtain ⟨h', hup, h1, h2, hpass, hstop⟩ := scanUp_spec (fun x => less x v == lessResult)
      (by omega) hlt (by omega : t ≤ items.length) (by omega : t - h ≤ (items.length + 1 : ℕ))
    obtain ⟨t', hdown, t1, t2, t3, hpass', hstop'⟩ := scanDown_spec
      (fun x => less v x == lessResult) (by omega) h2 (by omega : t ≤ items.length)
      (by omega : t - h' < (items.length + 1 : ℕ))
    have hleft' : AllIn items head (h' - 1) fun x => ok x v := fun k hk1 hk2 x hx => by
      by_cases hk : k ≤ h
      · exact hleft k hk1 hk x hx
      · exact hok.left (.inl (by simpa using hpass k (by omega) hk2 x hx))
    have hright' : AllIn items (max (t' + 1) (h' + 1)) (tail - 1) fun x => ok v x :=
      fun k hk1 hk2 x hx => by
        by_cases hk : t ≤ k
        · exact hright k hk hk2 x hx
        · exact hok.left (.inl (by simpa using hpass' k hk1 (by omega) x hx))
    have hmid : h' < t → ∀ x, listAt items h' = some x → ok v x := fun hlt' x hx =>
      hok.left (.inr (by simpa using hstop hlt' h' le_rfl le_rfl x hx))
    rw [partitionLoop, hup, Option.bind_eq_bind, Option.bind_some, hdown, Option.bind_some]
    by_cases hend : t' ≤ h'
    · rw [if_pos hend]
      refine ⟨items, h', t', rfl, .refl _ _ _, by omega, by omega, by omega, hleft',
        fun k hk1 hk2 x hx => ?_⟩
      by_cases hk : t ≤ k
      · exact hright k hk hk2 x hx
      · rcases eq_or_lt_of_le hk1 with rfl | hk1
        · exact hmid (by omega) x hx
        · exact hright' k (by omega) hk2 x hx
    · -- the pointers have not met: the two elements are exchanged, and the loop goes on
      obtain ⟨out, hswap, hwithin, hat⟩ := listSwap_within (i := h') (j := t') hhead
        (by omega : tail - 1 < items.length) (by omega) (by omega) (by omega) (by omega)
      have hlen := hwithin.length_eq
      have hleft₂ : AllIn out head h' fun x => ok x v := fun k hk1 hk2 x hx => by
        rw [hat, if_neg (by omega)] at hx
        split_ifs at hx with hk
        · exact hok.left (.inr (by simpa using hstop' (by omega) t' le_rfl le_rfl x hx))
        · exact hleft' k hk1 (by omega) x hx
      have hright₂ : AllIn out t' (tail - 1) fun x => ok v x := fun k hk1 hk2 x hx => by
        rw [hat] at hx
        split_ifs at hx with hk hk'
        · exact hmid (by omega) x hx
        · omega
        · exact hright' k (by omega) hk2 x hx
      obtain ⟨out', hh, tt, hloop, hwithin', hrest⟩ := ih (by omega) (by omega : head - 1 ≤ h')
        (by omega : h' < t') (by omega) (by omega) hleft₂ hright₂
      rw [if_neg hend, hswap, Option.bind_eq_bind, Option.bind_some]
      exact ⟨out', hh, tt, hloop, hwithin.trans hwithin', hrest⟩

/-! ### The sort -/

/-- The elements from `lo` to `hi` are in order. -/
def SortedIn (ok : α → α → Prop) (items : List α) (lo hi : ℤ) : Prop :=
  ∀ i j, lo ≤ i → i < j → j ≤ hi → ∀ x y, listAt items i = some x → listAt items j = some y → ok x y

/-- The two parts were sorted, with the pivot between them or at the end of the first one. -/
theorem sortedIn_of_parts (hok : SortOrder less lessResult ok) {items out : List α}
    {v : α} {head tail h t : ℤ} (ht : t = h ∨ t = h - 1) (hpivot : listAt items h = some v)
    (hleft : AllIn items head (h - 1) fun x => ok x v)
    (hright : AllIn items (h + 1) tail fun x => ok v x)
    (hkeep : t < h → listAt out h = listAt items h)
    (hfrom : ∀ k, head ≤ k → k ≤ t → ∃ j, head ≤ j ∧ j ≤ t ∧ listAt out k = listAt items j)
    (hfrom' : ∀ k, h + 1 ≤ k → k ≤ tail →
      ∃ j, h + 1 ≤ j ∧ j ≤ tail ∧ listAt out k = listAt items j)
    (hsorted : SortedIn ok out head t) (hsorted' : SortedIn ok out (h + 1) tail) :
    SortedIn ok out head tail := by
  have hlow : ∀ k, head ≤ k → k ≤ h → ∀ x, listAt out k = some x →
      x = v ∨ ok x v := fun k hk1 hk2 x hx => by
    by_cases hk : k ≤ t
    · obtain ⟨j, hj1, hj2, hj⟩ := hfrom k hk1 hk
      rw [hx] at hj
      by_cases hjh : j = h
      · rw [hjh, hpivot] at hj
        exact .inl (Option.some.inj hj)
      · exact .inr (hleft j hj1 (by omega) x hj.symm)
    · obtain rfl : k = h := by omega
      rw [hkeep (by omega), hpivot] at hx
      exact .inl (Option.some.inj hx).symm
  have hhigh : ∀ k, h + 1 ≤ k → k ≤ tail → ∀ y, listAt out k = some y → ok v y :=
    fun k hk1 hk2 y hy => by
      obtain ⟨j, hj1, hj2, hj⟩ := hfrom' k hk1 hk2
      exact hright j hj1 hj2 y (hj.symm.trans hy)
  intro i j hi hij hj x y hx hy
  by_cases hjt : j ≤ t
  · exact hsorted i j hi hij hjt x y hx hy
  by_cases hih : h + 1 ≤ i
  · exact hsorted' i j hih hij hj x y hx hy
  by_cases hjh : h + 1 ≤ j
  · have hy := hhigh j hjh hj y hy
    rcases hlow i hi (by omega) x hx with rfl | hx
    · exact hy
    · exact hok.trans hx hy
  · -- the second element is the pivot itself
    obtain rfl : j = h := by omega
    rw [hkeep (by omega), hpivot] at hy
    obtain rfl := Option.some.inj hy
    obtain ⟨l, hl1, hl2, hl⟩ := hfrom i hi (by omega)
    exact hleft l hl1 (by omega) x (hl.symm.trans hx)

/-- Calls are nested `d` deep in a part with `n` elements. -/
def DepthOk (d n : ℕ) : Prop := 1 ≤ d ∧ 2 ^ (d - 1) ≤ max 1 n

/-- The call is made for the smaller part. -/
theorem DepthOk.parts {called looped m n k : ℕ} (hcall : DepthOk called m)
    (hloop : DepthOk looped n) (hk : 2 ≤ k) (hm : 2 * m ≤ k) (hn : n ≤ k) :
    DepthOk (max (called + 1) looped) k := by
  obtain ⟨h1, h2⟩ := hcall
  obtain ⟨h3, h4⟩ := hloop
  refine ⟨by omega, ?_⟩
  rcases le_total (called + 1) looped with h | h
  · rw [max_eq_right h]
    omega
  · have hpow : 2 ^ called = 2 * 2 ^ (called - 1) := by
      rw [← Nat.pow_succ', Nat.succ_eq_add_one, Nat.sub_add_cancel h1]
    rw [max_eq_left h, Nat.add_sub_cancel, hpow]
    omega

/-- Two parts that are apart are sorted one after the other. -/
theorem SortedIn.both {a b c : List α} {lo₁ hi₁ lo₂ hi₂ : ℤ} (hapart : hi₁ < lo₂ ∨ hi₂ < lo₁)
    (h₁ : Within lo₁ hi₁ a b) (h₂ : Within lo₂ hi₂ b c) (hsorted : SortedIn ok b lo₁ hi₁) :
    (∀ k, lo₁ ≤ k → k ≤ hi₁ → ∃ j, lo₁ ≤ j ∧ j ≤ hi₁ ∧ listAt c k = listAt a j) ∧
      (∀ k, lo₂ ≤ k → k ≤ hi₂ → ∃ j, lo₂ ≤ j ∧ j ≤ hi₂ ∧ listAt c k = listAt a j) ∧
      (∀ k, k < lo₁ ∨ hi₁ < k → k < lo₂ ∨ hi₂ < k → listAt c k = listAt a k) ∧
      SortedIn ok c lo₁ hi₁ := by
  have hsame : ∀ k, lo₁ ≤ k → k ≤ hi₁ → listAt c k = listAt b k := fun k hk1 hk2 =>
    h₂.outside k (by omega)
  refine ⟨fun k hk1 hk2 => ?_, fun k hk1 hk2 => ?_, fun k hk1 hk2 => ?_, ?_⟩
  · rw [hsame k hk1 hk2]
    exact h₁.inside k hk1 hk2
  · obtain ⟨j, hj1, hj2, hj⟩ := h₂.inside k hk1 hk2
    exact ⟨j, hj1, hj2, hj.trans (h₁.outside j (by omega))⟩
  · rw [h₂.outside k hk2, h₁.outside k hk1]
  · intro i j hi hij hj x y hx hy
    rw [hsame i hi (by omega)] at hx
    rw [hsame j (by omega) hj] at hy
    exact hsorted i j hi hij hj x y hx hy

/-- **The sort** of the elements from `head` to `tail` -/
theorem mpQuicksort_spec (hok : SortOrder less lessResult ok) {fuel : ℕ} {items : List α}
    {head tail : ℤ} (hhead : 0 ≤ head) (htail : tail < items.length) (hrange : head ≤ tail + 1)
    (hfuel : tail - head + 1 < fuel) :
    ∃ out d, mpQuicksort less lessResult fuel items head tail = some (out, d) ∧
      Within head tail items out ∧ SortedIn ok out head tail ∧
      DepthOk d (tail - head + 1).toNat := by
  induction fuel generalizing items head tail with
  | zero => omega
  | succ fuel ih =>
    rw [mpQuicksort]
    by_cases hlt : head < tail
    · obtain ⟨v, hv⟩ := exists_listAt (by omega : 0 ≤ tail) htail
      obtain ⟨part, h, t, hpart, hwithin, hh1, hh2, ht, hleft, hright⟩ :=
        partitionLoop_spec hok v hhead htail (le_refl (head - 1)) (by omega) (le_refl tail)
          (by omega : tail - (head - 1) < (items.length + 1 : ℕ)) (fun k hk1 hk2 => by omega)
          (fun k hk1 hk2 => by omega)
      have hlen := hwithin.length_eq
      obtain ⟨base, hswap, hwithin', hat⟩ := listSwap_within (i := h) (j := tail) hhead
        (by omega : tail < part.length) hh1 hh2 hlt.le le_rfl
      have hlen' := hwithin'.length_eq
      have hvpart : listAt part tail = some v := (hwithin.outside tail (by omega)).trans hv
      have hpivot : listAt base h = some v := by
        rw [hat, if_pos rfl, hvpart]
        split_ifs with heq
        · rw [heq, hvpart]
        · rfl
      have hleft' : AllIn base head (h - 1) fun x => ok x v := fun k hk1 hk2 x hx => by
        rw [hat, if_neg (by omega), if_neg (by omega)] at hx
        exact hleft k hk1 hk2 x hx
      have hright' : AllIn base (h + 1) tail fun x => ok v x := fun k hk1 hk2 x hx => by
        rw [hat] at hx
        split_ifs at hx with hk hk'
        · exact hright h le_rfl (by omega) x hx
        · omega
        · exact hright k (by omega) (by omega) x hx
      have hbase : Within head tail items base :=
        (hwithin.mono le_rfl (by omega)).trans hwithin'
      simp only [if_pos hlt, hv, hpart, hswap, Option.bind_eq_bind, Option.bind_some]
      split_ifs with hsmall
      · obtain ⟨out₁, d₁, hcall, hw₁, hs₁, hd₁⟩ := @ih base head t hhead (by omega)
          (by omega) (by omega)
        have hlen₁ := hw₁.length_eq
        obtain ⟨out₂, d₂, hloop, hw₂, hs₂, hd₂⟩ := @ih out₁ (h + 1) tail
          (by omega) (by omega) (by omega) (by omega)
        obtain ⟨hfrom, hfrom', hkeep, hs₁'⟩ := SortedIn.both (by omega) hw₁ hw₂ hs₁
        simp only [hcall, hloop, Option.bind_some]
        refine ⟨out₂, _, rfl, hbase.trans ((hw₁.mono le_rfl (by omega)).trans
          (hw₂.mono (by omega) le_rfl)), ?_, hd₁.parts hd₂ (by omega) (by omega) (by omega)⟩
        exact sortedIn_of_parts hok (by omega) hpivot hleft' hright'
          (fun hth => hkeep h (by omega) (by omega)) hfrom hfrom' hs₁' hs₂
      · obtain ⟨out₁, d₁, hcall, hw₁, hs₁, hd₁⟩ := @ih base (h + 1) tail (by omega)
          (by omega) (by omega) (by omega)
        have hlen₁ := hw₁.length_eq
        obtain ⟨out₂, d₂, hloop, hw₂, hs₂, hd₂⟩ := @ih out₁ head t hhead (by omega)
          (by omega) (by omega)
        obtain ⟨hfrom', hfrom, hkeep, hs₁'⟩ := SortedIn.both (by omega) hw₁ hw₂ hs₁
        simp only [hcall, hloop, Option.bind_some]
        refine ⟨out₂, _, rfl, hbase.trans ((hw₁.mono (by omega) le_rfl).trans
          (hw₂.mono le_rfl (by omega))), ?_, hd₁.parts hd₂ (by omega) (by omega) (by omega)⟩
        exact sortedIn_of_parts hok (by omega) hpivot hleft' hright'
          (fun hth => hkeep h (by omega) (by omega)) hfrom hfrom' hs₂ hs₁'
    · rw [if_neg hlt]
      exact ⟨items, 1, rfl, .refl _ _ _, fun i j hi hij hj => by omega, le_rfl, le_max_left _ _⟩

/-! ### Lists -/

variable {key : α → κ} {lt : κ → κ → Bool}

/-- The order of the result: no element is less than one before it, or after it for the other
direction. -/
def SortedBy (key : α → κ) (lt : κ → κ → Bool) (reverse : Bool) (x y : α) : Prop :=
  if reverse then lt (key x) (key y) = false else lt (key y) (key x) = false

theorem sortOrder_of_strictWeak (hasymm : ∀ a b, lt a b = true → lt b a = false)
    (htrans : ∀ a b c, lt a b = false → lt b c = false → lt a c = false) (reverse : Bool) :
    SortOrder (fun x y => lt (key x) (key y)) (!reverse) (SortedBy key lt reverse) := by
  cases reverse with
  | false =>
    refine ⟨fun hxy hyz => htrans _ _ _ hyz hxy, ?_⟩
    rintro x v (h | h)
    · exact hasymm _ _ h
    · exact Bool.eq_false_iff.mpr h
  | true =>
    refine ⟨fun hxy hyz => htrans _ _ _ hxy hyz, ?_⟩
    rintro x v (h | h)
    · exact h
    · exact hasymm _ _ (by simpa using h)

/-- **`list.sort`**, with a comparison of keys that is a strict weak order. There is a result, so
that no element outside the list is used; it is a permutation of the list in the order that is asked
for, and calls are nested at most logarithmically. -/
theorem mpObjListSort_sorted (hasymm : ∀ a b, lt a b = true → lt b a = false)
    (htrans : ∀ a b c, lt a b = false → lt b c = false → lt a c = false) (reverse : Bool)
    (items : List α) :
    ∃ out d, mpObjListSort key lt reverse items = some (out, d) ∧ out.Perm items ∧
      out.Pairwise (SortedBy key lt reverse) ∧ d ≤ Nat.log 2 items.length + 1 := by
  rw [mpObjListSort]
  split_ifs with hlen
  · have hok : SortOrder (fun x y => lt (key x) (key y)) (!reverse) (SortedBy key lt reverse) :=
      sortOrder_of_strictWeak hasymm htrans reverse
    obtain ⟨out, d, hsort, hwithin, hsorted, hd1, hd2⟩ := mpQuicksort_spec hok le_rfl
      (by omega : (items.length : ℤ) - 1 < items.length) (by omega)
      (by omega : (items.length : ℤ) - 1 - 0 + 1 < (items.length + 1 : ℕ))
    refine ⟨out, d, hsort, hwithin.perm, ?_, ?_⟩
    · rw [List.pairwise_iff_getElem]
      intro i j hi hj hij
      have hout := hwithin.length_eq
      refine hsorted i j (by omega) (by omega) (by omega) _ _ ?_ ?_
      · rw [listAt, if_pos (by omega), Int.toNat_natCast, List.getElem?_eq_getElem hi]
      · rw [listAt, if_pos (by omega), Int.toNat_natCast, List.getElem?_eq_getElem hj]
    · have hsize : ((items.length : ℤ) - 1 - 0 + 1).toNat = items.length := by omega
      rw [hsize, max_eq_right (by omega)] at hd2
      have := Nat.le_log_of_pow_le (by omega) hd2
      omega
  · refine ⟨items, 0, rfl, .refl _, ?_, Nat.zero_le _⟩
    match items, hlen with
    | [], _ => exact .nil
    | [x], _ => exact List.pairwise_singleton _ x
    | x :: y :: xs, hlen => simp at hlen

/-- Numbers, sorted by their remainders -/
theorem mpObjListSort_sorted_mod_three : ∃ out d,
    mpObjListSort (· % 3) (fun a b : ℕ => decide (a < b)) true [5, 3, 4] = some (out, d) ∧
      out.Perm [5, 3, 4] ∧ out.Pairwise (SortedBy (· % 3) (fun a b : ℕ => decide (a < b)) true) ∧
      d ≤ Nat.log 2 3 + 1 :=
  mpObjListSort_sorted (fun a b h => by simp at h ⊢; omega)
    (fun a b c h h' => by simp at h h' ⊢; omega) true [5, 3, 4]

end Pycopy
