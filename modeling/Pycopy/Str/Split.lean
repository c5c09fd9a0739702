import Pycopy.Lib.Cut
import Pycopy.Str.Unicode
import Pycopy.Str.Vstr
import Mathlib.Algebra.Order.Ring.Int

/-!
# Splitting and Joining Strings

`mp_obj_str_split`, `str_rsplit` and `str_join` of `py/objstr.c`, for a separator that is given. A
string is split by a scan over its bytes. With a limit, `str_rsplit` scans from the end and fills a
list from its end, a list that is allocated for as many pieces as the limit allows. Without a limit
it calls `mp_obj_str_split`, and that is wrong for a separator that overlaps with itself. The size
of the list in bytes is also computed without a check for a carry, and a large limit can ask for
more memory than there is, however short the string is.

## Main results

* `split_leftmost`: a string is split at the leftmost occurrences of the separator.
* `rsplit_iff`: where a string is split from the right as it should be.
-/

namespace Pycopy

/-! ### Definitions -/

/-- The bytes of a string that is in memory together with its NUL, on a machine with words of `w`
bits -/
structure HeapStr (w : ℕ) where
  data : List UInt8
  fits : data.length + 1 < 2 ^ w

/-- The inner loop of `mp_obj_str_split`, with fuel -/
def splitScan (mem sep : List UInt8) (splits : ℤ) (top : ℕ) : ℕ → ℕ → Except StrExc ℕ
  | 0, _ => .error .badRead
  | fuel + 1, s =>
    if splits = 0 ∨ top < s + sep.length then .ok top
    else do
      let bs ← readBytes mem s sep.length
      if bs = sep then .ok s else splitScan mem sep splits top fuel (s + 1)

/-- The outer loop: the pieces that are appended to the list, with fuel -/
def splitLoop (mem sep : List UInt8) (top : ℕ) : ℕ → ℕ → ℤ → Except StrExc (List (List UInt8))
  | 0, _, _ => .error .badRead
  | fuel + 1, start, splits => do
    let s ← splitScan mem sep splits top (top + 1) start
    let piece ← readBytes mem start (s - start)
    if top ≤ s then .ok [piece]
    else do
      let res ← splitLoop mem sep top fuel (s + sep.length)
        (if 0 < splits then splits - 1 else splits)
      .ok (piece :: res)

/-- `mp_obj_str_split` with a separator of the same type. If there is no limit, it is -1. A limit
that is no `mp_int_t` is refused by `mp_obj_get_int`. -/
def mpObjStrSplit (w : ℕ) (data sep : List UInt8) (splits : ℤ) :
    Except StrExc (List (List UInt8)) :=
  if splits < -2 ^ (w - 1) ∨ 2 ^ (w - 1) ≤ splits then .error .overflowError
  else if sep.length = 0 then .error .valueError
  else splitLoop (strMem data) sep data.length (data.length + 1) 0 splits

/-- The first loop of `str_join` -/
def joinLen (w : ℕ) (sep : List UInt8) : Bool → ℕ → List (List UInt8) → ℕ
  | _, requiredLen, [] => requiredLen
  | first, requiredLen, s :: items =>
    let requiredLen := if first then requiredLen else (requiredLen + sep.length) % 2 ^ w
    joinLen w sep false ((requiredLen + s.length) % 2 ^ w) items

/-- The second loop of `str_join` -/
def joinCopy (sep : List UInt8) :
    Bool → List UInt8 → ℕ → List (List UInt8) → Except VstrFault (List UInt8)
  | _, buf, _, [] => .ok buf
  | true, buf, data, s :: items => do
    let buf ← storeBytes buf data s
    joinCopy sep false buf (data + s.length) items
  | false, buf, data, s :: items => do
    let buf ← storeBytes buf data sep
    let buf ← storeBytes buf (data + sep.length) s
    joinCopy sep false buf (data + sep.length + s.length) items

/-- `vstr_init_len` -/
def vstrInitLen (w : ℕ) (junk : UInt8) (len : ℕ) : Vstr :=
  { vstrInit junk ((len + 1) % 2 ^ w) with len := len }

/-- `str_join` for a list of strings -/
def strJoin (w : ℕ) (junk : UInt8) (sep : List UInt8) (items : List (List UInt8)) :
    Except VstrFault (List UInt8) := do
  let vstr := vstrInitLen w junk (joinLen w sep true 0 items)
  let buf ← joinCopy sep true vstr.buf 0 items
  .ok (buf.take vstr.len)

/-- What a function can end with besides a result: an exception, one of which says that there is no
memory, or a store outside of what was allocated -/
inductive StoreExc
  | exc (e : StrExc)
  | memoryError
  | badStore
  deriving DecidableEq, Repr

/-- The size of an object in bytes, on a machine with words of `w` bits -/
structure ObjSize (w : ℕ) where
  size : ℕ
  two_le : 2 ≤ size
  four_lt : 4 * size < 2 ^ w

/-- The items of a list: `none` is one that is not filled in. -/
abbrev Items := List (Option (List UInt8))

/-- `mp_obj_new_list`: what there is for `n` items. The size in bytes is a `size_t`, and `canAlloc`
says whether `m_malloc` finds as many bytes. -/
def newItems {w : ℕ} (canAlloc : ℕ → Bool) (O : ObjSize w) (n : ℕ) : Except StoreExc Items :=
  let alloc := if n < 4 then 4 else n
  let bytes := alloc * O.size % 2 ^ w
  if bytes ≠ 0 ∧ canAlloc bytes = false then .error .memoryError
  else .ok (List.replicate (bytes / O.size) none)

/-- `res->items[idx] = obj` -/
def storeItem (items : Items) (idx : ℕ) (obj : List UInt8) : Except StoreExc Items :=
  if idx < items.length then .ok (items.set idx (some obj)) else .error .badStore

/-- The inner loop of `str_rsplit`, with fuel. The place may be in front of the string. -/
def rsplitScan (mem sep : List UInt8) (splits : ℕ) : ℕ → ℤ → Except StrExc ℤ
  | 0, _ => .error .badRead
  | fuel + 1, s =>
    if splits = 0 ∨ s < 0 then .ok s
    else do
      let bs ← readBytes mem s.toNat sep.length
      if bs = sep then .ok s else rsplitScan mem sep splits fuel (s - 1)

/-- The outer loop: the items, and the first one that is filled in, with fuel -/
def rsplitLoop (mem sep : List UInt8) : ℕ → Items → ℕ → ℕ → ℕ → Except StoreExc (Items × ℕ)
  | 0, _, _, _, _ => .error (.exc .badRead)
  | fuel + 1, items, idx, last, splits => do
    let s ← (rsplitScan mem sep splits (last + 1) (last - sep.length)).mapError .exc
    if s < 0 ∨ splits = 0 then do
      let piece ← (readBytes mem 0 last).mapError .exc
      let items ← storeItem items idx piece
      .ok (items, idx)
    else do
      let s := s.toNat
      let piece ← (readBytes mem (s + sep.length) (last - s - sep.length)).mapError .exc
      let items ← storeItem items idx piece
      rsplitLoop mem sep fuel items (idx - 1) s (splits - 1)

/-- `str_rsplit` with a separator, and with a limit or without -/
def strRsplit {w : ℕ} (canAlloc : ℕ → Bool) (O : ObjSize w) (data sep : List UInt8)
    (splits : Option ℤ) : Except StoreExc Items :=
  match splits with
  | none => ((mpObjStrSplit w data sep (-1)).map (·.map some)).mapError .exc
  | some splits =>
    if splits < -2 ^ (w - 1) ∨ 2 ^ (w - 1) ≤ splits then .error (.exc .overflowError)
    else if splits < 0 then ((mpObjStrSplit w data sep splits).map (·.map some)).mapError .exc
    else do
      let n := splits.toNat
      let items ← newItems canAlloc O (n + 1)
      if sep.length = 0 then .error (.exc .valueError)
      else do
        let (items, idx) ← rsplitLoop (strMem data) sep (data.length + 1) items n data.length n
        -- if fewer pieces were split off than the limit allows, they are moved to the front
        .ok ((items.drop idx).take (n + 1 - idx))

/-! ### Joining -/

variable {w : ℕ} {sep data : List UInt8} {buf : List UInt8} {s n : ℕ}

/-- Bytes are stored behind those that are in the buffer. -/
theorem storeBytes_append {done rest bs : List UInt8} (h : bs.length ≤ rest.length) :
    storeBytes (done ++ rest) done.length bs = .ok (done ++ bs ++ rest.drop bs.length) := by
  rw [storeBytes, if_pos (by rw [List.length_append]; omega), Stream.splice, List.take_left,
    List.drop_append]
  congr 2
  · rw [List.drop_eq_nil_of_le (by omega), Nat.add_sub_cancel_left, List.nil_append]

theorem intercalate_cons_eq (sep s : List UInt8) (items : List (List UInt8)) :
    sep.intercalate (s :: items) = s ++ items.flatMap fun s => sep ++ s := by
  induction items generalizing s with
  | nil => simp
  | cons t items ih =>
    rw [List.intercalate_cons_of_ne_nil (List.cons_ne_nil _ _), ih, List.flatMap_cons,
      List.append_assoc, List.append_assoc]

theorem joinLen_false (sep : List UInt8) (hn : n < 2 ^ w) (items : List (List UInt8)) :
    joinLen w sep false n items = (n + (items.flatMap fun s => sep ++ s).length) % 2 ^ w := by
  induction items generalizing n with
  | nil => exact (Nat.mod_eq_of_lt hn).symm
  | cons s items ih =>
    rw [joinLen, ih (Nat.mod_lt _ (Nat.two_pow_pos w)), if_neg Bool.false_ne_true,
      List.flatMap_cons, List.length_append, List.length_append]
    simp only [Nat.mod_add_mod]
    congr 1
    omega

theorem joinCopy_false (sep done : List UInt8) {rest : List UInt8} (items : List (List UInt8))
    (h : (items.flatMap fun s => sep ++ s).length ≤ rest.length) :
    joinCopy sep false (done ++ rest) done.length items =
      .ok (done ++ (items.flatMap fun s => sep ++ s) ++
        rest.drop (items.flatMap fun s => sep ++ s).length) := by
  induction items generalizing done rest with
  | nil => simp [joinCopy]
  | cons s items ih =>
    rw [List.flatMap_cons, List.length_append, List.length_append] at h
    have hlen : (items.flatMap fun s => sep ++ s).length ≤
        ((rest.drop sep.length).drop s.length).length := by
      simp only [List.length_drop]
      omega
    have hrest := ih (done ++ sep ++ s) hlen
    rw [joinCopy, storeBytes_append (by omega)]
    simp only [bind, Except.bind]
    rw [← List.length_append, storeBytes_append (by rw [List.length_drop]; omega)]
    simp only
    rw [← List.length_append, hrest, List.flatMap_cons]
    simp only [List.drop_drop, List.length_append, List.append_assoc, Nat.add_assoc]

/-- **Joining strings**, where the result with its NUL is not larger than the memory -/
theorem strJoin_eq {items : List (List UInt8)} (hitems : items ≠ [])
    (h : (sep.intercalate items).length + 1 < 2 ^ w) (junk : UInt8) :
    strJoin w junk sep items = .ok (sep.intercalate items) := by
  obtain ⟨s, items, rfl⟩ := List.exists_cons_of_ne_nil hitems
  rw [intercalate_cons_eq] at h ⊢
  rw [List.length_append] at h
  have hlen : joinLen w sep true 0 (s :: items) =
      (s ++ items.flatMap fun s => sep ++ s).length := by
    rw [joinLen, if_pos rfl, joinLen_false _ (Nat.mod_lt _ (Nat.two_pow_pos w)), Nat.zero_add,
      Nat.mod_add_mod, List.length_append, Nat.mod_eq_of_lt (by omega)]
  generalize hrest : (items.flatMap fun s => sep ++ s) = rest at h hlen
  have hbuf : (vstrInitLen w junk (s ++ rest).length).buf =
      [] ++ List.replicate (s.length + rest.length + 1) junk := by
    rw [vstrInitLen, vstrInit, List.length_append, Nat.mod_eq_of_lt h, if_neg (by omega)]
    rfl
  have hroom : (items.flatMap fun s => sep ++ s).length ≤
      (List.replicate (rest.length + 1) junk).length := by
    rw [hrest, List.length_replicate]
    omega
  have hcopy := joinCopy_false sep s items hroom
  have hdrop : s.length + rest.length + 1 - s.length = rest.length + 1 := by omega
  rw [strJoin, hlen, hbuf, joinCopy]
  rw [← List.length_nil (α := UInt8), storeBytes_append (by rw [List.length_replicate]; omega),
    List.nil_append, List.drop_replicate, hdrop]
  simp only [bind, Except.bind]
  rw [List.length_nil, Nat.zero_add, hcopy, hrest]
  exact congrArg Except.ok (List.take_left' rfl)

/-! ### Splitting -/

theorem readBytes_strMem (h : s + n ≤ data.length) :
    readBytes (strMem data) s n = .ok ((data.drop s).take n) := by
  rw [readBytes_of_le (by rw [strMem, List.length_append]; omega), strMem,
    List.drop_append_of_le_length (by omega),
    List.take_append_of_le_length (by rw [List.length_drop]; omega)]

/-- The scan stops at the first occurrence of the separator, or at the end. -/
theorem splitScan_eq (hne : sep ≠ []) {splits : ℤ} (hsplits : splits ≠ 0) {fuel : ℕ}
    (hs : s ≤ data.length) (hfuel : data.length - s < fuel) :
    splitScan (strMem data) sep splits data.length fuel s =
      .ok ((occurrences sep data s data.length).head?.getD data.length) := by
  induction fuel generalizing s with
  | zero => omega
  | succ fuel ih =>
    rw [splitScan]
    by_cases hend : data.length < s + sep.length
    · rw [if_pos (.inr hend), occurrences_eq_nil hend]
      rfl
    · rw [if_neg (by rintro (h | h) <;> contradiction), readBytes_strMem (by omega)]
      simp only [bind, Except.bind]
      by_cases hsep : sep <+: data.drop s
      · rw [if_pos (List.prefix_iff_eq_take.mp hsep).symm,
          occurrences_of_starts (by omega) hs hsep]
        rfl
      · rw [if_neg fun h => hsep (List.prefix_iff_eq_take.mpr h.symm),
          occurrences_of_not_starts hsep]
        have hpos := List.length_pos_iff.mpr hne
        exact ih (by omega) (by omega)

/-- The first `n` of some places, or all of them if `n` is negative -/
def limitTo (n : ℤ) (ps : List ℕ) : List ℕ := if n < 0 then ps else ps.take n.toNat

theorem limitTo_sublist (n : ℤ) (ps : List ℕ) : (limitTo n ps).Sublist ps := by
  rw [limitTo]
  split
  · exact List.Sublist.refl _
  · exact List.take_sublist _ _

theorem limitTo_cons {n : ℤ} (hn : n ≠ 0) (p : ℕ) (ps : List ℕ) :
    limitTo n (p :: ps) = p :: limitTo (if 0 < n then n - 1 else n) ps := by
  by_cases h : n < 0
  · have hn' : ¬0 < n := by omega
    rw [if_neg hn', limitTo, limitTo, if_pos h, if_pos h]
  · obtain ⟨m, rfl⟩ : ∃ m : ℕ, n = m + 1 := ⟨(n - 1).toNat, by omega⟩
    have hm : (0 : ℤ) < m + 1 := by omega
    rw [if_pos hm, limitTo, limitTo, if_neg h, if_neg (by omega)]
    simp

/-- **The pieces of a string**, cut at the leftmost occurrences of the separator -/
theorem splitLoop_eq (hne : sep ≠ []) {fuel : ℕ} (splits : ℤ) (hs : s ≤ data.length)
    (hfuel : data.length - s < fuel) :
    splitLoop (strMem data) sep data.length fuel s splits =
      .ok (Cut.pieces sep.length data s
        (limitTo splits (Cut.leftmost sep data s data.length))) := by
  induction fuel generalizing s splits with
  | zero => omega
  | succ fuel ih =>
    -- the scan runs to the end of the string: one piece is left
    have hlast : readBytes (strMem data) s (data.length - s) = .ok (data.drop s) := by
      rw [readBytes_strMem (by omega), ← List.length_drop, List.take_length]
    rw [splitLoop]
    by_cases hsplits : splits = 0
    · subst hsplits
      rw [splitScan, if_pos (.inl rfl)]
      simp only [bind, Except.bind, hlast, le_refl, if_true]
      simp [limitTo, Cut.pieces]
    · rw [splitScan_eq hne hsplits hs (by omega)]
      simp only [bind, Except.bind]
      cases hocc : (occurrences sep data s data.length).head? with
      | none =>
        rw [Cut.leftmost_of_occurrences_eq_nil (List.head?_eq_none_iff.mp hocc)]
        simp only [Option.getD_none, hlast, le_refl, if_true]
        simp [limitTo, Cut.pieces]
      | some p =>
        obtain ⟨-, h1, h2, -⟩ := mem_occurrences.mp (List.mem_of_head? hocc)
        have hpos := List.length_pos_iff.mpr hne
        have hlt : ¬data.length ≤ p := by omega
        rw [Cut.leftmost_eq hne hocc, limitTo_cons hsplits, Cut.pieces, Option.getD_some,
          readBytes_strMem (by omega)]
        simp only [hlt, if_false]
        rw [ih _ h2 (by omega)]

theorem mpObjStrSplit_eq (w : ℕ) (hne : sep ≠ []) (data : List UInt8) (splits : ℤ) :
    mpObjStrSplit w data sep splits =
      if splits < -2 ^ (w - 1) ∨ 2 ^ (w - 1) ≤ splits then .error .overflowError
      else .ok (Cut.pieces sep.length data 0
        (limitTo splits (Cut.leftmost sep data 0 data.length))) := by
  have hpos := List.length_pos_iff.mpr hne
  rw [mpObjStrSplit, if_neg (show sep.length ≠ 0 by omega),
    splitLoop_eq hne splits (Nat.zero_le _) (by omega)]

/-- The scan stops at the last occurrence of the separator, or in front of the string. -/
theorem rsplitScan_eq (hne : sep ≠ []) {splits : ℕ} (hsplits : splits ≠ 0) {fuel m : ℕ}
    (hm : m + sep.length ≤ data.length + 1) (hfuel : m < fuel) :
    rsplitScan (strMem data) sep splits fuel (m - 1) =
      .ok (match (occurrences sep data 0 (m + sep.length - 1)).getLast? with
        | some p => p
        | none => -1) := by
  have hpos := List.length_pos_iff.mpr hne
  induction m generalizing fuel with
  | zero =>
    obtain ⟨fuel, rfl⟩ := Nat.exists_eq_add_one_of_ne_zero (Nat.ne_of_gt hfuel)
    rw [rsplitScan, if_pos (.inr (by omega)), occurrences_eq_nil (by omega)]
    rfl
  | succ m ih =>
    obtain ⟨fuel, rfl⟩ := Nat.exists_eq_add_one_of_ne_zero (Nat.ne_of_gt (Nat.zero_lt_of_lt hfuel))
    have hs : ((m + 1 : ℕ) : ℤ) - 1 = m := by omega
    have hend : m + 1 + sep.length - 1 = m + sep.length := by omega
    rw [rsplitScan, hs, hend, if_neg (by omega), Int.toNat_natCast, readBytes_strMem (by omega)]
    simp only [bind, Except.bind]
    by_cases hsep : sep <+: data.drop m
    · rw [if_pos (List.prefix_iff_eq_take.mp hsep).symm,
        occurrences_below_of_starts (Nat.zero_le m) (by omega) hsep hne, List.getLast?_concat]
    · rw [if_neg fun h => hsep (List.prefix_iff_eq_take.mpr h.symm), ih (by omega) (by omega),
        occurrences_below_of_not_starts hsep]

theorem rsplitScan_last (hne : sep ≠ []) {splits : ℕ} (hsplits : splits ≠ 0) {last : ℕ}
    (hlast : last ≤ data.length) :
    ∃ s : ℤ, rsplitScan (strMem data) sep splits (last + 1) (last - sep.length) = .ok s ∧
      match (occurrences sep data 0 last).getLast? with
      | some p => s = p
      | none => s < 0 := by
  have hpos := List.length_pos_iff.mpr hne
  by_cases hle : sep.length ≤ last
  · obtain ⟨m, rfl⟩ := Nat.exists_eq_add_of_le' hle
    have hs : ((m + sep.length : ℕ) : ℤ) - sep.length = (m + 1 : ℕ) - 1 := by omega
    have hend : m + 1 + sep.length - 1 = m + sep.length := by omega
    refine ⟨_, by rw [hs]; exact rsplitScan_eq hne hsplits (by omega) (by omega), ?_⟩
    rw [hend]
    cases (occurrences sep data 0 (m + sep.length)).getLast? with
    | none => exact Int.negSucc_lt_zero 0
    | some p => rfl
  · refine ⟨last - sep.length, ?_, ?_⟩
    · rw [rsplitScan, if_pos (.inr (by omega))]
    · rw [occurrences_eq_nil (by omega), List.getLast?_nil]
      simp only
      omega

/-- The items behind `idx` are filled from the end with the pieces of the string in front of
`last`. -/
theorem rsplitLoop_eq (hne : sep ≠ []) {fuel : ℕ} {items : Items} {idx last : ℕ}
    (hidx : idx < items.length) (hlast : last ≤ data.length) (hfuel : last < fuel) :
    ∃ front, rsplitLoop (strMem data) sep fuel items idx last idx =
        .ok (front ++ (Cut.pieces sep.length (data.take last) 0
            ((Cut.rightmost sep data last).take idx).reverse).map some ++ items.drop (idx + 1),
          front.length) ∧
      front.length + ((Cut.rightmost sep data last).take idx).length = idx := by
  have hpos := List.length_pos_iff.mpr hne
  induction fuel generalizing items idx last with
  | zero => omega
  | succ fuel ih =>
    have hstore (piece : List UInt8) : storeItem items idx piece =
        .ok (items.take idx ++ some piece :: items.drop (idx + 1)) := by
      rw [storeItem, if_pos hidx, List.set_eq_take_append_cons_drop, if_pos hidx]
    have hfront : (items.take idx).length = idx := by
      rw [List.length_take]
      omega
    -- one piece is left: what is in front of `last`
    have hdone {s : ℤ} (hs : s < 0 ∨ idx = 0) (hcuts : (Cut.rightmost sep data last).take idx = [])
        (hscan : rsplitScan (strMem data) sep idx (last + 1) (last - sep.length) = .ok s) :
        rsplitLoop (strMem data) sep (fuel + 1) items idx last idx =
          .ok (items.take idx ++ (Cut.pieces sep.length (data.take last) 0
            ((Cut.rightmost sep data last).take idx).reverse).map some ++ items.drop (idx + 1),
          (items.take idx).length) := by
      rw [rsplitLoop, hscan]
      simp only [Except.mapError, bind, Except.bind, if_pos hs]
      rw [readBytes_strMem (by omega), hcuts, hfront]
      simp only [hstore]
      simp [Cut.pieces]
    by_cases hzero : idx = 0
    · subst hzero
      exact ⟨_, hdone (.inr rfl) rfl (by rw [rsplitScan, if_pos (.inl rfl)]), by simp⟩
    · obtain ⟨s, hscan, hs⟩ := rsplitScan_last hne hzero hlast
      cases hocc : (occurrences sep data 0 last).getLast? with
      | none =>
        rw [hocc] at hs
        have hnil := Cut.rightmost_of_occurrences_eq_nil (List.getLast?_eq_none_iff.mp hocc)
        refine ⟨_, hdone (.inl hs) (by rw [hnil, List.take_nil]) hscan, ?_⟩
        rw [hnil, List.take_nil, hfront]
        rfl
      | some p =>
        rw [hocc] at hs
        subst hs
        obtain ⟨-, -, hp, -⟩ := mem_occurrences.mp (List.mem_of_getLast? hocc)
        obtain ⟨n, rfl⟩ := Nat.exists_eq_add_one_of_ne_zero hzero
        have hitems (piece : List UInt8) :
            n < (items.take (n + 1) ++ some piece :: items.drop (n + 1 + 1)).length := by
          rw [List.length_append, hfront]
          omega
        have hple : p ≤ data.length := by omega
        have hpfuel : p < fuel := by omega
        obtain ⟨front, hloop, hlen⟩ :=
          ih (hitems ((data.take last).drop (p + sep.length))) hple hpfuel
        have hbelow (q : ℕ) (hq : q ∈ ((Cut.rightmost sep data p).take n).reverse) :
            q + sep.length ≤ p :=
          Cut.le_of_mem_apartBelow (List.mem_of_mem_take (List.mem_reverse.mp hq))
        refine ⟨front, ?_, ?_⟩
        · rw [rsplitLoop, hscan]
          have hge : ¬((p : ℤ) < 0 ∨ n + 1 = 0) := by omega
          simp only [Except.mapError, bind, Except.bind, if_neg hge]
          rw [Int.toNat_natCast, readBytes_strMem (by omega), Nat.sub_sub, ← List.drop_take]
          simp only [hstore]
          have htail (piece : List UInt8) : (items.take (n + 1) ++
              some piece :: items.drop (n + 1 + 1)).drop (n + 1) =
                some piece :: items.drop (n + 1 + 1) :=
            List.drop_left' hfront
          rw [Nat.add_sub_cancel, hloop, htail, Cut.rightmost_eq hne hocc, List.take_succ_cons,
            List.reverse_cons, Cut.pieces_concat hbelow (Nat.zero_le p) (by omega)]
          simp
        · rw [Cut.rightmost_eq hne hocc, List.take_succ_cons, List.length_cons]
          omega

/-- The bytes of a list for `n + 1` items -/
def listBytes (O : ObjSize w) (n : ℕ) : ℕ := (if n + 1 < 4 then 4 else n + 1) * O.size

/-- A list whose size in bytes is a `size_t` is allocated with room for all items. -/
theorem newItems_eq {canAlloc : ℕ → Bool} (O : ObjSize w) {n : ℕ} (h : (n + 1) * O.size < 2 ^ w) :
    (canAlloc (listBytes O n) = true → ∃ items, newItems canAlloc O (n + 1) = .ok items ∧
        n < items.length) ∧
      (canAlloc (listBytes O n) = false → newItems canAlloc O (n + 1) = .error .memoryError) := by
  have hsize := O.two_le
  have hlt : listBytes O n < 2 ^ w := by
    rw [listBytes]
    split_ifs
    · exact O.four_lt
    · exact h
  have hroom : n < listBytes O n / O.size := by
    rw [listBytes, Nat.mul_div_cancel _ (by omega)]
    split_ifs <;> omega
  have hne : listBytes O n ≠ 0 := fun h0 => by simp [h0] at hroom
  simp only [newItems]
  rw [← listBytes, Nat.mod_eq_of_lt hlt]
  refine ⟨fun hyes => ⟨_, if_neg (by simp [hyes]), ?_⟩, fun hno => if_pos ⟨hne, hno⟩⟩
  rwa [List.length_replicate]

/-- If the size of the list in bytes has a carry, there is no room for the last item. -/
theorem newItems_short {canAlloc : ℕ → Bool} (O : ObjSize w) {n : ℕ} {items : Items}
    (h : 2 ^ w ≤ (n + 1) * O.size) (hitems : newItems canAlloc O (n + 1) = .ok items) :
    items.length ≤ n := by
  have hfour := O.four_lt
  have hsize := O.two_le
  have hn : ¬n + 1 < 4 := by
    intro hlt
    have := Nat.mul_le_mul_right O.size (Nat.le_of_lt hlt)
    omega
  rw [newItems, if_neg hn] at hitems
  split_ifs at hitems
  cases hitems
  rw [List.length_replicate, ← Nat.lt_succ_iff, Nat.div_lt_iff_lt_mul (by omega)]
  exact lt_of_lt_of_le (Nat.mod_lt _ (Nat.two_pow_pos w)) h

/-- A limit for which the size of the list is a `size_t` is an `mp_int_t`. -/
theorem limit_lt (O : ObjSize w) {n : ℕ} (h : (n + 1) * O.size < 2 ^ w) : n < 2 ^ (w - 1) := by
  have hfour := O.four_lt
  have htwo := O.two_le
  have hle := Nat.mul_le_mul_left (n + 1) htwo
  cases w with
  | zero => omega
  | succ w =>
    rw [pow_succ] at h
    rw [Nat.add_sub_cancel]
    omega

theorem rsplitLoop_short (hne : sep ≠ []) {items : Items} {idx last : ℕ}
    (hidx : items.length ≤ idx) (hlast : last ≤ data.length) (fuel : ℕ) :
    rsplitLoop (strMem data) sep (fuel + 1) items idx last idx = .error .badStore := by
  have hstore (piece : List UInt8) : storeItem items idx piece = .error .badStore := by
    rw [storeItem, if_neg (by omega)]
  have hlastPiece : readBytes (strMem data) 0 last = .ok ((data.drop 0).take last) :=
    readBytes_strMem (by omega)
  rw [rsplitLoop]
  by_cases hzero : idx = 0
  · rw [rsplitScan, if_pos (.inl hzero)]
    simp only [Except.mapError, bind, Except.bind, hzero, or_true, if_true, hlastPiece]
    rw [← hzero, hstore]
  · obtain ⟨s, hscan, hs⟩ := rsplitScan_last hne hzero hlast
    rw [hscan]
    simp only [Except.mapError, bind, Except.bind, hzero, or_false]
    cases hocc : (occurrences sep data 0 last).getLast? with
    | none =>
      rw [hocc] at hs
      simp only [if_pos hs, hlastPiece, hstore]
    | some p =>
      rw [hocc] at hs
      subst hs
      obtain ⟨-, -, hp, -⟩ := mem_occurrences.mp (List.mem_of_getLast? hocc)
      have hge : ¬(p : ℤ) < 0 := by omega
      rw [if_neg hge, Int.toNat_natCast, readBytes_strMem (by omega)]
      simp only [hstore]

/-- The pieces of a string that is cut at the last `n` occurrences of the separator, found from the
right -/
def rightPieces (data sep : List UInt8) (n : ℕ) : List (List UInt8) :=
  Cut.pieces sep.length data 0 ((Cut.rightmost sep data data.length).take n).reverse

/-- The limit `n` is not negative, and an `mp_int_t` unless it is refused. -/
theorem strRsplit_some {canAlloc : ℕ → Bool} (O : ObjSize w) (data sep : List UInt8) {n : ℕ}
    (h : n < 2 ^ (w - 1)) : strRsplit canAlloc O data sep (some n) = (do
      let items ← newItems canAlloc O (n + 1)
      if sep.length = 0 then .error (.exc .valueError)
      else do
        let (items, idx) ← rsplitLoop (strMem data) sep (data.length + 1) items n data.length n
        .ok ((items.drop idx).take (n + 1 - idx))) := by
  have hword : ¬((n : ℤ) < -2 ^ (w - 1) ∨ (2 : ℤ) ^ (w - 1) ≤ n) := by
    have hcast : ((2 ^ (w - 1) : ℕ) : ℤ) = 2 ^ (w - 1) := by push_cast; rfl
    omega
  simp only [strRsplit]
  rw [if_neg hword, if_neg (by omega), Int.toNat_natCast]

/-- **With a limit** the string is split from the right. -/
theorem strRsplit_eq {canAlloc : ℕ → Bool} (O : ObjSize w) (hne : sep ≠ []) (data : List UInt8)
    {n : ℕ} (h : (n + 1) * O.size < 2 ^ w) (halloc : canAlloc (listBytes O n) = true) :
    strRsplit canAlloc O data sep (some n) = .ok ((rightPieces data sep n).map some) := by
  have hpos := List.length_pos_iff.mpr hne
  obtain ⟨items, hitems, hroom⟩ := (newItems_eq O h).1 halloc
  obtain ⟨front, hloop, hlen⟩ := rsplitLoop_eq hne hroom (le_refl data.length)
    (Nat.lt_succ_self _)
  rw [strRsplit_some O data sep (limit_lt O h), hitems]
  simp only [bind, Except.bind]
  rw [if_neg (by omega), hloop]
  simp only [List.take_length, List.append_assoc, List.drop_left]
  rw [List.take_left']
  · rfl
  · rw [List.length_map, Cut.length_pieces, List.length_reverse]
    omega

/-- Without room for the list there is no result. -/
theorem strRsplit_error {canAlloc : ℕ → Bool} (O : ObjSize w) (hne : sep ≠ []) (data : List UInt8)
    {n : ℕ} (h : ¬((n + 1) * O.size < 2 ^ w ∧ canAlloc (listBytes O n) = true)) :
    ∃ e, strRsplit canAlloc O data sep (some n) = .error e := by
  have hpos := List.length_pos_iff.mpr hne
  by_cases hlim : n < 2 ^ (w - 1)
  · rw [strRsplit_some O data sep hlim]
    by_cases hsize : (n + 1) * O.size < 2 ^ w
    · have hno := Bool.eq_false_of_not_eq_true fun halloc => h ⟨hsize, halloc⟩
      rw [(newItems_eq O hsize).2 hno]
      exact ⟨_, rfl⟩
    · cases hnew : newItems canAlloc O (n + 1) with
      | error e => exact ⟨_, rfl⟩
      | ok new =>
        simp only [bind, Except.bind]
        rw [if_neg (by omega),
          rsplitLoop_short hne (newItems_short O (Nat.not_lt.mp hsize) hnew) le_rfl]
        exact ⟨_, rfl⟩
  · have hword : (n : ℤ) < -2 ^ (w - 1) ∨ (2 : ℤ) ^ (w - 1) ≤ n := by
      have hcast : ((2 ^ (w - 1) : ℕ) : ℤ) = 2 ^ (w - 1) := by push_cast; rfl
      omega
    simp only [strRsplit]
    rw [if_pos hword]
    exact ⟨_, rfl⟩

/-- Without a limit it is split from the left. -/
theorem strRsplit_none (canAlloc : ℕ → Bool) (O : ObjSize w) (hne : sep ≠ []) (data : List UInt8) :
    strRsplit canAlloc O data sep none =
      .ok ((Cut.pieces sep.length data 0 (Cut.leftmost sep data 0 data.length)).map some) := by
  have hpow : (0 : ℤ) < 2 ^ (w - 1) := Int.pow_pos (by decide)
  rw [strRsplit, mpObjStrSplit_eq w hne, if_neg (by omega), limitTo, if_pos (by decide)]
  rfl

/-- `s.rsplit(sep, n)` splits at the last `n` occurrences of the separator, joining the pieces gives
the string, and if there are no more occurrences than that, `s.rsplit(sep)` is the same. -/
def RsplitsRight (canAlloc : ℕ → Bool) (O : ObjSize w) (str : HeapStr w) (sep : List UInt8)
    (n : ℕ) : Prop :=
  strRsplit canAlloc O str.data sep (some n) = .ok ((rightPieces str.data sep n).map some) ∧
    (∀ junk, strJoin w junk sep (rightPieces str.data sep n) = .ok str.data) ∧
    ((Cut.rightmost sep str.data str.data.length).length ≤ n →
      strRsplit canAlloc O str.data sep none = strRsplit canAlloc O str.data sep (some n))

/-- **A string is split from the right as it should be** just when the size of a list with `n + 1`
items is a `size_t` and there is memory for it, and the occurrences found from both sides are the
same unless the limit cuts some off. -/
theorem rsplit_iff (canAlloc : ℕ → Bool) (O : ObjSize w) (str : HeapStr w) (hne : sep ≠ [])
    (n : ℕ) : RsplitsRight canAlloc O str sep n ↔
      ((n + 1) * O.size < 2 ^ w ∧ canAlloc (listBytes O n) = true) ∧
      ((Cut.rightmost sep str.data str.data.length).length ≤ n →
        Cut.leftmost sep str.data 0 str.data.length =
          (Cut.rightmost sep str.data str.data.length).reverse) := by
  have hsome : Function.Injective (List.map (some : List UInt8 → _)) :=
    List.map_injective_iff.mpr (Option.some_injective _)
  have hcuts := Cut.isCuts_rightmost sep str.data n
  have hjoin := Cut.intercalate_pieces hcuts
  rw [List.drop_zero] at hjoin
  have hfits := str.fits
  constructor
  · rintro ⟨hsplit, -, hall⟩
    refine ⟨by_contra fun hroom => ?_, fun hle => ?_⟩
    · obtain ⟨e, herror⟩ := strRsplit_error O hne str.data hroom
      rw [herror] at hsplit
      cases hsplit
    have heq := hall hle
    rw [strRsplit_none canAlloc O hne, hsplit, Except.ok.injEq, hsome.eq_iff, rightPieces] at heq
    rw [Cut.pieces_inj (Cut.isCuts_leftmost sep (Nat.zero_le _)) hcuts heq,
      List.take_of_length_le hle]
  · rintro ⟨⟨hsize, halloc⟩, hall⟩
    have hsplit := strRsplit_eq O hne str.data hsize halloc
    refine ⟨hsplit, fun junk => ?_, fun hle => ?_⟩
    · rw [rightPieces, strJoin_eq (Cut.pieces_ne_nil _ _ _ _) (by rw [hjoin]; exact hfits), hjoin]
    · rw [strRsplit_none canAlloc O hne, hsplit, rightPieces, hall hle, List.take_of_length_le hle]

/-- A machine with words of 32 bits, where an object is a word -/
def objSize32 : ObjSize 32 := ⟨4, by decide, by decide⟩

/-- `"a,b".rsplit(",", 1)`, with memory for 16 bytes -/
theorem rsplit_iff_comma :
    RsplitsRight (fun n => decide (n ≤ 16)) objSize32 ⟨[97, 44, 98], by decide⟩ [44] 1 :=
  (rsplit_iff _ objSize32 _ (by decide) 1).mpr ⟨⟨by decide, by decide⟩, by decide⟩

/-- `"aaa".rsplit("aa")` is `["", "a"]`, and `"aaa".rsplit("aa", 1)` is `["a", ""]`. With the limit
`2 ** 30 - 1` the list has no room at all, and the first piece is stored outside of it. -/
theorem rsplit_overlap :
    strRsplit (fun _ => true) objSize32 [97, 97, 97] [97, 97] none = .ok [some [], some [97]] ∧
      strRsplit (fun _ => true) objSize32 [97, 97, 97] [97, 97] (some 1) =
        .ok [some [97], some []] ∧
      (Cut.rightmost [97, 97] [97, 97, 97] 3 : List ℕ) = [1] ∧
      ¬RsplitsRight (fun _ => true) objSize32 ⟨[97, 97, 97], by decide⟩ [97, 97] 1 ∧
      strRsplit (fun _ => true) objSize32 [97] [44] (some (2 ^ 30 - 1)) = .error .badStore := by
  refine ⟨by decide, by decide, by decide, ?_, by decide⟩
  rintro ⟨-, -, hall⟩
  have h := hall (by decide)
  revert h
  decide

end Pycopy
