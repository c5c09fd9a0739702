import Pycopy.Runtime.IntObj
import Pycopy.Str.Unicode

/-!
# Indexing and Searching Strings

`py/objstrunicode.c`: subscripts, slices and iterators of `str`, and `str_finder` of `py/objstr.c`.
An index counts characters, and `str_index_to_ptr` finds the byte where its character starts by
walking over the string from one end. What is found in the bytes is turned back into an index.

An index is first converted to a machine word, and this is what can go wrong: an integer that does
not fit raises an `OverflowError`, where it should be an index out of range, or a bound that is
clamped.

## Main results

* `str_op_eq_iff`: which operations on a string do what they do on the list of its characters.
-/

open Utf8

namespace Pycopy

/-! ### Indices -/

/-- A machine with words of `w` bits: the representation of objects and the big integers -/
structure StrBuild (w : ℕ) where
  repr : ObjRepr w
  mpz : MpzConfig
  digSize_lt : mpz.digSize < w

variable {w : ℕ}

/-- The index as a machine word -/
def StrBuild.getIndex (B : StrBuild w) (index : IndexObj) : Except StrExc ℤ :=
  match getIntMaybe B.mpz w index with
  | .ok i => .ok i
  | .error .overflowError => .error .overflowError
  | .error .notInt => .error .typeError

/-- An index out of range: the end of the string in a slice, or an `IndexError`. -/
def outOfRange (isSlice : Bool) (s : ℕ) : Except StrExc ℕ :=
  if isSlice then .ok s else .error .indexError

/-- The walk of `str_index_to_ptr` from the end of the string: `s + 1` is the byte behind the one
that is looked at next. -/
def indexBackward (mem : List UInt8) (isSlice : Bool) : ℕ → ℤ → Except StrExc ℕ
  | 0, i => if i = 0 then .ok 0 else outOfRange isSlice 0
  | s + 1, i =>
    if i = 0 then .ok (s + 1)
    else do
      let b ← readByte mem s
      indexBackward mem isSlice s (if isCont b then i else i + 1)

/-- The walk of `str_index_to_ptr` from the start of the string, with fuel -/
def indexForward (mem : List UInt8) (top : ℕ) (isSlice : Bool) : ℕ → ℤ → ℕ → Except StrExc ℕ
  | 0, _, _ => .error .badRead
  | fuel + 1, i, s =>
    if top ≤ s then outOfRange isSlice top
    else if i = 0 then .ok s
    else do
      let s ← utf8NextChar mem s
      indexForward mem top isSlice fuel (i - 1) s

/-- `str_index_to_ptr` -/
def strIndexToPtr (B : StrBuild w) (data : List UInt8) (index : IndexObj) (isSlice : Bool) :
    Except StrExc ℕ := do
  let i ← B.getIndex index
  if i < 0 then indexBackward (strMem data) isSlice data.length i
  else indexForward (strMem data) data.length isSlice (data.length + 1) i 0

/-! ### Subscripts and iterators -/

/-- `for (char mask = 0x40; *s & mask; mask >>= 1) { ++len; }`, with fuel for the bits -/
def countLead : ℕ → ℕ → ℕ → ℕ → ℕ
  | 0, _, _, len => len
  | fuel + 1, b, mask, len =>
    if b &&& mask ≠ 0 then countLead fuel b (mask >>> 1) (len + 1) else len

/-- `str_subscr` for an index: the bytes of a string with one character -/
def strSubscr (B : StrBuild w) (data : List UInt8) (index : IndexObj) :
    Except StrExc (List UInt8) := do
  let s ← strIndexToPtr B data index false
  let b ← readByte (strMem data) s
  let len := if b.toNat &&& 0x80 ≠ 0 then countLead 7 b.toNat 0x40 1 else 1
  readBytes (strMem data) s len

/-- A bound of a slice or of a search. If it is `None` or missing, it is `none`. -/
def strBound (B : StrBuild w) (data : List UInt8) (bound : Option IndexObj) (missing : ℕ) :
    Except StrExc ℕ :=
  match bound with
  | some i => strIndexToPtr B data i true
  | none => .ok missing

/-- `str_subscr` for a slice -/
def strSlice (B : StrBuild w) (data : List UInt8) (start stop step : Option IndexObj) :
    Except StrExc (List UInt8) :=
  if step ≠ none ∧ step ≠ some (.int (.small 1)) then .error .notImplementedError
  else do
    let pstart ← strBound B data start 0
    let pstop ← strBound B data stop data.length
    if pstop < pstart then .ok [] else readBytes (strMem data) pstart (pstop - pstart)

/-- A loop over a string: `str_it_iternext` from `cur` until the iterator stops, with fuel. -/
def strIterate (data : List UInt8) : ℕ → ℕ → Except StrExc (List (List UInt8))
  | 0, _ => .error .badRead
  | fuel + 1, cur =>
    if cur < data.length then do
      let end_ ← utf8NextChar (strMem data) cur
      let out ← readBytes (strMem data) cur (end_ - cur)
      let outs ← strIterate data fuel end_
      .ok (out :: outs)
    else .ok []

/-! ### Searching -/

/-- The loop of `find_subbytes`. There are `n` steps to `str_index_end`. -/
def findLoop (mem : List UInt8) (needle : List UInt8) (forward : Bool) :
    ℕ → ℕ → Except StrExc (Option ℕ)
  | n, p => do
    let bs ← readBytes mem p needle.length
    if bs = needle then .ok (some p)
    else
      match n with
      | 0 => .ok none
      | n + 1 => findLoop mem needle forward n (if forward then p + 1 else p - 1)

/-- `find_subbytes`: where the needle is in the `hlen` bytes from `haystack` on -/
def findSubbytes (mem : List UInt8) (haystack hlen : ℕ) (needle : List UInt8) (forward : Bool) :
    Except StrExc (Option ℕ) :=
  if needle.length ≤ hlen then
    findLoop mem needle forward (hlen - needle.length)
      (if forward then haystack else haystack + (hlen - needle.length))
  else .ok none

/-- The search of `str_finder` between two bytes -/
def findBetween (mem : List UInt8) (start stop : ℕ) (needle : List UInt8) (forward : Bool) :
    Except StrExc (Option ℕ) :=
  if stop < start then .ok none else findSubbytes mem start (stop - start) needle forward

/-- `str_finder` for two strings -/
def strFinder (B : StrBuild w) (haystack needle : List UInt8) (start stop : Option IndexObj)
    (forward isIndex : Bool) : Except StrExc ℤ := do
  let start ← strBound B haystack start 0
  let stop ← strBound B haystack stop haystack.length
  let p ← findBetween (strMem haystack) start stop needle forward
  match p with
  | some p => do
    let i ← utf8PtrToIndex (strMem haystack) p
    .ok i
  | none => if isIndex then .error .valueError else .ok (-1)

/-! ### The place of an index -/

/-- The bound of a slice of a list of length `n` -/
def pyBound (n : ℕ) (i : ℤ) : ℕ := if i < 0 then (n + i).toNat else min i.toNat n

/-- The position of an index in a list of length `n` -/
def pyIndex (n : ℕ) (i : ℤ) : Option ℕ :=
  if 0 ≤ i ∧ i < n then some i.toNat
  else if -n ≤ i ∧ i < 0 then some (n + i).toNat
  else none

theorem pyBound_le (n : ℕ) (i : ℤ) : pyBound n i ≤ n := by
  rw [pyBound]
  split <;> omega

variable {n : ℕ} {i : ℤ} {k : ℕ}

theorem pyBound_of_pyIndex (h : pyIndex n i = some k) : pyBound n i = k := by
  rw [pyIndex] at h
  rw [pyBound]
  split_ifs at h with h1 h2
  · cases h
    rw [if_neg (by omega)]
    omega
  · cases h
    rw [if_pos h2.2]

theorem lt_of_pyIndex (h : pyIndex n i = some k) : k < n := by
  rw [pyIndex] at h
  split_ifs at h <;> cases h <;> omega

variable {s : List UInt8}

theorem indexForward_charPlace (isSlice : Bool) {fuel n : ℕ}
    (hfuel : s.length - charPlace s n < fuel) (k : ℕ) :
    indexForward (strMem s) s.length isSlice fuel k (charPlace s n) =
      if n + k < numChars s then .ok (charPlace s (n + k))
      else outOfRange isSlice s.length := by
  induction fuel generalizing n k with
  | zero => omega
  | succ fuel ih =>
    rw [indexForward]
    by_cases htop : s.length ≤ charPlace s n
    · have hge := mt charPlace_lt_iff.mpr (Nat.not_lt.mpr htop)
      rw [if_pos htop, if_neg (by omega)]
    · have hlt := Nat.lt_of_not_le htop
      have hn := charPlace_lt_iff.mp hlt
      rw [if_neg htop]
      cases k with
      | zero => simp [hn]
      | succ k =>
        obtain ⟨q, hq, hfirst⟩ := utf8NextChar_bytes hlt
        cases hfirst.unique (firstStart_charPlace_succ hlt)
        have hle := hfirst.le
        rw [if_neg (by omega), hq]
        simp only [bind, Except.bind]
        rw [Nat.cast_succ, add_sub_cancel_right, ih (by omega), Nat.succ_add_eq_add_succ]

theorem indexBackward_charPlace (isSlice : Bool) {p : ℕ} (hp : p ≤ s.length) {k : ℕ} (hk : k ≠ 0) :
    indexBackward (strMem s) isSlice p (-k) =
      if k ≤ numChars (s.take p) then .ok (charPlace s (numChars (s.take p) - k))
      else outOfRange isSlice 0 := by
  induction p generalizing k with
  | zero => rw [indexBackward, if_neg (by omega), if_neg (by simp [numChars, hk])]
  | succ p ih =>
    have hget : s[p]? = some s[p] := List.getElem?_eq_getElem hp
    rw [indexBackward, if_neg (by omega), readByte_strMem hget, numChars_take_add_one hget]
    simp only [bind, Except.bind]
    have hle := Nat.le_of_succ_le hp
    cases hcont : isCont s[p] with
    | true => exact ih hle hk
    | false =>
      have hstart : Starts s p := by
        intro b hb
        cases hget.symm.trans hb
        exact hcont
      obtain ⟨k, rfl⟩ := Nat.exists_eq_succ_of_ne_zero hk
      have hcast : -((k.succ : ℕ) : ℤ) + 1 = -(k : ℤ) := by omega
      simp only [Bool.false_eq_true, if_false, hcast]
      rcases Nat.eq_zero_or_pos k with rfl | hpos
      · rw [if_pos (by omega), Nat.add_sub_cancel, charPlace_of_starts hle hstart]
        cases p <;> simp [indexBackward]
      · rw [ih hle (by omega), Nat.succ_eq_add_one, Nat.add_sub_add_right]
        exact if_congr (by omega) rfl rfl

/-! ### Indices of a string -/

section Index

variable {B : StrBuild w} {index : IndexObj} (hindex : index.IsInt B.repr B.mpz)
include hindex

theorem getIndex_eq : B.getIndex index =
      if index.Fits B.mpz w then .ok (index.value B.mpz) else .error .overflowError := by
  rw [StrBuild.getIndex, getIntMaybe_eq B.digSize_lt hindex]
  by_cases h : index.Fits B.mpz w
  · rw [if_pos h, if_pos h]
  · rw [if_neg h, if_neg h]

theorem strIndexToPtr_of_not_fits (h : ¬index.Fits B.mpz w) (data : List UInt8) (isSlice : Bool) :
    strIndexToPtr B data index isSlice = .error .overflowError := by
  rw [strIndexToPtr, getIndex_eq hindex, if_neg h]
  rfl

/-- **The place of an index** in any bytes that start with a character -/
theorem strIndexToPtr_bytes (hs : Starts s 0) (h : index.Fits B.mpz w) (isSlice : Bool) :
    strIndexToPtr B s index isSlice =
      match pyIndex (numChars s) (index.value B.mpz) with
      | some i => .ok (charPlace s i)
      | none => outOfRange isSlice (charPlace s (pyBound (numChars s) (index.value B.mpz))) := by
  have hzero : charPlace s 0 = 0 := charPlace_of_starts (Nat.zero_le _) hs
  rw [strIndexToPtr, getIndex_eq hindex, if_pos h]
  simp only [bind, Except.bind]
  generalize index.value B.mpz = v
  by_cases hv : v < 0
  · obtain ⟨k, rfl⟩ : ∃ k : ℕ, v = -k := ⟨v.natAbs, by omega⟩
    have hneg : ¬(0 ≤ -(k : ℤ) ∧ -(k : ℤ) < numChars s) := by omega
    rw [if_pos hv, indexBackward_charPlace isSlice le_rfl (by omega), List.take_length, pyIndex,
      pyBound, if_neg hneg, if_pos hv]
    by_cases hk : k ≤ numChars s
    · rw [if_pos hk, if_pos (by omega)]
      congr 2
      omega
    · have : ((numChars s : ℤ) + -(k : ℤ)).toNat = 0 := by omega
      rw [if_neg hk, if_neg (by omega), this, hzero]
  · obtain ⟨k, rfl⟩ : ∃ k : ℕ, v = k := ⟨v.natAbs, by omega⟩
    have hwalk := @indexForward_charPlace s isSlice (s.length + 1) 0 (by omega) k
    rw [hzero, Nat.zero_add] at hwalk
    rw [if_neg hv, hwalk, pyIndex, pyBound, if_neg hv]
    by_cases hk : k < numChars s
    · rw [if_pos hk, if_pos (by omega)]
      rfl
    · have : min (k : ℤ).toNat (numChars s) = numChars s := by omega
      rw [if_neg hk, if_neg (by omega), if_neg (by omega), this,
        charPlace_of_numChars_le le_rfl]

theorem strIndexToPtr_slice (hs : Starts s 0) (h : index.Fits B.mpz w) :
    strIndexToPtr B s index true =
      .ok (charPlace s (pyBound (numChars s) (index.value B.mpz))) := by
  rw [strIndexToPtr_bytes hindex hs h]
  cases hp : pyIndex (numChars s) (index.value B.mpz) with
  | some i => rw [pyBound_of_pyIndex hp]
  | none => rfl

end Index

/-! ### Subscripts -/

/-- The length of a character from its first byte -/
theorem countLead_head : ∀ n < 256, (n < 128 → n &&& 0x80 = 0) ∧ (128 ≤ n → n &&& 0x80 ≠ 0) ∧
    (192 ≤ n → n < 224 → countLead 7 n 0x40 1 = 2) ∧
    (224 ≤ n → n < 240 → countLead 7 n 0x40 1 = 3) ∧
    (240 ≤ n → n < 248 → countLead 7 n 0x40 1 = 4) := by
  decide +kernel

theorem charLen_of_headOf {h : UInt8} (hk : HeadOf h k) :
    (if h.toNat &&& 0x80 ≠ 0 then countLead 7 h.toNat 0x40 1 else 1) = k + 1 := by
  obtain ⟨h0, h1, h2, h3, h4⟩ := countLead_head h.toNat h.toNat_lt
  rcases hk with ⟨rfl, hlt⟩ | ⟨rfl, hge, hlt⟩ | ⟨rfl, hge, hlt⟩ | ⟨rfl, hge, hlt⟩
  · rw [if_neg (by simpa using h0 hlt)]
  · rw [if_pos (h1 (by omega)), h2 hge hlt]
  · rw [if_pos (h1 (by omega)), h3 hge hlt]
  · rw [if_pos (h1 (by omega)), h4 hge hlt]

/-- The bytes of the characters from `lo` to `hi` -/
theorem readBytes_offset (l : List Char) {lo hi : ℕ} (h : lo ≤ hi) :
    readBytes (strMem (code.encode l)) (code.offset l lo) (code.offset l hi - code.offset l lo) =
      .ok (code.encode ((l.take hi).drop lo)) := by
  have hle := code.offset_mono l h
  have hend := code.offset_le l hi
  have hlo : code.offset l lo = code.offset (l.take hi) lo := by
    rw [SyncCode.offset, SyncCode.offset, List.take_take, Nat.min_eq_left h]
  rw [readBytes_of_le (by simp [strMem]; omega), strMem, List.drop_append_of_le_length (by omega),
    List.take_append_of_le_length (by rw [List.length_drop]; omega), ← List.drop_take,
    code.take_offset, hlo, code.drop_offset]

theorem strSubscr_eq {B : StrBuild w} {index : IndexObj} (hindex : index.IsInt B.repr B.mpz)
    (h : index.Fits B.mpz w) (l : List Char) :
    strSubscr B (code.encode l) index =
      match pyIndex l.length (index.value B.mpz) with
      | some i => .ok (code.encode ((l.drop i).take 1))
      | none => .error .indexError := by
  rw [strSubscr, strIndexToPtr_bytes hindex (starts_offset l 0) h, numChars_encode]
  cases hp : pyIndex l.length (index.value B.mpz) with
  | none => rfl
  | some i =>
    have hi := lt_of_pyIndex hp
    obtain ⟨hd, t, heq, hhead, hread⟩ := readByte_offset hi
    have hword : code.word l[i] = hd :: t := heq
    have hoff : code.offset l (i + 1) - code.offset l i = t.length + 1 := by
      rw [SyncCode.offset_add, List.drop_eq_getElem_cons hi, SyncCode.offset_cons_succ,
        SyncCode.offset_zero, hword, List.length_cons]
      omega
    have hbytes := readBytes_offset l (Nat.le_succ i)
    rw [Nat.succ_eq_add_one, hoff, ← List.take_drop] at hbytes
    simp only [bind, Except.bind, charPlace_encode (Nat.le_of_lt hi), hread,
      charLen_of_headOf hhead, hbytes]

/-! ### Slices and iterators -/

/-- A bound in a list of length `n`, if it is there -/
def pyBoundOr (c : MpzConfig) (n : ℕ) (bound : Option IndexObj) (missing : ℕ) : ℕ :=
  match bound with
  | some i => pyBound n (i.value c)
  | none => missing

/-- A bound that is there is an integer. -/
def BoundIsInt (B : StrBuild w) (bound : Option IndexObj) : Prop :=
  ∀ i ∈ bound, i.IsInt B.repr B.mpz

/-- A bound that is there fits a machine word. -/
def BoundFits (B : StrBuild w) (bound : Option IndexObj) : Prop := ∀ i ∈ bound, i.Fits B.mpz w

instance (B : StrBuild w) (bound : Option IndexObj) : Decidable (BoundFits B bound) :=
  inferInstanceAs (Decidable (∀ i ∈ bound, i.Fits B.mpz w))

theorem pyBoundOr_le {c : MpzConfig} {n missing : ℕ} (h : missing ≤ n) (bound : Option IndexObj) :
    pyBoundOr c n bound missing ≤ n := by
  cases bound with
  | some i => exact pyBound_le n _
  | none => exact h

theorem strBound_eq {B : StrBuild w} {bound : Option IndexObj} (hint : BoundIsInt B bound)
    (l : List Char) (missing : ℕ) :
    strBound B (code.encode l) bound (code.offset l missing) =
      if BoundFits B bound then .ok (code.offset l (pyBoundOr B.mpz l.length bound missing))
      else .error .overflowError := by
  cases bound with
  | none => rw [if_pos (by simp [BoundFits]), strBound, pyBoundOr]
  | some i =>
    have hi := hint i rfl
    rw [strBound, pyBoundOr]
    by_cases h : i.Fits B.mpz w
    · rw [if_pos (by simpa [BoundFits] using h), strIndexToPtr_slice hi (starts_offset l 0) h,
        numChars_encode, charPlace_encode (pyBound_le _ _)]
    · rw [if_neg (by simpa [BoundFits] using h), strIndexToPtr_of_not_fits hi h]

variable {start : Option IndexObj}

theorem strBound_start {B : StrBuild w} (hstart : BoundIsInt B start) (l : List Char) :
    strBound B (code.encode l) start 0 =
      if BoundFits B start then .ok (code.offset l (pyBoundOr B.mpz l.length start 0))
      else .error .overflowError :=
  strBound_eq hstart l 0

variable {stop : Option IndexObj}

theorem strBound_stop {B : StrBuild w} (hstop : BoundIsInt B stop) (l : List Char) :
    strBound B (code.encode l) stop (code.encode l).length =
      if BoundFits B stop then .ok (code.offset l (pyBoundOr B.mpz l.length stop l.length))
      else .error .overflowError := by
  rw [← strBound_eq hstop l, code.offset_of_length_le le_rfl]

/-- Both bounds are looked at before they are used. -/
theorem strBounds_bind {B : StrBuild w} {α : Type} (hstart : BoundIsInt B start)
    (hstop : BoundIsInt B stop) (l : List Char) (f : ℕ → ℕ → Except StrExc α) :
    (do let pstart ← strBound B (code.encode l) start 0
        let pstop ← strBound B (code.encode l) stop (code.encode l).length
        f pstart pstop) =
      if BoundFits B start ∧ BoundFits B stop then
        f (code.offset l (pyBoundOr B.mpz l.length start 0))
          (code.offset l (pyBoundOr B.mpz l.length stop l.length))
      else .error .overflowError := by
  rw [strBound_start hstart, strBound_stop hstop]
  by_cases h1 : BoundFits B start
  · by_cases h2 : BoundFits B stop
    · rw [if_pos h1, if_pos h2, if_pos ⟨h1, h2⟩]
      rfl
    · rw [if_pos h1, if_neg h2, if_neg (mt And.right h2)]
      rfl
  · rw [if_neg h1, if_neg (mt And.left h1)]
    rfl

theorem strSlice_eq {B : StrBuild w} {step : Option IndexObj}
    (hstart : BoundIsInt B start) (hstop : BoundIsInt B stop)
    (hstep : step = none ∨ step = some (.int (.small 1))) (l : List Char) :
    strSlice B (code.encode l) start stop step =
      if BoundFits B start ∧ BoundFits B stop then
        .ok (code.encode ((l.take (pyBoundOr B.mpz l.length stop l.length)).drop
          (pyBoundOr B.mpz l.length start 0)))
      else .error .overflowError := by
  have hstep' : ¬(step ≠ none ∧ step ≠ some (.int (.small 1))) := by
    rintro ⟨h1, h2⟩
    exact hstep.elim h1 h2
  rw [strSlice, if_neg hstep', strBounds_bind hstart hstop]
  congr 1
  have hlo := pyBoundOr_le (c := B.mpz) (Nat.zero_le l.length) start
  generalize pyBoundOr B.mpz l.length start 0 = lo at hlo
  generalize pyBoundOr B.mpz l.length stop l.length = hi
  rcases Nat.lt_or_ge hi lo with hlt | hle
  · rw [if_pos (Nat.lt_of_not_le (mt (code.offset_le_offset_iff hlo).mp (by omega))),
      List.drop_of_length_le (by rw [List.length_take]; omega)]
    rfl
  · rw [if_neg (Nat.not_lt.mpr (code.offset_mono l hle)), readBytes_offset l hle]

theorem strIterate_offset (l : List Char) {fuel i : ℕ} (hi : i ≤ l.length)
    (hfuel : l.length - i < fuel) :
    strIterate (code.encode l) fuel (code.offset l i) =
      .ok ((l.drop i).map String.utf8EncodeChar) := by
  induction fuel generalizing i with
  | zero => omega
  | succ fuel ih =>
    rw [strIterate]
    rcases Nat.eq_or_lt_of_le hi with rfl | hlt
    · rw [if_neg (by rw [code.offset_of_length_le le_rfl]; omega), List.drop_length]
      rfl
    · have hoff := code.offset_lt_length hlt
      have hchar : code.encode ((l.take (i + 1)).drop i) = String.utf8EncodeChar l[i] := by
        rw [← List.take_drop, List.drop_eq_getElem_cons hlt, List.take_succ_cons, List.take_zero]
        exact code.encode_singleton _
      rw [if_pos hoff, utf8NextChar_offset hlt]
      simp only [bind, Except.bind]
      rw [readBytes_offset l (Nat.le_succ i), ih hlt (by omega), Nat.succ_eq_add_one, hchar,
        List.drop_eq_getElem_cons hlt, List.map_cons]

/-! ### Searching -/

variable {mem needle : List UInt8} {p : ℕ}

theorem findLoop_forward (h : p + n + needle.length ≤ mem.length) : findLoop mem needle true n p =
      .ok ((List.range' p (n + 1)).find? fun q => needle <+: mem.drop q) := by
  induction n generalizing p with
  | zero =>
    rw [findLoop, readBytes_of_le (by omega)]
    simp only [bind, Except.bind, List.prefix_iff_eq_take]
    by_cases hq : (mem.drop p).take needle.length = needle
    · simp [hq]
    · simp [hq, Ne.symm hq]
  | succ n ih =>
    rw [findLoop, readBytes_of_le (by omega), List.range'_succ, List.find?_cons]
    simp only [bind, Except.bind, if_true, List.prefix_iff_eq_take]
    by_cases hq : (mem.drop p).take needle.length = needle
    · simp [hq]
    · rw [if_neg hq, ih (by omega)]
      simp [Ne.symm hq, List.prefix_iff_eq_take]

theorem findLoop_backward (hn : n ≤ p) (h : p + needle.length ≤ mem.length) :
    findLoop mem needle false n p =
      .ok ((List.range' (p - n) (n + 1)).reverse.find? fun q => needle <+: mem.drop q) := by
  induction n generalizing p with
  | zero =>
    rw [findLoop, readBytes_of_le h]
    simp only [bind, Except.bind, Nat.sub_zero, List.prefix_iff_eq_take]
    by_cases hq : (mem.drop p).take needle.length = needle
    · simp [hq]
    · simp [hq, Ne.symm hq]
  | succ n ih =>
    rw [findLoop, readBytes_of_le h, List.range'_1_concat, List.reverse_append,
      List.reverse_singleton, List.singleton_append, List.find?_cons]
    simp only [bind, Except.bind, List.prefix_iff_eq_take]
    rw [Nat.sub_add_cancel hn]
    by_cases hq : (mem.drop p).take needle.length = needle
    · simp [hq]
    · rw [if_neg hq, if_neg (by simp), ih (by omega) (by omega)]
      have : p - 1 - n = p - (n + 1) := by omega
      simp [Ne.symm hq, List.prefix_iff_eq_take, this]

/-- The first or the last of some places -/
def firstOrLast (forward : Bool) (ps : List ℕ) : Option ℕ :=
  if forward then ps.head? else ps.getLast?

/-- **The first or the last occurrence of some bytes** -/
theorem findSubbytes_eq {data : List UInt8} {haystack hlen : ℕ}
    (h : haystack + hlen ≤ data.length) (forward : Bool) :
    findSubbytes (strMem data) haystack hlen needle forward =
      .ok (firstOrLast forward (occurrences needle data haystack (haystack + hlen))) := by
  rw [findSubbytes]
  split
  · rename_i hle
    have hocc : (List.range' haystack (hlen - needle.length + 1)).filter
        (fun q => needle <+: (strMem data).drop q) =
          occurrences needle data haystack (haystack + hlen) := by
      refine ((List.pairwise_lt_range' 1 Nat.one_pos).filter _).eq_of_mem_iff
        (pairwise_occurrences _ _ _ _) fun q => ?_
      rw [List.mem_filter, List.mem_range'_1, mem_occurrences, decide_eq_true_eq]
      have hiff (hq : q + needle.length ≤ data.length) :
          needle <+: (strMem data).drop q ↔ needle <+: data.drop q := by
        rw [List.prefix_iff_eq_take, List.prefix_iff_eq_take, strMem,
          List.drop_append_of_le_length (by omega),
          List.take_append_of_le_length (by rw [List.length_drop]; omega)]
      constructor
      · rintro ⟨⟨h1, h2⟩, h3⟩
        exact ⟨by omega, h1, by omega, (hiff (by omega)).mp h3⟩
      · rintro ⟨-, h1, h2, h3⟩
        exact ⟨⟨h1, by omega⟩, (hiff (by omega)).mpr h3⟩
    have hmem : (strMem data).length = data.length + 1 := by simp [strMem]
    cases forward with
    | true =>
      rw [if_pos rfl, findLoop_forward (by omega), firstOrLast, if_pos rfl, ← hocc,
        List.head?_filter]
    | false =>
      rw [if_neg (by simp), findLoop_backward (by omega) (by omega), Nat.add_sub_cancel,
        firstOrLast, if_neg (by simp), ← hocc, List.getLast?_filter]
  · rename_i hlt
    have hocc : occurrences needle data haystack (haystack + hlen) = [] := by
      rw [List.eq_nil_iff_forall_not_mem]
      intro p hp
      obtain ⟨-, h1, h2, -⟩ := mem_occurrences.mp hp
      omega
    rw [hocc]
    cases forward <;> rfl

theorem mem_of_firstOrLast {forward : Bool} {ps : List ℕ}
    (h : firstOrLast forward ps = some p) : p ∈ ps := by
  rw [firstOrLast] at h
  split at h
  · exact List.mem_of_head? h
  · exact List.mem_of_getLast? h

theorem firstOrLast_map (forward : Bool) (f : ℕ → ℕ) (ps : List ℕ) :
    firstOrLast forward (ps.map f) = (firstOrLast forward ps).map f := by
  rw [firstOrLast, firstOrLast]
  split
  · exact List.head?_map
  · exact List.getLast?_map

variable {needle : List Char}

/-- A search in a string is a search in the list of its characters. -/
theorem findBetween_encode {l : List Char} (hneedle : needle ≠ []) {lo hi : ℕ}
    (hlo : lo ≤ l.length) (hhi : hi ≤ l.length) (forward : Bool) :
    findBetween (strMem (code.encode l)) (code.offset l lo) (code.offset l hi) (code.encode needle)
      forward = .ok ((firstOrLast forward (occurrences needle l lo hi)).map (code.offset l)) := by
  rw [findBetween]
  split
  · rename_i hlt
    have hocc : occurrences needle l lo hi = [] := by
      rw [List.eq_nil_iff_forall_not_mem]
      intro p hp
      obtain ⟨-, h1, h2, -⟩ := mem_occurrences.mp hp
      have := code.offset_mono l (i := lo) (j := hi) (by omega)
      omega
    rw [hocc]
    cases forward <;> rfl
  · have hend := code.offset_le l hi
    rw [findSubbytes_eq (by omega), Nat.add_sub_cancel' (by omega),
      code.occurrences_encode hneedle hlo hhi, firstOrLast_map]

/-- Searching in the list of characters -/
def charsFind (l needle : List Char) (lo hi : ℕ) (forward isIndex : Bool) : Except StrExc ℤ :=
  match firstOrLast forward (occurrences needle l lo hi) with
  | some i => .ok i
  | none => if isIndex then .error .valueError else .ok (-1)

theorem strFinder_eq {B : StrBuild w} (hstart : BoundIsInt B start)
    (hstop : BoundIsInt B stop) (l : List Char) (hneedle : needle ≠ [])
    (forward isIndex : Bool) :
    strFinder B (code.encode l) (code.encode needle) start stop forward isIndex =
      if BoundFits B start ∧ BoundFits B stop then
        charsFind l needle (pyBoundOr B.mpz l.length start 0)
          (pyBoundOr B.mpz l.length stop l.length) forward isIndex
      else .error .overflowError := by
  rw [strFinder, strBounds_bind hstart hstop]
  congr 1
  have hlo := pyBoundOr_le (c := B.mpz) (Nat.zero_le l.length) start
  have hhi := pyBoundOr_le (c := B.mpz) (Nat.le_refl l.length) stop
  generalize pyBoundOr B.mpz l.length start 0 = lo at hlo
  generalize pyBoundOr B.mpz l.length stop l.length = hi at hhi
  rw [findBetween_encode hneedle hlo hhi, charsFind]
  cases hp : firstOrLast forward (occurrences needle l lo hi) with
  | none => rfl
  | some i =>
    have hi := (mem_occurrences.mp (mem_of_firstOrLast hp)).1
    simp only [Option.map_some, bind, Except.bind]
    rw [utf8PtrToIndex_offset hi]

/-! ### Operations on a string and on its characters -/

/-- The operations: `len`, a subscript, a slice, a loop, and the methods that search, with the
characters of the needle. -/
inductive StrOp
  | len
  | subscr (index : IndexObj)
  | slice (start stop step : Option IndexObj)
  | iterate
  | find (needle : List Char) (start stop : Option IndexObj) (forward isIndex : Bool)
  deriving DecidableEq

/-- What an operation returns: an integer, the bytes of a string, or those of several. -/
inductive StrVal
  | int (i : ℤ)
  | str (bs : List UInt8)
  | strs (l : List (List UInt8))
  deriving DecidableEq, Repr

/-- An operation on the bytes of a string -/
def strOp (B : StrBuild w) (data : List UInt8) : StrOp → Except StrExc StrVal
  | .len => (utf8Charlen (strMem data) 0 data.length).map fun n => .int n
  | .subscr index => (strSubscr B data index).map .str
  | .slice start stop step => (strSlice B data start stop step).map .str
  | .iterate => (strIterate data (data.length + 1) 0).map .strs
  | .find needle start stop forward isIndex =>
    (strFinder B data (code.encode needle) start stop forward isIndex).map .int

/-- The operation on the list of the characters -/
def charsOp (c : MpzConfig) (l : List Char) : StrOp → Except StrExc StrVal
  | .len => .ok (.int l.length)
  | .subscr index =>
    match pyIndex l.length (index.value c) with
    | some i => .ok (.str (code.encode ((l.drop i).take 1)))
    | none => .error .indexError
  | .slice start stop _ =>
    .ok (.str (code.encode
      ((l.take (pyBoundOr c l.length stop l.length)).drop (pyBoundOr c l.length start 0))))
  | .iterate => .ok (.strs (l.map String.utf8EncodeChar))
  | .find needle start stop forward isIndex =>
    (charsFind l needle (pyBoundOr c l.length start 0) (pyBoundOr c l.length stop l.length)
      forward isIndex).map .int

/-- The indices and the bounds are integers, the step is 1, and the needle is not empty. -/
def StrOp.Valid (B : StrBuild w) : StrOp → Prop
  | .len => True
  | .subscr index => index.IsInt B.repr B.mpz
  | .slice start stop step =>
    BoundIsInt B start ∧ BoundIsInt B stop ∧ (step = none ∨ step = some (.int (.small 1)))
  | .iterate => True
  | .find needle start stop _ _ => BoundIsInt B start ∧ BoundIsInt B stop ∧ needle ≠ []

/-- The indices and the bounds fit a machine word. -/
def StrOp.Fits (B : StrBuild w) : StrOp → Prop
  | .len => True
  | .subscr index => index.Fits B.mpz w
  | .slice start stop _ => BoundFits B start ∧ BoundFits B stop
  | .iterate => True
  | .find _ start stop _ _ => BoundFits B start ∧ BoundFits B stop

theorem charsFind_ne_overflow (l needle : List Char) (lo hi : ℕ) (forward isIndex : Bool) :
    charsFind l needle lo hi forward isIndex ≠ .error .overflowError := by
  rw [charsFind]
  split
  · simp
  · split <;> simp

/-- **An operation on a string does what it does on the list of its characters**, and reads no byte
outside of the string and its NUL, just when its indices and bounds fit a machine word. -/
theorem str_op_eq_iff {B : StrBuild w} (l : List Char) {op : StrOp} (hop : op.Valid B) :
    strOp B (code.encode l) op = charsOp B.mpz l op ↔ op.Fits B := by
  cases op with
  | len => simp [strOp, charsOp, StrOp.Fits, utf8Charlen_eq, Except.map]
  | subscr index =>
    simp only [strOp, charsOp, StrOp.Fits]
    refine ⟨fun h => ?_, fun h => ?_⟩
    · by_contra hfit
      rw [strSubscr, strIndexToPtr_of_not_fits hop hfit] at h
      cases hp : pyIndex l.length (index.value B.mpz) with
      | none => simp [hp, Except.map, bind, Except.bind] at h
      | some i => simp [hp, Except.map, bind, Except.bind] at h
    · rw [strSubscr_eq hop h]
      cases pyIndex l.length (index.value B.mpz) <;> rfl
  | slice start stop step =>
    obtain ⟨hstart, hstop, hstep⟩ := hop
    simp only [strOp, charsOp, StrOp.Fits, strSlice_eq hstart hstop hstep]
    by_cases h : BoundFits B start ∧ BoundFits B stop <;> simp [h, Except.map]
  | iterate =>
    have h := strIterate_offset l (Nat.zero_le _)
      (Nat.lt_succ_of_le (Nat.le_trans (Nat.sub_le _ 0) (code.length_le_length_encode l)))
    rw [SyncCode.offset_zero, List.drop_zero] at h
    simp [strOp, charsOp, StrOp.Fits, h, Except.map]
  | find needle start stop forward isIndex =>
    obtain ⟨hstart, hstop, hneedle⟩ := hop
    simp only [strOp, charsOp, StrOp.Fits, strFinder_eq hstart hstop l hneedle]
    by_cases h : BoundFits B start ∧ BoundFits B stop
    · rw [if_pos h]
      simp [h]
    · rw [if_neg h]
      refine iff_of_false (fun heq => ?_) h
      have hne := charsFind_ne_overflow l needle (pyBoundOr B.mpz l.length start 0)
        (pyBoundOr B.mpz l.length stop l.length) forward isIndex
      revert heq hne
      cases charsFind l needle (pyBoundOr B.mpz l.length start 0)
        (pyBoundOr B.mpz l.length stop l.length) forward isIndex with
      | ok i => simp [Except.map]
      | error e => simp [Except.map, eq_comm]

/-- A machine with words of 32 bits and digits of 16 -/
def strBuild32 : StrBuild 32 where
  repr := .A eight_le_thirtyTwo
  mpz := mpzConfig16
  digSize_lt := mpzConfig16_digSize_lt

/-- The last but one character of `"aéb"` and what follows it -/
theorem str_op_eq_iff_slice :
    StrOp.Valid strBuild32 (.slice (some (.int (.small (-2)))) none none) ∧
      strOp strBuild32 (code.encode ['a', 'é', 'b'])
        (.slice (some (.int (.small (-2)))) none none) =
        charsOp strBuild32.mpz ['a', 'é', 'b'] (.slice (some (.int (.small (-2)))) none none) := by
  have hvalid : StrOp.Valid strBuild32 (.slice (some (.int (.small (-2)))) none none) := by
    refine ⟨?_, ?_, .inl rfl⟩
    · rintro i ⟨⟩
      exact (by decide : InRange strBuild32.repr (-2))
    · rintro i ⟨⟩
  refine ⟨hvalid, (str_op_eq_iff _ hvalid).mpr ⟨?_, ?_⟩⟩
  · decide
  · decide

/-- The index `1 << 32` of a string of three characters raises an `OverflowError` instead of an
`IndexError`, and as the end of a slice it raises an error instead of being clamped. -/
theorem str_index_overflows :
    (IndexObj.int (.big ⟨false, false, 3, [0, 0, 1]⟩)).value strBuild32.mpz = 2 ^ 32 ∧
    strOp strBuild32 (code.encode ['a', 'b', 'c'])
        (.subscr (.int (.big ⟨false, false, 3, [0, 0, 1]⟩))) = .error .overflowError ∧
    charsOp strBuild32.mpz ['a', 'b', 'c']
        (.subscr (.int (.big ⟨false, false, 3, [0, 0, 1]⟩))) = .error .indexError ∧
    strOp strBuild32 (code.encode ['a', 'b', 'c'])
        (.slice none (some (.int (.big ⟨false, false, 3, [0, 0, 1]⟩))) none) =
      .error .overflowError ∧
    charsOp strBuild32.mpz ['a', 'b', 'c']
        (.slice none (some (.int (.big ⟨false, false, 3, [0, 0, 1]⟩))) none) =
      .ok (.str (code.encode ['a', 'b', 'c'])) :=
  ⟨rfl, rfl, rfl, rfl, rfl⟩

end Pycopy
