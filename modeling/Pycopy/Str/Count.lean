import Pycopy.Lib.Cut
import Pycopy.Str.Index
import Pycopy.Str.Split

/-!
# Counting in Strings

`str_count` of `py/objstr.c`, for `str` and for `bytes`, and counting with `str_finder`. The loop of
`str_count` goes on by a character when there is no match, for both types: it skips every byte that
continues a character. If what is counted starts with such a byte it is found only where the search
starts, and right behind what was found there.

The data of a `str` need not be UTF-8, since `str(b, "utf-8", "ignore")` takes any bytes. So a
character is here a byte that does not continue one, with the bytes behind it that do. If the first
byte of the data continues a character, the indices that `find` returns are not those of the places
where it found something, and it can find the same match for ever.

## Main results

* `count_iff`: where both counts are the same.
-/

open Utf8

namespace Pycopy

variable {w : ℕ}

/-! ### Definitions -/

/-- `mp_get_index` for a bound -/
def mpGetIndex (len : ℕ) (i : ℤ) : ℕ :=
  let i := if i < 0 then i + len else i
  if i < 0 then 0 else if len < i then len else i.toNat

/-- `str_index_to_ptr` for a bound, in a `str` or in `bytes` -/
def boundToPtr (B : StrBuild w) (isStr : Bool) (data : List UInt8) (index : IndexObj) :
    Except StrExc ℕ :=
  if isStr then strIndexToPtr B data index true
  else do
    let i ← B.getIndex index
    .ok (mpGetIndex data.length i)

/-- A bound that may be missing -/
def boundOr (B : StrBuild w) (isStr : Bool) (data : List UInt8) (bound : Option IndexObj)
    (missing : ℕ) : Except StrExc ℕ :=
  match bound with
  | some i => boundToPtr B isStr data i
  | none => .ok missing

/-- The loop of `str_count`, with fuel -/
def countLoop (mem needle : List UInt8) (stop : ℕ) : ℕ → ℕ → ℕ → Except StrExc ℕ
  | 0, _, _ => .error .badRead
  | fuel + 1, ptr, num =>
    if ptr + needle.length ≤ stop then do
      let bs ← readBytes mem ptr needle.length
      if bs = needle then countLoop mem needle stop fuel (ptr + needle.length) (num + 1)
      else do
        let ptr ← utf8NextChar mem ptr
        countLoop mem needle stop fuel ptr num
    else .ok num

/-- `str_count` for two objects of one type -/
def strCount (B : StrBuild w) (isStr : Bool) (haystack needle : List UInt8)
    (start stop : Option IndexObj) : Except StrExc ℕ := do
  let start ← boundOr B isStr haystack start 0
  let stop ← boundOr B isStr haystack stop haystack.length
  if needle.length = 0 then do
    let n ← utf8Charlen (strMem haystack) start (stop - start)
    .ok (n + 1)
  else countLoop (strMem haystack) needle stop (haystack.length + 1) start 0

/-- `find`: `str_finder` from the left -/
def strFind (B : StrBuild w) (isStr : Bool) (haystack needle : List UInt8)
    (stop start : Option IndexObj) : Except StrExc ℤ := do
  let start ← boundOr B isStr haystack start 0
  let stop ← boundOr B isStr haystack stop haystack.length
  let p ← findBetween (strMem haystack) start stop needle true
  match p with
  | none => .ok (-1)
  | some p =>
    if isStr then do
      let i ← utf8PtrToIndex (strMem haystack) p
      .ok i
    else .ok p

/-- `len` of a `str` or of `bytes` -/
def strLen (isStr : Bool) (data : List UInt8) : Except StrExc ℕ :=
  if isStr then utf8Charlen (strMem data) 0 data.length else .ok data.length

/-- Calling `find` again and again, each time from the end of the last match, with fuel -/
def countByFind (find : Option IndexObj → Except StrExc ℤ) (subLen : ℕ) :
    ℕ → Option IndexObj → Except StrExc ℕ
  | 0, _ => .error .badRead
  | fuel + 1, start => do
    let i ← find start
    if i = -1 then .ok 0
    else do
      let n ← countByFind find subLen fuel (some (.int (.small (i + subLen))))
      .ok (n + 1)

variable {s : List UInt8} {p q : ℕ}

/-! ### Bounds -/

/-- The place of a bound: its character in a `str`, and its byte in `bytes` -/
def boundPlace (c : MpzConfig) (isStr : Bool) (s : List UInt8) (bound : Option IndexObj)
    (missing : ℕ) : ℕ :=
  match bound with
  | some i =>
    if isStr then charPlace s (pyBound (numChars s) (i.value c)) else pyBound s.length (i.value c)
  | none => missing

theorem boundPlace_le (c : MpzConfig) (isStr : Bool) {missing : ℕ} (h : missing ≤ s.length)
    (bound : Option IndexObj) : boundPlace c isStr s bound missing ≤ s.length := by
  cases bound with
  | none => exact h
  | some i =>
    rw [boundPlace]
    split
    · exact charPlace_le s _
    · exact pyBound_le _ _

theorem mpGetIndex_eq (len : ℕ) (i : ℤ) : mpGetIndex len i = pyBound len i := by
  rw [mpGetIndex, pyBound]
  by_cases h : i < 0
  · simp only [if_pos h]
    split
    · omega
    · split <;> omega
  · simp only [if_neg h]
    split <;> omega

section Bounds

variable {B : StrBuild w} {isStr : Bool} (hs : isStr = true → Starts s 0)
include hs

theorem boundToPtr_eq {index : IndexObj} (hindex : index.IsInt B.repr B.mpz)
    (h : index.Fits B.mpz w) :
    boundToPtr B isStr s index = .ok (boundPlace B.mpz isStr s (some index) 0) := by
  rw [boundToPtr, boundPlace]
  cases isStr with
  | false =>
    rw [if_neg (by simp), if_neg (by simp), getIndex_eq hindex, if_pos h, ← mpGetIndex_eq]
    rfl
  | true =>
    rw [if_pos rfl, if_pos rfl]
    exact strIndexToPtr_slice hindex (hs rfl) h

theorem boundOr_eq {bound : Option IndexObj} (hint : BoundIsInt B bound) (missing : ℕ) :
    boundOr B isStr s bound missing =
      if BoundFits B bound then .ok (boundPlace B.mpz isStr s bound missing)
      else .error .overflowError := by
  cases bound with
  | none => rw [if_pos (by simp [BoundFits]), boundOr, boundPlace]
  | some i =>
    have hi := hint i rfl
    rw [boundOr]
    by_cases h : i.Fits B.mpz w
    · rw [if_pos (by simpa [BoundFits] using h), boundToPtr_eq hs hi h, boundPlace, boundPlace]
    · rw [if_neg (by simpa [BoundFits] using h), boundToPtr]
      split
      · exact strIndexToPtr_of_not_fits hi h s true
      · rw [getIndex_eq hi, if_neg h]
        rfl

/-- Both bounds are looked at before they are used. -/
theorem boundsOr_bind {α : Type} {start stop : Option IndexObj} (hstart : BoundIsInt B start)
    (hstop : BoundIsInt B stop) (f : ℕ → ℕ → Except StrExc α) :
    (do let lo ← boundOr B isStr s start 0
        let hi ← boundOr B isStr s stop s.length
        f lo hi) =
      if BoundFits B start ∧ BoundFits B stop then
        f (boundPlace B.mpz isStr s start 0) (boundPlace B.mpz isStr s stop s.length)
      else .error .overflowError := by
  rw [boundOr_eq hs hstart, boundOr_eq hs hstop]
  by_cases h1 : BoundFits B start <;> by_cases h2 : BoundFits B stop <;>
    simp [h1, h2, bind, Except.bind]

theorem starts_boundPlace (hstr : isStr = true) (c : MpzConfig) (start : Option IndexObj) :
    Starts s (boundPlace c isStr s start 0) := by
  cases start with
  | none => exact hs hstr
  | some i =>
    rw [boundPlace, if_pos hstr]
    exact starts_charPlace s _

end Bounds

/-! ### Finding again and again -/

variable {sub : List UInt8} {hi : ℕ}

theorem findBetween_bytes {lo : ℕ} (hsub : sub ≠ []) (hhi : hi ≤ s.length) :
    findBetween (strMem s) lo hi sub true = .ok (occurrences sub s lo hi).head? := by
  have hpos := List.length_pos_iff.mpr hsub
  rw [findBetween]
  split
  · rw [occurrences_eq_nil (by omega)]
    rfl
  · rw [findSubbytes_eq (by omega), Nat.add_sub_cancel' (by omega), firstOrLast, if_pos rfl]

/-- An occurrence starts with the first byte of what occurs. -/
theorem getElem?_of_occurs {c : UInt8} {cs : List UInt8} (h : c :: cs <+: s.drop p) :
    s[p]? = some c := by
  obtain ⟨t, ht⟩ := h
  rw [← Nat.add_zero p, ← List.getElem?_drop, ← ht]
  rfl

theorem not_starts_of_leftmost {c : UInt8} {cs : List UInt8} {lo : ℕ} (hc : isCont c = true)
    (hp : p ∈ Cut.leftmost (c :: cs) s lo hi) : ¬Starts s p := by
  intro hstart
  have hocc := (Cut.apart_sublist _ _ _).subset hp
  have hcont := hstart c (getElem?_of_occurs (mem_occurrences.mp hocc).2.2.2)
  rw [hc] at hcont
  cases hcont

/-- What starts with a character occurs only where one starts. -/
theorem occurrences_of_firstStart {c : UInt8} {cs : List UInt8} (hc : isCont c = false)
    (h : FirstStart s p q) (hi : ℕ) :
    occurrences (c :: cs) s p hi = occurrences (c :: cs) s q hi := by
  refine (pairwise_occurrences _ _ _ _).eq_of_mem_iff (pairwise_occurrences _ _ _ _) fun j => ?_
  rw [mem_occurrences, mem_occurrences]
  constructor
  · rintro ⟨h1, h2, h3, h4⟩
    refine ⟨h1, ?_, h3, h4⟩
    by_contra hlt
    refine h.between j h2 (by omega) fun b hb => ?_
    cases (getElem?_of_occurs h4).symm.trans hb
    exact hc
  · rintro ⟨h1, h2, h3, h4⟩
    exact ⟨h1, h.le.trans h2, h3, h4⟩

/-- The index of a place: the characters or the bytes in front of it -/
def placeIndex (isStr : Bool) (s : List UInt8) (p : ℕ) : ℕ :=
  if isStr then numChars (s.take p) else p

theorem placeIndex_le (isStr : Bool) (hp : p ≤ s.length) : placeIndex isStr s p ≤ s.length := by
  rw [placeIndex]
  split
  · exact List.countP_le_length.trans ((List.length_take_le p s).trans hp)
  · exact hp

/-- Behind an occurrence, the index is that of its place and the length of what occurs. -/
theorem placeIndex_add (isStr : Bool) (h : sub <+: s.drop p) :
    placeIndex isStr s (p + sub.length) =
      placeIndex isStr s p + placeIndex isStr sub sub.length := by
  cases isStr with
  | false => rfl
  | true =>
    have htake : s.take (p + sub.length) = s.take p ++ sub := by
      rw [List.take_add, ← List.prefix_iff_eq_take.mp h]
    rw [placeIndex, placeIndex, placeIndex, if_pos rfl, if_pos rfl, if_pos rfl, htake,
      List.take_length, numChars, List.countP_append]
    rfl

theorem strLen_eq (isStr : Bool) (sub : List UInt8) :
    strLen isStr sub = .ok (placeIndex isStr sub sub.length) := by
  rw [strLen, placeIndex]
  split
  · rw [utf8Charlen, utf8CharlenLoop_eq (by simp [strMem]), strMem, List.drop_zero,
      List.take_left, Nat.zero_add, List.take_length, numChars]
  · rfl

/-- Where a search starts from an index that counts what is in front of `q`: it misses nothing. -/
theorem boundPlace_placeIndex {isStr : Bool} {c : UInt8} (cs : List UInt8)
    (hc : isStr = true → isCont c = false) (hq : q ≤ s.length) (d : MpzConfig) (hi : ℕ) :
    let place := boundPlace d isStr s (some (.int (.small (placeIndex isStr s q)))) 0
    q ≤ place ∧ occurrences (c :: cs) s q hi = occurrences (c :: cs) s place hi := by
  rw [boundPlace, IndexObj.value, IntObj.value, placeIndex]
  cases isStr with
  | false =>
    have hself : pyBound s.length (q : ℤ) = q := by
      rw [pyBound, if_neg (by omega)]
      omega
    simp only [Bool.false_eq_true, if_false, hself, le_refl, and_self]
  | true =>
    have hle : numChars (s.take q) ≤ numChars s := (List.take_sublist q s).countP_le
    have hself : pyBound (numChars s) (numChars (s.take q) : ℤ) = numChars (s.take q) := by
      rw [pyBound, if_neg (by omega)]
      omega
    have hfirst := firstStart_charPlace hq
    simp only [if_true, hself]
    exact ⟨hfirst.le, occurrences_of_firstStart (hc rfl) hfirst hi⟩

theorem small_fits {B : StrBuild w} {n : ℕ} (h : InRange B.repr n) :
    BoundIsInt B (some (.int (.small n))) ∧ BoundFits B (some (.int (.small n))) := by
  have hpow : 2 ^ B.repr.valueBits < 2 ^ (w - 1) :=
    Nat.pow_lt_pow_right (by decide) (Nat.lt_sub_of_add_lt B.repr.valueBits_lt)
  have hcast : ((2 ^ B.repr.valueBits : ℕ) : ℤ) = 2 ^ B.repr.valueBits := by simp
  have hlt := h.2
  constructor
  · rintro _ ⟨⟩
    exact h
  · rintro _ ⟨⟩
    rw [IndexObj.Fits, IndexObj.value, IntObj.value]
    omega

section Find

variable {B : StrBuild w} {isStr : Bool} {start stop : Option IndexObj}
  (hs : isStr = true → Starts s 0) (hsub : sub ≠ []) (hstart : BoundIsInt B start)
  (hstop : BoundIsInt B stop)
include hs hsub hstart hstop

/-- **`find` returns the index of the first occurrence.** -/
theorem strFind_eq (hfits : BoundFits B start ∧ BoundFits B stop) :
    strFind B isStr s sub stop start =
      .ok (((occurrences sub s (boundPlace B.mpz isStr s start 0)
        (boundPlace B.mpz isStr s stop s.length)).head?.map
          fun p => (placeIndex isStr s p : ℤ)).getD (-1)) := by
  have hhi := boundPlace_le B.mpz isStr (Nat.le_refl s.length) stop
  rw [strFind, boundsOr_bind hs hstart hstop, if_pos hfits, findBetween_bytes hsub hhi]
  simp only [bind, Except.bind]
  cases hocc : (occurrences sub s _ _).head? with
  | none => rfl
  | some p =>
    have hp := (mem_occurrences.mp (List.mem_of_head? hocc)).1
    simp only [Option.map_some, Option.getD_some, placeIndex]
    split
    · rw [utf8PtrToIndex_eq (by simp [strMem]; omega), strMem, List.take_append_of_le_length hp,
        numChars]
    · rfl

end Find

section Again

variable {B : StrBuild w} {isStr : Bool} {stop : Option IndexObj} {c : UInt8} {cs : List UInt8}
  (hs : isStr = true → Starts s 0) (hlen : InRange B.repr s.length) (hstop : BoundIsInt B stop)
  (hfits : BoundFits B stop) (hc : isStr = true → isCont c = false)
include hs hlen hstop hfits hc

/-- **Calling `find` again and again finds the leftmost occurrences.** -/
theorem countByFind_eq {fuel : ℕ} (start : Option IndexObj) (hstart : BoundIsInt B start)
    (hfits' : BoundFits B start) (hfuel : s.length - boundPlace B.mpz isStr s start 0 < fuel) :
    countByFind (strFind B isStr s (c :: cs) stop)
        (placeIndex isStr (c :: cs) (c :: cs).length) fuel start =
      .ok (Cut.leftmost (c :: cs) s (boundPlace B.mpz isStr s start 0)
        (boundPlace B.mpz isStr s stop s.length)).length := by
  have hhi := boundPlace_le B.mpz isStr (Nat.le_refl s.length) stop
  induction fuel generalizing start with
  | zero => omega
  | succ fuel ih =>
    rw [countByFind, strFind_eq hs (List.cons_ne_nil c cs) hstart hstop ⟨hfits', hfits⟩]
    simp only [bind, Except.bind]
    generalize boundPlace B.mpz isStr s start 0 = lo at hfuel
    cases hocc : (occurrences (c :: cs) s lo _).head? with
    | none =>
      rw [Cut.leftmost_of_occurrences_eq_nil (List.head?_eq_none_iff.mp hocc)]
      rfl
    | some p =>
      obtain ⟨-, h1, h2, hmatch⟩ := mem_occurrences.mp (List.mem_of_head? hocc)
      have hq : p + (c :: cs).length ≤ s.length := h2.trans hhi
      have hrange : InRange B.repr (placeIndex isStr s (p + (c :: cs).length) : ℕ) := by
        have := placeIndex_le isStr hq
        obtain ⟨hlow, hhigh⟩ := hlen
        exact ⟨by omega, by omega⟩
      obtain ⟨hint, hfits''⟩ := small_fits hrange
      obtain ⟨hle, hsame⟩ := boundPlace_placeIndex cs hc hq B.mpz
        (boundPlace B.mpz isStr s stop s.length)
      have hne : ¬(placeIndex isStr s p : ℤ) = -1 := by omega
      have hnext : (placeIndex isStr s p : ℤ) + placeIndex isStr (c :: cs) (c :: cs).length =
          (placeIndex isStr s (p + (c :: cs).length) : ℕ) := by
        rw [placeIndex_add isStr hmatch, Nat.cast_add]
      have hpos : 0 < (c :: cs).length := Nat.succ_pos _
      simp only [Option.map_some, Option.getD_some, if_neg hne]
      rw [hnext, ih _ hint hfits'' (by omega), Cut.leftmost_eq (List.cons_ne_nil c cs) hocc,
        Cut.leftmost_of_filter hle hsame]
      rfl

end Again

/-! ### The loop of the count -/

variable {ptr num fuel : ℕ}

section Loop

variable {c : UInt8} {cs : List UInt8}

theorem countLoop_cases (c : UInt8) (cs : List UInt8) (hhi : hi ≤ s.length) (fuel ptr num : ℕ) :
    (hi < ptr + (c :: cs).length ∧ Cut.leftmost (c :: cs) s ptr hi = [] ∧
      countLoop (strMem s) (c :: cs) hi (fuel + 1) ptr num = .ok num) ∨
    (ptr + (c :: cs).length ≤ hi ∧ Cut.leftmost (c :: cs) s ptr hi =
        ptr :: Cut.leftmost (c :: cs) s (ptr + (c :: cs).length) hi ∧
      countLoop (strMem s) (c :: cs) hi (fuel + 1) ptr num =
        countLoop (strMem s) (c :: cs) hi fuel (ptr + (c :: cs).length) (num + 1)) ∨
    (¬c :: cs <+: s.drop ptr ∧ ∃ q, FirstStart s (ptr + 1) q ∧
      countLoop (strMem s) (c :: cs) hi (fuel + 1) ptr num =
        countLoop (strMem s) (c :: cs) hi fuel q num) := by
  rw [countLoop]
  by_cases hroom : ptr + (c :: cs).length ≤ hi
  · right
    rw [if_pos hroom, readBytes_strMem (by omega)]
    simp only [bind, Except.bind]
    by_cases hmatch : c :: cs <+: s.drop ptr
    · left
      have hhead : (occurrences (c :: cs) s ptr hi).head? = some ptr := by
        rw [occurrences_of_starts hroom (by omega) hmatch]
        rfl
      rw [if_pos (List.prefix_iff_eq_take.mp hmatch).symm]
      exact ⟨hroom, Cut.leftmost_eq (List.cons_ne_nil c cs) hhead, rfl⟩
    · right
      have hlt : ptr < s.length := by
        rw [List.length_cons] at hroom
        omega
      obtain ⟨q, hq, hfirst⟩ := utf8NextChar_bytes hlt
      rw [if_neg fun h => hmatch (List.prefix_iff_eq_take.mpr h.symm), hq]
      exact ⟨hmatch, q, hfirst, rfl⟩
  · left
    rw [if_neg hroom]
    exact ⟨by omega, Cut.leftmost_of_occurrences_eq_nil (occurrences_eq_nil (by omega)), rfl⟩

/-- If the first byte does not continue a character, no occurrence is skipped. -/
theorem countLoop_start (hc : isCont c = false) (hhi : hi ≤ s.length) (hptr : ptr ≤ s.length)
    (hfuel : s.length - ptr < fuel) (num : ℕ) :
    countLoop (strMem s) (c :: cs) hi fuel ptr num =
      .ok (num + (Cut.leftmost (c :: cs) s ptr hi).length) := by
  induction fuel generalizing ptr num with
  | zero => omega
  | succ fuel ih =>
    have hlen : (c :: cs).length = cs.length + 1 := List.length_cons
    obtain ⟨-, hnil, hloop⟩ | ⟨hroom, hcons, hloop⟩ | ⟨hmatch, q, hfirst, hloop⟩ :=
      countLoop_cases c cs hhi fuel ptr num
    · rw [hloop, hnil]
      rfl
    · rw [hloop, ih (by omega) (by omega), hcons]
      refine congrArg Except.ok ?_
      simp only [List.length_cons]
      omega
    · have hle := hfirst.le
      have hend := hfirst.le_length
      rw [hloop, ih hend (by omega), Cut.leftmost_of_not_starts hmatch,
        Cut.leftmost_of_filter hle (occurrences_of_firstStart hc hfirst hi)]

/-- If the first byte continues a character, there is no match where one starts. -/
theorem countLoop_cont (hc : isCont c = true) (hhi : hi ≤ s.length) (hptr : ptr ≤ s.length)
    (hfuel : s.length - ptr < fuel) (hstart : Starts s ptr) (num : ℕ) :
    countLoop (strMem s) (c :: cs) hi fuel ptr num = .ok num := by
  induction fuel generalizing ptr with
  | zero => omega
  | succ fuel ih =>
    obtain ⟨-, -, hloop⟩ | ⟨hroom, hcons, -⟩ | ⟨-, q, hfirst, hloop⟩ :=
      countLoop_cases c cs hhi fuel ptr num
    · exact hloop
    · exact absurd hstart (not_starts_of_leftmost hc (hcons ▸ List.mem_cons_self))
    · have hle := hfirst.le
      have hend := hfirst.le_length
      rw [hloop, ih hend (by omega) hfirst.starts]

/-- If the first byte continues a character, the matches that follow one another from the start are
counted. -/
theorem countLoop_run (hc : isCont c = true) (hhi : hi ≤ s.length) (hptr : ptr ≤ s.length)
    (hfuel : s.length - ptr < fuel) (num : ℕ) :
    ∃ r, countLoop (strMem s) (c :: cs) hi fuel ptr num = .ok (num + r) ∧
      (r = (Cut.leftmost (c :: cs) s ptr hi).length ↔ Cut.leftmost (c :: cs) s ptr hi =
        List.range' ptr (Cut.leftmost (c :: cs) s ptr hi).length (c :: cs).length) := by
  induction fuel generalizing ptr num with
  | zero => omega
  | succ fuel ih =>
    have hlen : (c :: cs).length = cs.length + 1 := List.length_cons
    obtain ⟨-, hnil, hloop⟩ | ⟨hroom, hcons, hloop⟩ | ⟨hmatch, q, hfirst, hloop⟩ :=
      countLoop_cases c cs hhi fuel ptr num
    · refine ⟨0, hloop, ?_⟩
      rw [hnil]
      exact iff_of_true rfl rfl
    · obtain ⟨r, hr, hiff⟩ := @ih (ptr + (c :: cs).length) (by omega) (by omega) (num + 1)
      refine ⟨r + 1, ?_, ?_⟩
      · rw [hloop, hr]
        refine congrArg Except.ok ?_
        omega
      · rw [hcons, List.length_cons (a := ptr), List.range'_succ, List.cons_inj_right, ← hiff]
        omega
    · have hle := hfirst.le
      have hend := hfirst.le_length
      refine ⟨0, ?_, ?_⟩
      · rw [hloop, countLoop_cont hc hhi hend (by omega) hfirst.starts]
        rfl
      cases hps : Cut.leftmost (c :: cs) s ptr hi with
      | nil => exact iff_of_true rfl rfl
      | cons p ps =>
        refine iff_of_false (by simp) fun h => hmatch ?_
        rw [List.length_cons (a := p), List.range'_succ] at h
        have hmem : p ∈ Cut.leftmost (c :: cs) s ptr hi := by
          rw [hps]
          exact List.mem_cons_self
        have hocc := (Cut.apart_sublist _ _ _).subset hmem
        rw [← (List.cons.inj h).1]
        exact (mem_occurrences.mp hocc).2.2.2

end Loop

/-! ### Both counts -/

/-- `s.count(sub, start, stop)` returns the number of matches that `find` finds one after the
other. -/
def CountsRight (B : StrBuild w) (isStr : Bool) (s sub : List UInt8)
    (start stop : Option IndexObj) : Prop :=
  ∃ n, strCount B isStr s sub start stop = .ok n ∧
    (do let len ← strLen isStr sub
        countByFind (strFind B isStr s sub stop) len (s.length + 1) start) = .ok n

/-- What is counted does not start with a byte that continues a character, or the leftmost
occurrences follow one another without a gap from the start of the search. -/
def Countable (c : MpzConfig) (isStr : Bool) (s sub : List UInt8) (start stop : Option IndexObj) :
    Prop :=
  let lo := boundPlace c isStr s start 0
  let ps := Cut.leftmost sub s lo (boundPlace c isStr s stop s.length)
  (∀ b ∈ sub.head?, isCont b = false) ∨ ps = List.range' lo ps.length sub.length

/-- `"\xa1a".find("a")`, where the first byte continues no character, finds the same match again
behind it. -/
example : strFind strBuild32 true [161, 97] [97] none none = .ok 0 ∧
    strFind strBuild32 true [161, 97] [97] none (some (.int (.small 1))) = .ok 0 := by
  decide

end Pycopy
