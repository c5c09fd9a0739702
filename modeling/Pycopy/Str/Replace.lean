import Pycopy.Str.Index
import Pycopy.Str.Split

/-!
# Replacing in Strings

`str_replace` of `py/objstr.c` goes over the string twice. The first pass only adds up the size of
the result, then the memory is allocated, and the second pass copies. Both passes visit the same
occurrences. The size is a `size_t` and is added up without a check for a carry: if the result is
larger than the memory, what is allocated is too small, and the second pass writes behind it.

## Main results

* `replace_iff`: where the result is what splitting and joining gives.
-/

namespace Pycopy

/-! ### Definitions -/

/-- An `mp_int_t` -/
structure MpInt (w : ℕ) where
  val : ℤ
  le_val : -2 ^ (w - 1) ≤ val
  val_lt : val < 2 ^ (w - 1)

/-- `if (data != NULL) { memcpy(data + index, bs, …); }` -/
def copyTo (data : Option (List UInt8)) (index : ℕ) (bs : List UInt8) :
    Except StoreExc (Option (List UInt8)) :=
  match data with
  | none => .ok none
  | some buf => ((storeBytes buf index bs).map some).mapError fun _ => .badStore

/-- The same with `n` bytes of the string -/
def copyFrom (mem : List UInt8) (data : Option (List UInt8)) (index src n : ℕ) :
    Except StoreExc (Option (List UInt8)) :=
  match data with
  | none => .ok none
  | some _ => do
    let bs ← (readBytes mem src n).mapError .exc
    copyTo data index bs

/-- The condition of the loop: the occurrence that is replaced next -/
def nextOccurrence (str old : List UInt8) (maxRep num offset : ℕ) :
    Except StoreExc (Option ℕ) :=
  if num ≠ maxRep ∧ 0 < str.length - offset then
    (findSubbytes (strMem str) offset (str.length - offset) old true).mapError .exc
  else .ok none

/-- The loop of a pass and the copy behind it, with fuel: the memory, `replaced_str_index` and
`num_replacements_done` -/
def replaceLoop (w : ℕ) (str old new : List UInt8) (maxRep : ℕ) :
    ℕ → Option (List UInt8) → ℕ → ℕ → ℕ → Except StoreExc (Option (List UInt8) × ℕ × ℕ)
  | 0, _, _, _, _ => .error (.exc .badRead)
  | fuel + 1, data, index, num, offset => do
    let remain := str.length - offset
    let occurrence ← nextOccurrence str old maxRep num offset
    match occurrence with
    | some p => do
      let p := if old.length = 0 then p + 1 else p
      let data ← copyFrom (strMem str) data index offset (p - offset)
      let index := (index + (p - offset)) % 2 ^ w
      let data ← copyTo data index new
      replaceLoop w str old new maxRep fuel data ((index + new.length) % 2 ^ w) ((num + 1) % 2 ^ w)
        (p + old.length)
    | none => do
      let data ← copyFrom (strMem str) data index offset remain
      .ok (data, (index + remain) % 2 ^ w, num)

/-- A pass -/
def replacePass (w : ℕ) (str old new : List UInt8) (maxRep : ℕ) (data : Option (List UInt8)) :
    Except StoreExc (Option (List UInt8) × ℕ × ℕ) :=
  if old.length = 0 then do
    let data ← copyTo data 0 new
    replaceLoop w str old new maxRep (str.length + 2) data (new.length % 2 ^ w) 1 0
  else replaceLoop w str old new maxRep (str.length + 2) data 0 0 0

/-- What `str_replace` returns: the string itself, or a new one, with the index and the number of
replacements at the end of each pass -/
inductive Replaced
  | self
  | built (str : List UInt8) (sizing copying : ℕ × ℕ)
  deriving DecidableEq, Repr

/-- `(size_t)max_rep` -/
def maxRepOf {w : ℕ} (count : MpInt w) : ℕ :=
  ((if count.val < 0 then -1 else count.val) % 2 ^ w).toNat

/-- `str_replace` for strings of the same type. If there is no count, it is -1. -/
def strReplace {w : ℕ} (junk : UInt8) (str old new : List UInt8) (count : MpInt w) :
    Except StoreExc Replaced :=
  if count.val = 0 then .ok .self
  else if str.length < old.length then .ok .self
  else do
    let sizing ← replacePass w str old new (maxRepOf count) none
    if sizing.2.2 = 0 then .ok .self
    else do
      let vstr := vstrInitLen w junk sizing.2.1
      let copying ← replacePass w str old new (maxRepOf count) (some vstr.buf)
      .ok (.built ((copying.1.getD []).take vstr.len) sizing.2 copying.2)

/-! ### What a pass copies -/

/-- The parts of the result: pieces of the string, and the new string between them -/
def replaceParts (k : ℕ) (new str : List UInt8) : ℕ → List ℕ → List (List UInt8)
  | lo, [] => [str.drop lo]
  | lo, p :: ps => (str.drop lo).take (p - lo) :: new :: replaceParts k new str (p + k) ps

/-- The parts are copied one after the other. -/
def copyAll (w : ℕ) : Option (List UInt8) → ℕ → List (List UInt8) →
    Except StoreExc (Option (List UInt8) × ℕ)
  | data, index, [] => .ok (data, index)
  | data, index, c :: cs => do
    let data ← copyTo data index c
    copyAll w data ((index + c.length) % 2 ^ w) cs

variable {w : ℕ} {str old new : List UInt8} {k lo index num offset maxRep : ℕ}

theorem flatten_replaceParts (k : ℕ) (new str : List UInt8) (lo : ℕ) (ps : List ℕ) :
    (replaceParts k new str lo ps).flatten = new.intercalate (Cut.pieces k str lo ps) := by
  induction ps generalizing lo with
  | nil => simp [replaceParts, Cut.pieces]
  | cons p ps ih =>
    rw [replaceParts, Cut.pieces, List.intercalate_cons_of_ne_nil (Cut.pieces_ne_nil _ _ _ _), ← ih]
    simp

theorem copyAll_none (index : ℕ) {cs : List (List UInt8)} (hcs : cs ≠ []) :
    copyAll w none index cs = .ok (none, (index + cs.flatten.length) % 2 ^ w) := by
  induction cs generalizing index with
  | nil => exact absurd rfl hcs
  | cons c cs ih =>
    rw [copyAll, copyTo]
    simp only [bind, Except.bind]
    rw [List.flatten_cons, List.length_append, ← Nat.add_assoc]
    cases cs with
    | nil => rfl
    | cons d cs => rw [ih _ (List.cons_ne_nil d cs), Nat.mod_add_mod]

theorem copyAll_fits (done : List UInt8) {rest : List UInt8} {cs : List (List UInt8)}
    (hrest : cs.flatten.length ≤ rest.length) (hw : done.length + rest.length < 2 ^ w) :
    copyAll w (some (done ++ rest)) done.length cs =
      .ok (some (done ++ cs.flatten ++ rest.drop cs.flatten.length),
        done.length + cs.flatten.length) := by
  induction cs generalizing done rest with
  | nil => simp [copyAll]
  | cons c cs ih =>
    rw [List.flatten_cons, List.length_append] at hrest
    have hlen : cs.flatten.length ≤ (rest.drop c.length).length := by
      rw [List.length_drop]
      omega
    have hih := ih (done ++ c) hlen (by simp only [List.length_append, List.length_drop]; omega)
    rw [copyAll, copyTo, storeBytes_append (by omega)]
    simp only [bind, Except.bind, Except.map, Except.mapError]
    rw [Nat.mod_eq_of_lt (by omega), ← List.length_append, hih]
    simp only [List.flatten_cons, List.length_append, List.drop_drop, List.append_assoc,
      Nat.add_assoc]

theorem copyAll_short (done : List UInt8) {rest : List UInt8} {cs : List (List UInt8)}
    (hrest : rest.length < cs.flatten.length) (hw : done.length + rest.length < 2 ^ w) :
    copyAll w (some (done ++ rest)) done.length cs = .error .badStore := by
  induction cs generalizing done rest with
  | nil => simp at hrest
  | cons c cs ih =>
    rw [List.flatten_cons, List.length_append] at hrest
    rw [copyAll, copyTo]
    by_cases hc : c.length ≤ rest.length
    · have hlen : (rest.drop c.length).length < cs.flatten.length := by
        rw [List.length_drop]
        omega
      have hih := ih (done ++ c) hlen (by simp only [List.length_append, List.length_drop]; omega)
      rw [storeBytes_append hc]
      simp only [bind, Except.bind, Except.map, Except.mapError]
      rw [Nat.mod_eq_of_lt (by omega), ← List.length_append, hih]
    · rw [storeBytes, if_neg (by rw [List.length_append]; omega)]
      rfl

theorem copyFrom_eq {src n : ℕ} (h : src + n ≤ str.length) (data : Option (List UInt8))
    (index : ℕ) :
    copyFrom (strMem str) data index src n = copyTo data index ((str.drop src).take n) := by
  cases data with
  | none => rfl
  | some buf =>
    rw [copyFrom, readBytes_strMem h]
    rfl

/-- The places where a pass replaces -/
def replaceCuts (str old : List UInt8) (offset maxRep : ℕ) : List ℕ :=
  (Cut.leftmost old str offset str.length).take maxRep

theorem nextOccurrence_eq (hne : old ≠ []) (hoffset : offset ≤ str.length) (hnum : num ≠ maxRep) :
    nextOccurrence str old maxRep num offset =
      .ok (occurrences old str offset str.length).head? := by
  have hpos := List.length_pos_iff.mpr hne
  rw [nextOccurrence]
  split
  · rw [findSubbytes_eq (by omega), Nat.add_sub_cancel' hoffset]
    rfl
  · rw [occurrences_eq_nil (by omega)]
    rfl

/-- **What the loop copies**: the pieces between the leftmost occurrences, and the new string -/
theorem replaceLoop_eq (hne : old ≠ []) {fuel : ℕ} (hoffset : offset ≤ str.length)
    (hfuel : str.length - offset < fuel) (hnum : num ≤ maxRep) (hmax : maxRep < 2 ^ w)
    (data : Option (List UInt8)) (index : ℕ) :
    replaceLoop w str old new maxRep fuel data index num offset =
      (copyAll w data index (replaceParts old.length new str offset
        (replaceCuts str old offset (maxRep - num)))).map
          fun (data, index) =>
            (data, index, num + (replaceCuts str old offset (maxRep - num)).length) := by
  have hpos := List.length_pos_iff.mpr hne
  induction fuel generalizing data index num offset with
  | zero => omega
  | succ fuel ih =>
    -- no more occurrence, or enough of them: the rest of the string is copied
    have hend (hcuts : replaceCuts str old offset (maxRep - num) = []) :
        (do let data ← copyFrom (strMem str) data index offset (str.length - offset)
            .ok (data, (index + (str.length - offset)) % 2 ^ w, num)) =
          (copyAll w data index (replaceParts old.length new str offset
            (replaceCuts str old offset (maxRep - num)))).map
              fun (data, index) =>
                (data, index, num + (replaceCuts str old offset (maxRep - num)).length) := by
      rw [copyFrom_eq (by omega), hcuts, replaceParts, copyAll, ← List.length_drop,
        List.take_length]
      cases copyTo data index (str.drop offset) <;> rfl
    rw [replaceLoop]
    by_cases hmaxed : num = maxRep
    · rw [nextOccurrence, if_neg (by simp [hmaxed])]
      exact hend (by rw [hmaxed, Nat.sub_self, replaceCuts, List.take_zero])
    · rw [nextOccurrence_eq hne hoffset hmaxed]
      simp only [bind, Except.bind]
      cases hocc : (occurrences old str offset str.length).head? with
      | none =>
        refine hend ?_
        rw [replaceCuts, Cut.leftmost_of_occurrences_eq_nil (List.head?_eq_none_iff.mp hocc),
          List.take_nil]
      | some p =>
        obtain ⟨-, h1, h2, -⟩ := mem_occurrences.mp (List.mem_of_head? hocc)
        obtain ⟨m, hm⟩ : ∃ m, maxRep - num = m + 1 := ⟨maxRep - num - 1, by omega⟩
        have hrec : maxRep - (num + 1) = m := by omega
        have hcuts : replaceCuts str old offset (m + 1) =
            p :: replaceCuts str old (p + old.length) m := by
          rw [replaceCuts, Cut.leftmost_eq hne hocc, List.take_succ_cons, replaceCuts]
        have hlen : ((str.drop offset).take (p - offset)).length = p - offset := by
          rw [List.length_take, List.length_drop]
          omega
        simp only
        rw [if_neg (by omega), copyFrom_eq (by omega),
          Nat.mod_eq_of_lt (a := num + 1) (by omega), hm,
          hcuts, replaceParts, copyAll, hlen]
        cases hcopy : copyTo data index ((str.drop offset).take (p - offset)) with
        | error e => rfl
        | ok data' =>
          simp only [bind, Except.bind, copyAll]
          cases hnew : copyTo data' ((index + (p - offset)) % 2 ^ w) new with
          | error e => rfl
          | ok data'' =>
            simp only
            rw [ih h2 (by omega) (by omega), hrec, List.length_cons, Nat.add_assoc, Nat.add_comm 1]

/-- **What a pass copies** -/
theorem replacePass_eq (hne : old ≠ []) (hmax : maxRep < 2 ^ w) (data : Option (List UInt8)) :
    replacePass w str old new maxRep data =
      (copyAll w data 0 (replaceParts old.length new str 0 (replaceCuts str old 0 maxRep))).map
        fun (data, index) => (data, index, (replaceCuts str old 0 maxRep).length) := by
  have hpos := List.length_pos_iff.mpr hne
  rw [replacePass, if_neg (by omega),
    replaceLoop_eq hne (Nat.zero_le _) (by omega) (Nat.zero_le _) hmax, Nat.sub_zero]
  simp only [Nat.zero_add]

/-! ### Replacing is splitting and joining -/

theorem vstrInitLen_buf (junk : UInt8) {len : ℕ} (h : len + 1 < 2 ^ w) :
    (vstrInitLen w junk len).buf = List.replicate (len + 1) junk := by
  rw [vstrInitLen, vstrInit, Nat.mod_eq_of_lt h, if_neg (by omega)]

/-- What is allocated for a size with a carry is too small. -/
theorem length_vstrInitLen_lt (junk : UInt8) {len : ℕ} (hw : 2 < 2 ^ w) (h : 2 ^ w ≤ len + 1) :
    (vstrInitLen w junk (len % 2 ^ w)).buf.length < min len (2 ^ w) := by
  have hlt := Nat.mod_lt len (Nat.two_pow_pos w)
  rw [vstrInitLen, vstrInit, List.length_replicate]
  rcases Nat.eq_or_lt_of_le h with heq | hgt
  · have hlen : len % 2 ^ w = len := Nat.mod_eq_of_lt (by omega)
    rw [hlen, ← heq, Nat.mod_self, if_pos Nat.one_pos]
    omega
  · have hmod := Nat.mod_lt (len % 2 ^ w + 1) (Nat.two_pow_pos w)
    split <;> omega

theorem maxRepOf_lt (count : MpInt w) : maxRepOf count < 2 ^ w := by
  have hcast : ((2 ^ w : ℕ) : ℤ) = 2 ^ w := by norm_cast
  have hlt := Int.emod_lt_of_pos (if count.val < 0 then -1 else count.val)
    (by positivity : (0 : ℤ) < 2 ^ w)
  rw [maxRepOf]
  omega

/-- The limit of `str_replace` is the one of `mp_obj_str_split`. -/
theorem replaceCuts_eq (s : HeapStr w) (old : List UInt8) (count : MpInt w) :
    replaceCuts s.data old 0 (maxRepOf count) =
      limitTo count.val (Cut.leftmost old s.data 0 s.data.length) := by
  have hlt := count.val_lt
  have hpow : (2 : ℤ) ^ (w - 1) ≤ 2 ^ w := pow_le_pow_right₀ (by decide) (Nat.sub_le w 1)
  have hcast : ((2 ^ w : ℕ) : ℤ) = 2 ^ w := by norm_cast
  rw [replaceCuts, limitTo, maxRepOf]
  by_cases hneg : count.val < 0
  · have hlen : (Cut.leftmost old s.data 0 s.data.length).length ≤ s.data.length + 1 := by
      refine ((Cut.apart_sublist _ _ _).trans (List.filter_sublist)).length_le.trans ?_
      rw [List.length_range]
    have hfits := s.fits
    have hmod : (-1 : ℤ) % 2 ^ w = 2 ^ w - 1 := by
      have heq : (-1 : ℤ) = 2 ^ w - 1 + 2 ^ w * -1 := by ring
      rw [heq, Int.add_mul_emod_self_left, Int.emod_eq_of_lt (by omega) (by omega)]
    rw [if_pos hneg, if_pos hneg, List.take_of_length_le]
    omega
  · rw [if_neg hneg, if_neg hneg, Int.emod_eq_of_lt (by omega) (by omega)]

/-- `s.replace(old, new, n)` is `new.join(s.split(old, n))`, and both passes replace the same number
of times and end at the same place, which is the size that was allocated. -/
def ReplacesRight (s : HeapStr w) (old new : List UInt8) (count : MpInt w) : Prop :=
  ∃ pieces, mpObjStrSplit w s.data old count.val = .ok pieces ∧
    ∀ junk, ∃ result, strReplace junk s.data old new count = .ok result ∧
      match result with
      | .self => strJoin w junk new pieces = .ok s.data
      | .built str sizing copying =>
        strJoin w junk new pieces = .ok str ∧ sizing = copying ∧ copying.1 = str.length

section Replace

variable {s : HeapStr w} {count : MpInt w} (hne : old ≠ []) {ps : List ℕ}
  (hps : limitTo count.val (Cut.leftmost old s.data 0 s.data.length) = ps)
include hne hps

theorem pass_eq (new : List UInt8) (data : Option (List UInt8)) :
    replacePass w s.data old new (maxRepOf count) data =
      (copyAll w data 0 (replaceParts old.length new s.data 0 ps)).map
        fun (data, index) => (data, index, ps.length) := by
  rw [replacePass_eq hne (maxRepOf_lt count), replaceCuts_eq, hps]

theorem strReplace_of_nil (hnil : ps = []) (new : List UInt8) (junk : UInt8) :
    strReplace junk s.data old new count = .ok .self := by
  rw [strReplace]
  split
  · rfl
  split
  · rfl
  rw [pass_eq hne hps, hnil, replaceParts, copyAll_none _ (List.cons_ne_nil _ _)]
  rfl

/-- Something is replaced: the second pass copies into what was allocated after the first. -/
theorem strReplace_of_ne_nil (hps0 : ps ≠ []) (new : List UInt8) (junk : UInt8) :
    strReplace junk s.data old new count =
      (copyAll w (some (vstrInitLen w junk
          ((new.intercalate (Cut.pieces old.length s.data 0 ps)).length % 2 ^ w)).buf) 0
        (replaceParts old.length new s.data 0 ps)).map fun (data, index) =>
          .built ((data.getD []).take
              ((new.intercalate (Cut.pieces old.length s.data 0 ps)).length % 2 ^ w))
            ((new.intercalate (Cut.pieces old.length s.data 0 ps)).length % 2 ^ w, ps.length)
            (index, ps.length) := by
  have hparts : replaceParts old.length new s.data 0 ps ≠ [] := by
    cases ps <;> exact List.cons_ne_nil _ _
  have hcount : count.val ≠ 0 := by
    intro h
    rw [h] at hps
    exact hps0 (hps.symm.trans (by simp [limitTo]))
  have hlen : ¬s.data.length < old.length := by
    intro h
    refine hps0 (hps.symm.trans ?_)
    rw [Cut.leftmost_of_occurrences_eq_nil (occurrences_eq_nil (by omega)), limitTo]
    simp
  have hnum : ps.length ≠ 0 := fun h => hps0 (List.eq_nil_of_length_eq_zero h)
  rw [strReplace, if_neg hcount, if_neg hlen, pass_eq hne hps, copyAll_none _ hparts,
    Nat.zero_add, flatten_replaceParts]
  simp only [Except.map, bind, Except.bind, if_neg hnum]
  rw [pass_eq hne hps]
  simp only [Except.map]
  cases copyAll w (some _) 0 (replaceParts old.length new s.data 0 ps) <;> rfl

end Replace

section Iff

variable {s : HeapStr w} {count : MpInt w} (hne : old ≠ []) {ps : List ℕ}
  (hps : limitTo count.val (Cut.leftmost old s.data 0 s.data.length) = ps)
include hne hps

theorem replacesRight_of_lt
    (hlt : (new.intercalate (Cut.pieces old.length s.data 0 ps)).length + 1 < 2 ^ w) :
    ReplacesRight s old new count := by
  have hword : ¬(count.val < -2 ^ (w - 1) ∨ 2 ^ (w - 1) ≤ count.val) :=
    not_or.mpr ⟨not_lt.mpr count.le_val, not_le.mpr count.val_lt⟩
  refine ⟨_, by rw [mpObjStrSplit_eq w hne, if_neg hword, hps], fun junk => ?_⟩
  have hjoin := strJoin_eq (Cut.pieces_ne_nil old.length s.data 0 ps) hlt junk
  by_cases hnil : ps = []
  · refine ⟨.self, strReplace_of_nil hne hps hnil new junk, ?_⟩
    have hself : new.intercalate (Cut.pieces old.length s.data 0 ps) = s.data := by
      simp [hnil, Cut.pieces]
    rwa [hself] at hjoin
  · have hreplace := strReplace_of_ne_nil hne hps hnil new junk
    have hflat := flatten_replaceParts old.length new s.data 0 ps
    generalize replaceParts old.length new s.data 0 ps = cs at hreplace hflat
    have hroom : cs.flatten.length ≤ (List.replicate (cs.flatten.length + 1) junk).length := by
      rw [List.length_replicate]
      omega
    have hcopy := copyAll_fits [] hroom (by simpa [hflat] using hlt)
    rw [List.nil_append, List.length_nil, hflat] at hcopy
    refine ⟨_, by
      rw [hreplace, Nat.mod_eq_of_lt (by omega), vstrInitLen_buf junk hlt, hcopy]; rfl, ?_⟩
    simp only [Option.getD_some, List.nil_append, List.take_left, Nat.zero_add]
    exact ⟨hjoin, trivial, trivial⟩

theorem not_replacesRight
    (hlarge : 2 ^ w ≤ (new.intercalate (Cut.pieces old.length s.data 0 ps)).length + 1) :
    ¬ReplacesRight s old new count := by
  have hfits := s.fits
  have hpos := List.length_pos_iff.mpr hne
  have hnil : ps ≠ [] := by
    rintro rfl
    simp only [Cut.pieces, List.drop_zero, List.intercalate_singleton] at hlarge
    omega
  have hold : old.length ≤ s.data.length := by
    obtain ⟨p, hp⟩ := List.exists_mem_of_ne_nil ps hnil
    rw [← hps] at hp
    have hcut := (Cut.apart_sublist _ _ _).subset ((limitTo_sublist _ _).subset hp)
    obtain ⟨-, -, h, -⟩ := mem_occurrences.mp hcut
    omega
  have hflat := flatten_replaceParts old.length new s.data 0 ps
  have hbuf := length_vstrInitLen_lt 0 (by omega) hlarge
  rw [lt_min_iff, ← hflat] at hbuf
  have hshort := copyAll_short [] hbuf.1 (by simpa using hbuf.2)
  rw [List.nil_append, List.length_nil, hflat] at hshort
  rintro ⟨_, -, hall⟩
  obtain ⟨result, hresult, -⟩ := hall 0
  rw [strReplace_of_ne_nil hne hps hnil new 0, hshort] at hresult
  cases hresult

end Iff

/-- **Replacing is splitting and joining**, and both passes agree, just when the result and its NUL
are not larger than the memory. -/
theorem replace_iff (s : HeapStr w) (hne : old ≠ []) (new : List UInt8) (count : MpInt w) :
    ReplacesRight s old new count ↔
      s.data.length +
          (limitTo count.val (Cut.leftmost old s.data 0 s.data.length)).length * new.length + 1 <
        2 ^ w +
          (limitTo count.val (Cut.leftmost old s.data 0 s.data.length)).length * old.length := by
  have hcuts := (Cut.isCuts_leftmost old (Nat.zero_le s.data.length)).sublist
    (limitTo_sublist count.val _)
  generalize hps : limitTo count.val (Cut.leftmost old s.data 0 s.data.length) = ps at hcuts ⊢
  have hlen := Cut.length_intercalate_pieces new hcuts
  constructor
  · intro hright
    by_contra hlarge
    exact not_replacesRight hne hps (by omega) hright
  · intro hlt
    exact replacesRight_of_lt hne hps (by omega)

/-- `"a-b".replace("-", "+")` -/
theorem replace_iff_dash :
    ReplacesRight (w := 32) ⟨[97, 45, 98], by decide⟩ [45] [43] ⟨-1, by decide, by decide⟩ :=
  (replace_iff _ (by decide) _ _).mpr (by decide)

theorem leftmost_replicate (b : UInt8) {n lo : ℕ} (h : lo ≤ n) :
    Cut.leftmost [b] (List.replicate n b) lo n = List.range' lo (n - lo) := by
  induction hk : n - lo generalizing lo with
  | zero => exact Cut.leftmost_of_occurrences_eq_nil (occurrences_eq_nil (by simp; omega))
  | succ k ih =>
    have hprefix : [b] <+: (List.replicate n b).drop lo := by
      rw [List.drop_replicate, hk, List.replicate_succ]
      exact ⟨_, rfl⟩
    have hocc : occurrences [b] (List.replicate n b) lo n =
        lo :: occurrences [b] (List.replicate n b) (lo + 1) n :=
      occurrences_of_starts (by simp; omega) (by simpa using h) hprefix
    rw [Cut.leftmost_eq (List.cons_ne_nil _ _) (by rw [hocc]; rfl), List.length_singleton,
      ih (by omega) (by omega), List.range'_succ]

/-- `(chr(a) * n).replace(chr(a), chr(b) * m)` -/
theorem not_replacesRight_replicate (a b : UInt8) {n m : ℕ} {count : MpInt w}
    (hcount : count.val = -1) (hn : (List.replicate n a).length + 1 < 2 ^ w)
    (hlarge : 2 ^ w ≤ n * m + 1) :
    ¬ReplacesRight ⟨List.replicate n a, hn⟩ [a] (List.replicate m b) count := by
  have hps : limitTo count.val (Cut.leftmost [a] (List.replicate n a) 0
      (List.replicate n a).length) = List.range' 0 n := by
    rw [hcount, limitTo, if_pos (by decide), List.length_replicate,
      leftmost_replicate a (Nat.zero_le _), Nat.sub_zero]
  have hlen := Cut.length_intercalate_pieces (List.replicate m b)
    ((Cut.isCuts_leftmost [a] (Nat.zero_le (List.replicate n a).length)).sublist
      (limitTo_sublist count.val _))
  rw [hps, List.length_range', List.length_replicate, List.length_replicate] at hlen
  refine not_replacesRight (List.cons_ne_nil _ _) hps ?_
  simp only [List.length_singleton, Nat.mul_one] at hlen ⊢
  omega

/-- On a machine with words of 32 bits, `("a" * 65536).replace("a", "b" * 65536)` writes behind the
memory that it allocates: its result has `2 ** 32` bytes, and one byte is allocated. -/
theorem replace_overflows :
    ∃ h, ¬ReplacesRight (w := 32) ⟨List.replicate 65536 97, h⟩ [97] (List.replicate 65536 98)
      ⟨-1, by decide, by decide⟩ :=
  ⟨by rw [List.length_replicate]; decide,
    not_replacesRight_replicate 97 98 rfl (by rw [List.length_replicate]; decide) (by decide)⟩

end Pycopy
