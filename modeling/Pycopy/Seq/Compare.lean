import Mathlib.Algebra.Order.Ring.Int
import Mathlib.Data.List.Lex
import Mathlib.Order.Lattice
import Mathlib.Order.Nat

/-!
# Comparison of Sequences

`mp_seq_cmp_bytes` and `mp_seq_cmp_objs` of `py/sequence.c` compare two sequences. Both reduce the
operators "less" to "greater" by an exchange of the operands, the first one before it looks at the
elements, the second one only after a tie.

Bytes are compared by `memcmp`. The one of `lib/libc/string0.c`, which most ports link, loads the
bytes into variables of type `char` before it compares them. Where `char` is signed, as the port
`cc3200` asks for, a byte from 128 on is less than all bytes below 128.

## Main results

* `seqCmp_right_iff`: both functions decide the lexicographic order, for each operator, if and only
  if `char` is unsigned or the first bytes that differ are on the same side of 128.
-/

namespace Pycopy

/-! ### Definitions -/

/-- The operators that may be asked for -/
inductive CmpOp
  | less
  | lessEqual
  | more
  | moreEqual
  | equal
  deriving DecidableEq, Repr

/-- The value of a byte in a variable of type `char` -/
def charValue (signedChar : Bool) (b : UInt8) : ℤ :=
  if signedChar = true ∧ 128 ≤ b.toNat then b.toNat - 256 else b.toNat

/-- `memcmp` of two blocks of the same length: the sign of the result -/
def memcmp (signedChar : Bool) : List UInt8 → List UInt8 → Ordering
  | a :: as, b :: bs =>
    let c₁ := charValue signedChar a
    let c₂ := charValue signedChar b
    if c₁ < c₂ then .lt else if c₁ > c₂ then .gt else memcmp signedChar as bs
  | _, _ => .eq

/-- "Let's deal only with > & >=": whether the operands are exchanged, and the operator then -/
def CmpOp.swapped : CmpOp → Bool × CmpOp
  | .less => (true, .more)
  | .lessEqual => (true, .moreEqual)
  | op => (false, op)

/-- The answer after a tie of all elements that both sequences have -/
def cmpTie (op : CmpOp) (len1 len2 : ℕ) : Bool :=
  if len1 ≠ len2 then
    if len1 < len2 then false else true
  else if op = .more then false
  else true

/-- `mp_seq_cmp_bytes` -/
def seqCmpBytes (signedChar : Bool) (op : CmpOp) (data1 data2 : List UInt8) : Bool :=
  if op = .equal ∧ data1.length ≠ data2.length then false
  else
    let (swap, op) := op.swapped
    let (data1, data2) := if swap then (data2, data1) else (data1, data2)
    let minLen := if data1.length < data2.length then data1.length else data2.length
    let res := memcmp signedChar (data1.take minLen) (data2.take minLen)
    if op = .equal then res == .eq
    else
      match res with
      | .lt => false
      | .gt => true
      | .eq => cmpTie op data1.length data2.length

variable {α β : Type}

/-- The loop of `mp_seq_cmp_objs`: the answer at the first pair that is not equal. The function
`binaryOp` says whether `mp_binary_op` returns `True`. -/
def cmpLoop (equal : α → α → Bool) (binaryOp : CmpOp → α → α → Bool) (op : CmpOp) :
    List α → List α → Option Bool
  | a :: items1, b :: items2 =>
    if equal a b then cmpLoop equal binaryOp op items1 items2
    else if op = .equal then some false
    else some (binaryOp op a b)
  | _, _ => none

/-- `mp_seq_cmp_objs` -/
def seqCmpObjs (equal : α → α → Bool) (binaryOp : CmpOp → α → α → Bool) (op : CmpOp)
    (items1 items2 : List α) : Bool :=
  if op = .equal ∧ items1.length ≠ items2.length then false
  else
    match cmpLoop equal binaryOp op items1 items2 with
    | some answer => answer
    | none =>
      let (swap, op) := op.swapped
      let (len1, len2) :=
        if swap then (items2.length, items1.length) else (items1.length, items2.length)
      cmpTie op len1 len2

/-! ### The lexicographic order -/

/-- The first elements of two lists that differ, before one of the lists ends -/
def firstDiff [DecidableEq α] : List α → List α → Option (α × α)
  | x :: xs, y :: ys => if x = y then firstDiff xs ys else some (x, y)
  | [], _ => none
  | _ :: _, [] => none

/-- The elements that differ are different. -/
theorem ne_of_firstDiff [DecidableEq α] {xs ys : List α} {p : α × α}
    (h : firstDiff xs ys = some p) : p.1 ≠ p.2 := by
  fun_induction firstDiff xs ys with
  | case1 xs a ys ih => exact ih h
  | case2 a xs b ys hne =>
    cases h
    exact hne
  | case3 | case4 => cases h

/-- The first bytes that differ are on the same side of 128, if there are such bytes. -/
def SameSide (xs ys : List UInt8) : Prop :=
  ∀ x y, firstDiff xs ys = some (x, y) → (x.toNat < 128 ↔ y.toNat < 128)

variable [LinearOrder β]

/-- What an operator says about two elements of an order -/
def CmpOp.eval (op : CmpOp) (x y : β) : Bool :=
  match op with
  | .less => decide (x < y)
  | .lessEqual => decide (x ≤ y)
  | .more => decide (y < x)
  | .moreEqual => decide (y ≤ x)
  | .equal => decide (x = y)

/-- Objects that are ordered by a value: `==` and the comparisons say what the order of the values
says. -/
structure OrderedBy (val : α → β) (equal : α → α → Bool) (binaryOp : CmpOp → α → α → Bool) :
    Prop where
  equal : ∀ a b, equal a b = decide (val a = val b)
  binaryOp : ∀ op a b, binaryOp op a b = op.eval (val a) (val b)

/-- The first pair that is not equal decides. -/
theorem CmpOp.eval_cons_of_ne {x y : β} (hne : x ≠ y) (op : CmpOp) (xs ys : List β) :
    op.eval (x :: xs) (y :: ys) = op.eval x y := by
  have hlt : ∀ {a b : β} {as bs : List β}, a ≠ b → (a :: as < b :: bs ↔ a < b) := fun h => by
    rw [List.cons_lt_cons_iff, or_iff_left fun heq => h heq.1]
  have hle : ∀ {a b : β} {as bs : List β}, a ≠ b → (a :: as ≤ b :: bs ↔ a ≤ b) := fun h => by
    rw [← not_lt, hlt h.symm, not_lt]
  cases op with
  | less => exact decide_eq_decide.mpr (hlt hne)
  | lessEqual => exact decide_eq_decide.mpr (hle hne)
  | more => exact decide_eq_decide.mpr (hlt hne.symm)
  | moreEqual => exact decide_eq_decide.mpr (hle hne.symm)
  | equal => simp [CmpOp.eval, hne]

/-- Equal elements do not decide. -/
theorem CmpOp.eval_cons_self (x : β) (op : CmpOp) (xs ys : List β) :
    op.eval (x :: xs) (x :: ys) = op.eval xs ys := by
  have hlt : ∀ {as bs : List β}, x :: as < x :: bs ↔ as < bs := List.cons_lt_cons_self
  have hle : ∀ {as bs : List β}, x :: as ≤ x :: bs ↔ as ≤ bs := by
    intro as bs
    rw [← not_lt, hlt, not_lt]
  cases op with
  | less => exact decide_eq_decide.mpr hlt
  | lessEqual => exact decide_eq_decide.mpr hle
  | more => exact decide_eq_decide.mpr hlt
  | moreEqual => exact decide_eq_decide.mpr hle
  | equal => exact decide_eq_decide.mpr (List.cons_inj_right x)

/-- **The lexicographic order** is decided by the first elements that differ, and after a tie by the
lengths. -/
theorem CmpOp.eval_list (op : CmpOp) (xs ys : List β) :
    op.eval xs ys = match firstDiff xs ys with
      | some (x, y) => op.eval x y
      | none => op.eval xs.length ys.length := by
  fun_induction firstDiff xs ys with
  | case1 xs x ys ih =>
    rw [CmpOp.eval_cons_self, ih]
    cases firstDiff xs ys <;> cases op <;> simp [CmpOp.eval]
  | case2 x xs y ys hne => exact CmpOp.eval_cons_of_ne hne op xs ys
  | case3 ys => cases ys <;> cases op <;> simp [CmpOp.eval, ← not_lt]
  | case4 x xs => cases op <;> simp [CmpOp.eval, ← not_lt]

/-- The elements that differ are found behind an injective function as well. -/
theorem firstDiff_map [DecidableEq α] {f : α → β} (hf : Function.Injective f) (xs ys : List α) :
    firstDiff (xs.map f) (ys.map f) = (firstDiff xs ys).map (Prod.map f f) := by
  fun_induction firstDiff xs ys with
  | case1 xs x ys ih => simpa [firstDiff] using ih
  | case2 x xs y ys hne => simp [firstDiff, hf.ne hne]
  | case3 | case4 => rfl

/-- After a tie the lengths are compared as the operator says. -/
theorem cmpTie_eq {op : CmpOp} (hop : op = .more ∨ op = .moreEqual) (m n : ℕ) :
    cmpTie op m n = op.eval m n := by
  rcases hop with rfl | rfl <;> rw [cmpTie] <;> split_ifs <;> simp_all [CmpOp.eval] <;> omega

/-! ### Bytes -/

/-- Different bytes are different as `char`s. -/
theorem charValue_injective (signedChar : Bool) : Function.Injective (charValue signedChar) := by
  intro a b h
  have ha := a.toNat_lt
  have hb := b.toNat_lt
  rw [charValue, charValue] at h
  refine UInt8.toNat_inj.mp ?_
  split_ifs at h <;> omega

/-- `memcmp` looks for the first bytes that differ. -/
theorem memcmp_eq (signedChar : Bool) (xs ys : List UInt8) :
    memcmp signedChar xs ys = match firstDiff xs ys with
      | some (x, y) => if charValue signedChar x < charValue signedChar y then .lt else .gt
      | none => .eq := by
  fun_induction firstDiff xs ys with
  | case1 xs x ys ih => simpa [memcmp] using ih
  | case2 x xs y ys hne =>
    have hvalue := (charValue_injective signedChar).ne hne
    by_cases hlt : charValue signedChar x < charValue signedChar y
    · simp [memcmp, hlt]
    · simp [memcmp, hlt, lt_of_le_of_ne (not_lt.mp hlt) hvalue.symm]
  | case3 | case4 => rfl

/-- The bytes behind the end of the shorter block are not looked at. -/
theorem firstDiff_take (xs ys : List UInt8) {n : ℕ} (hn : min xs.length ys.length ≤ n) :
    firstDiff (xs.take n) (ys.take n) = firstDiff xs ys := by
  induction n generalizing xs ys with
  | zero => cases xs <;> cases ys <;> first | rfl | simp at hn
  | succ n ih =>
    cases xs with
    | nil => rfl
    | cons x xs =>
      cases ys with
      | nil => simp [firstDiff]
      | cons y ys =>
        simp only [List.length_cons] at hn
        simp [firstDiff, ih xs ys (by omega)]

/-- The lexicographic order of bytes that stand for numbers -/
theorem CmpOp.eval_map {f : UInt8 → β} (hf : Function.Injective f) (op : CmpOp)
    (xs ys : List UInt8) : op.eval (xs.map f) (ys.map f) = match firstDiff xs ys with
      | some (x, y) => op.eval (f x) (f y)
      | none => op.eval xs.length ys.length := by
  rw [CmpOp.eval_list, firstDiff_map hf, List.length_map, List.length_map]
  cases firstDiff xs ys <;> rfl

/-- The operators "greater" on bytes -/
theorem cmpBytes_more {op : CmpOp} (hop : op = .more ∨ op = .moreEqual) (signedChar : Bool)
    (xs ys : List UInt8) :
    (match memcmp signedChar xs ys with
      | .lt => false
      | .gt => true
      | .eq => cmpTie op xs.length ys.length) =
      op.eval (xs.map (charValue signedChar)) (ys.map (charValue signedChar)) := by
  rw [CmpOp.eval_map (charValue_injective signedChar), memcmp_eq]
  cases hdiff : firstDiff xs ys with
  | none => exact cmpTie_eq hop _ _
  | some p =>
    have hne := (charValue_injective signedChar).ne (ne_of_firstDiff hdiff)
    by_cases hlt : charValue signedChar p.1 < charValue signedChar p.2
    · rcases hop with rfl | rfl
      · simp [CmpOp.eval, hlt, hlt.le]
      · simp [CmpOp.eval, hlt]
    · have hgt := lt_of_le_of_ne (not_lt.mp hlt) hne.symm
      rcases hop with rfl | rfl
      · simp [CmpOp.eval, hlt, hgt]
      · simp [CmpOp.eval, hlt, hgt.le]

/-- **Bytes are compared as `char`s.** -/
theorem seqCmpBytes_eq (signedChar : Bool) (op : CmpOp) (xs ys : List UInt8) :
    seqCmpBytes signedChar op xs ys =
      op.eval (xs.map (charValue signedChar)) (ys.map (charValue signedChar)) := by
  have htake : ∀ xs ys : List UInt8, memcmp signedChar
      (xs.take (if xs.length < ys.length then xs.length else ys.length))
      (ys.take (if xs.length < ys.length then xs.length else ys.length)) =
        memcmp signedChar xs ys := fun xs ys => by
    rw [memcmp_eq, memcmp_eq, firstDiff_take]
    split_ifs <;> omega
  rw [seqCmpBytes]
  cases op with
  | less =>
    simpa [CmpOp.swapped, CmpOp.eval, htake] using cmpBytes_more (.inl rfl) signedChar ys xs
  | lessEqual =>
    simpa [CmpOp.swapped, CmpOp.eval, htake] using cmpBytes_more (.inr rfl) signedChar ys xs
  | more =>
    simpa [CmpOp.swapped, CmpOp.eval, htake] using cmpBytes_more (.inl rfl) signedChar xs ys
  | moreEqual =>
    simpa [CmpOp.swapped, CmpOp.eval, htake] using cmpBytes_more (.inr rfl) signedChar xs ys
  | equal =>
    have hne : ∀ p, firstDiff xs ys = some p →
      charValue signedChar p.1 ≠ charValue signedChar p.2 :=
      fun p hdiff => (charValue_injective signedChar).ne (ne_of_firstDiff hdiff)
    rw [CmpOp.eval_map (charValue_injective signedChar)]
    by_cases hlen : xs.length = ys.length
    · rw [if_neg fun h => h.2 hlen]
      simp only [CmpOp.swapped, Bool.false_eq_true, if_false, if_true, htake, memcmp_eq]
      cases hdiff : firstDiff xs ys with
      | none => simp [CmpOp.eval, hlen]
      | some p =>
        simp only [CmpOp.eval, hne p hdiff]
        split_ifs <;> rfl
    · cases hdiff : firstDiff xs ys with
      | none => simp [CmpOp.eval, hlen]
      | some p => simp [CmpOp.eval, hlen, hne p hdiff]

/-- **The order of `char`s** is the order of the bytes if and only if `char` is unsigned or both
bytes are on the same side of 128. -/
theorem eval_charValue_iff {x y : UInt8} (hne : x ≠ y) (signedChar : Bool) :
    (∀ op : CmpOp, op.eval (charValue signedChar x) (charValue signedChar y) =
      op.eval x.toNat y.toNat) ↔ signedChar = false ∨ (x.toNat < 128 ↔ y.toNat < 128) := by
  have hx := x.toNat_lt
  have hy := y.toNat_lt
  have hnat : x.toNat ≠ y.toNat := fun h => hne (UInt8.toNat_inj.mp h)
  constructor
  · intro h
    have hless := decide_eq_decide.mp (h .less)
    cases signedChar with
    | false => exact .inl rfl
    | true =>
      simp only [charValue, true_and] at hless
      split_ifs at hless <;> refine .inr ?_ <;> omega
  · intro h op
    have hsame : charValue signedChar x < charValue signedChar y ↔ x.toNat < y.toNat := by
      cases signedChar with
      | false => simp [charValue]
      | true =>
        have hside := h.resolve_left (by decide)
        simp only [charValue, true_and]
        split_ifs <;> omega
    have hvalue := (charValue_injective signedChar).ne hne
    cases op with
    | less => exact decide_eq_decide.mpr hsame
    | lessEqual => exact decide_eq_decide.mpr (by omega)
    | more => exact decide_eq_decide.mpr (by omega)
    | moreEqual => exact decide_eq_decide.mpr (by omega)
    | equal => exact decide_eq_decide.mpr (by omega)

/-! ### Objects -/

variable {val : α → β} {equal : α → α → Bool} {binaryOp : CmpOp → α → α → Bool}

/-- The loop stops at the first elements whose values differ. -/
theorem cmpLoop_spec (h : OrderedBy val equal binaryOp) (op : CmpOp) (xs ys : List α) :
    cmpLoop equal binaryOp op xs ys =
      (firstDiff (xs.map val) (ys.map val)).map fun p => op.eval p.1 p.2 := by
  fun_induction cmpLoop equal binaryOp op xs ys with
  | case1 a xs b ys heq ih =>
    rw [h.equal, decide_eq_true_eq] at heq
    simpa [firstDiff, heq] using ih
  | case2 a xs b ys hne hop =>
    rw [h.equal, decide_eq_true_eq] at hne
    simp [firstDiff, hne, hop, CmpOp.eval]
  | case3 a xs b ys hne hop =>
    rw [h.equal, decide_eq_true_eq] at hne
    simp [firstDiff, hne, h.binaryOp]
  | case4 xs ys hnil =>
    cases xs with
    | nil => rfl
    | cons x xs =>
      cases ys with
      | nil => rfl
      | cons y ys => exact absurd rfl (hnil x xs y ys rfl)

/-- **Objects are compared by what orders them.** -/
theorem seqCmpObjs_eq (h : OrderedBy val equal binaryOp) (op : CmpOp) (xs ys : List α) :
    seqCmpObjs equal binaryOp op xs ys = op.eval (xs.map val) (ys.map val) := by
  rw [seqCmpObjs, cmpLoop_spec h, CmpOp.eval_list, List.length_map, List.length_map]
  cases hdiff : firstDiff (xs.map val) (ys.map val) with
  | some p =>
    have hne := ne_of_firstDiff hdiff
    split_ifs with hlen
    · simp [hlen.1, CmpOp.eval, hne]
    · rfl
  | none =>
    cases op with
    | less => simpa [CmpOp.swapped, CmpOp.eval] using cmpTie_eq (.inl rfl) ys.length xs.length
    | lessEqual => simpa [CmpOp.swapped, CmpOp.eval] using cmpTie_eq (.inr rfl) ys.length xs.length
    | more => simpa [CmpOp.swapped, CmpOp.eval] using cmpTie_eq (.inl rfl) xs.length ys.length
    | moreEqual => simpa [CmpOp.swapped, CmpOp.eval] using cmpTie_eq (.inr rfl) xs.length ys.length
    | equal =>
      by_cases hlen : xs.length = ys.length
      · simp [CmpOp.swapped, cmpTie, hlen, CmpOp.eval]
      · simp [hlen, CmpOp.eval]

/-- **When sequences are compared right.** For every operator the answer on bytes is that of the
lexicographic order of their numbers, and the answer on objects that of the order of their values,
if and only if `char` is unsigned or the first bytes that differ are on the same side of 128. -/
theorem seqCmp_right_iff (h : OrderedBy val equal binaryOp) (signedChar : Bool)
    (data1 data2 : List UInt8) (items1 items2 : List α) :
    (∀ op : CmpOp, seqCmpBytes signedChar op data1 data2 =
        op.eval (data1.map UInt8.toNat) (data2.map UInt8.toNat) ∧
      seqCmpObjs equal binaryOp op items1 items2 = op.eval (items1.map val) (items2.map val)) ↔
      signedChar = false ∨ SameSide data1 data2 := by
  have hnat : Function.Injective UInt8.toNat := fun a b => UInt8.toNat_inj.mp
  simp only [seqCmpObjs_eq h, and_true, seqCmpBytes_eq, SameSide,
    CmpOp.eval_map (charValue_injective signedChar), CmpOp.eval_map hnat]
  cases hdiff : firstDiff data1 data2 with
  | none => simp
  | some p =>
    obtain ⟨x, y⟩ := p
    simpa using eval_charValue_iff (ne_of_firstDiff hdiff) signedChar

/-- With a signed `char`, `b'ab' < b'ac\xff'` is right, and so is `[1, 2] < [1, 2, 3]`. -/
theorem seqCmp_right_ascii :
    seqCmpBytes true .less [97, 98] [97, 99, 255] = CmpOp.eval .less [97, 98] [97, 99, 255] ∧
    seqCmpObjs (fun a b : ℕ => decide (a = b)) (fun op a b => op.eval a b) .less [1, 2] [1, 2, 3] =
      CmpOp.eval .less [1, 2] [1, 2, 3] :=
  (@seqCmp_right_iff ℕ ℕ _ id _ _ ⟨fun _ _ => rfl, fun _ _ _ => rfl⟩ true _ _ _ _).mpr
    (.inr fun x y hdiff => by cases hdiff; decide) .less

/-- **A byte that is negative**: with a signed `char`, `b'\xff' > b'a'` is `False`. -/
theorem seqCmpBytes_signed :
    seqCmpBytes true .more [0xff] [0x61] = false ∧ CmpOp.eval .more [0xff] [0x61] = true := by
  decide

end Pycopy
