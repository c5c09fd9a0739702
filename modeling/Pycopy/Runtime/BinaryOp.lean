import Mathlib.Tactic.Ring
import Pycopy.Runtime.SmallInt

/-!
# Binary Operations on Small Integers

The branch of `mp_binary_op` in `py/runtime.c` that is taken when both operands are small
integers. Each operator has its own way to stay inside `mp_int_t`: sums and quotients always
fit the word and are checked against the range of small integers afterwards, products and
powers are checked before they are formed, and so are left shifts. When the check fails the
left operand is made a big integer and the operation starts over on the generic path.

The one result that is packed without a check is the pair of `divmod`. Its quotient leaves
the range for a single pair of operands.

## Main results

* `mp_binary_op_small_int_iff`: which operations return the exact result.
-/

open TwosComplement

namespace Pycopy

variable {w : ℕ}

/-! ### Definitions -/

/-- The operators of the small-integer branch. The in-place variants share their cases. -/
inductive BinaryOp
  | or
  | xor
  | and
  | lshift
  | rshift
  | add
  | subtract
  | multiply
  | floorDivide
  | trueDivide
  | modulo
  | power
  | divmod
  | less
  | more
  | lessEqual
  | moreEqual
  deriving DecidableEq, Repr

/-- How `mp_binary_op` leaves the branch. -/
inductive BinaryOpResult (w : ℕ)
  /-- a small-integer object -/
  | obj (o : BitVec w)
  /-- `mp_obj_new_bool` -/
  | bool (b : Bool)
  /-- a tuple of two small-integer objects -/
  | tuple (fst snd : BitVec w)
  /-- `mp_obj_new_int_from_ll` -/
  | newInt (v : BitVec w)
  /-- `generic_binary_op`, the left operand a big integer made from `lhsVal` -/
  | generic (lhsVal rhs : BitVec w)
  /-- a result in floating point -/
  | float
  | valueError (msg : String)
  | zeroDivisionError (msg : String)
  | unsupported
  /-- an operand is not a small integer -/
  | notSmallInt
  | noReturn
  deriving DecidableEq, Repr

/-- The exits of the power loop. -/
inductive PowerExit (w : ℕ)
  | done (ans : BitVec w)
  | overflow
  | noReturn
  deriving DecidableEq, Repr

/-- The loop of `MP_BINARY_OP_POWER`, run for at most `fuel` rounds. -/
def powerLoop (r : ObjRepr w) : ℕ → BitVec w → BitVec w → BitVec w → PowerExit w
  | 0, _, _, _ => .noReturn
  | fuel + 1, lhsVal, rhsVal, ans =>
    if (0#w).slt rhsVal then
      let odd := rhsVal &&& 1#w != 0#w
      if odd && smallIntMulOverflow r ans lhsVal then .overflow
      else
        let ans := if odd then ans * lhsVal else ans
        if rhsVal == 1#w then .done ans
        else
          let rhsVal := rhsVal.sdiv 2#w
          if smallIntMulOverflow r lhsVal lhsVal then .overflow
          else powerLoop r fuel (lhsVal * lhsVal) rhsVal ans
    else .done ans

/-- The end of the branch, an inlined `mp_obj_new_int`. -/
def newIntInlined (r : ObjRepr w) (lhsVal : BitVec w) : BinaryOpResult w :=
  if smallIntFits r lhsVal then .obj (objNewSmallInt r lhsVal) else .newInt lhsVal

/-- `zero_division` -/
def zeroDivision : BinaryOpResult w := .zeroDivisionError "divide by zero"

/-- The small-integer branch of `mp_binary_op`; `builtinsFloat` is
`MICROPY_PY_BUILTINS_FLOAT`. -/
def mpBinaryOpSmallInt (r : ObjRepr w) (builtinsFloat : Bool) (op : BinaryOp)
    (lhs rhs : BitVec w) : BinaryOpResult w :=
  if !objIsSmallInt r lhs || !objIsSmallInt r rhs then .notSmallInt
  else
    let lhsVal := objSmallIntValue r lhs
    let rhsVal := objSmallIntValue r rhs
    match op with
    | .or => newIntInlined r (lhsVal ||| rhsVal)
    | .xor => newIntInlined r (lhsVal ^^^ rhsVal)
    | .and => newIntInlined r (lhsVal &&& rhsVal)
    | .lshift =>
      if rhsVal.slt 0#w then .valueError "negative shift count"
      else if (BitVec.ofNat w w).sle rhsVal ||
          ((smallIntMax r).sshiftRight rhsVal.toNat).slt lhsVal ||
          lhsVal.slt ((smallIntMin r).sshiftRight rhsVal.toNat) then
        .generic lhsVal rhs
      else newIntInlined r (lhsVal <<< rhsVal.toNat)
    | .rshift =>
      if rhsVal.slt 0#w then .valueError "negative shift count"
      else
        let rhsVal := if (BitVec.ofNat w w).sle rhsVal then BitVec.ofNat w (w - 1) else rhsVal
        newIntInlined r (lhsVal.sshiftRight rhsVal.toNat)
    | .add => newIntInlined r (lhsVal + rhsVal)
    | .subtract => newIntInlined r (lhsVal - rhsVal)
    | .multiply =>
      if smallIntMulOverflow r lhsVal rhsVal then .generic lhsVal rhs
      else .obj (objNewSmallInt r (lhsVal * rhsVal))
    | .floorDivide =>
      if rhsVal == 0#w then zeroDivision
      else newIntInlined r (smallIntFloorDivide lhsVal rhsVal)
    | .trueDivide =>
      if builtinsFloat then
        if rhsVal == 0#w then zeroDivision else .float
      else .unsupported
    | .modulo =>
      if rhsVal == 0#w then zeroDivision
      else newIntInlined r (smallIntModulo lhsVal rhsVal)
    | .power =>
      if rhsVal.slt 0#w then
        if builtinsFloat then .float else .valueError "negative power with no float support"
      else
        match powerLoop r w lhsVal rhsVal 1#w with
        | .done ans => newIntInlined r ans
        | .overflow => .generic lhsVal rhs
        | .noReturn => .noReturn
    | .divmod =>
      if rhsVal == 0#w then zeroDivision
      else
        .tuple (objNewSmallInt r (smallIntFloorDivide lhsVal rhsVal))
          (objNewSmallInt r (smallIntModulo lhsVal rhsVal))
    | .less => .bool (lhsVal.slt rhsVal)
    | .more => .bool (rhsVal.slt lhsVal)
    | .lessEqual => .bool (lhsVal.sle rhsVal)
    | .moreEqual => .bool (rhsVal.sle lhsVal)

/-! ### Meaning -/

/-- What a Python operation on two integers gives. -/
inductive PyResult
  | int (v : ℤ)
  | pair (q m : ℤ)
  | bool (b : Bool)
  | valueError
  | zeroDivisionError
  /-- not an operation on integers: `/`, and `**` with a negative exponent -/
  | notInt
  deriving DecidableEq, Repr

/-- Python's meaning of the operators on integers. -/
def pyBinaryOp (op : BinaryOp) (x y : ℤ) : PyResult :=
  match op with
  | .or => .int (Int.lor x y)
  | .xor => .int (Int.xor x y)
  | .and => .int (Int.land x y)
  | .lshift => if y < 0 then .valueError else .int (x * 2 ^ y.toNat)
  | .rshift => if y < 0 then .valueError else .int (x / 2 ^ y.toNat)
  | .add => .int (x + y)
  | .subtract => .int (x - y)
  | .multiply => .int (x * y)
  | .floorDivide => if y = 0 then .zeroDivisionError else .int (x.fdiv y)
  | .trueDivide => .notInt
  | .modulo => if y = 0 then .zeroDivisionError else .int (x.fmod y)
  | .power => if y < 0 then .notInt else .int (x ^ y.toNat)
  | .divmod => if y = 0 then .zeroDivisionError else .pair (x.fdiv y) (x.fmod y)
  | .less => .bool (decide (x < y))
  | .more => .bool (decide (x > y))
  | .lessEqual => .bool (decide (x ≤ y))
  | .moreEqual => .bool (decide (x ≥ y))

/-- The object is a small integer made from a value in range, and stands for `v`. -/
def DenotesSmallInt (r : ObjRepr w) (o : BitVec w) (v : ℤ) : Prop :=
  objIsSmallInt r o = true ∧ (objSmallIntValue r o).toInt = v ∧
    ∃ n, InRange r n.toInt ∧ o = objNewSmallInt r n

/-- The exit of the branch agrees with the meaning `py`: an object stands for the exact
result, a big integer is made only when the result is out of range, the generic path starts
from the original operands, and an exception is that of Python. -/
def BinaryOpResult.Exact (r : ObjRepr w) (lhs rhs : BitVec w) (py : PyResult) :
    BinaryOpResult w → Prop
  | .obj o => ∃ v, py = .int v ∧ DenotesSmallInt r o v
  | .bool b => py = .bool b
  | .tuple fst snd =>
    ∃ q m, py = .pair q m ∧ DenotesSmallInt r fst q ∧ DenotesSmallInt r snd m
  | .newInt v => py = .int v.toInt ∧ ¬InRange r v.toInt
  | .generic lhsVal rhs' => lhsVal = objSmallIntValue r lhs ∧ rhs' = rhs ∧ ∃ v, py = .int v
  | .valueError _ => py = .valueError
  | .zeroDivisionError _ => py = .zeroDivisionError
  | .float => False
  | .unsupported => False
  | .notSmallInt => False
  | .noReturn => False

/-! ### Results in range -/

section Repr

variable (r : ObjRepr w)

theorem denotesSmallInt_new {n : BitVec w} (hn : InRange r n.toInt) :
    DenotesSmallInt r (objNewSmallInt r n) n.toInt :=
  ⟨objIsSmallInt_new r n, by rw [objSmallIntValue_new r hn], n, hn, rfl⟩

variable {v : BitVec w}

/-- The check at the end of the branch builds the right kind of object. -/
theorem exact_newIntInlined {lhs rhs : BitVec w} {py : PyResult} (hpy : py = .int v.toInt) :
    (newIntInlined r v).Exact r lhs rhs py := by
  rw [newIntInlined]
  split
  · rename_i hfits
    exact ⟨_, hpy, denotesSmallInt_new r ((smallIntFits_iff r v).mp hfits)⟩
  · rename_i hfits
    exact ⟨hpy, fun h => hfits ((smallIntFits_iff r v).mpr h)⟩

theorem toInt_mul_of_not_overflow {x y : BitVec w} (h : smallIntMulOverflow r x y = false) :
    (x * y).toInt = x.toInt * y.toInt ∧ InRange r (x * y).toInt := by
  have hr := (smallIntMulOverflow_iff r x y).mp h
  have heq : (x * y).toInt = x.toInt * y.toInt := by
    rw [BitVec.toInt_mul]
    obtain ⟨h1, h2⟩ := hr
    have hpos : (0 : ℤ) < 2 ^ r.valueBits := by positivity
    exact bmod_of_two_mul_bounds r (by omega) (by omega)
  exact ⟨heq, heq ▸ hr⟩

/-! ### The power loop -/

theorem and_one_ne_zero_iff {y : BitVec w} (hw : 0 < w) :
    (y &&& 1#w != 0#w) = true ↔ y.toNat % 2 = 1 := by
  rw [bne_iff_ne, ne_eq, ← BitVec.toNat_inj, BitVec.toNat_and, BitVec.toNat_ofNat,
    Nat.mod_eq_of_lt (Nat.one_lt_two_pow hw.ne'), Nat.and_one_is_mod, BitVec.toNat_zero]
  omega

theorem toInt_eq_toNat_of_nonneg {y : BitVec w} (hy : 0 ≤ y.toInt) : y.toInt = y.toNat := by
  rw [BitVec.toInt_eq_toNat_of_msb]
  rw [BitVec.msb_eq_toInt, decide_eq_false_iff_not]
  omega

variable {n : ℕ}

theorem toInt_ofNat_of_lt (hw : 8 ≤ w) (hn : n ≤ w) : (BitVec.ofNat w n).toInt = n := by
  have hlt : w < 2 ^ (w - 1) := by
    have h1 : w - 2 < 2 ^ (w - 2) := Nat.lt_two_pow_self
    rw [show w - 1 = w - 2 + 1 by omega, pow_succ]
    omega
  have hltz : (w : ℤ) < 2 ^ (w - 1) := by exact_mod_cast hlt
  have hmod : n % 2 ^ w = n := Nat.mod_eq_of_lt (lt_of_le_of_lt hn Nat.lt_two_pow_self)
  rw [BitVec.toInt_eq_toNat_bmod, BitVec.toNat_ofNat, hmod]
  exact bmod_of_bounds (by omega) (by omega) (by omega)

theorem toNat_sdiv_two {y : BitVec w} (hw : 8 ≤ w) (hy : 0 ≤ y.toInt) :
    (y.sdiv 2#w).toNat = y.toNat / 2 ∧ 0 ≤ (y.sdiv 2#w).toInt := by
  have hlt := @BitVec.toInt_lt w y
  have hdiv : (y.sdiv 2#w).toInt = y.toInt / 2 := by
    rw [BitVec.toInt_sdiv, toInt_ofNat_of_lt hw (by omega), Int.tdiv_eq_ediv_of_nonneg hy]
    exact bmod_of_bounds (by omega) (by omega) (by omega)
  have hnn : 0 ≤ (y.sdiv 2#w).toInt := by omega
  refine ⟨?_, hnn⟩
  rw [toInt_eq_toNat_of_nonneg hnn, toInt_eq_toNat_of_nonneg hy] at hdiv
  omega

/-- **The power loop** ends, with the power or with an overflow. The invariant is that `ans`
times the power still to be formed does not change. -/
theorem powerLoop_spec {fuel : ℕ} {x y ans : BitVec w} (hx : InRange r x.toInt)
    (ha : InRange r ans.toInt) (hy : 0 ≤ y.toInt) (hpos : 0 < fuel) (hfuel : y.toNat < 2 ^ fuel) :
    powerLoop r fuel x y ans = .overflow ∨
      ∃ z, powerLoop r fuel x y ans = .done z ∧ z.toInt = ans.toInt * x.toInt ^ y.toNat := by
  have hw := r.eight_le
  induction fuel generalizing x y ans with
  | zero => omega
  | succ fuel ih =>
    have hy' := toInt_eq_toNat_of_nonneg hy
    rw [powerLoop]
    by_cases hy0 : y.toNat = 0
    · refine .inr ⟨ans, if_neg ?_, by rw [hy0, pow_zero, mul_one]⟩
      rw [zero_slt_iff]
      omega
    · rw [if_pos (zero_slt_iff.mpr (by omega))]
      -- the rest of the round, once `ans` has its factor
      have hrest : ∀ ans' : BitVec w, InRange r ans'.toInt → ∀ exit,
          (if y == 1#w then .done ans'
            else if smallIntMulOverflow r x x then .overflow
            else powerLoop r fuel (x * x) (y.sdiv 2#w) ans') = exit →
          exit = .overflow ∨
            ∃ z, exit = .done z ∧ z.toInt = ans'.toInt * x.toInt ^ (y.toNat / 2 * 2) := by
        rintro ans' ha' _ rfl
        have hone : y == 1#w ↔ y.toNat = 1 := by
          rw [beq_iff_eq, ← BitVec.toNat_inj, BitVec.toNat_ofNat,
            Nat.mod_eq_of_lt (Nat.one_lt_two_pow (by omega))]
        by_cases h1 : y.toNat = 1
        · rw [if_pos (hone.mpr h1), h1]
          exact .inr ⟨ans', rfl, by simp⟩
        · rw [if_neg (hone.not.mpr h1)]
          cases hov : smallIntMulOverflow r x x with
          | true => exact .inl (if_pos rfl)
          | false =>
            obtain ⟨hmul, hrange⟩ := toInt_mul_of_not_overflow r hov
            obtain ⟨hhalf, hnn⟩ := toNat_sdiv_two hw hy
            have hfuel0 : 0 < fuel := by
              rcases Nat.eq_zero_or_pos fuel with rfl | h
              · rw [Nat.zero_add, pow_one] at hfuel
                omega
              · exact h
            rw [if_neg Bool.false_ne_true]
            have hrun := ih hrange ha' hnn hfuel0 (by rw [hhalf]; rw [pow_succ] at hfuel; omega)
            rwa [hmul, hhalf, ← sq x.toInt, ← pow_mul, Nat.mul_comm] at hrun
      by_cases hodd : y.toNat % 2 = 1
      · have hbit := (and_one_ne_zero_iff (by omega)).mpr hodd
        simp only [hbit, Bool.true_and, if_true]
        cases hov : smallIntMulOverflow r ans x with
        | true => exact .inl (if_pos rfl)
        | false =>
          obtain ⟨hmul, hrange⟩ := toInt_mul_of_not_overflow r hov
          rcases hrest (ans * x) hrange _ rfl with h | ⟨z, h, hz⟩
          · exact .inl h
          · refine .inr ⟨z, h, ?_⟩
            rw [hz, hmul, mul_assoc, ← pow_succ']
            congr 2
            omega
      · have hbit : (y &&& 1#w != 0#w) = false := by
          rw [← Bool.not_eq_true, and_one_ne_zero_iff (by omega)]
          exact hodd
        simp only [hbit, Bool.false_and, Bool.false_eq_true, if_false]
        rcases hrest ans ha _ rfl with h | ⟨z, h, hz⟩
        · exact .inl h
        · refine .inr ⟨z, h, ?_⟩
          rw [hz]
          congr 2
          omega

/-! ### Shifts -/

theorem toInt_shiftLeft_of_bounds {x : BitVec w} (hw : 0 < w)
    (h₁ : -(2 : ℤ) ^ (w - 1) ≤ x.toInt * 2 ^ n) (h₂ : x.toInt * 2 ^ n < 2 ^ (w - 1)) :
    (x <<< n).toInt = x.toInt * 2 ^ n := by
  have hcast : ((x.toNat <<< n : ℕ) : ℤ) = x.toNat * 2 ^ n := by
    rw [Nat.shiftLeft_eq]
    push_cast
    rfl
  rw [BitVec.toInt_shiftLeft, hcast, ← Int.bmod_mul_bmod, ← BitVec.toInt_eq_toNat_bmod]
  exact bmod_of_bounds hw h₁ h₂

/-- The checks before a left shift leave only results that fit the word. -/
theorem shiftLeft_bounds {x : ℤ} (hn : n < w)
    (hmax : x ≤ (2 ^ r.valueBits - 1) / 2 ^ n) (hmin : -2 ^ r.valueBits / 2 ^ n ≤ x) :
    -(2 : ℤ) ^ (w - 1) ≤ x * 2 ^ n ∧ x * 2 ^ n < 2 ^ (w - 1) := by
  have hpos : (0 : ℤ) < 2 ^ n := by positivity
  have hle := two_mul_two_pow_valueBits_le r
  have hval : (0 : ℤ) < 2 ^ r.valueBits := by positivity
  constructor
  · -- the word is a multiple of the shift, so the rounded bound does not cross it
    have hdvd : (2 : ℤ) ^ n ∣ -2 ^ (w - 1) := (pow_dvd_pow 2 (by omega)).neg_right
    calc -(2 : ℤ) ^ (w - 1) = -2 ^ (w - 1) / 2 ^ n * 2 ^ n := (Int.ediv_mul_cancel hdvd).symm
      _ ≤ x * 2 ^ n :=
          mul_le_mul_of_nonneg_right
            ((Int.ediv_le_ediv hpos (by omega)).trans hmin) hpos.le
  · have := (Int.le_ediv_iff_mul_le hpos).mp hmax
    omega

theorem ediv_two_pow_of_bounds {x : ℤ} {m : ℕ} (h₁ : -(2 : ℤ) ^ n ≤ x) (h₂ : x < 2 ^ n)
    (hnm : n ≤ m) : x / 2 ^ m = x / 2 ^ n := by
  have hle : (2 : ℤ) ^ n ≤ 2 ^ m := pow_le_pow_right₀ (by omega) hnm
  rcases lt_or_ge x 0 with h | h
  · rw [Int.ediv_eq_neg_one_of_neg_of_le h (by omega),
      Int.ediv_eq_neg_one_of_neg_of_le h (by omega)]
  · rw [Int.ediv_eq_zero_of_lt h h₂, Int.ediv_eq_zero_of_lt h (by omega)]

/-! ### The operators -/

section Operands

variable {lhs rhs x y : BitVec w}

theorem exact_lshift (hlhs : x = objSmallIntValue r lhs) :
    BinaryOpResult.Exact r lhs rhs (pyBinaryOp .lshift x.toInt y.toInt)
      (if y.slt 0#w then .valueError "negative shift count"
        else if (BitVec.ofNat w w).sle y || ((smallIntMax r).sshiftRight y.toNat).slt x ||
            x.slt ((smallIntMin r).sshiftRight y.toNat) then
          .generic x rhs
        else newIntInlined r (x <<< y.toNat)) := by
  have hw := r.eight_le
  rw [pyBinaryOp]
  by_cases hneg : y.toInt < 0
  · rw [if_pos hneg, if_pos (slt_zero_iff.mpr hneg)]
    exact rfl
  · rw [if_neg hneg, if_neg (slt_zero_iff.not.mpr hneg)]
    have hynat := toInt_eq_toNat_of_nonneg (not_lt.mp hneg)
    split
    · exact ⟨hlhs, rfl, _, rfl⟩
    · rename_i hcheck
      simp only [Bool.or_eq_true, BitVec.sle_iff_toInt_le, BitVec.slt_iff_toInt_lt,
        toInt_ofNat_of_lt hw le_rfl, BitVec.toInt_sshiftRight, Int.shiftRight_eq_div_pow,
        toInt_smallIntMin, toInt_smallIntMax, not_or, not_le, not_lt] at hcheck
      obtain ⟨⟨hlt, hmax⟩, hmin⟩ := hcheck
      have hn : y.toNat < w := by omega
      push_cast at hmax hmin
      obtain ⟨h1, h2⟩ := shiftLeft_bounds r hn hmax hmin
      refine exact_newIntInlined r ?_
      rw [toInt_shiftLeft_of_bounds (by omega) h1 h2, hynat, Int.toNat_natCast]

theorem exact_rshift : BinaryOpResult.Exact r lhs rhs (pyBinaryOp .rshift x.toInt y.toInt)
      (if y.slt 0#w then .valueError "negative shift count"
        else newIntInlined r (x.sshiftRight
          (if (BitVec.ofNat w w).sle y then BitVec.ofNat w (w - 1) else y).toNat)) := by
  have hw := r.eight_le
  rw [pyBinaryOp]
  by_cases hneg : y.toInt < 0
  · rw [if_pos hneg, if_pos (slt_zero_iff.mpr hneg)]
    exact rfl
  · rw [if_neg hneg, if_neg (slt_zero_iff.not.mpr hneg)]
    have hynat := toInt_eq_toNat_of_nonneg (not_lt.mp hneg)
    refine exact_newIntInlined r ?_
    rw [BitVec.toInt_sshiftRight, Int.shiftRight_eq_div_pow, hynat, Int.toNat_natCast]
    push_cast
    split
    · rename_i hbig
      rw [BitVec.sle_iff_toInt_le, toInt_ofNat_of_lt hw le_rfl] at hbig
      rw [BitVec.toNat_ofNat,
        Nat.mod_eq_of_lt (lt_of_le_of_lt (Nat.sub_le _ _) Nat.lt_two_pow_self),
        ediv_two_pow_of_bounds (BitVec.le_toInt x) BitVec.toInt_lt (show w - 1 ≤ y.toNat by omega)]
    · rfl

theorem exact_multiply (hlhs : x = objSmallIntValue r lhs) :
    BinaryOpResult.Exact r lhs rhs (pyBinaryOp .multiply x.toInt y.toInt)
      (if smallIntMulOverflow r x y then .generic x rhs else .obj (objNewSmallInt r (x * y))) := by
  cases hov : smallIntMulOverflow r x y with
  | true => exact ⟨hlhs, rfl, _, rfl⟩
  | false =>
    obtain ⟨hmul, hrange⟩ := toInt_mul_of_not_overflow r hov
    exact ⟨_, congrArg PyResult.int hmul.symm, denotesSmallInt_new r hrange⟩

theorem exact_power (hlhs : x = objSmallIntValue r lhs) (hx : InRange r x.toInt)
    (hy : 0 ≤ y.toInt) :
    BinaryOpResult.Exact r lhs rhs (pyBinaryOp .power x.toInt y.toInt)
      (match powerLoop r w x y 1#w with
        | .done ans => newIntInlined r ans
        | .overflow => .generic x rhs
        | .noReturn => .noReturn) := by
  have hw := r.eight_le
  have hone : (1#w).toInt = 1 := toInt_ofNat_of_lt hw (by omega)
  have hrange : InRange r (1#w).toInt := by
    have hpos : (1 : ℤ) < 2 ^ r.valueBits := one_lt_pow₀ (by omega) r.valueBits_ne_zero
    rw [hone]
    exact ⟨by omega, hpos⟩
  rw [pyBinaryOp, if_neg (not_lt.mpr hy)]
  rcases powerLoop_spec r hx hrange hy (by omega) y.isLt with h | ⟨z, h, hz⟩
  · rw [h]
    exact ⟨hlhs, rfl, _, rfl⟩
  · rw [h]
    refine exact_newIntInlined r ?_
    rw [hz, hone, one_mul, toInt_eq_toNat_of_nonneg hy, Int.toNat_natCast]

/-- Floor division and modulo, which share the test for a zero divisor. -/
theorem exact_division {op : BinaryOp} {f : ℤ → ℤ → ℤ} (hop : pyBinaryOp op x.toInt y.toInt =
      if y.toInt = 0 then .zeroDivisionError else .int (f x.toInt y.toInt))
    (hv : y.toInt ≠ 0 → v.toInt = f x.toInt y.toInt) :
    BinaryOpResult.Exact r lhs rhs (pyBinaryOp op x.toInt y.toInt)
      (if y == 0#w then zeroDivision else newIntInlined r v) := by
  have hzero : y == 0#w ↔ y.toInt = 0 := by
    rw [beq_iff_eq, ← BitVec.toInt_inj, BitVec.toInt_zero]
  rw [hop]
  by_cases hy0 : y.toInt = 0
  · rw [if_pos hy0, if_pos (hzero.mpr hy0)]
    exact rfl
  · rw [if_neg hy0, if_neg (hzero.not.mpr hy0)]
    exact exact_newIntInlined r (congrArg PyResult.int (hv hy0).symm)

variable (hx : InRange r x.toInt) (hy : InRange r y.toInt)

include hx hy

/-- The quotient of two small integers leaves the range in a single case. -/
theorem inRange_fdiv_iff (hy0 : y.toInt ≠ 0) :
    InRange r (x.toInt.fdiv y.toInt) ↔ ¬(x.toInt = -2 ^ r.valueBits ∧ y.toInt = -1) := by
  obtain ⟨hx1, hx2⟩ := hx
  have hm : (0 : ℤ) < 2 ^ r.valueBits := by positivity
  rw [InRange]
  generalize x.toInt = a at *
  generalize y.toInt = b at *
  generalize (2 : ℤ) ^ r.valueBits = m at *
  rcases lt_or_gt_of_ne hy0 with hb | hb
  · have hd : 0 < -b := by omega
    rw [← Int.neg_fdiv_neg, Int.fdiv_eq_ediv_of_nonneg _ hd.le, Int.le_ediv_iff_mul_le hd,
      Int.ediv_lt_iff_lt_mul hd]
    have hscale : m ≤ m * -b := le_mul_of_one_le_right hm.le (by omega)
    constructor
    · rintro ⟨-, hlt⟩ ⟨rfl, rfl⟩
      omega
    · intro hne
      refine ⟨by rw [neg_mul]; omega, ?_⟩
      rcases eq_or_lt_of_le (show (1 : ℤ) ≤ -b by omega) with h1 | h1
      · rw [← h1]
        omega
      · have : m * 2 ≤ m * -b := mul_le_mul_of_nonneg_left (by omega) hm.le
        omega
  · have hscale : m ≤ m * b := le_mul_of_one_le_right hm.le (by omega)
    rw [Int.fdiv_eq_ediv_of_nonneg _ hb.le, Int.le_ediv_iff_mul_le hb,
      Int.ediv_lt_iff_lt_mul hb, neg_mul]
    omega

omit hx in
theorem inRange_fmod (hy0 : y.toInt ≠ 0) : InRange r (x.toInt.fmod y.toInt) := by
  obtain ⟨hy1, hy2⟩ := hy
  rw [InRange]
  rcases lt_or_gt_of_ne hy0 with hb | hb
  · have h1 := Int.fmod_nonneg_of_pos (-x.toInt) (show 0 < -y.toInt by omega)
    have h2 := Int.fmod_lt_of_pos (-x.toInt) (show 0 < -y.toInt by omega)
    rw [Int.neg_fmod_neg] at h1 h2
    omega
  · have h1 := Int.fmod_nonneg_of_pos x.toInt hb
    have h2 := Int.fmod_lt_of_pos x.toInt hb
    omega

/-- **`divmod`** packs both results unchecked. -/
theorem exact_divmod_iff : BinaryOpResult.Exact r lhs rhs (pyBinaryOp .divmod x.toInt y.toInt)
      (if y == 0#w then zeroDivision
        else .tuple (objNewSmallInt r (smallIntFloorDivide x y))
          (objNewSmallInt r (smallIntModulo x y))) ↔
      ¬(x.toInt = -2 ^ r.valueBits ∧ y.toInt = -1) := by
  have hzero : y == 0#w ↔ y.toInt = 0 := by
    rw [beq_iff_eq, ← BitVec.toInt_inj, BitVec.toInt_zero]
  rw [pyBinaryOp]
  by_cases hy0 : y.toInt = 0
  · rw [if_pos hy0, if_pos (hzero.mpr hy0)]
    exact iff_of_true rfl (by omega)
  · rw [if_neg hy0, if_neg (hzero.not.mpr hy0), ← inRange_fdiv_iff r hx hy hy0]
    have hquo := toInt_smallIntFloorDivide r hx hy hy0
    have hmod := toInt_smallIntModulo (x := x) hy0
    constructor
    · rintro ⟨q, m, hpy, ⟨-, hq, -⟩, -⟩
      obtain ⟨rfl, rfl⟩ := PyResult.pair.inj hpy
      rw [← hq]
      exact inRange_objSmallIntValue r _
    · intro hrange
      refine ⟨_, _, rfl, ?_, ?_⟩
      · rw [← hquo] at hrange ⊢
        exact denotesSmallInt_new r hrange
      · rw [← hmod]
        exact denotesSmallInt_new r (hmod ▸ inRange_fmod r hy hy0)

end Operands

end Repr

/-- **Small-integer arithmetic.** For two small-integer objects and an operation on integers,
the branch leaves with the exact result, except for the `divmod` of the least small integer
and `-1`. -/
theorem mp_binary_op_small_int_iff (r : ObjRepr w) (builtinsFloat : Bool) (op : BinaryOp)
    {lhs rhs : BitVec w} (hlhs : objIsSmallInt r lhs = true) (hrhs : objIsSmallInt r rhs = true)
    (hop : op ≠ .trueDivide) (hpow : op = .power → 0 ≤ (objSmallIntValue r rhs).toInt) :
    (mpBinaryOpSmallInt r builtinsFloat op lhs rhs).Exact r lhs rhs
        (pyBinaryOp op (objSmallIntValue r lhs).toInt (objSmallIntValue r rhs).toInt) ↔
      ¬(op = .divmod ∧ objSmallIntValue r lhs = smallIntMin r ∧
        (objSmallIntValue r rhs).toInt = -1) := by
  have hx := inRange_objSmallIntValue r lhs
  have hy := inRange_objSmallIntValue r rhs
  rw [mpBinaryOpSmallInt, hlhs, hrhs]
  simp only [Bool.not_true, Bool.or_self, Bool.false_eq_true, if_false]
  generalize hxv : objSmallIntValue r lhs = x at *
  generalize hyv : objSmallIntValue r rhs = y at *
  have hadd : (x + y).toInt = x.toInt + y.toInt := by
    obtain ⟨hx1, hx2⟩ := hx
    obtain ⟨hy1, hy2⟩ := hy
    rw [BitVec.toInt_add]
    exact bmod_of_two_mul_bounds r (by omega) (by omega)
  have hsub : (x - y).toInt = x.toInt - y.toInt := by
    obtain ⟨hx1, hx2⟩ := hx
    obtain ⟨hy1, hy2⟩ := hy
    rw [BitVec.toInt_sub]
    exact bmod_of_two_mul_bounds r (by omega) (by omega)
  cases op with
  | divmod =>
    have hmin : x = smallIntMin r ↔ x.toInt = -2 ^ r.valueBits := by
      rw [← BitVec.toInt_inj, toInt_smallIntMin]
    simp only [true_and, hmin]
    exact exact_divmod_iff r hx hy
  | or => exact iff_of_true (exact_newIntInlined r (by rw [toInt_or]; rfl)) (by simp)
  | xor => exact iff_of_true (exact_newIntInlined r (by rw [toInt_xor]; rfl)) (by simp)
  | and => exact iff_of_true (exact_newIntInlined r (by rw [toInt_and]; rfl)) (by simp)
  | lshift => exact iff_of_true (exact_lshift r hxv.symm) (by simp)
  | rshift => exact iff_of_true (exact_rshift r) (by simp)
  | add => exact iff_of_true (exact_newIntInlined r (by rw [hadd]; rfl)) (by simp)
  | subtract => exact iff_of_true (exact_newIntInlined r (by rw [hsub]; rfl)) (by simp)
  | multiply => exact iff_of_true (exact_multiply r hxv.symm) (by simp)
  | floorDivide =>
    exact iff_of_true (exact_division r rfl (toInt_smallIntFloorDivide r hx hy)) (by simp)
  | trueDivide => exact absurd rfl hop
  | modulo => exact iff_of_true (exact_division r rfl toInt_smallIntModulo) (by simp)
  | power =>
    have hy0 := hpow rfl
    dsimp only
    rw [if_neg (slt_zero_iff.not.mpr (not_lt.mpr hy0))]
    exact iff_of_true (exact_power r hxv.symm hx hy0) (by simp)
  | less => exact iff_of_true rfl (by simp)
  | more => exact iff_of_true rfl (by simp)
  | lessEqual => exact iff_of_true rfl (by simp)
  | moreEqual => exact iff_of_true rfl (by simp)

/-- `divmod(7, -2)` in the representation with 47-bit small integers. -/
theorem mp_binary_op_small_int_iff_divmod : (objIsSmallInt .D 0x000100000000000f#64 = true ∧
      objIsSmallInt .D 0x0001fffffffffffd#64 = true) ∧
    (mpBinaryOpSmallInt .D true .divmod 0x000100000000000f#64 0x0001fffffffffffd#64).Exact .D
      0x000100000000000f#64 0x0001fffffffffffd#64
      (pyBinaryOp .divmod (objSmallIntValue .D 0x000100000000000f#64).toInt
        (objSmallIntValue .D 0x0001fffffffffffd#64).toInt) :=
  ⟨by decide, (mp_binary_op_small_int_iff .D true .divmod (by decide) (by decide)
    (by decide) (by decide)).mpr (by decide)⟩

/-- `divmod(-2 ** 30, -1)` on a 32-bit machine: the first object of the pair stands for
`-2 ** 30`, and not for `2 ** 30`. -/
theorem mp_divmod_least_small_int :
    objIsSmallInt (.A (show 8 ≤ 32 by decide)) 0x80000001#32 = true ∧
      objIsSmallInt (.A (show 8 ≤ 32 by decide)) 0xffffffff#32 = true ∧
      mpBinaryOpSmallInt (.A (show 8 ≤ 32 by decide)) true .divmod 0x80000001#32 0xffffffff#32 =
        .tuple 0x80000001#32 0x00000001#32 ∧
      ¬(mpBinaryOpSmallInt (.A (show 8 ≤ 32 by decide)) true .divmod 0x80000001#32
        0xffffffff#32).Exact (.A (show 8 ≤ 32 by decide)) 0x80000001#32 0xffffffff#32
        (pyBinaryOp .divmod (-2 ^ 30) (-1)) := by
  have hcall : mpBinaryOpSmallInt (.A (show 8 ≤ 32 by decide)) true .divmod 0x80000001#32
      0xffffffff#32 = .tuple 0x80000001#32 0x00000001#32 := by decide
  refine ⟨by decide, by decide, hcall, ?_⟩
  rw [hcall]
  rintro ⟨q, m, hpy, ⟨-, hq, -⟩, -⟩
  obtain ⟨rfl, -⟩ := PyResult.pair.inj hpy
  revert hq
  decide

end Pycopy
