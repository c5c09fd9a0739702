import Pycopy.Compile.Lexer
import Pycopy.Runtime.BinaryOp

/-!
# Constant Folding

While the parser builds the tree from the leaves up, `push_result_rule` of `py/parse.c` replaces an
operation on integer constants by its result. What would raise is meant to be left in the tree: a
negative power, a negative shift and a division by zero are not folded. But the amount of a shift
has to be a machine word, and this is not looked at: a larger one raises an exception out of the
parser.

The results of the operations are those of the functions on integers; here they are any.

## Main results

* `parse_folds_iff`: which sources are folded without an exception.
* `fold_logical_right`: folding `or` and `and` keeps the value and the order of evaluation.
-/

namespace Pycopy

/-! ### Nodes -/

/-- The rules with integer or logical operations, two that concern parentheses, and all others -/
inductive FoldRule
  | expr
  | xorExpr
  | andExpr
  | power
  | shiftExpr
  | arithExpr
  | term
  | factor2
  | orTest
  | andTest
  | notTest2
  | atomParen
  | testlistComp
  | other
  deriving DecidableEq, Repr

/-- An integer object, small or not -/
structure IntNode where
  small : Bool
  value : ℤ
  deriving DecidableEq, Repr

/-- A node on the stack of results. A small integer is a leaf, and another one is in a constant
object. -/
inductive ConstNode
  | int (n : IntNode)
  | tok (t : TokKind)
  | struct (rule : FoldRule)
  | null
  | leaf
  deriving DecidableEq, Repr

inductive ArithExc
  | overflowError (msg : String)
  | valueError (msg : String)
  | zeroDivisionError (msg : String)
  deriving DecidableEq, Repr

/-! ### Folding -/

/-- The width of a word, whether there are floats, and the results of the operations -/
structure FoldEnv where
  w : ℕ
  builtinsFloat : Bool
  compute : BinaryOp → IntNode → IntNode → IntNode
  computeUnary : Operator → IntNode → IntNode

variable (env : FoldEnv)

/-- `mp_binary_op` for two integers and the operators that are folded. Without an exception there is
an integer, or else a float. -/
def mpBinaryOpInt (op : BinaryOp) (lhs rhs : IntNode) : Except ArithExc (Option IntNode) :=
  match op with
  | .floorDivide | .modulo =>
    if rhs.value = 0 then .error (.zeroDivisionError "divide by zero")
    else .ok (some (env.compute op lhs rhs))
  | .lshift | .rshift =>
    -- `mp_obj_int_get_checked`
    if rhs.small = false ∧ 2 ^ (env.w - 1) ≤ rhs.value.natAbs then
      .error (.overflowError "overflow converting long int to machine word")
    else if rhs.value < 0 then .error (.valueError "negative shift count")
    else .ok (some (env.compute op lhs rhs))
  | .power =>
    if rhs.value < 0 then
      if env.builtinsFloat then .ok none
      else .error (.valueError "negative power with no float support")
    else .ok (some (env.compute op lhs rhs))
  | _ => .ok (some (env.compute op lhs rhs))

/-- The operator of a rule without tokens -/
def bitsOp : FoldRule → Option BinaryOp
  | .expr => some .or
  | .xorExpr => some .xor
  | .andExpr => some .and
  | .power => some .power
  | _ => none

/-- The loop of `fold_constants` for `|`, `^`, `&` and `**` -/
def foldBits (op : BinaryOp) : List ConstNode → IntNode → Except ArithExc (Option IntNode)
  | [], arg0 => .ok (some arg0)
  | .int arg1 :: rest, arg0 =>
    if op = .power ∧ arg1.value < 0 then .ok none
    else
      match mpBinaryOpInt env op arg0 arg1 with
      | .error e => .error e
      | .ok none => .ok none
      | .ok (some arg0) => foldBits op rest arg0
  | _ :: _, _ => .ok none

/-- `MP_BINARY_OP_LSHIFT + (tok - MP_TOKEN_OP_DBL_LESS)`, without `@` and `/` -/
def pairOp : TokKind → Option BinaryOp
  | .op .dblLess => some .lshift
  | .op .dblMore => some .rshift
  | .op .plus => some .add
  | .op .minus => some .subtract
  | .op .star => some .multiply
  | .op .dblSlash => some .floorDivide
  | .op .percent => some .modulo
  | _ => none

/-- The guards before an operation -/
def guarded (op : BinaryOp) (arg1 : IntNode) : Bool :=
  match op with
  | .lshift | .rshift => arg1.value < 0
  | .floorDivide | .modulo => arg1.value = 0
  | _ => false

/-- The loop of `fold_constants` for the operators with a token -/
def foldPairs : List ConstNode → IntNode → Except ArithExc (Option IntNode)
  | .tok t :: .int arg1 :: rest, arg0 =>
    match pairOp t with
    | none => .ok none
    | some op =>
      if guarded op arg1 then .ok none
      else
        match mpBinaryOpInt env op arg0 arg1 with
        | .error e => .error e
        | .ok none => .ok none
        | .ok (some arg0) => foldPairs rest arg0
  | _ :: _ :: _, _ => .ok none
  | _, arg0 => .ok (some arg0)

/-- The rules with tokens between their arguments -/
def FoldRule.hasPairs (rule : FoldRule) : Bool :=
  rule == .shiftExpr || rule == .arithExpr || rule == .term

/-- The integer that comes first -/
def firstInt : List ConstNode → Option (IntNode × List ConstNode)
  | .int arg0 :: rest => some (arg0, rest)
  | _ => none

/-- The arguments of `factor_2` -/
def unaryArgs : List ConstNode → Option (Operator × IntNode)
  | [.tok (.op t), .int arg0] => some (t, arg0)
  | _ => none

/-- `fold_constants`: the integer, if the rule is folded -/
def foldConstants (rule : FoldRule) (args : List ConstNode) : Except ArithExc (Option IntNode) :=
  match bitsOp rule, firstInt args with
  | some op, some (arg0, rest) => foldBits env op rest arg0
  | some _, none => .ok none
  | none, some (arg0, rest) =>
    if rule.hasPairs then foldPairs env rest arg0 else .ok none
  | none, none =>
    if rule = .factor2 then .ok ((unaryArgs args).map fun p => env.computeUnary p.1 p.2)
    else .ok none

/-- `mp_parse_node_is_const_true`, or `mp_parse_node_is_const_false` -/
def isConst (truth : Bool) : ConstNode → Bool
  | .tok t => t == .kw (if truth then .kwTrue else .kwFalse)
  | .int n => n.small && (decide (n.value ≠ 0) == truth)
  | _ => false

/-- The arguments of `or` and `and` that are kept by `fold_logical_constants`: up to one that
decides, and without those that do not. -/
def keepArgs (decides : Bool) : List ConstNode → List ConstNode
  | [] => []
  | [pn] => [pn]
  | pn :: pns =>
    if isConst decides pn then [pn]
    else if isConst (!decides) pn then keepArgs decides pns
    else pn :: keepArgs decides pns

def onlyArg : List ConstNode → Option ConstNode
  | [pn] => some pn
  | _ => none

/-- `fold_logical_constants`: the node, if the rule is folded -/
def foldLogicalConstants (rule : FoldRule) (args : List ConstNode) : Option ConstNode :=
  match rule with
  | .orTest => onlyArg (keepArgs true args)
  | .andTest => onlyArg (keepArgs false args)
  | .notTest2 =>
    (onlyArg args).bind fun pn =>
      if isConst false pn then some (.tok (.kw .kwTrue))
      else if isConst true pn then some (.tok (.kw .kwFalse))
      else none
  | _ => none

/-- The part of `push_result_rule` before the constants: what is in parentheses, and the logical
operators -/
def pushFirst (rule : FoldRule) (args : List ConstNode) : Option ConstNode :=
  if rule = .atomParen then
    (onlyArg args).filter fun pn => pn ≠ .null ∧ pn ≠ .struct .testlistComp
  else foldLogicalConstants rule args

/-- The node of a rule, which is folded or not -/
def ruleNode (rule : FoldRule) : Option IntNode → ConstNode
  | some n => .int n
  | none => .struct rule

/-- `push_result_rule`: the node for a rule, from those of its arguments -/
def pushConstRule (rule : FoldRule) (args : List ConstNode) : Except ArithExc ConstNode :=
  match pushFirst rule args with
  | some pn => .ok pn
  | none => (foldConstants env rule args).map (ruleNode rule)

/-- A source as the rules that the parser finds in it, with the leaves -/
inductive SourceTree
  | leaf (pn : ConstNode)
  | rule (r : FoldRule) (args : List SourceTree)

mutual

/-- The parser comes to the end of a rule when it has the nodes of its arguments. -/
def parseRule : SourceTree → Except ArithExc ConstNode
  | .leaf pn => .ok pn
  | .rule r args =>
    match parseArgs args with
    | .error e => .error e
    | .ok nodes => pushConstRule env r nodes

def parseArgs : List SourceTree → Except ArithExc (List ConstNode)
  | [] => .ok []
  | t :: ts =>
    match parseRule t with
    | .error e => .error e
    | .ok pn =>
      match parseArgs ts with
      | .error e => .error e
      | .ok pns => .ok (pn :: pns)

end

/-! ### Values of constants -/

/-- The value of a chain of `|`, `^`, `&` or `**` over constants -/
def bitsValue (op : BinaryOp) : List ConstNode → IntNode → Option IntNode
  | [], arg0 => some arg0
  | .int arg1 :: rest, arg0 =>
    if op = .power ∧ arg1.value < 0 then none else bitsValue op rest (env.compute op arg0 arg1)
  | _ :: _, _ => none

/-- The value of a chain of operators over constants. There is none if an operator raises at run
time. -/
def pairsValue : List ConstNode → IntNode → Option IntNode
  | .tok t :: .int arg1 :: rest, arg0 =>
    (pairOp t).bind fun op =>
      if guarded op arg1 then none else pairsValue rest (env.compute op arg0 arg1)
  | _ :: _ :: _, _ => none
  | _, arg0 => some arg0

/-- The value of an operation on constants -/
def ruleValue (rule : FoldRule) (args : List ConstNode) : Option IntNode :=
  match bitsOp rule, firstInt args with
  | some op, some (arg0, rest) => bitsValue env op rest arg0
  | some _, none => none
  | none, some (arg0, rest) => if rule.hasPairs then pairsValue env rest arg0 else none
  | none, none =>
    if rule = .factor2 then (unaryArgs args).map fun p => env.computeUnary p.1 p.2 else none

mutual

/-- The node of a source in which all constants have been computed -/
def constNode : SourceTree → ConstNode
  | .leaf pn => pn
  | .rule r args =>
    (pushFirst r (constNodes args)).getD (ruleNode r (ruleValue env r (constNodes args)))

def constNodes : List SourceTree → List ConstNode
  | [] => []
  | t :: ts => constNode t :: constNodes ts

end

/-- A shift in a chain, by a constant that is no machine word -/
def shiftsFar : List ConstNode → Bool
  | .tok t :: .int arg1 :: rest =>
    (pairOp t).any fun op =>
      !guarded op arg1 && ((op == .lshift || op == .rshift) && !arg1.small &&
        decide (2 ^ (env.w - 1) ≤ arg1.value.natAbs) || shiftsFar rest)
  | _ => false

/-- There is a chain of operators on constants with such a shift. -/
def ruleShiftsFar (rule : FoldRule) (args : List ConstNode) : Bool :=
  rule.hasPairs && (firstInt args).any fun p => shiftsFar env p.2

mutual

/-- There is an operation on constants somewhere in the source that shifts by a constant that is no
machine word. -/
def FarShift : SourceTree → Prop
  | .leaf _ => False
  | .rule r args => FarShifts args ∨ ruleShiftsFar env r (constNodes env args) = true

def FarShifts : List SourceTree → Prop
  | [] => False
  | t :: ts => FarShift t ∨ FarShifts ts

end

/-! ### Folding and values -/

section Values

variable {env} {rule : FoldRule} {op : BinaryOp}

/-- What a shift by a number that is no machine word raises -/
def farShiftExc : ArithExc := .overflowError "overflow converting long int to machine word"

theorem foldBits_eq (hop : bitsOp rule = some op) (rest : List ConstNode) (arg0 : IntNode) :
    foldBits env op rest arg0 = .ok (bitsValue env op rest arg0) := by
  induction rest generalizing arg0 with
  | nil => rfl
  | cons pn rest ih =>
    cases pn with
    | int arg1 =>
      rw [foldBits, bitsValue]
      by_cases hneg : op = .power ∧ arg1.value < 0
      · rw [if_pos hneg, if_pos hneg]
      · have hcall : mpBinaryOpInt env op arg0 arg1 = .ok (some (env.compute op arg0 arg1)) := by
          cases rule <;> cases hop
          · rfl
          · rfl
          · rfl
          · exact if_neg fun hlt => hneg ⟨rfl, hlt⟩
        rw [if_neg hneg, if_neg hneg, hcall]
        exact ih _
    | tok | struct | null | leaf => rfl

/-- An operator with a token raises at a shift that is too far, if the guards let it through. -/
theorem mpBinaryOpInt_pair (env : FoldEnv) (arg0 : IntNode) {arg1 : IntNode} {t : TokKind}
    (hop : pairOp t = some op) (hguard : guarded op arg1 = false) : mpBinaryOpInt env op arg0 arg1 =
      if (op == .lshift || op == .rshift) && !arg1.small &&
          decide (2 ^ (env.w - 1) ≤ arg1.value.natAbs) then .error farShiftExc
      else .ok (some (env.compute op arg0 arg1)) := by
  have hshift : (if arg1.small = false ∧ 2 ^ (env.w - 1) ≤ arg1.value.natAbs then
        Except.error farShiftExc
      else if arg1.value < 0 then .error (.valueError "negative shift count")
      else .ok (some (env.compute op arg0 arg1))) =
      if !arg1.small && decide (2 ^ (env.w - 1) ≤ arg1.value.natAbs) then .error farShiftExc
      else if arg1.value < 0 then .error (.valueError "negative shift count")
      else .ok (some (env.compute op arg0 arg1)) := by simp
  cases op with
  | lshift | rshift =>
    rw [if_neg (of_decide_eq_false hguard)] at hshift
    exact (if_congr Iff.rfl rfl (if_neg (of_decide_eq_false hguard))).trans hshift
  | floorDivide | modulo => exact if_neg (of_decide_eq_false hguard)
  | power =>
    unfold pairOp at hop
    split at hop <;> cases hop
  | _ => rfl

/-- **The operators with a token**: a chain of constants raises if and only if it shifts too far. -/
theorem foldPairs_eq (rest : List ConstNode) (arg0 : IntNode) : foldPairs env rest arg0 =
    if shiftsFar env rest then .error farShiftExc else .ok (pairsValue env rest arg0) := by
  fun_induction pairsValue env rest arg0 with
  | case1 t arg1 rest arg0 ih =>
    cases hop : pairOp t with
    | none => simp [foldPairs, shiftsFar, hop]
    | some op =>
      cases hguard : guarded op arg1 with
      | true => simp [foldPairs, shiftsFar, hop, hguard]
      | false =>
        have hcall := mpBinaryOpInt_pair env arg0 hop hguard
        rw [foldPairs, shiftsFar, hop]
        simp only [hguard, hcall, Option.any_some, Bool.not_false, Bool.true_and, Option.bind_some,
          Bool.false_eq_true, if_false]
        by_cases hfar : ((op == .lshift || op == .rshift) && !arg1.small &&
            decide (2 ^ (env.w - 1) ≤ arg1.value.natAbs)) = true
        · rw [if_pos hfar, hfar, Bool.true_or, if_pos rfl]
        · rw [if_neg hfar, Bool.eq_false_iff.mpr hfar, Bool.false_or]
          exact ih op
  | case2 pn pn' rest arg0 hother =>
    rw [foldPairs, shiftsFar]
    · rfl
    · rintro t arg1 _ ⟨⟩
      exact hother t arg1 rfl rfl
    · exact hother
  | case3 pns arg0 hpair hother =>
    cases pns with
    | nil => rfl
    | cons pn pns =>
      cases pns with
      | nil => cases pn <;> rfl
      | cons pn' pns => exact absurd rfl (hother pn pn' pns)

theorem foldConstants_eq (rule : FoldRule) (args : List ConstNode) : foldConstants env rule args =
    if ruleShiftsFar env rule args then .error farShiftExc else .ok (ruleValue env rule args) := by
  rw [foldConstants, ruleValue, ruleShiftsFar]
  cases hbits : bitsOp rule with
  | some op =>
    have hpairs : rule.hasPairs = false := by cases rule <;> first | rfl | cases hbits
    rw [hpairs]
    cases hfirst : firstInt args with
    | none => rfl
    | some p => exact foldBits_eq hbits p.2 p.1
  | none =>
    cases hfirst : firstInt args with
    | none =>
      simp only [Option.any_none, Bool.and_false, Bool.false_eq_true, if_false]
      split <;> rfl
    | some p =>
      cases hpairs : rule.hasPairs with
      | false => rfl
      | true => exact foldPairs_eq p.2 p.1

theorem pushConstRule_eq (rule : FoldRule) (args : List ConstNode) :
    pushConstRule env rule args =
      if ruleShiftsFar env rule args then .error farShiftExc
      else .ok ((pushFirst rule args).getD (ruleNode rule (ruleValue env rule args))) := by
  rw [pushConstRule]
  cases hfirst : pushFirst rule args with
  | some pn =>
    -- A rule of parentheses or of logic has no shift.
    have hpairs : rule.hasPairs = false := by cases rule <;> first | rfl | cases hfirst
    rw [ruleShiftsFar, hpairs, Bool.false_and]
    rfl
  | none =>
    dsimp only
    rw [foldConstants_eq]
    split <;> rfl

mutual

/-- **What the parser makes of a source**: the computed constants, or an exception if there is a
shift that is too far. -/
theorem parseRule_eq : ∀ t : SourceTree, (FarShift env t → parseRule env t = .error farShiftExc) ∧
    (¬FarShift env t → parseRule env t = .ok (constNode env t))
  | .leaf pn => ⟨False.elim, fun _ => by rw [parseRule, constNode]⟩
  | .rule r args => by
    obtain ⟨hfar, hnear⟩ := parseArgs_eq args
    rw [FarShift, parseRule, constNode]
    by_cases hargs : FarShifts env args
    · exact ⟨fun _ => by rw [hfar hargs], fun hnot => absurd (.inl hargs) hnot⟩
    · rw [hnear hargs]
      dsimp only
      rw [pushConstRule_eq]
      constructor
      · intro h
        rw [if_pos (h.resolve_left hargs)]
      · intro h
        rw [if_neg fun hrule => h (.inr hrule)]

theorem parseArgs_eq : ∀ ts : List SourceTree,
    (FarShifts env ts → parseArgs env ts = .error farShiftExc) ∧
      (¬FarShifts env ts → parseArgs env ts = .ok (constNodes env ts))
  | [] => ⟨False.elim, fun _ => by rw [parseArgs, constNodes]⟩
  | t :: ts => by
    obtain ⟨hfar, hnear⟩ := parseRule_eq t
    obtain ⟨hfars, hnears⟩ := parseArgs_eq ts
    rw [FarShifts, parseArgs, constNodes]
    by_cases ht : FarShift env t
    · exact ⟨fun _ => by rw [hfar ht], fun hnot => absurd (.inl ht) hnot⟩
    · rw [hnear ht]
      constructor
      · intro h
        rw [hfars (h.resolve_left ht)]
      · intro h
        rw [hnears fun hts => h (.inr hts)]

end

end Values

/-- **A source is folded without an exception if and only if no constant is shifted by a constant
that is no machine word.** What is folded has the value of the constants, and all else is left in
the tree. -/
theorem parse_folds_iff (env : FoldEnv) (t : SourceTree) :
    ((∀ e, parseRule env t ≠ .error e) ↔ ¬FarShift env t) ∧
      ∀ pn, parseRule env t = .ok pn → pn = constNode env t := by
  obtain ⟨hfar, hnear⟩ := @parseRule_eq env t
  refine ⟨⟨fun hok h => hok _ (hfar h), ?_⟩, ?_⟩
  · intro h e he
    rw [hnear h] at he
    cases he
  · intro pn hpn
    by_cases h : FarShift env t
    · rw [hfar h] at hpn
      cases hpn
    · rw [hnear h] at hpn
      exact (Except.ok.inj hpn).symm

/-- The operations on integers as Python has them, on words of 64 bits -/
def pyFoldEnv : FoldEnv where
  w := 64
  builtinsFloat := true
  compute op lhs rhs :=
    match pyBinaryOp op lhs.value rhs.value with
    | .int v => ⟨decide (v.natAbs < 2 ^ 62), v⟩
    | _ => ⟨true, 0⟩
  computeUnary t n := ⟨n.small, if t = .minus then -n.value else n.value⟩

/-- `1 << (1 << 70)` -/
theorem parse_far_shift : parseRule pyFoldEnv
    (.rule .shiftExpr [.leaf (.int ⟨true, 1⟩), .leaf (.tok (.op .dblLess)),
      .rule .atomParen [.rule .shiftExpr [.leaf (.int ⟨true, 1⟩), .leaf (.tok (.op .dblLess)),
        .leaf (.int ⟨true, 70⟩)]]]) =
      .error (.overflowError "overflow converting long int to machine word") := by
  decide

/-! ### Logical operators -/

section Logical

variable {α : Type} (node : α → ConstNode) (truth : α → Bool) (decides : Bool)

/-- Evaluation of `or` and `and` at run time: the operands that are evaluated and no constants, and
the operand that is the value. One with the truth value `decides` is the last. -/
def evalOperands : List α → List α × Option α
  | [] => ([], none)
  | a :: as =>
    let seen := if isConst true (node a) || isConst false (node a) then [] else [a]
    if as = [] ∨ truth a = decides then (seen, some a)
    else
      let (later, value) := evalOperands as
      (seen ++ later, value)

/-- **Folding `or` and `and`** leaves some of the operands in their order, at least one of them, and
changes neither the value nor what is evaluated. -/
theorem fold_logical_right (htruth : ∀ b a, isConst b (node a) = true → truth a = b)
    (args : List α) :
    ∃ kept, kept.Sublist args ∧ (kept = [] ↔ args = []) ∧
      kept.map node = keepArgs decides (args.map node) ∧
      evalOperands node truth decides kept = evalOperands node truth decides args := by
  induction args with
  | nil => exact ⟨[], .refl _, Iff.rfl, rfl, rfl⟩
  | cons a as ih =>
    obtain ⟨kept, hsub, hnil, hmap, heval⟩ := ih
    by_cases has : as = []
    · subst has
      exact ⟨[a], .refl _, Iff.rfl, rfl, rfl⟩
    have hkeep := keepArgs.eq_3 decides (node a) (as.map node) (by simpa using has)
    by_cases hdec : isConst decides (node a) = true
    · refine ⟨[a], by simp, by simp, by simp [hkeep, hdec], ?_⟩
      simp [evalOperands, htruth decides a hdec]
    by_cases hother : isConst (!decides) (node a) = true
    · refine ⟨kept, hsub.cons a, by simp [hnil, has], by simp [hkeep, hdec, hother, hmap], ?_⟩
      have hseen : isConst true (node a) = true ∨ isConst false (node a) = true := by
        cases decides <;> simp_all
      simp [evalOperands, htruth (!decides) a hother, hseen, has, heval]
    · refine ⟨a :: kept, hsub.cons_cons a, by simp, by simp [hkeep, hdec, hother, hmap], ?_⟩
      simp [evalOperands, hnil, heval]

end Logical

/-- `x or 0 or y or 1 or x`, with the operands 2, 0, 3, 1, 2 -/
theorem fold_logical_right_or : ∃ kept : List ℕ, kept.Sublist [2, 0, 3, 1, 2] ∧
    kept.length = 3 := by
  obtain ⟨kept, hsub, -, hmap, -⟩ := fold_logical_right
    (fun a : ℕ => if a < 2 then .int ⟨true, a⟩ else .leaf) (fun a => a = 1) true (fun b a => by
      split_ifs with ha
      · obtain rfl | rfl : a = 0 ∨ a = 1 := by omega
        all_goals cases b <;> decide
      · simp [isConst]) [2, 0, 3, 1, 2]
  exact ⟨kept, hsub, by simpa [keepArgs, isConst] using congrArg List.length hmap⟩

end Pycopy
