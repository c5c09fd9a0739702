import Mathlib.Data.Int.Notation
import Mathlib.Tactic.SplitIfs
import Pycopy.Lib.Machine

/-!
# Generators

Generator instances of `py/objgenerator.c`: `gen_wrap_call`, `mp_obj_gen_resume`,
`gen_resume_and_raise` and the methods `send`, `__next__`, `throw`, `close` and `pend_throw`. The
bytecode interpreter is given as a function that resumes a code state; from it the interpreter may
call the methods of the generator that it runs.

While a generator executes, `globals` is `NULL` and `mp_obj_gen_resume` refuses to resume it. The
stack pointer in the code state is the one that was saved last, when the generator was resumed or
when the interpreter asked an iterator for its next value, and it points into the stack that is
in use. `pend_throw` writes through it without asking whether the generator executes, and `throw`
and `close` call `pend_throw` before they try to resume.

## Main results

* `reentrant_call_iff`: a call leaves the running frame as it is if and only if it is `send` or
  `__next__`, or the slot that it writes is not in use or holds the value already.
-/

namespace Pycopy

variable {O G : Type}

/-! ### Definitions -/

/-- Values of slots: `MP_OBJ_NULL`, `None`, and other objects -/
inductive GenVal (O : Type)
  | null
  | none
  | obj (o : O)
  deriving DecidableEq, Repr

/-- `mp_obj_gen_instance_t` with its `code_state`: `globals` is `none` for `NULL`, `sp` is the index
of the slot that the saved stack pointer points to, and `state` are the slots of the frame. -/
structure GenInstance (O G : Type) where
  globals : Option G
  oldGlobals : Option G
  ip : ℕ
  sp : ℤ
  state : List (GenVal O)
  deriving DecidableEq, Repr

/-- `code_state.sp == code_state.state - 1` -/
def GenInstance.justStarted (o : GenInstance O G) : Bool := o.sp == -1

/-- The slot that `pend_throw` uses: for a generator that has just started the first one. -/
def GenInstance.tos (o : GenInstance O G) : ℕ := if o.justStarted then 0 else o.sp.toNat

/-- A slot is written. -/
def GenInstance.setSlot (o : GenInstance O G) (i : ℕ) (v : GenVal O) : GenInstance O G :=
  { o with state := o.state.set i v }

/-- `*sp`, or `sp[1]` for a generator that has just started -/
def GenInstance.top (o : GenInstance O G) : GenVal O := o.state.getD o.tos .null

/-- The end of `gen_wrap_call`: a code state with its arguments in the slots, and no exception
pending -/
def genWrapCall (globals : G) (ip : ℕ) (state : List (GenVal O)) : GenInstance O G :=
  { globals := some globals, oldGlobals := none, ip := ip, sp := -1, state := state.set 0 .none }

/-- `mp_vm_return_kind_t` -/
inductive VmReturnKind
  | normal
  | yield
  | exception
  deriving DecidableEq, Repr

/-- Exceptions: those that the functions raise themselves, and objects -/
inductive GenExc (O : Type)
  | valueError (msg : String)
  | typeError (msg : String)
  | runtimeError (msg : String)
  | stopIteration (value : Option (GenVal O))
  | obj (v : GenVal O)
  deriving DecidableEq, Repr

/-- `mp_execute_bytecode`: it resumes a code state with an exception to throw or without one, in
the current globals, and returns how it ended, the instance, and the globals. -/
abbrev Execute (O G : Type) :=
  G → GenInstance O G → Option (GenVal O) → VmReturnKind × GenInstance O G × G

/-- What the functions use of the objects: `mp_make_raise_obj`, the subclasses of `StopIteration`
and `GeneratorExit`, and the object of `GeneratorExit`. -/
structure GenObjects (O : Type) where
  makeRaiseObj : GenVal O → GenVal O
  isStopIteration : GenVal O → Bool
  isGeneratorExit : GenVal O → Bool
  generatorExit : GenVal O

/-- What `mp_obj_gen_resume` gives: an exception that it raises, or a kind with a value; `none` is
`MP_OBJ_STOP_ITERATION`. -/
abbrev Resumed (O : Type) := Except (GenExc O) (VmReturnKind × Option (GenExc O ⊕ GenVal O))

/-- The end of `mp_obj_gen_resume`, after the interpreter returned -/
def genResumeEnd (env : GenObjects O) (kind : VmReturnKind) (o : GenInstance O G) :
    VmReturnKind × Option (GenExc O ⊕ GenVal O) × GenInstance O G :=
  match kind with
  | .normal => (kind, some (.inr o.top), { o with ip := 0 })
  | .yield => (kind, some (.inr o.top), o.setSlot o.tos .none)
  | .exception =>
    let exc := o.state.getD 0 .null
    (kind,
      some (.inl (if env.isStopIteration exc then .runtimeError "generator raised StopIteration"
        else .obj exc)),
      { o with ip := 0 })

/-- `mp_obj_gen_resume`, with the current globals -/
def mpObjGenResume (env : GenObjects O) (exec : Execute O G) [DecidableEq O] (cur : G)
    (o : GenInstance O G) (sendValue : GenVal O) (throwValue : Option (GenVal O)) :
    Resumed O × GenInstance O G :=
  if o.ip = 0 then
    match throwValue with
    | some exc => (.ok (.exception, some (.inl (.obj (env.makeRaiseObj exc)))), o)
    | none => (.ok (.normal, none), o)
  else
    match o.globals with
    | none => (.error (.valueError "generator already executing"), o)
    | some globals =>
      if o.justStarted ∧ sendValue ≠ .none then
        (.error (.typeError "can't send non-None value to a just-started generator"), o)
      else
        -- an exception that is pending is thrown now
        let (throwValue, o) :=
          if o.top ≠ .none then (some o.top, o.setSlot o.tos .null)
          else if o.justStarted then (throwValue, o)
          else (throwValue, o.setSlot o.tos sendValue)
        let (kind, o, after) :=
          exec globals { o with oldGlobals := some cur, globals := none } throwValue
        let (kind, value, o) := genResumeEnd env kind { o with globals := some after }
        (.ok (kind, value), o)

/-- How a method ends: with a value, with `MP_OBJ_STOP_ITERATION`, or with an exception -/
inductive GenOutcome (O : Type)
  | value (v : GenVal O)
  | stop
  | raised (exc : GenExc O)
  deriving DecidableEq, Repr

/-- `gen_resume_and_raise` -/
def genResumeAndRaise [DecidableEq O] (r : Resumed O) : GenOutcome O :=
  match r with
  | .error exc => .raised exc
  | .ok (_, none) => .stop
  | .ok (.yield, some (.inr v)) => .value v
  | .ok (_, some (.inr v)) => if v = .none then .stop else .raised (.stopIteration (some v))
  | .ok (_, some (.inl exc)) => .raised exc

/-- A method that raises `StopIteration` where the iterator stops -/
def GenOutcome.orStopIteration : GenOutcome O → GenOutcome O
  | .stop => .raised (.stopIteration none)
  | outcome => outcome

/-- `gen_instance_pend_throw` -/
def genInstancePendThrow (o : GenInstance O G) (exc : GenVal O) : GenVal O × GenInstance O G :=
  (o.top, o.setSlot o.tos exc)

/-- The end of `gen_instance_close` -/
def genCloseEnd (env : GenObjects O) (r : Resumed O) : GenOutcome O :=
  match r with
  | .error exc => .raised exc
  | .ok (.yield, _) => .raised (.runtimeError "generator ignored GeneratorExit")
  | .ok (_, some (.inl (.obj exc))) =>
    if env.isGeneratorExit exc then .value .none else .raised (.obj exc)
  | .ok (_, some (.inl exc)) => .raised exc
  | .ok (_, _) => .value .none

/-- The methods of a generator, with their arguments; the arguments of `throw` after the first may
be missing. -/
inductive GenCall (O : Type)
  | next
  | send (value : GenVal O)
  | throw (exc : GenVal O) (value : Option (GenVal O))
  | close
  | pendThrow (exc : GenVal O)
  deriving DecidableEq, Repr

/-- The exception that `throw` throws -/
def throwArg [DecidableEq O] (exc : GenVal O) : Option (GenVal O) → GenVal O
  | some value => if value = .none then exc else value
  | none => exc

/-- A call of a method -/
def genCall [DecidableEq O] (env : GenObjects O) (exec : Execute O G) (cur : G)
    (o : GenInstance O G) : GenCall O → GenOutcome O × GenInstance O G
  | .next =>
    let (r, o) := mpObjGenResume env exec cur o .none none
    (genResumeAndRaise r, o)
  | .send value =>
    let (r, o) := mpObjGenResume env exec cur o value none
    ((genResumeAndRaise r).orStopIteration, o)
  | .throw exc value =>
    -- an exception that is pending is forgotten first
    let (_, o) := genInstancePendThrow o .none
    let (r, o) := mpObjGenResume env exec cur o .none (some (throwArg exc value))
    ((genResumeAndRaise r).orStopIteration, o)
  | .close =>
    let (_, o) := genInstancePendThrow o .none
    let (r, o) := mpObjGenResume env exec cur o .none (some env.generatorExit)
    (genCloseEnd env r, o)
  | .pendThrow exc =>
    let (prev, o) := genInstancePendThrow o exc
    (.value prev, o)

/-! ### Executing generators -/

/-- A generator that executes: `globals` is `NULL`, it has not ended, and the saved stack pointer
points to a slot or below the first one. -/
structure GenInstance.Executing (o : GenInstance O G) : Prop where
  globals_eq : o.globals = none
  ip_ne : o.ip ≠ 0
  sp_ge : -1 ≤ o.sp
  sp_lt : o.sp < o.state.length
  state_pos : 0 < o.state.length

/-- The slot that a call writes, and what it writes there -/
def GenInstance.afterCall (o : GenInstance O G) : GenCall O → GenInstance O G
  | .next => o
  | .send _ => o
  | .throw _ _ => o.setSlot o.tos .none
  | .close => o.setSlot o.tos .none
  | .pendThrow exc => o.setSlot o.tos exc

/-- The end of a call -/
def GenInstance.reentered (o : GenInstance O G) : GenCall O → GenOutcome O
  | .pendThrow _ => .value o.top
  | _ => .raised (.valueError "generator already executing")

variable {o : GenInstance O G}

theorem GenInstance.Executing.tos_lt (h : o.Executing) : o.tos < o.state.length := by
  have hge := h.sp_ge
  have hlt := h.sp_lt
  rw [GenInstance.tos]
  split_ifs with hstart
  · exact h.state_pos
  · rw [GenInstance.justStarted, beq_iff_eq] at hstart
    omega

theorem GenInstance.Executing.setSlot (h : o.Executing) (i : ℕ)
    (v : GenVal O) : (o.setSlot i v).Executing := by
  refine ⟨h.globals_eq, h.ip_ne, h.sp_ge, ?_, ?_⟩
  · exact lt_of_lt_of_eq h.sp_lt (by rw [GenInstance.setSlot, List.length_set])
  · exact lt_of_lt_of_eq h.state_pos (by rw [GenInstance.setSlot, List.length_set])

section Calls

variable [DecidableEq O]

theorem mpObjGenResume_of_executing (env : GenObjects O) (exec : Execute O G) (cur : G)
    (h : o.Executing) (sendValue : GenVal O)
    (throwValue : Option (GenVal O)) :
    mpObjGenResume env exec cur o sendValue throwValue =
      (.error (.valueError "generator already executing"), o) := by
  rw [mpObjGenResume.eq_def, if_neg h.ip_ne, h.globals_eq]

/-- **What the methods do to a generator that executes.** They do not resume it. -/
theorem genCall_of_executing (env : GenObjects O) (exec : Execute O G) (cur : G) (h : o.Executing)
    (call : GenCall O) :
    genCall env exec cur o call = (o.reentered call, o.afterCall call) := by
  cases call with
  | next | send value =>
    rw [genCall, mpObjGenResume_of_executing env exec cur h]
    rfl
  | throw exc value | close =>
    rw [genCall, genInstancePendThrow]
    dsimp only
    rw [mpObjGenResume_of_executing env exec cur (h.setSlot o.tos .none)]
    rfl
  | pendThrow exc => rfl

end Calls

/-! ### Running frames -/

/-- A generator that executes, and the stack pointer of the interpreter -/
structure GenFrame (O G : Type) where
  inst : GenInstance O G
  sp : ℤ

/-- What the interpreter does with its value stack: it pushes, pops and reads values, writes the top
one, and saves its stack pointer. -/
inductive StackAct (O : Type)
  | push (v : GenVal O)
  | pop
  | read (depth : ℕ)
  | setTop (v : GenVal O)
  | save
  deriving DecidableEq, Repr

/-- One step of the interpreter on its stack, seen as the value it takes from there -/
def stackStep (f : GenFrame O G) : StackAct O → Option (GenFrame O G × Option (GenVal O))
  | .push v =>
    if f.sp + 1 < 0 ∨ (f.inst.state.length : ℤ) ≤ f.sp + 1 then none
    else some (⟨f.inst.setSlot (f.sp + 1).toNat v, f.sp + 1⟩, none)
  | .pop =>
    if f.sp < 0 then none
    else some (⟨f.inst, f.sp - 1⟩, f.inst.state[f.sp.toNat]?)
  | .read depth =>
    if f.sp < depth then none
    else some (f, f.inst.state[(f.sp - depth).toNat]?)
  | .setTop v =>
    if f.sp < 0 then none
    else some (⟨f.inst.setSlot f.sp.toNat v, f.sp⟩, none)
  | .save => some (⟨{ f.inst with sp := f.sp }, f.sp⟩, none)

/-- The generator's saved state and the slots up to the stack pointer are the same. -/
structure SameFrame (sp : ℤ) (o o' : GenInstance O G) : Prop where
  globals_eq : o'.globals = o.globals
  oldGlobals_eq : o'.oldGlobals = o.oldGlobals
  ip_eq : o'.ip = o.ip
  sp_eq : o'.sp = o.sp
  length_eq : o'.state.length = o.state.length
  slots : ∀ i : ℕ, (i : ℤ) ≤ sp → o'.state[i]? = o.state[i]?

/-- Frames that are the same stay so when the next slot or one below it is written, and the stack
pointer is then not above it. -/
theorem SameFrame.setSlot {sp sp' : ℤ} {o' : GenInstance O G} (h : SameFrame sp o o') (i : ℕ)
    (v : GenVal O) (hi : ∀ j : ℕ, (j : ℤ) ≤ sp' → j ≠ i → (j : ℤ) ≤ sp) :
    SameFrame sp' (o.setSlot i v) (o'.setSlot i v) where
  globals_eq := h.globals_eq
  oldGlobals_eq := h.oldGlobals_eq
  ip_eq := h.ip_eq
  sp_eq := h.sp_eq
  length_eq := by
    rw [GenInstance.setSlot, GenInstance.setSlot, List.length_set, List.length_set, h.length_eq]
  slots := by
    intro j hj
    rw [GenInstance.setSlot, GenInstance.setSlot, List.getElem?_set, List.getElem?_set,
      h.length_eq]
    split_ifs with hij hlt
    · rfl
    · rfl
    · exact h.slots j (hi j hj fun hji => hij hji.symm)

/-- A step takes the same value from frames that are the same, and leaves such frames. -/
theorem stackStep_same {f f' : GenFrame O G} (hsp : f'.sp = f.sp)
    (h : SameFrame f.sp f.inst f'.inst) (act : StackAct O) {f₁ : GenFrame O G}
    {v : Option (GenVal O)} (hstep : stackStep f act = some (f₁, v)) :
    ∃ f₁', stackStep f' act = some (f₁', v) ∧ f₁'.sp = f₁.sp ∧
      SameFrame f₁.sp f₁.inst f₁'.inst := by
  cases act with
  | push w =>
    rw [stackStep] at hstep ⊢
    rw [hsp, h.length_eq]
    split_ifs at hstep ⊢ with hroom
    obtain ⟨rfl, rfl⟩ := Prod.mk.inj (Option.some.inj hstep)
    exact ⟨_, rfl, rfl, h.setSlot _ w fun j hj hne => by dsimp only at hj; omega⟩
  | pop =>
    rw [stackStep] at hstep ⊢
    rw [hsp]
    split_ifs at hstep ⊢ with hempty
    obtain ⟨rfl, rfl⟩ := Prod.mk.inj (Option.some.inj hstep)
    refine ⟨⟨f'.inst, f.sp - 1⟩, by rw [h.slots _ (by omega)], rfl, ?_⟩
    exact ⟨h.globals_eq, h.oldGlobals_eq, h.ip_eq, h.sp_eq, h.length_eq,
      fun i hi => h.slots i (by dsimp only at hi; omega)⟩
  | read depth =>
    rw [stackStep] at hstep ⊢
    rw [hsp]
    split_ifs at hstep ⊢ with hdeep
    obtain ⟨rfl, rfl⟩ := Prod.mk.inj (Option.some.inj hstep)
    exact ⟨f', by rw [h.slots _ (by omega)], hsp, h⟩
  | setTop w =>
    rw [stackStep] at hstep ⊢
    rw [hsp]
    split_ifs at hstep ⊢ with hempty
    obtain ⟨rfl, rfl⟩ := Prod.mk.inj (Option.some.inj hstep)
    exact ⟨_, rfl, rfl, h.setSlot _ w fun j hj _ => hj⟩
  | save =>
    obtain ⟨rfl, rfl⟩ := Prod.mk.inj (Option.some.inj hstep)
    refine ⟨_, rfl, hsp, ?_⟩
    exact ⟨h.globals_eq, h.oldGlobals_eq, h.ip_eq, hsp, h.length_eq, h.slots⟩

/-- **An execution depends on the slots up to its stack pointer only**: it goes on in the same way
in frames that are the same. -/
theorem execution_continues {f f' : GenFrame O G} (hsp : f'.sp = f.sp)
    (h : SameFrame f.sp f.inst f'.inst) (acts : List (StackAct O)) {f₁ : GenFrame O G}
    {vs : List (Option (GenVal O))} (hrun : Machine.run stackStep f acts = some (f₁, vs)) :
    ∃ f₁', Machine.run stackStep f' acts = some (f₁', vs) ∧ f₁'.sp = f₁.sp ∧
      SameFrame f₁.sp f₁.inst f₁'.inst := by
  induction acts generalizing f f' vs with
  | nil =>
    obtain ⟨rfl, rfl⟩ : f = f₁ ∧ [] = vs := by simpa [Machine.run] using hrun
    exact ⟨f', rfl, hsp, h⟩
  | cons act acts ih =>
    obtain ⟨f₂, v, vs₂, hstep, hrest, rfl⟩ := Machine.run_cons_eq_some.mp hrun
    obtain ⟨f₂', hstep', hsp', h'⟩ := stackStep_same hsp h act hstep
    obtain ⟨f₁', hrun', hend⟩ := ih hsp' h' hrest
    exact ⟨f₁', Machine.run_cons_eq_some.mpr ⟨f₂', v, vs₂, hstep', hrun', rfl⟩, hend⟩

/-! ### Calls from running code -/

/-- A call writes no slot that is in use, or only what is there: `send` and `__next__` write
nothing, `throw` and `close` write `None` and `pend_throw` writes its argument to the slot of the
saved stack pointer. -/
def GenFrame.Spares (f : GenFrame O G) : GenCall O → Prop
  | .next => True
  | .send _ => True
  | .throw _ _ => f.sp < f.inst.tos ∨ f.inst.top = .none
  | .close => f.sp < f.inst.tos ∨ f.inst.top = .none
  | .pendThrow exc => f.sp < f.inst.tos ∨ f.inst.top = exc

theorem sameFrame_setSlot_iff (h : o.Executing) (sp : ℤ) (v : GenVal O) :
    SameFrame sp o (o.setSlot o.tos v) ↔ sp < o.tos ∨ o.top = v := by
  have htos := h.tos_lt
  have htop : o.state[o.tos]? = some o.top := by
    rw [GenInstance.top, List.getD_eq_getElem?_getD, List.getElem?_eq_getElem htos]
    rfl
  constructor
  · intro hsame
    by_cases huse : sp < o.tos
    · exact .inl huse
    · right
      have hslot := hsame.slots o.tos (by omega)
      rw [GenInstance.setSlot, List.getElem?_set_self htos, htop] at hslot
      exact (Option.some.inj hslot).symm
  · intro hspare
    refine ⟨rfl, rfl, rfl, rfl, by rw [GenInstance.setSlot, List.length_set], ?_⟩
    intro i hi
    rw [GenInstance.setSlot]
    by_cases hslot : o.tos = i
    · subst hslot
      rw [List.getElem?_set_self htos, htop, hspare.resolve_left (by omega)]
    · rw [List.getElem?_set_ne hslot]

/-- **Calls from running code.** A method that is called on a generator while it executes returns
without resuming it: `pend_throw` with the value that was in its slot, the others with `ValueError`.
The saved state and all slots in use are then as they were if and only if the call spares the frame,
and if it does the execution goes on as if there had been no call. -/
theorem reentrant_call_iff [DecidableEq O] (env : GenObjects O) (exec : Execute O G) (cur : G)
    (f : GenFrame O G) (hexec : f.inst.Executing) (call : GenCall O) :
    (genCall env exec cur f.inst call).1 = f.inst.reentered call ∧
      (SameFrame f.sp f.inst (genCall env exec cur f.inst call).2 ↔ f.Spares call) ∧
      (f.Spares call → ∀ acts f₁ vs, Machine.run stackStep f acts = some (f₁, vs) →
        ∃ f₁', Machine.run stackStep ⟨(genCall env exec cur f.inst call).2, f.sp⟩ acts =
          some (f₁', vs)) := by
  rw [genCall_of_executing env exec cur hexec]
  have hsame : SameFrame f.sp f.inst (f.inst.afterCall call) ↔ f.Spares call := by
    cases call with
    | next => exact iff_of_true ⟨rfl, rfl, rfl, rfl, rfl, fun _ _ => rfl⟩ trivial
    | send value => exact iff_of_true ⟨rfl, rfl, rfl, rfl, rfl, fun _ _ => rfl⟩ trivial
    | throw exc value => exact sameFrame_setSlot_iff hexec f.sp .none
    | close => exact sameFrame_setSlot_iff hexec f.sp .none
    | pendThrow exc => exact sameFrame_setSlot_iff hexec f.sp exc
  refine ⟨rfl, hsame, fun hspares acts f₁ vs hrun => ?_⟩
  obtain ⟨f₁', hrun', -⟩ := @execution_continues _ _ f ⟨f.inst.afterCall call, f.sp⟩ rfl
    (hsame.mpr hspares) acts f₁ vs hrun
  exact ⟨f₁', hrun'⟩

/-- A generator with four slots that was called and is being resumed for the first time -/
def firstResume : GenFrame ℕ Unit :=
  ⟨{ genWrapCall () 1 (List.replicate 4 .null) with globals := none, oldGlobals := some () }, -1⟩

/-- Objects of which 0 is the only `GeneratorExit` -/
def plainObjects : GenObjects ℕ where
  makeRaiseObj := id
  isStopIteration := fun _ => false
  isGeneratorExit := fun v => v = .obj 0
  generatorExit := .obj 0

/-- Code that returns at once -/
def returnAtOnce : Execute ℕ Unit := fun globals o _ => (.normal, o, globals)

/-- Running code that has one value on its stack, and saved its stack pointer when there were two -/
def oneTaken : GenFrame ℕ Unit :=
  ⟨{ firstResume.inst with state := [.obj 1, .obj 2, .null, .null], sp := 1 }, 0⟩

/-- It may close its generator, and the value is still there. -/
theorem reentrant_call_iff_close : Machine.run stackStep firstResume
        [.push (.obj 1), .push (.obj 2), .save, .pop] =
          some (oneTaken, [none, none, none, some (.obj 2)]) ∧
      (genCall plainObjects returnAtOnce () oneTaken.inst .close).1 =
        .raised (.valueError "generator already executing") ∧
      SameFrame 0 oneTaken.inst
        (genCall plainObjects returnAtOnce () oneTaken.inst .close).2 := by
  have h := reentrant_call_iff plainObjects returnAtOnce () oneTaken
    ⟨rfl, by decide, by decide, by decide, by decide⟩ .close
  exact ⟨rfl, h.1, h.2.1.mpr (.inl (by decide))⟩

/-- The code pushes 1, then a method with its arguments. The call of `pend_throw` replaces 1, which
the code has still to use; so does a call of `throw`, which raises `ValueError`. -/
theorem pend_throw_overwrites_operand : ∃ f vs, Machine.run stackStep firstResume
        [.push (.obj 1), .push (.obj 2), .push (.obj 3), .push (.obj 5)] = some (f, vs) ∧
      f.inst.Executing ∧ f.inst.state[0]? = some (.obj 1) ∧
      (genCall plainObjects returnAtOnce () f.inst (.pendThrow (.obj 5))).2.state[0]? =
        some (.obj 5) ∧
      (genCall plainObjects returnAtOnce () f.inst (.throw (.obj 5) none)).1 =
        .raised (.valueError "generator already executing") ∧
      (genCall plainObjects returnAtOnce () f.inst (.throw (.obj 5) none)).2.state[0]? =
        some .none := by
  refine ⟨_, _, rfl, ⟨rfl, by decide, by decide, by decide, by decide⟩, rfl, rfl, rfl, rfl⟩

end Pycopy
