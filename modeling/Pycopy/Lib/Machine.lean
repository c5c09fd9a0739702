import Mathlib.Data.List.Basic

/-!
# Machines with Observations

A machine takes inputs one after the other. A step changes its state and is observed as an output,
or it is not possible. What holds of a state and all that was observed so far is shown for one step
and then holds at the end of every run.

## Main results

* `run_invariant`: an invariant of the steps holds after every run.
* `exists_run_iff`: which runs are possible.
* `exists_run_of_append`: the part of a run up to an observation.
* `Always.concat`: what is shown of every observation when it is made.
-/

namespace Machine

variable {S I O : Type}

/-- A run: the state at the end of it, and what was observed. -/
def run (step : S → I → Option (S × O)) : S → List I → Option (S × List O)
  | s, [] => some (s, [])
  | s, i :: is =>
    (step s i).bind fun (s', o) => (run step s' is).map fun (s'', os) => (s'', o :: os)

variable {step : S → I → Option (S × O)} {s s' : S} {is : List I} {os : List O}

theorem run_cons_eq_some {i : I} : run step s (i :: is) = some (s', os) ↔
      ∃ s₁ o os₁, step s i = some (s₁, o) ∧ run step s₁ is = some (s', os₁) ∧ os = o :: os₁ := by
  simp only [run, Option.bind_eq_some_iff, Option.map_eq_some_iff, Prod.exists, Prod.mk.injEq]
  constructor
  · rintro ⟨s₁, o, h, s₂, os₁, hrun, rfl, rfl⟩
    exact ⟨s₁, o, os₁, h, hrun, rfl⟩
  · rintro ⟨s₁, o, os₁, h, hrun, rfl⟩
    exact ⟨s₁, o, h, s', os₁, hrun, rfl, rfl⟩

theorem run_append {s₁ : S} {is' : List I} {os' : List O} (h : run step s is = some (s₁, os))
    (h' : run step s₁ is' = some (s', os')) : run step s (is ++ is') = some (s', os ++ os') := by
  induction is generalizing s os with
  | nil =>
    obtain ⟨rfl, rfl⟩ : s = s₁ ∧ [] = os := by simpa [run] using h
    exact h'
  | cons i is ih =>
    obtain ⟨s₂, o, os₂, h₂, hrest, rfl⟩ := run_cons_eq_some.mp h
    exact run_cons_eq_some.mpr ⟨s₂, o, _, h₂, ih hrest, rfl⟩

/-- **The runs there are**: when a step is possible in the states of an invariant just under a
condition, a run is possible just when all its steps meet the condition. -/
theorem exists_run_iff (Inv : S → Prop) (P : S → I → Prop)
    (hP : ∀ s i, Inv s → ((step s i).isSome ↔ P s i))
    (hstep : ∀ s i s' o, Inv s → step s i = some (s', o) → Inv s') (h : Inv s) (is : List I) :
    (∃ s' os, run step s is = some (s', os)) ↔
      ∀ is₁ i is₂ s₁ os, is = is₁ ++ i :: is₂ → run step s is₁ = some (s₁, os) → P s₁ i := by
  induction is generalizing s with
  | nil => exact iff_of_true ⟨s, [], rfl⟩ fun is₁ i is₂ s₁ os heq => by simp at heq
  | cons i is ih =>
    constructor
    · rintro ⟨s', os, hrun⟩ is₁ j is₂ s₁ os₁ heq hrun₁
      obtain ⟨s₂, o, os₂, h₂, hrest, rfl⟩ := run_cons_eq_some.mp hrun
      cases is₁ with
      | nil =>
        obtain ⟨rfl, rfl⟩ := List.cons.inj heq
        obtain ⟨rfl, rfl⟩ : s = s₁ ∧ [] = os₁ := by simpa [run] using hrun₁
        rw [← hP s i h, h₂]
        rfl
      | cons k is₁ =>
        obtain ⟨rfl, htail⟩ := List.cons.inj heq
        obtain ⟨s₃, o₃, os₃, h₃, hrest₃, rfl⟩ := run_cons_eq_some.mp hrun₁
        obtain ⟨rfl, rfl⟩ := Prod.mk.inj (Option.some.inj (h₂.symm.trans h₃))
        exact (ih (hstep _ _ _ _ h h₂)).mp ⟨s', os₂, hrest⟩ is₁ j is₂ s₁ os₃ htail hrest₃
    · intro hall
      obtain ⟨⟨s₁, o⟩, h₁⟩ := Option.isSome_iff_exists.mp
        ((hP s i h).mpr (hall [] i is s [] rfl rfl))
      obtain ⟨s', os, hrun⟩ := (ih (hstep _ _ _ _ h h₁)).mpr fun is₁ j is₂ s₂ os₂ heq hrun₂ =>
        hall (i :: is₁) j is₂ s₂ (o :: os₂) (by rw [heq]; rfl)
          (run_cons_eq_some.mpr ⟨s₁, o, os₂, h₁, hrun₂, rfl⟩)
      exact ⟨s', o :: os, run_cons_eq_some.mpr ⟨s₁, o, os, h₁, hrun, rfl⟩⟩

/-- What was observed in two parts was observed in two runs. -/
theorem exists_run_of_append {os₁ os₂ : List O} (h : run step s is = some (s', os₁ ++ os₂)) :
    ∃ is₁ is₂ s₁, run step s is₁ = some (s₁, os₁) ∧ run step s₁ is₂ = some (s', os₂) := by
  induction os₁ generalizing s is with
  | nil => exact ⟨[], is, s, rfl, h⟩
  | cons o os₁ ih =>
    cases is with
    | nil => simp [run] at h
    | cons i is =>
      obtain ⟨s₁, o₁, os, h₁, hrest, hos⟩ := run_cons_eq_some.mp h
      obtain ⟨rfl, rfl⟩ := List.cons.inj hos
      obtain ⟨is₁, is₂, s₂, hrun₁, hrun₂⟩ := ih hrest
      exact ⟨i :: is₁, is₂, s₂, run_cons_eq_some.mpr ⟨s₁, o, os₁, h₁, hrun₁, rfl⟩, hrun₂⟩

variable {o : O}

/-- An observation was made in a step. -/
theorem exists_step_of_cons (h : run step s is = some (s', o :: os)) :
    ∃ i s₁, step s i = some (s₁, o) := by
  cases is with
  | nil => simp [run] at h
  | cons i is =>
    obtain ⟨s₁, o₁, os₁, h₁, _, hos⟩ := run_cons_eq_some.mp h
    obtain ⟨rfl, rfl⟩ := List.cons.inj hos
    exact ⟨i, s₁, h₁⟩

variable {tr : List O}

/-- **What every step keeps holds after every run.** -/
theorem run_invariant (Inv : S → List O → Prop)
    (hstep : ∀ s tr i s' o, Inv s tr → step s i = some (s', o) → Inv s' (tr ++ [o])) (h : Inv s tr)
    (hrun : run step s is = some (s', os)) : Inv s' (tr ++ os) := by
  induction is generalizing s tr os with
  | nil =>
    obtain ⟨rfl, rfl⟩ : s = s' ∧ [] = os := by simpa [run] using hrun
    rwa [List.append_nil]
  | cons i is ih =>
    obtain ⟨s₁, o, os₁, h₁, hrest, rfl⟩ := run_cons_eq_some.mp hrun
    have := ih (hstep _ _ _ _ _ h h₁) hrest
    rwa [List.append_assoc, List.singleton_append] at this

/-- An invariant of a run from its start -/
theorem run_invariant_of_nil (Inv : S → List O → Prop)
    (hstep : ∀ s tr i s' o, Inv s tr → step s i = some (s', o) → Inv s' (tr ++ [o]))
    (h : Inv s []) (hrun : run step s is = some (s', os)) : Inv s' os := by
  have hinv := run_invariant Inv hstep h hrun
  rwa [List.nil_append] at hinv

/-- Every observation is right, after all that was observed before it. -/
def Always (P : List O → O → Prop) (tr : List O) : Prop :=
  ∀ tr₁ o tr₂, tr = tr₁ ++ o :: tr₂ → P tr₁ o

theorem always_nil (P : List O → O → Prop) : Always P [] := by
  intro tr₁ o tr₂ h
  simp at h

variable {P : List O → O → Prop}

theorem Always.concat (h : Always P tr) (ho : P tr o) : Always P (tr ++ [o]) := by
  intro tr₁ o' tr₂ heq
  rcases List.eq_nil_or_concat tr₂ with rfl | ⟨tr₂, o₂, rfl⟩
  · obtain ⟨rfl, hlast⟩ := List.append_inj' heq rfl
    rwa [List.cons.inj hlast |>.1] at ho
  · rw [List.concat_eq_append, ← List.cons_append, ← List.append_assoc] at heq
    exact h _ _ _ (List.append_inj' heq rfl).1

end Machine
