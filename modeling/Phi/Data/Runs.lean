import Mathlib

/-!
# Runs of a partial step function

A system is a function that takes a state and an action to the next state, or to nothing where the action is not
possible. `Reaches` are the states of its runs, with a condition on the steps that the runs may take.
-/

namespace Phi

variable {S A : Type}

/-- The states of the runs from `init` in which every step meets `allowed`. -/
inductive Reaches (step : S → A → Option S) (allowed : S → A → Prop) (init : S) : S → Prop
  | init : Reaches step allowed init init
  | step {s s' : S} {a : A} (h : Reaches step allowed init s) (ha : allowed s a) (hs : step s a = some s') :
    Reaches step allowed init s'

namespace Reaches

variable {step : S → A → Option S} {allowed : S → A → Prop} {init s : S}

/-- What holds at first and is kept by each step holds in every state of a run. -/
theorem invariant {I : S → Prop} (hinit : I init)
    (hstep : ∀ s a s', I s → allowed s a → step s a = some s' → I s') (h : Reaches step allowed init s) : I s := by
  induction h with
  | init => exact hinit
  | step _ ha hs ih => exact hstep _ _ _ ih ha hs

/-- The state behind a list of actions that may all be taken. -/
theorem of_foldlM_allowed [∀ s a, Decidable (allowed s a)] {as : List A}
    (h : as.foldlM (fun s a => if allowed s a then step s a else none) init = some s) : Reaches step allowed init s := by
  suffices ∀ s', Reaches step allowed init s' →
      as.foldlM (fun s a => if allowed s a then step s a else none) s' = some s → Reaches step allowed init s from
    this init .init h
  clear h
  induction as with
  | nil =>
    intro s' hs' h
    cases h
    exact hs'
  | cons a as ih =>
    intro s' hs' h
    obtain ⟨s'', hstep, hrest⟩ := Option.bind_eq_some_iff.mp h
    obtain ⟨hallowed, hstep⟩ : allowed s' a ∧ step s' a = some s'' := by simpa using hstep
    exact ih s'' (hs'.step hallowed hstep) hrest

/-- The state behind a list of actions. -/
theorem of_foldlM {as : List A} (h : as.foldlM step init = some s) : Reaches step (fun _ _ => True) init s :=
  of_foldlM_allowed (by simpa using h)

end Reaches

/-- Every step of the run of some actions meets a condition. -/
def AllSteps (step : S → A → Option S) (allowed : S → A → Prop) : S → List A → Prop
  | _, [] => True
  | s, a :: as => allowed s a ∧ ∀ s', step s a = some s' → AllSteps step allowed s' as

theorem allSteps_cons {step : S → A → Option S} {allowed : S → A → Prop} {s s' : S} {a : A} {as : List A}
    (hs : step s a = some s') : AllSteps step allowed s (a :: as) ↔ allowed s a ∧ AllSteps step allowed s' as := by
  rw [AllSteps, hs]
  simp only [Option.some.injEq, forall_eq']

/-- The states behind a run whose steps are all allowed. -/
theorem Reaches.foldlM {step : S → A → Option S} {allowed : S → A → Prop} {init s s' : S} {as : List A}
    (h : Reaches step allowed init s) (hallowed : AllSteps step allowed s as) (hs : as.foldlM step s = some s') :
    Reaches step allowed init s' := by
  induction as generalizing s with
  | nil =>
    cases hs
    exact h
  | cons a as ih =>
    obtain ⟨s'', hstep, hrest⟩ := Option.bind_eq_some_iff.mp hs
    rw [allSteps_cons hstep] at hallowed
    exact ih (h.step hallowed.1 hstep) hallowed.2 hrest

end Phi
