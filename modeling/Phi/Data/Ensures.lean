import Mathlib

/-!
# Computations with a state that may fail

`Ensures I x P` says that `x` keeps the invariant `I` of its state, and that what it returns satisfies `P`. It says
nothing of a computation that throws.
-/

namespace Phi

universe u v

variable {σ : Type u} {ε : Type v} {α β : Type u}

def Ensures (I : σ → Prop) (x : StateT σ (Except ε) α) (P : α → Prop) : Prop :=
  ∀ s, I s → ∀ a s', x s = .ok (a, s') → P a ∧ I s'

namespace Ensures

variable {I : σ → Prop} {x : StateT σ (Except ε) α} {P Q : α → Prop} {R : β → Prop}

theorem pure {a : α} (h : P a) : Ensures I (Pure.pure a : StateT σ (Except ε) α) P := by
  intro s hs a' s' hrun
  cases hrun
  exact ⟨h, hs⟩

theorem bind {f : α → StateT σ (Except ε) β} (hx : Ensures I x P) (hf : ∀ a, P a → Ensures I (f a) R) :
    Ensures I (x >>= f) R := by
  intro s hs b s'' hrun
  cases hstep : x s with
  | error e =>
    rw [show (x >>= f) s = x s >>= fun r => f r.1 r.2 from rfl, hstep] at hrun
    cases hrun
  | ok r =>
    rw [show (x >>= f) s = x s >>= fun r => f r.1 r.2 from rfl, hstep] at hrun
    obtain ⟨hP, hI⟩ := hx s hs r.1 r.2 hstep
    exact hf r.1 hP r.2 hI b s'' hrun

theorem mono (hx : Ensures I x P) (h : ∀ a, P a → Q a) : Ensures I x Q := by
  intro s hs a s' hrun
  obtain ⟨hP, hI⟩ := hx s hs a s' hrun
  exact ⟨h a hP, hI⟩

theorem throw (e : ε) : Ensures I (MonadExcept.throw e : StateT σ (Except ε) α) P := by
  intro s _ a s' hrun
  cases hrun

/-- A part that does not use the state. -/
theorem lift {x : Except ε α} (h : ∀ a, x = .ok a → P a) : Ensures I (liftM x : StateT σ (Except ε) α) P := by
  intro s hs a s' hrun
  cases x with
  | error e => cases hrun
  | ok b =>
    cases hrun
    exact ⟨h _ rfl, hs⟩

end Ensures

end Phi
