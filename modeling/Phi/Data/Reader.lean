import Phi.Data.Except

/-!
# What a reader consumes

A reader is a computation over the rest of its input that may fail. `Consumes r P` says what holds
between the input a successful run of `r` used up and the value it returned. The rules follow the
monad, so that a reader built from small ones inherits what they guarantee.
-/

namespace Phi

variable {σ ε α β : Type}

/-- Whenever `r` returns, it has used up a part of its input from the front, and `P` relates this part
to the value. -/
def Consumes (r : StateT (List σ) (Except ε) α) (P : List σ → α → Prop) : Prop :=
  ∀ input a rest, r input = .ok (a, rest) → ∃ used, input = used ++ rest ∧ P used a

namespace Consumes

variable {r : StateT (List σ) (Except ε) α} {P P' : List σ → α → Prop} {Q : List σ → β → Prop}

theorem mono (h : Consumes r P) (hP : ∀ used a, P used a → P' used a) : Consumes r P' := by
  intro input a rest hr
  obtain ⟨used, hinput, hused⟩ := h input a rest hr
  exact ⟨used, hinput, hP used a hused⟩

protected theorem pure {a : α} (h : P [] a) :
    Consumes (Pure.pure a : StateT (List σ) (Except ε) α) P := by
  intro input b rest hr
  obtain ⟨rfl, rfl⟩ := Prod.mk.inj (Except.ok.inj hr)
  exact ⟨[], rfl, h⟩

protected theorem throw (e : ε) : Consumes (throw e : StateT (List σ) (Except ε) α) P := by
  intro input a rest hr
  cases hr

/-- What the first reader used comes before what the second one used. -/
protected theorem bind {f : α → StateT (List σ) (Except ε) β} (hr : Consumes r P)
    (hf : ∀ used a, P used a → Consumes (f a) fun used' b => Q (used ++ used') b) :
    Consumes (r >>= f) Q := by
  intro input b rest h
  have hrun : (r >>= f) input = r input >>= fun p => f p.1 p.2 := rfl
  rw [hrun] at h
  obtain ⟨⟨a, between⟩, hra, hfa⟩ := bind_eq_ok.mp h
  obtain ⟨used, hinput, hused⟩ := hr input a between hra
  obtain ⟨used', hbetween, hused'⟩ := hf used a hused between b rest hfa
  refine ⟨used ++ used', ?_, hused'⟩
  rw [hinput, hbetween, List.append_assoc]

/-- A reader whose value is mapped. -/
protected theorem map (hr : Consumes r P) {g : α → β} (hg : ∀ used a, P used a → Q used (g a)) :
    Consumes (r >>= fun a => Pure.pure (g a)) Q := by
  refine hr.bind fun used a hused => Consumes.pure ?_
  rw [List.append_nil]
  exact hg used a hused

/-- A guard that throws. -/
protected theorem guard {p : Prop} [Decidable p] (e : ε) (hr : ¬p → Consumes r P) :
    Consumes (if p then throw e else r) P := by
  split
  · exact Consumes.throw e
  · next hp => exact hr hp

end Consumes

end Phi
