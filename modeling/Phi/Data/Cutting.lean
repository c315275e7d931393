import Mathlib

/-!
# Cutting pieces off a buffer

A reader puts what arrives into a buffer and cuts piece after piece off its front, as long as there is a whole one. If
what is cut off does not depend on what is behind it (`Cuts`), it makes no difference how the input arrives
(`pieces_append`).
-/

namespace Phi

variable {α β : Type}

/-- Cut off pieces, at most so many. -/
def cutAtMost (cut : List α → Option (β × List α)) : ℕ → List α → List β × List α
  | 0, s => ([], s)
  | n + 1, s =>
    match cut s with
    | none => ([], s)
    | some (piece, rest) => (piece :: (cutAtMost cut n rest).1, (cutAtMost cut n rest).2)

/-- All whole pieces of a buffer, and what is left of it. -/
def pieces (cut : List α → Option (β × List α)) (s : List α) : List β × List α := cutAtMost cut s.length s

/-- A piece is read off a front that is not empty, whatever is behind it. -/
def Cuts (cut : List α → Option (β × List α)) : Prop :=
  ∀ s piece rest, cut s = some (piece, rest) →
    ∃ front, front ≠ [] ∧ s = front ++ rest ∧ ∀ t, cut (front ++ t) = some (piece, t)

/-- What is left is shorter. -/
def Shortens (cut : List α → Option (β × List α)) : Prop :=
  ∀ s piece rest, cut s = some (piece, rest) → rest.length < s.length

variable {cut : List α → Option (β × List α)}

theorem Cuts.shortens (h : Cuts cut) : Shortens cut := by
  intro s piece rest hcut
  obtain ⟨front, hne, rfl, -⟩ := h s piece rest hcut
  have := List.length_pos_iff.mpr hne
  rw [List.length_append]
  omega

theorem cutAtMost_of_none {s : List α} (h : cut s = none) (n : ℕ) : cutAtMost cut n s = ([], s) := by
  cases n with
  | zero => rfl
  | succ n => rw [cutAtMost, h]

theorem pieces_of_none {s : List α} (h : cut s = none) : pieces cut s = ([], s) :=
  cutAtMost_of_none h s.length

namespace Shortens

theorem cutAtMost_eq (h : Shortens cut) {s : List α} {n : ℕ} (hn : s.length ≤ n) : cutAtMost cut n s = pieces cut s := by
  rw [pieces]
  induction n using Nat.strong_induction_on generalizing s with
  | _ n ih =>
    cases hcut : cut s with
    | none => rw [cutAtMost_of_none hcut, cutAtMost_of_none hcut]
    | some p =>
      obtain ⟨piece, rest⟩ := p
      have hlt := h s piece rest hcut
      obtain ⟨m, hm⟩ : ∃ m, s.length = m + 1 := Nat.exists_eq_succ_of_ne_zero (by omega)
      obtain ⟨k, rfl⟩ : ∃ k, n = k + 1 := Nat.exists_eq_succ_of_ne_zero (by omega)
      rw [hm, cutAtMost, cutAtMost, hcut]
      simp only
      rw [ih k (by omega) (by omega)]
      by_cases hmk : m < k + 1
      · rw [ih m hmk (by omega)]
      · rw [show m = k by omega, ih k (by omega) (by omega)]

theorem pieces_of_some (h : Shortens cut) {s rest : List α} {piece : β} (hcut : cut s = some (piece, rest)) :
    pieces cut s = (piece :: (pieces cut rest).1, (pieces cut rest).2) := by
  have hlt := h s piece rest hcut
  obtain ⟨m, hm⟩ : ∃ m, s.length = m + 1 := Nat.exists_eq_succ_of_ne_zero (by omega)
  rw [pieces, hm, cutAtMost, hcut]
  simp only
  rw [h.cutAtMost_eq (by omega)]

/-- From a text to what is left of it, one piece at a time. -/
theorem pieces_induction (h : Shortens cut) {motive : List α → Prop} (hnone : ∀ s, cut s = none → motive s)
    (hsome : ∀ s piece rest, cut s = some (piece, rest) → motive rest → motive s) (s : List α) : motive s := by
  induction hn : s.length using Nat.strong_induction_on generalizing s with
  | _ n ih =>
    cases hcut : cut s with
    | none => exact hnone s hcut
    | some p => exact hsome s p.1 p.2 hcut (ih _ (hn ▸ h s p.1 p.2 hcut) p.2 rfl)

end Shortens

/-- What arrives later is cut together with what was left. -/
theorem Cuts.pieces_append (h : Cuts cut) (s t : List α) :
    pieces cut (s ++ t)
      = ((pieces cut s).1 ++ (pieces cut ((pieces cut s).2 ++ t)).1, (pieces cut ((pieces cut s).2 ++ t)).2) := by
  induction s using h.shortens.pieces_induction with
  | hnone s hnone => rw [pieces_of_none hnone, List.nil_append]
  | hsome s piece rest hsome ih =>
    have happend : cut (s ++ t) = some (piece, rest ++ t) := by
      obtain ⟨front, -, rfl, hfront⟩ := h s piece rest hsome
      rw [List.append_assoc]
      exact hfront (rest ++ t)
    rw [h.shortens.pieces_of_some hsome, h.shortens.pieces_of_some happend, ih]
    rfl

end Phi
