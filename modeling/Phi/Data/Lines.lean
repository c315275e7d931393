import Mathlib

/-!
# Lines

A sequence over any alphabet is cut at a separator: whole lines, each closed by the separator, and a tail
without one. The cut is unique (`unlines_append_inj`), and a prefix of whole lines is made of the first of
these lines and a piece of the next (`take_unlines`).
-/

namespace Phi

variable {α : Type*} (sep : α)

/-- The sequence of these lines, each closed by the separator. -/
def unlines (ls : List (List α)) : List α := ls.flatMap (· ++ [sep])

@[simp] theorem unlines_nil : unlines sep [] = [] := rfl

@[simp] theorem unlines_cons (l : List α) (ls : List (List α)) : unlines sep (l :: ls) = l ++ sep :: unlines sep ls := by
  simp [unlines]

theorem unlines_append (ls ls' : List (List α)) : unlines sep (ls ++ ls') = unlines sep ls ++ unlines sep ls' :=
  List.flatMap_append

/-- Every sequence is made of whole lines and a tail. -/
theorem exists_unlines [DecidableEq α] (xs : List α) :
    ∃ ls tail, xs = unlines sep ls ++ tail ∧ (∀ l ∈ ls, sep ∉ l) ∧ sep ∉ tail := by
  induction xs with
  | nil => exact ⟨[], [], rfl, by simp, by simp⟩
  | cons x xs ih =>
    rcases ih with ⟨ls, tail, rfl, hls, htail⟩
    by_cases hx : x = sep
    · subst hx
      exact ⟨[] :: ls, tail, by simp, by simpa using hls, htail⟩
    · cases ls with
      | nil => exact ⟨[], x :: tail, rfl, by simp, by simp [htail, Ne.symm hx]⟩
      | cons l ls =>
        rw [List.forall_mem_cons] at hls
        refine ⟨(x :: l) :: ls, tail, by simp, ?_, htail⟩
        rw [List.forall_mem_cons]
        exact ⟨by simp [hls.1, Ne.symm hx], hls.2⟩

variable {sep}

/-- There is one way to cut a sequence into lines. -/
theorem unlines_append_inj {ls ls' : List (List α)} {tail tail' : List α} (hls : ∀ l ∈ ls, sep ∉ l)
    (hls' : ∀ l ∈ ls', sep ∉ l) (ht : sep ∉ tail) (ht' : sep ∉ tail')
    (h : unlines sep ls ++ tail = unlines sep ls' ++ tail') : ls = ls' ∧ tail = tail' := by
  induction ls generalizing ls' with
  | nil =>
    cases ls' with
    | nil => exact ⟨rfl, h⟩
    | cons l' ls' =>
      refine absurd ?_ ht
      rw [show tail = _ from h]
      simp
  | cons l ls ih =>
    rw [List.forall_mem_cons] at hls
    cases ls' with
    | nil =>
      refine absurd ?_ ht'
      rw [show tail' = _ from h.symm]
      simp
    | cons l' ls' =>
      rw [List.forall_mem_cons] at hls'
      simp only [unlines_cons, List.append_assoc, List.cons_append] at h
      -- both first lines end at the first separator
      have hl : l = l' := by
        rcases List.append_eq_append_iff.mp h with ⟨m, hm, hrest⟩ | ⟨m, hm, hrest⟩
        · cases m with
          | nil => simpa using hm.symm
          | cons a m =>
            rw [List.cons_append, List.cons.injEq] at hrest
            refine absurd ?_ hls'.1
            rw [hm, ← hrest.1]
            simp
        · cases m with
          | nil => simpa using hm
          | cons a m =>
            rw [List.cons_append, List.cons.injEq] at hrest
            refine absurd ?_ hls.1
            rw [hm, ← hrest.1]
            simp
      subst hl
      have hrest := (List.cons.inj (List.append_cancel_left h)).2
      rcases ih hls.2 hls'.2 hrest with ⟨rfl, rfl⟩
      exact ⟨rfl, rfl⟩

theorem length_unlines_take_le (ls : List (List α)) (k : ℕ) :
    (unlines sep (ls.take k)).length ≤ (unlines sep ls).length := by
  have h := congrArg List.length (unlines_append sep (ls.take k) (ls.drop k))
  rw [List.take_append_drop, List.length_append] at h
  omega

/-- A prefix of whole lines: the first lines, and a piece of the next one that is not all of it. -/
theorem take_unlines {ls : List (List α)} (hls : ∀ l ∈ ls, sep ∉ l) (n : ℕ) :
    ∃ k tail, (unlines sep ls).take n = unlines sep (ls.take k) ++ tail ∧ sep ∉ tail ∧ k ≤ ls.length ∧
      (k < ls.length → n < (unlines sep (ls.take (k + 1))).length) ∧ (k = ls.length → tail = []) ∧
      (n ≤ (unlines sep ls).length → (unlines sep (ls.take k)).length ≤ n) := by
  induction ls generalizing n with
  | nil => exact ⟨0, [], by simp, by simp, le_rfl, by simp, by simp, by simp⟩
  | cons l ls ih =>
    rw [List.forall_mem_cons] at hls
    by_cases hn : n < l.length + 1
    · refine ⟨0, l.take n, ?_, ?_, Nat.zero_le _, ?_, by simp, by simp⟩
      · rw [unlines_cons, List.take_append_of_le_length (by omega)]
        rfl
      · exact fun hmem => hls.1 (List.mem_of_mem_take hmem)
      · intro _
        simpa using hn
    · rcases ih hls.2 (n - (l.length + 1)) with ⟨k, tail, htake, htail, hk, hnext, hlast, hle⟩
      refine ⟨k + 1, tail, ?_, htail, by simpa using hk, ?_, ?_, ?_⟩
      · rw [unlines_cons, List.take_append, List.take_of_length_le (by omega),
          show n - l.length = (n - (l.length + 1)) + 1 by omega, List.take_succ_cons, htake]
        simp
      · intro hlt
        have := hnext (by simpa using hlt)
        simp only [List.take_succ_cons, unlines_cons, List.length_append, List.length_cons]
        omega
      · intro heq
        exact hlast (by simpa using heq)
      · intro hlen
        simp only [unlines_cons, List.length_append, List.length_cons] at hlen
        have := hle (by omega)
        simp only [List.take_succ_cons, unlines_cons, List.length_append, List.length_cons]
        omega

end Phi
