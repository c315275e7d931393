import Mathlib

/-!
# Searching and replacing in a list

`indexOf` is the first place where a pattern occurs, `occurrences` the number of times it is met when a text is
read from left to right and every find is skipped over. A region is a range of a list with the text that is to
replace it. Regions that follow one another can be replaced from the last to the first in one buffer, which keeps
the indices of the earlier ones valid; `replaceRegions` says what comes out: the gaps between the regions as they
were, and the new texts in their places.
-/

namespace Phi

variable {α : Type*}

/-! ## Search -/

/-- The pattern occurs at the index. -/
def OccursAt (pattern text : List α) (i : ℕ) : Prop := i ≤ text.length ∧ pattern <+: text.drop i

section Search

variable [DecidableEq α]

instance (pattern text : List α) (i : ℕ) : Decidable (OccursAt pattern text i) := inferInstanceAs (Decidable (_ ∧ _))

/-- The first index at which the pattern occurs. -/
def indexOf (pattern : List α) : List α → Option ℕ
  | [] => if pattern = [] then some 0 else none
  | a :: text => if pattern <+: a :: text then some 0 else (indexOf pattern text).map (· + 1)

/-- The finds of the pattern, from left to right, in what follows the `skip` elements that belong to the last. -/
def occurrencesFrom (pattern : List α) : ℕ → List α → ℕ
  | _, [] => 0
  | skip + 1, _ :: text => occurrencesFrom pattern skip text
  | 0, a :: text =>
    if pattern <+: a :: text then occurrencesFrom pattern (pattern.length - 1) text + 1
    else occurrencesFrom pattern 0 text

def occurrences (pattern text : List α) : ℕ := occurrencesFrom pattern 0 text

theorem occursAt_zero {pattern text : List α} : OccursAt pattern text 0 ↔ pattern <+: text := by
  simp [OccursAt]

theorem occursAt_succ {pattern text : List α} {a : α} {i : ℕ} :
    OccursAt pattern (a :: text) (i + 1) ↔ OccursAt pattern text i := by
  simp [OccursAt]

theorem indexOf_eq_some {pattern text : List α} {i : ℕ} (h : indexOf pattern text = some i) :
    OccursAt pattern text i ∧ ∀ j < i, ¬OccursAt pattern text j := by
  induction text generalizing i with
  | nil =>
    simp only [indexOf] at h
    split at h
    · rename_i hp
      cases h
      exact ⟨by simp [OccursAt, hp], by simp⟩
    · cases h
  | cons a text ih =>
    simp only [indexOf] at h
    split at h
    · rename_i hp
      cases h
      exact ⟨(occursAt_zero).mpr hp, by simp⟩
    · rename_i hp
      rw [Option.map_eq_some_iff] at h
      rcases h with ⟨i, hi, rfl⟩
      rcases ih hi with ⟨hocc, hfirst⟩
      refine ⟨(occursAt_succ).mpr hocc, ?_⟩
      intro j hj
      rcases j with _ | j
      · rw [occursAt_zero]
        exact hp
      · rw [occursAt_succ]
        exact hfirst j (by omega)

theorem indexOf_eq_none {pattern text : List α} (h : indexOf pattern text = none) :
    ∀ i, ¬OccursAt pattern text i := by
  induction text with
  | nil =>
    simp only [indexOf] at h
    split at h
    · cases h
    · rename_i hp
      rintro i ⟨hi, hocc⟩
      rw [List.drop_nil, List.prefix_nil] at hocc
      exact hp hocc
  | cons a text ih =>
    simp only [indexOf] at h
    split at h
    · cases h
    · rename_i hp
      rw [Option.map_eq_none_iff] at h
      intro i
      rcases i with _ | i
      · rw [occursAt_zero]
        exact hp
      · rw [occursAt_succ]
        exact ih h i

end Search

/-- A pattern that occurs lies within the text. -/
theorem OccursAt.le_length {pattern text : List α} {i : ℕ} (h : OccursAt pattern text i) :
    i + pattern.length ≤ text.length := by
  have hle := h.2.length_le
  rw [List.length_drop] at hle
  have := h.1
  omega

/-! ## Regions -/

structure Region (α : Type*) where
  start : ℕ
  length : ℕ
  text : List α

namespace Region

def stop (r : Region α) : ℕ := r.start + r.length

end Region

/-- The regions follow one another within the bounds. -/
def Consecutive : ℕ → ℕ → List (Region α) → Prop
  | lo, hi, [] => lo ≤ hi
  | lo, hi, r :: rs => lo ≤ r.start ∧ Consecutive r.stop hi rs

/-- The content from the index `lo` on, with the regions replaced. -/
def replaceRegions : ℕ → List (Region α) → List α → List α
  | _, [], content => content
  | lo, r :: rs, content =>
    content.take (r.start - lo) ++ r.text ++ replaceRegions r.stop rs (content.drop (r.stop - lo))

/-- One replacement in a buffer whose first element has the index `offset`. -/
def spliceAt (offset : ℕ) (r : Region α) (content : List α) : List α :=
  content.take (r.start - offset) ++ r.text ++ content.drop (r.stop - offset)

theorem Consecutive.le {lo hi : ℕ} {rs : List (Region α)} (h : Consecutive lo hi rs) : lo ≤ hi := by
  induction rs generalizing lo with
  | nil => exact h
  | cons r rs ih => exact h.1.trans ((Nat.le_add_right _ _).trans (ih h.2))

theorem Consecutive.forall_mem {lo hi : ℕ} {rs : List (Region α)} (h : Consecutive lo hi rs) :
    ∀ r ∈ rs, lo ≤ r.start ∧ r.stop ≤ hi := by
  induction rs generalizing lo with
  | nil => simp
  | cons r rs ih =>
    intro r' hr'
    rcases List.mem_cons.mp hr' with rfl | hr'
    · exact ⟨h.1, h.2.le⟩
    · rcases ih h.2 r' hr' with ⟨hlo, hhi⟩
      exact ⟨(h.1.trans (Nat.le_add_right _ _)).trans hlo, hhi⟩

/-- The lower bound may be moved up to the first region. -/
theorem Consecutive.of_head {lo lo' hi : ℕ} {rs : List (Region α)} (h : Consecutive lo hi rs) (hlo : lo' ≤ hi)
    (hhead : ∀ r ∈ rs.head?, lo' ≤ r.start) : Consecutive lo' hi rs := by
  cases rs with
  | nil => exact hlo
  | cons r rs => exact ⟨hhead r rfl, h.2⟩

/-- A region behind the others follows them. -/
theorem Consecutive.concat {lo hi hi' : ℕ} {rs : List (Region α)} {r : Region α} (h : Consecutive lo hi rs)
    (hr : ∀ r' ∈ rs, r'.stop ≤ r.start) (hlo : lo ≤ r.start) (hstop : r.stop ≤ hi') :
    Consecutive lo hi' (rs ++ [r]) := by
  induction rs generalizing lo with
  | nil => exact ⟨hlo, hstop⟩
  | cons r' rs ih =>
    rw [List.forall_mem_cons] at hr
    exact ⟨h.1, ih h.2 hr.2 hr.1⟩

/-- Regions that follow one another and are not empty start one after the other. -/
theorem Consecutive.pairwise_start {lo hi : ℕ} {rs : List (Region α)} (h : Consecutive lo hi rs)
    (hpos : ∀ r ∈ rs, 0 < r.length) : rs.Pairwise fun a b => a.start < b.start := by
  induction rs generalizing lo with
  | nil => exact .nil
  | cons r rs ih =>
    rw [List.forall_mem_cons] at hpos
    refine List.pairwise_cons.mpr ⟨?_, ih h.2 hpos.2⟩
    intro r' hr'
    have hstop := (h.2.forall_mem r' hr').1
    have hlt : r.start < r.stop := Nat.lt_add_of_pos_right hpos.1
    omega

/-- There is one order in which regions that are not empty can follow one another. -/
theorem Consecutive.eq_of_perm {lo hi lo' hi' : ℕ} {rs rs' : List (Region α)} (h : Consecutive lo hi rs)
    (h' : Consecutive lo' hi' rs') (hpos : ∀ r ∈ rs, 0 < r.length) (hperm : rs.Perm rs') : rs = rs' := by
  have hpos' : ∀ r ∈ rs', 0 < r.length := fun r hr => hpos r (hperm.mem_iff.mpr hr)
  refine List.Perm.eq_of_pairwise ?_ (h.pairwise_start hpos) (h'.pairwise_start hpos') hperm
  intro a b _ _ hab hba
  exact absurd (hab.trans hba) (lt_irrefl _)

/-- Replacing from the last region to the first leaves the gaps and puts the new texts between them. -/
theorem foldr_spliceAt {offset lo hi : ℕ} {rs : List (Region α)} {content : List α} (hlo : offset ≤ lo)
    (h : Consecutive lo hi rs) (hhi : hi ≤ offset + content.length) :
    rs.foldr (spliceAt offset) content
      = content.take (lo - offset) ++ replaceRegions lo rs (content.drop (lo - offset)) := by
  induction rs generalizing lo with
  | nil => simp [replaceRegions]
  | cons r rs ih =>
    have hstart : r.start ≤ r.stop := Nat.le_add_right _ _
    have hle := h.2.le
    have hlo' : lo ≤ r.start := h.1
    rw [List.foldr_cons, ih (hlo.trans (hlo'.trans hstart)) h.2]
    have hlen : (content.take (r.stop - offset)).length = r.stop - offset := by
      rw [List.length_take]
      omega
    -- up to the end of the region the buffer is still the old content
    have htake : (content.take (r.stop - offset)
        ++ replaceRegions r.stop rs (content.drop (r.stop - offset))).take (r.start - offset)
          = content.take (r.start - offset) := by
      rw [List.take_append_of_le_length (by omega), List.take_take, min_eq_left (by omega)]
    have hdrop : (content.take (r.stop - offset)
        ++ replaceRegions r.stop rs (content.drop (r.stop - offset))).drop (r.stop - offset)
          = replaceRegions r.stop rs (content.drop (r.stop - offset)) := by
      rw [List.drop_append_of_le_length (by omega), List.drop_of_length_le (by omega), List.nil_append]
    rw [spliceAt, htake, hdrop, replaceRegions, List.drop_drop,
      show lo - offset + (r.stop - lo) = r.stop - offset by omega,
      show content.take (r.start - offset) =
          content.take (lo - offset) ++ (content.drop (lo - offset)).take (r.start - lo) by
        rw [← List.take_add]
        congr 1
        omega]
    simp only [List.append_assoc]

end Phi
