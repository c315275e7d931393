import Mathlib

/-!
# Prefixes and encodings under the lexicographic order

Lists over a linear order, compared lexicographically. The lists with a given front are an interval, whose upper
end carries past elements that are greatest (`front_le_and_lt_iff`). An encoding of the elements by lists that part
from one another keeps the order (`flatMap_lt_flatMap_iff`).
-/

namespace Phi.Lexicographic

variable {α β : Type*} [LinearOrder α] [LinearOrder β]

theorem append_lt_append_left_iff (common : List α) {xs ys : List α} :
    common ++ xs < common ++ ys ↔ xs < ys := by
  induction common with
  | nil => rfl
  | cons a common ih =>
    rw [List.cons_append, List.cons_append, List.cons_lt_cons_iff]
    constructor
    · rintro (h | ⟨-, h⟩)
      · exact (lt_irrefl a h).elim
      · exact ih.mp h
    · intro h
      exact Or.inr ⟨rfl, ih.mpr h⟩

theorem append_le_append_left_iff (common : List α) {xs ys : List α} :
    common ++ xs ≤ common ++ ys ↔ xs ≤ ys := by
  rw [← not_lt, ← not_lt, append_lt_append_left_iff]

theorem cons_le_cons_iff {a b : α} {xs ys : List α} : a :: xs ≤ b :: ys ↔ a < b ∨ a = b ∧ xs ≤ ys := by
  rw [← not_lt, List.cons_lt_cons_iff, ← not_lt]
  rcases lt_trichotomy a b with h | rfl | h
  · simp [h, h.not_gt, h.ne']
  · simp
  · simp [h, h.not_gt, h.ne']

/-! ## Intervals of lists with one front -/

theorem le_of_isPrefix {front xs : List α} (h : front <+: xs) : front ≤ xs := by
  rcases h with ⟨rest, rfl⟩
  induction front with
  | nil => exact not_lt.mp (List.not_lt_nil _)
  | cons a front ih => exact (cons_le_cons_iff).mpr (Or.inr ⟨rfl, ih⟩)

/-- Nothing comes after the lists that begin with greatest elements. -/
theorem tops_le_iff {tops xs : List α} (h : ∀ a ∈ tops, ∀ b ∈ xs, b ≤ a) : tops ≤ xs ↔ tops <+: xs := by
  refine ⟨fun hle => ?_, le_of_isPrefix⟩
  induction tops generalizing xs with
  | nil => exact List.nil_prefix
  | cons a tops ih =>
    rw [List.forall_mem_cons] at h
    cases xs with
    | nil => exact (not_lt.mpr hle (List.nil_lt_cons a tops)).elim
    | cons b xs =>
      have hba : b ≤ a := h.1 b (List.mem_cons_self ..)
      rcases (cons_le_cons_iff).mp hle with hab | ⟨rfl, hrest⟩
      · exact (hab.not_ge hba).elim
      · have htail : tops <+: xs := ih (fun c hc b hb => h.2 c hc b (List.mem_cons_of_mem _ hb)) hrest
        exact List.cons_prefix_cons.mpr ⟨rfl, htail⟩

/-- The lists that begin with `front`, `a` and greatest elements lie between that and `front` with the element after
`a`. -/
theorem front_le_and_lt_iff {front tops xs : List α} {a next : α} (htops : ∀ t ∈ tops, ∀ b ∈ xs, b ≤ t)
    (hnext : ∀ b ∈ xs, b < next ↔ b ≤ a) (ha : a < next) :
    front ++ a :: tops ≤ xs ∧ xs < front ++ [next] ↔ front ++ a :: tops <+: xs := by
  constructor
  · rintro ⟨hle, hlt⟩
    induction front generalizing xs with
    | nil =>
      cases xs with
      | nil => exact (not_lt.mpr hle (List.nil_lt_cons a tops)).elim
      | cons b xs =>
        have hb : b < next := by
          rcases List.cons_lt_cons_iff.mp hlt with h | ⟨-, h⟩
          · exact h
          · exact (List.not_lt_nil _ h).elim
        have hba : b ≤ a := (hnext b (List.mem_cons_self ..)).mp hb
        rcases (cons_le_cons_iff).mp hle with hab | ⟨rfl, hrest⟩
        · exact (hab.not_ge hba).elim
        · have htail := (tops_le_iff fun t ht b hb => htops t ht b (List.mem_cons_of_mem _ hb)).mp hrest
          exact List.cons_prefix_cons.mpr ⟨rfl, htail⟩
    | cons c front ih =>
      cases xs with
      | nil => exact (not_lt.mpr hle (List.nil_lt_cons _ _)).elim
      | cons b xs =>
        -- both ends begin with `c`, and so does what lies between them
        rcases (cons_le_cons_iff).mp hle with hcb | ⟨rfl, hle'⟩
        · rcases List.cons_lt_cons_iff.mp hlt with hbc | ⟨rfl, -⟩
          · exact (lt_asymm hcb hbc).elim
          · exact (lt_irrefl _ hcb).elim
        · have hlt' : xs < front ++ [next] := by
            rcases List.cons_lt_cons_iff.mp hlt with h | ⟨-, h⟩
            · exact (lt_irrefl _ h).elim
            · exact h
          have htail := ih (fun t ht b hb => htops t ht b (List.mem_cons_of_mem _ hb))
            (fun b hb => hnext b (List.mem_cons_of_mem _ hb)) hle' hlt'
          exact List.cons_prefix_cons.mpr ⟨rfl, htail⟩
  · intro h
    refine ⟨le_of_isPrefix h, ?_⟩
    rcases h with ⟨rest, rfl⟩
    rw [List.append_assoc, append_lt_append_left_iff, List.cons_append, List.cons_lt_cons_iff]
    exact Or.inl ha

/-! ## Encodings that keep the order -/

/-- The lists differ at a place that both reach, and there the first is less. -/
def Parts (xs ys : List β) : Prop := ∃ common x y xs' ys', xs = common ++ x :: xs' ∧ ys = common ++ y :: ys' ∧ x < y

theorem Parts.head {x y : β} (h : x < y) (xs ys : List β) : Parts (x :: xs) (y :: ys) := ⟨[], x, y, xs, ys, rfl, rfl, h⟩

theorem Parts.cons {xs ys : List β} (h : Parts xs ys) (x : β) : Parts (x :: xs) (x :: ys) := by
  rcases h with ⟨common, y, z, xs', ys', rfl, rfl, hlt⟩
  exact ⟨x :: common, y, z, xs', ys', rfl, rfl, hlt⟩

theorem Parts.append_lt {xs ys : List β} (h : Parts xs ys) (s t : List β) : xs ++ s < ys ++ t := by
  rcases h with ⟨common, x, y, xs', ys', rfl, rfl, hlt⟩
  rw [List.append_assoc, List.append_assoc, append_lt_append_left_iff, List.cons_append, List.cons_append,
    List.cons_lt_cons_iff]
  exact Or.inl hlt

/-- Lists are ordered as the lists of what encodes their elements. -/
theorem flatMap_lt_flatMap_iff {enc : α → List β} {P : α → Prop} (hne : ∀ a, P a → enc a ≠ [])
    (hparts : ∀ a b, P a → P b → a < b → Parts (enc a) (enc b)) {xs ys : List α} (hxs : ∀ a ∈ xs, P a)
    (hys : ∀ a ∈ ys, P a) : xs.flatMap enc < ys.flatMap enc ↔ xs < ys := by
  induction xs generalizing ys with
  | nil =>
    cases ys with
    | nil => exact ⟨fun h => (List.not_lt_nil _ h).elim, fun h => (List.not_lt_nil _ h).elim⟩
    | cons b ys =>
      rcases List.exists_cons_of_ne_nil (hne b (hys b (List.mem_cons_self ..))) with ⟨c, cs, hc⟩
      rw [List.flatMap_cons, hc]
      exact ⟨fun _ => List.nil_lt_cons _ _, fun _ => List.nil_lt_cons _ _⟩
  | cons a xs ih =>
    cases ys with
    | nil => exact ⟨fun h => (List.not_lt_nil _ h).elim, fun h => (List.not_lt_nil _ h).elim⟩
    | cons b ys =>
      rw [List.forall_mem_cons] at hxs hys
      rw [List.flatMap_cons, List.flatMap_cons, List.cons_lt_cons_iff]
      rcases lt_trichotomy a b with hlt | rfl | hgt
      · exact ⟨fun _ => Or.inl hlt, fun _ => (hparts a b hxs.1 hys.1 hlt).append_lt _ _⟩
      · rw [append_lt_append_left_iff, ih hxs.2 hys.2]
        simp
      · constructor
        · intro h
          exact (lt_asymm h ((hparts b a hys.1 hxs.1 hgt).append_lt _ _)).elim
        · rintro (h | ⟨rfl, -⟩)
          · exact (lt_asymm h hgt).elim
          · exact (lt_irrefl _ hgt).elim

end Phi.Lexicographic
