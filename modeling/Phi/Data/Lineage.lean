import Mathlib

/-!
# Lines of ancestors

A forest of nodes is given by a partial map from keys to nodes and by the key of each node's parent.
`Lineage find parent x path` says that `path` is the line from `x` up to a root: `x` first, then its parent,
and so on. Lines are unique, survive the growth of the forest, and exist from every node when the parent of a
node is there and has a smaller rank.
-/

namespace Phi

variable {K N : Type*}

/-- `path` is the line of ancestors of `x`, from `x` itself up to a root. -/
inductive Lineage (find : K → Option N) (parent : N → Option K) : N → List N → Prop where
  | root {x : N} (h : parent x = none) : Lineage find parent x [x]
  | step {x y : N} {k : K} {path : List N} (h : parent x = some k) (hk : find k = some y)
      (hy : Lineage find parent y path) : Lineage find parent x (x :: path)

namespace Lineage

variable {find find' : K → Option N} {parent : N → Option K} {x : N} {path : List N}

theorem head (h : Lineage find parent x path) : ∃ rest, path = x :: rest := by
  cases h with
  | root => exact ⟨[], rfl⟩
  | step => exact ⟨_, rfl⟩

theorem unique (h : Lineage find parent x path) {path' : List N} (h' : Lineage find parent x path') :
    path = path' := by
  induction h generalizing path' with
  | root hx =>
    cases h' with
    | root => rfl
    | step hx' => rw [hx] at hx'; cases hx'
  | step hx hk _ ih =>
    cases h' with
    | root hx' => rw [hx] at hx'; cases hx'
    | step hx' hk' hy' =>
      rw [hx] at hx'
      cases hx'
      rw [hk] at hk'
      cases hk'
      rw [ih hy']

/-- A line stays one when nodes are added. -/
theorem mono (h : Lineage find parent x path) (hle : ∀ k y, find k = some y → find' k = some y) :
    Lineage find' parent x path := by
  induction h with
  | root hx => exact .root hx
  | step hx hk _ ih => exact .step hx (hle _ _ hk) ih

/-- The line of a node on a line is the rest of it. -/
theorem exists_append (h : Lineage find parent x path) {y : N} (hy : y ∈ path) :
    ∃ below above, path = below ++ above ∧ Lineage find parent y above := by
  induction h with
  | root hx =>
    rw [List.mem_singleton] at hy
    subst hy
    exact ⟨[], _, rfl, .root hx⟩
  | step hx hk hl ih =>
    rcases List.mem_cons.mp hy with rfl | hy
    · exact ⟨[], _, rfl, .step hx hk hl⟩
    · rcases ih hy with ⟨below, above, rfl, habove⟩
      exact ⟨_ :: below, above, rfl, habove⟩

/-- The last node of a line is a root. -/
theorem parent_getLast (h : Lineage find parent x path) {y : N} (hy : y ∈ path.getLast?) :
    parent y = none := by
  induction h with
  | root hx =>
    rw [List.getLast?_singleton, Option.mem_some_iff] at hy
    rw [← hy, hx]
  | step _ _ hl ih =>
    rcases hl.head with ⟨rest, rfl⟩
    rw [List.getLast?_cons_cons] at hy
    exact ih hy

section Rank

variable (rank : N → ℕ) (Known : N → Prop)

/-- Every node has a line when the parent of a known node is known and of smaller rank. -/
theorem exists_of_rank
    (hup : ∀ x k, Known x → parent x = some k → ∃ y, find k = some y ∧ Known y ∧ rank y < rank x)
    (hx : Known x) : ∃ path, Lineage find parent x path := by
  induction hn : rank x using Nat.strong_induction_on generalizing x with
  | _ n ih =>
    cases hp : parent x with
    | none => exact ⟨[x], .root hp⟩
    | some k =>
      rcases hup x k hx hp with ⟨y, hk, hy, hlt⟩
      rcases ih (rank y) (hn ▸ hlt) hy rfl with ⟨path, hl⟩
      exact ⟨x :: path, .step hp hk hl⟩

/-- What holds of a node and passes to parents holds of every node of its line. -/
theorem forall_mem (hup : ∀ x y k, Known x → parent x = some k → find k = some y → Known y)
    (h : Lineage find parent x path) (hx : Known x) : ∀ y ∈ path, Known y := by
  induction h with
  | root =>
    intro y hy
    rw [List.mem_singleton.mp hy]
    exact hx
  | step hp hk _ ih =>
    intro y hy
    rcases List.mem_cons.mp hy with rfl | hy
    · exact hx
    · exact ih (hup _ _ _ hx hp hk) y hy

/-- Ranks fall along a line. -/
theorem pairwise_rank
    (hup : ∀ x y k, Known x → parent x = some k → find k = some y → Known y ∧ rank y < rank x)
    (h : Lineage find parent x path) (hx : Known x) :
    path.Pairwise fun y z => rank z < rank y := by
  induction h with
  | root => exact List.pairwise_singleton _ _
  | step hp hk hl ih =>
    rcases hup _ _ _ hx hp hk with ⟨hy, hlt⟩
    refine List.pairwise_cons.mpr ⟨?_, ih hy⟩
    rcases hl.head with ⟨rest, rfl⟩
    intro z hz
    rcases List.mem_cons.mp hz with rfl | hz
    · exact hlt
    · exact lt_trans ((List.pairwise_cons.mp (ih hy)).1 z hz) hlt

end Rank

end Lineage

end Phi
