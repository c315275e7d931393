import Mathlib

/-!
# Climbing and listing

`next` leads from a node to its parent and `children` to the nodes below it. Neither promises a tree: there may be
cycles, and a node may stand below two others. `climb` follows `next` to its end. `sortAll` goes through a stack of
nodes, sorts the children of each and puts them on the stack. Both are given a number of rounds; with enough of them
they end from exactly the nodes that are accessible.

`Listed children roots l` says that `l` lists the nodes that are seen when the nodes below `roots` are written out, as
often as they are seen.
-/

namespace Phi

variable {N : Type*}

/-- A relation without cycles on a finite type has no endless path. -/
theorem wellFounded_of_acyclic [Finite N] {r : N → N → Prop} (h : ∀ x, ¬Relation.TransGen r x x) : WellFounded r := by
  have : IsTrans N (Relation.TransGen r) := ⟨fun _ _ _ => Relation.TransGen.trans⟩
  have : Std.Irrefl (Relation.TransGen r) := ⟨h⟩
  exact Subrelation.wf Relation.TransGen.single (Finite.wellFounded_of_trans_of_irrefl (Relation.TransGen r))

/-- An accessible node is on no cycle. -/
theorem not_transGen_of_acc {r : N → N → Prop} {x : N} (h : Acc r x) : ¬Relation.TransGen r x x := by
  have htrans := h.transGen
  induction htrans with
  | intro x _ ih => exact fun hx => ih x hx (h.inv_of_transGen hx) hx

/-! ## Climbing -/

section
variable (next : N → Option N)

/-- The nodes from a first one to one that has no next. -/
def climb : ℕ → Option N → Option (List N)
  | _, none => some []
  | 0, some _ => none
  | n + 1, some x => (climb n (next x)).map (x :: ·)

theorem climb_none (n : ℕ) : climb next n none = some [] := by
  cases n <;> rfl

variable {next}

/-- A climb ends from the nodes that are accessible. -/
theorem exists_climb_iff {x : N} :
    (∃ n path, climb next n (some x) = some path) ↔ Acc (fun y x => next x = some y) x := by
  constructor
  · rintro ⟨n, path, h⟩
    induction n generalizing x path with
    | zero => cases h
    | succ n ih =>
      obtain ⟨rest, hrest, -⟩ := Option.map_eq_some_iff.mp h
      refine Acc.intro x fun y hy => ?_
      rw [hy] at hrest
      exact ih rest hrest
  · intro h
    induction h with
    | intro x _ ih =>
      cases hx : next x with
      | none => exact ⟨1, [x], by rw [climb, hx, climb_none, Option.map_some]⟩
      | some y =>
        obtain ⟨n, path, hpath⟩ := ih y hx
        exact ⟨n + 1, x :: path, by rw [climb, hx, hpath, Option.map_some]⟩

end

/-! ## Sorting all children -/

section
variable [DecidableEq N] (sort : List N → List N)

/-- The children when a stack, its top first, has been worked through. -/
def sortAll : ℕ → List N → (N → List N) → Option (N → List N)
  | _, [], children => some children
  | 0, _ :: _, _ => none
  | n + 1, x :: stack, children =>
    sortAll n ((sort (children x)).reverse ++ stack) (Function.update children x (sort (children x)))

/-- The same children everywhere, in some order. -/
def SameChildren (children children' : N → List N) : Prop := ∀ x, (children' x).Perm (children x)

variable {sort} {children : N → List N}

theorem sameChildren_update (hsort : ∀ l, (sort l).Perm l) {children' : N → List N}
    (h : SameChildren children children') (x : N) :
    SameChildren children (Function.update children' x (sort (children' x))) := by
  intro y
  by_cases hy : y = x
  · subst hy
    rw [Function.update_self]
    exact (hsort _).trans (h y)
  · rw [Function.update_of_ne hy]
    exact h y

/-- What is worked through is accessible, and has the children it had. -/
theorem sortAll_sound (hsort : ∀ l, (sort l).Perm l) {n : ℕ} {stack : List N} {start result : N → List N}
    (hstart : SameChildren children start) (h : sortAll sort n stack start = some result) :
    SameChildren children result ∧ ∀ x ∈ stack, Acc (fun y x => y ∈ children x) x := by
  induction n generalizing stack start with
  | zero =>
    cases stack with
    | nil =>
      cases h
      exact ⟨hstart, fun x hx => absurd hx List.not_mem_nil⟩
    | cons => cases h
  | succ n ih =>
    cases stack with
    | nil =>
      cases h
      exact ⟨hstart, fun x hx => absurd hx List.not_mem_nil⟩
    | cons x stack =>
      obtain ⟨hresult, hacc⟩ := ih (sameChildren_update hsort hstart x) h
      refine ⟨hresult, fun y hy => ?_⟩
      rcases List.mem_cons.mp hy with rfl | hy
      · refine Acc.intro y fun z hz => hacc z (List.mem_append_left _ (List.mem_reverse.mpr ?_))
        exact (hsort _).mem_iff.mpr ((hstart y).mem_iff.mpr hz)
      · exact hacc y (List.mem_append_right _ hy)

/-- Nodes on top of the stack are worked through, and nothing below them is touched before. -/
def Clears (sort : List N → List N) (children : N → List N) (xs : List N) : Prop :=
  ∀ start, SameChildren children start → ∃ k result, SameChildren children result ∧
    ∀ n stack, sortAll sort (n + k) (xs ++ stack) start = sortAll sort n stack result

theorem clears_of_forall {xs : List N} (h : ∀ x ∈ xs, Clears sort children [x]) : Clears sort children xs := by
  induction xs with
  | nil => exact fun start hstart => ⟨0, start, hstart, fun _ _ => rfl⟩
  | cons x xs ih =>
    intro start hstart
    obtain ⟨k, middle, hmiddle, hk⟩ := h x List.mem_cons_self start hstart
    obtain ⟨m, result, hresult, hm⟩ := ih (fun y hy => h y (List.mem_cons_of_mem x hy)) middle hmiddle
    refine ⟨m + k, result, hresult, fun n stack => ?_⟩
    rw [← Nat.add_assoc, ← hm n stack]
    exact hk (n + m) (xs ++ stack)

theorem clears_of_acc (hsort : ∀ l, (sort l).Perm l) {x : N} (h : Acc (fun y x => y ∈ children x) x) :
    Clears sort children [x] := by
  induction h with
  | intro x _ ih =>
    intro start hstart
    have hbelow : Clears sort children (sort (start x)).reverse := by
      refine clears_of_forall fun y hy => ih y ?_
      exact (hstart x).mem_iff.mp ((hsort _).mem_iff.mp (List.mem_reverse.mp hy))
    obtain ⟨k, result, hresult, hk⟩ := hbelow _ (sameChildren_update hsort hstart x)
    exact ⟨k + 1, result, hresult, fun n stack => hk n stack⟩

/-- A stack of accessible nodes is worked through. -/
theorem exists_sortAll (hsort : ∀ l, (sort l).Perm l) {stack : List N}
    (h : ∀ x ∈ stack, Acc (fun y x => y ∈ children x) x) :
    ∃ n result, sortAll sort n stack children = some result ∧ SameChildren children result := by
  obtain ⟨k, result, hresult, hk⟩ :=
    clears_of_forall (fun x hx => clears_of_acc hsort (h x hx)) children fun x => List.Perm.refl (children x)
  refine ⟨0 + k, result, ?_, hresult⟩
  rw [← List.append_nil stack, hk 0 [], sortAll]

end

/-! ## Listing -/

/-- The nodes below a list of roots, each followed by those below it. -/
inductive Listed (children : N → List N) : List N → List N → Prop where
  | nil : Listed children [] []
  | cons {x : N} {rest below after : List N} (hbelow : Listed children (children x) below)
      (hrest : Listed children rest after) : Listed children (x :: rest) (x :: (below ++ after))

namespace Listed

variable {children : N → List N} {roots l : List N}

theorem append {roots' l' : List N} (h : Listed children roots l) (h' : Listed children roots' l') :
    Listed children (roots ++ roots') (l ++ l') := by
  induction h with
  | nil => exact h'
  | cons hbelow _ _ ih =>
    have hlist := Listed.cons hbelow ih
    rwa [← List.append_assoc] at hlist

/-- What is listed is a root, or a child of what is listed. -/
theorem perm (h : Listed children roots l) : l.Perm (roots ++ l.flatMap children) := by
  induction h with
  | nil => exact List.Perm.refl []
  | @cons x rest below after _ _ ihbelow ihrest =>
    rw [List.flatMap_cons, List.flatMap_append, List.cons_append]
    refine List.Perm.cons x ?_
    refine (ihbelow.append ihrest).trans ?_
    classical
    refine List.perm_iff_count.mpr fun y => ?_
    simp only [List.count_append]
    omega

theorem mem_of_mem_roots (h : Listed children roots l) {x : N} (hx : x ∈ roots) : x ∈ l :=
  h.perm.mem_iff.mpr (List.mem_append_left _ hx)

/-- What is listed is accessible. -/
theorem acc (h : Listed children roots l) : ∀ x ∈ l, Acc (fun y x => y ∈ children x) x := by
  induction h with
  | nil => exact fun x hx => absurd hx List.not_mem_nil
  | cons hbelow _ ihbelow ihrest =>
    intro y hy
    rcases List.mem_cons.mp hy with rfl | hy
    · exact Acc.intro y fun z hz => ihbelow z (hbelow.mem_of_mem_roots hz)
    · rcases List.mem_append.mp hy with hy | hy
      · exact ihbelow y hy
      · exact ihrest y hy

/-- Accessible roots have a list. -/
theorem exists_of_acc (h : ∀ x ∈ roots, Acc (fun y x => y ∈ children x) x) : ∃ l, Listed children roots l := by
  have hone : ∀ x, Acc (fun y x => y ∈ children x) x → ∃ l, Listed children [x] l := by
    intro x hx
    induction hx with
    | intro x _ ih =>
      have hbelow : ∀ xs : List N, (∀ y ∈ xs, y ∈ children x) → ∃ l, Listed children xs l := by
        intro xs hxs
        induction xs with
        | nil => exact ⟨[], nil⟩
        | cons y xs ihxs =>
          obtain ⟨l, hl⟩ := ih y (hxs y List.mem_cons_self)
          obtain ⟨l', hl'⟩ := ihxs fun z hz => hxs z (List.mem_cons_of_mem y hz)
          exact ⟨l ++ l', hl.append hl'⟩
      obtain ⟨below, hbelow⟩ := hbelow (children x) fun _ hy => hy
      exact ⟨_, cons hbelow nil⟩
  induction roots with
  | nil => exact ⟨[], nil⟩
  | cons x roots ih =>
    obtain ⟨l, hl⟩ := hone x (h x List.mem_cons_self)
    obtain ⟨l', hl'⟩ := ih fun y hy => h y (List.mem_cons_of_mem x hy)
    exact ⟨l ++ l', hl.append hl'⟩

/-! ### Children that name their parent -/

section
variable [DecidableEq N] {parent : N → Option N} {nodes : List N}

/-- The nodes of a duplicate-free list with one parent, counted. -/
theorem count_filter (hnodes : nodes.Nodup) (hall : ∀ x, x ∈ nodes) (p : Option N) (y : N) :
    (nodes.filter fun x => parent x = p).count y = if parent y = p then 1 else 0 := by
  split_ifs with hy
  · exact List.count_eq_one_of_mem (hnodes.filter _) (List.mem_filter.mpr ⟨hall y, decide_eq_true hy⟩)
  · exact List.count_eq_zero_of_not_mem fun hmem => hy (of_decide_eq_true (List.mem_filter.mp hmem).2)

theorem sum_map_some (p : N) (l : List N) : (l.map fun x => if some p = some x then 1 else 0).sum = l.count p := by
  induction l with
  | nil => rfl
  | cons x l ih =>
    rw [List.map_cons, List.sum_cons, ih, List.count_cons, Nat.add_comm]
    simp only [Option.some.injEq, beq_iff_eq, @eq_comm N x p]

/-- When no line of parents is endless, every node is listed once. -/
theorem perm_nodes (h : Listed children roots l) (hnodes : nodes.Nodup) (hall : ∀ x, x ∈ nodes)
    (hroots : roots.Perm (nodes.filter fun y => parent y = none))
    (hchildren : ∀ x, (children x).Perm (nodes.filter fun y => parent y = some x))
    (hwf : WellFounded fun p y => parent y = some p) : l.Perm nodes := by
  have hcount : ∀ y, l.count y = (if parent y = none then 1 else 0) +
      (l.map fun x => if parent y = some x then 1 else 0).sum := by
    intro y
    rw [h.perm.count_eq, List.count_append, hroots.count_eq, count_filter hnodes hall, List.count_flatMap]
    congr 2
    refine List.map_congr_left fun x _ => ?_
    rw [Function.comp_apply, (hchildren x).count_eq, count_filter hnodes hall]
  have hone : ∀ y, l.count y = 1 := by
    intro y
    induction y using hwf.induction with
    | h y ih =>
      rw [hcount y]
      cases hp : parent y with
      | none => simp
      | some p =>
        rw [if_neg (Option.some_ne_none p), Nat.zero_add, sum_map_some]
        exact ih p hp
  refine List.perm_iff_count.mpr fun y => ?_
  rw [hone y, List.count_eq_one_of_mem hnodes (hall y)]

end

end Listed

end Phi
