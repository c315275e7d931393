import Phi.Delta.Apply

/-!
# Application without mutation

Model of `applyImmutable` of `packages/chord/src/delta/index.ts`. Before each op the containers on the
way to its target are copied, and the copies are mutated. A copy is equal to what it copies, so as
values `applyImmutable` gives what `apply` gives (`applyImmutable_of_apply`); what it adds is a second
walk of the path, with checks of its own.
-/

namespace Phi.Delta

open Json

/-- `copyContainers(root, path)`: every container on the path, its end included, replaced by a copy. -/
def copyContainers (whole : Path) : Option Json → Path → Except DeltaError Json
  | none, _ => .error (.pathError whole)
  | some node, [] => if node.isObj then .ok node else .error (.pathError whole)
  | some node, seg :: path =>
    if node.isObj = false ∨ ownValue node seg = none then .error (.pathError whole)
    else
      match node, seg with
      | .array _, .key _ => .error (.unsafePathError seg)
      | _, _ => do
        let copiedChild ← copyContainers whole (node.child (propertySeg node seg)) path
        return node.putChild (propertySeg node seg) (some copiedChild)

/-- The path of the containers an op changes. -/
def Op.containerPath : Op → Path
  | .r _ => []
  | .p path _ _ _ => path
  | .s path _ | .d path | .a path _ | .t path _ => path.dropLast

/-- One op on a value that must not change. -/
def applyOpImmutable (root : Option Json) (op : Op) : Except DeltaError (Option Json) :=
  match op with
  | .r value => do
    assertValidOp op
    return some value
  | _ => do
    let copied ← copyContainers op.containerPath root op.containerPath
    apply (some copied) [op]

/-- `applyImmutable(target, ops)`. -/
def applyImmutable (target : Option Json) (ops : List Op) : Except DeltaError (Option Json) :=
  ops.foldlM applyOpImmutable target

/-! ## The copies are equal -/

/-- Where an update finds its way, the copies succeed and change nothing. -/
theorem copyContainers_of_updateAt {whole whole' : Path} {f : Json → Except DeltaError Json}
    {x : Option Json} {path : Path} {r : Json} (h : updateAt whole f x path = .ok r) :
    ∃ node, x = some node ∧ copyContainers whole' x path = .ok node := by
  induction path generalizing x r with
  | nil =>
    cases x with
    | none => simp [updateAt] at h
    | some node =>
      rw [updateAt] at h
      split at h
      · next hobj => exact ⟨node, rfl, by rw [copyContainers, if_pos hobj]⟩
      · cases h
  | cons seg path ih =>
    cases x with
    | none => simp [updateAt] at h
    | some node =>
      refine ⟨node, rfl, ?_⟩
      rw [updateAt.eq_def] at h
      simp only at h
      split at h
      · cases h
      next hobj =>
      -- the two cases of the match: an array under a name, which throws, and the rest
      split at h
      · cases h
      next hkey =>
      split at h
      · cases h
      next c hc =>
      obtain ⟨c', hc', -⟩ := bind_eq_ok.mp h
      obtain ⟨d, hd, hcopy⟩ := ih hc'
      obtain rfl : c = d := Option.some.inj hd
      have hown : ownValue node seg = some c := by
        cases node <;> cases seg <;> first
          | exact absurd rfl (hkey _ _ rfl)
          | exact hc
      rw [copyContainers.eq_def]
      simp only [hown, reduceCtorEq, or_false, if_neg hobj]
      rw [hc, hcopy, ok_bind, ← hc, putChild_child]
      cases node <;> cases seg <;> first
        | exact absurd rfl (hkey _ _ rfl)
        | rfl

/-- An op that applies also applies to the copies. -/
theorem applyOpImmutable_of_applyOp {x y : Option Json} {op : Op} (h : applyOp x op = .ok y) :
    applyOpImmutable x op = .ok y := by
  have happly : ∀ z : Option Json, apply z [op] = applyOp z op := fun z => by simp [apply]
  -- every op but a replacement is an update at its container path
  have hcopy : ∀ {whole path : Path} {f : Json → Except DeltaError Json} {r : Json},
      updateAt whole f x path = .ok r → ∃ node, x = some node ∧
        copyContainers path x path = .ok node := fun hr => copyContainers_of_updateAt hr
  have hcase := h
  rw [applyOp.eq_def] at hcase
  obtain ⟨_, hvalid, hcase⟩ := bind_eq_ok.mp hcase
  cases op with
  | r value =>
    simp only [applyOpImmutable, hvalid, ok_bind]
    exact hcase
  | p path index remove items =>
    obtain ⟨r, hr, -⟩ := bind_eq_ok.mp hcase
    obtain ⟨node, rfl, hok⟩ := hcopy hr
    simp only [applyOpImmutable, Op.containerPath, hok, ok_bind, happly, h]
  | s path _ | d path | a path _ | t path _ =>
    simp only at hcase
    split at hcase
    · cases hcase
    obtain ⟨r, hr, -⟩ := bind_eq_ok.mp hcase
    obtain ⟨node, rfl, hok⟩ := hcopy hr
    simp only [applyOpImmutable, Op.containerPath, hok, ok_bind, happly, h]

/-- **Where `apply` succeeds, `applyImmutable` gives the same value.** -/
theorem applyImmutable_of_apply {x y : Option Json} {ops : List Op} (h : apply x ops = .ok y) :
    applyImmutable x ops = .ok y := by
  induction ops generalizing x with
  | nil => exact h
  | cons op ops ih =>
    rw [apply, List.foldlM_cons] at h
    obtain ⟨z, hz, hrest⟩ := bind_eq_ok.mp h
    rw [applyImmutable, List.foldlM_cons, applyOpImmutable_of_applyOp hz, ok_bind]
    exact ih hrest

/-! ## The copies change nothing -/

theorem eq_of_copyContainers {whole : Path} {x : Option Json} {path : Path} {r : Json}
    (h : copyContainers whole x path = .ok r) : x = some r := by
  induction path generalizing x r with
  | nil =>
    cases x with
    | none => cases h
    | some node =>
      rw [copyContainers] at h
      split at h
      · exact congrArg some (Except.ok.inj h)
      · cases h
  | cons seg path ih =>
    cases x with
    | none => cases h
    | some node =>
      rw [copyContainers.eq_def] at h
      simp only at h
      split at h
      · cases h
      split at h
      · cases h
      obtain ⟨c, hc, hr⟩ := bind_eq_ok.mp h
      rw [← ih hc, putChild_child] at hr
      exact congrArg some (Except.ok.inj hr)

/-- An op that applies to the copies applies. -/
theorem applyOp_of_applyOpImmutable {x y : Option Json} {op : Op} (h : applyOpImmutable x op = .ok y) :
    applyOp x op = .ok y := by
  have happly : ∀ z : Option Json, apply z [op] = applyOp z op := fun z => by simp [apply]
  cases op with
  | r value => exact h
  | _ =>
    obtain ⟨copied, hcopied, h⟩ := bind_eq_ok.mp h
    rwa [← eq_of_copyContainers hcopied, happly] at h

/-- **`applyImmutable` and `apply` give the same values.** -/
theorem applyImmutable_eq_ok {x y : Option Json} {ops : List Op} :
    applyImmutable x ops = .ok y ↔ apply x ops = .ok y := by
  refine ⟨fun h => ?_, applyImmutable_of_apply⟩
  induction ops generalizing x with
  | nil => exact h
  | cons op ops ih =>
    rw [applyImmutable, List.foldlM_cons] at h
    obtain ⟨z, hz, hrest⟩ := bind_eq_ok.mp h
    rw [apply, List.foldlM_cons, applyOp_of_applyOpImmutable hz, ok_bind]
    exact ih hrest

end Phi.Delta
