import Phi.Data.Except
import Phi.Data.JsonText

/-!
# Delta ops and their application

Model of the op vocabulary, `assertValidOp` and `apply` of `packages/chord/src/delta/index.ts`. An `Op`
is the decoded tuple; a tuple of another arity or payload shape is no value of this type, so what is
left of `assertValidOp` is its checks on the path.

The source mutates the value in place. Here a container that is mutated is rebuilt along the path that
led to it, which is the same for a value that is a tree: no container of it stands at two places.
-/

namespace Phi.Delta

inductive Op where
  | r (value : Json)
  | s (path : Path) (value : Json)
  | d (path : Path)
  | a (path : Path) (text : JsString)
  | t (path : Path) (count : ℕ)
  | p (path : Path) (index remove : ℕ) (items : List Json)

/-- What the delta functions throw. -/
inductive DeltaError where
  | typeError (message : String)
  | rangeError (message : String)
  | unsafePathError (segment : Seg)
  | pathError (path : Path)
  | pathIdError (id : ℕ)

/-- A batch begins with a replacement. -/
def isBase : List Op → Bool
  | .r _ :: _ => true
  | _ => false

/-! ## Path safety -/

/-- Segments that reach the prototype chain. -/
def RESERVED_SEGMENTS : List JsString :=
  [JsString.ofAscii "__proto__", JsString.ofAscii "constructor", JsString.ofAscii "prototype"]

/-- A segment no write is refused for. -/
def Seg.isSafe : Seg → Bool
  | .key k => !RESERVED_SEGMENTS.contains k
  | .index _ => true

def assertSafePath : Path → Except DeltaError Unit
  | [] => .ok ()
  | seg :: path => if Seg.isSafe seg then assertSafePath path else .error (.unsafePathError seg)

def assertPathArg (path : Path) (nonEmpty : Bool) : Except DeltaError Unit :=
  if nonEmpty ∧ path = [] then .error (.typeError "path is empty") else assertSafePath path

def assertValidOp : Op → Except DeltaError Unit
  | .r _ => .ok ()
  | .s path _ => assertPathArg path true
  | .d path => assertPathArg path true
  | .a path _ => assertPathArg path true
  | .t path _ => assertPathArg path true
  | .p path _ _ _ => assertPathArg path false

/-! ## Arrays -/

/-- `Array.prototype.splice(index, remove, ...items)` on its clamped range. -/
def splice {α : Type} (xs : List α) (index remove : ℕ) (items : List α) : List α :=
  xs.take index ++ items ++ xs.drop (index + remove)

def chunkSize : ℕ := 10000

/-- Insert `items` at `index` a chunk at a time, as a call with that many arguments would not do. -/
def insertChunks {α : Type} (xs : List α) (index : ℕ) (items : List α) : ℕ → List α
  | 0 => xs
  | n + 1 =>
    splice (insertChunks xs index items n) (index + n * chunkSize) 0
      ((items.drop (n * chunkSize)).take chunkSize)

/-- Remove, then insert in chunks. -/
def spliceItems {α : Type} (xs : List α) (index remove : ℕ) (items : List α) : List α :=
  insertChunks (splice xs index remove []) index items ((items.length + chunkSize - 1) / chunkSize)

/-- After `n` chunks the first `n * chunkSize` items stand at `index`. -/
theorem insertChunks_eq {α : Type} (xs : List α) {index : ℕ} (h : index ≤ xs.length)
    (items : List α) (n : ℕ) :
    insertChunks xs index items n = splice xs index 0 (items.take (n * chunkSize)) := by
  induction n with
  | zero => simp [insertChunks, splice]
  | succ n ih =>
    have hlen : (xs.take index).length = index := by simp [h]
    simp only [insertChunks, ih, splice, Nat.add_zero]
    by_cases hn : n * chunkSize ≤ items.length
    · have hpre : (xs.take index ++ items.take (n * chunkSize)).length = index + n * chunkSize := by
        simp [hn, h]
      rw [← hpre, List.take_left, List.drop_left, List.append_assoc
        (xs.take index), ← List.take_add, Nat.succ_mul]
    · have hall : items.length ≤ n * chunkSize := by omega
      have hdrop : items.drop (n * chunkSize) = [] := List.drop_eq_nil_of_le hall
      have hmore : items.length ≤ (n + 1) * chunkSize := by
        rw [Nat.succ_mul]; omega
      rw [hdrop, List.take_nil, List.append_nil, List.take_append_drop,
        List.take_of_length_le hall, List.take_of_length_le hmore]

/-- Chunked insertion is one splice. -/
theorem spliceItems_eq {α : Type} (xs : List α) {index : ℕ} (h : index ≤ xs.length) (remove : ℕ)
    (items : List α) : spliceItems xs index remove items = splice xs index remove items := by
  have hle : index ≤ (splice xs index remove []).length := by simp [splice]; omega
  have hall : items.length ≤ (items.length + chunkSize - 1) / chunkSize * chunkSize := by
    simp only [chunkSize]; omega
  have hlen : (xs.take index).length = index := by simp [h]
  rw [spliceItems, insertChunks_eq _ hle, List.take_of_length_le hall]
  simp only [splice, List.append_nil, Nat.add_zero]
  rw [List.take_append_of_le_length (by simp [h]), List.take_take, Nat.min_self,
    List.drop_append_of_le_length (by simp [h]), List.drop_of_length_le (by simp), List.nil_append]

/-! ## Own properties -/

/-- The slot of `node` that a segment names as a property key. -/
def propertySeg : Json → Seg → Seg
  | .object _, .index n => .key (numberText n)
  | _, seg => seg

/-- `ownValue(value, segment)`; `none` is `MISSING`. -/
def ownValue : Json → Seg → Option Json
  | .array xs, .key k =>
    if k = JsString.ofAscii "length" then some (.number xs.length)
    else (JsObject.arrayIndex? k).bind (xs[·]?)
  | node, seg => node.child (propertySeg node seg)

/-! ## Application -/

/-- Follow `path` as `resolveValue` does and replace the container it ends at by its image under `f`;
`whole` is the path the caller resolves, which the errors carry. -/
def updateAt (whole : Path) (f : Json → Except DeltaError Json) :
    Option Json → Path → Except DeltaError Json
  | some node, [] => if node.isObj then f node else .error (.pathError whole)
  | none, [] => .error (.pathError whole)
  | none, _ :: _ => .error (.pathError whole)
  | some node, seg :: path =>
    if node.isObj = false then .error (.pathError whole)
    else
      match node, seg with
      | .array _, .key _ => .error (.unsafePathError seg)
      | _, _ =>
        match node.child (propertySeg node seg) with
        | none => .error (.pathError whole)
        | some c => do
          let c' ← updateAt whole f (some c) path
          return node.putChild (propertySeg node seg) (some c')

/-- `Object.defineProperty(parent, key, { value })` after the index check: an element of an array, or
the one past its end, or any member of an object. -/
def write (parent : Json) (key : Seg) (value : Json) : Json :=
  match parent, key with
  | .array xs, .index i => if i = xs.length then .array (xs ++ [value]) else .array (xs.set i value)
  | _, _ => parent.putChild (propertySeg parent key) (some value)

/-- Change the string under `key`. -/
def rewriteString (path : Path) (parent : Json) (key : Seg) (f : JsString → JsString) :
    Except DeltaError Json :=
  match parent.child (propertySeg parent key) with
  | some (.string current) => .ok (write parent key (.string (f current)))
  | _ => .error (.pathError path)

/-- The effect of an `s`, `d`, `a` or `t` op on the container that holds its target. -/
def applyToParent (op : Op) (path : Path) (parent : Json) (key : Seg) : Except DeltaError Json :=
  let body : Except DeltaError Json :=
    match op with
    | .s _ value => .ok (write parent key value)
    | .d _ =>
      match parent, key with
      | .array xs, .index i =>
        if i ≥ xs.length then .error (.pathError path) else .ok (.array (xs.eraseIdx i))
      | _, _ => .ok (parent.putChild (propertySeg parent key) none)
    | .a _ text => rewriteString path parent key (· ++ text)
    | .t _ count => rewriteString path parent key (·.drop count)
    | _ => .ok parent
  match parent, key with
  | .array _, .key _ => .error (.unsafePathError key)
  | .array xs, .index i => if i > xs.length then .error (.unsafePathError key) else body
  | _, _ => body

/-- One op on the current root; `none` is `undefined`, what a fold starts from. -/
def applyOp (root : Option Json) (op : Op) : Except DeltaError (Option Json) := do
  assertValidOp op
  match op with
  | .r value => return some value
  | .p path index remove items => do
    let root' ← updateAt path (fun target =>
      match target with
      | .array xs => .ok (.array (spliceItems xs index remove items))
      | _ => .error (.pathError path)) root path
    return some root'
  | .s path _ | .d path | .a path _ | .t path _ =>
    match path.getLast? with
    | none => .error (.pathError path)
    | some key => do
      let parentPath := path.dropLast
      let root' ← updateAt parentPath (fun parent => applyToParent op path parent key) root parentPath
      return some root'

/-- `apply(target, ops)`. -/
def apply (target : Option Json) (ops : List Op) : Except DeltaError (Option Json) :=
  ops.foldlM applyOp target

theorem apply_append (target : Option Json) (ops ops' : List Op) :
    apply target (ops ++ ops') = apply target ops >>= fun root => apply root ops' := by
  simp [apply, List.foldlM_append]

/-! ## What ops do at a path -/

/-- No segment of the path is reserved. -/
def SafePath (path : Path) : Prop := ∀ seg ∈ path, Seg.isSafe seg = true

theorem assertSafePath_eq_ok {path : Path} : assertSafePath path = .ok () ↔ SafePath path := by
  induction path with
  | nil => simp [assertSafePath, SafePath]
  | cons seg path ih =>
    simp only [SafePath, List.forall_mem_cons] at ih ⊢
    rw [assertSafePath]
    split
    · next h => simp [h, ih]
    · next h => simp [h]

/-- `assertValidOp` accepts the op. -/
def Op.Valid (op : Op) : Prop := assertValidOp op = .ok ()

theorem assertPathArg_eq_ok {path : Path} {nonEmpty : Bool} :
    assertPathArg path nonEmpty = .ok () ↔ (nonEmpty = true → path ≠ []) ∧ SafePath path := by
  rw [assertPathArg, ite_error_eq_ok, assertSafePath_eq_ok, not_and]

theorem SafePath.concat {path : Path} {seg : Seg} (h : SafePath path) (hs : Seg.isSafe seg = true) :
    SafePath (path ++ [seg]) := by
  intro seg' hmem
  rcases List.mem_append.mp hmem with hmem | hmem
  · exact h seg' hmem
  · rw [List.mem_singleton.mp hmem]
    exact hs

theorem SafePath.validArg {path : Path} {seg : Seg} (h : SafePath (path ++ [seg]))
    (nonEmpty : Bool) : assertPathArg (path ++ [seg]) nonEmpty = .ok () :=
  assertPathArg_eq_ok.mpr ⟨fun _ => by simp, h⟩

/-- A container updated where a focused path ends. -/
theorem updateAt_eq (whole : Path) {path : Path} {f : Json → Except DeltaError Json} {x y : Option Json}
    {c c' : Json} (hf : Json.Focus x path y) (h : Json.slotAt x path = some c)
    (hobj : c.isObj = true) (hc : f c = .ok c') :
    ∃ root, updateAt whole f x path = .ok root ∧ Json.putAt x path (some c') = some root := by
  induction path generalizing x with
  | nil =>
    obtain rfl : x = some c := h
    exact ⟨c', by simp [updateAt, hobj, hc], rfl⟩
  | cons seg path ih =>
    obtain ⟨node, rfl, hs, -, hf⟩ := hf
    obtain ⟨root, hroot, hput⟩ := ih hf h
    have hslot : Json.slotAt (node.child seg) path = some c := h
    obtain ⟨d, hd⟩ : ∃ d, node.child seg = some d := by
      cases hd : node.child seg with
      | some d => exact ⟨d, rfl⟩
      | none =>
        rw [hd] at hslot hf
        cases path with
        | nil => cases hslot
        | cons t path => obtain ⟨e, he, -⟩ := hf; cases he
    refine ⟨node.putChild seg (some root), ?_, ?_⟩
    · rw [hd] at hroot
      cases node <;> cases seg <;> simp only [Json.HasSlot] at hs
      · simp [updateAt, Json.isObj, propertySeg, hd, hroot]
      · simp [updateAt, Json.isObj, propertySeg, hd, hroot]
    · simp only [Json.putAt]
      rw [hput]

/-- Applied to any root in which `path` leads to `x`, the ops succeed, leave `y` there, and touch
nothing else. -/
def RunsAt (path : Path) (ops : List Op) (x y : Option Json) : Prop :=
  ∀ root, Json.Focus root path y → Json.slotAt root path = x →
    apply root ops = .ok (Json.putAt root path y)

theorem RunsAt.nil (path : Path) (x : Option Json) : RunsAt path [] x x := by
  intro root hf hx
  have hself := Json.putAt_slotAt hf
  rw [hx] at hself
  rw [hself]
  rfl

theorem RunsAt.trans {path : Path} {ops ops' : List Op} {x z : Option Json} {v : Json}
    (h : RunsAt path ops x (some v)) (h' : RunsAt path ops' (some v) z) :
    RunsAt path (ops ++ ops') x z := by
  intro root hf hx
  have hfv := hf.fill v
  have hfocus : Json.Focus (Json.putAt root path (some v)) path z := hf.putAt v
  rw [apply_append, h root hfv hx, ok_bind, h' _ hfocus (Json.slotAt_putAt hfv),
    Json.putAt_putAt hf]

/-- Ops that run at a child's path run at the container's. -/
theorem RunsAt.lift {path : Path} {seg : Seg} {ops : List Op} {c : Json} {y : Option Json}
    (h : RunsAt (path ++ [seg]) ops (c.child seg) y) (ha : c.Accepts seg y) :
    RunsAt path ops (some c) (some (c.putChild seg y)) := by
  intro root hf hx
  rw [h root (hf.concat hx ha) (by rw [Json.slotAt_append, hx]; rfl), Json.putAt_concat hx]

/-- The op addresses the slot `seg` of the container at `path`. -/
def Op.Targets (op : Op) (path : Path) (seg : Seg) : Prop :=
  (∃ value, op = .s (path ++ [seg]) value) ∨ op = .d (path ++ [seg]) ∨
    (∃ text, op = .a (path ++ [seg]) text) ∨ ∃ count, op = .t (path ++ [seg]) count

theorem Op.Targets.valid {op : Op} {path : Path} {seg : Seg} (h : op.Targets path seg)
    (hsafe : SafePath (path ++ [seg])) : op.Valid := by
  rcases h with ⟨_, rfl⟩ | rfl | ⟨_, rfl⟩ | ⟨_, rfl⟩ <;> exact hsafe.validArg true

theorem applyOp_of_targets {op : Op} {path : Path} {seg : Seg} (h : op.Targets path seg)
    (hsafe : SafePath (path ++ [seg])) (root : Option Json) :
    applyOp root op = (updateAt path
      (fun parent => applyToParent op (path ++ [seg]) parent seg) root path).map some := by
  have hvalid := h.valid hsafe
  rcases h with ⟨_, rfl⟩ | rfl | ⟨_, rfl⟩ | ⟨_, rfl⟩ <;>
  · rw [applyOp, hvalid, ok_bind]
    simp only [List.getLast?_append, List.getLast?_singleton, Option.some_or, List.dropLast_concat]
    cases updateAt path _ root path <;> rfl

/-- An op that does the right thing to the container of its target runs at its path. -/
theorem Op.Targets.runsAt {op : Op} {path : Path} {seg : Seg} {x y : Option Json}
    (ht : op.Targets path seg) (hsafe : SafePath (path ++ [seg]))
    (h : ∀ c : Json, c.Accepts seg y → c.child seg = x →
      applyToParent op (path ++ [seg]) c seg = .ok (c.putChild seg y)) :
    RunsAt (path ++ [seg]) [op] x y := by
  intro root hf hx
  obtain ⟨c, hc, hfc, hacc⟩ := hf.exists_parent
  have hchild : c.child seg = x := by
    rw [← hx, Json.slotAt_append, hc]
    rfl
  have hobj : c.isObj = true := by
    have hs := hacc.1
    cases c <;> simp_all [Json.HasSlot, Json.isObj]
  obtain ⟨root', hroot', hput⟩ :=
    updateAt_eq path (f := fun parent => applyToParent op (path ++ [seg]) parent seg)
      hfc hc hobj (h c hacc hchild)
  have happly : apply root [op] = applyOp root op := by simp [apply]
  rw [happly, applyOp_of_targets ht hsafe, hroot', Json.putAt_concat hc, hput]
  rfl

/-- Writing a slot of a container, as `defineProperty` does. -/
theorem write_eq_putChild {c : Json} {seg : Seg} (h : c.HasSlot seg) (v : Json) :
    write c seg v = c.putChild seg (some v) := by
  cases c <;> cases seg <;> simp only [Json.HasSlot] at h
  · simp [write, Json.putChild, Nat.ne_of_lt h]
  · rfl

theorem applyToParent_set {c : Json} {seg : Seg} (h : c.HasSlot seg) (path : Path) (v : Json) :
    applyToParent (.s path v) path c seg = .ok (c.putChild seg (some v)) := by
  have hw := write_eq_putChild h v
  cases c <;> cases seg <;> simp only [Json.HasSlot] at h
  · simp [applyToParent, hw, Nat.le_of_lt h]
  · simp [applyToParent, hw]

theorem runsAt_s {path : Path} {seg : Seg} (hsafe : SafePath (path ++ [seg])) (x : Option Json)
    (v : Json) : RunsAt (path ++ [seg]) [.s (path ++ [seg]) v] x (some v) :=
  Op.Targets.runsAt (.inl ⟨v, rfl⟩) hsafe fun _ hacc _ => applyToParent_set hacc.1 _ v

theorem runsAt_d {path : Path} {seg : Seg} (hsafe : SafePath (path ++ [seg])) (x : Option Json) :
    RunsAt (path ++ [seg]) [.d (path ++ [seg])] x none := by
  refine Op.Targets.runsAt (.inr (.inl rfl)) hsafe fun c hacc _ => ?_
  obtain ⟨es, rfl⟩ := Json.kind_eq_object.mp (hacc.2 rfl)
  have hs := hacc.1
  cases seg <;> simp only [Json.HasSlot] at hs
  rfl

theorem runsAt_a {path : Path} {seg : Seg} (hsafe : SafePath (path ++ [seg]))
    (current text : JsString) :
    RunsAt (path ++ [seg]) [.a (path ++ [seg]) text] (some (.string current))
      (some (.string (current ++ text))) := by
  refine Op.Targets.runsAt (.inr (.inr (.inl ⟨text, rfl⟩))) hsafe fun c hacc hc => ?_
  have hs := hacc.1
  have hw := write_eq_putChild hs (.string (current ++ text))
  cases c <;> cases seg <;> simp only [Json.HasSlot] at hs
  · simp [applyToParent, rewriteString, propertySeg, hc, hw, Nat.le_of_lt hs]
  · simp [applyToParent, rewriteString, propertySeg, hc, hw]

theorem runsAt_t {path : Path} {seg : Seg} (hsafe : SafePath (path ++ [seg]))
    (current : JsString) (count : ℕ) :
    RunsAt (path ++ [seg]) [.t (path ++ [seg]) count] (some (.string current))
      (some (.string (current.drop count))) := by
  refine Op.Targets.runsAt (.inr (.inr (.inr ⟨count, rfl⟩))) hsafe fun c hacc hc => ?_
  have hs := hacc.1
  have hw := write_eq_putChild hs (.string (current.drop count))
  cases c <;> cases seg <;> simp only [Json.HasSlot] at hs
  · simp [applyToParent, rewriteString, propertySeg, hc, hw, Nat.le_of_lt hs]
  · simp [applyToParent, rewriteString, propertySeg, hc, hw]

theorem runsAt_r (x : Option Json) (v : Json) : RunsAt [] [.r v] x (some v) := fun _ _ _ => rfl

theorem valid_p {path : Path} (hsafe : SafePath path) (index remove : ℕ) (items : List Json) :
    (Op.p path index remove items).Valid :=
  assertPathArg_eq_ok.mpr ⟨by simp, hsafe⟩

theorem runsAt_p {path : Path} (hsafe : SafePath path) {xs : List Json} {index : ℕ}
    (hi : index ≤ xs.length) (remove : ℕ) (items : List Json) :
    RunsAt path [.p path index remove items] (some (.array xs))
      (some (.array (splice xs index remove items))) := by
  intro root hf hx
  have hvalid : assertValidOp (.p path index remove items) = .ok () :=
    valid_p hsafe index remove items
  obtain ⟨root', hroot', hput⟩ := updateAt_eq path (f := fun target =>
      match target with
      | .array xs => .ok (.array (spliceItems xs index remove items))
      | _ => .error (.pathError path)) hf hx rfl rfl
  rw [spliceItems_eq xs hi] at hput
  have happly : apply root [.p path index remove items]
      = applyOp root (.p path index remove items) := by simp [apply]
  rw [happly, applyOp, hvalid, ok_bind, hroot', hput]
  rfl

end Phi.Delta
