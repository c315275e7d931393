import Phi.Data.Objects
import Phi.Delta.Immutable

/-!
# Application to objects

`apply` and `applyImmutable` of `packages/chord/src/delta/index.ts` on the objects of a heap. `apply` mutates the
containers it is given and adopts the values of the ops, so a container that stands at two places changes at both.
`applyImmutable` copies the containers on the way to its target first, and mutates the copies only.

`Delta.apply` and `Delta.applyImmutable` are the same functions on values that are trees.
-/

namespace Phi.Delta.InPlace

open Objects

/-- An op with its values in the heap. -/
inductive RefOp where
  | r (value : Val)
  | s (path : Path) (value : Val)
  | d (path : Path)
  | a (path : Path) (text : JsString)
  | t (path : Path) (count : ℕ)
  | p (path : Path) (index remove : ℕ) (items : List Val)

/-- The path of the container that an op changes. -/
def RefOp.containerPath : RefOp → Path
  | .r _ => []
  | .p path _ _ _ => path
  | .s path _ | .d path | .a path _ | .t path _ => path.dropLast

def assertValidOp : RefOp → Except DeltaError Unit
  | .r _ => .ok ()
  | .s path _ => assertPathArg path true
  | .d path => assertPathArg path true
  | .a path _ => assertPathArg path true
  | .t path _ => assertPathArg path true
  | .p path _ _ _ => assertPathArg path false

/-! ## Containers -/

/-- The slot of a container that a segment names as a property key. -/
def propertySeg : Cell → Seg → Seg
  | .object _, .index n => .key (numberText n)
  | _, seg => seg

/-- `Object.hasOwn(container, segment)`, with the value that is there. -/
def ownValue : Cell → Seg → Option Val
  | .array items, .key k =>
    if k = JsString.ofAscii "length" then some (.number items.length)
    else (JsObject.arrayIndex? k).bind (items[·]?)
  | c, seg => c.child (propertySeg c seg)

/-- `Object.defineProperty(parent, key, { value })` after the index check. -/
def write (parent : Cell) (key : Seg) (value : Val) : Cell :=
  match parent, key with
  | .array items, .index i => if i = items.length then .array (items ++ [value]) else .array (items.set i value)
  | _, _ => parent.putChild (propertySeg parent key) (some value)

/-- Change the string under `key`. -/
def rewriteString (path : Path) (parent : Cell) (key : Seg) (f : JsString → JsString) : Except DeltaError Cell :=
  match parent.child (propertySeg parent key) with
  | some (.string current) => .ok (write parent key (.string (f current)))
  | _ => .error (.pathError path)

/-- The effect of an `s`, `d`, `a` or `t` op on the container that holds its target. -/
def applyToParent (op : RefOp) (path : Path) (parent : Cell) (key : Seg) : Except DeltaError Cell :=
  let body : Except DeltaError Cell :=
    match op with
    | .s _ value => .ok (write parent key value)
    | .d _ =>
      match parent, key with
      | .array items, .index i =>
        if i ≥ items.length then .error (.pathError path) else .ok (.array (items.eraseIdx i))
      | _, _ => .ok (parent.putChild (propertySeg parent key) none)
    | .a _ text => rewriteString path parent key (· ++ text)
    | .t _ count => rewriteString path parent key (·.drop count)
    | _ => .ok parent
  match parent, key with
  | .array _, .key _ => .error (.unsafePathError key)
  | .array items, .index i => if i > items.length then .error (.unsafePathError key) else body
  | _, _ => body

/-- What an op makes of the container that it changes. -/
def change (op : RefOp) (parent : Cell) : Except DeltaError Cell :=
  match op with
  | .r _ => .ok parent
  | .p path index remove items =>
    match parent with
    | .array xs => .ok (.array (spliceItems xs index remove items))
    | .object _ => .error (.pathError path)
  | .s path _ | .d path | .a path _ | .t path _ =>
    match path.getLast? with
    | none => .error (.pathError path)
    | some key => applyToParent op path parent key

/-! ## Application -/

/-- `resolveValue(root, path)`; `whole` is the path the caller resolves. -/
def resolveValue (heap : Heap) (whole : Path) : Val → Path → Except DeltaError Val
  | node, [] => .ok node
  | node, seg :: path =>
    match cellOf heap node with
    | none => .error (.pathError whole)
    | some c =>
      match c, seg with
      | .array _, .key _ => .error (.unsafePathError seg)
      | _, _ =>
        match c.child (propertySeg c seg) with
        | none => .error (.pathError whole)
        | some child => resolveValue heap whole child path

/-- `resolve(root, path)`, the address of a container; the root may be `undefined`. -/
def resolve (heap : Heap) (root : Option Val) (path : Path) : Except DeltaError ℕ :=
  match root with
  | none => .error (.pathError path)
  | some root =>
    match resolveValue heap path root path with
    | .error e => .error e
    | .ok (.ref address) => .ok address
    | .ok _ => .error (.pathError path)

/-- One op. It throws before it changes anything. -/
def applyOp (heap : Heap) (root : Option Val) (op : RefOp) : Except DeltaError (Heap × Option Val) := do
  assertValidOp op
  match op with
  | .r value => return (heap, some value)
  | _ => do
    let address ← resolve heap root op.containerPath
    match heap[address]? with
    | none => .error (.pathError op.containerPath)
    | some parent => do
      let changed ← change op parent
      return (heap.set address changed, root)

/-- `apply(target, ops)`, with the heap it leaves, also where it throws. -/
def apply (heap : Heap) (target : Option Val) : List RefOp → Heap × Except DeltaError (Option Val)
  | [] => (heap, .ok target)
  | op :: ops =>
    match applyOp heap target op with
    | .error e => (heap, .error e)
    | .ok (heap, root) => apply heap root ops

/-- The loop of `copyContainers`: the container at `destination` is the copy of the one that `source` refers to. -/
def copyPath (whole : Path) (heap : Heap) (source : Val) (destination : ℕ) : Path → Heap × Except DeltaError Unit
  | [] => (heap, .ok ())
  | seg :: path =>
    match cellOf heap source with
    | none => (heap, .error (.pathError whole))
    | some c =>
      match ownValue c seg with
      | none => (heap, .error (.pathError whole))
      | some child =>
        match c, seg with
        | .array _, .key _ => (heap, .error (.unsafePathError seg))
        | _, _ =>
          match cellOf heap child with
          | none => (heap, .error (.pathError whole))
          | some copied =>
            copyPath whole
              ((heap ++ [copied]).modify destination fun cell =>
                cell.putChild (propertySeg cell seg) (some (.ref heap.length)))
              child heap.length path

/-- `copyContainers(root, path)`. -/
def copyContainers (heap : Heap) (root : Option Val) (path : Path) : Heap × Except DeltaError Val :=
  match root with
  | none => (heap, .error (.pathError path))
  | some source =>
    match cellOf heap source with
    | none => (heap, .error (.pathError path))
    | some copied =>
      let copies := copyPath path (heap ++ [copied]) source heap.length path
      (copies.1, copies.2.map fun _ => .ref heap.length)

/-- One op on a value that must not change. -/
def applyOpImmutable (heap : Heap) (root : Option Val) (op : RefOp) : Heap × Except DeltaError (Option Val) :=
  match op with
  | .r value => (heap, (assertValidOp op).map fun _ => some value)
  | _ =>
    match copyContainers heap root op.containerPath with
    | (heap, .error e) => (heap, .error e)
    | (heap, .ok copied) => apply heap (some copied) [op]

/-- `applyImmutable(target, ops)`, with the heap it leaves, also where it throws. -/
def applyImmutable (heap : Heap) (target : Option Val) : List RefOp → Heap × Except DeltaError (Option Val)
  | [] => (heap, .ok target)
  | op :: ops =>
    match applyOpImmutable heap target op with
    | (heap, .error e) => (heap, .error e)
    | (heap, .ok root) => applyImmutable heap root ops

/-! ## What ops stand for -/

inductive OwnsOp (heap : Heap) : RefOp → Op → Multiset ℕ → Prop where
  | r {value : Val} {json : Json} {feet : Multiset ℕ} (h : Owns heap value json feet) :
      OwnsOp heap (.r value) (.r json) feet
  | s (path : Path) {value : Val} {json : Json} {feet : Multiset ℕ} (h : Owns heap value json feet) :
      OwnsOp heap (.s path value) (.s path json) feet
  | d (path : Path) : OwnsOp heap (.d path) (.d path) 0
  | a (path : Path) (text : JsString) : OwnsOp heap (.a path text) (.a path text) 0
  | t (path : Path) (count : ℕ) : OwnsOp heap (.t path count) (.t path count) 0
  | p (path : Path) (index remove : ℕ) (rows : List Row) (hrows : ∀ r ∈ rows, Owns heap r.val r.json r.feet) :
      OwnsOp heap (.p path index remove (rows.map Row.val)) (.p path index remove (rows.map Row.json))
        (rows.map Row.feet).sum

inductive OwnsOps (heap : Heap) : List RefOp → List Op → Multiset ℕ → Prop where
  | nil : OwnsOps heap [] [] 0
  | cons {op : RefOp} {jop : Op} {ops : List RefOp} {jops : List Op} {feet feet' : Multiset ℕ}
      (h : OwnsOp heap op jop feet) (hrest : OwnsOps heap ops jops feet') :
      OwnsOps heap (op :: ops) (jop :: jops) (feet + feet')

/-- A target may be `undefined`. -/
inductive OwnsTarget (heap : Heap) : Option Val → Option Json → Multiset ℕ → Prop where
  | undefined : OwnsTarget heap none none 0
  | value {value : Val} {json : Json} {feet : Multiset ℕ} (h : Owns heap value json feet) :
      OwnsTarget heap (some value) (some json) feet

/-- What a target stands for, whatever containers it has. -/
def Stands (heap : Heap) (target : Option Val) (json : Option Json) : Prop := ∃ feet, OwnsTarget heap target json feet

section Frames

variable {heap heap' : Heap} {feet : Multiset ℕ}

theorem OwnsOp.frame {op : RefOp} {jop : Op} (h : OwnsOp heap op jop feet)
    (hsame : ∀ a ∈ feet, heap'[a]? = heap[a]?) : OwnsOp heap' op jop feet := by
  cases h with
  | r h => exact .r (h.frame hsame)
  | s path h => exact .s path (h.frame hsame)
  | d path => exact .d path
  | a path text => exact .a path text
  | t path count => exact .t path count
  | p path index remove rows hrows =>
    exact .p path index remove rows fun r hr => (hrows r hr).frame fun a ha => hsame a (mem_sum_of_mem hr ha)

/-- The containers of an op are in the heap. -/
theorem OwnsOp.lt_length {op : RefOp} {jop : Op} (h : OwnsOp heap op jop feet) : ∀ a ∈ feet, a < heap.length := by
  cases h with
  | r h => exact h.lt_length
  | s path h => exact h.lt_length
  | p path index remove rows hrows => exact sum_lt_length fun r hr => (hrows r hr).lt_length
  | _ => intro a ha; simp at ha

theorem OwnsOps.frame {ops : List RefOp} {jops : List Op} (h : OwnsOps heap ops jops feet)
    (hsame : ∀ a ∈ feet, heap'[a]? = heap[a]?) : OwnsOps heap' ops jops feet := by
  induction h with
  | nil => exact .nil
  | cons h hrest ih =>
    exact .cons (h.frame fun a ha => hsame a (Multiset.mem_add.mpr (.inl ha)))
      (ih fun a ha => hsame a (Multiset.mem_add.mpr (.inr ha)))

theorem OwnsOps.lt_length {ops : List RefOp} {jops : List Op} (h : OwnsOps heap ops jops feet) :
    ∀ a ∈ feet, a < heap.length := by
  induction h with
  | nil => intro a ha; simp at ha
  | cons h hrest ih =>
    intro a ha
    rcases Multiset.mem_add.mp ha with ha | ha
    · exact h.lt_length a ha
    · exact ih a ha

theorem assertValidOp_eq {op : RefOp} {jop : Op} (h : OwnsOp heap op jop feet) :
    assertValidOp op = Delta.assertValidOp jop := by
  cases h <;> rfl

theorem containerPath_eq {op : RefOp} {jop : Op} (h : OwnsOp heap op jop feet) :
    op.containerPath = jop.containerPath := by
  cases h <;> rfl

end Frames

/-! ## One container -/

section Containers

variable {heap : Heap} {cell : Cell} {json : Json} {feet : Multiset ℕ}

theorem propertySeg_eq (h : CellOwns heap cell json feet) (seg : Seg) :
    propertySeg cell seg = Delta.propertySeg json seg := by
  cases h <;> cases seg <;> rfl

theorem spliceItems_map {α β : Type} (f : α → β) (xs : List α) (index remove : ℕ) (items : List α) :
    (spliceItems xs index remove items).map f = spliceItems (xs.map f) index remove (items.map f) := by
  have hsplice : ∀ (xs : List α) (index remove : ℕ) (items : List α),
      (splice xs index remove items).map f = splice (xs.map f) index remove (items.map f) := by
    intro xs index remove items
    simp only [splice, List.map_append, List.map_take, List.map_drop]
  have hchunks : ∀ (xs : List α) (n : ℕ),
      (insertChunks xs index items n).map f = insertChunks (xs.map f) index (items.map f) n := by
    intro xs n
    induction n with
    | zero => rfl
    | succ n ih =>
      rw [insertChunks, insertChunks, hsplice, ih, List.map_take, List.map_drop]
  rw [spliceItems, spliceItems, hchunks, hsplice, List.length_map, List.map_nil]

theorem splice_subperm {α : Type} (xs : List α) (index remove : ℕ) (items : List α) :
    (splice xs index remove items).Subperm (xs ++ items) := by
  rw [splice]
  have hback : (xs.drop (index + remove)).Sublist (xs.drop index) := by
    rw [← List.drop_drop]
    exact List.drop_sublist _ _
  have hsub : (xs.take index ++ xs.drop (index + remove)).Sublist xs := by
    conv_rhs => rw [← List.take_append_drop index xs]
    exact hback.append_left _
  have hperm : (xs.take index ++ items ++ xs.drop (index + remove)).Perm
      (xs.take index ++ xs.drop (index + remove) ++ items) := by
    rw [List.append_assoc, List.append_assoc]
    exact List.perm_append_comm.append_left _
  exact hperm.subperm.trans (hsub.append_right items).subperm

theorem insertChunks_subperm {α : Type} (xs : List α) (index : ℕ) (items : List α) (n : ℕ) :
    (insertChunks xs index items n).Subperm (xs ++ items.take (n * chunkSize)) := by
  induction n with
  | zero => simpa [insertChunks] using List.Subperm.refl xs
  | succ n ih =>
    rw [insertChunks, Nat.succ_mul, List.take_add, ← List.append_assoc]
    exact (splice_subperm _ _ _ _).trans ((List.subperm_append_right _).mpr ih)

theorem spliceItems_subperm {α : Type} (xs : List α) (index remove : ℕ) (items : List α) :
    (spliceItems xs index remove items).Subperm (xs ++ items) := by
  have hremoved : (splice xs index remove []).Subperm xs := by
    simpa using splice_subperm xs index remove []
  exact (insertChunks_subperm _ _ _ _).trans
    (((List.subperm_append_right _).mpr hremoved).trans ((List.take_sublist _ items).append_left xs).subperm)

/-- An item that is written, added or removed leaves the feet of the others. -/
theorem CellOwns.array_of_subperm {heap : Heap} {rows rows' : List Row}
    (hrows : ∀ r ∈ rows, Owns heap r.val r.json r.feet) (hsub : rows'.Subperm rows) :
    ∃ inner, CellOwns heap (.array (rows'.map Row.val)) (.array (rows'.map Row.json)) inner ∧
      inner ≤ (rows.map Row.feet).sum :=
  ⟨_, .array rows' fun r hr => hrows r (hsub.subset hr), sum_le_of_subperm hsub⟩

theorem CellOwns.object_of_subperm {heap : Heap} {rows rows' : Table JsString Row}
    (hrows : ∀ e ∈ rows, Owns heap e.2.val e.2.json e.2.feet) (hsub : rows'.Subperm rows) :
    ∃ inner, CellOwns heap (.object (rows'.mapValues Row.val)) (.object (rows'.mapValues Row.json)) inner ∧
      inner ≤ (rows.map fun e => e.2.feet).sum :=
  ⟨_, .object rows' fun e he => hrows e (hsub.subset he), sum_le_of_subperm hsub⟩

theorem write_owns (h : CellOwns heap cell json feet) (key : Seg) {value : Val} {x : Json} {outer : Multiset ℕ}
    (hvalue : Owns heap value x outer) :
    ∃ inner, CellOwns heap (write cell key value) (Delta.write json key x) inner ∧ inner ≤ feet + outer := by
  cases h with
  | array rows hrows =>
    have hall : ∀ r ∈ Row.mk value x outer :: rows, Owns heap r.val r.json r.feet := by
      intro r hr
      rcases List.mem_cons.mp hr with rfl | hr
      · exact hvalue
      · exact hrows r hr
    cases key with
    | key k => exact ⟨_, .array rows hrows, Multiset.le_add_right _ _⟩
    | index i =>
      rw [write, Delta.write, List.length_map, List.length_map, add_comm]
      split
      · have hsub : (rows ++ [Row.mk value x outer]).Subperm (Row.mk value x outer :: rows) :=
          (List.perm_append_singleton _ _).subperm
        simpa using CellOwns.array_of_subperm hall hsub
      · have hsub : (rows.set i (Row.mk value x outer)).Subperm (Row.mk value x outer :: rows) :=
          set_subperm rows i _
        simpa [List.map_set] using CellOwns.array_of_subperm hall hsub
  | object rows hrows =>
    have hall : ∀ k, ∀ e ∈ (k, Row.mk value x outer) :: rows,
        Owns heap e.2.val e.2.json e.2.feet := by
      intro k e he
      rcases List.mem_cons.mp he with rfl | he
      · exact hvalue
      · exact hrows e he
    have hdefine : ∀ k, ∃ inner, CellOwns heap (.object (JsObject.define (rows.mapValues Row.val) k value))
        (.object (JsObject.define (rows.mapValues Row.json) k x)) inner ∧
          inner ≤ (rows.map fun e => e.2.feet).sum + outer := by
      intro k
      obtain ⟨inner, hcell, hle⟩ := CellOwns.object_of_subperm (hall k) (define_subperm rows k ⟨value, x, outer⟩)
      rw [← define_mapValues, ← define_mapValues] at hcell
      rw [List.map_cons, List.sum_cons, add_comm] at hle
      exact ⟨inner, hcell, hle⟩
    cases key with
    | key k => exact hdefine k
    | index i => exact hdefine (numberText i)

theorem putChild_none_owns (h : CellOwns heap cell json feet) (seg : Seg) :
    ∃ inner, CellOwns heap (cell.putChild seg none) (json.putChild seg none) inner ∧ inner ≤ feet := by
  cases h with
  | array rows hrows => cases seg <;> exact ⟨_, .array rows hrows, le_rfl⟩
  | object rows hrows =>
    cases seg with
    | index i => exact ⟨_, .object rows hrows, le_rfl⟩
    | key k =>
      have hsub : (rows.erase k).Subperm rows := List.filter_sublist.subperm
      have hcell := CellOwns.object_of_subperm hrows hsub
      rwa [← erase_mapValues, ← erase_mapValues] at hcell

/-- A cell and what is left of the feet when an op has changed it. -/
def Changed (heap : Heap) (bound : Multiset ℕ) (cell : Cell) (json : Json) : Prop :=
  ∃ inner, CellOwns heap cell json inner ∧ inner ≤ bound

theorem rewriteString_owns (h : CellOwns heap cell json feet) (path : Path) (key : Seg) (f : JsString → JsString) :
    Alike (Changed heap feet) (rewriteString path cell key f) (Delta.rewriteString path json key f) := by
  rw [rewriteString, Delta.rewriteString, ← propertySeg_eq h]
  cases hchild : cell.child (propertySeg cell key) with
  | none =>
    rw [h.child_eq_none.mp hchild]
    exact .error _
  | some value =>
    obtain ⟨x, inner, -, hx, hvalue, -, -⟩ := h.focus hchild
    rw [hx]
    cases hvalue with
    | string current =>
      obtain ⟨inner, hcell, hle⟩ := write_owns h key (.string (f current))
      exact .ok ⟨inner, hcell, by simpa using hle⟩
    | _ => exact .error _

/-- What an op makes of the container at its container path, as a value. -/
def changeJson (op : Op) (parent : Json) : Except DeltaError Json :=
  match op with
  | .r _ => .ok parent
  | .p path index remove items =>
    match parent with
    | .array xs => .ok (.array (spliceItems xs index remove items))
    | _ => .error (.pathError path)
  | .s path _ | .d path | .a path _ | .t path _ =>
    match path.getLast? with
    | none => .error (.pathError path)
    | some key => Delta.applyToParent op path parent key

theorem applyOp_eq_updateAt {op : Op} (hop : ∀ value, op ≠ .r value) (root : Option Json) :
    Delta.applyOp root op = (do
      Delta.assertValidOp op
      let root' ← updateAt op.containerPath (changeJson op) root op.containerPath
      return some root') := by
  cases op with
  | r value => exact absurd rfl (hop value)
  | p path index remove items => rfl
  | s path _ | d path | a path _ | t path _ =>
    rcases List.eq_nil_or_concat' path with rfl | ⟨front, key, rfl⟩
    · rfl
    · unfold changeJson
      simp only [Delta.applyOp, Op.containerPath, List.getLast?_append, List.getLast?_singleton,
        Option.some_or, List.dropLast_concat]

theorem applyToParent_owns {op : RefOp} {jop : Op} {outer : Multiset ℕ} (h : CellOwns heap cell json feet)
    (hop : OwnsOp heap op jop outer) (path : Path) (key : Seg) :
    Alike (Changed heap (feet + outer)) (applyToParent op path cell key) (Delta.applyToParent jop path json key) := by
  have hself : Changed heap (feet + outer) cell json := ⟨feet, h, Multiset.le_add_right _ _⟩
  have hrewrite : ∀ f : JsString → JsString, Alike (Changed heap (feet + 0))
      (rewriteString path cell key f) (Delta.rewriteString path json key f) := by
    intro f
    rw [add_zero]
    exact rewriteString_owns h path key f
  cases hcell : h with
  | array rows hrows =>
    cases key with
    | key k => exact .error _
    | index i =>
      unfold applyToParent Delta.applyToParent
      simp only [List.length_map]
      split
      · exact .error _
      · cases hop with
        | s _ hvalue => exact .ok (write_owns h (.index i) hvalue)
        | d _ =>
          simp only
          split
          · exact .error _
          · have herase := CellOwns.array_of_subperm hrows (List.eraseIdx_sublist rows i).subperm
            rw [← List.eraseIdx_map, ← List.eraseIdx_map] at herase
            refine .ok ?_
            rw [add_zero]
            exact herase
        | a _ text => exact hrewrite (· ++ text)
        | t _ count => exact hrewrite (·.drop count)
        | _ => exact .ok hself
  | object rows hrows =>
    cases hop with
    | s _ hvalue => exact .ok (write_owns h key hvalue)
    | d _ =>
      refine .ok ?_
      rw [add_zero, propertySeg_eq h]
      exact putChild_none_owns h _
    | a _ text => exact hrewrite (· ++ text)
    | t _ count => exact hrewrite (·.drop count)
    | _ => exact .ok hself

/-- **What an op does to a container is what it does to the value.** -/
theorem change_owns {op : RefOp} {jop : Op} {outer : Multiset ℕ} (h : CellOwns heap cell json feet)
    (hop : OwnsOp heap op jop outer) :
    Alike (Changed heap (feet + outer)) (change op cell) (changeJson jop json) := by
  have hparent := applyToParent_owns h hop
  cases hop with
  | r hvalue => exact .ok ⟨feet, h, Multiset.le_add_right _ _⟩
  | p path index remove items hitems =>
    cases h with
    | object rows hrows => exact .error _
    | array rows hrows =>
      have hall : ∀ r ∈ rows ++ items, Owns heap r.val r.json r.feet := by
        intro r hr
        rcases List.mem_append.mp hr with hr | hr
        · exact hrows r hr
        · exact hitems r hr
      have hsplice := CellOwns.array_of_subperm hall (spliceItems_subperm rows index remove items)
      rw [spliceItems_map, spliceItems_map, List.map_append, List.sum_append] at hsplice
      exact .ok hsplice
  | s path _ | d path | a path _ | t path _ =>
    unfold change changeJson
    simp only
    split
    · exact .error _
    · exact hparent path _

end Containers

/-! ## In place -/

section Resolve

variable {heap heap' : Heap} {value : Val} {cell : Cell} {json : Json} {feet : Multiset ℕ}

/-- A segment that is refused: a name in an array. -/
def Refused (json : Json) (seg : Seg) : Prop := json.isArray = true ∧ ∃ k, seg = .key k

theorem updateAt_cons (whole : Path) (f : Json → Except DeltaError Json) {seg : Seg} (hobj : json.isObj = true)
    (hseg : ¬Refused json seg) (path : Path) :
    updateAt whole f (some json) (seg :: path) = match json.child (Delta.propertySeg json seg) with
      | none => .error (.pathError whole)
      | some c =>
        (updateAt whole f (some c) path).map fun c' => json.putChild (Delta.propertySeg json seg) (some c') := by
  have hbind : ∀ (r : Except DeltaError Json) (g : Json → Json), (do let c' ← r; return g c') = r.map g := by
    intro r g
    cases r <;> rfl
  rw [updateAt.eq_def]
  simp only [hobj, Bool.true_eq_false, if_false, hbind]
  cases json <;> cases seg <;> first
    | exact absurd ⟨rfl, _, rfl⟩ hseg
    | rfl

theorem updateAt_refused (whole : Path) (f : Json → Except DeltaError Json) {seg : Seg} (hseg : Refused json seg)
    (path : Path) : updateAt whole f (some json) (seg :: path) = .error (.unsafePathError seg) := by
  obtain ⟨harray, k, rfl⟩ := hseg
  cases json with
  | array xs =>
    rw [updateAt.eq_def]
    rfl
  | _ => cases harray

theorem resolveValue_cons (h : CellOwns heap cell json feet) (hcell : cellOf heap value = some cell) (whole : Path)
    {seg : Seg} (hseg : ¬Refused json seg) (path : Path) :
    resolveValue heap whole value (seg :: path) = match cell.child (propertySeg cell seg) with
      | none => .error (.pathError whole)
      | some child => resolveValue heap whole child path := by
  rw [resolveValue]
  simp only [hcell]
  cases h <;> cases seg <;> first
    | exact absurd ⟨rfl, _, rfl⟩ hseg
    | rfl

theorem resolveValue_refused (h : CellOwns heap cell json feet) (hcell : cellOf heap value = some cell) (whole : Path)
    {seg : Seg} (hseg : Refused json seg) (path : Path) :
    resolveValue heap whole value (seg :: path) = .error (.unsafePathError seg) := by
  obtain ⟨harray, k, rfl⟩ := hseg
  rw [resolveValue]
  simp only [hcell]
  cases h with
  | array rows hrows => rfl
  | object rows hrows => cases harray

/-- A node that a path leads to: its feet are some of the feet of the value, and when it stands for another value in a
heap that is otherwise as it was, the value stands for what `put` makes of that. -/
structure Leads (heap : Heap) (value : Val) (feet : Multiset ℕ) (node : Val) (x : Json) (inner outer : Multiset ℕ)
    (put : Json → Json) : Prop where
  node_owns : Owns heap node x inner
  feet_eq : feet = inner + outer
  put_owns : ∀ (heap' : Heap) (x' : Json) (inner' : Multiset ℕ), (∀ a ∈ outer, heap'[a]? = heap[a]?) →
    Owns heap' node x' inner' → Owns heap' value (put x') (inner' + outer)

/-- One step further up. -/
theorem Leads.cons {address : ℕ} {child node : Val} {x : Json} {inner innerFeet outer : Multiset ℕ} {put : Json → Json}
    {rest : Multiset ℕ} {slot : Seg} (hcell : heap[address]? = some cell)
    (hchild : cell.child slot = some child) (hfeet : inner = innerFeet + rest)
    (hput : ∀ (heap' : Heap) (value' : Val) (x' : Json) (inner' : Multiset ℕ), (∀ a ∈ rest, heap'[a]? = heap[a]?) →
        Owns heap' value' x' inner' →
        CellOwns heap' (cell.putChild slot (some value')) (json.putChild slot (some x')) (inner' + rest))
    (h : Leads heap child innerFeet node x feet outer put) :
    Leads heap (.ref address) (address ::ₘ inner) node x feet (address ::ₘ (outer + rest))
      fun x' => json.putChild slot (some (put x')) where
  node_owns := h.node_owns
  feet_eq := by rw [hfeet, h.feet_eq, Multiset.add_cons, add_assoc]
  put_owns := by
    intro heap' x' inner' hsame hnode
    have hchild' := h.put_owns heap' x' inner'
      (fun a ha => hsame a (Multiset.mem_cons_of_mem (Multiset.mem_add.mpr (.inl ha)))) hnode
    have hcell' := hput heap' child _ _
      (fun a ha => hsame a (Multiset.mem_cons_of_mem (Multiset.mem_add.mpr (.inr ha)))) hchild'
    rw [Cell.putChild_child hchild] at hcell'
    rw [Multiset.add_cons, ← add_assoc]
    exact owns_ref.mpr ⟨cell, _, (hsame address (Multiset.mem_cons_self _ _)).trans hcell, hcell', rfl⟩

/-- **A path leads to a node of the heap exactly where an update of the value finds its container.** -/
theorem resolveValue_owns (h : Owns heap value json feet) (whole path : Path) :
    (∃ e, resolveValue heap whole value path = .error e ∧ ∀ f, updateAt whole f (some json) path = .error e) ∨
    ∃ node x inner outer put, resolveValue heap whole value path = .ok node ∧
      Leads heap value feet node x inner outer put ∧
      ∀ f, updateAt whole f (some json) path = (updateAt whole f (some x) []).map put := by
  induction path generalizing value json feet with
  | nil =>
    refine .inr ⟨value, json, feet, 0, id, rfl, ⟨h, (add_zero _).symm, fun heap' x' inner' _ hnode => ?_⟩, fun f => ?_⟩
    · rwa [add_zero]
    · cases updateAt whole f (some json) [] <;> rfl
  | cons seg path ih =>
    cases hcell : cellOf heap value with
    | none =>
      refine .inl ⟨.pathError whole, by simp [resolveValue, hcell], fun f => ?_⟩
      rw [updateAt.eq_def]
      exact if_pos (h.cellOf_eq_none.mp hcell)
    | some cell =>
      obtain ⟨address, inner, rfl, rfl, hcellOwns⟩ := h.of_cellOf hcell
      by_cases hseg : Refused json seg
      · exact .inl ⟨_, resolveValue_refused hcellOwns hcell whole hseg path,
          fun f => updateAt_refused whole f hseg path⟩
      have hresolve := resolveValue_cons hcellOwns hcell whole hseg path
      have hupdate := fun f => updateAt_cons whole f hcellOwns.isObj hseg path
      rw [propertySeg_eq hcellOwns] at hresolve
      generalize Delta.propertySeg json seg = slot at hresolve hupdate
      cases hchild : cell.child slot with
      | none =>
        simp only [hchild] at hresolve
        simp only [hcellOwns.child_eq_none.mp hchild] at hupdate
        exact .inl ⟨_, hresolve, hupdate⟩
      | some child =>
        obtain ⟨c, innerFeet, rest, hc, hchildOwns, hfeet, hput⟩ := hcellOwns.focus hchild
        simp only [hchild] at hresolve
        simp only [hc] at hupdate
        rcases ih hchildOwns with ⟨e, hresolve', hupdate'⟩ | ⟨node, x, inner', outer, put, hnode, hleads, hupdate'⟩
        · refine .inl ⟨e, hresolve.trans hresolve', fun f => ?_⟩
          rw [hupdate, hupdate']
          rfl
        · refine .inr ⟨node, x, inner', _, _, hresolve.trans hnode, hleads.cons hcell hchild hfeet hput, fun f => ?_⟩
          rw [hupdate, hupdate']
          cases updateAt whole f (some x) [] <;> rfl

/-- A target that an op has been applied to; no container has been added to it but those of the op. -/
def Applied (bound : Multiset ℕ) (result : Heap × Option Val) (json : Option Json) : Prop :=
  ∃ feet, OwnsTarget result.1 result.2 json feet ∧ feet ≤ bound

theorem applyOp_eq {op : RefOp} (hop : ∀ v, op ≠ .r v) (root : Option Val) : applyOp heap root op = (do
    assertValidOp op
    let address ← resolve heap root op.containerPath
    match heap[address]? with
    | none => .error (.pathError op.containerPath)
    | some parent => do
      let changed ← change op parent
      return (heap.set address changed, root)) := by
  cases op with
  | r v => exact absurd rfl (hop v)
  | _ => rfl

theorem updateAt_none (whole : Path) (f : Json → Except DeltaError Json) (path : Path) :
    updateAt whole f none path = .error (.pathError whole) := by
  cases path <;> rfl

/-- The container at `address` replaced by one that stands for another value, where nothing else uses it. -/
theorem Leads.set {address : ℕ} {x x' : Json} {inner inner' outer bound : Multiset ℕ} {put : Json → Json}
    (h : Leads heap value feet (.ref address) x (address ::ₘ inner) outer put) (hlt : address < heap.length)
    (hcell : CellOwns heap cell x' inner') (hle : inner' ≤ inner + bound) (hcount : (feet + bound).count address ≤ 1) :
    ∃ feet', Owns (heap.set address cell) value (put x') feet' ∧ feet' ≤ feet + bound := by
  rw [h.feet_eq, Multiset.count_add, Multiset.count_add, Multiset.count_cons_self] at hcount
  have hsame : ∀ {a : ℕ} {s : Multiset ℕ}, s.count address = 0 → a ∈ s → (heap.set address cell)[a]? = heap[a]? := by
    intro a s hs ha
    refine List.getElem?_set_ne fun heq => ?_
    exact Multiset.count_eq_zero.mp hs (heq ▸ ha)
  have hcell' : CellOwns (heap.set address cell) cell x' inner' := hcell.frame fun a ha => by
    refine hsame (s := inner + bound) ?_ (Multiset.mem_of_le hle ha)
    rw [Multiset.count_add]
    omega
  have hnode : Owns (heap.set address cell) (.ref address) x' (address ::ₘ inner') :=
    owns_ref.mpr ⟨cell, inner', List.getElem?_set_self hlt, hcell', rfl⟩
  refine ⟨_, h.put_owns _ x' _ (fun a ha => hsame (by omega) ha) hnode, ?_⟩
  rw [h.feet_eq, Multiset.cons_add, Multiset.cons_add, Multiset.cons_add]
  refine Multiset.cons_le_cons address ?_
  rw [add_right_comm]
  exact add_le_add_left hle outer

/-- **One op in place**, where the container that it changes stands at no other place of the value or of the op. -/
theorem applyOp_owns {root : Option Val} {op : RefOp} {j : Option Json} {jop : Op} {outer : Multiset ℕ}
    (hroot : OwnsTarget heap root j feet) (hop : OwnsOp heap op jop outer)
    (hcount : ∀ a, resolve heap root op.containerPath = .ok a → (feet + outer).count a ≤ 1) :
    Alike (Applied (feet + outer)) (applyOp heap root op) (Delta.applyOp j jop) := by
  by_cases hr : ∃ v, op = .r v
  · obtain ⟨v, rfl⟩ := hr
    cases hop with
    | r hvalue => exact .ok ⟨outer, .value hvalue, Multiset.le_add_left _ _⟩
  have hne : ∀ v, op ≠ .r v := fun v hv => hr ⟨v, hv⟩
  have hne' : ∀ x, jop ≠ .r x := by
    intro x hx
    subst hx
    cases hop with
    | r hvalue => exact hne _ rfl
  rw [applyOp_eq hne, applyOp_eq_updateAt hne', ← containerPath_eq hop, ← assertValidOp_eq hop]
  cases assertValidOp op with
  | error e => exact .error e
  | ok _ =>
    simp only [ok_bind]
    cases hroot with
    | undefined =>
      rw [updateAt_none]
      exact .error _
    | @value value json feet h =>
      rcases resolveValue_owns h op.containerPath op.containerPath with
        ⟨e, hresolve, hupdate⟩ | ⟨node, x, inner, rest, put, hnode, hleads, hupdate⟩
      · simp only [resolve, hresolve, hupdate]
        exact .error e
      simp only [hupdate, updateAt]
      cases hobj : cellOf heap node with
      | none =>
        have hresolve : resolve heap (some value) op.containerPath = .error (.pathError op.containerPath) := by
          rw [resolve]
          simp only [hnode]
          cases hleads.node_owns with
          | array address rows hcell _ => simp [cellOf, hcell] at hobj
          | object address rows hcell _ => simp [cellOf, hcell] at hobj
          | _ => rfl
        simp only [hleads.node_owns.cellOf_eq_none.mp hobj, hresolve]
        exact .error _
      | some cell =>
        obtain ⟨address, inner', rfl, rfl, hcellOwns⟩ := hleads.node_owns.of_cellOf hobj
        have hcell : heap[address]? = some cell := hobj
        have hresolve : resolve heap (some value) op.containerPath = .ok address := by
          rw [resolve]
          simp only [hnode]
        simp only [hcellOwns.isObj, if_true, hresolve, ok_bind, hcell]
        have hchange := change_owns hcellOwns hop
        generalize change op cell = changed, changeJson jop x = changedJson at hchange
        cases hchange with
        | error e => exact .error e
        | ok hchanged =>
          obtain ⟨inner'', hnew, hle⟩ := hchanged
          obtain ⟨feet', howns, hbound⟩ := hleads.set (List.getElem?_eq_some_iff.mp hcell).1 hnew hle
            (hcount address hresolve)
          exact .ok ⟨feet', .value howns, hbound⟩

/-- What an op writes is the container that its path leads to. -/
theorem applyOp_heap {root root' : Option Val} {op : RefOp} (h : applyOp heap root op = .ok (heap', root')) :
    heap'.length = heap.length ∧
      ∀ a, (∀ address, resolve heap root op.containerPath = .ok address → a ≠ address) → heap'[a]? = heap[a]? := by
  by_cases hr : ∃ v, op = .r v
  · obtain ⟨v, rfl⟩ := hr
    obtain ⟨rfl, -⟩ : heap = heap' ∧ some v = root' := by simpa [applyOp, assertValidOp, pure, Except.pure] using h
    exact ⟨rfl, fun _ _ => rfl⟩
  rw [applyOp_eq fun v hv => hr ⟨v, hv⟩] at h
  obtain ⟨_, -, h⟩ := bind_eq_ok.mp h
  obtain ⟨address, hresolve, h⟩ := bind_eq_ok.mp h
  cases hcell : heap[address]? with
  | none => simp [hcell] at h
  | some parent =>
    simp only [hcell] at h
    obtain ⟨changed, -, h⟩ := bind_eq_ok.mp h
    obtain ⟨rfl, -⟩ : heap.set address changed = heap' ∧ root = root' := by simpa [pure, Except.pure] using h
    exact ⟨List.length_set, fun a ha => List.getElem?_set_ne (ha address hresolve).symm⟩

/-- A path leads to a container of the value. -/
theorem mem_feet_of_resolve {root : Option Val} {j : Option Json} {path : Path} {address : ℕ}
    (hroot : OwnsTarget heap root j feet) (h : resolve heap root path = .ok address) : address ∈ feet := by
  cases hroot with
  | undefined => cases h
  | @value value json feet hvalue =>
    rw [resolve] at h
    rcases resolveValue_owns hvalue path path with ⟨e, hresolve, -⟩ | ⟨node, x, inner, rest, put, hnode, hleads, -⟩
    · simp [hresolve] at h
    · simp only [hnode] at h
      cases node with
      | ref b =>
        obtain rfl : b = address := by simpa using h
        obtain ⟨cell, inner', -, -, rfl⟩ := owns_ref.mp hleads.node_owns
        rw [hleads.feet_eq]
        exact Multiset.mem_add.mpr (.inl (Multiset.mem_cons_self b inner'))
      | _ => cases h

/-- **Ops in place**, where no container of the target or of the ops stands at two places. -/
theorem apply_owns {target : Option Val} {ops : List RefOp} {j : Option Json} {jops : List Op} {rest : Multiset ℕ}
    (htarget : OwnsTarget heap target j feet) (hops : OwnsOps heap ops jops rest) (hdistinct : (feet + rest).Nodup) :
    Alike (Stands (apply heap target ops).1) (apply heap target ops).2 (Delta.apply j jops) := by
  induction ops generalizing heap target j jops feet rest with
  | nil =>
    cases hops with
    | nil => exact .ok ⟨feet, htarget⟩
  | cons op ops ih =>
    cases hops with
    | @cons _ jop _ jops opFeet rest hop hops =>
      rw [← add_assoc] at hdistinct
      obtain ⟨hfront, -, hapart⟩ := Multiset.nodup_add.mp hdistinct
      have hone := applyOp_owns htarget hop fun a _ => Multiset.nodup_iff_count_le_one.mp hfront a
      have hheap := fun heap' root' => @applyOp_heap heap heap' target root' op
      rw [apply, Delta.apply, List.foldlM_cons]
      generalize applyOp heap target op = result, Delta.applyOp j jop = resultJson at hone hheap
      cases hone with
      | error e => exact .error e
      | @ok result y happlied =>
        obtain ⟨heap', root'⟩ := result
        obtain ⟨feet', htarget', hle⟩ := happlied
        have hsame : ∀ a ∈ rest, heap'[a]? = heap[a]? := by
          refine fun a ha => (hheap heap' root' rfl).2 a fun address hresolve => ?_
          rintro rfl
          exact Multiset.disjoint_left.mp hapart
            (Multiset.mem_add.mpr (.inl (mem_feet_of_resolve htarget hresolve))) ha
        exact ih htarget' (hops.frame hsame)
          (Multiset.nodup_of_le (Multiset.add_le_add_right hle) hdistinct)

end Resolve

/-! ## Copies -/

section Copies

variable {heap heap' : Heap} {source : Val} {cell : Cell} {json : Json} {feet : Multiset ℕ} {destination : ℕ}

theorem ownValue_owns (h : CellOwns heap cell json feet) (seg : Seg) :
    ownValue cell seg = none ↔ Delta.ownValue json seg = none := by
  cases h with
  | array rows hrows =>
    cases seg with
    | index i => simp [ownValue, Delta.ownValue, Cell.child, Json.child, propertySeg, Delta.propertySeg]
    | key k =>
      simp only [ownValue, Delta.ownValue]
      split
      · simp
      · cases JsObject.arrayIndex? k <;> simp
  | object rows hrows =>
    cases seg <;>
      simp [ownValue, Delta.ownValue, Cell.child, Json.child, propertySeg, Delta.propertySeg]

theorem copyContainers_of_not_isObj (whole : Path) (hobj : json.isObj = false) (path : Path) :
    Delta.copyContainers whole (some json) path = .error (.pathError whole) := by
  cases path with
  | nil => rw [Delta.copyContainers, hobj, if_neg Bool.false_ne_true]
  | cons seg path =>
    rw [Delta.copyContainers.eq_def]
    exact if_pos (.inl hobj)

theorem copyContainers_refused (whole : Path) {seg : Seg} (hseg : Refused json seg) (path : Path) :
    Delta.copyContainers whole (some json) (seg :: path) =
      .error (if Delta.ownValue json seg = none then .pathError whole else .unsafePathError seg) := by
  obtain ⟨harray, k, rfl⟩ := hseg
  cases json with
  | array xs =>
    rw [Delta.copyContainers.eq_def]
    simp only [Json.isObj, Bool.true_eq_false, false_or]
    split <;> rfl
  | _ => cases harray

theorem copyContainers_cons (whole : Path) {seg : Seg} (hobj : json.isObj = true) (hseg : ¬Refused json seg)
    (path : Path) :
    Delta.copyContainers whole (some json) (seg :: path) = match json.child (Delta.propertySeg json seg) with
      | none => .error (.pathError whole)
      | some c =>
        (Delta.copyContainers whole (some c) path).map fun c' =>
          json.putChild (Delta.propertySeg json seg) (some c') := by
  have hbind : ∀ (r : Except DeltaError Json) (g : Json → Json), (do let c' ← r; return g c') = r.map g := by
    intro r g
    cases r <;> rfl
  have hown : Delta.ownValue json seg = json.child (Delta.propertySeg json seg) := by
    cases json <;> cases seg <;> first
      | exact absurd ⟨rfl, _, rfl⟩ hseg
      | rfl
  rw [Delta.copyContainers.eq_def]
  simp only [hobj, Bool.true_eq_false, false_or, hown, hbind]
  cases hchild : json.child (Delta.propertySeg json seg) with
  | none => rfl
  | some c =>
    simp only [reduceCtorEq, if_false]
    cases json <;> cases seg <;> first
      | exact absurd ⟨rfl, _, rfl⟩ hseg
      | rfl

theorem copyPath_refused (h : CellOwns heap cell json feet) (hsource : cellOf heap source = some cell) (whole : Path)
    {seg : Seg} (hseg : Refused json seg) (path : Path) :
    copyPath whole heap source destination (seg :: path) =
      (heap, .error (if Delta.ownValue json seg = none then .pathError whole else .unsafePathError seg)) := by
  have hown := ownValue_owns h seg
  obtain ⟨harray, k, rfl⟩ := hseg
  cases h with
  | object rows hrows => cases harray
  | array rows hrows =>
    rw [copyPath]
    simp only [hsource]
    cases hvalue : ownValue (.array (rows.map Row.val)) (.key k) with
    | none => simp only [if_pos (hown.mp hvalue)]
    | some value =>
      have hne := fun hnone => Option.some_ne_none value (hvalue.symm.trans (hown.mpr hnone))
      simp only [if_neg hne]

theorem copyPath_cons (h : CellOwns heap cell json feet) (hsource : cellOf heap source = some cell)
    (hdestination : heap[destination]? = some cell) (whole : Path) {seg : Seg} (hseg : ¬Refused json seg)
    (path : Path) :
    copyPath whole heap source destination (seg :: path) = match cell.child (propertySeg cell seg) with
      | none => (heap, .error (.pathError whole))
      | some child =>
        match cellOf heap child with
        | none => (heap, .error (.pathError whole))
        | some copied =>
          copyPath whole
            ((heap ++ [copied]).set destination (cell.putChild (propertySeg cell seg) (some (.ref heap.length))))
            child heap.length path := by
  have hmodify : ∀ copied : Cell, ((heap ++ [copied]).modify destination fun cell =>
      cell.putChild (propertySeg cell seg) (some (.ref heap.length)))
      = (heap ++ [copied]).set destination (cell.putChild (propertySeg cell seg) (some (.ref heap.length))) := by
    intro copied
    have hlt := (List.getElem?_eq_some_iff.mp hdestination).1
    rw [List.modify_eq_set_getElem?, List.getElem?_append_left hlt, hdestination]
    rfl
  have hown : ownValue cell seg = cell.child (propertySeg cell seg) := by
    cases h <;> cases seg <;> first
      | exact absurd ⟨rfl, _, rfl⟩ hseg
      | rfl
  rw [copyPath]
  simp only [hsource, hown, hmodify]
  cases hchild : cell.child (propertySeg cell seg) with
  | none => rfl
  | some child =>
    cases h <;> cases seg <;> first
      | exact absurd ⟨rfl, _, rfl⟩ hseg
      | rfl

theorem propertySeg_putChild (c : Cell) (slot : Seg) (child : Option Val) (seg : Seg) :
    propertySeg (c.putChild slot child) seg = propertySeg c seg := by
  cases c <;> cases slot <;> cases child <;> cases seg <;> rfl

theorem refused_putChild (slot : Seg) (child : Option Json) (seg : Seg) :
    Refused (json.putChild slot child) seg ↔ Refused json seg := by
  cases json <;> cases slot <;> cases child <;> exact Iff.rfl

/-- Nothing that was there has changed, but for the container that is being filled. -/
structure Filled (heap heap' : Heap) (destination : ℕ) : Prop where
  length_le : heap.length ≤ heap'.length
  same : ∀ a < heap.length, a ≠ destination → heap'[a]? = heap[a]?

/-- The path leads from `destination` to a copy: to a new container, which nothing else uses. -/
def Copied (heap heap' : Heap) (destination : ℕ) (path : Path) (y : Json) : Prop :=
  ∃ copy feet, (∀ whole, resolveValue heap' whole (.ref destination) path = .ok (.ref copy)) ∧
    (copy = destination ∨ heap.length ≤ copy) ∧ Owns heap' (.ref destination) y feet ∧ feet.count copy = 1

/-- The heap with one more copy, and another container at `destination`. -/
def extend (heap : Heap) (copied : Cell) (destination : ℕ) (cell : Cell) : Heap :=
  (heap ++ [copied]).set destination cell

theorem length_extend (copied : Cell) : (extend heap copied destination cell).length = heap.length + 1 := by
  simp [extend]

theorem extend_self (hlt : destination < heap.length) (copied : Cell) :
    (extend heap copied destination cell)[destination]? = some cell :=
  List.getElem?_set_self (by simp; omega)

theorem extend_new (hlt : destination < heap.length) (copied : Cell) :
    (extend heap copied destination cell)[heap.length]? = some copied := by
  rw [extend, List.getElem?_set_ne (Nat.ne_of_lt hlt), List.getElem?_append_right le_rfl, Nat.sub_self]
  rfl

theorem extend_old {a : ℕ} (ha : a < heap.length) (hne : a ≠ destination) (copied : Cell) :
    (extend heap copied destination cell)[a]? = heap[a]? := by
  rw [extend, List.getElem?_set_ne hne.symm, List.getElem?_append_left ha]

/-- The copy of a child, seen from the copy of its container. -/
theorem Copied.cons {next final : Heap} {child : Val} {seg slot : Seg} {path : Path} {y : Json} {rest : Multiset ℕ}
    (h : Copied next final heap.length path y) (hnext : heap.length ≤ next.length)
    (hchild : cell.child slot = some child)
    (hslot : propertySeg cell seg = slot) (hseg : ¬Refused json seg) (hlt : destination < heap.length)
    (hrest : ∀ a ∈ rest, a < heap.length)
    (hself : final[destination]? = some (cell.putChild slot (some (.ref heap.length))))
    (hput : ∀ (y : Json) (feet : Multiset ℕ), Owns final (.ref heap.length) y feet →
      CellOwns final (cell.putChild slot (some (.ref heap.length))) (json.putChild slot (some y)) (feet + rest)) :
    Copied heap final destination (seg :: path) (json.putChild slot (some y)) := by
  obtain ⟨copy, feet, hresolve, hcopyAt, hfinal, hcount⟩ := h
  have hge : heap.length ≤ copy := by omega
  have hcell : cellOf final (.ref destination) = some (cell.putChild slot (some (.ref heap.length))) := hself
  refine ⟨copy, destination ::ₘ (feet + rest), fun whole => ?_, .inr hge,
    owns_ref.mpr ⟨_, _, hself, hput y feet hfinal, rfl⟩, ?_⟩
  · rw [resolveValue_cons (hput y feet hfinal) hcell whole (fun hr => hseg ((refused_putChild _ _ _).mp hr)),
      propertySeg_putChild, hslot, Cell.child_putChild hchild]
    exact hresolve whole
  · have hcountRest : rest.count copy = 0 := Multiset.count_eq_zero.mpr fun hmem => by
      have := hrest copy hmem
      omega
    rw [Multiset.count_cons_of_ne (by omega), Multiset.count_add, hcount, hcountRest]

/-- **The copies on the way.** -/
theorem copyPath_owns (h : Owns heap source json feet) (hsource : cellOf heap source = some cell)
    (hdestination : heap[destination]? = some cell) (hapart : destination ∉ feet) (whole path : Path) :
    Filled heap (copyPath whole heap source destination path).1 destination ∧
      Alike (fun _ y => Copied heap (copyPath whole heap source destination path).1 destination path y)
        (copyPath whole heap source destination path).2 (Delta.copyContainers whole (some json) path) := by
  induction path generalizing heap source destination cell json feet with
  | nil =>
    obtain ⟨address, inner, rfl, rfl, hcellOwns⟩ := h.of_cellOf hsource
    refine ⟨⟨le_rfl, fun _ _ _ => rfl⟩, ?_⟩
    rw [Delta.copyContainers, if_pos hcellOwns.isObj]
    have hinner : destination ∉ inner := fun hmem => hapart (Multiset.mem_cons_of_mem hmem)
    refine .ok ⟨destination, destination ::ₘ inner, fun _ => rfl, .inl rfl,
      owns_ref.mpr ⟨cell, inner, hdestination, hcellOwns, rfl⟩, ?_⟩
    rw [Multiset.count_cons_self, Multiset.count_eq_zero.mpr hinner]
  | cons seg path ih =>
    obtain ⟨address, inner, rfl, rfl, hcellOwns⟩ := h.of_cellOf hsource
    by_cases hseg : Refused json seg
    · rw [copyPath_refused hcellOwns hsource whole hseg, copyContainers_refused whole hseg]
      exact ⟨⟨le_rfl, fun _ _ _ => rfl⟩, .error _⟩
    rw [copyPath_cons hcellOwns hsource hdestination whole hseg, copyContainers_cons whole hcellOwns.isObj hseg,
      ← propertySeg_eq hcellOwns]
    generalize hslot : propertySeg cell seg = slot
    cases hchild : cell.child slot with
    | none =>
      simp only [hcellOwns.child_eq_none.mp hchild]
      exact ⟨⟨le_rfl, fun _ _ _ => rfl⟩, .error _⟩
    | some child =>
      obtain ⟨c, innerFeet, rest, hc, hchildOwns, rfl, hput⟩ := hcellOwns.focus hchild
      simp only [hc]
      cases hcopied : cellOf heap child with
      | none =>
        rw [copyContainers_of_not_isObj whole (hchildOwns.cellOf_eq_none.mp hcopied)]
        exact ⟨⟨le_rfl, fun _ _ _ => rfl⟩, .error _⟩
      | some copied =>
        change Filled heap (copyPath whole (extend heap copied destination _) child heap.length path).1 _ ∧
          Alike (fun _ => Copied heap (copyPath whole (extend heap copied destination _) child heap.length path).1 _ _)
            (copyPath whole (extend heap copied destination _) child heap.length path).2 _
        generalize hnew : cell.putChild slot (some (.ref heap.length)) = new
        have hlt : destination < heap.length := (List.getElem?_eq_some_iff.mp hdestination).1
        have hfeet : ∀ a ∈ innerFeet + rest, a < heap.length ∧ a ≠ destination := fun a ha =>
          ⟨h.lt_length a (Multiset.mem_cons_of_mem ha), fun heq => hapart (heq ▸ Multiset.mem_cons_of_mem ha)⟩
        have hinner : ∀ a ∈ innerFeet, a < heap.length ∧ a ≠ destination := fun a ha =>
          hfeet a (Multiset.mem_add.mpr (.inl ha))
        have hrest : ∀ a ∈ rest, a < heap.length ∧ a ≠ destination := fun a ha =>
          hfeet a (Multiset.mem_add.mpr (.inr ha))
        have hkept : ∀ a ∈ innerFeet, (extend heap copied destination new)[a]? = heap[a]? := fun a ha =>
          extend_old (hinner a ha).1 (hinner a ha).2 copied
        obtain ⟨hfilled, halike⟩ := ih (hchildOwns.frame hkept) ((hchildOwns.cellOf_eq hkept).trans hcopied)
          (extend_new hlt copied) fun hmem => Nat.lt_irrefl _ (hinner _ hmem).1
        have hlength := @length_extend heap new destination copied
        have hsame : ∀ a < heap.length,
            (copyPath whole (extend heap copied destination new) child heap.length path).1[a]?
              = (extend heap copied destination new)[a]? := fun a ha => hfilled.same a (by omega) (Nat.ne_of_lt ha)
        have hle := hfilled.length_le
        refine ⟨⟨by omega, fun a ha hne => (hsame a ha).trans (extend_old ha hne copied)⟩, ?_⟩
        generalize copyPath whole (extend heap copied destination new) child heap.length path = result,
          Delta.copyContainers whole (some c) path = resultJson at hfilled halike hsame
        obtain ⟨final, result⟩ := result
        subst hnew
        cases halike with
        | error e => exact .error e
        | ok hcopy =>
          refine .ok (hcopy.cons (by omega) hchild hslot hseg hlt (fun a ha => (hrest a ha).1)
            ((hsame destination hlt).trans (extend_self hlt copied)) fun y feet hfinal => ?_)
          refine hput final _ y feet (fun a ha => ?_) hfinal
          exact (hsame a (hrest a ha).1).trans (extend_old (hrest a ha).1 (hrest a ha).2 copied)

/-- A target that is a copy along the path: the container at its end is new, and used once. -/
def CopiedTo (heap heap' : Heap) (path : Path) (value : Val) (y : Json) : Prop :=
  ∃ copy feet, resolve heap' (some value) path = .ok copy ∧ heap.length ≤ copy ∧ Owns heap' value y feet ∧
    feet.count copy = 1

theorem copyContainers_owns {root : Option Val} {j : Option Json} (h : OwnsTarget heap root j feet) (path : Path) :
    Kept heap (copyContainers heap root path).1 ∧
      Alike (CopiedTo heap (copyContainers heap root path).1 path) (copyContainers heap root path).2
        (Delta.copyContainers path j path) := by
  cases h with
  | undefined =>
    have hnone : Delta.copyContainers path none path = .error (.pathError path) := by cases path <;> rfl
    rw [hnone]
    exact ⟨Kept.refl heap, .error _⟩
  | @value source json feet h =>
    rw [copyContainers]
    cases hsource : cellOf heap source with
    | none =>
      have hobj := h.cellOf_eq_none.mp hsource
      rw [copyContainers_of_not_isObj path hobj]
      exact ⟨Kept.refl heap, .error _⟩
    | some cell =>
      have hkept := Kept.append heap [cell]
      have hnew : (heap ++ [cell])[heap.length]? = some cell := by simp
      obtain ⟨hfilled, halike⟩ := copyPath_owns (h.kept hkept)
        ((h.cellOf_eq fun a ha => hkept.same a (h.lt_length a ha)).trans hsource) hnew
        (fun hmem => Nat.lt_irrefl _ (h.lt_length _ hmem)) path path
      have hlength : (heap ++ [cell]).length = heap.length + 1 := by simp
      simp only
      have hle := hfilled.length_le
      refine ⟨⟨by omega, fun a ha => ?_⟩, ?_⟩
      · exact (hfilled.same a (by omega) (Nat.ne_of_lt ha)).trans (hkept.same a ha)
      · generalize copyPath path (heap ++ [cell]) source heap.length path = result,
          Delta.copyContainers path (some json) path = resultJson at halike
        obtain ⟨final, result⟩ := result
        cases halike with
        | error e => exact .error e
        | ok hcopy =>
          obtain ⟨copy, feet', hresolve, hcopyAt, hfinal, hcount⟩ := hcopy
          refine .ok ⟨copy, feet', ?_, by omega, hfinal, hcount⟩
          rw [resolve]
          simp only [hresolve]

theorem OwnsOp.kept {op : RefOp} {jop : Op} (h : OwnsOp heap op jop feet) (hkept : Kept heap heap') :
    OwnsOp heap' op jop feet :=
  h.frame fun a ha => hkept.same a (h.lt_length a ha)

theorem OwnsOps.kept {ops : List RefOp} {jops : List Op} (h : OwnsOps heap ops jops feet) (hkept : Kept heap heap') :
    OwnsOps heap' ops jops feet :=
  h.frame fun a ha => hkept.same a (h.lt_length a ha)

theorem OwnsTarget.kept {target : Option Val} {j : Option Json} (h : OwnsTarget heap target j feet)
    (hkept : Kept heap heap') : OwnsTarget heap' target j feet := by
  cases h with
  | undefined => exact .undefined
  | value h => exact .value (h.kept hkept)

/-- **One op on copies**: whatever is shared, what was there stays as it was. -/
theorem applyOpImmutable_owns {root : Option Val} {op : RefOp} {j : Option Json} {jop : Op} {outer : Multiset ℕ}
    (hroot : OwnsTarget heap root j feet) (hop : OwnsOp heap op jop outer) :
    Kept heap (applyOpImmutable heap root op).1 ∧
      Alike (Stands (applyOpImmutable heap root op).1) (applyOpImmutable heap root op).2
        (Delta.applyOpImmutable j jop) := by
  by_cases hr : ∃ v, op = .r v
  · obtain ⟨v, rfl⟩ := hr
    cases hop with
    | r hvalue => exact ⟨Kept.refl heap, .ok ⟨outer, .value hvalue⟩⟩
  have hop' : applyOpImmutable heap root op = match copyContainers heap root op.containerPath with
      | (heap, .error e) => (heap, .error e)
      | (heap, .ok copied) => apply heap (some copied) [op] := by
    cases op with
    | r v => exact absurd ⟨v, rfl⟩ hr
    | _ => rfl
  have hjop : Delta.applyOpImmutable j jop = (do
      let copied ← Delta.copyContainers op.containerPath j op.containerPath
      Delta.applyOp (some copied) jop) := by
    have hone : ∀ x : Json, Delta.apply (some x) [jop] = Delta.applyOp (some x) jop := fun x => by simp [Delta.apply]
    cases hop with
    | @r v _ _ _ => exact absurd ⟨v, rfl⟩ hr
    | _ => simp only [Delta.applyOpImmutable, hone, RefOp.containerPath, Op.containerPath]
  obtain ⟨hkept, halike⟩ := copyContainers_owns hroot op.containerPath
  rw [hop', hjop]
  generalize copyContainers heap root op.containerPath = result,
    Delta.copyContainers op.containerPath j op.containerPath = resultJson at hkept halike
  obtain ⟨final, result⟩ := result
  cases halike with
  | error e => exact ⟨hkept, .error e⟩
  | @ok copied y hcopied =>
    obtain ⟨copy, feet', hresolve, hge, hfinal, hcount⟩ := hcopied
    have hopFinal := hop.kept hkept
    have hone := applyOp_owns (.value hfinal) hopFinal fun a ha => by
      obtain rfl : copy = a := Except.ok.inj (hresolve.symm.trans ha)
      have hnot : outer.count copy = 0 := Multiset.count_eq_zero.mpr fun hmem => by
        have := hop.lt_length copy hmem
        omega
      rw [Multiset.count_add, hcount, hnot]
    have hheap := fun heap' root' => @applyOp_heap final heap' (some copied) root' op
    simp only [apply, ok_bind]
    generalize applyOp final (some copied) op = applied, Delta.applyOp (some y) jop = appliedJson at hone hheap
    cases hone with
    | error e => exact ⟨hkept, .error e⟩
    | @ok applied y happlied =>
      obtain ⟨heap', root'⟩ := applied
      obtain ⟨hlength, hsame⟩ := hheap heap' root' rfl
      obtain ⟨feet'', howns, -⟩ := happlied
      refine ⟨⟨hkept.length_le.trans hlength.ge, fun a ha => ?_⟩, .ok ⟨feet'', howns⟩⟩
      refine (hsame a fun address haddress => ?_).trans (hkept.same a ha)
      obtain rfl : copy = address := Except.ok.inj (hresolve.symm.trans haddress)
      omega

/-- **A batch on copies.** -/
theorem applyImmutable_owns {target : Option Val} {ops : List RefOp} {j : Option Json} {jops : List Op}
    {outer : Multiset ℕ} (htarget : OwnsTarget heap target j feet) (hops : OwnsOps heap ops jops outer) :
    Kept heap (applyImmutable heap target ops).1 ∧
      Alike (Stands (applyImmutable heap target ops).1) (applyImmutable heap target ops).2
        (Delta.applyImmutable j jops) := by
  induction ops generalizing heap target j jops feet outer with
  | nil =>
    cases hops with
    | nil => exact ⟨Kept.refl heap, .ok ⟨feet, htarget⟩⟩
  | cons op ops ih =>
    cases hops with
    | @cons _ jop _ jops opFeet rest hop hops =>
      obtain ⟨hkept, hone⟩ := applyOpImmutable_owns htarget hop
      rw [applyImmutable, Delta.applyImmutable, List.foldlM_cons]
      generalize applyOpImmutable heap target op = result, Delta.applyOpImmutable j jop = resultJson at hkept hone
      obtain ⟨heap', result⟩ := result
      cases hone with
      | error e => exact ⟨hkept, .error e⟩
      | ok hstands =>
        obtain ⟨feet', htarget'⟩ := hstands
        obtain ⟨hkept', hrest⟩ := ih htarget' (hops.kept hkept)
        exact ⟨hkept.trans hkept', hrest⟩

end Copies

/-! ## Agreement -/

/-- Both runs give targets that stand for one value, or both throw. -/
def SameOutcome (run run' : Heap × Except DeltaError (Option Val)) : Prop :=
  (∃ v v' y, run.2 = .ok v ∧ run'.2 = .ok v' ∧ Stands run.1 v y ∧ Stands run'.1 v' y) ∨
    ((∃ e, run.2 = .error e) ∧ ∃ e, run'.2 = .error e)

/-- Runs that both do what the functions on values do. -/
theorem sameOutcome_of_alike {run run' : Heap × Except DeltaError (Option Val)} {x : Option Json} {ops : List Op}
    (h : Alike (Stands run.1) run.2 (Delta.applyImmutable x ops))
    (h' : Alike (Stands run'.1) run'.2 (Delta.apply x ops)) :
    SameOutcome run run' := by
  have hiff := fun y => @applyImmutable_eq_ok x y ops
  obtain ⟨heap, result⟩ := run
  obtain ⟨heap', result'⟩ := run'
  generalize Delta.applyImmutable x ops = resultJson, Delta.apply x ops = resultJson' at h h' hiff
  cases h with
  | @ok v y hstands =>
    obtain rfl := (hiff y).mp rfl
    cases h' with
    | @ok v' _ hstands' => exact .inl ⟨v, v', y, rfl, rfl, hstands, hstands'⟩
  | error e =>
    cases h' with
    | @ok v' y hstands' => cases (hiff y).mpr rfl
    | error e' => exact .inr ⟨⟨e, rfl⟩, e', rfl⟩

/-- **`applyImmutable` and `apply` on a copy have the same outcome** where no container of the copy or of the ops stands
at two places. Whatever is shared, `applyImmutable` leaves every container that was there as it was, and so does every
later application to its result. -/
theorem applyImmutable_agrees {heap : Heap} {v : Option Val} {x : Option Json} {feet : Multiset ℕ} {ops : List RefOp}
    {jops : List Op} {opsFeet : Multiset ℕ} (hv : OwnsTarget heap v x feet) (hops : OwnsOps heap ops jops opsFeet) :
    (∀ (copy : Option Val) (copyFeet : Multiset ℕ), OwnsTarget heap copy x copyFeet → (copyFeet + opsFeet).Nodup →
      SameOutcome (applyImmutable heap v ops) (apply heap copy ops)) ∧
    Kept heap (applyImmutable heap v ops).1 ∧
    ∀ (later : Heap) (result : Option Val) (y : Option Json) (resultFeet : Multiset ℕ) (ops' : List RefOp)
      (jops' : List Op) (opsFeet' : Multiset ℕ), (applyImmutable heap v ops).2 = .ok result →
      OwnsTarget later result y resultFeet → OwnsOps later ops' jops' opsFeet' →
      OwnsTarget (applyImmutable later result ops').1 result y resultFeet ∧
        Kept later (applyImmutable later result ops').1 := by
  obtain ⟨hkept, halike⟩ := applyImmutable_owns hv hops
  refine ⟨fun copy copyFeet hcopy hdistinct => ?_, hkept, ?_⟩
  · exact sameOutcome_of_alike halike (apply_owns hcopy hops hdistinct)
  · intro later result y resultFeet ops' jops' opsFeet' _ hresult hops'
    obtain ⟨hkept', -⟩ := applyImmutable_owns hresult hops'
    exact ⟨hresult.kept hkept', hkept'⟩

/-- A target, a copy of it, and a value for ops. -/
def threeArrays : Heap := [.array [], .array [], .array []]

theorem threeArrays_owns {a : ℕ} (ha : a < 3) : Owns threeArrays (.ref a) (.array []) {a} := by
  have hcell : threeArrays[a]? = some (.array (List.map Row.val [])) := by
    interval_cases a <;> rfl
  exact .array a [] hcell fun r hr => by cases hr

theorem applyImmutable_agrees_threeArrays :
    (∀ (copy : Option Val) (copyFeet : Multiset ℕ), OwnsTarget threeArrays copy (some (.array [])) copyFeet →
      (copyFeet + ({2} + (0 + 0))).Nodup →
      SameOutcome (applyImmutable threeArrays (some (.ref 0)) [.s [.index 0] (.ref 2), .s [.index 0, .index 0] .null])
        (apply threeArrays copy [.s [.index 0] (.ref 2), .s [.index 0, .index 0] .null])) ∧
    SameOutcome (applyImmutable threeArrays (some (.ref 0)) [.s [.index 0] (.ref 2), .s [.index 0, .index 0] .null])
        (apply threeArrays (some (.ref 1)) [.s [.index 0] (.ref 2), .s [.index 0, .index 0] .null]) := by
  have hops : OwnsOps threeArrays [.s [.index 0] (.ref 2), .s [.index 0, .index 0] .null]
      [.s [.index 0] (.array []), .s [.index 0, .index 0] .null] ({2} + (0 + 0)) :=
    .cons (.s _ (threeArrays_owns (by decide))) (.cons (.s _ .null) .nil)
  obtain ⟨hagrees, -⟩ := applyImmutable_agrees (.value (threeArrays_owns (by decide : 0 < 3))) hops
  exact ⟨hagrees, hagrees (some (.ref 1)) {1} (.value (threeArrays_owns (by decide))) (by decide)⟩

theorem owns_pair {heap : Heap} {a : ℕ} {v v' : Val} {x x' : Json} {feet feet' : Multiset ℕ}
    (hcell : heap[a]? = some (.array [v, v'])) (h : Owns heap v x feet) (h' : Owns heap v' x' feet') :
    Owns heap (.ref a) (.array [x, x']) (a ::ₘ (feet + (feet' + 0))) := by
  refine .array a [⟨v, x, feet⟩, ⟨v', x', feet'⟩] hcell fun r hr => ?_
  rcases List.mem_cons.mp hr with rfl | hr
  · exact h
  · obtain rfl := List.mem_singleton.mp hr
    exact h'

/-- One array in two ops is one array in the value that `apply` makes, and two in that of `applyImmutable`. -/
theorem shared_payload_differs :
    ¬∀ (heap : Heap) (v copy : Option Val) (x : Option Json) (feet copyFeet : Multiset ℕ) (ops : List RefOp)
      (jops : List Op) (opsFeet : Multiset ℕ), OwnsTarget heap v x feet → OwnsTarget heap copy x copyFeet →
      copyFeet.Nodup → Disjoint copyFeet feet → Disjoint copyFeet opsFeet → OwnsOps heap ops jops opsFeet →
      SameOutcome (applyImmutable heap v ops) (apply heap copy ops) := by
  intro hall
  let ops : List RefOp := [.s [.index 0] (.ref 2), .s [.index 1] (.ref 2), .s [.index 0, .index 0] .null]
  have hops : OwnsOps threeArrays ops _ ({2} + ({2} + (0 + 0))) :=
    .cons (.s _ (threeArrays_owns (by decide))) (.cons (.s _ (threeArrays_owns (by decide))) (.cons (.s _ .null) .nil))
  have hagrees := hall threeArrays (some (.ref 0)) (some (.ref 1)) _ {0} {1} ops _ _
    (.value (threeArrays_owns (by decide))) (.value (threeArrays_owns (by decide))) (by decide) (by simp) (by simp)
    hops
  have himmutable : applyImmutable threeArrays (some (.ref 0)) ops =
      ([.array [], .array [], .array [], .array [.ref 2], .array [.ref 2, .ref 2], .array [.ref 6, .ref 2],
        .array [.null]], .ok (some (.ref 5))) := rfl
  have happly : apply threeArrays (some (.ref 1)) ops =
      ([.array [], .array [.ref 2, .ref 2], .array [.null]], .ok (some (.ref 1))) := rfl
  rw [himmutable, happly] at hagrees
  rcases hagrees with ⟨v, v', y, hv, hv', ⟨feet, hstands⟩, ⟨feet', hstands'⟩⟩ | ⟨⟨e, he⟩, -⟩
  · cases hv
    cases hv'
    have hempty : ∀ {heap : Heap} {a : ℕ}, heap[a]? = some (.array []) → Owns heap (.ref a) (.array []) {a} :=
      fun hcell => .array _ [] hcell fun r hr => by cases hr
    have hnull : ∀ {heap : Heap} {a : ℕ}, heap[a]? = some (.array [.null]) → Owns heap (.ref a) (.array [.null]) {a} :=
      fun hcell => .array _ [⟨.null, .null, 0⟩] hcell fun r hr => by
        obtain rfl := List.mem_singleton.mp hr
        exact .null
    cases hstands with
    | value howns =>
      have hcopies := (howns.unique (owns_pair rfl (hnull rfl) (hempty rfl))).1
      cases hstands' with
      | value howns' =>
        have hshared := (howns'.unique (owns_pair rfl (hnull rfl) (hnull rfl))).1
        have heq := hcopies.symm.trans hshared
        simp at heq
  · cases he

end Phi.Delta.InPlace
