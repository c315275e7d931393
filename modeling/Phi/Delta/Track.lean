import Phi.Delta.Diff

/-!
# The change tracker

Model of `track` of `packages/chord/src/delta/index.ts`: the dirty tree, the mutations its proxies
perform, `walkDirty`, the two ways the baseline is brought up to date, and `flush`.

A proxy is the path it was made for. A proxy obtained from the current tree stands for the container
that path leads to, and it is blocked when the path passes through a reserved member. Tracked values are
trees, so a mutation through a proxy replaces one container of the root and touches no other.
-/

namespace Phi.Delta

open Json

/-! ## Dirty nodes -/

inductive ArrayDirty where
  | append (start : ℕ)
  | diff
  | replace
deriving DecidableEq

inductive DirtyNode where
  | mk (valueDirty : Bool) (array : Option ArrayDirty) (children : List (Seg × DirtyNode))

namespace DirtyNode

def valueDirty : DirtyNode → Bool
  | mk v _ _ => v

def array : DirtyNode → Option ArrayDirty
  | mk _ a _ => a

def children : DirtyNode → List (Seg × DirtyNode)
  | mk _ _ cs => cs

/-- `dirtyNode()`. -/
def empty : DirtyNode := mk false none []

/-- The whole subtree is compared anyway: nothing below is recorded. -/
def isClosed (n : DirtyNode) : Bool :=
  n.valueDirty || n.array == some .diff || n.array == some .replace

/-- `ensureNode(path)` followed by a change of the node it returns. Each segment on the way moves to the
end of its parent's children. -/
def update (f : DirtyNode → DirtyNode) : Path → DirtyNode → DirtyNode
  | [], n => f n
  | seg :: path, n =>
    if n.isClosed then n
    else
      let child := (Table.get n.children seg).getD empty
      mk n.valueDirty n.array (Table.erase n.children seg ++ [(seg, update f path child)])

/-- `findNode(path)`. -/
def find : Path → DirtyNode → Option DirtyNode
  | [], n => some n
  | seg :: path, n => (Table.get n.children seg).bind (find path)

/-- `markValue`, on the node itself. -/
def markValue (_ : DirtyNode) : DirtyNode := mk true none []

/-- `markArrayAppend`, on the node itself. -/
def markArrayAppend (start : ℕ) (n : DirtyNode) : DirtyNode :=
  if n.isClosed then n
  else if n.array = none then mk n.valueDirty (some (.append start)) n.children
  else n

/-- `markArrayDiff`, on the node itself. -/
def markArrayDiff (n : DirtyNode) : DirtyNode :=
  if n.valueDirty || n.array == some .replace then n else mk n.valueDirty (some .diff) []

/-- `markArrayReplace`, on the node itself. -/
def markArrayReplace (n : DirtyNode) : DirtyNode :=
  if n.valueDirty then n else mk n.valueDirty (some .replace) []

/-- `appendStart(path)`. -/
def appendStart (path : Path) (n : DirtyNode) : Option ℕ :=
  match (n.find path).bind array with
  | some (.append start) => some start
  | _ => none

end DirtyNode

/-! ## Mutations -/

/-- The arguments of a call of `splice`: none, a start, or a start, a count and the items. Numbers are
what `integer` makes of the arguments; an infinity clamps as any large integer does. -/
inductive SpliceArgs where
  | none
  | start (start : ℤ)
  | full (start deleteCount : ℤ) (items : List Json)

/-- A mutation through one proxy. On an array, `length` is assigned by `assignLength`, with what
`Number` makes of the value if that is a number at all; `reassign` assigns the container, or the proxy
of it, that stands there already; `sort` carries the order in which the engine and the comparator leave the elements, as their old indices. -/
inductive Mutation where
  | assign (key : JsString) (value : Json)
  | assignUndefined (key : JsString)
  | assignLength (next : Option ℚ)
  | reassign (key : JsString)
  | delete (key : JsString)
  | push (items : List Json)
  | pop
  | shift
  | unshift (items : List Json)
  | splice (args : SpliceArgs)
  | sort (order : List ℕ)
  | reverse
  | fill (value : Json) (start finish : Option ℤ)
  | copyWithin (target start : ℤ) (finish : Option ℤ)

/-- What a mutation records at the node of its proxy. -/
inductive Mark where
  | none
  | value (seg : Seg)
  | append (start : ℕ)
  | diff
  | replace

/-- Record a mark for the proxy at `path`. -/
def Mark.record (path : Path) (n : DirtyNode) : Mark → DirtyNode
  | .none => n
  | .value seg => n.update DirtyNode.markValue (path ++ [seg])
  | .append start => n.update (DirtyNode.markArrayAppend start) path
  | .diff => n.update DirtyNode.markArrayDiff path
  | .replace => n.update DirtyNode.markArrayReplace path

/-- Clamp a relative index into `0 .. length`. -/
def clampIndex (length : ℕ) (k : ℤ) : ℕ :=
  if k < 0 then (length + k).toNat else min k.toNat length

/-- `spliceRange`: the start and the number of removed elements. -/
def spliceRange (length : ℕ) : SpliceArgs → ℕ × ℕ
  | .none => (0, 0)
  | .start start => (clampIndex length start, length - clampIndex length start)
  | .full start deleteCount _ =>
    (clampIndex length start, min deleteCount.toNat (length - clampIndex length start))

def SpliceArgs.items : SpliceArgs → List Json
  | .full _ _ items => items
  | _ => []

/-- `norm(target, key)`: an index on an array is a number. -/
def norm (target : Json) (key : JsString) : Seg :=
  match target, JsObject.numeral? key with
  | .array _, some n => .index n
  | _, _ => .key key

/-- `guard(segment)`. -/
def guardSeg (seg : Seg) : Except DeltaError Seg :=
  if Seg.isSafe seg = false then .error (.unsafePathError seg) else .ok seg

/-- The assignment trap for an array's `length`. -/
def assignLength (xs : List Json) (start : Option ℕ) (next : Option ℚ) :
    Except DeltaError (Mark × Json) :=
  match next with
  | some q =>
    if q.den ≠ 1 ∨ q.num < 0 ∨ q.num > 4294967295 then .error (.rangeError "Invalid array length")
    else
      let next := q.num.toNat
      let before := xs.length
      if next < before then
        let mark : Mark :=
          if next = 0 then .replace
          else
            match start with
            | none => .diff
            | some s => if next < s then .diff else .none
        .ok (mark, .array (xs.take next))
      else if next > before then
        .ok (.append before, .array (xs ++ List.replicate (next - before) .null))
      else .ok (.none, .array xs)
  | none => .error (.rangeError "Invalid array length")

/-- The assignment trap of a proxy for an array, on an index or a name. -/
def assignItem (xs : List Json) (start : Option ℕ) (key : JsString) (value : Option Json) :
    Except DeltaError (Mark × Json) := do
  match ← guardSeg (norm (.array xs) key) with
  | .key k => .error (.unsafePathError (.key k))
  | .index i =>
    if i > xs.length then .error (.unsafePathError (.index i))
    else
      match value with
      | none => .error (.typeError "undefined would create a sparse array; use splice instead")
      | some v =>
        if (xs[i]?).any (strictEqual · v) then .ok (.none, .array xs)
        else if i = xs.length then .ok (.append xs.length, .array (xs ++ [v]))
        else
          let mark : Mark :=
            match start with
            | none => .value (.index i)
            | some s => if i < s then .value (.index i) else .none
          .ok (mark, .array (xs.set i v))

/-- The assignment trap of a proxy for an object. -/
def assignMember (es : List (JsString × Json)) (key : JsString) (value : Option Json) :
    Except DeltaError (Mark × Json) := do
  let seg ← guardSeg (norm (.object es) key)
  match value with
  | none => .ok (.value seg, .object (Table.erase es key))
  | some v =>
    if (Table.get es key).any (strictEqual · v) then .ok (.none, .object es)
    else .ok (.value seg, .object (JsObject.define es key v))

/-- The elements `fill(value, start, finish)` leaves. -/
def fillItems (xs : List Json) (value : Json) (start finish : Option ℤ) : List Json :=
  let s := clampIndex xs.length (start.getD 0)
  let e := clampIndex xs.length (finish.getD xs.length)
  xs.mapIdx fun i x => if s ≤ i ∧ i < e then value else x

/-- The elements `copyWithin(target, start, finish)` leaves. -/
def copyItems (xs : List Json) (target start : ℤ) (finish : Option ℤ) : List Json :=
  let dest := clampIndex xs.length target
  let source := clampIndex xs.length start
  let final := clampIndex xs.length (finish.getD xs.length)
  let count := min (final - source) (xs.length - dest)
  xs.mapIdx fun i x => if dest ≤ i ∧ i < dest + count then xs.getD (source + (i - dest)) x else x

/-- The array methods the proxy wraps; `start` is where an append recorded for the array begins. -/
def mutateArray (xs : List Json) (start : Option ℕ) : Mutation → Except DeltaError (Mark × Json)
  | .assign key value => assignItem xs start key (some value)
  | .assignUndefined key => assignItem xs start key none
  | .assignLength next => assignLength xs start next
  | .reassign _ => .ok (.none, .array xs)
  | .delete key => do
    match ← guardSeg (norm (.array xs) key) with
    | .key k => .error (.unsafePathError (.key k))
    | .index _ => .error (.typeError "delete would create a sparse array; use splice instead")
  | .push items =>
    .ok (if items = [] then .none else .append xs.length,
      .array (spliceItems xs xs.length 0 items))
  | .unshift items =>
    .ok (if items = [] then .none else .diff, .array (spliceItems xs 0 0 items))
  | .pop =>
    let mark : Mark :=
      if xs.length = 0 then .none
      else
        match start with
        | none => .diff
        | some s => if xs.length - 1 < s then .diff else .none
    .ok (mark, .array xs.dropLast)
  | .shift => .ok (if xs.length = 0 then .none else .diff, .array xs.tail)
  | .splice args =>
    let items := args.items
    let (index, remove) := spliceRange xs.length args
    let mark : Mark :=
      if remove = 0 ∧ items = [] then .none
      else if index = 0 ∧ remove = xs.length then .replace
      -- the final append payload includes all tail edits
      else if start.any (· ≤ index) then .none
      else if index = xs.length ∧ remove = 0 then .append xs.length
      else .diff
    .ok (mark, .array (spliceItems xs index remove items))
  | .sort order =>
    if order.isPerm (List.range xs.length) then .ok (.diff, .array (order.filterMap (xs[·]?)))
    else .error (.typeError "the order is not one of these elements")
  | .reverse => .ok (.diff, .array xs.reverse)
  | .fill value start finish => .ok (.diff, .array (fillItems xs value start finish))
  | .copyWithin target start finish => .ok (.diff, .array (copyItems xs target start finish))

def mutateObject (es : List (JsString × Json)) : Mutation → Except DeltaError (Mark × Json)
  | .assign key value => assignMember es key (some value)
  | .assignUndefined key => assignMember es key none
  | .reassign _ => .ok (.none, .object es)
  | .delete key => assignMember es key none
  | _ => .error (.typeError "not a function")

/-- A mutation of the container a proxy stands for. -/
def mutateTarget (target : Json) (start : Option ℕ) (m : Mutation) :
    Except DeltaError (Mark × Json) :=
  match target with
  | .array xs => mutateArray xs start m
  | .object es => mutateObject es m
  | _ => .error (.typeError "not a container")

/-! ## Walking the dirty tree -/

/-- Children of an array node with an append mark count below its start only. -/
def isSkipped (start : Option ℕ) (seg : Seg) : Bool :=
  match start with
  | none => false
  | some start =>
    match seg with
    | .index i => decide (i ≥ start)
    | .key _ => true

mutual

def walkDirty (scan : ℕ) (before after : Json) : DirtyNode → Path → Except DeltaError (List Op)
  | .mk valueDirty arrayDirty children, path =>
    if valueDirty then diffValue scan (some before) (some after) path
    else
      match arrayDirty with
      | some .replace => .ok (if jsonEqual before after then [] else emitSet path after)
      | some .diff => diffValue scan (some before) (some after) path
      | some (.append start) =>
        match before, after with
        | .array xs, .array ys =>
          if xs.length ≠ start ∨ ys.length < start then
            diffValue scan (some before) (some after) path
          else do
            let ops ← walkChildren scan before after (some start) children path
            return ops ++ if ys.length > start then [.p path start 0 (ys.drop start)] else []
        | _, _ => diffValue scan (some before) (some after) path
      | none => walkChildren scan before after none children path

def walkChildren (scan : ℕ) (before after : Json) (start : Option ℕ) :
    List (Seg × DirtyNode) → Path → Except DeltaError (List Op)
  | [], _ => .ok []
  | c :: children, path => do
    let ops ← if isSkipped start c.1 then .ok [] else walkChild scan before after c path
    let rest ← walkChildren scan before after start children path
    return ops ++ rest

def walkChild (scan : ℕ) (before after : Json) :
    Seg × DirtyNode → Path → Except DeltaError (List Op)
  | (seg, child), path =>
    match ownValue before seg, ownValue after seg with
    | some previous, some current =>
      if child.valueDirty = false ∧ previous.isObj ∧ current.isObj then
        walkDirty scan previous current child (path ++ [seg])
      else diffValue scan (some previous) (some current) (path ++ [seg])
    | previous, current => diffValue scan previous current (path ++ [seg])

end

/-! ## Bringing the baseline up to date -/

mutual

/-- No array change below but appends. -/
def canSync : DirtyNode → Bool
  | .mk _ arrayDirty children =>
    (match arrayDirty with
      | some .diff | some .replace => false
      | _ => true) && canSyncChildren children

def canSyncChildren : List (Seg × DirtyNode) → Bool
  | [] => true
  | c :: children => canSyncChild c && canSyncChildren children

def canSyncChild : Seg × DirtyNode → Bool
  | (_, child) => canSync child

end

mutual

def syncInto (baseline root : Json) : DirtyNode → Json
  | .mk _ arrayDirty children =>
    match arrayDirty, baseline, root with
    | some (.append start), .array _, .array ys =>
      match syncChildren root (some start) children baseline with
      | .array zs => .array (zs ++ ys.drop start)
      | other => other
    | _, _, _ => syncChildren root none children baseline

def syncChildren (root : Json) (start : Option ℕ) : List (Seg × DirtyNode) → Json → Json
  | [], parent => parent
  | c :: children, parent =>
    syncChildren root start children (if isSkipped start c.1 then parent else syncChild root c parent)

def syncChild (root : Json) : Seg × DirtyNode → Json → Json
  | (seg, child), parent =>
    match ownValue root seg with
    | none =>
      match parent, seg with
      | .array xs, .index i => .array (xs.eraseIdx i)
      | _, _ => parent.putChild (propertySeg parent seg) none
    | some current =>
      match ownValue parent seg with
      | some previous =>
        if child.valueDirty = false ∧ current.isObj ∧ previous.isObj ∧
            current.isArray = previous.isArray then
          write parent seg (syncInto previous current child)
        else write parent seg current
      | none => write parent seg current

end

/-! ## The tracker -/

structure Tracker where
  scan : ℕ
  root : Json
  pending : DirtyNode
  hasPending : Bool
  baseline : Option Json
  forceBase : Bool

/-- `track(root, { maxOverlapScan: scan })`. -/
def track (root : Json) (scan : ℕ) : Tracker where
  scan := scan
  root := root
  pending := .empty
  hasPending := false
  baseline := none
  forceBase := true

namespace Tracker

def clearPending (t : Tracker) : Tracker := { t with pending := .empty, hasPending := false }

/-- A mutation through the proxy at `path`; one that throws changes nothing. -/
def mutate (t : Tracker) (path : Path) (m : Mutation) : Except DeltaError Tracker :=
  match path.find? fun seg => !Seg.isSafe seg with
  | some blocked => .error (.unsafePathError blocked)
  | none =>
    match slotAt (some t.root) path with
    | none => .error (.pathError path)
    | some target => do
      let (mark, target') ← mutateTarget target (t.pending.appendStart path) m
      return { t with
        root := (putAt (some t.root) path (some target')).getD t.root
        pending := mark.record path t.pending
        hasPending := t.hasPending || match mark with | .none => false | _ => true }

def rebase (t : Tracker) : Tracker := { t.clearPending with forceBase := true }

/-- Assignment of another value to `state`. -/
def setState (t : Tracker) (next : Json) : Tracker :=
  { t.clearPending with root := next, baseline := none, forceBase := true }

/-- The baseline after a flush that emitted `out`: copied along the dirty tree where every array change
is an append, else by replaying the ops. -/
def advanceBaseline (t : Tracker) (baseline : Json) (out : List Op) :
    Except DeltaError (Option Json) :=
  if canSync t.pending then .ok (some (syncInto baseline t.root t.pending))
  else if out.length > 0 then apply (some baseline) out
  else .ok (some baseline)

def flush (t : Tracker) : Except DeltaError (List Op × Tracker) :=
  if t.forceBase then
    .ok ([.r t.root], { t.clearPending with baseline := some t.root, forceBase := false })
  else
    match t.baseline with
    | none => .ok ([], t)
    | some baseline =>
      if t.hasPending = false then .ok ([], t)
      else do
        let out ← walkDirty t.scan baseline t.root t.pending []
        let baseline' ← t.advanceBaseline baseline out
        return (out, { t.clearPending with baseline := baseline' })

end Tracker

/-! ## Runs -/

/-- What a program does with a tracker. -/
inductive Event where
  | mutate (path : Path) (m : Mutation)
  | flush
  | rebase
  | setState (next : Json)

/-- One event; the batches returned so far are kept. -/
def step (s : Tracker × List (List Op)) : Event → Except DeltaError (Tracker × List (List Op))
  | .mutate path m =>
    match s.1.mutate path m with
    | .ok t => .ok (t, s.2)
    -- the throw reaches the program, the tracker is as before
    | .error _ => .ok s
  | .flush => do
    let (ops, t) ← s.1.flush
    return (t, s.2 ++ [ops])
  | .rebase => .ok (s.1.rebase, s.2)
  | .setState next => .ok (s.1.setState next, s.2)

/-- A run of events from a fresh tracker. -/
def run (root : Json) (scan : ℕ) (events : List Event) :
    Except DeltaError (Tracker × List (List Op)) :=
  events.foldlM step (track root scan, [])

end Phi.Delta
