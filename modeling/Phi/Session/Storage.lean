import Phi.Data.Lineage
import Phi.Session.Types

/-!
# The in-memory storage state

Model of `InMemoryStorageState` of `packages/agent/src/harness/session/in-memory-storage-state.ts`, which
`MemoryStorage` and `JsonlStorage` share.

The state changes as it is written, so a throw in the middle of `applyValidated` leaves the writes before it
applied: a commit returns the state it leaves together with its outcome. The limits and cursors of the queries
are integers.
-/

namespace Phi.Session

/-! ## State -/

structure StoredValue where
  address : StoreAddress
  value : Json
  seq : ℕ

structure ListElement where
  seq : ℕ
  value : Json

structure StoredList where
  address : StoreAddress
  elements : List ListElement

def physicalKey (a : StoreAddress) : JsString := a.namespace ++ [0] ++ a.key

structure InMemoryStorageState where
  entries : Table JsString Entry
  entriesBySeq : List Entry
  scalarValues : Table JsString StoredValue
  listValues : Table JsString StoredList
  usage : Table JsString UsageRow
  stats : SessionStats
  nextSeq : ℕ

namespace InMemoryStorageState

/-- The state the constructor builds. -/
def empty : InMemoryStorageState := ⟨[], [], [], [], [], ⟨0, emptyUsage⟩, 1⟩

/-! ## Commits -/

def validateCommitted (s : InMemoryStorageState) (writes : List CommittedWrite) :
    Except StorageError Unit :=
  validateCommittedWrites writes s.nextSeq (fun id => s.entries.has id || s.usage.has id)
    (fun id => s.entries.has id)

def prepareCommit (s : InMemoryStorageState) (writes : List Write) (timestamp : ℕ) :
    Except StorageError (List CommittedWrite) := do
  let prepared := prepareStorageCommit writes s.nextSeq timestamp
  s.validateCommitted prepared
  return prepared

/-- One round of the loop of `applyValidated`. -/
def applyWrite (s : InMemoryStorageState) : CommittedWrite → Except StorageError InMemoryStorageState
  | .entry e => .ok
    { s with
      entries := s.entries.set e.id e
      entriesBySeq := s.entriesBySeq ++ [e]
      stats :=
        if e.type = .message then { s.stats with messageCount := s.stats.messageCount + 1 } else s.stats
      nextSeq := e.seq + 1 }
  | .usage row => .ok
    { s with
      usage := s.usage.set row.id row
      stats := { s.stats with usage := addUsage s.stats.usage row.usage }
      nextSeq := row.seq + 1 }
  | .deleteValue seq address => .ok
    { s with scalarValues := s.scalarValues.erase (physicalKey address), nextSeq := seq + 1 }
  | .setValue seq address value => do
    -- the address is built, and checked, before the map is written
    validateAddress address
    return { s with
      scalarValues := s.scalarValues.set (physicalKey address) ⟨address, value, seq⟩
      nextSeq := seq + 1 }
  | .deleteList seq address => .ok
    { s with listValues := s.listValues.erase (physicalKey address), nextSeq := seq + 1 }
  | .appendList seq address value =>
    match s.listValues.get (physicalKey address) with
    | none => do
      validateAddress address
      return { s with
        listValues := s.listValues.set (physicalKey address) ⟨address, [⟨seq, value⟩]⟩
        nextSeq := seq + 1 }
    | some stored => .ok
      { s with
        listValues := s.listValues.set (physicalKey address)
          { stored with elements := stored.elements ++ [⟨seq, value⟩] }
        nextSeq := seq + 1 }

/-- The loop of `applyValidated`, with the state it leaves when it throws. -/
def applyValidated (s : InMemoryStorageState) :
    List CommittedWrite → InMemoryStorageState × Except StorageError SessionStats
  | [] => (s, .ok s.stats)
  | write :: writes =>
    match s.applyWrite write with
    | .ok s' => s'.applyValidated writes
    | .error e => (s, .error e)

/-- Writes that already have their sequences, as a stored transaction does: `validateCommitted`, then
`applyValidated`. -/
def applyCommitted (s : InMemoryStorageState) (writes : List CommittedWrite) :
    InMemoryStorageState × Except StorageError SessionStats :=
  match s.validateCommitted writes with
  | .error e => (s, .error e)
  | .ok () => s.applyValidated writes

structure CommitResult where
  firstSeq : ℕ
  seqs : List ℕ
  timestamp : ℕ
  stats : SessionStats

/-- A commit as `MemoryStorage` makes it. -/
def commit (s : InMemoryStorageState) (writes : List Write) (timestamp : ℕ) :
    InMemoryStorageState × Except StorageError CommitResult :=
  match s.prepareCommit writes timestamp with
  | .error e => (s, .error e)
  | .ok prepared =>
    let (s', stats) := s.applyValidated prepared
    (s', stats.map fun stats => ⟨s.nextSeq, prepared.map CommittedWrite.seq, timestamp, stats⟩)

def advanceNextSeq (s : InMemoryStorageState) (nextSeq : ℕ) : InMemoryStorageState :=
  { s with nextSeq := max s.nextSeq nextSeq }

/-! ## Point reads -/

def getEntries (s : InMemoryStorageState) (ids : List JsString) : Table JsString Entry :=
  ids.foldl (fun found id =>
    match s.entries.get id with
    | some e => found.set id e
    | none => found) []

def getValue (s : InMemoryStorageState) (address : StoreAddress) : Option StoredValue :=
  s.scalarValues.get (physicalKey address)

def getStats (s : InMemoryStorageState) : SessionStats := s.stats

/-! ## Values and lists -/

/-- The code points of a string, lone surrogates as themselves. -/
def codePoints : JsString → List ℕ
  | [] => []
  | [u] => [u.toNat]
  | u :: v :: rest =>
    if Text.isHighSurrogate u && Text.isLowSurrogate v then
      (0x10000 + (u.toNat - 0xD800) * 0x400 + (v.toNat - 0xDC00)) :: codePoints rest
    else u.toNat :: codePoints (v :: rest)

/-- `compareKeys` is not positive: the first code points that differ decide, then the lengths. -/
def codePointsLe : List ℕ → List ℕ → Bool
  | [], _ => true
  | _ :: _, [] => false
  | a :: as, b :: bs => if a = b then codePointsLe as bs else a < b

def keyLe (left right : StoredValue) : Bool :=
  codePointsLe (codePoints left.address.key) (codePoints right.address.key)

def scanValues (s : InMemoryStorageState) (pre : StoreAddress) : List StoredValue :=
  ((s.scalarValues.map Prod.snd).filter fun stored =>
    stored.address.namespace = pre.namespace ∧ pre.key <+: stored.address.key).mergeSort keyLe

inductive Order where
  | asc
  | desc
deriving DecidableEq

structure ListReadOptions where
  cursor : Option ℤ
  order : Option Order
  limit : Option ℤ

/-- The limit of `resolveListReadOptions`; the order defaults to ascending. -/
def resolveListLimit (options : ListReadOptions) : Except StorageError ℕ :=
  let requestedLimit := options.limit.getD 1000
  if requestedLimit ≤ 0 ∨ 2 ^ 53 - 1 < requestedLimit then
    .error (.typeError "List read limit must be a positive safe integer")
  else .ok (min requestedLimit 10000).toNat

def readList (s : InMemoryStorageState) (address : StoreAddress) (options : ListReadOptions) :
    Except StorageError (List ListElement) := do
  let limit ← resolveListLimit options
  let order := options.order.getD .asc
  let elements :=
    match s.listValues.get (physicalKey address) with
    | some stored => stored.elements
    | none => []
  let filtered := elements.filter fun element =>
    match options.cursor, order with
    | none, _ => true
    | some cursor, .asc => cursor < element.seq
    | some cursor, .desc => (element.seq : ℤ) < cursor
  let ordered := if order = .asc then filtered else filtered.reverse
  return ordered.take limit

/-! ## Scans -/

inductive BranchOrder where
  | newestFirst
  | oldestFirst
deriving DecidableEq

structure StorageBranchScan where
  start : JsString
  stopAtType : Option EntryType
  stopAtId : Option JsString
  type : Option EntryType
  customType : Option JsString
  order : BranchOrder
  limit : Option ℤ
  cursor : Option ℤ

/-- The `while` loop of `scanBranch`, for as many rounds as `fuel` says; `none` when it has not ended. -/
def walkParents (entries : Table JsString Entry) :
    ℕ → Entry → Option (Except StorageError (List Entry))
  | 0, _ => none
  | fuel + 1, e =>
    match e.parentId with
    | none => some (.ok [e])
    | some parent =>
      match entries.get parent with
      | none => some (.error .missingBranchParent)
      | some next => (walkParents entries fuel next).map (Except.map (e :: ·))

/-- Whether the scan stops after this entry. -/
def stopsAt (query : StorageBranchScan) (e : Entry) : Bool :=
  some e.id = query.stopAtId || some e.type = query.stopAtType

/-- The entries up to the first that the scan stops at, that one included. -/
def stopped (query : StorageBranchScan) : List Entry → List Entry
  | [] => []
  | e :: rest => if stopsAt query e then [e] else e :: stopped query rest

/-- Whether an entry lies beyond the cursor in scan order. -/
def pastCursor (query : StorageBranchScan) (e : Entry) : Bool :=
  match query.cursor, query.order with
  | none, _ => true
  | some cursor, .oldestFirst => cursor < e.seq
  | some cursor, .newestFirst => (e.seq : ℤ) < cursor

/-- The type, custom type and cursor filters. -/
def matchesScan (query : StorageBranchScan) (e : Entry) : Bool :=
  (query.type = none ∨ query.type = some e.type) ∧
    (query.customType = none ∨ query.customType = e.customType) ∧ pastCursor query e

def applyLimit {α : Type*} (limit : Option ℤ) (rows : List α) : List α :=
  match limit with
  | none => rows
  | some limit => rows.take (max 0 limit).toNat

/-- What `scanBranch` returns for the line from the start to a root. -/
def selectBranch (query : StorageBranchScan) (path : List Entry) : List Entry :=
  let ordered := if query.order = .oldestFirst then path.reverse else path
  applyLimit query.limit ((stopped query ordered).filter (matchesScan query))

def scanBranch (s : InMemoryStorageState) (query : StorageBranchScan) (fuel : ℕ) :
    Option (Except StorageError (List Entry)) :=
  match s.entries.get query.start with
  | none => some (.error (.unknownStart query.start))
  | some start => (walkParents s.entries fuel start).map (Except.map (selectBranch query))

structure EntryScan where
  type : Option EntryType
  customType : Option JsString
  fromSeq : Option ℤ
  toSeq : Option ℤ
  order : Option Order
  limit : Option ℤ

def matchesEntryScan (query : EntryScan) (e : Entry) : Bool :=
  (query.type = none ∨ query.type = some e.type) ∧
    (query.customType = none ∨ query.customType = e.customType) ∧
    (∀ fromSeq ∈ query.fromSeq, fromSeq ≤ e.seq) ∧ ∀ toSeq ∈ query.toSeq, (e.seq : ℤ) ≤ toSeq

/-- The loop of `scanEntries` over the entries in scan order. -/
def scanEntries.loop (query : EntryScan) (limit : Option ℕ) : List Entry → List Entry → List Entry
  | found, [] => found
  | found, e :: rest =>
    if ∃ n ∈ limit, n ≤ found.length then found
    else loop query limit (if matchesEntryScan query e then found ++ [e] else found) rest

def scanEntries (s : InMemoryStorageState) (query : EntryScan) : List Entry :=
  let limit := query.limit.map fun limit => (max 0 limit).toNat
  scanEntries.loop query limit []
    (if query.order = some .desc then s.entriesBySeq.reverse else s.entriesBySeq)

structure UsageScan where
  fromSeq : Option ℤ
  toSeq : Option ℤ
  order : Option Order
  limit : Option ℤ

def scanUsage (s : InMemoryStorageState) (query : UsageScan) : List UsageRow :=
  let rows := (s.usage.map Prod.snd).filter fun row =>
    (∀ fromSeq ∈ query.fromSeq, fromSeq ≤ row.seq) ∧ ∀ toSeq ∈ query.toSeq, (row.seq : ℤ) ≤ toSeq
  applyLimit query.limit
    (rows.mergeSort fun left right =>
      if query.order = some .desc then right.seq ≤ left.seq else left.seq ≤ right.seq)

/-- The entries and values a fork starts from. -/
def snapshotEntriesAndValues (s : InMemoryStorageState) : List Entry × List StoredValue :=
  ((s.entries.map Prod.snd).mergeSort fun left right => left.seq ≤ right.seq, s.scalarValues.map Prod.snd)

end InMemoryStorageState

end Phi.Session
