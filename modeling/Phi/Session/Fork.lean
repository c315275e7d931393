import Phi.Session.Paging

/-!
# Forks

Model of `packages/agent/src/harness/session/fork-policy.ts` and `fork.ts`, and of the forks that the three storages
build from them: `MemoryStorage.fromSnapshot`, `JsonlStorage.createFromForkSnapshot` and the `fork` of
`packages/session-backends/sqlite-node/src/sqlite/repo.ts`.

A fork is built from the entries and the scalar values of its source. The policy also answers for lists, but no
snapshot carries one: the fork of a whole tree reads like its source exactly when the source stores no list at an
address that the policy copies.

Addresses are built from those of stored values only, which `value()` has accepted. The text of a JSONL file and of a
stored JSON value is not modelled here.
-/

namespace Phi.Session

open InMemoryStorageState (Order ListReadOptions resolveListLimit)

/-! ## Policy -/

inductive ForkDisposition where
  | copy
  | exclude
  | reconstruct
deriving DecidableEq

inductive ForkScope where
  | branch
  | tree
deriving DecidableEq

inductive ForkError where
  | unknownNamespace («namespace» : JsString)
  | unknownBranch (branch : JsString)
  | missingParent (entryId : JsString)
  | notOnBranch (requested branch : JsString)
  | missingTip (branch : JsString)
  | incompleteLane (branch : JsString)
  | notConfigured (branch : JsString)
  | unknownTip (branch : JsString)
  | storage (error : StorageError)

def quoted (s : JsString) : JsString := [34] ++ escapeUnits s ++ [34]

def ForkError.message : ForkError → JsString
  | .unknownNamespace ns => JsString.ofAscii "Unknown reserved fork namespace: " ++ ns
  | .unknownBranch branch => JsString.ofAscii "Unknown source branch: " ++ branch
  | .missingParent entryId => JsString.ofAscii "Corrupt source branch: missing parent " ++ entryId
  | .notOnBranch requested branch =>
    JsString.ofAscii "Fork entry " ++ requested ++ JsString.ofAscii " is not on source branch " ++ quoted branch
  | .missingTip branch =>
    JsString.ofAscii "Source session branch " ++ quoted branch ++ JsString.ofAscii " is missing branch.tip"
  | .incompleteLane branch =>
    JsString.ofAscii "Source session branch " ++ quoted branch ++ JsString.ofAscii " has incomplete lane state"
  | .notConfigured branch =>
    JsString.ofAscii "Source branch " ++ quoted branch ++ JsString.ofAscii " is not a configured AgentLane"
  | .unknownTip branch =>
    JsString.ofAscii "Source session branch " ++ quoted branch ++ JsString.ofAscii " has an unknown tip"
  | .storage error => error.message

def laneConfig (lane : JsString) : StoreAddress := ⟨JsString.ofAscii "phi.lane.config", lane⟩

def laneState (lane : JsString) : StoreAddress := ⟨JsString.ofAscii "phi.lane.state", lane⟩

/-- The namespaces whose values lane handling writes anew. -/
def IsLaneNamespace (ns : JsString) : Prop :=
  ns = (branchTip []).namespace ∨ ns = (laneConfig []).namespace ∨ ns = (laneState []).namespace

instance (ns : JsString) : Decidable (IsLaneNamespace ns) := by
  unfold IsLaneNamespace
  infer_instance

def classifyForkAddress (address : StoreAddress) (scope : ForkScope) (isEntryCopied : JsString → Bool) :
    Except ForkError ForkDisposition :=
  let ns := address.namespace
  if ns = JsString.ofAscii "phi.session.name" then .ok .copy
  else if ns = JsString.ofAscii "phi.entry.label" then .ok (if isEntryCopied address.key then .copy else .exclude)
  else if IsLaneNamespace ns then .ok .reconstruct
  else if ns = JsString.ofAscii "phi.result" then .ok .exclude
  else if JsString.ofAscii "phi.op." <+: ns ∨ JsString.ofAscii "phi.pending." <+: ns then .ok .exclude
  else if ns = JsString.ofAscii "phi" ∨ JsString.ofAscii "phi." <+: ns then .error (.unknownNamespace ns)
  else .ok (if scope = .tree then .copy else .exclude)

/-! ## Snapshots -/

structure ForkSourceSnapshot where
  entries : List Entry
  scalarValues : List StoredValue
  entriesComplete : Option Bool

structure ForkDestinationSnapshot where
  entries : Table JsString Entry
  scalarValues : List StoredValue
  nextSeq : ℕ

inductive ForkPosition where
  | before
  | at_
deriving DecidableEq

inductive ForkOptions where
  | branch (branch : JsString) (entryId : Option JsString) (position : Option ForkPosition)
  | tree

def ForkOptions.scope : ForkOptions → ForkScope
  | .branch _ _ _ => .branch
  | .tree => .tree

/-- The branch is the one that is forked alone. -/
def ForkOptions.asksFor : ForkOptions → JsString → Bool
  | .branch asked _ _, key => key = asked
  | .tree, _ => false

def storedValuesInNamespace (values : List StoredValue) (address : StoreAddress) : List StoredValue :=
  values.filter fun stored => stored.address.namespace = address.namespace

def findStoredValue (values : List StoredValue) (address : StoreAddress) : Option StoredValue :=
  values.find? fun stored => stored.address.namespace = address.namespace ∧ stored.address.key = address.key

/-- A stored tip that is neither an id nor `null` is the id of no entry. -/
def tipKnown (sourceEntries : Table JsString Entry) (tip : Json) : Bool :=
  match tipParent tip with
  | some none => true
  | some (some id) => sourceEntries.has id
  | none => false

/-- One round of the second loop of `validateForkSourceSnapshot`. -/
def validateTip (source : ForkSourceSnapshot) (sourceEntries : Table JsString Entry) (options : ForkOptions)
    (tip : StoredValue) : Except ForkError Unit :=
  let key := tip.address.key
  let configuration := findStoredValue source.scalarValues (laneConfig key)
  let state := findStoredValue source.scalarValues (laneState key)
  if configuration.isNone ≠ state.isNone then .error (.incompleteLane key)
  else if options.asksFor key ∧ configuration.isNone then .error (.notConfigured key)
  else if (source.entriesComplete ≠ some false ∨ options.scope = .tree) ∧ tipKnown sourceEntries tip.value = false then
    .error (.unknownTip key)
  else .ok ()

def validateForkSourceSnapshot (source : ForkSourceSnapshot) (sourceEntries : Table JsString Entry)
    (sourceTips : List StoredValue) (options : ForkOptions) : Except ForkError Unit := do
  source.scalarValues.forM fun stored =>
    if (stored.address.namespace = (laneConfig []).namespace ∨ stored.address.namespace = (laneState []).namespace) ∧
        stored.address.key ∉ sourceTips.map (·.address.key) then
      .error (.missingTip stored.address.key)
    else .ok ()
  sourceTips.forM (validateTip source sourceEntries options)

/-- `Set.prototype.add`. -/
def addId (ids : List JsString) (id : JsString) : List JsString := if id ∈ ids then ids else ids ++ [id]

/-- What the loop of `selectForkContents` has come to. -/
structure PathSelection where
  found : Bool
  tipId : Option JsString
  entryIds : List JsString

/-- The `while` loop of `selectForkContents`, for as many rounds as the fuel; `none` when it has not ended. -/
def selectPath (sourceEntries : Table JsString Entry) (requested : Option JsString) (position : Option ForkPosition) :
    ℕ → Option JsString → PathSelection → Option (Except ForkError PathSelection)
  | _, none, selection => some (.ok selection)
  | 0, some _, _ => none
  | fuel + 1, some entryId, selection =>
    match sourceEntries.get entryId with
    | none => some (.error (.missingParent entryId))
    | some entry =>
      selectPath sourceEntries requested position fuel entry.parentId
        (if some entry.id = requested then
          if position = some .before then { selection with found := true, tipId := entry.parentId }
          else ⟨true, some entry.id, addId selection.entryIds entry.id⟩
        else if selection.found then { selection with entryIds := addId selection.entryIds entry.id }
        else selection)

def tipJson : Option JsString → Json
  | none => .null
  | some id => .string id

def selectForkContents (sourceEntries : Table JsString Entry) (sourceTips : List StoredValue) (options : ForkOptions)
    (fuel : ℕ) : Option (Except ForkError (List JsString × Table JsString Json)) :=
  match options with
  | .tree =>
    some (.ok (sourceEntries.keys, sourceTips.foldl (fun tips stored => tips.set stored.address.key stored.value) []))
  | .branch branch entryId position =>
    match sourceTips.find? (fun stored => stored.address.key = branch) with
    | none => some (.error (.unknownBranch branch))
    | some sourceTip =>
      let tip := (tipParent sourceTip.value).getD none
      let requested := entryId.or tip
      (selectPath sourceEntries requested position fuel tip ⟨requested.isNone, none, []⟩).map fun selected => do
        let selection ← selected
        if selection.found then .ok (selection.entryIds, [(branch, tipJson selection.tipId)])
        else .error (.notOnBranch (requested.getD []) branch)

/-- A lane with no operation and nothing queued. -/
def idleLaneState : Json :=
  .object
    [(JsString.ofAscii "currentOperationId", .null), (JsString.ofAscii "lastOperationId", .null),
      (JsString.ofAscii "inbox", .array [])]

namespace ForkDestinationSnapshot

def store (snapshot : ForkDestinationSnapshot) (address : StoreAddress) (storedValue : Json) :
    ForkDestinationSnapshot :=
  { snapshot with
    scalarValues := snapshot.scalarValues ++ [⟨address, storedValue, snapshot.nextSeq⟩]
    nextSeq := snapshot.nextSeq + 1 }

/-- One round of the loop over the destination tips. -/
def storeLane (source : ForkSourceSnapshot) (snapshot : ForkDestinationSnapshot) (tip : JsString × Json) :
    ForkDestinationSnapshot :=
  let snapshot := snapshot.store (branchTip tip.1) tip.2
  match findStoredValue source.scalarValues (laneConfig tip.1) with
  | none => snapshot
  | some configuration =>
    (snapshot.store (laneConfig tip.1) configuration.value).store (laneState tip.1) idleLaneState

/-- One round of the loop over the values of the source. -/
def storeCopied (scope : ForkScope) (entryIds : List JsString) (snapshot : ForkDestinationSnapshot)
    (stored : StoredValue) : Except ForkError ForkDestinationSnapshot := do
  match ← classifyForkAddress stored.address scope (fun entryId => decide (entryId ∈ entryIds)) with
  | .copy => return snapshot.store stored.address stored.value
  | .exclude => return snapshot
  | .reconstruct => return snapshot

end ForkDestinationSnapshot

def ForkSourceSnapshot.entriesById (source : ForkSourceSnapshot) : Table JsString Entry :=
  source.entries.foldl (fun entries entry => entries.set entry.id entry) []

/-- What `createForkSnapshot` builds once the contents are selected. -/
def buildForkSnapshot (source : ForkSourceSnapshot) (scope : ForkScope) (entryIds : List JsString)
    (destinationTips : Table JsString Json) : Except ForkError ForkDestinationSnapshot :=
  let entries : Table JsString Entry :=
    entryIds.filterMap fun id => (source.entriesById.get id).map fun entry => (id, entry)
  let nextSeq := (entries.map (·.2.seq)).foldl max 0 + 1
  source.scalarValues.foldlM (ForkDestinationSnapshot.storeCopied scope entryIds)
    (destinationTips.foldl (ForkDestinationSnapshot.storeLane source) ⟨entries, [], nextSeq⟩)

def createForkSnapshot (source : ForkSourceSnapshot) (options : ForkOptions) (fuel : ℕ) :
    Option (Except ForkError ForkDestinationSnapshot) :=
  let sourceEntries := source.entriesById
  let sourceTips := storedValuesInNamespace source.scalarValues (branchTip [])
  match validateForkSourceSnapshot source sourceEntries sourceTips options with
  | .error e => some (.error e)
  | .ok () =>
    (selectForkContents sourceEntries sourceTips options fuel).map fun selected => do
      let (entryIds, destinationTips) ← selected
      buildForkSnapshot source options.scope entryIds destinationTips

def forkSnapshotWrites (snapshot : ForkDestinationSnapshot) : List CommittedWrite :=
  ((snapshot.entries.map fun x => CommittedWrite.entry x.2) ++
    snapshot.scalarValues.map fun stored => CommittedWrite.setValue stored.seq stored.address stored.value).mergeSort
    fun left right => left.seq ≤ right.seq

/-! ## Storages -/

/-- What `MemoryStorage` and `JsonlStorage` capture of their state. -/
def captureForkSource (s : InMemoryStorageState) : ForkSourceSnapshot :=
  ⟨s.snapshotEntriesAndValues.1, s.snapshotEntriesAndValues.2, none⟩

/-- What a storage makes of the snapshot of a fork, with its own error as the fork's. -/
def committed {α : Type} : InMemoryStorageState × Except StorageError α → Except ForkError InMemoryStorageState
  | (s, .ok _) => .ok s
  | (_, .error e) => .error (.storage e)

/-- `MemoryStorage.fromSnapshot`. -/
def MemoryStorage.fromSnapshot (snapshot : ForkDestinationSnapshot) : Except ForkError InMemoryStorageState :=
  committed (InMemoryStorageState.empty.applyCommitted (forkSnapshotWrites snapshot))

/-- The state of `JsonlStorage.createFromForkSnapshot`: every write is a line of its own, and is read back as one. -/
def JsonlStorage.createFromForkSnapshot (snapshot : ForkDestinationSnapshot) : Except ForkError InMemoryStorageState := do
  let s ← (forkSnapshotWrites snapshot).foldlM (fun s write => committed (s.applyCommitted [write]))
    InMemoryStorageState.empty
  return s.advanceNextSeq snapshot.nextSeq

/-- The storage a fork of `MemorySessionRepo` opens. -/
def MemorySessionRepo.fork (source : InMemoryStorageState) (options : ForkOptions) (fuel : ℕ) :
    Option (Except ForkError InMemoryStorageState) :=
  (createForkSnapshot (captureForkSource source) options fuel).map fun snapshot => snapshot >>= MemoryStorage.fromSnapshot

/-- The storage a fork of `JsonlSessionRepo` opens. -/
def JsonlSessionRepo.fork (source : InMemoryStorageState) (options : ForkOptions) (fuel : ℕ) :
    Option (Except ForkError InMemoryStorageState) :=
  (createForkSnapshot (captureForkSource source) options fuel).map fun snapshot =>
    snapshot >>= JsonlStorage.createFromForkSnapshot

/-! ## SQLite -/

/-- The rows that the SQLite storage keeps for one session. -/
structure SqliteSession where
  entries : List Entry
  scalarValues : Table StoreAddress (ℕ × Json)
  listValues : List (StoreAddress × ListElement)
  primaryKey : scalarValues.Nodup

namespace SqliteSession

def readAllEntryRows (rows : SqliteSession) : List Entry := rows.entries.mergeSort fun left right => left.seq ≤ right.seq

def readAllScalarValueRows (rows : SqliteSession) : List StoredValue :=
  (rows.scalarValues.map fun row => ⟨row.1, row.2.2, row.2.1⟩).mergeSort fun left right => left.seq ≤ right.seq

def readScalarValueRow (rows : SqliteSession) (address : StoreAddress) : Option StoredValue :=
  (rows.scalarValues.get address).map fun row => ⟨address, row.2, row.1⟩

/-- The elements of a list in the order they are read. -/
def listValueRows (rows : SqliteSession) (address : StoreAddress) (order : Option Order) : List ListElement :=
  ((rows.listValues.filter fun row => row.1 = address).map Prod.snd).mergeSort fun left right =>
    if order.getD .asc = .asc then left.seq ≤ right.seq else right.seq ≤ left.seq

def readListValueRows (rows : SqliteSession) (address : StoreAddress) (options : ListReadOptions) :
    Except StorageError (List ListElement) := do
  let limit ← resolveListLimit options
  let behindCursor := (rows.listValueRows address options.order).filter fun element =>
    match options.cursor, options.order.getD .asc with
    | none, _ => true
    | some cursor, .asc => cursor < element.seq
    | some cursor, .desc => (element.seq : ℤ) < cursor
  return behindCursor.take limit

/-- `setScalarValueRow`, for one row behind the other. -/
def setScalarValueRows (stored : List StoredValue) : Table StoreAddress (ℕ × Json) :=
  stored.foldl (fun rows x => rows.set x.address (x.seq, x.value)) []

theorem nodup_setScalarValueRows (stored : List StoredValue) : (setScalarValueRows stored).Nodup := by
  have hfold : ∀ rows : Table StoreAddress (ℕ × Json), rows.Nodup →
      (stored.foldl (fun rows x => rows.set x.address (x.seq, x.value)) rows).Nodup := by
    induction stored with
    | nil => exact fun rows h => h
    | cons x stored ih => exact fun rows h => ih _ (h.set x.address (x.seq, x.value))
  exact hfold [] List.nodup_nil

/-- The rows that the fork of a whole tree writes. -/
def forkTree (source : SqliteSession) (fuel : ℕ) : Option (Except ForkError SqliteSession) :=
  (createForkSnapshot ⟨source.readAllEntryRows, source.readAllScalarValueRows, some true⟩ .tree fuel).map fun snapshot =>
    snapshot.map fun snapshot =>
      { entries := (snapshot.entries.map Prod.snd).mergeSort fun left right => left.seq ≤ right.seq
        scalarValues := setScalarValueRows snapshot.scalarValues
        listValues := []
        primaryKey := nodup_setScalarValueRows snapshot.scalarValues }

end SqliteSession

/-! ## What a session reads -/

structure SessionReads where
  value : StoreAddress → Option Json
  list : StoreAddress → ListReadOptions → Except StorageError (List Json)

def InMemoryStorageState.reads (s : InMemoryStorageState) : SessionReads :=
  ⟨fun a => (s.getValue a).map (·.value), fun a options => (s.readList a options).map (List.map (·.value))⟩

def SqliteSession.reads (rows : SqliteSession) : SessionReads :=
  ⟨fun a => (rows.readScalarValueRow a).map (·.value),
    fun a options => (rows.readListValueRows a options).map (List.map (·.value))⟩

/-- The policy copies the address when a whole tree is forked. -/
def CopiedByTree (isEntryCopied : JsString → Bool) (a : StoreAddress) : Prop :=
  a.Valid ∧ classifyForkAddress a .tree isEntryCopied = .ok .copy

/-- Every copied address reads in the fork as in the source: the same value, and the same elements in order. -/
def ReadsAlike (isEntryCopied : JsString → Bool) (source fork : SessionReads) : Prop :=
  ∀ a, CopiedByTree isEntryCopied a → fork.value a = source.value a ∧
    ∀ order limit, fork.list a ⟨none, order, limit⟩ = source.list a ⟨none, order, limit⟩

/-! ## The snapshot -/

/-- A value is among those stored, at the address. -/
def StoresValue (values : List StoredValue) (a : StoreAddress) (v : Json) : Prop :=
  ∃ x ∈ values, x.address = a ∧ x.value = v

theorem storesValue_append {xs ys : List StoredValue} {a : StoreAddress} {v : Json} :
    StoresValue (xs ++ ys) a v ↔ StoresValue xs a v ∨ StoresValue ys a v := by
  simp only [StoresValue, List.mem_append, or_and_right, exists_or]

theorem storesValue_singleton {x : StoredValue} {a : StoreAddress} {v : Json} :
    StoresValue [x] a v ↔ x.address = a ∧ x.value = v := by
  simp [StoresValue]

theorem storesValue_perm {xs ys : List StoredValue} (h : xs.Perm ys) {a : StoreAddress} {v : Json} :
    StoresValue xs a v ↔ StoresValue ys a v := by
  simp only [StoresValue, h.mem_iff]

section
variable {isEntryCopied : JsString → Bool} {a : StoreAddress} {v : Json}

theorem classifyForkAddress_lane {scope : ForkScope} (h : IsLaneNamespace a.namespace) :
    classifyForkAddress a scope isEntryCopied = .ok .reconstruct := by
  obtain ⟨ns, key⟩ := a
  rcases h with h | h | h
  · simp only [] at h
    subst h
    rfl
  · simp only [] at h
    subst h
    rfl
  · simp only [] at h
    subst h
    rfl

theorem not_lane_of_copy {scope : ForkScope} (h : classifyForkAddress a scope isEntryCopied = .ok .copy) :
    ¬IsLaneNamespace a.namespace := by
  intro hlane
  rw [classifyForkAddress_lane hlane] at h
  cases h

theorem storesValue_store (snapshot : ForkDestinationSnapshot) (address : StoreAddress) (value : Json) :
    StoresValue (snapshot.store address value).scalarValues a v
      ↔ StoresValue snapshot.scalarValues a v ∨ (address = a ∧ value = v) := by
  rw [ForkDestinationSnapshot.store, storesValue_append, storesValue_singleton]

/-- What is stored for a lane is at addresses of its own. -/
theorem storesValue_storeLane (h : ¬IsLaneNamespace a.namespace) (source : ForkSourceSnapshot)
    (snapshot : ForkDestinationSnapshot) (tip : JsString × Json) :
    StoresValue (snapshot.storeLane source tip).scalarValues a v ↔ StoresValue snapshot.scalarValues a v := by
  have hne : ∀ address : StoreAddress, IsLaneNamespace address.namespace → address ≠ a := by
    rintro address hlane rfl
    exact h hlane
  have htip := hne (branchTip tip.1) (.inl rfl)
  have hconfig := hne (laneConfig tip.1) (.inr (.inl rfl))
  have hstate := hne (laneState tip.1) (.inr (.inr rfl))
  rw [ForkDestinationSnapshot.storeLane]
  cases findStoredValue source.scalarValues (laneConfig tip.1) with
  | none => simp [storesValue_store, htip]
  | some configuration => simp [storesValue_store, htip, hconfig, hstate]

theorem storesValue_storeLanes (h : ¬IsLaneNamespace a.namespace) (source : ForkSourceSnapshot)
    (snapshot : ForkDestinationSnapshot) (tips : Table JsString Json) :
    StoresValue (tips.foldl (ForkDestinationSnapshot.storeLane source) snapshot).scalarValues a v
      ↔ StoresValue snapshot.scalarValues a v := by
  induction tips generalizing snapshot with
  | nil => rfl
  | cons tip tips ih => exact (ih _).trans (storesValue_storeLane h source snapshot tip)

theorem storesValue_storeCopied {scope : ForkScope} {entryIds : List JsString}
    (hcopy : classifyForkAddress a scope (fun id => decide (id ∈ entryIds)) = .ok .copy)
    {snapshot snapshot' : ForkDestinationSnapshot} {x : StoredValue}
    (h : snapshot.storeCopied scope entryIds x = .ok snapshot') :
    StoresValue snapshot'.scalarValues a v
      ↔ StoresValue snapshot.scalarValues a v ∨ (x.address = a ∧ x.value = v) := by
  rw [ForkDestinationSnapshot.storeCopied, bind_eq_ok] at h
  obtain ⟨disposition, hdisposition, h⟩ := h
  have hother : disposition ≠ .copy → x.address ≠ a := by
    rintro hne rfl
    rw [hcopy] at hdisposition
    exact hne (Except.ok.inj hdisposition).symm
  cases disposition with
  | copy =>
    cases h
    exact storesValue_store snapshot x.address x.value
  | exclude =>
    cases h
    simp [hother (by simp)]
  | reconstruct =>
    cases h
    simp [hother (by simp)]

theorem storesValue_storeAllCopied {scope : ForkScope} {entryIds : List JsString}
    (hcopy : classifyForkAddress a scope (fun id => decide (id ∈ entryIds)) = .ok .copy)
    {snapshot snapshot' : ForkDestinationSnapshot} {values : List StoredValue}
    (h : values.foldlM (ForkDestinationSnapshot.storeCopied scope entryIds) snapshot = .ok snapshot') :
    StoresValue snapshot'.scalarValues a v ↔ StoresValue snapshot.scalarValues a v ∨ StoresValue values a v := by
  induction values generalizing snapshot with
  | nil =>
    cases h
    simp [StoresValue]
  | cons x values ih =>
    rw [List.foldlM_cons, bind_eq_ok] at h
    obtain ⟨next, hnext, h⟩ := h
    rw [ih h, storesValue_storeCopied hcopy hnext, ← List.singleton_append, storesValue_append, storesValue_singleton,
      or_assoc]

/-- The snapshot of a fork of the whole tree has the values of its source at the copied addresses. -/
theorem storesValue_createForkSnapshot {source : ForkSourceSnapshot} {fuel : ℕ} {snapshot : ForkDestinationSnapshot}
    (h : createForkSnapshot source .tree fuel = some (.ok snapshot))
    (hcopy : classifyForkAddress a .tree (fun id => decide (id ∈ source.entriesById.keys)) = .ok .copy) :
    StoresValue snapshot.scalarValues a v ↔ StoresValue source.scalarValues a v := by
  rw [createForkSnapshot] at h
  split at h
  · cases h
  · rw [selectForkContents, Option.map_some, Option.some.injEq] at h
    rw [storesValue_storeAllCopied hcopy h, storesValue_storeLanes (not_lane_of_copy hcopy)]
    simp [StoresValue]

end

/-! ## The state of a fork -/

/-- Values that are set one after the other: what a key holds when all of them agree on it. -/
theorem map_get_foldl_set {K V W : Type} [DecidableEq K] (f : V → W) (k : K) (source : Option W) (xs : List (K × V))
    (h : ∀ w, (∃ x ∈ xs, x.1 = k ∧ f x.2 = w) ↔ source = some w) :
    (Table.get (xs.foldl (fun (t : Table K V) x => t.set x.1 x.2) []) k).map f = source := by
  have hfold : ∀ t : Table K V, (∀ x ∈ xs, x.1 = k → source = some (f x.2)) →
      (Table.get (xs.foldl (fun (t : Table K V) x => t.set x.1 x.2) t) k).map f
        = if ∃ x ∈ xs, x.1 = k then source else (t.get k).map f := by
    clear h
    induction xs with
    | nil => simp
    | cons x xs ih =>
      intro t hxs
      rw [List.forall_mem_cons] at hxs
      rw [List.foldl_cons, ih _ hxs.2, Table.get_set]
      by_cases hkey : x.1 = k
      · rw [if_pos hkey, Option.map_some, ← hxs.1 hkey, ite_self, if_pos ⟨x, List.mem_cons_self, hkey⟩]
      · have hex : (∃ y ∈ x :: xs, y.1 = k) ↔ ∃ y ∈ xs, y.1 = k := by simp [hkey]
        simp only [if_neg hkey, hex]
  rw [hfold [] fun x hx hkey => (h _).mp ⟨x, hx, hkey, rfl⟩]
  split_ifs with hex
  · rfl
  · cases hsource : source with
    | none => rfl
    | some w =>
      obtain ⟨x, hx, hkey, -⟩ := (h w).mpr hsource
      exact absurd ⟨x, hx, hkey⟩ hex

/-- What a write sets in the map of values. -/
def CommittedWrite.scalar? : CommittedWrite → Option (JsString × StoredValue)
  | .setValue seq address value => some (physicalKey address, ⟨address, value, seq⟩)
  | _ => none

theorem forkSnapshotWrites_cases {snapshot : ForkDestinationSnapshot} {w : CommittedWrite} :
    w ∈ forkSnapshotWrites snapshot ↔ (∃ x ∈ snapshot.entries, w = .entry x.2) ∨
      ∃ x ∈ snapshot.scalarValues, w = .setValue x.seq x.address x.value := by
  simp only [forkSnapshotWrites, List.mem_mergeSort, List.mem_append, List.mem_map, eq_comm]

namespace InMemoryStorageState

variable {s : InMemoryStorageState}

/-- A fork is written with entries and values only. -/
theorem foldl_put_forkWrites {ws : List CommittedWrite}
    (h : ∀ w ∈ ws, (∃ e, w = .entry e) ∨ ∃ seq a v, w = .setValue seq a v) :
    (ws.foldl put s).scalarValues
        = (ws.filterMap CommittedWrite.scalar?).foldl (fun t x => Table.set t x.1 x.2) s.scalarValues ∧
      (ws.foldl put s).listValues = s.listValues := by
  induction ws generalizing s with
  | nil => exact ⟨rfl, rfl⟩
  | cons w ws ih =>
    rw [List.forall_mem_cons] at h
    obtain ⟨hscalars, hlists⟩ := ih (s := s.put w) h.2
    rw [List.foldl_cons, hscalars, hlists]
    rcases h.1 with ⟨e, rfl⟩ | ⟨seq, a, v, rfl⟩
    · exact ⟨rfl, rfl⟩
    · exact ⟨rfl, rfl⟩

theorem foldl_put_of_applyValidated {ws : List CommittedWrite} {stats : SessionStats}
    (h : (s.applyValidated ws).2 = .ok stats) : (s.applyValidated ws).1 = ws.foldl put s := by
  induction ws generalizing s with
  | nil => rfl
  | cons w ws ih =>
    rw [applyValidated] at h ⊢
    cases happly : s.applyWrite w with
    | error e => simp [happly] at h
    | ok next =>
      rw [happly] at h
      rw [List.foldl_cons, ← eq_put_of_applyWrite happly]
      exact ih h

theorem committed_applyCommitted {ws : List CommittedWrite} {d : InMemoryStorageState}
    (h : committed (s.applyCommitted ws) = .ok d) : d = ws.foldl put s := by
  rw [applyCommitted] at h
  split at h
  · cases h
  · cases hresult : s.applyValidated ws with
    | mk next result =>
      rw [hresult] at h
      cases result with
      | error e => cases h
      | ok stats =>
        have hput : (s.applyValidated ws).1 = ws.foldl put s := foldl_put_of_applyValidated (by rw [hresult])
        rw [hresult] at hput
        cases h
        exact hput

theorem committed_lines {ws : List CommittedWrite} {d : InMemoryStorageState}
    (h : ws.foldlM (fun s write => committed (s.applyCommitted [write])) s = .ok d) : d = ws.foldl put s := by
  induction ws generalizing s with
  | nil =>
    cases h
    rfl
  | cons w ws ih =>
    rw [List.foldlM_cons, bind_eq_ok] at h
    obtain ⟨next, hnext, h⟩ := h
    rw [List.foldl_cons, ih h, committed_applyCommitted hnext]
    rfl

/-- A read of a list from its end, or its start, on. -/
theorem readList_eq_map (s : InMemoryStorageState) (a : StoreAddress) (order : Option Order) (limit : Option ℤ) :
    s.readList a ⟨none, order, limit⟩
      = (resolveListLimit ⟨none, order, limit⟩).map fun n => (s.elementsInOrder a order).take n := by
  rw [readList]
  cases hlimit : resolveListLimit ⟨none, order, limit⟩ with
  | error e => rfl
  | ok n =>
    show Except.ok _ = Except.ok _
    congr 2
    rw [elementsInOrder]
    change (if order.getD .asc = .asc then List.filter (fun _ => true) (s.elementsAt a)
      else (List.filter (fun _ => true) (s.elementsAt a)).reverse) = _
    rw [List.filter_true]

end InMemoryStorageState

/-- The storage has the values of a snapshot, and no lists. -/
structure Holds (snapshot : ForkDestinationSnapshot) (d : InMemoryStorageState) : Prop where
  value : ∀ a, a.Valid → ∀ source, (∀ v, StoresValue snapshot.scalarValues a v ↔ source = some v) →
    (d.getValue a).map (·.value) = source
  lists : d.listValues = []

open InMemoryStorageState

theorem holds_foldl_put (snapshot : ForkDestinationSnapshot) :
    Holds snapshot ((forkSnapshotWrites snapshot).foldl put empty) := by
  have hcases : ∀ w ∈ forkSnapshotWrites snapshot, (∃ e, w = .entry e) ∨ ∃ seq a v, w = .setValue seq a v := by
    intro w hw
    rcases forkSnapshotWrites_cases.mp hw with ⟨x, -, rfl⟩ | ⟨x, -, rfl⟩
    · exact .inl ⟨x.2, rfl⟩
    · exact .inr ⟨x.seq, x.address, x.value, rfl⟩
  obtain ⟨hscalars, hlists⟩ := foldl_put_forkWrites (s := empty) hcases
  refine ⟨fun a ha source hsource => ?_, hlists⟩
  rw [getValue, hscalars]
  refine map_get_foldl_set (fun x : StoredValue => x.value) (physicalKey a) source _ fun v => ?_
  rw [← hsource v]
  constructor
  · rintro ⟨x, hx, hkey, hv⟩
    obtain ⟨w, hw, hscalar⟩ := List.mem_filterMap.mp hx
    rcases forkSnapshotWrites_cases.mp hw with ⟨y, -, rfl⟩ | ⟨y, hy, rfl⟩
    · cases hscalar
    · cases hscalar
      exact ⟨y, hy, (eq_of_physicalKey_eq ha hkey.symm).symm, hv⟩
  · rintro ⟨x, hx, rfl, hv⟩
    exact ⟨_, List.mem_filterMap.mpr ⟨_, forkSnapshotWrites_cases.mpr (.inr ⟨x, hx, rfl⟩), rfl⟩, rfl, hv⟩

theorem holds_fromSnapshot {snapshot : ForkDestinationSnapshot} {d : InMemoryStorageState}
    (h : MemoryStorage.fromSnapshot snapshot = .ok d) : Holds snapshot d := by
  rw [committed_applyCommitted h]
  exact holds_foldl_put snapshot

theorem holds_createFromForkSnapshot {snapshot : ForkDestinationSnapshot} {d : InMemoryStorageState}
    (h : JsonlStorage.createFromForkSnapshot snapshot = .ok d) : Holds snapshot d := by
  rw [JsonlStorage.createFromForkSnapshot, bind_eq_ok] at h
  obtain ⟨s, hs, h⟩ := h
  cases h
  rw [committed_lines hs]
  exact ⟨(holds_foldl_put snapshot).value, (holds_foldl_put snapshot).lists⟩

/-! ## Reading a fork -/

/-- Lists are read whole: what is stored at an address, cut to the limit. -/
structure ListsRead (reads : SessionReads) (elements : StoreAddress → Option Order → List Json) : Prop where
  eq : ∀ a order limit, reads.list a ⟨none, order, limit⟩
    = (resolveListLimit ⟨none, order, limit⟩).map fun n => (elements a order).take n

/-- A fork with the values of its source and without lists reads like the source when there is nothing to copy of a
list, and only then. -/
theorem readsAlike_iff {isEntryCopied : JsString → Bool} {source fork : SessionReads}
    {elements : StoreAddress → Option Order → List Json} (hsource : ListsRead source elements)
    (hfork : ListsRead fork fun _ _ => [])
    (hvalue : ∀ a, CopiedByTree isEntryCopied a → fork.value a = source.value a) :
    ReadsAlike isEntryCopied source fork ↔ ∀ a, CopiedByTree isEntryCopied a → ∀ order, elements a order = [] := by
  constructor
  · intro h a ha order
    -- a read without a limit returns the first thousand
    have hlist := (h a ha).2 order none
    rw [hsource.eq, hfork.eq] at hlist
    have htake : [] = (elements a order).take 1000 := Except.ok.inj hlist
    simpa using htake.symm
  · intro h a ha
    refine ⟨hvalue a ha, fun order limit => ?_⟩
    rw [hsource.eq, hfork.eq, h a ha order]

theorem listsRead_memory (s : InMemoryStorageState) :
    ListsRead s.reads fun a order => (s.elementsInOrder a order).map (·.value) := by
  refine ⟨fun a order limit => ?_⟩
  simp only [InMemoryStorageState.reads]
  rw [readList_eq_map]
  cases resolveListLimit ⟨none, order, limit⟩ with
  | error e => rfl
  | ok n => exact congrArg Except.ok (List.map_take ..)

theorem Holds.listsRead {snapshot : ForkDestinationSnapshot} {d : InMemoryStorageState} (h : Holds snapshot d) :
    ListsRead d.reads fun _ _ => [] := by
  have helements : ∀ a order, d.elementsInOrder a order = [] := by
    intro a order
    simp [elementsInOrder, elementsAt, h.lists]
  refine ⟨fun a order limit => ?_⟩
  rw [(listsRead_memory d).eq, helements]
  rfl

theorem mem_keys_entriesById (source : ForkSourceSnapshot) (id : JsString) :
    id ∈ source.entriesById.keys ↔ ∃ e ∈ source.entries, e.id = id := by
  have hfold : ∀ (entries : List Entry) (t : Table JsString Entry),
      id ∈ (entries.foldl (fun t e => t.set e.id e) t).keys ↔ id ∈ t.keys ∨ ∃ e ∈ entries, e.id = id := by
    intro entries
    induction entries with
    | nil => simp
    | cons e entries ih =>
      intro t
      rw [List.foldl_cons, ih, Table.mem_keys_set, List.exists_mem_cons_iff, ← or_assoc, eq_comm (a := id),
        or_comm (a := e.id = id)]
  rw [ForkSourceSnapshot.entriesById, hfold]
  simp

/-- The ids that are copied are those of the entries. -/
theorem has_captureForkSource {s : InMemoryStorageState} (hs : s.Invariant) :
    (fun id => decide (id ∈ (captureForkSource s).entriesById.keys)) = s.entries.has := by
  funext id
  have hiff : id ∈ (captureForkSource s).entriesById.keys ↔ id ∈ s.entries.keys := by
    rw [mem_keys_entriesById]
    simp only [captureForkSource, snapshotEntriesAndValues, List.mem_mergeSort, List.mem_map]
    constructor
    · rintro ⟨e, ⟨x, hx, rfl⟩, rfl⟩
      rw [← hs.entry_key x hx]
      exact Table.mem_keys_of_mem hx
    · intro hid
      obtain ⟨e, he⟩ := Table.exists_get_of_mem_keys hid
      exact ⟨e, ⟨_, Table.mem_of_get he, rfl⟩, hs.id_of_get he⟩
  rw [Bool.eq_iff_iff, decide_eq_true_iff, hiff, Table.has, Option.isSome_iff_ne_none, ne_eq, Table.get_eq_none_iff,
    not_not]

theorem storesValue_captureForkSource {s : InMemoryStorageState} (hs : s.Invariant) {a : StoreAddress} (ha : a.Valid)
    (v : Json) : StoresValue (captureForkSource s).scalarValues a v ↔ s.reads.value a = some v := by
  simp only [StoresValue, captureForkSource, snapshotEntriesAndValues, List.mem_map, InMemoryStorageState.reads,
    Option.map_eq_some_iff, getValue]
  constructor
  · rintro ⟨x, ⟨entry, hentry, rfl⟩, rfl, hv⟩
    refine ⟨entry.2, Table.get_of_mem hs.values.1 ?_, hv⟩
    rwa [← (hs.values.2 entry hentry).1]
  · rintro ⟨x, hx, hv⟩
    have hmem := Table.mem_of_get hx
    exact ⟨x, ⟨_, hmem, rfl⟩, (eq_of_physicalKey_eq ha (hs.values.2 _ hmem).1).symm, hv⟩

/-- A fork that holds the snapshot of the whole tree reads like its source exactly when the source has no list to
copy. -/
theorem Holds.readsAlike_iff {s d : InMemoryStorageState} (hs : s.Invariant) {fuel : ℕ}
    {snapshot : ForkDestinationSnapshot}
    (hsnapshot : createForkSnapshot (captureForkSource s) .tree fuel = some (.ok snapshot)) (h : Holds snapshot d) :
    ReadsAlike s.entries.has s.reads d.reads ↔ ∀ a, CopiedByTree s.entries.has a → s.elementsAt a = [] := by
  have hvalue : ∀ a, CopiedByTree s.entries.has a → d.reads.value a = s.reads.value a := by
    intro a ha
    refine h.value a ha.1 _ fun v => ?_
    rw [← storesValue_captureForkSource hs ha.1]
    exact storesValue_createForkSnapshot hsnapshot (by rw [has_captureForkSource hs]; exact ha.2)
  rw [Session.readsAlike_iff (listsRead_memory s) h.listsRead hvalue]
  refine forall₂_congr fun a _ => ?_
  simp only [List.map_eq_nil_iff, elementsInOrder]
  constructor
  · intro hall
    simpa using hall none
  · intro hnone order
    simp [hnone]

namespace SqliteSession

def hasEntry (rows : SqliteSession) (id : JsString) : Bool := rows.entries.any fun e => e.id = id

theorem listsRead (rows : SqliteSession) :
    ListsRead rows.reads fun a order => (rows.listValueRows a order).map (·.value) := by
  refine ⟨fun a order limit => ?_⟩
  simp only [SqliteSession.reads, readListValueRows]
  cases resolveListLimit ⟨none, order, limit⟩ with
  | error e => rfl
  | ok n =>
    show Except.ok _ = Except.ok _
    congr 1
    change List.map _ (List.take n (List.filter (fun _ => true) (rows.listValueRows a order))) = _
    rw [List.filter_true, List.map_take]

theorem storesValue_readAllScalarValueRows (rows : SqliteSession) (a : StoreAddress) (v : Json) :
    StoresValue rows.readAllScalarValueRows a v ↔ rows.reads.value a = some v := by
  rw [readAllScalarValueRows, storesValue_perm (List.mergeSort_perm _ _)]
  simp only [StoresValue, List.mem_map, SqliteSession.reads, readScalarValueRow, Option.map_map, Option.map_eq_some_iff]
  constructor
  · rintro ⟨x, ⟨row, hrow, rfl⟩, rfl, hv⟩
    exact ⟨row.2, Table.get_of_mem rows.primaryKey hrow, hv⟩
  · rintro ⟨x, hx, hv⟩
    exact ⟨_, ⟨_, Table.mem_of_get hx, rfl⟩, rfl, hv⟩

theorem get_setScalarValueRows {stored : List StoredValue} {a : StoreAddress} {source : Option Json}
    (h : ∀ v, StoresValue stored a v ↔ source = some v) : ((setScalarValueRows stored).get a).map Prod.snd = source := by
  have hfold : setScalarValueRows stored
      = (stored.map fun x => (x.address, (x.seq, x.value))).foldl
          (fun (t : Table StoreAddress (ℕ × Json)) x => t.set x.1 x.2) [] := by
    rw [setScalarValueRows, List.foldl_map]
  rw [hfold]
  refine map_get_foldl_set Prod.snd a source _ fun v => ?_
  rw [← h v]
  simp [StoresValue]

theorem forkTree_readsAlike_iff (rows d : SqliteSession) {fuel : ℕ} (h : rows.forkTree fuel = some (.ok d)) :
    ReadsAlike rows.hasEntry rows.reads d.reads
      ↔ ∀ a, CopiedByTree rows.hasEntry a → ∀ row ∈ rows.listValues, row.1 ≠ a := by
  rw [forkTree, Option.map_eq_some_iff] at h
  obtain ⟨result, hresult, h⟩ := h
  cases result with
  | error e => cases h
  | ok snapshot =>
    cases h
    have hcopied : (fun id => decide (id ∈ (ForkSourceSnapshot.entriesById
        ⟨rows.readAllEntryRows, rows.readAllScalarValueRows, some true⟩).keys)) = rows.hasEntry := by
      funext id
      rw [Bool.eq_iff_iff, decide_eq_true_iff, mem_keys_entriesById, hasEntry]
      simp [readAllEntryRows]
    have hvalue : ∀ a, CopiedByTree rows.hasEntry a →
        SessionReads.value (SqliteSession.reads
          ⟨(snapshot.entries.map Prod.snd).mergeSort fun left right => left.seq ≤ right.seq,
            setScalarValueRows snapshot.scalarValues, [], nodup_setScalarValueRows snapshot.scalarValues⟩) a
          = rows.reads.value a := by
      intro a ha
      rw [SqliteSession.reads]
      dsimp only
      rw [readScalarValueRow, Option.map_map]
      refine get_setScalarValueRows fun v => ?_
      rw [← storesValue_readAllScalarValueRows]
      exact storesValue_createForkSnapshot hresult (by rw [hcopied]; exact ha.2)
    have hfork : ListsRead (SqliteSession.reads
        ⟨(snapshot.entries.map Prod.snd).mergeSort fun left right => left.seq ≤ right.seq,
          setScalarValueRows snapshot.scalarValues, [], nodup_setScalarValueRows snapshot.scalarValues⟩)
        fun _ _ => [] := by
      refine ⟨fun a order limit => ?_⟩
      rw [(listsRead _).eq]
      simp [listValueRows]
    rw [readsAlike_iff (listsRead rows) hfork hvalue]
    refine forall₂_congr fun a _ => ?_
    have hempty : ∀ order, (rows.listValueRows a order).map (·.value) = [] ↔ ∀ row ∈ rows.listValues, row.1 ≠ a := by
      intro order
      rw [List.map_eq_nil_iff, listValueRows, ← List.length_eq_zero_iff, List.length_mergeSort, List.length_map,
        List.length_eq_zero_iff, List.filter_eq_nil_iff]
      simp
    simp only [hempty, forall_const]

end SqliteSession

/-- The fork of a whole tree reads like its source at every address that the policy copies, in each storage, exactly
when the source stores no list element at such an address. -/
theorem tree_fork_reads_alike_iff (s : InMemoryStorageState) (hs : s.Invariant) (rows : SqliteSession) (fuel : ℕ) :
    (∀ d, MemorySessionRepo.fork s .tree fuel = some (.ok d) ∨ JsonlSessionRepo.fork s .tree fuel = some (.ok d) →
      (ReadsAlike s.entries.has s.reads d.reads ↔ ∀ a, CopiedByTree s.entries.has a → s.elementsAt a = [])) ∧
    ∀ d, rows.forkTree fuel = some (.ok d) →
      (ReadsAlike rows.hasEntry rows.reads d.reads
        ↔ ∀ a, CopiedByTree rows.hasEntry a → ∀ row ∈ rows.listValues, row.1 ≠ a) := by
  refine ⟨fun d hd => ?_, fun d hd => rows.forkTree_readsAlike_iff d hd⟩
  rw [MemorySessionRepo.fork, JsonlSessionRepo.fork, Option.map_eq_some_iff, Option.map_eq_some_iff] at hd
  rcases hd with ⟨result, hresult, h⟩ | ⟨result, hresult, h⟩
  · obtain ⟨snapshot, rfl, hd⟩ := bind_eq_ok.mp h
    exact (holds_fromSnapshot hd).readsAlike_iff hs hresult
  · obtain ⟨snapshot, rfl, hd⟩ := bind_eq_ok.mp h
    exact (holds_createFromForkSnapshot hd).readsAlike_iff hs hresult

/-! ### Samples -/

def appAddress : StoreAddress := ⟨JsString.ofAscii "app", JsString.ofAscii "k"⟩

def withValue : InMemoryStorageState := runCommits empty [.new [.setValue appAddress (.bool true)] 0]

theorem tree_fork_reads_alike_value :
    ∃ d, MemorySessionRepo.fork withValue .tree 0 = some (.ok d) ∧ ReadsAlike withValue.entries.has withValue.reads d.reads := by
  have hsource : captureForkSource withValue = ⟨[], [⟨appAddress, .bool true, 1⟩], none⟩ := by
    rw [captureForkSource, snapshotEntriesAndValues]
    change ForkSourceSnapshot.mk (List.mergeSort [] _) _ _ = _
    rw [List.mergeSort_nil]
    rfl
  have hwrites : forkSnapshotWrites ⟨[], [⟨appAddress, .bool true, 1⟩], 2⟩ = [.setValue 1 appAddress (.bool true)] := by
    simp [forkSnapshotWrites]
  obtain ⟨d, hd⟩ : ∃ d, MemoryStorage.fromSnapshot ⟨[], [⟨appAddress, .bool true, 1⟩], 2⟩ = .ok d := by
    rw [MemoryStorage.fromSnapshot, hwrites]
    exact ⟨_, rfl⟩
  have hfork : MemorySessionRepo.fork withValue .tree 0 = some (.ok d) := by
    rw [MemorySessionRepo.fork, hsource, ← hd]
    rfl
  refine ⟨d, hfork, ((tree_fork_reads_alike_iff withValue (invariant_runCommits _) ⟨[], [], [], List.nodup_nil⟩ 0).1 d
    (.inl hfork)).mpr fun a _ => ?_⟩
  rfl

def withList : InMemoryStorageState := runCommits empty [.new [.appendList appAddress (.bool true)] 0]

/-- The element of an application list is not in the fork. -/
theorem tree_fork_loses_list :
    ∃ d, MemorySessionRepo.fork withList .tree 0 = some (.ok d) ∧ ¬ReadsAlike withList.entries.has withList.reads d.reads := by
  have hsource : captureForkSource withList = ⟨[], [], none⟩ := by
    rw [captureForkSource, snapshotEntriesAndValues]
    change ForkSourceSnapshot.mk (List.mergeSort [] _) _ _ = _
    rw [List.mergeSort_nil]
    rfl
  have hwrites : forkSnapshotWrites ⟨[], [], 1⟩ = [] := by
    simp [forkSnapshotWrites]
  have hfork : MemorySessionRepo.fork withList .tree 0 = some (.ok empty) := by
    rw [MemorySessionRepo.fork, hsource]
    change some (MemoryStorage.fromSnapshot ⟨[], [], 1⟩) = _
    rw [MemoryStorage.fromSnapshot, hwrites]
    rfl
  refine ⟨empty, hfork, fun h => ?_⟩
  have hlist := (h appAddress ⟨by decide, rfl⟩).2 none none
  have hlength := congrArg (fun result => result.toOption.map List.length) hlist
  revert hlength
  decide

end Phi.Session
