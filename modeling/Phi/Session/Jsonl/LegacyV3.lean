import Phi.Ai.Uuid
import Phi.Data.Walk
import Phi.Session.Fork
import Phi.Session.Jsonl.Storage

/-!
# Sessions of format 3

Model of `packages/agent/src/harness/session/jsonl/legacy-v3.ts`, over the records that the lines of a file parse to, and
of `JsonlStorage.openLegacyV3`.

Some records of the old format are no entries of the new one. References to them go to the nearest retained ancestor,
which `RetainedIdResolver` looks up with a cache: whatever resolves ids is a computation with that cache as its state.

`Date.parse`, the random bytes and the sequence of the id generator are an `ImportEnvironment`.
-/

namespace Phi.Session.Jsonl

open Phi.Ai

/-! ## Records -/

inductive RetainedLegacyV3Record where
  | message (message : Json)
  | custom (customType : JsString) (data : Option Json)
  | customMessage (customType : JsString) (content : Json) (details : Option Json) (display : Bool)
  | branchSummary (fromId summary : JsString) (details : Option Json) (usage : Option Usage) (fromHook : Option Bool)
  | compaction (summary firstKeptEntryId : JsString) (tokensBefore : ℚ) (details : Option Json) (usage : Option Usage)
    (fromHook : Option Bool)

inductive DiscardedLegacyV3Record where
  | modelChange (provider modelId : JsString)
  | thinkingLevelChange (thinkingLevel : JsString)
  | activeToolsChange (activeToolNames : List JsString)
  | sessionInfo (name : Option JsString)
  | label (targetId : JsString) (label : Option JsString)

inductive LegacyV3Record where
  | retained (record : RetainedLegacyV3Record)
  | discarded (record : DiscardedLegacyV3Record)

structure LegacyV3Entry where
  id : JsString
  parentId : Option JsString
  timestamp : JsString
  record : LegacyV3Record

def isRetainedEntry (entry : LegacyV3Entry) : Bool :=
  match entry.record with
  | .retained _ => true
  | .discarded _ => false

inductive LegacyV3Error where
  | uuid (cause : UuidError)
  | duplicateId (id : JsString)
  | cycle (id : JsString)
  | missingReference (id : JsString)
  | missingParent (id : JsString)
  | noRetainedAncestor (id : JsString)
  | notOnParentBranch (compaction firstKeptEntryId : JsString)

def LegacyV3Error.message : LegacyV3Error → JsString
  | .uuid cause => cause.message
  | .duplicateId id => JsString.ofAscii "Duplicate legacy v3 entry id: " ++ id
  | .cycle id => JsString.ofAscii "Cycle in legacy v3 parent chain at entry: " ++ id
  | .missingReference id => JsString.ofAscii "Missing legacy v3 entry reference: " ++ id
  | .missingParent id => JsString.ofAscii "Missing legacy v3 parent entry: " ++ id
  | .noRetainedAncestor id => JsString.ofAscii "Legacy v3 entry reference has no retained ancestor: " ++ id
  | .notOnParentBranch compaction firstKeptEntryId =>
    JsString.ofAscii "Legacy v3 compaction " ++ compaction
      ++ JsString.ofAscii " firstKeptEntryId is not on its parent branch: " ++ firstKeptEntryId

structure ImportEnvironment where
  /-- `Date.parse`; `none` where the text is no date. -/
  dateParse : JsString → Option ℤ
  /-- The sequence of the id generator, if it has been used. -/
  sequence : Option ℕ
  sequence_le : ∀ s ∈ sequence, s ≤ maxSequence
  random : ℕ → RandomBytes

/-- The timestamp of a retained entry: an id was minted from it, so it is a natural number. -/
def ImportEnvironment.timestampOf (E : ImportEnvironment) (timestamp : JsString) : ℕ :=
  ((E.dateParse timestamp).getD 0).toNat

/-! ## Ids -/

abbrev ResolvedIds := Table JsString (Option JsString)

/-- A computation that resolves ids. -/
abbrev Resolving := StateT ResolvedIds (Except LegacyV3Error)

structure RetainedIdResolver where
  /-- All records, by id. -/
  entriesById : Table JsString LegacyV3Entry
  /-- The new ids of the retained ones. -/
  remintedIds : Table JsString JsString

namespace RetainedIdResolver

variable (resolver : RetainedIdResolver)

/-- The loop of `resolve`: the ids it traversed, and what they resolve to. -/
def traverse (resolvedIds : ResolvedIds) (legacyId : Option JsString) :
    Except LegacyV3Error (List JsString × Option JsString) :=
  let exit (traversedIds : List JsString) (currentId : JsString) : Option (List JsString × Option JsString) :=
    match resolver.remintedIds.get currentId with
    | some remintedId => some (traversedIds, some remintedId)
    | none => (resolvedIds.get currentId).map fun resolvedId => (traversedIds, resolvedId)
  let visit (traversedIds : List JsString) (currentId : JsString) (_ : LegacyV3Entry) :
      List JsString ⊕ List JsString × Option JsString := .inl (traversedIds ++ [currentId])
  match walk resolver.entriesById LegacyV3Entry.parentId exit visit [] [] legacyId with
  | .ok (.inl traversedIds) => .ok (traversedIds, none)
  | .ok (.inr found) => .ok found
  | .error (.cycle id) => .error (.cycle id)
  | .error (.missing id) => .error (.missingReference id)

/-- The new id of a record, or of its nearest retained ancestor when it is discarded; `none` without one. -/
def resolve (legacyId : Option JsString) : Resolving (Option JsString) := fun resolvedIds => do
  let (traversedIds, resolvedId) ← resolver.traverse resolvedIds legacyId
  return (resolvedId, traversedIds.foldl (fun resolvedIds id => resolvedIds.set id resolvedId) resolvedIds)

def requireRetainedId (legacyId : JsString) : Resolving JsString := do
  match ← resolver.resolve (some legacyId) with
  | none => throw (.noRetainedAncestor legacyId)
  | some importedId => return importedId

def resolveBranchSummaryFromId (legacyFromId : JsString) : Resolving (Option JsString) :=
  -- The old format wrote a source at the root as this word.
  if legacyFromId = name "root" then return none else resolver.resolve (some legacyFromId)

end RetainedIdResolver

/-! ## Entries -/

def importedCustomMessage (E : ImportEnvironment) (timestamp customType : JsString) (content : Json)
    (details : Option Json) (display : Bool) : Json :=
  .object ([(name "role", text "custom"), (name "customType", .string customType), (name "content", content)]
    ++ optional "details" details
    ++ [(name "display", .bool display), (name "timestamp", count (E.timestampOf timestamp))])

def createBranchSummaryMessage (summary : JsString) (fromId : Option JsString) (timestamp : ℕ) : Json :=
  .object [(name "role", text "branchSummary"), (name "summary", .string summary), (name "fromId", parentJson fromId),
    (name "timestamp", count timestamp)]

def createCompactionSummaryMessage (summary : JsString) (tokensBefore : ℚ) (timestamp : ℕ) : Json :=
  .object [(name "role", text "compactionSummary"), (name "summary", .string summary),
    (name "tokensBefore", .number tokensBefore), (name "timestamp", count timestamp)]

section
variable (E : ImportEnvironment) (resolver : RetainedIdResolver)

def projectContextMessages (entry : LegacyV3Entry) : Resolving (List Json) :=
  match entry.record with
  | .retained (.message message) => return [message]
  | .retained (.customMessage customType content details display) =>
    return [importedCustomMessage E entry.timestamp customType content details display]
  | .retained (.branchSummary fromId summary _ _ _) =>
    if summary = [] then return []
    else do
      let fromId ← resolver.resolveBranchSummaryFromId fromId
      return [createBranchSummaryMessage summary fromId (E.timestampOf entry.timestamp)]
  | .retained (.compaction summary _ tokensBefore _ _ _) =>
    return [createCompactionSummaryMessage summary tokensBefore (E.timestampOf entry.timestamp)]
  | .retained (.custom _ _) => return []
  | .discarded _ => return []

/-- The loop of `materializeRetainedTail`: the records from the first kept one to the parent of the compaction. -/
def retainedTail (compactionId : JsString) (parentId : Option JsString) (firstKeptEntryId : JsString) :
    Except LegacyV3Error (List LegacyV3Entry) :=
  let visit (tail : List LegacyV3Entry) (currentId : JsString) (entry : LegacyV3Entry) :
      List LegacyV3Entry ⊕ List LegacyV3Entry :=
    if currentId = firstKeptEntryId then .inr (entry :: tail) else .inl (entry :: tail)
  match walk resolver.entriesById LegacyV3Entry.parentId (fun _ _ => none) visit [] [] parentId with
  | .ok (.inl _) => .error (.notOnParentBranch compactionId firstKeptEntryId)
  | .ok (.inr tail) => .ok tail
  | .error (.cycle id) => .error (.cycle id)
  | .error (.missing id) => .error (.missingParent id)

def materializeRetainedTail (compactionId : JsString) (parentId : Option JsString) (firstKeptEntryId : JsString) :
    Resolving (List Json) := do
  let tail ← retainedTail resolver compactionId parentId firstKeptEntryId
  let messages ← tail.mapM (projectContextMessages E resolver)
  return messages.flatten

/-- The type of the entry, its custom type and its own fields. -/
def retainedFields (entry : LegacyV3Entry) : RetainedLegacyV3Record → Resolving (EntryType × Option JsString × Members)
  | .message message => return (.message, none, [(name "message", message)])
  | .customMessage customType content details display =>
    return (.message, none,
      [(name "message", importedCustomMessage E entry.timestamp customType content details display)])
  | .branchSummary fromId summary details usage fromHook => do
    let fromId ← resolver.resolveBranchSummaryFromId fromId
    return (.branchSummary, none,
      [(name "fromId", parentJson fromId), (name "summary", .string summary)] ++ optional "details" details
        ++ optional "usage" (usage.map usageJson) ++ [(name "fromHook", .bool (fromHook.getD false))])
  | .compaction summary firstKeptEntryId tokensBefore details usage fromHook => do
    let retainedTail ← materializeRetainedTail E resolver entry.id entry.parentId firstKeptEntryId
    return (.compaction, none,
      [(name "summary", .string summary), (name "retainedTail", .array retainedTail),
          (name "tokensBefore", .number tokensBefore)] ++ optional "details" details
        ++ optional "usage" (usage.map usageJson) ++ [(name "fromHook", .bool (fromHook.getD false))])
  | .custom customType data => return (.custom, some customType, optional "data" data)

def normalizeRetainedEntry (entry : LegacyV3Entry) (record : RetainedLegacyV3Record) (seq : ℕ) : Resolving Entry := do
  let id ← resolver.requireRetainedId entry.id
  let parentId ← resolver.resolve entry.parentId
  let (type, customType, fields) ← retainedFields E resolver entry record
  return ⟨⟨id, parentId, type, customType, fields⟩, seq, E.timestampOf entry.timestamp⟩

end

/-! ## Values -/

def thinkingLevels : List JsString :=
  [name "off", name "minimal", name "low", name "medium", name "high", name "xhigh", name "max"]

/-- What the walk of `selectedConfiguration` has seen: `none` before the nearest change of a kind, `some none` behind one
whose value is not supported. -/
structure Selection where
  model : Option (Option (JsString × JsString)) := none
  thinkingLevel : Option (Option JsString) := none
  activeToolNames : Option (List JsString) := none

def Selection.complete (s : Selection) : Bool :=
  s.model.isSome && s.thinkingLevel.isSome && s.activeToolNames.isSome

def Selection.visit (s : Selection) (entry : LegacyV3Entry) : Selection :=
  match entry.record with
  | .discarded (.modelChange provider modelId) =>
    if s.model.isSome then s
    else { s with model := some (if provider ≠ [] ∧ modelId ≠ [] then some (provider, modelId) else none) }
  | .discarded (.thinkingLevelChange thinkingLevel) =>
    if s.thinkingLevel.isSome then s
    else { s with thinkingLevel := some (if thinkingLevel ∈ thinkingLevels then some thinkingLevel else none) }
  | .discarded (.activeToolsChange activeToolNames) =>
    if s.activeToolNames.isSome then s else { s with activeToolNames := some activeToolNames }
  | _ => s

structure LaneConfiguration where
  provider : JsString
  modelId : JsString
  thinkingLevel : JsString
  activeToolNames : List JsString

def LaneConfiguration.json (c : LaneConfiguration) : Json :=
  .object [(name "model", .object [(name "provider", .string c.provider), (name "modelId", .string c.modelId)]),
    (name "thinkingLevel", .string c.thinkingLevel), (name "activeToolNames", .array (c.activeToolNames.map .string))]

def selectedConfiguration (entriesById : Table JsString LegacyV3Entry) (selectedId : Option JsString) :
    Except LegacyV3Error (Option LaneConfiguration) :=
  let configuration (s : Selection) : Option LaneConfiguration := do
    let (provider, modelId) ← s.model.join
    let thinkingLevel ← s.thinkingLevel.join
    return ⟨provider, modelId, thinkingLevel, s.activeToolNames.getD []⟩
  let exit (s : Selection) (_ : JsString) : Option Selection := if s.complete then some s else none
  let visit (s : Selection) (_ : JsString) (entry : LegacyV3Entry) : Selection ⊕ Selection := .inl (s.visit entry)
  match walk entriesById LegacyV3Entry.parentId exit visit [] {} selectedId with
  | .ok (.inl s) => .ok (configuration s)
  | .ok (.inr s) => .ok (configuration s)
  | .error (.cycle id) => .error (.cycle id)
  | .error (.missing id) => .error (.missingReference id)

def sessionName : StoreAddress := ⟨JsString.ofAscii "phi.session.name", []⟩

def entryLabel (entryId : JsString) : StoreAddress := ⟨JsString.ofAscii "phi.entry.label", entryId⟩

/-- The name that the last `session_info` gives, when it gives one. -/
def latestSessionName (entries : List LegacyV3Entry) : Option JsString :=
  let infos := entries.filterMap fun entry =>
    match entry.record with
    | .discarded (.sessionInfo sessionName) => some sessionName
    | _ => none
  infos.getLast?.join.filter fun sessionName => sessionName ≠ []

/-- The loop over the label records. -/
def importLabels (resolver : RetainedIdResolver) : List LegacyV3Entry → Table JsString JsString →
    Resolving (Table JsString JsString)
  | [], labels => return labels
  | entry :: entries, labels =>
    match entry.record with
    | .discarded (.label targetId label) => do
      match ← resolver.resolve (some targetId) with
      -- A label has no address when its target has no retained ancestor.
      | none => importLabels resolver entries labels
      | some targetId =>
        match label.filter fun label => label ≠ [] with
        | some label => importLabels resolver entries (labels.set targetId label)
        | none => importLabels resolver entries (labels.erase targetId)
    | _ => importLabels resolver entries labels

/-- The values, each with its address. -/
def legacyValues (resolver : RetainedIdResolver) (entries : List LegacyV3Entry) :
    Resolving (List (StoreAddress × Json)) := do
  let names := (latestSessionName entries).toList.map fun latest => (sessionName, Json.string latest)
  let labels ← importLabels resolver entries []
  let finalId := entries.getLast?.map LegacyV3Entry.id
  let tip ← resolver.resolve finalId
  let configuration ← selectedConfiguration resolver.entriesById finalId
  let lane := configuration.toList.flatMap fun configuration =>
    [(laneConfig (name "main"), configuration.json),
      (laneState (name "main"),
        Json.object [(name "currentOperationId", .null), (name "lastOperationId", .null), (name "inbox", .array [])])]
  return names ++ (labels.map fun label => (entryLabel label.1, Json.string label.2))
    ++ [(branchTip (name "main"), parentJson tip)] ++ lane

/-- Writes of consecutive sequences. -/
def setWrites (firstSeq : ℕ) : List (StoreAddress × Json) → List CommittedWrite
  | [] => []
  | (address, value) :: rest => .setValue firstSeq address value :: setWrites (firstSeq + 1) rest

/-! ## The whole file -/

/-- The usage of a message: only those of an assistant and of a tool result have one. -/
def messageUsage : Json → Option Usage
  | .object es =>
    match readText (member es "role") with
    | .ok role =>
      if role = name "assistant" ∨ role = name "toolResult" then
        (readObject (member es "usage") >>= readUsage).toOption
      else none
    | .error _ => none
  | _ => none

def importedUsageOf (entry : LegacyV3Entry) : Option Usage :=
  match entry.record with
  | .retained (.message message) => messageUsage message
  | .retained (.compaction _ _ _ _ usage _) => usage
  | .retained (.branchSummary _ _ _ usage _) => usage
  | _ => none

def aggregateImportedUsage (entries : List LegacyV3Entry) : Usage :=
  (entries.filterMap importedUsageOf).foldl addUsage emptyUsage

/-- The records by id. -/
def inventory : List LegacyV3Entry → Table JsString LegacyV3Entry →
    Except LegacyV3Error (Table JsString LegacyV3Entry)
  | [], entriesById => .ok entriesById
  | entry :: entries, entriesById =>
    if entriesById.has entry.id then .error (.duplicateId entry.id)
    else inventory entries (entriesById.set entry.id entry)

/-- New ids for entries, from the `index`-th call of the generator on. -/
def remint (E : ImportEnvironment) : ℕ → Option ℕ → List LegacyV3Entry →
    Except LegacyV3Error (List (JsString × JsString))
  | _, _, [] => .ok []
  | index, sequence, entry :: entries => do
    let (id, sequence) ← (uuidv7 sequence (E.dateParse entry.timestamp) (E.random index)).mapError .uuid
    let rest ← remint E (index + 1) (some sequence) entries
    return (entry.id, id) :: rest

/-- The map that is built from pairs. -/
def remintedTable (minted : List (JsString × JsString)) : Table JsString JsString :=
  minted.foldl (fun remintedIds ids => Table.set remintedIds ids.1 ids.2) []

/-- The retained entries, with their records. -/
def retainedEntries (entries : List LegacyV3Entry) : List (LegacyV3Entry × RetainedLegacyV3Record) :=
  entries.filterMap fun entry =>
    match entry.record with
    | .retained record => some (entry, record)
    | .discarded _ => none

/-- The entries, with sequences from `seq` on. -/
def normalizeRetainedEntries (E : ImportEnvironment) (resolver : RetainedIdResolver) : ℕ →
    List (LegacyV3Entry × RetainedLegacyV3Record) → Resolving (List Entry)
  | _, [] => return []
  | seq, (entry, record) :: rest => do
    let entry ← normalizeRetainedEntry E resolver entry record seq
    let entries ← normalizeRetainedEntries E resolver (seq + 1) rest
    return entry :: entries

structure NormalizedLegacyV3Records where
  writes : List CommittedWrite
  importedUsage : Usage
  nextSeq : ℕ

/-- Entries and values, by one resolver. -/
def normalizeWrites (E : ImportEnvironment) (resolver : RetainedIdResolver) (entries : List LegacyV3Entry) :
    Resolving (List CommittedWrite) := do
  let entryWrites ← normalizeRetainedEntries E resolver 1 (retainedEntries entries)
  let values ← legacyValues resolver entries
  return entryWrites.map .entry ++ setWrites (entryWrites.length + 1) values

def normalizeLegacyV3Records (E : ImportEnvironment) (entries : List LegacyV3Entry) :
    Except LegacyV3Error NormalizedLegacyV3Records := do
  let entriesById ← inventory entries []
  let minted ← remint E 0 E.sequence ((retainedEntries entries).map Prod.fst)
  let (writes, _) ← normalizeWrites E ⟨entriesById, remintedTable minted⟩ entries []
  return ⟨writes, aggregateImportedUsage entries, writes.length + 1⟩

/-! ## Opening -/

structure LegacyV3SessionHeader where
  id : JsString
  timestamp : JsString
  cwd : JsString
  parentSession : Option JsString

/-- The header of a migrated session. A date before 1970 is a date, so its creation may have a negative time. -/
structure MigratedHeader where
  id : JsString
  createdAt : ℤ
  cwd : JsString
  parentSessionId : Option JsString
  legacyParentSessionPath : Option JsString
  nextSeq : ℕ

def MigratedHeader.json (h : MigratedHeader) : Json :=
  .object ([(name "v", count jsonlFormatVersion), (name "kind", text "header"), (name "id", .string h.id),
      (name "storageVersion", count jsonlStorageVersion), (name "createdAt", .number h.createdAt),
      (name "cwd", .string h.cwd)]
    ++ optional "parentSessionId" (h.parentSessionId.map .string)
    ++ optional "legacyParentSessionPath" (h.legacyParentSessionPath.map .string)
    ++ optional "nextSeq" (some (count h.nextSeq)))

/-- `normalizeLegacyV3Header` for a header of the given date, with the id that the header of the parent's file has, if it
could be read. -/
def normalizeLegacyV3Header (header : LegacyV3SessionHeader) (createdAt : ℤ) (resolvedParent : Option JsString)
    (nextSeq : ℕ) : MigratedHeader where
  id := header.id
  createdAt := createdAt
  cwd := header.cwd
  parentSessionId := header.parentSession.bind fun _ => resolvedParent
  legacyParentSessionPath := if resolvedParent.isSome then none else header.parentSession
  nextSeq := nextSeq

inductive JsonlBacking where
  | v4
  | v3 (importedUsage : Usage) (baselineWrites : List CommittedWrite)

/-- A storage of a migrated session, with what backs it. -/
structure MigratedStorage where
  header : MigratedHeader
  memory : InMemoryStorageState
  backing : JsonlBacking

inductive OpenLegacyV3Error where
  /-- `isLegacyV3SessionHeader` refuses a header whose timestamp is no date. -/
  | invalidHeader
  | legacy (cause : LegacyV3Error)
  | storage (cause : StorageError)

def openLegacyV3 (E : ImportEnvironment) (header : LegacyV3SessionHeader) (resolvedParent : Option JsString)
    (entries : List LegacyV3Entry) : Except OpenLegacyV3Error MigratedStorage :=
  match E.dateParse header.timestamp with
  | none => .error .invalidHeader
  | some createdAt => do
    let normalized ← (normalizeLegacyV3Records E entries).mapError .legacy
    let memory ← (replayCommitted InMemoryStorageState.empty normalized.writes).mapError .storage
    return { header := normalizeLegacyV3Header header createdAt resolvedParent normalized.nextSeq, memory,
             backing := .v3 normalized.importedUsage normalized.writes }

end Phi.Session.Jsonl
