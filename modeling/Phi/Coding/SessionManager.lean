import Phi.Coding.SessionEntry
import Phi.Edit.EditDiff

/-!
# The session manager

`SessionManager` holds the entries of a session in the order they were appended, an index of them, the labels that are
set, and the leaf, where the next entry goes. What an operation does to the session file is returned as a list of
`FileWrite`s.

An operation that makes an entry takes a `Draw`: the UUIDs it may draw and the time.
-/

namespace Phi.Coding

structure SessionHeader where
  version : ℕ
  id : JsString
  timestamp : JsString
  cwd : JsString
  parentSession : Option JsString

inductive FileEntry where
  | session (header : SessionHeader)
  | entry (entry : SessionEntry)

def currentSessionVersion : ℕ := 3

inductive FileWrite where
  /-- The file is written anew. -/
  | rewrite (file : JsString) (entries : List FileEntry)
  /-- The file is created, and must not exist. -/
  | create (file : JsString) (entries : List FileEntry)
  | append (file : JsString) (entry : FileEntry)

structure SessionManager where
  cwd : JsString
  sessionDir : JsString
  persist : Bool
  sessionId : JsString
  sessionFile : Option JsString
  fileEntries : List FileEntry
  byId : EntryIndex
  labelsById : Table JsString JsString
  labelTimestampsById : Table JsString JsString
  leafId : Option JsString
  flushed : Bool

inductive SessionError where
  | entryNotFound (id : JsString)

def SessionError.message : SessionError → JsString
  | .entryNotFound id => name "Entry " ++ id ++ name " not found"

/-- What is drawn for a new entry. -/
structure Draw where
  randomUUID : ℕ → JsString
  timestamp : JsString

/-- Eight characters of a UUID, or a whole one if a hundred are taken. -/
def generateId (has : JsString → Bool) (randomUUID : ℕ → JsString) : JsString :=
  (((List.range 100).map fun i => (randomUUID i).take 8).find? fun id => !has id).getD (randomUUID 100)

/-- The file of a session that starts at a time. -/
def sessionFilePath (sessionDir timestamp sessionId : JsString) : JsString :=
  let fileTimestamp := timestamp.map fun u => if u = 58 ∨ u = 46 then 45 else u
  sessionDir ++ name "/" ++ fileTimestamp ++ name "_" ++ sessionId ++ name ".jsonl"

def trim (text : JsString) : JsString := (text.dropWhile Edit.isWhiteSpace).rdropWhile Edit.isWhiteSpace

/-- `name.replace(/[\r\n]+/g, " ").trim()`: each run of line ends becomes one space. -/
def sanitizeName (text : JsString) : JsString :=
  let isLineEnd := fun u : UInt16 => u = 13 || u = 10
  trim ((text.splitBy fun a b => isLineEnd a && isLineEnd b).flatMap fun run =>
    if run.head?.any isLineEnd then [32] else run)

namespace FileEntry

def entry? : FileEntry → Option SessionEntry
  | .session _ => none
  | .entry e => some e

def isAssistant : FileEntry → Bool
  | .session _ => false
  | .entry e =>
    match e.body with
    | .message message => roleOf message = some .assistant
    | _ => false

end FileEntry

namespace SessionManager

def getEntries (m : SessionManager) : List SessionEntry := m.fileEntries.filterMap FileEntry.entry?

def getLabel (m : SessionManager) (id : JsString) : Option JsString := m.labelsById.get id

def getBranch (m : SessionManager) (fromId : Option JsString) : List SessionEntry :=
  let startId := fromId.or m.leafId
  (walk m.byId m.byId.length ((truthy startId).bind m.byId.get)).reverse

section
variable (getTime : JsString → ℚ)

/-- The context at a leaf. -/
def contextAt (m : SessionManager) (leafId : Option JsString) : SessionContext :=
  Coding.buildSessionContext getTime m.getEntries (some leafId) (some m.byId)

def buildSessionContext (m : SessionManager) : SessionContext := m.contextAt getTime m.leafId

end

/-! ## The index -/

/-- A label entry sets a label, or clears it. -/
def setLabel (m : SessionManager) (targetId : JsString) (label : Option JsString) (timestamp : JsString) :
    SessionManager :=
  match truthy label with
  | some label =>
    { m with
      labelsById := m.labelsById.set targetId label
      labelTimestampsById := m.labelTimestampsById.set targetId timestamp }
  | none =>
    { m with
      labelsById := m.labelsById.erase targetId
      labelTimestampsById := m.labelTimestampsById.erase targetId }

def indexEntry (m : SessionManager) (entry : SessionEntry) : SessionManager :=
  let m := { m with byId := m.byId.set entry.id entry, leafId := some entry.id }
  match entry.body with
  | .label targetId label => m.setLabel targetId label entry.timestamp
  | _ => m

def buildIndex (m : SessionManager) : SessionManager :=
  m.getEntries.foldl indexEntry
    { m with byId := [], labelsById := [], labelTimestampsById := [], leafId := none }

/-! ## Starting -/

def newSession (m : SessionManager) (id timestamp : JsString) (parentSession : Option JsString) : SessionManager :=
  { m with
    sessionId := id
    fileEntries := [.session ⟨currentSessionVersion, id, timestamp, m.cwd, parentSession⟩]
    byId := []
    labelsById := []
    labelTimestampsById := []
    leafId := none
    flushed := false
    sessionFile := if m.persist then some (sessionFilePath m.sessionDir timestamp id) else m.sessionFile }

/-! ## Appending -/

def hasAssistant (m : SessionManager) : Bool := m.fileEntries.any FileEntry.isAssistant

/-- `_persist`: nothing is written before the first assistant message. -/
def persistEntry (m : SessionManager) (entry : SessionEntry) : SessionManager × List FileWrite :=
  match m.persist, m.sessionFile with
  | true, some file =>
    if m.hasAssistant = false then
      if m.flushed then (m, [.append file (.entry entry)]) else (m, [])
    else if m.flushed = false then ({ m with flushed := true }, [.create file m.fileEntries])
    else (m, [.append file (.entry entry)])
  | _, _ => (m, [])

def appendEntry (m : SessionManager) (entry : SessionEntry) : SessionManager × List FileWrite :=
  persistEntry
    { m with
      fileEntries := m.fileEntries ++ [.entry entry]
      byId := m.byId.set entry.id entry
      leafId := some entry.id }
    entry

/-- An entry below the leaf. -/
def newEntry (m : SessionManager) (draw : Draw) (body : EntryBody) : SessionEntry :=
  ⟨generateId m.byId.has draw.randomUUID, m.leafId, draw.timestamp, body⟩

def appendBody (m : SessionManager) (draw : Draw) (body : EntryBody) : SessionManager × List FileWrite :=
  m.appendEntry (m.newEntry draw body)

def appendMessage (m : SessionManager) (draw : Draw) (message : AgentMessage) : SessionManager × List FileWrite :=
  m.appendBody draw (.message message)

def appendThinkingLevelChange (m : SessionManager) (draw : Draw) (thinkingLevel : JsString) :
    SessionManager × List FileWrite :=
  m.appendBody draw (.thinkingLevelChange thinkingLevel)

def appendModelChange (m : SessionManager) (draw : Draw) (provider modelId : JsString) :
    SessionManager × List FileWrite :=
  m.appendBody draw (.modelChange provider modelId)

def appendCompaction (m : SessionManager) (draw : Draw) (compaction : Compaction) : SessionManager × List FileWrite :=
  m.appendBody draw (.compaction compaction)

def appendCustomEntry (m : SessionManager) (draw : Draw) (customType : JsString) (data : Option Json) :
    SessionManager × List FileWrite :=
  m.appendBody draw (.custom customType data)

def appendSessionInfo (m : SessionManager) (draw : Draw) (sessionName : JsString) : SessionManager × List FileWrite :=
  m.appendBody draw (.sessionInfo (some (sanitizeName sessionName)))

def appendCustomMessageEntry (m : SessionManager) (draw : Draw) (customType : JsString) (content : Json)
    (display : Bool) (details : Option Json) : SessionManager × List FileWrite :=
  m.appendBody draw (.customMessage customType (some content) display details)

def appendLabelChange (m : SessionManager) (draw : Draw) (targetId : JsString) (label : Option JsString) :
    Except SessionError (SessionManager × List FileWrite) :=
  if m.byId.has targetId then
    let (m, writes) := m.appendBody draw (.label targetId label)
    .ok (m.setLabel targetId label draw.timestamp, writes)
  else .error (.entryNotFound targetId)

/-! ## Branching -/

def branch (m : SessionManager) (branchFromId : JsString) : Except SessionError SessionManager :=
  if m.byId.has branchFromId then .ok { m with leafId := some branchFromId }
  else .error (.entryNotFound branchFromId)

def resetLeaf (m : SessionManager) : SessionManager := { m with leafId := none }

def branchWithSummary (m : SessionManager) (draw : Draw) (branchFromId : Option JsString) (summary : JsString)
    (details usage : Option Json) (fromHook : Option Bool) : Except SessionError (SessionManager × List FileWrite) :=
  match branchFromId.filter fun id => !m.byId.has id with
  | some id => .error (.entryNotFound id)
  | none =>
    let fromId := m.leafId.getD (name "root")
    let m := { m with leafId := branchFromId }
    .ok (m.appendBody draw (.branchSummary ⟨fromId, summary, details, usage, fromHook⟩))

/-! ## Extracting a branch -/

/-- What the loop over the path carries: the entries that stay, what replaces the labels that go, the labels that wait
for the next entry, and the parent of that entry. -/
structure Rechain where
  pathWithoutLabels : List SessionEntry := []
  replacementByLabelId : Table JsString JsString := []
  pendingLabelIds : List JsString := []
  pathParentId : Option JsString := none

def Rechain.step (r : Rechain) (entry : SessionEntry) : Rechain :=
  if entry.isLabel then { r with pendingLabelIds := r.pendingLabelIds ++ [entry.id] }
  else
    let replacementByLabelId :=
      r.pendingLabelIds.foldl (fun replacement labelId => replacement.set labelId entry.id) r.replacementByLabelId
    let body :=
      match entry.body with
      | .compaction compaction =>
        .compaction { compaction with
          firstKeptEntryId :=
            (replacementByLabelId.get compaction.firstKeptEntryId).getD compaction.firstKeptEntryId }
      | body => body
    { pathWithoutLabels := r.pathWithoutLabels ++ [{ entry with parentId := r.pathParentId, body }]
      replacementByLabelId
      pendingLabelIds := []
      pathParentId := some entry.id }

def rechain (path : List SessionEntry) : Rechain := path.foldl Rechain.step {}

/-- The label entries that are written behind the path, each below the one before it. -/
def labelEntries (randomUUID : ℕ → ℕ → JsString) (timestamps : Table JsString JsString) :
    ℕ → List JsString → Option JsString → List (JsString × JsString) → List SessionEntry
  | _, _, _, [] => []
  | n, ids, parentId, (targetId, label) :: labels =>
    let id := generateId (fun id => decide (id ∈ ids)) (randomUUID n)
    ⟨id, parentId, (timestamps.get targetId).getD [], .label targetId (some label)⟩ ::
      labelEntries randomUUID timestamps (n + 1) (ids ++ [id]) (some id) labels

/-- What is drawn for a new session: its id, the time, and the UUIDs of each label. -/
structure SessionDraw where
  sessionId : JsString
  timestamp : JsString
  randomUUID : ℕ → ℕ → JsString

def createBranchedSession (m : SessionManager) (draw : SessionDraw) (leafId : JsString) :
    Except SessionError (SessionManager × List FileWrite) :=
  let path := m.getBranch (some leafId)
  if path.length = 0 then .error (.entryNotFound leafId)
  else
    let pathWithoutLabels := (rechain path).pathWithoutLabels
    let header : SessionHeader := ⟨currentSessionVersion, draw.sessionId, draw.timestamp, m.cwd,
      if m.persist then m.sessionFile else none⟩
    let pathEntryIds := pathWithoutLabels.map SessionEntry.id
    let labelsToWrite := m.labelsById.filter fun label => label.1 ∈ pathEntryIds
    let lastEntryId := truthy (pathWithoutLabels.getLast?.map SessionEntry.id)
    let labels := labelEntries draw.randomUUID m.labelTimestampsById 0 pathEntryIds lastEntryId labelsToWrite
    let fileEntries := .session header :: (pathWithoutLabels ++ labels).map FileEntry.entry
    if m.persist then
      let file := sessionFilePath m.sessionDir draw.timestamp draw.sessionId
      let m := buildIndex { m with fileEntries, sessionId := draw.sessionId, sessionFile := some file }
      if m.hasAssistant then .ok ({ m with flushed := true }, [.rewrite file m.fileEntries])
      else .ok ({ m with flushed := false }, [])
    else .ok (buildIndex { m with fileEntries, sessionId := draw.sessionId }, [])

end SessionManager

end Phi.Coding
