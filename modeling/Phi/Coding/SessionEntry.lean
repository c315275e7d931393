import Phi.Data.JsonValue
import Phi.Data.Lineage

/-!
# Session entries and the context

A session of the coding agent is a tree of entries: every entry names its parent. The context of a leaf is read off the
path from the root to it. The latest compaction on the path stands for everything in front of the entries it keeps.

`getTime` is what `new Date(timestamp).getTime()` gives for a timestamp.
-/

namespace Phi.Coding

/-! ## Messages -/

/-- A message is an object; how its other members look does not matter here. -/
abbrev AgentMessage := Table JsString Json

def name (s : String) : JsString := JsString.ofAscii s

inductive Role where
  | user
  | assistant
  | toolResult
  | bashExecution
  | custom
  | branchSummary
  | compactionSummary
  deriving DecidableEq

def Role.name : Role → JsString
  | .user => Coding.name "user"
  | .assistant => Coding.name "assistant"
  | .toolResult => Coding.name "toolResult"
  | .bashExecution => Coding.name "bashExecution"
  | .custom => Coding.name "custom"
  | .branchSummary => Coding.name "branchSummary"
  | .compactionSummary => Coding.name "compactionSummary"

def roles : List Role :=
  [.user, .assistant, .toolResult, .bashExecution, .custom, .branchSummary, .compactionSummary]

def roleOf (message : AgentMessage) : Option Role :=
  match message.get (name "role") with
  | some (.string role) => roles.find? fun r => r.name = role
  | _ => none

/-- `value == null` for a member: it is missing or null. -/
def isNullish : Option Json → Bool
  | none | some .null => true
  | _ => false

def member (s : String) (value : Option Json) : AgentMessage := value.toList.map fun v => (name s, v)

section
variable (getTime : JsString → ℚ)

def createBranchSummaryMessage (summary fromId timestamp : JsString) : AgentMessage :=
  [(name "role", .string (name "branchSummary")), (name "summary", .string summary), (name "fromId", .string fromId),
    (name "timestamp", .number (getTime timestamp))]

def createCompactionSummaryMessage (summary : JsString) (tokensBefore : ℚ) (timestamp : JsString) : AgentMessage :=
  [(name "role", .string (name "compactionSummary")), (name "summary", .string summary),
    (name "tokensBefore", .number tokensBefore), (name "timestamp", .number (getTime timestamp))]

def createCustomMessage (customType : JsString) (content : Json) (display : Bool) (details : Option Json)
    (timestamp : JsString) : AgentMessage :=
  [(name "role", .string (name "custom")), (name "customType", .string customType), (name "content", content),
    (name "display", .bool display)] ++ member "details" details ++ [(name "timestamp", .number (getTime timestamp))]

end

/-! ## Entries -/

structure Compaction where
  summary : JsString
  firstKeptEntryId : JsString
  tokensBefore : ℚ
  details : Option Json := none
  usage : Option Json := none
  fromHook : Option Bool := none

structure BranchSummary where
  fromId : JsString
  summary : JsString
  details : Option Json := none
  usage : Option Json := none
  fromHook : Option Bool := none

inductive EntryBody where
  | message (message : AgentMessage)
  | thinkingLevelChange (thinkingLevel : JsString)
  | modelChange (provider modelId : JsString)
  | compaction (compaction : Compaction)
  | branchSummary (branchSummary : BranchSummary)
  | custom (customType : JsString) (data : Option Json)
  | customMessage (customType : JsString) (content : Option Json) (display : Bool) (details : Option Json)
  | label (targetId : JsString) (label : Option JsString)
  | sessionInfo (name : Option JsString)

structure SessionEntry where
  id : JsString
  parentId : Option JsString
  timestamp : JsString
  body : EntryBody

namespace SessionEntry

def isLabel (entry : SessionEntry) : Bool :=
  match entry.body with
  | .label .. => true
  | _ => false

def compaction? (entry : SessionEntry) : Option Compaction :=
  match entry.body with
  | .compaction compaction => some compaction
  | _ => none

def isCompaction (entry : SessionEntry) : Bool := entry.compaction?.isSome

end SessionEntry

/-- `{ provider, modelId }`: the members of a message may be missing. -/
structure ModelRef where
  provider : Option Json
  modelId : Option Json

structure SessionContext where
  messages : List AgentMessage
  thinkingLevel : JsString
  model : Option ModelRef

/-! ## The path -/

/-- An id that is present and not empty. -/
def truthy (id : Option JsString) : Option JsString := id.filter fun id => id ≠ []

abbrev EntryIndex := Table JsString SessionEntry

def buildEntryIndex (entries : List SessionEntry) : EntryIndex :=
  entries.foldl (fun index entry => index.set entry.id entry) []

/-- From an entry up to the root. There are no more steps than entries. -/
def walk (index : EntryIndex) : ℕ → Option SessionEntry → List SessionEntry
  | 0, _ => []
  | _, none => []
  | n + 1, some current => current :: walk index n ((truthy current.parentId).bind index.get)

/-- `buildSessionPath`. The leaf is missing, null or an id; without a leaf, the last entry is taken. -/
def buildSessionPath (entries : List SessionEntry) (leafId : Option (Option JsString)) (byId : Option EntryIndex) :
    List SessionEntry :=
  let index := byId.getD (buildEntryIndex entries)
  if leafId = some none then []
  else
    let leaf := ((truthy leafId.join).bind index.get).or entries.getLast?
    (walk index index.length leaf).reverse

/-! ## The context -/

def getSessionContextSettings (path : List SessionEntry) : JsString × Option ModelRef :=
  path.foldl (fun settings entry =>
    match entry.body with
    | .thinkingLevelChange thinkingLevel => (thinkingLevel, settings.2)
    | .modelChange provider modelId => (settings.1, some ⟨some (.string provider), some (.string modelId)⟩)
    | .message message =>
      if roleOf message = some .assistant then
        (settings.1, some ⟨message.get (name "provider"), message.get (name "model")⟩)
      else settings
    | _ => settings) (name "off", none)

section
variable (getTime : JsString → ℚ)

/-- The messages of an entry: one or none. -/
def sessionEntryToContextMessages (entry : SessionEntry) : List AgentMessage :=
  match entry.body with
  | .message message =>
    let conversation := roleOf message ∈ [some .user, some .assistant, some .toolResult]
    if conversation ∧ isNullish (message.get (name "content")) then [message.set (name "content") (.array [])]
    else [message]
  | .customMessage customType content display details =>
    let content := if isNullish content then .array [] else content.getD .null
    [createCustomMessage getTime customType content display details entry.timestamp]
  | .branchSummary summary =>
    if summary.summary = [] then []
    else [createBranchSummaryMessage getTime summary.summary summary.fromId entry.timestamp]
  | .compaction compaction =>
    [createCompactionSummaryMessage getTime compaction.summary compaction.tokensBefore entry.timestamp]
  | _ => []

/-- The latest compaction of a path. -/
def latestCompaction (path : List SessionEntry) : Option (SessionEntry × Compaction) :=
  path.foldl (fun latest entry => (entry.compaction?.map fun compaction => (entry, compaction)).or latest) none

/-- `buildContextEntries` for a path: the latest compaction, what it keeps, and what comes after it. -/
def contextEntries (path : List SessionEntry) : List SessionEntry :=
  match latestCompaction path with
  | none => path
  | some (entry, compaction) =>
    let compactionIdx := path.findIdx fun e => e.id = entry.id
    entry :: (path.take compactionIdx).dropWhile (fun e => e.id ≠ compaction.firstKeptEntryId)
      ++ path.drop (compactionIdx + 1)

def buildContextEntries (entries : List SessionEntry) (leafId : Option (Option JsString)) (byId : Option EntryIndex) :
    List SessionEntry :=
  contextEntries (buildSessionPath entries leafId byId)

def contextMessages (entries : List SessionEntry) : List AgentMessage :=
  entries.flatMap (sessionEntryToContextMessages getTime)

/-- The context of a path. -/
def contextOfPath (path : List SessionEntry) : SessionContext :=
  ⟨contextMessages getTime (contextEntries path), (getSessionContextSettings path).1, (getSessionContextSettings path).2⟩

def buildSessionContext (entries : List SessionEntry) (leafId : Option (Option JsString)) (byId : Option EntryIndex) :
    SessionContext :=
  contextOfPath getTime (buildSessionPath entries leafId byId)

end

end Phi.Coding
