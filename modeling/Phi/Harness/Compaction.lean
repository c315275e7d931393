import Phi.Coding.Compaction

/-!
# Preparing a compaction of a lane

Model of `prepareCompaction` of `packages/agent/src/harness/compaction/compaction.ts`, and of the parts of
`session/context.ts` and `compaction/utils.ts` that it uses. Messages, and the estimates of their tokens, are those of
the coding agent: `estimateTokens` and `estimateContextTokens` read the same in both packages.

A compaction keeps the messages themselves: they are on its entry, as its `retainedTail`. The preparation takes the
messages of this tail and of the entries behind it apart into what is summarized, the start of a split turn, and the
next tail. Failed answers are among these messages; they are left out when the context is built.
-/

namespace Phi.Harness

open Coding (AgentMessage name roleOf estimateTokens estimateContextTokens isText)

/-! ## Entries -/

structure CompactionFields where
  summary : JsString
  retainedTail : List AgentMessage
  tokensBefore : ℚ
  details : Option Json

inductive EntryBody where
  | message (message : AgentMessage)
  | compaction (compaction : CompactionFields)
  | branchSummary (summary : JsString) (fromId : Option JsString)
  | custom (customType : JsString) (data : Option Json)

structure Entry where
  id : JsString
  parentId : Option JsString
  seq : ℕ
  /-- Absent where a retained message has none. -/
  timestamp : Option Json
  body : EntryBody

def Entry.compaction? (entry : Entry) : Option CompactionFields :=
  match entry.body with
  | .compaction compaction => some compaction
  | _ => none

def Entry.message? (entry : Entry) : Option AgentMessage :=
  match entry.body with
  | .message message => some message
  | _ => none

def Entry.isBranchSummary (entry : Entry) : Bool :=
  match entry.body with
  | .branchSummary _ _ => true
  | _ => false

/-- The member of an object, left out when it is undefined. -/
def optional (key : String) (value : Option Json) : AgentMessage := Coding.member key value

def createBranchSummaryMessage (summary : JsString) (fromId : Option JsString) (timestamp : Option Json) : AgentMessage :=
  [(name "role", .string (name "branchSummary")), (name "summary", .string summary),
    (name "fromId", (fromId.map Json.string).getD .null)] ++ optional "timestamp" timestamp

def createCompactionSummaryMessage (summary : JsString) (tokensBefore : ℚ) (timestamp : Option Json) : AgentMessage :=
  [(name "role", .string (name "compactionSummary")), (name "summary", .string summary),
    (name "tokensBefore", .number tokensBefore)] ++ optional "timestamp" timestamp

/-! ## Context -/

def isContextMessage (message : AgentMessage) : Bool :=
  let stopReason := message.get (name "stopReason")
  roleOf message ≠ some .assistant ||
    !(isText stopReason "error" || isText stopReason "aborted" || isText stopReason "deferred")

def sessionEntryToContextMessages (entry : Entry) : List AgentMessage :=
  match entry.body with
  | .message message => if isContextMessage message then [message] else []
  | .compaction compaction =>
    createCompactionSummaryMessage compaction.summary compaction.tokensBefore entry.timestamp
      :: compaction.retainedTail.filter isContextMessage
  | .branchSummary summary fromId =>
    if summary = [] then [] else [createBranchSummaryMessage summary fromId entry.timestamp]
  | .custom _ _ => []

/-- The walk back over the path to its last compaction, whose index comes first. -/
def lastCompaction.loop (pathEntries : List Entry) : ℕ → Option (ℕ × CompactionFields)
  | 0 => none
  | i + 1 =>
    match pathEntries[i]?.bind Entry.compaction? with
    | some compaction => some (i, compaction)
    | none => loop pathEntries i

def lastCompaction (pathEntries : List Entry) : Option (ℕ × CompactionFields) :=
  lastCompaction.loop pathEntries pathEntries.length

def buildContextEntries (pathEntries : List Entry) : List Entry :=
  match lastCompaction pathEntries with
  | none => pathEntries
  | some (compactionIndex, _) => pathEntries[compactionIndex]?.toList ++ pathEntries.drop (compactionIndex + 1)

/-! ## The cut point -/

def isCutPointMessage (message : AgentMessage) : Bool :=
  match roleOf message with
  | some .bashExecution | some .custom | some .branchSummary | some .compactionSummary | some .user
  | some .assistant => true
  | some .toolResult | none => false

def isCutPoint (entry : Entry) : Bool := entry.message?.any isCutPointMessage || entry.isBranchSummary

def findValidCutPoints (entries : List Entry) (startIndex endIndex : ℕ) : List ℕ :=
  (List.range' startIndex (endIndex - startIndex)).filter fun i => entries[i]?.any isCutPoint

def startsTurn (entry : Entry) : Bool :=
  entry.isBranchSummary ||
    entry.message?.any fun message => roleOf message = some .user || roleOf message = some .bashExecution

/-- The source has -1 for none. -/
def findTurnStartIndex (entries : List Entry) (entryIndex startIndex : ℕ) : Option ℕ :=
  (List.range' startIndex (entryIndex + 1 - startIndex)).reverse.find? fun i => entries[i]?.any startsTurn

structure CutPointResult where
  firstKeptEntryIndex : ℕ
  /-- The source has -1 for none. -/
  turnStartIndex : Option ℕ
  isSplitTurn : Bool

/-- The walk back over the entries, to the index where the messages reach the budget. -/
def reachBudget (F : NumberFormat) (entries : List Entry) (startIndex : ℕ) (keepRecentTokens : ℚ) : ℕ → ℕ → Option ℕ
  | 0, _ => none
  | i + 1, accumulatedTokens =>
    if i < startIndex then none
    else
      match entries[i]?.bind Entry.message? with
      | none => reachBudget F entries startIndex keepRecentTokens i accumulatedTokens
      | some message =>
        let accumulatedTokens := accumulatedTokens + estimateTokens F message
        if keepRecentTokens ≤ accumulatedTokens then some i
        else reachBudget F entries startIndex keepRecentTokens i accumulatedTokens

/-- The cut goes back over the entries in front of it, up to a compaction or a message. -/
def moveBack (entries : List Entry) (startIndex : ℕ) : ℕ → ℕ
  | 0 => 0
  | cutIndex + 1 =>
    if startIndex < cutIndex + 1 ∧
        entries[cutIndex]?.any (fun prev => prev.compaction?.isNone && prev.message?.isNone) then
      moveBack entries startIndex cutIndex
    else cutIndex + 1

def findCutPoint (F : NumberFormat) (entries : List Entry) (startIndex endIndex : ℕ) (keepRecentTokens : ℚ) :
    CutPointResult :=
  match findValidCutPoints entries startIndex endIndex with
  | [] => ⟨startIndex, none, false⟩
  | first :: others =>
    let cutIndex :=
      match reachBudget F entries startIndex keepRecentTokens endIndex 0 with
      | some i => ((first :: others).find? fun c => i ≤ c).getD first
      | none => first
    let cutIndex := moveBack entries startIndex cutIndex
    let isUserMessage := (entries[cutIndex]?.bind Entry.message?).any fun message => roleOf message = some .user
    let turnStartIndex := if isUserMessage then none else findTurnStartIndex entries cutIndex startIndex
    ⟨cutIndex, turnStartIndex, !isUserMessage && turnStartIndex.isSome⟩

/-! ## File operations -/

structure FileOperations where
  read : List JsString
  written : List JsString
  edited : List JsString

def createFileOps : FileOperations := ⟨[], [], []⟩

/-- `Set.prototype.add`. -/
def addPath (paths : List JsString) (path : JsString) : List JsString :=
  if path ∈ paths then paths else paths ++ [path]

/-- What one tool call of an answer reads or changes. -/
def extractFileOpsFromBlock (fileOps : FileOperations) : Json → FileOperations
  | .object block =>
    if isText (Table.get block (name "type")) "toolCall" then
      match Table.get block (name "name"), Table.get block (name "arguments") with
      | some (.string tool), some (.object args) =>
        match Table.get args (name "path") with
        | some (.string path) =>
          if path = [] then fileOps
          else if tool = name "read" then { fileOps with read := addPath fileOps.read path }
          else if tool = name "write" then { fileOps with written := addPath fileOps.written path }
          else if tool = name "edit" then { fileOps with edited := addPath fileOps.edited path }
          else fileOps
        | _ => fileOps
      | _, _ => fileOps
    else fileOps
  | _ => fileOps

def extractFileOpsFromMessage (fileOps : FileOperations) (message : AgentMessage) : FileOperations :=
  if roleOf message = some .assistant then
    match message.get (name "content") with
    | some (.array content) => content.foldl extractFileOpsFromBlock fileOps
    | _ => fileOps
  else fileOps

/-- The strings of an array, in front of which others are. -/
def addPaths (paths : List JsString) : Option Json → List JsString
  | some (.array items) =>
    items.foldl (fun paths item =>
      match item with
      | .string path => addPath paths path
      | _ => paths) paths
  | _ => paths

def extractFileOperations (messages : List AgentMessage) (prevCompaction : Option CompactionFields) : FileOperations :=
  let fileOps :=
    match prevCompaction.bind CompactionFields.details with
    | some (.object details) =>
      { createFileOps with
        read := addPaths [] (Table.get details (name "readFiles"))
        edited := addPaths [] (Table.get details (name "modifiedFiles")) }
    | _ => createFileOps
  messages.foldl extractFileOpsFromMessage fileOps

/-! ## The preparation -/

structure CompactionSettings where
  enabled : Bool
  reserveTokens : ℚ
  keepRecentTokens : ℚ

structure CompactionPreparation where
  messagesToSummarize : List AgentMessage
  turnPrefixMessages : List AgentMessage
  retainedTail : List AgentMessage
  isSplitTurn : Bool
  tokensBefore : ℚ
  previousSummary : Option JsString
  fileOps : FileOperations
  settings : CompactionSettings

def getMessageFromEntryForCompaction (entry : Entry) : Option AgentMessage :=
  match entry.body with
  | .message message => some message
  | .branchSummary summary fromId => some (createBranchSummaryMessage summary fromId entry.timestamp)
  | .compaction _ => none
  | .custom _ _ => none

/-- The messages of the entries from an index on, up to another. -/
def messagesBetween (entries : List Entry) (start stop : ℕ) : List AgentMessage :=
  ((entries.take stop).drop start).filterMap getMessageFromEntryForCompaction

/-- The id of a virtual entry for a message that the previous compaction kept. -/
def retainedId (compactionId : JsString) (index : ℕ) : JsString :=
  compactionId ++ name ":retained:" ++ numberText index

/-- The entries that stand for the messages that a compaction kept. -/
def virtualRetainedEntries (prevCompaction : Entry) (retainedTail : List AgentMessage) : List Entry :=
  retainedTail.zipIdx.map fun (message, index) =>
    { id := retainedId prevCompaction.id index
      parentId := some (if index = 0 then prevCompaction.id else retainedId prevCompaction.id (index - 1))
      seq := prevCompaction.seq
      timestamp := message.get (name "timestamp")
      body := .message message }

def compactableEntries (pathEntries : List Entry) : List Entry :=
  match lastCompaction pathEntries with
  | none => pathEntries
  | some (prevCompactionIndex, compaction) =>
    (pathEntries[prevCompactionIndex]?.toList.flatMap fun entry =>
        virtualRetainedEntries entry compaction.retainedTail)
      ++ pathEntries.drop (prevCompactionIndex + 1)

/-- The preparation, when a compaction applies; nothing throws. -/
def prepareCompaction (F : NumberFormat) (pathEntries : List Entry) (settings : CompactionSettings) :
    Option CompactionPreparation :=
  if pathEntries.isEmpty ∨ (pathEntries.getLast?.bind Entry.compaction?).isSome then none
  else
    let prevCompaction := (lastCompaction pathEntries).map Prod.snd
    let entries := compactableEntries pathEntries
    let boundaryEnd := entries.length
    let tokensBefore :=
      estimateContextTokens F ((buildContextEntries pathEntries).flatMap sessionEntryToContextMessages)
    let cutPoint := findCutPoint F entries 0 boundaryEnd settings.keepRecentTokens
    let historyEnd :=
      if cutPoint.isSplitTurn then cutPoint.turnStartIndex.getD 0 else cutPoint.firstKeptEntryIndex
    let messagesToSummarize := messagesBetween entries 0 historyEnd
    let turnPrefixMessages :=
      if cutPoint.isSplitTurn then
        messagesBetween entries (cutPoint.turnStartIndex.getD 0) cutPoint.firstKeptEntryIndex
      else []
    let fileOps := extractFileOperations messagesToSummarize prevCompaction
    some
      { messagesToSummarize := messagesToSummarize
        turnPrefixMessages := turnPrefixMessages
        retainedTail := messagesBetween entries cutPoint.firstKeptEntryIndex boundaryEnd
        isSplitTurn := cutPoint.isSplitTurn
        tokensBefore := tokensBefore
        previousSummary := prevCompaction.map CompactionFields.summary
        fileOps :=
          if cutPoint.isSplitTurn then turnPrefixMessages.foldl extractFileOpsFromMessage fileOps else fileOps
        settings := settings }

/-! ## The messages -/

/-- The messages that the last compaction of a path kept. -/
def previousTail (pathEntries : List Entry) : List AgentMessage :=
  ((lastCompaction pathEntries).map fun last => last.2.retainedTail).getD []

/-- The entries behind the last compaction of a path. -/
def entriesAfter (pathEntries : List Entry) : List Entry :=
  match lastCompaction pathEntries with
  | none => pathEntries
  | some (i, _) => pathEntries.drop (i + 1)

/-- An entry whose message is one of the context. -/
def InContext (entry : Entry) : Bool :=
  match entry.body with
  | .message message => isContextMessage message
  | .branchSummary summary _ => summary ≠ []
  | .compaction _ => false
  | .custom _ _ => false

/-- The messages of the context, without the summary of the last compaction. -/
def contextMessages (pathEntries : List Entry) : List AgentMessage :=
  (previousTail pathEntries).filter isContextMessage ++ (entriesAfter pathEntries).flatMap sessionEntryToContextMessages

theorem lastCompaction_loop_spec (pathEntries : List Entry) (n : ℕ) :
    match lastCompaction.loop pathEntries n with
    | none => ∀ k < n, pathEntries[k]?.bind Entry.compaction? = none
    | some (i, compaction) => i < n ∧ pathEntries[i]?.bind Entry.compaction? = some compaction ∧
        ∀ k < n, i < k → pathEntries[k]?.bind Entry.compaction? = none := by
  induction n with
  | zero => simp [lastCompaction.loop]
  | succ n ih =>
    rw [lastCompaction.loop]
    cases hn : pathEntries[n]?.bind Entry.compaction? with
    | some compaction => exact ⟨n.lt_succ_self, hn, fun k hk hlt => by omega⟩
    | none =>
      dsimp only
      split at ih
      next hnone =>
        intro k hk
        rcases Nat.lt_succ_iff_lt_or_eq.mp hk with hk | rfl
        · exact ih k hk
        · exact hn
      next i compaction hsome =>
        refine ⟨ih.1.trans n.lt_succ_self, ih.2.1, fun k hk hlt => ?_⟩
        rcases Nat.lt_succ_iff_lt_or_eq.mp hk with hk | rfl
        · exact ih.2.2 k hk hlt
        · exact hn

theorem sessionEntryToContextMessages_eq {e : Entry} (h : e.compaction? = none) :
    sessionEntryToContextMessages e = (if InContext e then [e] else []).filterMap getMessageFromEntryForCompaction := by
  rw [sessionEntryToContextMessages, InContext, Entry.compaction?] at *
  cases hbody : e.body with
  | message message =>
    dsimp only
    split <;> simp [getMessageFromEntryForCompaction, hbody]
  | compaction compaction => simp [hbody] at h
  | branchSummary summary fromId =>
    dsimp only
    by_cases hempty : summary = []
    · simp [hempty]
    · simp [hempty, getMessageFromEntryForCompaction, hbody]
  | custom customType data => rfl

/-- The context has the messages of the entries that are in it, in order. -/
theorem flatMap_sessionEntryToContextMessages {entries : List Entry} (h : ∀ e ∈ entries, e.compaction? = none) :
    entries.flatMap sessionEntryToContextMessages
      = (entries.filter InContext).filterMap getMessageFromEntryForCompaction := by
  induction entries with
  | nil => rfl
  | cons e entries ih =>
    rw [List.forall_mem_cons] at h
    rw [List.flatMap_cons, ih h.2, sessionEntryToContextMessages_eq h.1, ← List.filterMap_append, List.filter_cons]
    split <;> rfl

theorem filter_virtualRetainedEntries (prevCompaction : Entry) (retainedTail : List AgentMessage) :
    ((virtualRetainedEntries prevCompaction retainedTail).filter InContext).filterMap getMessageFromEntryForCompaction
      = retainedTail.filter isContextMessage := by
  rw [virtualRetainedEntries, List.filter_map, List.filterMap_map]
  change List.filterMap (fun x => some x.1) (List.filter (fun x => isContextMessage x.1) retainedTail.zipIdx) = _
  have hmap : List.map Prod.fst retainedTail.zipIdx = retainedTail := by simp
  conv_rhs => rw [← hmap, List.filter_map]
  rw [List.filterMap_eq_map']
  rfl

/-- What the last compaction of a path shows of what it summarized. -/
def summaryMessages (pathEntries : List Entry) : List AgentMessage :=
  match lastCompaction pathEntries with
  | none => []
  | some (i, compaction) =>
    pathEntries[i]?.toList.map fun entry =>
      createCompactionSummaryMessage compaction.summary compaction.tokensBefore entry.timestamp

section
variable {F : NumberFormat} {entries : List Entry}

theorem findTurnStartIndex_le {entryIndex startIndex i : ℕ}
    (h : findTurnStartIndex entries entryIndex startIndex = some i) : i ≤ entryIndex := by
  have hmem := List.mem_of_find?_eq_some h
  rw [List.mem_reverse, List.mem_range'_1] at hmem
  omega

theorem mem_findValidCutPoints {startIndex endIndex i : ℕ} :
    i ∈ findValidCutPoints entries startIndex endIndex
      ↔ startIndex ≤ i ∧ i < endIndex ∧ ∃ e, entries[i]? = some e ∧ isCutPoint e = true := by
  rw [findValidCutPoints, List.mem_filter, List.mem_range'_1, Option.any_eq_true]
  constructor
  · rintro ⟨hrange, hcut⟩
    exact ⟨hrange.1, by omega, hcut⟩
  · rintro ⟨hstart, hend, hcut⟩
    exact ⟨⟨hstart, by omega⟩, hcut⟩

/-- The message that the entries from an index on begin with, if there is one, is no tool result. -/
def BeginsWell (entries : List Entry) (i : ℕ) : Prop :=
  ∀ m ∈ ((entries.drop i).filterMap getMessageFromEntryForCompaction).head?, roleOf m ≠ some .toolResult

theorem roleOf_branchSummary (summary : JsString) (fromId : Option JsString) (timestamp : Option Json) :
    roleOf (createBranchSummaryMessage summary fromId timestamp) = some .branchSummary := by
  rfl

/-- Going back over an entry that is no message leaves the first message, or puts a branch summary in front. -/
theorem BeginsWell.back {i : ℕ} (h : BeginsWell entries (i + 1))
    (hprev : entries[i]?.any (fun prev => prev.compaction?.isNone && prev.message?.isNone) = true) :
    BeginsWell entries i := by
  obtain ⟨e, he, hnone⟩ := (Option.any_eq_true _ _).mp hprev
  obtain ⟨hlt, hget⟩ := List.getElem?_eq_some_iff.mp he
  intro m hm
  rw [List.drop_eq_getElem_cons hlt, hget] at hm
  cases hbody : e.body with
  | message message => simp [Entry.message?, hbody] at hnone
  | branchSummary summary fromId =>
    simp [getMessageFromEntryForCompaction, hbody] at hm
    subst hm
    simp [roleOf_branchSummary]
  | compaction compaction => simp [Entry.compaction?, hbody] at hnone
  | custom customType data =>
    have hskip : getMessageFromEntryForCompaction e = none := by simp [getMessageFromEntryForCompaction, hbody]
    rw [List.filterMap_cons_none hskip] at hm
    exact h m hm

theorem BeginsWell.moveBack {startIndex cutIndex : ℕ} (h : BeginsWell entries cutIndex) :
    BeginsWell entries (moveBack entries startIndex cutIndex) := by
  induction cutIndex with
  | zero => exact h
  | succ cutIndex ih =>
    rw [Harness.moveBack]
    split
    next hback => exact ih (h.back hback.2)
    · exact h

end

def userMessage : AgentMessage := [(name "role", .string (name "user")), (name "content", .string (name "hi"))]

def failedMessage : AgentMessage :=
  [(name "role", .string (name "assistant")), (name "content", .array []), (name "stopReason", .string (name "error"))]

def messageEntry (id : String) (seq : ℕ) (message : AgentMessage) : Entry :=
  ⟨name id, none, seq, some (.number 0), .message message⟩

end Phi.Harness
