import Phi.Coding.Branched

/-!
# Preparing a compaction

`prepareCompaction` decides what of a path is summarized and what is kept: it walks back from the newest entry until the
messages reach a number of tokens, and cuts at a message that is not a tool result. What it says is kept, and what
`buildSessionContext` keeps when the compaction is there, are two computations: `prepareCompaction_keeps_iff`.

The results hold for any `Estimate` of the tokens; `Estimate.chars` is the one of the source. The file operations that
the preparation collects are left out.
-/

namespace Phi.Coding

open SessionManager

/-! ## Cut points -/

def isCutPointMessage (message : AgentMessage) : Bool :=
  match roleOf message with
  | some .user | some .assistant | some .bashExecution | some .custom | some .branchSummary
  | some .compactionSummary => true
  | some .toolResult | none => false

def isTurnStartMessage (message : AgentMessage) : Bool :=
  match roleOf message with
  | some .user | some .bashExecution | some .custom | some .branchSummary | some .compactionSummary => true
  | some .assistant | some .toolResult | none => false

structure CutPointResult where
  firstKeptEntryIndex : ℕ
  /-- The source has -1 for none. -/
  turnStartIndex : Option ℕ
  isSplitTurn : Bool

/-! ## Tokens -/

/-- The estimates of tokens: of a message, and of a context. -/
structure Estimate where
  estimateTokens : AgentMessage → ℕ
  estimateContextTokens : List AgentMessage → ℚ

def textLength : Option Json → ℕ
  | some (.string text) => text.length
  | _ => 0

def numberOf : Option Json → ℚ
  | some (.number q) => q
  | _ => 0

def isText (value : Option Json) (s : String) : Bool :=
  match value with
  | some (.string text) => text = name s
  | _ => false

def estimatedImageChars : ℕ := 4800

def estimateTextAndImageContentChars : Option Json → ℕ
  | some (.string text) => text.length
  | some (.array blocks) =>
    (blocks.map fun
      | .object block =>
        let type := Table.get block (name "type")
        if isText type "text" then textLength (Table.get block (name "text"))
        else if isText type "image" then estimatedImageChars
        else 0
      | _ => 0).sum
  | _ => 0

/-- The characters of the blocks of an assistant message. -/
def assistantChars (F : NumberFormat) : Option Json → ℕ
  | some (.array blocks) =>
    (blocks.map fun
      | .object block =>
        let type := Table.get block (name "type")
        if isText type "text" then textLength (Table.get block (name "text"))
        else if isText type "thinking" then textLength (Table.get block (name "thinking"))
        else if isText type "toolCall" then
          textLength (Table.get block (name "name"))
            + ((Table.get block (name "arguments")).map fun arguments => (stringify F arguments).length).getD 0
        else 0
      | _ => 0).sum
  | _ => 0

def messageChars (F : NumberFormat) (message : AgentMessage) : ℕ :=
  match roleOf message with
  | some .user | some .custom | some .toolResult => estimateTextAndImageContentChars (message.get (name "content"))
  | some .assistant => assistantChars F (message.get (name "content"))
  | some .bashExecution => textLength (message.get (name "command")) + textLength (message.get (name "output"))
  | some .branchSummary | some .compactionSummary => textLength (message.get (name "summary"))
  | none => 0

/-- `Math.ceil(chars / 4)`. -/
def estimateTokens (F : NumberFormat) (message : AgentMessage) : ℕ := (messageChars F message + 3) / 4

def calculateContextTokens (usage : AgentMessage) : ℚ :=
  let totalTokens := numberOf (usage.get (name "totalTokens"))
  if totalTokens ≠ 0 then totalTokens
  else numberOf (usage.get (name "input")) + numberOf (usage.get (name "output"))
    + numberOf (usage.get (name "cacheRead")) + numberOf (usage.get (name "cacheWrite"))

/-- The usage of an assistant message that came to an end and counted something. -/
def getAssistantUsage (message : AgentMessage) : Option AgentMessage :=
  let stopReason := message.get (name "stopReason")
  if roleOf message = some .assistant ∧ isText stopReason "aborted" = false ∧ isText stopReason "error" = false then
    match message.get (name "usage") with
    | some (.object usage) => if 0 < calculateContextTokens usage then some usage else none
    | _ => none
  else none

/-- The tokens of the last usage and of the messages behind it. -/
def estimateContextTokens (F : NumberFormat) (messages : List AgentMessage) : ℚ :=
  let trailing := messages.reverse.takeWhile fun message => (getAssistantUsage message).isNone
  let usageTokens := ((messages.reverse.findSome? getAssistantUsage).map calculateContextTokens).getD 0
  usageTokens + (trailing.map (estimateTokens F)).sum

def Estimate.chars (F : NumberFormat) : Estimate := ⟨Coding.estimateTokens F, Coding.estimateContextTokens F⟩

/-! ## The cut point -/

section
variable (getTime : JsString → ℚ)

def isTurnStartEntry (entry : SessionEntry) : Bool :=
  !entry.isCompaction && (sessionEntryToContextMessages getTime entry).any isTurnStartMessage

def isCutPointEntry (entry : SessionEntry) : Bool :=
  !entry.isCompaction && (sessionEntryToContextMessages getTime entry).any isCutPointMessage

def findValidCutPoints (entries : List SessionEntry) (startIndex endIndex : ℕ) : List ℕ :=
  (List.range' startIndex (endIndex - startIndex)).filter fun i => entries[i]?.any (isCutPointEntry getTime)

def findTurnStartIndex (entries : List SessionEntry) (entryIndex startIndex : ℕ) : Option ℕ :=
  (List.range' startIndex (entryIndex + 1 - startIndex)).reverse.find? fun i =>
    entries[i]?.any (isTurnStartEntry getTime)

def entryTokens (estimate : Estimate) (entry : SessionEntry) : ℕ :=
  ((sessionEntryToContextMessages getTime entry).map estimate.estimateTokens).sum

/-- The walk back over the entries: the index where the budget is reached, if it is. -/
def reachBudget (estimate : Estimate) (entries : List SessionEntry) (startIndex : ℕ) (keepRecentTokens : ℚ) :
    ℕ → ℕ → Option ℕ
  | 0, _ => none
  | i + 1, accumulatedTokens =>
    if i < startIndex then none
    else
      let messageTokens := (entries[i]?.map (entryTokens getTime estimate)).getD 0
      if messageTokens = 0 then reachBudget estimate entries startIndex keepRecentTokens i accumulatedTokens
      else if keepRecentTokens ≤ (accumulatedTokens + messageTokens : ℕ) then some i
      else reachBudget estimate entries startIndex keepRecentTokens i (accumulatedTokens + messageTokens)

/-- An entry that does not show in the context, a compaction apart. -/
def isMetadata (entry : SessionEntry) : Bool :=
  !entry.isCompaction && (sessionEntryToContextMessages getTime entry).isEmpty

/-- The cut goes back over the entries in front of it that do not show. -/
def moveBack (entries : List SessionEntry) (startIndex : ℕ) : ℕ → ℕ
  | 0 => 0
  | cutIndex + 1 =>
    if startIndex < cutIndex + 1 ∧ entries[cutIndex]?.any (isMetadata getTime) then
      moveBack entries startIndex cutIndex
    else cutIndex + 1

def findCutPoint (estimate : Estimate) (entries : List SessionEntry) (startIndex endIndex : ℕ) (keepRecentTokens : ℚ) :
    CutPointResult :=
  match findValidCutPoints getTime entries startIndex endIndex with
  | [] => ⟨startIndex, none, false⟩
  | first :: others =>
    let cutIndex :=
      match reachBudget getTime estimate entries startIndex keepRecentTokens endIndex 0 with
      -- The closest cut point at or after the entry, or the first one if there is none.
      | some i => ((first :: others).find? fun c => i ≤ c).getD first
      | none => first
    let cutIndex := moveBack getTime entries startIndex cutIndex
    let startsTurn := entries[cutIndex]?.any (isTurnStartEntry getTime)
    let turnStartIndex := if startsTurn then none else findTurnStartIndex getTime entries cutIndex startIndex
    ⟨cutIndex, turnStartIndex, !startsTurn && turnStartIndex.isSome⟩

/-! ## The preparation -/

structure CompactionPreparation where
  firstKeptEntryId : JsString
  messagesToSummarize : List AgentMessage
  turnPrefixMessages : List AgentMessage
  isSplitTurn : Bool
  tokensBefore : ℚ
  previousSummary : Option JsString

def getMessageFromEntryForCompaction (entry : SessionEntry) : Option AgentMessage :=
  if entry.isCompaction then none else (sessionEntryToContextMessages getTime entry).head?

/-- The messages of the entries from an index on, up to another. -/
def messagesBetween (entries : List SessionEntry) (start stop : ℕ) : List AgentMessage :=
  ((entries.take stop).drop start).filterMap (getMessageFromEntryForCompaction getTime)

/-- The last compaction of a path, and its index. -/
def prevCompaction (pathEntries : List SessionEntry) : Option (ℕ × Compaction) :=
  (List.range pathEntries.length).reverse.findSome? fun i =>
    (pathEntries[i]?.bind SessionEntry.compaction?).map fun compaction => (i, compaction)

/-- Where what the previous compaction kept begins. -/
def boundaryStart (pathEntries : List SessionEntry) : ℕ :=
  match prevCompaction pathEntries with
  | none => 0
  | some (prevCompactionIndex, compaction) =>
    let firstKeptEntryIndex := pathEntries.findIdx fun e => e.id = compaction.firstKeptEntryId
    if firstKeptEntryIndex < pathEntries.length then firstKeptEntryIndex else prevCompactionIndex + 1

def prepareCompaction (estimate : Estimate) (pathEntries : List SessionEntry) (keepRecentTokens : ℚ) :
    Option CompactionPreparation :=
  if pathEntries.getLast?.any SessionEntry.isCompaction then none
  else
    let previousSummary := (prevCompaction pathEntries).map fun previous => previous.2.summary
    let start := boundaryStart pathEntries
    let tokensBefore := estimate.estimateContextTokens (buildSessionContext getTime pathEntries none none).messages
    let cutPoint := findCutPoint getTime estimate pathEntries start pathEntries.length keepRecentTokens
    match truthy (pathEntries[cutPoint.firstKeptEntryIndex]?.map SessionEntry.id) with
    | none => none
    | some firstKeptEntryId =>
      let historyEnd :=
        if cutPoint.isSplitTurn then cutPoint.turnStartIndex.getD 0 else cutPoint.firstKeptEntryIndex
      let messagesToSummarize := messagesBetween getTime pathEntries start historyEnd
      let turnPrefixMessages :=
        if cutPoint.isSplitTurn then
          messagesBetween getTime pathEntries (cutPoint.turnStartIndex.getD 0) cutPoint.firstKeptEntryIndex
        else []
      if messagesToSummarize.length = 0 ∧ turnPrefixMessages.length = 0 then none
      else some ⟨firstKeptEntryId, messagesToSummarize, turnPrefixMessages, cutPoint.isSplitTurn, tokensBefore,
        previousSummary⟩

end

/-! ## The messages -/

variable {getTime : JsString → ℚ}

theorem sessionEntryToContextMessages_eq (getTime : JsString → ℚ) (e : SessionEntry) :
    sessionEntryToContextMessages getTime e = [] ∨ ∃ message, sessionEntryToContextMessages getTime e = [message] := by
  unfold sessionEntryToContextMessages
  cases e.body <;> simp <;> split_ifs <;> simp_all

/-- The messages of entries, without those of compactions. -/
def keptMessages (getTime : JsString → ℚ) (entries : List SessionEntry) : List AgentMessage :=
  contextMessages getTime (entries.filter fun e => !e.isCompaction)

theorem keptMessages_append (a b : List SessionEntry) :
    keptMessages getTime (a ++ b) = keptMessages getTime a ++ keptMessages getTime b := by
  rw [keptMessages, List.filter_append, contextMessages_append]
  rfl

theorem filterMap_getMessage (entries : List SessionEntry) :
    entries.filterMap (getMessageFromEntryForCompaction getTime) = keptMessages getTime entries := by
  induction entries with
  | nil => rfl
  | cons e entries ih =>
    rw [← List.singleton_append, keptMessages_append, ← ih, List.filterMap_append]
    congr 1
    cases hcompaction : e.isCompaction with
    | true => simp [getMessageFromEntryForCompaction, keptMessages, contextMessages, hcompaction]
    | false =>
      rcases sessionEntryToContextMessages_eq getTime e with hmessages | ⟨message, hmessages⟩
      · simp [getMessageFromEntryForCompaction, keptMessages, contextMessages, hcompaction, hmessages]
      · simp [getMessageFromEntryForCompaction, keptMessages, contextMessages, hcompaction, hmessages]

theorem keptMessages_length_le (entries : List SessionEntry) :
    (keptMessages getTime entries).length ≤ (contextMessages getTime entries).length :=
  (List.filter_sublist.flatMap (sessionEntryToContextMessages getTime)).length_le

theorem sessionEntryToContextMessages_compaction {e : SessionEntry} (h : e.isCompaction = true) :
    (sessionEntryToContextMessages getTime e).length = 1 := by
  unfold SessionEntry.isCompaction SessionEntry.compaction? at h
  unfold sessionEntryToContextMessages
  cases hbody : e.body <;> simp_all

/-- A compaction shows in the context, so there are fewer messages without. -/
theorem keptMessages_eq_iff (entries : List SessionEntry) :
    contextMessages getTime entries = keptMessages getTime entries ↔ ∀ e ∈ entries, e.isCompaction = false := by
  constructor
  · intro heq
    induction entries with
    | nil => simp
    | cons e entries ih =>
      rw [contextMessages_cons, ← List.singleton_append, keptMessages_append] at heq
      cases hcompaction : e.isCompaction with
      | true =>
        have hone : (sessionEntryToContextMessages getTime e).length = 1 :=
          sessionEntryToContextMessages_compaction hcompaction
        have hnone : keptMessages getTime [e] = [] := by simp [keptMessages, contextMessages, hcompaction]
        have hle : (keptMessages getTime entries).length ≤ (contextMessages getTime entries).length :=
          keptMessages_length_le entries
        have hlen := congrArg List.length heq
        rw [hnone, List.nil_append, List.length_append, hone] at hlen
        omega
      | false =>
        have hkept : keptMessages getTime [e] = sessionEntryToContextMessages getTime e := by
          simp [keptMessages, contextMessages, hcompaction]
        rw [hkept, List.append_cancel_left_eq] at heq
        exact List.forall_mem_cons.mpr ⟨hcompaction, ih heq⟩
  · intro hall
    rw [keptMessages, List.filter_eq_self.mpr]
    intro e he
    simp [hall e he]

/-! ## The walk back -/

variable {estimate : Estimate} {entries : List SessionEntry} {start : ℕ} {keep : ℚ}

/-- The messages from an entry on reach the budget, and the entry has messages of its own. -/
def Reaches (getTime : JsString → ℚ) (estimate : Estimate) (entries : List SessionEntry) (start : ℕ) (keep : ℚ)
    (i : ℕ) : Prop :=
  start ≤ i ∧ (∃ e, entries[i]? = some e ∧ 0 < entryTokens getTime estimate e) ∧
    keep ≤ ((entries.drop i).map (entryTokens getTime estimate)).sum

theorem sum_drop {i : ℕ} (h : i < entries.length) (f : SessionEntry → ℕ) :
    ((entries.drop i).map f).sum = (entries[i]?.map f).getD 0 + ((entries.drop (i + 1)).map f).sum := by
  rw [List.drop_eq_getElem_cons h, List.map_cons, List.sum_cons, List.getElem?_eq_getElem h]
  rfl

/-- The last entry below `n` that reaches the budget, if there is one. -/
def IsLastReach (getTime : JsString → ℚ) (estimate : Estimate) (entries : List SessionEntry) (start : ℕ) (keep : ℚ)
    (n : ℕ) (result : Option ℕ) : Prop :=
  (∀ i, result = some i → Reaches getTime estimate entries start keep i ∧
    ∀ j < n, Reaches getTime estimate entries start keep j → j ≤ i) ∧
  (result = none → ∀ j < n, ¬Reaches getTime estimate entries start keep j)

theorem IsLastReach.succ {n : ℕ} {result : Option ℕ} (h : IsLastReach getTime estimate entries start keep n result)
    (hnot : ¬Reaches getTime estimate entries start keep n) :
    IsLastReach getTime estimate entries start keep (n + 1) result := by
  refine ⟨fun i hi => ⟨(h.1 i hi).1, fun j hj hreach => ?_⟩, fun hnone j hj hreach => ?_⟩
  · rcases Nat.lt_succ_iff_lt_or_eq.mp hj with hj | rfl
    · exact (h.1 i hi).2 j hj hreach
    · exact absurd hreach hnot
  · rcases Nat.lt_succ_iff_lt_or_eq.mp hj with hj | rfl
    · exact h.2 hnone j hj hreach
    · exact hnot hreach

theorem reachBudget_spec {n acc : ℕ} (hn : n ≤ entries.length)
    (hacc : acc = ((entries.drop n).map (entryTokens getTime estimate)).sum) :
    IsLastReach getTime estimate entries start keep n (reachBudget getTime estimate entries start keep n acc) := by
  induction n generalizing acc with
  | zero => exact ⟨by simp [reachBudget], by simp⟩
  | succ n ih =>
    have hsum := sum_drop hn (entryTokens getTime estimate)
    rw [List.getElem?_eq_getElem hn, Option.map_some, Option.getD_some, ← hacc] at hsum
    rw [reachBudget]
    split_ifs with hstart
    · refine ⟨by simp, fun _ j hj hreach => ?_⟩
      have := hreach.1
      omega
    · simp only [List.getElem?_eq_getElem hn, Option.map_some, Option.getD_some]
      split_ifs with hzero hreached
      · -- The entry has no messages, and is passed over.
        refine (ih (Nat.le_of_succ_le hn) (by rw [hsum, hzero, Nat.zero_add])).succ ?_
        rintro ⟨-, ⟨e, he, hpos⟩, -⟩
        rw [List.getElem?_eq_getElem hn] at he
        cases he
        omega
      · refine ⟨fun i hi => ?_, by simp⟩
        cases hi
        refine ⟨⟨by omega, ⟨_, List.getElem?_eq_getElem hn, by omega⟩, ?_⟩, fun j hj _ => by omega⟩
        rw [hsum, Nat.add_comm]
        exact hreached
      · refine (ih (Nat.le_of_succ_le hn) (by rw [hsum, Nat.add_comm])).succ ?_
        rintro ⟨-, -, hkeep⟩
        rw [hsum, Nat.add_comm] at hkeep
        exact hreached hkeep

/-! ## The cut -/

def CutPoint (getTime : JsString → ℚ) (entries : List SessionEntry) (start c : ℕ) : Prop :=
  start ≤ c ∧ ∃ e, entries[c]? = some e ∧ isCutPointEntry getTime e = true

theorem mem_findValidCutPoints {c : ℕ} :
    c ∈ findValidCutPoints getTime entries start entries.length ↔ CutPoint getTime entries start c := by
  rw [findValidCutPoints, List.mem_filter, List.mem_range'_1]
  constructor
  · rintro ⟨⟨hstart, -⟩, hcut⟩
    cases he : entries[c]? with
    | none =>
      rw [he] at hcut
      cases hcut
    | some e =>
      rw [he] at hcut
      exact ⟨hstart, e, he, hcut⟩
  · rintro ⟨hstart, e, he, hcut⟩
    have hlt : c < entries.length := (List.getElem?_eq_some_iff.mp he).1
    exact ⟨⟨hstart, by omega⟩, by rw [he]; exact hcut⟩

theorem pairwise_findValidCutPoints (entries : List SessionEntry) (start stop : ℕ) :
    (findValidCutPoints getTime entries start stop).Pairwise (· < ·) :=
  (List.pairwise_lt_range' 1).filter _

/-- The first element of a growing list that is `i` at least. -/
theorem find?_least {cs : List ℕ} (h : cs.Pairwise (· < ·)) {i c : ℕ} (hc : cs.find? (fun c => i ≤ c) = some c) :
    c ∈ cs ∧ i ≤ c ∧ ∀ c' ∈ cs, i ≤ c' → c ≤ c' := by
  obtain ⟨hle, before, after, rfl, hbefore⟩ := List.find?_eq_some_iff_append.mp hc
  refine ⟨by simp, by simpa using hle, fun c' hc' hi => ?_⟩
  rcases List.mem_append.mp hc' with hmem | hmem
  · have := hbefore c' hmem
    simp at this
    omega
  · rcases List.mem_cons.mp hmem with rfl | hmem
    · exact le_rfl
    · exact (List.rel_of_pairwise_cons (List.pairwise_append.mp h).2.1 hmem).le

/-- The walk reaches the budget behind every cut point in front of `p`, and not behind all cut points. -/
def CutsBehind (getTime : JsString → ℚ) (estimate : Estimate) (entries : List SessionEntry) (start : ℕ) (keep : ℚ)
    (p : ℕ) : Prop :=
  (∀ c < p, ¬CutPoint getTime entries start c) ∨
    ((∃ i, Reaches getTime estimate entries start keep i ∧ ∀ c < p, CutPoint getTime entries start c → c < i) ∧
      ∀ i, Reaches getTime estimate entries start keep i → ∃ c, i ≤ c ∧ CutPoint getTime entries start c)

/-- The cut point that is chosen. -/
def chosenCut (getTime : JsString → ℚ) (estimate : Estimate) (entries : List SessionEntry) (start : ℕ) (keep : ℚ)
    (first : ℕ) (others : List ℕ) : ℕ :=
  match reachBudget getTime estimate entries start keep entries.length 0 with
  | some i => ((first :: others).find? fun c => i ≤ c).getD first
  | none => first

theorem chosenCut_spec {first : ℕ} {others : List ℕ}
    (hcuts : findValidCutPoints getTime entries start entries.length = first :: others) :
    CutPoint getTime entries start (chosenCut getTime estimate entries start keep first others) ∧
      ∀ p, ¬CutPoint getTime entries start p →
        (p < chosenCut getTime estimate entries start keep first others
          ↔ CutsBehind getTime estimate entries start keep p) := by
  have hmem : ∀ c, c ∈ first :: others ↔ CutPoint getTime entries start c := fun c => by
    rw [← hcuts]
    exact mem_findValidCutPoints
  have hsorted : (first :: others).Pairwise (· < ·) := hcuts ▸ pairwise_findValidCutPoints entries start entries.length
  have hfirst : ∀ c, CutPoint getTime entries start c → first ≤ c := by
    intro c hc
    rcases List.mem_cons.mp ((hmem c).mpr hc) with rfl | hc
    · exact le_rfl
    · exact (List.rel_of_pairwise_cons hsorted hc).le
  have hcut : CutPoint getTime entries start first := (hmem first).mp (List.mem_cons_self ..)
  -- When the first cut point is taken, the walk tells nothing.
  have hdefault : ∀ p, ¬CutPoint getTime entries start p → (p < first ↔ ∀ c < p, ¬CutPoint getTime entries start c) := by
    intro p hp
    constructor
    · intro hlt c hc hcp
      have := hfirst c hcp
      omega
    · intro hnone
      by_contra hge
      rcases (not_lt.mp hge).lt_or_eq with hlt | heq
      · exact hnone first hlt hcut
      · exact hp (heq ▸ hcut)
  have hwalk : IsLastReach getTime estimate entries start keep entries.length
      (reachBudget getTime estimate entries start keep entries.length 0) := reachBudget_spec le_rfl (by simp)
  have hlt : ∀ j, Reaches getTime estimate entries start keep j → j < entries.length := by
    rintro j ⟨-, ⟨e, he, -⟩, -⟩
    exact (List.getElem?_eq_some_iff.mp he).1
  rw [chosenCut]
  cases hreach : reachBudget getTime estimate entries start keep entries.length 0 with
  | none =>
    refine ⟨hcut, fun p hp => (hdefault p hp).trans ⟨.inl, ?_⟩⟩
    rintro (hleft | ⟨⟨i, hi, -⟩, -⟩)
    · exact hleft
    · exact absurd hi (hwalk.2 hreach i (hlt i hi))
  | some i =>
    obtain ⟨hi, hlast⟩ := hwalk.1 i hreach
    dsimp only
    cases hfind : (first :: others).find? fun c => i ≤ c with
    | none =>
      have hbelow : ∀ c, CutPoint getTime entries start c → c < i := by
        intro c hc
        simpa using List.find?_eq_none.mp hfind c ((hmem c).mpr hc)
      refine ⟨hcut, fun p hp => (hdefault p hp).trans ⟨.inl, ?_⟩⟩
      rintro (hleft | ⟨-, hright⟩)
      · exact hleft
      · obtain ⟨c, hle, hc⟩ := hright i hi
        have := hbelow c hc
        omega
    | some c =>
      obtain ⟨hc, hle, hleast⟩ := find?_least hsorted hfind
      rw [Option.getD_some]
      refine ⟨(hmem c).mp hc, fun p hp => ⟨fun hpc => .inr ⟨⟨i, hi, fun c' hc' hcut' => ?_⟩, fun j hj => ?_⟩, ?_⟩⟩
      · by_contra hge
        have := hleast c' ((hmem c').mpr hcut') (not_lt.mp hge)
        omega
      · exact ⟨c, (hlast j (hlt j hj) hj).trans hle, (hmem c).mp hc⟩
      · have hne : c ≠ p := fun heq => hp (heq ▸ (hmem c).mp hc)
        rintro (hleft | ⟨⟨j, hj, hbefore⟩, -⟩)
        · by_contra hge
          exact hleft c (by omega) ((hmem c).mp hc)
        · by_contra hge
          have := hbefore c (by omega) ((hmem c).mp hc)
          have := hlast j (hlt j hj) hj
          omega

theorem moveBack_spec {c : ℕ} (hstart : start ≤ c) :
    start ≤ moveBack getTime entries start c ∧ moveBack getTime entries start c ≤ c ∧
      ∀ j, moveBack getTime entries start c ≤ j → j < c → ∃ e, entries[j]? = some e ∧ isMetadata getTime e = true := by
  induction c with
  | zero => exact ⟨hstart, le_rfl, fun j _ hj => absurd hj (Nat.not_lt_zero j)⟩
  | succ c ih =>
    rw [moveBack]
    split_ifs with hback
    · obtain ⟨hle, hle', hmeta⟩ := ih (by omega)
      refine ⟨hle, by omega, fun j hj hlt => ?_⟩
      rcases Nat.lt_succ_iff_lt_or_eq.mp hlt with hlt | rfl
      · exact hmeta j hj hlt
      · exact (Option.any_eq_true _ _).mp hback.2
    · exact ⟨hstart, le_rfl, fun j hj hlt => by omega⟩

/-! ## What is summarized -/

theorem slice_append {l : List SessionEntry} {a b c : ℕ} (hab : a ≤ b) (hbc : b ≤ c) :
    (l.take b).drop a ++ (l.take c).drop b = (l.take c).drop a := by
  have htake : (l.take c).take b = l.take b := by rw [List.take_take, Nat.min_eq_left hbc]
  have hdrop : (l.take c).drop b = ((l.take c).drop a).drop (b - a) := by
    rw [List.drop_drop, Nat.add_sub_cancel' hab]
  rw [← htake, List.drop_take, hdrop, List.take_append_drop]

theorem messagesBetween_eq (entries : List SessionEntry) (start stop : ℕ) :
    messagesBetween getTime entries start stop = keptMessages getTime ((entries.take stop).drop start) :=
  filterMap_getMessage _

/-- Where the cut is, and what is summarized. -/
structure IsPrepared (getTime : JsString → ℚ) (estimate : Estimate) (path : List SessionEntry) (keep : ℚ)
    (prep : CompactionPreparation) (cut moved : ℕ) (firstKept : SessionEntry) : Prop where
  cutPoint : CutPoint getTime path (boundaryStart path) cut
  behind : ∀ p, ¬CutPoint getTime path (boundaryStart path) p →
    (p < cut ↔ CutsBehind getTime estimate path (boundaryStart path) keep p)
  start_le : boundaryStart path ≤ moved
  le : moved ≤ cut
  metadata : ∀ j, moved ≤ j → j < cut → ∃ e, path[j]? = some e ∧ isMetadata getTime e = true
  getElem : path[moved]? = some firstKept
  firstKeptEntryId : prep.firstKeptEntryId = firstKept.id
  summarized : prep.messagesToSummarize ++ prep.turnPrefixMessages
    = keptMessages getTime ((path.take moved).drop (boundaryStart path))

theorem findTurnStartIndex_le {entries : List SessionEntry} {entryIndex start turnStart : ℕ} (hle : start ≤ entryIndex)
    (h : findTurnStartIndex getTime entries entryIndex start = some turnStart) :
    start ≤ turnStart ∧ turnStart ≤ entryIndex := by
  have hmem := List.mem_of_find?_eq_some h
  rw [List.mem_reverse, List.mem_range'_1] at hmem
  omega

theorem prepareCompaction_spec {path : List SessionEntry} {prep : CompactionPreparation}
    (h : prepareCompaction getTime estimate path keep = some prep) :
    ∃ cut moved firstKept, IsPrepared getTime estimate path keep prep cut moved firstKept := by
  unfold prepareCompaction at h
  rw [Option.ite_none_left_eq_some] at h
  obtain ⟨-, h⟩ := h
  dsimp only at h
  set start := boundaryStart path with hstart
  cases hcuts : findValidCutPoints getTime path start path.length with
  | nil =>
    -- Without a cut point nothing is summarized.
    have hcut : findCutPoint getTime estimate path start path.length keep = ⟨start, none, false⟩ := by
      rw [findCutPoint, hcuts]
    rw [hcut] at h
    have hnil : messagesBetween getTime path start start = [] := by
      rw [messagesBetween_eq, List.drop_eq_nil_of_le (by rw [List.length_take]; omega)]
      rfl
    simp only [hnil, Bool.false_eq_true, if_false, List.length_nil, and_self, if_true] at h
    split at h <;> cases h
  | cons first others =>
    obtain ⟨hcutPoint, hbehind⟩ : CutPoint getTime path start (chosenCut getTime estimate path start keep first others) ∧
        ∀ p, ¬CutPoint getTime path start p → (p < chosenCut getTime estimate path start keep first others
          ↔ CutsBehind getTime estimate path start keep p) := chosenCut_spec hcuts
    set cut := chosenCut getTime estimate path start keep first others with hcut
    obtain ⟨hstart_le, hle, hmeta⟩ : start ≤ moveBack getTime path start cut ∧ moveBack getTime path start cut ≤ cut ∧
        ∀ j, moveBack getTime path start cut ≤ j → j < cut → ∃ e, path[j]? = some e ∧ isMetadata getTime e = true :=
      moveBack_spec hcutPoint.1
    set moved := moveBack getTime path start cut with hmoved
    have hresult : findCutPoint getTime estimate path start path.length keep
        = ⟨moved, if path[moved]?.any (isTurnStartEntry getTime) then none else findTurnStartIndex getTime path moved start,
          !path[moved]?.any (isTurnStartEntry getTime) &&
            (if path[moved]?.any (isTurnStartEntry getTime) then none
              else findTurnStartIndex getTime path moved start).isSome⟩ := by
      rw [findCutPoint, hcuts]
      rfl
    rw [hresult] at h
    dsimp only at h
    split at h
    · cases h
    next id hid =>
      rw [Option.ite_none_left_eq_some] at h
      obtain ⟨-, h⟩ := h
      cases h
      obtain ⟨firstKept, hget, rfl⟩ := Option.map_eq_some_iff.mp (Option.filter_eq_some_iff.mp hid).1
      refine ⟨cut, moved, firstKept, hcutPoint, hbehind, hstart_le, hle, hmeta, hget, rfl, ?_⟩
      rw [messagesBetween_eq, messagesBetween_eq]
      cases hturn : path[moved]?.any (isTurnStartEntry getTime) with
      | true => simp [hstart]
      | false =>
        cases hfind : findTurnStartIndex getTime path moved start with
        | none => simp [hstart]
        | some turnStart =>
          obtain ⟨hturn_ge, hturn_le⟩ := findTurnStartIndex_le hstart_le hfind
          simp only [Bool.not_false, Bool.false_eq_true, if_false, Option.isSome_some, Bool.and_self, if_true,
            Option.getD_some]
          rw [← keptMessages_append, slice_append hturn_ge hturn_le]

/-! ## What is kept -/

/-- The entries from the first that the previous compaction kept, or those behind it if that is not on the path. -/
def previouslyKept (path : List SessionEntry) : List SessionEntry :=
  match latestCompaction path with
  | none => path
  | some (previous, compaction) =>
    if compaction.firstKeptEntryId ∈ ids path then path.dropWhile fun e => e.id ≠ compaction.firstKeptEntryId
    else (path.dropWhile fun e => e.id ≠ previous.id).tail

theorem findSome?_eq_of_forall {α β : Type} {l : List α} {f g : α → Option β} (h : ∀ x ∈ l, f x = g x) :
    l.findSome? f = l.findSome? g := by
  induction l with
  | nil => rfl
  | cons x l ih =>
    rw [List.forall_mem_cons] at h
    rw [List.findSome?_cons, List.findSome?_cons, h.1, ih h.2]

theorem prevCompaction_concat (path : List SessionEntry) (e : SessionEntry) :
    prevCompaction (path ++ [e])
      = (e.compaction?.map fun compaction => (path.length, compaction)).or (prevCompaction path) := by
  rw [prevCompaction, List.length_append, List.length_singleton, List.range_succ, List.reverse_append]
  rw [List.reverse_singleton, List.singleton_append, List.findSome?_cons, List.getElem?_concat_length, Option.bind_some]
  have hrest : ((List.range path.length).reverse.findSome? fun i =>
      ((path ++ [e])[i]?.bind SessionEntry.compaction?).map fun compaction => (i, compaction)) = prevCompaction path := by
    rw [prevCompaction]
    refine findSome?_eq_of_forall fun i hi => ?_
    rw [List.mem_reverse, List.mem_range] at hi
    rw [List.getElem?_append_left hi]
  rw [hrest]
  cases e.compaction? <;> rfl

theorem prevCompaction_append {path after : List SessionEntry} (h : ∀ e ∈ after, e.isCompaction = false) :
    prevCompaction (path ++ after) = prevCompaction path := by
  induction after using List.reverseRecOn with
  | nil => simp
  | append_singleton after e ih =>
    have hnone : e.compaction? = none := by
      have := h e (by simp)
      rwa [SessionEntry.isCompaction, Option.isSome_eq_false_iff, Option.isNone_iff_eq_none] at this
    rw [← List.append_assoc, prevCompaction_concat, hnone, Option.map_none, Option.none_or,
      ih fun x hx => h x (by simp [hx])]

theorem drop_boundaryStart {path : List SessionEntry} (hnodup : (ids path).Nodup) :
    path.drop (boundaryStart path) = previouslyKept path := by
  rw [boundaryStart, previouslyKept]
  rcases exists_latest path with hnone | ⟨before, e, after, compaction, rfl, he, hafter⟩
  · have hprev : prevCompaction path = none := by
      have happend : prevCompaction ([] ++ path) = prevCompaction [] := prevCompaction_append hnone
      rwa [List.nil_append] at happend
    have hlatest : latestCompaction path = none := by
      have happend : latestCompaction ([] ++ path) = latestCompaction [] := latestCompaction_append hnone
      rwa [List.nil_append] at happend
    rw [hprev, hlatest]
    rfl
  · have hprev : prevCompaction (before ++ e :: after) = some (before.length, compaction) := by
      have happend : before ++ e :: after = before ++ [e] ++ after := by simp
      rw [happend, prevCompaction_append hafter, prevCompaction_concat, he]
      rfl
    rw [hprev, latestCompaction_split he hafter]
    dsimp only
    have hfind : (before ++ e :: after).findIdx (fun x => x.id = compaction.firstKeptEntryId)
        < (before ++ e :: after).length ↔ compaction.firstKeptEntryId ∈ ids (before ++ e :: after) := by
      rw [List.findIdx_lt_length, mem_ids]
      simp
    by_cases hmem : compaction.firstKeptEntryId ∈ ids (before ++ e :: after)
    · rw [if_pos (hfind.mpr hmem), if_pos hmem, List.dropWhile_eq_drop_findIdx_not]
      simp
    · rw [if_neg fun hlt => hmem (hfind.mp hlt), if_neg hmem, dropWhile_append_cons _ rfl]
      · rw [← List.drop_drop, List.drop_left]
        rfl
      · intro x hx heq
        rw [ids, List.map_append, List.nodup_append] at hnodup
        exact hnodup.2.2 x.id (List.mem_map_of_mem hx) e.id (by simp) heq

namespace IsPrepared

variable {path : List SessionEntry} {prep : CompactionPreparation} {cut moved : ℕ} {firstKept : SessionEntry}

theorem take_drop (h : IsPrepared getTime estimate path keep prep cut moved firstKept) :
    path = path.take moved ++ firstKept :: path.drop (moved + 1) := by
  obtain ⟨hlt, hget⟩ := List.getElem?_eq_some_iff.mp h.getElem
  rw [← hget, ← List.drop_eq_getElem_cons hlt, List.take_append_drop]

/-- The kept entries are those from the cut on. -/
theorem dropWhile_eq (h : IsPrepared getTime estimate path keep prep cut moved firstKept) (hnodup : (ids path).Nodup) :
    (path.dropWhile fun e => e.id ≠ prep.firstKeptEntryId) = path.drop moved := by
  have hsplit := h.take_drop
  have hdrop : path.drop moved = firstKept :: path.drop (moved + 1) := by
    obtain ⟨hlt, hget⟩ := List.getElem?_eq_some_iff.mp h.getElem
    rw [← hget, ← List.drop_eq_getElem_cons hlt]
  rw [h.firstKeptEntryId, hdrop]
  rw [hsplit] at hnodup
  conv_lhs => rw [hsplit]
  refine dropWhile_append_cons (fun x hx heq => ?_) rfl
  rw [ids, List.map_append, List.nodup_append] at hnodup
  exact hnodup.2.2 x.id (List.mem_map_of_mem hx) firstKept.id (by simp) heq

/-- What is summarized and what is kept is what was kept before. -/
theorem messages (h : IsPrepared getTime estimate path keep prep cut moved firstKept) (hnodup : (ids path).Nodup) :
    prep.messagesToSummarize ++ prep.turnPrefixMessages
        ++ keptMessages getTime (path.dropWhile fun e => e.id ≠ prep.firstKeptEntryId)
      = keptMessages getTime (previouslyKept path) := by
  obtain ⟨hlt, -⟩ := List.getElem?_eq_some_iff.mp h.getElem
  have hslice := slice_append (l := path) h.start_le hlt.le
  rw [List.take_length] at hslice
  rw [h.summarized, h.dropWhile_eq hnodup, ← keptMessages_append, hslice, drop_boundaryStart hnodup]

/-- The kept messages begin with the one at the cut point. -/
theorem head_role (h : IsPrepared getTime estimate path keep prep cut moved firstKept) :
    ∀ message ∈ (keptMessages getTime (path.drop moved)).head?, roleOf message ≠ some .toolResult := by
  obtain ⟨-, e, he, hcut⟩ := h.cutPoint
  obtain ⟨hlt, hget⟩ := List.getElem?_eq_some_iff.mp he
  have hsplit : path.drop moved = (path.drop moved).take (cut - moved) ++ e :: path.drop (cut + 1) := by
    have hdrop : (path.drop moved).drop (cut - moved) = e :: path.drop (cut + 1) := by
      rw [List.drop_drop, Nat.add_sub_cancel' h.le, List.drop_eq_getElem_cons hlt, hget]
    rw [← hdrop, List.take_append_drop]
  -- In front of it nothing shows.
  have hfront : keptMessages getTime ((path.drop moved).take (cut - moved)) = [] := by
    rw [keptMessages, contextMessages, List.flatMap_eq_nil_iff]
    intro x hx
    obtain ⟨i, hi⟩ := List.mem_iff_getElem?.mp (List.mem_of_mem_filter hx)
    rw [List.getElem?_take, List.getElem?_drop] at hi
    split_ifs at hi with hlt
    obtain ⟨y, hy, hmeta⟩ := h.metadata (moved + i) (by omega) (by omega)
    rw [hi] at hy
    cases hy
    rw [isMetadata, Bool.and_eq_true, List.isEmpty_iff] at hmeta
    exact hmeta.2
  rw [isCutPointEntry, Bool.and_eq_true, Bool.not_eq_true'] at hcut
  rw [hsplit, keptMessages_append, hfront, List.nil_append, ← List.singleton_append, keptMessages_append]
  have hkept : keptMessages getTime [e] = sessionEntryToContextMessages getTime e := by
    simp [keptMessages, contextMessages, hcut.1]
  rw [hkept]
  rcases sessionEntryToContextMessages_eq getTime e with hmessages | ⟨message, hmessages⟩
  · rw [hmessages] at hcut
    cases hcut.2
  · rw [hmessages] at hcut ⊢
    rintro _ ⟨⟩ hrole
    simp [isCutPointMessage, hrole] at hcut

/-- No compaction is kept if and only if the cut is behind all of them. -/
theorem no_compaction_iff (h : IsPrepared getTime estimate path keep prep cut moved firstKept) :
    (∀ e ∈ path.drop moved, e.isCompaction = false) ↔
      ∀ p e, path[p]? = some e → e.isCompaction = true → boundaryStart path ≤ p →
        CutsBehind getTime estimate path (boundaryStart path) keep p := by
  have hnot : ∀ p e, path[p]? = some e → e.isCompaction = true → ¬CutPoint getTime path (boundaryStart path) p := by
    rintro p e he hcompaction ⟨-, e', he', hcut⟩
    rw [he] at he'
    cases he'
    simp [isCutPointEntry, hcompaction] at hcut
  constructor
  · intro hnone p e he hcompaction hstart
    rw [← h.behind p (hnot p e he hcompaction)]
    by_contra hge
    have hle := h.le
    have hmem : e ∈ path.drop moved := by
      refine List.mem_iff_getElem?.mpr ⟨p - moved, ?_⟩
      rw [List.getElem?_drop, Nat.add_sub_cancel' (by omega)]
      exact he
    rw [hnone e hmem] at hcompaction
    cases hcompaction
  · intro hall e he
    obtain ⟨i, hi⟩ := List.mem_iff_getElem?.mp he
    rw [List.getElem?_drop] at hi
    cases hcompaction : e.isCompaction with
    | false => rfl
    | true =>
      have hstart := h.start_le
      have hbehind := hall (moved + i) e hi hcompaction (by omega)
      rw [← h.behind _ (hnot _ e hi hcompaction)] at hbehind
      obtain ⟨e', he', hmeta⟩ := h.metadata (moved + i) (by omega) hbehind
      rw [hi] at he'
      cases he'
      simp [isMetadata, hcompaction] at hmeta

end IsPrepared

/-- The compaction that is appended with a preparation. -/
def compactionOf (prep : CompactionPreparation) (summary : JsString) (details usage : Option Json)
    (fromHook : Option Bool) : Compaction :=
  ⟨summary, prep.firstKeptEntryId, prep.tokensBefore, details, usage, fromHook⟩

/-- What is summarized and what is kept is all that was kept before, in order; the context with the compaction is its
summary and what is kept; and that does not begin with a tool result. This is so if and only if the budget is reached
behind every compaction. -/
theorem prepareCompaction_keeps_iff {m : SessionManager} (hm : m.Sound) {prep : CompactionPreparation}
    (hprep : prepareCompaction getTime estimate (m.getBranch none) keep = some prep) {draw : Draw}
    (hdraw : FreshDraw m draw) (summary : JsString) (details usage : Option Json) (fromHook : Option Bool) :
    (prep.messagesToSummarize ++ prep.turnPrefixMessages
          ++ keptMessages getTime ((m.getBranch none).dropWhile fun e => e.id ≠ prep.firstKeptEntryId)
        = keptMessages getTime (previouslyKept (m.getBranch none)) ∧
      ((m.appendCompaction draw (compactionOf prep summary details usage fromHook)).1.buildSessionContext getTime).messages
        = createCompactionSummaryMessage getTime summary prep.tokensBefore draw.timestamp
          :: keptMessages getTime ((m.getBranch none).dropWhile fun e => e.id ≠ prep.firstKeptEntryId) ∧
      ∀ message ∈ (keptMessages getTime ((m.getBranch none).dropWhile fun e => e.id ≠ prep.firstKeptEntryId)).head?,
        roleOf message ≠ some .toolResult)
      ↔ ∀ p e, (m.getBranch none)[p]? = some e → e.isCompaction = true → boundaryStart (m.getBranch none) ≤ p →
        CutsBehind getTime estimate (m.getBranch none) (boundaryStart (m.getBranch none)) keep p := by
  obtain ⟨cut, moved, firstKept, hprepared⟩ := prepareCompaction_spec hprep
  have hsub := hm.getBranch_sublist none
  have hnodup : (ids (m.getBranch none)).Nodup := hm.tree.nodup.sublist (hsub.map _)
  obtain ⟨hnew, hne⟩ := newEntry_id hm.toValid hdraw (.compaction (compactionOf prep summary details usage fromHook))
  set entry := m.newEntry draw (.compaction (compactionOf prep summary details usage fromHook)) with hentry
  have hcontext : ((m.appendCompaction draw (compactionOf prep summary details usage fromHook)).1.buildSessionContext
        getTime).messages
      = createCompactionSummaryMessage getTime summary prep.tokensBefore draw.timestamp
        :: contextMessages getTime ((m.getBranch none).dropWhile fun e => e.id ≠ prep.firstKeptEntryId) := by
    have hpath := appendEntry_path hm hnew hne rfl
    have hnodup' : (ids (m.getBranch none ++ entry :: [])).Nodup :=
      (ids_append_nodup hm.toValid hnew).sublist ((hsub.append_right [entry]).map _)
    have hsplit : contextEntries (m.getBranch none ++ entry :: [])
        = entry :: ((m.getBranch none).dropWhile fun e => e.id ≠ prep.firstKeptEntryId) ++ [] :=
      contextEntries_split hnodup' rfl (by simp)
    rw [SessionManager.buildSessionContext, contextAt, Coding.buildSessionContext, contextOfPath, appendCompaction,
      appendBody, ← hentry, hpath, hsplit, List.append_nil, contextMessages_cons]
    rfl
  rw [hcontext, hprepared.messages hnodup, List.cons.injEq]
  simp only [true_and]
  rw [keptMessages_eq_iff, hprepared.dropWhile_eq hnodup, and_iff_left hprepared.head_role]
  exact hprepared.no_compaction_iff

/-! ## An earlier compaction -/

/-- A user message of four characters. -/
def userEntry (id : String) (parentId : Option JsString) : SessionEntry :=
  ⟨name id, parentId, name "t", .message [(name "role", .string (name "user")), (name "content", .string (name "text"))]⟩

/-- Two messages, a compaction that keeps both, and a third message. -/
def compactedSession : SessionManager :=
  buildIndex
    { cwd := name "/"
      sessionDir := name "/"
      persist := false
      sessionId := name "s"
      sessionFile := none
      fileEntries := .session ⟨currentSessionVersion, name "s", name "t", name "/", none⟩ ::
        [userEntry "a" none, userEntry "b" (some (name "a")),
          ⟨name "c", some (name "b"), name "t", .compaction ⟨name "gist", name "a", 9, none, none, none⟩⟩,
          userEntry "d" (some (name "c"))].map FileEntry.entry
      byId := []
      labelsById := []
      labelTimestampsById := []
      leafId := none
      flushed := false }

def compactedDraw : Draw := ⟨fun _ => List.replicate 36 101, name "t"⟩

theorem compactedSession_sound : compactedSession.Sound where
  indexed := rfl
  tree := ⟨by decide, by decide, by decide, by decide⟩
  leaf := by decide
  parents := by decide

theorem compactedDraw_fresh : FreshDraw compactedSession compactedDraw where
  length i := List.length_replicate
  unused := by decide

def compactedPath : List SessionEntry :=
  [userEntry "a" none, userEntry "b" (some (name "a")),
    ⟨name "c", some (name "b"), name "t", .compaction ⟨name "gist", name "a", 9, none, none, none⟩⟩,
    userEntry "d" (some (name "c"))]

theorem getBranch_compactedSession : compactedSession.getBranch none = compactedPath := rfl

/-- The estimate of the source. -/
def charsEstimate : Estimate := Estimate.chars NumberFormat.fractions

def userMessage : AgentMessage := [(name "role", .string (name "user")), (name "content", .string (name "text"))]

/-- What is prepared when the entries up to an index are summarized. -/
def prepared (firstKeptEntryId : String) (messagesToSummarize : List AgentMessage) : CompactionPreparation :=
  ⟨name firstKeptEntryId, messagesToSummarize, [], false, 0 + ((4 : ℕ) : ℚ), some (name "gist")⟩

theorem findCutPoint_compacted {keep : ℚ} {i cut : ℕ}
    (hreach : reachBudget (fun _ => 0) charsEstimate compactedPath 0 keep 4 0 = some i)
    (hcut : (([0, 1, 3] : List ℕ).find? fun c => i ≤ c) = some cut) (hmoved : moveBack (fun _ => 0) compactedPath 0 cut = cut)
    (hturn : compactedPath[cut]?.any (isTurnStartEntry fun _ => 0) = true) :
    findCutPoint (fun _ => 0) charsEstimate compactedPath 0 4 keep = ⟨cut, none, false⟩ := by
  have hcuts : findValidCutPoints (fun _ => 0) compactedPath 0 4 = [0, 1, 3] := by decide
  unfold findCutPoint
  simp only [hcuts, hreach, hcut, Option.getD_some, hmoved, hturn]
  rfl

/-- With three tokens to be kept, the cut is in front of the earlier compaction. -/
theorem prepare_three :
    prepareCompaction (fun _ => 0) charsEstimate (compactedSession.getBranch none) 3
      = some (prepared "b" [userMessage]) := by
  have hreach : reachBudget (fun _ => 0) charsEstimate compactedPath 0 3 4 0 = some 1 := by decide +kernel
  have hcut := findCutPoint_compacted hreach rfl (by decide) (by decide)
  have hstart : boundaryStart compactedPath = 0 := by decide
  have hlength : compactedPath.length = 4 := rfl
  rw [getBranch_compactedSession]
  unfold prepareCompaction
  rw [hstart, hlength]
  dsimp only
  rw [hcut]
  rfl

/-- With one, it is behind. -/
theorem prepare_one :
    prepareCompaction (fun _ => 0) charsEstimate (compactedSession.getBranch none) 1
      = some (prepared "d" [userMessage, userMessage]) := by
  have hreach : reachBudget (fun _ => 0) charsEstimate compactedPath 0 1 4 0 = some 3 := by decide +kernel
  have hcut := findCutPoint_compacted hreach rfl (by decide) (by decide)
  have hstart : boundaryStart compactedPath = 0 := by decide
  have hlength : compactedPath.length = 4 := rfl
  rw [getBranch_compactedSession]
  unfold prepareCompaction
  rw [hstart, hlength]
  dsimp only
  rw [hcut]
  rfl

theorem prepareCompaction_keeps_one :
    (prepared "d" [userMessage, userMessage]).messagesToSummarize
          ++ (prepared "d" [userMessage, userMessage]).turnPrefixMessages
          ++ keptMessages (fun _ => 0) ((compactedSession.getBranch none).dropWhile fun e => e.id ≠ name "d")
        = keptMessages (fun _ => 0) (previouslyKept (compactedSession.getBranch none)) ∧
      ((compactedSession.appendCompaction compactedDraw
          (compactionOf (prepared "d" [userMessage, userMessage]) (name "new") none none none)).1.buildSessionContext
            (fun _ => 0)).messages
        = createCompactionSummaryMessage (fun _ => 0) (name "new") (0 + ((4 : ℕ) : ℚ)) (name "t")
          :: keptMessages (fun _ => 0) ((compactedSession.getBranch none).dropWhile fun e => e.id ≠ name "d") ∧
      ∀ message ∈ (keptMessages (fun _ => 0)
          ((compactedSession.getBranch none).dropWhile fun e => e.id ≠ name "d")).head?,
        roleOf message ≠ some .toolResult := by
  refine (prepareCompaction_keeps_iff compactedSession_sound prepare_one compactedDraw_fresh (name "new") none none
    none).mpr ?_
  rw [getBranch_compactedSession]
  have hcut : CutPoint (fun _ => 0) compactedPath (boundaryStart compactedPath) 3 := ⟨by decide, _, rfl, by decide⟩
  have hreach : Reaches (fun _ => 0) charsEstimate compactedPath (boundaryStart compactedPath) 1 3 := by
    refine ⟨by decide, ⟨_, rfl, by decide⟩, ?_⟩
    have hsum : ((compactedPath.drop 3).map (entryTokens (fun _ => 0) charsEstimate)).sum = 1 := by decide
    rw [hsum]
    norm_num
  intro p e he hcompaction _
  have hlt : p < 4 := (List.getElem?_eq_some_iff.mp he).1
  have hp : p ≤ 2 := by
    by_contra hgt
    obtain rfl : p = 3 := by omega
    cases he
    cases hcompaction
  refine .inr ⟨⟨3, hreach, fun c hc _ => by omega⟩, fun i hi => ⟨3, ?_, hcut⟩⟩
  obtain ⟨-, ⟨x, hx, -⟩, -⟩ := hi
  have hx : i < 4 := (List.getElem?_eq_some_iff.mp hx).1
  omega

/-- The summary of the earlier compaction shows among the messages that are kept. -/
theorem earlier_summary_kept :
    prepareCompaction (fun _ => 0) charsEstimate (compactedSession.getBranch none) 3
        = some (prepared "b" [userMessage]) ∧
    ¬((prepared "b" [userMessage]).messagesToSummarize ++ (prepared "b" [userMessage]).turnPrefixMessages
          ++ keptMessages (fun _ => 0) ((compactedSession.getBranch none).dropWhile fun e => e.id ≠ name "b")
        = keptMessages (fun _ => 0) (previouslyKept (compactedSession.getBranch none)) ∧
      ((compactedSession.appendCompaction compactedDraw
          (compactionOf (prepared "b" [userMessage]) (name "new") none none none)).1.buildSessionContext
            (fun _ => 0)).messages
        = createCompactionSummaryMessage (fun _ => 0) (name "new") (0 + ((4 : ℕ) : ℚ)) (name "t")
          :: keptMessages (fun _ => 0) ((compactedSession.getBranch none).dropWhile fun e => e.id ≠ name "b") ∧
      ∀ message ∈ (keptMessages (fun _ => 0)
          ((compactedSession.getBranch none).dropWhile fun e => e.id ≠ name "b")).head?,
        roleOf message ≠ some .toolResult) := by
  refine ⟨prepare_three, ?_⟩
  rintro ⟨-, hcontext, -⟩
  have hlength := congrArg List.length hcontext
  revert hlength
  decide

end Phi.Coding
