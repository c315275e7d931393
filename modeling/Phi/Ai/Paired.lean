import Phi.Ai.Transform

/-!
# Tool calls of a transformed history

A transformed history, seen as `Turns.Item`s, is the settled history: `items` reads the ids that calls and results get
off the history itself. So a provider accepts the outcome exactly if the history is `Pairable`.

Histories that are not come about in practice. The results of a failed message stay when the message is dropped, and two
ids may become one when they are cut to 64 characters.
-/

namespace Phi.Ai

open Turns (Item settle missing)

/-- A message as a provider sees it. -/
def Message.item : Message → Item JsString
  | .user _ _ => .user
  | .assistant message => .assistant false (message.toolCalls.map ToolCall.id)
  | .toolResult message => .result message.toolCallId

def Message.assistant? : Message → Option AssistantMessage
  | .assistant message => some message
  | _ => none

/-- The assistant messages that are replayed. -/
def keptMessages (history : List Message) : List AssistantMessage :=
  (history.filterMap Message.assistant?).filter fun message => !message.dropped

/-- Calls with distinct ids have distinct ids still. -/
def KeepsDistinct (before after : AssistantMessage) : Prop :=
  before.toolCalls.length = after.toolCalls.length ∧
    ∀ (i j : ℕ) (b b' a a' : ToolCall), before.toolCalls[i]? = some b → before.toolCalls[j]? = some b' →
      after.toolCalls[i]? = some a → after.toolCalls[j]? = some a' → b.id ≠ b'.id → a.id ≠ a'.id

/-- Every call is paired with one result, and no two calls of a message have become one. -/
structure ToolCallsPaired (history : List Message) (output : List Message) : Prop where
  paired : Turns.Paired (output.map Message.item)
  distinct : List.Forall₂ KeepsDistinct (keptMessages history) (output.filterMap Message.assistant?)

section
variable (model : Model) (normalizeToolCallId : Option (JsString → AssistantMessage → JsString))

/-- The ids of the calls of a message, as they become. -/
def callIds (message : AssistantMessage) : List JsString :=
  message.toolCalls.map (normalizedId model normalizeToolCallId message)

/-- The map of ids behind a message. -/
def remembered (toolCallIdMap : Table JsString JsString) (message : AssistantMessage) : Table JsString JsString :=
  message.toolCalls.foldl (rememberId model normalizeToolCallId message) toolCallIdMap

/-- A history with the ids that its calls and results get. -/
def items (toolCallIdMap : Table JsString JsString) : List Message → List (Item JsString)
  | [] => []
  | .user _ _ :: rest => .user :: items toolCallIdMap rest
  | .toolResult message :: rest => .result (renamedId toolCallIdMap message.toolCallId) :: items toolCallIdMap rest
  | .assistant message :: rest =>
    .assistant message.dropped (callIds model normalizeToolCallId message)
      :: items (remembered model normalizeToolCallId toolCallIdMap message) rest

/-- The results of a history are in order under the ids that they get, and no ids of one message fall together. -/
structure Pairable (history : List Message) : Prop where
  turns : Turns.Pairable (items model normalizeToolCallId [] history)
  distinct : ∀ message ∈ keptMessages history, ∀ b ∈ message.toolCalls, ∀ b' ∈ message.toolCalls, b.id ≠ b'.id →
    normalizedId model normalizeToolCallId message b ≠ normalizedId model normalizeToolCallId message b'

/-! ## The first pass -/

variable {model normalizeToolCallId}

theorem transformPlainBlock_toolCall? (sameModel : Bool) {block : Block} (h : block.toolCall? = none) :
    (transformPlainBlock sameModel block).filterMap Block.toolCall? = [] := by
  cases block with
  | text content =>
    simp only [transformPlainBlock]
    split_ifs <;> rfl
  | thinking content =>
    simp only [transformPlainBlock]
    split_ifs <;> rfl
  | toolCall content => cases h

theorem transformContent_eq (message : AssistantMessage) (toolCallIdMap : Table JsString JsString)
    (content : List Block) :
    (transformContent model normalizeToolCallId message toolCallIdMap content).1.filterMap Block.toolCall?
        = (content.filterMap Block.toolCall?).map (transformToolCall model normalizeToolCallId message) ∧
      (transformContent model normalizeToolCallId message toolCallIdMap content).2
        = (content.filterMap Block.toolCall?).foldl (rememberId model normalizeToolCallId message) toolCallIdMap := by
  induction content generalizing toolCallIdMap with
  | nil => exact ⟨rfl, rfl⟩
  | cons block rest ih =>
    cases block with
    | toolCall content =>
      obtain ⟨hcalls, hmap⟩ := ih (rememberId model normalizeToolCallId message toolCallIdMap content)
      refine ⟨?_, hmap⟩
      simp only [transformContent, List.filterMap_cons, Block.toolCall?, hcalls, List.map_cons]
    | text content =>
      obtain ⟨hcalls, hmap⟩ := ih toolCallIdMap
      refine ⟨?_, hmap⟩
      simp only [transformContent, List.filterMap_append,
        transformPlainBlock_toolCall? _ (show (Block.text content).toolCall? = none from rfl),
        hcalls, List.nil_append, List.filterMap_cons, Block.toolCall?]
    | thinking content =>
      obtain ⟨hcalls, hmap⟩ := ih toolCallIdMap
      refine ⟨?_, hmap⟩
      simp only [transformContent, List.filterMap_append,
        transformPlainBlock_toolCall? _ (show (Block.thinking content).toolCall? = none from rfl),
        hcalls, List.nil_append, List.filterMap_cons, Block.toolCall?]

/-- A message behind the first pass. -/
def transformed (model : Model) (normalizeToolCallId : Option (JsString → AssistantMessage → JsString))
    (message : AssistantMessage) (toolCallIdMap : Table JsString JsString) : AssistantMessage :=
  { message with content := (transformContent model normalizeToolCallId message toolCallIdMap message.content).1 }

theorem toolCalls_transformed (message : AssistantMessage) (toolCallIdMap : Table JsString JsString) :
    (transformed model normalizeToolCallId message toolCallIdMap).toolCalls
      = message.toolCalls.map (transformToolCall model normalizeToolCallId message) :=
  (transformContent_eq message toolCallIdMap message.content).1

theorem firstPass_assistant (message : AssistantMessage) (toolCallIdMap : Table JsString JsString)
    (rest : List Message) :
    firstPass model normalizeToolCallId toolCallIdMap (.assistant message :: rest)
      = .assistant (transformed model normalizeToolCallId message toolCallIdMap)
        :: firstPass model normalizeToolCallId (remembered model normalizeToolCallId toolCallIdMap message) rest := by
  rw [firstPass, remembered, AssistantMessage.toolCalls, ← (transformContent_eq message toolCallIdMap message.content).2]
  rfl

/-- A message with its calls, dropped or not. -/
def rawItem : Message → Item JsString
  | .user _ _ => .user
  | .assistant message => .assistant message.dropped (message.toolCalls.map ToolCall.id)
  | .toolResult message => .result message.toolCallId

theorem rawItem_firstPass (toolCallIdMap : Table JsString JsString) (history : List Message) :
    (firstPass model normalizeToolCallId toolCallIdMap history).map rawItem
      = items model normalizeToolCallId toolCallIdMap history := by
  induction history generalizing toolCallIdMap with
  | nil => rfl
  | cons m rest ih =>
    cases m with
    | user content timestamp => simp only [firstPass, items, List.map_cons, rawItem, ih]
    | toolResult message => simp only [firstPass, items, List.map_cons, rawItem, ih]
    | assistant message =>
      have hids : (message.toolCalls.map (transformToolCall model normalizeToolCallId message)).map ToolCall.id
          = callIds model normalizeToolCallId message := by
        rw [List.map_map]
        rfl
      rw [firstPass_assistant, items, List.map_cons, ih, rawItem, toolCalls_transformed, hids]
      rfl

/-- The messages that stay, one by one. -/
theorem keepsDistinct_transformed_iff (message : AssistantMessage) (toolCallIdMap : Table JsString JsString) :
    KeepsDistinct message (transformed model normalizeToolCallId message toolCallIdMap) ↔
      ∀ b ∈ message.toolCalls, ∀ b' ∈ message.toolCalls, b.id ≠ b'.id →
        normalizedId model normalizeToolCallId message b ≠ normalizedId model normalizeToolCallId message b' := by
  unfold KeepsDistinct
  rw [toolCalls_transformed, List.length_map]
  constructor
  · rintro ⟨-, h⟩ b hb b' hb'
    obtain ⟨i, hi⟩ := List.mem_iff_getElem?.mp hb
    obtain ⟨j, hj⟩ := List.mem_iff_getElem?.mp hb'
    exact h i j b b' (transformToolCall model normalizeToolCallId message b)
      (transformToolCall model normalizeToolCallId message b') hi hj (by rw [List.getElem?_map, hi]; rfl)
      (by rw [List.getElem?_map, hj]; rfl)
  · intro h
    refine ⟨rfl, fun i j b b' a a' hb hb' ha ha' => ?_⟩
    rw [List.getElem?_map, hb] at ha
    rw [List.getElem?_map, hb'] at ha'
    cases ha
    cases ha'
    exact h b (List.mem_of_getElem? hb) b' (List.mem_of_getElem? hb')

theorem forall₂_firstPass_iff (toolCallIdMap : Table JsString JsString) (history : List Message) :
    List.Forall₂ KeepsDistinct (keptMessages history)
        (keptMessages (firstPass model normalizeToolCallId toolCallIdMap history)) ↔
      ∀ message ∈ keptMessages history, ∀ b ∈ message.toolCalls, ∀ b' ∈ message.toolCalls, b.id ≠ b'.id →
        normalizedId model normalizeToolCallId message b ≠ normalizedId model normalizeToolCallId message b' := by
  induction history generalizing toolCallIdMap with
  | nil => simp [keptMessages, firstPass]
  | cons m rest ih =>
    cases m with
    | user content timestamp => exact ih toolCallIdMap
    | toolResult message => exact ih toolCallIdMap
    | assistant message =>
      rw [firstPass_assistant]
      have hdropped : (transformed model normalizeToolCallId message toolCallIdMap).dropped = message.dropped := rfl
      cases h : message.dropped with
      | true =>
        have hkept : keptMessages (.assistant message :: rest) = keptMessages rest := by
          simp [keptMessages, Message.assistant?, h]
        have hkept' : ∀ tail, keptMessages (.assistant (transformed model normalizeToolCallId message toolCallIdMap)
            :: tail) = keptMessages tail := by
          intro tail
          simp [keptMessages, Message.assistant?, hdropped, h]
        rw [hkept, hkept', ih]
      | false =>
        have hkept : keptMessages (.assistant message :: rest) = message :: keptMessages rest := by
          simp [keptMessages, Message.assistant?, h]
        have hkept' : ∀ tail, keptMessages (.assistant (transformed model normalizeToolCallId message toolCallIdMap)
            :: tail) = transformed model normalizeToolCallId message toolCallIdMap :: keptMessages tail := by
          intro tail
          simp [keptMessages, Message.assistant?, hdropped, h]
        rw [hkept, hkept', List.forall₂_cons, ih, keepsDistinct_transformed_iff, List.forall_mem_cons]

end

/-! ## The second pass -/

namespace SecondPass

variable (clock : ℕ → ℚ)

/-- What the loop over the pending calls puts out. -/
theorem foldl_synthetic (calls : List ToolCall) (s : SecondPass) :
    ∃ added : List ToolResultMessage,
      calls.foldl (fun s toolCall =>
        if toolCall.id ∈ s.existingToolResultIds then s
        else s.push (.toolResult (syntheticResult clock s.result.length toolCall))) s
        = { s with result := s.result ++ added.map .toolResult } ∧
      added.map ToolResultMessage.toolCallId = missing (calls.map ToolCall.id) s.existingToolResultIds := by
  induction calls generalizing s with
  | nil => exact ⟨[], by simp, rfl⟩
  | cons call calls ih =>
    rw [List.foldl_cons]
    split_ifs with hmem
    · obtain ⟨added, heq, hids⟩ := ih s
      refine ⟨added, heq, ?_⟩
      rw [hids]
      simp [missing, hmem]
    · obtain ⟨added, heq, hids⟩ := ih (s.push (.toolResult (syntheticResult clock s.result.length call)))
      refine ⟨syntheticResult clock s.result.length call :: added, ?_, ?_⟩
      · rw [heq]
        simp [push]
      · rw [List.map_cons, hids, List.map_cons, missing, missing, List.filter_cons_of_pos (by simpa using hmem)]
        rfl

/-- The results that were missing are put out, and nothing is pending any more. -/
theorem insertSyntheticToolResults_eq (s : SecondPass) :
    ∃ (added : List ToolResultMessage) (existing : List JsString),
      s.insertSyntheticToolResults clock = ⟨s.result ++ added.map .toolResult, [], existing⟩ ∧
      added.map ToolResultMessage.toolCallId
        = missing (s.pendingToolCalls.map ToolCall.id) s.existingToolResultIds := by
  unfold insertSyntheticToolResults
  split_ifs with h
  · obtain ⟨added, heq, hids⟩ := foldl_synthetic clock s.pendingToolCalls s
    refine ⟨added, [], ?_, hids⟩
    rw [heq]
  · have hnil : s.pendingToolCalls = [] := by simpa using h
    refine ⟨[], s.existingToolResultIds, ?_, ?_⟩
    · simp [← hnil]
    · rw [hnil]
      rfl

theorem map_item_toolResults (added : List ToolResultMessage) :
    (added.map Message.toolResult).map Message.item = (added.map ToolResultMessage.toolCallId).map .result := by
  rw [List.map_map, List.map_map]
  rfl

theorem filterMap_assistant?_toolResults (added : List ToolResultMessage) :
    (added.map Message.toolResult).filterMap Message.assistant? = [] := by
  rw [List.filterMap_map, List.filterMap_eq_nil_iff]
  exact fun _ _ => rfl

/-- The loop over the messages settles what they are to a provider, and keeps the messages that are not dropped. -/
theorem foldl_step (ms : List Message) (s : SecondPass) :
    ((ms.foldl (step clock) s).insertSyntheticToolResults clock).result.map Message.item
        = s.result.map Message.item
          ++ settle (s.pendingToolCalls.map ToolCall.id) s.existingToolResultIds (ms.map rawItem) ∧
      ((ms.foldl (step clock) s).insertSyntheticToolResults clock).result.filterMap Message.assistant?
        = s.result.filterMap Message.assistant? ++ keptMessages ms := by
  induction ms generalizing s with
  | nil =>
    obtain ⟨added, existing, heq, hids⟩ := s.insertSyntheticToolResults_eq clock
    rw [List.foldl_nil, heq]
    constructor
    · simp only [List.map_append, map_item_toolResults, hids, List.map_nil, settle]
    · simp only [List.filterMap_append, filterMap_assistant?_toolResults]
      rfl
  | cons m ms ih =>
    rw [List.foldl_cons, List.map_cons]
    obtain ⟨hitems, hmessages⟩ := ih (s.step clock m)
    rw [hitems, hmessages]
    cases m with
    | user content timestamp =>
      obtain ⟨added, existing, heq, hids⟩ := s.insertSyntheticToolResults_eq clock
      simp only [step, heq, push]
      constructor
      · simp only [List.map_append, map_item_toolResults, hids, List.map_nil, List.map_cons, Message.item, rawItem, settle,
          Turns.settle_nil existing, List.append_assoc, List.singleton_append]
      · rw [List.filterMap_append, List.filterMap_append, filterMap_assistant?_toolResults, List.append_nil]
        exact congrArg₂ _ (List.append_nil _) rfl
    | toolResult message =>
      simp only [step, push]
      constructor
      · simp only [List.map_append, List.map_cons, List.map_nil, Message.item, rawItem, settle, List.append_assoc,
          List.singleton_append]
      · rw [List.filterMap_append]
        exact congrArg₂ _ (List.append_nil _) rfl
    | assistant message =>
      obtain ⟨added, existing, heq, hids⟩ := s.insertSyntheticToolResults_eq clock
      simp only [step, heq, push]
      cases hd : message.dropped with
      | true =>
        simp only [if_true]
        constructor
        · simp only [List.map_append, map_item_toolResults, hids, List.map_nil, rawItem, hd, settle,
            Turns.settle_nil existing, List.append_assoc]
        · simp [List.filterMap_append, filterMap_assistant?_toolResults, keptMessages, Message.assistant?, hd]
      | false =>
        simp only [Bool.false_eq_true, if_false]
        have hkept : keptMessages (.assistant message :: ms) = message :: keptMessages ms := by
          simp [keptMessages, Message.assistant?, hd]
        split_ifs with hcalls
        · constructor
          · simp only [List.map_append, map_item_toolResults, hids, List.map_nil, List.map_cons, Message.item, rawItem, hd,
              settle, List.append_assoc, List.singleton_append]
          · simp [List.filterMap_append, filterMap_assistant?_toolResults, hkept, Message.assistant?]
        · have hnil : message.toolCalls = [] := by simpa using hcalls
          constructor
          · simp only [List.map_append, map_item_toolResults, hids, List.map_nil, List.map_cons, Message.item, rawItem, hd,
              hnil, settle, Turns.settle_nil existing, List.append_assoc, List.singleton_append]
          · simp [List.filterMap_append, filterMap_assistant?_toolResults, hkept, Message.assistant?]

end SecondPass

/-! ## The transformed history -/

section
variable {model : Model} {normalizeToolCallId : Option (JsString → AssistantMessage → JsString)}

/-- Placeholders for images change no id. -/
theorem items_downgrade (toolCallIdMap : Table JsString JsString) (history : List Message) :
    items model normalizeToolCallId toolCallIdMap (downgradeUnsupportedImages history model)
      = items model normalizeToolCallId toolCallIdMap history := by
  induction history generalizing toolCallIdMap with
  | nil => rfl
  | cons m rest ih =>
    rw [downgradeUnsupportedImages, List.map_cons, ← downgradeUnsupportedImages]
    unfold downgradeMessage
    split_ifs
    · cases m <;> simp only [items, ih]
    · cases m with
      | user content timestamp => cases content <;> simp only [items, ih]
      | toolResult message => simp only [items, ih]
      | assistant message => simp only [items, ih]

theorem keptMessages_downgrade (history : List Message) :
    keptMessages (downgradeUnsupportedImages history model) = keptMessages history := by
  have hassistant : ∀ m, (downgradeMessage model m).assistant? = m.assistant? := by
    intro m
    unfold downgradeMessage
    split_ifs
    · rfl
    · cases m with
      | user content timestamp => cases content <;> rfl
      | toolResult message => rfl
      | assistant message => rfl
  have hmap : (history.map (downgradeMessage model)).filterMap Message.assistant?
      = history.filterMap Message.assistant? := by
    rw [List.filterMap_map]
    exact List.filterMap_congr fun m _ => hassistant m
  unfold keptMessages downgradeUnsupportedImages
  rw [hmap]

end

/-- The calls of a transformed history are paired exactly if the history is in order. -/
theorem transformMessages_paired_iff (messages : List UntypedMessage) (model : Model)
    (normalizeToolCallId : JsString → AssistantMessage → JsString) (clock : ℕ → ℚ) :
    ToolCallsPaired (messages.map UntypedMessage.typed)
        (transformMessages messages model (some normalizeToolCallId) clock) ↔
      Pairable model (some normalizeToolCallId) (messages.map UntypedMessage.typed) := by
  set history := messages.map UntypedMessage.typed with hhistory
  have hloop := SecondPass.foldl_step clock
    (firstPass model (some normalizeToolCallId) [] (downgradeUnsupportedImages history model)) {}
  have hitems : (transformMessages messages model (some normalizeToolCallId) clock).map Message.item
      = settle [] [] (items model (some normalizeToolCallId) [] history) := by
    rw [← items_downgrade, ← rawItem_firstPass]
    exact hloop.1
  have hmessages : (transformMessages messages model (some normalizeToolCallId) clock).filterMap Message.assistant?
      = keptMessages (firstPass model (some normalizeToolCallId) [] (downgradeUnsupportedImages history model)) :=
    hloop.2
  have hdistinct : List.Forall₂ KeepsDistinct (keptMessages (downgradeUnsupportedImages history model))
      (keptMessages (firstPass model (some normalizeToolCallId) [] (downgradeUnsupportedImages history model))) ↔ _ :=
    forall₂_firstPass_iff [] (downgradeUnsupportedImages history model)
  rw [keptMessages_downgrade] at hdistinct
  constructor
  · rintro ⟨hpaired, hd⟩
    rw [hitems] at hpaired
    rw [hmessages] at hd
    exact ⟨(Turns.paired_settle_iff _).mp hpaired, hdistinct.mp hd⟩
  · rintro ⟨hturns, hd⟩
    refine ⟨?_, ?_⟩
    · rw [hitems]
      exact (Turns.paired_settle_iff _).mpr hturns
    · rw [hmessages]
      exact hdistinct.mpr hd

/-! ## The results of a failed message -/

/-- Every result is that of a call of an earlier message. -/
def ResultsRefer (history : List Message) : Prop :=
  ∀ before result after, history = before ++ .toolResult result :: after →
    ∃ message ∈ before.filterMap Message.assistant?, ∃ call ∈ message.toolCalls, call.id = result.toolCallId

/-- A message with one call that failed. -/
def failedMessage : AssistantMessage where
  content := [.toolCall ⟨[97], [116], .object [], none, none⟩]
  metadata :=
    { api := [97], provider := [112], model := [109], responseModel := none, responseId := none,
      providerThinkingLevel := none, diagnostics := none, usage := .object [], stopReason := .error, deferred := none,
      errorMessage := none, rawStopReason := none, endTurn := none, timestamp := 0 }

def failedHistory : List UntypedMessage :=
  [⟨.user (.string [104]) 0, false⟩, ⟨.assistant failedMessage, false⟩,
    ⟨.toolResult ⟨[97], [116], [], none, none, none, false, 0⟩, false⟩]

/-- The failed message is dropped and its result stays. -/
theorem dropped_message_leaves_result :
    ResultsRefer (failedHistory.map UntypedMessage.typed) ∧
      ¬ToolCallsPaired (failedHistory.map UntypedMessage.typed)
        (transformMessages failedHistory ⟨[112], [97], [109], [.text]⟩ (some anthropicNormalizeToolCallId)
          fun _ => 0) := by
  constructor
  · intro before result after heq
    obtain ⟨rfl, rfl⟩ : before = [.user (.string [104]) 0, .assistant failedMessage] ∧
        result = ⟨[97], [116], [], none, none, none, false, 0⟩ := by
      rcases before with _ | ⟨x, _ | ⟨y, _ | ⟨z, before⟩⟩⟩
      · cases heq
      · cases heq
      · cases heq
        exact ⟨rfl, rfl⟩
      · simp [failedHistory, UntypedMessage.typed] at heq
    exact ⟨failedMessage, by simp [Message.assistant?], _, List.mem_cons_self, rfl⟩
  · intro h
    obtain ⟨calls, hclosest, -⟩ := h.paired.belongs [.user] [97] [] rfl
    cases hclosest

end Phi.Ai
