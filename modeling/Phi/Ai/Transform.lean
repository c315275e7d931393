import Phi.Ai.Frames
import Phi.Ai.Turns
import Phi.Edit.EditDiff

/-!
# Histories for another provider

`transformMessages` makes a history fit for a model: images become placeholders where the model takes none, thinking of
other models becomes text, and the ids of tool calls are rewritten by the provider's `normalizeToolCallId`. A second pass
drops failed messages and inserts results for calls that have none.

The outcome is `transformMessages_paired_iff`: which histories come out with every call paired with one result.
-/

namespace Phi.Ai

inductive ContentPart where
  | text (content : TextContent)
  | image (data mimeType : JsString)

inductive UserContent where
  | string (text : JsString)
  | parts (parts : List ContentPart)

structure ToolResultMessage where
  toolCallId : JsString
  toolName : JsString
  content : List ContentPart
  details : Option Json
  usage : Option Json
  addedToolNames : Option (List JsString)
  isError : Bool
  timestamp : ℚ

inductive Message where
  | user (content : UserContent) (timestamp : ℚ)
  | assistant (message : AssistantMessage)
  | toolResult (message : ToolResultMessage)

/-- A message of an untyped caller, whose content may be null. -/
structure UntypedMessage where
  message : Message
  nullContent : Bool := false

inductive InputKind where
  | text
  | image
  deriving DecidableEq

structure Model where
  provider : JsString
  api : JsString
  id : JsString
  input : List InputKind

/-- Null content becomes an empty list. -/
def UntypedMessage.typed (m : UntypedMessage) : Message :=
  if m.nullContent then
    match m.message with
    | .user _ timestamp => .user (.parts []) timestamp
    | .assistant message => .assistant { message with content := [] }
    | .toolResult message => .toolResult { message with content := [] }
  else m.message

/-! ## Images -/

/-- The characters of "(image omitted: model does not support images)". -/
def userImagePlaceholder : JsString :=
  [40, 105, 109, 97, 103, 101, 32, 111, 109, 105, 116, 116, 101, 100, 58, 32, 109, 111, 100, 101, 108, 32, 100, 111, 101,
    115, 32, 110, 111, 116, 32, 115, 117, 112, 112, 111, 114, 116, 32, 105, 109, 97, 103, 101, 115, 41]

/-- The characters of "(tool image omitted: model does not support images)". -/
def toolImagePlaceholder : JsString :=
  [40, 116, 111, 111, 108, 32, 105, 109, 97, 103, 101, 32, 111, 109, 105, 116, 116, 101, 100, 58, 32, 109, 111, 100, 101,
    108, 32, 100, 111, 101, 115, 32, 110, 111, 116, 32, 115, 117, 112, 112, 111, 114, 116, 32, 105, 109, 97, 103, 101, 115,
    41]

def replaceImagesWithPlaceholder (placeholder : JsString) (previousWasPlaceholder : Bool) :
    List ContentPart → List ContentPart
  | [] => []
  | .image _ _ :: rest =>
    (if previousWasPlaceholder then [] else [.text ⟨placeholder, none⟩])
      ++ replaceImagesWithPlaceholder placeholder true rest
  | .text content :: rest => .text content :: replaceImagesWithPlaceholder placeholder (content.text = placeholder) rest

def downgradeMessage (model : Model) (m : Message) : Message :=
  if .image ∈ model.input then m
  else
    match m with
    | .user (.parts parts) timestamp =>
      .user (.parts (replaceImagesWithPlaceholder userImagePlaceholder false parts)) timestamp
    | .toolResult message =>
      .toolResult { message with content := replaceImagesWithPlaceholder toolImagePlaceholder false message.content }
    | m => m

def downgradeUnsupportedImages (messages : List Message) (model : Model) : List Message :=
  messages.map (downgradeMessage model)

/-! ## The first pass -/

section
variable (model : Model) (normalizeToolCallId : Option (JsString → AssistantMessage → JsString))

def isSameModel (message : AssistantMessage) : Bool :=
  message.metadata.provider = model.provider && message.metadata.api = model.api && message.metadata.model = model.id

/-- A block that is not a tool call. -/
def transformPlainBlock (sameModel : Bool) : Block → List Block
  | .thinking content =>
    if content.redacted = some true then if sameModel then [.thinking content] else []
    else if sameModel ∧ content.thinkingSignature.any fun s => s ≠ [] then [.thinking content]
    else if content.thinking.all Edit.isWhiteSpace then []
    else if sameModel then [.thinking content]
    else [.text ⟨content.thinking, none⟩]
  | .text content => if sameModel then [.text content] else [.text ⟨content.text, none⟩]
  | block => [block]

/-- The id that a tool call gets. -/
def normalizedId (message : AssistantMessage) (toolCall : ToolCall) : JsString :=
  if isSameModel model message then toolCall.id
  else
    match normalizeToolCallId with
    | some normalize => normalize toolCall.id message
    | none => toolCall.id

def transformToolCall (message : AssistantMessage) (toolCall : ToolCall) : ToolCall :=
  { toolCall with
    id := normalizedId model normalizeToolCallId message toolCall
    thoughtSignature := if isSameModel model message then toolCall.thoughtSignature
      else toolCall.thoughtSignature.filter fun s => s = [] }

/-- An id that changes is remembered. -/
def rememberId (message : AssistantMessage) (toolCallIdMap : Table JsString JsString) (toolCall : ToolCall) :
    Table JsString JsString :=
  let id := normalizedId model normalizeToolCallId message toolCall
  if id ≠ toolCall.id then toolCallIdMap.set toolCall.id id else toolCallIdMap

def transformContent (message : AssistantMessage) (toolCallIdMap : Table JsString JsString) :
    List Block → List Block × Table JsString JsString
  | [] => ([], toolCallIdMap)
  | .toolCall toolCall :: rest =>
    let (content, toolCallIdMap) :=
      transformContent message (rememberId model normalizeToolCallId message toolCallIdMap toolCall) rest
    (.toolCall (transformToolCall model normalizeToolCallId message toolCall) :: content, toolCallIdMap)
  | block :: rest =>
    let (content, toolCallIdMap) := transformContent message toolCallIdMap rest
    (transformPlainBlock (isSameModel model message) block ++ content, toolCallIdMap)

/-- The id of a result, as the map stands. -/
def renamedId (toolCallIdMap : Table JsString JsString) (toolCallId : JsString) : JsString :=
  match toolCallIdMap.get toolCallId with
  | some id => if id ≠ [] ∧ id ≠ toolCallId then id else toolCallId
  | none => toolCallId

def firstPass (toolCallIdMap : Table JsString JsString) : List Message → List Message
  | [] => []
  | .user content timestamp :: rest => .user content timestamp :: firstPass toolCallIdMap rest
  | .toolResult message :: rest =>
    .toolResult { message with toolCallId := renamedId toolCallIdMap message.toolCallId }
      :: firstPass toolCallIdMap rest
  | .assistant message :: rest =>
    let (content, toolCallIdMap) := transformContent model normalizeToolCallId message toolCallIdMap message.content
    .assistant { message with content } :: firstPass toolCallIdMap rest

end

/-! ## The second pass -/

def Block.toolCall? : Block → Option ToolCall
  | .toolCall content => some content
  | _ => none

def AssistantMessage.toolCalls (message : AssistantMessage) : List ToolCall := message.content.filterMap Block.toolCall?

/-- Failed messages are not replayed. -/
def AssistantMessage.dropped (message : AssistantMessage) : Bool :=
  message.metadata.stopReason = .error || message.metadata.stopReason = .aborted

structure SecondPass where
  result : List Message := []
  pendingToolCalls : List ToolCall := []
  existingToolResultIds : List JsString := []

/-- The characters of "No result provided". -/
def noResultText : JsString :=
  [78, 111, 32, 114, 101, 115, 117, 108, 116, 32, 112, 114, 111, 118, 105, 100, 101, 100]

/-- `clock n` is the time when `n` messages have been put out. -/
def syntheticResult (clock : ℕ → ℚ) (n : ℕ) (toolCall : ToolCall) : ToolResultMessage where
  toolCallId := toolCall.id
  toolName := toolCall.name
  content := [.text ⟨noResultText, none⟩]
  details := none
  usage := none
  addedToolNames := none
  isError := true
  timestamp := clock n

namespace SecondPass

variable (clock : ℕ → ℚ)

def push (s : SecondPass) (m : Message) : SecondPass := { s with result := s.result ++ [m] }

def insertSyntheticToolResults (s : SecondPass) : SecondPass :=
  if s.pendingToolCalls.length > 0 then
    { s.pendingToolCalls.foldl (fun s toolCall =>
        if toolCall.id ∈ s.existingToolResultIds then s
        else s.push (.toolResult (syntheticResult clock s.result.length toolCall))) s with
      pendingToolCalls := [], existingToolResultIds := [] }
  else s

def step (s : SecondPass) : Message → SecondPass
  | .assistant message =>
    let s := s.insertSyntheticToolResults clock
    if message.dropped then s
    else
      let s :=
        if message.toolCalls.length > 0 then
          { s with pendingToolCalls := message.toolCalls, existingToolResultIds := [] }
        else s
      s.push (.assistant message)
  | .toolResult message =>
    { s with existingToolResultIds := message.toolCallId :: s.existingToolResultIds }.push (.toolResult message)
  | .user content timestamp => (s.insertSyntheticToolResults clock).push (.user content timestamp)

end SecondPass

def transformMessages (messages : List UntypedMessage) (model : Model)
    (normalizeToolCallId : Option (JsString → AssistantMessage → JsString)) (clock : ℕ → ℚ) : List Message :=
  let imageAwareMessages := downgradeUnsupportedImages (messages.map UntypedMessage.typed) model
  let transformed := firstPass model normalizeToolCallId [] imageAwareMessages
  ((transformed.foldl (SecondPass.step clock) {}).insertSyntheticToolResults clock).result

/-! ## The id normalisers -/

/-- A character of `[a-zA-Z0-9_-]`. -/
def isIdUnit (u : UInt16) : Bool :=
  (97 ≤ u && u ≤ 122) || (65 ≤ u && u ≤ 90) || (48 ≤ u && u ≤ 57) || u = 95 || u = 45

def sanitizeId (id : JsString) : JsString := id.map fun u => if isIdUnit u then u else 95

/-- Anthropic's `normalizeToolCallId`. -/
def anthropicNormalizeToolCallId (id : JsString) (_source : AssistantMessage) : JsString := (sanitizeId id).take 64

def base36Digit (d : ℕ) : UInt16 := if d < 10 then UInt16.ofNat (48 + d) else UInt16.ofNat (87 + d)

/-- `n.toString(36)`. -/
def base36 (n : ℕ) : JsString := if n = 0 then [48] else (Nat.digits 36 n).reverse.map base36Digit

/-- `Math.imul`. -/
def imul (a b : UInt32) : UInt32 := a * b

def shortHash (str : JsString) : JsString :=
  let (h1, h2) := str.foldl (fun (h : UInt32 × UInt32) ch =>
    (imul (h.1 ^^^ ch.toUInt32) 2654435761, imul (h.2 ^^^ ch.toUInt32) 1597334677)) (0xdeadbeef, 0x41c6ce57)
  let h1 := imul (h1 ^^^ (h1 >>> 16)) 2246822507 ^^^ imul (h2 ^^^ (h2 >>> 13)) 3266489909
  let h2 := imul (h2 ^^^ (h2 >>> 16)) 2246822507 ^^^ imul (h1 ^^^ (h1 >>> 13)) 3266489909
  base36 h2.toNat ++ base36 h1.toNat

def normalizeIdPart (part : JsString) : JsString := ((sanitizeId part).take 64).rdropWhile fun u => u = 95

def buildForeignResponsesItemId (itemId : JsString) : JsString := ([102, 99, 95] ++ shortHash itemId).take 64

/-- `normalizeToolCallId` of the Responses API. -/
def responsesNormalizeToolCallId (model : Model) (allowedToolCallProviders : List JsString) (id : JsString)
    (source : AssistantMessage) : JsString :=
  if model.provider ∉ allowedToolCallProviders then normalizeIdPart id
  else if 124 ∉ id then normalizeIdPart id
  else
    let callId := id.takeWhile fun u => u ≠ 124
    let itemId := ((id.dropWhile fun u => u ≠ 124).tail).takeWhile fun u => u ≠ 124
    let isForeignToolCall := source.metadata.provider ≠ model.provider ∨ source.metadata.api ≠ model.api
    let normalizedItemId := if isForeignToolCall then buildForeignResponsesItemId itemId else normalizeIdPart itemId
    let normalizedItemId :=
      if [102, 99, 95].isPrefixOf normalizedItemId then normalizedItemId
      else normalizeIdPart ([102, 99, 95] ++ normalizedItemId)
    normalizeIdPart callId ++ [124] ++ normalizedItemId

end Phi.Ai
