import Phi.Data.JsonValue
import Phi.Data.Except

/-!
# Assistant message frames

A model's answer arrives as a stream of events, each with a reference to one message that the provider keeps filling.
When an event is consumed, that message may be ahead of it by any number of events. `encode` turns the events into
compact frames that can be stored and replayed: for each open block it knows how much of the text the frames already
hold, and leaves out what later events would repeat. `reduceAssistantMessageFrames` builds the message from the frames.

The end of the stream has no frame: the settled message is stored apart.
-/

namespace Phi.Ai

inductive StopReason where
  | pending
  | stop
  | length
  | toolUse
  | error
  | aborted
  | deferred
  deriving DecidableEq

structure TextContent where
  text : JsString
  textSignature : Option JsString

structure ThinkingContent where
  thinking : JsString
  thinkingSignature : Option JsString
  redacted : Option Bool

structure ToolCall where
  id : JsString
  name : JsString
  arguments : Json
  thoughtSignature : Option JsString
  «namespace» : Option JsString

inductive Block where
  | text (content : TextContent)
  | thinking (content : ThinkingContent)
  | toolCall (content : ToolCall)

/-- A message without its content. -/
structure Metadata where
  api : JsString
  provider : JsString
  model : JsString
  responseModel : Option JsString
  responseId : Option JsString
  providerThinkingLevel : Option JsString
  diagnostics : Option Json
  usage : Json
  stopReason : StopReason
  deferred : Option Json
  errorMessage : Option JsString
  rawStopReason : Option JsString
  endTurn : Option Bool
  timestamp : ℚ

structure AssistantMessage where
  metadata : Metadata
  content : List Block

/-- An event of the stream, without the message it refers to. -/
inductive AssistantMessageEvent where
  | start
  | textStart (contentIndex : ℕ)
  | textDelta (contentIndex : ℕ) (delta : JsString)
  | textEnd (contentIndex : ℕ) (content : JsString)
  | thinkingStart (contentIndex : ℕ)
  | thinkingDelta (contentIndex : ℕ) (delta : JsString)
  | thinkingEnd (contentIndex : ℕ) (content : JsString)
  | toolcallStart (contentIndex : ℕ)
  | toolcallDelta (contentIndex : ℕ) (delta : JsString)
  | toolcallEnd (contentIndex : ℕ) (toolCall : ToolCall)
  | done (message : AssistantMessage)
  | error (message : AssistantMessage)

inductive AssistantMessageFrame where
  | start (partialMessage : AssistantMessage)
  | textStart (contentIndex : ℕ) (content : TextContent)
  | textDelta (contentIndex : ℕ) (delta : JsString)
  | textEnd (contentIndex : ℕ) (content : JsString) (textSignature : Option JsString)
  | thinkingStart (contentIndex : ℕ) (content : ThinkingContent)
  | thinkingDelta (contentIndex : ℕ) (delta : JsString)
  | thinkingEnd (contentIndex : ℕ) (content : JsString) (thinkingSignature : Option JsString) (redacted : Option Bool)
  | toolcallStart (contentIndex : ℕ) (toolCall : ToolCall)
  | toolcallCheckpoint (contentIndex : ℕ) (json : JsString)
  | toolcallDelta (contentIndex : ℕ) (delta : JsString)
  | toolcallEnd (contentIndex : ℕ) (toolCall : ToolCall)

inductive BlockKind where
  | text
  | thinking
  | toolCall
  deriving DecidableEq

/-- What the encoder and the reducer throw. -/
inductive FrameError where
  /-- "Assistant message event ... follows a terminal event" -/
  | afterTerminal
  /-- "Assistant message stream contains more than one start event" -/
  | secondStart
  /-- "Assistant message ... event appears before start" -/
  | beforeStart
  /-- "Invalid assistant message frame contentIndex: ..." -/
  | contentIndex (contentIndex : ℕ)
  /-- "... event has no content block at index ..." -/
  | noBlock (contentIndex : ℕ)
  /-- "... event points to ... block at index ..." -/
  | wrongBlock (kind : BlockKind) (contentIndex : ℕ)
  /-- "Assistant message block ... starts more than once" -/
  | startsTwice (contentIndex : ℕ)
  /-- "Assistant message ... block ... has not started" -/
  | notStarted (kind : BlockKind) (contentIndex : ℕ)
  /-- "Assistant message block ... is ..., not ..." -/
  | wrongKind (kind : BlockKind) (contentIndex : ℕ)
  /-- "Assistant message frame sequence contains more than one start frame" -/
  | secondStartFrame
  /-- "... frame appears before the start frame" -/
  | frameBeforeStart (frame : AssistantMessageFrame)
  /-- "Cannot start assistant message block at index ...: already exists", "would leave a gap" -/
  | cannotStart (contentIndex : ℕ)
  /-- "... frame has no started block at index ..." -/
  | noStartedBlock (contentIndex : ℕ)
  /-- "... frame expected ... block at index ..., found ..." -/
  | unexpectedBlock (kind : BlockKind) (contentIndex : ℕ)
  /-- "... frame follows the end of block at index ..." -/
  | afterEnd (contentIndex : ℕ)
  /-- "Unreachable tool-call frame state" -/
  | unreachable

def cloneStartMessage (message : AssistantMessage) : AssistantMessage where
  content := []
  metadata :=
    { message.metadata with
      stopReason := .pending, deferred := none, errorMessage := none, rawStopReason := none, endTurn := none }

/-- A safe integer. -/
def assertContentIndex (contentIndex : ℕ) : Except FrameError Unit :=
  if contentIndex ≤ 2 ^ 53 - 1 then .ok () else .error (.contentIndex contentIndex)

mutual

def isJsonPrefix : Json → Json → Bool
  | .string snapshot, current =>
    match current with
    | .string value => snapshot.isPrefixOf value
    | _ => false
  | .array snapshot, current =>
    match current with
    | .array values => isJsonPrefixItems snapshot values
    | _ => false
  | .object snapshot, current =>
    match current with
    | .object entries => isJsonPrefixMembers snapshot entries
    | _ => false
  | snapshot, current => snapshot.kind = current.kind

/-- `snapshot.every((value, index) => ...)`. -/
def isJsonPrefixItems : List Json → List Json → Bool
  | [], _ => true
  | _ :: _, [] => false
  | x :: xs, y :: ys => isJsonPrefix x y && isJsonPrefixItems xs ys

/-- `Object.entries(snapshot).every(...)`. -/
def isJsonPrefixMembers : List (JsString × Json) → Table JsString Json → Bool
  | [], _ => true
  | (key, value) :: members, current =>
    (match current.get key with
      | some found => isJsonPrefix value found
      | none => false) && isJsonPrefixMembers members current

end

/-! ## The encoder -/

inductive EncoderBlockState where
  | text (coveredChars deltaChars : ℕ)
  | thinking (coveredChars deltaChars : ℕ)
  | toolCall (caughtUp : Bool) (catchupJson snapshotArguments : JsString)

def EncoderBlockState.kind : EncoderBlockState → BlockKind
  | .text _ _ => .text
  | .thinking _ _ => .thinking
  | .toolCall _ _ _ => .toolCall

structure Encoder where
  started : Bool := false
  terminal : Bool := false
  blocks : Table ℕ EncoderBlockState := []

namespace Encoder

/-- `eventBlock(event)`, for the message as it is when the event is consumed. -/
def eventBlock (live : AssistantMessage) (contentIndex : ℕ) : Except FrameError Block := do
  assertContentIndex contentIndex
  match live.content[contentIndex]? with
  | none => .error (.noBlock contentIndex)
  | some block => .ok block

def startBlock (e : Encoder) (contentIndex : ℕ) (state : EncoderBlockState) : Except FrameError Encoder := do
  assertContentIndex contentIndex
  if e.blocks.has contentIndex then .error (.startsTwice contentIndex)
  else .ok { e with blocks := e.blocks.set contentIndex state }

def block (e : Encoder) (contentIndex : ℕ) (kind : BlockKind) : Except FrameError EncoderBlockState := do
  assertContentIndex contentIndex
  match e.blocks.get contentIndex with
  | none => .error (.notStarted kind contentIndex)
  | some state => if state.kind = kind then .ok state else .error (.wrongKind state.kind contentIndex)

def endBlock (e : Encoder) (contentIndex : ℕ) (kind : BlockKind) : Except FrameError Encoder := do
  let _ ← e.block contentIndex kind
  .ok { e with blocks := e.blocks.erase contentIndex }

/-- The part of a delta that the frames do not hold yet. -/
def uncovered (coveredChars deltaChars : ℕ) (delta : JsString) : Option JsString :=
  let covered := coveredChars - deltaChars
  if delta.length ≤ covered then none else some (delta.drop covered)

variable (parseStreamingJson : JsString → Json) (F : NumberFormat)

def encodeToolcallDelta (e : Encoder) (contentIndex : ℕ) (delta : JsString) :
    Except FrameError (Option AssistantMessageFrame × Encoder) := do
  match ← e.block contentIndex .toolCall with
  | .toolCall true _ _ => .ok (if delta.length = 0 then none else some (.toolcallDelta contentIndex delta), e)
  | .toolCall false catchupJson snapshotArguments =>
    let json := catchupJson ++ delta
    let argumentsValue := parseStreamingJson json
    if stringify F argumentsValue ≠ snapshotArguments ∧
        !isJsonPrefix (parseStreamingJson snapshotArguments) argumentsValue then
      .ok (none, { e with blocks := e.blocks.set contentIndex (.toolCall false json snapshotArguments) })
    else
      .ok (if json.length = 0 then none else some (.toolcallCheckpoint contentIndex json),
        { e with blocks := e.blocks.set contentIndex (.toolCall true [] []) })
  | _ => .error .unreachable

/-- The events of the blocks. -/
def encodeBlockEvent (e : Encoder) (event : AssistantMessageEvent) (live : AssistantMessage) :
    Except FrameError (Option AssistantMessageFrame × Encoder) :=
  match event with
  | .textStart i => do
    match ← eventBlock live i with
    | .text content =>
      let e ← e.startBlock i (.text content.text.length 0)
      .ok (some (.textStart i content), e)
    | _ => .error (.wrongBlock .text i)
  | .textDelta i delta => do
    match ← e.block i .text with
    | .text covered chars =>
      let e := { e with blocks := e.blocks.set i (.text covered (chars + delta.length)) }
      .ok ((uncovered covered chars delta).map (.textDelta i), e)
    | _ => .error .unreachable
  | .textEnd i text => do
    match ← eventBlock live i with
    | .text content =>
      let e ← e.endBlock i .text
      .ok (some (.textEnd i text content.textSignature), e)
    | _ => .error (.wrongBlock .text i)
  | .thinkingStart i => do
    match ← eventBlock live i with
    | .thinking content =>
      let e ← e.startBlock i (.thinking content.thinking.length 0)
      .ok (some (.thinkingStart i content), e)
    | _ => .error (.wrongBlock .thinking i)
  | .thinkingDelta i delta => do
    match ← e.block i .thinking with
    | .thinking covered chars =>
      let e := { e with blocks := e.blocks.set i (.thinking covered (chars + delta.length)) }
      .ok ((uncovered covered chars delta).map (.thinkingDelta i), e)
    | _ => .error .unreachable
  | .thinkingEnd i thinking => do
    match ← eventBlock live i with
    | .thinking content =>
      let e ← e.endBlock i .thinking
      .ok (some (.thinkingEnd i thinking content.thinkingSignature content.redacted), e)
    | _ => .error (.wrongBlock .thinking i)
  | .toolcallStart i => do
    match ← eventBlock live i with
    | .toolCall content =>
      let snapshotArguments := stringify F content.arguments
      let caughtUp := snapshotArguments == stringify F (parseStreamingJson [])
      let e ← e.startBlock i (.toolCall caughtUp [] (if caughtUp then [] else snapshotArguments))
      .ok (some (.toolcallStart i content), e)
    | _ => .error (.wrongBlock .toolCall i)
  | .toolcallDelta i delta => encodeToolcallDelta parseStreamingJson F e i delta
  | .toolcallEnd i toolCall => do
    match ← eventBlock live i with
    | .toolCall _ =>
      let e ← e.endBlock i .toolCall
      .ok (some (.toolcallEnd i toolCall), e)
    | _ => .error (.wrongBlock .toolCall i)
  | _ => .error .unreachable

def encode (e : Encoder) (event : AssistantMessageEvent) (live : AssistantMessage) :
    Except FrameError (Option AssistantMessageFrame × Encoder) :=
  if e.terminal then .error .afterTerminal
  else
    match event with
    | .start =>
      if e.started then .error .secondStart
      else .ok (some (.start (cloneStartMessage live)), { e with started := true })
    | .done _ => if e.started then .ok (none, { e with terminal := true }) else .error .beforeStart
    | .error _ => .ok (none, { e with terminal := true })
    | event => if e.started then e.encodeBlockEvent parseStreamingJson F event live else .error .beforeStart

/-- The frames of some events, each with the message as it was when the event was consumed. -/
def encodeAll (e : Encoder) : List (AssistantMessageEvent × AssistantMessage) →
    Except FrameError (List AssistantMessageFrame)
  | [] => .ok []
  | (event, live) :: rest => do
    let (frame, e) ← e.encode parseStreamingJson F event live
    let frames ← e.encodeAll rest
    .ok (frame.toList ++ frames)

end Encoder

/-! ## The reducer -/

structure ReducerBlockState where
  kind : BlockKind
  ended : Bool := false
  /-- Of tool calls only. -/
  json : JsString := []

structure Reducer where
  message : AssistantMessage
  states : Table ℕ ReducerBlockState := []

def Block.kind : Block → BlockKind
  | .text _ => .text
  | .thinking _ => .thinking
  | .toolCall _ => .toolCall

namespace Reducer

def appendBlock (r : Reducer) (contentIndex : ℕ) (block : Block) : Except FrameError Reducer := do
  assertContentIndex contentIndex
  if contentIndex ≠ r.message.content.length then .error (.cannotStart contentIndex)
  else
    .ok ⟨{ r.message with content := r.message.content ++ [block] }, r.states.set contentIndex { kind := block.kind }⟩

def activeBlock (r : Reducer) (contentIndex : ℕ) (expectedKind : BlockKind) :
    Except FrameError (Block × ReducerBlockState) := do
  assertContentIndex contentIndex
  match r.states.get contentIndex, r.message.content[contentIndex]? with
  | some state, some block =>
    if state.kind ≠ expectedKind ∨ block.kind ≠ expectedKind then .error (.unexpectedBlock expectedKind contentIndex)
    else if state.ended then .error (.afterEnd contentIndex)
    else .ok (block, state)
  | _, _ => .error (.noStartedBlock contentIndex)

/-- The block and its state are changed in place. -/
def put (r : Reducer) (contentIndex : ℕ) (block : Block) (state : ReducerBlockState) : Reducer :=
  ⟨{ r.message with content := r.message.content.set contentIndex block }, r.states.set contentIndex state⟩

variable (parseStreamingJson : JsString → Json)

/-- A frame behind the start frame. -/
def step (r : Reducer) : AssistantMessageFrame → Except FrameError Reducer
  | .start _ => .error .secondStartFrame
  | .textStart i content => r.appendBlock i (.text content)
  | .textDelta i delta => do
    match ← r.activeBlock i .text with
    | (.text content, state) => .ok (r.put i (.text { content with text := content.text ++ delta }) state)
    | _ => .error .unreachable
  | .textEnd i text textSignature => do
    match ← r.activeBlock i .text with
    | (.text _, state) => .ok (r.put i (.text ⟨text, textSignature⟩) { state with ended := true })
    | _ => .error .unreachable
  | .thinkingStart i content => r.appendBlock i (.thinking content)
  | .thinkingDelta i delta => do
    match ← r.activeBlock i .thinking with
    | (.thinking content, state) =>
      .ok (r.put i (.thinking { content with thinking := content.thinking ++ delta }) state)
    | _ => .error .unreachable
  | .thinkingEnd i thinking thinkingSignature redacted => do
    match ← r.activeBlock i .thinking with
    | (.thinking _, state) =>
      .ok (r.put i (.thinking ⟨thinking, thinkingSignature, redacted⟩) { state with ended := true })
    | _ => .error .unreachable
  | .toolcallStart i toolCall => r.appendBlock i (.toolCall toolCall)
  | .toolcallCheckpoint i json => do
    match ← r.activeBlock i .toolCall with
    | (.toolCall content, state) =>
      .ok (r.put i (.toolCall { content with arguments := parseStreamingJson json }) { state with json })
    | _ => .error .unreachable
  | .toolcallDelta i delta => do
    match ← r.activeBlock i .toolCall with
    | (.toolCall content, state) => .ok (r.put i (.toolCall content) { state with json := state.json ++ delta })
    | _ => .error .unreachable
  | .toolcallEnd i toolCall => do
    match ← r.activeBlock i .toolCall with
    | (.toolCall _, state) => .ok (r.put i (.toolCall toolCall) { state with ended := true })
    | _ => .error .unreachable

/-- The loop over the open tool calls behind the last frame. -/
def finish (content : List Block) : Table ℕ ReducerBlockState → Except FrameError (List Block)
  | [] => .ok content
  | (i, state) :: states =>
    if state.kind ≠ .toolCall ∨ state.ended ∨ state.json.length = 0 then finish content states
    else
      match content[i]? with
      | some (.toolCall toolCall) =>
        finish (content.set i (.toolCall { toolCall with arguments := parseStreamingJson state.json })) states
      | _ => .error .unreachable

end Reducer

/-- The frames before the start frame: only the first of them is remembered. -/
def findStart : Option AssistantMessageFrame → List AssistantMessageFrame →
    Except FrameError (Option (Reducer × List AssistantMessageFrame))
  | _, [] => .ok none
  | none, .start message :: frames => .ok (some (⟨message, []⟩, frames))
  | some frame, .start _ :: _ => .error (.frameBeforeStart frame)
  | none, frame :: frames => findStart (some frame) frames
  | some frame, _ :: frames => findStart (some frame) frames

def reduceAssistantMessageFrames (parseStreamingJson : JsString → Json) (frames : List AssistantMessageFrame) :
    Except FrameError (Option AssistantMessage) := do
  match ← findStart none frames with
  | none => .ok none
  | some (r, frames) =>
    let r ← frames.foldlM (Reducer.step parseStreamingJson) r
    let content ← Reducer.finish parseStreamingJson r.message.content r.states
    .ok (some { r.message with content })

end Phi.Ai
