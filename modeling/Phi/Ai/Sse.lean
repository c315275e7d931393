import Phi.Data.Cutting
import Phi.Data.JsonValue
import Phi.Data.TextDecoder
import Phi.Edit.EditDiff

/-!
# Server-sent events

The readers of three adapters: `iterateSseMessages` of the Anthropic one cuts the text into lines and collects the fields
of an event up to a blank line; `parseSSE` of the Codex one and `readPiMessagesEvents` cut it into frames at blank lines.
The chunks of a response are decoded one by one, and what they complete is read at once. `F` is how numbers are written.
-/

namespace Phi.Ai

def trim (text : JsString) : JsString := Edit.trimEnd (text.dropWhile Edit.isWhiteSpace)

/-! ## The Anthropic reader -/

structure ServerSentEvent where
  event : Option JsString
  data : JsString
  raw : List JsString
  deriving DecidableEq

structure SseDecoderState where
  event : Option JsString := none
  data : List JsString := []
  raw : List JsString := []

/-- `lines.join("\n")`. -/
def joinNewline (lines : List JsString) : JsString := (lines.intersperse [10]).flatten

/-- An event is to be flushed: it has a name, or data. -/
def SseDecoderState.Pending (state : SseDecoderState) : Prop := (state.event.getD [] ≠ []) ∨ state.data ≠ []

instance (state : SseDecoderState) : Decidable state.Pending := inferInstanceAs (Decidable (_ ∨ _))

def flushSseEvent (state : SseDecoderState) : Option ServerSentEvent × SseDecoderState :=
  if state.Pending then (some ⟨state.event, joinNewline state.data, state.raw⟩, {}) else (none, state)

def decodeSseLine (line : JsString) (state : SseDecoderState) : Option ServerSentEvent × SseDecoderState :=
  if line = [] then flushSseEvent state
  else
    let state := { state with raw := state.raw ++ [line] }
    if line.head? = some 58 then (none, state)
    else
      let fieldName := line.takeWhile (· ≠ 58)
      let value := (line.dropWhile (· ≠ 58)).tail
      let value := if value.head? = some 32 then value.tail else value
      if fieldName = JsString.ofAscii "event" then (none, { state with event := some value })
      else if fieldName = JsString.ofAscii "data" then (none, { state with data := state.data ++ [value] })
      else (none, state)

/-- The events of some lines. -/
def decodeSseLines (state : SseDecoderState) : List JsString → List ServerSentEvent × SseDecoderState
  | [] => ([], state)
  | line :: lines =>
    let decoded := decodeSseLine line state
    let rest := decodeSseLines decoded.2 lines
    (decoded.1.toList ++ rest.1, rest.2)

/-- The text up to the first blank line, and what follows it. -/
def cutFrame : JsString → Option (JsString × JsString)
  | [] => none
  | [_] => none
  | u :: v :: rest => if u = 10 ∧ v = 10 then some ([], rest) else (cutFrame (v :: rest)).map fun p => (u :: p.1, p.2)

/-- The lines of a frame. -/
def splitNewline (text : JsString) : List JsString := text.splitOn 10

/-- What a frame gives, up to the first that cannot be parsed. -/
def readFrames {E : Type} (parse : JsString → Except E (Option Json)) : List JsString → List Json × Option E
  | [] => ([], none)
  | frame :: frames =>
    match parse frame with
    | .error e => ([], some e)
    | .ok event => (event.toList ++ (readFrames parse frames).1, (readFrames parse frames).2)

/-- The events of some frames, and those of what follows them unless one cannot be parsed. -/
def readOn {E : Type} (events : List Json × Option E) (rest : List Json × Option E) : List Json × Option E :=
  match events.2 with
  | some e => (events.1, some e)
  | none => (events.1 ++ rest.1, rest.2)

/-- The readers of frames: what is done to the buffer before it is cut, and what is read at the end. -/
structure FrameReader (E : Type) where
  normalize : JsString → JsString
  parse : JsString → Except E (Option Json)
  /-- The frames that are cut off at the end of the stream, the buffer being as it is. -/
  finish : JsString → List JsString

def FrameReader.read {E : Type} (r : FrameReader E) (buffer : JsString) (last : JsString) :
    List JsString → List Json × Option E
  | [] => readFrames r.parse (r.finish (buffer ++ last))
  | text :: texts =>
    let frames := pieces cutFrame (r.normalize (buffer ++ text))
    readOn (readFrames r.parse frames.1) (r.read frames.2 last texts)

variable (F : NumberFormat)

/-! ## The Codex reader -/

end Phi.Ai
