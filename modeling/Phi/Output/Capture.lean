import Phi.Output.Cut
import Phi.Output.Publisher
import Phi.Output.Updates

/-!
# Shell output capture

`OutputCapture` keeps a bounded buffer of a shell's output, its end or its beginning, and publishes views of it. Its
clients push strings and bytes from anywhere, also from inside the callback that an update is delivered to, and that
callback may throw.

`step` takes one call, or the return of one callback, at a time. `stack` holds what the callers of the callbacks in
progress go on with: a string chunk is appended after the end of the bytes before it, and a new spill path is followed
by a flush.
-/

namespace Phi.Output

/-- "Output maxBytes must be a positive finite number", "Output maxLines must be a positive integer". -/
inductive CaptureError where
  | maxBytes
  | maxLines

inductive Retain where
  | head
  | tail
  deriving DecidableEq

structure OutputCapture where
  options : TruncationOptions
  retain : Retain
  decoder : TextDecoder := {}
  buffer : JsString := []
  bufferBytes : ℕ := 0
  totalBytes : ℕ := 0
  newlines : ℕ := 0
  endsWithNewline : Bool := true
  currentLineBytes : ℕ := 0
  spillPath : Option JsString := none
  disposed : Bool := false
  publisher : AdaptivePublisher ShellOutputView := {}

/-- `/[\x00-\x08\x0b-\x1f\ufff9-\ufffb]/`. -/
def isInvalidShellOutput (u : UInt16) : Bool :=
  u.toNat ≤ 0x08 || (0x0B ≤ u.toNat && u.toNat ≤ 0x1F) || (0xFFF9 ≤ u.toNat && u.toNat ≤ 0xFFFB)

def sanitizeShellOutput (text : JsString) : JsString := text.filter fun u => !isInvalidShellOutput u

def trimToLastUtf8Bytes (text : JsString) (maxBytes : ℕ) : JsString :=
  let bytes := textEncode text
  if bytes.length ≤ maxBytes then text else TextDecoder.decode (lastBytes maxBytes bytes)

def trimToFirstUtf8Bytes (text : JsString) (maxBytes : ℕ) : JsString :=
  let bytes := textEncode text
  if bytes.length ≤ maxBytes then text else TextDecoder.decode (firstBytes maxBytes bytes)

/-- The lines of an output that its client keeps. -/
def Retain.truncate (retain : Retain) (content : JsString) (options : TruncationOptions) : TruncationResult :=
  match retain with
  | .head => truncateHead content options
  | .tail => Harness.truncateTail content options

def Retain.trim (retain : Retain) (text : JsString) (maxBytes : ℕ) : JsString :=
  match retain with
  | .head => trimToFirstUtf8Bytes text maxBytes
  | .tail => trimToLastUtf8Bytes text maxBytes

namespace OutputCapture

def create (options : TruncationOptions) (retain : Retain) : Except CaptureError OutputCapture :=
  if options.maxBytes = 0 then .error .maxBytes
  else if options.maxLines = 0 then .error .maxLines
  else .ok { options, retain }

def totalLines (c : OutputCapture) : ℕ := c.newlines + if c.endsWithNewline || c.totalBytes = 0 then 0 else 1

def truncated (c : OutputCapture) : Bool :=
  c.totalBytes > c.options.maxBytes || c.totalLines > c.options.maxLines

def snapshot (c : OutputCapture) : ShellOutputView :=
  let retained := c.retain.truncate c.buffer c.options
  { text := sanitizeShellOutput retained.content
    truncation :=
      { truncated := c.truncated
        truncatedBy :=
          if c.truncated then some (if c.totalLines > c.options.maxLines then .lines else .bytes) else none
        totalLines := c.totalLines
        totalBytes := c.totalBytes
        outputLines := retained.outputLines
        outputBytes := retained.outputBytes
        lastLinePartial := retained.lastLinePartial
        firstLineExceedsLimit := retained.firstLineExceedsLimit
        maxLines := retained.maxLines
        maxBytes := retained.maxBytes }
    spillPath := c.spillPath
    lastLineBytes := if retained.lastLinePartial then some c.currentLineBytes else none }

/-- The buffer is trimmed when this text is appended. -/
def overflows (c : OutputCapture) (text : JsString) : Bool :=
  c.bufferBytes + byteLength text > c.options.maxBytes * 2 * 2

/-- `#appendText` up to the publisher. -/
def receive (c : OutputCapture) (text : JsString) : OutputCapture :=
  let buffer :=
    if c.overflows text then c.retain.trim (c.buffer ++ text) (c.options.maxBytes * 2) else c.buffer ++ text
  { c with
    totalBytes := c.totalBytes + byteLength text
    newlines := c.newlines + text.count 10
    endsWithNewline := text.getLast? == some 10
    currentLineBytes :=
      if 10 ∈ text then byteLength (text.rtakeWhile (· != 10)) else c.currentLineBytes + byteLength text
    buffer
    bufferBytes := if c.overflows text then byteLength buffer else c.bufferBytes + byteLength text }

/-- What the publisher is made with. The size of an update in JSON is a parameter. -/
def publisherOptions (measure : ShellOutputUpdate → ℕ) : AdaptivePublisherOptions ShellOutputView ShellOutputUpdate where
  update previous current := some (updateFrom previous current)
  measure := measure

/-- `this.#publisher.markDirty()`. The update is the one that the consumer is called with. -/
def markDirty (measure : ShellOutputUpdate → ℕ) (c : OutputCapture) (now later : ℚ) :
    OutputCapture × Option ShellOutputUpdate :=
  let (publisher, update) := c.publisher.markDirty (publisherOptions measure) now later c.snapshot
  ({ c with publisher }, update)

/-- `this.#publisher.flush(force)`. -/
def flushPublisher (measure : ShellOutputUpdate → ℕ) (c : OutputCapture) (force : Bool) (now : ℚ) :
    OutputCapture × Option ShellOutputUpdate :=
  let (publisher, update) := c.publisher.flush (publisherOptions measure) force now c.snapshot
  ({ c with publisher }, update)

def appendText (measure : ShellOutputUpdate → ℕ) (c : OutputCapture) (text : JsString) (now later : ℚ) :
    OutputCapture × Option ShellOutputUpdate :=
  if text = [] then (c, none) else (c.receive text).markDirty measure now later

end OutputCapture

/-! ## Runs -/

/-- What is pushed, and the end of the bytes. -/
inductive Input where
  | bytes (chunk : List UInt8)
  | text (chunk : JsString)
  | finish

/-- The text of the inputs, in the order in which they came. -/
def decodeInputs : TextDecoder → List Input → JsString
  | _, [] => []
  | d, .bytes chunk :: inputs => (d.decodeStream chunk).1 ++ decodeInputs (d.decodeStream chunk).2 inputs
  | d, .text chunk :: inputs => d.decodeEnd.1 ++ (chunk ++ decodeInputs d.decodeEnd.2 inputs)
  | d, .finish :: inputs => d.decodeEnd.1 ++ decodeInputs d.decodeEnd.2 inputs

/-- What a call goes on with after a callback. -/
inductive Continuation where
  | done
  | append (chunk : JsString)
  | flush

/-- A capture with its consumer. -/
structure CaptureRun where
  capture : OutputCapture
  stack : List Continuation := []
  /-- The updates that the consumer was called with, each with the view it was made from. -/
  updates : List (ShellOutputView × ShellOutputUpdate) := []
  /-- What was pushed so far. -/
  received : List Input := []
  /-- The texts that were appended so far. -/
  appended : List JsString := []

/-- What a consumer holds that folds the updates. -/
def heldView (updates : List (ShellOutputView × ShellOutputUpdate)) : Option ShellOutputView :=
  updates.foldl (fun held update => some (applyShellOutputUpdate held update.2)) none

/-- A call or what ends a callback, with the times the clock shows whenever it is read. -/
inductive CaptureEvent where
  | push (input : Input) (clock : ℕ → ℚ)
  | setSpillPath (path : JsString) (clock : ℕ → ℚ)
  | flush (clock : ℕ → ℚ)
  | timer (clock : ℕ → ℚ)
  | dispose
  | returns (clock : ℕ → ℚ)
  | throws

namespace CaptureRun

variable (measure : ShellOutputUpdate → ℕ)

/-- The end of a step of a call: an update is delivered, or the call goes on. -/
def deliver (r : CaptureRun) (out : OutputCapture × Option ShellOutputUpdate) (k : Continuation)
    (next : CaptureRun → CaptureRun) : CaptureRun :=
  match out.2 with
  | none => next { r with capture := out.1 }
  | some update =>
    { r with capture := out.1, stack := k :: r.stack, updates := r.updates ++ [(out.1.snapshot, update)] }

/-- `this.#appendText(text)`. -/
def append (r : CaptureRun) (text : JsString) (now later : ℚ) (k : Continuation) (next : CaptureRun → CaptureRun) :
    CaptureRun :=
  { r with appended := r.appended ++ [text] }.deliver (r.capture.appendText measure text now later) k next

/-- `this.flush()` of the capture. -/
def flush (r : CaptureRun) (now : ℚ) : CaptureRun :=
  if r.capture.disposed then r else r.deliver (r.capture.flushPublisher measure true now) .done id

/-- What a call does when a callback has returned to it. -/
def resume (r : CaptureRun) (clock : ℕ → ℚ) : Continuation → CaptureRun
  | .done => r
  | .append chunk => r.append measure chunk (clock 2) (clock 3) .done id
  | .flush => r.flush measure (clock 2)

def push (r : CaptureRun) (input : Input) (clock : ℕ → ℚ) : CaptureRun :=
  if r.capture.disposed then r
  else
    let r := { r with received := r.received ++ [input] }
    match input with
    | .bytes chunk =>
      let decoded := r.capture.decoder.decodeStream chunk
      { r with capture := { r.capture with decoder := decoded.2 } }.append measure decoded.1 (clock 0) (clock 1) .done id
    | .text chunk =>
      let decoded := r.capture.decoder.decodeEnd
      { r with capture := { r.capture with decoder := decoded.2 } }.append measure decoded.1 (clock 0) (clock 1)
        (.append chunk) fun r => r.resume measure clock (.append chunk)
    | .finish =>
      let decoded := r.capture.decoder.decodeEnd
      { r with capture := { r.capture with decoder := decoded.2 } }.append measure decoded.1 (clock 0) (clock 1) .done id

def setSpillPath (r : CaptureRun) (path : JsString) (clock : ℕ → ℚ) : CaptureRun :=
  if r.capture.disposed || r.capture.spillPath == some path then r
  else
    r.deliver ({ r.capture with spillPath := some path }.markDirty measure (clock 0) (clock 1)) .flush
      fun r => r.resume measure clock .flush

/-- One event; `none` where it cannot happen. A timer fires when no call is in progress. -/
def step (r : CaptureRun) : CaptureEvent → Option CaptureRun
  | .push input clock => some (r.push measure input clock)
  | .setSpillPath path clock => some (r.setSpillPath measure path clock)
  | .flush clock => some (r.flush measure (clock 0))
  | .timer clock =>
    if r.capture.publisher.timer && r.stack.isEmpty then
      let c := { r.capture with publisher := { r.capture.publisher with timer := false } }
      some (r.deliver (c.flushPublisher measure false (clock 0)) .done id)
    else none
  | .dispose => some { r with capture := { r.capture with publisher := r.capture.publisher.dispose, disposed := true } }
  | .returns clock =>
    match r.stack with
    | [] => none
    | k :: stack => some ({ r with stack }.resume measure clock k)
  | .throws =>
    match r.stack with
    | [] => none
    | _ :: stack => some { r with stack }

end CaptureRun

end Phi.Output
