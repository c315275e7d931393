import Phi.Data.JsonValue
import Phi.Data.Regions

/-!
# Terminal input

`StdinBuffer` turns what arrives from the terminal into key sequences and pastes. A piece of input may end anywhere, so
an escape sequence that is not complete waits in the buffer for the next piece, or for a timeout that gives it out as it
is. Between the bracketed paste markers everything is pasted text.

A terminal may report a key twice, as a Kitty sequence and as the character itself: the character is suppressed.

`process` returns what it emits. `Output.suppressed` and `Output.dropped` are not events: they record input that is not
given out. Input that comes as a `Buffer` is decoded to a string first, which is not modelled.
-/

namespace Phi.Tui

/-- The escape character. -/
def esc : UInt16 := 27

/-- The marker that starts a bracketed paste. -/
def pasteStart : JsString := [esc, 91, 50, 48, 48, 126]

/-- The marker that ends a bracketed paste. -/
def pasteEnd : JsString := [esc, 91, 50, 48, 49, 126]

inductive SequenceStatus where
  | complete
  | incomplete
  | notEscape
  deriving DecidableEq

/-- A number: one digit or more. -/
def isNumber (s : JsString) : Bool := !s.isEmpty && s.all isDigit

/-- `payload` is `<B;X;Y` with `M` or `m` behind it. -/
def mouseMatch (payload : JsString) : Bool :=
  match payload.reverse with
  | last :: _ =>
    (last = 77 || last = 109) &&
      (let parts := (payload.tail.dropLast).splitOn 59
       parts.length = 3 && parts.all isNumber)
  | [] => false

/-- A CSI sequence ends with a byte from `@` to `~`; that of a mouse event has a form of its own. -/
def isCompleteCsiSequence (payload : JsString) : SequenceStatus :=
  match payload.getLast? with
  | none => .incomplete
  | some last =>
    if 0x40 ≤ last ∧ last ≤ 0x7e then
      if payload.head? = some 60 then if mouseMatch payload then .complete else .incomplete
      else .complete
    else .incomplete

/-- The terminator of a control string. -/
def stringTerminator : JsString := [esc, 92]

def isCompleteSequence : JsString → SequenceStatus
  | [] => .notEscape
  | u :: afterEsc =>
    if u ≠ esc then .notEscape
    else
      match afterEsc with
      | [] => .incomplete
      | 91 :: 77 :: mouse => if 3 ≤ mouse.length then .complete else .incomplete
      | 91 :: payload => isCompleteCsiSequence payload
      | 93 :: _ =>
        if stringTerminator <:+ u :: afterEsc ∨ [7] <:+ u :: afterEsc then .complete else .incomplete
      | 80 :: _ => if stringTerminator <:+ u :: afterEsc then .complete else .incomplete
      | 95 :: _ => if stringTerminator <:+ u :: afterEsc then .complete else .incomplete
      | 79 :: rest => if rest = [] then .incomplete else .complete
      | _ => .complete

/-- The rest of a Kitty sequence behind the code point: `u`, with alternate keys before it. -/
def isKittyRest (rest : JsString) : Bool :=
  rest == [117] ||
    (rest.head? = some 58 &&
      (let behind := rest.tail.dropWhile isDigit
       behind == [117] ||
        (behind.head? = some 58 && behind.getLast? = some 117 && isNumber behind.tail.dropLast)))

def parseUnmodifiedKittyPrintableCodepoint (sequence : JsString) : Option ℕ :=
  match sequence with
  | 27 :: 91 :: body =>
    let digits := body.takeWhile isDigit
    if digits ≠ [] ∧ isKittyRest (body.dropWhile isDigit) then
      let codepoint := digitsValue digits
      if 32 ≤ codepoint then some codepoint else none
    else none
  | _ => none

/-- The characters that open an escape sequence behind `ESC`. -/
def opensSequence (u : UInt16) : Bool := u = 91 || u = 93 || u = 79 || u = 80 || u = 95

/-- `extractCompleteSequences`: the sequences, and the remainder. `candidate` is the part of the next sequence that was
looked at, and the text is what is behind it. -/
def extractCompleteSequences (candidate : JsString) : JsString → List JsString × JsString
  | [] => ([], candidate)
  | u :: text =>
    let candidate := candidate ++ [u]
    match isCompleteSequence candidate with
    | .incomplete => extractCompleteSequences candidate text
    | .complete =>
      if candidate = [esc, esc] ∧ text.head?.any opensSequence then
        -- The second ESC begins the next sequence.
        let (sequences, remainder) := extractCompleteSequences [esc] text
        ([esc] :: sequences, remainder)
      else
        let (sequences, remainder) := extractCompleteSequences [] text
        (candidate :: sequences, remainder)
    | .notEscape =>
      let (sequences, remainder) := extractCompleteSequences [] text
      (candidate :: sequences, remainder)

inductive Output where
  | data (sequence : JsString)
  | paste (content : JsString)
  /-- The duplicate of a Kitty key. -/
  | suppressed (sequence : JsString)
  /-- An incomplete sequence in front of a paste. -/
  | dropped (text : JsString)
  deriving DecidableEq

structure StdinBuffer where
  buffer : JsString := []
  pasteMode : Bool := false
  pasteBuffer : JsString := []
  pendingKittyPrintableCodepoint : Option ℕ := none
  deriving DecidableEq

/-- `emitDataSequence`, with the code point that is pending. -/
def emitDataSequence (pending : Option ℕ) (sequence : JsString) : Output × Option ℕ :=
  match sequence with
  | [u] =>
    if some u.toNat = pending then (.suppressed [u], none)
    else (.data [u], parseUnmodifiedKittyPrintableCodepoint [u])
  | sequence => (.data sequence, parseUnmodifiedKittyPrintableCodepoint sequence)

def emitDataSequences (pending : Option ℕ) : List JsString → List Output × Option ℕ
  | [] => ([], pending)
  | sequence :: sequences =>
    let (output, pending) := emitDataSequence pending sequence
    let (outputs, pending) := emitDataSequences pending sequences
    (output :: outputs, pending)

/-- The pasted text and what follows the end marker. -/
def splitPaste (pasteBuffer : JsString) : Option (JsString × JsString) :=
  (indexOf pasteEnd pasteBuffer).map fun endIndex =>
    (pasteBuffer.take endIndex, pasteBuffer.drop (endIndex + pasteEnd.length))

theorem splitPaste_length {pasteBuffer content remaining : JsString}
    (h : splitPaste pasteBuffer = some (content, remaining)) : remaining.length < pasteBuffer.length := by
  unfold splitPaste at h
  rw [Option.map_eq_some_iff] at h
  obtain ⟨i, hi, heq⟩ := h
  cases heq
  have hocc := (indexOf_eq_some hi).1
  have hle := hocc.2.length_le
  rw [List.length_drop] at hle ⊢
  have hlen : pasteEnd.length = 6 := rfl
  omega

/-- What is pasted from here on, if a paste is going on behind the new input: what was emitted before it, the text, and
the code point that is pending. -/
def openPaste (s : StdinBuffer) (data : JsString) : Option (List Output × JsString × Option ℕ) :=
  let buffer := s.buffer ++ data
  if s.pasteMode then some ([], s.pasteBuffer ++ buffer, s.pendingKittyPrintableCodepoint)
  else
    (indexOf pasteStart buffer).map fun startIndex =>
      let (sequences, remainder) := extractCompleteSequences [] (buffer.take startIndex)
      let (outputs, _) := emitDataSequences s.pendingKittyPrintableCodepoint sequences
      (outputs ++ [.dropped remainder], buffer.drop (startIndex + pasteStart.length), none)

theorem openPaste_length {s : StdinBuffer} {data : JsString} {outputs : List Output} {text : JsString}
    {pending : Option ℕ} (h : openPaste s data = some (outputs, text, pending)) :
    text.length ≤ s.pasteBuffer.length + s.buffer.length + data.length := by
  unfold openPaste at h
  simp only at h
  split_ifs at h
  · cases h
    simp only [List.length_append]
    omega
  · rw [Option.map_eq_some_iff] at h
    obtain ⟨i, -, heq⟩ := h
    cases heq
    rw [List.length_drop, List.length_append]
    omega

namespace StdinBuffer

def process (s : StdinBuffer) (data : JsString) : List Output × StdinBuffer :=
  if data.length = 0 ∧ s.buffer.length = 0 then
    let (output, pending) := emitDataSequence s.pendingKittyPrintableCodepoint []
    ([output], { s with pendingKittyPrintableCodepoint := pending })
  else
    match hopen : openPaste s data with
    | some (outputs, text, pending) =>
      match hsplit : splitPaste text with
      | some (content, remaining) =>
        if remaining.length > 0 then
          let (rest, s) := process {} remaining
          (outputs ++ .paste content :: rest, s)
        else (outputs ++ [.paste content], {})
      | none => (outputs, ⟨[], true, text, pending⟩)
    | none =>
      let (sequences, remainder) := extractCompleteSequences [] (s.buffer ++ data)
      let (outputs, pending) := emitDataSequences s.pendingKittyPrintableCodepoint sequences
      (outputs, ⟨remainder, false, [], pending⟩)
termination_by s.pasteBuffer.length + s.buffer.length + data.length
decreasing_by
  have hopened := openPaste_length hopen
  have hsplitted := splitPaste_length hsplit
  simp only [List.length_nil]
  omega

/-- The timeout: what is buffered is given out as it is. It is set only while something is buffered. -/
def timeout (s : StdinBuffer) : List Output × StdinBuffer :=
  if s.buffer.length = 0 then ([], s)
  else
    let (output, pending) := emitDataSequence none s.buffer
    ([output], { s with buffer := [], pendingKittyPrintableCodepoint := pending })

end StdinBuffer

end Phi.Tui
