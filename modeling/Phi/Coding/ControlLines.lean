import Phi.Data.ByteLength
import Phi.Data.Except
import Phi.Data.JsonValue
import Phi.Data.Lines
import Phi.Data.TextDecoder

/-!
# Control lines between the coordinator and its peers

`encodeControlLine` writes a message as one line and refuses lines over `MAX_CONTROL_LINE_BYTES`. The two readers,
`attachJsonLineReader` and `attachRoutedLineReader`, buffer what arrives and hand on line after line. They test the
limit on all that is buffered, so a chunk with the end of a long line and later lines can destroy the socket although
every line is within the limit: `readChunks_iff` says when the messages arrive.

`F` is how numbers are written, `syntaxError` what `JSON.parse` says of a text, and `onMessage` what the callback throws
at a message after those before it.
-/

namespace Phi.Coding

/-! ## Writing -/

def maxControlLineBytes : ℕ := 128 * 1024 * 1024

def encodeControlLine (F : NumberFormat) (message : Json) : Except JsString JsString :=
  let line := stringify F message ++ [10]
  if byteLength line > maxControlLineBytes then .error (JsString.ofAscii "Internal control message is too large")
  else .ok line

/-! ## Reading -/

/-- `attachJsonLineReader` or `attachRoutedLineReader`. -/
inductive ReaderKind where
  | json
  | routed

/-- What is buffered, what `onMessage` was called with, and the error the socket was destroyed with. -/
structure LineReader where
  buffered : JsString := []
  delivered : List Json := []
  destroyed : Option JsString := none

def tooLarge : JsString := JsString.ofAscii "Coordinator message is too large"

def invalidJson : JsString := JsString.ofAscii "Coordinator sent invalid JSON"

def missingType : JsString := JsString.ofAscii "Coordinator message must have a type"

/-- `typeof message?.type === "string"`. -/
def hasStringType : Json → Bool
  | .object members =>
    match Table.get members (JsString.ofAscii "type") with
    | some (.string _) => true
    | _ => false
  | _ => false

section

variable (F : NumberFormat) (syntaxError : JsString → JsString) (onMessage : List Json → Json → Option JsString)

/-- The body of the loop for one line: the message `onMessage` is called with, and the error that is caught. -/
def handleLine : ReaderKind → List Json → JsString → Option Json × Option JsString
  | .json, delivered, line =>
    match parse F line with
    | none => (none, some invalidJson)
    | some message => (some message, (onMessage delivered message).map fun _ => invalidJson)
  | .routed, delivered, line =>
    match parse F line with
    | none => (none, some (syntaxError line))
    | some message =>
      if ¬hasStringType message then (none, some missingType) else (some message, onMessage delivered message)

/-- `while (true)`. -/
def readLines (kind : ReaderKind) (reader : LineReader) : LineReader :=
  match _hrest : reader.buffered.dropWhile (· ≠ 10) with
  | [] => reader
  | _ :: rest =>
    let handled := handleLine F syntaxError onMessage kind reader.delivered (reader.buffered.takeWhile (· ≠ 10))
    let reader' : LineReader := ⟨rest, reader.delivered ++ handled.1.toList, handled.2⟩
    if handled.2.isSome then reader' else readLines kind reader'
termination_by reader.buffered.length
decreasing_by
  have hle := List.length_dropWhile_le (fun u => decide (u ≠ 10)) reader.buffered
  rw [_hrest, List.length_cons] at hle
  exact hle

/-- The `data` listener. A destroyed socket emits no more data. -/
def onData (kind : ReaderKind) (reader : LineReader) (chunk : JsString) : LineReader :=
  if reader.destroyed.isSome then reader
  else
    let reader := { reader with buffered := reader.buffered ++ chunk }
    if byteLength reader.buffered > maxControlLineBytes then { reader with destroyed := some tooLarge }
    else readLines F syntaxError onMessage kind reader

/-- The texts that `socket.setEncoding("utf8")` makes of the chunks: the bytes of an unfinished character are kept. -/
def decodeTexts : Utf8.State → List (List UInt8) → List JsString
  | _, [] => []
  | q, bytes :: chunks => (Utf8.feed q bytes).1.flatMap Text.utf16Of :: decodeTexts (Utf8.feed q bytes).2 chunks

/-- The reader after the chunks. -/
def readChunks (kind : ReaderKind) (chunks : List (List UInt8)) : LineReader :=
  (decodeTexts .start chunks).foldl (onData F syntaxError onMessage kind) {}

end

/-! ## One chunk -/

variable {F : NumberFormat} {syntaxError : JsString → JsString} {onMessage : List Json → Json → Option JsString}
  {kind : ReaderKind}

theorem takeWhile_line {line : JsString} (h : (10 : UInt16) ∉ line) (rest : JsString) :
    (line ++ 10 :: rest).takeWhile (· ≠ 10) = line ∧ (line ++ 10 :: rest).dropWhile (· ≠ 10) = 10 :: rest := by
  have hne : ∀ u ∈ line, (decide (u ≠ 10)) = true := fun u hu => decide_eq_true fun heq => h (heq ▸ hu)
  rw [List.takeWhile_append_of_pos hne, List.dropWhile_append_of_pos hne]
  exact ⟨by simp, by simp⟩

theorem readLines_of_not_mem {reader : LineReader} (h : (10 : UInt16) ∉ reader.buffered) :
    readLines F syntaxError onMessage kind reader = reader := by
  have hnone : reader.buffered.dropWhile (· ≠ 10) = [] :=
    List.dropWhile_eq_nil_iff.mpr fun u hu => decide_eq_true fun heq => h (heq ▸ hu)
  rw [readLines]
  split
  · rfl
  · next hrest =>
    rw [hnone] at hrest
    cases hrest

theorem readLines_line {line rest : JsString} (h : (10 : UInt16) ∉ line) (delivered : List Json)
    (destroyed : Option JsString) :
    readLines F syntaxError onMessage kind ⟨line ++ 10 :: rest, delivered, destroyed⟩
      = (let handled := handleLine F syntaxError onMessage kind delivered line
        let reader' : LineReader := ⟨rest, delivered ++ handled.1.toList, handled.2⟩
        if handled.2.isSome then reader' else readLines F syntaxError onMessage kind reader') := by
  have hline := takeWhile_line h rest
  rw [readLines]
  split
  · next hrest =>
    rw [hline.2] at hrest
    cases hrest
  · next hrest =>
    rw [hline.2] at hrest
    cases hrest
    simp only [hline.1]

/-- The reader's own check, and the callback, let each message pass. -/
def Accepted (onMessage : List Json → Json → Option JsString) (kind : ReaderKind) : List Json → List Json → Prop
  | _, [] => True
  | delivered, message :: messages =>
    (kind = .routed → hasStringType message = true) ∧ onMessage delivered message = none ∧
      Accepted onMessage kind (delivered ++ [message]) messages

variable (F syntaxError onMessage kind) in
/-- The line of a message is handed on and the socket kept when the message passes, and else the socket is destroyed. -/
theorem handleLine_stringify {message : Json} (hmessage : message.Enumerated) (delivered : List Json) :
    ((kind = .routed → hasStringType message = true) ∧ onMessage delivered message = none →
      handleLine F syntaxError onMessage kind delivered (stringify F message) = (some message, none)) ∧
    (¬((kind = .routed → hasStringType message = true) ∧ onMessage delivered message = none) →
      (handleLine F syntaxError onMessage kind delivered (stringify F message)).2.isSome = true) := by
  have hparse := parse_stringify F hmessage
  cases kind with
  | json =>
    simp only [handleLine, hparse]
    cases honMessage : onMessage delivered message <;> simp
  | routed =>
    simp only [handleLine, hparse]
    cases htype : hasStringType message <;> cases honMessage : onMessage delivered message <;> simp

/-- The lines of the messages, with their newlines. -/
def controlLines (F : NumberFormat) (messages : List Json) : JsString := unlines 10 (messages.map (stringify F))

variable (F syntaxError onMessage kind) in
theorem readLines_messages {messages : List Json} (hmessages : ∀ m ∈ messages, m.Enumerated) {tail : JsString}
    (htail : (10 : UInt16) ∉ tail) (delivered : List Json) :
    (Accepted onMessage kind delivered messages →
      readLines F syntaxError onMessage kind ⟨controlLines F messages ++ tail, delivered, none⟩
        = ⟨tail, delivered ++ messages, none⟩) ∧
    (¬Accepted onMessage kind delivered messages →
      (readLines F syntaxError onMessage kind ⟨controlLines F messages ++ tail, delivered, none⟩).destroyed.isSome
        = true) := by
  induction messages generalizing delivered with
  | nil =>
    refine ⟨fun _ => ?_, fun h => (h trivial).elim⟩
    rw [List.append_nil]
    exact readLines_of_not_mem htail
  | cons message messages ih =>
    rw [List.forall_mem_cons] at hmessages
    have hline : (10 : UInt16) ∉ stringify F message := (isLine_stringify F message).newline
    have hsplit : controlLines F (message :: messages) ++ tail
        = stringify F message ++ 10 :: (controlLines F messages ++ tail) := by
      simp [controlLines]
    rcases handleLine_stringify F syntaxError onMessage kind hmessages.1 delivered with ⟨hpass, hfail⟩
    rw [hsplit, readLines_line hline, Accepted, ← and_assoc]
    by_cases hone : (kind = .routed → hasStringType message = true) ∧ onMessage delivered message = none
    · rw [hpass hone, List.append_cons delivered message messages, and_iff_right hone]
      exact ih hmessages.2 (delivered ++ [message])
    · refine ⟨fun h => (hone h.1).elim, fun _ => ?_⟩
      simp only [hfail hone, if_true]

/-! ## All chunks -/

/-- What comes after the last newline. -/
def unfinished (text : JsString) : JsString := (text.reverse.takeWhile (· ≠ 10)).reverse

/-- No chunk is over the limit together with the unfinished line it continues. -/
def Fits : JsString → List JsString → Prop
  | _, [] => True
  | before, chunk :: chunks =>
    byteLength (before ++ chunk) ≤ maxControlLineBytes ∧ Fits (unfinished (before ++ chunk)) chunks

theorem unfinished_unlines {tail : JsString} (htail : (10 : UInt16) ∉ tail) (ls : List JsString) :
    unfinished (unlines 10 ls ++ tail) = tail := by
  have hne : ∀ u ∈ tail.reverse, (decide (u ≠ 10)) = true :=
    fun u hu => decide_eq_true fun heq => htail (heq ▸ List.mem_reverse.mp hu)
  have hlast : ((unlines 10 ls).reverse.takeWhile fun u => decide (u ≠ 10)) = [] := by
    rcases List.eq_nil_or_concat' ls with rfl | ⟨front, last, rfl⟩
    · rfl
    · rw [unlines_append]
      simp [unlines]
  rw [unfinished, List.reverse_append, List.takeWhile_append_of_pos hne, hlast, List.append_nil, List.reverse_reverse]

theorem accepted_append (delivered messages messages' : List Json) :
    Accepted onMessage kind delivered (messages ++ messages')
      ↔ Accepted onMessage kind delivered messages ∧ Accepted onMessage kind (delivered ++ messages) messages' := by
  induction messages generalizing delivered with
  | nil => simp [Accepted]
  | cons message messages ih =>
    rw [List.cons_append, Accepted, Accepted, ih, List.append_cons delivered message messages, and_assoc, and_assoc]

theorem foldl_onData_of_destroyed {reader : LineReader} (h : reader.destroyed.isSome = true) (chunks : List JsString) :
    chunks.foldl (onData F syntaxError onMessage kind) reader = reader := by
  induction chunks with
  | nil => rfl
  | cons chunk chunks ih => rw [List.foldl_cons, onData, if_pos h, ih]

/-- What has arrived of the lines is some of them, and a part of the next one. -/
theorem exists_arrived {messages : List Json} {arrived rest : JsString} (h : arrived ++ rest = controlLines F messages) :
    ∃ done todo tail, messages = done ++ todo ∧ arrived = controlLines F done ++ tail ∧ (10 : UInt16) ∉ tail ∧
      tail ++ rest = controlLines F todo := by
  have hlines : ∀ l ∈ messages.map (stringify F), (10 : UInt16) ∉ l := by
    intro l hl
    rcases List.mem_map.mp hl with ⟨m, -, rfl⟩
    exact (isLine_stringify F m).newline
  rcases take_unlines hlines arrived.length with ⟨k, tail, htake, htail, -⟩
  rw [← controlLines, ← h, List.take_left, ← List.map_take, ← controlLines] at htake
  refine ⟨messages.take k, messages.drop k, tail, (List.take_append_drop k messages).symm, htake, htail, ?_⟩
  have hsplit : controlLines F messages = controlLines F (messages.take k) ++ controlLines F (messages.drop k) := by
    rw [controlLines, controlLines, controlLines, ← unlines_append, ← List.map_append, List.take_append_drop]
  rw [hsplit, htake, List.append_assoc] at h
  exact List.append_cancel_left h

/-- Exactly these messages were delivered, and the socket was not destroyed. -/
def LineReader.Delivers (reader : LineReader) (messages : List Json) : Prop :=
  reader.delivered = messages ∧ reader.destroyed = none

/-- From what is buffered on, the remaining messages arrive exactly when the chunks fit and the messages pass. -/
theorem foldl_onData_iff {chunks : List JsString} {before : JsString} {messages : List Json}
    (hmessages : ∀ m ∈ messages, m.Enumerated) (hbefore : (10 : UInt16) ∉ before)
    (htext : before ++ chunks.flatten = controlLines F messages) (delivered : List Json) :
    (chunks.foldl (onData F syntaxError onMessage kind) ⟨before, delivered, none⟩).Delivers (delivered ++ messages)
      ↔ Fits before chunks ∧ Accepted onMessage kind delivered messages := by
  induction chunks generalizing before messages delivered with
  | nil =>
    cases messages with
    | nil => simp [Fits, Accepted, LineReader.Delivers]
    | cons message messages =>
      refine (hbefore ?_).elim
      rw [List.flatten_nil, List.append_nil] at htext
      rw [htext]
      simp [controlLines]
  | cons chunk chunks ih =>
    rw [List.flatten_cons, ← List.append_assoc] at htext
    rw [List.foldl_cons, onData, Fits]
    simp only [Option.isSome_none, Bool.false_eq_true, if_false]
    by_cases hlimit : byteLength (before ++ chunk) ≤ maxControlLineBytes
    · rcases exists_arrived htext with ⟨done, todo, tail, rfl, harrived, htail, hrest⟩
      rw [if_neg (by omega), accepted_append]
      have hdone : ∀ m ∈ done, m.Enumerated := fun m hm => hmessages m (List.mem_append_left _ hm)
      have htodo : ∀ m ∈ todo, m.Enumerated := fun m hm => hmessages m (List.mem_append_right _ hm)
      rcases readLines_messages F syntaxError onMessage kind hdone htail delivered with ⟨hpass, hfail⟩
      have hunfinished : unfinished (before ++ chunk) = tail := by
        rw [harrived]
        exact unfinished_unlines htail _
      rw [hunfinished, harrived]
      by_cases haccepted : Accepted onMessage kind delivered done
      · rw [harrived] at hlimit
        rw [hpass haccepted, ← List.append_assoc, and_iff_right haccepted, and_iff_right hlimit]
        exact ih htodo htail hrest (delivered ++ done)
      · have hdestroyed := hfail haccepted
        rw [foldl_onData_of_destroyed hdestroyed]
        refine ⟨fun h => ?_, fun h => (haccepted h.2.1).elim⟩
        rw [h.2] at hdestroyed
        cases hdestroyed
    · rw [if_pos (by omega), foldl_onData_of_destroyed rfl]
      simp [hlimit, LineReader.Delivers]

/-! ## Long lines -/

/-- The first lines of the text were delivered, each within the limit, and while the socket lives there are no others. -/
def DeliveredLines (F : NumberFormat) (text : JsString) (reader : LineReader) : Prop :=
  ∃ lines rest, text = unlines 10 lines ++ rest ∧ lines.map (parse F) = reader.delivered.map some ∧
    (∀ line ∈ lines, byteLength (line ++ [10]) ≤ maxControlLineBytes) ∧
    (reader.destroyed = none → (10 : UInt16) ∉ rest ∧ reader.buffered = rest)

variable (F syntaxError onMessage kind) in
theorem handleLine_cases (delivered : List Json) (line : JsString) :
    (∃ message, parse F line = some message ∧
      (handleLine F syntaxError onMessage kind delivered line).1 = some message) ∨
    (handleLine F syntaxError onMessage kind delivered line).1 = none ∧
      (handleLine F syntaxError onMessage kind delivered line).2.isSome = true := by
  cases kind with
  | json =>
    cases hparse : parse F line with
    | none => simp [handleLine, hparse]
    | some message => simp [handleLine, hparse]
  | routed =>
    cases hparse : parse F line with
    | none => simp [handleLine, hparse]
    | some message => cases htype : hasStringType message <;> simp [handleLine, hparse, htype]

variable (F syntaxError onMessage kind) in
/-- The loop hands on the first of the lines, and all of them while the socket lives. -/
theorem readLines_lines {ls : List JsString} (hls : ∀ l ∈ ls, (10 : UInt16) ∉ l) {tail : JsString}
    (htail : (10 : UInt16) ∉ tail) (delivered : List Json) :
    let reader := readLines F syntaxError onMessage kind ⟨unlines 10 ls ++ tail, delivered, none⟩
    ∃ done todo messages, ls = done ++ todo ∧ reader.delivered = delivered ++ messages ∧
      done.map (parse F) = messages.map some ∧ (reader.destroyed = none → todo = [] ∧ reader.buffered = tail) := by
  intro reader
  induction ls generalizing delivered with
  | nil =>
    have hreader : reader = ⟨tail, delivered, none⟩ := readLines_of_not_mem htail
    rw [hreader]
    exact ⟨[], [], [], rfl, by simp, rfl, fun _ => ⟨rfl, rfl⟩⟩
  | cons line ls ih =>
    rw [List.forall_mem_cons] at hls
    have hreader : reader = readLines F syntaxError onMessage kind
        ⟨line ++ 10 :: (unlines 10 ls ++ tail), delivered, none⟩ := by
      show readLines F syntaxError onMessage kind ⟨unlines 10 (line :: ls) ++ tail, delivered, none⟩ = _
      rw [unlines_cons, List.append_assoc, List.cons_append]
    rw [hreader, readLines_line hls.1]
    rcases handleLine_cases F syntaxError onMessage kind delivered line with ⟨message, hparse, hmessage⟩ | ⟨hnone, herror⟩
    · cases herror : (handleLine F syntaxError onMessage kind delivered line).2 with
      | some e =>
        simp only [herror, Option.isSome_some, if_true, hmessage, Option.toList_some]
        exact ⟨[line], ls, [message], rfl, rfl, by simp [hparse], by simp⟩
      | none =>
        simp only [herror, Option.isSome_none, Bool.false_eq_true, if_false, hmessage, Option.toList_some]
        rcases ih hls.2 (delivered ++ [message]) with ⟨done, todo, messages, rfl, hdelivered, hmap, hrest⟩
        refine ⟨line :: done, todo, message :: messages, rfl, ?_, by simp [hparse, hmap], hrest⟩
        rw [hdelivered, List.append_assoc]
        rfl
    · simp only [herror, if_true, hnone, Option.toList_none, List.append_nil]
      refine ⟨[], line :: ls, [], rfl, by simp, rfl, fun h => ?_⟩
      rw [h] at herror
      cases herror

theorem DeliveredLines.onData {text chunk : JsString} {reader : LineReader} (h : DeliveredLines F text reader) :
    DeliveredLines F (text ++ chunk) (onData F syntaxError onMessage kind reader chunk) := by
  rcases h with ⟨lines, rest, rfl, hmap, hlimit, hrest⟩
  rw [Coding.onData]
  by_cases hdestroyed : reader.destroyed.isSome = true
  · rw [if_pos hdestroyed]
    refine ⟨lines, rest ++ chunk, List.append_assoc .., hmap, hlimit, fun h => ?_⟩
    rw [h] at hdestroyed
    cases hdestroyed
  rw [if_neg hdestroyed]
  dsimp only
  by_cases hlong : byteLength (reader.buffered ++ chunk) > maxControlLineBytes
  · rw [if_pos hlong]
    exact ⟨lines, rest ++ chunk, List.append_assoc .., hmap, hlimit, fun h => by cases h⟩
  rw [if_neg hlong]
  rcases reader with ⟨buffered, delivered, destroyed⟩
  cases destroyed with
  | some e => exact (hdestroyed rfl).elim
  | none =>
    rcases hrest rfl with ⟨-, rfl⟩
    rcases exists_unlines (10 : UInt16) (buffered ++ chunk) with ⟨ls, tail, hsplit, hls, htail⟩
    rcases readLines_lines F syntaxError onMessage kind hls htail delivered with
      ⟨done, todo, messages, rfl, hdelivered, hparse, hlive⟩
    dsimp only at hlong
    rw [hsplit] at hlong
    dsimp only
    rw [hsplit]
    refine ⟨lines ++ done, unlines 10 todo ++ tail, ?_, ?_, ?_, ?_⟩
    · rw [List.append_assoc, hsplit, unlines_append, unlines_append]
      simp only [List.append_assoc]
    · rw [hdelivered, List.map_append, List.map_append, hparse]
      exact congrArg (· ++ _) hmap
    · intro line hline
      rcases List.mem_append.mp hline with hline | hline
      · exact hlimit line hline
      · -- the line is a part of what was tested
        rcases List.append_of_mem hline with ⟨front, back, rfl⟩
        have hpart : unlines 10 (front ++ line :: back ++ todo) ++ tail
            = unlines 10 front ++ ((line ++ [10]) ++ (unlines 10 (back ++ todo) ++ tail)) := by
          simp [unlines_append]
        rw [hpart] at hlong
        have hfront := byteLength_le_append_left (unlines 10 front) ((line ++ [10]) ++ (unlines 10 (back ++ todo) ++ tail))
        have hback := byteLength_le_append_right (line ++ [10]) (unlines 10 (back ++ todo) ++ tail)
        omega
    · intro h
      rcases hlive h with ⟨rfl, hbuffered⟩
      exact ⟨by simpa using htail, by simpa using hbuffered⟩

theorem DeliveredLines.foldl_onData {chunks : List JsString} {text : JsString} {reader : LineReader}
    (h : DeliveredLines F text reader) :
    DeliveredLines F (text ++ chunks.flatten) (chunks.foldl (Coding.onData F syntaxError onMessage kind) reader) := by
  induction chunks generalizing text reader with
  | nil =>
    rw [List.flatten_nil, List.append_nil]
    exact h
  | cons chunk chunks ih =>
    rw [List.flatten_cons, ← List.append_assoc]
    exact ih h.onData

/-! ## Chunks of bytes -/

theorem flatten_decodeTexts (q : Utf8.State) (chunks : List (List UInt8)) :
    (decodeTexts q chunks).flatten = (Utf8.feed q chunks.flatten).1.flatMap Text.utf16Of := by
  induction chunks generalizing q with
  | nil => rfl
  | cons bytes chunks ih =>
    rw [decodeTexts, List.flatten_cons, ih, List.flatten_cons, Utf8.feed_append, List.flatMap_append]

theorem paired_controlLines (messages : List Json) : Text.Paired (controlLines F messages) := by
  induction messages with
  | nil => exact .nil
  | cons message messages ih =>
    rw [controlLines, List.map_cons, unlines_cons]
    exact (isLine_stringify F message).paired.append (.unit (by decide) ih)

/-- The chunks of the lines are decoded to the lines: a newline leaves no character unfinished. -/
theorem flatten_decodeTexts_controlLines {messages : List Json} {chunks : List (List UInt8)}
    (h : chunks.flatten = textEncode (controlLines F messages)) :
    (decodeTexts .start chunks).flatten = controlLines F messages := by
  have hpaired := paired_controlLines (F := F) messages
  rw [flatten_decodeTexts, h]
  have hrun : Utf8.run .start (textEncode (controlLines F messages)) = Text.scalars (controlLines F messages) :=
    run_flatMap_utf8Of (isScalar_scalars _)
  rw [Utf8.run_eq_feed] at hrun
  suffices hclose : Utf8.close (Utf8.feed .start (textEncode (controlLines F messages))).2 = [] by
    rw [hclose, List.append_nil] at hrun
    rw [hrun, flatMap_scalars hpaired]
  rcases List.eq_nil_or_concat' messages with rfl | ⟨front, last, rfl⟩
  · rfl
  · have hlow : Text.isLowSurrogate 10 = false := by decide
    have hsplit : controlLines F (front ++ [last]) = (controlLines F front ++ stringify F last) ++ [10] := by
      simp [controlLines, unlines_append]
    have hscalars : Text.scalars (controlLines F (front ++ [last]))
        = Text.scalars (controlLines F front ++ stringify F last) ++ [10] := by
      rw [hsplit, scalars_append (by simp [hlow])]
      rfl
    rw [hscalars] at hrun
    cases hstate : (Utf8.feed .start (textEncode (controlLines F (front ++ [last])))).2 with
    | start => rfl
    | more owed bits low high =>
      rw [hstate, Utf8.close] at hrun
      have hlast := (List.append_inj' hrun rfl).2
      simp at hlast

/-! ## Messages that are lines within the limit -/

theorem encodeControlLine_eq_ok {message : Json} {line : JsString} (h : encodeControlLine F message = .ok line) :
    line = stringify F message ++ [10] ∧ byteLength line ≤ maxControlLineBytes := by
  rw [encodeControlLine, ite_error_eq_ok] at h
  cases h.2
  exact ⟨rfl, by omega⟩

theorem mapM_encodeControlLine {messages : List Json} {lines : List JsString}
    (h : messages.mapM (encodeControlLine F) = .ok lines) : lines.flatten = controlLines F messages := by
  induction messages generalizing lines with
  | nil =>
    cases h
    rfl
  | cons message messages ih =>
    rw [List.mapM_cons, bind_eq_ok] at h
    rcases h with ⟨line, hline, h⟩
    rcases bind_eq_ok.mp h with ⟨rest, hrest, h⟩
    cases h
    rw [List.flatten_cons, ih hrest, (encodeControlLine_eq_ok hline).1]
    simp [controlLines]

/-- Encoded messages arrive over any chunks, exactly and with the socket alive, if and only if no chunk is over the limit
together with the line it continues and every message passes the reader. Whatever arrives, only lines within the limit are
delivered. -/
theorem readChunks_iff (F : NumberFormat) (syntaxError : JsString → JsString)
    (onMessage : List Json → Json → Option JsString) (kind : ReaderKind) (chunks : List (List UInt8)) :
    (∀ messages lines, (∀ m ∈ messages, m.Enumerated) → messages.mapM (encodeControlLine F) = .ok lines →
      chunks.flatten = textEncode lines.flatten →
      ((readChunks F syntaxError onMessage kind chunks).Delivers messages
        ↔ Fits [] (decodeTexts .start chunks) ∧ Accepted onMessage kind [] messages)) ∧
    DeliveredLines F (decodeTexts .start chunks).flatten (readChunks F syntaxError onMessage kind chunks) := by
  constructor
  · intro messages lines hmessages hlines hchunks
    rw [mapM_encodeControlLine hlines] at hchunks
    have htext := flatten_decodeTexts_controlLines hchunks
    exact foldl_onData_iff hmessages List.not_mem_nil htext []
  · have hstart : DeliveredLines F [] {} := ⟨[], [], rfl, rfl, by simp, fun _ => ⟨List.not_mem_nil, rfl⟩⟩
    exact hstart.foldl_onData

theorem le_maxControlLineBytes {n : ℕ} (h : n ≤ 100) : n ≤ maxControlLineBytes := by
  unfold maxControlLineBytes
  omega

theorem encodeControlLine_short {message : Json} (h : byteLength (stringify F message ++ [10]) ≤ 100) :
    encodeControlLine F message = .ok (stringify F message ++ [10]) := by
  have hle := le_maxControlLineBytes h
  rw [encodeControlLine, if_neg (by omega)]

/-- Two messages, cut in the middle of the second. -/
theorem readChunks_iff_two :
    (readChunks .fractions id (fun _ _ => none) .json [[110, 117, 108, 108, 10, 116], [114, 117, 101, 10]]).Delivers
      [.null, .bool true] := by
  have hlines : [Json.null, .bool true].mapM (encodeControlLine .fractions)
      = .ok [stringify .fractions .null ++ [10], stringify .fractions (.bool true) ++ [10]] := by
    rw [List.mapM_cons, List.mapM_cons, encodeControlLine_short (by decide), encodeControlLine_short (by decide)]
    rfl
  have hfits : Fits [] (decodeTexts .start [[110, 117, 108, 108, 10, 116], [114, 117, 101, 10]]) := by
    exact ⟨le_maxControlLineBytes (by decide), le_maxControlLineBytes (by decide), trivial⟩
  have hiff := (readChunks_iff .fractions id (fun _ _ => none) .json [[110, 117, 108, 108, 10, 116], [114, 117, 101, 10]]).1
  refine (hiff _ _ ?_ hlines (by decide)).mpr ⟨hfits, ?_⟩
  · exact List.forall_mem_cons.mpr ⟨.null, List.forall_mem_cons.mpr ⟨.bool true, by simp⟩⟩
  · exact ⟨nofun, rfl, nofun, rfl, trivial⟩

theorem byteLength_ascii {s : JsString} (h : ∀ u ∈ s, u.toNat < 0x80) : byteLength s = s.length := by
  induction s with
  | nil => rfl
  | cons u s ih =>
    rw [List.forall_mem_cons] at h
    have hu : (Text.isHighSurrogate u || Text.isLowSurrogate u) = false := by
      simp only [Text.isHighSurrogate, Text.isLowSurrogate, Bool.or_eq_false_iff, Bool.and_eq_false_iff,
        decide_eq_false_iff_not]
      omega
    have hbytes : byteLength (u :: s) = (Text.utf8Of u.toNat).length + byteLength s := by
      rw [byteLength, textEncode, Text.scalars_cons hu, List.flatMap_cons, List.length_append]
      rfl
    rw [hbytes, ih h.2, Text.utf8Of, if_pos h.1, List.length_singleton, List.length_cons, Nat.add_comm]

theorem stringify_letters (F : NumberFormat) (n : ℕ) :
    stringify F (.string (List.replicate n 97)) = 34 :: (List.replicate n 97 ++ [34]) := by
  have hsame : ∀ s : JsString, (∀ u ∈ s, u = 97) → escapeUnits s = s := by
    intro s
    induction s using escapeUnits.induct with
    | case1 => exact fun _ => rfl
    | case2 u =>
      intro h
      rw [h u (List.mem_cons_self ..)]
      rfl
    | case3 u v s hpair _ =>
      intro h
      rw [h u (List.mem_cons_self ..)] at hpair
      cases hpair
    | case4 u v s hpair ih =>
      intro h
      rw [escapeUnits, if_neg hpair, ih fun w hw => h w (List.mem_cons_of_mem _ hw), h u (List.mem_cons_self ..)]
      rfl
  rw [stringify, quote, hsame _ fun u hu => List.eq_of_mem_replicate hu]

/-- A chunk over the limit destroys the socket. -/
theorem not_delivers_of_long {chunk : JsString} (h : maxControlLineBytes < byteLength chunk) (messages : List Json) :
    ¬(onData F syntaxError onMessage kind {} chunk).Delivers messages := by
  rintro ⟨-, hdestroyed⟩
  have hreader : onData F syntaxError onMessage kind {} chunk = ⟨chunk, [], some tooLarge⟩ := if_pos h
  rw [hreader] at hdestroyed
  cases hdestroyed

/-- A line as long as the limit, and a short one behind it in the same chunk. -/
theorem readChunks_loses_long_line :
    ¬∀ messages lines chunks, (∀ m ∈ messages, m.Enumerated) →
      messages.mapM (encodeControlLine .fractions) = .ok lines → chunks.flatten = textEncode lines.flatten →
      (readChunks .fractions id (fun _ _ => none) .json chunks).Delivers messages := by
  intro h
  have hthree := le_maxControlLineBytes (show 3 ≤ 100 by decide)
  obtain ⟨n, hmax⟩ : ∃ n, maxControlLineBytes = n + 3 := ⟨maxControlLineBytes - 3, by omega⟩
  have hascii : ∀ u ∈ (34 :: (List.replicate n 97 ++ [34]) ++ [10] : JsString), u.toNat < 0x80 := by
    intro u hu
    simp only [List.cons_append, List.mem_cons, List.mem_append, List.not_mem_nil, or_false, List.mem_replicate] at hu
    rcases hu with rfl | (⟨-, rfl⟩ | rfl) | rfl <;> decide
  have hlength : byteLength (34 :: (List.replicate n 97 ++ [34]) ++ [10]) = n + 3 := by
    rw [byteLength_ascii hascii]
    simp
  have hlong : encodeControlLine .fractions (.string (List.replicate n 97))
      = .ok (34 :: (List.replicate n 97 ++ [34]) ++ [10]) := by
    rw [encodeControlLine, stringify_letters, if_neg (by rw [hlength, hmax]; omega)]
  have hlines : [Json.string (List.replicate n 97), .null].mapM (encodeControlLine .fractions)
      = .ok [34 :: (List.replicate n 97 ++ [34]) ++ [10], stringify .fractions .null ++ [10]] := by
    rw [List.mapM_cons, List.mapM_cons, hlong, encodeControlLine_short (by decide)]
    rfl
  have henumerated : ∀ m ∈ [Json.string (List.replicate n 97), .null], m.Enumerated :=
    List.forall_mem_cons.mpr ⟨.string _, List.forall_mem_cons.mpr ⟨.null, by simp⟩⟩
  have htext : controlLines .fractions [.string (List.replicate n 97), .null]
      = 34 :: (List.replicate n 97 ++ [34]) ++ 10 :: [110, 117, 108, 108, 10] := by
    rw [controlLines, List.map_cons, unlines_cons, stringify_letters]
    rfl
  have hdelivers := h _ _ [textEncode (controlLines .fractions [.string (List.replicate n 97), .null])] henumerated hlines
    (by rw [mapM_encodeControlLine hlines, List.flatten_cons, List.flatten_nil, List.append_nil])
  have hdecoded : decodeTexts .start [textEncode (controlLines .fractions [.string (List.replicate n 97), .null])]
      = [controlLines .fractions [.string (List.replicate n 97), .null]] := by
    have hflatten :
        (decodeTexts .start [textEncode (controlLines .fractions [.string (List.replicate n 97), .null])]).flatten
          = controlLines .fractions [.string (List.replicate n 97), .null] :=
      flatten_decodeTexts_controlLines (List.append_nil _)
    rw [decodeTexts, decodeTexts, List.flatten_cons, List.flatten_nil, List.append_nil] at hflatten
    rw [decodeTexts, decodeTexts, hflatten]
  rw [readChunks, hdecoded] at hdelivers
  refine not_delivers_of_long ?_ _ hdelivers
  have hbytes := byteLength_newline (34 :: (List.replicate n 97 ++ [34])) [110, 117, 108, 108, 10]
  have hline := byteLength_newline (34 :: (List.replicate n 97 ++ [34])) []
  rw [htext, hbytes, hmax]
  have hnil : byteLength [] = 0 := rfl
  have hrest : byteLength [110, 117, 108, 108, 10] = 5 := rfl
  rw [hlength] at hline
  omega

end Phi.Coding
