import Phi.Ai.SseFrames

/-!
# Lines in chunks

The Anthropic reader of events looks for a newline behind a carriage return in what has arrived. If the newline arrives
later, it ends an empty line, and the event that is open there is over. So what it gives depends on the text of a response
only, if no CR LF inside an event is followed by one more of its lines (`Unharmed`).
-/

namespace Phi.Ai

/-! ## The lines of a text -/

/-- The lines of a whole text, each ended by CR LF, CR or LF. -/
def splitLines (text : JsString) : List JsString := splitNewline (Edit.normalizeToLF text)

def fieldName (line : JsString) : JsString := line.takeWhile (· ≠ 58)

def fieldValue (line : JsString) : JsString :=
  let value := (line.dropWhile (· ≠ 58)).tail
  if value.head? = some 32 then value.tail else value

/-- The lines behind the last blank one. -/
def lastBlock (lines : List JsString) : List JsString := lines.rtakeWhile (· ≠ [])

/-- The names that some lines give to their event. -/
def eventNames (lines : List JsString) : List JsString :=
  (lines.filter fun line => fieldName line = JsString.ofAscii "event").map fieldValue

theorem flushSseEvent_of_not {state : SseDecoderState} (h : ¬state.Pending) : flushSseEvent state = (none, state) :=
  if_neg h

theorem not_pending_flush (state : SseDecoderState) : ¬(flushSseEvent state).2.Pending := by
  rw [flushSseEvent]
  split_ifs with h
  · simp [SseDecoderState.Pending]
  · exact h

/-- Nothing is left to flush a second time. -/
theorem flush_flush (state : SseDecoderState) :
    flushSseEvent (flushSseEvent state).2 = (none, (flushSseEvent state).2) :=
  flushSseEvent_of_not (not_pending_flush state)

/-- What a line that is not blank does. -/
theorem decodeSseLine_of_ne {line : JsString} (h : line ≠ []) (state : SseDecoderState) :
    decodeSseLine line state = (none,
      { event := if fieldName line = JsString.ofAscii "event" then some (fieldValue line) else state.event
        data := if fieldName line = JsString.ofAscii "data" then state.data ++ [fieldValue line] else state.data
        raw := state.raw ++ [line] }) := by
  rw [decodeSseLine, if_neg h]
  by_cases hcomment : line.head? = some 58
  · obtain ⟨rest, rfl⟩ := List.head?_eq_some_iff.mp hcomment
    rfl
  · simp only [if_neg hcomment]
    change (if fieldName line = JsString.ofAscii "event" then _
      else if fieldName line = JsString.ofAscii "data" then _ else _) = _
    by_cases hevent : fieldName line = JsString.ofAscii "event"
    · have hdata : fieldName line ≠ JsString.ofAscii "data" := by
        rw [hevent]
        decide
      rw [if_pos hevent, if_pos hevent, if_neg hdata]
      rfl
    · rw [if_neg hevent, if_neg hevent]
      by_cases hdata : fieldName line = JsString.ofAscii "data"
      · rw [if_pos hdata, if_pos hdata]
        rfl
      · rw [if_neg hdata, if_neg hdata]

theorem decodeSseLines_append (state : SseDecoderState) (a b : List JsString) :
    decodeSseLines state (a ++ b)
      = ((decodeSseLines state a).1 ++ (decodeSseLines (decodeSseLines state a).2 b).1,
        (decodeSseLines (decodeSseLines state a).2 b).2) := by
  induction a generalizing state with
  | nil => rfl
  | cons line a ih => rw [List.cons_append, decodeSseLines, decodeSseLines, ih, List.append_assoc]

theorem decodeSseLines_concat (state : SseDecoderState) (lines : List JsString) (line : JsString) :
    (decodeSseLines state (lines ++ [line])).2 = (decodeSseLine line (decodeSseLines state lines).2).2 := by
  rw [decodeSseLines_append]
  rfl

theorem lastBlock_blank (lines : List JsString) : lastBlock (lines ++ [[]]) = [] :=
  List.rtakeWhile_concat_neg _ _ _ (by simp)

theorem lastBlock_concat (lines : List JsString) {line : JsString} (h : line ≠ []) :
    lastBlock (lines ++ [line]) = lastBlock lines ++ [line] :=
  List.rtakeWhile_concat_pos _ _ _ (by simpa using h)

/-- What the decoder has collected, told from the lines. -/
theorem collected (lines : List JsString) :
    ((decodeSseLines {} lines).2.data ≠ [] ↔ ∃ line ∈ lastBlock lines, fieldName line = JsString.ofAscii "data")
      ∧ (decodeSseLines {} lines).2.event.getD [] = (eventNames (lastBlock lines)).getLast?.getD [] := by
  induction lines using List.reverseRecOn with
  | nil => simp [decodeSseLines, lastBlock, eventNames]
  | append_singleton lines line ih =>
    obtain ⟨hdata, hevent⟩ := ih
    rw [decodeSseLines_concat]
    by_cases hblank : line = []
    · rw [hblank, lastBlock_blank]
      have hflushed := not_pending_flush (decodeSseLines {} lines).2
      rw [SseDecoderState.Pending, not_or, not_not, not_not] at hflushed
      exact ⟨by simpa [decodeSseLine] using hflushed.2, by simpa [decodeSseLine, eventNames] using hflushed.1⟩
    · rw [lastBlock_concat lines hblank, decodeSseLine_of_ne hblank]
      constructor
      · simp only [List.mem_append, List.mem_singleton, or_and_right, exists_or, exists_eq_left, ← hdata]
        split_ifs with hname <;> simp [hname]
      · rw [eventNames, List.filter_append, List.map_append]
        by_cases hname : fieldName line = JsString.ofAscii "event"
        · simp [hname]
        · have hother : [line].filter (fun line => fieldName line = JsString.ofAscii "event") = [] := by simp [hname]
          rw [hother, List.map_nil, List.append_nil, if_neg hname]
          exact hevent

/-- A reader that sees one character after the other: the line it is in, and whether a carriage return was the last. -/
structure LineReader where
  line : JsString := []
  cr : Bool := false
  state : SseDecoderState := {}

namespace LineReader

def step (q : LineReader) (u : UInt16) : Option ServerSentEvent × LineReader :=
  if q.cr ∧ u = 10 then (none, { q with cr := false })
  else if u = 13 ∨ u = 10 then ((decodeSseLine q.line q.state).1, ⟨[], u = 13, (decodeSseLine q.line q.state).2⟩)
  else (none, ⟨q.line ++ [u], false, q.state⟩)

def read (q : LineReader) : JsString → List ServerSentEvent × LineReader
  | [] => ([], q)
  | u :: text => ((q.step u).1.toList ++ ((q.step u).2.read text).1, ((q.step u).2.read text).2)

/-- The end of the text. -/
def close (q : LineReader) : List ServerSentEvent :=
  let events := decodeSseLines q.state (if q.line = [] then [] else [q.line])
  events.1 ++ (flushSseEvent events.2).1.toList

/-- All events of a text. -/
def readAll (q : LineReader) (text : JsString) : List ServerSentEvent := (q.read text).1 ++ (q.read text).2.close

/-- A new chunk begins. -/
def reset (q : LineReader) : LineReader := { q with cr := false }

/-- There is no line break in the line, and behind a carriage return it is empty. -/
structure Ok (q : LineReader) : Prop where
  unbroken : ∀ u ∈ q.line, u ≠ 13 ∧ u ≠ 10
  empty : q.cr = true → q.line = []

theorem read_append (q : LineReader) (a b : JsString) :
    q.read (a ++ b) = ((q.read a).1 ++ ((q.read a).2.read b).1, ((q.read a).2.read b).2) := by
  induction a generalizing q with
  | nil => rfl
  | cons u a ih => rw [List.cons_append, read, read, ih, List.append_assoc]

theorem readAll_append (q : LineReader) (a b : JsString) :
    q.readAll (a ++ b) = (q.read a).1 ++ (q.read a).2.readAll b := by
  rw [readAll, read_append, List.append_assoc]
  rfl

theorem readAll_cons (q : LineReader) (u : UInt16) (text : JsString) :
    q.readAll (u :: text) = (q.step u).1.toList ++ (q.step u).2.readAll text := by
  rw [readAll, read, List.append_assoc]
  rfl

theorem step_lf {q : LineReader} (h : q.cr = true) : q.step 10 = (none, q.reset) := if_pos ⟨h, rfl⟩

theorem step_break {q : LineReader} {u : UInt16} (h : ¬(q.cr = true ∧ u = 10)) (hu : u = 13 ∨ u = 10) :
    q.step u = ((decodeSseLine q.line q.state).1, ⟨[], u = 13, (decodeSseLine q.line q.state).2⟩) := by
  rw [step, if_neg h, if_pos hu]

theorem unbroken_concat {line : JsString} (h : ∀ u ∈ line, u ≠ 13 ∧ u ≠ 10) {u : UInt16} (hu : u ≠ 13 ∧ u ≠ 10) :
    ∀ v ∈ line ++ [u], v ≠ 13 ∧ v ≠ 10 := by
  intro v hv
  rcases List.mem_append.mp hv with hv | hv
  · exact h v hv
  · rwa [List.mem_singleton.mp hv]

theorem step_ok {q : LineReader} (hq : q.Ok) (u : UInt16) : (q.step u).2.Ok := by
  rw [step]
  split_ifs with hcrlf hbreak
  · exact ⟨hq.unbroken, fun h => by simp at h⟩
  · exact ⟨by simp, fun _ => rfl⟩
  · exact ⟨unbroken_concat hq.unbroken (not_or.mp hbreak), fun h => by simp at h⟩

/-- The line that is open at the end is blank, or gives no event. -/
theorem close_eq (q : LineReader) :
    q.close = (decodeSseLine q.line q.state).1.toList ++ (flushSseEvent (decodeSseLine q.line q.state).2).1.toList := by
  rw [close]
  split_ifs with hline
  · rw [hline, decodeSseLine, if_pos rfl, flush_flush, Option.toList_none, List.append_nil]
    rfl
  · simp [decodeSseLines]

end LineReader

/-! ## The lines of what has arrived -/

namespace LineReader

/-- Where a newline is read behind a carriage return, no event is open, or the next line is blank. -/
def Harmless (q : LineReader) (text : JsString) : Prop :=
  ∀ front u rest, text = front ++ 10 :: u :: rest → u ≠ 13 → u ≠ 10 → (q.read front).2.cr = true →
    ¬(q.read front).2.state.Pending

theorem Harmless.append {q : LineReader} {a b : JsString} (h : q.Harmless (a ++ b)) : (q.read a).2.Harmless b := by
  intro front u rest hb hcr hlf
  have hread := h (a ++ front) u rest (by rw [hb, List.append_assoc]) hcr hlf
  rwa [read_append] at hread

theorem Harmless.tail {q : LineReader} {u : UInt16} {text : JsString} (h : q.Harmless (u :: text)) :
    (q.step u).2.Harmless text :=
  Harmless.append (a := [u]) h

theorem Harmless.cons {q : LineReader} {u : UInt16} {text : JsString} (hu : ¬(q.cr = true ∧ u = 10))
    (h : (q.step u).2.Harmless text) : q.Harmless (u :: text) := by
  intro front v rest heq hcr hlf
  cases front with
  | nil =>
    obtain ⟨rfl, -⟩ := List.cons.inj heq
    exact fun h => absurd ⟨h, rfl⟩ hu
  | cons w front =>
    obtain ⟨rfl, rfl⟩ := List.cons.inj heq
    exact h front v rest rfl hcr hlf

theorem reset_step_break (q : LineReader) {u : UInt16} (hu : u = 13 ∨ u = 10) :
    q.reset.step u = ((decodeSseLine q.line q.state).1, ⟨[], u = 13, (decodeSseLine q.line q.state).2⟩) :=
  step_break (by simp [reset]) hu

/-- A new chunk does no harm. -/
theorem Harmless.reset {q : LineReader} (hq : q.Ok) {text : JsString} (h : q.Harmless text) :
    q.reset.readAll text = q.readAll text ∧ q.reset.Harmless text := by
  have hcr (u : UInt16) : ¬(q.reset.cr = true ∧ u = 10) := by simp [LineReader.reset]
  cases text with
  | nil => exact ⟨rfl, fun front u rest h => by simp at h⟩
  | cons u text =>
    by_cases hlf : q.cr = true ∧ u = 10
    · obtain ⟨hqcr, rfl⟩ := hlf
      have htail := h.tail
      have hlate := reset_step_break q (u := 10) (.inr rfl)
      rw [hq.empty hqcr, decodeSseLine, if_pos rfl] at hlate
      rw [readAll_cons, readAll_cons, hlate, step_lf hqcr]
      rw [step_lf hqcr] at htail
      by_cases hpending : q.state.Pending
      · -- The next line is blank, and what the empty line has flushed is not flushed by it.
        cases text with
        | nil =>
          constructor
          · show _ ++ close ⟨[], false, (flushSseEvent q.state).2⟩ = close q.reset
            rw [close_eq, close_eq, show q.reset.line = [] from hq.empty hqcr, decodeSseLine, if_pos rfl, decodeSseLine,
              if_pos rfl, flush_flush, flush_flush]
            simp [show q.reset.state = q.state from rfl, flush_flush]
          · exact Harmless.cons (hcr 10) fun front u rest h => by simp at h
        | cons v text =>
          have hblank : v = 13 ∨ v = 10 := by
            by_contra hline
            rw [not_or] at hline
            exact h [] v text rfl hline.1 hline.2 hqcr hpending
          have hnext := reset_step_break q hblank
          rw [hq.empty hqcr, decodeSseLine, if_pos rfl] at hnext
          have hagain := step_break (q := ⟨[], decide ((10 : UInt16) = 13), (flushSseEvent q.state).2⟩) (by simp) hblank
          rw [decodeSseLine, if_pos rfl, flush_flush] at hagain
          constructor
          · rw [readAll_cons, readAll_cons, hnext, hagain]
            rfl
          · refine Harmless.cons (hcr 10) ?_
            rw [hlate]
            refine Harmless.cons (by simp) ?_
            rw [hagain]
            have hrest := htail.tail
            rwa [hnext] at hrest
      · rw [flushSseEvent_of_not hpending] at hlate ⊢
        have hsame : (⟨[], false, q.state⟩ : LineReader) = q.reset := by
          rw [LineReader.reset, hq.empty hqcr]
        refine ⟨by rw [← hsame]; rfl, Harmless.cons (hcr 10) ?_⟩
        rw [hlate]
        show Harmless ⟨[], false, q.state⟩ text
        rwa [hsame]
    · have hstep : q.reset.step u = q.step u := by
        rw [step, step, if_neg hlf, if_neg (hcr u)]
        rfl
      rw [readAll_cons, readAll_cons, hstep]
      exact ⟨rfl, Harmless.cons (hcr u) (hstep ▸ h.tail)⟩

end LineReader

end Phi.Ai
