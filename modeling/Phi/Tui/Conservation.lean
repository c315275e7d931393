import Phi.Tui.Chunking

/-!
# No input is lost

Everything that arrives is given out, waits in the buffer, is suppressed as the duplicate of a Kitty key, or is dropped:
`run_text`. A character is suppressed only directly behind the key that it repeats (`run_duplicates`). What is dropped is
an incomplete sequence in front of a paste marker of the same call, so nothing is lost if and only if there never is one:
`input_kept_iff`.
-/

namespace Phi.Tui

/-! ## Runs -/

inductive Action where
  /-- A piece of input arrives. -/
  | process (data : JsString)
  | timeout

namespace StdinBuffer

def step (s : StdinBuffer) : Action → List Output × StdinBuffer
  | .process data => s.process data
  | .timeout => s.timeout

def run (s : StdinBuffer) : List Action → List Output × StdinBuffer
  | [] => ([], s)
  | action :: actions =>
    let (outputs, s) := s.step action
    let (rest, s) := s.run actions
    (outputs ++ rest, s)

/-- What waits, with the start marker of a paste put back. -/
def waiting (s : StdinBuffer) : JsString := if s.pasteMode then pasteStart ++ s.pasteBuffer else s.buffer

end StdinBuffer

/-- The input of a run. -/
def inputOf (actions : List Action) : JsString :=
  actions.flatMap fun
    | .process data => data
    | .timeout => []

/-- The input an output stands for. -/
def Output.text : Output → JsString
  | .data sequence => sequence
  | .paste content => pasteStart ++ content ++ pasteEnd
  | .suppressed sequence => sequence
  | .dropped text => text

/-- The events, and the suppressed characters where they were. -/
def kept (outputs : List Output) : List Output :=
  outputs.filter fun
    | .data _ | .paste _ | .suppressed _ => true
    | .dropped _ => false

/-- What is suppressed is one character, directly behind the event of an unmodified Kitty key for it. -/
def Duplicates (outputs : List Output) : Prop :=
  ∀ front text rest, outputs = front ++ .suppressed text :: rest →
    ∃ front' sequence u, front = front' ++ [.data sequence] ∧ text = [u] ∧
      parseUnmodifiedKittyPrintableCodepoint sequence = some u.toNat

/-! ## The condition -/

/-- No start marker stands behind an incomplete sequence. -/
def MarkersApart (text : JsString) : Prop :=
  match indexOf pasteStart text with
  | some startIndex =>
    (extractCompleteSequences [] (text.take startIndex)).2 = [] ∧
      match hsplit : splitPaste (text.drop (startIndex + pasteStart.length)) with
      | some (_, remaining) => MarkersApart remaining
      | none => True
  | none => True
termination_by text.length
decreasing_by
  have h := splitPaste_length hsplit
  rw [List.length_drop] at h
  omega

/-- The text that a call reads outside of a paste that is going on. -/
def StdinBuffer.pendingText (s : StdinBuffer) (data : JsString) : JsString :=
  -- An empty piece is not read.
  if data.length = 0 ∧ s.buffer.length = 0 then []
  else if s.pasteMode then ((splitPaste (s.pasteBuffer ++ s.buffer ++ data)).map Prod.snd).getD []
  else s.buffer ++ data

def ActionApart (s : StdinBuffer) : Action → Prop
  | .process data => MarkersApart (s.pendingText data)
  | .timeout => True

/-- In every call of the run no start marker stands behind an incomplete sequence. -/
def AllMarkersApart (s : StdinBuffer) : List Action → Prop
  | [] => True
  | action :: actions => ActionApart s action ∧ AllMarkersApart (s.step action).2 actions

/-! ## Tokens -/

/-- What a token stands for. The start marker is counted with the paste. -/
def Token.text : Token → JsString
  | .data sequence => sequence
  | .pasteStart dropped => dropped
  | .paste content => Tui.pasteStart ++ content ++ pasteEnd

def Mode.waiting : Mode → JsString
  | .text candidate => candidate
  | .paste content => pasteStart ++ content

def textOf (result : List Token × Mode) : JsString := result.1.flatMap Token.text ++ result.2.waiting

theorem textOf_prepend (tokens : List Token) (result : List Token × Mode) :
    textOf (prepend tokens result) = tokens.flatMap Token.text ++ textOf result := by
  simp [textOf, prepend]

theorem flatMap_data (sequences : List JsString) : (sequences.map Token.data).flatMap Token.text = sequences.flatten := by
  rw [List.flatMap_map]
  exact (List.flatten_eq_flatMap).symm

theorem extract_text (candidate text : JsString) :
    (extractCompleteSequences candidate text).1.flatten ++ (extractCompleteSequences candidate text).2
      = candidate ++ text := by
  induction text generalizing candidate with
  | nil => simp [extractCompleteSequences]
  | cons u text ih =>
    rw [extractCompleteSequences]
    cases isCompleteSequence (candidate ++ [u]) with
    | incomplete => simpa using ih (candidate ++ [u])
    | notEscape => simpa using ih []
    | complete =>
      dsimp only
      split_ifs with hesc
      · have hcons : candidate ++ u :: text = [esc] ++ ([esc] ++ text) := by
          have happend : candidate ++ u :: text = candidate ++ [u] ++ text := by simp
          rw [happend, hesc.1]
          rfl
        rw [hcons, ← ih [esc]]
        simp
      · simpa using ih []

theorem occursAt_text {pattern text : JsString} {i : ℕ} (h : OccursAt pattern text i) :
    text.take i ++ pattern ++ text.drop (i + pattern.length) = text := by
  obtain ⟨rest, hrest⟩ := h.2
  have hdrop : text.drop (i + pattern.length) = rest := by
    rw [← List.drop_drop, ← hrest, List.drop_left]
  rw [hdrop, List.append_assoc, hrest, List.take_append_drop]

theorem splitPaste_text {pasteBuffer content remaining : JsString}
    (h : splitPaste pasteBuffer = some (content, remaining)) : content ++ pasteEnd ++ remaining = pasteBuffer := by
  unfold splitPaste at h
  rw [Option.map_eq_some_iff] at h
  obtain ⟨i, hi, heq⟩ := h
  cases heq
  exact occursAt_text (indexOf_eq_some hi).1

theorem scanPaste_text {text : JsString}
    (h : ∀ remaining, remaining.length < text.length → textOf (scan remaining) = remaining) :
    textOf (scanPaste text) = pasteStart ++ text := by
  rw [scanPaste]
  cases hsplit : splitPaste text with
  | none => simp [textOf, Mode.waiting]
  | some pair =>
    obtain ⟨content, remaining⟩ := pair
    dsimp only
    rw [textOf_prepend, h remaining (splitPaste_length hsplit), ← splitPaste_text hsplit]
    simp [Token.text]

theorem scan_text (text : JsString) : textOf (scan text) = text := by
  induction hn : text.length using Nat.strong_induction_on generalizing text with
  | _ n ih =>
    cases hi : indexOf pasteStart text with
    | none =>
      have htext := extract_text [] text
      rw [scan_of_none hi]
      simpa only [textOf, Mode.waiting, flatMap_data, List.nil_append] using htext
    | some i =>
      have htext := extract_text [] (text.take i)
      rw [scan_of_indexOf hi, textOf_prepend, scanPaste_text]
      · rw [List.flatMap_append, flatMap_data]
        have hwhole := occursAt_text (indexOf_eq_some hi).1
        rw [List.nil_append] at htext
        calc _ = ((extractCompleteSequences [] (text.take i)).1.flatten ++ (extractCompleteSequences [] (text.take i)).2)
              ++ pasteStart ++ text.drop (i + pasteStart.length) := by simp [Token.text]
          _ = text := by rw [htext, hwhole]
      · intro remaining hremaining
        refine ih remaining.length ?_ remaining rfl
        rw [List.length_drop] at hremaining
        omega

theorem scanFrom_text (m : Mode) (data : JsString) : textOf (scanFrom m data) = m.waiting ++ data := by
  cases m with
  | text candidate => exact scan_text (candidate ++ data)
  | paste content =>
    rw [scanFrom, scanPaste_text fun remaining _ => scan_text remaining]
    simp [Mode.waiting]

/-- No incomplete sequence was in front of a start marker. -/
def DropsNothing (tokens : List Token) : Prop := ∀ dropped, .pasteStart dropped ∈ tokens → dropped = []

theorem markersApart_of_indexOf {text : JsString} {startIndex : ℕ} (h : indexOf pasteStart text = some startIndex) :
    MarkersApart text ↔ (extractCompleteSequences [] (text.take startIndex)).2 = [] ∧
      ∀ content remaining, splitPaste (text.drop (startIndex + pasteStart.length)) = some (content, remaining) →
        MarkersApart remaining := by
  rw [MarkersApart, h]
  dsimp only
  refine and_congr_right fun _ => ?_
  split
  next content remaining hsplit => simp [hsplit]
  next hsplit => simp [hsplit]

theorem dropsNothing_append (a b : List Token) : DropsNothing (a ++ b) ↔ DropsNothing a ∧ DropsNothing b := by
  simp only [DropsNothing, List.mem_append, or_imp, forall_and]

theorem dropsNothing_data (sequences : List JsString) : DropsNothing (sequences.map .data) := by
  simp [DropsNothing]

theorem dropsNothing_scan (text : JsString) : DropsNothing (scan text).1 ↔ MarkersApart text := by
  induction hn : text.length using Nat.strong_induction_on generalizing text with
  | _ n ih =>
    cases hi : indexOf pasteStart text with
    | none =>
      rw [scan_of_none hi, MarkersApart, hi]
      exact iff_true_intro (dropsNothing_data _)
    | some i =>
      rw [scan_of_indexOf hi, markersApart_of_indexOf hi, prepend, dropsNothing_append, dropsNothing_append,
        and_iff_right (dropsNothing_data _)]
      refine and_congr (by simp [DropsNothing]) ?_
      rw [scanPaste]
      cases hsplit : splitPaste (text.drop (i + pasteStart.length)) with
      | none => simp [DropsNothing]
      | some pair =>
        have hlen := splitPaste_length hsplit
        rw [List.length_drop] at hlen
        have hrest := ih pair.2.length (by omega) pair.2 rfl
        have hpaste : DropsNothing [.paste pair.1] := by simp [DropsNothing]
        simp only [prepend, dropsNothing_append, hpaste, true_and, hrest]
        constructor
        · rintro h content remaining ⟨⟩
          exact h
        · intro h
          exact h pair.1 pair.2 rfl

theorem markersApart_nil : MarkersApart [] := by
  rw [MarkersApart, show indexOf pasteStart [] = none from rfl]
  trivial

theorem dropsNothing_scanFrom {m : Mode} {pending : Option ℕ} {data : JsString}
    (hcall : ¬(data.length = 0 ∧ (m.toBuffer pending).buffer.length = 0)) :
    DropsNothing (scanFrom m data).1 ↔ MarkersApart ((m.toBuffer pending).pendingText data) := by
  rw [StdinBuffer.pendingText, if_neg hcall]
  cases m with
  | text candidate => exact dropsNothing_scan (candidate ++ data)
  | paste content =>
    rw [scanFrom, scanPaste]
    cases hsplit : splitPaste (content ++ data) with
    | none =>
      simp only [Mode.toBuffer, List.append_nil, hsplit, if_true]
      exact iff_of_true (dropsNothing_data []) markersApart_nil
    | some pair =>
      have hpaste : DropsNothing [.paste pair.1] := by simp [DropsNothing]
      simp only [Mode.toBuffer, List.append_nil, hsplit, if_true, prepend, dropsNothing_append, hpaste, true_and]
      exact dropsNothing_scan pair.2

/-! ## Outputs -/

theorem emitDataSequence_text (pending : Option ℕ) (sequence : JsString) :
    (emitDataSequence pending sequence).1.text = sequence := by
  unfold emitDataSequence
  split
  · split_ifs <;> rfl
  · rfl

theorem emitToken_text (pending : Option ℕ) (token : Token) : (emitToken pending token).1.text = token.text := by
  cases token with
  | data sequence => exact emitDataSequence_text pending sequence
  | pasteStart dropped => rfl
  | paste content => rfl

theorem emitTokens_text (pending : Option ℕ) (tokens : List Token) :
    (emitTokens pending tokens).1.flatMap Output.text = tokens.flatMap Token.text := by
  induction tokens generalizing pending with
  | nil => rfl
  | cons token tokens ih =>
    rw [emitTokens, List.flatMap_cons, List.flatMap_cons, ih, emitToken_text]

theorem emitDataSequence_ne_dropped (pending : Option ℕ) (sequence text : JsString) :
    (emitDataSequence pending sequence).1 ≠ .dropped text := by
  unfold emitDataSequence
  split
  · split_ifs <;> simp
  · simp

theorem emitTokens_dropped (pending : Option ℕ) (tokens : List Token) :
    (∀ text, .dropped text ∈ (emitTokens pending tokens).1 → text = []) ↔ DropsNothing tokens := by
  induction tokens generalizing pending with
  | nil => simp [emitTokens, DropsNothing]
  | cons token tokens ih =>
    rw [← List.singleton_append, dropsNothing_append, ← ih (emitToken pending token).2, List.singleton_append, emitTokens]
    simp only [List.mem_cons, or_imp, forall_and]
    refine and_congr_left fun _ => ?_
    cases token with
    | data sequence =>
      simp [DropsNothing, emitToken, Ne.symm (emitDataSequence_ne_dropped pending sequence _)]
    | pasteStart dropped => simp [DropsNothing, emitToken]
    | paste content => simp [DropsNothing, emitToken]

theorem waiting_toBuffer (m : Mode) (pending : Option ℕ) : (m.toBuffer pending).waiting = m.waiting := by
  cases m <;> rfl

theorem emitted_text (pending : Option ℕ) (result : List Token × Mode) :
    (emitted pending result).1.flatMap Output.text ++ (emitted pending result).2.waiting = textOf result := by
  rw [emitted, emitTokens_text, waiting_toBuffer, textOf]

/-! ## Duplicates -/

/-- The key that an output is the event of. -/
def Output.key : Output → Option ℕ
  | .data sequence => parseUnmodifiedKittyPrintableCodepoint sequence
  | .paste _ | .suppressed _ | .dropped _ => none

/-- The key of the last output, or the one from before. -/
def lastKey (key : Option ℕ) : List Output → Option ℕ
  | [] => key
  | output :: outputs => lastKey output.key outputs

/-- Every suppressed output repeats the key before it. -/
def Repeats (key : Option ℕ) : List Output → Prop
  | [] => True
  | output :: outputs => (∀ text, output = .suppressed text → ∃ u : UInt16, text = [u] ∧ key = some u.toNat) ∧
      Repeats output.key outputs

theorem lastKey_append (key : Option ℕ) (a b : List Output) : lastKey key (a ++ b) = lastKey (lastKey key a) b := by
  induction a generalizing key with
  | nil => rfl
  | cons output a ih => exact ih output.key

theorem repeats_append (key : Option ℕ) (a b : List Output) :
    Repeats key (a ++ b) ↔ Repeats key a ∧ Repeats (lastKey key a) b := by
  induction a generalizing key with
  | nil => simp [Repeats, lastKey]
  | cons output a ih => rw [List.cons_append, Repeats, Repeats, ih, and_assoc, lastKey]

/-- What is pending is the key of the last event, unless it was used. -/
theorem emitToken_repeats {key pending : Option ℕ} (h : pending = none ∨ pending = key) (token : Token) :
    (∀ text, (emitToken pending token).1 = .suppressed text → ∃ u : UInt16, text = [u] ∧ key = some u.toNat) ∧
      ((emitToken pending token).2 = none ∨ (emitToken pending token).2 = (emitToken pending token).1.key) := by
  cases token with
  | pasteStart dropped => exact ⟨by rintro text ⟨⟩, .inl rfl⟩
  | paste content => exact ⟨by rintro text ⟨⟩, .inl rfl⟩
  | data sequence =>
    rw [emitToken]
    unfold emitDataSequence
    split
    · split_ifs with hpending
      · refine ⟨?_, .inl rfl⟩
        rintro text ⟨⟩
        rcases h with rfl | rfl
        · cases hpending
        · exact ⟨_, rfl, hpending.symm⟩
      · exact ⟨by rintro text ⟨⟩, .inr rfl⟩
    · exact ⟨by rintro text ⟨⟩, .inr rfl⟩

theorem emitTokens_repeats {key pending : Option ℕ} (h : pending = none ∨ pending = key) (tokens : List Token) :
    Repeats key (emitTokens pending tokens).1 ∧
      ((emitTokens pending tokens).2 = none ∨ (emitTokens pending tokens).2 = lastKey key (emitTokens pending tokens).1) := by
  induction tokens generalizing key pending with
  | nil => exact ⟨trivial, h⟩
  | cons token tokens ih =>
    obtain ⟨hfirst, hpending⟩ := emitToken_repeats h token
    obtain ⟨hrest, hlast⟩ := ih hpending
    exact ⟨⟨hfirst, hrest⟩, hlast⟩

theorem lastKey_eq_some {outputs : List Output} {codepoint : ℕ} (h : lastKey none outputs = some codepoint) :
    ∃ front sequence, outputs = front ++ [.data sequence] ∧
      parseUnmodifiedKittyPrintableCodepoint sequence = some codepoint := by
  rcases List.eq_nil_or_concat outputs with rfl | ⟨front, output, rfl⟩
  · cases h
  · rw [List.concat_eq_append, lastKey_append] at h
    cases output with
    | data sequence => exact ⟨front, sequence, List.concat_eq_append, h⟩
    | paste content => cases h
    | suppressed text => cases h
    | dropped text => cases h

theorem duplicates_of_repeats {outputs : List Output} (h : Repeats none outputs) : Duplicates outputs := by
  rintro front text rest rfl
  obtain ⟨-, hsuppressed, -⟩ := (repeats_append none front _).mp h
  obtain ⟨u, rfl, hkey⟩ := hsuppressed text rfl
  obtain ⟨front', sequence, rfl, hparse⟩ := lastKey_eq_some hkey
  exact ⟨front', sequence, u, rfl, rfl, hparse⟩

/-! ## Whole runs -/

/-- An action reads what waits and what arrives. -/
theorem step_eq (m : Mode) (pending : Option ℕ) (action : Action) :
    ∃ before result, (m.toBuffer pending).step action = emitted before result ∧ (before = none ∨ before = pending) ∧
      textOf result = m.waiting ++ inputOf [action] ∧
      (DropsNothing result.1 ↔ ActionApart (m.toBuffer pending) action) := by
  cases action with
  | process data =>
    have hinput : inputOf [.process data] = data := by simp [inputOf]
    by_cases hcall : data.length = 0 ∧ (m.toBuffer pending).buffer.length = 0
    · obtain rfl : data = [] := List.length_eq_zero_iff.mp hcall.1
      refine ⟨pending, ([.data []], m), ?_, .inr rfl, by simp [textOf, Token.text, hinput], ?_⟩
      · rw [StdinBuffer.step, StdinBuffer.process, if_pos hcall]
        cases m <;> rfl
      · rw [ActionApart, StdinBuffer.pendingText, if_pos hcall]
        exact iff_of_true (dropsNothing_data [[]]) markersApart_nil
    · refine ⟨pending, scanFrom m data, process_eq m pending hcall, .inr rfl, ?_, dropsNothing_scanFrom hcall⟩
      rw [scanFrom_text, hinput]
  | timeout =>
    have hinput : inputOf [.timeout] = [] := rfl
    cases m with
    | paste content =>
      refine ⟨pending, ([], .paste content), rfl, .inr rfl, by simp [textOf, hinput], ?_⟩
      exact iff_of_true (dropsNothing_data []) trivial
    | text candidate =>
      by_cases hempty : candidate = []
      · subst hempty
        refine ⟨pending, ([], .text []), rfl, .inr rfl, by simp [textOf, hinput], ?_⟩
        exact iff_of_true (dropsNothing_data []) trivial
      · refine ⟨none, ([.data candidate], .text []), ?_, .inl rfl, by simp [textOf, hinput, Token.text, Mode.waiting], ?_⟩
        · have hlen : ¬candidate.length = 0 := fun h => hempty (List.length_eq_zero_iff.mp h)
          exact if_neg hlen
        · exact iff_of_true (dropsNothing_data [candidate]) trivial

theorem inputOf_cons (action : Action) (actions : List Action) :
    inputOf (action :: actions) = inputOf [action] ++ inputOf actions := by
  simp [inputOf]

/-- All input is accounted for. -/
theorem run_text (m : Mode) (pending : Option ℕ) (actions : List Action) :
    ((m.toBuffer pending).run actions).1.flatMap Output.text ++ ((m.toBuffer pending).run actions).2.waiting
      = m.waiting ++ inputOf actions := by
  induction actions generalizing m pending with
  | nil => simp [StdinBuffer.run, waiting_toBuffer, inputOf]
  | cons action actions ih =>
    obtain ⟨before, result, hstep, -, htext, -⟩ := step_eq m pending action
    have hrest := ih result.2 (emitTokens before result.1).2
    rw [StdinBuffer.run, hstep, inputOf_cons, ← List.append_assoc, ← htext, textOf, List.append_assoc, ← hrest,
      ← emitTokens_text before]
    simp only [List.flatMap_append, List.append_assoc]
    rfl

theorem run_repeats {m : Mode} {key pending : Option ℕ} (h : pending = none ∨ pending = key) (actions : List Action) :
    Repeats key ((m.toBuffer pending).run actions).1 := by
  induction actions generalizing m key pending with
  | nil => trivial
  | cons action actions ih =>
    obtain ⟨before, result, hstep, hbefore, -, -⟩ := step_eq m pending action
    have hkey : before = none ∨ before = key := by
      rcases hbefore with rfl | rfl
      · exact .inl rfl
      · exact h
    obtain ⟨houtputs, hpending⟩ := emitTokens_repeats hkey result.1
    rw [StdinBuffer.run, hstep]
    exact (repeats_append key _ _).mpr ⟨houtputs, ih hpending⟩

theorem run_duplicates (actions : List Action) : Duplicates (StdinBuffer.run {} actions).1 :=
  duplicates_of_repeats (run_repeats (m := .text []) (.inl rfl) actions)

theorem run_dropped (m : Mode) (pending : Option ℕ) (actions : List Action) :
    (∀ text, .dropped text ∈ ((m.toBuffer pending).run actions).1 → text = [])
      ↔ AllMarkersApart (m.toBuffer pending) actions := by
  induction actions generalizing m pending with
  | nil => simp [StdinBuffer.run, AllMarkersApart]
  | cons action actions ih =>
    obtain ⟨before, result, hstep, -, -, hdrops⟩ := step_eq m pending action
    have hrest := ih result.2 (emitTokens before result.1).2
    rw [AllMarkersApart, ← hdrops, ← emitTokens_dropped before, hstep, StdinBuffer.run, hstep, emitted]
    simp only [List.mem_append, or_imp, forall_and, hrest]

theorem kept_length_le (outputs : List Output) :
    ((kept outputs).flatMap Output.text).length ≤ (outputs.flatMap Output.text).length :=
  (List.filter_sublist.flatMap Output.text).length_le

/-- Without what was dropped, the texts are shorter unless nothing was. -/
theorem kept_text (outputs : List Output) :
    (kept outputs).flatMap Output.text = outputs.flatMap Output.text
      ↔ ∀ text, .dropped text ∈ outputs → text = [] := by
  induction outputs with
  | nil => simp [kept]
  | cons output outputs ih =>
    simp only [List.mem_cons, or_imp, forall_and, ← ih]
    cases output with
    | data sequence => simp [kept, Output.text]
    | paste content => simp [kept, Output.text]
    | suppressed text => simp [kept, Output.text]
    | dropped text =>
      have hkept : kept (.dropped text :: outputs) = kept outputs := rfl
      rw [hkept, List.flatMap_cons, Output.text]
      constructor
      · intro heq
        have hlen := congrArg List.length heq
        rw [List.length_append] at hlen
        have hle := kept_length_le outputs
        obtain rfl : text = [] := List.length_eq_zero_iff.mp (by omega)
        refine ⟨?_, heq⟩
        rintro _ ⟨⟩
        rfl
      · rintro ⟨htext, heq⟩
        rw [htext text rfl, heq, List.nil_append]

/-- No input is lost if and only if no paste marker comes behind an incomplete sequence in one call. -/
theorem input_kept_iff (actions : List Action) :
    ((kept (StdinBuffer.run {} actions).1).flatMap Output.text ++ (StdinBuffer.run {} actions).2.waiting
        = inputOf actions ∧ Duplicates (StdinBuffer.run {} actions).1)
      ↔ AllMarkersApart {} actions := by
  have htext : (StdinBuffer.run {} actions).1.flatMap Output.text ++ (StdinBuffer.run {} actions).2.waiting
      = inputOf actions := run_text (.text []) none actions
  have hdropped : (∀ text, .dropped text ∈ (StdinBuffer.run {} actions).1 → text = []) ↔ AllMarkersApart {} actions :=
    run_dropped (.text []) none actions
  rw [and_iff_left (run_duplicates actions), ← htext, List.append_cancel_right_eq, kept_text, hdropped]

/-- The Escape key right before a paste is lost. -/
theorem escape_before_paste_lost :
    ¬((kept (StdinBuffer.run {} [.process (esc :: pasteStart)]).1).flatMap Output.text
        ++ (StdinBuffer.run {} [.process (esc :: pasteStart)]).2.waiting
        = inputOf [.process (esc :: pasteStart)] ∧
      Duplicates (StdinBuffer.run {} [.process (esc :: pasteStart)]).1) := by
  have hprocess : StdinBuffer.process {} (esc :: pasteStart) = ([.dropped [esc]], ⟨[], true, [], none⟩) := by
    have hpiece : StdinBuffer.process {} (esc :: pasteStart) = emitted none (scanFrom (.text []) (esc :: pasteStart)) :=
      process_eq (.text []) none (by decide)
    have hindex : indexOf pasteStart (esc :: pasteStart) = some 1 := by decide
    rw [hpiece, scanFrom, List.nil_append, scan_of_indexOf hindex]
    rfl
  simp only [StdinBuffer.run, StdinBuffer.step, hprocess]
  refine fun h => absurd h.1 ?_
  decide

end Phi.Tui
