import Phi.Tui.Reading

/-!
# Input in pieces

The terminal's input arrives in pieces, and where they end should not matter. All ways to cut an input give the same
events if no character of it is ambiguous, and otherwise there are two that do not: `chunking_invariant_iff`.
-/

namespace Phi.Tui

/-! ## The buffer -/

def emitToken (pending : Option ℕ) : Token → Output × Option ℕ
  | .data sequence => emitDataSequence pending sequence
  | .pasteStart dropped => (.dropped dropped, none)
  | .paste content => (.paste content, none)

def emitTokens (pending : Option ℕ) : List Token → List Output × Option ℕ
  | [] => ([], pending)
  | token :: tokens =>
    let (output, pending) := emitToken pending token
    let (outputs, pending) := emitTokens pending tokens
    (output :: outputs, pending)

/-- What a buffer that waits for more input holds. -/
def Mode.toBuffer (pending : Option ℕ) : Mode → StdinBuffer
  | .text candidate => ⟨candidate, false, [], pending⟩
  | .paste content => ⟨[], true, content, pending⟩

/-- The outputs of some tokens, and the buffer behind them. -/
def emitted (pending : Option ℕ) (result : List Token × Mode) : List Output × StdinBuffer :=
  ((emitTokens pending result.1).1, result.2.toBuffer (emitTokens pending result.1).2)

theorem emitTokens_append (pending : Option ℕ) (a b : List Token) :
    emitTokens pending (a ++ b) = ((emitTokens pending a).1 ++ (emitTokens (emitTokens pending a).2 b).1,
      (emitTokens (emitTokens pending a).2 b).2) := by
  induction a generalizing pending with
  | nil => rfl
  | cons token a ih =>
    simp only [List.cons_append, emitTokens, ih]

theorem emitTokens_data (pending : Option ℕ) (sequences : List JsString) :
    emitTokens pending (sequences.map .data) = emitDataSequences pending sequences := by
  induction sequences generalizing pending with
  | nil => rfl
  | cons sequence sequences ih =>
    rw [List.map_cons, emitTokens, emitDataSequences]
    simp only [ih]
    rfl

theorem emitted_prepend (pending : Option ℕ) (tokens : List Token) (result : List Token × Mode) :
    emitted pending (prepend tokens result)
      = ((emitTokens pending tokens).1 ++ (emitted (emitTokens pending tokens).2 result).1,
        (emitted (emitTokens pending tokens).2 result).2) := by
  rw [prepend, emitted, emitTokens_append]
  rfl

/-- A call that is in a paste. -/
theorem process_of_openPaste {s : StdinBuffer} {data text : JsString} {outputs : List Output} {pending : Option ℕ}
    (hcall : ¬(data.length = 0 ∧ s.buffer.length = 0)) (hopen : openPaste s data = some (outputs, text, pending))
    (hrec : ∀ remaining, remaining.length < text.length → remaining ≠ [] →
      StdinBuffer.process {} remaining = emitted none (scan remaining)) :
    s.process data = (outputs ++ (emitted pending (scanPaste text)).1, (emitted pending (scanPaste text)).2) := by
  rw [StdinBuffer.process, if_neg hcall]
  split
  next outputs' text' pending' hopen' =>
    rw [hopen] at hopen'
    cases hopen'
    split
    next content remaining hsplit =>
      have hpaste : scanPaste text = prepend [.paste content] (scan remaining) := by rw [scanPaste, hsplit]
      rw [hpaste, emitted_prepend]
      split_ifs with hremaining
      · have hne : remaining ≠ [] := List.length_pos_iff.mp hremaining
        simp only [hrec remaining (splitPaste_length hsplit) hne]
        rfl
      · obtain rfl : remaining = [] := List.length_eq_zero_iff.mp (by omega)
        rw [scan_of_none rfl]
        rfl
    next hsplit =>
      rw [scanPaste, hsplit]
      simp [emitted, emitTokens, Mode.toBuffer]
  next hopen' =>
    rw [hopen] at hopen'
    cases hopen'

/-- A call reads the piece behind what is waiting. -/
theorem process_eq (m : Mode) (pending : Option ℕ) {data : JsString}
    (hcall : ¬(data.length = 0 ∧ (m.toBuffer pending).buffer.length = 0)) :
    (m.toBuffer pending).process data = emitted pending (scanFrom m data) := by
  -- What follows a paste is shorter than the whole, and is read from the beginning.
  induction hn : (m.toBuffer pending).pasteBuffer.length + (m.toBuffer pending).buffer.length + data.length
    using Nat.strong_induction_on generalizing m pending data with
  | _ n ih =>
    have hrec : ∀ text : JsString, text.length ≤ n → ∀ remaining : JsString, remaining.length < text.length →
        remaining ≠ [] → StdinBuffer.process {} remaining = emitted none (scan remaining) := by
      intro text htext remaining hremaining hne
      have hlen : remaining.length ≠ 0 := fun h => hne (List.length_eq_zero_iff.mp h)
      have hempty : StdinBuffer.process {} remaining = emitted none (scanFrom (.text []) remaining) := by
        refine ih remaining.length (by omega) (.text []) none (fun h => hlen h.1) ?_
        simp [Mode.toBuffer]
      exact hempty
    cases m with
    | paste content =>
      have hopen : openPaste ((Mode.paste content).toBuffer pending) data = some ([], content ++ data, pending) := by
        simp [openPaste, Mode.toBuffer]
      rw [process_of_openPaste hcall hopen (hrec _ (hn ▸ openPaste_length hopen))]
      rfl
    | text candidate =>
      cases hi : indexOf pasteStart (candidate ++ data) with
      | some i =>
        have hopen : openPaste ((Mode.text candidate).toBuffer pending) data
            = some ((emitTokens pending ((extractCompleteSequences [] ((candidate ++ data).take i)).1.map .data
                ++ [.pasteStart (extractCompleteSequences [] ((candidate ++ data).take i)).2])).1,
              (candidate ++ data).drop (i + pasteStart.length), none) := by
          rw [emitTokens_append, emitTokens_data]
          simp [openPaste, Mode.toBuffer, hi, emitTokens, emitToken]
        rw [process_of_openPaste hcall hopen (hrec _ (hn ▸ openPaste_length hopen)), scanFrom, scan_of_indexOf hi,
          emitted_prepend, emitTokens_append]
        rfl
      | none =>
        have hopen : openPaste ((Mode.text candidate).toBuffer pending) data = none := by
          simp [openPaste, Mode.toBuffer, hi]
        rw [StdinBuffer.process, if_neg hcall]
        split
        next hopen' =>
          rw [hopen] at hopen'
          cases hopen'
        next =>
          rw [scanFrom, scan_of_none hi, emitted, emitTokens_data]
          rfl

theorem not_empty_call {data buffer : JsString} (h : data ≠ []) : ¬(data.length = 0 ∧ buffer.length = 0) :=
  fun hempty => h (List.length_eq_zero_iff.mp hempty.1)

/-! ## Pieces -/

/-- A run: one call for each piece of the input. -/
def StdinBuffer.processAll (s : StdinBuffer) : List JsString → List Output × StdinBuffer
  | [] => ([], s)
  | piece :: pieces =>
    let (outputs, s) := s.process piece
    let (rest, s) := s.processAll pieces
    (outputs ++ rest, s)

/-- What a listener gets. -/
def events (outputs : List Output) : List Output :=
  outputs.filter fun
    | .data _ | .paste _ => true
    | .suppressed _ | .dropped _ => false

/-- The pieces of a cut: none of them is empty. -/
def IsCut (text : JsString) (pieces : List JsString) : Prop := pieces.flatten = text ∧ [] ∉ pieces

theorem readAll_append (m : Mode) (a b : JsString) :
    readAll m (a ++ b) = prepend (readAll m a).1 (readAll (readAll m a).2 b) := by
  induction a generalizing m with
  | nil => simp [readAll, prepend]
  | cons u a ih => 
    rw [List.cons_append, readAll, ih, prepend_prepend]
    rfl

/-- More input behind an ambiguous character does not resolve it. -/
theorem Ambiguous.append {m : Mode} {u : UInt16} {w : JsString} (h : Ambiguous m u w) (more : JsString) :
    Ambiguous m u (w ++ more) := by
  cases m with
  | paste content => exact h
  | text candidate =>
    obtain ⟨hstart, hcomplete, ⟨hesc, hopen⟩ | ⟨before, behind, heq, hbefore, hbehind, hsuffix, hpre⟩⟩ := h
    · refine ⟨hstart, hcomplete, .inl ⟨hesc, ?_⟩⟩
      cases w with
      | nil => simp at hopen
      | cons first w => simpa using hopen
    · exact ⟨hstart, hcomplete, .inr
        ⟨before, behind, heq, hbefore, hbehind, hsuffix, hpre.trans (List.prefix_append w more)⟩⟩

theorem Unambiguous.not_ambiguous {m : Mode} {d w : JsString} {u : UInt16} (h : Unambiguous m (d ++ u :: w)) :
    ¬Ambiguous (readAll m d).2 u w := by
  induction d generalizing m with
  | nil => exact h.1
  | cons v d ih => exact ih h.2

theorem Unambiguous.drop {m : Mode} {d rest : JsString} (h : Unambiguous m (d ++ rest)) :
    Unambiguous (readAll m d).2 rest := by
  induction d generalizing m with
  | nil => exact h
  | cons v d ih => exact ih h.2

/-- A piece that is read as if its characters had arrived alone. -/
theorem process_unambiguous {m : Mode} {pending : Option ℕ} {piece : JsString} (hvalid : m.Valid) (hne : piece ≠ [])
    (h : ∀ d u w, piece = d ++ u :: w → ¬Ambiguous (readAll m d).2 u w) :
    (m.toBuffer pending).process piece = emitted pending (readAll m piece) := by
  have hscan : scanFrom m (piece ++ []) = prepend (readAll m piece).1 (scanFrom (readAll m piece).2 []) :=
    scanFrom_append hvalid fun d u w heq => by simpa using h d u w heq
  rw [List.append_nil, scanFrom_nil (hvalid.readAll piece)] at hscan
  rw [process_eq m pending (not_empty_call hne), hscan]
  simp [prepend]

theorem processAll_unambiguous {m : Mode} {pending : Option ℕ} {pieces : List JsString} (hvalid : m.Valid)
    (hne : [] ∉ pieces) (h : Unambiguous m pieces.flatten) :
    (m.toBuffer pending).processAll pieces = emitted pending (readAll m pieces.flatten) := by
  induction pieces generalizing m pending with
  | nil => rfl
  | cons piece pieces ih =>
    rw [List.mem_cons, not_or] at hne
    rw [List.flatten_cons] at h ⊢
    have hpiece : (m.toBuffer pending).process piece = emitted pending (readAll m piece) := by
      refine process_unambiguous hvalid (Ne.symm hne.1) fun d u w heq hambiguous => ?_
      have hat : Unambiguous m (d ++ u :: (w ++ pieces.flatten)) := by simpa [heq] using h
      exact hat.not_ambiguous (hambiguous.append _)
    rw [StdinBuffer.processAll, hpiece, emitted]
    simp only [ih (hvalid.readAll piece) hne.2 h.drop, readAll_append, emitted_prepend]

/-! ## Ambiguous input -/

theorem parseUnmodifiedKittyPrintableCodepoint_le {sequence : JsString} {codepoint : ℕ}
    (h : parseUnmodifiedKittyPrintableCodepoint sequence = some codepoint) : 32 ≤ codepoint := by
  unfold parseUnmodifiedKittyPrintableCodepoint at h
  split at h
  · simp only [Option.ite_none_right_eq_some, Option.some.injEq] at h
    obtain ⟨-, hle, rfl⟩ := h
    exact hle
  · cases h

/-- The code point of a printable character, or none. -/
def Printable (pending : Option ℕ) : Prop := ∀ codepoint ∈ pending, 32 ≤ codepoint

theorem emitDataSequence_printable (pending : Option ℕ) (sequence : JsString) :
    Printable (emitDataSequence pending sequence).2 := by
  intro codepoint h
  unfold emitDataSequence at h
  split at h
  · split_ifs at h
    · cases h
    · exact parseUnmodifiedKittyPrintableCodepoint_le h
  · exact parseUnmodifiedKittyPrintableCodepoint_le h

theorem emitToken_printable (pending : Option ℕ) (token : Token) : Printable (emitToken pending token).2 := by
  cases token with
  | data sequence => exact emitDataSequence_printable pending sequence
  | pasteStart dropped => rintro codepoint ⟨⟩
  | paste content => rintro codepoint ⟨⟩

theorem emitTokens_printable {pending : Option ℕ} (h : Printable pending) (tokens : List Token) :
    Printable (emitTokens pending tokens).2 := by
  induction tokens generalizing pending with
  | nil => exact h
  | cons token tokens ih => exact ih (emitToken_printable pending token)

theorem emitDataSequence_of_length {pending : Option ℕ} {sequence : JsString} (h : sequence.length ≠ 1) :
    (emitDataSequence pending sequence).1 = .data sequence := by
  match sequence with
  | [] => rfl
  | [u] => exact absurd rfl h
  | u :: v :: sequence => rfl

/-- The Escape key is never taken for a duplicate. -/
theorem emitDataSequence_esc {pending : Option ℕ} (h : Printable pending) :
    (emitDataSequence pending [esc]).1 = .data [esc] := by
  have hne : some esc.toNat ≠ pending := by
    rintro rfl
    have := h 27 rfl
    omega
  rw [emitDataSequence, if_neg hne]

/-- A marker that begins inside the sequence is the first thing that is found. -/
theorem scan_of_crossing {candidate w before behind : JsString} {u : UInt16} (hvalid : (Mode.text candidate).Valid)
    (heq : pasteStart = before ++ behind) (hbefore : before ≠ []) (hsuffix : before <:+ candidate ++ [u])
    (hpre : behind <+: w) :
    ∃ dropped text, scan (candidate ++ [u] ++ w) = prepend [.pasteStart dropped] (scanPaste text) := by
  obtain ⟨front, hfront⟩ := hsuffix
  have hocc : OccursAt pasteStart (candidate ++ [u] ++ w) front.length := by
    refine ⟨by simp [← hfront], ?_⟩
    rw [← hfront, List.append_assoc, List.drop_left, heq]
    exact (List.prefix_append_right_inj before).mpr hpre
  have hlen : front.length ≤ candidate.length := by
    have hsum := congrArg List.length hfront
    rw [List.length_append, List.length_append, List.length_singleton] at hsum
    have hpos := List.length_pos_iff.mpr hbefore
    omega
  cases hi : indexOf pasteStart (candidate ++ [u] ++ w) with
  | none => exact absurd hocc (indexOf_eq_none hi _)
  | some i =>
    have hle : i ≤ front.length := by
      by_contra hlt
      exact (indexOf_eq_some hi).2 front.length (by omega) hocc
    have htake : (candidate ++ [u] ++ w).take i <+: candidate := by
      rw [List.append_assoc, List.take_append_of_le_length (by omega)]
      exact List.take_prefix i candidate
    rw [scan_of_indexOf hi, hvalid.extract_front htake]
    exact ⟨_, _, rfl⟩

/-- The first of two ESC in front of the beginning of a sequence is a sequence of its own. -/
theorem extract_escEsc {rest : JsString} (h : rest.head?.any opensSequence = true) :
    ∃ sequences remainder, extractCompleteSequences [] ([esc, esc] ++ rest) = ([esc] :: sequences, remainder) := by
  have hfirst : isCompleteSequence [esc] = .incomplete := rfl
  have hsecond : isCompleteSequence [esc, esc] = .complete := rfl
  refine ⟨(extractCompleteSequences [esc] rest).1, (extractCompleteSequences [esc] rest).2, ?_⟩
  simp only [extractCompleteSequences, List.cons_append, List.nil_append, hfirst, hsecond, h, true_and, if_true]

theorem scan_escEsc {w : JsString} (hopen : w.head?.any opensSequence = true)
    (hindex : indexOf pasteStart ([esc, esc] ++ w) = (indexOf pasteStart w).map (· + 2)) :
    ∃ result, scan ([esc, esc] ++ w) = prepend [.data [esc]] result := by
  cases hi : indexOf pasteStart w with
  | none =>
    rw [hi] at hindex
    obtain ⟨sequences, remainder, hextract⟩ := extract_escEsc hopen
    rw [scan_of_none hindex, hextract]
    exact ⟨(sequences.map .data, .text remainder), rfl⟩
  | some i =>
    rw [hi] at hindex
    have hhead : (w.take i).head?.any opensSequence = true := by
      match w, i, hopen, hi with
      | first :: w, i + 1, hopen, hi => simpa using hopen
      | first :: w, 0, hopen, hi =>
        -- A sequence does not begin with a marker: its first character is not ESC.
        obtain ⟨rest, heq⟩ := occursAt_zero.mp (indexOf_eq_some hi).1
        have hesc : esc = first := (List.cons.inj heq).1
        have hnot : opensSequence esc = false := rfl
        simp [← hesc, hnot] at hopen
    obtain ⟨sequences, remainder, hextract⟩ := extract_escEsc hhead
    have htake : ([esc, esc] ++ w).take (i + 2) = [esc, esc] ++ w.take i := rfl
    rw [scan_of_indexOf hindex, htake, hextract]
    exact ⟨prepend (sequences.map .data ++ [.pasteStart remainder]) (scanPaste _), by
      rw [prepend_prepend]
      rfl⟩

/-- The first event is not the sequence that the character would have completed. -/
theorem Ambiguous.head_ne {candidate w : JsString} {u : UInt16} {pending : Option ℕ}
    (hvalid : (Mode.text candidate).Valid) (hpending : Printable pending) (h : Ambiguous (.text candidate) u w) :
    (events (emitted pending (scanFrom (.text candidate) (u :: w))).1).head? ≠ some (.data (candidate ++ [u])) := by
  obtain ⟨hstart, hcomplete, hambiguous⟩ := h
  have hcons : candidate ++ u :: w = candidate ++ [u] ++ w := by simp
  rw [scanFrom, hcons]
  by_cases hcross : ∃ before behind, pasteStart = before ++ behind ∧ before ≠ [] ∧ behind ≠ [] ∧
      before <:+ candidate ++ [u] ∧ behind <+: w
  · -- A paste begins inside the sequence.
    obtain ⟨before, behind, heq, hbefore, -, hsuffix, hpre⟩ := hcross
    obtain ⟨dropped, text, hscan⟩ := scan_of_crossing hvalid heq hbefore hsuffix hpre
    rw [hscan, emitted_prepend, scanPaste]
    cases splitPaste text with
    | none => simp [emitTokens, emitToken, emitted, events]
    | some pair => simp [emitTokens, emitToken, emitted_prepend, events]
  · -- The first ESC is the Escape key.
    obtain ⟨hesc, hopen⟩ := hambiguous.resolve_right hcross
    have hindex := indexOf_pasteStart_append hvalid hstart hcross
    rw [hesc] at hindex ⊢
    obtain ⟨result, hscan⟩ := scan_escEsc hopen hindex
    rw [hscan, emitted_prepend]
    simp [emitTokens, emitToken, emitDataSequence_esc hpending, events]

/-- A sequence that an ambiguous character completes has two characters or more. -/
theorem Ambiguous.length_ne {candidate w : JsString} {u : UInt16} (h : Ambiguous (.text candidate) u w) :
    (candidate ++ [u]).length ≠ 1 := by
  obtain ⟨hstart, hcomplete, ⟨hesc, -⟩ | ⟨before, behind, heq, hbefore, -, hsuffix, -⟩⟩ := h
  · rw [hesc]
    decide
  · intro hlen
    obtain rfl : candidate = [] := by
      rw [List.length_append, List.length_singleton] at hlen
      exact List.length_eq_zero_iff.mp (by omega)
    obtain rfl : before = [u] := by
      refine hsuffix.eq_of_length (le_antisymm hsuffix.length_le ?_)
      exact List.length_pos_iff.mpr hbefore
    obtain rfl : esc = u := (List.cons.inj heq).1
    exact hcomplete rfl

/-- The first ambiguous character. -/
theorem exists_ambiguous {m : Mode} {text : JsString} (h : ¬Unambiguous m text) :
    ∃ d u w, text = d ++ u :: w ∧ Ambiguous (readAll m d).2 u w ∧
      ∀ d₁ v d₂, d = d₁ ++ v :: d₂ → ¬Ambiguous (readAll m d₁).2 v (d₂ ++ u :: w) := by
  induction text generalizing m with
  | nil => exact absurd trivial h
  | cons u text ih =>
    by_cases hfirst : Ambiguous m u text
    · exact ⟨[], u, text, rfl, hfirst, by simp⟩
    · have hrest : ¬Unambiguous (read m u).2 text := fun hrest => h ⟨hfirst, hrest⟩
      obtain ⟨d, v, w, rfl, hambiguous, hbefore⟩ := ih hrest
      refine ⟨u :: d, v, w, rfl, hambiguous, ?_⟩
      rintro (- | ⟨x, d₁⟩) v' d₂ heq
      · cases heq
        exact hfirst
      · cases heq
        exact hbefore d₁ v' d₂ rfl

theorem events_append (a b : List Output) : events (a ++ b) = events a ++ events b := List.filter_append a b

theorem not_ambiguous_nil (m : Mode) (u : UInt16) : ¬Ambiguous m u [] := by
  intro h
  cases m with
  | paste content => exact h
  | text candidate =>
    obtain ⟨-, -, ⟨-, hopen⟩ | ⟨before, behind, -, -, hbehind, -, hpre⟩⟩ := h
    · simp at hopen
    · exact hbehind (List.prefix_nil.mp hpre)

/-- The piece that ends with the first ambiguous character is read as it stands. -/
theorem process_through_ambiguous {m : Mode} {pending : Option ℕ} {d w : JsString} {u : UInt16} (hvalid : m.Valid)
    (hbefore : ∀ d₁ v d₂, d = d₁ ++ v :: d₂ → ¬Ambiguous (readAll m d₁).2 v (d₂ ++ u :: w)) :
    (m.toBuffer pending).process (d ++ [u]) = emitted pending (readAll m (d ++ [u])) := by
  refine process_unambiguous hvalid (by simp) fun d₁ v d₂ heq hambiguous => ?_
  rcases List.eq_nil_or_concat d₂ with rfl | ⟨d₂, x, rfl⟩
  · exact not_ambiguous_nil _ _ hambiguous
  · rw [List.concat_eq_append] at heq hambiguous
    rw [← List.cons_append, ← List.append_assoc] at heq
    obtain ⟨rfl, hx⟩ := List.append_inj' heq rfl
    cases hx
    have hmore := hambiguous.append w
    rw [List.append_assoc, List.singleton_append] at hmore
    exact hbefore d₁ v d₂ rfl hmore

/-- A cut behind an ambiguous character changes the events. -/
theorem exists_cut {text : JsString} (h : ¬Unambiguous (.text []) text) :
    ∃ pieces, IsCut text pieces ∧
      events (StdinBuffer.processAll {} pieces).1 ≠ events (StdinBuffer.processAll {} [text]).1 := by
  obtain ⟨d, u, w, rfl, hambiguous, hbefore⟩ := exists_ambiguous h
  cases hmode : (readAll (.text []) d).2 with
  | paste content =>
    rw [hmode] at hambiguous
    exact hambiguous.elim
  | text candidate =>
    have hvalid : (Mode.text candidate).Valid := hmode ▸ valid_text_nil.readAll d
    rw [hmode] at hambiguous
    have hne : w ≠ [] := fun hnil => not_ambiguous_nil _ _ (hnil ▸ hambiguous)
    have hread : read (.text candidate) u = ([.data (candidate ++ [u])], .text []) := by
      rw [read]
      simp only [if_neg hambiguous.1, if_neg hambiguous.2.1]
    have hcut : StdinBuffer.process {} (d ++ [u])
        = emitted none (prepend (readAll (.text []) d).1 ([.data (candidate ++ [u])], .text [])) := by
      have hpiece : StdinBuffer.process {} (d ++ [u]) = emitted none (readAll (.text []) (d ++ [u])) :=
        process_through_ambiguous valid_text_nil hbefore
      rw [readAll_append, hmode, readAll, hread] at hpiece
      exact hpiece
    have hwhole : StdinBuffer.process {} (d ++ u :: w)
        = emitted none (prepend (readAll (.text []) d).1 (scanFrom (.text candidate) (u :: w))) := by
      have hpiece : StdinBuffer.process {} (d ++ u :: w) = emitted none (scanFrom (.text []) (d ++ u :: w)) :=
        process_eq (.text []) none (not_empty_call (by simp))
      rw [scanFrom_append valid_text_nil hbefore, hmode] at hpiece
      exact hpiece
    refine ⟨[d ++ [u], w], ⟨by simp, by simp [Ne.symm hne]⟩, fun heq => ?_⟩
    have hprintable : Printable (emitTokens none (readAll (.text []) d).1).2 :=
      emitTokens_printable (by rintro _ ⟨⟩) _
    simp only [StdinBuffer.processAll, hcut, hwhole, emitted_prepend, List.append_nil, events_append,
      List.append_assoc, List.append_cancel_left_eq] at heq
    have hhead := hambiguous.head_ne hvalid hprintable
    refine hhead ?_
    rw [← heq]
    simp [emitted, emitTokens, emitToken, emitDataSequence_of_length hambiguous.length_ne, events]

/-- Where the input is cut does not matter if and only if no character of it is ambiguous. -/
theorem chunking_invariant_iff (text : JsString) :
    (∀ a b, IsCut text a → IsCut text b →
      events (StdinBuffer.processAll {} a).1 = events (StdinBuffer.processAll {} b).1 ∧
        (StdinBuffer.processAll {} a).2.buffer = (StdinBuffer.processAll {} b).2.buffer ∧
        (StdinBuffer.processAll {} a).2.pasteBuffer = (StdinBuffer.processAll {} b).2.pasteBuffer)
      ↔ Unambiguous (.text []) text := by
  constructor
  · intro hsame
    by_contra hambiguous
    obtain ⟨pieces, hpieces, hne⟩ := exists_cut hambiguous
    have htext : IsCut text [text] := by
      refine ⟨by simp, ?_⟩
      rw [List.mem_singleton]
      rintro rfl
      exact hambiguous trivial
    exact hne (hsame pieces [text] hpieces htext).1
  · intro hunambiguous a b ha hb
    have hcut : ∀ pieces, IsCut text pieces → StdinBuffer.processAll {} pieces
        = emitted none (readAll (.text []) text) := by
      rintro pieces ⟨rfl, hne⟩
      exact processAll_unambiguous valid_text_nil hne hunambiguous
    rw [hcut a ha, hcut b hb]
    exact ⟨rfl, rfl, rfl⟩

/-- A call without a paste marker. -/
theorem process_of_none {candidate data : JsString} {pending : Option ℕ} (hdata : data ≠ [])
    (h : indexOf pasteStart (candidate ++ data) = none) :
    StdinBuffer.process ⟨candidate, false, [], pending⟩ data
      = ((emitDataSequences pending (extractCompleteSequences [] (candidate ++ data)).1).1,
        ⟨(extractCompleteSequences [] (candidate ++ data)).2, false, [],
          (emitDataSequences pending (extractCompleteSequences [] (candidate ++ data)).1).2⟩) := by
  have hpiece : ((Mode.text candidate).toBuffer pending).process data = emitted pending (scanFrom (.text candidate) data) :=
    process_eq (.text candidate) pending (not_empty_call hdata)
  rw [scanFrom, scan_of_none h, emitted, emitTokens_data] at hpiece
  exact hpiece

/-- The Escape key and the Up key: cut between them, they are Escape twice and two characters. -/
theorem escape_before_arrow_cut :
    ¬∀ a b, IsCut [27, 27, 91, 65] a → IsCut [27, 27, 91, 65] b →
      events (StdinBuffer.processAll {} a).1 = events (StdinBuffer.processAll {} b).1 ∧
        (StdinBuffer.processAll {} a).2.buffer = (StdinBuffer.processAll {} b).2.buffer ∧
        (StdinBuffer.processAll {} a).2.pasteBuffer = (StdinBuffer.processAll {} b).2.pasteBuffer := by
  intro h
  have hsame := (h [[27, 27, 91, 65]] [[27, 27], [91, 65]] ⟨rfl, by decide⟩ ⟨rfl, by decide⟩).1
  have hwhole : StdinBuffer.process {} [27, 27, 91, 65] = ([.data [27], .data [27, 91, 65]], {}) :=
    process_of_none (by decide) (by decide)
  have hescapes : StdinBuffer.process {} [27, 27] = ([.data [27, 27]], {}) :=
    process_of_none (by decide) (by decide)
  have hrest : StdinBuffer.process {} [91, 65] = ([.data [91], .data [65]], {}) :=
    process_of_none (by decide) (by decide)
  simp only [StdinBuffer.processAll, hwhole, hescapes, hrest] at hsame
  exact absurd hsame (by decide)

end Phi.Tui
