import Phi.Tui.StdinBuffer

/-!
# Reading the input

`read` is how the input is read when every character arrives alone, and `scan` is how one call reads a piece of it:
`scan_cons` says that they agree on the next character unless that character is `Ambiguous`.

A character is ambiguous if it completes a sequence and what follows would have been read otherwise together with it: a
second ESC in front of the beginning of a sequence, or the end of a sequence inside a paste marker.
-/

namespace Phi.Tui

/-! ## Tokens -/

/-- What is found in the input, before duplicates are suppressed. -/
inductive Token where
  | data (sequence : JsString)
  /-- A paste starts, and an incomplete sequence in front of it is dropped. -/
  | pasteStart (dropped : JsString)
  | paste (content : JsString)

/-- What waits for more input. -/
inductive Mode where
  | text (candidate : JsString)
  | paste (content : JsString)

/-- Tokens that come before others. -/
def prepend (tokens : List Token) (result : List Token × Mode) : List Token × Mode := (tokens ++ result.1, result.2)

/-- One call, outside of a paste. -/
def scan (text : JsString) : List Token × Mode :=
  match indexOf pasteStart text with
  | some startIndex =>
    let (sequences, remainder) := extractCompleteSequences [] (text.take startIndex)
    let pasteBuffer := text.drop (startIndex + pasteStart.length)
    match hsplit : splitPaste pasteBuffer with
    | some (content, remaining) =>
      prepend (sequences.map .data ++ [.pasteStart remainder, .paste content]) (scan remaining)
    | none => (sequences.map .data ++ [.pasteStart remainder], .paste pasteBuffer)
  | none =>
    let (sequences, remainder) := extractCompleteSequences [] text
    (sequences.map .data, .text remainder)
termination_by text.length
decreasing_by
  have h := splitPaste_length hsplit
  rw [List.length_drop] at h
  omega

/-- One call, inside a paste. -/
def scanPaste (pasteBuffer : JsString) : List Token × Mode :=
  match splitPaste pasteBuffer with
  | some (content, remaining) => prepend [.paste content] (scan remaining)
  | none => ([], .paste pasteBuffer)

def scanFrom : Mode → JsString → List Token × Mode
  | .text candidate, data => scan (candidate ++ data)
  | .paste content, data => scanPaste (content ++ data)

/-- How a single character is read. -/
def read : Mode → UInt16 → List Token × Mode
  | .text candidate, u =>
    let candidate := candidate ++ [u]
    if pasteStart <:+ candidate then ([.pasteStart (candidate.take (candidate.length - pasteStart.length))], .paste [])
    else if isCompleteSequence candidate = .incomplete then ([], .text candidate)
    else ([.data candidate], .text [])
  | .paste content, u =>
    let content := content ++ [u]
    if pasteEnd <:+ content then ([.paste (content.take (content.length - pasteEnd.length))], .text [])
    else ([], .paste content)

/-- The character completes a sequence that would have been read otherwise together with what follows. -/
def Ambiguous : Mode → UInt16 → JsString → Prop
  | .text candidate, u, rest =>
    ¬pasteStart <:+ candidate ++ [u] ∧ isCompleteSequence (candidate ++ [u]) ≠ .incomplete ∧
      ((candidate ++ [u] = [esc, esc] ∧ rest.head?.any opensSequence = true) ∨
        ∃ before behind, pasteStart = before ++ behind ∧ before ≠ [] ∧ behind ≠ [] ∧
          before <:+ candidate ++ [u] ∧ behind <+: rest)
  | .paste _, _, _ => False

/-- What can be waiting: an incomplete sequence without a start marker, or pasted text without an end marker. -/
def Mode.Valid : Mode → Prop
  | .text candidate => (∀ front, front <+: candidate → front ≠ [] → isCompleteSequence front = .incomplete) ∧
      indexOf pasteStart candidate = none
  | .paste content => indexOf pasteEnd content = none

theorem prepend_prepend (a b : List Token) (r : List Token × Mode) : prepend a (prepend b r) = prepend (a ++ b) r := by
  simp [prepend]

theorem scan_of_indexOf {text : JsString} {startIndex : ℕ} (h : indexOf pasteStart text = some startIndex) :
    scan text = prepend ((extractCompleteSequences [] (text.take startIndex)).1.map .data
        ++ [.pasteStart (extractCompleteSequences [] (text.take startIndex)).2])
      (scanPaste (text.drop (startIndex + pasteStart.length))) := by
  rw [scan, h]
  dsimp only
  split
  next content remaining hsplit => simp [scanPaste, hsplit, prepend]
  next hsplit => simp [scanPaste, hsplit, prepend]

theorem scan_of_none {text : JsString} (h : indexOf pasteStart text = none) :
    scan text = ((extractCompleteSequences [] text).1.map .data, .text (extractCompleteSequences [] text).2) := by
  rw [scan, h]

/-! ## One character -/

section
variable {α : Type} [DecidableEq α] {pattern : List α}

/-- A find that begins in the first part lies in it, or reaches into the second. -/
theorem occursAt_append {a w : List α} {i : ℕ} (hi : i < a.length) (h : OccursAt pattern (a ++ w) i) :
    OccursAt pattern a i ∨ ∃ before behind, pattern = before ++ behind ∧ before ≠ [] ∧ behind ≠ [] ∧
      before <:+ a ∧ behind <+: w := by
  obtain ⟨-, hpre⟩ := h
  rw [List.drop_append_of_le_length hi.le] at hpre
  rcases le_or_gt pattern.length (a.drop i).length with hle | hgt
  · exact .inl ⟨hi.le, List.prefix_of_prefix_length_le hpre (List.prefix_append _ _) hle⟩
  · have hfront : a.drop i <+: pattern := List.prefix_of_prefix_length_le (List.prefix_append _ _) hpre hgt.le
    obtain ⟨behind, rfl⟩ := hfront
    refine .inr ⟨a.drop i, behind, rfl, ?_, ?_, List.drop_suffix i a, ?_⟩
    · rw [ne_eq, List.drop_eq_nil_iff]
      omega
    · rintro rfl
      simp at hgt
    · exact (List.prefix_append_right_inj _).mp hpre

/-- A find in a text that was extended by one element is one in the text, or ends with the element. -/
theorem occursAt_concat (hp : pattern ≠ []) {a : List α} {x : α} {i : ℕ} (h : OccursAt pattern (a ++ [x]) i) :
    OccursAt pattern a i ∨ pattern <:+ a ++ [x] := by
  obtain ⟨hi, hpre⟩ := h
  rcases lt_or_ge (i + pattern.length) (a ++ [x]).length with hlt | hge
  · refine .inl ⟨?_, ?_⟩
    · rw [List.length_append, List.length_singleton] at hlt
      have := List.length_pos_iff.mpr hp
      omega
    · rw [List.length_append, List.length_singleton] at hlt
      have hia : i ≤ a.length := by omega
      rw [List.drop_append_of_le_length hia] at hpre
      refine List.prefix_of_prefix_length_le hpre (List.prefix_append _ _) ?_
      rw [List.length_drop]
      omega
  · refine .inr ?_
    have heq : pattern = (a ++ [x]).drop i := by
      refine hpre.eq_of_length (le_antisymm hpre.length_le ?_)
      rw [List.length_drop]
      omega
    rw [heq]
    exact List.drop_suffix _ _

theorem indexOf_concat_eq_none (hp : pattern ≠ []) {a : List α} {x : α} (hnone : indexOf pattern a = none)
    (h : ¬pattern <:+ a ++ [x]) : indexOf pattern (a ++ [x]) = none := by
  cases hi : indexOf pattern (a ++ [x]) with
  | none => rfl
  | some i =>
    rcases occursAt_concat hp (indexOf_eq_some hi).1 with hbefore | hsuffix
    · exact absurd hbefore (indexOf_eq_none hnone i)
    · exact absurd hsuffix h

theorem indexOf_append_of_forall {a b : List α} (h : ∀ i < a.length, ¬OccursAt pattern (a ++ b) i) :
    indexOf pattern (a ++ b) = (indexOf pattern b).map (· + a.length) := by
  induction a with
  | nil => simp
  | cons x a ih =>
    have hhead : ¬pattern <+: x :: (a ++ b) := by
      have := h 0 (by simp)
      rwa [occursAt_zero] at this
    rw [List.cons_append, indexOf, if_neg hhead, ih, Option.map_map]
    · congr 1
    · intro i hi hocc
      exact h (i + 1) (by simpa using hi) (occursAt_succ.mpr hocc)

theorem indexOf_eq_length {a b : List α} (hp : pattern ≠ [])
    (h : ∀ i < a.length, ¬OccursAt pattern (a ++ (pattern ++ b)) i) :
    indexOf pattern (a ++ (pattern ++ b)) = some a.length := by
  have hzero : indexOf pattern (pattern ++ b) = some 0 := by
    cases hcase : pattern ++ b with
    | nil => exact absurd (List.append_eq_nil_iff.mp hcase).1 hp
    | cons x rest =>
      rw [indexOf, if_pos]
      rw [← hcase]
      exact List.prefix_append _ _
  rw [indexOf_append_of_forall h, hzero]
  simp

/-- Nothing occurs before a find that ends with the last element, if nothing occurred without it. -/
theorem indexOf_of_suffix (hp : pattern ≠ []) {a front : List α} {x : α} (hnone : indexOf pattern a = none)
    (heq : a ++ [x] = front ++ pattern) (w : List α) : indexOf pattern (a ++ [x] ++ w) = some front.length := by
  rw [heq, List.append_assoc]
  refine indexOf_eq_length hp fun i hi hocc => ?_
  have hlen : a.length + 1 = front.length + pattern.length := by
    have := congrArg List.length heq
    simpa using this
  have hinside : OccursAt pattern a i := by
    refine ⟨by omega, ?_⟩
    have hpre := hocc.2
    rw [← List.append_assoc, ← heq, List.append_assoc, List.drop_append_of_le_length (by omega)] at hpre
    refine List.prefix_of_prefix_length_le hpre (List.prefix_append _ _) ?_
    rw [List.length_drop]
    omega
  exact indexOf_eq_none hnone i hinside

end

theorem extract_append {candidate front : JsString} (rest : JsString)
    (h : ∀ part, part <+: front → part ≠ [] → isCompleteSequence (candidate ++ part) = .incomplete) :
    extractCompleteSequences candidate (front ++ rest) = extractCompleteSequences (candidate ++ front) rest := by
  induction front generalizing candidate with
  | nil => simp
  | cons u front ih =>
    have hhead : isCompleteSequence (candidate ++ [u]) = .incomplete :=
      h [u] (List.prefix_append [u] front) (by simp)
    rw [List.cons_append, extractCompleteSequences]
    simp only [hhead]
    rw [ih, List.append_assoc]
    · rfl
    · intro part hpart hne
      rw [List.append_assoc]
      exact h (u :: part) ((List.prefix_cons_inj u).mpr hpart) (by simp)

theorem Mode.Valid.extract {candidate : JsString} (h : (Mode.text candidate).Valid) (rest : JsString) :
    extractCompleteSequences [] (candidate ++ rest) = extractCompleteSequences candidate rest := by
  have happend : extractCompleteSequences [] (candidate ++ rest) = extractCompleteSequences ([] ++ candidate) rest :=
    extract_append rest fun part hpart hne => h.1 part hpart hne
  rwa [List.nil_append] at happend

/-- A sequence that is complete, and is not the first of two ESC that belong apart. -/
theorem extract_complete {candidate : JsString} {u : UInt16} {rest : JsString}
    (hvalid : (Mode.text candidate).Valid) (hcomplete : isCompleteSequence (candidate ++ [u]) ≠ .incomplete)
    (hesc : ¬(candidate ++ [u] = [esc, esc] ∧ rest.head?.any opensSequence = true)) :
    extractCompleteSequences [] (candidate ++ [u] ++ rest)
      = ((candidate ++ [u]) :: (extractCompleteSequences [] rest).1, (extractCompleteSequences [] rest).2) := by
  rw [List.append_assoc, hvalid.extract, List.singleton_append, extractCompleteSequences]
  cases hstatus : isCompleteSequence (candidate ++ [u]) with
  | incomplete => exact absurd hstatus hcomplete
  | complete => simp only [if_neg hesc]
  | notEscape => rfl

/-- What is not a sequence yet is the remainder. -/
theorem Mode.Valid.extract_front {candidate front : JsString} (h : (Mode.text candidate).Valid)
    (hfront : front <+: candidate) : extractCompleteSequences [] front = ([], front) := by
  have happend : extractCompleteSequences [] (front ++ []) = extractCompleteSequences ([] ++ front) [] :=
    extract_append [] fun part hpart hne => h.1 part (hpart.trans hfront) hne
  rw [List.append_nil, List.nil_append] at happend
  rw [happend, extractCompleteSequences]

theorem pasteStart_ne_nil : pasteStart ≠ [] := by decide

theorem pasteEnd_ne_nil : pasteEnd ≠ [] := by decide

theorem take_length_sub {α : Type} (a b : List α) : (a ++ b).take ((a ++ b).length - b.length) = a := by
  rw [List.length_append, Nat.add_sub_cancel, List.take_left]

theorem splitPaste_of_suffix {content front : JsString} {u : UInt16} (hvalid : (Mode.paste content).Valid)
    (heq : content ++ [u] = front ++ pasteEnd) (w : JsString) :
    splitPaste (content ++ [u] ++ w) = some (front, w) := by
  have hindex := indexOf_of_suffix pasteEnd_ne_nil hvalid heq w
  rw [splitPaste, hindex, heq, Option.map_some, List.append_assoc, List.take_left, ← List.append_assoc,
    ← List.length_append, List.drop_left]

/-- The start marker is complete: what is before it is dropped, and the paste begins. -/
theorem scan_pasteStart {candidate front : JsString} {u : UInt16} (hvalid : (Mode.text candidate).Valid)
    (heq : candidate ++ [u] = front ++ pasteStart) (w : JsString) :
    scan (candidate ++ [u] ++ w) = prepend [.pasteStart front] (scanPaste w) := by
  have hfront : front <+: candidate := by
    have hpre : front <+: candidate ++ [u] := heq ▸ List.prefix_append front pasteStart
    refine List.prefix_of_prefix_length_le hpre (List.prefix_append _ _) ?_
    have hlen := congrArg List.length heq
    rw [List.length_append, List.length_append, List.length_singleton, show pasteStart.length = 6 from rfl] at hlen
    omega
  have htake : (candidate ++ [u] ++ w).take front.length = front := by rw [heq, List.append_assoc, List.take_left]
  have hdrop : (candidate ++ [u] ++ w).drop (front.length + pasteStart.length) = w := by
    rw [heq, ← List.length_append, List.drop_left]
  rw [scan_of_indexOf (indexOf_of_suffix pasteStart_ne_nil hvalid.2 heq w), htake, hdrop, hvalid.extract_front hfront]
  rfl

/-- A start marker lies in what comes after a sequence, unless it reaches into it. -/
theorem indexOf_pasteStart_append {candidate : JsString} {u : UInt16} {w : JsString}
    (hvalid : (Mode.text candidate).Valid) (hstart : ¬pasteStart <:+ candidate ++ [u])
    (hcross : ¬∃ before behind, pasteStart = before ++ behind ∧ before ≠ [] ∧ behind ≠ [] ∧
      before <:+ candidate ++ [u] ∧ behind <+: w) :
    indexOf pasteStart (candidate ++ [u] ++ w) = (indexOf pasteStart w).map (· + (candidate ++ [u]).length) := by
  refine indexOf_append_of_forall fun i hi hocc => ?_
  rcases occursAt_append hi hocc with hinside | hreach
  · rcases occursAt_concat pasteStart_ne_nil hinside with hbefore | hsuffix
    · exact indexOf_eq_none hvalid.2 i hbefore
    · exact hstart hsuffix
  · exact hcross hreach

/-- A sequence that is found before everything else. -/
theorem scan_append {first text behind sequence : JsString}
    (hfirst : indexOf pasteStart (first ++ text) = (indexOf pasteStart text).map (· + first.length))
    (hbehind : indexOf pasteStart (behind ++ text) = (indexOf pasteStart text).map (· + behind.length))
    (hextract : ∀ rest, rest <+: text → extractCompleteSequences [] (first ++ rest)
      = (sequence :: (extractCompleteSequences [] (behind ++ rest)).1, (extractCompleteSequences [] (behind ++ rest)).2)) :
    scan (first ++ text) = prepend [.data sequence] (scan (behind ++ text)) := by
  cases hi : indexOf pasteStart text with
  | none =>
    rw [hi] at hfirst hbehind
    rw [scan_of_none hfirst, scan_of_none hbehind, hextract text List.prefix_rfl]
    rfl
  | some i =>
    rw [hi] at hfirst hbehind
    have htake : ∀ a : JsString, (a ++ text).take (i + a.length) = a ++ text.take i := fun a => by
      rw [Nat.add_comm, List.take_length_add_append]
    have hdrop : ∀ a : JsString, (a ++ text).drop (i + a.length + pasteStart.length)
        = text.drop (i + pasteStart.length) := fun a => by
      rw [show i + a.length + pasteStart.length = a.length + (i + pasteStart.length) by omega,
        List.drop_length_add_append]
    rw [scan_of_indexOf hfirst, scan_of_indexOf hbehind, htake, htake, hdrop, hdrop,
      hextract _ (List.take_prefix i text), prepend_prepend]
    rfl

/-- One call reads an unambiguous character as if it had arrived alone. -/
theorem scan_cons {m : Mode} {u : UInt16} {w : JsString} (hvalid : m.Valid) (h : ¬Ambiguous m u w) :
    scanFrom m (u :: w) = prepend (read m u).1 (scanFrom (read m u).2 w) := by
  cases m with
  | text candidate =>
    have hcons : candidate ++ u :: w = candidate ++ [u] ++ w := by simp
    rw [scanFrom, hcons, read]
    split_ifs with hstart hincomplete
    · obtain ⟨front, heq⟩ := hstart
      rw [← heq, take_length_sub, heq, scan_pasteStart hvalid heq.symm]
      rfl
    · simp [prepend, scanFrom]
    · have hcross : ¬∃ before behind, pasteStart = before ++ behind ∧ before ≠ [] ∧ behind ≠ [] ∧
          before <:+ candidate ++ [u] ∧ behind <+: w := fun hreach => h ⟨hstart, hincomplete, .inr hreach⟩
      have hesc : ¬(candidate ++ [u] = [esc, esc] ∧ w.head?.any opensSequence = true) := fun hesc =>
        h ⟨hstart, hincomplete, .inl hesc⟩
      refine scan_append (indexOf_pasteStart_append hvalid hstart hcross) (by simp) fun rest hrest => ?_
      refine extract_complete hvalid hincomplete fun hopen => hesc ⟨hopen.1, ?_⟩
      obtain ⟨more, rfl⟩ := hrest
      cases rest with
      | nil => simp at hopen
      | cons first rest => simpa using hopen.2
  | paste content =>
    have hcons : content ++ u :: w = content ++ [u] ++ w := by simp
    rw [scanFrom, hcons, read]
    split_ifs with hend
    · obtain ⟨front, heq⟩ := hend
      rw [← heq, take_length_sub, heq, scanPaste, splitPaste_of_suffix hvalid heq.symm]
      rfl
    · simp [prepend, scanFrom]

theorem valid_text_nil : (Mode.text []).Valid :=
  ⟨fun _ hfront hne => absurd (List.prefix_nil.mp hfront) hne, rfl⟩

theorem Mode.Valid.read {m : Mode} (h : m.Valid) (u : UInt16) : (read m u).2.Valid := by
  cases m with
  | text candidate =>
    rw [Tui.read]
    split_ifs with hstart hincomplete
    · rfl
    · refine ⟨fun front hfront hne => ?_, ?_⟩
      · rcases List.prefix_concat_iff.mp hfront with rfl | hfront
        · exact hincomplete
        · exact h.1 front hfront hne
      · exact indexOf_concat_eq_none pasteStart_ne_nil h.2 hstart
    · exact valid_text_nil
  | paste content =>
    rw [Tui.read]
    split_ifs with hend
    · exact valid_text_nil
    · exact indexOf_concat_eq_none pasteEnd_ne_nil h hend

/-! ## Whole inputs -/

def readAll (m : Mode) : JsString → List Token × Mode
  | [] => ([], m)
  | u :: text => prepend (read m u).1 (readAll (read m u).2 text)

/-- No character is ambiguous, in front of what comes after it. -/
def Unambiguous (m : Mode) : JsString → Prop
  | [] => True
  | u :: text => ¬Ambiguous m u text ∧ Unambiguous (read m u).2 text

theorem scanFrom_nil {m : Mode} (h : m.Valid) : scanFrom m [] = ([], m) := by
  cases m with
  | text candidate =>
    rw [scanFrom, List.append_nil, scan_of_none h.2, h.extract_front List.prefix_rfl]
    rfl
  | paste content =>
    rw [scanFrom, List.append_nil, scanPaste, splitPaste, h]
    rfl

/-- One call agrees with reading character by character as far as nothing is ambiguous. -/
theorem scanFrom_append {m : Mode} {text rest : JsString} (hvalid : m.Valid)
    (h : ∀ d u w, text = d ++ u :: w → ¬Ambiguous (readAll m d).2 u (w ++ rest)) :
    scanFrom m (text ++ rest) = prepend (readAll m text).1 (scanFrom (readAll m text).2 rest) := by
  induction text generalizing m with
  | nil => simp [readAll, prepend]
  | cons u text ih =>
    rw [List.cons_append, scan_cons hvalid (h [] u text rfl), ih (hvalid.read u), prepend_prepend]
    · rfl
    · intro d v w heq
      exact h (u :: d) v w (by rw [heq]; rfl)

theorem Mode.Valid.readAll {m : Mode} (h : m.Valid) (text : JsString) : (readAll m text).2.Valid := by
  induction text generalizing m with
  | nil => exact h
  | cons u text ih => exact ih (h.read u)

end Phi.Tui
