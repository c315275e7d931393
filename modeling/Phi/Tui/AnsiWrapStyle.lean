import Phi.Tui.AnsiTracker
import Phi.Tui.AnsiWrap

/-!
# Wrapped lines keep their styles

Every line begins with the codes that are active, so a terminal shows it in the style that it would have in the whole text.
What is left out between lines is white space only, and a line that is broken takes its underline and its hyperlink back.
Where lines are broken does not matter for this; so the widths of texts may be any numbers.
-/

namespace Phi.Tui.Ansi

/-- What is shown of a line by itself. -/
def shownAlone (line : JsString) : List (UInt16 × Style) := shown {} (pieces line)

def styleAlone (line : JsString) : Style := styleAfter {} (pieces line)

/-- Neither an underline nor a hyperlink is left open. -/
def Closed (line : JsString) : Prop := (styleAlone line).underline = false ∧ (styleAlone line).link = none

/-! ## Ends of lines -/

theorem isWhiteSpace_ne {u : UInt16} (hu : Edit.isWhiteSpace u = true) : u ≠ 7 ∧ u ≠ 27 ∧ u ≠ 92 ∧ u ≠ 109 := by
  refine ⟨?_, ?_, ?_, ?_⟩ <;> rintro rfl <;> exact absurd hu (by decide)

theorem shown_whiteSpace {text : JsString} (h : ∀ u ∈ text, Edit.isWhiteSpace u = true) (s : Style) :
    shown s (pieces text) = [] ∧ styleAfter s (pieces text) = s := by
  rw [pieces_units fun u hu => (isWhiteSpace_ne (h u hu)).2.1]
  induction text with
  | nil => exact ⟨rfl, rfl⟩
  | cons u text ih =>
    rw [List.forall_mem_cons] at h
    rw [List.map_cons, shown, styleAfter, if_pos h.1]
    exact ih h.2

theorem ListedCode.getLast_not_whiteSpace {c : JsString} (h : ListedCode c) : ∀ u ∈ c.getLast?, Edit.isWhiteSpace u = false := by
  intro u hu
  cases h with
  | @sgr gs hparams =>
    rw [getLast?_sgrCode, Option.mem_some_iff] at hu
    rw [← hu]
    rfl
  | hyperlink hlink =>
    rw [formatOsc8Hyperlink, List.getLast?_append] at hu
    rcases hlink.terminator with hterm | hterm <;> rw [hterm] at hu <;> obtain rfl := Option.mem_some_iff.mp hu <;> rfl

theorem styleAfter_units {text : JsString} (h : ∀ u ∈ text, u ≠ 27) (s : Style) : styleAfter s (pieces text) = s := by
  rw [pieces_units h]
  clear h
  induction text with
  | nil => rfl
  | cons u text ih => exact ih

/-- What is trimmed is white space, and no part of a code. -/
theorem Listed.exists_trimEnd {text : JsString} (h : Listed text) :
    ∃ blank, text = Edit.trimEnd text ++ blank ∧ (∀ u ∈ blank, Edit.isWhiteSpace u = true) ∧ Listed (Edit.trimEnd text) := by
  have hgoal : ∀ ps : List Piece, (∀ p ∈ ps, p.Listed) → ∃ blank, piecesText ps = Edit.trimEnd (piecesText ps) ++ blank ∧
      (∀ u ∈ blank, Edit.isWhiteSpace u = true) ∧ Listed (Edit.trimEnd (piecesText ps)) := by
    intro ps hps
    induction ps using List.reverseRecOn with
    | nil => exact ⟨[], rfl, by simp, listed_nil⟩
    | append_singleton ps p ih =>
      have hinit : ∀ q ∈ ps, q.Listed := fun q hq => hps q (List.mem_append_left _ hq)
      have hp : p.Listed := hps p (List.mem_append_right _ (List.mem_singleton_self p))
      have htext : piecesText (ps ++ [p]) = piecesText ps ++ p.text := by simp [piecesText]
      have hkept : (∀ u ∈ p.text.getLast?, Edit.isWhiteSpace u = false) → p.text ≠ [] →
          ∃ blank, piecesText (ps ++ [p]) = Edit.trimEnd (piecesText (ps ++ [p])) ++ blank ∧
            (∀ u ∈ blank, Edit.isWhiteSpace u = true) ∧ Listed (Edit.trimEnd (piecesText (ps ++ [p]))) := by
        intro hlast hne
        have htrim : Edit.trimEnd (piecesText (ps ++ [p])) = piecesText (ps ++ [p]) := by
          rw [htext, Edit.trimEnd, List.rdropWhile_eq_self_iff]
          intro hnil
          rw [List.getLast_append_of_ne_nil hnil hne]
          have hmem := hlast (p.text.getLast hne) (List.getLast?_eq_some_getLast hne)
          rw [hmem]
          exact Bool.false_ne_true
        exact ⟨[], by rw [htrim, List.append_nil], by simp, by rw [htrim]; exact listed_piecesText hps⟩
      cases p with
      | code c => exact hkept (ListedCode.getLast_not_whiteSpace hp) (List.ne_nil_of_length_pos (ListedCode.length_pos hp))
      | unit u =>
        cases hu : Edit.isWhiteSpace u with
        | false => exact hkept (by simpa [Piece.text] using hu) (by simp [Piece.text])
        | true =>
          rcases ih hinit with ⟨blank, hblank, hwhite, hlisted⟩
          have htrim : Edit.trimEnd (piecesText (ps ++ [.unit u])) = Edit.trimEnd (piecesText ps) := by
            rw [htext, Edit.trimEnd, Piece.text, List.rdropWhile_concat_pos _ _ _ hu, ← Edit.trimEnd]
          refine ⟨blank ++ [u], ?_, ?_, ?_⟩
          · rw [htrim, htext, ← List.append_assoc, ← hblank]
            rfl
          · intro v hv
            rcases List.mem_append.mp hv with hv | hv
            · exact hwhite v hv
            · rw [List.mem_singleton.mp hv]
              exact hu
          · rw [htrim]
            exact hlisted
  have hpieces := hgoal (pieces text) h
  rwa [piecesText_pieces] at hpieces

theorem Listed.trimEnd {text : JsString} (h : Listed text) : Listed (Edit.trimEnd text) ∧
    shownAlone (Edit.trimEnd text) = shownAlone text ∧ styleAlone (Edit.trimEnd text) = styleAlone text := by
  rcases h.exists_trimEnd with ⟨blank, htext, hblank, hlisted⟩
  have hshown : shownAlone text = shownAlone (Edit.trimEnd text ++ blank) := congrArg shownAlone htext
  have hstyle : styleAlone text = styleAlone (Edit.trimEnd text ++ blank) := congrArg styleAlone htext
  refine ⟨hlisted, ?_, ?_⟩
  · rw [hshown, shownAlone, shownAlone, hlisted.shown_append, (shown_whiteSpace hblank _).1, List.append_nil]
  · rw [hstyle, styleAlone, styleAlone, hlisted.styleAfter_append, (shown_whiteSpace hblank _).2]

/-! ## Segments -/

/-- A segment is a listed code, or units without an escape. -/
def AnsiSegment.Listed : AnsiSegment → Prop
  | .ansi c => ListedCode c
  | .grapheme g => ∀ u ∈ g, u ≠ 27

theorem AnsiSegment.Listed.text {seg : AnsiSegment} (h : seg.Listed) : Ansi.Listed seg.value := by
  cases seg with
  | ansi c => exact ListedCode.listed h
  | grapheme g => exact listed_units h

section

variable {graphemes : JsString → List JsString} (hgraphemes : ∀ text, (graphemes text).flatten = text)
  (graphemeWidth : JsString → ℕ)

include hgraphemes

theorem graphemesOf_spec {text : JsString} (h : ∀ u ∈ text, u ≠ 27) :
    (∀ seg ∈ graphemesOf graphemes text, seg.Listed) ∧ (graphemesOf graphemes text).flatMap AnsiSegment.value = text := by
  unfold graphemesOf
  split
  · rename_i hnil
    rw [hnil]
    exact ⟨by simp, rfl⟩
  · refine ⟨fun seg hseg => ?_, ?_⟩
    · rcases List.mem_map.mp hseg with ⟨g, hg, rfl⟩
      intro u hu
      refine h u ?_
      rw [← hgraphemes text]
      exact List.mem_flatten.mpr ⟨g, hg, hu⟩
    · rw [List.flatMap_map]
      exact List.flatMap_id.trans (hgraphemes text)

theorem segmentsFrom_spec {ps : List Piece} (hps : ∀ p ∈ ps, p.Listed) (waiting : JsString)
    (hwaiting : ∀ u ∈ waiting, u ≠ 27) :
    (∀ seg ∈ segmentsFrom graphemes waiting ps, seg.Listed) ∧
      (segmentsFrom graphemes waiting ps).flatMap AnsiSegment.value = waiting ++ piecesText ps := by
  induction ps generalizing waiting with
  | nil =>
    rw [segmentsFrom, piecesText, List.flatMap_nil, List.append_nil]
    exact graphemesOf_spec hgraphemes hwaiting
  | cons p ps ih =>
    rw [List.forall_mem_cons] at hps
    cases p with
    | code c =>
      rcases graphemesOf_spec hgraphemes hwaiting with ⟨hfront, htext⟩
      rcases ih hps.2 [] (by simp) with ⟨hrest, hrestText⟩
      rw [segmentsFrom]
      refine ⟨fun seg hseg => ?_, ?_⟩
      · rcases List.mem_append.mp hseg with hseg | hseg
        · exact hfront seg hseg
        · rcases List.mem_cons.mp hseg with rfl | hseg
          · exact hps.1
          · exact hrest seg hseg
      · rw [List.flatMap_append, htext, List.flatMap_cons, hrestText]
        rfl
    | unit u =>
      have hnext : ∀ v ∈ waiting ++ [u], v ≠ 27 := by
        intro v hv
        rcases List.mem_append.mp hv with hv | hv
        · exact hwaiting v hv
        · rw [List.mem_singleton.mp hv]
          exact hps.1
      rcases ih hps.2 _ hnext with ⟨hlisted, htext⟩
      rw [segmentsFrom]
      refine ⟨hlisted, htext.trans ?_⟩
      rw [List.append_assoc]
      rfl

theorem segments_spec {text : JsString} (h : Listed text) :
    (∀ seg ∈ segments graphemes text, seg.Listed) ∧ (segments graphemes text).flatMap AnsiSegment.value = text := by
  have hspec := segmentsFrom_spec hgraphemes h [] (by simp)
  rwa [List.nil_append, piecesText_pieces] at hspec

/-! ## Tokens -/

/-- The tokens, what is gathered and the codes that wait are what has been read. -/
structure TokenState.Reads (s : TokenState) (text : JsString) : Prop where
  tokens : ∀ token ∈ s.tokens, Listed token
  current : Listed s.current
  pendingAnsi : Listed s.pendingAnsi
  text : s.tokens.flatten ++ s.current ++ s.pendingAnsi = text

omit hgraphemes in
theorem TokenState.Reads.flushCurrent {s : TokenState} {text : JsString} (h : s.Reads text) :
    s.flushCurrent.Reads text ∧ s.flushCurrent.current = [] ∧ s.flushCurrent.pendingAnsi = s.pendingAnsi := by
  unfold TokenState.flushCurrent
  split
  · rename_i hnil
    exact ⟨h, hnil, rfl⟩
  · refine ⟨⟨fun token htoken => ?_, listed_nil, h.pendingAnsi, ?_⟩, rfl, rfl⟩
    · rcases List.mem_append.mp htoken with htoken | htoken
      · exact h.tokens token htoken
      · rw [List.mem_singleton.mp htoken]
        exact h.current
    · rw [← h.text]
      simp

omit hgraphemes in
theorem TokenState.Reads.addSegment {s : TokenState} {text : JsString} (h : s.Reads text) (isCjk : JsString → Bool)
    {seg : AnsiSegment} (hseg : seg.Listed) : (s.addSegment isCjk seg).Reads (text ++ seg.value) := by
  cases seg with
  | ansi code =>
    refine ⟨h.tokens, h.current, h.pendingAnsi.append (ListedCode.listed hseg), ?_⟩
    rw [← h.text]
    simp [TokenState.addSegment, AnsiSegment.value]
  | grapheme segment =>
    have hsegment : Listed segment := listed_units hseg
    unfold TokenState.addSegment
    dsimp only
    split
    · rcases h.flushCurrent with ⟨hflush, hcurrent, -⟩
      refine ⟨fun token htoken => ?_, hflush.current, listed_nil, ?_⟩
      · rcases List.mem_append.mp htoken with htoken | htoken
        · exact hflush.tokens token htoken
        · rw [List.mem_singleton.mp htoken]
          exact hflush.pendingAnsi.append hsegment
      · rw [← hflush.text, hcurrent]
        simp [AnsiSegment.value]
    · have hkept : (if s.currentIsSpace ≠ some (decide (segment = [32])) then s.flushCurrent else s).Reads text := by
        split
        · exact h.flushCurrent.1
        · exact h
      refine ⟨hkept.tokens, (hkept.current.append hkept.pendingAnsi).append hsegment, listed_nil, ?_⟩
      rw [← hkept.text]
      simp [AnsiSegment.value]

omit hgraphemes in
theorem TokenState.Reads.finish {s : TokenState} {text : JsString} (h : s.Reads text) :
    (∀ token ∈ s.finish, Listed token) ∧ s.finish.flatten = text := by
  unfold TokenState.finish
  split
  · refine ⟨fun token htoken => ?_, ?_⟩
    · rcases List.mem_append.mp htoken with htoken | htoken
      · exact h.tokens token htoken
      · rw [List.mem_singleton.mp htoken]
        exact h.current.append h.pendingAnsi
    · rw [← h.text]
      simp
  · rename_i hcurrent
    have hcurrent := not_not.mp hcurrent
    split
    · rename_i hpending
      refine ⟨h.tokens, ?_⟩
      rw [← h.text, hcurrent, hpending, List.append_nil, List.append_nil]
    · split
      · rename_i last hlast
        have hmem : last ∈ s.tokens := List.mem_of_getLast? hlast
        have htokens : s.tokens.dropLast ++ [last] = s.tokens := List.dropLast_append_getLast? last hlast
        refine ⟨fun token htoken => ?_, ?_⟩
        · rcases List.mem_append.mp htoken with htoken | htoken
          · exact h.tokens token (List.mem_of_mem_dropLast htoken)
          · rw [List.mem_singleton.mp htoken]
            exact (h.tokens last hmem).append h.pendingAnsi
        · rw [← h.text, hcurrent, List.append_nil]
          conv_rhs => rw [← htokens]
          simp
      · rename_i hnone
        refine ⟨?_, ?_⟩
        · simpa using h.pendingAnsi
        · rw [← h.text, hcurrent, List.getLast?_eq_none_iff.mp hnone]
          simp

theorem splitIntoTokensWithAnsi_spec (isCjk : JsString → Bool) {text : JsString} (h : Listed text) :
    (∀ token ∈ splitIntoTokensWithAnsi graphemes isCjk text, Listed token) ∧
      (splitIntoTokensWithAnsi graphemes isCjk text).flatten = text := by
  rcases segments_spec hgraphemes h with ⟨hlisted, htext⟩
  have hfold : ∀ (segs : List AnsiSegment) (s : TokenState) (done : JsString), (∀ seg ∈ segs, seg.Listed) → s.Reads done →
      (segs.foldl (TokenState.addSegment isCjk) s).Reads (done ++ segs.flatMap AnsiSegment.value) := by
    intro segs
    induction segs with
    | nil =>
      intro s done _ hs
      rwa [List.flatMap_nil, List.append_nil]
    | cons seg segs ih =>
      intro s done hsegs hs
      rw [List.forall_mem_cons] at hsegs
      have hnext := ih _ _ hsegs.2 (hs.addSegment isCjk hsegs.1)
      rwa [List.append_assoc] at hnext
  have hstart : TokenState.Reads {} [] := ⟨by simp, listed_nil, listed_nil, rfl⟩
  have hend := hfold _ _ _ hlisted hstart
  rw [htext, List.nil_append] at hend
  exact hend.finish

/-! ## Long words -/

/-- The lines that are broken off and the one that goes on show what has been read from a style on. -/
structure BreakState.Shows (s : BreakState) (σ : Style) (text : JsString) : Prop where
  tracker : s.tracker.Good
  style : s.tracker.style = styleAfter σ (pieces text)
  currentLine : Listed s.currentLine
  currentStyle : styleAlone s.currentLine = s.tracker.style
  whole : s.lines.flatMap shownAlone ++ shownAlone s.currentLine = shown σ (pieces text)
  lines : ∀ line ∈ s.lines, Listed line ∧ Closed line
  nonempty : text ≠ [] → s.currentLine ≠ []

omit hgraphemes in
theorem shownAlone_append {a : JsString} (ha : Listed a) (b : JsString) :
    shownAlone (a ++ b) = shownAlone a ++ shown (styleAlone a) (pieces b) := ha.shown_append {} b

omit hgraphemes in
theorem styleAlone_append {a : JsString} (ha : Listed a) (b : JsString) :
    styleAlone (a ++ b) = styleAfter (styleAlone a) (pieces b) := ha.styleAfter_append {} b

omit hgraphemes in
/-- A line with the reset of its tracker at its end shows what it has shown, and is closed. -/
theorem closed_lineEndReset {line : JsString} (hline : Listed line) {t : AnsiCodeTracker} (ht : t.Good)
    (hstyle : styleAlone line = t.style) :
    Listed (line ++ t.getLineEndReset) ∧ Closed (line ++ t.getLineEndReset) ∧
      shownAlone (line ++ t.getLineEndReset) = shownAlone line := by
  rcases ht.writes_getLineEndReset with ⟨hreset, hshown, hafter⟩
  have hend : styleAlone (line ++ t.getLineEndReset) = { t.style with underline := false, link := none } := by
    rw [styleAlone_append hline, hstyle, hafter]
  refine ⟨hline.append hreset, ⟨?_, ?_⟩, ?_⟩
  · rw [hend]
  · rw [hend]
  · rw [shownAlone_append hline, hshown, List.append_nil]

omit hgraphemes in
theorem BreakState.Shows.breakLine {s : BreakState} {σ : Style} {text : JsString} (h : s.Shows σ text) :
    s.breakLine.tracker = s.tracker ∧ Listed s.breakLine.currentLine ∧ styleAlone s.breakLine.currentLine = s.tracker.style ∧
      s.breakLine.lines.flatMap shownAlone ++ shownAlone s.breakLine.currentLine = shown σ (pieces text) ∧
      ∀ line ∈ s.breakLine.lines, Listed line ∧ Closed line := by
  rcases closed_lineEndReset h.currentLine h.tracker h.currentStyle with ⟨hlisted, hclosed, hshown⟩
  rcases h.tracker.writes_getActiveCodes with ⟨hactive, hactiveShown, hactiveStyle⟩
  refine ⟨rfl, hactive, hactiveStyle, ?_, fun line hline => ?_⟩
  · have hnothing : shownAlone s.tracker.getActiveCodes = [] := hactiveShown {}
    show (s.lines ++ [_]).flatMap shownAlone ++ shownAlone s.tracker.getActiveCodes = _
    rw [List.flatMap_append, List.flatMap_singleton, hshown, hnothing, List.append_nil, h.whole]
  · rcases List.mem_append.mp hline with hline | hline
    · exact h.lines line hline
    · rw [List.mem_singleton.mp hline]
      exact ⟨hlisted, hclosed⟩

omit hgraphemes in
theorem BreakState.Shows.addSegment {s : BreakState} {σ : Style} {text : JsString} (h : s.Shows σ text)
    (htext : Listed text) (width : ℤ) {seg : AnsiSegment} (hseg : seg.Listed) :
    (s.addSegment graphemes graphemeWidth width seg).Shows σ (text ++ seg.value) := by
  cases seg with
  | ansi code =>
    rcases ListedCode.process hseg h.tracker with ⟨hgood, hstyle⟩
    have hpieces : pieces code = [.code code] := by
      have happend := ListedCode.pieces_append hseg []
      rwa [List.append_nil] at happend
    refine ⟨hgood, ?_, h.currentLine.append (ListedCode.listed hseg), ?_, ?_, h.lines, fun _ => ?_⟩
    · show (s.tracker.process code).style = styleAfter σ (pieces (text ++ code))
      rw [htext.styleAfter_append, hpieces, hstyle, h.style]
      rfl
    · show styleAlone (s.currentLine ++ code) = (s.tracker.process code).style
      rw [styleAlone_append h.currentLine, hpieces, hstyle, h.currentStyle]
      rfl
    · show s.lines.flatMap shownAlone ++ shownAlone (s.currentLine ++ code) = shown σ (pieces (text ++ code))
      rw [shownAlone_append h.currentLine, htext.shown_append, ← List.append_assoc, h.whole, hpieces]
      rfl
    · exact List.append_ne_nil_of_right_ne_nil _ (List.ne_nil_of_length_pos (ListedCode.length_pos hseg))
  | grapheme segment =>
    have hsegment : Listed segment := listed_units hseg
    unfold BreakState.addSegment
    dsimp only
    split
    · rename_i hnil
      show s.Shows σ (text ++ segment)
      rwa [hnil, List.append_nil]
    · rename_i hne
      have hadd : ∀ b : BreakState, b.tracker = s.tracker → Listed b.currentLine → styleAlone b.currentLine = s.tracker.style →
          b.lines.flatMap shownAlone ++ shownAlone b.currentLine = shown σ (pieces text) →
          (∀ line ∈ b.lines, Listed line ∧ Closed line) →
          BreakState.Shows
            { b with
              currentLine := b.currentLine ++ segment
              currentWidth := b.currentWidth + visibleWidth graphemes graphemeWidth segment } σ (text ++ segment) := by
        intro b htracker hlisted hstyle hwhole hlines
        refine ⟨?_, ?_, hlisted.append hsegment, ?_, ?_, hlines, fun _ => List.append_ne_nil_of_right_ne_nil _ hne⟩
        · show b.tracker.Good
          rw [htracker]
          exact h.tracker
        · show b.tracker.style = _
          rw [htext.styleAfter_append, styleAfter_units hseg, htracker, h.style]
        · show styleAlone (b.currentLine ++ segment) = b.tracker.style
          rw [styleAlone_append hlisted, styleAfter_units hseg, hstyle, htracker]
        · show b.lines.flatMap shownAlone ++ shownAlone (b.currentLine ++ segment) = _
          rw [shownAlone_append hlisted, htext.shown_append, ← List.append_assoc, hwhole, hstyle, h.style]
      split
      · rcases h.breakLine with ⟨htracker, hlisted, hstyle, hwhole, hlines⟩
        exact hadd s.breakLine htracker hlisted hstyle hwhole hlines
      · exact hadd s rfl h.currentLine h.currentStyle h.whole h.lines

theorem breakLongWord_spec {word : JsString} (hword : Listed word) (hne : word ≠ []) (width : ℤ) {t : AnsiCodeTracker}
    (ht : t.Good) : ∃ lines currentLine tracker,
      breakLongWord graphemes graphemeWidth word width t = (lines ++ [currentLine], tracker) ∧
        BreakState.Shows ⟨lines, currentLine, 0, tracker⟩ t.style word := by
  rcases segments_spec hgraphemes hword with ⟨hlisted, htext⟩
  have hfold : ∀ (segs : List AnsiSegment) (s : BreakState) (done : JsString), (∀ seg ∈ segs, seg.Listed) → Listed done →
      s.Shows t.style done → (segs.foldl (BreakState.addSegment graphemes graphemeWidth width) s).Shows t.style
        (done ++ segs.flatMap AnsiSegment.value) := by
    intro segs
    induction segs with
    | nil =>
      intro s done _ _ hs
      rwa [List.flatMap_nil, List.append_nil]
    | cons seg segs ih =>
      intro s done hsegs hdone hs
      rw [List.forall_mem_cons] at hsegs
      have hstep : (s.addSegment graphemes graphemeWidth width seg).Shows t.style (done ++ seg.value) :=
        hs.addSegment graphemeWidth hdone width hsegs.1
      have hnext := ih _ _ hsegs.2 (hdone.append hsegs.1.text) hstep
      rwa [List.append_assoc] at hnext
  rcases ht.writes_getActiveCodes with ⟨hactive, hactiveShown, hactiveStyle⟩
  have hstart : BreakState.Shows ⟨[], t.getActiveCodes, 0, t⟩ t.style [] :=
    ⟨ht, rfl, hactive, hactiveStyle, hactiveShown {}, by simp, fun h => absurd rfl h⟩
  have hend := hfold _ _ _ hlisted listed_nil hstart
  rw [htext, List.nil_append] at hend
  have hcurrent := hend.nonempty hne
  refine ⟨_, _, _, ?_, ⟨hend.tracker, hend.style, hend.currentLine, hend.currentStyle, hend.whole, hend.lines, hend.nonempty⟩⟩
  unfold breakLongWord
  dsimp only
  rw [if_neg hcurrent, if_neg (by simp)]

/-! ## Lines -/

/-- The lines that are done and the one that goes on show what has been read. -/
structure WrapState.Shows (s : WrapState) (text : JsString) : Prop where
  tracker : s.tracker.Good
  style : s.tracker.style = styleAlone text
  currentLine : Listed s.currentLine
  currentStyle : styleAlone s.currentLine = s.tracker.style
  whole : s.wrapped.flatMap shownAlone ++ shownAlone s.currentLine = shownAlone text
  wrapped : ∀ line ∈ s.wrapped, Listed line ∧ Closed line

theorem WrapState.Shows.addLongToken {s : WrapState} {text : JsString} (h : s.Shows text) (htext : Listed text) (width : ℤ)
    {token : JsString} (htoken : Listed token) (hne : token ≠ []) :
    (s.addLongToken graphemes graphemeWidth width token).Shows (text ++ token) := by
  rcases breakLongWord_spec hgraphemes graphemeWidth htoken hne width h.tracker with
    ⟨lines, currentLine, tracker, hbroken, hshows⟩
  rcases closed_lineEndReset h.currentLine h.tracker h.currentStyle with ⟨hlisted, hclosed, hshown⟩
  have hflushed : (if s.currentLine = [] then s.wrapped else s.wrapped ++ [s.currentLine ++ s.tracker.getLineEndReset]).flatMap
      shownAlone = shownAlone text := by
    rw [← h.whole]
    split
    · rename_i hnil
      rw [hnil]
      exact (List.append_nil _).symm
    · rw [List.flatMap_append, List.flatMap_singleton, hshown]
  have hwrapped : ∀ line ∈ (if s.currentLine = [] then s.wrapped else
      s.wrapped ++ [s.currentLine ++ s.tracker.getLineEndReset]), Listed line ∧ Closed line := by
    split
    · exact h.wrapped
    · intro line hline
      rcases List.mem_append.mp hline with hline | hline
      · exact h.wrapped line hline
      · rw [List.mem_singleton.mp hline]
        exact ⟨hlisted, hclosed⟩
  unfold WrapState.addLongToken
  rw [hbroken]
  dsimp only
  rw [List.getLastD_concat, List.dropLast_concat]
  refine ⟨hshows.tracker, ?_, hshows.currentLine, hshows.currentStyle, ?_, fun line hline => ?_⟩
  · rw [styleAlone_append htext, ← h.style]
    exact hshows.style
  · rw [List.flatMap_append, hflushed, shownAlone_append htext, ← h.style, List.append_assoc]
    exact congrArg (shownAlone text ++ ·) hshows.whole
  · rcases List.mem_append.mp hline with hline | hline
    · exact hwrapped line hline
    · exact hshows.lines line hline

omit hgraphemes in
theorem shown_token_whiteSpace {token : JsString} (h : token.all Edit.isWhiteSpace = true) (s : Style) :
    shown s (pieces token) = [] ∧ styleAfter s (pieces token) = s :=
  shown_whiteSpace (List.all_eq_true.mp h) s

theorem WrapState.Shows.addToken {s : WrapState} {text : JsString} (h : s.Shows text) (htext : Listed text) (width : ℤ)
    {token : JsString} (htoken : Listed token) :
    (s.addToken graphemes graphemeWidth width token).Shows (text ++ token) := by
  rcases htoken.updateTracker h.tracker with ⟨hgood, hstyle⟩
  have hafter : (updateTrackerFromText token s.tracker).style = styleAlone (text ++ token) := by
    rw [styleAlone_append htext, ← h.style, hstyle]
  unfold WrapState.addToken
  dsimp only
  split
  · rename_i hlong
    have hne : token ≠ [] := by
      rintro rfl
      cases hlong.2
    exact h.addLongToken hgraphemes graphemeWidth htext width htoken hne
  · split
    · -- the line is full: it is closed, and the next one begins with the active codes
      rcases h.currentLine.trimEnd with ⟨htrimmed, htrimShown, htrimStyle⟩
      rcases closed_lineEndReset htrimmed h.tracker (htrimStyle.trans h.currentStyle) with ⟨hlisted, hclosed, hshown⟩
      rcases h.tracker.writes_getActiveCodes with ⟨hactive, hactiveShown, hactiveStyle⟩
      have hwrapped : ∀ line ∈ s.wrapped ++ [Edit.trimEnd s.currentLine ++ s.tracker.getLineEndReset],
          Listed line ∧ Closed line := by
        intro line hline
        rcases List.mem_append.mp hline with hline | hline
        · exact h.wrapped line hline
        · rw [List.mem_singleton.mp hline]
          exact ⟨hlisted, hclosed⟩
      have hdone : (s.wrapped ++ [Edit.trimEnd s.currentLine ++ s.tracker.getLineEndReset]).flatMap shownAlone =
          shownAlone text := by
        rw [List.flatMap_append, List.flatMap_singleton, hshown, htrimShown, h.whole]
      have hnothing : shownAlone s.tracker.getActiveCodes = [] := hactiveShown {}
      have hactiveAlone : styleAlone s.tracker.getActiveCodes = s.tracker.style := hactiveStyle
      by_cases hwhite : token.all Edit.isWhiteSpace = true
      · rcases shown_token_whiteSpace hwhite s.tracker.style with ⟨hblank, hsame⟩
        rw [if_pos hwhite, if_pos hwhite]
        refine ⟨hgood, hafter, hactive, ?_, ?_, hwrapped⟩
        · rw [hactiveAlone, hstyle, hsame]
        · rw [hdone, hnothing, List.append_nil, shownAlone_append htext, ← h.style, hblank, List.append_nil]
      · rw [if_neg hwhite, if_neg hwhite]
        refine ⟨hgood, hafter, hactive.append htoken, ?_, ?_, hwrapped⟩
        · rw [styleAlone_append hactive, hactiveAlone, hstyle]
        · rw [hdone, shownAlone_append hactive, hactiveAlone, hnothing, List.nil_append, shownAlone_append htext, ← h.style]
    · refine ⟨hgood, hafter, h.currentLine.append htoken, ?_, ?_, h.wrapped⟩
      · rw [styleAlone_append h.currentLine, h.currentStyle, hstyle]
      · rw [shownAlone_append h.currentLine, ← List.append_assoc, h.whole, shownAlone_append htext, h.currentStyle, h.style]

omit hgraphemes in
/-- Behind the last token every line is trimmed. -/
theorem WrapState.Shows.lines {s : WrapState} {text : JsString} (h : s.Shows text) :
    let wrapped := if s.currentLine = [] then s.wrapped else s.wrapped ++ [s.currentLine]
    (wrapped.map Edit.trimEnd).flatMap shownAlone = shownAlone text ∧
      ∀ line ∈ (wrapped.map Edit.trimEnd).dropLast, Closed line := by
  intro wrapped
  have hwrapped : wrapped.flatMap shownAlone = shownAlone text ∧ (∀ line ∈ wrapped, Listed line) ∧
      ∀ line ∈ wrapped.dropLast, Closed line := by
    rw [← h.whole]
    by_cases hnil : s.currentLine = []
    · rw [show wrapped = s.wrapped from if_pos hnil, hnil]
      exact ⟨(List.append_nil _).symm, fun line hline => (h.wrapped line hline).1,
        fun line hline => (h.wrapped line (List.mem_of_mem_dropLast hline)).2⟩
    · rw [show wrapped = s.wrapped ++ [s.currentLine] from if_neg hnil, List.flatMap_append, List.flatMap_singleton,
        List.dropLast_concat]
      refine ⟨rfl, fun line hline => ?_, fun line hline => (h.wrapped line hline).2⟩
      rcases List.mem_append.mp hline with hline | hline
      · exact (h.wrapped line hline).1
      · rw [List.mem_singleton.mp hline]
        exact h.currentLine
  rcases hwrapped with ⟨hshown, hlisted, hclosed⟩
  refine ⟨?_, fun line hline => ?_⟩
  · rw [List.flatMap_map, ← hshown]
    exact List.flatMap_congr fun line hline => (hlisted line hline).trimEnd.2.1
  · rw [← List.map_dropLast] at hline
    rcases List.mem_map.mp hline with ⟨before, hbefore, rfl⟩
    have hstyle := (hlisted before (List.mem_of_mem_dropLast hbefore)).trimEnd.2.2
    have hbeforeClosed := hclosed before hbefore
    exact ⟨by rw [hstyle]; exact hbeforeClosed.1, by rw [hstyle]; exact hbeforeClosed.2⟩

omit hgraphemes in
/-- Where there is no line there is an empty one. -/
theorem lines_or_empty {wrapped : List JsString} {text : JsString}
    (hshown : (wrapped.map Edit.trimEnd).flatMap shownAlone = shownAlone text)
    (hclosed : ∀ line ∈ (wrapped.map Edit.trimEnd).dropLast, Closed line) :
    (if wrapped = [] then [[]] else wrapped.map Edit.trimEnd).flatMap shownAlone = shownAlone text ∧
      (∀ line ∈ (if wrapped = [] then [[]] else wrapped.map Edit.trimEnd).dropLast, Closed line) ∧
      (if wrapped = [] then [[]] else wrapped.map Edit.trimEnd) ≠ [] := by
  by_cases hnil : wrapped = []
  · rw [if_pos hnil, ← hshown, hnil]
    exact ⟨rfl, by simp, by simp⟩
  · rw [if_neg hnil]
    exact ⟨hshown, hclosed, by simpa using hnil⟩

/-- The lines of a line show what it shows, and each but the last one is closed. -/
theorem wrapSingleLine_spec (isCjk : JsString → Bool) {line : JsString} (hline : Listed line) (width : ℤ) :
    (wrapSingleLine graphemes graphemeWidth isCjk line width).flatMap shownAlone = shownAlone line ∧
      (∀ l ∈ (wrapSingleLine graphemes graphemeWidth isCjk line width).dropLast, Closed l) ∧
      wrapSingleLine graphemes graphemeWidth isCjk line width ≠ [] := by
  rcases splitIntoTokensWithAnsi_spec hgraphemes isCjk hline with ⟨htokens, htext⟩
  have hfold : ∀ (tokens : List JsString) (s : WrapState) (done : JsString), (∀ token ∈ tokens, Listed token) →
      Listed done → s.Shows done →
      (tokens.foldl (WrapState.addToken graphemes graphemeWidth width) s).Shows (done ++ tokens.flatten) := by
    intro tokens
    induction tokens with
    | nil =>
      intro s done _ _ hs
      rwa [List.flatten_nil, List.append_nil]
    | cons token tokens ih =>
      intro s done htokens hdone hs
      rw [List.forall_mem_cons] at htokens
      have hstep : (s.addToken graphemes graphemeWidth width token).Shows (done ++ token) :=
        hs.addToken hgraphemes graphemeWidth hdone width htokens.1
      have hnext := ih _ _ htokens.2 (hdone.append htokens.1) hstep
      rwa [List.append_assoc] at hnext
  have hstart : WrapState.Shows {} [] := ⟨AnsiCodeTracker.good_default, rfl, listed_nil, rfl, rfl, by simp⟩
  have hend := hfold _ _ _ htokens listed_nil hstart
  rw [htext, List.nil_append] at hend
  unfold wrapSingleLine
  split
  · rename_i hnil
    rw [hnil]
    exact ⟨rfl, by simp, by simp⟩
  · split
    · exact ⟨List.flatMap_singleton _ _, by simp, by simp⟩
    · dsimp only
      exact lines_or_empty hend.lines.1 hend.lines.2

/-! ## Texts -/

omit hgraphemes in
theorem ListedCode.not_lineEnd {c : JsString} (h : ListedCode c) : ∀ u ∈ c, u ≠ 10 ∧ u ≠ 13 := by
  intro u hu
  cases h with
  | @sgr gs hparams =>
    simp only [sgrCode, List.cons_append, List.mem_cons, List.mem_append, List.not_mem_nil, or_false] at hu
    rcases hu with rfl | rfl | hu | rfl
    · decide
    · decide
    · have hkind := mem_joinParams (isNumber_of_listed hparams) hu
      exact ⟨ne_of_digit_or_semicolon hkind (by decide), ne_of_digit_or_semicolon hkind (by decide)⟩
    · decide
  | @hyperlink link hlink =>
    have hstart : ∀ v ∈ osc8Start, v ≠ 10 ∧ v ≠ 13 := by simp [osc8Start, JsString.ofAscii]
    simp only [formatOsc8Hyperlink, List.mem_append, List.mem_cons] at hu
    rcases hu with ((hu | hu) | rfl | hu) | hu
    · exact hstart u hu
    · exact ⟨(hlink.params u hu).2.1, (hlink.params u hu).2.2.1⟩
    · decide
    · exact ⟨(hlink.url u hu).2.1, (hlink.url u hu).2.2.1⟩
    · have hends : ∀ v ∈ ([7, 27, 92] : JsString), v ≠ 10 ∧ v ≠ 13 := by simp
      refine hends u ?_
      rcases hlink.terminator with hterm | hterm <;> rw [hterm] at hu <;> simp at hu ⊢ <;> simp [hu]

/-- What lines show one behind another. -/
def shownLines : Style → List JsString → List (UInt16 × Style)
  | _, [] => []
  | σ, line :: lines => shown σ (pieces line) ++ shownLines (styleAfter σ (pieces line)) lines

omit hgraphemes in
theorem splitLines_cons {u : UInt16} (hu : u ≠ 10 ∧ u ≠ 13) {text line : JsString} {lines : List JsString}
    (hsplit : splitLines text = line :: lines) : splitLines (u :: text) = (u :: line) :: lines := by
  rw [splitLines, if_neg (by simp [hu.1, hu.2]), if_neg hu.2, hsplit]

omit hgraphemes in
theorem splitLines_append {front : JsString} (hfront : ∀ u ∈ front, u ≠ 10 ∧ u ≠ 13) {text line : JsString}
    {lines : List JsString} (hsplit : splitLines text = line :: lines) :
    splitLines (front ++ text) = (front ++ line) :: lines := by
  induction front with
  | nil => exact hsplit
  | cons u front ih =>
    rw [List.forall_mem_cons] at hfront
    exact splitLines_cons hfront.1 (ih hfront.2)

omit hgraphemes in
theorem splitLines_ne_nil (text : JsString) : splitLines text ≠ [] := by
  induction text with
  | nil => simp [splitLines]
  | cons u text ih =>
    rw [splitLines]
    split
    · simp
    · split
      · exact ih
      · split <;> simp

omit hgraphemes in
/-- The ends of lines are white space, so the lines show what the text shows. -/
theorem Listed.splitLines {text : JsString} (h : Listed text) :
    (∀ line ∈ splitLines text, Listed line) ∧ ∀ σ, shownLines σ (splitLines text) = shown σ (pieces text) := by
  have hgoal : ∀ ps : List Piece, (∀ p ∈ ps, p.Listed) → (∀ line ∈ Ansi.splitLines (piecesText ps), Listed line) ∧
      ∀ σ, shownLines σ (Ansi.splitLines (piecesText ps)) = shown σ ps := by
    intro ps hps
    induction ps with
    | nil =>
      refine ⟨fun line hline => ?_, fun σ => rfl⟩
      rw [List.mem_singleton.mp hline]
      exact listed_nil
    | cons p ps ih =>
      rw [List.forall_mem_cons] at hps
      rcases ih hps.2 with ⟨hlisted, hshown⟩
      rcases List.exists_cons_of_ne_nil (splitLines_ne_nil (piecesText ps)) with ⟨line, lines, hsplit⟩
      have hlisted' := hsplit ▸ hlisted
      rw [List.forall_mem_cons] at hlisted'
      have htext : piecesText (p :: ps) = p.text ++ piecesText ps := rfl
      have hp : Listed p.text := by
        have hone := @listed_piecesText [p] (by simpa using hps.1)
        rwa [piecesText, List.flatMap_singleton] at hone
      have hpieces : pieces p.text = [p] := by
        have hone := hps.1.pieces_append []
        rwa [List.append_nil] at hone
      have hinside : (∀ u ∈ p.text, u ≠ 10 ∧ u ≠ 13) → (∀ l ∈ Ansi.splitLines (piecesText (p :: ps)), Listed l) ∧
          ∀ σ, shownLines σ (Ansi.splitLines (piecesText (p :: ps))) = shown σ (p :: ps) := by
        intro hunits
        rw [htext, splitLines_append hunits hsplit]
        refine ⟨List.forall_mem_cons.mpr ⟨hp.append hlisted'.1, hlisted'.2⟩, fun σ => ?_⟩
        have hrest := hshown (styleAfter σ [p])
        rw [hsplit, shownLines] at hrest
        rw [shownLines, hp.shown_append, hp.styleAfter_append, hpieces, List.append_assoc, hrest, ← Ansi.shown_append]
        rfl
      cases p with
      | code c => exact hinside (ListedCode.not_lineEnd hps.1)
      | unit u =>
        by_cases hu : u = 10 ∨ u = 13
        · have hwhite : Edit.isWhiteSpace u = true := by rcases hu with rfl | rfl <;> rfl
          have hskip : ∀ σ, shown σ (.unit u :: ps) = shown σ ps := by
            intro σ
            rw [shown, if_pos hwhite]
          simp only [hskip]
          rw [htext, Piece.text, List.singleton_append, Ansi.splitLines]
          split
          · exact ⟨List.forall_mem_cons.mpr ⟨listed_nil, hlisted⟩, hshown⟩
          · rename_i hend
            rw [if_pos (hu.resolve_left fun h10 => hend (.inl h10))]
            exact ⟨hlisted, hshown⟩
        · exact hinside (by simpa [Piece.text, not_or] using hu)
  have hpieces := hgoal (pieces text) h
  rwa [piecesText_pieces] at hpieces

/-- The lines of each input line show what it shows from the style before it, and each but the last one is closed. -/
theorem wrapInputLines_spec (isCjk : JsString → Bool) (width : ℤ) {inputLines : List JsString}
    (hlisted : ∀ line ∈ inputLines, Listed line) (result : List (List JsString)) {t : AnsiCodeTracker}
    (ht : t.Good) (hfirst : result.flatten = [] → t.style = {}) :
    ∃ groups, wrapInputLines graphemes graphemeWidth isCjk width result t inputLines = result ++ groups ∧
      groups.flatten.flatMap shownAlone = shownLines t.style inputLines ∧
      ∀ group ∈ groups, ∀ line ∈ group.dropLast, Closed line := by
  induction inputLines generalizing result t with
  | nil => exact ⟨[], (List.append_nil _).symm, rfl, by simp⟩
  | cons line inputLines ih =>
    rw [List.forall_mem_cons] at hlisted
    have hactive : ∃ active, (if result.flatten = [] then [] else t.getActiveCodes) = active ∧ Listed active ∧
        shownAlone active = [] ∧ styleAlone active = t.style := by
      rcases ht.writes_getActiveCodes with ⟨hcodes, hshown, hstyle⟩
      by_cases hempty : result.flatten = []
      · exact ⟨[], if_pos hempty, listed_nil, rfl, (hfirst hempty).symm⟩
      · exact ⟨t.getActiveCodes, if_neg hempty, hcodes, hshown {}, hstyle⟩
    rcases hactive with ⟨active, hactiveEq, hactiveListed, hactiveShown, hactiveStyle⟩
    rcases wrapSingleLine_spec hgraphemes graphemeWidth isCjk (hactiveListed.append hlisted.1) width with ⟨hshown, hclosed, hne⟩
    have hline : shownAlone (active ++ line) = shown t.style (pieces line) := by
      rw [shownAlone_append hactiveListed, hactiveShown, hactiveStyle, List.nil_append]
    rcases hlisted.1.updateTracker ht with ⟨hgood, hstyle⟩
    have hnonempty (ls : List JsString) (hls : ls ≠ []) : (result ++ [ls]).flatten = [] → (updateTrackerFromText line t).style = {} := by
      intro hnil
      rw [List.flatten_append, List.flatten_singleton, List.append_eq_nil_iff] at hnil
      exact absurd hnil.2 hls
    rcases ih hlisted.2 _ hgood (hnonempty _ hne) with ⟨groups, hgroups, hwhole, hrest⟩
    refine ⟨wrapSingleLine graphemes graphemeWidth isCjk (active ++ line) width :: groups, ?_, ?_, ?_⟩
    · rw [wrapInputLines, hactiveEq, hgroups, List.append_assoc, List.singleton_append]
    · rw [List.flatten_cons, List.flatMap_append, hshown, hline, hwhole, hstyle, shownLines]
    · exact List.forall_mem_cons.mpr ⟨hclosed, hrest⟩

/-- A terminal shows the units of the lines, each line by itself, in the styles in which it shows them in the whole text;
only white space is left out. A line that is broken leaves no underline and no hyperlink open. -/
theorem wrapTextWithAnsi_styled (isCjk : JsString → Bool) {text : JsString} (htext : Listed text) (width : ℤ) :
    (wrapTextWithAnsi graphemes graphemeWidth isCjk text width).flatMap (fun line => shown {} (pieces line)) =
        shown {} (pieces text) ∧
      ∀ wrapped ∈ wrapInputLines graphemes graphemeWidth isCjk width [] {} (splitLines text), ∀ line ∈ wrapped.dropLast,
        (styleAfter {} (pieces line)).underline = false ∧ (styleAfter {} (pieces line)).link = none := by
  rcases htext.splitLines with ⟨hlisted, hshown⟩
  rcases wrapInputLines_spec hgraphemes graphemeWidth isCjk width hlisted []
    AnsiCodeTracker.good_default (fun _ => rfl) with ⟨groups, hgroups, hwhole, hclosed⟩
  rw [List.nil_append] at hgroups
  rw [show AnsiCodeTracker.style {} = ({} : Style) from rfl, hshown] at hwhole
  rw [hgroups]
  refine ⟨?_, hclosed⟩
  unfold wrapTextWithAnsi
  split
  · rename_i hnil
    rw [hnil]
    rfl
  · dsimp only
    rw [hgroups, ← hwhole]
    split
    · rename_i hnil
      rw [hnil]
      rfl
    · rfl

end

/-- Every unit is a grapheme. -/
def unitGraphemes (text : JsString) : List JsString := text.map fun u => [u]

theorem unitGraphemes_flatten (text : JsString) : (unitGraphemes text).flatten = text := by
  induction text with
  | nil => rfl
  | cons u text ih =>
    rw [unitGraphemes, List.map_cons, List.flatten_cons, ← unitGraphemes, ih]
    rfl

/-- An underlined text is broken at its blank. -/
def underlined : JsString := sgrCode [[JsString.ofAscii "4"]] ++ JsString.ofAscii "ab cd"

theorem listed_underlined : Listed underlined := by
  have hnumber : IsNumber (JsString.ofAscii "4") := by
    rw [show JsString.ofAscii "4" = [52] from rfl]
    exact ⟨by simp, by simp [isDigit]⟩
  refine Listed.append (ListedCode.listed (.sgr ?_)) (listed_units ?_)
  · simpa using .single hnumber rfl
  · rw [show JsString.ofAscii "ab cd" = [97, 98, 32, 99, 100] from rfl]
    simp

theorem wrapTextWithAnsi_styled_underlined :
    (wrapTextWithAnsi unitGraphemes List.length (fun _ => false) underlined 2).flatMap (fun line => shown {} (pieces line)) =
        shown {} (pieces underlined) ∧
      ∀ wrapped ∈ wrapInputLines unitGraphemes List.length (fun _ => false) 2 [] {} (splitLines underlined),
        ∀ line ∈ wrapped.dropLast,
          (styleAfter {} (pieces line)).underline = false ∧ (styleAfter {} (pieces line)).link = none :=
  wrapTextWithAnsi_styled unitGraphemes_flatten List.length (fun _ => false) listed_underlined 2

end Phi.Tui.Ansi
