import Phi.Tui.Editor

/-!
# Kills and yanks

The cursor divides a text in what is left and what is right of it. A kill takes an end of the one or the front of the
other, and joins it to what the kills before it have taken on that side; so a yank behind a run of kills gives back the
text. Putting a text in and taking it out again gives back the state, and so does a yank that is popped.
-/

namespace Phi.Tui

/-! ## Texts around the cursor -/

theorem joinLines_cons (line : JsString) (lines : List JsString) :
    joinLines (line :: lines) = line ++ lines.flatMap (10 :: ·) := by
  induction lines generalizing line with
  | nil => simp [joinLines]
  | cons next lines ih =>
    rw [joinLines, List.intercalate_cons_cons, ← joinLines, ih next]
    simp

theorem joinLines_append (before : List JsString) (line : JsString) (after : List JsString) :
    joinLines (before ++ line :: after) = unlines 10 before ++ line ++ after.flatMap (10 :: ·) := by
  induction before with
  | nil => simp [joinLines_cons, unlines]
  | cons first before ih =>
    rcases List.exists_cons_of_ne_nil (l := before ++ line :: after) (by simp) with ⟨next, rest, hrest⟩
    rw [List.cons_append, hrest, joinLines, List.intercalate_cons_cons, ← hrest, ← joinLines, ih]
    simp [unlines]

namespace EditorState

/-- The cursor is in a line. -/
structure WellFormed (s : EditorState) : Prop where
  cursorLine : s.cursorLine < s.lines.length
  cursorCol : s.cursorCol ≤ s.line.length

def left (s : EditorState) : JsString := unlines 10 (s.lines.take s.cursorLine) ++ s.line.take s.cursorCol

def right (s : EditorState) : JsString :=
  s.line.drop s.cursorCol ++ (s.lines.drop (s.cursorLine + 1)).flatMap (10 :: ·)

/-- The state with a cursor in a line between others. -/
def between (before : List JsString) (l r : JsString) (after : List JsString) : EditorState where
  lines := before ++ (l ++ r) :: after
  cursorLine := before.length
  cursorCol := l.length

variable {s : EditorState} {before after : List JsString} {l r line : JsString}

theorem WellFormed.exists_between (h : s.WellFormed) : ∃ before l r after, s = between before l r after := by
  refine ⟨s.lines.take s.cursorLine, s.line.take s.cursorCol, s.line.drop s.cursorCol, s.lines.drop (s.cursorLine + 1), ?_⟩
  have hlt := h.cursorLine
  have hline : s.line = s.lines[s.cursorLine] := by rw [line, List.getD_eq_getElem _ _ hlt]
  have hlines : s.lines = s.lines.take s.cursorLine ++ s.line :: s.lines.drop (s.cursorLine + 1) := by
    rw [hline, ← List.drop_eq_getElem_cons hlt, List.take_append_drop]
  have hlength : (s.lines.take s.cursorLine).length = s.cursorLine := List.length_take_of_le h.cursorLine.le
  have hcol : (s.line.take s.cursorCol).length = s.cursorCol := List.length_take_of_le h.cursorCol
  rw [between, List.take_append_drop, ← hlines, hlength, hcol]

@[simp] theorem between_line : (between before l r after).line = l ++ r := by
  simp [line, between]

@[simp] theorem between_cursorLine : (between before l r after).cursorLine = before.length := rfl

@[simp] theorem between_cursorCol : (between before l r after).cursorCol = l.length := rfl

@[simp] theorem between_lines : (between before l r after).lines = before ++ (l ++ r) :: after := rfl

theorem between_wellFormed : (between before l r after).WellFormed := ⟨by simp, by simp⟩

@[simp] theorem between_left : (between before l r after).left = unlines 10 before ++ l := by simp [left]

@[simp] theorem between_right : (between before l r after).right = r ++ after.flatMap (10 :: ·) := by simp [right]

theorem WellFormed.joinLines (h : s.WellFormed) : joinLines s.lines = s.left ++ s.right := by
  rcases h.exists_between with ⟨before, l, r, after, rfl⟩
  rw [between_left, between_right, between_lines, joinLines_append]
  simp only [List.append_assoc]

end EditorState

/-! ## Texts put in and taken out -/

theorem insertIdx_append (a b : List JsString) (x : JsString) : (a ++ b).insertIdx a.length x = a ++ x :: b := by
  induction a with
  | nil => rfl
  | cons y a ih => rw [List.cons_append, List.length_cons, List.insertIdx_succ_cons, ih, List.cons_append]

theorem insertLines_append (a ls b : List JsString) :
    Editor.insertLines a.length ls (a ++ b) = a ++ ls ++ b := by
  induction ls generalizing a with
  | nil => simp [Editor.insertLines]
  | cons line ls ih =>
    have hstep := ih (a ++ [line])
    rw [List.length_append, List.length_singleton, List.append_assoc, List.singleton_append] at hstep
    rw [Editor.insertLines, insertIdx_append, hstep]
    simp

/-- A text is one line, or a first one, others and a last one. -/
theorem splitOn_cases (text : JsString) : text.splitOn 10 = [text] ∨
    ∃ first mids last, text.splitOn 10 = first :: (mids ++ [last]) ∧ text = unlines 10 (first :: mids) ++ last := by
  have htext : List.intercalate [10] (text.splitOn 10) = text := List.intercalate_splitOn 10
  rcases hlines : text.splitOn 10 with _ | ⟨first, rest⟩
  · exact absurd hlines (List.splitOn_ne_nil 10 text)
  · rcases List.eq_nil_or_concat rest with rfl | ⟨mids, last, rfl⟩
    · left
      rw [hlines] at htext
      rw [← htext]
      simp
    · right
      refine ⟨first, mids, last, by rw [List.concat_eq_append], ?_⟩
      rw [hlines, ← joinLines, List.concat_eq_append, ← List.cons_append, joinLines_append] at htext
      rw [← htext]
      simp

namespace Editor

variable {e : Editor} {before after : List JsString} {l r text : JsString}

theorem setCursorCol_state (e : Editor) (col : ℕ) : (e.setCursorCol col).state = { e.state with cursorCol := col } := rfl

theorem setLine_state (e : Editor) (i : ℕ) (line : JsString) : (e.setLine i line).state = e.state.setLine i line := rfl

theorem setLine_between (line : JsString) :
    (EditorState.between before l r after).setLine before.length line =
      { lines := before ++ line :: after, cursorLine := before.length, cursorCol := l.length } := by
  simp [EditorState.setLine, EditorState.between, List.set_append_right]

theorem insertYankedText_one (hs : e.state = .between before l r after) (hone : text.splitOn 10 = [text]) :
    (e.insertYankedText text).state = .between before (l ++ text) r after := by
  have hstate : e.exitHistoryBrowsing.state = .between before l r after := hs
  unfold insertYankedText
  dsimp only
  rw [hone, if_pos List.length_singleton, setCursorCol_state, setLine_state, hstate, EditorState.between_line,
    EditorState.between_cursorLine, EditorState.between_cursorCol, setLine_between, List.take_left, List.drop_left]
  simp [EditorState.between]

theorem insertYankedText_lines {first last : JsString} {mids : List JsString} (hs : e.state = .between before l r after)
    (hlines : text.splitOn 10 = first :: (mids ++ [last])) :
    (e.insertYankedText text).state = .between (before ++ (l ++ first) :: mids) last r after := by
  have hstate : e.exitHistoryBrowsing.state = .between before l r after := hs
  have hlength : (first :: (mids ++ [last])).length = mids.length + 2 := by simp
  have hmids : (first :: (mids ++ [last])).dropLast.tail = mids := by
    rw [List.dropLast_cons_of_ne_nil (by simp), List.dropLast_concat, List.tail_cons]
  have hlast : (first :: (mids ++ [last])).getLastD [] = last := by rw [List.getLastD_cons, List.getLastD_concat]
  -- the middle lines are put in behind the first, and the last behind them
  have hinsert := insertLines_append (before ++ [l ++ first]) mids after
  rw [List.length_append, List.length_singleton, List.append_assoc, List.singleton_append] at hinsert
  have hlastIndex := insertIdx_append (before ++ (l ++ first) :: mids) after (last ++ r)
  rw [show (before ++ (l ++ first) :: mids).length = before.length + (mids.length + 2) - 1 by simp] at hlastIndex
  unfold insertYankedText
  dsimp only
  rw [hlines, hlength, if_neg (by omega), setCursorCol_state, hmids, hlast]
  dsimp only
  rw [hstate, EditorState.between_line, EditorState.between_cursorLine, EditorState.between_cursorCol, List.take_left,
    List.drop_left, EditorState.between_lines, List.set_append_right _ _ le_rfl, Nat.sub_self, List.set_cons_zero,
    List.headD_cons, hinsert]
  simp only [List.append_assoc, List.nil_append, List.cons_append] at hlastIndex ⊢
  rw [hlastIndex]
  simp [EditorState.between]

theorem insertYankedText_congr {e' : Editor} (h : e.state.WellFormed) (hs' : e'.state = e.state) :
    (e'.insertYankedText text).state = (e.insertYankedText text).state := by
  rcases h.exists_between with ⟨before, l, r, after, hs⟩
  rcases splitOn_cases text with hone | ⟨first, mids, last, hlines, -⟩
  · rw [insertYankedText_one hs hone, insertYankedText_one (hs'.trans hs) hone]
  · rw [insertYankedText_lines hs hlines, insertYankedText_lines (hs'.trans hs) hlines]

theorem insertYankedText_wellFormed (h : e.state.WellFormed) : (e.insertYankedText text).state.WellFormed := by
  rcases h.exists_between with ⟨before, l, r, after, hs⟩
  rcases splitOn_cases text with hone | ⟨first, mids, last, hlines, -⟩
  · rw [insertYankedText_one hs hone]
    exact EditorState.between_wellFormed
  · rw [insertYankedText_lines hs hlines]
    exact EditorState.between_wellFormed

theorem insertYankedText_killRing (e : Editor) (text : JsString) : (e.insertYankedText text).killRing = e.killRing := by
  unfold insertYankedText
  dsimp only
  split <;> rfl

theorem deleteYankedText_killRing (e : Editor) : e.deleteYankedText.killRing = e.killRing := by
  unfold deleteYankedText
  split
  · rfl
  · split
    · rfl
    · dsimp only
      split <;> rfl

/-- Behind a text that has been put in, taking it out gives back the state. -/
theorem deleteYankedText_insertYankedText {e' : Editor} (h : e.state.WellFormed)
    (hpeek : KillRing.peek e'.killRing = some text) (hs' : e'.state = (e.insertYankedText text).state) :
    e'.deleteYankedText.state = e.state := by
  rcases h.exists_between with ⟨before, l, r, after, hs⟩
  unfold deleteYankedText
  rw [hpeek]
  dsimp only
  split
  · rename_i htext
    rw [hs', htext, insertYankedText_one hs (by simp), hs, List.append_nil]
  rw [hs]
  rcases splitOn_cases text with hone | ⟨first, mids, last, hlines, -⟩
  · rw [insertYankedText_one hs hone] at hs'
    rw [hone, if_pos List.length_singleton, setCursorCol_state, setLine_state, hs', EditorState.between_line,
      EditorState.between_cursorLine, EditorState.between_cursorCol, setLine_between, List.drop_left]
    simp [EditorState.between]
  · rw [insertYankedText_lines hs hlines] at hs'
    have hlength : (first :: (mids ++ [last])).length = mids.length + 2 := by simp
    have hstart : (before ++ (l ++ first) :: mids).length - (mids.length + 2 - 1) = before.length := by simp
    rw [hlines, hlength, if_neg (by omega), setCursorCol_state]
    dsimp only
    rw [hs', EditorState.between_line, EditorState.between_cursorLine, EditorState.between_cursorCol,
      EditorState.between_lines, hstart, List.headD_cons, List.drop_left]
    have hfirst : (before ++ (l ++ first) :: mids ++ (last ++ r) :: after).getD before.length [] = l ++ first := by simp
    have hcol : (l ++ first).length - first.length = l.length := by simp
    have hbehind : (before ++ (l ++ first) :: mids ++ (last ++ r) :: after).drop (before.length + (mids.length + 2)) =
        after := by
      rw [List.append_assoc, List.drop_append, List.drop_eq_nil_of_le (by omega), List.nil_append, Nat.add_sub_cancel_left,
        List.cons_append, List.drop_succ_cons, List.drop_append, List.drop_eq_nil_of_le (by omega), List.nil_append]
      simp
    rw [hfirst, hcol, List.take_left, hbehind, List.append_assoc, List.take_left]
    rfl

end Editor

/-! ## Kills -/

inductive Kill where
  | lineStart
  | lineEnd
  | wordBackward
  | wordForward

namespace Kill

variable (seg : Segmenters)

def apply : Kill → Editor → Editor
  | .lineStart, e => e.deleteToStartOfLine
  | .lineEnd, e => e.deleteToEndOfLine
  | .wordBackward, e => e.deleteWordBackwards seg
  | .wordForward, e => e.deleteWordForward seg

def isBackward : Kill → Bool
  | .lineStart => true
  | .lineEnd => false
  | .wordBackward => true
  | .wordForward => false

/-- There is nothing on the side of the kill. -/
def isIdle (k : Kill) (s : EditorState) : Bool :=
  if k.isBackward then s.cursorLine = 0 && s.cursorCol = 0
  else !(s.cursorCol < s.line.length) && !(s.cursorLine < s.lines.length - 1)

/-- The text that a kill takes, unless it is idle. -/
def killed (k : Kill) (e : Editor) : JsString :=
  let s := e.state
  match k with
  | .lineStart => if 0 < s.cursorCol then s.line.take s.cursorCol else [10]
  | .lineEnd => if s.cursorCol < s.line.length then s.line.drop s.cursorCol else [10]
  | .wordBackward =>
    if s.cursorCol = 0 then [10]
    else (s.line.take s.cursorCol).drop (findWordBackward (e.wordSegments seg) s.line s.cursorCol)
  | .wordForward =>
    if s.line.length ≤ s.cursorCol then [10]
    else (s.line.take (findWordForward (e.wordSegments seg) s.line s.cursorCol)).drop s.cursorCol

end Kill

/-- A kill has taken a text. -/
structure Killed (e e' : Editor) (text : JsString) (isBackward : Bool) : Prop where
  wellFormed : e'.state.WellFormed
  killRing : e'.killRing = KillRing.push e.killRing text isBackward (e.lastAction = some .kill)
  lastAction : e'.lastAction = some .kill
  backward : isBackward = true → e.state.left = e'.state.left ++ text ∧ e'.state.right = e.state.right
  forward : isBackward = false → e.state.right = text ++ e'.state.right ∧ e'.state.left = e.state.left

namespace Editor

variable {e e' : Editor} {before after : List JsString} {l l' r r' text : JsString}

theorem mergeWithPrevious_state {previous : JsString} (hs : e.state = .between (before ++ [previous]) [] r after) :
    e.mergeWithPrevious.state = .between before previous r after := by
  unfold mergeWithPrevious
  rw [setCursorCol_state]
  dsimp only
  rw [hs]
  simp only [EditorState.between_cursorLine, EditorState.between_lines, EditorState.between_line, List.length_append,
    List.length_singleton, Nat.add_sub_cancel, List.append_assoc, List.singleton_append, List.nil_append]
  have hprevious : (before ++ previous :: r :: after).getD before.length [] = previous := by simp
  have herase : (before ++ (previous ++ r) :: r :: after).eraseIdx (before.length + 1) =
      before ++ (previous ++ r) :: after := by
    rw [List.eraseIdx_append_of_length_le (by omega), Nat.add_sub_cancel_left]
    rfl
  rw [hprevious, List.set_append_right _ _ le_rfl, Nat.sub_self, List.set_cons_zero, herase]
  rfl

theorem mergeWithNext_state {next : JsString} (hs : e.state = .between before l [] (next :: after)) :
    e.mergeWithNext.state = .between before l next after := by
  unfold mergeWithNext
  dsimp only
  rw [hs]
  simp only [EditorState.between_cursorLine, EditorState.between_lines, EditorState.between_line,
    EditorState.between_cursorCol, List.append_nil]
  have hnext : (before ++ l :: next :: after).getD (before.length + 1) [] = next := by simp
  have herase : (before ++ (l ++ next) :: next :: after).eraseIdx (before.length + 1) =
      before ++ (l ++ next) :: after := by
    rw [List.eraseIdx_append_of_length_le (by omega), Nat.add_sub_cancel_left]
    rfl
  rw [hnext, List.set_append_right _ _ le_rfl, Nat.sub_self, List.set_cons_zero, herase]
  rfl

/-- A newline before the cursor is killed. -/
theorem killed_previous (hs : e.state.WellFormed) (hcol : e.state.cursorCol = 0) (hline : 0 < e.state.cursorLine)
    (hs' : e'.state = e.state) (hring : e'.killRing = KillRing.push e.killRing [10] true (e.lastAction = some .kill))
    (haction : e'.lastAction = some .kill) : Killed e e'.mergeWithPrevious [10] true := by
  rcases hs.exists_between with ⟨before, l, r, after, hbetween⟩
  rw [hbetween] at hcol hline
  obtain rfl : l = [] := List.eq_nil_of_length_eq_zero hcol
  rcases List.eq_nil_or_concat before with rfl | ⟨front, previous, rfl⟩
  · exact absurd hline (lt_irrefl 0)
  rw [List.concat_eq_append] at hbetween
  have hmerged := mergeWithPrevious_state (hs'.trans hbetween)
  constructor
  case wellFormed =>
    rw [hmerged]
    exact EditorState.between_wellFormed
  case killRing => exact hring
  case lastAction => exact haction
  case backward =>
    intro _
    rw [hmerged, hbetween]
    simp [unlines]
  case forward =>
    intro h
    cases h

/-- A newline behind the cursor is killed. -/
theorem killed_next (hs : e.state.WellFormed) (hcol : e.state.line.length ≤ e.state.cursorCol)
    (hline : e.state.cursorLine < e.state.lines.length - 1)
    (hs' : e'.state = e.state) (hring : e'.killRing = KillRing.push e.killRing [10] false (e.lastAction = some .kill))
    (haction : e'.lastAction = some .kill) : Killed e e'.mergeWithNext [10] false := by
  rcases hs.exists_between with ⟨before, l, r, after, hbetween⟩
  rw [hbetween] at hcol hline
  obtain rfl : r = [] := by simpa using hcol
  rcases after with _ | ⟨next, after⟩
  · simp at hline
  have hmerged := mergeWithNext_state (hs'.trans hbetween)
  constructor
  case wellFormed =>
    rw [hmerged]
    exact EditorState.between_wellFormed
  case killRing => exact hring
  case lastAction => exact haction
  case backward =>
    intro h
    cases h
  case forward =>
    intro _
    rw [hmerged, hbetween]
    simp

/-- A part of the line at the cursor is killed. -/
theorem killed_line (hs : e.state.WellFormed) {isBackward : Bool} {start stop : ℕ} (hstart : start ≤ e.state.cursorCol)
    (hstop : e.state.cursorCol ≤ stop) (hside : if isBackward then stop = e.state.cursorCol else start = e.state.cursorCol)
    (hs' : e'.state = { e.state.setLine e.state.cursorLine (e.state.line.take start ++ e.state.line.drop stop) with
      cursorCol := start })
    (htext : text = (e.state.line.take stop).drop start)
    (hring : e'.killRing = KillRing.push e.killRing text isBackward (e.lastAction = some .kill))
    (haction : e'.lastAction = some .kill) : Killed e e' text isBackward := by
  rcases hs.exists_between with ⟨before, l, r, after, hbetween⟩
  rw [hbetween] at hstart hstop hside
  rw [hbetween, EditorState.between_line, EditorState.between_cursorLine, setLine_between] at hs'
  rw [hbetween, EditorState.between_line] at htext
  have hstart : start ≤ l.length := hstart
  have hstop : l.length ≤ stop := hstop
  have htake : (l ++ r).take start = l.take start := List.take_append_of_le_length hstart
  have hdrop : (l ++ r).drop stop = r.drop (stop - l.length) := by
    rw [List.drop_append, List.drop_eq_nil_of_le hstop, List.nil_append]
  have hbetween' : e'.state = .between before (l.take start) (r.drop (stop - l.length)) after := by
    rw [hs', htake, hdrop, EditorState.between, List.length_take_of_le hstart]
  constructor
  case wellFormed =>
    rw [hbetween']
    exact EditorState.between_wellFormed
  case killRing => exact hring
  case lastAction => exact haction
  case backward =>
    rintro rfl
    rw [if_pos rfl] at hside
    have hside : stop = l.length := hside
    subst hside
    rw [hbetween', hbetween, htext, List.take_left]
    simp [List.append_assoc]
  case forward =>
    rintro rfl
    have hside : start = l.length := hside
    subst hside
    rw [hbetween', hbetween, htext, List.take_append, List.take_of_length_le hstop, List.drop_left]
    simp [← List.append_assoc]

theorem killed_lineStart (hs : e.state.WellFormed) (hidle : Kill.isIdle .lineStart e.state = false) (seg : Segmenters) :
    Killed e e.deleteToStartOfLine (Kill.killed seg .lineStart e) true := by
  unfold deleteToStartOfLine Kill.killed
  dsimp only
  by_cases hcol : 0 < e.state.cursorCol
  · rw [if_pos (show 0 < e.exitHistoryBrowsing.state.cursorCol from hcol), if_pos hcol]
    refine killed_line hs (Nat.zero_le e.state.cursorCol) (le_refl e.state.cursorCol) rfl ?_ rfl rfl rfl
    simp [setCursorCol_state, setLine_state, exitHistoryBrowsing, kill, pushUndoSnapshot]
  · rw [if_neg (show ¬0 < e.exitHistoryBrowsing.state.cursorCol from hcol), if_neg hcol]
    have hline : 0 < e.state.cursorLine := by
      simpa [Kill.isIdle, Kill.isBackward, Nat.eq_zero_of_not_pos hcol, Nat.pos_iff_ne_zero] using hidle
    rw [if_pos (show 0 < e.exitHistoryBrowsing.state.cursorLine from hline)]
    exact killed_previous hs (by omega) hline rfl rfl rfl

theorem killed_lineEnd (hs : e.state.WellFormed) (hidle : Kill.isIdle .lineEnd e.state = false) (seg : Segmenters) :
    Killed e e.deleteToEndOfLine (Kill.killed seg .lineEnd e) false := by
  unfold deleteToEndOfLine Kill.killed
  dsimp only
  by_cases hcol : e.state.cursorCol < e.state.line.length
  · rw [if_pos (show e.exitHistoryBrowsing.state.cursorCol < e.exitHistoryBrowsing.state.line.length from hcol),
      if_pos hcol]
    refine killed_line hs (le_refl e.state.cursorCol) hs.cursorCol rfl ?_ ?_ rfl rfl
    · simp [setLine_state, exitHistoryBrowsing, kill, pushUndoSnapshot, EditorState.setLine]
    · rw [List.take_length]
  · rw [if_neg (show ¬e.exitHistoryBrowsing.state.cursorCol < e.exitHistoryBrowsing.state.line.length from hcol),
      if_neg hcol]
    have hline : e.state.cursorLine < e.state.lines.length - 1 := by
      simpa [Kill.isIdle, Kill.isBackward, Nat.not_lt.mp hcol] using hidle
    rw [if_pos (show e.exitHistoryBrowsing.state.cursorLine < e.exitHistoryBrowsing.state.lines.length - 1 from hline)]
    exact killed_next hs (by omega) hline rfl rfl rfl

theorem moveWordBackwards_eq (seg : Segmenters) (hcol : e.state.cursorCol ≠ 0) :
    e.moveWordBackwards seg = { e with lastAction := none }.setCursorCol
      (findWordBackward (e.wordSegments seg) e.state.line e.state.cursorCol) :=
  if_neg hcol

theorem moveWordForwards_eq (seg : Segmenters) (hcol : ¬e.state.line.length ≤ e.state.cursorCol) :
    e.moveWordForwards seg = { e with lastAction := none }.setCursorCol
      (findWordForward (e.wordSegments seg) e.state.line e.state.cursorCol) :=
  if_neg hcol

theorem killed_wordBackward (hs : e.state.WellFormed) (hidle : Kill.isIdle .wordBackward e.state = false)
    (seg : Segmenters) : Killed e (e.deleteWordBackwards seg) (Kill.killed seg .wordBackward e) true := by
  unfold deleteWordBackwards Kill.killed
  dsimp only
  by_cases hcol : e.state.cursorCol = 0
  · rw [if_pos (show e.exitHistoryBrowsing.state.cursorCol = 0 from hcol), if_pos hcol]
    have hline : 0 < e.state.cursorLine := by
      simpa [Kill.isIdle, Kill.isBackward, hcol, Nat.pos_iff_ne_zero] using hidle
    rw [if_pos (show 0 < e.exitHistoryBrowsing.state.cursorLine from hline)]
    exact killed_previous hs hcol hline rfl rfl rfl
  · rw [if_neg (show ¬e.exitHistoryBrowsing.state.cursorCol = 0 from hcol), if_neg hcol,
      moveWordBackwards_eq (e := e.exitHistoryBrowsing.pushUndoSnapshot) seg hcol]
    exact killed_line hs (findWordBackward_le (e.wordSegments seg) e.state.line e.state.cursorCol) le_rfl rfl rfl rfl rfl
      rfl

theorem killed_wordForward (hs : e.state.WellFormed) (hidle : Kill.isIdle .wordForward e.state = false)
    (seg : Segmenters) : Killed e (e.deleteWordForward seg) (Kill.killed seg .wordForward e) false := by
  unfold deleteWordForward Kill.killed
  dsimp only
  by_cases hcol : e.state.line.length ≤ e.state.cursorCol
  · rw [if_pos (show e.exitHistoryBrowsing.state.line.length ≤ e.exitHistoryBrowsing.state.cursorCol from hcol),
      if_pos hcol]
    have hline : e.state.cursorLine < e.state.lines.length - 1 := by
      simpa [Kill.isIdle, Kill.isBackward, hcol] using hidle
    rw [if_pos (show e.exitHistoryBrowsing.state.cursorLine < e.exitHistoryBrowsing.state.lines.length - 1 from hline)]
    exact killed_next hs hcol hline rfl rfl rfl
  · rw [if_neg (show ¬e.exitHistoryBrowsing.state.line.length ≤ e.exitHistoryBrowsing.state.cursorCol from hcol),
      if_neg hcol, moveWordForwards_eq (e := e.exitHistoryBrowsing.pushUndoSnapshot) seg hcol]
    exact killed_line hs le_rfl (le_findWordForward (e.wordSegments seg) e.state.line hs.cursorCol) rfl rfl rfl rfl rfl

end Editor

namespace Kill

variable {e : Editor} (seg : Segmenters)

theorem killed_apply (hs : e.state.WellFormed) {k : Kill} (hidle : k.isIdle e.state = false) :
    Killed e (k.apply seg e) (k.killed seg e) k.isBackward := by
  cases k with
  | lineStart => exact Editor.killed_lineStart hs hidle seg
  | lineEnd => exact Editor.killed_lineEnd hs hidle seg
  | wordBackward => exact Editor.killed_wordBackward hs hidle seg
  | wordForward => exact Editor.killed_wordForward hs hidle seg

theorem apply_idle {k : Kill} (hidle : k.isIdle e.state = true) : k.apply seg e = e.exitHistoryBrowsing := by
  have hstate : e.exitHistoryBrowsing.state = e.state := rfl
  cases k with
  | lineStart =>
    simp only [isIdle, isBackward, if_true, Bool.and_eq_true, decide_eq_true_eq] at hidle
    simp only [apply, Editor.deleteToStartOfLine, hstate, hidle.1, hidle.2, lt_irrefl, if_false]
  | lineEnd =>
    simp only [isIdle, isBackward, Bool.false_eq_true, if_false, Bool.and_eq_true, Bool.not_eq_true',
      decide_eq_false_iff_not] at hidle
    simp only [apply, Editor.deleteToEndOfLine, hstate, hidle.1, hidle.2, if_false]
  | wordBackward =>
    simp only [isIdle, isBackward, if_true, Bool.and_eq_true, decide_eq_true_eq] at hidle
    simp only [apply, Editor.deleteWordBackwards, hstate, hidle.1, hidle.2, lt_irrefl, if_true, if_false]
  | wordForward =>
    simp only [isIdle, isBackward, Bool.false_eq_true, if_false, Bool.and_eq_true, Bool.not_eq_true',
      decide_eq_false_iff_not] at hidle
    simp only [apply, Editor.deleteWordForward, hstate, not_lt.mp hidle.1, hidle.2, if_true, if_false]

end Kill

theorem KillRing.push_new {ring : List JsString} {text : JsString} (htext : text ≠ []) (prepend : Bool) :
    KillRing.push ring text prepend false = ring ++ [text] := by
  unfold KillRing.push
  rw [if_neg htext]
  split <;> rfl

theorem KillRing.push_concat (ring : List JsString) (last text : JsString) (prepend : Bool) :
    KillRing.push (ring ++ [last]) text prepend true = ring ++ [if prepend then text ++ last else last ++ text] := by
  unfold KillRing.push
  split
  · rename_i htext
    rw [htext]
    cases prepend <;> simp
  · simp

/-! ## Runs of kills -/

/-- What kills have taken on both sides of the cursor is the last of the kill ring. -/
structure Gathered (e₀ e : Editor) : Prop where
  wellFormed : e.state.WellFormed
  lastAction : e.lastAction = some .kill
  sides : ∃ a b ring, e.killRing = ring ++ [a ++ b] ∧ e₀.state.left = e.state.left ++ a ∧
    e₀.state.right = b ++ e.state.right

theorem Gathered.apply {e₀ e : Editor} (h : Gathered e₀ e) (seg : Segmenters) (k : Kill) :
    Gathered e₀ (k.apply seg e) := by
  rcases h.sides with ⟨a, b, ring, hring, hleft, hright⟩
  by_cases hidle : k.isIdle e.state = true
  · rw [Kill.apply_idle seg hidle]
    exact ⟨h.wellFormed, h.lastAction, a, b, ring, hring, hleft, hright⟩
  · have hk := Kill.killed_apply seg h.wellFormed (Bool.eq_false_of_not_eq_true hidle)
    have hring' := hk.killRing
    rw [h.lastAction, decide_eq_true rfl, hring, KillRing.push_concat] at hring'
    cases hback : k.isBackward with
    | true =>
      rcases hk.backward hback with ⟨hleft', hright'⟩
      refine ⟨hk.wellFormed, hk.lastAction, k.killed seg e ++ a, b, ring, ?_, ?_, ?_⟩
      · rw [hring', hback, if_pos rfl, List.append_assoc]
      · rw [hleft, hleft', List.append_assoc]
      · rw [hright, hright']
    | false =>
      rcases hk.forward hback with ⟨hright', hleft'⟩
      refine ⟨hk.wellFormed, hk.lastAction, a, b ++ k.killed seg e, ring, ?_, ?_, ?_⟩
      · rw [hring', hback, if_neg Bool.false_ne_true, List.append_assoc]
      · rw [hleft, hleft']
      · rw [hright, hright', List.append_assoc]

def runKills (seg : Segmenters) (e : Editor) (ks : List Kill) : Editor := ks.foldl (fun e k => k.apply seg e) e

theorem Gathered.runKills {e₀ e : Editor} (h : Gathered e₀ e) (seg : Segmenters) (ks : List Kill) :
    Gathered e₀ (runKills seg e ks) := by
  induction ks generalizing e with
  | nil => exact h
  | cons k ks ih => exact ih (h.apply seg k)

/-- Some kill of a run is not idle, and the first such takes a text. A word kill may take none: the boundary that it finds
may be the cursor. -/
def KillsFirst (seg : Segmenters) (e : Editor) (ks : List Kill) : Bool :=
  (ks.find? fun k => !k.isIdle e.state).any fun k => k.killed seg e ≠ []

/-- The first text that a run takes begins a new entry of the kill ring, unless the last action was a kill. -/
theorem gathered_runKills {e : Editor} (seg : Segmenters) (hs : e.state.WellFormed) (haction : e.lastAction ≠ some .kill)
    {ks : List Kill} (hfirst : KillsFirst seg e ks = true) : Gathered e (runKills seg e ks) := by
  induction ks generalizing e with
  | nil => cases hfirst
  | cons k ks ih =>
    by_cases hidle : k.isIdle e.state = true
    · have hrest : KillsFirst seg e.exitHistoryBrowsing ks = true := by
        rw [KillsFirst, List.find?_cons, hidle] at hfirst
        exact hfirst
      have hgathered := ih (e := e.exitHistoryBrowsing) hs haction hrest
      rw [runKills, List.foldl_cons, Kill.apply_idle seg hidle]
      exact ⟨hgathered.wellFormed, hgathered.lastAction, hgathered.sides⟩
    · rw [KillsFirst, List.find?_cons, Bool.eq_false_of_not_eq_true hidle, Bool.not_false, Option.any_some,
        decide_eq_true_eq] at hfirst
      have hk := Kill.killed_apply seg hs (Bool.eq_false_of_not_eq_true hidle)
      have hring := hk.killRing
      rw [decide_eq_false haction, KillRing.push_new hfirst] at hring
      refine Gathered.runKills (e := k.apply seg e) ⟨hk.wellFormed, hk.lastAction, ?_⟩ seg ks
      cases hback : k.isBackward with
      | true =>
        rcases hk.backward hback with ⟨hleft, hright⟩
        exact ⟨k.killed seg e, [], e.killRing, by rw [hring, List.append_nil], hleft, hright.symm⟩
      | false =>
        rcases hk.forward hback with ⟨hright, hleft⟩
        exact ⟨[], k.killed seg e, e.killRing, hring, by rw [hleft, List.append_nil], hright⟩

/-! ## Yanks -/

theorem insertYankedText_text {e : Editor} (hs : e.state.WellFormed) (text : JsString) :
    (e.insertYankedText text).getText = e.state.left ++ text ++ e.state.right := by
  rcases hs.exists_between with ⟨before, l, r, after, hbetween⟩
  rw [Editor.getText, hbetween, EditorState.between_left, EditorState.between_right]
  rcases splitOn_cases text with hone | ⟨first, mids, last, hlines, htext⟩
  · rw [Editor.insertYankedText_one hbetween hone, EditorState.between_wellFormed.joinLines, EditorState.between_left,
      EditorState.between_right]
    simp only [List.append_assoc]
  · rw [Editor.insertYankedText_lines hbetween hlines, EditorState.between_wellFormed.joinLines, EditorState.between_left,
      EditorState.between_right, htext]
    simp [unlines]

theorem Gathered.yank_text {e₀ e : Editor} (h : Gathered e₀ e) (hs : e₀.state.WellFormed) :
    e.yank.getText = e₀.getText := by
  rcases h.sides with ⟨a, b, ring, hring, hleft, hright⟩
  have hpeek : KillRing.peek e.killRing = some (a ++ b) := by rw [KillRing.peek, hring, List.getLast?_concat]
  have hyank : e.yank = { e.pushUndoSnapshot.insertYankedText (a ++ b) with lastAction := some .yank } := by
    rw [Editor.yank, hpeek]
  have htext : e.yank.getText = (e.pushUndoSnapshot.insertYankedText (a ++ b)).getText := by rw [hyank]; rfl
  rw [htext, insertYankedText_text (e := e.pushUndoSnapshot) h.wellFormed, Editor.getText, hs.joinLines, hleft, hright]
  show e.state.left ++ (a ++ b) ++ e.state.right = _
  simp only [List.append_assoc]

/-! ## Pops -/

/-- The entry of a kill ring that is so many places older than the most recent one. -/
def KillRing.older (ring : List JsString) (k : ℕ) : Option JsString := ring.reverse[k % ring.length]?

theorem KillRing.reverse_rotate (ring : List JsString) : (KillRing.rotate ring).reverse = ring.reverse.rotate 1 := by
  rcases List.eq_nil_or_concat ring with rfl | ⟨front, last, rfl⟩
  · rfl
  · rw [List.concat_eq_append, KillRing.rotate, List.getLast?_concat]
    dsimp only
    rcases front with _ | ⟨first, front⟩
    · simp
    · rw [if_pos (by simp), List.dropLast_concat, List.reverse_cons, List.reverse_append, List.reverse_singleton,
        List.singleton_append, List.rotate_cons_succ, List.rotate_zero]

theorem KillRing.reverse_iterate_rotate (ring : List JsString) (k : ℕ) :
    (KillRing.rotate^[k] ring).reverse = ring.reverse.rotate k := by
  induction k with
  | zero => simp
  | succ k ih => rw [Function.iterate_succ_apply', KillRing.reverse_rotate, ih, List.rotate_rotate]

theorem KillRing.peek_iterate_rotate {ring : List JsString} (hne : ring ≠ []) (k : ℕ) :
    KillRing.peek (KillRing.rotate^[k] ring) = KillRing.older ring k := by
  have hpos : 0 < ring.length := List.length_pos_iff.mpr hne
  rw [KillRing.peek, List.getLast?_eq_head?_reverse, KillRing.reverse_iterate_rotate, ← List.rotate_mod,
    List.length_reverse, List.head?_rotate (by rw [List.length_reverse]; exact Nat.mod_lt k hpos), KillRing.older]

theorem KillRing.length_iterate_rotate (ring : List JsString) (k : ℕ) :
    (KillRing.rotate^[k] ring).length = ring.length := by
  rw [← List.length_reverse, KillRing.reverse_iterate_rotate, List.length_rotate, List.length_reverse]

/-- Behind a yank and so many pops. -/
structure Yanked (e₀ e : Editor) (k : ℕ) : Prop where
  lastAction : e.lastAction = some .yank
  killRing : e.killRing = KillRing.rotate^[k] e₀.killRing
  state : ∃ entry, KillRing.older e₀.killRing k = some entry ∧ e.state = (e₀.insertYankedText entry).state

theorem yanked_yank {e : Editor} (hs : e.state.WellFormed) (hne : e.killRing ≠ []) : Yanked e e.yank 0 := by
  have hpeek := KillRing.peek_iterate_rotate hne 0
  rw [Function.iterate_zero_apply] at hpeek
  cases hentry : KillRing.peek e.killRing with
  | none =>
    rw [KillRing.peek, List.getLast?_eq_none_iff] at hentry
    exact absurd hentry hne
  | some entry =>
    have hyank : e.yank = { e.pushUndoSnapshot.insertYankedText entry with lastAction := some .yank } := by
      rw [Editor.yank, hentry]
    rw [hyank]
    exact ⟨rfl, Editor.insertYankedText_killRing _ _, entry, hpeek.symm.trans hentry,
      Editor.insertYankedText_congr hs (show e.pushUndoSnapshot.state = e.state from rfl)⟩

theorem Yanked.yankPop {e₀ e : Editor} {k : ℕ} (h : Yanked e₀ e k) (hs : e₀.state.WellFormed) (hne : e₀.killRing ≠ []) :
    Yanked e₀ e.yankPop (k + 1) := by
  rcases h.state with ⟨entry, hentry, hstate⟩
  have hlength : e.killRing.length = e₀.killRing.length := by rw [h.killRing, KillRing.length_iterate_rotate]
  unfold Editor.yankPop
  split
  · -- the ring has one entry, which is its own older one
    rename_i hwhy
    have hone : e₀.killRing.length ≤ 1 := by
      rw [← hlength]
      exact hwhy.resolve_left (not_not.mpr h.lastAction)
    rcases List.length_eq_one_iff.mp (le_antisymm hone (List.length_pos_iff.mpr hne)) with ⟨x, hx⟩
    refine ⟨h.lastAction, ?_, entry, ?_, hstate⟩
    · have hfixed : KillRing.rotate [x] = [x] := rfl
      rw [h.killRing, hx, Function.iterate_fixed hfixed, Function.iterate_fixed hfixed]
    · rw [← hentry, KillRing.older, KillRing.older, hx, List.length_singleton, Nat.mod_one, Nat.mod_one]
  · have hpeek : KillRing.peek e.killRing = some entry := by
      rw [h.killRing, KillRing.peek_iterate_rotate hne, hentry]
    have hdeleted : e.pushUndoSnapshot.deleteYankedText.state = e₀.state :=
      Editor.deleteYankedText_insertYankedText hs (show KillRing.peek e.pushUndoSnapshot.killRing = some entry from hpeek)
        hstate
    have hring : KillRing.rotate e.pushUndoSnapshot.deleteYankedText.killRing =
        KillRing.rotate^[k + 1] e₀.killRing := by
      rw [Editor.deleteYankedText_killRing, Function.iterate_succ_apply', ← h.killRing]
      rfl
    have hnext := KillRing.peek_iterate_rotate hne (k + 1)
    dsimp only
    rw [hring]
    cases hentry' : KillRing.peek (KillRing.rotate^[k + 1] e₀.killRing) with
    | none =>
      rw [KillRing.peek, List.getLast?_eq_none_iff, ← List.length_eq_zero_iff, KillRing.length_iterate_rotate,
        List.length_eq_zero_iff] at hentry'
      exact absurd hentry' hne
    | some entry' =>
      exact ⟨rfl, Editor.insertYankedText_killRing _ _, entry', hnext.symm.trans hentry',
        Editor.insertYankedText_congr hs hdeleted⟩

theorem yanked_yankPops {e : Editor} (hs : e.state.WellFormed) (hne : e.killRing ≠ []) (k : ℕ) :
    Yanked e (Editor.yankPop^[k] e.yank) k := by
  induction k with
  | zero => exact yanked_yank hs hne
  | succ k ih =>
    rw [Function.iterate_succ_apply']
    exact ih.yankPop hs hne

/-! ## Kill and yank -/

/-- A yank behind a run of kills gives back the text. Pops leave the text that a yank of an older entry would have given,
and what is around it. -/
theorem kill_yank (seg : Segmenters) (e : Editor) (hs : e.state.WellFormed) :
    (∀ ks, e.lastAction ≠ some .kill → KillsFirst seg e ks = true → (runKills seg e ks).yank.getText = e.getText) ∧
    ∀ k entry, KillRing.older e.killRing k = some entry →
      (Editor.yankPop^[k] e.yank).getText = Editor.getText (Editor.yank { e with killRing := [entry] }) ∧
        (Editor.yankPop^[k] e.yank).getText = e.state.left ++ entry ++ e.state.right := by
  refine ⟨fun ks haction hfirst => (gathered_runKills seg hs haction hfirst).yank_text hs, fun k entry hentry => ?_⟩
  have hne : e.killRing ≠ [] := by
    rintro hnil
    rw [hnil] at hentry
    cases hentry
  rcases (yanked_yankPops hs hne k).state with ⟨entry', hentry', hstate⟩
  obtain rfl : entry' = entry := Option.some.inj (hentry'.symm.trans hentry)
  have htext : (Editor.yankPop^[k] e.yank).getText = e.state.left ++ entry' ++ e.state.right := by
    rw [Editor.getText, hstate, ← Editor.getText, insertYankedText_text hs]
  refine ⟨?_, htext⟩
  rcases (yanked_yank (e := { e with killRing := [entry'] }) hs (by simp)).state with ⟨single, hsingle, hstate'⟩
  obtain rfl : single = entry' := (Option.some.inj hsingle).symm
  rw [htext, Editor.getText, hstate', ← Editor.getText]
  exact (insertYankedText_text (e := { e with killRing := [single] }) hs single).symm

/-- Every text is one word. -/
def oneWord : Segmenters where
  graphemes text := [{ segment := text, isWordLike := true }]
  words text := [{ segment := text, isWordLike := true }]

/-- The cursor is between `ab` and a newline. -/
def abThenD : Editor where
  state := { lines := [JsString.ofAscii "ab", JsString.ofAscii "d"], cursorLine := 0, cursorCol := 2 }
  killRing := [JsString.ofAscii "x", JsString.ofAscii "y"]

theorem kill_yank_abThenD :
    (runKills oneWord abThenD [.lineEnd, .wordBackward, .lineEnd]).yank.getText = JsString.ofAscii "ab\nd" ∧
      abThenD.yank.yankPop.getText = JsString.ofAscii "abx\nd" := by
  have h := kill_yank oneWord abThenD ⟨by decide, by decide⟩
  exact ⟨h.1 [.lineEnd, .wordBackward, .lineEnd] (by decide) (by decide), (h.2 1 (JsString.ofAscii "x") (by decide)).2⟩

/-- A kill at the end of the text takes nothing, and the yank puts in an older entry. -/
theorem older_kill_yanked : ∃ e : Editor, e.state.WellFormed ∧ e.lastAction = none ∧
    (runKills oneWord e [.lineEnd]).yank.getText ≠ e.getText :=
  ⟨{ killRing := [JsString.ofAscii "x"] }, ⟨by decide, by decide⟩, rfl, by decide⟩

end Phi.Tui
