import Phi.Tui.CursorMoves

/-!
# Undo

What an undo takes back is what has been done since the snapshot on top of the undo stack. A command puts at most one
snapshot there, and only when it begins a unit of undoing; a history that is browsed and typing that goes on belong to the
unit that has begun.
-/

namespace Phi.Tui

inductive Command where
  | insertCharacter (char : JsString)
  | handlePaste (pasted : JsString)
  | addNewLine
  | handleBackspace
  | handleForwardDelete
  | setText (text : JsString)
  | insertTextAtCursor (text : JsString)
  | applyCompletion (lines : List JsString) (cursorLine cursorCol : ℕ)
  | kill (k : Kill)
  | yank
  | yankPop
  | navigateHistory (up : Bool)
  | addToHistory (trimmed : JsString)
  | submitValue
  | undo
  | moveToLineStart
  | moveToLineEnd
  | moveWordBackwards
  | moveWordForwards
  | moveCursor (width : ℕ) (deltaLine deltaCol : ℤ)
  | pageScroll (width pageSize : ℕ) (direction : ℤ)
  | jumpToChar (char : JsString) (forward : Bool)
  | click (cursorLine cursorCol : ℕ)

namespace Command

/-- A submission takes the undo stack away, and an undo takes from it. -/
def isUndoable : Command → Bool
  | submitValue => false
  | undo => false
  | _ => true

variable (seg : Segmenters) (display : Display)

def apply : Command → Editor → Editor
  | insertCharacter char, e => e.insertCharacter char
  | handlePaste pasted, e => e.handlePaste pasted
  | addNewLine, e => e.addNewLine
  | handleBackspace, e => e.handleBackspace seg
  | handleForwardDelete, e => e.handleForwardDelete seg
  | setText text, e => e.setText text
  | insertTextAtCursor text, e => e.insertTextAtCursor text
  | applyCompletion lines cursorLine cursorCol, e => e.applyCompletion lines cursorLine cursorCol
  | kill k, e => k.apply seg e
  | yank, e => e.yank
  | yankPop, e => e.yankPop
  | navigateHistory up, e => e.navigateHistory up
  | addToHistory trimmed, e => e.addToHistory trimmed
  | submitValue, e => e.submitValue
  | undo, e => e.undo
  | moveToLineStart, e => e.moveToLineStart
  | moveToLineEnd, e => e.moveToLineEnd
  | moveWordBackwards, e => e.moveWordBackwards seg
  | moveWordForwards, e => e.moveWordForwards seg
  | moveCursor width deltaLine deltaCol, e => e.moveCursor seg display width deltaLine deltaCol
  | pageScroll width pageSize direction, e => e.pageScroll seg display width pageSize direction
  | jumpToChar char forward, e => e.jumpToChar char forward
  | click cursorLine cursorCol, e => e.click cursorLine cursorCol

/-- The command begins a unit of undoing. -/
def beginsUnit : Command → Editor → Bool
  | insertCharacter char, e => isWhitespaceChar char || e.lastAction ≠ some .typeWord
  | handlePaste _, _ => true
  | addNewLine, _ => true
  | handleBackspace, e => 0 < e.state.cursorCol || 0 < e.state.cursorLine
  | handleForwardDelete, e => e.state.cursorCol < e.state.line.length || e.state.cursorLine < e.state.lines.length - 1
  | setText text, e => e.getText ≠ normalizeText text
  | insertTextAtCursor text, _ => text ≠ []
  | applyCompletion _ _ _, _ => true
  | kill k, e => !k.isIdle e.state
  | yank, e => (KillRing.peek e.killRing).isSome
  | yankPop, e => e.lastAction = some .yank && 1 < e.killRing.length
  | navigateHistory up, e => e.historyIndex = none && up && e.history ≠ []
  | _, _ => false

/-! One equation for each of the commands that look at the editor. The match on all commands is large, and the proofs
below do not take it apart. -/

theorem beginsUnit_insertCharacter (char : JsString) (e : Editor) :
    (insertCharacter char).beginsUnit e = (isWhitespaceChar char || e.lastAction ≠ some .typeWord : Bool) := rfl

theorem beginsUnit_handleBackspace (e : Editor) :
    handleBackspace.beginsUnit e = (0 < e.state.cursorCol || 0 < e.state.cursorLine : Bool) := rfl

theorem beginsUnit_handleForwardDelete (e : Editor) :
    handleForwardDelete.beginsUnit e =
      (e.state.cursorCol < e.state.line.length || e.state.cursorLine < e.state.lines.length - 1 : Bool) := rfl

theorem beginsUnit_setText (text : JsString) (e : Editor) :
    (setText text).beginsUnit e = decide (e.getText ≠ normalizeText text) := rfl

theorem beginsUnit_insertTextAtCursor (text : JsString) (e : Editor) :
    (insertTextAtCursor text).beginsUnit e = decide (text ≠ []) := rfl

theorem beginsUnit_kill (k : Kill) (e : Editor) : (kill k).beginsUnit e = !k.isIdle e.state := rfl

theorem beginsUnit_yank (e : Editor) : yank.beginsUnit e = (KillRing.peek e.killRing).isSome := rfl

theorem beginsUnit_yankPop (e : Editor) :
    yankPop.beginsUnit e = (e.lastAction = some .yank && 1 < e.killRing.length : Bool) := rfl

theorem beginsUnit_navigateHistory (up : Bool) (e : Editor) :
    (navigateHistory up).beginsUnit e = (e.historyIndex = none && up && e.history ≠ [] : Bool) := rfl

end Command

namespace Editor

def snapshot (e : Editor) : EditorSnapshot := { state := e.state, pastes := e.pastes, pasteCounter := e.pasteCounter }

/-- The snapshot that a command leaves on top of the undo stack, if it begins a unit. -/
def begun (c : Command) (e : Editor) : Editor := if c.beginsUnit e then e.pushUndoSnapshot else e

/-- The undo stack is the same, and the draft is the same or has been given up. -/
structure Kept (e e' : Editor) : Prop where
  undoStack : e'.undoStack = e.undoStack
  historyDraft : e'.historyDraft = none ∨ e'.historyDraft = e.historyDraft

variable {e e' e'' : Editor}

theorem Kept.refl (e : Editor) : Kept e e := ⟨rfl, .inr rfl⟩

theorem Kept.trans (h : Kept e e') (h' : Kept e' e'') : Kept e e'' where
  undoStack := h'.undoStack.trans h.undoStack
  historyDraft := by
    rcases h'.historyDraft with hnone | hsame
    · exact .inl hnone
    · rw [hsame]
      exact h.historyDraft

/-! ## Parts of the commands -/

@[simp] theorem exitHistoryBrowsing_state (e : Editor) : e.exitHistoryBrowsing.state = e.state := rfl

theorem kept_exitHistoryBrowsing (e : Editor) : Kept e e.exitHistoryBrowsing := ⟨rfl, .inl rfl⟩

theorem kept_lastAction (e : Editor) (lastAction : Option LastAction) : Kept e { e with lastAction } := ⟨rfl, .inr rfl⟩

theorem kept_setCursorCol (e : Editor) (state : EditorState) (col : ℕ) :
    Kept e ({ e with state }.setCursorCol col) := ⟨rfl, .inr rfl⟩

theorem kept_insertTextAtCursorInternal (e : Editor) (text : JsString) : Kept e (e.insertTextAtCursorInternal text) := by
  unfold insertTextAtCursorInternal
  split
  · exact Kept.refl e
  · dsimp only
    split <;> exact kept_setCursorCol e _ _

theorem kept_insertYankedText (e : Editor) (text : JsString) : Kept e (e.insertYankedText text) := by
  unfold insertYankedText
  dsimp only
  split <;> exact ⟨rfl, .inl rfl⟩

theorem kept_deleteYankedText (e : Editor) : Kept e e.deleteYankedText := by
  unfold deleteYankedText
  split
  · exact Kept.refl e
  · dsimp only
    split
    · exact Kept.refl e
    · split <;> exact kept_setCursorCol e _ _

theorem kept_setTextInternal (e : Editor) (text : JsString) (atStart : Bool) : Kept e (e.setTextInternal text atStart) :=
  ⟨rfl, .inr rfl⟩

theorem kept_moveToVisualLine (seg : Segmenters) (visualLines : List VisualLine) (current fuel target : ℕ) (e : Editor) :
    Kept e (e.moveToVisualLine seg visualLines current fuel target) := by
  induction fuel generalizing target e with
  | zero => exact Kept.refl e
  | succ fuel ih =>
    unfold moveToVisualLine
    split
    · dsimp only
      split
      · exact ⟨rfl, .inr rfl⟩
      · split
        · refine Kept.trans ?_ (ih _ _)
          exact ⟨rfl, .inr rfl⟩
        · exact ⟨rfl, .inr rfl⟩
    · exact Kept.refl e

theorem kept_moveRight (seg : Segmenters) (visualLines : List VisualLine) (current : ℕ) (e : Editor) :
    Kept e (e.moveRight seg visualLines current) := by
  unfold moveRight
  dsimp only
  split
  · exact kept_setCursorCol e e.state _
  · split
    · exact kept_setCursorCol e _ _
    · split
      · exact ⟨rfl, .inr rfl⟩
      · exact Kept.refl e

theorem kept_moveLeft (seg : Segmenters) (e : Editor) : Kept e (e.moveLeft seg) := by
  unfold moveLeft
  split
  · exact kept_setCursorCol e e.state _
  · split
    · exact kept_setCursorCol e _ _
    · exact Kept.refl e

theorem kept_moveWordBackwards (seg : Segmenters) (e : Editor) : Kept e (e.moveWordBackwards seg) := by
  unfold moveWordBackwards
  dsimp only
  split
  · split <;> exact ⟨rfl, .inr rfl⟩
  · exact ⟨rfl, .inr rfl⟩

theorem kept_moveWordForwards (seg : Segmenters) (e : Editor) : Kept e (e.moveWordForwards seg) := by
  unfold moveWordForwards
  dsimp only
  split
  · split <;> exact ⟨rfl, .inr rfl⟩
  · exact ⟨rfl, .inr rfl⟩

/-! ## The commands -/

theorem begun_of_beginsUnit {c : Command} (h : c.beginsUnit e = true) : e.begun c = e.pushUndoSnapshot := if_pos h

theorem begun_of_not_beginsUnit {c : Command} (h : ¬c.beginsUnit e = true) : e.begun c = e := if_neg h

theorem kept_insertCharacter (e : Editor) (char : JsString) :
    Kept (e.begun (.insertCharacter char)) (e.insertCharacter char) := by
  unfold insertCharacter begun
  simp only [Command.beginsUnit_insertCharacter, Bool.or_eq_true, decide_eq_true_eq]
  have hsame : e.exitHistoryBrowsing.lastAction = e.lastAction := rfl
  rw [hsame]
  split <;> exact ⟨rfl, .inl rfl⟩

theorem kept_handlePaste (e : Editor) (pasted : JsString) : Kept e.pushUndoSnapshot (e.handlePaste pasted) := by
  unfold handlePaste
  dsimp only
  split
  · refine Kept.trans ?_ (kept_insertTextAtCursorInternal _ _)
    exact ⟨rfl, .inl rfl⟩
  · refine Kept.trans ?_ (kept_insertTextAtCursorInternal _ _)
    exact ⟨rfl, .inl rfl⟩

theorem kept_handleBackspace (seg : Segmenters) (e : Editor) :
    Kept (e.begun .handleBackspace) (e.handleBackspace seg) := by
  have hbegins : Command.handleBackspace.beginsUnit e = true ↔ 0 < e.state.cursorCol ∨ 0 < e.state.cursorLine := by
    simp [Command.beginsUnit_handleBackspace]
  unfold handleBackspace
  dsimp only
  split
  · rename_i hcol
    rw [begun_of_beginsUnit (hbegins.mpr (.inl hcol))]
    split <;> exact ⟨rfl, .inl rfl⟩
  · rename_i hcol
    split
    · rename_i hline
      rw [begun_of_beginsUnit (hbegins.mpr (.inr hline))]
      exact ⟨rfl, .inl rfl⟩
    · rename_i hline
      rw [begun_of_not_beginsUnit (mt hbegins.mp (not_or.mpr ⟨hcol, hline⟩))]
      exact ⟨rfl, .inl rfl⟩

theorem kept_handleForwardDelete (seg : Segmenters) (e : Editor) :
    Kept (e.begun .handleForwardDelete) (e.handleForwardDelete seg) := by
  have hbegins : Command.handleForwardDelete.beginsUnit e = true ↔
      e.state.cursorCol < e.state.line.length ∨ e.state.cursorLine < e.state.lines.length - 1 := by
    simp [Command.beginsUnit_handleForwardDelete]
  unfold handleForwardDelete
  dsimp only
  split
  · rename_i hcol
    rw [begun_of_beginsUnit (hbegins.mpr (.inl hcol))]
    exact ⟨rfl, .inl rfl⟩
  · rename_i hcol
    split
    · rename_i hline
      rw [begun_of_beginsUnit (hbegins.mpr (.inr hline))]
      exact ⟨rfl, .inl rfl⟩
    · rename_i hline
      rw [begun_of_not_beginsUnit (mt hbegins.mp (not_or.mpr ⟨hcol, hline⟩))]
      exact ⟨rfl, .inl rfl⟩

theorem kept_setText (e : Editor) (text : JsString) : Kept (e.begun (.setText text)) (e.setText text) := by
  have htext : ({ e.exitHistoryBrowsing with lastAction := none } : Editor).getText = e.getText := rfl
  unfold setText begun
  simp only [Command.beginsUnit_setText, decide_eq_true_eq, htext]
  split <;> exact ⟨rfl, .inl rfl⟩

theorem kept_insertTextAtCursor (e : Editor) (text : JsString) :
    Kept (e.begun (.insertTextAtCursor text)) (e.insertTextAtCursor text) := by
  unfold insertTextAtCursor begun
  simp only [Command.beginsUnit_insertTextAtCursor, decide_eq_true_eq]
  by_cases htext : text = []
  · rw [if_pos htext, if_neg (not_not.mpr htext)]
    exact Kept.refl e
  · rw [if_neg htext, if_pos htext]
    refine Kept.trans ?_ (kept_insertTextAtCursorInternal _ _)
    exact ⟨rfl, .inl rfl⟩

theorem kept_applyCompletion (e : Editor) (lines : List JsString) (cursorLine cursorCol : ℕ) :
    Kept e.pushUndoSnapshot (e.applyCompletion lines cursorLine cursorCol) := ⟨rfl, .inr rfl⟩

theorem kept_kill (seg : Segmenters) (e : Editor) (k : Kill) : Kept (e.begun (.kill k)) (k.apply seg e) := by
  by_cases hidle : k.isIdle e.state = true
  · rw [Kill.apply_idle seg hidle, begun_of_not_beginsUnit (by simp [Command.beginsUnit_kill, hidle])]
    exact kept_exitHistoryBrowsing e
  · rw [begun_of_beginsUnit (by simp [Command.beginsUnit_kill, hidle])]
    cases k with
    | lineStart =>
      simp only [Kill.isIdle, Kill.isBackward, if_true, Bool.and_eq_true, decide_eq_true_eq] at hidle
      show Kept e.pushUndoSnapshot e.deleteToStartOfLine
      unfold deleteToStartOfLine
      dsimp only
      split
      · exact ⟨rfl, .inl rfl⟩
      · rename_i hcol
        split
        · exact ⟨rfl, .inl rfl⟩
        · rename_i hline
          exact absurd ⟨Nat.eq_zero_of_not_pos hline, Nat.eq_zero_of_not_pos hcol⟩ hidle
    | lineEnd =>
      simp only [Kill.isIdle, Kill.isBackward, Bool.false_eq_true, if_false, Bool.and_eq_true, Bool.not_eq_true',
        decide_eq_false_iff_not] at hidle
      show Kept e.pushUndoSnapshot e.deleteToEndOfLine
      unfold deleteToEndOfLine
      dsimp only
      split
      · exact ⟨rfl, .inl rfl⟩
      · split
        · exact ⟨rfl, .inl rfl⟩
        · exact absurd ⟨‹_›, ‹_›⟩ hidle
    | wordBackward =>
      simp only [Kill.isIdle, Kill.isBackward, if_true, Bool.and_eq_true, decide_eq_true_eq] at hidle
      show Kept e.pushUndoSnapshot (e.deleteWordBackwards seg)
      unfold deleteWordBackwards
      dsimp only
      split
      · rename_i hcol
        split
        · exact ⟨rfl, .inl rfl⟩
        · rename_i hline
          exact absurd ⟨Nat.eq_zero_of_not_pos hline, hcol⟩ hidle
      · have hmove := kept_moveWordBackwards seg e.exitHistoryBrowsing.pushUndoSnapshot
        exact ⟨hmove.undoStack, .inl (hmove.historyDraft.elim id fun h => h)⟩
    | wordForward =>
      simp only [Kill.isIdle, Kill.isBackward, Bool.false_eq_true, if_false, Bool.and_eq_true, Bool.not_eq_true',
        decide_eq_false_iff_not, not_lt] at hidle
      show Kept e.pushUndoSnapshot (e.deleteWordForward seg)
      unfold deleteWordForward
      dsimp only
      split
      · rename_i hcol
        split
        · exact ⟨rfl, .inl rfl⟩
        · rename_i hline
          exact absurd ⟨hcol, not_lt.mp hline⟩ hidle
      · have hmove := kept_moveWordForwards seg e.exitHistoryBrowsing.pushUndoSnapshot
        exact ⟨hmove.undoStack, .inl (hmove.historyDraft.elim id fun h => h)⟩

theorem kept_yank (e : Editor) : Kept (e.begun .yank) e.yank := by
  unfold yank
  split
  · rename_i hpeek
    rw [begun_of_not_beginsUnit (by simp [Command.beginsUnit_yank, hpeek])]
    exact Kept.refl e
  · rename_i text hpeek
    rw [begun_of_beginsUnit (by simp [Command.beginsUnit_yank, hpeek])]
    exact (kept_insertYankedText e.pushUndoSnapshot text).trans (kept_lastAction _ _)

theorem kept_yankPop (e : Editor) : Kept (e.begun .yankPop) e.yankPop := by
  unfold yankPop begun
  simp only [Command.beginsUnit_yankPop, Bool.and_eq_true, decide_eq_true_eq]
  by_cases hwhy : e.lastAction ≠ some .yank ∨ e.killRing.length ≤ 1
  · rw [if_pos hwhy, if_neg (fun h => hwhy.elim (· h.1) (Nat.not_le.mpr h.2))]
    exact Kept.refl e
  · rw [if_neg hwhy, if_pos ⟨not_not.mp fun h => hwhy (.inl h), Nat.lt_of_not_le fun h => hwhy (.inr h)⟩]
    refine (kept_deleteYankedText e.pushUndoSnapshot).trans ?_
    split
    · exact ⟨rfl, .inr rfl⟩
    · rename_i text hpeek
      refine Kept.trans ?_ ((kept_insertYankedText _ text).trans (kept_lastAction _ _))
      exact ⟨rfl, .inr rfl⟩

theorem kept_moveCursor (seg : Segmenters) (display : Display) (width : ℕ) (deltaLine deltaCol : ℤ) (e : Editor) :
    Kept e (e.moveCursor seg display width deltaLine deltaCol) := by
  unfold moveCursor
  dsimp only
  refine (kept_lastAction e none).trans ?_
  split
  · exact Kept.refl _
  · rename_i visualLines hlines
    have hvertical : ∀ (current : ℕ) (target : ℕ), Kept { e with lastAction := none }
        (if deltaLine ≠ 0 ∧ 0 ≤ current + deltaLine ∧ current + deltaLine < visualLines.length then
          { e with lastAction := none }.moveToVisualLine seg visualLines current (visualLines.length + 1) target
        else { e with lastAction := none }) := by
      intro current target
      split
      · exact kept_moveToVisualLine seg visualLines current _ target _
      · exact Kept.refl _
    split
    · exact (hvertical _ _).trans (kept_moveRight seg visualLines _ _)
    · split
      · exact (hvertical _ _).trans (kept_moveLeft seg _)
      · exact hvertical _ _

theorem kept_pageScroll (seg : Segmenters) (display : Display) (width pageSize : ℕ) (direction : ℤ) (e : Editor) :
    Kept e (e.pageScroll seg display width pageSize direction) := by
  unfold pageScroll
  dsimp only
  refine (kept_lastAction e none).trans ?_
  split
  · exact Kept.refl _
  · exact kept_moveToVisualLine seg _ _ _ _ _

theorem kept_jumpToChar (e : Editor) (char : JsString) (forward : Bool) : Kept e (e.jumpToChar char forward) := by
  unfold jumpToChar
  dsimp only
  split <;> exact ⟨rfl, .inr rfl⟩

theorem kept_addToHistory (e : Editor) (trimmed : JsString) : Kept e (e.addToHistory trimmed) := by
  unfold addToHistory
  split <;> exact ⟨rfl, .inr rfl⟩

theorem kept_navigateHistory {up : Bool} (e : Editor) (hbegins : ¬(Command.navigateHistory up).beginsUnit e = true) :
    Kept e (e.navigateHistory up) := by
  unfold navigateHistory
  dsimp only
  split
  · exact kept_lastAction e none
  · rename_i hhistory
    split
    · exact kept_lastAction e none
    · rename_i historyIndex hnext
      have hbrowsing : e.historyIndex ≠ none := by
        intro hnone
        cases up with
        | false => simp [nextHistoryIndex, hnone] at hnext
        | true => exact hbegins (by simp [Command.beginsUnit_navigateHistory, hnone]; exact hhistory)
      rw [if_neg hbrowsing]
      unfold showHistory
      dsimp only
      split
      · exact ⟨rfl, .inr rfl⟩
      · split
        · exact ⟨rfl, .inl rfl⟩
        · exact ⟨rfl, .inr rfl⟩

theorem navigateHistory_entering {up : Bool} {e : Editor} (hbegins : (Command.navigateHistory up).beginsUnit e = true) :
    e.navigateHistory up =
      { e.pushUndoSnapshot with lastAction := none, historyDraft := some e.state, historyIndex := some 0 }.setTextInternal
        (e.history.getD 0 []) true := by
  simp only [Command.beginsUnit_navigateHistory, Bool.and_eq_true, decide_eq_true_eq] at hbegins
  rcases hbegins with ⟨⟨hnone, rfl⟩, hhistory⟩
  have hnext : ({ e with lastAction := none } : Editor).nextHistoryIndex true = some (some 0) := by
    simp [nextHistoryIndex, hnone, List.length_pos_iff.mpr hhistory]
  unfold navigateHistory
  dsimp only
  rw [if_neg hhistory, hnext]
  dsimp only
  rw [if_pos hnone]
  rfl

/-- What a command leaves of the undo stack and of the draft. Only entering the history makes a draft. -/
theorem kept_apply (seg : Segmenters) (display : Display) {c : Command} (hc : c.isUndoable = true) (e : Editor)
    (hhistory : ∀ up, c = .navigateHistory up → ¬c.beginsUnit e = true) : Kept (e.begun c) (c.apply seg display e) := by
  cases c with
  | insertCharacter char => exact kept_insertCharacter e char
  | handlePaste pasted => exact kept_handlePaste e pasted
  | addNewLine => exact ⟨rfl, .inl rfl⟩
  | handleBackspace => exact kept_handleBackspace seg e
  | handleForwardDelete => exact kept_handleForwardDelete seg e
  | setText text => exact kept_setText e text
  | insertTextAtCursor text => exact kept_insertTextAtCursor e text
  | applyCompletion lines cursorLine cursorCol => exact kept_applyCompletion e lines cursorLine cursorCol
  | kill k => exact kept_kill seg e k
  | yank => exact kept_yank e
  | yankPop => exact kept_yankPop e
  | navigateHistory up =>
    rw [begun_of_not_beginsUnit (hhistory up rfl)]
    exact kept_navigateHistory e (hhistory up rfl)
  | addToHistory trimmed => exact kept_addToHistory e trimmed
  | submitValue => cases hc
  | undo => cases hc
  | moveToLineStart => exact ⟨rfl, .inr rfl⟩
  | moveToLineEnd => exact ⟨rfl, .inr rfl⟩
  | moveWordBackwards => exact kept_moveWordBackwards seg e
  | moveWordForwards => exact kept_moveWordForwards seg e
  | moveCursor width deltaLine deltaCol => exact kept_moveCursor seg display width deltaLine deltaCol e
  | pageScroll width pageSize direction => exact kept_pageScroll seg display width pageSize direction e
  | jumpToChar char forward => exact kept_jumpToChar e char forward
  | click cursorLine cursorCol => exact ⟨rfl, .inl rfl⟩

theorem undoStack_apply (seg : Segmenters) (display : Display) {c : Command} (hc : c.isUndoable = true) (e : Editor) :
    (c.apply seg display e).undoStack = (e.begun c).undoStack := by
  by_cases hentering : ∃ up, c = .navigateHistory up ∧ c.beginsUnit e = true
  · rcases hentering with ⟨up, rfl, hbegins⟩
    rw [begun_of_beginsUnit hbegins, Command.apply, navigateHistory_entering hbegins]
    rfl
  · have hkept := kept_apply seg display hc e fun up hup hbegins => hentering ⟨up, hup, hbegins⟩
    exact hkept.undoStack

end Editor

end Phi.Tui
