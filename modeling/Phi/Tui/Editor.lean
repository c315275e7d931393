import Phi.Data.Lines
import Phi.Data.Table
import Phi.Tui.WordNavigation

/-!
# The editor

Model of the state of `Editor` of `packages/tui/src/components/editor.ts`, of its kill ring (`kill-ring.ts`) and of its
undo stack (`undo-stack.ts`). Lines are lists of UTF-16 code units without a newline. The last of the kill ring is its
most recent entry; the first of the undo stack is its top.
-/

namespace Phi.Tui

/-! ## State -/

structure EditorState where
  lines : List JsString
  cursorLine : ℕ
  cursorCol : ℕ

structure EditorSnapshot where
  state : EditorState
  pastes : Table ℕ JsString
  pasteCounter : ℕ

inductive LastAction where
  | kill
  | yank
  | typeWord
deriving DecidableEq

structure Editor where
  state : EditorState := { lines := [[]], cursorLine := 0, cursorCol := 0 }
  pastes : Table ℕ JsString := []
  pasteCounter : ℕ := 0
  history : List JsString := []
  historyIndex : Option ℕ := none
  historyDraft : Option EditorState := none
  killRing : List JsString := []
  lastAction : Option LastAction := none
  preferredVisualCol : Option ℕ := none
  snappedFromCursorCol : Option ℕ := none
  undoStack : List EditorSnapshot := []

/-- What `Intl.Segmenter` makes of a text. -/
structure Segmenters where
  graphemes : JsString → List WordSegment
  words : JsString → List WordSegment

/-- `lines.join("\n")`. -/
def joinLines (lines : List JsString) : JsString := List.intercalate [10] lines

def EditorState.line (s : EditorState) : JsString := s.lines.getD s.cursorLine []

def EditorState.setLine (s : EditorState) (i : ℕ) (line : JsString) : EditorState :=
  { s with lines := s.lines.set i line }

namespace KillRing

def push (ring : List JsString) (text : JsString) (prepend accumulate : Bool) : List JsString :=
  if text = [] then ring
  else
    match ring.getLast? with
    | some last =>
      if accumulate then ring.dropLast ++ [if prepend then text ++ last else last ++ text] else ring ++ [text]
    | none => ring ++ [text]

def peek (ring : List JsString) : Option JsString := ring.getLast?

def rotate (ring : List JsString) : List JsString :=
  match ring.getLast? with
  | some last => if 1 < ring.length then last :: ring.dropLast else ring
  | none => ring

end KillRing

namespace Editor

def getText (e : Editor) : JsString := joinLines e.state.lines

def pushUndoSnapshot (e : Editor) : Editor :=
  { e with undoStack := { state := e.state, pastes := e.pastes, pasteCounter := e.pasteCounter } :: e.undoStack }

def exitHistoryBrowsing (e : Editor) : Editor := { e with historyIndex := none, historyDraft := none }

def setCursorCol (e : Editor) (col : ℕ) : Editor :=
  { e with state := { e.state with cursorCol := col }, preferredVisualCol := none, snappedFromCursorCol := none }

def setLine (e : Editor) (i : ℕ) (line : JsString) : Editor := { e with state := e.state.setLine i line }

/-- The line becomes one with the line before it. -/
def mergeWithPrevious (e : Editor) : Editor :=
  let previousLine := e.state.lines.getD (e.state.cursorLine - 1) []
  let lines := (e.state.lines.set (e.state.cursorLine - 1) (previousLine ++ e.state.line)).eraseIdx e.state.cursorLine
  { e with state := { e.state with lines, cursorLine := e.state.cursorLine - 1 } }.setCursorCol previousLine.length

/-- The line becomes one with the line after it. -/
def mergeWithNext (e : Editor) : Editor :=
  let nextLine := e.state.lines.getD (e.state.cursorLine + 1) []
  let lines := (e.state.lines.set e.state.cursorLine (e.state.line ++ nextLine)).eraseIdx (e.state.cursorLine + 1)
  { e with state := { e.state with lines } }

/-! ## Kills -/

/-- The text goes to the kill ring. -/
def kill (e : Editor) (text : JsString) (prepend : Bool) : Editor :=
  { e with
    killRing := KillRing.push e.killRing text prepend (e.lastAction = some .kill)
    lastAction := some .kill }

def deleteToStartOfLine (e : Editor) : Editor :=
  let e := e.exitHistoryBrowsing
  let currentLine := e.state.line
  if 0 < e.state.cursorCol then
    let e := e.pushUndoSnapshot.kill (currentLine.take e.state.cursorCol) true
    (e.setLine e.state.cursorLine (currentLine.drop e.state.cursorCol)).setCursorCol 0
  else if 0 < e.state.cursorLine then (e.pushUndoSnapshot.kill [10] true).mergeWithPrevious
  else e

def deleteToEndOfLine (e : Editor) : Editor :=
  let e := e.exitHistoryBrowsing
  let currentLine := e.state.line
  if e.state.cursorCol < currentLine.length then
    let e := e.pushUndoSnapshot.kill (currentLine.drop e.state.cursorCol) false
    e.setLine e.state.cursorLine (currentLine.take e.state.cursorCol)
  else if e.state.cursorLine < e.state.lines.length - 1 then (e.pushUndoSnapshot.kill [10] false).mergeWithNext
  else e

section

variable (seg : Segmenters)

def wordSegments (e : Editor) (text : JsString) : List WordSegment := segmentWithMarkers text seg.words e.pastes.keys

def moveWordBackwards (e : Editor) : Editor :=
  let e := { e with lastAction := none }
  let currentLine := e.state.line
  if e.state.cursorCol = 0 then
    if 0 < e.state.cursorLine then
      let e := { e with state := { e.state with cursorLine := e.state.cursorLine - 1 } }
      e.setCursorCol e.state.line.length
    else e
  else e.setCursorCol (findWordBackward (e.wordSegments seg) currentLine e.state.cursorCol)

def moveWordForwards (e : Editor) : Editor :=
  let e := { e with lastAction := none }
  let currentLine := e.state.line
  if currentLine.length ≤ e.state.cursorCol then
    if e.state.cursorLine < e.state.lines.length - 1 then
      { e with state := { e.state with cursorLine := e.state.cursorLine + 1 } }.setCursorCol 0
    else e
  else e.setCursorCol (findWordForward (e.wordSegments seg) currentLine e.state.cursorCol)

def deleteWordBackwards (e : Editor) : Editor :=
  let e := e.exitHistoryBrowsing
  let currentLine := e.state.line
  if e.state.cursorCol = 0 then
    if 0 < e.state.cursorLine then (e.pushUndoSnapshot.kill [10] true).mergeWithPrevious else e
  else
    let e := e.pushUndoSnapshot
    let wasKill := e.lastAction
    let oldCursorCol := e.state.cursorCol
    let e := e.moveWordBackwards seg
    let deleteFrom := e.state.cursorCol
    let e := { e.setCursorCol oldCursorCol with lastAction := wasKill }
    let e := e.kill ((currentLine.take oldCursorCol).drop deleteFrom) true
    (e.setLine e.state.cursorLine (currentLine.take deleteFrom ++ currentLine.drop oldCursorCol)).setCursorCol deleteFrom

def deleteWordForward (e : Editor) : Editor :=
  let e := e.exitHistoryBrowsing
  let currentLine := e.state.line
  if currentLine.length ≤ e.state.cursorCol then
    if e.state.cursorLine < e.state.lines.length - 1 then (e.pushUndoSnapshot.kill [10] false).mergeWithNext else e
  else
    let e := e.pushUndoSnapshot
    let wasKill := e.lastAction
    let oldCursorCol := e.state.cursorCol
    let e := e.moveWordForwards seg
    let deleteTo := e.state.cursorCol
    let e := { e.setCursorCol oldCursorCol with lastAction := wasKill }
    let e := e.kill ((currentLine.take deleteTo).drop oldCursorCol) false
    e.setLine e.state.cursorLine (currentLine.take oldCursorCol ++ currentLine.drop deleteTo)

end

/-! ## Yanks -/

/-- The lines are put in one behind another, from an index on. -/
def insertLines : ℕ → List JsString → List JsString → List JsString
  | _, [], lines => lines
  | i, line :: rest, lines => insertLines (i + 1) rest (lines.insertIdx i line)

def insertYankedText (e : Editor) (text : JsString) : Editor :=
  let e := e.exitHistoryBrowsing
  let lines := text.splitOn 10
  let before := e.state.line.take e.state.cursorCol
  let after := e.state.line.drop e.state.cursorCol
  if lines.length = 1 then
    (e.setLine e.state.cursorLine (before ++ text ++ after)).setCursorCol (e.state.cursorCol + text.length)
  else
    let lastLine := lines.getLastD []
    let stateLines := e.state.lines.set e.state.cursorLine (before ++ lines.headD [])
    let stateLines := insertLines (e.state.cursorLine + 1) lines.dropLast.tail stateLines
    let lastLineIndex := e.state.cursorLine + lines.length - 1
    let stateLines := stateLines.insertIdx lastLineIndex (lastLine ++ after)
    { e with state := { e.state with lines := stateLines, cursorLine := lastLineIndex } }.setCursorCol lastLine.length

/-- The text that was yanked last is taken out again. -/
def deleteYankedText (e : Editor) : Editor :=
  match KillRing.peek e.killRing with
  | none => e
  | some yankedText =>
    if yankedText = [] then e
    else
      let yankLines := yankedText.splitOn 10
      if yankLines.length = 1 then
        let deleteLen := yankedText.length
        let before := e.state.line.take (e.state.cursorCol - deleteLen)
        let after := e.state.line.drop e.state.cursorCol
        (e.setLine e.state.cursorLine (before ++ after)).setCursorCol (e.state.cursorCol - deleteLen)
      else
        let startLine := e.state.cursorLine - (yankLines.length - 1)
        let first := e.state.lines.getD startLine []
        let startCol := first.length - (yankLines.headD []).length
        let afterCursor := e.state.line.drop e.state.cursorCol
        let beforeYank := first.take startCol
        let lines := e.state.lines.take startLine ++ (beforeYank ++ afterCursor) ::
          e.state.lines.drop (startLine + yankLines.length)
        { e with state := { e.state with lines, cursorLine := startLine } }.setCursorCol startCol

def yank (e : Editor) : Editor :=
  match KillRing.peek e.killRing with
  | none => e
  | some text => { e.pushUndoSnapshot.insertYankedText text with lastAction := some .yank }

def yankPop (e : Editor) : Editor :=
  if e.lastAction ≠ some .yank ∨ e.killRing.length ≤ 1 then e
  else
    let e := e.pushUndoSnapshot.deleteYankedText
    let e := { e with killRing := KillRing.rotate e.killRing }
    match KillRing.peek e.killRing with
    | none => e
    | some text => { e.insertYankedText text with lastAction := some .yank }

end Editor

end Phi.Tui
