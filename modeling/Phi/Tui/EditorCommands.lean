import Mathlib.Data.List.Sort
import Phi.Tui.KillYank

/-!
# Commands of the editor

Model of what changes the text, the cursor or the pastes of `Editor` of `packages/tui/src/components/editor.ts`. Keys
choose among these commands. Where the mouse puts the cursor, and what an autocompletion makes of the text, is given with
the command. A column below zero is taken for zero.
-/

namespace Phi.Tui

/-! ## Texts -/

/-- Line endings become newlines, and tabs four spaces. -/
def normalizeText : JsString → JsString
  | [] => []
  | 13 :: 10 :: text => 10 :: normalizeText text
  | 13 :: text => 10 :: normalizeText text
  | 9 :: text => 32 :: 32 :: 32 :: 32 :: normalizeText text
  | u :: text => u :: normalizeText text

/-- The control byte that `ESC [ number ; 5 u` stands for, and what follows. -/
def matchCsiU (text : JsString) : Option (UInt16 × JsString) := do
  let rest ← if [27, 91] <+: text then some (text.drop 2) else none
  let behind ← (dropNumber rest).bind (dropLiteral ";5u")
  let cp := digitsValue (rest.takeWhile isDigit)
  if 97 ≤ cp ∧ cp ≤ 122 then some (UInt16.ofNat (cp - 96), behind)
  else if 65 ≤ cp ∧ cp ≤ 90 then some (UInt16.ofNat (cp - 64), behind)
  else none

/-- The control bytes are decoded, behind units that a match has taken. -/
def decodeCsiU : ℕ → JsString → JsString
  | _, [] => []
  | skip + 1, _ :: text => decodeCsiU skip text
  | 0, u :: text =>
    match matchCsiU (u :: text) with
    | none => u :: decodeCsiU 0 text
    | some (control, behind) => control :: decodeCsiU ((u :: text).length - behind.length - 1) text

/-- `/\w/.test(char)`. -/
def isWordUnit (u : UInt16) : Bool :=
  isDigit u || (65 ≤ u.toNat && u.toNat ≤ 90) || (97 ≤ u.toNat && u.toNat ≤ 122) || u.toNat = 95

/-- Markers with a greater number are numbered anew, behind units that a match has taken. -/
def renumberMarkers (targetId : ℕ) : ℕ → JsString → JsString
  | _, [] => []
  | skip + 1, _ :: text => renumberMarkers targetId skip text
  | 0, u :: text =>
    match matchMarker (u :: text) with
    | none => u :: renumberMarkers targetId 0 text
    | some (id, behind) =>
      let matched := (u :: text).take ((u :: text).length - behind.length)
      let suffix := ((matched.drop 8).dropWhile isDigit).dropLast
      let renumbered :=
        if id ≤ targetId then matched
        else JsString.ofAscii "[paste #" ++ numberText (id - 1)
          ++ (if suffix = [] then JsString.ofAscii "undefined" else suffix) ++ JsString.ofAscii "]"
      renumbered ++ renumberMarkers targetId (matched.length - 1) text

namespace Editor

variable (seg : Segmenters)

/-! ## Edits -/

def insertCharacter (char : JsString) (e : Editor) : Editor :=
  let e := e.exitHistoryBrowsing
  let e := if isWhitespaceChar char ∨ e.lastAction ≠ some .typeWord then e.pushUndoSnapshot else e
  let e := { e with lastAction := some .typeWord }
  let before := e.state.line.take e.state.cursorCol
  let after := e.state.line.drop e.state.cursorCol
  (e.setLine e.state.cursorLine (before ++ char ++ after)).setCursorCol (e.state.cursorCol + char.length)

def insertTextAtCursorInternal (text : JsString) (e : Editor) : Editor :=
  if text = [] then e
  else
    let normalized := normalizeText text
    let insertedLines := normalized.splitOn 10
    let beforeCursor := e.state.line.take e.state.cursorCol
    let afterCursor := e.state.line.drop e.state.cursorCol
    if insertedLines.length = 1 then
      (e.setLine e.state.cursorLine (beforeCursor ++ normalized ++ afterCursor)).setCursorCol
        (e.state.cursorCol + normalized.length)
    else
      let last := insertedLines.getLastD []
      let lines := e.state.lines.take e.state.cursorLine ++ (beforeCursor ++ insertedLines.headD []) ::
        insertedLines.dropLast.tail ++ (last ++ afterCursor) :: e.state.lines.drop (e.state.cursorLine + 1)
      let cursorLine := e.state.cursorLine + (insertedLines.length - 1)
      { e with state := { e.state with lines, cursorLine } }.setCursorCol last.length

/-- The text of a paste as it is put in, before it is known to be large. -/
def pastedText (pasted : JsString) (e : Editor) : JsString :=
  let filtered := (normalizeText (decodeCsiU 0 pasted)).filter fun u => u.toNat = 10 || 32 ≤ u.toNat
  let charBeforeCursor := if 0 < e.state.cursorCol then e.state.line[e.state.cursorCol - 1]? else none
  if filtered.head?.any (fun u => u ∈ JsString.ofAscii "/~.") && charBeforeCursor.any isWordUnit then 32 :: filtered
  else filtered

def handlePaste (pasted : JsString) (e : Editor) : Editor :=
  let e := { e.exitHistoryBrowsing with lastAction := none }.pushUndoSnapshot
  let text := e.pastedText pasted
  let lineCount := (text.splitOn 10).length
  if 10 < lineCount ∨ 1000 < text.length then
    let pasteId := e.pasteCounter + 1
    let e := { e with pasteCounter := pasteId, pastes := e.pastes.set pasteId text }
    let size :=
      if 10 < lineCount then JsString.ofAscii " +" ++ numberText lineCount ++ JsString.ofAscii " lines]"
      else 32 :: numberText text.length ++ JsString.ofAscii " chars]"
    e.insertTextAtCursorInternal (JsString.ofAscii "[paste #" ++ numberText pasteId ++ size)
  else e.insertTextAtCursorInternal text

def addNewLine (e : Editor) : Editor :=
  let e := { e.exitHistoryBrowsing with lastAction := none }.pushUndoSnapshot
  let before := e.state.line.take e.state.cursorCol
  let after := e.state.line.drop e.state.cursorCol
  let lines := (e.state.lines.set e.state.cursorLine before).insertIdx (e.state.cursorLine + 1) after
  { e with state := { e.state with lines, cursorLine := e.state.cursorLine + 1 } }.setCursorCol 0

def graphemeSegments (e : Editor) (text : JsString) : List WordSegment :=
  segmentWithMarkers text seg.graphemes e.pastes.keys

/-- The paste of a marker is forgotten, and those with greater numbers are moved down, in ascending order. -/
def forgetPaste (targetId : ℕ) (e : Editor) : Editor :=
  let pastes := e.pastes.erase targetId
  let higherIds := (pastes.keys.filter fun id => targetId < id).insertionSort (· ≤ ·)
  let shift (pastes : Table ℕ JsString) (id : ℕ) := (pastes.set (id - 1) ((pastes.get id).getD [])).erase id
  { e with
    pastes := higherIds.foldl shift pastes
    pasteCounter := e.pasteCounter - 1
    state := { e.state with lines := e.state.lines.map (renumberMarkers targetId 0) } }

def handleBackspace (e : Editor) : Editor :=
  let e := { e.exitHistoryBrowsing with lastAction := none }
  if 0 < e.state.cursorCol then
    let e := e.pushUndoSnapshot
    let lastGrapheme := ((e.graphemeSegments seg (e.state.line.take e.state.cursorCol)).getLast?).map WordSegment.segment
    let graphemeLength := (lastGrapheme.map List.length).getD 1
    let marker := (lastGrapheme.filter isPasteMarker).bind matchMarker
    let e := match marker with
      | none => e
      | some (targetId, _) => e.forgetPaste targetId
    let before := e.state.line.take (e.state.cursorCol - graphemeLength)
    let after := e.state.line.drop e.state.cursorCol
    (e.setLine e.state.cursorLine (before ++ after)).setCursorCol (e.state.cursorCol - graphemeLength)
  else if 0 < e.state.cursorLine then e.pushUndoSnapshot.mergeWithPrevious
  else e

def handleForwardDelete (e : Editor) : Editor :=
  let e := { e.exitHistoryBrowsing with lastAction := none }
  let currentLine := e.state.line
  if e.state.cursorCol < currentLine.length then
    let e := e.pushUndoSnapshot
    let firstGrapheme := ((e.graphemeSegments seg (currentLine.drop e.state.cursorCol)).head?).map WordSegment.segment
    let graphemeLength := (firstGrapheme.map List.length).getD 1
    e.setLine e.state.cursorLine
      (currentLine.take e.state.cursorCol ++ currentLine.drop (e.state.cursorCol + graphemeLength))
  else if e.state.cursorLine < e.state.lines.length - 1 then e.pushUndoSnapshot.mergeWithNext
  else e

def setTextInternal (text : JsString) (atStart : Bool) (e : Editor) : Editor :=
  let lines := text.splitOn 10
  let cursorLine := if atStart then 0 else lines.length - 1
  let e := { e with state := { e.state with lines, cursorLine } }
  e.setCursorCol (if atStart then 0 else e.state.line.length)

def setText (text : JsString) (e : Editor) : Editor :=
  let e := { e.exitHistoryBrowsing with lastAction := none }
  let normalized := normalizeText text
  let e := if e.getText ≠ normalized then e.pushUndoSnapshot else e
  { e with pastes := [], pasteCounter := 0 }.setTextInternal normalized false

def insertTextAtCursor (text : JsString) (e : Editor) : Editor :=
  if text = [] then e
  else { e.pushUndoSnapshot.exitHistoryBrowsing with lastAction := none }.insertTextAtCursorInternal text

def applyCompletion (lines : List JsString) (cursorLine cursorCol : ℕ) (e : Editor) : Editor :=
  let e := { e.pushUndoSnapshot with lastAction := none }
  { e with state := { e.state with lines, cursorLine } }.setCursorCol cursorCol

/-! ## History -/

/-- What follows when the place in the history is known; `none` is the draft. -/
def showHistory (atStart : Bool) (historyIndex : Option ℕ) (e : Editor) : Editor :=
  let e := { e with historyIndex }
  match historyIndex with
  | some i => e.setTextInternal (e.history.getD i []) atStart
  | none =>
    match e.historyDraft with
    | some draft =>
      { e with historyDraft := none, state := draft, preferredVisualCol := none, snappedFromCursorCol := none }
    | none => e.setTextInternal [] false

/-- Whether the history has a place for the next index, and which. -/
def nextHistoryIndex (up : Bool) (e : Editor) : Option (Option ℕ) :=
  match e.historyIndex, up with
  | none, true => if 0 < e.history.length then some (some 0) else none
  | none, false => none
  | some i, true => if i + 1 < e.history.length then some (some (i + 1)) else none
  | some 0, false => some none
  | some (i + 1), false => if i < e.history.length then some (some i) else none

def navigateHistory (up : Bool) (e : Editor) : Editor :=
  let e := { e with lastAction := none }
  if e.history = [] then e
  else
    match e.nextHistoryIndex up with
    | none => e
    | some historyIndex =>
      let e := if e.historyIndex = none then { e.pushUndoSnapshot with historyDraft := some e.state } else e
      e.showHistory up historyIndex

def addToHistory (trimmed : JsString) (e : Editor) : Editor :=
  if trimmed = [] ∨ e.history.head? = some trimmed then e
  else { e with history := (trimmed :: e.history).take 100 }

def submitValue (e : Editor) : Editor :=
  { e.exitHistoryBrowsing with
    state := { lines := [[]], cursorLine := 0, cursorCol := 0 }
    pastes := []
    pasteCounter := 0
    undoStack := []
    lastAction := none }

def undo (e : Editor) : Editor :=
  let e := e.exitHistoryBrowsing
  match e.undoStack with
  | [] => e
  | snapshot :: undoStack =>
    { e with
      undoStack
      state := snapshot.state
      pastes := snapshot.pastes
      pasteCounter := snapshot.pasteCounter
      lastAction := none
      preferredVisualCol := none }

end Editor

end Phi.Tui
