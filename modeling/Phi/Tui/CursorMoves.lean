import Phi.Tui.EditorCommands

/-!
# Cursor moves

Model of what moves the cursor of `Editor` of `packages/tui/src/components/editor.ts`. The width of the text, which the
last rendering has set, is given with a move. A column below zero is taken for zero.
-/

namespace Phi.Tui

/-- What the widths and the breaks of lines depend on. -/
structure Display where
  graphemeWidth : JsString → ℕ
  isCjk : JsString → Bool

structure VisualLine where
  logicalLine : ℕ
  startCol : ℕ
  length : ℕ

/-! ## Visual lines -/

/-- Whether the visual line is the last one of its line. -/
def isLastSegmentOfLine (visualLines : List VisualLine) (i : ℕ) (vl : VisualLine) : Bool :=
  visualLines[i + 1]?.map VisualLine.logicalLine ≠ some vl.logicalLine

def maxVisualCol (visualLines : List VisualLine) (i : ℕ) (vl : VisualLine) : ℕ :=
  if isLastSegmentOfLine visualLines i vl then vl.length else vl.length - 1

def findVisualLineAt (visualLines : List VisualLine) (line col : ℕ) : ℕ :=
  let holds (i : ℕ) (vl : VisualLine) : Bool :=
    vl.logicalLine = line && decide (vl.startCol ≤ col) &&
      (col < vl.startCol + vl.length || isLastSegmentOfLine visualLines i vl && col = vl.startCol + vl.length)
  ((List.range visualLines.length).find? fun i => visualLines[i]?.any (holds i)).getD (visualLines.length - 1)

/-- The preferred column behind a vertical move, and the column to move to. -/
def computeVerticalMoveColumn (preferredVisualCol : Option ℕ) (currentVisualCol : ℤ) (sourceMax targetMax : ℕ) :
    Option ℕ × ℤ :=
  let fresh := if (targetMax : ℤ) < currentVisualCol then (some currentVisualCol.toNat, (targetMax : ℤ))
    else (none, currentVisualCol)
  match preferredVisualCol with
  | none => fresh
  | some preferred =>
    if currentVisualCol < sourceMax then fresh
    else if (targetMax : ℤ) < currentVisualCol ∨ targetMax < preferred then (some preferred, targetMax)
    else (none, preferred)

/-! ## Searches in a line -/

def indexOf (line char : JsString) (fromIndex : ℕ) : Option ℕ :=
  (List.range (line.length + 1)).find? fun i => decide (fromIndex ≤ i) && char.isPrefixOf (line.drop i)

def lastIndexOf (line char : JsString) (fromIndex : ℕ) : Option ℕ :=
  (List.range (fromIndex + 1)).reverse.find? fun i => char.isPrefixOf (line.drop i)

namespace Editor

variable (seg : Segmenters) (display : Display)

/-- The visual lines of a line; `none` when wrapping it does not end. -/
def visualLinesOf (width : ℕ) (e : Editor) (line : JsString) (i : ℕ) : Option (List VisualLine) :=
  let graphemes (text : JsString) := (seg.graphemes text).map WordSegment.segment
  if line = [] then some [⟨i, 0, 0⟩]
  else if visibleWidth graphemes display.graphemeWidth line ≤ width then some [⟨i, 0, line.length⟩]
  else
    let segments := (e.graphemeSegments seg line).map fun s => (⟨s.segment, s.index⟩ : Segment)
    (wordWrapLine graphemes display.graphemeWidth display.isCjk (line.length + 2) line width (some segments)).map
      fun chunks => chunks.map fun chunk => ⟨i, chunk.startIndex, chunk.endIndex - chunk.startIndex⟩

def buildVisualLineMap (width : ℕ) (e : Editor) : Option (List VisualLine) :=
  (e.state.lines.zipIdx.mapM fun (line, i) => e.visualLinesOf seg display width line i).map List.flatten

/-! ## Moves over visual lines -/

/-- The segment of several units that has the column inside of it or at its start. -/
def segmentAround (e : Editor) (line : JsString) (col : ℕ) : Option WordSegment :=
  ((e.graphemeSegments seg line).takeWhile fun s => s.index ≤ col).find? fun s =>
    decide (1 < s.segment.length) && decide (col < s.index + s.segment.length)

/-- The first visual line behind the target that does not go on with the segment. -/
def firstPast (visualLines : List VisualLine) (target : ℕ) (targetVL : VisualLine) (segEnd : ℕ) : ℕ :=
  target + 1 + ((visualLines.drop (target + 1)).takeWhile fun vl =>
    vl.logicalLine = targetVL.logicalLine && decide (vl.startCol < segEnd)).length

/-- The calls are nested at most as deep as there are visual lines. -/
def moveToVisualLine (visualLines : List VisualLine) (current : ℕ) : ℕ → ℕ → Editor → Editor
  | 0, _, e => e
  | fuel + 1, target, e =>
    match visualLines[current]?, visualLines[target]? with
    | some currentVL, some targetVL =>
      let currentVisualCol : ℤ :=
        match e.snappedFromCursorCol with
        | some snapped =>
          let startCol := (visualLines[findVisualLineAt visualLines currentVL.logicalLine snapped]?).elim 0
            VisualLine.startCol
          snapped - startCol
        | none => e.state.cursorCol - currentVL.startCol
      let (preferredVisualCol, moveToVisualCol) := computeVerticalMoveColumn e.preferredVisualCol currentVisualCol
        (maxVisualCol visualLines current currentVL) (maxVisualCol visualLines target targetVL)
      let logicalLine := e.state.lines.getD targetVL.logicalLine []
      let cursorCol := min (targetVL.startCol + moveToVisualCol).toNat logicalLine.length
      let e := { e with preferredVisualCol, state := { e.state with cursorLine := targetVL.logicalLine, cursorCol } }
      match e.segmentAround seg logicalLine cursorCol with
      | none => { e with snappedFromCursorCol := none }
      | some s =>
        let next := firstPast visualLines target targetVL (s.index + s.segment.length)
        if s.index < targetVL.startCol ∧ current < target ∧ next < visualLines.length then
          moveToVisualLine visualLines current fuel next e
        else { e with snappedFromCursorCol := some cursorCol, state := { e.state with cursorCol := s.index } }
    | _, _ => e

def moveToLineStart (e : Editor) : Editor := { e with lastAction := none }.setCursorCol 0

def moveToLineEnd (e : Editor) : Editor := { e with lastAction := none }.setCursorCol e.state.line.length

/-- At the end of the text the cursor stays, and the column is the preferred one. -/
def moveRight (visualLines : List VisualLine) (currentVisualLine : ℕ) (e : Editor) : Editor :=
  let currentLine := e.state.line
  if e.state.cursorCol < currentLine.length then
    let first := (e.graphemeSegments seg (currentLine.drop e.state.cursorCol)).head?
    e.setCursorCol (e.state.cursorCol + first.elim 1 fun s => s.segment.length)
  else if e.state.cursorLine < e.state.lines.length - 1 then
    { e with state := { e.state with cursorLine := e.state.cursorLine + 1 } }.setCursorCol 0
  else
    match visualLines[currentVisualLine]? with
    | some currentVL => { e with preferredVisualCol := some (e.state.cursorCol - currentVL.startCol) }
    | none => e

def moveLeft (e : Editor) : Editor :=
  if 0 < e.state.cursorCol then
    let last := (e.graphemeSegments seg (e.state.line.take e.state.cursorCol)).getLast?
    e.setCursorCol (e.state.cursorCol - last.elim 1 fun s => s.segment.length)
  else if 0 < e.state.cursorLine then
    let e := { e with state := { e.state with cursorLine := e.state.cursorLine - 1 } }
    e.setCursorCol e.state.line.length
  else e

def moveCursor (width : ℕ) (deltaLine deltaCol : ℤ) (e : Editor) : Editor :=
  let e := { e with lastAction := none }
  match e.buildVisualLineMap seg display width with
  | none => e
  | some visualLines =>
    let current := findVisualLineAt visualLines e.state.cursorLine e.state.cursorCol
    let target := current + deltaLine
    let e :=
      if deltaLine ≠ 0 ∧ 0 ≤ target ∧ target < visualLines.length then
        e.moveToVisualLine seg visualLines current (visualLines.length + 1) target.toNat
      else e
    if 0 < deltaCol then e.moveRight seg visualLines current
    else if deltaCol < 0 then e.moveLeft seg
    else e

def pageScroll (width pageSize : ℕ) (direction : ℤ) (e : Editor) : Editor :=
  let e := { e with lastAction := none }
  match e.buildVisualLineMap seg display width with
  | none => e
  | some visualLines =>
    let current := findVisualLineAt visualLines e.state.cursorLine e.state.cursorCol
    let target := max 0 (min ((visualLines.length : ℤ) - 1) (current + direction * pageSize))
    e.moveToVisualLine seg visualLines current (visualLines.length + 1) target.toNat

/-! ## Jumps -/

/-- In the line of the cursor the search begins next to it; a search that would begin in front of the line begins at its
first unit. -/
def jumpToChar (char : JsString) (forward : Bool) (e : Editor) : Editor :=
  let e := { e with lastAction := none }
  let cursor := e.state
  let lines := cursor.lines.zipIdx
  let found :=
    if forward then
      (lines.drop cursor.cursorLine).findSome? fun (line, i) =>
        (indexOf line char (if i = cursor.cursorLine then cursor.cursorCol + 1 else 0)).map fun col => (i, col)
    else
      (lines.take (cursor.cursorLine + 1)).reverse.findSome? fun (line, i) =>
        (lastIndexOf line char (if i = cursor.cursorLine then cursor.cursorCol - 1 else line.length)).map fun col => (i, col)
  match found with
  | none => e
  | some (cursorLine, col) => { e with state := { e.state with cursorLine } }.setCursorCol col

/-- Where the mouse was clicked. -/
def click (cursorLine cursorCol : ℕ) (e : Editor) : Editor :=
  { { e with state := { e.state with cursorLine } }.setCursorCol cursorCol with lastAction := none }.exitHistoryBrowsing

end Editor

end Phi.Tui
