import Phi.Tui.Ansi

/-!
# Wrapping of terminal texts

Model of `wrapTextWithAnsi` of `packages/tui/src/utils.ts`. `isCjk` is `cjkBreakRegex.test`.
-/

namespace Phi.Tui.Ansi

variable (graphemes : JsString → List JsString) (graphemeWidth : JsString → ℕ) (isCjk : JsString → Bool)

/-! ## Tokens -/

structure TokenState where
  tokens : List JsString := []
  current : JsString := []
  pendingAnsi : JsString := []
  currentIsSpace : Option Bool := none

namespace TokenState

def flushCurrent (s : TokenState) : TokenState :=
  if s.current = [] then s else { s with tokens := s.tokens ++ [s.current], current := [], currentIsSpace := none }

def addSegment (s : TokenState) : AnsiSegment → TokenState
  | .ansi code => { s with pendingAnsi := s.pendingAnsi ++ code }
  | .grapheme segment =>
    let segmentIsSpace := decide (segment = [32])
    if !segmentIsSpace && isCjk segment then
      let s := s.flushCurrent
      { s with tokens := s.tokens ++ [s.pendingAnsi ++ segment], pendingAnsi := [] }
    else
      let s := if s.currentIsSpace ≠ some segmentIsSpace then s.flushCurrent else s
      { s with
        current := s.current ++ s.pendingAnsi ++ segment
        pendingAnsi := []
        currentIsSpace := some segmentIsSpace }

/-- Codes that are left over go to the last token. -/
def finish (s : TokenState) : List JsString :=
  if s.current ≠ [] then s.tokens ++ [s.current ++ s.pendingAnsi]
  else if s.pendingAnsi = [] then s.tokens
  else
    match s.tokens.getLast? with
    | some last => s.tokens.dropLast ++ [last ++ s.pendingAnsi]
    | none => [s.pendingAnsi]

end TokenState

def splitIntoTokensWithAnsi (text : JsString) : List JsString :=
  ((segments graphemes text).foldl (TokenState.addSegment isCjk) {}).finish

/-! ## Long words -/

structure BreakState where
  lines : List JsString
  currentLine : JsString
  currentWidth : ℕ
  tracker : AnsiCodeTracker

namespace BreakState

def breakLine (s : BreakState) : BreakState :=
  { s with
    lines := s.lines ++ [s.currentLine ++ s.tracker.getLineEndReset]
    currentLine := s.tracker.getActiveCodes
    currentWidth := 0 }

def addSegment (width : ℤ) (s : BreakState) : AnsiSegment → BreakState
  | .ansi code => { s with currentLine := s.currentLine ++ code, tracker := s.tracker.process code }
  | .grapheme segment =>
    if segment = [] then s
    else
      let w := visibleWidth graphemes graphemeWidth segment
      let s := if width < s.currentWidth + w then s.breakLine else s
      { s with currentLine := s.currentLine ++ segment, currentWidth := s.currentWidth + w }

end BreakState

/-- The lines of a word, and the tracker behind it. -/
def breakLongWord (word : JsString) (width : ℤ) (tracker : AnsiCodeTracker) : List JsString × AnsiCodeTracker :=
  let start : BreakState := { lines := [], currentLine := tracker.getActiveCodes, currentWidth := 0, tracker }
  let s := (segments graphemes word).foldl (BreakState.addSegment graphemes graphemeWidth width) start
  let lines := if s.currentLine = [] then s.lines else s.lines ++ [s.currentLine]
  (if lines = [] then [[]] else lines, s.tracker)

/-! ## Lines -/

structure WrapState where
  wrapped : List JsString := []
  currentLine : JsString := []
  currentVisibleLength : ℕ := 0
  tracker : AnsiCodeTracker := {}

namespace WrapState

/-- A token that is wider than a line. -/
def addLongToken (width : ℤ) (s : WrapState) (token : JsString) : WrapState :=
  let wrapped :=
    if s.currentLine = [] then s.wrapped else s.wrapped ++ [s.currentLine ++ s.tracker.getLineEndReset]
  let (broken, tracker) := breakLongWord graphemes graphemeWidth token width s.tracker
  let currentLine := broken.getLastD []
  { wrapped := wrapped ++ broken.dropLast
    currentLine
    currentVisibleLength := visibleWidth graphemes graphemeWidth currentLine
    tracker }

def addToken (width : ℤ) (s : WrapState) (token : JsString) : WrapState :=
  let tokenVisibleLength := visibleWidth graphemes graphemeWidth token
  let isWhitespace := token.all Edit.isWhiteSpace
  if width < tokenVisibleLength ∧ isWhitespace = false then s.addLongToken graphemes graphemeWidth width token
  else
    let tracker := updateTrackerFromText token s.tracker
    if width < s.currentVisibleLength + tokenVisibleLength ∧ 0 < s.currentVisibleLength then
      { wrapped := s.wrapped ++ [Edit.trimEnd s.currentLine ++ s.tracker.getLineEndReset]
        currentLine := if isWhitespace then s.tracker.getActiveCodes else s.tracker.getActiveCodes ++ token
        currentVisibleLength := if isWhitespace then 0 else tokenVisibleLength
        tracker }
    else
      { s with
        currentLine := s.currentLine ++ token
        currentVisibleLength := s.currentVisibleLength + tokenVisibleLength
        tracker }

end WrapState

def wrapSingleLine (line : JsString) (width : ℤ) : List JsString :=
  if line = [] then [[]]
  else if visibleWidth graphemes graphemeWidth line ≤ width then [line]
  else
    let tokens := splitIntoTokensWithAnsi graphemes isCjk line
    let s := tokens.foldl (WrapState.addToken graphemes graphemeWidth width) {}
    let wrapped := if s.currentLine = [] then s.wrapped else s.wrapped ++ [s.currentLine]
    if wrapped = [] then [[]] else wrapped.map Edit.trimEnd

/-- `text.split(/\r\n|\r|\n/)`. -/
def splitLines : JsString → List JsString
  | [] => [[]]
  | u :: text =>
    if u = 10 ∨ u = 13 ∧ text.head? ≠ some 10 then [] :: splitLines text
    else if u = 13 then splitLines text
    else
      match splitLines text with
      | line :: lines => (u :: line) :: lines
      | [] => [[u]]

/-- The lines of every input line. Behind the first one the codes that are active stand in front. -/
def wrapInputLines (width : ℤ) : List (List JsString) → AnsiCodeTracker → List JsString → List (List JsString)
  | result, _, [] => result
  | result, tracker, inputLine :: inputLines =>
    let active := if result.flatten = [] then [] else tracker.getActiveCodes
    let wrappedLines := wrapSingleLine graphemes graphemeWidth isCjk (active ++ inputLine) width
    wrapInputLines width (result ++ [wrappedLines]) (updateTrackerFromText inputLine tracker) inputLines

def wrapTextWithAnsi (text : JsString) (width : ℤ) : List JsString :=
  if text = [] then [[]]
  else
    let result := (wrapInputLines graphemes graphemeWidth isCjk width [] {} (splitLines text)).flatten
    if result = [] then [[]] else result

end Phi.Tui.Ansi
