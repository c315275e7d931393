import Phi.Data.JsonValue
import Phi.Edit.EditDiff

/-!
# Escape codes in terminal texts

Model of `extractAnsiCode`, of the hyperlinks and of `AnsiCodeTracker` of `packages/tui/src/utils.ts`. A text is read from
the left: at each place stands a code, or a unit of its own. `graphemes` is what `Intl.Segmenter` makes of a text without
codes.
-/

namespace Phi.Tui.Ansi

/-! ## Codes -/

/-- Up to the end of a string that BEL ends, or ESC and a backslash. -/
def stringLength : JsString → Option ℕ
  | [] => none
  | u :: text =>
    if u = 7 then some 1
    else if u = 27 ∧ text.head? = some 92 then some 2
    else (stringLength text).map (· + 1)

def isCsiFinal (u : UInt16) : Bool := u ∈ JsString.ofAscii "mGKHJ"

/-- The length of the code at the front, if there is one. -/
def extractAnsiCode (text : JsString) : Option ℕ :=
  if [27, 91] <+: text then ((text.drop 2).findIdx? isCsiFinal).map (· + 3)
  else if [27, 93] <+: text ∨ [27, 95] <+: text then (stringLength (text.drop 2)).map (· + 2)
  else none

inductive Piece where
  | code (c : JsString)
  | unit (u : UInt16)

def Piece.text : Piece → JsString
  | code c => c
  | unit u => [u]

/-- The pieces of a text, behind units that a code has taken. -/
def piecesFrom : ℕ → JsString → List Piece
  | _, [] => []
  | skip + 1, _ :: text => piecesFrom skip text
  | 0, u :: text =>
    match extractAnsiCode (u :: text) with
    | some length => .code ((u :: text).take length) :: piecesFrom (length - 1) text
    | none => .unit u :: piecesFrom 0 text

def pieces (text : JsString) : List Piece := piecesFrom 0 text

inductive AnsiSegment where
  | ansi (value : JsString)
  | grapheme (value : JsString)

def AnsiSegment.value : AnsiSegment → JsString
  | ansi value => value
  | grapheme value => value

def graphemesOf (graphemes : JsString → List JsString) (text : JsString) : List AnsiSegment :=
  if text = [] then [] else (graphemes text).map .grapheme

/-- The codes, and the graphemes of what stands between them. The units that wait are in front. -/
def segmentsFrom (graphemes : JsString → List JsString) : JsString → List Piece → List AnsiSegment
  | waiting, [] => graphemesOf graphemes waiting
  | waiting, .code c :: ps => graphemesOf graphemes waiting ++ .ansi c :: segmentsFrom graphemes [] ps
  | waiting, .unit u :: ps => segmentsFrom graphemes (waiting ++ [u]) ps

def segments (graphemes : JsString → List JsString) (text : JsString) : List AnsiSegment :=
  segmentsFrom graphemes [] (pieces text)

/-! ## Widths -/

def isPrintableAscii (str : JsString) : Bool := str.all fun u => 0x20 ≤ u && u ≤ 0x7E

def expandTabs (text : JsString) : JsString := text.flatMap fun u => if u = 9 then [32, 32, 32] else [u]

def stripTerminalSequences (text : JsString) : JsString :=
  (pieces text).flatMap fun p =>
    match p with
    | .code _ => []
    | .unit u => [u]

def visibleWidth (graphemes : JsString → List JsString) (graphemeWidth : JsString → ℕ) (str : JsString) : ℕ :=
  if isPrintableAscii str then str.length
  else ((graphemes (stripTerminalSequences (expandTabs str))).map graphemeWidth).sum

/-! ## Hyperlinks -/

structure ActiveHyperlink where
  params : JsString
  url : JsString
  terminator : JsString

def osc8Start : JsString := 27 :: JsString.ofAscii "]8;"

/-- `none` for another code, and no hyperlink where one is closed. -/
def parseOsc8Hyperlink (ansiCode : JsString) : Option (Option ActiveHyperlink) :=
  if ¬osc8Start <+: ansiCode then none
  else
    let terminator := if ansiCode.getLast? = some 7 then [7] else [27, 92]
    let body := (ansiCode.take (ansiCode.length - terminator.length)).drop 4
    if 59 ∉ body then none
    else
      let params := body.takeWhile (· ≠ 59)
      let url := (body.dropWhile (· ≠ 59)).tail
      some (if url = [] then none else some { params, url, terminator })

def formatOsc8Hyperlink (hyperlink : ActiveHyperlink) : JsString :=
  osc8Start ++ hyperlink.params ++ 59 :: hyperlink.url ++ hyperlink.terminator

def formatOsc8Close (terminator : JsString) : JsString := osc8Start ++ 59 :: terminator

/-! ## The tracker -/

structure AnsiCodeTracker where
  bold : Bool := false
  dim : Bool := false
  italic : Bool := false
  underline : Bool := false
  blink : Bool := false
  inverse : Bool := false
  hidden : Bool := false
  strikethrough : Bool := false
  fgColor : Option JsString := none
  bgColor : Option JsString := none
  activeHyperlink : Option ActiveHyperlink := none

def joinParams (parts : List JsString) : JsString := List.intercalate [59] parts

/-- `Number.parseInt` of digits; `none` is `NaN`. -/
def parseInt (part : JsString) : Option ℕ := if part = [] then none else some (digitsValue part)

/-- What stands between `ESC [` and the `m` at the end, if that is digits and semicolons; the first such place counts. -/
def matchSgr : JsString → Option JsString
  | [] => none
  | u :: text =>
    let body := (text.drop 1).dropLast
    if u = 27 ∧ text.head? = some 91 ∧ text.getLast? = some 109 ∧ (body.all fun u => isDigit u || u = 59) then some body
    else matchSgr text

/-- How many parameters a colour takes that is not one of the standard ones. -/
def colorLength (parts : List JsString) : Option ℕ :=
  if parts.head?.bind parseInt = some 38 ∨ parts.head?.bind parseInt = some 48 then
    if parts[1]? = some (JsString.ofAscii "5") ∧ 3 ≤ parts.length then some 3
    else if parts[1]? = some (JsString.ofAscii "2") ∧ 5 ≤ parts.length then some 5
    else none
  else none

namespace AnsiCodeTracker

/-- A reset leaves the hyperlink. -/
def reset (t : AnsiCodeTracker) : AnsiCodeTracker := { activeHyperlink := t.activeHyperlink }

def processCode (code : ℕ) (t : AnsiCodeTracker) : AnsiCodeTracker :=
  match code with
  | 0 => t.reset
  | 1 => { t with bold := true }
  | 2 => { t with dim := true }
  | 3 => { t with italic := true }
  | 4 => { t with underline := true }
  | 5 => { t with blink := true }
  | 7 => { t with inverse := true }
  | 8 => { t with hidden := true }
  | 9 => { t with strikethrough := true }
  | 21 => { t with bold := false }
  | 22 => { t with bold := false, dim := false }
  | 23 => { t with italic := false }
  | 24 => { t with underline := false }
  | 25 => { t with blink := false }
  | 27 => { t with inverse := false }
  | 28 => { t with hidden := false }
  | 29 => { t with strikethrough := false }
  | 39 => { t with fgColor := none }
  | 49 => { t with bgColor := none }
  | code =>
    if (30 ≤ code ∧ code ≤ 37) ∨ (90 ≤ code ∧ code ≤ 97) then { t with fgColor := some (numberText code) }
    else if (40 ≤ code ∧ code ≤ 47) ∨ (100 ≤ code ∧ code ≤ 107) then { t with bgColor := some (numberText code) }
    else t

/-- The parameters one behind another, behind those that a colour has taken. -/
def processParts : ℕ → List JsString → AnsiCodeTracker → AnsiCodeTracker
  | _, [], t => t
  | skip + 1, _ :: parts, t => processParts skip parts t
  | 0, part :: parts, t =>
    match colorLength (part :: parts) with
    | some length =>
      let colorCode := some (joinParams ((part :: parts).take length))
      processParts (length - 1) parts
        (if parseInt part = some 38 then { t with fgColor := colorCode } else { t with bgColor := colorCode })
    | none => processParts 0 parts ((parseInt part).elim t fun code => t.processCode code)

def process (ansiCode : JsString) (t : AnsiCodeTracker) : AnsiCodeTracker :=
  match parseOsc8Hyperlink ansiCode with
  | some activeHyperlink => { t with activeHyperlink }
  | none =>
    if ansiCode.getLast? ≠ some 109 then t
    else
      match matchSgr ansiCode with
      | none => t
      | some params =>
        if params = [] ∨ params = JsString.ofAscii "0" then t.reset else processParts 0 (params.splitOn 59) t

def codes (t : AnsiCodeTracker) : List JsString :=
  (if t.bold then [JsString.ofAscii "1"] else []) ++ (if t.dim then [JsString.ofAscii "2"] else [])
    ++ (if t.italic then [JsString.ofAscii "3"] else []) ++ (if t.underline then [JsString.ofAscii "4"] else [])
    ++ (if t.blink then [JsString.ofAscii "5"] else []) ++ (if t.inverse then [JsString.ofAscii "7"] else [])
    ++ (if t.hidden then [JsString.ofAscii "8"] else []) ++ (if t.strikethrough then [JsString.ofAscii "9"] else [])
    ++ t.fgColor.toList ++ t.bgColor.toList

def getActiveCodes (t : AnsiCodeTracker) : JsString :=
  (if t.codes = [] then [] else 27 :: 91 :: joinParams t.codes ++ [109])
    ++ t.activeHyperlink.elim [] formatOsc8Hyperlink

def getLineEndReset (t : AnsiCodeTracker) : JsString :=
  (if t.underline then 27 :: JsString.ofAscii "[24m" else [])
    ++ t.activeHyperlink.elim [] fun hyperlink => formatOsc8Close hyperlink.terminator

end AnsiCodeTracker

def updateTrackerFromText (text : JsString) (tracker : AnsiCodeTracker) : AnsiCodeTracker :=
  (pieces text).foldl (fun t p =>
    match p with
    | .code c => t.process c
    | .unit _ => t) tracker

end Phi.Tui.Ansi
