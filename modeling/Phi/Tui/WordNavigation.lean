import Phi.Data.JsonValue
import Phi.Tui.WordWrap

/-!
# Words and paste markers

Model of `segmentWithMarkers` of `packages/tui/src/components/editor.ts` and of `packages/tui/src/word-navigation.ts`.
`segment` is what `Intl.Segmenter` makes of a text: pieces of the text in their order, that are like words or not.
-/

namespace Phi.Tui

structure WordSegment where
  segment : JsString
  isWordLike : Bool := false
  index : ℕ := 0

/-- The segments with the places where they stand, one behind another. -/
def indexed : ℕ → List WordSegment → List WordSegment
  | _, [] => []
  | index, seg :: segs => { seg with index } :: indexed (index + seg.segment.length) segs

/-! ## Paste markers -/

structure PasteMarker where
  id : ℕ
  start : ℕ
  stop : ℕ
deriving DecidableEq

/-- A match of `PASTE_MARKER_REGEX` at the front: the number and what follows the marker. -/
def matchMarker (text : JsString) : Option (ℕ × JsString) := do
  let rest ← dropLiteral "[paste #" text
  let after ← dropNumber rest
  let id := digitsValue (rest.takeWhile isDigit)
  let suffix :=
    dropLiteral "]" after
      <|> ((dropLiteral " +" after).bind dropNumber).bind (dropLiteral " lines]")
      <|> ((dropLiteral " " after).bind dropNumber).bind (dropLiteral " chars]")
  suffix.map fun behind => (id, behind)

/-- The matches from an index on, behind units that a match has taken. -/
def markersFrom : ℕ → ℕ → JsString → List PasteMarker
  | _, _, [] => []
  | skip + 1, index, _ :: text => markersFrom skip (index + 1) text
  | 0, index, u :: text =>
    match matchMarker (u :: text) with
    | none => markersFrom 0 (index + 1) text
    | some (id, behind) =>
      let length := (u :: text).length - behind.length
      { id, start := index, stop := index + length } :: markersFrom (length - 1) (index + 1) text

/-- The segments, where those inside of a marker are one. -/
def mergeMarkers (text : JsString) : List PasteMarker → List WordSegment → List WordSegment
  | _, [] => []
  | markers, seg :: segs =>
    match markers.dropWhile fun m => m.stop ≤ seg.index with
    | [] => seg :: mergeMarkers text [] segs
    | m :: ms =>
      if m.start ≤ seg.index ∧ seg.index < m.stop then
        if seg.index = m.start then
          { segment := (text.take m.stop).drop m.start, index := m.start } :: mergeMarkers text (m :: ms) segs
        else mergeMarkers text (m :: ms) segs
      else seg :: mergeMarkers text (m :: ms) segs

def segmentWithMarkers (text : JsString) (segment : JsString → List WordSegment) (validIds : List ℕ) :
    List WordSegment :=
  let markers := (markersFrom 0 0 text).filter fun m => m.id ∈ validIds
  let segments := indexed 0 (segment text)
  if markers = [] then segments else mergeMarkers text markers segments

/-! ## Words -/

/-- `PUNCTUATION_REGEX.test(char)`. -/
def isPunctuation (u : UInt16) : Bool := u ∈ JsString.ofAscii "()\x7b\x7d[]<>.,;:'\"!?+-=*/\\|&%^$#@~\x60"

def isSpaceSegment (seg : WordSegment) : Bool := !isPasteMarker seg.segment && isWhitespaceChar seg.segment

def isPunctuationSegment (seg : WordSegment) : Bool :=
  !isPasteMarker seg.segment && !seg.isWordLike && !isWhitespaceChar seg.segment

def lengthOf (segs : List WordSegment) : ℕ := (segs.map fun seg => seg.segment.length).sum

section

variable (segment : JsString → List WordSegment)

def findWordBackward (text : JsString) (cursor : ℕ) : ℕ :=
  if cursor = 0 then 0
  else
    let segments := (segment (text.take cursor)).reverse
    let newCursor := cursor - lengthOf (segments.takeWhile isSpaceSegment)
    match segments.dropWhile isSpaceSegment with
    | [] => newCursor
    | last :: rest =>
      if isPasteMarker last.segment then newCursor - last.segment.length
      else if last.isWordLike then
        -- what follows the last punctuation
        newCursor - (last.segment.reverse.takeWhile fun u => !isPunctuation u).length
      else newCursor - lengthOf ((last :: rest).takeWhile isPunctuationSegment)

def findWordForward (text : JsString) (cursor : ℕ) : ℕ :=
  if text.length ≤ cursor then text.length
  else
    let segments := segment (text.drop cursor)
    let newCursor := cursor + lengthOf (segments.takeWhile isSpaceSegment)
    match segments.dropWhile isSpaceSegment with
    | [] => newCursor
    | first :: rest =>
      if isPasteMarker first.segment then newCursor + first.segment.length
      else if first.isWordLike then
        newCursor + (first.segment.takeWhile fun u => !isPunctuation u).length
      else newCursor + lengthOf ((first :: rest).takeWhile isPunctuationSegment)

end

theorem findWordBackward_le (segment : JsString → List WordSegment) (text : JsString) (cursor : ℕ) :
    findWordBackward segment text cursor ≤ cursor := by
  unfold findWordBackward
  split
  · omega
  · dsimp only
    split
    · omega
    · split
      · omega
      · split <;> omega

theorem le_findWordForward (segment : JsString → List WordSegment) (text : JsString) {cursor : ℕ}
    (h : cursor ≤ text.length) : cursor ≤ findWordForward segment text cursor := by
  unfold findWordForward
  split
  · exact h
  · dsimp only
    split
    · omega
    · split
      · omega
      · split <;> omega

end Phi.Tui
