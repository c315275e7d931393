import Phi.Data.JsonText
import Phi.Data.Regions

/-!
# Applying edits to a text

Model of the matching and replacing part of `packages/coding-agent/src/core/tools/edit-diff.ts`.

Texts are lists of UTF-16 code units, and offsets count them. `String.prototype.normalize("NFKC")` is the parameter
`nfkc`. A region is a `TextReplacement` of the source, a `MatchedEdit` has the index of its edit besides.
-/

namespace Phi.Edit

def lf : UInt16 := 10

/-! ## Errors -/

inductive EditError where
  | notFound (path : JsString) (editIndex totalEdits : ℕ)
  | duplicate (path : JsString) (editIndex totalEdits occurrences : ℕ)
  | emptyOldText (path : JsString) (editIndex totalEdits : ℕ)
  | noChange (path : JsString) (totalEdits : ℕ)
  | overlap (path : JsString) (previous current : ℕ)
  /-- Thrown by `getReplacementLineRange`. -/
  | outsideBase
  /-- Thrown by `applyReplacementsPreservingUnchangedLines`. -/
  | lineCount

def EditError.message : EditError → JsString
  | .notFound path editIndex totalEdits =>
    if totalEdits = 1 then
      JsString.ofAscii "Could not find the exact text in " ++ path
        ++ JsString.ofAscii ". The old text must match exactly including all whitespace and newlines."
    else
      JsString.ofAscii "Could not find edits[" ++ numberText editIndex ++ JsString.ofAscii "] in " ++ path
        ++ JsString.ofAscii ". The oldText must match exactly including all whitespace and newlines."
  | .duplicate path editIndex totalEdits occurrences =>
    JsString.ofAscii "Found " ++ numberText occurrences
      ++ if totalEdits = 1 then
        JsString.ofAscii " occurrences of the text in " ++ path
          ++ JsString.ofAscii ". The text must be unique. Please provide more context to make it unique."
      else
        JsString.ofAscii " occurrences of edits[" ++ numberText editIndex ++ JsString.ofAscii "] in " ++ path
          ++ JsString.ofAscii ". Each oldText must be unique. Please provide more context to make it unique."
  | .emptyOldText path editIndex totalEdits =>
    if totalEdits = 1 then JsString.ofAscii "oldText must not be empty in " ++ path ++ JsString.ofAscii "."
    else
      JsString.ofAscii "edits[" ++ numberText editIndex ++ JsString.ofAscii "].oldText must not be empty in "
        ++ path ++ JsString.ofAscii "."
  | .noChange path totalEdits =>
    JsString.ofAscii "No changes made to " ++ path
      ++ if totalEdits = 1 then
        JsString.ofAscii ". The replacement produced identical content. This might indicate an issue with "
          ++ JsString.ofAscii "special characters or the text not existing as expected."
      else JsString.ofAscii ". The replacements produced identical content."
  | .overlap path previous current =>
    JsString.ofAscii "edits[" ++ numberText previous ++ JsString.ofAscii "] and edits[" ++ numberText current
      ++ JsString.ofAscii "] overlap in " ++ path
      ++ JsString.ofAscii ". Merge them into one edit or target disjoint regions."
  | .outsideBase => JsString.ofAscii "Replacement range is outside the base content."
  | .lineCount =>
    JsString.ofAscii "Cannot preserve unchanged lines because the base content has a different line count."

/-! ## Normal forms -/

/-- `text.replace(/\r\n/g, "\n")`. -/
def crlfToLf : JsString → JsString
  | [] => []
  | [u] => [u]
  | u :: v :: rest => if u = 13 ∧ v = lf then lf :: crlfToLf rest else u :: crlfToLf (v :: rest)

def normalizeToLF (text : JsString) : JsString :=
  (crlfToLf text).map fun u => if u = 13 then lf else u

/-- The white space and line terminators that `trimEnd` strips. -/
def isWhiteSpace (u : UInt16) : Bool :=
  u ∈ [0x09, 0x0A, 0x0B, 0x0C, 0x0D, 0x20, 0xA0, 0x1680, 0x2028, 0x2029, 0x202F, 0x205F, 0x3000, 0xFEFF]
    || (0x2000 ≤ u && u ≤ 0x200A)

def trimEnd (line : JsString) : JsString := line.rdropWhile isWhiteSpace

def isSingleQuote (u : UInt16) : Bool := u ∈ [0x2018, 0x2019, 0x201A, 0x201B]

def isDoubleQuote (u : UInt16) : Bool := u ∈ [0x201C, 0x201D, 0x201E, 0x201F]

def isDash (u : UInt16) : Bool := u ∈ [0x2010, 0x2011, 0x2012, 0x2013, 0x2014, 0x2015, 0x2212]

def isSpecialSpace (u : UInt16) : Bool :=
  u ∈ [0xA0, 0x202F, 0x205F, 0x3000] || (0x2002 ≤ u && u ≤ 0x200A)

/-- `text.replace(class, by)` for a class of single code units. -/
def replaceClass (isIn : UInt16 → Bool) (by_ : UInt16) (text : JsString) : JsString :=
  text.map fun u => if isIn u then by_ else u

variable (nfkc : JsString → JsString)

def normalizeForFuzzyMatch (text : JsString) : JsString :=
  let trimmed := [lf].intercalate (((nfkc text).splitOn lf).map trimEnd)
  replaceClass isSpecialSpace 32
    (replaceClass isDash 45 (replaceClass isDoubleQuote 34 (replaceClass isSingleQuote 39 trimmed)))

/-! ## Lines -/

/-- `content.match(/[^\n]*\n|[^\n]+/g) ?? []`. -/
def splitLinesWithEndings : JsString → List JsString
  | [] => []
  | u :: rest =>
    if u = lf then [lf] :: splitLinesWithEndings rest
    else
      match splitLinesWithEndings rest with
      | [] => [[u]]
      | line :: lines => (u :: line) :: lines

structure LineSpan where
  start : ℕ
  stop : ℕ

/-- The spans of lines that start at an offset. -/
def lineSpansFrom : ℕ → List JsString → List LineSpan
  | _, [] => []
  | offset, line :: lines => ⟨offset, offset + line.length⟩ :: lineSpansFrom (offset + line.length) lines

def getLineSpans (content : JsString) : List LineSpan := lineSpansFrom 0 (splitLinesWithEndings content)

structure LineRange where
  startLine : ℕ
  endLine : ℕ

def getReplacementLineRange (lines : List LineSpan) (replacement : Region UInt16) : Except EditError LineRange :=
  match lines.findIdx? fun line => line.start ≤ replacement.start && replacement.start < line.stop with
  | none => .error .outsideBase
  | some startLine =>
    let endLine := startLine
      + ((lines.drop startLine).takeWhile fun line => line.stop < replacement.stop).length
    if lines.length ≤ endLine then .error .outsideBase else .ok ⟨startLine, endLine + 1⟩

/-! ## Replacing -/

def applyReplacements (content : JsString) (replacements : List (Region UInt16)) (offset : ℕ) : JsString :=
  replacements.foldr (spliceAt offset) content

/-- `[...replacements].sort((a, b) => a.matchIndex - b.matchIndex)`, which is stable. -/
def sortByIndex {β : Type*} (index : β → ℕ) (replacements : List β) : List β :=
  replacements.insertionSort fun a b => index a ≤ index b

structure Group where
  startLine : ℕ
  endLine : ℕ
  replacements : List (Region UInt16)

/-- One round of the loop that groups replacements by the lines they touch. -/
def addToGroups (range : LineRange) (replacement : Region UInt16) : List Group → List Group
  | [] => [⟨range.startLine, range.endLine, [replacement]⟩]
  | [current] =>
    if range.startLine < current.endLine then
      [⟨current.startLine, max current.endLine range.endLine, current.replacements ++ [replacement]⟩]
    else [current, ⟨range.startLine, range.endLine, [replacement]⟩]
  | group :: groups => group :: addToGroups range replacement groups

def groupReplacements (baseLines : List LineSpan) :
    List Group → List (Region UInt16) → Except EditError (List Group)
  | groups, [] => .ok groups
  | groups, replacement :: rest => do
    let range ← getReplacementLineRange baseLines replacement
    groupReplacements baseLines (addToGroups range replacement groups) rest

/-- The loop that writes the groups, from the line `originalLineIndex` on. -/
def writeGroups (originalLines : List JsString) (baseContent : JsString) (baseLines : List LineSpan) :
    ℕ → List Group → JsString
  | originalLineIndex, [] => (originalLines.drop originalLineIndex).flatten
  | originalLineIndex, group :: groups =>
    let groupStartOffset := (baseLines[group.startLine]?.map LineSpan.start).getD 0
    let groupEndOffset := (baseLines[group.endLine - 1]?.map LineSpan.stop).getD 0
    ((originalLines.take group.startLine).drop originalLineIndex).flatten
      ++ applyReplacements ((baseContent.take groupEndOffset).drop groupStartOffset) group.replacements
        groupStartOffset
      ++ writeGroups originalLines baseContent baseLines group.endLine groups

def applyReplacementsPreservingUnchangedLines (originalContent baseContent : JsString)
    (replacements : List (Region UInt16)) : Except EditError JsString :=
  let originalLines := splitLinesWithEndings originalContent
  let baseLines := getLineSpans baseContent
  if originalLines.length ≠ baseLines.length then .error .lineCount
  else do
    let groups ← groupReplacements baseLines [] (sortByIndex Region.start replacements)
    return writeGroups originalLines baseContent baseLines 0 groups

/-! ## Matching -/

structure FuzzyMatchResult where
  index : ℕ
  matchLength : ℕ
  usedFuzzyMatch : Bool

/-- `none` when it is not found. -/
def fuzzyFindText (content oldText : JsString) : Option FuzzyMatchResult :=
  match indexOf oldText content with
  | some exactIndex => some ⟨exactIndex, oldText.length, false⟩
  | none =>
    let fuzzyContent := normalizeForFuzzyMatch nfkc content
    let fuzzyOldText := normalizeForFuzzyMatch nfkc oldText
    (indexOf fuzzyOldText fuzzyContent).map fun fuzzyIndex => ⟨fuzzyIndex, fuzzyOldText.length, true⟩

/-- `content.split(separator).length - 1`; an empty separator splits between all code units. -/
def splitCount (separator content : JsString) : ℤ :=
  if separator = [] then (content.length : ℤ) - 1 else occurrences separator content

def countOccurrences (content oldText : JsString) : ℤ :=
  splitCount (normalizeForFuzzyMatch nfkc oldText) (normalizeForFuzzyMatch nfkc content)

structure Edit where
  oldText : JsString
  newText : JsString

structure MatchedEdit extends Region UInt16 where
  editIndex : ℕ

def normalizeEdit (edit : Edit) : Edit := ⟨normalizeToLF edit.oldText, normalizeToLF edit.newText⟩

/-- The loop that rejects empty old texts. -/
def checkNotEmpty (path : JsString) (total : ℕ) : ℕ → List Edit → Except EditError Unit
  | _, [] => .ok ()
  | i, edit :: edits =>
    if edit.oldText.length = 0 then .error (.emptyOldText path i total) else checkNotEmpty path total (i + 1) edits

/-- One round of the loop that matches the edits. -/
def matchEdit (path : JsString) (total : ℕ) (baseContent : JsString) (i : ℕ) (edit : Edit) :
    Except EditError MatchedEdit :=
  match fuzzyFindText nfkc baseContent edit.oldText with
  | none => .error (.notFound path i total)
  | some found =>
    let occurrences := countOccurrences nfkc baseContent edit.oldText
    if 1 < occurrences then .error (.duplicate path i total occurrences.toNat)
    else .ok ⟨⟨found.index, found.matchLength, edit.newText⟩, i⟩

def matchEditsFrom (path : JsString) (total : ℕ) (baseContent : JsString) :
    ℕ → List Edit → Except EditError (List MatchedEdit)
  | _, [] => .ok []
  | i, edit :: edits => do
    let matched ← matchEdit nfkc path total baseContent i edit
    let rest ← matchEditsFrom path total baseContent (i + 1) edits
    return matched :: rest

/-- The loop that compares neighbours. -/
def checkDisjoint (path : JsString) : List MatchedEdit → Except EditError Unit
  | previous :: current :: rest =>
    if current.start < previous.stop then .error (.overlap path previous.editIndex current.editIndex)
    else checkDisjoint path (current :: rest)
  | _ => .ok ()

/-- The edits as they were found. -/
structure Matched where
  usedFuzzyMatch : Bool
  replacementBaseContent : JsString
  matchedEdits : List MatchedEdit

/-- `applyEditsToNormalizedContent` up to the point where everything was found, unique and disjoint. -/
def matchEdits (normalizedContent : JsString) (edits : List Edit) (path : JsString) : Except EditError Matched := do
  let normalizedEdits := edits.map normalizeEdit
  checkNotEmpty path normalizedEdits.length 0 normalizedEdits
  let usedFuzzyMatch := normalizedEdits.any fun edit =>
    ((fuzzyFindText nfkc normalizedContent edit.oldText).map FuzzyMatchResult.usedFuzzyMatch).getD false
  let replacementBaseContent :=
    if usedFuzzyMatch then normalizeForFuzzyMatch nfkc normalizedContent else normalizedContent
  let matchedEdits ← matchEditsFrom nfkc path normalizedEdits.length replacementBaseContent 0 normalizedEdits
  let matchedEdits := sortByIndex (fun m => m.start) matchedEdits
  checkDisjoint path matchedEdits
  return ⟨usedFuzzyMatch, replacementBaseContent, matchedEdits⟩

/-- The new content of edits that were found. -/
def replaceMatched (normalizedContent : JsString) (matched : Matched) : Except EditError JsString :=
  let regions := matched.matchedEdits.map MatchedEdit.toRegion
  if matched.usedFuzzyMatch then
    applyReplacementsPreservingUnchangedLines normalizedContent matched.replacementBaseContent regions
  else .ok (applyReplacements matched.replacementBaseContent regions 0)

/-- The new content; the base content of the result is the content that was given. -/
def applyEditsToNormalizedContent (normalizedContent : JsString) (edits : List Edit) (path : JsString) :
    Except EditError JsString := do
  let matched ← matchEdits nfkc normalizedContent edits path
  let newContent ← replaceMatched normalizedContent matched
  if normalizedContent = newContent then .error (.noChange path edits.length) else .ok newContent

end Phi.Edit
