import Phi.Output.Cut
import Phi.Edit.EditDiff

/-!
# Streamed output

`OutputAccumulator` follows an output of any size with bounded memory: it decodes the chunks as they come, keeps a
tail of the text for display, counts lines and bytes, and moves the raw output to a temp file once a limit is passed.

The tail is cut at a size in bytes. A tail that starts inside a line loses that line when a snapshot is taken, and
this is where a snapshot may differ from the truncated output: `streamsExactly_iff` says when it does.
-/

namespace Phi.Output

open Phi.Edit (isWhiteSpace)

structure OutputAccumulator where
  options : TruncationOptions
  /-- What `defaultTempFilePath(this.tempFilePrefix)` returns. -/
  newTempFilePath : JsString
  decoder : TextDecoder := {}
  rawChunks : List (List UInt8) := []
  tailText : JsString := []
  tailBytes : ℕ := 0
  tailStartsAtLineBoundary : Bool := true
  totalRawBytes : ℕ := 0
  totalDecodedBytes : ℕ := 0
  completedLines : ℕ := 0
  totalLines : ℕ := 0
  currentLineBytes : ℕ := 0
  hasOpenLine : Bool := false
  finished : Bool := false
  tempFilePath : Option JsString := none
  tempFileStream : Bool := false
  /-- The bytes written to the temp file. -/
  tempFile : List UInt8 := []

structure OutputSnapshot where
  content : JsString
  truncation : TruncationResult
  fullOutputPath : Option JsString

/-- "Cannot append to a finished output accumulator". -/
inductive AppendError where
  | finished

namespace OutputAccumulator

def maxRollingBytes (acc : OutputAccumulator) : ℕ := max (acc.options.maxBytes * 2) 1

def trimTail (acc : OutputAccumulator) : OutputAccumulator :=
  let buffer := textEncode acc.tailText
  if buffer.length ≤ acc.maxRollingBytes then { acc with tailBytes := buffer.length }
  else
    let kept := lastBytes acc.maxRollingBytes buffer
    let start := buffer.length - kept.length
    { acc with
      tailStartsAtLineBoundary := if start = 0 then acc.tailStartsAtLineBoundary else buffer[start - 1]? == some 0x0A
      tailText := decodeUtf8 kept
      tailBytes := byteLength (decodeUtf8 kept) }

/-- The second half of `appendDecodedText`: the lines of the text are counted. -/
def countLines (acc : OutputAccumulator) (text : JsString) : OutputAccumulator :=
  let newlines := text.count 10
  let acc :=
    if newlines = 0 then
      { acc with currentLineBytes := acc.currentLineBytes + byteLength text, hasOpenLine := true }
    else
      let tail := text.rtakeWhile (· != 10)
      { acc with
        completedLines := acc.completedLines + newlines
        currentLineBytes := byteLength tail
        hasOpenLine := tail.length > 0 }
  { acc with totalLines := acc.completedLines + if acc.hasOpenLine then 1 else 0 }

def appendDecodedText (acc : OutputAccumulator) (text : JsString) : OutputAccumulator :=
  if text.length = 0 then acc
  else
    let bytes := byteLength text
    let acc :=
      { acc with
        totalDecodedBytes := acc.totalDecodedBytes + bytes
        tailText := acc.tailText ++ text
        tailBytes := acc.tailBytes + bytes }
    let acc := if acc.tailBytes > acc.maxRollingBytes * 2 then acc.trimTail else acc
    acc.countLines text

def shouldUseTempFile (acc : OutputAccumulator) : Bool :=
  acc.totalRawBytes > acc.options.maxBytes || acc.totalDecodedBytes > acc.options.maxBytes ||
    acc.totalLines > acc.options.maxLines

def ensureTempFile (acc : OutputAccumulator) : OutputAccumulator :=
  if acc.tempFilePath.isSome then acc
  else
    { acc with
      tempFilePath := some acc.newTempFilePath
      tempFileStream := true
      tempFile := acc.rawChunks.flatten
      rawChunks := [] }

def append (acc : OutputAccumulator) (data : List UInt8) : Except AppendError OutputAccumulator :=
  if acc.finished then .error .finished
  else
    let decoded := acc.decoder.decodeStream data
    let acc :=
      { acc with totalRawBytes := acc.totalRawBytes + data.length, decoder := decoded.2 }.appendDecodedText decoded.1
    if acc.tempFileStream || acc.shouldUseTempFile then
      let acc := acc.ensureTempFile
      .ok (if acc.tempFileStream then { acc with tempFile := acc.tempFile ++ data } else acc)
    else if data.length > 0 then .ok { acc with rawChunks := acc.rawChunks ++ [data] }
    else .ok acc

def finish (acc : OutputAccumulator) : OutputAccumulator :=
  if acc.finished then acc
  else
    let decoded := acc.decoder.decodeEnd
    let acc := { acc with finished := true, decoder := decoded.2 }.appendDecodedText decoded.1
    if acc.shouldUseTempFile then acc.ensureTempFile else acc

def getSnapshotText (acc : OutputAccumulator) : JsString :=
  if acc.tailStartsAtLineBoundary then acc.tailText
  else
    match acc.tailText.dropWhile (· != 10) with
    | [] => acc.tailText
    | _ :: behind => behind

def snapshot (acc : OutputAccumulator) (persistIfTruncated : Bool) : OutputSnapshot × OutputAccumulator :=
  let tailTruncation := truncateTail acc.getSnapshotText acc.options
  let truncated : Bool := acc.totalLines > acc.options.maxLines || acc.totalDecodedBytes > acc.options.maxBytes
  let truncation :=
    { tailTruncation with
      truncated
      truncatedBy :=
        if truncated then
          some (tailTruncation.truncatedBy.getD (if acc.totalDecodedBytes > acc.options.maxBytes then .bytes else .lines))
        else none
      totalLines := acc.totalLines
      totalBytes := acc.totalDecodedBytes }
  let acc := if persistIfTruncated && truncation.truncated then acc.ensureTempFile else acc
  (⟨truncation.content, truncation, acc.tempFilePath⟩, acc)

def closeTempFile (acc : OutputAccumulator) : OutputAccumulator := { acc with tempFileStream := false }

end OutputAccumulator

/-! ## Where the tail begins -/

/-- The output so far, cut where the kept tail begins: once more than four times the limit is kept, all but the last
characters that fit into twice the limit are let go. -/
def keepTail (maxBytes : ℕ) (cut : JsString × JsString) (text : JsString) : JsString × JsString :=
  let tail := cut.2 ++ text
  if byteLength tail ≤ 4 * maxBytes then (cut.1, tail)
  else
    let kept := decodeUtf8 (lastBytes (2 * maxBytes) (textEncode tail))
    (cut.1 ++ tail.take (tail.length - kept.length), kept)

/-- The tail kept of an output that is cut where the tail begins. -/
structure OutputAccumulator.KeepsTail (acc : OutputAccumulator) (cut : JsString × JsString) : Prop where
  front : Text.Paired cut.1
  tail : Text.Paired cut.2
  tailText : acc.tailText = cut.2
  tailBytes : acc.tailBytes = byteLength cut.2
  boundary : acc.tailStartsAtLineBoundary = true ↔ ∀ u ∈ cut.1.getLast?, u = 10
  small : byteLength cut.2 ≤ 4 * acc.options.maxBytes
  large : cut.1 = [] ∨ 2 * acc.options.maxBytes ≤ byteLength cut.2 + 3

/-- The totals of an output. -/
structure OutputAccumulator.Counts (acc : OutputAccumulator) (output : JsString) : Prop where
  totalBytes : acc.totalDecodedBytes = byteLength output
  completedLines : acc.completedLines = output.count 10
  hasOpenLine : acc.hasOpenLine = !(output.rtakeWhile (· != 10)).isEmpty
  currentLine : acc.currentLineBytes = byteLength (output.rtakeWhile (· != 10))
  totalLines : acc.totalLines = (splitLinesForCounting output).length

/-- The last characters of a text that fit into some bytes. -/
theorem exists_lastBytes {text : JsString} (h : Text.Paired text) (n : ℕ) :
    ∃ front back, text = front ++ back ∧ Text.Paired front ∧ Text.Paired back ∧
      lastBytes n (textEncode text) = textEncode back ∧ byteLength back ≤ n ∧
      (n ≤ byteLength text → n < byteLength back + 4) := by
  rcases lastBytes_textEncode text n with ⟨front, back, hscalars, hlast, hle, hlt⟩
  have hall := isScalar_scalars text
  rw [hscalars] at hall
  have hfront : ∀ c ∈ front, Utf8.IsScalar c := fun c hc => hall c (List.mem_append_left _ hc)
  have hback : ∀ c ∈ back, Utf8.IsScalar c := fun c hc => hall c (List.mem_append_right _ hc)
  have hbytes := byteLength_flatMap hback
  refine ⟨front.flatMap Text.utf16Of, back.flatMap Text.utf16Of, ?_, Text.paired_flatMap hfront,
    Text.paired_flatMap hback, ?_, by omega, by omega⟩
  · rw [← List.flatMap_append, ← hscalars, flatMap_scalars h]
  · rw [hlast, textEncode, scalars_flatMap_utf16Of hback]

theorem paired_of_unlines {ls : List JsString} {tail : JsString} (h : Text.Paired (unlines 10 ls ++ tail)) :
    Text.Paired (unlines 10 ls) ∧ Text.Paired tail := by
  induction ls with
  | nil => exact ⟨.nil, h⟩
  | cons l ls ih =>
    rw [unlines_cons, List.append_assoc, List.cons_append] at h
    rcases h.of_newline rfl with ⟨hl, hrest⟩
    refine ⟨?_, (ih hrest).2⟩
    rw [unlines_cons]
    exact hl.append (.unit (by decide) (ih hrest).1)

theorem paired_rtakeWhile {text : JsString} (h : Text.Paired text) : Text.Paired (text.rtakeWhile (· != 10)) := by
  rcases exists_unlines 10 text with ⟨ls, tail, rfl, hls, htail⟩
  rw [rtakeWhile_unlines ls htail]
  exact (paired_of_unlines h).2

/-- The last byte of a text is a newline if its last character is. -/
theorem getLast?_textEncode {text : JsString} (h : Text.Paired text) :
    (textEncode text).getLast? = some 10 ↔ text.getLast? = some 10 := by
  rcases List.eq_nil_or_concat' text with rfl | ⟨front, u, rfl⟩
  · simp [textEncode, Text.scalars]
  · by_cases hu : u = 10
    · subst hu
      rw [textEncode_newline]
      simp [textEncode, Text.scalars]
    · -- an open line has bytes, and none of them is a newline
      rcases exists_unlines 10 front with ⟨ls, tail, rfl, -, htail⟩
      rw [List.append_assoc] at h ⊢
      rcases paired_of_unlines h with ⟨hlines, hopen⟩
      have hmem : (10 : UInt8) ∉ textEncode (tail ++ [u]) :=
        newline_not_mem_textEncode hopen (by simp [htail, Ne.symm hu])
      have hne : textEncode (tail ++ [u]) ≠ [] := by
        intro hnil
        have hread := decodeUtf8_textEncode hopen
        rw [hnil] at hread
        have hnone : tail ++ [u] = [] := hread.symm
        simp at hnone
      rw [textEncode_append hlines, List.getLast?_append_of_ne_nil _ hne]
      constructor
      · intro hlast
        exact absurd (List.mem_of_getLast? hlast) hmem
      · simp [hu]

namespace OutputAccumulator

variable {acc : OutputAccumulator} {cut : JsString × JsString} {text : JsString}

/-- Trimming keeps the last characters and knows whether a line ends before them. -/
theorem trimTail_eq (hm : 0 < acc.options.maxBytes) (h : Text.Paired acc.tailText)
    (hlarge : 2 * acc.options.maxBytes < byteLength acc.tailText) :
    ∃ front back, acc.tailText = front ++ back ∧ front ≠ [] ∧ Text.Paired front ∧ Text.Paired back ∧
      decodeUtf8 (lastBytes (2 * acc.options.maxBytes) (textEncode acc.tailText)) = back ∧
      byteLength back ≤ 2 * acc.options.maxBytes ∧ 2 * acc.options.maxBytes ≤ byteLength back + 3 ∧
      acc.trimTail = { acc with
        tailStartsAtLineBoundary := front.getLast? == some 10, tailText := back, tailBytes := byteLength back } := by
  have hrolling : acc.maxRollingBytes = 2 * acc.options.maxBytes := by
    rw [maxRollingBytes]
    omega
  rcases exists_lastBytes h (2 * acc.options.maxBytes) with ⟨front, back, heq, hfront, hback, hlast, hle, hlt⟩
  have hsum := byteLength_append hfront back
  rw [← heq] at hsum
  have hpos : 0 < (textEncode front).length := by
    change 0 < byteLength front
    omega
  have hne : front ≠ [] := by
    rintro rfl
    exact absurd hpos (by simp [textEncode, Text.scalars])
  have hread : decodeUtf8 (lastBytes (2 * acc.options.maxBytes) (textEncode acc.tailText)) = back := by
    rw [hlast, decodeUtf8_textEncode hback]
  refine ⟨front, back, heq, hne, hfront, hback, hread, hle, by omega, ?_⟩
  -- the byte before the kept ones is the last of what is let go
  have hstart : (textEncode acc.tailText).length - (textEncode back).length = (textEncode front).length := by
    change byteLength acc.tailText - byteLength back = byteLength front
    omega
  have hbyte : (textEncode acc.tailText)[(textEncode front).length - 1]? = (textEncode front).getLast? := by
    rw [heq, textEncode_append hfront, List.getElem?_append_left (by omega), List.getLast?_eq_getElem?]
  have hboundary : ((textEncode front).getLast? == some 0x0A) = (front.getLast? == some 10) := by
    rw [Bool.eq_iff_iff, beq_iff_eq, beq_iff_eq]
    exact getLast?_textEncode hfront
  unfold trimTail
  simp only [hrolling]
  rw [if_neg (show ¬(textEncode acc.tailText).length ≤ _ from Nat.not_le.mpr hlarge)]
  rw [hread, hlast, hstart, hbyte, hboundary, if_neg (Nat.ne_of_gt hpos)]

theorem keepTail_nil {maxBytes : ℕ} (h : byteLength cut.2 ≤ 4 * maxBytes) : keepTail maxBytes cut [] = cut := by
  rw [keepTail]
  simp [h]

/-- More text leads to more tail, or to a new cut. -/
theorem KeepsTail.append {acc' : OutputAccumulator} (h : acc.KeepsTail cut) (hm : 0 < acc.options.maxBytes)
    (htext : Text.Paired text) (hoptions : acc'.options = acc.options) (htail : acc'.tailText = acc.tailText ++ text)
    (hbytes : acc'.tailBytes = acc.tailBytes + byteLength text)
    (hboundary : acc'.tailStartsAtLineBoundary = acc.tailStartsAtLineBoundary) :
    (if acc'.tailBytes > acc'.maxRollingBytes * 2 then acc'.trimTail else acc').KeepsTail
      (keepTail acc.options.maxBytes cut text) := by
  have hlength : acc'.tailBytes = byteLength (cut.2 ++ text) := by
    rw [hbytes, h.tailBytes, byteLength_append h.tail]
  have hrolling : acc'.maxRollingBytes * 2 = 4 * acc.options.maxBytes := by
    rw [maxRollingBytes, hoptions]
    omega
  rw [h.tailText] at htail
  rw [keepTail, hlength, hrolling]
  dsimp only
  split
  · rename_i hlarge
    rw [if_neg (by omega)]
    rcases trimTail_eq (hoptions ▸ hm) (htail ▸ h.tail.append htext) (by rw [hoptions, htail]; omega) with
      ⟨front, back, heq, hne, hfront, hback, hread, hle, hge, htrim⟩
    rw [hoptions, htail] at hread
    rw [htail] at heq
    have htake : (cut.2 ++ text).take ((cut.2 ++ text).length - back.length) = front := by
      rw [heq, List.length_append, Nat.add_sub_cancel, List.take_left']
      rfl
    rw [hread, htake, htrim]
    rw [hoptions] at hle hge
    constructor
    case front => exact h.front.append hfront
    case tail => exact hback
    case tailText => rfl
    case tailBytes => rfl
    case boundary =>
      change (front.getLast? == some 10) = true ↔ ∀ u ∈ (cut.1 ++ front).getLast?, u = 10
      rw [List.getLast?_append_of_ne_nil _ hne, beq_iff_eq]
      cases hlast : front.getLast? with
      | none => exact absurd (List.getLast?_eq_none_iff.mp hlast) hne
      | some u => simp
    case small =>
      change byteLength back ≤ 4 * acc'.options.maxBytes
      rw [hoptions]
      omega
    case large =>
      refine .inr ?_
      change 2 * acc'.options.maxBytes ≤ byteLength back + 3
      rw [hoptions]
      exact hge
  · rename_i hsmall
    rw [if_pos (by omega)]
    constructor
    case front => exact h.front
    case tail => exact h.tail.append htext
    case tailText => exact htail
    case tailBytes => exact hlength
    case boundary => rw [hboundary, h.boundary]
    case small =>
      change byteLength (cut.2 ++ text) ≤ 4 * acc'.options.maxBytes
      rw [hoptions]
      omega
    case large =>
      rw [hoptions]
      refine h.large.imp_right fun hlarge => hlarge.trans ?_
      exact Nat.add_le_add_right (byteLength_le_append_right cut.2 text) 3

theorem rtakeWhile_append (output text : JsString) :
    (output ++ text).rtakeWhile (· != 10) =
      if text.count 10 = 0 then output.rtakeWhile (· != 10) ++ text else text.rtakeWhile (· != 10) := by
  rcases exists_unlines 10 output with ⟨ls, tail, rfl, hls, htail⟩
  split
  · rename_i hnone
    have htext : 10 ∉ text := List.count_eq_zero.mp hnone
    rw [rtakeWhile_unlines ls htail, List.append_assoc, rtakeWhile_unlines ls (by simp [htail, htext])]
  · rename_i hsome
    rcases exists_unlines 10 text with ⟨ls', tail', rfl, hls', htail'⟩
    rw [count_unlines hls' htail'] at hsome
    rcases List.exists_cons_of_ne_nil (List.length_pos_iff.mp (Nat.pos_of_ne_zero hsome)) with ⟨l, ls', rfl⟩
    have heq : unlines 10 ls ++ tail ++ (unlines 10 (l :: ls') ++ tail') =
        unlines 10 (ls ++ (tail ++ l) :: ls') ++ tail' := by
      simp [unlines_append]
    rw [heq, rtakeWhile_unlines _ htail', rtakeWhile_unlines _ htail']

/-- The counters follow the output. -/
theorem Counts.countLines {output : JsString} {acc' : OutputAccumulator} (h : acc.Counts output)
    (houtput : Text.Paired output) (htext : text ≠ [])
    (hbytes : acc'.totalDecodedBytes = acc.totalDecodedBytes + byteLength text)
    (hlines : acc'.completedLines = acc.completedLines) (hcurrent : acc'.currentLineBytes = acc.currentLineBytes) :
    (acc'.countLines text).Counts (output ++ text) := by
  have hopen := rtakeWhile_append output text
  have hsum := byteLength_append (paired_rtakeWhile houtput) text
  have hcount : (output ++ text).count 10 = output.count 10 + text.count 10 := List.count_append
  have htotal : (acc'.countLines text).totalDecodedBytes = byteLength (output ++ text) := by
    rw [byteLength_append houtput, ← h.totalBytes, ← hbytes]
    unfold OutputAccumulator.countLines
    dsimp only
    split <;> rfl
  by_cases hnone : text.count 10 = 0
  · rw [if_pos hnone] at hopen
    have heq : acc'.countLines text = { acc' with
        currentLineBytes := acc'.currentLineBytes + byteLength text, hasOpenLine := true,
        totalLines := acc'.completedLines + 1 } := by
      rw [OutputAccumulator.countLines, if_pos hnone]
      rfl
    have hne : ((output ++ text).rtakeWhile (· != 10)).isEmpty = false := by
      rw [hopen]
      simp [htext]
    rw [heq] at htotal ⊢
    constructor
    case totalBytes => exact htotal
    case completedLines =>
      change acc'.completedLines = _
      rw [hlines, h.completedLines, hcount, hnone, Nat.add_zero]
    case hasOpenLine => rw [hne, Bool.not_false]
    case currentLine =>
      change acc'.currentLineBytes + byteLength text = _
      rw [hcurrent, h.currentLine, hopen, hsum]
    case totalLines =>
      change acc'.completedLines + 1 = _
      rw [length_splitLines, hne, hcount, hnone, hlines, h.completedLines]
      rfl
  · rw [if_neg hnone] at hopen
    have heq : acc'.countLines text = { acc' with
        completedLines := acc'.completedLines + text.count 10,
        currentLineBytes := byteLength (text.rtakeWhile (· != 10)),
        hasOpenLine := (text.rtakeWhile (· != 10)).length > 0,
        totalLines := acc'.completedLines + text.count 10 +
          if decide ((text.rtakeWhile (· != 10)).length > 0) then 1 else 0 } := by
      rw [OutputAccumulator.countLines, if_neg hnone]
    have hempty : decide ((text.rtakeWhile (· != 10)).length > 0) = !(text.rtakeWhile (· != 10)).isEmpty := by
      cases text.rtakeWhile (· != 10) <;> rfl
    rw [heq] at htotal ⊢
    constructor
    case totalBytes => exact htotal
    case completedLines =>
      change acc'.completedLines + text.count 10 = _
      rw [hlines, h.completedLines, hcount]
    case hasOpenLine =>
      rw [hopen]
      exact hempty
    case currentLine => rw [hopen]
    case totalLines =>
      rw [length_splitLines, hopen, hcount, ← h.completedLines, ← hlines, ← hempty]

theorem append_keepTail {maxBytes : ℕ} (h : Text.Paired (cut.2 ++ text)) :
    (keepTail maxBytes cut text).1 ++ (keepTail maxBytes cut text).2 = cut.1 ++ cut.2 ++ text := by
  rw [keepTail]
  dsimp only
  split
  · rw [List.append_assoc]
  · rcases exists_lastBytes h (2 * maxBytes) with ⟨front, back, heq, -, hback, hlast, -⟩
    rw [hlast, decodeUtf8_textEncode hback, heq, List.length_append, Nat.add_sub_cancel, List.take_left' rfl,
      List.append_assoc, List.append_assoc, heq]

/-- What the accumulator knows of an output that is cut where its tail begins. -/
structure Follows (acc : OutputAccumulator) (cut : JsString × JsString) : Prop where
  keepsTail : acc.KeepsTail cut
  counts : acc.Counts (cut.1 ++ cut.2)

/-- Nothing but the text counts for it. -/
theorem Follows.frame (h : acc.Follows cut) (decoder : TextDecoder) (rawChunks : List (List UInt8)) (rawBytes : ℕ)
    (finished stream : Bool) (path : Option JsString) (file : List UInt8) :
    Follows { acc with
      decoder := decoder, rawChunks := rawChunks, totalRawBytes := rawBytes, finished := finished,
      tempFileStream := stream, tempFilePath := path, tempFile := file } cut where
  keepsTail :=
    ⟨h.keepsTail.front, h.keepsTail.tail, h.keepsTail.tailText, h.keepsTail.tailBytes, h.keepsTail.boundary,
      h.keepsTail.small, h.keepsTail.large⟩
  counts := ⟨h.counts.totalBytes, h.counts.completedLines, h.counts.hasOpenLine, h.counts.currentLine, h.counts.totalLines⟩

theorem Follows.ensureTempFile (h : acc.Follows cut) : acc.ensureTempFile.Follows cut := by
  unfold OutputAccumulator.ensureTempFile
  split
  · exact h
  · exact h.frame _ _ _ _ _ _ _

/-- The fields that text does not change. -/
theorem appendDecodedText_frame (acc : OutputAccumulator) (text : JsString) :
    (acc.appendDecodedText text).options = acc.options ∧ (acc.appendDecodedText text).decoder = acc.decoder ∧
      (acc.appendDecodedText text).finished = acc.finished := by
  unfold appendDecodedText countLines trimTail
  dsimp only
  split_ifs <;> exact ⟨rfl, rfl, rfl⟩

theorem KeepsTail.countLines (h : acc.KeepsTail cut) (text : JsString) : (acc.countLines text).KeepsTail cut := by
  unfold OutputAccumulator.countLines
  dsimp only
  split <;> exact ⟨h.front, h.tail, h.tailText, h.tailBytes, h.boundary, h.small, h.large⟩

theorem trimTail_frame (acc : OutputAccumulator) :
    acc.trimTail.totalDecodedBytes = acc.totalDecodedBytes ∧ acc.trimTail.completedLines = acc.completedLines ∧
      acc.trimTail.currentLineBytes = acc.currentLineBytes := by
  unfold trimTail
  dsimp only
  split_ifs <;> exact ⟨rfl, rfl, rfl⟩

/-- One more text is followed. -/
theorem Follows.appendDecodedText (h : acc.Follows cut) (hm : 0 < acc.options.maxBytes) (htext : Text.Paired text) :
    (acc.appendDecodedText text).Follows (keepTail acc.options.maxBytes cut text) := by
  by_cases hnil : text = []
  · rw [hnil, keepTail_nil h.keepsTail.small]
    exact h
  · set acc₁ : OutputAccumulator := { acc with
      totalDecodedBytes := acc.totalDecodedBytes + byteLength text, tailText := acc.tailText ++ text,
      tailBytes := acc.tailBytes + byteLength text } with hacc₁
    set acc₂ := if acc₁.tailBytes > acc₁.maxRollingBytes * 2 then acc₁.trimTail else acc₁ with hacc₂
    have heq : acc.appendDecodedText text = acc₂.countLines text := by
      rw [OutputAccumulator.appendDecodedText, if_neg (by simpa using hnil)]
    have hframe : acc₂.totalDecodedBytes = acc₁.totalDecodedBytes ∧ acc₂.completedLines = acc₁.completedLines ∧
        acc₂.currentLineBytes = acc₁.currentLineBytes := by
      rw [hacc₂]
      split
      · exact trimTail_frame acc₁
      · exact ⟨rfl, rfl, rfl⟩
    rw [heq]
    constructor
    case keepsTail =>
      exact (h.keepsTail.append hm htext (show acc₁.options = acc.options from rfl) rfl rfl rfl).countLines text
    case counts =>
      rw [append_keepTail (h.keepsTail.tail.append htext)]
      exact h.counts.countLines (h.keepsTail.front.append h.keepsTail.tail) hnil hframe.1 hframe.2.1 hframe.2.2

/-! ## Runs -/

/-- A new accumulator. -/
def create (options : TruncationOptions) (newTempFilePath : JsString) : OutputAccumulator := { options, newTempFilePath }

theorem follows_create (options : TruncationOptions) (path : JsString) : (create options path).Follows ([], []) where
  keepsTail := ⟨.nil, .nil, rfl, rfl, by simp [create], by simp, .inl rfl⟩
  counts := ⟨rfl, rfl, rfl, rfl, rfl⟩

/-- A chunk is followed through the text it completes. -/
theorem append_eq_ok (h : acc.Follows cut) (hm : 0 < acc.options.maxBytes) (hsound : acc.decoder.state.Sound)
    (hopen : acc.finished = false) (data : List UInt8) :
    ∃ acc', acc.append data = .ok acc' ∧
      acc'.Follows (keepTail acc.options.maxBytes cut (acc.decoder.decodeStream data).1) ∧
      acc'.options = acc.options ∧ acc'.decoder = (acc.decoder.decodeStream data).2 ∧ acc'.finished = false := by
  have hpaired := (TextDecoder.decodeStream_sound hsound data).2
  set acc₁ : OutputAccumulator := { acc with
    totalRawBytes := acc.totalRawBytes + data.length, decoder := (acc.decoder.decodeStream data).2 } with hacc₁
  have h₁ : acc₁.Follows cut := h.frame _ _ _ _ _ _ _
  have h₂ := h₁.appendDecodedText hm hpaired
  rcases appendDecodedText_frame acc₁ (acc.decoder.decodeStream data).1 with ⟨hoptions, hdecoder, hfinished⟩
  set acc₂ := acc₁.appendDecodedText (acc.decoder.decodeStream data).1 with hacc₂
  have hopen₂ : acc₂.finished = false := hfinished.trans hopen
  rw [append, if_neg (by simp [hopen])]
  dsimp only
  rw [← hacc₁, ← hacc₂]
  split
  · refine ⟨_, rfl, ?_⟩
    have h₃ := h₂.ensureTempFile
    have hframe : acc₂.ensureTempFile.options = acc₂.options ∧ acc₂.ensureTempFile.decoder = acc₂.decoder ∧
        acc₂.ensureTempFile.finished = acc₂.finished := by
      unfold OutputAccumulator.ensureTempFile
      split <;> exact ⟨rfl, rfl, rfl⟩
    split
    · exact ⟨h₃.frame _ _ _ _ _ _ _, hframe.1.trans hoptions, hframe.2.1.trans hdecoder, hframe.2.2.trans hopen₂⟩
    · exact ⟨h₃, hframe.1.trans hoptions, hframe.2.1.trans hdecoder, hframe.2.2.trans hopen₂⟩
  · split
    · exact ⟨_, rfl, h₂.frame _ _ _ _ _ _ _, hoptions, hdecoder, hopen₂⟩
    · exact ⟨_, rfl, h₂, hoptions, hdecoder, hopen₂⟩

/-- So are all chunks, one after the other. -/
theorem foldlM_append_eq_ok (h : acc.Follows cut) (hm : 0 < acc.options.maxBytes) (hsound : acc.decoder.state.Sound)
    (hopen : acc.finished = false) (chunks : List (List UInt8)) :
    ∃ acc', chunks.foldlM append acc = .ok acc' ∧
      acc'.Follows ((acc.decoder.decodeChunks chunks).1.foldl (keepTail acc.options.maxBytes) cut) ∧
      acc'.options = acc.options ∧ acc'.decoder = (acc.decoder.decodeChunks chunks).2 ∧ acc'.finished = false := by
  induction chunks generalizing acc cut with
  | nil => exact ⟨acc, rfl, h, rfl, rfl, hopen⟩
  | cons data chunks ih =>
    rcases append_eq_ok h hm hsound hopen data with ⟨acc₁, happend, h₁, hoptions, hdecoder, hopen₁⟩
    have hsound₁ : acc₁.decoder.state.Sound := by
      rw [hdecoder]
      exact (TextDecoder.decodeStream_sound hsound data).1
    rcases ih h₁ (hoptions ▸ hm) hsound₁ hopen₁ with ⟨acc₂, hfold, h₂, hoptions₂, hdecoder₂, hopen₂⟩
    refine ⟨acc₂, ?_, ?_, hoptions₂.trans hoptions, ?_, hopen₂⟩
    · rw [List.foldlM_cons, happend]
      exact hfold
    · rw [hoptions, hdecoder] at h₂
      exact h₂
    · rw [hdecoder₂, hdecoder]
      rfl

theorem Follows.finish (h : acc.Follows cut) (hm : 0 < acc.options.maxBytes) (hopen : acc.finished = false) :
    acc.finish.Follows (keepTail acc.options.maxBytes cut acc.decoder.decodeEnd.1) ∧
      acc.finish.options = acc.options := by
  set acc₁ : OutputAccumulator := { acc with finished := true, decoder := acc.decoder.decodeEnd.2 } with hacc₁
  have h₁ : acc₁.Follows cut := h.frame _ _ _ _ _ _ _
  have h₂ := h₁.appendDecodedText hm (TextDecoder.paired_decodeEnd acc.decoder)
  have hoptions := (appendDecodedText_frame acc₁ acc.decoder.decodeEnd.1).1
  rw [OutputAccumulator.finish, if_neg (by simp [hopen])]
  dsimp only
  rw [← hacc₁]
  split
  · refine ⟨h₂.ensureTempFile, Eq.trans ?_ hoptions⟩
    unfold OutputAccumulator.ensureTempFile
    split <;> rfl
  · exact ⟨h₂, hoptions⟩

end OutputAccumulator

end Phi.Output
