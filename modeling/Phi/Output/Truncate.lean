import Phi.Data.ByteLength
import Phi.Data.Lines

/-!
# Truncation of tool outputs

`truncateTail` keeps the last lines of an output and `truncateHead` the first, as many as two independent limits
allow. Neither cuts a line, except that a last line too long by itself is cut from its end.

The coding agent and the harness have a copy each. They differ in how the last characters of a line are found: the
first cuts the encoded line, the second (`Harness`) goes back over the code units, since it runs without `Buffer`.
-/

namespace Phi.Output

structure TruncationOptions where
  maxLines : ℕ := 2000
  maxBytes : ℕ := 50 * 1024

inductive TruncatedBy where
  | lines
  | bytes
  deriving DecidableEq

structure TruncationResult where
  content : JsString
  truncated : Bool
  truncatedBy : Option TruncatedBy
  totalLines : ℕ
  totalBytes : ℕ
  outputLines : ℕ
  outputBytes : ℕ
  lastLinePartial : Bool
  firstLineExceedsLimit : Bool
  maxLines : ℕ
  maxBytes : ℕ
  deriving DecidableEq

def splitLinesForCounting (content : JsString) : List JsString :=
  if content.length = 0 then []
  else
    let lines := content.splitOn 10
    if content.getLast? = some 10 then lines.dropLast else lines

/-- `lines.join("\n")`. -/
def joinLines (lines : List JsString) : JsString := [10].intercalate lines

/-- The result for an output within the limits. -/
def untruncated (content : JsString) (options : TruncationOptions) : TruncationResult :=
  { content, truncated := false, truncatedBy := none, totalLines := (splitLinesForCounting content).length,
    totalBytes := byteLength content, outputLines := (splitLinesForCounting content).length,
    outputBytes := byteLength content, lastLinePartial := false, firstLineExceedsLimit := false,
    maxLines := options.maxLines, maxBytes := options.maxBytes }

/-- No truncation needed. -/
def Fits (content : JsString) (options : TruncationOptions) : Prop :=
  (splitLinesForCounting content).length ≤ options.maxLines ∧ byteLength content ≤ options.maxBytes

instance (content : JsString) (options : TruncationOptions) : Decidable (Fits content options) :=
  inferInstanceAs (Decidable (_ ∧ _))

/-- What the loops over the lines have kept. -/
structure Kept where
  lines : List JsString := []
  bytes : ℕ := 0
  truncatedBy : TruncatedBy := .lines
  lastLinePartial : Bool := false

/-- The result for an output beyond the limits. -/
def truncated (content : JsString) (options : TruncationOptions) (kept : Kept) : TruncationResult :=
  let outputContent := joinLines kept.lines
  { content := outputContent, truncated := true,
    truncatedBy :=
      if options.maxLines ≤ kept.lines.length ∧ kept.bytes ≤ options.maxBytes then some .lines
      else some kept.truncatedBy,
    totalLines := (splitLinesForCounting content).length, totalBytes := byteLength content,
    outputLines := kept.lines.length, outputBytes := byteLength outputContent,
    lastLinePartial := kept.lastLinePartial, firstLineExceedsLimit := false,
    maxLines := options.maxLines, maxBytes := options.maxBytes }

/-! ## Head -/

/-- The loop of `truncateHead` from the line with index `i` on. -/
def collect (options : TruncationOptions) : ℕ → Kept → List JsString → Kept
  | _, kept, [] => kept
  | i, kept, line :: rest =>
    if i < options.maxLines then
      let lineBytes := byteLength line + if i > 0 then 1 else 0
      if kept.bytes + lineBytes > options.maxBytes then { kept with truncatedBy := .bytes }
      else collect options (i + 1) { kept with lines := kept.lines ++ [line], bytes := kept.bytes + lineBytes } rest
    else kept

def truncateHead (content : JsString) (options : TruncationOptions) : TruncationResult :=
  if Fits content options then untruncated content options
  else
    let lines := splitLinesForCounting content
    if byteLength (lines.headD []) > options.maxBytes then
      { content := [], truncated := true, truncatedBy := some .bytes, totalLines := lines.length,
        totalBytes := byteLength content, outputLines := 0, outputBytes := 0, lastLinePartial := false,
        firstLineExceedsLimit := true, maxLines := options.maxLines, maxBytes := options.maxBytes }
    else truncated content options (collect options 0 {} lines)

/-! ## Tail -/

/-- The loop of `truncateTail`, which goes back over the lines. `fromEnd` cuts a line that is too long by itself. -/
def collectBack (fromEnd : JsString → ℕ → JsString) (options : TruncationOptions) : Kept → List JsString → Kept
  | kept, [] => kept
  | kept, line :: rest =>
    if kept.lines.length < options.maxLines then
      let lineBytes := byteLength line + if kept.lines.length > 0 then 1 else 0
      if kept.bytes + lineBytes > options.maxBytes then
        if kept.lines.length = 0 then
          let truncatedLine := fromEnd line options.maxBytes
          { lines := [truncatedLine], bytes := byteLength truncatedLine, truncatedBy := .bytes,
            lastLinePartial := true }
        else { kept with truncatedBy := .bytes }
      else
        collectBack fromEnd options { kept with lines := line :: kept.lines, bytes := kept.bytes + lineBytes } rest
    else kept

/-- `truncateTail` of both packages. -/
def truncateTailBy (fromEnd : JsString → ℕ → JsString) (content : JsString) (options : TruncationOptions) :
    TruncationResult :=
  if Fits content options then untruncated content options
  else truncated content options (collectBack fromEnd options {} (splitLinesForCounting content).reverse)

def truncateStringToBytesFromEnd (str : JsString) (maxBytes : ℕ) : JsString :=
  let buf := textEncode str
  if buf.length ≤ maxBytes then str else decodeUtf8 (lastBytes maxBytes buf)

def truncateTail : JsString → TruncationOptions → TruncationResult := truncateTailBy truncateStringToBytesFromEnd

/-! ## The harness -/

namespace Harness

open Text (isHighSurrogate isLowSurrogate)

/-- The bytes of a code unit that is no half of a pair. -/
def unitBytes (u : UInt16) : ℕ := if u.toNat ≤ 0x7F then 1 else if u.toNat ≤ 0x7FF then 2 else 3

/-- The loop of `utf8ByteLength`. -/
def utf8ByteLengthFrom : JsString → ℕ
  | [] => 0
  | [u] => unitBytes u
  | u :: v :: rest =>
    if isHighSurrogate u && isLowSurrogate v then 4 + utf8ByteLengthFrom rest
    else unitBytes u + utf8ByteLengthFrom (v :: rest)

def utf8ByteLength (runtimeBuffer : Bool) (content : JsString) : ℕ :=
  if runtimeBuffer then byteLength content
  else
    -- what `content.search(nonAsciiPattern)` leaves before and behind its index
    let ascii := content.takeWhile fun u => u.toNat ≤ 0x7F
    let rest := content.dropWhile fun u => u.toNat ≤ 0x7F
    if rest = [] then content.length else ascii.length + utf8ByteLengthFrom rest

def replaceUnpairedSurrogates : JsString → JsString
  | [] => []
  | [u] => [if isHighSurrogate u || isLowSurrogate u then 0xFFFD else u]
  | u :: v :: rest =>
    if isHighSurrogate u && isLowSurrogate v then u :: v :: replaceUnpairedSurrogates rest
    else (if isHighSurrogate u || isLowSurrogate u then 0xFFFD else u) :: replaceUnpairedSurrogates (v :: rest)

/-- The loop of `truncateStringToBytesFromEnd`: the code units before `i`, the last first, with what was put out so
far and whether a surrogate in it stands alone. -/
def takeBack (maxBytes : ℕ) : ℕ → Bool → JsString → JsString → JsString × Bool
  | _, needsReplacement, [], output => (output, needsReplacement)
  | outputBytes, needsReplacement, [u], output =>
    if outputBytes + unitBytes u > maxBytes then (output, needsReplacement)
    else (u :: output, needsReplacement || (isHighSurrogate u || isLowSurrogate u))
  | outputBytes, needsReplacement, u :: v :: before, output =>
    if isHighSurrogate v && isLowSurrogate u then
      if outputBytes + 4 > maxBytes then (output, needsReplacement)
      else takeBack maxBytes (outputBytes + 4) needsReplacement before (v :: u :: output)
    else if outputBytes + unitBytes u > maxBytes then (output, needsReplacement)
    else
      takeBack maxBytes (outputBytes + unitBytes u) (needsReplacement || (isHighSurrogate u || isLowSurrogate u))
        (v :: before) (u :: output)

def truncateStringToBytesFromEnd (str : JsString) (maxBytes : ℕ) : JsString :=
  if maxBytes = 0 then []
  else
    let taken := takeBack maxBytes 0 false str.reverse []
    if taken.2 then replaceUnpairedSurrogates taken.1 else taken.1

def truncateTail : JsString → TruncationOptions → TruncationResult := truncateTailBy truncateStringToBytesFromEnd

theorem unitBytes_eq (u : UInt16) : unitBytes u = (Text.utf8Of (Text.loneScalar u)).length := by
  have hlt := u.toNat_lt
  rw [length_utf8Of, Text.loneScalar, unitBytes]
  split_ifs with h1 h2 h3 <;> simp only [isHighSurrogate, isLowSurrogate, Bool.or_eq_true, Bool.and_eq_true,
    decide_eq_true_eq] at * <;> omega

theorem utf8ByteLengthFrom_eq (content : JsString) : utf8ByteLengthFrom content = byteLength content := by
  unfold byteLength textEncode
  fun_induction utf8ByteLengthFrom content with
  | case1 => rfl
  | case2 u => simp [Text.scalars, unitBytes_eq]
  | case3 u v rest hpair ih =>
    rw [ih, Text.scalars, if_pos hpair, List.flatMap_cons, List.length_append, length_utf8Of_pair]
  | case4 u v rest hpair ih =>
    rw [ih, Text.scalars, if_neg hpair, List.flatMap_cons, List.length_append, unitBytes_eq]

/-- Bytes are counted in the same way without `Buffer`. -/
theorem utf8ByteLength_eq (runtimeBuffer : Bool) (content : JsString) :
    utf8ByteLength runtimeBuffer content = byteLength content := by
  have hascii : ∀ text : JsString, (∀ u ∈ text, u.toNat ≤ 0x7F) → Text.Paired text ∧ byteLength text = text.length := by
    intro text htext
    induction text with
    | nil => exact ⟨.nil, rfl⟩
    | cons u text ih =>
      rw [List.forall_mem_cons] at htext
      have hu : (isHighSurrogate u || isLowSurrogate u) = false := by
        have := htext.1
        simp only [isHighSurrogate, isLowSurrogate, Bool.or_eq_false_iff, Bool.and_eq_false_iff, decide_eq_false_iff_not]
        omega
      refine ⟨.unit hu (ih htext.2).1, ?_⟩
      rw [List.length_cons, ← (ih htext.2).2, byteLength, textEncode, Text.scalars_cons hu, List.flatMap_cons,
        List.length_append, length_utf8Of, if_pos (by have := htext.1; omega), Nat.add_comm]
      rfl
  have hsplit := List.takeWhile_append_dropWhile (p := fun u : UInt16 => decide (u.toNat ≤ 0x7F)) (l := content)
  have hfront := hascii (content.takeWhile fun u => u.toNat ≤ 0x7F) fun u hu => by simpa using List.mem_takeWhile_imp hu
  have hsum := byteLength_append hfront.1 (content.dropWhile fun u => u.toNat ≤ 0x7F)
  rw [hsplit, hfront.2] at hsum
  unfold utf8ByteLength
  split
  · rfl
  · rw [hsum]
    dsimp only
    split
    · rename_i hrest
      rw [hrest, byteLength_nil, Nat.add_zero]
      conv_lhs => rw [← hsplit, hrest, List.append_nil]
    · rw [utf8ByteLengthFrom_eq]

end Harness

/-! ## Lines -/

theorem joinLines_concat (ls : List JsString) (tail : JsString) : joinLines (ls ++ [tail]) = unlines 10 ls ++ tail := by
  induction ls with
  | nil => simp [joinLines]
  | cons l ls ih =>
    rw [unlines_cons, List.append_assoc, List.cons_append, List.cons_append, ← ih, joinLines, joinLines,
      List.intercalate_cons_of_ne_nil (by simp)]
    simp

/-- The lines of a text are its whole lines, and its tail if it has one. -/
theorem splitLinesForCounting_unlines {ls : List JsString} {tail : JsString} (hls : ∀ l ∈ ls, 10 ∉ l)
    (htail : 10 ∉ tail) :
    splitLinesForCounting (unlines 10 ls ++ tail) = ls ++ if tail = [] then [] else [tail] := by
  have hsplit : (unlines 10 ls ++ tail).splitOn 10 = ls ++ [tail] := by
    rw [← joinLines_concat]
    refine List.splitOn_intercalate 10 ?_ (by simp)
    intro l hl
    rcases List.mem_append.mp hl with hl | hl
    · exact hls l hl
    · rw [List.mem_singleton.mp hl]
      exact htail
  rw [splitLinesForCounting, hsplit]
  rcases List.eq_nil_or_concat tail with rfl | ⟨front, u, rfl⟩
  · rcases List.eq_nil_or_concat ls with rfl | ⟨ls, l, rfl⟩
    · rfl
    · simp [unlines_append]
  · have hu : u ≠ 10 := by
      rintro rfl
      simp at htail
    simp [hu]

theorem rtakeWhile_unlines (ls : List JsString) {tail : JsString} (htail : 10 ∉ tail) :
    (unlines 10 ls ++ tail).rtakeWhile (· != 10) = tail := by
  have hall : ∀ u ∈ tail.reverse, (u != 10) = true := by
    intro u hu
    rw [bne_iff_ne]
    rintro rfl
    exact htail (List.mem_reverse.mp hu)
  rw [List.rtakeWhile, List.reverse_append, List.takeWhile_append_of_pos hall]
  rcases List.eq_nil_or_concat ls with rfl | ⟨ls, l, rfl⟩
  · simp
  · simp [unlines_append]

theorem count_unlines {ls : List JsString} {tail : JsString} (hls : ∀ l ∈ ls, 10 ∉ l) (htail : 10 ∉ tail) :
    (unlines 10 ls ++ tail).count 10 = ls.length := by
  induction ls with
  | nil => simpa using List.count_eq_zero.mpr htail
  | cons l ls ih =>
    rw [List.forall_mem_cons] at hls
    rw [unlines_cons, List.append_assoc, List.count_append, List.count_eq_zero.mpr hls.1, List.cons_append,
      List.count_cons_self, ih hls.2, List.length_cons, Nat.zero_add]

/-- The lines are the newlines, and one more if the last is open. -/
theorem length_splitLines (text : JsString) :
    (splitLinesForCounting text).length =
      text.count 10 + if !(text.rtakeWhile (· != 10)).isEmpty then 1 else 0 := by
  rcases exists_unlines 10 text with ⟨ls, tail, rfl, hls, htail⟩
  rw [splitLinesForCounting_unlines hls htail, count_unlines hls htail, rtakeWhile_unlines ls htail, List.length_append]
  cases tail <;> simp

theorem byteLength_unlines (ls : List JsString) (tail : JsString) :
    byteLength (unlines 10 ls ++ tail) = (ls.map (byteLength · + 1)).sum + byteLength tail := by
  induction ls with
  | nil => simp
  | cons l ls ih =>
    rw [unlines_cons, List.append_assoc, List.cons_append, byteLength_newline, ih, List.map_cons, List.sum_cons]
    omega

end Phi.Output
