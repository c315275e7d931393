import Phi.Output.Ends

/-!
# What truncation keeps and reports

Both loops take lines as long as they fit, so they keep as many as the limits allow (`Greedy`). The limit they name is
that of the line they stopped at. When they stop at no line, or `truncateTail` has cut its only line, they name the
limit on lines, which the text may well keep.
-/

namespace Phi.Output

/-! ## The copy of the harness -/

namespace Harness.Sized

variable (size : JsString → ℕ)

def collect (options : TruncationOptions) : ℕ → Kept → List JsString → Kept
  | _, kept, [] => kept
  | i, kept, line :: rest =>
    if i < options.maxLines then
      let lineBytes := size line + if i > 0 then 1 else 0
      if kept.bytes + lineBytes > options.maxBytes then { kept with truncatedBy := .bytes }
      else collect options (i + 1) { kept with lines := kept.lines ++ [line], bytes := kept.bytes + lineBytes } rest
    else kept

def collectBack (options : TruncationOptions) : Kept → List JsString → Kept
  | kept, [] => kept
  | kept, line :: rest =>
    if kept.lines.length < options.maxLines then
      let lineBytes := size line + if kept.lines.length > 0 then 1 else 0
      if kept.bytes + lineBytes > options.maxBytes then
        if kept.lines.length = 0 then
          let truncatedLine := truncateStringToBytesFromEnd line options.maxBytes
          { lines := [truncatedLine], bytes := size truncatedLine, truncatedBy := .bytes, lastLinePartial := true }
        else { kept with truncatedBy := .bytes }
      else collectBack options { kept with lines := line :: kept.lines, bytes := kept.bytes + lineBytes } rest
    else kept

def untruncated (content : JsString) (options : TruncationOptions) : TruncationResult :=
  { content, truncated := false, truncatedBy := none, totalLines := (splitLinesForCounting content).length,
    totalBytes := size content, outputLines := (splitLinesForCounting content).length, outputBytes := size content,
    lastLinePartial := false, firstLineExceedsLimit := false, maxLines := options.maxLines,
    maxBytes := options.maxBytes }

def truncated (content : JsString) (options : TruncationOptions) (kept : Kept) : TruncationResult :=
  let outputContent := joinLines kept.lines
  { content := outputContent, truncated := true,
    truncatedBy :=
      if options.maxLines ≤ kept.lines.length ∧ kept.bytes ≤ options.maxBytes then some .lines
      else some kept.truncatedBy,
    totalLines := (splitLinesForCounting content).length, totalBytes := size content,
    outputLines := kept.lines.length, outputBytes := size outputContent, lastLinePartial := kept.lastLinePartial,
    firstLineExceedsLimit := false, maxLines := options.maxLines, maxBytes := options.maxBytes }

def truncateHead (content : JsString) (options : TruncationOptions) : TruncationResult :=
  let lines := splitLinesForCounting content
  if lines.length ≤ options.maxLines ∧ size content ≤ options.maxBytes then untruncated size content options
  else if size (lines.headD []) > options.maxBytes then
    { content := [], truncated := true, truncatedBy := some .bytes, totalLines := lines.length,
      totalBytes := size content, outputLines := 0, outputBytes := 0, lastLinePartial := false,
      firstLineExceedsLimit := true, maxLines := options.maxLines, maxBytes := options.maxBytes }
  else truncated size content options (collect size options 0 {} lines)

def truncateTail (content : JsString) (options : TruncationOptions) : TruncationResult :=
  let lines := splitLinesForCounting content
  if lines.length ≤ options.maxLines ∧ size content ≤ options.maxBytes then untruncated size content options
  else truncated size content options (collectBack size options {} lines.reverse)

theorem collect_byteLength (options : TruncationOptions) (i : ℕ) (kept : Kept) (lines : List JsString) :
    collect byteLength options i kept lines = Output.collect options i kept lines := by
  induction lines generalizing i kept with
  | nil => rfl
  | cons line rest ih =>
    simp only [collect, Output.collect, ih]

theorem collectBack_byteLength (options : TruncationOptions) {kept : Kept} (h : kept.lines = [] → kept.bytes = 0)
    (lines : List JsString) :
    collectBack byteLength options kept lines
      = Output.collectBack Output.truncateStringToBytesFromEnd options kept lines := by
  induction lines generalizing kept with
  | nil => rfl
  | cons line rest ih =>
    simp only [collectBack, Output.collectBack]
    rw [ih fun hnil => absurd hnil (List.cons_ne_nil _ _)]
    by_cases hempty : kept.lines.length = 0
    · have hzero : ¬kept.lines.length > 0 := by omega
      rw [if_neg hzero, if_pos hempty, if_pos hempty, h (List.length_eq_zero_iff.mp hempty), Nat.zero_add, Nat.add_zero]
      split_ifs with hlines hbytes
      · rw [truncateStringToBytesFromEnd_eq hbytes]
      · rfl
      · rfl
    · rw [if_neg hempty, if_neg hempty]

end Harness.Sized

/-- `truncateHead` of the harness. -/
def Harness.truncateHead (runtimeBuffer : Bool) : JsString → TruncationOptions → TruncationResult :=
  Sized.truncateHead (utf8ByteLength runtimeBuffer)

/-- `truncateTail` of the harness, with or without `Buffer`. -/
def Harness.truncateTailOf (runtimeBuffer : Bool) : JsString → TruncationOptions → TruncationResult :=
  Sized.truncateTail (utf8ByteLength runtimeBuffer)

variable (text : JsString) (options : TruncationOptions)

theorem Harness.truncateHead_eq (runtimeBuffer : Bool) :
    Harness.truncateHead runtimeBuffer text options = Output.truncateHead text options := by
  have hsize : utf8ByteLength runtimeBuffer = byteLength := funext (utf8ByteLength_eq runtimeBuffer)
  rw [Harness.truncateHead, hsize, Sized.truncateHead, Output.truncateHead, Sized.collect_byteLength]
  rfl

theorem Harness.truncateTailOf_eq (runtimeBuffer : Bool) :
    Harness.truncateTailOf runtimeBuffer text options = Output.truncateTail text options := by
  have hsize : utf8ByteLength runtimeBuffer = byteLength := funext (utf8ByteLength_eq runtimeBuffer)
  rw [Harness.truncateTailOf, hsize, Sized.truncateTail, Output.truncateTail, Output.truncateTailBy,
    Sized.collectBack_byteLength options fun _ => rfl]
  rfl

/-! ## As many lines as fit -/

/-- The bytes of lines with a newline each. -/
def weight (ls : List JsString) : ℕ := (ls.map (byteLength · + 1)).sum

/-- The first `k` lines fit, and no more do. -/
structure Greedy (ls : List JsString) (k : ℕ) : Prop where
  le_length : k ≤ ls.length
  le_maxLines : k ≤ options.maxLines
  fits : weight (ls.take k) ≤ options.maxBytes + 1
  stop : k < ls.length → k < options.maxLines → options.maxBytes + 1 < weight (ls.take (k + 1))

variable {text options}

theorem weight_append (ls ls' : List JsString) : weight (ls ++ ls') = weight ls + weight ls' := by
  rw [weight, List.map_append, List.sum_append]
  rfl

theorem weight_singleton (line : JsString) : weight [line] = byteLength line + 1 := rfl

theorem weight_reverse (ls : List JsString) : weight ls.reverse = weight ls := by
  rw [weight, List.map_reverse, List.sum_reverse]
  rfl

theorem weight_le_of_take (ls : List JsString) (k : ℕ) : weight (ls.take k) ≤ weight ls := by
  conv_rhs => rw [← List.take_append_drop k ls, weight_append]
  exact Nat.le_add_right _ _

/-- Joined lines have a newline less. -/
theorem byteLength_joinLines {ls : List JsString} (h : ls ≠ []) : byteLength (joinLines ls) + 1 = weight ls := by
  obtain ⟨ls, line, rfl⟩ := (List.eq_nil_or_concat ls).resolve_left h
  rw [List.concat_eq_append, joinLines_concat, byteLength_unlines, weight_append, weight_singleton, Nat.add_assoc]
  rfl

theorem byteLength_joinLines_le_iff {ls : List JsString} {n : ℕ} :
    byteLength (joinLines ls) ≤ n ↔ weight ls ≤ n + 1 := by
  by_cases h : ls = []
  · subst h
    exact ⟨fun _ => Nat.zero_le _, fun _ => Nat.zero_le _⟩
  · rw [← byteLength_joinLines h]
    omega

/-- The limit that the loops name, from the number of lines they have kept. -/
def limitOf (options : TruncationOptions) (ls : List JsString) (k : ℕ) : TruncatedBy :=
  if k < ls.length ∧ k < options.maxLines then .bytes else .lines

/-- What the loop of `truncateHead` has kept of some lines. -/
structure Collected (options : TruncationOptions) (ls : List JsString) (k : ℕ) (kept : Kept) : Prop where
  greedy : Greedy options ls k
  lines : kept.lines = ls.take k
  bytes : kept.bytes ≤ options.maxBytes
  truncatedBy : kept.truncatedBy = limitOf options ls k
  lastLinePartial : kept.lastLinePartial = false

theorem collected_collect {ls rest : List JsString} {i : ℕ} {kept : Kept} (hls : ls = kept.lines ++ rest)
    (hi : kept.lines.length = i) (hmax : i ≤ options.maxLines) (hload : kept.loadAt i = weight kept.lines)
    (hfits : weight kept.lines ≤ options.maxBytes + 1) (hbytes : kept.bytes ≤ options.maxBytes)
    (hby : kept.truncatedBy = .lines) (hwhole : kept.lastLinePartial = false) :
    ∃ k, Collected options ls k (collect options i kept rest) := by
  induction rest generalizing i kept with
  | nil =>
    rw [List.append_nil] at hls
    subst hls
    refine ⟨i, ⟨⟨hi.ge, hmax, ?_, fun hlt => absurd hlt (by omega)⟩, ?_, hbytes, ?_, hwhole⟩⟩
    · rw [← hi, List.take_length]
      exact hfits
    · rw [← hi, List.take_length]
      rfl
    · rw [limitOf, if_neg (by omega)]
      exact hby
  | cons line rest ih =>
    have htake : ls.take i = kept.lines := by rw [hls, ← hi, List.take_left]
    have htake' : ls.take (i + 1) = kept.lines ++ [line] := by
      rw [hls, ← hi, List.take_append, Nat.add_sub_cancel_left, List.take_of_length_le (by omega)]
      rfl
    have hlt : i < ls.length := by
      rw [hls, List.length_append, List.length_cons]
      omega
    rw [collect_cons]
    split_ifs with hlines hmore
    · refine ⟨i, ⟨⟨hlt.le, hmax, ?_, fun _ _ => ?_⟩, htake.symm, hbytes, ?_, hwhole⟩⟩
      · rw [htake]
        exact hfits
      · rw [htake', weight_append, weight_singleton, ← hload]
        omega
      · rw [limitOf, if_pos ⟨hlt, hlines⟩]
    · refine ih ?_ ?_ hlines ?_ ?_ ?_ hby hwhole
      · rw [hls, Kept.concat, List.append_assoc, List.singleton_append]
      · rw [Kept.concat, List.length_append, hi, List.length_singleton]
      · rw [Kept.loadAt_concat, hload, Kept.concat, weight_append, weight_singleton]
      · rw [Kept.concat, weight_append, weight_singleton, ← hload]
        omega
      · exact Nat.le_of_not_lt hmore
    · refine ⟨i, ⟨⟨hlt.le, hmax, ?_, fun _ hlt' => absurd hlt' hlines⟩, htake.symm, hbytes, ?_, hwhole⟩⟩
      · rw [htake]
        exact hfits
      · rw [limitOf, if_neg fun h => hlines h.2]
        exact hby

/-- The loop of `truncateTail` goes over the lines backwards, and keeps them in order. -/
structure CollectedBack (options : TruncationOptions) (ls : List JsString) (k : ℕ) (kept : Kept) : Prop where
  greedy : Greedy options ls k
  lines : kept.lines = (ls.take k).reverse
  bytes : kept.bytes ≤ options.maxBytes
  truncatedBy : kept.truncatedBy = limitOf options ls k
  lastLinePartial : kept.lastLinePartial = false

theorem collectedBack_collectBack {fromEnd : JsString → ℕ → JsString} {ls rest : List JsString} {kept : Kept}
    (hls : ls = kept.lines.reverse ++ rest) (hmax : kept.lines.length ≤ options.maxLines)
    (hload : kept.load = weight kept.lines) (hfits : weight kept.lines ≤ options.maxBytes + 1)
    (hbytes : kept.bytes ≤ options.maxBytes) (hby : kept.truncatedBy = .lines) (hwhole : kept.lastLinePartial = false)
    (hfirst : kept.lines = [] → ∀ line ∈ rest.head?, byteLength line ≤ options.maxBytes) :
    ∃ k, CollectedBack options ls k (collectBack fromEnd options kept rest) := by
  have hlength : kept.lines.reverse.length = kept.lines.length := List.length_reverse
  induction rest generalizing kept with
  | nil =>
    rw [List.append_nil] at hls
    subst hls
    refine ⟨kept.lines.length, ⟨⟨hlength.ge, hmax, ?_, fun hlt => absurd hlt (by omega)⟩, ?_, hbytes, ?_, hwhole⟩⟩
    · rw [← hlength, List.take_length, weight_reverse]
      exact hfits
    · rw [← hlength, List.take_length, List.reverse_reverse]
      rfl
    · rw [limitOf, if_neg (by omega)]
      exact hby
  | cons line rest ih =>
    have htake : ls.take kept.lines.length = kept.lines.reverse := by rw [hls, ← hlength, List.take_left]
    have htake' : ls.take (kept.lines.length + 1) = (line :: kept.lines).reverse := by
      rw [hls, ← hlength, List.take_append, Nat.add_sub_cancel_left, List.take_of_length_le (by omega),
        List.reverse_cons]
      rfl
    have hlt : kept.lines.length < ls.length := by
      rw [hls, List.length_append, List.length_cons, hlength]
      omega
    have hweight : weight (line :: kept.lines) = kept.load + byteLength line + 1 := by
      rw [hload, ← List.singleton_append, weight_append, weight_singleton]
      omega
    rw [collectBack_cons]
    split_ifs with hlines hmore hempty
    · rw [List.length_eq_zero_iff] at hempty
      have hline := hfirst hempty line rfl
      rw [hload, hempty] at hmore
      exact absurd hmore (by simpa [weight] using hline)
    · refine ⟨_, ⟨⟨hlt.le, hmax, ?_, fun _ _ => ?_⟩, ?_, hbytes, ?_, hwhole⟩⟩
      · rw [htake, weight_reverse]
        exact hfits
      · rw [htake', weight_reverse, hweight]
        omega
      · rw [htake, List.reverse_reverse]
      · rw [limitOf, if_pos ⟨hlt, hlines⟩]
    · refine ih ?_ hlines ?_ ?_ ?_ hby hwhole (fun hnil => absurd hnil (List.cons_ne_nil _ _)) List.length_reverse
      · rw [hls, Kept.lines_push, List.reverse_cons, List.append_assoc, List.singleton_append]
      · rw [Kept.load_push, Kept.lines_push, hweight, Nat.add_assoc]
      · rw [Kept.lines_push, hweight]
        omega
      · exact Nat.le_of_not_lt hmore
    · refine ⟨_, ⟨⟨hlt.le, hmax, ?_, fun _ hlt' => absurd hlt' hlines⟩, ?_, hbytes, ?_, hwhole⟩⟩
      · rw [htake, weight_reverse]
        exact hfits
      · rw [htake, List.reverse_reverse]
      · rw [limitOf, if_neg fun h => hlines h.2]
        exact hby

/-! ## The limit that is named -/

/-- The text goes beyond the limit that is named, or within both if none is. -/
def Exceeds (text : JsString) (options : TruncationOptions) : Option TruncatedBy → Prop
  | none => Fits text options
  | some .lines => options.maxLines < (splitLinesForCounting text).length
  | some .bytes => options.maxBytes < byteLength text

theorem limit_of_kept {ls : List JsString} {k : ℕ} {kept : Kept} (hlength : kept.lines.length = k)
    (hby : kept.truncatedBy = limitOf options ls k) :
    (truncated text options kept).truncatedBy = some (limitOf options ls k) := by
  rw [truncated]
  dsimp only
  split_ifs with h
  · rw [limitOf, if_neg (by omega)]
  · rw [hby]

theorem weight_splitLines {text : JsString} (h : text ≠ []) :
    weight (splitLinesForCounting text) = byteLength text + if text.getLast? = some 10 then 0 else 1 := by
  obtain ⟨ls, tail, rfl, hls, htail⟩ := exists_unlines 10 text
  rw [splitLinesForCounting_unlines hls htail, weight_append, byteLength_unlines]
  rcases List.eq_nil_or_concat tail with rfl | ⟨front, u, rfl⟩
  · have hlast : (unlines 10 ls ++ []).getLast? = some 10 := by
      rcases List.eq_nil_or_concat ls with rfl | ⟨ls, l, rfl⟩
      · exact absurd rfl h
      · simp [unlines_append]
    rw [if_pos rfl, if_pos hlast]
    rfl
  · have hu : u ≠ 10 := by
      rintro rfl
      simp at htail
    have hlast : (unlines 10 ls ++ front.concat u).getLast? = some u := by simp
    rw [if_neg (by simp), hlast, if_neg (by simpa using hu), weight_singleton, Nat.add_assoc]
    rfl

/-- The limit of the loops is exceeded unless they kept every line. -/
theorem exceeds_limitOf_iff (hfits : ¬Fits text options) {ls : List JsString} {k : ℕ} (h : Greedy options ls k)
    (hweight : weight ls = weight (splitLinesForCounting text))
    (hlength : ls.length = (splitLinesForCounting text).length) :
    Exceeds text options (some (limitOf options ls k)) ↔
      ¬((splitLinesForCounting text).length ≤ options.maxLines ∧ text.getLast? = some 10 ∧
        byteLength text = options.maxBytes + 1) := by
  have hne : text ≠ [] := by
    rintro rfl
    exact hfits ⟨Nat.zero_le _, Nat.zero_le _⟩
  have hsize := weight_splitLines hne
  rw [← hweight] at hsize
  rw [← hlength, limitOf]
  split_ifs with hk
  · have hstop := h.stop hk.1 hk.2
    have hle := weight_le_of_take ls (k + 1)
    refine ⟨fun _ => fun ⟨_, hlast, hbytes⟩ => ?_, fun _ => show options.maxBytes < byteLength text from ?_⟩
    · rw [if_pos hlast] at hsize
      omega
    · split_ifs at hsize <;> omega
  · rw [Exceeds, ← hlength]
    by_cases hall : k < ls.length
    · have hmax := h.le_maxLines
      exact ⟨fun _ => fun ⟨hle, _⟩ => by omega, fun _ => by omega⟩
    · -- every line is kept, so that only the last newline is too much
      have hfit := h.fits
      have hle := h.le_maxLines
      rw [List.take_of_length_le (by omega)] at hfit
      have hmore : options.maxBytes < byteLength text := by
        by_contra hbytes
        exact hfits ⟨by omega, by omega⟩
      refine ⟨fun hlt => by have := h.le_length; omega, fun hnot => absurd ⟨by omega, ?_, ?_⟩ hnot⟩
      · by_contra hlast
        rw [if_neg hlast] at hsize
        omega
      · split_ifs at hsize <;> omega

/-! ## Results -/

/-- Of the lines, `k` at one end are within both limits, and one more would break a limit. -/
structure Maximal (options : TruncationOptions) (ls : List JsString) (part : ℕ → List JsString) (k : ℕ) : Prop where
  le_length : k ≤ ls.length
  lines : k ≤ options.maxLines
  bytes : byteLength (joinLines (part k)) ≤ options.maxBytes
  more : k < ls.length → options.maxLines < k + 1 ∨ options.maxBytes < byteLength (joinLines (part (k + 1)))

theorem Greedy.maximal {ls ls' : List JsString} {part : ℕ → List JsString} {k : ℕ} (h : Greedy options ls k)
    (hlength : ls.length = ls'.length) (hpart : ∀ n, weight (part n) = weight (ls.take n)) :
    Maximal options ls' part k where
  le_length := hlength ▸ h.le_length
  lines := h.le_maxLines
  bytes := by
    rw [byteLength_joinLines_le_iff, hpart]
    exact h.fits
  more hlt := by
    rw [← Nat.not_le (a := byteLength (joinLines (part (k + 1)))), byteLength_joinLines_le_iff, hpart]
    by_contra hnot
    rw [not_or, not_not] at hnot
    have hstop := h.stop (hlength ▸ hlt) (by omega)
    omega

/-- What a result says of the text and of its own content. -/
structure Counts (text : JsString) (options : TruncationOptions) (result : TruncationResult) : Prop where
  truncated : result.truncated = true ↔ ¬Fits text options
  totalLines : result.totalLines = (splitLinesForCounting text).length
  totalBytes : result.totalBytes = byteLength text
  outputBytes : result.outputBytes = byteLength result.content
  maxLines : result.maxLines = options.maxLines
  maxBytes : result.maxBytes = options.maxBytes

/-- The first lines of a text, and nothing if the first is too long by itself. -/
structure HeadKept (text : JsString) (options : TruncationOptions) (result : TruncationResult) : Prop where
  counts : Counts text options result
  whole : Fits text options → result.content = text ∧ result.outputLines = result.totalLines
  cut : ¬Fits text options → ∃ k, Maximal options (splitLinesForCounting text) (splitLinesForCounting text).take k ∧
    result.content = joinLines ((splitLinesForCounting text).take k) ∧ result.outputLines = k
  nothing : result.firstLineExceedsLimit = true → result.content = []
  firstLine : result.firstLineExceedsLimit = true ↔
    ¬Fits text options ∧ options.maxBytes < byteLength ((splitLinesForCounting text).headD [])
  lastLine : result.lastLinePartial = false

/-- The last lines of a text, or the end of the last if that is too long by itself. -/
structure TailKept (text : JsString) (options : TruncationOptions) (result : TruncationResult) : Prop where
  counts : Counts text options result
  whole : Fits text options → result.content = text ∧ result.outputLines = result.totalLines
  cut : ¬Fits text options → result.lastLinePartial = false →
    ∃ k, Maximal options (splitLinesForCounting text) (splitLinesForCounting text).rtake k ∧
      result.content = joinLines ((splitLinesForCounting text).rtake k) ∧ result.outputLines = k
  lastEnd : result.lastLinePartial = true →
    IsEnd options.maxBytes ((splitLinesForCounting text).getLastD []) result.content ∧ result.outputLines = 1
  firstLine : result.firstLineExceedsLimit = false
  lastLine : result.lastLinePartial = true ↔
    ¬Fits text options ∧ options.maxBytes < byteLength ((splitLinesForCounting text).getLastD [])

/-- Truncation keeps as much as it can and says what it has done, in both packages. -/
structure Truthful (text : JsString) (options : TruncationOptions) : Prop where
  head : HeadKept text options (truncateHead text options)
  tail : TailKept text options (truncateTail text options)
  headBy : Exceeds text options (truncateHead text options).truncatedBy
  tailBy : Exceeds text options (truncateTail text options).truncatedBy
  harnessHead : ∀ runtimeBuffer, Harness.truncateHead runtimeBuffer text options = truncateHead text options
  harnessTail : ∀ runtimeBuffer, Harness.truncateTailOf runtimeBuffer text options = truncateTail text options

theorem counts_untruncated (h : Fits text options) : Counts text options (untruncated text options) :=
  ⟨⟨(fun hnot => nomatch hnot), fun hnot => absurd h hnot⟩, rfl, rfl, rfl, rfl, rfl⟩

theorem counts_truncated (h : ¬Fits text options) (kept : Kept) : Counts text options (truncated text options kept) :=
  ⟨⟨fun _ => h, fun _ => rfl⟩, rfl, rfl, rfl, rfl, rfl⟩

/-- A text with a line that is too long is too long, and not by a last newline alone. -/
theorem exceeds_of_long {line : JsString} (hline : line ∈ splitLinesForCounting text)
    (hlong : options.maxBytes < byteLength line) :
    options.maxBytes < byteLength text ∧ ¬(text.getLast? = some 10 ∧ byteLength text = options.maxBytes + 1) := by
  have hne : text ≠ [] := by
    rintro rfl
    exact absurd hline List.not_mem_nil
  have hle : byteLength line + 1 ≤ weight (splitLinesForCounting text) :=
    List.single_le_sum (fun _ _ => Nat.zero_le _) _ (List.mem_map.mpr ⟨line, hline, rfl⟩)
  have hsize := weight_splitLines hne
  refine ⟨by split_ifs at hsize <;> omega, fun ⟨hlast, hbytes⟩ => ?_⟩
  rw [if_pos hlast] at hsize
  omega

theorem lines_ne_nil (h : ¬Fits text options) : splitLinesForCounting text ≠ [] := by
  refine splitLines_ne_nil ?_
  rintro rfl
  exact h ⟨Nat.zero_le _, Nat.zero_le _⟩

/-! ### Head -/

theorem exists_collected (text : JsString) (options : TruncationOptions) :
    ∃ k, Collected options (splitLinesForCounting text) k (collect options 0 {} (splitLinesForCounting text)) :=
  collected_collect rfl rfl (Nat.zero_le _) rfl (Nat.zero_le _) (Nat.zero_le _) rfl rfl

theorem headKept (text : JsString) (options : TruncationOptions) :
    HeadKept text options (truncateHead text options) := by
  rw [truncateHead]
  dsimp only
  split_ifs with hfits hfirst
  · exact ⟨counts_untruncated hfits, fun _ => ⟨rfl, rfl⟩, fun hnot => absurd hfits hnot, (fun h => by cases h),
      ⟨(fun h => by cases h), fun h => absurd hfits h.1⟩, rfl⟩
  · refine ⟨⟨⟨fun _ => hfits, fun _ => rfl⟩, rfl, rfl, rfl, rfl, rfl⟩, fun h => absurd h hfits,
      fun _ => ⟨0, ?_, rfl, rfl⟩, fun _ => rfl, ⟨fun _ => ⟨hfits, hfirst⟩, fun _ => rfl⟩, rfl⟩
    refine ⟨Nat.zero_le _, Nat.zero_le _, Nat.zero_le _, fun hlt => .inr ?_⟩
    obtain ⟨first, rest, hlines⟩ := List.exists_cons_of_length_pos hlt
    rw [hlines] at hfirst ⊢
    have hjoin : joinLines (List.take (0 + 1) (first :: rest)) = first := joinLines_concat [] first
    rw [hjoin]
    exact hfirst
  · obtain ⟨k, hk⟩ := exists_collected text options
    have hlength : (collect options 0 {} (splitLinesForCounting text)).lines.length = k := by
      rw [hk.lines, List.length_take, Nat.min_eq_left hk.greedy.le_length]
    refine ⟨counts_truncated hfits _, fun h => absurd h hfits,
      fun _ => ⟨k, hk.greedy.maximal rfl fun _ => rfl, ?_, hlength⟩, (fun h => by cases h),
      ⟨(fun h => by cases h), fun h => absurd h.2 hfirst⟩, hk.lastLinePartial⟩
    exact congrArg joinLines hk.lines

theorem headBy_iff (text : JsString) (options : TruncationOptions) :
    Exceeds text options (truncateHead text options).truncatedBy ↔
      ¬((splitLinesForCounting text).length ≤ options.maxLines ∧ text.getLast? = some 10 ∧
        byteLength text = options.maxBytes + 1) := by
  rw [truncateHead]
  dsimp only
  split_ifs with hfits hfirst
  · refine ⟨fun _ h => ?_, fun _ => hfits⟩
    have hle := hfits.2
    omega
  · obtain ⟨first, rest, hlines⟩ := List.exists_cons_of_ne_nil (lines_ne_nil hfits)
    rw [hlines] at hfirst
    obtain ⟨hmore, hnot⟩ := exceeds_of_long (hlines ▸ List.mem_cons_self) hfirst
    exact ⟨fun _ h => hnot h.2, fun _ => hmore⟩
  · obtain ⟨k, hk⟩ := exists_collected text options
    rw [limit_of_kept (by rw [hk.lines, List.length_take, Nat.min_eq_left hk.greedy.le_length]) hk.truncatedBy]
    exact exceeds_limitOf_iff hfits hk.greedy rfl rfl

/-! ### Tail -/

theorem joinLines_singleton (line : JsString) : joinLines [line] = line := joinLines_concat [] line

theorem truncateTail_of_not_fits (h : ¬Fits text options) :
    truncateTail text options = truncated text options
      (collectBack truncateStringToBytesFromEnd options {} (splitLinesForCounting text).reverse) := by
  rw [truncateTail, truncateTailBy, if_neg h]

theorem head?_reverse_lines (text : JsString) :
    ∀ line ∈ (splitLinesForCounting text).reverse.head?, (splitLinesForCounting text).getLastD [] = line := by
  intro line hline
  rw [List.head?_reverse] at hline
  rw [List.getLastD_eq_getLast?, Option.mem_def.mp hline, Option.getD_some]

theorem exists_collectedBack (hlast : byteLength ((splitLinesForCounting text).getLastD []) ≤ options.maxBytes) :
    ∃ k, CollectedBack options (splitLinesForCounting text).reverse k
      (collectBack truncateStringToBytesFromEnd options {} (splitLinesForCounting text).reverse) := by
  refine collectedBack_collectBack rfl (Nat.zero_le _) rfl (Nat.zero_le _) (Nat.zero_le _) rfl rfl ?_
  intro _ line hline
  rw [← head?_reverse_lines text line hline]
  exact hlast

/-- A last line that is too long by itself is all that is kept. -/
theorem collectBack_of_long (hfits : ¬Fits text options) (hlines : 1 ≤ options.maxLines)
    (hlong : options.maxBytes < byteLength ((splitLinesForCounting text).getLastD [])) :
    collectBack truncateStringToBytesFromEnd options {} (splitLinesForCounting text).reverse =
      ⟨[truncateStringToBytesFromEnd ((splitLinesForCounting text).getLastD []) options.maxBytes],
        byteLength (truncateStringToBytesFromEnd ((splitLinesForCounting text).getLastD []) options.maxBytes), .bytes,
        true⟩ := by
  obtain ⟨line, rest, heq⟩ := List.exists_cons_of_ne_nil fun h => lines_ne_nil hfits (List.reverse_eq_nil_iff.mp h)
  have hline := head?_reverse_lines text line (by rw [heq]; rfl)
  rw [hline] at hlong ⊢
  have hpos : ({} : Kept).lines.length < options.maxLines := hlines
  have hmore : options.maxBytes < ({} : Kept).load + byteLength line := by
    rw [Kept.load_empty, Nat.zero_add]
    exact hlong
  rw [heq, collectBack_cons, if_pos hpos, if_pos hmore]
  rfl

theorem weight_rtake (ls : List JsString) (k : ℕ) : weight (ls.rtake k) = weight (ls.reverse.take k) := by
  rw [List.rtake_eq_reverse_take_reverse, weight_reverse]

theorem CollectedBack.length {ls : List JsString} {k : ℕ} {kept : Kept} (h : CollectedBack options ls k kept) :
    kept.lines.length = k := by
  rw [h.lines, List.length_reverse, List.length_take, Nat.min_eq_left h.greedy.le_length]

theorem tailKept (text : JsString) (hlines : 1 ≤ options.maxLines) :
    TailKept text options (truncateTail text options) := by
  by_cases hfits : Fits text options
  · rw [truncateTail, truncateTailBy, if_pos hfits]
    exact ⟨counts_untruncated hfits, fun _ => ⟨rfl, rfl⟩, fun hnot => absurd hfits hnot, (fun h => by cases h), rfl,
      ⟨(fun h => by cases h), fun h => absurd hfits h.1⟩⟩
  · rw [truncateTail_of_not_fits hfits]
    by_cases hlong : options.maxBytes < byteLength ((splitLinesForCounting text).getLastD [])
    · rw [collectBack_of_long hfits hlines hlong]
      refine ⟨counts_truncated hfits _, fun h => absurd h hfits, (fun _ h => by cases h), fun _ => ⟨?_, rfl⟩, rfl,
        ⟨fun _ => ⟨hfits, hlong⟩, fun _ => rfl⟩⟩
      rw [truncated]
      dsimp only
      rw [joinLines_singleton]
      exact isEnd_truncateStringToBytesFromEnd hlong
    · obtain ⟨k, hk⟩ := exists_collectedBack (Nat.le_of_not_lt hlong)
      refine ⟨counts_truncated hfits _, fun h => absurd h hfits, fun _ _ => ⟨k, ?_, ?_, hk.length⟩, fun h => ?_, rfl,
        ⟨fun h => ?_, fun h => absurd h.2 hlong⟩⟩
      · exact hk.greedy.maximal List.length_reverse (weight_rtake _)
      · rw [truncated, List.rtake_eq_reverse_take_reverse]
        exact congrArg joinLines hk.lines
      · exact absurd (hk.lastLinePartial.symm.trans h) Bool.false_ne_true
      · exact absurd (hk.lastLinePartial.symm.trans h) Bool.false_ne_true

theorem getLastD_mem_lines (h : splitLinesForCounting text ≠ []) :
    (splitLinesForCounting text).getLastD [] ∈ splitLinesForCounting text := by
  rw [List.getLastD_eq_getLast?, List.getLast?_eq_getLast_of_ne_nil h, Option.getD_some]
  exact List.getLast_mem h

theorem tailBy_iff (text : JsString) (hlines : 1 ≤ options.maxLines) :
    Exceeds text options (truncateTail text options).truncatedBy ↔
      ¬((splitLinesForCounting text).length ≤ options.maxLines ∧ text.getLast? = some 10 ∧
          byteLength text = options.maxBytes + 1) ∧
        ¬(options.maxLines = 1 ∧ (splitLinesForCounting text).length = 1 ∧
          options.maxBytes < byteLength ((splitLinesForCounting text).getLastD [])) := by
  by_cases hfits : Fits text options
  · rw [truncateTail, truncateTailBy, if_pos hfits]
    have hle := hfits.2
    refine ⟨fun _ => ⟨fun h => by omega, fun h => ?_⟩, fun _ => hfits⟩
    obtain ⟨-, hone, hlong⟩ := h
    have hmem := @getLastD_mem_lines text (List.ne_nil_of_length_pos (by omega))
    have hmore := (exceeds_of_long hmem hlong).1
    omega
  · rw [truncateTail_of_not_fits hfits]
    by_cases hlong : options.maxBytes < byteLength ((splitLinesForCounting text).getLastD [])
    · rw [collectBack_of_long hfits hlines hlong]
      have hne := lines_ne_nil hfits
      have hpos := List.length_pos_of_ne_nil hne
      obtain ⟨hmore, hnot⟩ := exceeds_of_long (getLastD_mem_lines hne) hlong
      obtain ⟨-, -, -, -, hle, -⟩ := isEnd_truncateStringToBytesFromEnd hlong
      rw [truncated]
      dsimp only
      split_ifs with hone
      · rw [List.length_singleton] at hone
        exact ⟨fun hexceeds => ⟨fun h => hnot h.2, fun h => by rw [Exceeds] at hexceeds; omega⟩,
          fun h => by rw [Exceeds]; omega⟩
      · exact ⟨fun _ => ⟨fun h => hnot h.2, fun h => hone ⟨h.1.le, hle⟩⟩, fun _ => hmore⟩
    · obtain ⟨k, hk⟩ := exists_collectedBack (Nat.le_of_not_lt hlong)
      rw [limit_of_kept hk.length hk.truncatedBy]
      have hiff := exceeds_limitOf_iff hfits hk.greedy (weight_reverse _) List.length_reverse
      exact ⟨fun h => ⟨hiff.mp h, fun hnot => hlong hnot.2.2⟩, fun h => hiff.mpr h.1⟩

/-! ## Both -/

/-- The lines fit, and with the last newline the text is one byte too long. -/
def NewlineTooMuch (text : JsString) (options : TruncationOptions) : Prop :=
  (splitLinesForCounting text).length ≤ options.maxLines ∧ text.getLast? = some 10 ∧
    byteLength text = options.maxBytes + 1

/-- One line is allowed, and the only line of the text is too long. -/
def OnlyLineCut (text : JsString) (options : TruncationOptions) : Prop :=
  options.maxLines = 1 ∧ (splitLinesForCounting text).length = 1 ∧
    options.maxBytes < byteLength ((splitLinesForCounting text).getLastD [])

/-- Truncation is maximal and truthful, but for the limit that it names in two cases. -/
theorem truthful_iff (text : JsString) (options : TruncationOptions) (hlines : 1 ≤ options.maxLines) :
    Truthful text options ↔ ¬NewlineTooMuch text options ∧ ¬OnlyLineCut text options := by
  refine ⟨fun h => (tailBy_iff text hlines).mp h.tailBy, fun h => ?_⟩
  exact ⟨headKept text options, tailKept text hlines, (headBy_iff text options).mpr h.1, (tailBy_iff text hlines).mpr h,
    Harness.truncateHead_eq text options, Harness.truncateTailOf_eq text options⟩

theorem truthful_iff_two_lines :
    1 ≤ 1 ∧ (Truthful (JsString.ofAscii "a\nb") ⟨1, 10⟩ ↔
      ¬NewlineTooMuch (JsString.ofAscii "a\nb") ⟨1, 10⟩ ∧ ¬OnlyLineCut (JsString.ofAscii "a\nb") ⟨1, 10⟩) :=
  ⟨le_rfl, truthful_iff (JsString.ofAscii "a\nb") ⟨1, 10⟩ le_rfl⟩

/-- One line that fits, with a newline that does not: the result names the limit on lines. -/
theorem not_truthful_newline : ¬Truthful (JsString.ofAscii "ab\n") ⟨2000, 2⟩ := by
  intro h
  have hby : (truncateHead (JsString.ofAscii "ab\n") ⟨2000, 2⟩).truncatedBy = some .lines := by decide
  have hexceeds := h.headBy
  rw [hby] at hexceeds
  have hmore : 2000 < (splitLinesForCounting (JsString.ofAscii "ab\n")).length := hexceeds
  exact absurd hmore (by decide)

end Phi.Output
