import Phi.Output.Accumulator

/-!
# Snapshots of streamed output

A snapshot shows what truncating the whole output shows (`StreamsExactly`), with one kind of exception: the tail
starts inside a line, that line is dropped, and the lines behind it are none at all or are shown as they are, with
the newline at their end that a truncated output does not have (`DropsCutLine`). Apart from this, an output with
visible content shows nothing if its last line is empty and the line before it does not fit (`EndsBlank`).
-/

namespace Phi.Output

open Phi.Edit (isWhiteSpace)

variable {options : TruncationOptions} {cut : JsString × JsString}

/-- The kept tail starts inside a line, and the lines behind that one are none, or end the output and fit. -/
def DropsCutLine (options : TruncationOptions) (cut : JsString × JsString) : Prop :=
  (∃ u ∈ cut.1.getLast?, u ≠ 10) ∧
    ∃ start behind, cut.2 = start ++ 10 :: behind ∧ 10 ∉ start ∧
      (behind = [] ∨ behind.getLast? = some 10 ∧ Fits behind options)

/-- The last line is empty, and the line before it is not kept. -/
def EndsBlank (options : TruncationOptions) (output : JsString) : Prop :=
  ∃ before line, splitLinesForCounting output = before ++ [line, []] ∧
    (options.maxLines = 1 ∨ options.maxBytes ≤ byteLength line)

/-- Something other than white space. -/
def Visible (output : JsString) : Prop := ∃ u ∈ output, isWhiteSpace u = false

/-! ## Cut lines -/

theorem truncateStringToBytesFromEnd_append {start first : JsString} (hstart : Text.Paired start) {n : ℕ}
    (hn : n < byteLength first) :
    truncateStringToBytesFromEnd (start ++ first) n = truncateStringToBytesFromEnd first n := by
  have hlonger := byteLength_le_append_left start first
  have hlength : (textEncode (start ++ first)).length = (textEncode start).length + (textEncode first).length := by
    rw [textEncode_append hstart, List.length_append]
  have hn' : n < (textEncode first).length := hn
  rw [truncateStringToBytesFromEnd, truncateStringToBytesFromEnd]
  rw [if_neg (by omega), if_neg (by omega), lastBytes, lastBytes, hlength, textEncode_append hstart,
    show (textEncode start).length + (textEncode first).length - n =
      (textEncode start).length + ((textEncode first).length - n) by omega, List.drop_length_add_append]

theorem truncateStringToBytesFromEnd_ne_nil {line : JsString} {n : ℕ} (hn : 4 ≤ n) (hline : n < byteLength line) :
    truncateStringToBytesFromEnd line n ≠ [] := by
  have hlt : n < (textEncode line).length := hline
  rcases lastBytes_textEncode line n with ⟨front, back, hscalars, hlast, -, hback⟩
  have hall : ∀ c ∈ back, Utf8.IsScalar c := by
    intro c hc
    refine isScalar_scalars line c ?_
    rw [hscalars]
    exact List.mem_append_right _ hc
  rw [truncateStringToBytesFromEnd]
  rw [if_neg (by omega), hlast, decodeUtf8, run_flatMap_utf8Of hall]
  intro hnil
  have hbytes := byteLength_flatMap hall
  rw [hnil, byteLength_nil] at hbytes
  omega

/-- The tail of the output is truncated as the output is. -/
theorem content_truncateTail_tail (hm : 5 ≤ options.maxBytes) (hfront : Text.Paired cut.1)
    (hlarge : cut.1 = [] ∨ 2 * options.maxBytes ≤ byteLength cut.2 + 3) :
    (truncateTail (cut.1 ++ cut.2) options).content = (truncateTail cut.2 options).content := by
  rcases hlarge with hnil | hlarge
  · rw [hnil, List.nil_append]
  · refine content_truncateTailBy_cut cut.1 (by omega) ?_
    intro before start first heq hfirst
    rw [heq] at hfront
    exact truncateStringToBytesFromEnd_append (paired_of_unlines hfront).2 hfirst

/-- A text is its lines, unless it ends in a newline. -/
theorem joinLines_splitLines {text : JsString} (h : text ≠ []) :
    joinLines (splitLinesForCounting text) = text ↔ text.getLast? ≠ some 10 := by
  rcases exists_unlines 10 text with ⟨ls, tail, rfl, hls, htail⟩
  rw [splitLinesForCounting_unlines hls htail]
  rcases List.eq_nil_or_concat' tail with rfl | ⟨front, u, rfl⟩
  · rcases List.eq_nil_or_concat' ls with rfl | ⟨ls, l, rfl⟩
    · exact absurd rfl h
    · rw [if_pos rfl, List.append_nil, joinLines_concat]
      simp [unlines_append]
  · have hu : u ≠ 10 := by
      rintro rfl
      simp at htail
    rw [if_neg (by simp), joinLines_concat]
    simp [hu]

/-- A last line that is cut shows something. -/
theorem content_truncateTail_line {line : JsString} (hline : 10 ∉ line) (hlines : 1 ≤ options.maxLines)
    (hm : 4 ≤ options.maxBytes) (hbytes : options.maxBytes < byteLength line) :
    (truncateTail (line ++ [10]) options).content ≠ [] := by
  have hsplit : splitLinesForCounting (line ++ [10]) = [line] := by
    have heq : splitLinesForCounting (unlines 10 [line] ++ []) = [line] ++ if ([] : JsString) = [] then [] else [[]] :=
      splitLinesForCounting_unlines (by simpa using hline) (by simp)
    simpa using heq
  have hlonger := byteLength_le_append_right line [10]
  rw [truncateTail, content_truncateTailBy (not_fits_of_lt (by omega)), hsplit, List.reverse_singleton, collectBack_cons,
    if_pos (show ({} : Kept).lines.length < options.maxLines from hlines), Kept.load_empty, Nat.zero_add, if_pos hbytes,
    if_pos (show ({} : Kept).lines.length = 0 from rfl)]
  simpa [joinLines] using truncateStringToBytesFromEnd_ne_nil hm hbytes

/-- What is behind a cut line is shown as the truncated output, unless it fits and ends in a newline. -/
theorem content_truncateTail_behind_iff (front : JsString) {start behind : JsString} (hstart : 10 ∉ start)
    (hbehind : behind ≠ []) (hbytes : options.maxBytes + 2 ≤ byteLength (start ++ 10 :: behind)) :
    (truncateTail behind options).content = (truncateTail (front ++ (start ++ 10 :: behind)) options).content ↔
      ¬(behind.getLast? = some 10 ∧ Fits behind options) := by
  rw [truncateTail, content_truncateTailBy_behind front hstart hbehind hbytes]
  by_cases hfits : Fits behind options
  · rcases splitLines_append [] hbehind with ⟨-, -, first, rest, -, hsplit, -, -⟩
    have hcollect : (collectBack truncateStringToBytesFromEnd options {} (splitLinesForCounting behind).reverse).lines =
        splitLinesForCounting behind := by
      rw [collectBack_all]
      · simp
      · simpa using hfits.1
      · rw [List.map_reverse, List.sum_reverse, Kept.load_empty, Nat.zero_add]
        exact (sum_splitLines_le behind).trans (Nat.add_le_add_right hfits.2 1)
    rw [hcollect, truncateTailBy, if_pos hfits, and_iff_left hfits]
    exact eq_comm.trans (joinLines_splitLines hbehind)
  · rw [content_truncateTailBy hfits]
    simp [hfits]

/-! ## Nothing shown -/

theorem suffix_collectBack {fromEnd : JsString → ℕ → JsString} (kept : Kept) (ls : List JsString)
    (h : 0 < kept.lines.length) : kept.lines <:+ (collectBack fromEnd options kept ls).lines := by
  induction ls generalizing kept with
  | nil => exact List.suffix_refl _
  | cons line ls ih =>
    rw [collectBack_cons, if_neg (show ¬kept.lines.length = 0 by omega)]
    split
    · split
      · exact List.suffix_refl _
      · have hpush : 0 < (kept.push line).lines.length := Nat.succ_pos _
        exact (List.suffix_cons line kept.lines).trans (ih _ hpush)
    · exact List.suffix_refl _

theorem joinLines_eq_nil {lines : List JsString} : joinLines lines = [] ↔ lines = [] ∨ lines = [[]] := by
  cases lines with
  | nil => simp [joinLines]
  | cons line lines =>
    cases lines with
    | nil => simp [joinLines]
    | cons line' lines => simp [joinLines, List.intercalate_cons_cons]

theorem not_fits_of_endsBlank {output : JsString} (h : EndsBlank options output) : ¬Fits output options := by
  rcases h with ⟨before, line, hsplit, hkept⟩
  rintro ⟨hcount, hbytes⟩
  have hsum := sum_splitLines_le output
  rw [hsplit] at hsum hcount
  simp only [List.map_append, List.map_cons, List.map_nil, List.sum_append, List.sum_cons, List.sum_nil, byteLength_nil,
    List.length_append, List.length_cons, List.length_nil] at hsum hcount
  omega

/-- A single empty line is a newline. -/
theorem eq_newline_of_splitLines {output : JsString} (h : splitLinesForCounting output = [[]]) : output = [10] := by
  rcases exists_unlines 10 output with ⟨ls, tail, rfl, hls, htail⟩
  rw [splitLinesForCounting_unlines hls htail] at h
  split at h
  · rename_i hnil
    rw [List.append_nil] at h
    rw [h, hnil]
    rfl
  · rename_i hne
    rw [List.append_eq_singleton_iff] at h
    rcases h with ⟨-, h⟩ | ⟨-, h⟩
    · exact absurd (List.singleton_inj.mp h) hne
    · cases h

/-- The lines before an empty last line are all that can be shown of an output. -/
theorem endsBlank_iff {output : JsString} {before : List JsString} {line last : JsString}
    (h : splitLinesForCounting output = before ++ [line] ++ [last]) :
    EndsBlank options output ↔ last = [] ∧ (options.maxLines = 1 ∨ options.maxBytes ≤ byteLength line) := by
  constructor
  · rintro ⟨before', line', heq, hkept⟩
    rw [h, show before' ++ [line', []] = before' ++ [line'] ++ [[]] by simp] at heq
    rcases List.append_inj' heq rfl with ⟨hinit, hlast⟩
    rw [List.singleton_inj.mp (List.append_inj' hinit rfl).2]
    exact ⟨List.singleton_inj.mp hlast, hkept⟩
  · rintro ⟨rfl, hkept⟩
    exact ⟨before, line, by rw [h]; simp, hkept⟩

/-- A truncated output shows nothing exactly when its last line is empty and the one before it is not kept. -/
theorem content_truncateTail_eq_nil {output : JsString} (hlines : 1 ≤ options.maxLines) (hm : 4 ≤ options.maxBytes)
    (hvisible : Visible output) : (truncateTail output options).content = [] ↔ EndsBlank options output := by
  rcases hvisible with ⟨u, hu, hspace⟩
  have hne : output ≠ [] := List.ne_nil_of_mem hu
  by_cases hfits : Fits output options
  · rw [truncateTail, truncateTailBy, if_pos hfits]
    exact ⟨fun hnil => absurd hnil hne, fun hblank => absurd hfits (not_fits_of_endsBlank hblank)⟩
  rw [truncateTail, content_truncateTailBy hfits, joinLines_eq_nil]
  rcases List.eq_nil_or_concat' (splitLinesForCounting output) with hnil | ⟨before, last, hsplit⟩
  · exact absurd hnil (splitLines_ne_nil hne)
  rw [hsplit, List.reverse_append, List.reverse_singleton, List.singleton_append, collectBack_cons,
    if_pos (show ({} : Kept).lines.length < options.maxLines from hlines), Kept.load_empty, Nat.zero_add]
  by_cases hlong : options.maxBytes < byteLength last
  · -- the end of the last line is shown
    rw [if_pos hlong, if_pos (show ({} : Kept).lines.length = 0 from rfl)]
    have hshown := truncateStringToBytesFromEnd_ne_nil hm hlong
    constructor
    · rintro (hnil | hnil)
      · cases hnil
      · exact absurd (List.singleton_inj.mp hnil) hshown
    · rintro ⟨before', line, heq, -⟩
      rw [hsplit, show before' ++ [line, []] = before' ++ [line] ++ [[]] by simp] at heq
      rw [List.singleton_inj.mp (List.append_inj' heq rfl).2] at hlong
      simp at hlong
  rw [if_neg hlong]
  rcases List.eq_nil_or_concat' before with rfl | ⟨before, line, rfl⟩
  · -- a single line that fits would be a newline
    have hlast : last ≠ [] := by
      rintro rfl
      rw [eq_newline_of_splitLines hsplit, List.mem_singleton] at hu
      rw [hu] at hspace
      cases hspace
    constructor
    · rintro (hnil | hnil)
      · cases hnil
      · exact absurd (List.singleton_inj.mp hnil) hlast
    · rintro ⟨before', line, heq, -⟩
      rw [hsplit] at heq
      have := congrArg List.length heq
      simp at this
  · rw [endsBlank_iff hsplit, List.reverse_append, List.reverse_singleton, List.singleton_append, collectBack_cons]
    have hlength : (({} : Kept).push last).lines.length = 1 := rfl
    have hload : (({} : Kept).push last).load = byteLength last + 1 := by rw [Kept.load_push, Kept.load_empty, Nat.zero_add]
    rw [hlength, hload, if_neg one_ne_zero]
    have hone : ([last] = [] ∨ [last] = [[]]) ↔ last = [] := by simp
    split
    · split
      · -- the line before the last does not fit
        rename_i hfull
        refine hone.trans ⟨fun hnil => ⟨hnil, .inr ?_⟩, fun hblank => hblank.1⟩
        rw [hnil, byteLength_nil] at hfull
        omega
      · -- two lines are shown at least
        rename_i hmore hroom
        have hsuffix : [line, last] <:+ (collectBack truncateStringToBytesFromEnd options
            ((({} : Kept).push last).push line) before.reverse).lines :=
          suffix_collectBack ((({} : Kept).push last).push line) _ (Nat.succ_pos _)
        have htwo := hsuffix.length_le
        constructor
        · rintro (hnil | hnil) <;> rw [hnil] at htwo <;> simp at htwo
        · rintro ⟨rfl, hkept⟩
          rw [byteLength_nil] at hroom
          omega
    · refine hone.trans ⟨fun hnil => ⟨hnil, .inl ?_⟩, fun hblank => hblank.1⟩
      omega

namespace OutputAccumulator

variable {acc : OutputAccumulator}

theorem getSnapshotText_of_newline {start behind : JsString} (hboundary : acc.tailStartsAtLineBoundary = false)
    (htail : acc.tailText = start ++ 10 :: behind) (hstart : 10 ∉ start) : acc.getSnapshotText = behind := by
  have hall : ∀ u ∈ start, (u != 10) = true := by
    intro u hu
    rw [bne_iff_ne]
    rintro rfl
    exact hstart hu
  have hdrop : (start ++ 10 :: behind).dropWhile (· != 10) = 10 :: behind := by
    rw [List.dropWhile_append_of_pos hall]
    simp
  rw [getSnapshotText, hboundary, if_neg (by simp), htail, hdrop]

theorem getSnapshotText_of_not_mem (htail : 10 ∉ acc.tailText) : acc.getSnapshotText = acc.tailText := by
  have hdrop : acc.tailText.dropWhile (· != 10) = [] := by
    rw [List.dropWhile_eq_nil_iff]
    intro u hu
    rw [bne_iff_ne]
    rintro rfl
    exact htail hu
  rw [getSnapshotText, hdrop]
  split <;> rfl

/-- The snapshot shows what the truncated output shows, unless a line is dropped. -/
theorem KeepsTail.content_iff (h : acc.KeepsTail cut) (hlines : 1 ≤ acc.options.maxLines)
    (hm : 16 ≤ acc.options.maxBytes) :
    (truncateTail acc.getSnapshotText acc.options).content = (truncateTail (cut.1 ++ cut.2) acc.options).content ↔
      ¬DropsCutLine acc.options cut := by
  have hcut := content_truncateTail_tail (by omega) h.front h.large
  cases hboundary : acc.tailStartsAtLineBoundary with
  | true =>
    rw [getSnapshotText, hboundary, if_pos rfl, h.tailText, hcut]
    refine ⟨fun _ hdrops => ?_, fun _ => rfl⟩
    rcases hdrops.1 with ⟨u, hu, hne⟩
    exact hne (h.boundary.mp hboundary u hu)
  | false =>
    have hinside : ∃ u ∈ cut.1.getLast?, u ≠ 10 := by
      by_contra hnone
      push Not at hnone
      rw [h.boundary.mpr hnone] at hboundary
      cases hboundary
    by_cases hmem : 10 ∈ cut.2
    · rcases List.eq_append_cons_of_mem hmem with ⟨start, behind, heq, hstart⟩
      have hsnapshot := getSnapshotText_of_newline hboundary (h.tailText.trans heq) hstart
      have hlarge : 2 * acc.options.maxBytes ≤ byteLength (start ++ 10 :: behind) + 3 := by
        rcases h.large with hnil | hlarge
        · rw [hnil] at hinside
          simp at hinside
        · rwa [← heq]
      -- the line that is cut is the first of the tail
      have hdrops : DropsCutLine acc.options cut ↔
          behind = [] ∨ behind.getLast? = some 10 ∧ Fits behind acc.options := by
        refine ⟨?_, fun hbehind => ⟨hinside, start, behind, heq, hstart, hbehind⟩⟩
        rintro ⟨-, start', behind', heq', hstart', hbehind⟩
        have hsame := getSnapshotText_of_newline hboundary (h.tailText.trans heq') hstart'
        rwa [← hsame, hsnapshot] at hbehind
      rw [hsnapshot, hdrops]
      by_cases hnil : behind = []
      · subst hnil
        rw [byteLength_newline, byteLength_nil] at hlarge
        have hshown : (truncateTail (start ++ [10]) acc.options).content ≠ [] :=
          content_truncateTail_line hstart hlines (by omega) (by omega)
        rw [hcut, heq]
        simp only [true_or, not_true_eq_false, iff_false]
        exact fun hsame => hshown hsame.symm
      · rw [heq, content_truncateTail_behind_iff cut.1 hstart hnil (by omega)]
        simp [hnil]
    · rw [getSnapshotText_of_not_mem (h.tailText ▸ hmem), h.tailText, hcut]
      refine ⟨fun _ hdrops => ?_, fun _ => rfl⟩
      rcases hdrops.2 with ⟨start, behind, heq, -⟩
      rw [heq] at hmem
      simp at hmem

end OutputAccumulator

/-! ## Whole runs -/

/-- The decoded output, cut where the kept tail begins after these chunks and the end of the output. -/
def finalCut (maxBytes : ℕ) (chunks : List (List UInt8)) : JsString × JsString :=
  keepTail maxBytes ((TextDecoder.decodeChunks {} chunks).1.foldl (keepTail maxBytes) ([], []))
    (TextDecoder.decodeChunks {} chunks).2.decodeEnd.1

/-- The snapshot after these chunks shows what truncating the decoded output shows, with the totals of the output,
and shows nothing only if nothing is visible. -/
def StreamsExactly (options : TruncationOptions) (path : JsString) (persistIfTruncated : Bool)
    (chunks : List (List UInt8)) : Prop :=
  ∃ acc, chunks.foldlM OutputAccumulator.append (.create options path) = .ok acc ∧
    let output := TextDecoder.decode chunks.flatten
    let whole := truncateTail output options
    let snapshot := (acc.finish.snapshot persistIfTruncated).1
    snapshot.content = whole.content ∧ snapshot.truncation.totalLines = whole.totalLines ∧
      snapshot.truncation.totalBytes = whole.totalBytes ∧ snapshot.truncation.truncated = whole.truncated ∧
      (snapshot.content = [] → ¬Visible output)

/-- However it is cut, the output is there. -/
theorem append_finalCut (maxBytes : ℕ) (chunks : List (List UInt8)) :
    (finalCut maxBytes chunks).1 ++ (finalCut maxBytes chunks).2 = TextDecoder.decode chunks.flatten := by
  have hpaired : ∀ {cut : JsString × JsString} {text : JsString}, Text.Paired cut.2 → Text.Paired text →
      Text.Paired (keepTail maxBytes cut text).2 := by
    intro cut text hcut htext
    rw [keepTail]
    dsimp only
    split
    · exact hcut.append htext
    · exact paired_decodeUtf8 _
  have hfold : ∀ (texts : List JsString) (cut : JsString × JsString), Text.Paired cut.2 →
      (∀ text ∈ texts, Text.Paired text) → Text.Paired (texts.foldl (keepTail maxBytes) cut).2 ∧
        (texts.foldl (keepTail maxBytes) cut).1 ++ (texts.foldl (keepTail maxBytes) cut).2 =
          cut.1 ++ cut.2 ++ texts.flatten := by
    intro texts
    induction texts with
    | nil =>
      intro cut hcut _
      exact ⟨hcut, by simp⟩
    | cons text texts ih =>
      intro cut hcut htexts
      rw [List.forall_mem_cons] at htexts
      rcases ih (keepTail maxBytes cut text) (hpaired hcut htexts.1) htexts.2 with ⟨htail, heq⟩
      refine ⟨htail, ?_⟩
      rw [List.foldl_cons, heq, OutputAccumulator.append_keepTail (hcut.append htexts.1), List.flatten_cons,
        List.append_assoc]
  have hsound := TextDecoder.decodeChunks_sound (show Utf8.State.Sound ({} : TextDecoder).state from trivial) chunks
  rcases hfold _ ([], []) .nil hsound.2 with ⟨htail, heq⟩
  rw [finalCut, OutputAccumulator.append_keepTail (htail.append (TextDecoder.paired_decodeEnd _)), heq,
    ← TextDecoder.decodeChunks_eq]
  rfl

theorem truncateTail_totals (output : JsString) (options : TruncationOptions) :
    (truncateTail output options).totalLines = (splitLinesForCounting output).length ∧
      (truncateTail output options).totalBytes = byteLength output ∧
      ((truncateTail output options).truncated = true ↔ ¬Fits output options) := by
  rw [truncateTail, truncateTailBy]
  split
  · rename_i hfits
    exact ⟨rfl, rfl, by simp [untruncated, hfits]⟩
  · rename_i hfits
    exact ⟨rfl, rfl, by simp [truncated, hfits]⟩

/-- A snapshot of a finished output is exact, unless the cut line is dropped or the output ends in a line that shows
nothing. -/
theorem streamsExactly_iff (options : TruncationOptions) (hlines : 1 ≤ options.maxLines)
    (hbytes : 16 ≤ options.maxBytes) (path : JsString) (persistIfTruncated : Bool) (chunks : List (List UInt8)) :
    StreamsExactly options path persistIfTruncated chunks ↔
      ¬DropsCutLine options (finalCut options.maxBytes chunks) ∧
        ¬(Visible (TextDecoder.decode chunks.flatten) ∧ EndsBlank options (TextDecoder.decode chunks.flatten)) := by
  rcases OutputAccumulator.foldlM_append_eq_ok (OutputAccumulator.follows_create options path)
      (show 0 < options.maxBytes by omega) trivial rfl chunks with ⟨acc, hfold, hfollows, hoptions, hdecoder, hopen⟩
  have hm : 0 < acc.options.maxBytes := by
    rw [hoptions]
    exact Nat.lt_of_lt_of_le (by omega) hbytes
  rcases hfollows.finish hm hopen with ⟨hfinal, hoptions'⟩
  have hcut : acc.finish.Follows (finalCut options.maxBytes chunks) := by
    rw [hoptions, hdecoder] at hfinal
    exact hfinal
  replace hoptions : acc.finish.options = options := hoptions'.trans hoptions
  have hcontent := hcut.keepsTail.content_iff (hoptions ▸ hlines) (hoptions ▸ hbytes)
  have hcounts := hcut.counts
  rw [append_finalCut] at hcontent hcounts
  rw [hoptions] at hcontent
  set output := TextDecoder.decode chunks.flatten with houtput
  rcases truncateTail_totals output options with ⟨htotalLines, htotalBytes, htruncated⟩
  -- the totals are those of the output in any case
  have htotals : (acc.finish.snapshot persistIfTruncated).1.truncation.truncated = (truncateTail output options).truncated := by
    rw [Bool.eq_iff_iff, htruncated, Fits, ← hcounts.totalLines, ← hcounts.totalBytes, ← hoptions]
    change (decide _ || decide _) = true ↔ _
    rw [Bool.or_eq_true, decide_eq_true_eq, decide_eq_true_eq]
    omega
  have hshown : (acc.finish.snapshot persistIfTruncated).1.content =
      (truncateTail acc.finish.getSnapshotText options).content := by
    rw [← hoptions]
    rfl
  have hblank := fun hvisible : Visible output =>
    content_truncateTail_eq_nil hlines (show 4 ≤ options.maxBytes by omega) hvisible
  rw [← hcontent, ← hshown]
  constructor
  · rintro ⟨acc', hfold', hsame, -, -, -, hempty⟩
    cases hfold.symm.trans hfold'
    refine ⟨hsame, fun ⟨hvisible, hends⟩ => hempty ?_ hvisible⟩
    exact hsame.trans ((hblank hvisible).mpr hends)
  · rintro ⟨hsame, hends⟩
    refine ⟨acc, hfold, hsame, hcounts.totalLines.trans htotalLines.symm, hcounts.totalBytes.trans htotalBytes.symm,
      htotals, ?_⟩
    intro hnil hvisible
    exact hends ⟨hvisible, (hblank hvisible).mp (hsame.symm.trans hnil)⟩

/-- A short line is shown as it is. -/
theorem streamsExactly_short : StreamsExactly { maxLines := 1, maxBytes := 16 } [] false [[104, 105], [10]] := by
  refine (streamsExactly_iff { maxLines := 1, maxBytes := 16 } (by decide) (by decide) [] false _).mpr ⟨?_, ?_⟩
  · rintro ⟨⟨u, hu, -⟩, -⟩
    cases hu
  · rintro ⟨-, before, line, hlines, -⟩
    have hsplit : splitLinesForCounting (TextDecoder.decode [[104, 105], [10]].flatten) = [[104, 105]] := by decide
    rw [hsplit] at hlines
    have := congrArg List.length hlines
    simp at this

/-- Eighty letters and a newline: the tail starts inside the line, and the snapshot shows nothing of it. -/
theorem long_line_not_shown :
    ¬StreamsExactly { maxLines := 2000, maxBytes := 16 } [] false [List.replicate 80 120 ++ [10]] := by
  rintro ⟨acc, hfold, -, -, -, -, hempty⟩
  cases hfold
  refine hempty (by decide +kernel) ⟨120, ?_, by decide⟩
  decide +kernel

end Phi.Output
