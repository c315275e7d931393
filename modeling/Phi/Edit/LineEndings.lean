import Phi.Edit.Fuzzy

/-!
# Line endings of an edited file

Model of what `execute` of `packages/coding-agent/src/core/tools/edit.ts` makes of the text that it reads, with the
functions of `edit-diff.ts` that detect and restore line endings and `splitBom` of `utils/text.ts`.

A text is made of lines that each have an ending of their own (`fileLines`). The edits are applied to the text with
line feeds only, and every line feed of the new text becomes the one ending that was detected. So the lines that no
match touches are kept with their endings exactly when these are the detected one (`keepsLines_iff`).
-/

namespace Phi.Edit

/-! ## Model -/

inductive LineEnding where
  | lf
  | crlf
  | cr
  deriving DecidableEq

def LineEnding.text : LineEnding → JsString
  | .lf => [10]
  | .crlf => [13, 10]
  | .cr => [13]

def detectLineEnding (content : JsString) : LineEnding :=
  match indexOf [13, lf] content, indexOf [lf] content with
  | _, none => .lf
  | none, _ => .lf
  | some crlfIdx, some lfIdx => if crlfIdx < lfIdx then .crlf else .lf

def restoreLineEndings (text : JsString) (ending : LineEnding) : JsString :=
  if ending = .crlf then text.flatMap fun u => if u = lf then [13, lf] else [u] else text

/-- The byte order mark, if there is one, and the text behind it. -/
def splitBom (content : JsString) : JsString × JsString :=
  if [0xFEFF] <+: content then ([0xFEFF], content.drop 1) else ([], content)

/-- The text that `execute` writes, for the text that it read. -/
def editText (nfkc : JsString → JsString) (path : JsString) (edits : List Edit) (rawContent : JsString) :
    Except EditError JsString := do
  let (bom, content) := splitBom rawContent
  let originalEnding := detectLineEnding content
  let newContent ← applyEditsToNormalizedContent nfkc (normalizeToLF content) edits path
  return bom ++ restoreLineEndings newContent originalEnding

/-! ## Lines of a file -/

/-- The last line of a file may have no ending. -/
structure FileLine where
  chars : JsString
  ending : Option LineEnding

namespace FileLine

def text (line : FileLine) : JsString := line.chars ++ (line.ending.map LineEnding.text).getD []

/-- The line as `normalizeToLF` leaves it. -/
def normalized (line : FileLine) : JsString := line.chars ++ (line.ending.map fun _ => [lf]).getD []

end FileLine

/-- Puts a unit in front of the first line. -/
def addUnit (u : UInt16) : List FileLine → List FileLine
  | [] => [⟨[u], none⟩]
  | line :: lines => ⟨u :: line.chars, line.ending⟩ :: lines

/-- The lines of a text, which end at LF, CRLF and lone CR. -/
def fileLines : JsString → List FileLine
  | [] => []
  | [u] => if u = lf then [⟨[], some .lf⟩] else if u = 13 then [⟨[], some .cr⟩] else [⟨[u], none⟩]
  | u :: v :: rest =>
    if u = 13 ∧ v = lf then ⟨[], some .crlf⟩ :: fileLines rest
    else if u = lf then ⟨[], some .lf⟩ :: fileLines (v :: rest)
    else if u = 13 then ⟨[], some .cr⟩ :: fileLines (v :: rest)
    else addUnit u (fileLines (v :: rest))

theorem flatten_addUnit (u : UInt16) (lines : List FileLine) :
    ((addUnit u lines).map FileLine.text).flatten = u :: (lines.map FileLine.text).flatten := by
  cases lines <;> simp [addUnit, FileLine.text]

theorem flatten_fileLines (text : JsString) : ((fileLines text).map FileLine.text).flatten = text := by
  induction text using fileLines.induct with
  | case1 => rfl
  | case2 => rfl
  | case3 => rfl
  | case4 u hlf hcr => simp [fileLines, hlf, hcr, FileLine.text]
  | case5 u v rest hcrlf ih => simp [fileLines, hcrlf.1, hcrlf.2, FileLine.text, LineEnding.text, ih, lf]
  | case6 v rest hcrlf ih => simp [fileLines, FileLine.text, LineEnding.text, ih, lf]
  | case7 v rest hcrlf hlf ih =>
    rw [fileLines, if_neg hcrlf, if_neg hlf, if_pos rfl, List.map_cons, List.flatten_cons, ih]
    rfl
  | case8 u v rest hcrlf hlf hcr ih => rw [fileLines, if_neg hcrlf, if_neg hlf, if_neg hcr, flatten_addUnit, ih]

theorem forall_addUnit {u : UInt16} {lines : List FileLine} (h : ∀ line ∈ lines, lf ∉ line.chars) (hu : u ≠ lf) :
    ∀ line ∈ addUnit u lines, lf ∉ line.chars := by
  cases lines with
  | nil => simpa [addUnit] using Ne.symm hu
  | cons line lines =>
    rw [List.forall_mem_cons] at h
    rw [addUnit, List.forall_mem_cons]
    exact ⟨by simpa [Ne.symm hu] using h.1, h.2⟩

theorem lf_not_mem_chars (text : JsString) : ∀ line ∈ fileLines text, lf ∉ line.chars := by
  induction text using fileLines.induct with
  | case1 => simp [fileLines]
  | case2 => simp [fileLines]
  | case3 => simp [fileLines, lf]
  | case4 u hlf hcr => simpa [fileLines, hlf, hcr] using Ne.symm hlf
  | case5 u v rest hcrlf ih =>
    rw [fileLines, if_pos hcrlf, List.forall_mem_cons]
    exact ⟨List.not_mem_nil, ih⟩
  | case6 v rest hcrlf ih =>
    rw [fileLines, if_neg hcrlf, if_pos rfl, List.forall_mem_cons]
    exact ⟨List.not_mem_nil, ih⟩
  | case7 v rest hcrlf hlf ih =>
    rw [fileLines, if_neg hcrlf, if_neg hlf, if_pos rfl, List.forall_mem_cons]
    exact ⟨List.not_mem_nil, ih⟩
  | case8 u v rest hcrlf hlf hcr ih =>
    rw [fileLines, if_neg hcrlf, if_neg hlf, if_neg hcr]
    exact forall_addUnit ih hlf

/-- A unit in front of a text belongs to its first line. -/
theorem splitLines_cons {u : UInt16} (hu : u ≠ lf) {text : JsString} {lines : List FileLine}
    (h : splitLinesWithEndings text = lines.map FileLine.normalized) :
    splitLinesWithEndings (u :: text) = (addUnit u lines).map FileLine.normalized := by
  rw [splitLinesWithEndings, if_neg hu, h]
  cases lines <;> rfl

theorem normalizeToLF_cons {u : UInt16} {rest : JsString} (h : ¬(u = 13 ∧ ∃ rest', rest = lf :: rest')) :
    normalizeToLF (u :: rest) = (if u = 13 then lf else u) :: normalizeToLF rest := by
  cases rest with
  | nil => rfl
  | cons v rest =>
    rw [normalizeToLF, crlfToLf, if_neg]
    · rfl
    · rintro ⟨hu, rfl⟩
      exact h ⟨hu, rest, rfl⟩

/-- The lines of the normalised text are the lines of the file with line feeds for their endings. -/
theorem splitLines_normalizeToLF (text : JsString) :
    splitLinesWithEndings (normalizeToLF text) = (fileLines text).map FileLine.normalized := by
  induction text using fileLines.induct with
  | case1 => rfl
  | case2 => rfl
  | case3 => rfl
  | case4 u hlf hcr =>
    have hone : normalizeToLF [u] = [u] := by
      rw [normalizeToLF_cons (by simp), if_neg hcr]
      rfl
    rw [hone, fileLines, if_neg hlf, if_neg hcr]
    exact @splitLines_cons u hlf [] [] rfl
  | case5 u v rest hcrlf ih =>
    have hcrlf' : normalizeToLF (u :: v :: rest) = lf :: normalizeToLF rest := by
      rw [normalizeToLF, crlfToLf, if_pos hcrlf]
      rfl
    rw [hcrlf', splitLinesWithEndings, if_pos rfl, fileLines, if_pos hcrlf, List.map_cons, ih]
    rfl
  | case6 v rest hcrlf ih =>
    rw [normalizeToLF_cons (by rintro ⟨h, -⟩; exact absurd h (by decide)), splitLinesWithEndings, if_pos (by decide),
      fileLines, if_neg hcrlf, if_pos rfl, List.map_cons, ih]
    rfl
  | case7 v rest hcrlf hlf ih =>
    have hnot : ¬((13 : UInt16) = 13 ∧ ∃ rest', v :: rest = lf :: rest') := by
      rintro ⟨-, rest', heq⟩
      cases heq
      exact hcrlf ⟨rfl, rfl⟩
    rw [normalizeToLF_cons hnot, if_pos rfl, splitLinesWithEndings, if_pos rfl, fileLines, if_neg hcrlf, if_neg hlf,
      if_pos rfl, List.map_cons, ih]
    rfl
  | case8 u v rest hcrlf hlf hcr ih =>
    rw [normalizeToLF_cons (fun h => hcr h.1), if_neg hcr, fileLines, if_neg hcrlf, if_neg hlf, if_neg hcr]
    exact splitLines_cons hlf ih

/-! ## Replacing line by line -/

/-- The loop over the groups keeps the lines that no replacement touches, and replaces in the others. -/
theorem writeGroups_eq (normalize : JsString → JsString) (original : List JsString) {groups : List Group} {index : ℕ}
    (h : GroupsOk (original.map normalize) index groups) :
    writeGroups original (original.map normalize).flatten (lineSpansFrom 0 (original.map normalize)) index groups =
      layPieces (replacementsOf groups) normalize id id (lineOffset (original.map normalize) index)
        (original.drop index) := by
  induction groups generalizing index with
  | nil =>
    rw [layPieces_of_before (by simp [replacementsOf]), List.map_id]
    rfl
  | cons group groups ih =>
    rcases h with ⟨hindex, hgroup, hgroups⟩
    have hlt := hgroup.lt
    have hle := hgroup.le
    have hlength : group.endLine ≤ original.length := by simpa using hle
    set base := original.map normalize with hbase
    have hstart : base[group.startLine]? = some base[group.startLine] :=
      List.getElem?_eq_getElem (hlt.trans_le hle)
    have hend : base[group.endLine - 1]? = some base[group.endLine - 1] :=
      List.getElem?_eq_getElem (show group.endLine - 1 < base.length by omega)
    have hblock : ((original.take group.endLine).drop group.startLine).map normalize =
        (base.take group.endLine).drop group.startLine := by
      rw [List.map_drop, List.map_take]
    have hkept : ((original.take group.startLine).drop index).map normalize =
        (base.take group.startLine).drop index := by
      rw [List.map_drop, List.map_take]
    have hlen := lineOffset_add base hlt.le
    -- the block of the group: every line is touched
    have hreplace : applyReplacements ((base.take group.endLine).drop group.startLine).flatten group.replacements
        (lineOffset base group.startLine) = pieceOf group.replacements (lineOffset base group.startLine)
          ((base.take group.endLine).drop group.startLine).flatten := by
      have hsplice := foldr_spliceAt le_rfl hgroup.within hlen.ge
      rw [Nat.sub_self, List.take_zero, List.nil_append, List.drop_zero] at hsplice
      rw [applyReplacements, hsplice]
      apply replaceRegions_eq hgroup.within hlen.ge
      rw [hlen]
      exact hgroup.start_lt
    have htouched : layPieces (group.replacements ++ replacementsOf groups) normalize id id
        (lineOffset base group.startLine) ((original.take group.endLine).drop group.startLine) =
          pieceOf group.replacements (lineOffset base group.startLine)
            ((base.take group.endLine).drop group.startLine).flatten := by
      rw [layPieces_of_touched, hblock, pieceOf_append_right]
      · rw [hlen]
        exact hgroups.le_start
      · intro k hk
        have hk' : k < group.endLine - group.startLine := by
          rw [List.length_drop, List.length_take] at hk
          omega
        rcases hgroup.touched (group.startLine + k) (Nat.le_add_right _ _) (by omega) with ⟨r, hr, hlo, hhi⟩
        refine ⟨r, List.mem_append_left _ hr, ?_⟩
        have hline : base[group.startLine + k]? = some (normalize original[group.startLine + k]) := by
          rw [hbase, List.getElem?_map, List.getElem?_eq_getElem (by omega)]
          rfl
        rw [lineOffset_succ hline] at hlo
        have hoffset : lineOffset base group.startLine +
            ((((original.take group.endLine).drop group.startLine).take k).map normalize).flatten.length =
              lineOffset base (group.startLine + k) := by
          rw [List.map_take, hblock]
          exact lineOffset_block base (by omega)
        simp only [Region.touches, hoffset, List.getElem_drop, List.getElem_take, Bool.and_eq_true, decide_eq_true_eq]
        exact ⟨hlo, hhi⟩
    have hdrop : original.drop index = (original.take group.startLine).drop index
        ++ ((original.take group.endLine).drop group.startLine ++ original.drop group.endLine) := by
      rw [← drop_eq_append_drop original hlt.le hlength, ← drop_eq_append_drop original hindex (hlt.le.trans hlength)]
    have hbehind : ∀ r ∈ group.replacements, r.reach ≤ lineOffset base group.endLine := fun r hr =>
      Region.reach_le (hgroup.within.forall_mem r hr).2 (hgroup.start_lt r hr)
    rw [hdrop, layPieces_append, hkept, lineOffset_add base hindex, layPieces_append, hblock, hlen,
      layPieces_of_before]
    · have hrest := @layPieces_append_left _ _ _ (replacementsOf groups) normalize id id _
        (original.drop group.endLine) hbehind
      rw [List.map_id]
      simp only [writeGroups, getElem?_lineSpansFrom, hstart, hend, Option.map_some, Option.getD_some, Nat.zero_add,
        Nat.sub_add_cancel (show 1 ≤ group.endLine by omega), slice_flatten base hlt.le, hreplace, List.append_assoc]
      rw [ih hgroups, ← hrest, ← htouched]
      rfl
    · rw [hkept, lineOffset_add base hindex]
      exact GroupsOk.le_start ⟨le_rfl, hgroup, hgroups⟩

/-- A replacement that has a range of lines starts on one of them. -/
theorem start_lt_of_getReplacementLineRange {lines : List JsString} {r : Region UInt16} {range : LineRange}
    (h : getReplacementLineRange (lineSpansFrom 0 lines) r = .ok range) : r.start < lines.flatten.length := by
  unfold getReplacementLineRange at h
  split at h
  · cases h
  · rename_i s hfind
    rcases List.findIdx?_eq_some_iff_getElem.mp hfind with ⟨hs, hp, -⟩
    have hspan := getElem?_lineSpansFrom 0 lines s
    rw [List.getElem?_eq_getElem hs, eq_comm, Option.map_eq_some_iff] at hspan
    rcases hspan with ⟨line, hline, heq⟩
    rw [← heq] at hp
    simp only [Bool.and_eq_true, decide_eq_true_eq, Nat.zero_add] at hp
    have hle := lineOffset_mono lines (show s + 1 ≤ lines.length from (List.getElem?_eq_some_iff.mp hline).1)
    rw [lineOffset_length] at hle
    exact hp.2.trans_le hle

theorem start_lt_of_groupReplacements {lines : List JsString} {rs : List (Region UInt16)} {groups groups' : List Group}
    (h : groupReplacements (lineSpansFrom 0 lines) groups rs = .ok groups') :
    ∀ r ∈ rs, r.start < lines.flatten.length := by
  induction rs generalizing groups with
  | nil => simp
  | cons r rs ih =>
    rcases bind_eq_ok.mp h with ⟨range, hrange, hrest⟩
    exact List.forall_mem_cons.mpr ⟨start_lt_of_getReplacementLineRange hrange, ih hrest⟩

variable {nfkc : JsString → JsString} {content path rawContent written newContent : JsString} {edits : List Edit}
  {matched : Matched}

/-- What the fuzzy replacements write, line by line. -/
theorem applyReplacementsPreserving_eq_lay (h : IsNFKC nfkc) {rs : List (Region UInt16)}
    (hrs : Consecutive 0 (normalizeForFuzzyMatch nfkc content).length rs)
    (hout : applyReplacementsPreservingUnchangedLines content (normalizeForFuzzyMatch nfkc content) rs =
      .ok newContent) :
    newContent = layPieces rs (normalizeForFuzzyMatch nfkc) id id 0 (splitLinesWithEndings content) := by
  unfold applyReplacementsPreservingUnchangedLines getLineSpans at hout
  simp only [length_lineSpansFrom, ite_error_eq_ok, ne_eq, not_not] at hout
  rcases hout with ⟨hlength, hout⟩
  have hblank : ¬EndsInBlankLine nfkc content := by
    intro hblank
    have hdiffer := length_splitLines_normalize h hblank
    omega
  have hlines := splitLines_normalize h hblank
  have hflatten := flatten_splitLines (normalizeForFuzzyMatch nfkc content)
  have hsorted : sortByIndex Region.start rs = rs := by
    have htotal : Std.Total fun a b : Region UInt16 => a.start ≤ b.start := ⟨fun a b => le_total _ _⟩
    exact hrs.pairwise_le.insertionSort_eq
  rw [hlines, hsorted] at hout
  rcases bind_eq_ok.mp hout with ⟨groups, hgroups, hret⟩
  cases hret
  rw [← hflatten, hlines] at hrs
  have hnone : GroupsOk ((splitLinesWithEndings content).map (normalizeForFuzzyMatch nfkc)) 0 [] := Nat.zero_le _
  rcases groupReplacements_ok hnone (by simp [replacementsOf]) hrs (start_lt_of_groupReplacements hgroups) with
    ⟨groups', hgroups', hok, hreps⟩
  rw [hgroups] at hgroups'
  cases hgroups'
  have hwritten := writeGroups_eq (normalizeForFuzzyMatch nfkc) (splitLinesWithEndings content) hok
  rw [← hlines, hflatten, hreps, hlines] at hwritten
  simpa [replacementsOf, lineOffset] using hwritten

/-- A match found exactly is not empty. -/
theorem pos_of_exact (hm : matchEdits nfkc content edits path = .ok matched) (hexact : matched.usedFuzzyMatch = false) :
    ∀ r ∈ matched.matchedEdits.map MatchedEdit.toRegion, 0 < r.length := by
  rcases bind_eq_ok.mp hm with ⟨⟨⟩, hempty, hm⟩
  rcases bind_eq_ok.mp hm with ⟨ms, hms, hm⟩
  rcases bind_eq_ok.mp hm with ⟨⟨⟩, hdisjoint, hret⟩
  cases hret
  have hempty := checkNotEmpty_eq_ok.mp hempty
  dsimp only at hexact
  simp only [hexact, Bool.false_eq_true, if_false] at hms
  rcases matchEditsFrom_forall hms with ⟨-, hmem⟩
  intro r hr
  rcases List.mem_map.mp hr with ⟨m, hm, rfl⟩
  rcases hmem m ((sortByIndex_perm _ ms).mem_iff.mp hm) with ⟨e, he, i, heq⟩
  rcases matchEdit_eq_ok heq with ⟨found, hfound, hregion⟩
  have hno := List.any_eq_false.mp hexact e he
  rcases fuzzyFindText_eq_some hfound with ⟨-, -, hlen⟩ | ⟨htrue, -⟩
  · rw [hregion]
    show 0 < found.matchLength
    rw [hlen]
    exact List.length_pos_iff.mpr (hempty e he)
  · simp [hfound, htrue] at hno

/-- The line of the content in which the edits were matched. -/
def baseLine (nfkc : JsString → JsString) (matched : Matched) (line : FileLine) : JsString :=
  if matched.usedFuzzyMatch then normalizeForFuzzyMatch nfkc line.normalized else line.normalized

/-- The new content: the matches are replaced in the lines that they touch, and the others are those of the file with
line feeds for their endings. -/
theorem newContent_eq (h : IsNFKC nfkc) (hm : matchEdits nfkc (normalizeToLF content) edits path = .ok matched)
    (hnew : applyEditsToNormalizedContent nfkc (normalizeToLF content) edits path = .ok newContent) :
    newContent = layPieces (matched.matchedEdits.map MatchedEdit.toRegion) (baseLine nfkc matched) id
      FileLine.normalized 0 (fileLines content) := by
  have hfound := found_of_matchEdits h hm
  have hbase := hfound.base
  have hwithin := hfound.within
  have hlines := splitLines_normalizeToLF content
  rcases bind_eq_ok.mp hnew with ⟨matched', hm', hrest⟩
  rw [hm] at hm'
  cases hm'
  rcases bind_eq_ok.mp hrest with ⟨newContent', hreplace, hout⟩
  rw [ite_error_eq_ok] at hout
  cases hout.2
  cases hu : matched.usedFuzzyMatch with
  | true =>
    have hline : baseLine nfkc matched = fun line => normalizeForFuzzyMatch nfkc line.normalized := by
      funext line
      rw [baseLine, hu, if_pos rfl]
    rw [hu, if_pos rfl] at hbase
    rw [hbase] at hwithin
    rw [replaceMatched, hu, if_pos rfl, hbase] at hreplace
    rw [applyReplacementsPreserving_eq_lay h hwithin hreplace, hlines, layPieces_map, hline]
    rfl
  | false =>
    have hline : baseLine nfkc matched = FileLine.normalized := by
      funext line
      rw [baseLine, hu, if_neg Bool.false_ne_true]
    have hpos := pos_of_exact hm hu
    rw [hu, if_neg Bool.false_ne_true] at hbase
    rw [hbase] at hwithin
    rw [replaceMatched, hu, if_neg Bool.false_ne_true, hbase] at hreplace
    cases hreplace
    have hsplice := foldr_spliceAt (Nat.zero_le 0) hwithin (Nat.le_add_left _ 0)
    have hflatten : ((fileLines content).map FileLine.normalized).flatten = normalizeToLF content := by
      rw [← hlines, flatten_splitLines]
    rw [Nat.sub_self, List.take_zero, List.nil_append, List.drop_zero] at hsplice
    rw [hline, layPieces_self, hflatten, applyReplacements, hsplice]
    apply replaceRegions_eq hwithin (Nat.le_add_left _ 0)
    intro r hr
    have hstop := (hwithin.forall_mem r hr).2
    have hlt : r.start < r.stop := Nat.lt_add_of_pos_right (hpos r hr)
    omega

/-! ## Endings -/

theorem restore_append (ending : LineEnding) (a b : JsString) :
    restoreLineEndings (a ++ b) ending = restoreLineEndings a ending ++ restoreLineEndings b ending := by
  unfold restoreLineEndings
  split
  · exact List.flatMap_append
  · rfl

theorem restore_nil (ending : LineEnding) : restoreLineEndings [] ending = [] := by
  cases ending <;> rfl

theorem restore_of_not_mem (ending : LineEnding) {text : JsString} (h : lf ∉ text) :
    restoreLineEndings text ending = text := by
  induction text with
  | nil => exact restore_nil ending
  | cons u text ih =>
    simp only [List.mem_cons, not_or] at h
    have hunit : restoreLineEndings [u] ending = [u] := by
      unfold restoreLineEndings
      split
      · simp [Ne.symm h.1]
      · rfl
    rw [← List.singleton_append, restore_append, hunit, ih h.2]

theorem detectLineEnding_ne_cr (content : JsString) : detectLineEnding content ≠ .cr := by
  unfold detectLineEnding
  split
  · exact LineEnding.noConfusion
  · exact LineEnding.noConfusion
  · split <;> exact LineEnding.noConfusion

theorem restore_lf {ending : LineEnding} (h : ending ≠ .cr) : restoreLineEndings [lf] ending = ending.text := by
  cases ending with
  | lf => rfl
  | crlf => rfl
  | cr => exact absurd rfl h

theorem LineEnding.text_inj {a b : LineEnding} (h : a.text = b.text) : a = b := by
  cases a <;> cases b <;> first | rfl | exact absurd h (by decide)

/-- A line is restored to what it was exactly when it had the ending that is put back, or none. -/
theorem restore_normalized {line : FileLine} {ending : LineEnding} (hchars : lf ∉ line.chars) (hcr : ending ≠ .cr) :
    restoreLineEndings line.normalized ending = line.text ↔ ∀ e ∈ line.ending, e = ending := by
  rw [FileLine.normalized, FileLine.text, restore_append, restore_of_not_mem ending hchars, List.append_cancel_left_eq]
  cases line.ending with
  | none => simp [restore_nil]
  | some e =>
    simp only [Option.map_some, Option.getD_some, Option.mem_some_iff, forall_eq', restore_lf hcr]
    exact ⟨fun h => (LineEnding.text_inj h).symm, fun h => h ▸ rfl⟩

/-- Restoring line feeds lengthens no line, and restoring CRLF shortens none. -/
theorem length_restore_normalized {line : FileLine} {ending : LineEnding} (hchars : lf ∉ line.chars) :
    (ending = .lf → (restoreLineEndings line.normalized ending).length ≤ line.text.length) ∧
      (ending = .crlf → line.text.length ≤ (restoreLineEndings line.normalized ending).length) := by
  rw [FileLine.normalized, FileLine.text, restore_append, restore_of_not_mem ending hchars]
  cases line.ending with
  | none => simp [restore_nil]
  | some e =>
    constructor
    · rintro rfl
      cases e <;> simp [restore_lf, LineEnding.text]
    · rintro rfl
      cases e <;> simp [restore_lf, LineEnding.text]

/-! ## Lines that are kept -/

/-- What an edit should leave of a file: behind the byte order mark every line that no match touches, with its
characters and its ending, and what replacing makes of the others. -/
def keptText (nfkc : JsString → JsString) (matched : Matched) (rawContent : JsString) : JsString :=
  (splitBom rawContent).1 ++ layPieces (matched.matchedEdits.map MatchedEdit.toRegion) (baseLine nfkc matched)
    (fun piece => restoreLineEndings piece (detectLineEnding (splitBom rawContent).2)) FileLine.text 0
    (fileLines (splitBom rawContent).2)

/-- The lines that no match touches have the ending that is detected, or none. -/
def EndAsDetected (nfkc : JsString → JsString) (matched : Matched) (rawContent : JsString) : Prop :=
  ∀ line ∈ untouched (matched.matchedEdits.map MatchedEdit.toRegion) (baseLine nfkc matched) 0
    (fileLines (splitBom rawContent).2), ∀ ending ∈ line.ending, ending = detectLineEnding (splitBom rawContent).2

theorem exists_newContent (hw : editText nfkc path edits rawContent = .ok written) :
    ∃ newContent, applyEditsToNormalizedContent nfkc (normalizeToLF (splitBom rawContent).2) edits path =
        .ok newContent ∧
      written = (splitBom rawContent).1 ++ restoreLineEndings newContent (detectLineEnding (splitBom rawContent).2) := by
  rcases bind_eq_ok.mp hw with ⟨newContent, hnew, hret⟩
  exact ⟨newContent, hnew, (Except.ok.inj hret).symm⟩

/-- A successful edit keeps the lines that no match touches exactly when they end as was detected. -/
theorem keepsLines_iff (nfkc : JsString → JsString) (h : IsNFKC nfkc) (path : JsString) (edits : List Edit)
    (rawContent : JsString) (matched : Matched) (written : JsString)
    (hm : matchEdits nfkc (normalizeToLF (splitBom rawContent).2) edits path = .ok matched)
    (hw : editText nfkc path edits rawContent = .ok written) :
    written = keptText nfkc matched rawContent ↔ EndAsDetected nfkc matched rawContent := by
  rcases exists_newContent hw with ⟨newContent, hnew, rfl⟩
  have hcr := detectLineEnding_ne_cr (splitBom rawContent).2
  have hchars := lf_not_mem_chars (splitBom rawContent).2
  have hrestore := @map_layPieces _ _ (matched.matchedEdits.map MatchedEdit.toRegion) (baseLine nfkc matched)
    FileLine.normalized id 0 (fileLines (splitBom rawContent).2)
    (fun text => restoreLineEndings text (detectLineEnding (splitBom rawContent).2)) (restore_nil _) (restore_append _)
  simp only [id_eq] at hrestore
  rw [keptText, List.append_cancel_left_eq, newContent_eq h hm hnew, hrestore]
  have huntouched : EndAsDetected nfkc matched rawContent ↔
      ∀ line ∈ untouched (matched.matchedEdits.map MatchedEdit.toRegion) (baseLine nfkc matched) 0
        (fileLines (splitBom rawContent).2),
          restoreLineEndings line.normalized (detectLineEnding (splitBom rawContent).2) = line.text := by
    apply forall₂_congr
    intro line hline
    exact (restore_normalized (hchars line (mem_of_mem_untouched hline)) hcr).symm
  rw [huntouched]
  cases hending : detectLineEnding (splitBom rawContent).2 with
  | lf =>
    rw [hending] at hcr
    exact layPieces_eq_iff fun line hline => (length_restore_normalized (hchars line hline)).1 rfl
  | crlf =>
    rw [eq_comm, layPieces_eq_iff fun line hline => (length_restore_normalized (hchars line hline)).2 rfl]
    exact forall₂_congr fun line _ => eq_comm
  | cr => exact absurd hending hcr

/-- An edit in a file with a byte order mark and CRLF alone keeps the other line. -/
theorem keepsLines_crlf :
    editText id [102] [⟨[97], [120]⟩] [0xFEFF, 97, 13, 10, 98, 13, 10] = .ok [0xFEFF, 120, 13, 10, 98, 13, 10] ∧
      [0xFEFF, 120, 13, 10, 98, 13, 10] =
        keptText id ⟨false, [97, 10, 98, 10], [⟨⟨0, 1, [120]⟩, 0⟩]⟩ [0xFEFF, 97, 13, 10, 98, 13, 10] := by
  refine ⟨rfl, (keepsLines_iff id isNFKC_id [102] [⟨[97], [120]⟩] _ _ _ rfl rfl).mpr ?_⟩
  intro line hline ending hending
  have huntouched : untouched [⟨0, 1, [120]⟩] (baseLine id ⟨false, [97, 10, 98, 10], [⟨⟨0, 1, [120]⟩, 0⟩]⟩) 0
      (fileLines (splitBom [0xFEFF, 97, 13, 10, 98, 13, 10]).2) = [⟨[98], some .crlf⟩] := rfl
  rw [List.map_cons, List.map_nil, huntouched, List.mem_singleton] at hline
  rw [hline] at hending
  cases hending
  rfl

/-- A file whose first line ends in a line feed loses the carriage return behind its second line, which no match
touches. -/
theorem carriage_return_lost :
    matchEdits id (normalizeToLF (splitBom [97, 10, 98, 13, 10, 99, 10]).2) [⟨[97], [120]⟩] [102] =
        .ok ⟨false, [97, 10, 98, 10, 99, 10], [⟨⟨0, 1, [120]⟩, 0⟩]⟩ ∧
      editText id [102] [⟨[97], [120]⟩] [97, 10, 98, 13, 10, 99, 10] = .ok [120, 10, 98, 10, 99, 10] ∧
      keptText id ⟨false, [97, 10, 98, 10, 99, 10], [⟨⟨0, 1, [120]⟩, 0⟩]⟩ [97, 10, 98, 13, 10, 99, 10] =
        [120, 10, 98, 13, 10, 99, 10] :=
  ⟨rfl, rfl, rfl⟩

end Phi.Edit
