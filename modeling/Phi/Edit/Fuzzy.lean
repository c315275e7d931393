import Phi.Data.Pieces
import Phi.Edit.Exact
import Phi.Edit.Normalize

/-!
# Edits that need normalising

When some old text is found only after normalising, all edits are matched in the normalised content, and only the
lines they touch are taken from it. `Overlay` says what comes out: lines that no match touches are copied from the
original, and each block of touched lines is the block of the normalised content with its matches replaced.

The lines of the two contents must correspond. They do unless the content ends in a line without a line feed that
normalises to nothing (`EndsInBlankLine`). And an old text that normalises to nothing matches anywhere.
-/

namespace Phi.Edit

/-! ## Offsets of lines -/

/-- The offset of the `k`th line. -/
def lineOffset (lines : List JsString) (k : ℕ) : ℕ := (lines.take k).flatten.length

theorem lineOffset_mono (lines : List JsString) {j k : ℕ} (h : j ≤ k) : lineOffset lines j ≤ lineOffset lines k := by
  unfold lineOffset
  exact (List.take_sublist_take_left h).flatten.length_le

theorem lineOffset_succ {lines : List JsString} {k : ℕ} {line : JsString} (h : lines[k]? = some line) :
    lineOffset lines (k + 1) = lineOffset lines k + line.length := by
  unfold lineOffset
  rw [List.take_add_one, h]
  simp

theorem lineOffset_length (lines : List JsString) : lineOffset lines lines.length = lines.flatten.length := by
  rw [lineOffset, List.take_length]

theorem length_lineSpansFrom (offset : ℕ) (lines : List JsString) :
    (lineSpansFrom offset lines).length = lines.length := by
  induction lines generalizing offset with
  | nil => rfl
  | cons line lines ih => simp [lineSpansFrom, ih]

theorem getElem?_lineSpansFrom (offset : ℕ) (lines : List JsString) (k : ℕ) :
    (lineSpansFrom offset lines)[k]? =
      lines[k]?.map fun _ => ⟨offset + lineOffset lines k, offset + lineOffset lines (k + 1)⟩ := by
  induction lines generalizing offset k with
  | nil => rfl
  | cons line lines ih =>
    rcases k with _ | k
    · simp [lineSpansFrom, lineOffset]
    · rw [lineSpansFrom, List.getElem?_cons_succ, ih, List.getElem?_cons_succ]
      simp [lineOffset, Nat.add_assoc]

/-- Every index of the content lies on a line. -/
theorem exists_line (lines : List JsString) {i : ℕ} (h : i < lines.flatten.length) :
    ∃ k < lines.length, lineOffset lines k ≤ i ∧ i < lineOffset lines (k + 1) := by
  rw [← lineOffset_length] at h
  have hex : ∃ k, i < lineOffset lines k := ⟨_, h⟩
  have hpos : Nat.find hex ≠ 0 := by
    intro hzero
    have hspec := Nat.find_spec hex
    rw [hzero] at hspec
    simp [lineOffset] at hspec
  refine ⟨Nat.find hex - 1, ?_, ?_, ?_⟩
  · have hle := Nat.find_min' hex h
    omega
  · exact Nat.le_of_not_lt (Nat.find_min hex (by omega))
  · rw [Nat.sub_add_cancel (Nat.one_le_iff_ne_zero.mpr hpos)]
    exact Nat.find_spec hex

/-! ## The lines a replacement touches -/

theorem takeWhile_length {α : Type*} (p : α → Bool) (l : List α) :
    (∀ j x, j < (l.takeWhile p).length → l[j]? = some x → p x = true) ∧
      ∀ x, l[(l.takeWhile p).length]? = some x → p x = false := by
  induction l with
  | nil => simp
  | cons a l ih =>
    by_cases ha : p a = true
    · rw [List.takeWhile_cons_of_pos ha]
      refine ⟨?_, ?_⟩
      · intro j x hj hx
        rcases j with _ | j
        · cases hx
          exact ha
        · exact ih.1 j x (by simpa using hj) hx
      · intro x hx
        exact ih.2 x (by simpa using hx)
    · rw [List.takeWhile_cons_of_neg ha]
      refine ⟨by simp, ?_⟩
      rintro x ⟨⟩
      exact Bool.eq_false_of_not_eq_true ha

/-- A replacement that starts on a line and lies within the content has a range of lines. -/
theorem getReplacementLineRange_eq {lines : List JsString} {r : Region UInt16} (hin : r.start < lines.flatten.length)
    (hstop : r.stop ≤ lines.flatten.length) :
    ∃ range, getReplacementLineRange (lineSpansFrom 0 lines) r = .ok range ∧ range.startLine < range.endLine ∧
      range.endLine ≤ lines.length ∧ lineOffset lines range.startLine ≤ r.start ∧
      r.start < lineOffset lines (range.startLine + 1) ∧ lineOffset lines (range.endLine - 1) < r.reach ∧
      r.stop ≤ lineOffset lines range.endLine := by
  have hspan : ∀ {k : ℕ} {span : LineSpan}, (lineSpansFrom 0 lines)[k]? = some span →
      k < lines.length ∧ span = ⟨lineOffset lines k, lineOffset lines (k + 1)⟩ := by
    intro k span hk
    rw [getElem?_lineSpansFrom, Option.map_eq_some_iff] at hk
    rcases hk with ⟨line, hline, rfl⟩
    exact ⟨(List.getElem?_eq_some_iff.mp hline).1, by simp⟩
  have hspan' : ∀ {k : ℕ}, k < lines.length →
      (lineSpansFrom 0 lines)[k]? = some ⟨lineOffset lines k, lineOffset lines (k + 1)⟩ := by
    intro k hk
    rw [getElem?_lineSpansFrom, List.getElem?_eq_getElem hk]
    simp
  unfold getReplacementLineRange
  cases hfind : (lineSpansFrom 0 lines).findIdx? fun line => line.start ≤ r.start && r.start < line.stop with
  | none =>
    rw [List.findIdx?_eq_none_iff] at hfind
    rcases exists_line lines hin with ⟨k, hk, hlo, hhi⟩
    have hno := hfind _ (List.mem_of_getElem? (hspan' hk))
    simp [hlo, hhi] at hno
  | some s =>
    rcases List.findIdx?_eq_some_iff_getElem.mp hfind with ⟨hs, hp, -⟩
    rcases hspan (List.getElem?_eq_getElem hs) with ⟨hs', heq⟩
    rw [heq] at hp
    simp only [Bool.and_eq_true, decide_eq_true_eq] at hp
    rcases takeWhile_length (fun line : LineSpan => decide (line.stop < r.stop)) ((lineSpansFrom 0 lines).drop s)
      with ⟨hbefore, hat⟩
    dsimp only
    set w := (((lineSpansFrom 0 lines).drop s).takeWhile fun line => decide (line.stop < r.stop)).length with hw
    -- the line on which the replacement ends
    have hend : s + w < lines.length := by
      by_contra hge
      have hlast : (lines.length - 1 - s) < w := by omega
      have hmem : ((lineSpansFrom 0 lines).drop s)[lines.length - 1 - s]? =
          some ⟨lineOffset lines (lines.length - 1), lineOffset lines (lines.length - 1 + 1)⟩ := by
        rw [List.getElem?_drop, show s + (lines.length - 1 - s) = lines.length - 1 by omega]
        exact hspan' (by omega)
      have hshort := hbefore _ _ hlast hmem
      rw [decide_eq_true_eq] at hshort
      simp only [Nat.sub_add_cancel (show 1 ≤ lines.length by omega), lineOffset_length] at hshort
      omega
    rw [if_neg (by rw [length_lineSpansFrom]; omega)]
    refine ⟨_, rfl, by dsimp only; omega, by dsimp only; omega, hp.1, hp.2, ?_, ?_⟩
    · dsimp only
      rw [Nat.add_sub_cancel]
      rcases Nat.eq_zero_or_pos w with hzero | hwpos
      · rw [hzero, Nat.add_zero]
        exact hp.1.trans_lt r.start_lt_reach
      · have hmem : ((lineSpansFrom 0 lines).drop s)[w - 1]? =
            some ⟨lineOffset lines (s + w - 1), lineOffset lines (s + w - 1 + 1)⟩ := by
          rw [List.getElem?_drop, show s + (w - 1) = s + w - 1 by omega]
          exact hspan' (by omega)
        have hshort := hbefore _ _ (by omega) hmem
        rw [decide_eq_true_eq] at hshort
        simp only [show s + w - 1 + 1 = s + w by omega] at hshort
        exact hshort.trans_le r.stop_le_reach
    · have hmem : ((lineSpansFrom 0 lines).drop s)[w]? =
          some ⟨lineOffset lines (s + w), lineOffset lines (s + w + 1)⟩ := by
        rw [List.getElem?_drop]
        exact hspan' hend
      have hlong := hat _ hmem
      rw [decide_eq_false_iff_not] at hlong
      exact Nat.le_of_not_lt hlong

/-! ## Groups -/

/-- The lines of the group are those its replacements touch, and these lie within them. -/
structure GroupOk (lines : List JsString) (group : Group) : Prop where
  lt : group.startLine < group.endLine
  le : group.endLine ≤ lines.length
  within : Consecutive (lineOffset lines group.startLine) (lineOffset lines group.endLine) group.replacements
  touched : ∀ k, group.startLine ≤ k → k < group.endLine → ∃ r ∈ group.replacements,
    r.start < lineOffset lines (k + 1) ∧ lineOffset lines k < r.reach
  start_lt : ∀ r ∈ group.replacements, r.start < lineOffset lines group.endLine

/-- The groups follow one another from a line on. -/
def GroupsOk (lines : List JsString) : ℕ → List Group → Prop
  | index, [] => index ≤ lines.length
  | index, group :: groups => index ≤ group.startLine ∧ GroupOk lines group ∧ GroupsOk lines group.endLine groups

variable {lines : List JsString} {r : Region UInt16} {range : LineRange}

/-- The range of lines that a replacement touches. -/
structure RangeOk (lines : List JsString) (r : Region UInt16) (range : LineRange) : Prop where
  lt : range.startLine < range.endLine
  le : range.endLine ≤ lines.length
  start_ge : lineOffset lines range.startLine ≤ r.start
  start_lt : r.start < lineOffset lines (range.startLine + 1)
  reach_gt : lineOffset lines (range.endLine - 1) < r.reach
  stop_le : r.stop ≤ lineOffset lines range.endLine

theorem RangeOk.touched (h : RangeOk lines r range) {k : ℕ} (hlo : range.startLine ≤ k) (hhi : k < range.endLine) :
    r.start < lineOffset lines (k + 1) ∧ lineOffset lines k < r.reach :=
  ⟨h.start_lt.trans_le (lineOffset_mono lines (Nat.succ_le_succ hlo)),
    (lineOffset_mono lines (Nat.le_sub_one_of_lt hhi)).trans_lt h.reach_gt⟩

theorem RangeOk.groupOk (h : RangeOk lines r range) :
    GroupOk lines ⟨range.startLine, range.endLine, [r]⟩ where
  lt := h.lt
  le := h.le
  within := ⟨h.start_ge, h.stop_le⟩
  touched _ hlo hhi := ⟨r, List.mem_singleton.mpr rfl, h.touched hlo hhi⟩
  start_lt := by
    simp only [List.mem_singleton, forall_eq]
    exact h.start_lt.trans_le (lineOffset_mono lines h.lt)

/-- A replacement that touches the last line of the group, and stands behind its others, joins it. -/
theorem GroupOk.join {group : Group} (h : GroupOk lines group) (hr : RangeOk lines r range)
    (hbehind : ∀ r' ∈ group.replacements, r'.stop ≤ r.start) (hlt : range.startLine < group.endLine) :
    GroupOk lines
      ⟨group.startLine, max group.endLine range.endLine, group.replacements ++ [r]⟩ := by
  have hstart : lineOffset lines group.startLine ≤ r.start := by
    rcases h.touched group.startLine le_rfl h.lt with ⟨r', hr', -⟩
    have hlo := (h.within.forall_mem r' hr').1
    exact hlo.trans ((Nat.le_add_right _ _).trans (hbehind r' hr'))
  constructor
  case lt => exact h.lt.trans_le (le_max_left _ _)
  case le => exact max_le h.le hr.le
  case within =>
    exact h.within.concat hbehind hstart (hr.stop_le.trans (lineOffset_mono lines (le_max_right _ _)))
  case touched =>
    intro k hlo hhi
    rcases Nat.lt_or_ge k group.endLine with hk | hk
    · rcases h.touched k hlo hk with ⟨r', hr', ht⟩
      exact ⟨r', List.mem_append_left _ hr', ht⟩
    · have hk' : k < range.endLine := by
        rcases lt_max_iff.mp hhi with hlt' | hlt'
        · omega
        · exact hlt'
      exact ⟨r, List.mem_append_right _ (List.mem_singleton.mpr rfl), hr.touched (by omega) hk'⟩
  case start_lt =>
    intro r' hr'
    rcases List.mem_append.mp hr' with hr' | hr'
    · exact (h.start_lt r' hr').trans_le (lineOffset_mono lines (le_max_left _ _))
    · rw [List.mem_singleton.mp hr']
      exact hr.start_lt.trans_le (lineOffset_mono lines (hr.lt.trans_le (le_max_right _ _)))

/-- All replacements of the groups, in their order. -/
def replacementsOf (groups : List Group) : List (Region UInt16) := groups.flatMap Group.replacements

theorem addToGroups_ok {groups : List Group} {index : ℕ} (h : GroupsOk lines index groups)
    (hr : RangeOk lines r range) (hindex : groups = [] → index ≤ range.startLine)
    (hbehind : ∀ r' ∈ replacementsOf groups, r'.stop ≤ r.start) :
    GroupsOk lines index (addToGroups range r groups) ∧
      replacementsOf (addToGroups range r groups) = replacementsOf groups ++ [r] := by
  induction groups generalizing index with
  | nil => exact ⟨⟨hindex rfl, hr.groupOk, hr.le⟩, rfl⟩
  | cons group groups ih =>
    rcases h with ⟨hle, hgroup, hgroups⟩
    have hbehind' : ∀ r' ∈ group.replacements, r'.stop ≤ r.start := fun r' hr' =>
      hbehind r' (List.mem_append_left _ hr')
    cases groups with
    | nil =>
      rw [addToGroups]
      split
      · rename_i hlt
        have hjoin := hgroup.join hr hbehind' hlt
        exact ⟨⟨hle, hjoin, hjoin.le⟩, by simp [replacementsOf]⟩
      · rename_i hge
        exact ⟨⟨hle, hgroup, Nat.le_of_not_lt hge, hr.groupOk, hr.le⟩, by simp [replacementsOf]⟩
    | cons group' groups =>
      rw [addToGroups]
      · have hrest := ih hgroups (by simp) fun r' hr' => hbehind r' (List.mem_append_right _ hr')
        refine ⟨⟨hle, hgroup, hrest.1⟩, ?_⟩
        have hsecond := hrest.2
        simp only [replacementsOf, List.flatMap_cons, List.append_assoc] at hsecond ⊢
        rw [hsecond]
      · simp

/-- Replacements that follow one another and start on lines of the content are grouped. -/
theorem groupReplacements_ok {rs : List (Region UInt16)} {groups : List Group} {lo : ℕ}
    (h : GroupsOk lines 0 groups) (hbehind : ∀ r' ∈ replacementsOf groups, r'.stop ≤ lo)
    (hrs : Consecutive lo lines.flatten.length rs) (hin : ∀ r ∈ rs, r.start < lines.flatten.length) :
    ∃ groups', groupReplacements (lineSpansFrom 0 lines) groups rs = .ok groups' ∧ GroupsOk lines 0 groups' ∧
      replacementsOf groups' = replacementsOf groups ++ rs := by
  induction rs generalizing groups lo with
  | nil => exact ⟨groups, rfl, h, (List.append_nil _).symm⟩
  | cons r rs ih =>
    rw [List.forall_mem_cons] at hin
    rcases getReplacementLineRange_eq hin.1 hrs.2.le with ⟨range, heq, h1, h2, h3, h4, h5, h6⟩
    have hrange : RangeOk lines r range := ⟨h1, h2, h3, h4, h5, h6⟩
    have hbefore : ∀ r' ∈ replacementsOf groups, r'.stop ≤ r.start := fun r' hr' => (hbehind r' hr').trans hrs.1
    rcases addToGroups_ok h hrange (fun _ => Nat.zero_le _) hbefore with ⟨hok, hreps⟩
    have hbehind' : ∀ r' ∈ replacementsOf (addToGroups range r groups), r'.stop ≤ r.stop := by
      intro r' hr'
      rw [hreps] at hr'
      rcases List.mem_append.mp hr' with hr' | hr'
      · exact (hbefore r' hr').trans (Nat.le_add_right _ _)
      · rw [List.mem_singleton.mp hr']
    rcases ih hok hbehind' hrs.2 hin.2 with ⟨groups', hgroups', hok', hreps'⟩
    refine ⟨groups', ?_, hok', ?_⟩
    · rw [groupReplacements, heq]
      exact hgroups'
    · rw [hreps', hreps, List.append_assoc]
      rfl

/-! ## The overlay -/

/-- What is made of lines whose normal forms start at an offset: a line before all the regions is copied; a block
of lines, each of which some region of the block touches, becomes its normal form with these regions replaced. -/
inductive Overlay (normalize : JsString → JsString) :
    ℕ → List JsString → List (Region UInt16) → JsString → Prop where
  | nil (offset : ℕ) : Overlay normalize offset [] [] []
  | keep {offset : ℕ} {line : JsString} {lines : List JsString} {rs : List (Region UInt16)} {out : JsString}
      (hrs : ∀ r ∈ rs, offset + (normalize line).length ≤ r.start)
      (h : Overlay normalize (offset + (normalize line).length) lines rs out) :
      Overlay normalize offset (line :: lines) rs (line ++ out)
  | block {offset : ℕ} {block lines : List JsString} {rs rs' : List (Region UInt16)} {out : JsString}
      (hwithin : Consecutive offset (offset + (block.map normalize).flatten.length) rs)
      (htouched : ∀ k < block.length, ∃ r ∈ rs, r.start < offset + lineOffset (block.map normalize) (k + 1) ∧
        offset + lineOffset (block.map normalize) k < r.stop)
      (h : Overlay normalize (offset + (block.map normalize).flatten.length) lines rs' out) :
      Overlay normalize offset (block ++ lines) (rs ++ rs')
        (replaceRegions offset rs (block.map normalize).flatten ++ out)

variable {normalize : JsString → JsString}

/-- Lines before all the regions are copied. -/
theorem Overlay.keep_append {offset : ℕ} {kept lines : List JsString} {rs : List (Region UInt16)} {out : JsString}
    (hrs : ∀ r ∈ rs, offset + (kept.map normalize).flatten.length ≤ r.start)
    (h : Overlay normalize (offset + (kept.map normalize).flatten.length) lines rs out) :
    Overlay normalize offset (kept ++ lines) rs (kept.flatten ++ out) := by
  induction kept generalizing offset with
  | nil => simpa using h
  | cons line kept ih =>
    simp only [List.map_cons, List.flatten_cons, List.length_append, ← Nat.add_assoc] at hrs h
    rw [List.cons_append, List.flatten_cons, List.append_assoc]
    exact .keep (fun r hr => (Nat.le_add_right _ _).trans (hrs r hr)) (ih hrs h)

theorem take_eq_append_drop {α : Type*} (l : List α) {i j : ℕ} (h : i ≤ j) :
    l.take j = l.take i ++ (l.take j).drop i := by
  conv_lhs => rw [← List.take_append_drop i (l.take j), List.take_take, min_eq_left h]

theorem flatten_take_append (lines : List JsString) {i j : ℕ} (h : i ≤ j) :
    (lines.take j).flatten = (lines.take i).flatten ++ ((lines.take j).drop i).flatten := by
  rw [← List.flatten_append, ← take_eq_append_drop lines h]

theorem lineOffset_add (lines : List JsString) {i j : ℕ} (h : i ≤ j) :
    lineOffset lines i + ((lines.take j).drop i).flatten.length = lineOffset lines j := by
  rw [lineOffset, lineOffset, flatten_take_append lines h, List.length_append]

/-- Offsets within a block of lines. -/
theorem lineOffset_block (lines : List JsString) {i j k : ℕ} (h : i + k ≤ j) :
    lineOffset lines i + lineOffset ((lines.take j).drop i) k = lineOffset lines (i + k) := by
  have hblock : ((lines.take j).drop i).take k = (lines.take (i + k)).drop i := by
    rw [List.take_drop, List.take_take, min_eq_left h]
  rw [← lineOffset_add lines (Nat.le_add_right i k), ← hblock]
  rfl

/-- The part of the content that some lines make. -/
theorem slice_flatten (lines : List JsString) {i j : ℕ} (h : i ≤ j) :
    (lines.flatten.take (lineOffset lines j)).drop (lineOffset lines i) = ((lines.take j).drop i).flatten := by
  have hj : lines.flatten.take (lineOffset lines j) = (lines.take j).flatten := by
    conv_lhs => rw [← List.take_append_drop j lines, List.flatten_append]
    rw [lineOffset, List.take_append_drop]
    exact List.take_left
  rw [hj, flatten_take_append lines h, lineOffset]
  exact List.drop_left

theorem drop_eq_append_drop {α : Type*} (l : List α) {i j : ℕ} (h : i ≤ j) (hj : j ≤ l.length) :
    l.drop i = (l.take j).drop i ++ l.drop j := by
  conv_lhs => rw [← List.take_append_drop j l]
  rw [List.drop_append_of_le_length (by rw [List.length_take]; omega)]

/-- The replacements of groups stand behind the line they follow. -/
theorem GroupsOk.le_start {groups : List Group} {index : ℕ} (h : GroupsOk lines index groups) :
    ∀ r ∈ replacementsOf groups, lineOffset lines index ≤ r.start := by
  induction groups generalizing index with
  | nil => simp [replacementsOf]
  | cons group groups ih =>
    rcases h with ⟨hindex, hgroup, hgroups⟩
    intro r hr
    rcases List.mem_append.mp hr with hr | hr
    · exact (lineOffset_mono lines hindex).trans (hgroup.within.forall_mem r hr).1
    · exact (lineOffset_mono lines (hindex.trans hgroup.lt.le)).trans (ih hgroups r hr)

/-- The loop over the groups writes the overlay, if no replacement is empty. -/
theorem overlay_writeGroups (original : List JsString) {groups : List Group} {index : ℕ}
    (h : GroupsOk (original.map normalize) index groups) (hpos : ∀ r ∈ replacementsOf groups, 0 < r.length) :
    Overlay normalize (lineOffset (original.map normalize) index) (original.drop index) (replacementsOf groups)
      (writeGroups original (original.map normalize).flatten (lineSpansFrom 0 (original.map normalize)) index
        groups) := by
  induction groups generalizing index with
  | nil =>
    have hkeep : Overlay normalize (lineOffset (original.map normalize) index) (original.drop index ++ []) []
        ((original.drop index).flatten ++ []) := .keep_append (by simp) (.nil _)
    simpa [writeGroups, replacementsOf] using hkeep
  | cons group groups ih =>
    rcases h with ⟨hindex, hgroup, hgroups⟩
    have hlt := hgroup.lt
    have hle := hgroup.le
    have hlength : group.endLine ≤ original.length := by simpa using hle
    set base := original.map normalize with hbase
    have hstart : base[group.startLine]? = some base[group.startLine] :=
      List.getElem?_eq_getElem (hlt.trans_le hle)
    have hend : base[group.endLine - 1]? = some base[group.endLine - 1] :=
      List.getElem?_eq_getElem (show group.endLine - 1 < base.length by omega)
    -- the block of the group in the normalised content
    have hblock : (((original.take group.endLine).drop group.startLine).map normalize) =
        (base.take group.endLine).drop group.startLine := by
      rw [List.map_drop, List.map_take]
    have hkept : (((original.take group.startLine).drop index).map normalize) =
        (base.take group.startLine).drop index := by
      rw [List.map_drop, List.map_take]
    have hlen := lineOffset_add base hlt.le
    have hreplace : applyReplacements ((base.take group.endLine).drop group.startLine).flatten group.replacements
        (lineOffset base group.startLine) = replaceRegions (lineOffset base group.startLine) group.replacements
          ((base.take group.endLine).drop group.startLine).flatten := by
      have hsplice := foldr_spliceAt le_rfl hgroup.within hlen.ge
      simpa [applyReplacements] using hsplice
    have hdrop : original.drop index = (original.take group.startLine).drop index
        ++ ((original.take group.endLine).drop group.startLine ++ original.drop group.endLine) := by
      rw [← drop_eq_append_drop original hlt.le hlength, ← drop_eq_append_drop original hindex (hlt.le.trans hlength)]
    have hout : writeGroups original base.flatten (lineSpansFrom 0 base) index (group :: groups) =
        ((original.take group.startLine).drop index).flatten
          ++ (replaceRegions (lineOffset base group.startLine) group.replacements
            ((base.take group.endLine).drop group.startLine).flatten
          ++ writeGroups original base.flatten (lineSpansFrom 0 base) group.endLine groups) := by
      simp only [writeGroups, getElem?_lineSpansFrom, hstart, hend, Option.map_some, Option.getD_some, Nat.zero_add,
        Nat.sub_add_cancel (show 1 ≤ group.endLine by omega), slice_flatten base hlt.le, hreplace, List.append_assoc]
    have hoverlay : Overlay normalize (lineOffset base group.startLine)
        ((original.take group.endLine).drop group.startLine ++ original.drop group.endLine)
        (group.replacements ++ replacementsOf groups)
        (replaceRegions (lineOffset base group.startLine) group.replacements
          (((original.take group.endLine).drop group.startLine).map normalize).flatten
            ++ writeGroups original base.flatten (lineSpansFrom 0 base) group.endLine groups) := by
      apply Overlay.block
      · rw [hblock, hlen]
        exact hgroup.within
      · intro k hk
        have hk' : k < group.endLine - group.startLine := by
          rw [List.length_drop, List.length_take] at hk
          omega
        rcases hgroup.touched (group.startLine + k) (Nat.le_add_right _ _) (by omega) with ⟨r, hr, hlo, hhi⟩
        rw [hblock, lineOffset_block base (by omega), lineOffset_block base (by omega)]
        rw [Region.reach_of_pos (hpos r (List.mem_append_left _ hr))] at hhi
        exact ⟨r, hr, hlo, hhi⟩
      · rw [hblock, hlen]
        exact ih hgroups fun r hr => hpos r (List.mem_append_right _ hr)
    rw [hblock] at hoverlay
    rw [hdrop, hout]
    apply Overlay.keep_append
    · rw [hkept, lineOffset_add base hindex]
      exact GroupsOk.le_start ⟨le_rfl, hgroup, hgroups⟩
    · rw [hkept, lineOffset_add base hindex]
      exact hoverlay

/-! ## Matching lines -/

variable {nfkc : JsString → JsString} {content path : JsString} {edits : List Edit} {matched : Matched}

/-- The content ends in a line without a line feed that is not empty, but normalises to nothing. -/
def EndsInBlankLine (nfkc : JsString → JsString) (content : JsString) : Prop :=
  ∃ last, (content.splitOn lf).getLast? = some last ∧ last ≠ [] ∧ normalizeForFuzzyMatch nfkc last = []

theorem normalize_line (h : IsNFKC nfkc) {line : JsString} (hline : lf ∉ line) :
    normalizeForFuzzyMatch nfkc line = normalizeLine nfkc line := by
  have hone := normalize_intercalate h (List.cons_ne_nil line []) (by simpa using hline)
  simpa using hone

theorem normalizeLine_nil (h : IsNFKC nfkc) : normalizeLine nfkc [] = [] := by
  rw [normalizeLine, h.nil]
  rfl

theorem normalize_line_lf (h : IsNFKC nfkc) {line : JsString} (hline : lf ∉ line) :
    normalizeForFuzzyMatch nfkc (line ++ [lf]) = normalizeLine nfkc line ++ [lf] := by
  have htwo := normalize_intercalate h (List.cons_ne_nil line [[]]) (by simpa using hline)
  simpa [normalizeLine_nil h] using htwo

/-- The lines of the normalised content are the normalised lines, if the last of them does not vanish. -/
theorem withEndings_normalizeLine (h : IsNFKC nfkc) {lines : List JsString} (hlf : ∀ line ∈ lines, lf ∉ line) :
    ((∀ last ∈ lines.getLast?, last ≠ [] → normalizeLine nfkc last ≠ []) →
      withEndings (lines.map (normalizeLine nfkc)) = (withEndings lines).map (normalizeForFuzzyMatch nfkc)) ∧
    ((∃ last ∈ lines.getLast?, last ≠ [] ∧ normalizeLine nfkc last = []) →
      (withEndings (lines.map (normalizeLine nfkc))).length + 1 = (withEndings lines).length) := by
  induction lines with
  | nil => simp [withEndings]
  | cons line lines ih =>
    rw [List.forall_mem_cons] at hlf
    cases lines with
    | nil =>
      simp only [List.getLast?_singleton, Option.mem_some_iff, forall_eq', exists_eq_left', List.map_cons,
        List.map_nil, withEndings]
      refine ⟨fun hlast => ?_, ?_⟩
      · by_cases hnil : line = []
        · subst hnil
          simp [normalizeLine_nil h]
        · rw [if_neg hnil, if_neg (hlast hnil), List.map_cons, normalize_line h hlf.1]
          rfl
      · rintro ⟨hne, hnil⟩
        rw [if_pos hnil, if_neg hne]
        rfl
    | cons line' lines =>
      have ih := ih hlf.2
      simp only [List.map_cons, withEndings, List.getLast?_cons_cons] at ih ⊢
      refine ⟨fun hlast => ?_, fun hlast => ?_⟩
      · rw [ih.1 hlast, normalize_line_lf h hlf.1]
      · rw [List.length_cons, List.length_cons, ih.2 hlast]

/-- The lines correspond unless the content ends in a line that vanishes. -/
theorem splitLines_normalize (h : IsNFKC nfkc) (hblank : ¬EndsInBlankLine nfkc content) :
    splitLinesWithEndings (normalizeForFuzzyMatch nfkc content)
      = (splitLinesWithEndings content).map (normalizeForFuzzyMatch nfkc) := by
  rcases exists_intercalate content with ⟨lines, hne, hlf, rfl⟩
  rw [normalize_intercalate h hne hlf, splitLines_intercalate, splitLines_intercalate hlf]
  · apply (withEndings_normalizeLine h hlf).1
    intro last hlast hnonempty hvanish
    refine hblank ⟨last, ?_, hnonempty, ?_⟩
    · rw [List.splitOn_intercalate lf hlf hne]
      exact hlast
    · rw [normalize_line h (hlf last (List.mem_of_getLast? hlast)), hvanish]
  · intro line hline
    rcases List.mem_map.mp hline with ⟨line, hline', rfl⟩
    exact lf_not_mem_normalizeLine h (hlf line hline')

theorem length_splitLines_normalize (h : IsNFKC nfkc) (hblank : EndsInBlankLine nfkc content) :
    (splitLinesWithEndings content).length
      = (splitLinesWithEndings (normalizeForFuzzyMatch nfkc content)).length + 1 := by
  rcases exists_intercalate content with ⟨lines, hne, hlf, rfl⟩
  rcases hblank with ⟨last, hlast, hnonempty, hvanish⟩
  rw [List.splitOn_intercalate lf hlf hne] at hlast
  rw [normalize_line h (hlf last (List.mem_of_getLast? hlast))] at hvanish
  rw [normalize_intercalate h hne hlf, splitLines_intercalate hlf, splitLines_intercalate]
  · exact ((withEndings_normalizeLine h hlf).2 ⟨last, hlast, hnonempty, hvanish⟩).symm
  · intro line hline
    rcases List.mem_map.mp hline with ⟨line, hline', rfl⟩
    exact lf_not_mem_normalizeLine h (hlf line hline')

/-- Replacements that follow one another in the normalised content are overlaid on the original. -/
theorem applyReplacementsPreserving_eq (h : IsNFKC nfkc) (hblank : ¬EndsInBlankLine nfkc content)
    {rs : List (Region UInt16)} (hrs : Consecutive 0 (normalizeForFuzzyMatch nfkc content).length rs)
    (hpos : ∀ r ∈ rs, 0 < r.length) :
    ∃ out, applyReplacementsPreservingUnchangedLines content (normalizeForFuzzyMatch nfkc content) rs = .ok out ∧
      Overlay (normalizeForFuzzyMatch nfkc) 0 (splitLinesWithEndings content) rs out := by
  have hlines := splitLines_normalize h hblank
  have hflatten := flatten_splitLines (normalizeForFuzzyMatch nfkc content)
  have hsorted : sortByIndex Region.start rs = rs := by
    have htotal : Std.Total fun a b : Region UInt16 => a.start ≤ b.start := ⟨fun a b => le_total _ _⟩
    exact (((hrs.pairwise_start hpos).imp le_of_lt).insertionSort_eq)
  rw [← hflatten, hlines] at hrs
  have hin : ∀ r ∈ rs, r.start < ((splitLinesWithEndings content).map (normalizeForFuzzyMatch nfkc)).flatten.length := by
    intro r hr
    exact (Nat.lt_add_of_pos_right (hpos r hr)).trans_le (hrs.forall_mem r hr).2
  have hnone : GroupsOk ((splitLinesWithEndings content).map (normalizeForFuzzyMatch nfkc)) 0 [] := Nat.zero_le _
  rcases groupReplacements_ok hnone (by simp [replacementsOf]) hrs hin with ⟨groups, hgroups, hok, hreps⟩
  refine ⟨writeGroups (splitLinesWithEndings content) (normalizeForFuzzyMatch nfkc content)
    (lineSpansFrom 0 ((splitLinesWithEndings content).map (normalizeForFuzzyMatch nfkc))) 0 groups, ?_, ?_⟩
  · unfold applyReplacementsPreservingUnchangedLines getLineSpans
    simp only [hlines, length_lineSpansFrom, List.length_map, ne_eq, not_true_eq_false, if_false, hsorted, hgroups]
    rfl
  · have hpos' : ∀ r ∈ replacementsOf groups, 0 < r.length := by
      rw [hreps]
      simpa [replacementsOf] using hpos
    have hoverlay := overlay_writeGroups (splitLinesWithEndings content) hok hpos'
    rw [hreps] at hoverlay
    rw [hlines] at hflatten
    rw [hflatten] at hoverlay
    simpa [replacementsOf, lineOffset] using hoverlay

/-! ## Edits that were found -/

/-- An old text is found only after normalising. -/
def NeedsNormalizing (content : JsString) (edits : List Edit) : Prop :=
  ∃ e ∈ edits, indexOf (normalizeToLF e.oldText) content = none

/-- What is known of edits that were found, unique and disjoint. -/
structure Found (nfkc : JsString → JsString) (content : JsString) (edits : List Edit) (matched : Matched) : Prop where
  fuzzy : matched.usedFuzzyMatch = true ↔ NeedsNormalizing content edits
  base : matched.replacementBaseContent =
    if matched.usedFuzzyMatch then normalizeForFuzzyMatch nfkc content else content
  within : Consecutive 0 matched.replacementBaseContent.length (matched.matchedEdits.map MatchedEdit.toRegion)
  nonempty : (∀ e ∈ edits, normalizeForFuzzyMatch nfkc (normalizeToLF e.oldText) ≠ []) →
    ∀ r ∈ matched.matchedEdits.map MatchedEdit.toRegion, 0 < r.length

/-- Where a text is found, exactly or after normalising. -/
theorem fuzzyFindText_eq_some {base oldText : JsString} {found : FuzzyMatchResult}
    (h : fuzzyFindText nfkc base oldText = some found) :
    (found.usedFuzzyMatch = false ∧ OccursAt oldText base found.index ∧ found.matchLength = oldText.length) ∨
      (found.usedFuzzyMatch = true ∧ indexOf oldText base = none ∧
        OccursAt (normalizeForFuzzyMatch nfkc oldText) (normalizeForFuzzyMatch nfkc base) found.index ∧
        found.matchLength = (normalizeForFuzzyMatch nfkc oldText).length) := by
  unfold fuzzyFindText at h
  cases hexact : indexOf oldText base with
  | some i =>
    simp only [hexact] at h
    cases h
    exact .inl ⟨rfl, (indexOf_eq_some hexact).1, rfl⟩
  | none =>
    simp only [hexact, Option.map_eq_some_iff] at h
    rcases h with ⟨i, hi, rfl⟩
    exact .inr ⟨rfl, rfl, (indexOf_eq_some hi).1, rfl⟩

/-- An edit that was matched was found. -/
theorem matchEdit_eq_ok {base : JsString} {total i : ℕ} {edit : Edit} {m : MatchedEdit}
    (h : matchEdit nfkc path total base i edit = .ok m) :
    ∃ found, fuzzyFindText nfkc base edit.oldText = some found ∧
      m.toRegion = ⟨found.index, found.matchLength, edit.newText⟩ := by
  unfold matchEdit at h
  cases hfound : fuzzyFindText nfkc base edit.oldText with
  | none =>
    rw [hfound] at h
    cases h
  | some found =>
    simp only [hfound, ite_error_eq_ok] at h
    cases h.2
    exact ⟨found, rfl, rfl⟩

/-- The loop matches every edit, and nothing else. -/
theorem matchEditsFrom_forall {base : JsString} {total i : ℕ} {ms : List MatchedEdit}
    (h : matchEditsFrom nfkc path total base i edits = .ok ms) :
    (∀ e ∈ edits, ∃ i m, matchEdit nfkc path total base i e = .ok m) ∧
      ∀ m ∈ ms, ∃ e ∈ edits, ∃ i, matchEdit nfkc path total base i e = .ok m := by
  induction edits generalizing i ms with
  | nil =>
    cases h
    simp
  | cons e edits ih =>
    rcases bind_eq_ok.mp h with ⟨m, hm, hrest⟩
    rcases bind_eq_ok.mp hrest with ⟨ms', hms', hret⟩
    cases hret
    rcases ih hms' with ⟨hall, hmem⟩
    refine ⟨List.forall_mem_cons.mpr ⟨⟨i, m, hm⟩, hall⟩, List.forall_mem_cons.mpr ⟨⟨e, by simp, i, hm⟩, ?_⟩⟩
    intro m' hm'
    rcases hmem m' hm' with ⟨e', he', i', heq⟩
    exact ⟨e', List.mem_cons_of_mem _ he', i', heq⟩

theorem found_of_matchEdits (h : IsNFKC nfkc) (hm : matchEdits nfkc content edits path = .ok matched) :
    Found nfkc content edits matched := by
  rcases bind_eq_ok.mp hm with ⟨⟨⟩, hempty, hm⟩
  rcases bind_eq_ok.mp hm with ⟨ms, hms, hm⟩
  rcases bind_eq_ok.mp hm with ⟨⟨⟩, hdisjoint, hret⟩
  have hempty := checkNotEmpty_eq_ok.mp hempty
  set used := (edits.map normalizeEdit).any fun edit =>
    ((fuzzyFindText nfkc content edit.oldText).map FuzzyMatchResult.usedFuzzyMatch).getD false with hused
  set base := if used then normalizeForFuzzyMatch nfkc content else content with hbase
  cases hret
  rcases matchEditsFrom_forall hms with ⟨hall, hmem⟩
  -- a match of the second search that needs normalising is one in a content that is normal already
  have hfuzzy : ∀ e ∈ edits.map normalizeEdit, ∀ found, fuzzyFindText nfkc base e.oldText = some found →
      found.usedFuzzyMatch = true → normalizeForFuzzyMatch nfkc base = base := by
    intro e he found hfound htrue
    cases hu : used with
    | true =>
      rw [hbase, hu, if_pos rfl]
      exact normalize_normalize h content
    | false =>
      rw [hbase, hu] at hfound
      have hno := List.any_eq_false.mp (hused ▸ hu) e he
      rw [if_neg (by simp)] at hfound
      simp [hfound, htrue] at hno
  have hregion : ∀ m ∈ ms, m.stop ≤ base.length ∧
      ((∀ e ∈ edits, normalizeForFuzzyMatch nfkc (normalizeToLF e.oldText) ≠ []) → 0 < m.length) := by
    intro m hmm
    rcases hmem m hmm with ⟨e, he, i, heq⟩
    rcases matchEdit_eq_ok heq with ⟨found, hfound, hregion⟩
    have hstop : m.stop = found.index + found.matchLength := by rw [hregion]; rfl
    have hlength : m.length = found.matchLength := by rw [hregion]
    rcases fuzzyFindText_eq_some hfound with ⟨-, hocc, hlen⟩ | ⟨htrue, -, hocc, hlen⟩
    · refine ⟨?_, fun _ => ?_⟩
      · rw [hstop, hlen]
        exact hocc.le_length
      · rw [hlength, hlen]
        exact List.length_pos_iff.mpr (hempty e he)
    · refine ⟨?_, fun hne => ?_⟩
      · rw [hfuzzy e he found hfound htrue] at hocc
        rw [hstop, hlen]
        exact hocc.le_length
      · rcases List.mem_map.mp he with ⟨e', he', rfl⟩
        rw [hlength, hlen]
        exact List.length_pos_iff.mpr (hne e' he')
  have hsorted : ∀ m, m ∈ sortByIndex (fun m : MatchedEdit => m.start) ms ↔ m ∈ ms :=
    fun m => (sortByIndex_perm _ ms).mem_iff
  constructor
  case fuzzy =>
    show used = true ↔ _
    constructor
    · intro hu
      rcases List.any_eq_true.mp (hused ▸ hu) with ⟨e, he, htrue⟩
      rcases List.mem_map.mp he with ⟨e', he', rfl⟩
      refine ⟨e', he', ?_⟩
      cases hfound : fuzzyFindText nfkc content (normalizeEdit e').oldText with
      | none => simp [hfound] at htrue
      | some found =>
        rcases fuzzyFindText_eq_some hfound with ⟨hfalse, -⟩ | ⟨-, hnone, -⟩
        · simp [hfound, hfalse] at htrue
        · exact hnone
    · rintro ⟨e, he, hnone⟩
      by_contra hu
      have hu : used = false := by simpa using hu
      rcases hall _ (List.mem_map_of_mem he) with ⟨i, m, heq⟩
      rcases matchEdit_eq_ok heq with ⟨found, hfound, -⟩
      rw [hbase, hu, if_neg (by simp)] at hfound
      have hno := List.any_eq_false.mp (hused ▸ hu) _ (List.mem_map_of_mem he)
      rcases fuzzyFindText_eq_some hfound with ⟨-, hocc, -⟩ | ⟨htrue, -⟩
      · exact indexOf_eq_none hnone _ hocc
      · simp [hfound, htrue] at hno
  case base => rfl
  case within =>
    refine (checkDisjoint_eq_ok ?_).mp hdisjoint 0 (Nat.zero_le _) fun _ _ => Nat.zero_le _
    intro m hmm
    exact (hregion m ((hsorted m).mp hmm)).1
  case nonempty =>
    intro hne r hr
    rcases List.mem_map.mp hr with ⟨m, hmm, rfl⟩
    exact (hregion m ((hsorted m).mp hmm)).2 hne

/-! ## Fuzzy edits -/

/-- What edits that were found, unique and disjoint promise of the new content: it is made without an error, lines
that no match touches are the original ones, touched blocks are normalised blocks with the matches replaced, and
no edit was applied whose old text normalises to nothing. -/
def KeepsOtherLines (nfkc : JsString → JsString) (content : JsString) (edits : List Edit) (matched : Matched) : Prop :=
  (∃ out, replaceMatched content matched = .ok out ∧
    if matched.usedFuzzyMatch then
      Overlay (normalizeForFuzzyMatch nfkc) 0 (splitLinesWithEndings content)
        (matched.matchedEdits.map MatchedEdit.toRegion) out
    else out = replaceRegions 0 (matched.matchedEdits.map MatchedEdit.toRegion) content) ∧
  ∀ e ∈ edits, normalizeForFuzzyMatch nfkc (normalizeToLF e.oldText) ≠ []

/-- Edits that were found, unique and disjoint keep their promise exactly when no old text normalises to nothing
and, if normalising was needed, the content does not end in a line that vanishes. -/
theorem keepsOtherLines_iff (nfkc : JsString → JsString) (h : IsNFKC nfkc) (content : JsString) (edits : List Edit)
    (path : JsString) (matched : Matched) (hm : matchEdits nfkc content edits path = .ok matched) :
    KeepsOtherLines nfkc content edits matched ↔
      (∀ e ∈ edits, normalizeForFuzzyMatch nfkc (normalizeToLF e.oldText) ≠ []) ∧
        (NeedsNormalizing content edits → ¬EndsInBlankLine nfkc content) := by
  have hfound := found_of_matchEdits h hm
  have hbase := hfound.base
  constructor
  · rintro ⟨⟨out, hout, -⟩, hne⟩
    refine ⟨hne, fun hneeds hblank => ?_⟩
    -- the lines of the two contents were counted and differ
    rw [hfound.fuzzy.mpr hneeds, if_pos rfl] at hbase
    have hlength := length_splitLines_normalize h hblank
    rw [replaceMatched, hfound.fuzzy.mpr hneeds, if_pos rfl, hbase] at hout
    unfold applyReplacementsPreservingUnchangedLines getLineSpans at hout
    simp only [length_lineSpansFrom, ite_error_eq_ok] at hout
    omega
  · rintro ⟨hne, hblank⟩
    refine ⟨?_, hne⟩
    have hpos := hfound.nonempty hne
    have hwithin := hfound.within
    cases hu : matched.usedFuzzyMatch with
    | true =>
      rw [hu, if_pos rfl] at hbase
      rw [hbase] at hwithin
      rcases applyReplacementsPreserving_eq h (hblank (hfound.fuzzy.mp hu)) hwithin hpos with ⟨out, hout, hoverlay⟩
      refine ⟨out, ?_, by simpa using hoverlay⟩
      rw [replaceMatched, hu, if_pos rfl, hbase]
      exact hout
    | false =>
      rw [hu, if_neg (by simp)] at hbase
      rw [hbase] at hwithin
      refine ⟨replaceRegions 0 (matched.matchedEdits.map MatchedEdit.toRegion) content, ?_, by simp⟩
      rw [replaceMatched, hu, if_neg (by simp), hbase]
      have hsplice := foldr_spliceAt (Nat.zero_le 0) hwithin (Nat.le_add_left _ 0)
      simpa [applyReplacements] using hsplice

/-- A match in quotation marks leaves the trailing blanks of the other line. -/
theorem keepsOtherLines_quotes :
    KeepsOtherLines id [0x201C, 120, 0x201D, 10, 121, 32, 10] [⟨[34, 120, 34], [122]⟩]
        ⟨true, [34, 120, 34, 10, 121, 10], [⟨⟨0, 3, [122]⟩, 0⟩]⟩ ∧
      replaceMatched [0x201C, 120, 0x201D, 10, 121, 32, 10] ⟨true, [34, 120, 34, 10, 121, 10], [⟨⟨0, 3, [122]⟩, 0⟩]⟩ =
        .ok [122, 10, 121, 32, 10] := by
  refine ⟨(keepsOtherLines_iff id isNFKC_id _ _ [102] _ rfl).mpr ⟨?_, ?_⟩, rfl⟩
  · intro e he
    rw [List.mem_singleton.mp he]
    decide
  · rintro - ⟨last, hlast, hne, -⟩
    have hnil : ([0x201C, 120, 0x201D, 10, 121, 32, 10] : JsString).splitOn lf = [[0x201C, 120, 0x201D], [121, 32], []] :=
      rfl
    rw [hnil] at hlast
    cases hlast
    exact hne rfl

/-- A content that ends in a line of one blank makes the line counts differ, and the edit of its other line fails. -/
theorem blank_last_line_fails :
    matchEdits id [0x201C, 120, 0x201D, 10, 32] [⟨[34, 120, 34], [122]⟩] [102] =
        .ok ⟨true, [34, 120, 34, 10], [⟨⟨0, 3, [122]⟩, 0⟩]⟩ ∧
      replaceMatched [0x201C, 120, 0x201D, 10, 32] ⟨true, [34, 120, 34, 10], [⟨⟨0, 3, [122]⟩, 0⟩]⟩ =
        .error .lineCount ∧
      ¬KeepsOtherLines id [0x201C, 120, 0x201D, 10, 32] [⟨[34, 120, 34], [122]⟩]
        ⟨true, [34, 120, 34, 10], [⟨⟨0, 3, [122]⟩, 0⟩]⟩ := by
  have hfails : replaceMatched [0x201C, 120, 0x201D, 10, 32]
      ⟨true, [34, 120, 34, 10], [⟨⟨0, 3, [122]⟩, 0⟩]⟩ = .error .lineCount := rfl
  refine ⟨rfl, hfails, ?_⟩
  rintro ⟨⟨out, hout, -⟩, -⟩
  rw [hfails] at hout
  cases hout

end Phi.Edit
