import Phi.Data.Except
import Phi.Edit.EditDiff

/-!
# Edits that occur verbatim

When every old text occurs in the content, the edits are matched and replaced in the content itself. They are
accepted exactly when no old text is empty or counted twice, their first occurrences do not overlap, and something
changes (`apply_eq_ok_iff`); what comes out then is the content with these occurrences replaced, in whatever order
the edits were given. The count is made in the normalised content and skips over what it has found, so it can miss
an occurrence: `Miscounted` is what is accepted although an old text occurs twice.
-/

namespace Phi.Edit

variable {nfkc : JsString → JsString} {content path : JsString} {edits : List Edit} {edit : Edit}

/-! ## Line feeds -/

theorem crlfToLf_of_not_mem {text : JsString} (h : 13 ∉ text) : crlfToLf text = text := by
  induction text using crlfToLf.induct with
  | case1 => rfl
  | case2 u => rfl
  | case3 u v rest huv ih =>
    rw [huv.1] at h
    exact absurd (List.mem_cons_self ..) h
  | case4 u v rest huv ih =>
    rw [crlfToLf, if_neg huv, ih fun hmem => h (List.mem_cons_of_mem _ hmem)]

theorem normalizeToLF_of_not_mem {text : JsString} (h : 13 ∉ text) : normalizeToLF text = text := by
  rw [normalizeToLF, crlfToLf_of_not_mem h]
  conv_rhs => rw [← List.map_id text]
  apply List.map_congr_left
  intro u hu
  rw [if_neg]
  · rfl
  · rintro rfl
    exact h hu

theorem not_mem_of_occursAt {pattern text : JsString} {i : ℕ} {u : UInt16} (h : OccursAt pattern text i)
    (hu : u ∉ text) : u ∉ pattern :=
  fun hmem => hu (List.mem_of_mem_drop (h.2.subset hmem))

/-! ## Checks -/

theorem checkNotEmpty_eq_ok {total i : ℕ} :
    checkNotEmpty path total i edits = .ok () ↔ ∀ e ∈ edits, e.oldText ≠ [] := by
  induction edits generalizing i with
  | nil => simp [checkNotEmpty]
  | cons e edits ih =>
    rw [checkNotEmpty, ite_error_eq_ok, ih, List.forall_mem_cons]
    simp

/-- Neighbours do not overlap: then the regions follow one another, wherever the last one ends. -/
theorem checkDisjoint_eq_ok {ms : List MatchedEdit} {hi : ℕ} (hhi : ∀ m ∈ ms, m.stop ≤ hi) :
    checkDisjoint path ms = .ok () ↔ ∀ lo ≤ hi, (∀ m ∈ ms.head?, lo ≤ m.start) →
      Consecutive lo hi (ms.map MatchedEdit.toRegion) := by
  induction ms with
  | nil => simpa [checkDisjoint, Consecutive] using fun lo hlo => hlo
  | cons m ms ih =>
    rw [List.forall_mem_cons] at hhi
    have ih := ih hhi.2
    cases ms with
    | nil =>
      constructor
      · intro _ lo _ hstart
        exact ⟨hstart m rfl, hhi.1⟩
      · intro _
        rfl
    | cons m' ms =>
      rw [checkDisjoint, ite_error_eq_ok, ih]
      constructor
      · rintro ⟨hle, h⟩ lo _ hstart
        refine ⟨hstart m rfl, h m.stop hhi.1 ?_⟩
        rintro _ ⟨⟩
        exact Nat.le_of_not_lt hle
      · intro h
        have hcons := h (min m.start hi) (min_le_right _ _) (by rintro _ ⟨⟩; exact min_le_left _ _)
        have hle : m.stop ≤ m'.start := hcons.2.1
        refine ⟨Nat.not_lt.mpr hle, ?_⟩
        intro lo _ hstart
        exact ⟨hstart m' rfl, hcons.2.2⟩

/-! ## Matching -/

/-- The region of an edit whose old text occurs: its first occurrence. -/
def regionOf (content : JsString) (edit : Edit) : Region UInt16 :=
  ⟨(indexOf edit.oldText content).getD 0, edit.oldText.length, normalizeToLF edit.newText⟩

/-- The old text of every edit occurs in the content as it is. -/
def Verbatim (content : JsString) (edits : List Edit) : Prop :=
  ∀ e ∈ edits, ∃ i, OccursAt e.oldText content i

theorem exists_indexOf (h : ∃ i, OccursAt edit.oldText content i) :
    ∃ i, indexOf edit.oldText content = some i ∧ OccursAt edit.oldText content i := by
  rcases h with ⟨j, hj⟩
  cases hi : indexOf edit.oldText content with
  | none => exact absurd hj (indexOf_eq_none hi j)
  | some i => exact ⟨i, rfl, (indexOf_eq_some hi).1⟩

theorem fuzzyFindText_of_occurs (h : ∃ i, OccursAt edit.oldText content i) :
    fuzzyFindText nfkc content edit.oldText =
      some ⟨(regionOf content edit).start, (regionOf content edit).length, false⟩ := by
  rcases exists_indexOf h with ⟨i, hi, -⟩
  simp only [fuzzyFindText, regionOf, hi, Option.getD_some]

theorem stop_regionOf_le (h : ∃ i, OccursAt edit.oldText content i) : (regionOf content edit).stop ≤ content.length := by
  rcases exists_indexOf h with ⟨i, hi, hocc⟩
  simp only [regionOf, Region.stop, hi, Option.getD_some]
  exact hocc.le_length

theorem normalizeEdit_oldText (hlf : 13 ∉ content) (h : ∃ i, OccursAt edit.oldText content i) :
    (normalizeEdit edit).oldText = edit.oldText := by
  rcases h with ⟨i, hi⟩
  exact normalizeToLF_of_not_mem (not_mem_of_occursAt hi hlf)

/-- The loop finds every edit at its region, or rejects one that it counts twice. -/
theorem matchEditsFrom_eq_ok (hlf : 13 ∉ content) (h : Verbatim content edits) {total i : ℕ} {ms : List MatchedEdit} :
    matchEditsFrom nfkc path total content i (edits.map normalizeEdit) = .ok ms →
      (∀ e ∈ edits, countOccurrences nfkc content e.oldText ≤ 1) ∧
        ms.map MatchedEdit.toRegion = edits.map (regionOf content) := by
  induction edits generalizing i ms with
  | nil =>
    rintro ⟨⟩
    exact ⟨by simp, rfl⟩
  | cons e edits ih =>
    intro hms
    have he := h e (List.mem_cons_self ..)
    rcases bind_eq_ok.mp hms with ⟨m, hm, hrest⟩
    rcases bind_eq_ok.mp hrest with ⟨ms', hms', hret⟩
    cases hret
    rcases ih (fun e' he' => h e' (List.mem_cons_of_mem _ he')) hms' with ⟨hcount, hregions⟩
    simp only [matchEdit, normalizeEdit_oldText hlf he, fuzzyFindText_of_occurs he, ite_error_eq_ok] at hm
    rcases hm with ⟨hle, hm⟩
    cases hm
    refine ⟨List.forall_mem_cons.mpr ⟨not_lt.mp hle, hcount⟩, ?_⟩
    rw [List.map_cons, List.map_cons, hregions]
    rfl

theorem exists_matchEditsFrom (hlf : 13 ∉ content) (h : Verbatim content edits)
    (hcount : ∀ e ∈ edits, countOccurrences nfkc content e.oldText ≤ 1) (total i : ℕ) :
    ∃ ms, matchEditsFrom nfkc path total content i (edits.map normalizeEdit) = .ok ms := by
  induction edits generalizing i with
  | nil => exact ⟨[], rfl⟩
  | cons e edits ih =>
    rw [List.forall_mem_cons] at hcount
    have he := h e (List.mem_cons_self ..)
    rcases ih (fun e' he' => h e' (List.mem_cons_of_mem _ he')) hcount.2 (i + 1) with ⟨ms, hms⟩
    refine ⟨⟨regionOf content e, i⟩ :: ms, ?_⟩
    simp only [List.map_cons, matchEditsFrom, matchEdit, normalizeEdit_oldText hlf he, fuzzyFindText_of_occurs he,
      if_neg (not_lt.mpr hcount.1), ok_bind, hms]
    rfl

/-! ## Order -/

theorem sortByIndex_perm {β : Type*} (index : β → ℕ) (l : List β) : (sortByIndex index l).Perm l :=
  List.perm_insertionSort _ l

theorem sortByIndex_pairwise {β : Type*} (index : β → ℕ) (l : List β) :
    (sortByIndex index l).Pairwise fun a b => index a ≤ index b := by
  have htotal : Std.Total fun a b : β => index a ≤ index b := ⟨fun a b => le_total _ _⟩
  have htrans : IsTrans β fun a b => index a ≤ index b := ⟨fun a b c => le_trans⟩
  exact List.pairwise_insertionSort _ l

/-! ## Accepted edits -/

/-- The regions of the edits, in the order in which they follow one another. -/
def Regions (content : JsString) (edits : List Edit) (rs : List (Region UInt16)) : Prop :=
  rs.Perm (edits.map (regionOf content)) ∧ Consecutive 0 content.length rs

/-- Sorting the matched edits puts their regions in the order in which they can follow one another. -/
theorem map_toRegion_sortByIndex (hpos : ∀ e ∈ edits, e.oldText ≠ []) {ms : List MatchedEdit}
    (hms : ms.map MatchedEdit.toRegion = edits.map (regionOf content)) {rs : List (Region UInt16)}
    (hrs : Regions content edits rs) :
    (sortByIndex (fun m : MatchedEdit => m.start) ms).map MatchedEdit.toRegion = rs := by
  have hperm : ((sortByIndex (fun m : MatchedEdit => m.start) ms).map MatchedEdit.toRegion).Perm rs :=
    (((sortByIndex_perm _ ms).map _).trans (hms ▸ List.Perm.refl _)).trans hrs.1.symm
  have hlen : ∀ r ∈ rs, 0 < r.length := by
    intro r hr
    rcases List.mem_map.mp (hrs.1.mem_iff.mp hr) with ⟨e, he, rfl⟩
    exact List.length_pos_iff.mpr (hpos e he)
  have hstrict := hrs.2.pairwise_start hlen
  -- both are sorted by their starts, and no two starts of `rs` are equal
  have hsorted : ((sortByIndex (fun m : MatchedEdit => m.start) ms).map MatchedEdit.toRegion).Pairwise
      fun a b => a.start ≤ b.start := by
    rw [List.pairwise_map]
    exact sortByIndex_pairwise _ ms
  have hnodup : (rs.map Region.start).Nodup := by
    rw [List.Nodup, List.pairwise_map]
    exact hstrict.imp fun h => h.ne
  refine List.Perm.eq_of_pairwise ?_ hsorted (hstrict.imp le_of_lt) hperm
  intro a b ha hb hab hba
  exact List.inj_on_of_nodup_map hnodup (hperm.mem_iff.mp ha) hb (le_antisymm hab hba)

/-- In the content itself everything is found exactly. -/
theorem matchEdits_eq (hlf : 13 ∉ content) (h : Verbatim content edits) :
    matchEdits nfkc content edits path = (do
      checkNotEmpty path (edits.map normalizeEdit).length 0 (edits.map normalizeEdit)
      let ms ← matchEditsFrom nfkc path (edits.map normalizeEdit).length content 0 (edits.map normalizeEdit)
      checkDisjoint path (sortByIndex (fun m => m.start) ms)
      return ⟨false, content, sortByIndex (fun m => m.start) ms⟩) := by
  have hexact : ((edits.map normalizeEdit).any fun edit =>
      ((fuzzyFindText nfkc content edit.oldText).map FuzzyMatchResult.usedFuzzyMatch).getD false) = false := by
    rw [List.any_eq_false]
    intro e he
    rcases List.mem_map.mp he with ⟨e', he', rfl⟩
    rw [normalizeEdit_oldText hlf (h e' he'), fuzzyFindText_of_occurs (h e' he')]
    simp
  simp only [matchEdits, hexact]
  rfl

theorem checkNotEmpty_normalizeEdit (hlf : 13 ∉ content) (h : Verbatim content edits) {total : ℕ} :
    checkNotEmpty path total 0 (edits.map normalizeEdit) = .ok () ↔ ∀ e ∈ edits, e.oldText ≠ [] := by
  rw [checkNotEmpty_eq_ok, List.forall_mem_map]
  constructor
  · intro hall e he
    rw [← normalizeEdit_oldText hlf (h e he)]
    exact hall e he
  · intro hall e he
    rw [normalizeEdit_oldText hlf (h e he)]
    exact hall e he

theorem replaceMatched_exact (base : JsString) (ms : List MatchedEdit) :
    replaceMatched content ⟨false, base, ms⟩ = .ok (applyReplacements base (ms.map MatchedEdit.toRegion) 0) := rfl

/-- Edits that occur verbatim are accepted exactly when their checks pass, and their regions are replaced. -/
theorem apply_eq_ok_iff (hlf : 13 ∉ content) (h : Verbatim content edits) {out : JsString} :
    applyEditsToNormalizedContent nfkc content edits path = .ok out ↔
      (∀ e ∈ edits, e.oldText ≠ [] ∧ countOccurrences nfkc content e.oldText ≤ 1) ∧
        ∃ rs, Regions content edits rs ∧ out = replaceRegions 0 rs content ∧ content ≠ out := by
  have hreplace : ∀ {rs : List (Region UInt16)}, Regions content edits rs →
      applyReplacements content rs 0 = replaceRegions 0 rs content := by
    intro rs hrs
    have hsplice := foldr_spliceAt (Nat.zero_le 0) hrs.2 (Nat.le_add_left _ 0)
    simpa [applyReplacements] using hsplice
  constructor
  · intro happly
    rcases bind_eq_ok.mp happly with ⟨matched, hmatched, hrest⟩
    rw [matchEdits_eq hlf h] at hmatched
    rcases bind_eq_ok.mp hmatched with ⟨⟨⟩, hempty, hmatched⟩
    rcases bind_eq_ok.mp hmatched with ⟨ms, hms, hmatched⟩
    rcases bind_eq_ok.mp hmatched with ⟨⟨⟩, hdisjoint, hret⟩
    cases hret
    rcases matchEditsFrom_eq_ok hlf h hms with ⟨hcount, hregions⟩
    have hpos := (checkNotEmpty_normalizeEdit hlf h).mp hempty
    have hperm : ((sortByIndex (fun m : MatchedEdit => m.start) ms).map MatchedEdit.toRegion).Perm
        (edits.map (regionOf content)) := hregions ▸ (sortByIndex_perm _ ms).map _
    have hstop : ∀ m ∈ sortByIndex (fun m : MatchedEdit => m.start) ms, m.stop ≤ content.length := by
      intro m hm
      have hmem := hperm.mem_iff.mp (List.mem_map_of_mem hm)
      rcases List.mem_map.mp hmem with ⟨e, he, heq⟩
      rw [← heq]
      exact stop_regionOf_le (h e he)
    have hrs : Regions content edits ((sortByIndex (fun m : MatchedEdit => m.start) ms).map MatchedEdit.toRegion) :=
      ⟨hperm, (checkDisjoint_eq_ok hstop).mp hdisjoint 0 (Nat.zero_le _) fun _ _ => Nat.zero_le _⟩
    refine ⟨fun e he => ⟨hpos e he, hcount e he⟩, _, hrs, ?_⟩
    rcases bind_eq_ok.mp hrest with ⟨newContent, hnew, hout⟩
    rw [ite_error_eq_ok] at hout
    cases hout.2
    rw [replaceMatched_exact] at hnew
    cases hnew
    exact ⟨hreplace hrs, hout.1⟩
  · rintro ⟨hchecks, rs, hrs, rfl, hne⟩
    rcases exists_matchEditsFrom hlf h (fun e he => (hchecks e he).2) (edits.map normalizeEdit).length 0 with
      ⟨ms, hms⟩
    have hregions := (matchEditsFrom_eq_ok hlf h hms).2
    have hsorted := map_toRegion_sortByIndex (fun e he => (hchecks e he).1) hregions hrs
    have hempty : checkNotEmpty path (edits.map normalizeEdit).length 0 (edits.map normalizeEdit) = .ok () :=
      (checkNotEmpty_normalizeEdit hlf h).mpr fun e he => (hchecks e he).1
    have hdisjoint : checkDisjoint path (sortByIndex (fun m => m.start) ms) = .ok () := by
      have hstop : ∀ m ∈ sortByIndex (fun m : MatchedEdit => m.start) ms, m.stop ≤ content.length := by
        intro m hm
        exact (hrs.2.forall_mem m.toRegion (hsorted ▸ List.mem_map_of_mem hm)).2
      rw [checkDisjoint_eq_ok hstop]
      intro lo hlo hstart
      rw [hsorted]
      apply hrs.2.of_head hlo
      intro r hr
      rw [← hsorted, List.head?_map] at hr
      rcases Option.map_eq_some_iff.mp hr with ⟨m, hm, rfl⟩
      exact hstart m hm
    have hmatched : matchEdits nfkc content edits path = .ok ⟨false, content, sortByIndex (fun m => m.start) ms⟩ := by
      rw [matchEdits_eq hlf h]
      exact bind_eq_ok.mpr ⟨(), hempty, bind_eq_ok.mpr ⟨ms, hms, bind_eq_ok.mpr ⟨(), hdisjoint, rfl⟩⟩⟩
    refine bind_eq_ok.mpr ⟨_, hmatched, bind_eq_ok.mpr ⟨replaceRegions 0 rs content, ?_, ?_⟩⟩
    · rw [replaceMatched_exact, hsorted, hreplace hrs]
    · rw [if_neg hne]

/-! ## The order of the edits and their number -/

theorem Verbatim.perm {edits' : List Edit} (h : Verbatim content edits) (hperm : edits'.Perm edits) :
    Verbatim content edits' :=
  fun e he => h e (hperm.mem_iff.mp he)

/-- The result does not depend on the order of the edits. -/
theorem apply_perm (hlf : 13 ∉ content) (h : Verbatim content edits) {edits' : List Edit}
    (hperm : edits'.Perm edits) {out : JsString}
    (happly : applyEditsToNormalizedContent nfkc content edits path = .ok out) :
    applyEditsToNormalizedContent nfkc content edits' path = .ok out := by
  rcases (apply_eq_ok_iff hlf h).mp happly with ⟨hchecks, rs, ⟨hrs, hcons⟩, hout⟩
  refine (apply_eq_ok_iff hlf (h.perm hperm)).mpr ⟨fun e he => hchecks e (hperm.mem_iff.mp he), rs, ?_, hout⟩
  exact ⟨hrs.trans (hperm.map _).symm, hcons⟩

/-- What exact edits promise of the content they return. -/
def ChangesExactly (nfkc : JsString → JsString) (content : JsString) (edits : List Edit) (path : JsString) : Prop :=
  ∀ out, applyEditsToNormalizedContent nfkc content edits path = .ok out →
    (∀ e ∈ edits, ∃! i, OccursAt e.oldText content i) ∧
      (∃ rs, Regions content edits rs ∧ out = replaceRegions 0 rs content) ∧
      ∀ edits', edits'.Perm edits → applyEditsToNormalizedContent nfkc content edits' path = .ok out

/-- An old text occurs twice, but no old text is counted twice, the first occurrences do not overlap, and
replacing them changes the content. -/
def Miscounted (nfkc : JsString → JsString) (content : JsString) (edits : List Edit) : Prop :=
  (∃ e ∈ edits, ∃ i j, i < j ∧ OccursAt e.oldText content i ∧ OccursAt e.oldText content j) ∧
    (∀ e ∈ edits, e.oldText ≠ [] ∧ countOccurrences nfkc content e.oldText ≤ 1) ∧
    ∃ rs, Regions content edits rs ∧ replaceRegions 0 rs content ≠ content

/-- Exact edits keep their promise unless an occurrence is missed by the count. -/
theorem changesExactly_iff (nfkc : JsString → JsString) (content : JsString) (edits : List Edit) (path : JsString)
    (hlf : 13 ∉ content) (h : Verbatim content edits) :
    ChangesExactly nfkc content edits path ↔ ¬Miscounted nfkc content edits := by
  constructor
  · rintro hchanges ⟨⟨e, he, i, j, hij, hi, hj⟩, hchecks, rs, hrs, hne⟩
    have happly : applyEditsToNormalizedContent nfkc content edits path = .ok (replaceRegions 0 rs content) :=
      (apply_eq_ok_iff hlf h).mpr ⟨hchecks, rs, hrs, rfl, hne.symm⟩
    have hunique := (hchanges _ happly).1 e he
    exact absurd (hunique.unique hi hj) hij.ne
  · intro hcounted out happly
    rcases (apply_eq_ok_iff hlf h).mp happly with ⟨hchecks, rs, hrs, hout, hne⟩
    refine ⟨?_, ⟨rs, hrs, hout⟩, fun edits' hperm => apply_perm hlf h hperm happly⟩
    intro e he
    rcases h e he with ⟨i, hi⟩
    refine ⟨i, hi, fun j hj => ?_⟩
    by_contra hji
    refine hcounted ⟨⟨e, he, ?_⟩, hchecks, rs, hrs, hout ▸ hne.symm⟩
    rcases lt_or_gt_of_ne hji with hlt | hlt
    · exact ⟨j, i, hlt, hj, hi⟩
    · exact ⟨i, j, hlt, hi, hj⟩

/-- Two edits at two ends of a text that hold. -/
theorem changesExactly_two :
    ChangesExactly id (JsString.ofAscii "one two") [⟨JsString.ofAscii "two", JsString.ofAscii "2"⟩,
      ⟨JsString.ofAscii "one", JsString.ofAscii "1"⟩] (JsString.ofAscii "f") ∧
    applyEditsToNormalizedContent id (JsString.ofAscii "one two") [⟨JsString.ofAscii "two", JsString.ofAscii "2"⟩,
      ⟨JsString.ofAscii "one", JsString.ofAscii "1"⟩] (JsString.ofAscii "f") = .ok (JsString.ofAscii "1 2") := by
  have hverbatim : Verbatim (JsString.ofAscii "one two") [⟨JsString.ofAscii "two", JsString.ofAscii "2"⟩,
      ⟨JsString.ofAscii "one", JsString.ofAscii "1"⟩] := by
    intro e he
    simp only [List.mem_cons, List.not_mem_nil, or_false] at he
    rcases he with rfl | rfl
    · exact ⟨4, by decide⟩
    · exact ⟨0, by decide⟩
  refine ⟨(changesExactly_iff _ _ _ _ (by decide) hverbatim).mpr ?_, rfl⟩
  rintro ⟨⟨e, he, i, j, hij, hi, hj⟩, -⟩
  have htwo : ∀ k ≤ 7, OccursAt (JsString.ofAscii "two") (JsString.ofAscii "one two") k → k = 4 := by decide
  have hone : ∀ k ≤ 7, OccursAt (JsString.ofAscii "one") (JsString.ofAscii "one two") k → k = 0 := by decide
  simp only [List.mem_cons, List.not_mem_nil, or_false] at he
  rcases he with rfl | rfl
  · have := htwo i hi.1 hi
    have := htwo j hj.1 hj
    omega
  · have := hone i hi.1 hi
    have := hone j hj.1 hj
    omega

/-- In `aaa` the text `aa` occurs twice, is counted once, and is replaced. -/
theorem overlapping_occurrences_accepted :
    Verbatim (JsString.ofAscii "aaa") [⟨JsString.ofAscii "aa", JsString.ofAscii "b"⟩] ∧
      applyEditsToNormalizedContent id (JsString.ofAscii "aaa") [⟨JsString.ofAscii "aa", JsString.ofAscii "b"⟩]
        (JsString.ofAscii "f") = .ok (JsString.ofAscii "ba") ∧
      ¬ChangesExactly id (JsString.ofAscii "aaa") [⟨JsString.ofAscii "aa", JsString.ofAscii "b"⟩]
        (JsString.ofAscii "f") := by
  have happly : applyEditsToNormalizedContent id (JsString.ofAscii "aaa")
      [⟨JsString.ofAscii "aa", JsString.ofAscii "b"⟩] (JsString.ofAscii "f") = .ok (JsString.ofAscii "ba") := rfl
  refine ⟨?_, happly, fun hchanges => ?_⟩
  · intro e he
    rw [List.mem_singleton.mp he]
    exact ⟨0, by decide⟩
  · have hunique := (hchanges _ happly).1 _ (List.mem_singleton.mpr rfl)
    have heq : (0 : ℕ) = 1 := hunique.unique (by decide) (by decide)
    exact absurd heq (by decide)

end Phi.Edit
