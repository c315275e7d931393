import Phi.Data.Lines
import Phi.Edit.EditDiff

/-!
# Normalising a text for fuzzy matching

What is relied on of Unicode NFKC is `IsNFKC`: it is idempotent, it neither adds nor removes line feeds, and, of
the documented properties of normalisation, that a substring of a normal text is normal and that the line feed and
the four characters put in by `normalizeForFuzzyMatch` do not combine with their neighbours. It follows that
normalising works line by line and that doing it twice changes nothing.
-/

namespace Phi.Edit

/-- The units that combine with nothing: the line feed, the apostrophe, the quotation mark, the hyphen, the space. -/
def inertUnits : List UInt16 := [lf, 39, 34, 45, 32]

structure IsNFKC (nfkc : JsString → JsString) : Prop where
  nil : nfkc [] = []
  idempotent : ∀ text, nfkc (nfkc text) = nfkc text
  no_lf : ∀ text, lf ∉ text → lf ∉ nfkc text
  inert : ∀ u ∈ inertUnits, ∀ before after, nfkc (before ++ u :: after) = nfkc before ++ u :: nfkc after
  substring : ∀ before u after, ¬(0xD800 ≤ u ∧ u ≤ 0xDFFF) → nfkc (before ++ u :: after) = before ++ u :: after →
    nfkc before = before ∧ nfkc after = after

theorem isNFKC_id : IsNFKC id where
  nil := rfl
  idempotent _ := rfl
  no_lf _ h := h
  inert _ _ _ _ := rfl
  substring _ _ _ _ _ := ⟨rfl, rfl⟩

variable {nfkc : JsString → JsString}

/-! ## Single units -/

/-- What the four replacements make of a unit. -/
def replaceUnit (u : UInt16) : UInt16 :=
  if isSingleQuote u then 39 else if isDoubleQuote u then 34 else if isDash u then 45
  else if isSpecialSpace u then 32 else u

theorem replaceClass_eq (text : JsString) :
    replaceClass isSpecialSpace 32
      (replaceClass isDash 45 (replaceClass isDoubleQuote 34 (replaceClass isSingleQuote 39 text)))
        = text.map replaceUnit := by
  simp only [replaceClass, List.map_map]
  apply List.map_congr_left
  intro u _
  simp only [Function.comp_apply, replaceUnit]
  by_cases h1 : isSingleQuote u
  · simp [h1, show isDoubleQuote 39 = false by decide, show isDash 39 = false by decide,
      show isSpecialSpace 39 = false by decide]
  · by_cases h2 : isDoubleQuote u
    · simp [h1, h2, show isDash 34 = false by decide, show isSpecialSpace 34 = false by decide]
    · by_cases h3 : isDash u
      · simp [h1, h2, h3, show isSpecialSpace 45 = false by decide]
      · simp [h1, h2, h3]

/-- A unit is left as it is, or it is no surrogate and becomes one that combines with nothing; it is not made
white space unless it was. -/
theorem replaceUnit_cases (u : UInt16) : replaceUnit u = u ∨
    (replaceUnit u ∈ inertUnits ∧ replaceUnit u ≠ lf ∧ ¬(0xD800 ≤ u ∧ u ≤ 0xDFFF) ∧
      (isWhiteSpace (replaceUnit u) = true → isWhiteSpace u = true)) := by
  unfold replaceUnit
  split
  · rename_i h
    simp only [isSingleQuote, List.mem_cons, List.not_mem_nil, or_false, decide_eq_true_eq] at h
    rcases h with rfl | rfl | rfl | rfl <;> exact .inr (by decide)
  split
  · rename_i h
    simp only [isDoubleQuote, List.mem_cons, List.not_mem_nil, or_false, decide_eq_true_eq] at h
    rcases h with rfl | rfl | rfl | rfl <;> exact .inr (by decide)
  split
  · rename_i h
    simp only [isDash, List.mem_cons, List.not_mem_nil, or_false, decide_eq_true_eq] at h
    rcases h with rfl | rfl | rfl | rfl | rfl | rfl | rfl <;> exact .inr (by decide)
  split
  · rename_i h
    simp only [isSpecialSpace, List.mem_cons, List.not_mem_nil, or_false, Bool.or_eq_true, decide_eq_true_eq,
      Bool.and_eq_true] at h
    rcases h with (rfl | rfl | rfl | rfl) | ⟨hlo, hhi⟩
    · exact .inr (by decide)
    · exact .inr (by decide)
    · exact .inr (by decide)
    · exact .inr (by decide)
    · refine .inr ⟨by decide, by decide, ?_, fun _ => ?_⟩
      · rintro ⟨hsurrogate, -⟩
        exact absurd (UInt16.le_trans hsurrogate hhi) (by decide)
      · have h2000 : (0x2000 : UInt16) ≤ u := UInt16.le_trans (by decide) hlo
        simp [isWhiteSpace, h2000, hhi]
  · exact .inl rfl

theorem replaceUnit_of_mem_inertUnits {u : UInt16} (h : u ∈ inertUnits) : replaceUnit u = u := by
  simp only [inertUnits, List.mem_cons, List.not_mem_nil, or_false] at h
  rcases h with rfl | rfl | rfl | rfl | rfl <;> decide

theorem replaceUnit_replaceUnit (u : UInt16) : replaceUnit (replaceUnit u) = replaceUnit u := by
  rcases replaceUnit_cases u with h | h
  · rw [h, h]
  · exact replaceUnit_of_mem_inertUnits h.1

theorem isWhiteSpace_replaceUnit {u : UInt16} (h : isWhiteSpace (replaceUnit u) = true) :
    isWhiteSpace u = true := by
  rcases replaceUnit_cases u with hu | hu
  · rwa [hu] at h
  · exact hu.2.2.2 h

theorem replaceUnit_ne_lf {u : UInt16} (h : u ≠ lf) : replaceUnit u ≠ lf := by
  rcases replaceUnit_cases u with hu | hu
  · rwa [hu]
  · exact hu.2.1

theorem not_surrogate_of_isWhiteSpace {u : UInt16} (h : isWhiteSpace u = true) : ¬(0xD800 ≤ u ∧ u ≤ 0xDFFF) := by
  simp only [isWhiteSpace, List.mem_cons, List.not_mem_nil, or_false, Bool.or_eq_true, decide_eq_true_eq,
    Bool.and_eq_true] at h
  rcases h with h | ⟨-, hhi⟩
  · rcases h with rfl | rfl | rfl | rfl | rfl | rfl | rfl | rfl | rfl | rfl | rfl | rfl | rfl | rfl <;> decide
  · rintro ⟨hsurrogate, -⟩
    exact absurd (UInt16.le_trans hsurrogate hhi) (by decide)

/-! ## Lines -/

/-- The normal form of a line, without its line feed. -/
def normalizeLine (nfkc : JsString → JsString) (line : JsString) : JsString :=
  (trimEnd (nfkc line)).map replaceUnit

theorem lf_not_mem_normalizeLine (h : IsNFKC nfkc) {line : JsString} (hline : lf ∉ line) :
    lf ∉ normalizeLine nfkc line := by
  intro hmem
  rcases List.mem_map.mp hmem with ⟨u, hu, heq⟩
  have hne : u ≠ lf := by
    rintro rfl
    exact h.no_lf line hline ((List.rdropWhile_prefix _ _).subset hu)
  exact replaceUnit_ne_lf hne heq

theorem normal_trimEnd (h : IsNFKC nfkc) {text : JsString} (htext : nfkc text = text) :
    nfkc (trimEnd text) = trimEnd text := by
  have hsplit : text.rdropWhile isWhiteSpace ++ text.rtakeWhile isWhiteSpace = text :=
    List.rdropWhile_append_rtakeWhile
  cases htail : text.rtakeWhile isWhiteSpace with
  | nil =>
    rw [htail, List.append_nil] at hsplit
    rw [trimEnd, hsplit, htext]
  | cons u rest =>
    have hspace : isWhiteSpace u = true := List.mem_rtakeWhile_imp (htail ▸ List.mem_cons_self ..)
    rw [htail] at hsplit
    rw [← hsplit] at htext
    exact (h.substring _ u rest (not_surrogate_of_isWhiteSpace hspace) htext).1

/-- Putting in units that combine with nothing keeps a text normal. -/
theorem normal_map_replaceUnit (h : IsNFKC nfkc) {text : JsString} (htext : nfkc text = text) :
    nfkc (text.map replaceUnit) = text.map replaceUnit := by
  induction hn : text.length using Nat.strong_induction_on generalizing text with
  | _ n ih =>
    by_cases hall : ∀ u ∈ text, replaceUnit u = u
    · rw [List.map_congr_left hall]
      simpa using htext
    · push Not at hall
      rcases hall with ⟨u, hu, hne⟩
      rcases (replaceUnit_cases u).resolve_left hne with ⟨hinert, -, hsurrogate, -⟩
      rcases List.append_of_mem hu with ⟨before, after, rfl⟩
      rcases h.substring before u after hsurrogate htext with ⟨hbefore, hafter⟩
      simp only [List.length_append, List.length_cons] at hn
      rw [List.map_append, List.map_cons, h.inert _ hinert, ih before.length (by omega) hbefore rfl,
        ih after.length (by omega) hafter rfl]

theorem trimEnd_map_replaceUnit (text : JsString) :
    trimEnd ((trimEnd text).map replaceUnit) = (trimEnd text).map replaceUnit := by
  rw [trimEnd, List.rdropWhile_eq_self_iff]
  intro hne hspace
  have hne' : text.rdropWhile isWhiteSpace ≠ [] := by
    intro hnil
    exact hne (by rw [trimEnd, hnil]; rfl)
  rw [List.getLast_map] at hspace
  exact List.rdropWhile_last_not _ _ hne' (isWhiteSpace_replaceUnit hspace)

theorem normalizeLine_normalizeLine (h : IsNFKC nfkc) (line : JsString) :
    normalizeLine nfkc (normalizeLine nfkc line) = normalizeLine nfkc line := by
  have hnormal := normal_map_replaceUnit h (normal_trimEnd h (h.idempotent line))
  unfold normalizeLine
  rw [hnormal, trimEnd_map_replaceUnit, List.map_map]
  exact List.map_congr_left fun u _ => replaceUnit_replaceUnit u

/-! ## Texts -/

theorem nfkc_intercalate (h : IsNFKC nfkc) (lines : List JsString) :
    nfkc ([lf].intercalate lines) = [lf].intercalate (lines.map nfkc) := by
  induction lines with
  | nil => exact h.nil
  | cons line lines ih =>
    cases lines with
    | nil => simp
    | cons line' lines =>
      simp only [List.map_cons, List.intercalate_cons_cons, List.append_assoc, List.singleton_append] at ih ⊢
      rw [h.inert lf (List.mem_cons_self ..), ih]

theorem map_intercalate (f : UInt16 → UInt16) (hf : f lf = lf) (lines : List JsString) :
    ([lf].intercalate lines).map f = [lf].intercalate (lines.map (List.map f)) := by
  induction lines with
  | nil => rfl
  | cons line lines ih =>
    cases lines with
    | nil => simp
    | cons line' lines =>
      simp only [List.map_cons, List.intercalate_cons_cons, List.map_append, List.map_nil, hf] at ih ⊢
      rw [ih]

/-- Normalising works line by line. -/
theorem normalize_intercalate (h : IsNFKC nfkc) {lines : List JsString} (hne : lines ≠ [])
    (hlf : ∀ line ∈ lines, lf ∉ line) :
    normalizeForFuzzyMatch nfkc ([lf].intercalate lines) = [lf].intercalate (lines.map (normalizeLine nfkc)) := by
  have hsplit : ([lf].intercalate (lines.map nfkc)).splitOn lf = lines.map nfkc := by
    apply List.splitOn_intercalate lf
    · intro line hline
      rcases List.mem_map.mp hline with ⟨line, hline', rfl⟩
      exact h.no_lf line (hlf line hline')
    · simpa using hne
  simp only [normalizeForFuzzyMatch, replaceClass_eq, nfkc_intercalate h, hsplit]
  rw [map_intercalate replaceUnit rfl, List.map_map, List.map_map]
  rfl

/-- Every text is made of lines. -/
theorem exists_intercalate (text : JsString) :
    ∃ lines : List JsString, lines ≠ [] ∧ (∀ line ∈ lines, lf ∉ line) ∧ text = [lf].intercalate lines := by
  rcases exists_unlines lf text with ⟨ls, last, rfl, hls, hlast⟩
  refine ⟨ls ++ [last], by simp, ?_, ?_⟩
  · intro line hline
    rcases List.mem_append.mp hline with hline | hline
    · exact hls line hline
    · rw [List.mem_singleton.mp hline]
      exact hlast
  · clear hls
    induction ls with
    | nil => simp
    | cons l ls ih =>
      rw [List.cons_append, List.intercalate_cons_of_ne_nil (by simp), ← ih, unlines_cons]
      simp

/-- Normalising twice changes nothing. -/
theorem normalize_normalize (h : IsNFKC nfkc) (text : JsString) :
    normalizeForFuzzyMatch nfkc (normalizeForFuzzyMatch nfkc text) = normalizeForFuzzyMatch nfkc text := by
  rcases exists_intercalate text with ⟨lines, hne, hlf, rfl⟩
  rw [normalize_intercalate h hne hlf, normalize_intercalate h (by simpa using hne), List.map_map]
  · congr 1
    exact List.map_congr_left fun line _ => normalizeLine_normalizeLine h line
  · intro line hline
    rcases List.mem_map.mp hline with ⟨line, hline', rfl⟩
    exact lf_not_mem_normalizeLine h (hlf line hline')

/-! ## Lines with their endings -/

/-- The lines with their line feeds; the last line has none, and is no line if it is empty. -/
def withEndings : List JsString → List JsString
  | [] => []
  | [line] => if line = [] then [] else [line]
  | line :: lines => (line ++ [lf]) :: withEndings lines

theorem splitLines_append {line rest : JsString} (hline : lf ∉ line) :
    splitLinesWithEndings (line ++ lf :: rest) = (line ++ [lf]) :: splitLinesWithEndings rest := by
  induction line with
  | nil => simp [splitLinesWithEndings]
  | cons u line ih =>
    simp only [List.mem_cons, not_or] at hline
    rw [List.cons_append, splitLinesWithEndings, if_neg (Ne.symm hline.1), ih hline.2]
    rfl

theorem splitLines_of_not_mem {line : JsString} (hline : lf ∉ line) :
    splitLinesWithEndings line = if line = [] then [] else [line] := by
  induction line with
  | nil => rfl
  | cons u line ih =>
    simp only [List.mem_cons, not_or] at hline
    rw [splitLinesWithEndings, if_neg (Ne.symm hline.1), ih hline.2]
    cases line <;> rfl

theorem splitLines_intercalate {lines : List JsString} (hlf : ∀ line ∈ lines, lf ∉ line) :
    splitLinesWithEndings ([lf].intercalate lines) = withEndings lines := by
  induction lines with
  | nil => rfl
  | cons line lines ih =>
    rw [List.forall_mem_cons] at hlf
    cases lines with
    | nil =>
      rw [List.intercalate_singleton, splitLines_of_not_mem hlf.1]
      rfl
    | cons line' lines =>
      rw [List.intercalate_cons_cons, List.append_assoc, List.singleton_append, splitLines_append hlf.1, ih hlf.2]
      rfl

theorem flatten_splitLines (text : JsString) : (splitLinesWithEndings text).flatten = text := by
  induction text with
  | nil => rfl
  | cons u text ih =>
    rw [splitLinesWithEndings]
    split
    · rename_i hu
      rw [List.flatten_cons, ih, hu]
      rfl
    · split
      · rename_i hnil
        rw [hnil] at ih
        simp [← ih]
      · rename_i line lines hlines
        rw [hlines] at ih
        rw [List.flatten_cons, List.cons_append, ← List.flatten_cons, ih]

end Phi.Edit
