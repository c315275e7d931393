import Phi.Tui.AnsiStyle

/-!
# The tracker of active codes

Through listed codes `AnsiCodeTracker` keeps the style of the terminal (`style_process`). Its active codes bring the
terminal from the default style to that one (`styleAfter_getActiveCodes`), and what it writes at the end of a line takes
the underline and the hyperlink away (`styleAfter_getLineEndReset`).
-/

namespace Phi.Tui.Ansi

/-! ## Effects of parameters -/

theorem sgr_single {code : ℕ} (h38 : code ≠ 38) (h48 : code ≠ 48) (params : List ℕ) (s : Style) :
    Style.sgr (code :: params) s = Style.sgr params (s.setAttribute code) := by
  simp [Style.sgr, h38, h48]

theorem processParts_drop (skip : ℕ) (parts : List JsString) (t : AnsiCodeTracker) :
    AnsiCodeTracker.processParts skip parts t = AnsiCodeTracker.processParts 0 (parts.drop skip) t := by
  induction skip generalizing parts with
  | zero => rfl
  | succ skip ih =>
    cases parts with
    | nil => rfl
    | cons part parts => exact ih parts

theorem isAttribute_cases {code : ℕ} (h : isAttribute code = true) :
    code ∈ [0, 1, 2, 3, 4, 5, 7, 8, 9, 21, 22, 23, 24, 25, 27, 28, 29, 39, 49] ∨
      ((30 ≤ code ∧ code ≤ 37) ∨ (90 ≤ code ∧ code ≤ 97)) ∨ (40 ≤ code ∧ code ≤ 47) ∨ (100 ≤ code ∧ code ≤ 107) := by
  simp only [isAttribute, Bool.or_eq_true, Bool.and_eq_true, decide_eq_true_eq] at h
  rcases h with (((h | h) | h) | h) | h
  · exact .inl h
  · exact .inr (.inl (.inl h))
  · exact .inr (.inl (.inr h))
  · exact .inr (.inr (.inl h))
  · exact .inr (.inr (.inr h))

theorem ne_of_isAttribute {code : ℕ} (h : isAttribute code = true) : code ≠ 38 ∧ code ≠ 48 := by
  constructor <;> rintro rfl <;> exact absurd h (by decide)

theorem parseInt_of_isNumber {part : JsString} (h : IsNumber part) : parseInt part = some (digitsValue part) := if_neg h.1

/-! ## The style of a tracker -/

def colourOf (color : JsString) : Option Colour :=
  match (color.splitOn 59).map digitsValue with
  | [code] => some (.standard code)
  | [_, 5, n] => some (.indexed n)
  | [_, 2, r, g, b] => some (.rgb r g b)
  | _ => none

/-- The style that a tracker has followed. -/
def AnsiCodeTracker.style (t : AnsiCodeTracker) : Style where
  bold := t.bold
  dim := t.dim
  italic := t.italic
  underline := t.underline
  blink := t.blink
  inverse := t.inverse
  hidden := t.hidden
  strikethrough := t.strikethrough
  fg := t.fgColor.bind colourOf
  bg := t.bgColor.bind colourOf
  link := t.activeHyperlink.map fun h => (h.params, h.url)

theorem isNumber_numberText (n : ℕ) : IsNumber (numberText n) :=
  ⟨numberText_ne_nil n, fun _ hu => isDigit_of_mem_numberText hu⟩

theorem splitOn_of_isNumber {part : JsString} (h : IsNumber part) : part.splitOn 59 = [part] := by
  have hsplit := splitOn_joinParams (List.cons_ne_nil part []) (by simpa using h)
  rwa [joinParams_cons, List.flatMap_nil, List.append_nil] at hsplit

theorem colourOf_numberText (code : ℕ) : colourOf (numberText code) = some (.standard code) := by
  rw [colourOf, splitOn_of_isNumber (isNumber_numberText code), List.map_singleton, digitsValue_numberText]

theorem processCode_foreground {code : ℕ} (h : (30 ≤ code ∧ code ≤ 37) ∨ (90 ≤ code ∧ code ≤ 97)) (t : AnsiCodeTracker) :
    t.processCode code = { t with fgColor := some (numberText code) } := by
  rcases h with ⟨hlo, hhi⟩ | ⟨hlo, hhi⟩ <;> interval_cases code <;> rfl

theorem processCode_background {code : ℕ} (h : (40 ≤ code ∧ code ≤ 47) ∨ (100 ≤ code ∧ code ≤ 107))
    (t : AnsiCodeTracker) : t.processCode code = { t with bgColor := some (numberText code) } := by
  rcases h with ⟨hlo, hhi⟩ | ⟨hlo, hhi⟩ <;> interval_cases code <;> rfl

theorem setAttribute_foreground {code : ℕ} (h : (30 ≤ code ∧ code ≤ 37) ∨ (90 ≤ code ∧ code ≤ 97)) (s : Style) :
    s.setAttribute code = { s with fg := some (.standard code) } := by
  rcases h with ⟨hlo, hhi⟩ | ⟨hlo, hhi⟩ <;> interval_cases code <;> rfl

theorem setAttribute_background {code : ℕ} (h : (40 ≤ code ∧ code ≤ 47) ∨ (100 ≤ code ∧ code ≤ 107)) (s : Style) :
    s.setAttribute code = { s with bg := some (.standard code) } := by
  rcases h with ⟨hlo, hhi⟩ | ⟨hlo, hhi⟩ <;> interval_cases code <;> rfl

theorem style_processCode {code : ℕ} (h : isAttribute code = true) (t : AnsiCodeTracker) :
    (t.processCode code).style = t.style.setAttribute code := by
  rcases isAttribute_cases h with hmem | hfg | hbg
  · simp only [List.mem_cons, List.not_mem_nil, or_false] at hmem
    rcases hmem with rfl | rfl | rfl | rfl | rfl | rfl | rfl | rfl | rfl | rfl | rfl | rfl | rfl | rfl | rfl | rfl | rfl | rfl |
      rfl <;> rfl
  · rw [processCode_foreground hfg, setAttribute_foreground hfg]
    simp [AnsiCodeTracker.style, colourOf_numberText]
  · rw [processCode_background hbg, setAttribute_background hbg]
    simp [AnsiCodeTracker.style, colourOf_numberText]

/-! ## Good trackers -/

/-- The parameters set the foreground, or the background. -/
def setsForeground (parts : List JsString) : Prop :=
  ∃ part rest, parts = part :: rest ∧ (digitsValue part = 38 ∨
    (30 ≤ digitsValue part ∧ digitsValue part ≤ 37) ∨ (90 ≤ digitsValue part ∧ digitsValue part ≤ 97))

def setsBackground (parts : List JsString) : Prop :=
  ∃ part rest, parts = part :: rest ∧ (digitsValue part = 48 ∨
    (40 ≤ digitsValue part ∧ digitsValue part ≤ 47) ∨ (100 ≤ digitsValue part ∧ digitsValue part ≤ 107))

/-- What a tracker has stored has come from listed codes. -/
structure AnsiCodeTracker.Good (t : AnsiCodeTracker) : Prop where
  fgColor : ∀ c, t.fgColor = some c → ∃ parts, ListedParam parts ∧ setsForeground parts ∧ c = joinParams parts
  bgColor : ∀ c, t.bgColor = some c → ∃ parts, ListedParam parts ∧ setsBackground parts ∧ c = joinParams parts
  activeHyperlink : ∀ h, t.activeHyperlink = some h → IsLink h ∧ h.url ≠ []

theorem AnsiCodeTracker.good_default : AnsiCodeTracker.Good {} where
  fgColor := by rintro c ⟨⟩
  bgColor := by rintro c ⟨⟩
  activeHyperlink := by rintro h ⟨⟩

theorem listedParam_numberText {code : ℕ} (h : isAttribute code = true) : ListedParam [numberText code] :=
  .single (isNumber_numberText code) (by rwa [digitsValue_numberText])

theorem joinParams_singleton (part : JsString) : joinParams [part] = part := by
  rw [joinParams_cons, List.flatMap_nil, List.append_nil]

theorem AnsiCodeTracker.Good.processCode {t : AnsiCodeTracker} (h : t.Good) {code : ℕ} (hcode : isAttribute code = true) :
    (t.processCode code).Good := by
  rcases isAttribute_cases hcode with hmem | hfg | hbg
  · simp only [List.mem_cons, List.not_mem_nil, or_false] at hmem
    rcases hmem with rfl | rfl | rfl | rfl | rfl | rfl | rfl | rfl | rfl | rfl | rfl | rfl | rfl | rfl | rfl | rfl | rfl | rfl |
      rfl <;>
      first
      | exact ⟨h.fgColor, h.bgColor, h.activeHyperlink⟩
      | exact ⟨by rintro c ⟨⟩, h.bgColor, h.activeHyperlink⟩
      | exact ⟨h.fgColor, by rintro c ⟨⟩, h.activeHyperlink⟩
      | exact ⟨by rintro c ⟨⟩, by rintro c ⟨⟩, h.activeHyperlink⟩
  · rw [processCode_foreground hfg]
    refine ⟨fun c hc => ?_, h.bgColor, h.activeHyperlink⟩
    obtain rfl : numberText code = c := Option.some.inj hc
    refine ⟨[numberText code], listedParam_numberText hcode, ⟨_, _, rfl, .inr ?_⟩, (joinParams_singleton _).symm⟩
    rwa [digitsValue_numberText]
  · rw [processCode_background hbg]
    refine ⟨h.fgColor, fun c hc => ?_, h.activeHyperlink⟩
    obtain rfl : numberText code = c := Option.some.inj hc
    refine ⟨[numberText code], listedParam_numberText hcode, ⟨_, _, rfl, .inr ?_⟩, (joinParams_singleton _).symm⟩
    rwa [digitsValue_numberText]

/-! ## Colours -/

theorem digitsValue_five : digitsValue (JsString.ofAscii "5") = 5 := rfl

theorem digitsValue_two : digitsValue (JsString.ofAscii "2") = 2 := rfl

theorem colourOf_joinParams {parts : List JsString} (h : ListedParam parts) (hlength : 1 < parts.length) :
    ∃ colour, colourOf (joinParams parts) = some colour ∧ ∀ params s,
      Style.sgr (parts.map digitsValue ++ params) s =
        if parts.head?.map digitsValue = some 38 then Style.sgr params { s with fg := some colour }
        else Style.sgr params { s with bg := some colour } := by
  have hsplit := splitOn_joinParams h.ne_nil h.isNumber
  cases h with
  | single hpart hcode => exact absurd hlength (lt_irrefl 1)
  | @indexed part n hpart hcode hn =>
    refine ⟨.indexed (digitsValue n), ?_, fun params s => ?_⟩
    · rw [colourOf, hsplit]
      rfl
    · simp only [List.map_cons, List.map_nil, List.cons_append, List.nil_append, digitsValue_five, List.head?_cons,
        Option.map_some, Option.some.injEq]
      rcases hcode with hcode | hcode <;> rw [hcode] <;> rfl
  | @rgb part r g b hpart hcode hr hg hb =>
    refine ⟨.rgb (digitsValue r) (digitsValue g) (digitsValue b), ?_, fun params s => ?_⟩
    · rw [colourOf, hsplit]
      rfl
    · simp only [List.map_cons, List.map_nil, List.cons_append, List.nil_append, digitsValue_two, List.head?_cons,
        Option.map_some, Option.some.injEq]
      rcases hcode with hcode | hcode <;> rw [hcode] <;> rfl

theorem colorLength_single {part : JsString} (hpart : IsNumber part) (h38 : digitsValue part ≠ 38)
    (h48 : digitsValue part ≠ 48) (rest : List JsString) : colorLength (part :: rest) = none := by
  simp [colorLength, parseInt_of_isNumber hpart, h38, h48]

theorem colorLength_of_listed {parts : List JsString} (h : ListedParam parts) (hlength : 1 < parts.length)
    (rest : List JsString) : colorLength (parts ++ rest) = some parts.length := by
  cases h with
  | single hpart hcode => exact absurd hlength (lt_irrefl 1)
  | indexed hpart hcode hn => rcases hcode with hcode | hcode <;> simp [colorLength, parseInt_of_isNumber hpart, hcode]
  | rgb hpart hcode hr hg hb =>
    have hother : JsString.ofAscii "2" ≠ JsString.ofAscii "5" := by decide
    rcases hcode with hcode | hcode <;> simp [colorLength, parseInt_of_isNumber hpart, hcode, hother]

/-! ## Codes -/

/-- A tracker behind the parameters that one effect takes. -/
theorem processParts_listedParam {g : List JsString} (hg : ListedParam g) (rest : List JsString) {t : AnsiCodeTracker}
    (ht : t.Good) : ∃ t' : AnsiCodeTracker, t'.Good ∧
      AnsiCodeTracker.processParts 0 (g ++ rest) t = AnsiCodeTracker.processParts 0 rest t' ∧
      ∀ params, Style.sgr (g.map digitsValue ++ params) t.style = Style.sgr params t'.style := by
  by_cases hlength : 1 < g.length
  · rcases colourOf_joinParams hg hlength with ⟨colour, hcolour, hsgr⟩
    have hcolorLength := colorLength_of_listed hg hlength rest
    have hnumber := hg.isNumber
    rcases List.exists_cons_of_ne_nil hg.ne_nil with ⟨part, parts, rfl⟩
    have hpart : IsNumber part := hnumber part (List.mem_cons_self ..)
    have hhead : (part :: parts).head?.map digitsValue = some (digitsValue part) := rfl
    have hrest : (parts ++ rest).drop ((part :: parts).length - 1) = rest := List.drop_left
    have htake : (part :: (parts ++ rest)).take (part :: parts).length = part :: parts :=
      @List.take_left _ (part :: parts) rest
    have hstep : AnsiCodeTracker.processParts 0 (part :: parts ++ rest) t = AnsiCodeTracker.processParts 0 rest
        (if parseInt part = some 38 then { t with fgColor := some (joinParams (part :: parts)) }
        else { t with bgColor := some (joinParams (part :: parts)) }) := by
      rw [List.cons_append] at hcolorLength ⊢
      rw [AnsiCodeTracker.processParts, hcolorLength]
      dsimp only
      rw [processParts_drop, hrest, htake]
    by_cases h38 : digitsValue part = 38
    · refine ⟨{ t with fgColor := some (joinParams (part :: parts)) }, ⟨fun c hc => ?_, ht.bgColor, ht.activeHyperlink⟩, ?_, ?_⟩
      · exact ⟨part :: parts, hg, ⟨part, parts, rfl, .inl h38⟩, (Option.some.inj hc).symm⟩
      · rw [hstep, parseInt_of_isNumber hpart, h38, if_pos rfl]
      · intro params
        rw [hsgr params t.style, hhead, h38, if_pos rfl]
        simp [AnsiCodeTracker.style, hcolour]
    · have h48 : digitsValue part = 48 := by
        cases hg with
        | single _ _ => exact absurd hlength (lt_irrefl 1)
        | indexed _ hcode _ => exact hcode.resolve_left h38
        | rgb _ hcode _ _ _ => exact hcode.resolve_left h38
      refine ⟨{ t with bgColor := some (joinParams (part :: parts)) }, ⟨ht.fgColor, fun c hc => ?_, ht.activeHyperlink⟩, ?_, ?_⟩
      · exact ⟨part :: parts, hg, ⟨part, parts, rfl, .inl h48⟩, (Option.some.inj hc).symm⟩
      · rw [hstep, parseInt_of_isNumber hpart, if_neg (by simpa using h38)]
      · intro params
        rw [hsgr params t.style, hhead, if_neg (by simpa using h38)]
        simp [AnsiCodeTracker.style, hcolour]
  · cases hg with
    | @single part hpart hcode =>
      have hne := ne_of_isAttribute hcode
      refine ⟨t.processCode (digitsValue part), ht.processCode hcode, ?_, fun params => ?_⟩
      · rw [List.singleton_append, AnsiCodeTracker.processParts, colorLength_single hpart hne.1 hne.2,
          parseInt_of_isNumber hpart]
        rfl
      · rw [List.map_singleton, List.singleton_append, sgr_single hne.1 hne.2, style_processCode hcode]
    | indexed _ _ _ => exact absurd (by simp) hlength
    | rgb _ _ _ _ _ => exact absurd (by simp) hlength

theorem processParts_listed {gs : List (List JsString)} (hgs : ∀ g ∈ gs, ListedParam g) {t : AnsiCodeTracker}
    (ht : t.Good) : (AnsiCodeTracker.processParts 0 gs.flatten t).Good ∧
      (AnsiCodeTracker.processParts 0 gs.flatten t).style = Style.sgr (gs.flatten.map digitsValue) t.style := by
  induction gs generalizing t with
  | nil => exact ⟨ht, rfl⟩
  | cons g gs ih =>
    rw [List.forall_mem_cons] at hgs
    rcases processParts_listedParam hgs.1 gs.flatten ht with ⟨t', ht', hparts, hsgr⟩
    rw [List.flatten_cons, List.map_append, hparts, hsgr]
    exact ih hgs.2 ht'

theorem parseOsc8Hyperlink_sgrCode (gs : List (List JsString)) : parseOsc8Hyperlink (sgrCode gs) = none := by
  rw [parseOsc8Hyperlink, if_pos (by simp [osc8Start, sgrCode, JsString.ofAscii])]

theorem body_sgrCode (gs : List (List JsString)) : ((sgrCode gs).drop 2).dropLast = joinParams gs.flatten := by
  rw [sgrCode, List.cons_append, List.cons_append, List.drop_succ_cons, List.drop_succ_cons, List.drop_zero,
    List.dropLast_concat]

theorem getLast?_sgrCode (gs : List (List JsString)) : (sgrCode gs).getLast? = some 109 := by
  rw [sgrCode, List.getLast?_concat]

theorem all_joinParams {gs : List (List JsString)} (hgs : ∀ g ∈ gs, ListedParam g) :
    ((joinParams gs.flatten).all fun u => isDigit u || u = 59) = true := by
  refine List.all_eq_true.mpr fun u hu => ?_
  simpa using mem_joinParams (isNumber_of_listed hgs) hu

theorem sgrValues_sgrCode {gs : List (List JsString)} (hgs : ∀ g ∈ gs, ListedParam g) :
    sgrValues (sgrCode gs) = some (((joinParams gs.flatten).splitOn 59).map digitsValue) := by
  rw [sgrValues, body_sgrCode, if_pos ⟨by simp [sgrCode], getLast?_sgrCode gs, all_joinParams hgs⟩]

theorem matchSgr_sgrCode {gs : List (List JsString)} (hgs : ∀ g ∈ gs, ListedParam g) :
    matchSgr (sgrCode gs) = some (joinParams gs.flatten) := by
  have hlast : (91 :: joinParams gs.flatten ++ [109]).getLast? = some 109 := List.getLast?_concat
  have hbody : ((91 :: joinParams gs.flatten ++ [109]).drop 1).dropLast = joinParams gs.flatten := body_sgrCode gs
  rw [sgrCode, List.cons_append, matchSgr, hbody, if_pos ⟨rfl, rfl, hlast, all_joinParams hgs⟩]

theorem process_sgrCode {gs : List (List JsString)} (hgs : ∀ g ∈ gs, ListedParam g) {t : AnsiCodeTracker} (ht : t.Good) :
    (t.process (sgrCode gs)).Good ∧ (t.process (sgrCode gs)).style = t.style.apply (sgrCode gs) := by
  have hreset : t.reset.Good := ⟨by rintro c ⟨⟩, by rintro c ⟨⟩, ht.activeHyperlink⟩
  have happly : t.style.apply (sgrCode gs) =
      Style.sgr (((joinParams gs.flatten).splitOn 59).map digitsValue) t.style := by
    rw [Style.apply, parseOsc8Hyperlink_sgrCode, sgrValues_sgrCode hgs]
    rfl
  rw [happly, AnsiCodeTracker.process, parseOsc8Hyperlink_sgrCode, matchSgr_sgrCode hgs]
  dsimp only
  rw [if_neg (not_not.mpr (getLast?_sgrCode gs))]
  split
  · rename_i hzero
    refine ⟨hreset, ?_⟩
    rcases hzero with hnil | hzero
    · rw [hnil]
      rfl
    · rw [hzero]
      rfl
  · rename_i hparams
    have hne : gs.flatten ≠ [] := by
      intro hnil
      rw [hnil] at hparams
      exact hparams (.inl rfl)
    rw [splitOn_joinParams hne (isNumber_of_listed hgs)]
    exact processParts_listed hgs ht

theorem parseOsc8Hyperlink_format {h : ActiveHyperlink} (hlink : IsLink h) :
    parseOsc8Hyperlink (formatOsc8Hyperlink h) = some (if h.url = [] then none else some h) := by
  have hstart : osc8Start <+: formatOsc8Hyperlink h := by
    rw [formatOsc8Hyperlink, List.append_assoc, List.append_assoc]
    exact List.prefix_append _ _
  have hterminator : (if (formatOsc8Hyperlink h).getLast? = some 7 then [7] else [27, 92]) = h.terminator := by
    rw [formatOsc8Hyperlink, List.getLast?_append]
    rcases hlink.terminator with hterm | hterm <;> rw [hterm] <;> rfl
  have hbody : ((formatOsc8Hyperlink h).take ((formatOsc8Hyperlink h).length - h.terminator.length)).drop 4 =
      h.params ++ 59 :: h.url := by
    have hlength : (formatOsc8Hyperlink h).length - h.terminator.length = (osc8Start ++ h.params ++ 59 :: h.url).length := by
      rw [formatOsc8Hyperlink, List.length_append, Nat.add_sub_cancel]
    rw [hlength, formatOsc8Hyperlink, List.take_left, List.append_assoc]
    exact @List.drop_left _ osc8Start _
  have hparams : ∀ u ∈ h.params, decide (u ≠ 59) = true := fun u hu => decide_eq_true (hlink.params u hu).2.2.2.2
  rw [parseOsc8Hyperlink, if_neg (not_not.mpr hstart)]
  dsimp only
  rw [hterminator, hbody, if_neg (by simp), List.takeWhile_append_of_pos hparams, List.dropWhile_append_of_pos hparams]
  simp

theorem process_hyperlink {h : ActiveHyperlink} (hlink : IsLink h) {t : AnsiCodeTracker} (ht : t.Good) :
    (t.process (formatOsc8Hyperlink h)).Good ∧
      (t.process (formatOsc8Hyperlink h)).style = t.style.apply (formatOsc8Hyperlink h) := by
  rw [AnsiCodeTracker.process, Style.apply, parseOsc8Hyperlink_format hlink]
  refine ⟨⟨ht.fgColor, ht.bgColor, fun h' hh' => ?_⟩, rfl⟩
  dsimp only at hh'
  split at hh'
  · cases hh'
  · rename_i hurl
    obtain rfl : h = h' := Option.some.inj hh'
    exact ⟨hlink, hurl⟩

/-- A tracker follows the terminal through a listed code. -/
theorem ListedCode.process {c : JsString} (h : ListedCode c) {t : AnsiCodeTracker} (ht : t.Good) :
    (t.process c).Good ∧ (t.process c).style = t.style.apply c := by
  cases h with
  | sgr hparams => exact process_sgrCode hparams ht
  | hyperlink hlink => exact process_hyperlink hlink ht

theorem updateTracker_pieces {ps : List Piece} (hps : ∀ p ∈ ps, p.Listed) {t : AnsiCodeTracker} (ht : t.Good) :
    (ps.foldl (fun t p => match p with | .code c => t.process c | .unit _ => t) t).Good ∧
      (ps.foldl (fun t p => match p with | .code c => t.process c | .unit _ => t) t).style = styleAfter t.style ps := by
  induction ps generalizing t with
  | nil => exact ⟨ht, rfl⟩
  | cons p ps ih =>
    rw [List.forall_mem_cons] at hps
    cases p with
    | code c =>
      rcases ListedCode.process hps.1 ht with ⟨hgood, hstyle⟩
      rw [List.foldl_cons, styleAfter, ← hstyle]
      exact ih hps.2 hgood
    | unit u => exact ih hps.2 ht

theorem Listed.updateTracker {text : JsString} (h : Listed text) {t : AnsiCodeTracker} (ht : t.Good) :
    (updateTrackerFromText text t).Good ∧ (updateTrackerFromText text t).style = styleAfter t.style (pieces text) :=
  updateTracker_pieces h ht

theorem sgr_append {g : List JsString} (hg : ListedParam g) (params : List ℕ) (s : Style) :
    Style.sgr (g.map digitsValue ++ params) s = Style.sgr params (Style.sgr (g.map digitsValue) s) := by
  by_cases hlength : 1 < g.length
  · rcases colourOf_joinParams hg hlength with ⟨colour, -, hsgr⟩
    have hself := hsgr [] s
    rw [List.append_nil] at hself
    rw [hsgr params s, hself]
    split <;> rfl
  · cases hg with
    | single hpart hcode =>
      have hne := ne_of_isAttribute hcode
      rw [List.map_singleton, List.singleton_append, sgr_single hne.1 hne.2, sgr_single hne.1 hne.2]
      rfl
    | indexed _ _ _ => exact absurd (by simp) hlength
    | rgb _ _ _ _ _ => exact absurd (by simp) hlength

/-! ## Active codes -/

namespace AnsiCodeTracker

variable {t : AnsiCodeTracker}

/-- The parameters of each active code. -/
def groups (t : AnsiCodeTracker) : List (List JsString) := t.codes.map (List.splitOn 59)

theorem Good.codes (ht : t.Good) : ∀ c ∈ t.codes, ListedParam (c.splitOn 59) := by
  have hsingle : ∀ u : UInt16, isDigit u = true → isAttribute (digitsValue [u]) = true →
      ListedParam (List.splitOn 59 [u]) := by
    intro u hu hcode
    have hnumber : IsNumber [u] := ⟨List.cons_ne_nil u [], by simpa using hu⟩
    rw [splitOn_of_isNumber hnumber]
    exact .single hnumber hcode
  have hcolour : ∀ parts, ListedParam parts → ListedParam ((joinParams parts).splitOn 59) := by
    intro parts hparts
    rwa [splitOn_joinParams hparts.ne_nil hparts.isNumber]
  intro c hc
  simp only [AnsiCodeTracker.codes, List.mem_append, List.mem_ite_nil_right, List.mem_singleton, Option.mem_toList, or_assoc] at hc
  rcases hc with ⟨-, rfl⟩ | ⟨-, rfl⟩ | ⟨-, rfl⟩ | ⟨-, rfl⟩ | ⟨-, rfl⟩ | ⟨-, rfl⟩ | ⟨-, rfl⟩ | ⟨-, rfl⟩ | hfg | hbg
  · exact hsingle 49 rfl rfl
  · exact hsingle 50 rfl rfl
  · exact hsingle 51 rfl rfl
  · exact hsingle 52 rfl rfl
  · exact hsingle 53 rfl rfl
  · exact hsingle 55 rfl rfl
  · exact hsingle 56 rfl rfl
  · exact hsingle 57 rfl rfl
  · rcases ht.fgColor c hfg with ⟨parts, hparts, -, rfl⟩
    exact hcolour parts hparts
  · rcases ht.bgColor c hbg with ⟨parts, hparts, -, rfl⟩
    exact hcolour parts hparts

theorem Good.groups (ht : t.Good) : ∀ g ∈ t.groups, ListedParam g := by
  intro g hg
  rcases List.mem_map.mp hg with ⟨c, hc, rfl⟩
  exact ht.codes c hc

theorem Good.sgrCode_groups (ht : t.Good) : sgrCode t.groups = 27 :: 91 :: joinParams t.codes ++ [109] := by
  have hjoin : t.groups.map joinParams = t.codes := by
    rw [AnsiCodeTracker.groups, List.map_map]
    exact (List.map_congr_left fun c _ => joinParams_splitOn c).trans (List.map_id _)
  rw [sgrCode, ← intercalate_flatten fun g hg => (ht.groups g hg).ne_nil, hjoin]

/-- A terminal reads a code of the groups one behind another. -/
theorem sgr_groups (codes : List JsString) (hcodes : ∀ c ∈ codes, ListedParam (c.splitOn 59)) (s : Style) :
    Style.sgr ((codes.map (List.splitOn 59)).flatten.map digitsValue) s =
      codes.foldl (fun s c => Style.sgr ((c.splitOn 59).map digitsValue) s) s := by
  induction codes generalizing s with
  | nil => rfl
  | cons c codes ih =>
    rw [List.forall_mem_cons] at hcodes
    rw [List.map_cons, List.flatten_cons, List.map_append, sgr_append hcodes.1, ih hcodes.2, List.foldl_cons]

/-- The effect of an active code. -/
def effect (s : Style) (c : JsString) : Style := Style.sgr ((c.splitOn 59).map digitsValue) s

theorem foldl_effect_ite (b : Bool) (c : JsString) (s : Style) :
    (if b then [c] else []).foldl effect s = if b then effect s c else s := by
  cases b <;> rfl

theorem effect_joinParams {parts : List JsString} (hparts : ListedParam parts) (s : Style) :
    effect s (joinParams parts) = Style.sgr (parts.map digitsValue) s := by
  rw [effect, splitOn_joinParams hparts.ne_nil hparts.isNumber]

theorem effect_foreground {parts : List JsString} (hparts : ListedParam parts) (hfg : setsForeground parts) (s : Style) :
    effect s (joinParams parts) = { s with fg := colourOf (joinParams parts) } := by
  rcases hfg with ⟨part, rest, rfl, hcode⟩
  rw [effect_joinParams hparts]
  by_cases hlength : 1 < (part :: rest).length
  · rcases colourOf_joinParams hparts hlength with ⟨colour, hcolour, hsgr⟩
    have h38 : digitsValue part = 38 := by
      cases hparts with
      | single _ _ => exact absurd hlength (lt_irrefl 1)
      | indexed _ hkind _ => omega
      | rgb _ hkind _ _ _ => omega
    have hself := hsgr [] s
    rw [List.append_nil, List.head?_cons, Option.map_some, h38, if_pos rfl] at hself
    rw [hself, hcolour]
    rfl
  · cases hparts with
    | single hpart hattribute =>
      have hne := ne_of_isAttribute hattribute
      rw [joinParams_singleton, List.map_singleton, sgr_single hne.1 hne.2,
        setAttribute_foreground (hcode.resolve_left hne.1), colourOf, splitOn_of_isNumber hpart]
      rfl
    | indexed _ _ _ => exact absurd (by simp) hlength
    | rgb _ _ _ _ _ => exact absurd (by simp) hlength

theorem effect_background {parts : List JsString} (hparts : ListedParam parts) (hbg : setsBackground parts) (s : Style) :
    effect s (joinParams parts) = { s with bg := colourOf (joinParams parts) } := by
  rcases hbg with ⟨part, rest, rfl, hcode⟩
  rw [effect_joinParams hparts]
  by_cases hlength : 1 < (part :: rest).length
  · rcases colourOf_joinParams hparts hlength with ⟨colour, hcolour, hsgr⟩
    have h38 : ¬digitsValue part = 38 := by
      cases hparts with
      | single _ _ => exact absurd hlength (lt_irrefl 1)
      | indexed _ hkind _ => omega
      | rgb _ hkind _ _ _ => omega
    have hself := hsgr [] s
    rw [List.append_nil, List.head?_cons, Option.map_some, if_neg (by simpa using h38)] at hself
    rw [hself, hcolour]
    rfl
  · cases hparts with
    | single hpart hattribute =>
      have hne := ne_of_isAttribute hattribute
      rw [joinParams_singleton, List.map_singleton, sgr_single hne.1 hne.2,
        setAttribute_background (hcode.resolve_left hne.2), colourOf, splitOn_of_isNumber hpart]
      rfl
    | indexed _ _ _ => exact absurd (by simp) hlength
    | rgb _ _ _ _ _ => exact absurd (by simp) hlength

/-- The active attributes are set one behind another. -/
theorem foldl_attributes (t : AnsiCodeTracker) :
    ((if t.bold then [JsString.ofAscii "1"] else []) ++ (if t.dim then [JsString.ofAscii "2"] else [])
      ++ (if t.italic then [JsString.ofAscii "3"] else []) ++ (if t.underline then [JsString.ofAscii "4"] else [])
      ++ (if t.blink then [JsString.ofAscii "5"] else []) ++ (if t.inverse then [JsString.ofAscii "7"] else [])
      ++ (if t.hidden then [JsString.ofAscii "8"] else [])
      ++ (if t.strikethrough then [JsString.ofAscii "9"] else [])).foldl effect {} =
      { t.style with fg := none, bg := none, link := none } := by
  have hbold : (if t.bold then effect ({} : Style) (JsString.ofAscii "1") else ({} : Style)) =
      { bold := t.bold } := by cases t.bold <;> rfl
  have hdim : (if t.dim then effect { bold := t.bold } (JsString.ofAscii "2") else { bold := t.bold }) =
      { bold := t.bold, dim := t.dim } := by cases t.dim <;> rfl
  have hitalic : (if t.italic then effect { bold := t.bold, dim := t.dim } (JsString.ofAscii "3") else { bold := t.bold, dim := t.dim }) =
      { bold := t.bold, dim := t.dim, italic := t.italic } := by cases t.italic <;> rfl
  have hunderline : (if t.underline then effect { bold := t.bold, dim := t.dim, italic := t.italic } (JsString.ofAscii "4") else { bold := t.bold, dim := t.dim, italic := t.italic }) =
      { bold := t.bold, dim := t.dim, italic := t.italic, underline := t.underline } := by cases t.underline <;> rfl
  have hblink : (if t.blink then effect { bold := t.bold, dim := t.dim, italic := t.italic, underline := t.underline } (JsString.ofAscii "5") else { bold := t.bold, dim := t.dim, italic := t.italic, underline := t.underline }) =
      { bold := t.bold, dim := t.dim, italic := t.italic, underline := t.underline, blink := t.blink } := by cases t.blink <;> rfl
  have hinverse : (if t.inverse then effect { bold := t.bold, dim := t.dim, italic := t.italic, underline := t.underline, blink := t.blink } (JsString.ofAscii "7") else { bold := t.bold, dim := t.dim, italic := t.italic, underline := t.underline, blink := t.blink }) =
      { bold := t.bold, dim := t.dim, italic := t.italic, underline := t.underline, blink := t.blink, inverse := t.inverse } := by cases t.inverse <;> rfl
  have hhidden : (if t.hidden then effect { bold := t.bold, dim := t.dim, italic := t.italic, underline := t.underline, blink := t.blink, inverse := t.inverse } (JsString.ofAscii "8") else { bold := t.bold, dim := t.dim, italic := t.italic, underline := t.underline, blink := t.blink, inverse := t.inverse }) =
      { bold := t.bold, dim := t.dim, italic := t.italic, underline := t.underline, blink := t.blink, inverse := t.inverse, hidden := t.hidden } := by cases t.hidden <;> rfl
  have hstrikethrough : (if t.strikethrough then effect { bold := t.bold, dim := t.dim, italic := t.italic, underline := t.underline, blink := t.blink, inverse := t.inverse, hidden := t.hidden } (JsString.ofAscii "9") else { bold := t.bold, dim := t.dim, italic := t.italic, underline := t.underline, blink := t.blink, inverse := t.inverse, hidden := t.hidden }) =
      { bold := t.bold, dim := t.dim, italic := t.italic, underline := t.underline, blink := t.blink, inverse := t.inverse, hidden := t.hidden, strikethrough := t.strikethrough } := by cases t.strikethrough <;> rfl
  simp only [List.foldl_append, foldl_effect_ite]
  rw [hbold, hdim, hitalic, hunderline, hblink, hinverse, hhidden, hstrikethrough]
  rfl

theorem Good.foldl_codes (ht : t.Good) : t.codes.foldl effect {} = { t.style with link := none } := by
  rw [AnsiCodeTracker.codes, List.foldl_append, List.foldl_append, foldl_attributes]
  have hfg (s : Style) (hs : s.fg = none) : t.fgColor.toList.foldl effect s = { s with fg := t.style.fg } := by
    cases hcolor : t.fgColor with
    | none => simp [AnsiCodeTracker.style, hcolor, ← hs]
    | some c =>
      rcases ht.fgColor c hcolor with ⟨parts, hparts, hsets, rfl⟩
      show effect s (joinParams parts) = _
      rw [effect_foreground hparts hsets, AnsiCodeTracker.style, hcolor]
      rfl
  have hbg (s : Style) (hs : s.bg = none) : t.bgColor.toList.foldl effect s = { s with bg := t.style.bg } := by
    cases hcolor : t.bgColor with
    | none => simp [AnsiCodeTracker.style, hcolor, ← hs]
    | some c =>
      rcases ht.bgColor c hcolor with ⟨parts, hparts, hsets, rfl⟩
      show effect s (joinParams parts) = _
      rw [effect_background hparts hsets, AnsiCodeTracker.style, hcolor]
      rfl
  rw [hfg _ rfl, hbg _ rfl]

/-- A code, or none, that shows nothing and has an effect on the style. -/
structure Writes (text : JsString) (effect : Style → Style) : Prop where
  listed : Listed text
  shown : ∀ s, shown s (pieces text) = []
  styleAfter : ∀ s, styleAfter s (pieces text) = effect s

theorem writes_nil : Writes [] id := ⟨listed_nil, fun _ => rfl, fun _ => rfl⟩

theorem writes_code {c : JsString} (h : ListedCode c) : Writes c (Style.apply c) := by
  have hpieces := h.pieces_append []
  rw [List.append_nil] at hpieces
  refine ⟨h.listed, fun s => ?_, fun s => ?_⟩
  · rw [hpieces]
    rfl
  · rw [hpieces]
    rfl

theorem Writes.append {a b : JsString} {f g : Style → Style} (ha : Writes a f) (hb : Writes b g) :
    Writes (a ++ b) (g ∘ f) := by
  refine ⟨ha.listed.append hb.listed, fun s => ?_, fun s => ?_⟩
  · rw [ha.listed.shown_append, ha.shown, hb.shown, List.append_nil]
  · rw [ha.listed.styleAfter_append, ha.styleAfter, hb.styleAfter, Function.comp_apply]

theorem apply_hyperlink {h : ActiveHyperlink} (hlink : IsLink h) (s : Style) :
    s.apply (formatOsc8Hyperlink h) = { s with link := if h.url = [] then none else some (h.params, h.url) } := by
  rw [Style.apply, parseOsc8Hyperlink_format hlink]
  dsimp only
  by_cases hurl : h.url = []
  · rw [if_pos hurl, if_pos hurl]
    rfl
  · rw [if_neg hurl, if_neg hurl]
    rfl

theorem Good.writes_getActiveCodes (ht : t.Good) :
    Listed t.getActiveCodes ∧ (∀ s, shown s (pieces t.getActiveCodes) = []) ∧
      styleAfter {} (pieces t.getActiveCodes) = t.style := by
  have hlinks : Writes (t.activeHyperlink.elim [] formatOsc8Hyperlink) fun s =>
      { s with link := t.activeHyperlink.elim s.link fun h => some (h.params, h.url) } := by
    cases hactive : t.activeHyperlink with
    | none => exact writes_nil
    | some h =>
      rcases ht.activeHyperlink h hactive with ⟨hlink, hurl⟩
      have hcode := writes_code (ListedCode.hyperlink hlink)
      refine ⟨hcode.listed, hcode.shown, fun s => ?_⟩
      refine (hcode.styleAfter s).trans ?_
      rw [apply_hyperlink hlink, if_neg hurl]
      rfl
  have hcodes : ∃ f, Writes (if t.codes = [] then [] else 27 :: 91 :: joinParams t.codes ++ [109]) f ∧
      f {} = { t.style with link := none } := by
    rw [← ht.foldl_codes]
    by_cases hnil : t.codes = []
    · rw [if_pos hnil, hnil]
      exact ⟨id, writes_nil, rfl⟩
    · rw [if_neg hnil, ← ht.sgrCode_groups]
      refine ⟨_, writes_code (.sgr ht.groups), ?_⟩
      have hne : t.groups.flatten ≠ [] := by
        rcases List.exists_cons_of_ne_nil hnil with ⟨c, rest, hcons⟩
        rw [AnsiCodeTracker.groups, hcons, List.map_cons, List.flatten_cons]
        exact List.append_ne_nil_of_left_ne_nil (List.splitOn_ne_nil 59 c) _
      rw [Style.apply, parseOsc8Hyperlink_sgrCode, sgrValues_sgrCode ht.groups]
      dsimp only
      rw [splitOn_joinParams hne (isNumber_of_listed ht.groups), Option.elim_some]
      exact sgr_groups t.codes ht.codes {}
  rcases hcodes with ⟨f, hwrites, hf⟩
  have hboth := hwrites.append hlinks
  refine ⟨hboth.listed, hboth.shown, ?_⟩
  refine (hboth.styleAfter {}).trans ?_
  rw [Function.comp_apply, hf]
  cases hactive : t.activeHyperlink with
  | none => simp [AnsiCodeTracker.style, hactive]
  | some h => simp [AnsiCodeTracker.style, hactive]

theorem Good.writes_getLineEndReset (ht : t.Good) :
    Listed t.getLineEndReset ∧ (∀ s, shown s (pieces t.getLineEndReset) = []) ∧
      styleAfter t.style (pieces t.getLineEndReset) = { t.style with underline := false, link := none } := by
  have hunderline : Writes (if t.underline then 27 :: JsString.ofAscii "[24m" else []) fun s =>
      { s with underline := s.underline && !t.underline } := by
    cases t.underline with
    | false => exact ⟨listed_nil, fun _ => rfl, fun s => by simp [pieces, piecesFrom, Ansi.styleAfter]⟩
    | true =>
      have hnumber : IsNumber (JsString.ofAscii "24") := by
        rw [show JsString.ofAscii "24" = [50, 52] from rfl]
        exact ⟨by simp, by simp [isDigit]⟩
      have hlisted : ∀ g ∈ [[JsString.ofAscii "24"]], ListedParam g := by simpa using .single hnumber rfl
      have hcode := writes_code (.sgr hlisted)
      refine ⟨hcode.listed, hcode.shown, fun s => (hcode.styleAfter s).trans ?_⟩
      rw [Style.apply, parseOsc8Hyperlink_sgrCode, sgrValues_sgrCode hlisted]
      simp
      rfl
  have hlinks : Writes (t.activeHyperlink.elim [] fun h => formatOsc8Close h.terminator) fun s =>
      { s with link := if t.activeHyperlink.isSome then none else s.link } := by
    cases hactive : t.activeHyperlink with
    | none => exact writes_nil
    | some h =>
      have hlink : IsLink { params := [], url := [], terminator := h.terminator } :=
        ⟨by simp, by simp, (ht.activeHyperlink h hactive).1.terminator⟩
      have hcode := writes_code (ListedCode.hyperlink hlink)
      refine ⟨hcode.listed, hcode.shown, fun s => (hcode.styleAfter s).trans ?_⟩
      rw [apply_hyperlink hlink]
      rfl
  have hboth := hunderline.append hlinks
  refine ⟨hboth.listed, hboth.shown, (hboth.styleAfter _).trans ?_⟩
  rw [Function.comp_apply]
  cases hactive : t.activeHyperlink with
  | none => simp [AnsiCodeTracker.style, hactive]
  | some h => simp [AnsiCodeTracker.style, hactive]

end AnsiCodeTracker

end Phi.Tui.Ansi
