import Phi.Tui.Ansi

/-!
# What a terminal makes of a text

A terminal keeps a style and gives it to every unit that it shows. The codes that `AnsiCodeTracker` lists are read from a
text one by one, whatever follows them (`pieces_append`), and the tracker follows the style of the terminal through them
(`style_process`). What it gives back as its active codes brings the terminal from the default style to that one.
-/

namespace Phi.Tui.Ansi

/-! ## Styles -/

inductive Colour where
  | standard (code : ℕ)
  | indexed (n : ℕ)
  | rgb (r g b : ℕ)
deriving DecidableEq

structure Style where
  bold : Bool := false
  dim : Bool := false
  italic : Bool := false
  underline : Bool := false
  blink : Bool := false
  inverse : Bool := false
  hidden : Bool := false
  strikethrough : Bool := false
  fg : Option Colour := none
  bg : Option Colour := none
  link : Option (JsString × JsString) := none
deriving DecidableEq

namespace Style

/-- The effect of a parameter of `ESC [ .. m` that stands by itself. -/
def setAttribute (s : Style) (code : ℕ) : Style :=
  match code with
  | 0 => { link := s.link }
  | 1 => { s with bold := true }
  | 2 => { s with dim := true }
  | 3 => { s with italic := true }
  | 4 => { s with underline := true }
  | 5 => { s with blink := true }
  | 7 => { s with inverse := true }
  | 8 => { s with hidden := true }
  | 9 => { s with strikethrough := true }
  | 21 => { s with bold := false }
  | 22 => { s with bold := false, dim := false }
  | 23 => { s with italic := false }
  | 24 => { s with underline := false }
  | 25 => { s with blink := false }
  | 27 => { s with inverse := false }
  | 28 => { s with hidden := false }
  | 29 => { s with strikethrough := false }
  | 39 => { s with fg := none }
  | 49 => { s with bg := none }
  | code =>
    if (30 ≤ code ∧ code ≤ 37) ∨ (90 ≤ code ∧ code ≤ 97) then { s with fg := some (.standard code) }
    else if (40 ≤ code ∧ code ≤ 47) ∨ (100 ≤ code ∧ code ≤ 107) then { s with bg := some (.standard code) }
    else s

/-- The effect of parameters one behind another. -/
def sgr : List ℕ → Style → Style
  | [], s => s
  | 38 :: 5 :: n :: params, s => sgr params { s with fg := some (.indexed n) }
  | 38 :: 2 :: r :: g :: b :: params, s => sgr params { s with fg := some (.rgb r g b) }
  | 48 :: 5 :: n :: params, s => sgr params { s with bg := some (.indexed n) }
  | 48 :: 2 :: r :: g :: b :: params, s => sgr params { s with bg := some (.rgb r g b) }
  | code :: params, s => sgr params (s.setAttribute code)

end Style

/-- The numbers of `ESC [ .. m`; one that is left out is zero. -/
def sgrValues (code : JsString) : Option (List ℕ) :=
  let body := (code.drop 2).dropLast
  if [27, 91] <+: code ∧ code.getLast? = some 109 ∧ body.all fun u => isDigit u || u = 59 then
    some ((body.splitOn 59).map digitsValue)
  else none

def Style.apply (code : JsString) (s : Style) : Style :=
  match parseOsc8Hyperlink code with
  | some hyperlink => { s with link := hyperlink.map fun h => (h.params, h.url) }
  | none => (sgrValues code).elim s fun values => Style.sgr values s

/-- The style behind pieces of a text. -/
def styleAfter : Style → List Piece → Style
  | s, [] => s
  | s, .code c :: ps => styleAfter (s.apply c) ps
  | s, .unit _ :: ps => styleAfter s ps

/-- The units that are not white space, with the styles that they are shown in. -/
def shown : Style → List Piece → List (UInt16 × Style)
  | _, [] => []
  | s, .code c :: ps => shown (s.apply c) ps
  | s, .unit u :: ps => if Edit.isWhiteSpace u then shown s ps else (u, s) :: shown s ps

theorem styleAfter_append (s : Style) (a b : List Piece) : styleAfter s (a ++ b) = styleAfter (styleAfter s a) b := by
  induction a generalizing s with
  | nil => rfl
  | cons p a ih => cases p <;> exact ih _

theorem shown_append (s : Style) (a b : List Piece) : shown s (a ++ b) = shown s a ++ shown (styleAfter s a) b := by
  induction a generalizing s with
  | nil => rfl
  | cons p a ih =>
    cases p with
    | code c => exact ih _
    | unit u =>
      rw [List.cons_append, shown, shown, ih, styleAfter]
      split <;> rfl

/-! ## Listed codes -/

/-- Parameters of codes. -/
def IsNumber (part : JsString) : Prop := part ≠ [] ∧ ∀ u ∈ part, isDigit u = true

/-- The parameters that stand by themselves. -/
def isAttribute (code : ℕ) : Bool :=
  code ∈ [0, 1, 2, 3, 4, 5, 7, 8, 9, 21, 22, 23, 24, 25, 27, 28, 29, 39, 49] || (30 ≤ code && code ≤ 37)
    || (90 ≤ code && code ≤ 97) || (40 ≤ code && code ≤ 47) || (100 ≤ code && code ≤ 107)

/-- The parameters that one effect takes. -/
inductive ListedParam : List JsString → Prop where
  | single {part : JsString} (hpart : IsNumber part) (hcode : isAttribute (digitsValue part) = true) :
      ListedParam [part]
  | indexed {part n : JsString} (hpart : IsNumber part) (hcode : digitsValue part = 38 ∨ digitsValue part = 48)
      (hn : IsNumber n) : ListedParam [part, JsString.ofAscii "5", n]
  | rgb {part r g b : JsString} (hpart : IsNumber part) (hcode : digitsValue part = 38 ∨ digitsValue part = 48)
      (hr : IsNumber r) (hg : IsNumber g) (hb : IsNumber b) : ListedParam [part, JsString.ofAscii "2", r, g, b]

/-- The codes that set attributes and colours. -/
def sgrCode (params : List (List JsString)) : JsString := 27 :: 91 :: joinParams params.flatten ++ [109]

structure IsLink (hyperlink : ActiveHyperlink) : Prop where
  params : ∀ u ∈ hyperlink.params, u ≠ 7 ∧ u ≠ 10 ∧ u ≠ 13 ∧ u ≠ 27 ∧ u ≠ 59
  url : ∀ u ∈ hyperlink.url, u ≠ 7 ∧ u ≠ 10 ∧ u ≠ 13 ∧ u ≠ 27
  terminator : hyperlink.terminator = [7] ∨ hyperlink.terminator = [27, 92]

inductive ListedCode : JsString → Prop where
  | sgr {params : List (List JsString)} (hparams : ∀ p ∈ params, ListedParam p) : ListedCode (sgrCode params)
  | hyperlink {hyperlink : ActiveHyperlink} (hlink : IsLink hyperlink) : ListedCode (formatOsc8Hyperlink hyperlink)

/-- An escape stands only in front of a code of the list. -/
def Piece.Listed : Piece → Prop
  | .code c => ListedCode c
  | .unit u => u ≠ 27

def Listed (text : JsString) : Prop := ∀ p ∈ pieces text, p.Listed

/-! ## Reading codes -/

theorem piecesFrom_drop (skip : ℕ) (text : JsString) : piecesFrom skip text = pieces (text.drop skip) := by
  induction skip generalizing text with
  | zero => rfl
  | succ skip ih =>
    cases text with
    | nil => rfl
    | cons u text => exact ih text

theorem pieces_of_extract {text : JsString} {length : ℕ} (hpos : 0 < length)
    (hextract : extractAnsiCode text = some length) :
    pieces text = .code (text.take length) :: pieces (text.drop length) := by
  cases text with
  | nil => cases hextract
  | cons u text =>
    rw [pieces, piecesFrom, hextract]
    dsimp only
    rw [piecesFrom_drop]
    cases length with
    | zero => exact absurd hpos (lt_irrefl 0)
    | succ length => rfl

theorem pieces_unit {u : UInt16} (hu : u ≠ 27) (text : JsString) : pieces (u :: text) = .unit u :: pieces text := by
  have hextract : extractAnsiCode (u :: text) = none := by
    simp [extractAnsiCode, hu.symm]
  rw [pieces, piecesFrom, hextract, pieces]

/-- A string without BEL and ESC goes to its terminator. -/
theorem stringLength_append {body terminator : JsString} (hbody : ∀ u ∈ body, u ≠ 7 ∧ u ≠ 27)
    (hterminator : terminator = [7] ∨ terminator = [27, 92]) (rest : JsString) :
    stringLength (body ++ terminator ++ rest) = some (body.length + terminator.length) := by
  induction body with
  | nil => rcases hterminator with rfl | rfl <;> simp [stringLength]
  | cons u body ih =>
    rw [List.forall_mem_cons] at hbody
    rw [List.cons_append, List.cons_append, stringLength, if_neg hbody.1.1, if_neg (fun h => hbody.1.2 h.1), ih hbody.2,
      List.length_cons]
    simp only [Option.map_some, Option.some.injEq]
    omega

theorem isDigit_bounds {u : UInt16} (hu : isDigit u = true) : 48 ≤ u.toNat ∧ u.toNat ≤ 57 := by
  simpa [isDigit] using hu

theorem joinParams_cons (part : JsString) (parts : List JsString) :
    joinParams (part :: parts) = part ++ parts.flatMap (59 :: ·) := by
  induction parts generalizing part with
  | nil => simp [joinParams]
  | cons next parts ih =>
    rw [joinParams, List.intercalate_cons_cons, ← joinParams, ih next]
    simp

/-- The units of parameters. -/
theorem mem_joinParams {parts : List JsString} (hparts : ∀ p ∈ parts, IsNumber p) {u : UInt16}
    (hu : u ∈ joinParams parts) : isDigit u = true ∨ u = 59 := by
  cases parts with
  | nil => cases hu
  | cons part parts =>
    rw [List.forall_mem_cons] at hparts
    rw [joinParams_cons, List.mem_append, List.mem_flatMap] at hu
    rcases hu with hu | ⟨p, hp, hu⟩
    · exact .inl (hparts.1.2 u hu)
    · rcases List.mem_cons.mp hu with rfl | hu
      · exact .inr rfl
      · exact .inl ((hparts.2 p hp).2 u hu)

theorem isNumber_five : IsNumber (JsString.ofAscii "5") := by
  rw [show JsString.ofAscii "5" = [53] from rfl]
  exact ⟨by simp, by simp [isDigit]⟩

theorem isNumber_two : IsNumber (JsString.ofAscii "2") := by
  rw [show JsString.ofAscii "2" = [50] from rfl]
  exact ⟨by simp, by simp [isDigit]⟩

theorem ListedParam.isNumber {parts : List JsString} (h : ListedParam parts) : ∀ p ∈ parts, IsNumber p := by
  cases h with
  | single hpart hcode => simpa using hpart
  | indexed hpart hcode hn => simpa using ⟨hpart, isNumber_five, hn⟩
  | rgb hpart hcode hr hg hb => simpa using ⟨hpart, isNumber_two, hr, hg, hb⟩

theorem isNumber_of_listed {params : List (List JsString)} (hparams : ∀ p ∈ params, ListedParam p) :
    ∀ p ∈ params.flatten, IsNumber p := by
  intro p hp
  rcases List.mem_flatten.mp hp with ⟨parts, hparts, hp⟩
  exact (hparams parts hparts).isNumber p hp

theorem ne_of_digit_or_semicolon {u v : UInt16} (hu : isDigit u = true ∨ u = 59) (hv : v.toNat < 48 ∨ 59 < v.toNat) :
    u ≠ v := by
  rintro rfl
  rcases hu with hu | rfl
  · have hbounds := isDigit_bounds hu
    omega
  · revert hv
    decide

theorem extractAnsiCode_sgr {params : List (List JsString)} (hparams : ∀ p ∈ params, ListedParam p) (rest : JsString) :
    extractAnsiCode (sgrCode params ++ rest) = some (sgrCode params).length := by
  have hbody : ∀ u ∈ joinParams params.flatten, isCsiFinal u = false := by
    intro u hu
    have hkind := mem_joinParams (isNumber_of_listed hparams) hu
    have hfinal : isCsiFinal u = true → u ∈ ([109, 71, 75, 72, 74] : List UInt16) := fun h => by
      simpa [isCsiFinal, JsString.ofAscii] using h
    refine Bool.eq_false_iff.mpr fun h => ?_
    have hmem := hfinal h
    simp only [List.mem_cons, List.not_mem_nil, or_false] at hmem
    rcases hmem with rfl | rfl | rfl | rfl | rfl <;> exact ne_of_digit_or_semicolon hkind (by decide) rfl
  have hfind : (joinParams params.flatten ++ [109] ++ rest).findIdx? isCsiFinal = some (joinParams params.flatten).length := by
    rw [List.append_assoc, List.findIdx?_append, List.findIdx?_eq_none_iff.mpr hbody, Option.none_or]
    have hm : isCsiFinal 109 = true := by decide
    simp [List.findIdx?_cons, hm]
  have htext : sgrCode params ++ rest = 27 :: 91 :: (joinParams params.flatten ++ [109] ++ rest) := by simp [sgrCode]
  rw [extractAnsiCode, htext, if_pos (by simp), List.drop_succ_cons, List.drop_succ_cons, List.drop_zero, hfind]
  simp [sgrCode]

theorem extractAnsiCode_hyperlink {hyperlink : ActiveHyperlink} (hlink : IsLink hyperlink) (rest : JsString) :
    extractAnsiCode (formatOsc8Hyperlink hyperlink ++ rest) = some (formatOsc8Hyperlink hyperlink).length := by
  have hbody : ∀ u ∈ 56 :: 59 :: hyperlink.params ++ 59 :: hyperlink.url, u ≠ 7 ∧ u ≠ 27 := by
    intro u hu
    simp only [List.cons_append, List.mem_cons, List.mem_append] at hu
    rcases hu with rfl | rfl | hu | rfl | hu
    · decide
    · decide
    · exact ⟨(hlink.params u hu).1, (hlink.params u hu).2.2.2.1⟩
    · decide
    · exact ⟨(hlink.url u hu).1, (hlink.url u hu).2.2.2⟩
  have htext : formatOsc8Hyperlink hyperlink ++ rest =
      27 :: 93 :: (56 :: 59 :: hyperlink.params ++ 59 :: hyperlink.url ++ hyperlink.terminator ++ rest) := by
    simp [formatOsc8Hyperlink, osc8Start, JsString.ofAscii]
  have hlength : (formatOsc8Hyperlink hyperlink).length =
      (56 :: 59 :: hyperlink.params ++ 59 :: hyperlink.url).length + hyperlink.terminator.length + 2 := by
    simp [formatOsc8Hyperlink, osc8Start, JsString.ofAscii]
    omega
  rw [htext, extractAnsiCode, if_neg (by simp), if_pos (by simp), List.drop_succ_cons, List.drop_succ_cons, List.drop_zero,
    stringLength_append hbody hlink.terminator, hlength]
  rfl

theorem ListedCode.extract {c : JsString} (h : ListedCode c) (rest : JsString) :
    extractAnsiCode (c ++ rest) = some c.length := by
  cases h with
  | sgr hparams => exact extractAnsiCode_sgr hparams rest
  | hyperlink hlink => exact extractAnsiCode_hyperlink hlink rest

theorem ListedCode.length_pos {c : JsString} (h : ListedCode c) : 0 < c.length := by
  cases h with
  | sgr hparams => simp [sgrCode]
  | hyperlink hlink => simp [formatOsc8Hyperlink, osc8Start]

theorem ListedCode.pieces_append {c : JsString} (h : ListedCode c) (rest : JsString) :
    pieces (c ++ rest) = .code c :: pieces rest := by
  rw [pieces_of_extract h.length_pos (h.extract rest), List.take_left, List.drop_left]

theorem Piece.Listed.pieces_append {p : Piece} (h : p.Listed) (rest : JsString) :
    pieces (p.text ++ rest) = p :: pieces rest := by
  cases p with
  | code c => exact ListedCode.pieces_append h rest
  | unit u => exact pieces_unit h rest

def piecesText (ps : List Piece) : JsString := ps.flatMap Piece.text

theorem pieces_piecesText_append {ps : List Piece} (h : ∀ p ∈ ps, p.Listed) (rest : JsString) :
    pieces (piecesText ps ++ rest) = ps ++ pieces rest := by
  induction ps with
  | nil => rfl
  | cons p ps ih =>
    rw [List.forall_mem_cons] at h
    rw [piecesText, List.flatMap_cons, List.append_assoc, h.1.pieces_append, ← piecesText, ih h.2, List.cons_append]

theorem pieces_piecesText {ps : List Piece} (h : ∀ p ∈ ps, p.Listed) : pieces (piecesText ps) = ps := by
  have happend := pieces_piecesText_append h []
  rw [List.append_nil] at happend
  rw [happend]
  exact List.append_nil ps

theorem listed_piecesText {ps : List Piece} (h : ∀ p ∈ ps, p.Listed) : Listed (piecesText ps) := by
  rw [Listed, pieces_piecesText h]
  exact h

theorem extractAnsiCode_pos {text : JsString} {length : ℕ} (h : extractAnsiCode text = some length) : 0 < length := by
  unfold extractAnsiCode at h
  split at h
  · rcases Option.map_eq_some_iff.mp h with ⟨i, -, rfl⟩
    exact Nat.succ_pos _
  · split at h
    · rcases Option.map_eq_some_iff.mp h with ⟨i, -, rfl⟩
      exact Nat.succ_pos _
    · cases h

/-- The pieces of a text are the text. -/
theorem piecesText_pieces (text : JsString) : piecesText (pieces text) = text := by
  induction hlength : text.length using Nat.strong_induction_on generalizing text with
  | _ n ih =>
    cases text with
    | nil => rfl
    | cons u text =>
      cases hextract : extractAnsiCode (u :: text) with
      | some length =>
        have hpos := extractAnsiCode_pos hextract
        have hshorter : ((u :: text).drop length).length < n := by
          rw [List.length_drop, ← hlength, List.length_cons]
          omega
        rw [pieces_of_extract hpos hextract, piecesText, List.flatMap_cons, ← piecesText, ih _ hshorter _ rfl]
        exact List.take_append_drop length (u :: text)
      | none =>
        have hunit : pieces (u :: text) = .unit u :: pieces text := by
          rw [pieces, piecesFrom, hextract, pieces]
        rw [hunit, piecesText, List.flatMap_cons, ← piecesText,
          ih text.length (by rw [← hlength, List.length_cons]; exact Nat.lt_succ_self _) text rfl]
        rfl

theorem Listed.pieces_append {text : JsString} (h : Listed text) (rest : JsString) :
    pieces (text ++ rest) = pieces text ++ pieces rest := by
  have happend := pieces_piecesText_append h rest
  rwa [piecesText_pieces] at happend

theorem Listed.append {a b : JsString} (ha : Listed a) (hb : Listed b) : Listed (a ++ b) := by
  rw [Listed, ha.pieces_append]
  intro p hp
  exact (List.mem_append.mp hp).elim (ha p) (hb p)

theorem listed_nil : Listed [] := by
  intro p hp
  cases hp

theorem ListedCode.listed {c : JsString} (h : ListedCode c) : Listed c := by
  have hpieces := h.pieces_append []
  rw [List.append_nil] at hpieces
  rw [Listed, hpieces]
  intro p hp
  rcases List.mem_cons.mp hp with rfl | hp
  · exact h
  · cases hp

/-- A listed text goes on from the style behind it. -/
theorem Listed.shown_append {text : JsString} (h : Listed text) (s : Style) (rest : JsString) :
    shown s (pieces (text ++ rest)) = shown s (pieces text) ++ shown (styleAfter s (pieces text)) (pieces rest) := by
  rw [h.pieces_append, Ansi.shown_append]

theorem Listed.styleAfter_append {text : JsString} (h : Listed text) (s : Style) (rest : JsString) :
    styleAfter s (pieces (text ++ rest)) = styleAfter (styleAfter s (pieces text)) (pieces rest) := by
  rw [h.pieces_append, Ansi.styleAfter_append]

/-- Units without an escape. -/
theorem pieces_units {text : JsString} (h : ∀ u ∈ text, u ≠ 27) : pieces text = text.map .unit := by
  induction text with
  | nil => rfl
  | cons u text ih =>
    rw [List.forall_mem_cons] at h
    rw [pieces_unit h.1, ih h.2, List.map_cons]

theorem listed_units {text : JsString} (h : ∀ u ∈ text, u ≠ 27) : Listed text := by
  rw [Listed, pieces_units h]
  intro p hp
  rcases List.mem_map.mp hp with ⟨u, hu, rfl⟩
  exact h u hu

/-! ## Parameters -/

theorem intercalate_flatten {gs : List (List JsString)} (hgs : ∀ g ∈ gs, g ≠ []) :
    joinParams (gs.map joinParams) = joinParams gs.flatten := by
  induction gs with
  | nil => rfl
  | cons g gs ih =>
    rw [List.forall_mem_cons] at hgs
    have hflat : ∀ hs : List (List JsString), (∀ h ∈ hs, h ≠ []) →
        (hs.map joinParams).flatMap (59 :: ·) = hs.flatten.flatMap (59 :: ·) := by
      intro hs hhs
      induction hs with
      | nil => rfl
      | cons h hs ih =>
        rw [List.forall_mem_cons] at hhs
        rcases List.exists_cons_of_ne_nil hhs.1 with ⟨part, parts, rfl⟩
        rw [List.map_cons, List.flatMap_cons, ih hhs.2, List.flatten_cons, List.flatMap_append, joinParams_cons]
        rfl
    rcases List.exists_cons_of_ne_nil hgs.1 with ⟨part, parts, rfl⟩
    rw [List.map_cons, joinParams_cons, hflat gs hgs.2, List.flatten_cons, List.cons_append, joinParams_cons, joinParams_cons,
      List.flatMap_append, List.append_assoc]

theorem IsNumber.not_mem {part : JsString} (h : IsNumber part) : (59 : UInt16) ∉ part := by
  intro hmem
  have hdigit := h.2 59 hmem
  revert hdigit
  decide

theorem splitOn_joinParams {parts : List JsString} (hne : parts ≠ []) (hparts : ∀ p ∈ parts, IsNumber p) :
    (joinParams parts).splitOn 59 = parts :=
  List.splitOn_intercalate 59 (fun p hp => (hparts p hp).not_mem) hne

theorem joinParams_splitOn (text : JsString) : joinParams (text.splitOn 59) = text := List.intercalate_splitOn 59

theorem ListedParam.ne_nil {parts : List JsString} (h : ListedParam parts) : parts ≠ [] := by
  cases h <;> simp

end Phi.Tui.Ansi
