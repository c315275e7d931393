import Phi.Data.JsonGrammar

/-!
# Repairing JSON

`repairJson` goes over a text once. Inside a string literal it escapes raw control characters and doubles the
backslashes that begin no escape, so that the arguments of a tool call are read although the model wrote them
carelessly. `parseJsonWithRepair` tries the text as it is first.
-/

namespace Phi.Ai

open JsonGrammar

/-! ## The scanner -/

/-- `VALID_JSON_ESCAPES`. -/
def validJsonEscapes : JsString := JsString.ofAscii "\"\\/bfnrtu"

def isControlCharacter (char : UInt16) : Bool := char.toNat ≤ 0x1f

def escapeControlCharacter (char : UInt16) : JsString :=
  match char.toNat with
  | 8 => [92, 98]
  | 12 => [92, 102]
  | 10 => [92, 110]
  | 13 => [92, 114]
  | 9 => [92, 116]
  | n => [92, 117, hexDigit (n / 4096), hexDigit (n / 256 % 16), hexDigit (n / 16 % 16), hexDigit (n % 16)]

/-- `/^[0-9a-fA-F]{4}$/.test(unicodeDigits)`. -/
def isUnicodeDigits (unicodeDigits : JsString) : Bool :=
  unicodeDigits.length = 4 && unicodeDigits.all fun u => (hexValue? u).isSome

/-- What the loop appends to `repaired` from a character on. -/
def repairFrom : Bool → JsString → JsString
  | _, [] => []
  | false, char :: rest => char :: repairFrom (char = 34) rest
  | true, char :: rest =>
    if char = 34 then char :: repairFrom false rest
    else if char = 92 then
      match rest with
      | [] => [92, 92]
      | nextChar :: after =>
        if nextChar = 117 ∧ isUnicodeDigits (after.take 4) = true then
          92 :: 117 :: (after.take 4 ++ repairFrom true (after.drop 4))
        else if nextChar ∈ validJsonEscapes then 92 :: nextChar :: repairFrom true after
        else 92 :: 92 :: repairFrom true (nextChar :: after)
    else (if isControlCharacter char then escapeControlCharacter char else [char]) ++ repairFrom true rest
termination_by _ json => json.length
decreasing_by all_goals simp; try omega

def repairJson (json : JsString) : JsString := repairFrom false json

/-- `none` is a throw. -/
def parseJsonWithRepair (F : NumberFormat) (json : JsString) : Option Json :=
  match parse F json with
  | some v => some v
  | none =>
    let repairedJson := repairJson json
    if repairedJson ≠ json then parse F repairedJson else none

/-! ## Carelessly written texts -/

/-- What follows a backslash makes it an escape of JSON. -/
def beginsEscape : JsString → Bool
  | [] => false
  | e :: rest =>
    if e = 117 then
      match rest with
      | a :: b :: c :: d :: _ => (hexUnit? a b c d).isSome
      | _ => false
    else (shortEscape? e).isSome

/-- `Loosened false t s`: the text `t` with string literals, where `s` has some escaped control characters raw and
some doubled backslashes single, these where no escape begins. `Loosened true` is the same from inside a literal. -/
inductive Loosened : Bool → JsString → JsString → Prop where
  | nil : Loosened false [] []
  | outside {u : UInt16} {t s : JsString} (hu : u ≠ 34) (h : Loosened false t s) : Loosened false (u :: t) (u :: s)
  | opens {t s : JsString} (h : Loosened true t s) : Loosened false (34 :: t) (34 :: s)
  | closes {t s : JsString} (h : Loosened false t s) : Loosened true (34 :: t) (34 :: s)
  | kept {u : UInt16} {spelling t s : JsString} (hu : Spells u spelling) (h : Loosened true t s) :
    Loosened true (spelling ++ t) (spelling ++ s)
  | raw {u : UInt16} {spelling t s : JsString} (hu : Spells u spelling) (hcontrol : u.toNat < 32)
    (h : Loosened true t s) : Loosened true (spelling ++ t) (u :: s)
  | single {t s : JsString} (hs : beginsEscape s = false) (h : Loosened true t s) :
    Loosened true (92 :: 92 :: t) (92 :: s)

theorem Loosened.plain {u : UInt16} {t s : JsString} (hquote : u ≠ 34) (hbackslash : u ≠ 92)
    (hcontrol : ¬u.toNat < 32) (h : Loosened true t s) : Loosened true (u :: t) (u :: s) :=
  .kept (.plain hquote hbackslash hcontrol) h

/-- What follows each backslash of the string literals that begins no escape. -/
def strayBackslashes : Bool → JsString → List JsString
  | _, [] => []
  | false, u :: rest => strayBackslashes (u = 34) rest
  | true, u :: rest =>
    if u = 34 then strayBackslashes false rest
    else if u = 92 then
      if beginsEscape rest then strayBackslashes true (rest.drop (if rest.head? = some 117 then 5 else 1))
      else rest :: strayBackslashes true rest
    else strayBackslashes true rest
termination_by _ s => s.length
decreasing_by all_goals simp; try omega

/-! ## What the scanner does with one character -/

theorem repairFrom_nil (inString : Bool) : repairFrom inString [] = [] := by
  cases inString <;> rw [repairFrom]

theorem repairFrom_outside {u : UInt16} (hu : u ≠ 34) (s : JsString) :
    repairFrom false (u :: s) = u :: repairFrom false s := by
  rw [repairFrom.eq_def]
  simp only [decide_eq_false hu]

theorem repairFrom_opens (s : JsString) : repairFrom false (34 :: s) = 34 :: repairFrom true s := by
  rw [repairFrom.eq_def]
  rfl

theorem repairFrom_closes (s : JsString) : repairFrom true (34 :: s) = 34 :: repairFrom false s := by
  rw [repairFrom.eq_def]
  rfl

theorem hexUnit?_isSome (a b c d : UInt16) :
    (hexUnit? a b c d).isSome = true ↔ ∀ u ∈ [a, b, c, d], (hexValue? u).isSome = true := by
  rw [hexUnit?, Option.isSome_iff_exists]
  simp only [Option.bind_eq_bind, Option.bind_eq_some_iff, List.forall_mem_cons, Option.isSome_iff_exists]
  constructor
  · rintro ⟨u, a', ha, b', hb, c', hc, d', hd, -⟩
    exact ⟨⟨a', ha⟩, ⟨b', hb⟩, ⟨c', hc⟩, ⟨d', hd⟩, by simp⟩
  · rintro ⟨⟨a', ha⟩, ⟨b', hb⟩, ⟨c', hc⟩, ⟨d', hd⟩, -⟩
    exact ⟨_, a', ha, b', hb, c', hc, d', hd, rfl⟩

theorem beginsEscape_unicode (a b c d : UInt16) (s : JsString) :
    beginsEscape (117 :: a :: b :: c :: d :: s) = (hexUnit? a b c d).isSome := rfl

theorem beginsEscape_short {e : UInt16} (he : e ≠ 117) (s : JsString) :
    beginsEscape (e :: s) = (shortEscape? e).isSome := by
  rw [beginsEscape.eq_def]
  simp only [if_neg he]

theorem isUnicodeDigits_take (s : JsString) :
    isUnicodeDigits (s.take 4) = beginsEscape (117 :: s) := by
  rw [Bool.eq_iff_iff]
  rcases s with _ | ⟨a, _ | ⟨b, _ | ⟨c, _ | ⟨d, s⟩⟩⟩⟩
  · simp [isUnicodeDigits, beginsEscape]
  · simp [isUnicodeDigits, beginsEscape]
  · simp [isUnicodeDigits, beginsEscape]
  · simp [isUnicodeDigits, beginsEscape]
  · rw [beginsEscape_unicode, hexUnit?_isSome]
    simp [isUnicodeDigits]

theorem mem_validJsonEscapes {e : UInt16} (he : e ≠ 117) :
    e ∈ validJsonEscapes ↔ (shortEscape? e).isSome = true := by
  have hlist : validJsonEscapes = [34, 92, 47, 98, 102, 110, 114, 116, 117] := rfl
  rw [hlist]
  constructor
  · intro h
    simp only [List.mem_cons, List.not_mem_nil, or_false, he] at h
    rcases h with rfl | rfl | rfl | rfl | rfl | rfl | rfl | rfl <;> rfl
  · intro h
    have heq : ∀ n : ℕ, e.toNat = n → UInt16.ofNat n = e := fun n hn => by rw [← hn, UInt16.ofNat_toNat]
    rw [shortEscape?] at h
    split at h
    · next hn => simp [← heq _ hn]
    · next hn => simp [← heq _ hn]
    · next hn => simp [← heq _ hn]
    · next hn => simp [← heq _ hn]
    · next hn => simp [← heq _ hn]
    · next hn => simp [← heq _ hn]
    · next hn => simp [← heq _ hn]
    · next hn => simp [← heq _ hn]
    · cases h

/-- A backslash that begins an escape is left as it is. -/
theorem repairFrom_unicode {a b c d : UInt16} (h : (hexUnit? a b c d).isSome = true) (s : JsString) :
    repairFrom true (92 :: 117 :: a :: b :: c :: d :: s) = 92 :: 117 :: a :: b :: c :: d :: repairFrom true s := by
  have hdigits : isUnicodeDigits ((a :: b :: c :: d :: s).take 4) = true := by
    rw [isUnicodeDigits_take]
    exact h
  rw [repairFrom, if_neg (by decide), if_pos rfl, if_pos ⟨rfl, hdigits⟩]
  rfl

theorem repairFrom_short {e : UInt16} (he : e ≠ 117) (h : (shortEscape? e).isSome = true) (s : JsString) :
    repairFrom true (92 :: e :: s) = 92 :: e :: repairFrom true s := by
  rw [repairFrom, if_neg (by decide), if_pos rfl, if_neg fun h => he h.1, if_pos ((mem_validJsonEscapes he).mpr h)]

theorem repairFrom_spelling {u : UInt16} {spelling : JsString} (h : Spells u spelling) (s : JsString) :
    repairFrom true (spelling ++ s) = spelling ++ repairFrom true s := by
  cases h with
  | plain hquote hbackslash hcontrol =>
    have hplain : isControlCharacter u = false := by
      simp only [isControlCharacter, decide_eq_false_iff_not]
      omega
    rw [List.singleton_append, repairFrom.eq_def]
    simp only [if_neg hquote, if_neg hbackslash, hplain]
    rfl
  | short he h => exact repairFrom_short he (by rw [h]; rfl) s
  | unicode h => exact repairFrom_unicode (by rw [h]; rfl) s

theorem repairFrom_control {u : UInt16} (h : u.toNat < 32) (s : JsString) :
    repairFrom true (u :: s) = escapeControlCharacter u ++ repairFrom true s := by
  have hcontrol : isControlCharacter u = true := by
    simp only [isControlCharacter, decide_eq_true_eq]
    omega
  have hne : ∀ v : UInt16, 32 ≤ v.toNat → u ≠ v := by
    rintro v hv rfl
    omega
  rw [repairFrom.eq_def]
  simp only [if_neg (hne 34 (by decide)), if_neg (hne 92 (by decide)), hcontrol, if_true]

/-- A backslash that begins no escape is doubled, unless a `u` comes after it. -/
theorem repairFrom_stray {s : JsString} (h : beginsEscape s = false) (hu : s.head? ≠ some 117) :
    repairFrom true (92 :: s) = 92 :: 92 :: repairFrom true s := by
  cases s with
  | nil =>
    rw [repairFrom_nil, repairFrom, if_neg (by decide), if_pos rfl]
  | cons e s =>
    have he : e ≠ 117 := by simpa using hu
    rw [beginsEscape_short he] at h
    have hvalid : e ∉ validJsonEscapes := by
      rw [mem_validJsonEscapes he, h]
      decide
    rw [repairFrom, if_neg (by decide), if_pos rfl, if_neg fun h => he h.1, if_neg hvalid]

/-- `u` is among the valid escapes, whatever comes after it. -/
theorem repairFrom_strayUnicode {s : JsString} (h : beginsEscape (117 :: s) = false) :
    repairFrom true (92 :: 117 :: s) = 92 :: 117 :: repairFrom true s := by
  have hdigits : ¬isUnicodeDigits (s.take 4) = true := by
    rw [isUnicodeDigits_take, h]
    decide
  rw [repairFrom, if_neg (by decide), if_pos rfl, if_neg fun h => hdigits h.2, if_pos (by decide)]

/-! ## Every text is scanned -/

/-- A text as the scanner takes it apart, in a string literal or not. -/
inductive Scanned : Bool → JsString → Prop where
  | nil (inString : Bool) : Scanned inString []
  | outside {u : UInt16} {s : JsString} (hu : u ≠ 34) (h : Scanned false s) : Scanned false (u :: s)
  | opens {s : JsString} (h : Scanned true s) : Scanned false (34 :: s)
  | closes {s : JsString} (h : Scanned false s) : Scanned true (34 :: s)
  | spelling {u : UInt16} {spelling s : JsString} (hu : Spells u spelling) (h : Scanned true s) :
    Scanned true (spelling ++ s)
  | control {u : UInt16} {s : JsString} (hu : u.toNat < 32) (h : Scanned true s) : Scanned true (u :: s)
  | stray {s : JsString} (hs : beginsEscape s = false) (hu : s.head? ≠ some 117) (h : Scanned true s) :
    Scanned true (92 :: s)
  | strayUnicode {s : JsString} (hs : beginsEscape (117 :: s) = false) (h : Scanned true s) :
    Scanned true (92 :: 117 :: s)

/-- What begins an escape is the rest of a spelling. -/
theorem spelling_of_beginsEscape {s : JsString} (h : beginsEscape s = true) :
    ∃ u escape s', Spells u (92 :: escape) ∧ s = escape ++ s' := by
  rcases s with _ | ⟨e, s⟩
  · cases h
  · by_cases he : e = 117
    · subst he
      rcases s with _ | ⟨a, _ | ⟨b, _ | ⟨c, _ | ⟨d, s⟩⟩⟩⟩
      · cases h
      · cases h
      · cases h
      · cases h
      · rcases Option.isSome_iff_exists.mp h with ⟨u, hu⟩
        exact ⟨u, [117, a, b, c, d], s, .unicode hu, rfl⟩
    · rw [beginsEscape_short he] at h
      rcases Option.isSome_iff_exists.mp h with ⟨u, hu⟩
      exact ⟨u, [e], s, .short he hu, rfl⟩

theorem scanned (inString : Bool) (s : JsString) : Scanned inString s := by
  induction hn : s.length using Nat.strong_induction_on generalizing inString s with
  | _ n ih =>
    subst hn
    have ih' : ∀ inString (t : JsString), t.length < s.length → Scanned inString t :=
      fun inString t ht => ih t.length ht inString t rfl
    rcases s with _ | ⟨u, s⟩
    · exact .nil inString
    · have hs : ∀ inString, Scanned inString s := fun inString => ih' inString s (by simp)
      cases inString with
      | false =>
        by_cases hu : u = 34
        · subst hu
          exact .opens (hs true)
        · exact .outside hu (hs false)
      | true =>
        by_cases hquote : u = 34
        · subst hquote
          exact .closes (hs false)
        by_cases hbackslash : u = 92
        · subst hbackslash
          cases hescape : beginsEscape s with
          | true =>
            rcases spelling_of_beginsEscape hescape with ⟨u, escape, s', hu, rfl⟩
            have h := ih' true s' (by simp only [List.length_cons, List.length_append]; omega)
            exact .spelling hu h
          | false =>
            by_cases hu : s.head? = some 117
            · rcases List.head?_eq_some_iff.mp hu with ⟨s', rfl⟩
              exact .strayUnicode hescape (ih' true s' (by simp))
            · exact .stray hescape hu (hs true)
        by_cases hcontrol : u.toNat < 32
        · exact .control hcontrol (hs true)
        · exact .spelling (.plain hquote hbackslash hcontrol) (hs true)

/-- The escape that is written for a control character stands for it. -/
theorem spells_escapeControlCharacter {u : UInt16} (h : u.toNat < 32) : Spells u (escapeControlCharacter u) := by
  have heq : ∀ n : ℕ, u.toNat = n → UInt16.ofNat n = u := fun n hn => by rw [← hn, UInt16.ofNat_toNat]
  rw [escapeControlCharacter]
  split
  · next hn => exact .short (by decide) (congrArg some (heq 8 hn))
  · next hn => exact .short (by decide) (congrArg some (heq 12 hn))
  · next hn => exact .short (by decide) (congrArg some (heq 10 hn))
  · next hn => exact .short (by decide) (congrArg some (heq 13 hn))
  · next hn => exact .short (by decide) (congrArg some (heq 9 hn))
  · exact .unicode (hexUnit?_hexDigits (by omega) (heq _ rfl))

theorem escapeControlCharacter_head (u : UInt16) : ∃ escape, escapeControlCharacter u = 92 :: escape := by
  rw [escapeControlCharacter]
  split <;> exact ⟨_, rfl⟩

theorem spells_backslash : Spells 92 [92, 92] := .short (by decide) rfl

/-! ## Repairing twice -/

theorem repairFrom_head {s r : JsString} {a : UInt16} (ha : (hexValue? a).isSome = true)
    (h : repairFrom true s = a :: r) : ∃ s', s = a :: s' ∧ repairFrom true s' = r := by
  have hne : ∀ u : UInt16, hexValue? u = none → a ≠ u := by
    rintro u hu rfl
    rw [hu] at ha
    cases ha
  have hback : ∀ t, repairFrom true s ≠ 92 :: t := by
    intro t ht
    rw [h] at ht
    exact hne 92 (by decide) (List.cons.inj ht).1
  cases scanned true s with
  | nil => rw [repairFrom_nil] at h; cases h
  | closes _ =>
    rw [repairFrom_closes] at h
    exact (hne 34 (by decide) (List.cons.inj h).1.symm).elim
  | spelling hu _ =>
    rw [repairFrom_spelling hu] at h hback
    cases hu with
    | plain _ _ _ =>
      cases h
      exact ⟨_, rfl, rfl⟩
    | short _ _ => exact (hback _ rfl).elim
    | unicode _ => exact (hback _ rfl).elim
  | control hu _ =>
    rcases escapeControlCharacter_head _ with ⟨escape, hescape⟩
    rw [repairFrom_control hu, hescape] at hback
    exact (hback _ rfl).elim
  | stray hs hu _ => exact (hback _ (repairFrom_stray hs hu)).elim
  | strayUnicode hs _ => exact (hback _ (repairFrom_strayUnicode hs)).elim

/-- Repairing what follows does not complete a truncated escape. -/
theorem beginsEscape_repairFrom {s : JsString} (h : beginsEscape (117 :: s) = false) :
    beginsEscape (117 :: repairFrom true s) = false := by
  rw [Bool.eq_false_iff] at h ⊢
  intro hescape
  apply h
  generalize hr : repairFrom true s = r at hescape
  rcases r with _ | ⟨a, _ | ⟨b, _ | ⟨c, _ | ⟨d, r⟩⟩⟩⟩
  · cases hescape
  · cases hescape
  · cases hescape
  · cases hescape
  · rw [beginsEscape_unicode, hexUnit?_isSome] at hescape
    have ha : (hexValue? a).isSome = true := hescape a (by simp)
    have hb : (hexValue? b).isSome = true := hescape b (by simp)
    have hc : (hexValue? c).isSome = true := hescape c (by simp)
    have hd : (hexValue? d).isSome = true := hescape d (by simp)
    rcases repairFrom_head ha hr with ⟨sa, rfl, hra⟩
    rcases repairFrom_head hb hra with ⟨sb, rfl, hrb⟩
    rcases repairFrom_head hc hrb with ⟨sc, rfl, hrc⟩
    rcases repairFrom_head hd hrc with ⟨sd, rfl, -⟩
    rw [beginsEscape_unicode, hexUnit?_isSome]
    exact hescape

theorem repairFrom_repairFrom (inString : Bool) (s : JsString) :
    repairFrom inString (repairFrom inString s) = repairFrom inString s := by
  induction scanned inString s with
  | nil => rw [repairFrom_nil, repairFrom_nil]
  | outside hu _ ih => rw [repairFrom_outside hu, repairFrom_outside hu, ih]
  | opens _ ih => rw [repairFrom_opens, repairFrom_opens, ih]
  | closes _ ih => rw [repairFrom_closes, repairFrom_closes, ih]
  | spelling hu _ ih => rw [repairFrom_spelling hu, repairFrom_spelling hu, ih]
  | control hu _ ih =>
    rw [repairFrom_control hu, repairFrom_spelling (spells_escapeControlCharacter hu), ih]
  | @stray s hs hu _ ih =>
    have hdoubled := repairFrom_spelling spells_backslash (repairFrom true s)
    rw [repairFrom_stray hs hu]
    rw [ih] at hdoubled
    exact hdoubled
  | strayUnicode hs _ ih =>
    rw [repairFrom_strayUnicode hs, repairFrom_strayUnicode (beginsEscape_repairFrom hs), ih]

/-! ## Valid texts -/

theorem repairFrom_literal {s x rest : JsString} (h : Literal s x rest) :
    ∃ front, s = front ++ rest ∧ repairFrom true s = front ++ repairFrom false rest := by
  induction h with
  | close rest => exact ⟨[34], rfl, repairFrom_closes rest⟩
  | @unit u spelling s x rest hu _ ih =>
    rcases ih with ⟨front, hs, hr⟩
    refine ⟨spelling ++ front, by rw [hs, List.append_assoc], ?_⟩
    rw [repairFrom_spelling hu, hr, List.append_assoc]

/-- A text whose string literals are valid is left as it is. -/
theorem repairJson_of_passes {s : JsString} (h : Passes s []) : repairJson s = s := by
  have hkept : ∀ {s rest}, Passes s rest → rest = [] → repairFrom false s = s := by
    intro s rest h
    induction h with
    | refl =>
      rintro rfl
      exact repairFrom_nil false
    | unit hu _ ih =>
      intro hrest
      rw [repairFrom_outside hu, ih hrest]
    | literal hx _ ih =>
      intro hrest
      rcases repairFrom_literal hx with ⟨front, hs, hr⟩
      rw [repairFrom_opens, hr, ih hrest, hs]
  exact hkept h rfl

/-! ## Stray backslashes -/

theorem strayBackslashes_nil (inString : Bool) : strayBackslashes inString [] = [] := by
  cases inString <;> rw [strayBackslashes]

theorem strayBackslashes_outside {u : UInt16} (hu : u ≠ 34) (s : JsString) :
    strayBackslashes false (u :: s) = strayBackslashes false s := by
  rw [strayBackslashes, decide_eq_false hu]

theorem strayBackslashes_opens (s : JsString) : strayBackslashes false (34 :: s) = strayBackslashes true s := by
  rw [strayBackslashes]
  rfl

theorem strayBackslashes_closes (s : JsString) : strayBackslashes true (34 :: s) = strayBackslashes false s := by
  rw [strayBackslashes, if_pos rfl]

theorem strayBackslashes_plain {u : UInt16} (hquote : u ≠ 34) (hbackslash : u ≠ 92) (s : JsString) :
    strayBackslashes true (u :: s) = strayBackslashes true s := by
  rw [strayBackslashes, if_neg hquote, if_neg hbackslash]

theorem strayBackslashes_stray {s : JsString} (h : beginsEscape s = false) :
    strayBackslashes true (92 :: s) = s :: strayBackslashes true s := by
  rw [strayBackslashes, if_neg (by decide), if_pos rfl, h]
  rfl

theorem strayBackslashes_spelling {u : UInt16} {spelling : JsString} (h : Spells u spelling) (s : JsString) :
    strayBackslashes true (spelling ++ s) = strayBackslashes true s := by
  cases h with
  | plain hquote hbackslash _ => exact strayBackslashes_plain hquote hbackslash s
  | @short e he h =>
    have hescape : beginsEscape (e :: s) = true := by
      rw [beginsEscape_short he, h]
      rfl
    rw [List.cons_append, strayBackslashes, if_neg (by decide), if_pos rfl]
    simp only [List.singleton_append]
    rw [if_pos hescape, if_neg (by simpa using he)]
    rfl
  | @unicode a b c d h =>
    have hescape : beginsEscape (117 :: a :: b :: c :: d :: s) = true := by
      rw [beginsEscape_unicode, h]
      rfl
    rw [List.cons_append, strayBackslashes, if_neg (by decide), if_pos rfl]
    simp only [List.cons_append, List.nil_append]
    rw [if_pos hescape, if_pos (show (117 :: a :: b :: c :: d :: s).head? = some 117 from rfl)]
    rfl

theorem strayBackslashes_control {u : UInt16} (h : u.toNat < 32) (s : JsString) :
    strayBackslashes true (u :: s) = strayBackslashes true s := by
  refine strayBackslashes_plain ?_ ?_ s
  · rintro rfl
    exact absurd h (by decide)
  · rintro rfl
    exact absurd h (by decide)

/-! ## The value is restored -/

/-- No backslash was made single before a `u`. -/
def KeepsUnicode (s : JsString) : Prop := ∀ after ∈ strayBackslashes false s, after.head? ≠ some 117

/-- The repaired text spells what the original did, from outside a string literal or from inside one. -/
def Restored : Bool → JsString → JsString → Prop
  | false, t, r => Respelled t r
  | true, t, r => ∃ x t' r', Literal t x t' ∧ Literal r x r' ∧ Respelled t' r'

theorem Restored.unit {t r : JsString} {u : UInt16} {spelling spelling' : JsString} (hu : Spells u spelling)
    (hu' : Spells u spelling') (h : Restored true t r) : Restored true (spelling ++ t) (spelling' ++ r) := by
  rcases h with ⟨x, t', r', ht, hr, h⟩
  exact ⟨u :: x, t', r', .unit hu ht, .unit hu' hr, h⟩

theorem restored_of_loosened {inString : Bool} {t s : JsString} (h : Loosened inString t s)
    (hstray : ∀ after ∈ strayBackslashes inString s, after.head? ≠ some 117) :
    Restored inString t (repairFrom inString s) := by
  induction h with
  | nil =>
    rw [repairFrom_nil]
    exact .nil
  | outside hu _ ih =>
    rw [strayBackslashes_outside hu] at hstray
    rw [repairFrom_outside hu]
    exact Respelled.unit hu (ih hstray)
  | opens _ ih =>
    rw [strayBackslashes_opens] at hstray
    rw [repairFrom_opens]
    rcases ih hstray with ⟨x, t', r', ht, hr, h⟩
    exact .literal ht hr h
  | @closes t s _ ih =>
    rw [strayBackslashes_closes] at hstray
    rw [repairFrom_closes]
    exact ⟨[], t, repairFrom false s, .close t, .close _, ih hstray⟩
  | kept hu _ ih =>
    rw [strayBackslashes_spelling hu] at hstray
    rw [repairFrom_spelling hu]
    exact (ih hstray).unit hu hu
  | raw hu hcontrol _ ih =>
    rw [strayBackslashes_control hcontrol] at hstray
    rw [repairFrom_control hcontrol]
    exact (ih hstray).unit hu (spells_escapeControlCharacter hcontrol)
  | single hs _ ih =>
    rw [strayBackslashes_stray hs, List.forall_mem_cons] at hstray
    rw [repairFrom_stray hs hstray.1]
    exact (ih hstray.2).unit spells_backslash spells_backslash

/-- Every string literal of the text, or the one it begins in, is valid. -/
def WellQuoted : Bool → JsString → Prop
  | false, s => Passes s []
  | true, s => ∃ x rest, Literal s x rest ∧ Passes rest []

theorem wellQuoted_of_spelling {u : UInt16} {spelling s : JsString} (hu : Spells u spelling)
    (h : WellQuoted true (spelling ++ s)) : WellQuoted true s := by
  rcases h with ⟨x, rest, hx, hrest⟩
  have hread := hx.readString_eq
  rw [hu.readString_append, Option.map_eq_some_iff] at hread
  rcases hread with ⟨p, hp, heq⟩
  cases heq
  exact ⟨p.1, p.2, literal_of_readString hp, hrest⟩

theorem beginsEscape_of_wellQuoted {s : JsString} (h : WellQuoted true (92 :: s)) : beginsEscape s = true := by
  rcases h with ⟨x, rest, hx, -⟩
  generalize ht : 92 :: s = t at hx
  cases hx with
  | close => cases ht
  | unit hu _ =>
    cases hu with
    | plain _ hbackslash _ => exact (hbackslash (List.cons.inj ht).1.symm).elim
    | short he h =>
      cases ht
      exact (beginsEscape_short he _).trans (by rw [h]; rfl)
    | unicode h =>
      cases ht
      exact (beginsEscape_unicode _ _ _ _ _).trans (by rw [h]; rfl)

/-- Where the repaired literals are valid, no stray backslash stood before a `u`. -/
theorem keepsUnicode_of_wellQuoted {inString : Bool} {s : JsString} (h : WellQuoted inString (repairFrom inString s)) :
    ∀ after ∈ strayBackslashes inString s, after.head? ≠ some 117 := by
  induction scanned inString s with
  | nil =>
    rw [strayBackslashes_nil]
    exact fun _ hafter => (List.not_mem_nil hafter).elim
  | outside hu _ ih =>
    rw [repairFrom_outside hu] at h
    rw [strayBackslashes_outside hu]
    refine ih ?_
    cases h with
    | unit _ h => exact h
    | literal => exact (hu rfl).elim
  | opens _ ih =>
    rw [repairFrom_opens] at h
    rw [strayBackslashes_opens]
    refine ih ?_
    cases h with
    | unit hu _ => exact (hu rfl).elim
    | literal hx h => exact ⟨_, _, hx, h⟩
  | closes _ ih =>
    rw [repairFrom_closes] at h
    rw [strayBackslashes_closes]
    rcases h with ⟨x, rest, hx, hrest⟩
    have hread := hx.readString_eq
    rw [readString_quote] at hread
    cases hread
    exact ih hrest
  | spelling hu _ ih =>
    rw [repairFrom_spelling hu] at h
    rw [strayBackslashes_spelling hu]
    exact ih (wellQuoted_of_spelling hu h)
  | control hu _ ih =>
    rw [repairFrom_control hu] at h
    rw [strayBackslashes_control hu]
    exact ih (wellQuoted_of_spelling (spells_escapeControlCharacter hu) h)
  | stray hs hu _ ih =>
    rw [repairFrom_stray hs hu] at h
    rw [strayBackslashes_stray hs, List.forall_mem_cons]
    exact ⟨hu, ih (wellQuoted_of_spelling spells_backslash h)⟩
  | strayUnicode hs _ ih =>
    rw [repairFrom_strayUnicode hs] at h
    have hescape := beginsEscape_of_wellQuoted h
    rw [beginsEscape_repairFrom hs] at hescape
    cases hescape

/-- Valid texts and repaired ones are left as they are. A valid text with raw control characters and single
backslashes gets its value back exactly when none of the backslashes stands before a `u`. -/
theorem repairJson_repairs (F : NumberFormat) :
    (∀ s v, parse F s = some v → repairJson s = s) ∧ (∀ s, repairJson (repairJson s) = repairJson s) ∧
      ∀ t s v, parse F t = some v → Loosened false t s → (parse F (repairJson s) = some v ↔ KeepsUnicode s) := by
  refine ⟨fun s v h => repairJson_of_passes (passes_of_parse h), repairFrom_repairFrom false, ?_⟩
  intro t s v ht hs
  constructor
  · intro h
    have hquoted : WellQuoted false (repairFrom false s) := passes_of_parse h
    exact keepsUnicode_of_wellQuoted hquoted
  · intro h
    exact parse_respelled (restored_of_loosened hs h) ht

/-- `"C:\\x\n"`, with the backslash single and the newline raw. -/
theorem repairJson_repairs_path :
    parse .fractions (repairJson [34, 67, 58, 92, 120, 10, 34]) = some (.string [67, 58, 92, 120, 10]) := by
  have hloosened : Loosened false [34, 67, 58, 92, 92, 120, 92, 110, 34] [34, 67, 58, 92, 120, 10, 34] := by
    refine .opens (.plain (by decide) (by decide) (by decide) (.plain (by decide) (by decide) (by decide) ?_))
    refine .single rfl (.plain (by decide) (by decide) (by decide) ?_)
    exact Loosened.raw (.short (by decide) rfl) (by decide) (.closes .nil)
  have hkeeps : KeepsUnicode [34, 67, 58, 92, 120, 10, 34] := by
    simp [KeepsUnicode, strayBackslashes, beginsEscape, shortEscape?]
  exact ((repairJson_repairs .fractions).2.2 _ _ _ rfl hloosened).mpr hkeeps

/-- `"\users"` is not repaired: `u` counts as an escape although no digits come after it. -/
theorem repairJson_keeps_bareUnicode :
    ¬∀ t s v, parse .fractions t = some v → Loosened false t s → parse .fractions (repairJson s) = some v := by
  intro h
  have hloosened : Loosened false [34, 92, 92, 117, 115, 101, 114, 115, 34] [34, 92, 117, 115, 101, 114, 115, 34] := by
    refine .opens (.single rfl (.plain (by decide) (by decide) (by decide) ?_))
    refine .plain (by decide) (by decide) (by decide) (.plain (by decide) (by decide) (by decide) ?_)
    refine .plain (by decide) (by decide) (by decide) (.plain (by decide) (by decide) (by decide) ?_)
    exact .closes .nil
  have hsame : repairJson [34, 92, 117, 115, 101, 114, 115, 34] = [34, 92, 117, 115, 101, 114, 115, 34] := by
    simp [repairJson, repairFrom, isUnicodeDigits, hexValue?, isDigit, isControlCharacter, validJsonEscapes,
      JsString.ofAscii]
  have hread := h _ _ (.string [92, 117, 115, 101, 114, 115]) rfl hloosened
  rw [hsame] at hread
  cases hread

/-- Arguments are read through the repair whether or not the text was valid as it came. -/
theorem parseJsonWithRepair_loosened (F : NumberFormat) {t s : JsString} {v : Json} (ht : parse F t = some v)
    (hs : Loosened false t s) (hkeeps : KeepsUnicode s) : parseJsonWithRepair F s = some v := by
  have hrepaired : parse F (repairJson s) = some v := parse_respelled (restored_of_loosened hs hkeeps) ht
  rw [parseJsonWithRepair]
  cases hparse : parse F s with
  | some w =>
    rw [repairJson_of_passes (passes_of_parse hparse), hparse] at hrepaired
    exact hrepaired
  | none =>
    have hne : repairJson s ≠ s := by
      intro heq
      rw [heq, hparse] at hrepaired
      cases hrepaired
    simp only [if_pos hne, hrepaired]

end Phi.Ai
