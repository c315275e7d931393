import Phi.Data.JsonValue

/-!
# Derivations of JSON texts

`Derives F part s v rest` says that the front of `s` is a `part` of a JSON text (a value, the items of an
array, the members of an object), that its value is `v` and that `rest` comes after it. `readValue` and its
companions find exactly the derivations (`derives_of_read`, `Derives.read`), so an argument about
`JSON.parse` can follow a derivation and forget about fuel.

Only string literals hold quotes (`Derives.passes`), and a text whose literals are spelled otherwise has the
same value (`parse_respelled`).
-/

namespace Phi

namespace JsonGrammar

/-! ## String literals -/

/-- The spellings of a code unit inside a string literal. -/
inductive Spells (u : UInt16) : JsString → Prop where
  | plain (hquote : u ≠ 34) (hbackslash : u ≠ 92) (hcontrol : ¬u.toNat < 32) : Spells u [u]
  | short {e : UInt16} (he : e ≠ 117) (h : shortEscape? e = some u) : Spells u [92, e]
  | unicode {a b c d : UInt16} (h : hexUnit? a b c d = some u) : Spells u [92, 117, a, b, c, d]

/-- `Literal s x rest`: the inside of a string literal with the value `x` and its closing quote, then `rest`. -/
inductive Literal : JsString → JsString → JsString → Prop where
  | close (rest : JsString) : Literal (34 :: rest) [] rest
  | unit {u : UInt16} {spelling s x rest : JsString} (hu : Spells u spelling) (h : Literal s x rest) :
    Literal (spelling ++ s) (u :: x) rest

theorem hexUnit?_hexDigits {n : ℕ} {u : UInt16} (h : n < 65536) (hu : UInt16.ofNat n = u) :
    hexUnit? (hexDigit (n / 4096)) (hexDigit (n / 256 % 16)) (hexDigit (n / 16 % 16)) (hexDigit (n % 16)) = some u := by
  have hn : ((n / 4096 * 16 + n / 256 % 16) * 16 + n / 16 % 16) * 16 + n % 16 = n := by omega
  simp only [hexUnit?, hexValue?_hexDigit (show n / 4096 < 16 by omega),
    hexValue?_hexDigit (show n / 256 % 16 < 16 by omega), hexValue?_hexDigit (show n / 16 % 16 < 16 by omega),
    hexValue?_hexDigit (show n % 16 < 16 by omega)]
  refine congrArg some (Eq.trans ?_ hu)
  rw [hn]

theorem Spells.readString_append {u : UInt16} {spelling : JsString} (h : Spells u spelling) (s : JsString) :
    readString (spelling ++ s) = (readString s).map (consUnit u) := by
  cases h with
  | plain hquote hbackslash hcontrol => exact readString_plain hquote hbackslash hcontrol s
  | short he h => exact readString_short _ he h s
  | unicode h =>
    rw [List.cons_append, readString.eq_def]
    have h34 : (92 : UInt16) ≠ 34 := by decide
    simp only [if_neg h34, if_true, List.cons_append, List.nil_append, h]
    cases readString s <;> rfl

theorem Spells.length_pos {u : UInt16} {spelling : JsString} (h : Spells u spelling) : 0 < spelling.length := by
  cases h <;> simp

theorem Literal.readString_eq {s x rest : JsString} (h : Literal s x rest) : readString s = some (x, rest) := by
  induction h with
  | close rest => exact readString_quote rest
  | unit hu _ ih =>
    rw [hu.readString_append, ih]
    rfl

theorem literal_of_readString {s x rest : JsString} (h : readString s = some (x, rest)) : Literal s x rest := by
  have hback : (92 : UInt16) ≠ 34 := by decide
  induction s using readString.induct generalizing x with
  | case1 => cases h
  | case2 s =>
    rw [readString_quote] at h
    cases h
    exact .close _
  | case3 => cases h
  | case4 a b c d s _ ih =>
    rw [readString.eq_def] at h
    simp only [if_neg hback, if_true, Option.bind_eq_bind, Option.bind_eq_some_iff] at h
    rcases h with ⟨u, hu, p, hp, hx⟩
    cases hx
    exact .unit (.unicode hu) (ih hp)
  | case5 s hshort =>
    rw [readString.eq_def] at h
    simp only [if_neg hback, if_true] at h
    cases h
  | case6 e s he _ ih =>
    rw [readString.eq_def] at h
    simp only [if_neg hback, if_true, if_neg he, Option.bind_eq_bind, Option.bind_eq_some_iff] at h
    rcases h with ⟨u, hu, p, hp, hx⟩
    cases hx
    exact .unit (.short he hu) (ih hp)
  | case7 u s hquote hbackslash hcontrol =>
    rw [readString.eq_def] at h
    simp only [if_neg hquote, if_neg hbackslash, if_pos hcontrol] at h
    cases h
  | case8 u s hquote hbackslash hcontrol ih =>
    rw [readString_plain hquote hbackslash hcontrol] at h
    rcases Option.map_eq_some_iff.mp h with ⟨p, hp, hx⟩
    cases hx
    exact .unit (.plain hquote hbackslash hcontrol) (ih hp)

theorem Literal.length_lt {s x rest : JsString} (h : Literal s x rest) : rest.length < s.length := by
  induction h with
  | close rest => exact Nat.lt_succ_self _
  | unit hu _ ih =>
    have hpos := hu.length_pos
    rw [List.length_append]
    omega

/-- What `QuoteJSONString` writes for a code unit spells it. -/
theorem spells_escapeUnit (u : UInt16) : Spells u (escapeUnit u) := by
  have hlt := u.toNat_lt
  have heq : ∀ n : ℕ, u.toNat = n → UInt16.ofNat n = u := fun n hn => by rw [← hn, UInt16.ofNat_toNat]
  rw [escapeUnit]
  split
  · next hn => exact .short (by decide) (congrArg some (heq 8 hn))
  · next hn => exact .short (by decide) (congrArg some (heq 9 hn))
  · next hn => exact .short (by decide) (congrArg some (heq 10 hn))
  · next hn => exact .short (by decide) (congrArg some (heq 12 hn))
  · next hn => exact .short (by decide) (congrArg some (heq 13 hn))
  · next hn => exact .short (by decide) (congrArg some (heq 34 hn))
  · next hn => exact .short (by decide) (congrArg some (heq 92 hn))
  · next hquote hbackslash =>
    split
    · exact .unicode (hexUnit?_hexDigits (by omega) (UInt16.ofNat_toNat ..))
    · next hplain =>
      refine .plain ?_ ?_ fun h => hplain (Or.inl h)
      · rintro rfl
        exact hquote rfl
      · rintro rfl
        exact hbackslash rfl

/-- Escaped pieces of a string are read back one after the other, wherever the string was cut. -/
theorem Literal.escapeUnits {t x rest : JsString} (h : Literal t x rest) (s : JsString) :
    Literal (escapeUnits s ++ t) (s ++ x) rest := by
  induction s using escapeUnits.induct with
  | case1 => exact h
  | case2 u => exact .unit (spells_escapeUnit u) h
  | case3 u v s hpair ih =>
    have hplain : ∀ w : UInt16, w.toNat ≥ 0xD800 → Spells w [w] := by
      intro w hw
      refine .plain ?_ ?_ (by omega)
      · rintro rfl
        exact absurd hw (by decide)
      · rintro rfl
        exact absurd hw (by decide)
    rw [Phi.escapeUnits, if_pos hpair]
    simp only [Bool.and_eq_true, Text.isHighSurrogate, Text.isLowSurrogate, decide_eq_true_eq] at hpair
    have hv : Literal ([v] ++ (Phi.escapeUnits s ++ t)) (v :: (s ++ x)) rest := .unit (hplain v (by omega)) ih
    have hu : Literal ([u] ++ ([v] ++ (Phi.escapeUnits s ++ t))) (u :: v :: (s ++ x)) rest :=
      .unit (hplain u (by omega)) hv
    exact hu
  | case4 u v s hpair ih =>
    rw [Phi.escapeUnits, if_neg hpair, List.append_assoc]
    exact .unit (spells_escapeUnit u) ih

/-! ## The grammar -/

/-- What is being read, with the items or members read before. -/
inductive Part where
  | value
  | items (items : List Json)
  | members (members : Table JsString Json)

def readPart (F : NumberFormat) (fuel : ℕ) : Part → JsString → Option (Json × JsString)
  | .value, s => readValue F fuel s
  | .items items, s => readItems F fuel items s
  | .members members, s => readMembers F fuel members s

inductive Derives (F : NumberFormat) : Part → JsString → Json → JsString → Prop where
  | emptyObject {s rest after} (hs : skipSpace s = 123 :: rest) (hrest : skipSpace rest = 125 :: after) :
    Derives F .value s (.object []) after
  | object {s rest v after} (hs : skipSpace s = 123 :: rest) (hne : (skipSpace rest).head? ≠ some 125)
    (h : Derives F (.members []) (skipSpace rest) v after) : Derives F .value s v after
  | emptyArray {s rest after} (hs : skipSpace s = 91 :: rest) (hrest : skipSpace rest = 93 :: after) :
    Derives F .value s (.array []) after
  | array {s rest v after} (hs : skipSpace s = 91 :: rest) (hne : (skipSpace rest).head? ≠ some 93)
    (h : Derives F (.items []) (skipSpace rest) v after) : Derives F .value s v after
  | string {s rest x after} (hs : skipSpace s = 34 :: rest) (h : readString rest = some (x, after)) :
    Derives F .value s (.string x) after
  | scalar {s u rest v after} (hs : skipSpace s = u :: rest) (hbrace : u ≠ 123) (hbracket : u ≠ 91) (hquote : u ≠ 34)
    (h : readScalar F (u :: rest) = some (v, after)) : Derives F .value s v after
  | lastItem {items s x mid rest} (hx : Derives F .value s x mid) (hmid : skipSpace mid = 93 :: rest) :
    Derives F (.items items) s (.array (items ++ [x])) rest
  | nextItem {items s x mid rest v after} (hx : Derives F .value s x mid) (hmid : skipSpace mid = 44 :: rest)
    (h : Derives F (.items (items ++ [x])) rest v after) : Derives F (.items items) s v after
  | lastMember {members s q key c b x mid rest} (hs : skipSpace s = 34 :: q) (hkey : readString q = some (key, c))
    (hcolon : skipSpace c = 58 :: b) (hx : Derives F .value b x mid) (hmid : skipSpace mid = 125 :: rest) :
    Derives F (.members members) s (.object (JsObject.define members key x)) rest
  | nextMember {members s q key c b x mid rest v after} (hs : skipSpace s = 34 :: q)
    (hkey : readString q = some (key, c)) (hcolon : skipSpace c = 58 :: b) (hx : Derives F .value b x mid)
    (hmid : skipSpace mid = 44 :: rest) (h : Derives F (.members (JsObject.define members key x)) rest v after) :
    Derives F (.members members) s v after

variable {F : NumberFormat}

/-! ## Reading finds a derivation -/

theorem derives_of_readValue {fuel : ℕ} {s : JsString} {v : Json} {after : JsString}
    (ih : ∀ part s v after, readPart F fuel part s = some (v, after) → Derives F part s v after)
    (h : readValue F (fuel + 1) s = some (v, after)) : Derives F .value s v after := by
  rw [readValue] at h
  split at h
  · cases h
  · next u rest hs =>
    split_ifs at h with hbrace hbracket hquote
    · subst hbrace
      split at h
      · cases h
      · next w tail hrest =>
        split_ifs at h with hw
        · cases h
          subst hw
          exact .emptyObject hs hrest
        · refine .object hs ?_ (ih (.members []) _ _ _ (by rw [hrest]; exact h))
          rw [hrest]
          simpa using hw
    · subst hbracket
      split at h
      · cases h
      · next w tail hrest =>
        split_ifs at h with hw
        · cases h
          subst hw
          exact .emptyArray hs hrest
        · refine .array hs ?_ (ih (.items []) _ _ _ (by rw [hrest]; exact h))
          rw [hrest]
          simpa using hw
    · subst hquote
      rcases Option.map_eq_some_iff.mp h with ⟨p, hp, hv⟩
      cases hv
      exact .string hs hp
    · exact .scalar hs hbrace hbracket hquote h

theorem derives_of_readItems {fuel : ℕ} {items : List Json} {s : JsString} {v : Json} {after : JsString}
    (ih : ∀ part s v after, readPart F fuel part s = some (v, after) → Derives F part s v after)
    (h : readItems F (fuel + 1) items s = some (v, after)) : Derives F (.items items) s v after := by
  rw [readItems] at h
  split at h
  · cases h
  · next x mid hx =>
    have hvalue := ih .value s x mid hx
    split at h
    · cases h
    · next u rest hmid =>
      split_ifs at h with hcomma hbracket
      · subst hcomma
        exact .nextItem hvalue hmid (ih (.items (items ++ [x])) _ _ _ h)
      · cases h
        subst hbracket
        exact .lastItem hvalue hmid

theorem derives_of_readMembers {fuel : ℕ} {members : Table JsString Json} {s : JsString} {v : Json} {after : JsString}
    (ih : ∀ part s v after, readPart F fuel part s = some (v, after) → Derives F part s v after)
    (h : readMembers F (fuel + 1) members s = some (v, after)) : Derives F (.members members) s v after := by
  rw [readMembers] at h
  split at h
  · cases h
  · next u q hs =>
    split_ifs at h with hquote
    subst hquote
    split at h
    · cases h
    · next key c hkey =>
      split at h
      · cases h
      · next w b hcolon =>
        split_ifs at h with hw
        subst hw
        split at h
        · cases h
        · next x mid hx =>
          have hvalue := ih .value b x mid hx
          split at h
          · cases h
          · next z rest hmid =>
            split_ifs at h with hcomma hbrace
            · subst hcomma
              exact .nextMember hs hkey hcolon hvalue hmid (ih (.members (JsObject.define members key x)) _ _ _ h)
            · cases h
              subst hbrace
              exact .lastMember hs hkey hcolon hvalue hmid

theorem derives_of_read {fuel : ℕ} {part : Part} {s : JsString} {v : Json} {after : JsString}
    (h : readPart F fuel part s = some (v, after)) : Derives F part s v after := by
  induction fuel generalizing part s v after with
  | zero => cases part <;> cases h
  | succ fuel ih =>
    have ih' := fun part s v after (h : readPart F fuel part s = some (v, after)) => ih h
    cases part with
    | value => exact derives_of_readValue ih' h
    | items items => exact derives_of_readItems ih' h
    | members members => exact derives_of_readMembers ih' h

/-! ## A derivation is found with enough fuel -/

theorem length_skipSpace_le (s : JsString) : (skipSpace s).length ≤ s.length :=
  (List.dropWhile_suffix _).length_le

theorem length_skipSpace {s rest : JsString} {u : UInt16} (h : skipSpace s = u :: rest) : rest.length < s.length := by
  have hle := length_skipSpace_le s
  rw [h, List.length_cons] at hle
  exact hle

theorem length_readScalar {s rest : JsString} {v : Json} (h : readScalar F s = some (v, rest)) :
    rest.length ≤ s.length := by
  have hdrop : ∀ n, (s.drop n).length ≤ s.length := fun n => by
    rw [List.length_drop]
    omega
  rw [readScalar] at h
  split_ifs at h
  · cases h
    exact hdrop 4
  · cases h
    exact hdrop 4
  · cases h
    exact hdrop 5
  · rcases Option.map_eq_some_iff.mp h with ⟨q, -, hq⟩
    cases hq
    exact (List.dropWhile_suffix _).length_le

theorem length_readString {s x rest : JsString} (h : readString s = some (x, rest)) : rest.length < s.length :=
  (literal_of_readString h).length_lt

/-- A value may be empty, where `F` reads a number from nothing; items and members are not. -/
theorem Derives.length_le {part : Part} {s : JsString} {v : Json} {rest : JsString} (h : Derives F part s v rest) :
    rest.length ≤ s.length := by
  induction h with
  | emptyObject hs hrest => linarith [length_skipSpace hs, length_skipSpace hrest]
  | @object _ rest _ _ hs _ _ ih => linarith [length_skipSpace hs, length_skipSpace_le rest]
  | emptyArray hs hrest => linarith [length_skipSpace hs, length_skipSpace hrest]
  | @array _ rest _ _ hs _ _ ih => linarith [length_skipSpace hs, length_skipSpace_le rest]
  | string hs h => linarith [length_skipSpace hs, length_readString h]
  | @scalar s u rest _ _ hs _ _ _ h =>
    have hread := length_readScalar h
    have hskip := length_skipSpace_le s
    rw [hs] at hskip
    omega
  | lastItem _ hmid ih => linarith [length_skipSpace hmid]
  | nextItem _ hmid _ ihx ih => linarith [length_skipSpace hmid]
  | lastMember hs hkey hcolon _ hmid ih =>
    linarith [length_skipSpace hs, length_readString hkey, length_skipSpace hcolon, length_skipSpace hmid]
  | nextMember hs hkey hcolon _ hmid _ ihx ih =>
    linarith [length_skipSpace hs, length_readString hkey, length_skipSpace hcolon, length_skipSpace hmid]

theorem Derives.length_lt_of_items {items : List Json} {s : JsString} {v : Json} {rest : JsString}
    (h : Derives F (.items items) s v rest) : rest.length < s.length := by
  cases h with
  | lastItem hx hmid => linarith [length_skipSpace hmid, hx.length_le]
  | nextItem hx hmid h => linarith [length_skipSpace hmid, hx.length_le, h.length_le]

/-- Fuel for one more than the characters read is enough. -/
theorem Derives.read {part : Part} {s : JsString} {v : Json} {rest : JsString} (h : Derives F part s v rest) :
    ∀ fuel, s.length < rest.length + fuel → readPart F fuel part s = some (v, rest) := by
  induction h with
  | @emptyObject s rest after hs hrest =>
    intro fuel hfuel
    have hle := length_skipSpace hs
    have hle' := length_skipSpace hrest
    rcases fuel with _ | fuel
    · omega
    · simp only [readPart, readValue, hs, hrest, if_true]
  | @object s rest v after hs hne h ih =>
    intro fuel hfuel
    have hle := length_skipSpace hs
    have hle' := length_skipSpace_le rest
    have hlt := h.length_le
    rcases fuel with _ | fuel
    · omega
    · have hread := ih fuel (by omega)
      rw [readPart, readValue, hs]
      simp only [if_true]
      cases hrest : skipSpace rest with
      | nil =>
        rw [hrest] at hread
        cases fuel <;> cases hread
      | cons w tail =>
        rw [hrest] at hread hne
        have hw : w ≠ 125 := by simpa using hne
        simp only [if_neg hw]
        exact hread
  | @emptyArray s rest after hs hrest =>
    intro fuel hfuel
    have hle := length_skipSpace hs
    have hle' := length_skipSpace hrest
    have hne : (91 : UInt16) ≠ 123 := by decide
    rcases fuel with _ | fuel
    · omega
    · simp only [readPart, readValue, hs, hrest, if_neg hne, if_true]
  | @array s rest v after hs hne h ih =>
    intro fuel hfuel
    have hle := length_skipSpace hs
    have hle' := length_skipSpace_le rest
    have hlt := h.length_le
    rcases fuel with _ | fuel
    · omega
    · have hread := ih fuel (by omega)
      rw [readPart, readValue, hs]
      simp only [if_neg (show (91 : UInt16) ≠ 123 by decide), if_true]
      cases hrest : skipSpace rest with
      | nil =>
        rw [hrest] at hread h
        exact absurd h.length_lt_of_items (by simp)
      | cons w tail =>
        rw [hrest] at hread hne
        have hw : w ≠ 93 := by simpa using hne
        simp only [if_neg hw]
        exact hread
  | @string s rest x after hs h =>
    intro fuel hfuel
    have hle := length_skipSpace hs
    have hlt := length_readString h
    rcases fuel with _ | fuel
    · omega
    · rw [readPart, readValue, hs]
      simp only [if_neg (show (34 : UInt16) ≠ 123 by decide), if_neg (show (34 : UInt16) ≠ 91 by decide), if_true, h]
      rfl
  | @scalar s u rest v after hs hbrace hbracket hquote h =>
    intro fuel hfuel
    have hle := length_skipSpace_le s
    have hlt := length_readScalar h
    rw [hs] at hle
    rcases fuel with _ | fuel
    · omega
    · rw [readPart, readValue, hs]
      simp only [if_neg hbrace, if_neg hbracket, if_neg hquote]
      exact h
  | @lastItem items s x mid rest hx hmid ih =>
    intro fuel hfuel
    have hle := length_skipSpace hmid
    have hlt := hx.length_le
    rcases fuel with _ | fuel
    · omega
    · have hread : readValue F fuel s = some (x, mid) := ih fuel (by omega)
      simp only [readPart, readItems, hread, hmid, if_neg (show (93 : UInt16) ≠ 44 by decide), if_true]
  | @nextItem items s x mid rest v after hx hmid h ihx ih =>
    intro fuel hfuel
    have hle := length_skipSpace hmid
    have hlt := hx.length_le
    have hlt' := h.length_le
    rcases fuel with _ | fuel
    · omega
    · have hread : readValue F fuel s = some (x, mid) := ihx fuel (by omega)
      have hrest : readItems F fuel (items ++ [x]) rest = some (v, after) := ih fuel (by omega)
      simp only [readPart, readItems, hread, hmid, if_true, hrest]
  | @lastMember members s q key c b x mid rest hs hkey hcolon hx hmid ih =>
    intro fuel hfuel
    have hle := length_skipSpace hs
    have hlt := length_readString hkey
    have hle' := length_skipSpace hcolon
    have hle'' := length_skipSpace hmid
    have hlt' := hx.length_le
    rcases fuel with _ | fuel
    · omega
    · have hread : readValue F fuel b = some (x, mid) := ih fuel (by omega)
      simp only [readPart, readMembers, hs, hkey, hcolon, hread, hmid, if_true,
        if_neg (show (125 : UInt16) ≠ 44 by decide)]
  | @nextMember members s q key c b x mid rest v after hs hkey hcolon hx hmid h ihx ih =>
    intro fuel hfuel
    have hle := length_skipSpace hs
    have hlt := length_readString hkey
    have hle' := length_skipSpace hcolon
    have hle'' := length_skipSpace hmid
    have hlt' := hx.length_le
    have hlt'' := h.length_le
    rcases fuel with _ | fuel
    · omega
    · have hread : readValue F fuel b = some (x, mid) := ihx fuel (by omega)
      have hrest : readMembers F fuel (JsObject.define members key x) rest = some (v, after) := ih fuel (by omega)
      simp only [readPart, readMembers, hs, hkey, hcolon, hread, hmid, if_true, hrest]

/-- The value and the rest of a text that `parse` accepts. -/
theorem derives_of_parse {s : JsString} {v : Json} (h : parse F s = some v) :
    ∃ rest, Derives F .value s v rest ∧ skipSpace rest = [] := by
  rw [parse] at h
  split at h
  · next w rest hread =>
    split_ifs at h with hrest
    cases h
    have hpart : readPart F (s.length + 1) .value s = some (v, rest) := hread
    exact ⟨rest, derives_of_read hpart, hrest⟩
  · cases h

theorem Derives.parse {s : JsString} {v : Json} {rest : JsString} (h : Derives F .value s v rest)
    (hrest : skipSpace rest = []) : parse F s = some v := by
  have hread : readValue F (s.length + 1) s = some (v, rest) := h.read (s.length + 1) (by omega)
  simp only [Phi.parse, hread, if_pos hrest]

/-! ## Only string literals hold quotes -/

/-- From `s` to `rest` over characters that are no quotes, and over whole string literals. -/
inductive Passes : JsString → JsString → Prop where
  | refl (s : JsString) : Passes s s
  | unit {u : UInt16} {s rest : JsString} (hu : u ≠ 34) (h : Passes s rest) : Passes (u :: s) rest
  | literal {s x mid rest : JsString} (hx : Literal s x mid) (h : Passes mid rest) : Passes (34 :: s) rest

namespace Passes

theorem trans {s mid rest : JsString} (h : Passes s mid) (h' : Passes mid rest) : Passes s rest := by
  induction h with
  | refl => exact h'
  | unit hu _ ih => exact .unit hu (ih h')
  | literal hx _ ih => exact .literal hx (ih h')

theorem append {front : JsString} (h : ∀ u ∈ front, u ≠ 34) (s : JsString) : Passes (front ++ s) s := by
  induction front with
  | nil => exact .refl s
  | cons u front ih =>
    rw [List.forall_mem_cons] at h
    exact .unit h.1 (ih h.2)

theorem dropWhile {f : UInt16 → Bool} (hf : f 34 = false) (s : JsString) : Passes s (s.dropWhile f) := by
  have hfront : ∀ u ∈ s.takeWhile f, u ≠ 34 := by
    rintro u hu rfl
    rw [List.mem_takeWhile_imp hu] at hf
    cases hf
  have h := append hfront (s.dropWhile f)
  rwa [List.takeWhile_append_dropWhile] at h

theorem skipSpace (s : JsString) : Passes s (skipSpace s) := dropWhile (by decide) s

theorem skipSpace_cons {s rest : JsString} {u : UInt16} (h : Phi.skipSpace s = u :: rest) (hu : u ≠ 34) :
    Passes s rest := by
  have hskip := skipSpace s
  rw [h] at hskip
  exact hskip.trans (.unit hu (.refl rest))

theorem skipSpace_literal {s q x rest : JsString} (h : Phi.skipSpace s = 34 :: q) (hx : readString q = some (x, rest)) :
    Passes s rest := by
  have hskip := skipSpace s
  rw [h] at hskip
  exact hskip.trans (.literal (literal_of_readString hx) (.refl rest))

end Passes

/-- The literal names hold no quote. -/
theorem ne_quote_of_mem_name {u : UInt16}
    (h : u ∈ JsString.ofAscii "null" ∨ u ∈ JsString.ofAscii "true" ∨ u ∈ JsString.ofAscii "false") : u ≠ 34 := by
  rintro rfl
  revert h
  decide

/-- A literal name or a number, as its text and what follows. -/
theorem readScalar_cases {s rest : JsString} {v : Json} (h : readScalar F s = some (v, rest)) :
    (∃ name, (∀ u ∈ name, u ≠ 34) ∧ s = name ++ rest ∧
      ∀ t, readScalar F (name ++ t) = some (v, t)) ∨
    (¬JsString.ofAscii "null" <+: s ∧ ¬JsString.ofAscii "true" <+: s ∧ ¬JsString.ofAscii "false" <+: s ∧
      (∃ q, F.read (s.takeWhile isNumberUnit) = some q ∧ v = .number q) ∧ rest = s.dropWhile isNumberUnit) := by
  have hdrop : ∀ name : JsString, name <+: s → s = name ++ s.drop name.length := fun name hname =>
    (List.prefix_iff_eq_append.mp hname).symm
  rw [readScalar] at h
  split_ifs at h with hnull htrue hfalse
  · cases h
    refine Or.inl ⟨JsString.ofAscii "null", fun u hu => ne_quote_of_mem_name (Or.inl hu), hdrop _ hnull, ?_⟩
    intro t
    rw [readScalar, if_pos (List.prefix_append ..)]
    rfl
  · cases h
    refine Or.inl ⟨JsString.ofAscii "true", fun u hu => ne_quote_of_mem_name (Or.inr (Or.inl hu)), hdrop _ htrue, ?_⟩
    intro t
    rfl
  · cases h
    refine Or.inl ⟨JsString.ofAscii "false", fun u hu => ne_quote_of_mem_name (Or.inr (Or.inr hu)), hdrop _ hfalse, ?_⟩
    intro t
    rfl
  · rcases Option.map_eq_some_iff.mp h with ⟨q, hq, hv⟩
    cases hv
    exact Or.inr ⟨hnull, htrue, hfalse, ⟨q, hq, rfl⟩, rfl⟩

theorem Derives.passes {part : Part} {s : JsString} {v : Json} {rest : JsString} (h : Derives F part s v rest) :
    Passes s rest := by
  induction h with
  | emptyObject hs hrest => exact (Passes.skipSpace_cons hs (by decide)).trans (.skipSpace_cons hrest (by decide))
  | @object _ rest _ _ hs _ _ ih => exact (Passes.skipSpace_cons hs (by decide)).trans ((Passes.skipSpace rest).trans ih)
  | emptyArray hs hrest => exact (Passes.skipSpace_cons hs (by decide)).trans (.skipSpace_cons hrest (by decide))
  | @array _ rest _ _ hs _ _ ih => exact (Passes.skipSpace_cons hs (by decide)).trans ((Passes.skipSpace rest).trans ih)
  | string hs h => exact .skipSpace_literal hs h
  | @scalar s u rest v after hs _ _ _ h =>
    have hskip := Passes.skipSpace s
    rw [hs] at hskip
    refine hskip.trans ?_
    rcases readScalar_cases h with ⟨name, hname, htext, -⟩ | ⟨-, -, -, -, rfl⟩
    · rw [htext]
      exact .append hname after
    · exact .dropWhile (by decide) _
  | lastItem _ hmid ih => exact ih.trans (.skipSpace_cons hmid (by decide))
  | nextItem _ hmid _ ihx ih => exact (ihx.trans (.skipSpace_cons hmid (by decide))).trans ih
  | lastMember hs hkey hcolon _ hmid ih =>
    have hcolon' := (Passes.skipSpace_literal hs hkey).trans (.skipSpace_cons hcolon (by decide))
    exact (hcolon'.trans ih).trans (.skipSpace_cons hmid (by decide))
  | nextMember hs hkey hcolon _ hmid _ ihx ih =>
    have hcolon' := (Passes.skipSpace_literal hs hkey).trans (.skipSpace_cons hcolon (by decide))
    exact ((hcolon'.trans ihx).trans (.skipSpace_cons hmid (by decide))).trans ih

/-- Every quote of a valid text opens or closes one of its string literals. -/
theorem passes_of_parse {s : JsString} {v : Json} (h : parse F s = some v) : Passes s [] := by
  rcases derives_of_parse h with ⟨rest, hv, hrest⟩
  have hskip := Passes.skipSpace rest
  rw [hrest] at hskip
  exact hv.passes.trans hskip

/-! ## Other spellings -/

/-- The same text but for the spelling of its string literals. -/
inductive Respelled : JsString → JsString → Prop where
  | nil : Respelled [] []
  | unit {u : UInt16} {s t : JsString} (hu : u ≠ 34) (h : Respelled s t) : Respelled (u :: s) (u :: t)
  | literal {s t x rest rest' : JsString} (hs : Literal s x rest) (ht : Literal t x rest') (h : Respelled rest rest') :
    Respelled (34 :: s) (34 :: t)

namespace Respelled

theorem symm {s t : JsString} (h : Respelled s t) : Respelled t s := by
  induction h with
  | nil => exact .nil
  | unit hu _ ih => exact .unit hu ih
  | literal hs ht _ ih => exact .literal ht hs ih

theorem takeWhile {s t : JsString} (h : Respelled s t) {f : UInt16 → Bool} (hf : f 34 = false) :
    s.takeWhile f = t.takeWhile f ∧ Respelled (s.dropWhile f) (t.dropWhile f) := by
  induction h with
  | nil => exact ⟨rfl, .nil⟩
  | @unit u s t hu h ih =>
    cases hfu : f u with
    | false =>
      simp only [List.takeWhile_cons, List.dropWhile_cons, hfu]
      exact ⟨rfl, .unit hu h⟩
    | true =>
      simp only [List.takeWhile_cons, List.dropWhile_cons, hfu, if_true]
      exact ⟨congrArg _ ih.1, ih.2⟩
  | literal hs ht h ih =>
    simp only [List.takeWhile_cons, List.dropWhile_cons, hf]
    exact ⟨rfl, .literal hs ht h⟩

theorem append {front s t : JsString} (hfront : ∀ u ∈ front, u ≠ 34) (h : Respelled (front ++ s) t) :
    ∃ t', t = front ++ t' ∧ Respelled s t' := by
  induction front generalizing t with
  | nil => exact ⟨t, rfl, h⟩
  | cons u front ih =>
    rw [List.forall_mem_cons] at hfront
    cases h with
    | unit hu h =>
      rcases ih hfront.2 h with ⟨t', rfl, h'⟩
      exact ⟨t', rfl, h'⟩
    | literal => exact (hfront.1 rfl).elim

theorem isPrefix_iff {name s t : JsString} (hname : ∀ u ∈ name, u ≠ 34) (h : Respelled s t) :
    name <+: s ↔ name <+: t := by
  have hone : ∀ {s t : JsString}, Respelled s t → name <+: s → name <+: t := by
    rintro s t h ⟨s', rfl⟩
    rcases append hname h with ⟨t', rfl, -⟩
    exact List.prefix_append ..
  exact ⟨hone h, hone h.symm⟩

theorem skipSpace_cons {s t rest : JsString} {u : UInt16} (h : Respelled s t) (hs : skipSpace s = u :: rest)
    (hu : u ≠ 34) : ∃ rest', skipSpace t = u :: rest' ∧ Respelled rest rest' := by
  have hskip : Respelled (skipSpace s) (skipSpace t) := (h.takeWhile (by decide)).2
  rw [hs] at hskip
  cases hskip' : skipSpace t with
  | nil =>
    rw [hskip'] at hskip
    cases hskip
  | cons w rest' =>
    rw [hskip'] at hskip
    cases hskip with
    | unit _ h => exact ⟨rest', rfl, h⟩
    | literal => exact (hu rfl).elim

theorem skipSpace_literal {s t q x rest : JsString} (h : Respelled s t) (hs : skipSpace s = 34 :: q)
    (hx : readString q = some (x, rest)) :
    ∃ q' rest', skipSpace t = 34 :: q' ∧ readString q' = some (x, rest') ∧ Respelled rest rest' := by
  have hskip : Respelled (skipSpace s) (skipSpace t) := (h.takeWhile (by decide)).2
  rw [hs] at hskip
  cases hskip' : skipSpace t with
  | nil =>
    rw [hskip'] at hskip
    cases hskip
  | cons w q' =>
    rw [hskip'] at hskip
    cases hskip with
    | unit hu _ => exact (hu rfl).elim
    | @literal _ _ y rest₀ rest' hq hq' h =>
      have heq := hq.readString_eq
      rw [hx] at heq
      cases heq
      exact ⟨q', rest', rfl, hq'.readString_eq, h⟩

theorem head?_ne {s t : JsString} (h : Respelled s t) {u : UInt16} (hne : (skipSpace s).head? ≠ some u) :
    (skipSpace t).head? ≠ some u := by
  have hskip : Respelled (skipSpace s) (skipSpace t) := (h.takeWhile (by decide)).2
  generalize skipSpace s = s' at hskip hne
  generalize skipSpace t = t' at hskip
  cases hskip <;> exact hne

end Respelled

theorem readScalar_respelled {s t rest : JsString} {v : Json} (h : readScalar F s = some (v, rest))
    (hst : Respelled s t) : ∃ rest', readScalar F t = some (v, rest') ∧ Respelled rest rest' := by
  rcases readScalar_cases h with ⟨name, hname, rfl, hread⟩ | ⟨hnull, htrue, hfalse, ⟨q, hq, rfl⟩, rfl⟩
  · rcases hst.append hname with ⟨t', rfl, h'⟩
    exact ⟨t', hread t', h'⟩
  · have hnumber := hst.takeWhile (f := isNumberUnit) (by decide)
    rw [hst.isPrefix_iff fun u hu => ne_quote_of_mem_name (Or.inl hu)] at hnull
    rw [hst.isPrefix_iff fun u hu => ne_quote_of_mem_name (Or.inr (Or.inl hu))] at htrue
    rw [hst.isPrefix_iff fun u hu => ne_quote_of_mem_name (Or.inr (Or.inr hu))] at hfalse
    refine ⟨t.dropWhile isNumberUnit, ?_, hnumber.2⟩
    rw [readScalar, if_neg hnull, if_neg htrue, if_neg hfalse, ← hnumber.1, hq]
    rfl

/-- A derivation of the respelled text, with the same value. -/
theorem Derives.respelled {part : Part} {s : JsString} {v : Json} {rest : JsString} (h : Derives F part s v rest) :
    ∀ {t}, Respelled s t → ∃ rest', Derives F part t v rest' ∧ Respelled rest rest' := by
  induction h with
  | emptyObject hs hrest =>
    intro t ht
    rcases ht.skipSpace_cons hs (by decide) with ⟨r, hs', hr⟩
    rcases hr.skipSpace_cons hrest (by decide) with ⟨r', hrest', hr'⟩
    exact ⟨r', .emptyObject hs' hrest', hr'⟩
  | object hs hne _ ih =>
    intro t ht
    rcases ht.skipSpace_cons hs (by decide) with ⟨r, hs', hr⟩
    rcases ih (hr.takeWhile (by decide)).2 with ⟨r', hv, hr'⟩
    exact ⟨r', .object hs' (hr.head?_ne hne) hv, hr'⟩
  | emptyArray hs hrest =>
    intro t ht
    rcases ht.skipSpace_cons hs (by decide) with ⟨r, hs', hr⟩
    rcases hr.skipSpace_cons hrest (by decide) with ⟨r', hrest', hr'⟩
    exact ⟨r', .emptyArray hs' hrest', hr'⟩
  | array hs hne _ ih =>
    intro t ht
    rcases ht.skipSpace_cons hs (by decide) with ⟨r, hs', hr⟩
    rcases ih (hr.takeWhile (by decide)).2 with ⟨r', hv, hr'⟩
    exact ⟨r', .array hs' (hr.head?_ne hne) hv, hr'⟩
  | string hs hx =>
    intro t ht
    rcases ht.skipSpace_literal hs hx with ⟨q', r', hs', hx', hr'⟩
    exact ⟨r', .string hs' hx', hr'⟩
  | scalar hs hbrace hbracket hquote hread =>
    intro t ht
    rcases ht.skipSpace_cons hs hquote with ⟨r, hs', hr⟩
    rcases readScalar_respelled hread (.unit hquote hr) with ⟨r', hread', hr'⟩
    exact ⟨r', .scalar hs' hbrace hbracket hquote hread', hr'⟩
  | lastItem _ hmid ih =>
    intro t ht
    rcases ih ht with ⟨m, hx, hm⟩
    rcases hm.skipSpace_cons hmid (by decide) with ⟨r, hmid', hr⟩
    exact ⟨r, .lastItem hx hmid', hr⟩
  | nextItem _ hmid _ ihx ih =>
    intro t ht
    rcases ihx ht with ⟨m, hx, hm⟩
    rcases hm.skipSpace_cons hmid (by decide) with ⟨r, hmid', hr⟩
    rcases ih hr with ⟨r', hv, hr'⟩
    exact ⟨r', .nextItem hx hmid' hv, hr'⟩
  | lastMember hs hkey hcolon _ hmid ih =>
    intro t ht
    rcases ht.skipSpace_literal hs hkey with ⟨q, c, hs', hkey', hc⟩
    rcases hc.skipSpace_cons hcolon (by decide) with ⟨b, hcolon', hb⟩
    rcases ih hb with ⟨m, hx, hm⟩
    rcases hm.skipSpace_cons hmid (by decide) with ⟨r, hmid', hr⟩
    exact ⟨r, .lastMember hs' hkey' hcolon' hx hmid', hr⟩
  | nextMember hs hkey hcolon _ hmid _ ihx ih =>
    intro t ht
    rcases ht.skipSpace_literal hs hkey with ⟨q, c, hs', hkey', hc⟩
    rcases hc.skipSpace_cons hcolon (by decide) with ⟨b, hcolon', hb⟩
    rcases ihx hb with ⟨m, hx, hm⟩
    rcases hm.skipSpace_cons hmid (by decide) with ⟨r, hmid', hr⟩
    rcases ih hr with ⟨r', hv, hr'⟩
    exact ⟨r', .nextMember hs' hkey' hcolon' hx hmid' hv, hr'⟩

theorem parse_respelled {s t : JsString} (h : Respelled s t) {v : Json} (hv : parse F s = some v) :
    parse F t = some v := by
  rcases derives_of_parse hv with ⟨rest, hs, hrest⟩
  rcases hs.respelled h with ⟨rest', ht, hr⟩
  have hskip : Respelled (skipSpace rest) (skipSpace rest') := (hr.takeWhile (by decide)).2
  rw [hrest] at hskip
  refine ht.parse ?_
  generalize skipSpace rest' = r at hskip
  cases hskip
  rfl

end JsonGrammar

end Phi
