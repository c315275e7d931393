import Phi.Data.JsonText
import Phi.Data.Utf8

/-!
# The JSON text of values

`stringify` is `JSON.stringify` of a value and `parse` is `JSON.parse`. How a number is written is left to a
`NumberFormat`: all that is used of `Number.prototype.toString` is the characters it writes and that the
number is read back.

`parse_stringify` says that a value is read back from its text when its objects list their members in
enumeration order, as objects do. The text is one line of a text file (`isLine_stringify`).
-/

namespace Phi

/-! ## Numbers -/

/-- A character of a number literal: a digit, a sign, a point or an exponent mark. -/
def isNumberUnit (u : UInt16) : Bool :=
  isDigit u || u.toNat = 43 || u.toNat = 45 || u.toNat = 46 || u.toNat = 69 || u.toNat = 101

/-- How numbers are written and read. -/
structure NumberFormat where
  text : ℚ → JsString
  read : JsString → Option ℚ
  chars : ∀ q, ∀ u ∈ text q, isNumberUnit u = true
  head : ∀ q, ∃ u ∈ (text q).head?, isDigit u = true ∨ u.toNat = 45
  read_text : ∀ q, read (text q) = some q

/-- The number that decimal digits spell. -/
def digitsValue (s : JsString) : ℕ := s.foldl (fun n u => n * 10 + (u.toNat - 48)) 0

theorem digitsValue_numberText (n : ℕ) : digitsValue (numberText n) = n := by
  unfold digitsValue numberText
  split_ifs with hn
  · rw [hn]
    rfl
  · have hdigits : ∀ ds : List ℕ, (∀ d ∈ ds, d < 10) →
        (ds.reverse.map fun d => UInt16.ofNat (48 + d)).foldl (fun n u => n * 10 + (u.toNat - 48)) 0
          = Nat.ofDigits 10 ds := by
      intro ds
      induction ds with
      | nil => intro _; rfl
      | cons d ds ih =>
        intro h
        rw [List.forall_mem_cons] at h
        rw [List.reverse_cons, List.map_append, List.foldl_append, ih h.2, Nat.ofDigits_cons]
        simp only [List.map_cons, List.map_nil, List.foldl_cons, List.foldl_nil, toNat_digit h.1]
        push_cast
        omega
    rw [hdigits _ fun d hd => Nat.digits_lt_base (by omega) hd, Nat.ofDigits_digits]

/-- The digits at the front of a text, and what comes after them. -/
theorem span_numberText (n : ℕ) {rest : JsString} (h : ∀ u ∈ rest.head?, isDigit u = false) :
    (numberText n ++ rest).takeWhile isDigit = numberText n ∧ (numberText n ++ rest).dropWhile isDigit = rest := by
  have hall : ∀ u ∈ numberText n, isDigit u = true := fun u hu => isDigit_of_mem_numberText hu
  have hrest : rest.takeWhile isDigit = [] ∧ rest.dropWhile isDigit = rest := by
    cases rest with
    | nil => exact ⟨rfl, rfl⟩
    | cons u rest =>
      have hu : isDigit u = false := h u rfl
      exact ⟨List.takeWhile_cons_of_neg (by simp [hu]), List.dropWhile_cons_of_neg (by simp [hu])⟩
  rw [List.takeWhile_append_of_pos hall, List.dropWhile_append_of_pos hall, hrest.1, hrest.2, List.append_nil]
  exact ⟨rfl, rfl⟩

/-- A format that writes an integer as its numeral, and any other number as a fraction with a point for the bar. -/
def NumberFormat.fractions : NumberFormat where
  text q := (if q.num < 0 then [45] else []) ++ numberText q.num.natAbs
    ++ if q.den = 1 then [] else 46 :: numberText q.den
  read s :=
    let digits := if s.head? = some 45 then s.tail else s
    let sign : ℤ := if s.head? = some 45 then -1 else 1
    let denominator := (digits.dropWhile isDigit).tail
    some (sign * digitsValue (digits.takeWhile isDigit) / if denominator = [] then 1 else digitsValue denominator)
  chars q := by
    have hdigit : ∀ n, ∀ u ∈ numberText n, isNumberUnit u = true := by
      intro n u hu
      simp [isNumberUnit, isDigit_of_mem_numberText hu]
    intro u hu
    simp only [List.mem_append] at hu
    rcases hu with (hu | hu) | hu
    · split_ifs at hu
      · rw [List.mem_singleton.mp hu]
        rfl
      · exact absurd hu List.not_mem_nil
    · exact hdigit _ u hu
    · split_ifs at hu
      · exact absurd hu List.not_mem_nil
      · rcases List.mem_cons.mp hu with rfl | hu
        · rfl
        · exact hdigit _ u hu
  head q := by
    by_cases hneg : q.num < 0
    · exact ⟨45, by simp [hneg], Or.inr rfl⟩
    · rcases List.exists_cons_of_ne_nil (numberText_ne_nil q.num.natAbs) with ⟨u, s, hs⟩
      refine ⟨u, by simp [hneg, hs], Or.inl (isDigit_of_mem_numberText (n := q.num.natAbs) ?_)⟩
      rw [hs]
      exact List.mem_cons_self ..
  read_text q := by
    have hrest : ∀ u ∈ (if q.den = 1 then [] else 46 :: numberText q.den : JsString).head?, isDigit u = false := by
      split_ifs
      · simp
      · rintro u ⟨⟩
        rfl
    rcases span_numberText q.num.natAbs hrest with ⟨htake, hdrop⟩
    -- the sign is the first character, and no numeral starts with it
    have hsign : ((if q.num < 0 then [45] else []) ++ numberText q.num.natAbs
        ++ if q.den = 1 then [] else 46 :: numberText q.den).head? = some 45 ↔ q.num < 0 := by
      by_cases hneg : q.num < 0
      · simp [hneg]
      · rcases List.exists_cons_of_ne_nil (numberText_ne_nil q.num.natAbs) with ⟨u, s, hs⟩
        have hu : isDigit u = true := isDigit_of_mem_numberText (n := q.num.natAbs) (by rw [hs]; exact List.mem_cons_self ..)
        have hne : u ≠ 45 := by
          rintro rfl
          cases hu
        simp [hneg, hs, hne]
    have hden : (if (if q.den = 1 then [] else 46 :: numberText q.den : JsString).tail = [] then (1 : ℚ)
        else digitsValue (if q.den = 1 then [] else 46 :: numberText q.den : JsString).tail) = q.den := by
      by_cases hone : q.den = 1
      · simp [hone]
      · simp [hone, numberText_ne_nil, digitsValue_numberText]
    have hnum : ((if q.num < 0 then (-1 : ℤ) else 1 : ℤ) : ℚ) * (q.num.natAbs : ℕ) = q.num := by
      split_ifs with hneg
      · rw [← Int.cast_natCast, ← Int.cast_mul]
        congr 1
        omega
      · rw [← Int.cast_natCast, ← Int.cast_mul]
        congr 1
        omega
    have hdigits : (if q.num < 0 then ((if q.num < 0 then [45] else []) ++ numberText q.num.natAbs
        ++ if q.den = 1 then [] else 46 :: numberText q.den).tail
        else (if q.num < 0 then [45] else []) ++ numberText q.num.natAbs
          ++ if q.den = 1 then [] else 46 :: numberText q.den)
        = numberText q.num.natAbs ++ if q.den = 1 then [] else 46 :: numberText q.den := by
      by_cases hneg : q.num < 0
      · simp [hneg]
      · simp [hneg]
    simp only [hsign, hdigits, htake, hdrop, digitsValue_numberText, Nat.cast_ite, Nat.cast_one]
    rw [hden, hnum, Rat.num_div_den]

/-! ## Strings -/

def quote (s : JsString) : JsString := 34 :: (escapeUnits s ++ [34])

/-- The value of a hexadecimal digit, in either case. -/
def hexValue? (u : UInt16) : Option ℕ :=
  if isDigit u then some (u.toNat - 48)
  else if 97 ≤ u.toNat ∧ u.toNat ≤ 102 then some (u.toNat - 87)
  else if 65 ≤ u.toNat ∧ u.toNat ≤ 70 then some (u.toNat - 55)
  else none

/-- The value of an escape after its backslash, other than `\\u`. -/
def shortEscape? (u : UInt16) : Option UInt16 :=
  match u.toNat with
  | 34 => some 34
  | 92 => some 92
  | 47 => some 47
  | 98 => some 8
  | 102 => some 12
  | 110 => some 10
  | 114 => some 13
  | 116 => some 9
  | _ => none

/-- The code unit of four hexadecimal digits. -/
def hexUnit? (a b c d : UInt16) : Option UInt16 := do
  let a ← hexValue? a
  let b ← hexValue? b
  let c ← hexValue? c
  let d ← hexValue? d
  return UInt16.ofNat (((a * 16 + b) * 16 + c) * 16 + d)

/-- Read the inside of a JSON string up to and with its closing quote. -/
def readString : JsString → Option (JsString × JsString)
  | [] => none
  | u :: rest =>
    if u = 34 then some ([], rest)
    else if u = 92 then
      match rest with
      | [] => none
      | e :: rest =>
        if e = 117 then
          match rest with
          | a :: b :: c :: d :: rest => do
            let unit ← hexUnit? a b c d
            let p ← readString rest
            return (unit :: p.1, p.2)
          | _ => none
        else do
          let unit ← shortEscape? e
          let p ← readString rest
          return (unit :: p.1, p.2)
    else if u.toNat < 32 then none
    else do
      let p ← readString rest
      return (u :: p.1, p.2)

/-- Put a code unit before the string that was read. -/
def consUnit (u : UInt16) (p : JsString × JsString) : JsString × JsString := (u :: p.1, p.2)

theorem readString_quote (rest : JsString) : readString (34 :: rest) = some ([], rest) := by
  rw [readString.eq_def]
  rfl

theorem readString_plain {u : UInt16} (h34 : u ≠ 34) (h92 : u ≠ 92) (h32 : ¬u.toNat < 32) (rest : JsString) :
    readString (u :: rest) = (readString rest).map (consUnit u) := by
  rw [readString.eq_def]
  simp only [if_neg h34, if_neg h92, if_neg h32]
  cases readString rest <;> rfl

theorem readString_short (e : UInt16) {u : UInt16} (he : e ≠ 117) (hu : shortEscape? e = some u) (rest : JsString) :
    readString (92 :: e :: rest) = (readString rest).map (consUnit u) := by
  rw [readString.eq_def]
  have h34 : (92 : UInt16) ≠ 34 := by decide
  simp only [if_neg h34, if_true, if_neg he, hu]
  cases readString rest <;> rfl

theorem hexValue?_hexDigit {n : ℕ} (h : n < 16) : hexValue? (hexDigit n) = some n := by
  have hto : (hexDigit n).toNat = if n < 10 then 48 + n else 87 + n := by
    rw [hexDigit, UInt16.toNat_ofNat']
    split <;> omega
  simp only [hexValue?, isDigit, hto, Bool.and_eq_true, decide_eq_true_eq]
  by_cases hn : n < 10
  · rw [if_pos hn, if_pos (by omega)]
    congr 1
    omega
  · rw [if_neg hn, if_neg (by omega), if_pos (by omega)]
    congr 1
    omega

theorem readString_hex {n : ℕ} (h : n < 65536) (rest : JsString) :
    readString ([92, 117, hexDigit (n / 4096), hexDigit (n / 256 % 16), hexDigit (n / 16 % 16), hexDigit (n % 16)]
        ++ rest) = (readString rest).map (consUnit (UInt16.ofNat n)) := by
  have h34 : (92 : UInt16) ≠ 34 := by decide
  have hunit : hexUnit? (hexDigit (n / 4096)) (hexDigit (n / 256 % 16)) (hexDigit (n / 16 % 16)) (hexDigit (n % 16))
      = some (UInt16.ofNat n) := by
    have hn : ((n / 4096 * 16 + n / 256 % 16) * 16 + n / 16 % 16) * 16 + n % 16 = n := by omega
    simp only [hexUnit?, hexValue?_hexDigit (show n / 4096 < 16 by omega),
      hexValue?_hexDigit (show n / 256 % 16 < 16 by omega), hexValue?_hexDigit (show n / 16 % 16 < 16 by omega),
      hexValue?_hexDigit (show n % 16 < 16 by omega)]
    show some (UInt16.ofNat (((n / 4096 * 16 + n / 256 % 16) * 16 + n / 16 % 16) * 16 + n % 16)) = _
    rw [hn]
  rw [List.cons_append, readString.eq_def]
  simp only [if_neg h34, if_true, List.cons_append, List.nil_append, hunit]
  cases readString rest <;> rfl

/-- An escaped code unit is read back. -/
theorem readString_escapeUnit (u : UInt16) (rest : JsString) :
    readString (escapeUnit u ++ rest) = (readString rest).map (consUnit u) := by
  have hlt := u.toNat_lt
  have hcase : ∀ n : ℕ, u.toNat = n → UInt16.ofNat n = u := fun n hn => by rw [← hn, UInt16.ofNat_toNat]
  rw [escapeUnit]
  split
  · next h => exact readString_short 98 (by decide) (congrArg some (hcase 8 h)) rest
  · next h => exact readString_short 116 (by decide) (congrArg some (hcase 9 h)) rest
  · next h => exact readString_short 110 (by decide) (congrArg some (hcase 10 h)) rest
  · next h => exact readString_short 102 (by decide) (congrArg some (hcase 12 h)) rest
  · next h => exact readString_short 114 (by decide) (congrArg some (hcase 13 h)) rest
  · next h => exact readString_short 34 (by decide) (congrArg some (hcase 34 h)) rest
  · next h => exact readString_short 92 (by decide) (congrArg some (hcase 92 h)) rest
  · next h34 h92 =>
    split
    · rw [readString_hex (by omega), UInt16.ofNat_toNat]
    · next hplain =>
      refine readString_plain (fun h => h34 (by rw [h]; rfl)) (fun h => h92 (by rw [h]; rfl)) ?_ rest
      exact fun h => hplain (Or.inl h)

theorem readString_escapeUnits (s rest : JsString) :
    readString (escapeUnits s ++ 34 :: rest) = some (s, rest) := by
  induction s using escapeUnits.induct with
  | case1 => exact readString_quote rest
  | case2 u =>
    rw [escapeUnits, readString_escapeUnit, readString_quote]
    rfl
  | case3 u v tail hpair ih =>
    have hne : ∀ w : UInt16, w.toNat ≥ 0xD800 → w ≠ 34 ∧ w ≠ 92 ∧ ¬w.toNat < 32 := by
      intro w hw
      refine ⟨?_, ?_, by omega⟩ <;> (rintro rfl; simp at hw)
    rw [escapeUnits, if_pos hpair]
    simp only [Bool.and_eq_true, Text.isHighSurrogate, Text.isLowSurrogate, decide_eq_true_eq] at hpair
    rcases hne u (by omega) with ⟨hu34, hu92, hu32⟩
    rcases hne v (by omega) with ⟨hv34, hv92, hv32⟩
    rw [List.cons_append, List.cons_append, readString_plain hu34 hu92 hu32, readString_plain hv34 hv92 hv32, ih]
    rfl
  | case4 u v tail hpair ih =>
    rw [escapeUnits, if_neg hpair, List.append_assoc, readString_escapeUnit, ih]
    rfl

/-! ## Values -/

mutual

/-- `JSON.stringify`. -/
def stringify (F : NumberFormat) : Json → JsString
  | .null => JsString.ofAscii "null"
  | .bool true => JsString.ofAscii "true"
  | .bool false => JsString.ofAscii "false"
  | .number q => F.text q
  | .string s => quote s
  | .array [] => [91, 93]
  | .array (x :: xs) => 91 :: (stringify F x ++ stringifyItems F xs)
  | .object [] => [123, 125]
  | .object ((k, v) :: es) => 123 :: (quote k ++ 58 :: (stringify F v ++ stringifyMembers F es))

/-- The items after the first, and the closing bracket. -/
def stringifyItems (F : NumberFormat) : List Json → JsString
  | [] => [93]
  | x :: xs => 44 :: (stringify F x ++ stringifyItems F xs)

/-- The members after the first, and the closing brace. -/
def stringifyMembers (F : NumberFormat) : List (JsString × Json) → JsString
  | [] => [125]
  | (k, v) :: es => 44 :: (quote k ++ 58 :: (stringify F v ++ stringifyMembers F es))

end

/-- White space between tokens. -/
def isSpace (u : UInt16) : Bool := u.toNat = 32 || u.toNat = 9 || u.toNat = 10 || u.toNat = 13

def skipSpace (s : JsString) : JsString := s.dropWhile isSpace

/-- A literal name or a number. -/
def readScalar (F : NumberFormat) (s : JsString) : Option (Json × JsString) :=
  if JsString.ofAscii "null" <+: s then some (.null, s.drop 4)
  else if JsString.ofAscii "true" <+: s then some (.bool true, s.drop 4)
  else if JsString.ofAscii "false" <+: s then some (.bool false, s.drop 5)
  else (F.read (s.takeWhile isNumberUnit)).map fun q => (.number q, s.dropWhile isNumberUnit)

mutual

/-- Read a value; `fuel` bounds the nesting and the number of items. -/
def readValue (F : NumberFormat) : ℕ → JsString → Option (Json × JsString)
  | 0, _ => none
  | fuel + 1, s =>
    match skipSpace s with
    | [] => none
    | u :: rest =>
      if u = 123 then
        match skipSpace rest with
        | [] => none
        | v :: after => if v = 125 then some (.object [], after) else readMembers F fuel [] (v :: after)
      else if u = 91 then
        match skipSpace rest with
        | [] => none
        | v :: after => if v = 93 then some (.array [], after) else readItems F fuel [] (v :: after)
      else if u = 34 then (readString rest).map fun p => (.string p.1, p.2)
      else readScalar F (u :: rest)

/-- Read an item and what follows it, up to the closing bracket. -/
def readItems (F : NumberFormat) : ℕ → List Json → JsString → Option (Json × JsString)
  | 0, _, _ => none
  | fuel + 1, items, s =>
    match readValue F fuel s with
    | none => none
    | some (x, s) =>
      match skipSpace s with
      | [] => none
      | u :: rest =>
        if u = 44 then readItems F fuel (items ++ [x]) rest
        else if u = 93 then some (.array (items ++ [x]), rest)
        else none

/-- Read a member and what follows it, up to the closing brace. -/
def readMembers (F : NumberFormat) : ℕ → Table JsString Json → JsString → Option (Json × JsString)
  | 0, _, _ => none
  | fuel + 1, members, s =>
    match skipSpace s with
    | [] => none
    | q :: s =>
      if q = 34 then
        match readString s with
        | none => none
        | some (key, s) =>
          match skipSpace s with
          | [] => none
          | c :: s =>
            if c = 58 then
              match readValue F fuel s with
              | none => none
              | some (v, s) =>
                match skipSpace s with
                | [] => none
                | u :: rest =>
                  if u = 44 then readMembers F fuel (JsObject.define members key v) rest
                  else if u = 125 then some (.object (JsObject.define members key v), rest)
                  else none
            else none
      else none

end

/-- `JSON.parse`; `none` is a `SyntaxError`. -/
def parse (F : NumberFormat) (s : JsString) : Option Json :=
  match readValue F (s.length + 1) s with
  | some (v, rest) => if skipSpace rest = [] then some v else none
  | none => none

/-! ## What is written is read back -/

/-- Every object lists its members in enumeration order. -/
inductive Json.Enumerated : Json → Prop where
  | null : Enumerated .null
  | bool (b : Bool) : Enumerated (.bool b)
  | number (q : ℚ) : Enumerated (.number q)
  | string (s : JsString) : Enumerated (.string s)
  | array {xs : List Json} (h : ∀ x ∈ xs, Enumerated x) : Enumerated (.array xs)
  | object {es : List (JsString × Json)} (hkeys : (Table.keys es).Pairwise JsObject.KeyBefore)
    (h : ∀ e ∈ es, Enumerated e.2) : Enumerated (.object es)

/-- What follows does not continue a number. -/
def Stops (rest : JsString) : Prop := ∀ u ∈ rest.head?, isNumberUnit u = false

/-- The value is read back from its text, whatever follows. -/
def ReadsBack (F : NumberFormat) (v : Json) : Prop :=
  ∀ fuel rest, (stringify F v).length ≤ fuel → Stops rest →
    readValue F fuel (stringify F v ++ rest) = some (v, rest)

theorem skipSpace_cons {u : UInt16} (h : isSpace u = false) (rest : JsString) :
    skipSpace (u :: rest) = u :: rest := by
  rw [skipSpace, List.dropWhile_cons_of_neg (by simp [h])]

theorem stops_cons {u : UInt16} (h : isNumberUnit u = false) (rest : JsString) : Stops (u :: rest) := by
  rintro v ⟨⟩
  exact h

/-- The first character of a value. -/
theorem stringify_head (F : NumberFormat) (v : Json) :
    ∃ u s, stringify F v = u :: s ∧ isSpace u = false ∧ u ≠ 93 ∧ u ≠ 125 := by
  cases v with
  | null => exact ⟨110, _, rfl, by decide⟩
  | bool b => cases b <;> exact ⟨_, _, rfl, by decide⟩
  | number q =>
    rcases F.head q with ⟨u, hu, hdigit⟩
    rcases List.head?_eq_some_iff.mp hu with ⟨s, hs⟩
    refine ⟨u, s, by rw [stringify, hs], ?_⟩
    have hrange : (48 ≤ u.toNat ∧ u.toNat ≤ 57) ∨ u.toNat = 45 := by simpa [isDigit] using hdigit
    refine ⟨?_, ?_, ?_⟩
    · simp only [isSpace, Bool.or_eq_false_iff, decide_eq_false_iff_not]
      omega
    · rintro rfl
      simp at hrange
    · rintro rfl
      simp at hrange
  | string s => exact ⟨34, _, rfl, by decide⟩
  | array xs => cases xs <;> exact ⟨91, _, by rw [stringify], by decide⟩
  | object es =>
    cases es with
    | nil => exact ⟨123, _, by rw [stringify], by decide⟩
    | cons e es => exact ⟨123, _, by rw [stringify], by decide⟩

theorem stringify_length_pos (F : NumberFormat) (v : Json) : 1 ≤ (stringify F v).length := by
  rcases stringify_head F v with ⟨u, s, h, -⟩
  rw [h, List.length_cons]
  omega

theorem readsBack_number (F : NumberFormat) (q : ℚ) : ReadsBack F (.number q) := by
  intro fuel rest hfuel hrest
  rcases F.head q with ⟨u, hu, hdigit⟩
  rcases List.head?_eq_some_iff.mp hu with ⟨s, hs⟩
  rcases stringify_head F (.number q) with ⟨u', s', hs', hspace, -, -⟩
  have hrange : (48 ≤ u.toNat ∧ u.toNat ≤ 57) ∨ u.toNat = 45 := by simpa [isDigit] using hdigit
  have hne : ∀ w : UInt16, 57 < w.toNat → u ≠ w := by
    rintro w hw rfl
    omega
  have hlit : ∀ (v : UInt16) (t : JsString), u ≠ v → ¬(v :: t) <+: (u :: (s ++ rest)) := by
    rintro v t huv ⟨r, hr⟩
    exact huv (List.cons.inj hr).1.symm
  rw [stringify, hs] at hs'
  cases hs'
  rcases fuel with _ | fuel
  · exact absurd hfuel (by have := stringify_length_pos F (.number q); omega)
  · have hall : ∀ w ∈ u :: s, isNumberUnit w = true := by
      rw [← hs]
      exact F.chars q
    have hstop : rest.takeWhile isNumberUnit = [] ∧ rest.dropWhile isNumberUnit = rest := by
      cases rest with
      | nil => exact ⟨rfl, rfl⟩
      | cons w rest =>
        have hw : isNumberUnit w = false := hrest w rfl
        exact ⟨List.takeWhile_cons_of_neg (by simp [hw]), List.dropWhile_cons_of_neg (by simp [hw])⟩
    have htake : (u :: s ++ rest).takeWhile isNumberUnit = F.text q := by
      rw [List.takeWhile_append_of_pos hall, hstop.1, List.append_nil, hs]
    have hdrop : (u :: s ++ rest).dropWhile isNumberUnit = rest := by
      rw [List.dropWhile_append_of_pos hall, hstop.2]
    rw [stringify, hs, List.cons_append, readValue, skipSpace_cons hspace]
    simp only
    rw [if_neg (hne 123 (by decide)), if_neg (hne 91 (by decide)),
      if_neg (by rintro rfl; simp at hrange), readScalar,
      if_neg (show ¬JsString.ofAscii "null" <+: u :: (s ++ rest) from hlit 110 _ (hne 110 (by decide))),
      if_neg (show ¬JsString.ofAscii "true" <+: u :: (s ++ rest) from hlit 116 _ (hne 116 (by decide))),
      if_neg (show ¬JsString.ofAscii "false" <+: u :: (s ++ rest) from hlit 102 _ (hne 102 (by decide)))]
    rw [← List.cons_append, htake, hdrop, F.read_text]
    rfl

/-- One item and the character after it. -/
theorem readItems_item (F : NumberFormat) {x : Json} (hx : ReadsBack F x) {fuel : ℕ}
    (hfuel : (stringify F x).length ≤ fuel) (items : List Json) {u : UInt16} (hu : isNumberUnit u = false)
    (hspace : isSpace u = false) (rest : JsString) :
    readItems F (fuel + 1) items (stringify F x ++ u :: rest)
      = if u = 44 then readItems F fuel (items ++ [x]) rest
        else if u = 93 then some (.array (items ++ [x]), rest) else none := by
  rw [readItems, hx fuel _ hfuel (stops_cons hu _)]
  simp only
  rw [skipSpace_cons hspace]

/-- The items of an array are read back, given that each of them is. -/
theorem readItems_stringify (F : NumberFormat) {x : Json} {xs : List Json} (hx : ReadsBack F x)
    (hxs : ∀ y ∈ xs, ReadsBack F y) (fuel : ℕ) (items : List Json) (rest : JsString)
    (hfuel : (stringify F x ++ stringifyItems F xs).length ≤ fuel) :
    readItems F fuel items (stringify F x ++ (stringifyItems F xs ++ rest))
      = some (.array (items ++ x :: xs), rest) := by
  have hpos := stringify_length_pos F x
  induction xs generalizing x fuel items with
  | nil =>
    rw [stringifyItems, List.length_append, List.length_singleton] at hfuel
    rcases fuel with _ | fuel
    · omega
    · rw [stringifyItems, List.singleton_append,
        readItems_item F hx (by omega) items (by decide) (by decide)]
      rfl
  | cons y ys ih =>
    rw [List.forall_mem_cons] at hxs
    simp only [stringifyItems, List.length_append, List.length_cons] at hfuel
    rcases fuel with _ | fuel
    · omega
    · rw [stringifyItems, List.cons_append, readItems_item F hx (by omega) items (by decide) (by decide),
        if_pos rfl, List.append_assoc, ih hxs.1 hxs.2 fuel _ (by rw [List.length_append]; omega)
          (stringify_length_pos F y), List.append_assoc]
      rfl

theorem quote_append (k rest : JsString) : quote k ++ rest = 34 :: (escapeUnits k ++ 34 :: rest) := by
  simp [quote]

/-- One member and the character after it. -/
theorem readMembers_member (F : NumberFormat) {k : JsString} {v : Json} (hv : ReadsBack F v) {fuel : ℕ}
    (hfuel : (stringify F v).length ≤ fuel) (members : Table JsString Json) {u : UInt16}
    (hu : isNumberUnit u = false) (hspace : isSpace u = false) (rest : JsString) :
    readMembers F (fuel + 1) members (quote k ++ 58 :: (stringify F v ++ u :: rest))
      = if u = 44 then readMembers F fuel (JsObject.define members k v) rest
        else if u = 125 then some (.object (JsObject.define members k v), rest) else none := by
  rw [quote_append, readMembers, skipSpace_cons (by decide)]
  simp only [if_true]
  rw [readString_escapeUnits]
  simp only
  rw [skipSpace_cons (by decide)]
  simp only [if_true]
  rw [hv fuel _ hfuel (stops_cons hu _)]
  simp only
  rw [skipSpace_cons hspace]

/-- The members of an object are read back, given that their values are. -/
theorem readMembers_stringify (F : NumberFormat) {k : JsString} {v : Json} {es : List (JsString × Json)}
    (hv : ReadsBack F v) (hes : ∀ e ∈ es, ReadsBack F e.2) (fuel : ℕ) (members : Table JsString Json)
    (hkeys : (members.keys ++ k :: Table.keys es).Pairwise JsObject.KeyBefore) (rest : JsString)
    (hfuel : (stringify F v ++ stringifyMembers F es).length ≤ fuel) :
    readMembers F fuel members (quote k ++ 58 :: (stringify F v ++ (stringifyMembers F es ++ rest)))
      = some (.object (members ++ (k, v) :: es), rest) := by
  have hpos := stringify_length_pos F v
  -- the new key is enumerated after those read so far
  have hdefine : JsObject.define members k v = members ++ [(k, v)] := by
    refine JsObject.define_of_forall_before ?_ v
    intro k' hk'
    exact (List.pairwise_append.mp hkeys).2.2 k' hk' k (List.mem_cons_self ..)
  induction es generalizing k v fuel members with
  | nil =>
    rw [stringifyMembers, List.length_append, List.length_singleton] at hfuel
    rcases fuel with _ | fuel
    · omega
    · rw [stringifyMembers, List.singleton_append,
        readMembers_member F hv (by omega) members (by decide) (by decide), hdefine]
      rfl
  | cons e es ih =>
    rcases e with ⟨k', v'⟩
    rw [List.forall_mem_cons] at hes
    simp only [stringifyMembers, List.length_append, List.length_cons] at hfuel
    have hkeys' : ((members ++ [(k, v)]).keys ++ k' :: Table.keys es).Pairwise JsObject.KeyBefore := by
      rw [Table.keys_append, List.append_assoc]
      exact hkeys
    have hdefine' : JsObject.define (members ++ [(k, v)]) k' v' = members ++ [(k, v)] ++ [(k', v')] := by
      refine JsObject.define_of_forall_before ?_ v'
      intro k'' hk''
      exact (List.pairwise_append.mp hkeys').2.2 k'' hk'' k' (List.mem_cons_self ..)
    rcases fuel with _ | fuel
    · omega
    · rw [stringifyMembers, List.cons_append, readMembers_member F hv (by omega) members (by decide) (by decide),
        if_pos rfl, hdefine, List.append_assoc, List.cons_append, List.append_assoc,
        ih (v := v') hes.1 hes.2 fuel _ hkeys' (by rw [List.length_append]; omega) (stringify_length_pos F v') hdefine',
        List.append_assoc]
      rfl

theorem readsBack_of_enumerated (F : NumberFormat) {v : Json} (hv : v.Enumerated) : ReadsBack F v := by
  induction hv with
  | null =>
    intro fuel rest hfuel _
    rcases fuel with _ | fuel
    · simp [stringify, JsString.ofAscii] at hfuel
    · rfl
  | bool b =>
    intro fuel rest hfuel _
    rcases fuel with _ | fuel
    · cases b <;> simp [stringify, JsString.ofAscii] at hfuel
    · cases b <;> rfl
  | number q => exact readsBack_number F q
  | string s =>
    intro fuel rest hfuel _
    rcases fuel with _ | fuel
    · simp [stringify, quote] at hfuel
    · rw [stringify, quote_append, readValue, skipSpace_cons (by decide)]
      simp only
      rw [if_neg (by decide), if_neg (by decide), if_pos trivial, readString_escapeUnits]
      rfl
  | @array xs _ ih =>
    intro fuel rest hfuel _
    cases xs with
    | nil =>
      rcases fuel with _ | fuel
      · simp [stringify] at hfuel
      · rw [stringify]
        rfl
    | cons x xs =>
      rw [List.forall_mem_cons] at ih
      simp only [stringify, List.length_cons] at hfuel
      rcases fuel with _ | fuel
      · omega
      · rcases stringify_head F x with ⟨u, t, ht, hspace, h93, -⟩
        have hread := readItems_stringify F ih.1 ih.2 fuel [] rest (by omega)
        rw [stringify, List.cons_append, readValue, skipSpace_cons (by decide), List.append_assoc]
        simp only
        rw [if_neg (by decide), if_pos trivial, ht, List.cons_append, skipSpace_cons hspace]
        simp only [if_neg h93]
        rw [ht, List.cons_append] at hread
        exact hread
  | @object es hkeys _ ih =>
    intro fuel rest hfuel _
    cases es with
    | nil =>
      rcases fuel with _ | fuel
      · simp [stringify] at hfuel
      · rw [stringify]
        rfl
    | cons e es =>
      rcases e with ⟨k, v⟩
      rw [List.forall_mem_cons] at ih
      simp only [stringify, List.length_cons, List.length_append] at hfuel
      rcases fuel with _ | fuel
      · omega
      · have hread := readMembers_stringify F (v := v) ih.1 ih.2 fuel [] hkeys rest (by rw [List.length_append]; omega)
        rw [stringify, List.cons_append, readValue, skipSpace_cons (by decide), List.append_assoc,
          List.cons_append, List.append_assoc]
        simp only [if_true]
        rw [quote_append] at hread ⊢
        rw [skipSpace_cons (by decide)]
        simp only
        rw [if_neg (by decide)]
        exact hread

/-- A value is read back from its text. -/
theorem parse_stringify (F : NumberFormat) {v : Json} (hv : v.Enumerated) : parse F (stringify F v) = some v := by
  have hread := readsBack_of_enumerated F hv ((stringify F v).length + 1) [] (by omega) (by simp [Stops])
  rw [List.append_nil] at hread
  rw [parse, hread]
  rfl

/-! ## The text is one line, fit for a text file -/

/-- A character that is no newline and no surrogate. -/
def isPlain (u : UInt16) : Bool := u.toNat ≠ 10 && !(Text.isHighSurrogate u || Text.isLowSurrogate u)

/-- A text that can be a line of a text file: no newline, no lone surrogate. -/
structure IsLine (s : JsString) : Prop where
  newline : (10 : UInt16) ∉ s
  paired : Text.Paired s

namespace IsLine

theorem nil : IsLine [] := ⟨by simp, .nil⟩

theorem append {s t : JsString} (hs : IsLine s) (ht : IsLine t) : IsLine (s ++ t) :=
  ⟨by simp [hs.newline, ht.newline], hs.paired.append ht.paired⟩

theorem cons {u : UInt16} {s : JsString} (hu : isPlain u = true) (hs : IsLine s) : IsLine (u :: s) := by
  simp only [isPlain, Bool.and_eq_true, decide_eq_true_eq, Bool.not_eq_true'] at hu
  refine ⟨?_, .unit hu.2 hs.paired⟩
  rw [List.mem_cons, not_or]
  refine ⟨?_, hs.newline⟩
  rintro rfl
  exact hu.1 rfl

theorem of_forall {s : JsString} (h : ∀ u ∈ s, isPlain u = true) : IsLine s := by
  induction s with
  | nil => exact nil
  | cons u s ih =>
    rw [List.forall_mem_cons] at h
    exact cons h.1 (ih h.2)

theorem of_all {s : JsString} (h : s.all isPlain = true) : IsLine s :=
  of_forall (List.all_eq_true.mp h)

end IsLine

theorem isPlain_of_isNumberUnit {u : UInt16} (h : isNumberUnit u = true) : isPlain u = true := by
  simp only [isNumberUnit, isDigit, Bool.or_eq_true, Bool.and_eq_true, decide_eq_true_eq] at h
  simp only [isPlain, Text.isHighSurrogate, Text.isLowSurrogate, Bool.and_eq_true, decide_eq_true_eq,
    Bool.not_eq_true', Bool.or_eq_false_iff, Bool.and_eq_false_iff, decide_eq_false_iff_not]
  omega

theorem isPlain_hexDigit {n : ℕ} (h : n < 16) : isPlain (hexDigit n) = true := by
  have hto : (hexDigit n).toNat = if n < 10 then 48 + n else 87 + n := by
    rw [hexDigit, UInt16.toNat_ofNat']
    split <;> omega
  simp only [isPlain, Text.isHighSurrogate, Text.isLowSurrogate, hto, Bool.and_eq_true, decide_eq_true_eq,
    Bool.not_eq_true', Bool.or_eq_false_iff, Bool.and_eq_false_iff, decide_eq_false_iff_not]
  split <;> omega

theorem isLine_escapeUnit (u : UInt16) : IsLine (escapeUnit u) := by
  have hlt := u.toNat_lt
  rw [escapeUnit]
  split
  · exact .of_all rfl
  · exact .of_all rfl
  · exact .of_all rfl
  · exact .of_all rfl
  · exact .of_all rfl
  · exact .of_all rfl
  · exact .of_all rfl
  · split
    · refine .cons (by decide) (.cons (by decide) (.of_forall ?_))
      simp only [List.forall_mem_cons]
      exact ⟨isPlain_hexDigit (by omega), isPlain_hexDigit (by omega), isPlain_hexDigit (by omega),
        isPlain_hexDigit (by omega), by simp⟩
    · next hplain =>
      refine .cons ?_ .nil
      simp only [not_or, Bool.not_eq_true] at hplain
      simp only [isPlain, hplain.2.1, hplain.2.2, Bool.or_self, Bool.not_false, Bool.and_true,
        decide_eq_true_eq]
      omega

theorem isLine_escapeUnits (s : JsString) : IsLine (escapeUnits s) := by
  induction s using escapeUnits.induct with
  | case1 => exact .nil
  | case2 u => exact isLine_escapeUnit u
  | case3 u v tail hpair ih =>
    rw [escapeUnits, if_pos hpair]
    rw [Bool.and_eq_true] at hpair
    refine ⟨?_, .pair hpair.1 hpair.2 ih.paired⟩
    simp only [List.mem_cons, not_or]
    refine ⟨?_, ?_, ih.newline⟩
    · rintro rfl
      exact absurd hpair.1 (by decide)
    · rintro rfl
      exact absurd hpair.2 (by decide)
  | case4 u v tail hpair ih =>
    rw [escapeUnits, if_neg hpair]
    exact (isLine_escapeUnit u).append ih

theorem isLine_quote (s : JsString) : IsLine (quote s) :=
  .cons (by decide) ((isLine_escapeUnits s).append (.cons (by decide) .nil))

mutual

theorem isLine_stringify (F : NumberFormat) : ∀ v : Json, IsLine (stringify F v)
  | .null => .of_all rfl
  | .bool true => .of_all rfl
  | .bool false => .of_all rfl
  | .number q => .of_forall fun u hu => isPlain_of_isNumberUnit (F.chars q u hu)
  | .string s => isLine_quote s
  | .array [] => by
    rw [stringify]
    exact .of_all rfl
  | .array (x :: xs) => by
    rw [stringify]
    exact .cons (by decide) ((isLine_stringify F x).append (isLine_stringifyItems F xs))
  | .object [] => by
    rw [stringify]
    exact .of_all rfl
  | .object ((k, v) :: es) => by
    rw [stringify]
    exact .cons (by decide) ((isLine_quote k).append
      (.cons (by decide) ((isLine_stringify F v).append (isLine_stringifyMembers F es))))

theorem isLine_stringifyItems (F : NumberFormat) : ∀ xs : List Json, IsLine (stringifyItems F xs)
  | [] => by
    rw [stringifyItems]
    exact .of_all rfl
  | x :: xs => by
    rw [stringifyItems]
    exact .cons (by decide) ((isLine_stringify F x).append (isLine_stringifyItems F xs))

theorem isLine_stringifyMembers (F : NumberFormat) :
    ∀ es : List (JsString × Json), IsLine (stringifyMembers F es)
  | [] => by
    rw [stringifyMembers]
    exact .of_all rfl
  | (k, v) :: es => by
    rw [stringifyMembers]
    exact .cons (by decide) ((isLine_quote k).append
      (.cons (by decide) ((isLine_stringify F v).append (isLine_stringifyMembers F es))))

end

end Phi
