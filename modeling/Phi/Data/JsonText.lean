import Phi.Data.Json

/-!
# The JSON text of strings and paths

`pathText` is `JSON.stringify` of a path: an array of quoted strings and numerals. Two paths with one
text are one path (`pathText_injective`), which is what makes the text usable as a dictionary key.
-/

namespace Phi

/-! ## Numerals -/

/-- A number as text: its decimal numeral.

Numbers from `2 ^ 53` on have another numeral in JavaScript, still one of their own. -/
def numberText (n : ℕ) : JsString :=
  if n = 0 then [48] else (Nat.digits 10 n).reverse.map fun d => UInt16.ofNat (48 + d)

def isDigit (u : UInt16) : Bool := 48 ≤ u.toNat && u.toNat ≤ 57

theorem toNat_digit {d : ℕ} (h : d < 10) : (UInt16.ofNat (48 + d)).toNat = 48 + d := by
  rw [UInt16.toNat_ofNat']
  omega

theorem isDigit_of_mem_numberText {n : ℕ} {u : UInt16} (h : u ∈ numberText n) : isDigit u = true := by
  rw [numberText] at h
  split at h
  · rw [List.mem_singleton.mp h]
    rfl
  · obtain ⟨d, hd, rfl⟩ := List.mem_map.mp h
    have hlt : d < 10 := Nat.digits_lt_base (by omega) (List.mem_reverse.mp hd)
    simp only [isDigit, toNat_digit hlt, Bool.and_eq_true, decide_eq_true_eq]
    omega

theorem numberText_ne_nil (n : ℕ) : numberText n ≠ [] := by
  rw [numberText]
  split
  · simp
  · next h => simpa [Nat.digits_eq_nil_iff_eq_zero] using h

/-- Digits below ten are told apart by their characters. -/
theorem digits_injective {xs ys : List ℕ} (hx : ∀ d ∈ xs, d < 10) (hy : ∀ d ∈ ys, d < 10)
    (h : xs.map (fun d => UInt16.ofNat (48 + d)) = ys.map (fun d => UInt16.ofNat (48 + d))) :
    xs = ys := by
  induction xs generalizing ys with
  | nil => simpa using h.symm
  | cons x xs ih =>
    cases ys with
    | nil => simp at h
    | cons y ys =>
      simp only [List.forall_mem_cons] at hx hy
      obtain ⟨hhead, htail⟩ := List.cons.inj h
      have hnat := congrArg UInt16.toNat hhead
      rw [toNat_digit hx.1, toNat_digit hy.1] at hnat
      rw [ih hx.2 hy.2 htail, show x = y by omega]

theorem numberText_injective {n m : ℕ} (h : numberText n = numberText m) : n = m := by
  have hlt : ∀ k, ∀ d ∈ (Nat.digits 10 k).reverse, d < 10 := fun k d hd =>
    Nat.digits_lt_base (by omega) (List.mem_reverse.mp hd)
  -- no other number has the numeral of zero
  have hzero : ∀ k, k ≠ 0 → numberText k ≠ [48] := by
    intro k hk heq
    rw [numberText, if_neg hk] at heq
    have hdigits := digits_injective (hlt k) (show ∀ d ∈ [0], d < 10 by simp) heq
    have hrev : Nat.digits 10 k = [0] := by simpa using congrArg List.reverse hdigits
    have hk' := Nat.ofDigits_digits 10 k
    rw [hrev] at hk'
    simp at hk'
    exact hk hk'.symm
  by_cases hn : n = 0
  · subst hn
    by_contra hm
    exact hzero m (Ne.symm hm) (by rw [← h]; rfl)
  · by_cases hm : m = 0
    · subst hm
      exact absurd (h.trans rfl) (hzero n hn)
    · rw [numberText, numberText, if_neg hn, if_neg hm] at h
      exact Nat.digits_inj_iff.mp (List.reverse_injective (digits_injective (hlt n) (hlt m) h))

/-! ## Quoted strings -/

/-- A lower-case hexadecimal digit. -/
def hexDigit (n : ℕ) : UInt16 := UInt16.ofNat (if n < 10 then 48 + n else 87 + n)

/-- The value of a hexadecimal digit. -/
def hexValue (u : UInt16) : ℕ := if u.toNat < 58 then u.toNat - 48 else u.toNat - 87

/-- A code unit as `QuoteJSONString` writes it when it is no half of a surrogate pair. -/
def escapeUnit (u : UInt16) : JsString :=
  match u.toNat with
  | 8 => [92, 98]
  | 9 => [92, 116]
  | 10 => [92, 110]
  | 12 => [92, 102]
  | 13 => [92, 114]
  | 34 => [92, 34]
  | 92 => [92, 92]
  | n =>
    if n < 32 ∨ Text.isHighSurrogate u ∨ Text.isLowSurrogate u then
      [92, 117, hexDigit (n / 4096), hexDigit (n / 256 % 16), hexDigit (n / 16 % 16),
        hexDigit (n % 16)]
    else [u]

/-- The inside of a quoted string. -/
def escapeUnits : JsString → JsString
  | [] => []
  | [u] => escapeUnit u
  | u :: v :: rest =>
    if Text.isHighSurrogate u && Text.isLowSurrogate v then u :: v :: escapeUnits rest
    else escapeUnit u ++ escapeUnits (v :: rest)

/-- The value of an escape after its backslash, other than `\\u`. -/
def shortEscape (u : UInt16) : UInt16 :=
  match u.toNat with
  | 98 => 8
  | 116 => 9
  | 110 => 10
  | 102 => 12
  | 114 => 13
  | _ => u

/-- Read the inside of a quoted string up to and with its closing quote. -/
def readQuoted : JsString → Option (JsString × JsString)
  | [] => none
  | u :: rest =>
    if u = 34 then some ([], rest)
    else if u = 92 then
      match rest with
      | [] => none
      | e :: rest =>
        if e = 117 then
          match rest with
          | a :: b :: c :: d :: rest =>
            (readQuoted rest).map fun p => (UInt16.ofNat
              (((hexValue a * 16 + hexValue b) * 16 + hexValue c) * 16 + hexValue d) :: p.1, p.2)
          | _ => none
        else (readQuoted rest).map fun p => (shortEscape e :: p.1, p.2)
    else (readQuoted rest).map fun p => (u :: p.1, p.2)

theorem hexValue_hexDigit {n : ℕ} (h : n < 16) : hexValue (hexDigit n) = n := by
  have hto : (hexDigit n).toNat = if n < 10 then 48 + n else 87 + n := by
    rw [hexDigit, UInt16.toNat_ofNat']
    split <;> omega
  rw [hexValue, hto]
  split <;> split <;> omega

theorem readQuoted_shortEscape (e : UInt16) {u : UInt16} (he : e ≠ 117) (hu : shortEscape e = u)
    (rest : JsString) :
    readQuoted (92 :: e :: rest) = (readQuoted rest).map fun p => (u :: p.1, p.2) := by
  rw [readQuoted.eq_def]
  simp only [if_neg he, hu]
  rfl

theorem readQuoted_quote (rest : JsString) : readQuoted (34 :: rest) = some ([], rest) := by
  rw [readQuoted.eq_def]
  rfl

theorem readQuoted_plain {u : UInt16} (h34 : u ≠ 34) (h92 : u ≠ 92) (rest : JsString) :
    readQuoted (u :: rest) = (readQuoted rest).map fun p => (u :: p.1, p.2) := by
  rw [readQuoted.eq_def]
  simp only [if_neg h34, if_neg h92]

/-- An escaped code unit is read back. -/
theorem readQuoted_escapeUnit (u : UInt16) (rest : JsString) :
    readQuoted (escapeUnit u ++ rest) = (readQuoted rest).map fun p => (u :: p.1, p.2) := by
  have hlt := u.toNat_lt
  have hback : UInt16.ofNat u.toNat = u := UInt16.ofNat_toNat
  have hcase : ∀ n : ℕ, u.toNat = n → UInt16.ofNat n = u := fun n hn => by rw [← hn, hback]
  rw [escapeUnit]
  split
  · next h => exact readQuoted_shortEscape 98 (by decide) (hcase 8 h) rest
  · next h => exact readQuoted_shortEscape 116 (by decide) (hcase 9 h) rest
  · next h => exact readQuoted_shortEscape 110 (by decide) (hcase 10 h) rest
  · next h => exact readQuoted_shortEscape 102 (by decide) (hcase 12 h) rest
  · next h => exact readQuoted_shortEscape 114 (by decide) (hcase 13 h) rest
  · next h => exact readQuoted_shortEscape 34 (by decide) (hcase 34 h) rest
  · next h => exact readQuoted_shortEscape 92 (by decide) (hcase 92 h) rest
  · next h34 h92 =>
    split
    · have hhex : ((u.toNat / 4096 * 16 + u.toNat / 256 % 16) * 16 + u.toNat / 16 % 16) * 16
          + u.toNat % 16 = u.toNat := by omega
      have hhead : (92 : UInt16) ≠ 34 := by decide
      rw [List.cons_append, readQuoted.eq_def]
      simp only [if_neg hhead, List.cons_append, List.nil_append, if_true]
      rw [hexValue_hexDigit (by omega), hexValue_hexDigit (by omega),
        hexValue_hexDigit (by omega), hexValue_hexDigit (by omega), hhex, hback]
    · exact readQuoted_plain (fun h => h34 (by rw [h]; rfl)) (fun h => h92 (by rw [h]; rfl)) rest

theorem readQuoted_escapeUnits (s rest : JsString) :
    readQuoted (escapeUnits s ++ 34 :: rest) = some (s, rest) := by
  induction s using escapeUnits.induct with
  | case1 => exact readQuoted_quote rest
  | case2 u =>
    rw [escapeUnits, readQuoted_escapeUnit, readQuoted_quote]
    rfl
  | case3 u v tail hpair ih =>
    have hne : ∀ w : UInt16, w.toNat ≥ 0xD800 → w ≠ 34 ∧ w ≠ 92 := by
      intro w hw
      constructor <;> (rintro rfl; simp at hw)
    simp only [Bool.and_eq_true, Text.isHighSurrogate, Text.isLowSurrogate,
      decide_eq_true_eq] at hpair
    obtain ⟨hu34, hu92⟩ := hne u (by omega)
    obtain ⟨hv34, hv92⟩ := hne v (by omega)
    rw [escapeUnits, if_pos (by simp [Text.isHighSurrogate, Text.isLowSurrogate, hpair]),
      List.cons_append, List.cons_append, readQuoted_plain hu34 hu92, readQuoted_plain hv34 hv92, ih]
    rfl
  | case4 u v tail hpair ih =>
    rw [escapeUnits, if_neg hpair, List.append_assoc, readQuoted_escapeUnit, ih]
    rfl

/-! ## Paths -/

def segText : Seg → JsString
  | .key k => 34 :: (escapeUnits k ++ [34])
  | .index n => numberText n

/-- The segments after the first, each behind a comma, and the closing bracket. -/
def tailText : Path → JsString
  | [] => [93]
  | seg :: path => 44 :: (segText seg ++ tailText path)

/-- `JSON.stringify(path)`. -/
def pathText : Path → JsString
  | [] => [91, 93]
  | seg :: path => 91 :: (segText seg ++ tailText path)

/-- A segment's text ends where a comma or a bracket follows. -/
theorem segText_append_injective {seg seg' : Seg} {c c' : UInt16} {r r' : JsString}
    (hc : isDigit c = false) (hc' : isDigit c' = false)
    (h : segText seg ++ c :: r = segText seg' ++ c' :: r') :
    seg = seg' ∧ c :: r = c' :: r' := by
  -- a quote is no digit
  have hmixed : ∀ (k : JsString) (n : ℕ) (x y : JsString),
      segText (.key k) ++ x ≠ segText (.index n) ++ y := by
    intro k n x y heq
    obtain ⟨u, us, hu⟩ := List.exists_cons_of_ne_nil (numberText_ne_nil n)
    have hdigit := isDigit_of_mem_numberText (n := n) (u := u) (by rw [hu]; simp)
    simp only [segText, hu, List.cons_append, List.cons.injEq] at heq
    rw [← heq.1] at hdigit
    simp [isDigit] at hdigit
  cases seg with
  | key k =>
    cases seg' with
    | index n => exact absurd h (hmixed k n _ _)
    | key k' =>
      simp only [segText, List.cons_append, List.append_assoc, List.nil_append,
        List.cons.injEq, true_and] at h
      have hread := readQuoted_escapeUnits k (c :: r)
      rw [h, readQuoted_escapeUnits] at hread
      obtain ⟨hk, hr⟩ := Prod.mk.inj (Option.some.inj hread)
      exact ⟨by rw [hk], hr.symm⟩
  | index n =>
    cases seg' with
    | key k => exact absurd h.symm (hmixed k n _ _)
    | index m =>
      have htake : ∀ (j : ℕ) (x : UInt16) (xs : JsString), isDigit x = false →
          (numberText j ++ x :: xs).takeWhile isDigit = numberText j := by
        intro j x xs hx
        rw [List.takeWhile_append_of_pos fun u hu => isDigit_of_mem_numberText hu,
          List.takeWhile_cons_of_neg (by simp [hx]), List.append_nil]
      simp only [segText] at h
      have hnum : numberText n = numberText m := by
        rw [← htake n c r hc, h, htake m c' r' hc']
      rw [hnum] at h
      exact ⟨by rw [numberText_injective hnum], List.append_cancel_left h⟩

theorem tailText_injective {p q : Path} (h : tailText p = tailText q) : p = q := by
  have hhead : ∀ p, ∃ c r, tailText p = c :: r ∧ isDigit c = false := by
    intro p
    cases p <;> exact ⟨_, _, rfl, rfl⟩
  induction p generalizing q with
  | nil =>
    cases q with
    | nil => rfl
    | cons seg q => simp [tailText] at h
  | cons seg p ih =>
    cases q with
    | nil => simp [tailText] at h
    | cons seg' q =>
      simp only [tailText, List.cons.injEq, true_and] at h
      obtain ⟨c, r, hp, hc⟩ := hhead p
      obtain ⟨c', r', hq, hc'⟩ := hhead q
      rw [hp, hq] at h
      obtain ⟨rfl, htail⟩ := segText_append_injective hc hc' h
      rw [← hp, ← hq] at htail
      rw [ih htail]

/-- The text of a path determines it. -/
theorem pathText_injective {p q : Path} (h : pathText p = pathText q) : p = q := by
  have hsegs : ∀ seg path, (segText seg ++ tailText path).head? ≠ some 93 := by
    intro seg path
    cases seg with
    | key k => simp [segText]
    | index n =>
      obtain ⟨u, us, hu⟩ := List.exists_cons_of_ne_nil (numberText_ne_nil n)
      have hdigit := isDigit_of_mem_numberText (n := n) (u := u) (by rw [hu]; simp)
      simp only [segText, hu, List.cons_append, List.head?_cons, ne_eq, Option.some.injEq]
      rintro rfl
      simp [isDigit] at hdigit
  cases p with
  | nil =>
    cases q with
    | nil => rfl
    | cons seg q =>
      simp only [pathText, List.cons.injEq, true_and] at h
      exact absurd (by rw [← h]; rfl) (hsegs seg q)
  | cons seg p =>
    cases q with
    | nil =>
      simp only [pathText, List.cons.injEq, true_and] at h
      exact absurd (by rw [h]; rfl) (hsegs seg p)
    | cons seg' q =>
      simp only [pathText, List.cons.injEq, true_and] at h
      exact tailText_injective (by simp [tailText, h])

end Phi
