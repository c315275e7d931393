import Phi.Data.TextDecoder

/-!
# Sizes in bytes

`byteLength` is the size of a text in UTF-8. It is a sum over the lines of the text (`byteLength_newline`) and grows
with the text at both ends. `lastBytes` and `firstBytes` cut encoded text at a number of bytes and move the cut to
the next character, as code that trims a text to a size does: what is left is the encoding of the last, or the
first, characters of the text, and falls short of the size by at most three bytes.
-/

namespace Phi

/-- `Buffer.byteLength(text, "utf-8")`. -/
def byteLength (text : JsString) : ℕ := (textEncode text).length

/-- A byte inside a character: `(b & 0xc0) === 0x80`. -/
def isContinuation (b : UInt8) : Bool := b &&& 0xC0 == 0x80

/-- The last `n` bytes, without the rest of a character that starts before them. -/
def lastBytes (n : ℕ) (bytes : List UInt8) : List UInt8 := (bytes.drop (bytes.length - n)).dropWhile isContinuation

/-- The last place at or before `n` where a character starts. -/
def charStart (bytes : List UInt8) : ℕ → ℕ
  | 0 => 0
  | n + 1 => if isContinuation ((bytes[n + 1]?).getD 0) then charStart bytes n else n + 1

/-- The first `n` bytes, without a character that goes on behind them. -/
def firstBytes (n : ℕ) (bytes : List UInt8) : List UInt8 := bytes.take (charStart bytes n)

theorem isContinuation_iff (b : UInt8) : isContinuation b = true ↔ 0x80 ≤ b.toNat ∧ b.toNat < 0xC0 := by
  have hbits : ∀ n : Fin 256, n.val &&& 0xC0 = 0x80 ↔ 0x80 ≤ n.val ∧ n.val < 0xC0 := by decide +kernel
  rw [isContinuation, beq_iff_eq, ← UInt8.toNat_inj, UInt8.toNat_and]
  exact hbits ⟨b.toNat, b.toNat_lt⟩

/-- The bytes of one character: one that starts it and at most three inside it. -/
structure IsChar (bytes : List UInt8) : Prop where
  ne_nil : bytes ≠ []
  head : ∀ b ∈ bytes.head?, isContinuation b = false
  tail : ∀ b ∈ bytes.tail, isContinuation b = true
  length_le : bytes.length ≤ 4

theorem isChar_utf8Of {c : ℕ} (h : Utf8.IsScalar c) : IsChar (Text.utf8Of c) := by
  have hfalse : ∀ n : ℕ, n < 256 → ¬(0x80 ≤ n ∧ n < 0xC0) → isContinuation (UInt8.ofNat n) = false := by
    intro n hn hout
    rw [← Bool.not_eq_true, isContinuation_iff, Utf8.ofNat_toNat hn]
    exact hout
  have htrue : ∀ n : ℕ, isContinuation (UInt8.ofNat (0x80 + n % 0x40)) = true := by
    intro n
    rw [isContinuation_iff, Utf8.ofNat_toNat (by omega)]
    omega
  have hlt := h.1
  have hnone : ∀ b ∈ ([] : List UInt8), isContinuation b = true := by simp
  unfold Text.utf8Of
  split_ifs with h1 h2 h3
  · refine ⟨List.cons_ne_nil _ _, ?_, hnone, by simp⟩
    rintro b ⟨⟩
    exact hfalse c (by omega) (by omega)
  · refine ⟨List.cons_ne_nil _ _, ?_, List.forall_mem_cons.mpr ⟨htrue _, hnone⟩, by simp⟩
    rintro b ⟨⟩
    exact hfalse (0xC0 + c / 0x40) (by omega) (by omega)
  · refine ⟨List.cons_ne_nil _ _, ?_, ?_, by simp⟩
    · rintro b ⟨⟩
      exact hfalse (0xE0 + c / 0x1000) (by omega) (by omega)
    · exact List.forall_mem_cons.mpr ⟨htrue _, List.forall_mem_cons.mpr ⟨htrue _, hnone⟩⟩
  · refine ⟨List.cons_ne_nil _ _, ?_, ?_, by simp⟩
    · rintro b ⟨⟩
      exact hfalse (0xF0 + c / 0x40000) (by omega) (by omega)
    · refine List.forall_mem_cons.mpr ⟨htrue _, List.forall_mem_cons.mpr ⟨htrue _, ?_⟩⟩
      exact List.forall_mem_cons.mpr ⟨htrue _, hnone⟩

/-! ## Cuts between characters -/

/-- The last bytes of encoded characters are the last of these characters, as many as fit. -/
theorem lastBytes_flatten {chars : List (List UInt8)} (h : ∀ char ∈ chars, IsChar char) (n : ℕ) :
    ∃ front back, chars = front ++ back ∧ lastBytes n chars.flatten = back.flatten ∧ back.flatten.length ≤ n ∧
      (n ≤ chars.flatten.length → n < back.flatten.length + 4) := by
  induction chars with
  | nil => exact ⟨[], [], rfl, by simp [lastBytes], by simp, by simp; omega⟩
  | cons char chars ih =>
    rw [List.forall_mem_cons] at h
    rcases h with ⟨hchar, hchars⟩
    -- no text starts inside a character
    have hstart : ∀ chars' : List (List UInt8), (∀ c ∈ chars', IsChar c) →
        chars'.flatten.dropWhile isContinuation = chars'.flatten := by
      intro chars' h'
      cases chars' with
      | nil => rfl
      | cons c chars' =>
        rw [List.forall_mem_cons] at h'
        rcases List.exists_cons_of_ne_nil h'.1.ne_nil with ⟨b, rest, rfl⟩
        have hb := h'.1.head b (by simp)
        simp [hb]
    rw [List.flatten_cons]
    by_cases hall : (char ++ chars.flatten).length ≤ n
    · refine ⟨[], char :: chars, rfl, ?_, by simpa using hall, ?_⟩
      · rw [lastBytes, show (char ++ chars.flatten).length - n = 0 by omega, List.drop_zero, ← List.flatten_cons]
        exact hstart _ (List.forall_mem_cons.mpr ⟨hchar, hchars⟩)
      · intro hn
        rw [List.flatten_cons]
        omega
    · rw [List.length_append] at hall
      by_cases hrest : chars.flatten.length ≤ n
      · -- the cut falls inside the first character
        refine ⟨[char], chars, rfl, ?_, hrest, fun _ => ?_⟩
        · have hdrop : ∀ b ∈ char.drop (char.length + chars.flatten.length - n), isContinuation b = true := by
            intro b hb
            refine hchar.tail b ?_
            rw [← List.drop_one]
            exact (List.drop_suffix_drop_left char (show 1 ≤ char.length + chars.flatten.length - n by omega)).subset hb
          rw [lastBytes, List.length_append, List.drop_append_of_le_length (by omega),
            List.dropWhile_append_of_pos hdrop]
          exact hstart _ hchars
        · have := hchar.length_le
          omega
      · rcases ih hchars with ⟨front, back, heq, hlast, hle, hlt⟩
        refine ⟨char :: front, back, by rw [heq, List.cons_append], ?_, hle, fun _ => hlt (by omega)⟩
        rw [lastBytes, List.length_append, List.drop_append, List.drop_eq_nil_of_le (by omega), List.nil_append, ← hlast,
          lastBytes]
        congr 2
        omega


theorem charStart_append {char bytes : List UInt8} (h : IsChar char)
    (hstart : ∀ b ∈ bytes.head?, isContinuation b = false) (k : ℕ) :
    charStart (char ++ bytes) (char.length + k) = char.length + charStart bytes k := by
  have hzero : isContinuation 0 = false := by decide
  induction k with
  | zero =>
    rcases Nat.exists_eq_add_one.mpr (List.length_pos_iff.mpr h.ne_nil) with ⟨n, hn⟩
    have hget : (char ++ bytes)[n + 1]? = bytes[0]? := by
      rw [List.getElem?_append_right (by omega), hn, Nat.sub_self]
    rw [Nat.add_zero, hn, charStart, charStart, hget]
    cases bytes with
    | nil => simp [hzero, charStart]
    | cons b bytes =>
      have hb := hstart b (by simp)
      simp [hb, charStart]
  | succ k ih =>
    rw [← Nat.add_assoc, charStart, charStart, ih, List.getElem?_append_right (by omega),
      show char.length + k + 1 - char.length = k + 1 by omega]
    split <;> rfl

/-- No character starts inside a character. -/
theorem charStart_lt {char bytes : List UInt8} (h : IsChar char) {n : ℕ} (hn : n < char.length) :
    charStart (char ++ bytes) n = 0 := by
  induction n with
  | zero => rfl
  | succ n ih =>
    have hmem : (char ++ bytes)[n + 1]? = some (char.tail.get ⟨n, by rw [List.length_tail]; omega⟩) := by
      rw [List.getElem?_append_left hn]
      simp [List.getElem?_eq_getElem hn]
    rw [charStart, hmem, Option.getD_some, if_pos (h.tail _ (List.get_mem _ _))]
    exact ih (by omega)

/-- Encoded characters start with the start of one. -/
theorem head_flatten {chars : List (List UInt8)} (h : ∀ char ∈ chars, IsChar char) :
    ∀ b ∈ chars.flatten.head?, isContinuation b = false := by
  cases chars with
  | nil => simp
  | cons char chars =>
    rw [List.forall_mem_cons] at h
    rcases List.exists_cons_of_ne_nil h.1.ne_nil with ⟨b, rest, rfl⟩
    simpa using h.1.head b (by simp)

/-- The first bytes of encoded characters are the first of these characters, as many as fit. -/
theorem firstBytes_flatten {chars : List (List UInt8)} (h : ∀ char ∈ chars, IsChar char) {n : ℕ}
    (hn : n ≤ chars.flatten.length) :
    ∃ front back, chars = front ++ back ∧ firstBytes n chars.flatten = front.flatten ∧
      front.flatten.length ≤ n ∧ n < front.flatten.length + 4 := by
  induction chars generalizing n with
  | nil => exact ⟨[], [], rfl, by simp [firstBytes], by simp, by simp at hn ⊢; omega⟩
  | cons char chars ih =>
    rw [List.forall_mem_cons] at h
    rcases h with ⟨hchar, hchars⟩
    by_cases hin : n < char.length
    · refine ⟨[], char :: chars, rfl, ?_, by simp, ?_⟩
      · rw [firstBytes, List.flatten_cons, charStart_lt hchar hin, List.take_zero, List.flatten_nil]
      · have := hchar.length_le
        simp only [List.flatten_nil, List.length_nil]
        omega
    · rw [List.flatten_cons, List.length_append] at hn
      rcases ih hchars (show n - char.length ≤ _ by omega) with ⟨front, back, heq, hfirst, hle, hlt⟩
      refine ⟨char :: front, back, by rw [heq, List.cons_append], ?_, ?_, ?_⟩
      · rw [firstBytes, List.flatten_cons, List.flatten_cons, show n = char.length + (n - char.length) by omega,
          charStart_append hchar (head_flatten hchars), List.take_length_add_append, ← hfirst]
        rfl
      · rw [List.flatten_cons, List.length_append]
        omega
      · rw [List.flatten_cons, List.length_append]
        omega

/-! ## Encoded texts -/

theorem isScalar_scalars (s : JsString) : ∀ c ∈ Text.scalars s, Utf8.IsScalar c := by
  have hlone : ∀ u, Utf8.IsScalar (Text.loneScalar u) := by
    intro u
    have hlt := u.toNat_lt
    unfold Text.loneScalar Text.isHighSurrogate Text.isLowSurrogate
    split
    · exact ⟨by omega, by omega⟩
    · rename_i hu
      simp only [Bool.or_eq_true, Bool.and_eq_true, decide_eq_true_eq] at hu
      exact ⟨by omega, by omega⟩
  fun_induction Text.scalars s with
  | case1 => simp
  | case2 u => simpa using hlone u
  | case3 u v rest hpair ih =>
    refine List.forall_mem_cons.mpr ⟨?_, ih⟩
    simp only [Text.isHighSurrogate, Text.isLowSurrogate, Bool.and_eq_true, decide_eq_true_eq] at hpair
    exact ⟨by omega, by omega⟩
  | case4 u v rest _ ih => exact List.forall_mem_cons.mpr ⟨hlone u, ih⟩

theorem run_flatMap_utf8Of {cs : List ℕ} (h : ∀ c ∈ cs, Utf8.IsScalar c) :
    Utf8.run .start (cs.flatMap Text.utf8Of) = cs := by
  induction cs with
  | nil => rfl
  | cons c cs ih =>
    rw [List.forall_mem_cons] at h
    rw [List.flatMap_cons, Utf8.run_utf8Of h.1.1 h.1.2, ih h.2]

theorem scalars_utf16Of_append {c : ℕ} (h : Utf8.IsScalar c) (s : JsString) :
    Text.scalars (Text.utf16Of c ++ s) = c :: Text.scalars s := by
  have hunit : ∀ n : ℕ, n < 0x10000 → (UInt16.ofNat n).toNat = n := by
    intro n hn
    rw [UInt16.toNat_ofNat']
    omega
  rcases h with ⟨hlt, hs⟩
  unfold Text.utf16Of
  split_ifs with hc
  · rw [List.singleton_append, Text.scalars_cons, hunit c hc]
    simp only [Text.isHighSurrogate, Text.isLowSurrogate, hunit c hc, Bool.or_eq_false_iff, Bool.and_eq_false_iff,
      decide_eq_false_iff_not]
    omega
  · have hhigh := hunit (0xD800 + (c - 0x10000) / 0x400) (by omega)
    have hlow := hunit (0xDC00 + (c - 0x10000) % 0x400) (by omega)
    rw [List.cons_append, List.singleton_append, Text.scalars_pair, hhigh, hlow,
      show 0x10000 + (0xD800 + (c - 0x10000) / 0x400 - 0xD800) * 0x400 + (0xDC00 + (c - 0x10000) % 0x400 - 0xDC00) = c by
        omega]
    · simp only [Text.isHighSurrogate, hhigh, Bool.and_eq_true, decide_eq_true_eq]
      omega
    · simp only [Text.isLowSurrogate, hlow, Bool.and_eq_true, decide_eq_true_eq]
      omega

theorem scalars_flatMap_utf16Of {cs : List ℕ} (h : ∀ c ∈ cs, Utf8.IsScalar c) :
    Text.scalars (cs.flatMap Text.utf16Of) = cs := by
  induction cs with
  | nil => rfl
  | cons c cs ih =>
    rw [List.forall_mem_cons] at h
    rw [List.flatMap_cons, scalars_utf16Of_append h.1, ih h.2]

theorem flatMap_scalars {s : JsString} (h : Text.Paired s) : (Text.scalars s).flatMap Text.utf16Of = s := by
  rw [← run_flatMap_utf8Of (isScalar_scalars s)]
  exact decodeUtf8_textEncode h

/-- The last bytes of a text are those of its last characters. -/
theorem lastBytes_textEncode (s : JsString) (n : ℕ) :
    ∃ front back, Text.scalars s = front ++ back ∧ lastBytes n (textEncode s) = back.flatMap Text.utf8Of ∧
      (back.flatMap Text.utf8Of).length ≤ n ∧ (n ≤ byteLength s → n < (back.flatMap Text.utf8Of).length + 4) := by
  have hchars : ∀ char ∈ (Text.scalars s).map Text.utf8Of, IsChar char := by
    intro char hchar
    rcases List.mem_map.mp hchar with ⟨c, hc, rfl⟩
    exact isChar_utf8Of (isScalar_scalars s c hc)
  rcases lastBytes_flatten hchars n with ⟨front, back, heq, hlast, hle, hlt⟩
  rcases List.map_eq_append_iff.mp heq with ⟨front, back, hs, rfl, rfl⟩
  simp only [← List.flatMap_def] at hlast hle hlt
  exact ⟨front, back, hs, hlast, hle, hlt⟩

/-- The first bytes of a text are those of its first characters. -/
theorem firstBytes_textEncode (s : JsString) {n : ℕ} (hn : n ≤ byteLength s) :
    ∃ front back, Text.scalars s = front ++ back ∧ firstBytes n (textEncode s) = front.flatMap Text.utf8Of ∧
      (front.flatMap Text.utf8Of).length ≤ n ∧ n < (front.flatMap Text.utf8Of).length + 4 := by
  have hchars : ∀ char ∈ (Text.scalars s).map Text.utf8Of, IsChar char := by
    intro char hchar
    rcases List.mem_map.mp hchar with ⟨c, hc, rfl⟩
    exact isChar_utf8Of (isScalar_scalars s c hc)
  rcases firstBytes_flatten (n := n) hchars hn with ⟨front, back, heq, hfirst, hle, hlt⟩
  rcases List.map_eq_append_iff.mp heq with ⟨front, back, hs, rfl, rfl⟩
  simp only [← List.flatMap_def] at hfirst hle hlt
  exact ⟨front, back, hs, hfirst, hle, hlt⟩

/-! ## Sizes -/

@[simp] theorem byteLength_nil : byteLength [] = 0 := rfl

theorem byteLength_flatMap {cs : List ℕ} (h : ∀ c ∈ cs, Utf8.IsScalar c) :
    byteLength (cs.flatMap Text.utf16Of) = (cs.flatMap Text.utf8Of).length := by
  rw [byteLength, textEncode, scalars_flatMap_utf16Of h]

theorem byteLength_append {s : JsString} (hs : Text.Paired s) (t : JsString) :
    byteLength (s ++ t) = byteLength s + byteLength t := by
  rw [byteLength, textEncode_append hs, List.length_append]
  rfl

/-- Two texts are encoded one after the other, unless a surrogate pair is cut between them. -/
theorem scalars_append {s t : JsString}
    (h : ∀ u ∈ s.getLast?, ∀ v ∈ t.head?, ¬(Text.isHighSurrogate u && Text.isLowSurrogate v) = true) :
    Text.scalars (s ++ t) = Text.scalars s ++ Text.scalars t := by
  fun_induction Text.scalars s with
  | case1 => rfl
  | case2 u =>
    cases t with
    | nil => rfl
    | cons v t =>
      rw [List.singleton_append, Text.scalars, if_neg (h u (by simp) v (by simp))]
      rfl
  | case3 u v rest hpair ih =>
    rw [List.cons_append, List.cons_append, Text.scalars, if_pos hpair, ih]
    · rfl
    · intro w hw
      refine h w ?_
      rw [List.getLast?_cons_cons, List.getLast?_cons, Option.mem_def.mp hw]
      rfl
  | case4 u v rest hpair ih =>
    rw [List.cons_append, List.cons_append, Text.scalars, if_neg hpair, List.cons_append, ← ih]
    · rfl
    · intro w hw
      refine h w ?_
      rw [List.getLast?_cons_cons]
      exact hw

theorem textEncode_newline (s t : JsString) : textEncode (s ++ 10 :: t) = textEncode s ++ 10 :: textEncode t := by
  have hten : (Text.isHighSurrogate 10 || Text.isLowSurrogate 10) = false := by decide
  have hlow : Text.isLowSurrogate 10 = false := by decide
  rw [textEncode, scalars_append (by simp [hlow]), Text.scalars_cons hten, List.flatMap_append, List.flatMap_cons]
  rfl

theorem byteLength_newline (s t : JsString) : byteLength (s ++ 10 :: t) = byteLength s + 1 + byteLength t := by
  rw [byteLength, textEncode_newline, List.length_append, List.length_cons, Nat.add_assoc, Nat.add_comm 1]
  rfl

theorem length_utf8Of (c : ℕ) :
    (Text.utf8Of c).length = if c < 0x80 then 1 else if c < 0x800 then 2 else if c < 0x10000 then 3 else 4 := by
  unfold Text.utf8Of
  split_ifs <;> rfl

/-- A newline is no half of a pair. -/
theorem Text.Paired.of_newline {text : JsString} (h : Text.Paired text) :
    ∀ {s t : JsString}, text = s ++ 10 :: t → Text.Paired s ∧ Text.Paired t := by
  have hhigh : Text.isHighSurrogate 10 = false := by decide
  have hlow : Text.isLowSurrogate 10 = false := by decide
  induction h with
  | nil =>
    intro s t heq
    simp at heq
  | unit hu hrest ih =>
    intro s t heq
    cases s with
    | nil =>
      cases heq
      exact ⟨.nil, hrest⟩
    | cons u s =>
      rw [List.cons_append, List.cons.injEq] at heq
      rcases heq with ⟨rfl, heq⟩
      exact ⟨.unit hu (ih heq).1, (ih heq).2⟩
  | pair hu hv hrest ih =>
    intro s t heq
    cases s with
    | nil =>
      cases heq
      rw [hhigh] at hu
      cases hu
    | cons u s =>
      cases s with
      | nil =>
        cases heq
        rw [hlow] at hv
        cases hv
      | cons v s =>
        rw [List.cons_append, List.cons_append, List.cons.injEq, List.cons.injEq] at heq
        rcases heq with ⟨rfl, rfl, heq⟩
        exact ⟨.pair hu hv (ih heq).1, (ih heq).2⟩

/-- A low surrogate belongs to nothing behind it. -/
theorem scalars_low {v : UInt16} (hv : Text.isLowSurrogate v = true) (s : JsString) :
    Text.scalars (v :: s) = 0xFFFD :: Text.scalars s := by
  have hhigh : Text.isHighSurrogate v = false := by
    simp only [Text.isLowSurrogate, Text.isHighSurrogate, Bool.and_eq_true, Bool.and_eq_false_iff, decide_eq_true_eq,
      decide_eq_false_iff_not] at hv ⊢
    omega
  cases s with
  | nil => simp [Text.scalars, Text.loneScalar, hv]
  | cons w s => simp [Text.scalars, Text.loneScalar, hhigh, hv]

theorem length_utf8Of_pair (u v : UInt16) :
    (Text.utf8Of (0x10000 + (u.toNat - 0xD800) * 0x400 + (v.toNat - 0xDC00))).length = 4 := by
  rw [length_utf8Of, if_neg (by omega), if_neg (by omega), if_neg (by omega)]

theorem length_utf8Of_loneScalar_le (u : UInt16) : (Text.utf8Of (Text.loneScalar u)).length ≤ 3 := by
  have hlt := u.toNat_lt
  rw [length_utf8Of, Text.loneScalar]
  split_ifs <;> omega

theorem byteLength_cons_le (u : UInt16) (s : JsString) : byteLength s ≤ byteLength (u :: s) := by
  cases s with
  | nil => exact Nat.zero_le _
  | cons v rest =>
    rw [byteLength, byteLength, textEncode, textEncode, Text.scalars]
    split
    · -- a low surrogate alone takes three bytes, the pair takes four
      rename_i hpair
      rw [scalars_low (Bool.and_eq_true_iff.mp hpair).2, List.flatMap_cons, List.flatMap_cons, List.length_append,
        List.length_append, length_utf8Of_pair, show (Text.utf8Of 0xFFFD).length = 3 by decide]
      omega
    · simp

theorem byteLength_le_append_left (s t : JsString) : byteLength t ≤ byteLength (s ++ t) := by
  induction s with
  | nil => exact le_refl _
  | cons u s ih => exact ih.trans (byteLength_cons_le u (s ++ t))

theorem byteLength_le_append_right (s t : JsString) : byteLength s ≤ byteLength (s ++ t) := by
  unfold byteLength textEncode
  fun_induction Text.scalars s with
  | case1 => exact Nat.zero_le _
  | case2 u =>
    have hlone := length_utf8Of_loneScalar_le u
    cases t with
    | nil => exact le_refl _
    | cons v t =>
      rw [List.singleton_append, Text.scalars]
      split
      · simp only [List.flatMap_cons, List.flatMap_nil, List.append_nil, List.length_append, length_utf8Of_pair]
        omega
      · simp
  | case3 u v rest hpair ih =>
    simp only [List.cons_append, Text.scalars, hpair, if_true, List.flatMap_cons, List.length_append]
    omega
  | case4 u v rest hpair ih =>
    rw [List.cons_append, List.cons_append, Text.scalars, if_neg hpair]
    rw [List.cons_append] at ih
    simp only [List.flatMap_cons, List.length_append]
    omega

end Phi
