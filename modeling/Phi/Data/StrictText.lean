import Phi.Data.Utf8

/-!
# Strict decoding inverts encoding

`textDecode` accepts exactly what `textEncode` writes: the bytes of a text that decodes are the bytes
of the decoded string (`textEncode_of_textDecode`), so no other byte sequence decodes to it.
-/

namespace Phi

namespace Text

/-! ## One scalar value -/

/-- `bytes` is the UTF-8 form of the scalar value `c`. -/
structure IsForm (bytes : List UInt8) (c : ℕ) : Prop where
  eq : utf8Of c = bytes
  scalar : Utf8.IsScalar c

theorem eq_ofNat {n : ℕ} {b : UInt8} (h : n = b.toNat) : UInt8.ofNat n = b := by
  rw [h, UInt8.ofNat_toNat]

theorem isForm_one {a : UInt8} (ha : a.toNat < 0x80) : IsForm [a] a.toNat := by
  constructor
  · rw [utf8Of, if_pos ha, UInt8.ofNat_toNat]
  · simp only [Utf8.IsScalar]
    omega

theorem isForm_two {a b : UInt8} (ha : 0xC2 ≤ a.toNat ∧ a.toNat ≤ 0xDF) (hb : isTail b 0x80 0xBF = true) :
    IsForm [a, b] (a.toNat % 0x20 * 0x40 + tailBits b) := by
  simp only [isTail, Bool.and_eq_true, decide_eq_true_eq] at hb
  have hbits : tailBits b = b.toNat % 0x40 := rfl
  constructor
  · rw [utf8Of, if_neg (by omega), if_pos (by omega), eq_ofNat (b := a) (by omega), eq_ofNat (b := b) (by omega)]
  · simp only [Utf8.IsScalar]
    omega

/-- The second byte of a longer form is a continuation byte, its range narrowed after some first
bytes. -/
theorem isTail_ite {b : UInt8} {p q : Prop} [Decidable p] [Decidable q] {low high : ℕ}
    (h : isTail b (if p then low else 0x80) (if q then high else 0xBF) = true) (hlow : 0x80 ≤ low)
    (hhigh : high ≤ 0xBF) :
    0x80 ≤ b.toNat ∧ b.toNat ≤ 0xBF ∧ (p → low ≤ b.toNat) ∧ (q → b.toNat ≤ high) := by
  simp only [isTail, Bool.and_eq_true, decide_eq_true_eq] at h
  split_ifs at h <;> simp_all <;> omega

theorem isForm_three {a b c : UInt8} (ha : 0xE0 ≤ a.toNat ∧ a.toNat ≤ 0xEF)
    (hb : isTail b (if a.toNat = 0xE0 then 0xA0 else 0x80) (if a.toNat = 0xED then 0x9F else 0xBF) = true)
    (hc : isTail c 0x80 0xBF = true) :
    IsForm [a, b, c] (a.toNat % 0x10 * 0x1000 + tailBits b * 0x40 + tailBits c) := by
  obtain ⟨hb1, hb2, hlow, hhigh⟩ := isTail_ite hb (by omega) (by omega)
  simp only [isTail, Bool.and_eq_true, decide_eq_true_eq] at hc
  have hbits : tailBits b = b.toNat % 0x40 := rfl
  have hbits' : tailBits c = c.toNat % 0x40 := rfl
  constructor
  · rw [utf8Of, if_neg (by omega), if_neg (by omega), if_pos (by omega), eq_ofNat (b := a) (by omega),
      eq_ofNat (b := b) (by omega), eq_ofNat (b := c) (by omega)]
  · simp only [Utf8.IsScalar]
    omega

theorem isForm_four {a b c d : UInt8} (ha : 0xF0 ≤ a.toNat ∧ a.toNat ≤ 0xF4)
    (hb : isTail b (if a.toNat = 0xF0 then 0x90 else 0x80) (if a.toNat = 0xF4 then 0x8F else 0xBF) = true)
    (hc : isTail c 0x80 0xBF = true) (hd : isTail d 0x80 0xBF = true) :
    IsForm [a, b, c, d]
      (a.toNat % 8 * 0x40000 + tailBits b * 0x1000 + tailBits c * 0x40 + tailBits d) := by
  obtain ⟨hb1, hb2, hlow, hhigh⟩ := isTail_ite hb (by omega) (by omega)
  simp only [isTail, Bool.and_eq_true, decide_eq_true_eq] at hc hd
  have hbits : tailBits b = b.toNat % 0x40 := rfl
  have hbits' : tailBits c = c.toNat % 0x40 := rfl
  have hbits'' : tailBits d = d.toNat % 0x40 := rfl
  constructor
  · rw [utf8Of, if_neg (by omega), if_neg (by omega), if_neg (by omega), eq_ofNat (b := a) (by omega),
      eq_ofNat (b := b) (by omega), eq_ofNat (b := c) (by omega), eq_ofNat (b := d) (by omega)]
  · simp only [Utf8.IsScalar]
    omega

/-! ## Whole texts -/

/-- `bytes` are the forms of the scalar values `cs`, one after another. -/
def AreForms (bytes : List UInt8) (cs : List ℕ) : Prop :=
  cs.flatMap utf8Of = bytes ∧ ∀ c ∈ cs, Utf8.IsScalar c

theorem IsForm.cons {form rest : List UInt8} {c : ℕ} {cs : List ℕ} (hc : IsForm form c)
    (hcs : AreForms rest cs) : AreForms (form ++ rest) (c :: cs) := by
  constructor
  · rw [List.flatMap_cons, hc.eq, hcs.1]
  · exact List.forall_mem_cons.mpr ⟨hc.scalar, hcs.2⟩

/-- The scalar values of a strictly decoded text spell its bytes. -/
theorem areForms_of_utf8Scalars {bytes : List UInt8} {cs : List ℕ} (h : utf8Scalars bytes = some cs) :
    AreForms bytes cs := by
  have next {form rest : List UInt8} {c : ℕ} {cs : List ℕ} (hc : IsForm form c)
      (ih : ∀ cs, utf8Scalars rest = some cs → AreForms rest cs)
      (h : (utf8Scalars rest).map (c :: ·) = some cs) : AreForms (form ++ rest) cs := by
    obtain ⟨cs', hcs', hcons⟩ := Option.map_eq_some_iff.mp h
    rw [← hcons]
    exact hc.cons (ih cs' hcs')
  fun_induction utf8Scalars bytes generalizing cs with
  | case1 =>
    rw [← Option.some.inj h]
    exact ⟨rfl, by simp⟩
  | case2 a rest ha ih => exact next (isForm_one ha) (fun _ => ih) h
  | case3 a _ ha b rest hb ih => exact next (isForm_two ha hb) (fun _ => ih) h
  | case6 a _ _ ha b c rest htail ih =>
    rw [Bool.and_eq_true] at htail
    exact next (isForm_three ha htail.1 htail.2) (fun _ => ih) h
  | case9 a _ _ _ ha b c d rest htail ih =>
    rw [Bool.and_eq_true, Bool.and_eq_true] at htail
    exact next (isForm_four ha htail.1.1 htail.1.2 htail.2) (fun _ => ih) h
  -- the other branches refuse the bytes
  | _ => exact absurd h (by simp)

/-- A scalar value is read back from its code units, whatever follows. -/
theorem scalars_utf16Of_append {c : ℕ} (hc : Utf8.IsScalar c) (s : JsString) :
    scalars (utf16Of c ++ s) = c :: scalars s := by
  obtain ⟨hlt, hs⟩ := hc
  by_cases hsmall : c < 0x10000
  · have hunit : (UInt16.ofNat c).toNat = c := by
      rw [UInt16.toNat_ofNat']
      omega
    have hlone : (isHighSurrogate (UInt16.ofNat c) || isLowSurrogate (UInt16.ofNat c)) = false := by
      simp only [isHighSurrogate, isLowSurrogate, hunit, Bool.or_eq_false_iff, Bool.and_eq_false_iff,
        decide_eq_false_iff_not]
      omega
    rw [utf16Of, if_pos hsmall, List.singleton_append, scalars_cons hlone, hunit]
  · have hhigh : (UInt16.ofNat (0xD800 + (c - 0x10000) / 0x400)).toNat = 0xD800 + (c - 0x10000) / 0x400 := by
      rw [UInt16.toNat_ofNat']
      omega
    have hlow : (UInt16.ofNat (0xDC00 + (c - 0x10000) % 0x400)).toNat = 0xDC00 + (c - 0x10000) % 0x400 := by
      rw [UInt16.toNat_ofNat']
      omega
    have hpair := scalars_pair (u := UInt16.ofNat (0xD800 + (c - 0x10000) / 0x400))
      (v := UInt16.ofNat (0xDC00 + (c - 0x10000) % 0x400))
      (by simp only [isHighSurrogate, hhigh, Bool.and_eq_true, decide_eq_true_eq]; omega)
      (by simp only [isLowSurrogate, hlow, Bool.and_eq_true, decide_eq_true_eq]; omega) s
    have hback : 0x10000 + (c - 0x10000) / 0x400 * 0x400 + (c - 0x10000) % 0x400 = c := by omega
    rw [hhigh, hlow, Nat.add_sub_cancel_left, Nat.add_sub_cancel_left, hback] at hpair
    rw [utf16Of, if_neg hsmall]
    exact hpair

theorem scalars_flatMap_utf16Of {cs : List ℕ} (h : ∀ c ∈ cs, Utf8.IsScalar c) :
    scalars (cs.flatMap utf16Of) = cs := by
  induction cs with
  | nil => rfl
  | cons c cs ih =>
    obtain ⟨hc, hcs⟩ := List.forall_mem_cons.mp h
    rw [List.flatMap_cons, scalars_utf16Of_append hc, ih hcs]

end Text

/-- **Strict decoding inverts encoding**: a text that decodes is the encoding of what it decodes to. -/
theorem textEncode_of_textDecode {bytes : List UInt8} {s : JsString} (h : textDecode bytes = some s) :
    textEncode s = bytes := by
  obtain ⟨cs, hcs, hs⟩ := Option.map_eq_some_iff.mp h
  obtain ⟨hbytes, hscalar⟩ := Text.areForms_of_utf8Scalars hcs
  rw [← hs, textEncode, Text.scalars_flatMap_utf16Of hscalar, hbytes]

end Phi
