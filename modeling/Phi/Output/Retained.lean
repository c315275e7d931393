import Phi.Output.Capture

/-!
# What a capture retains

The buffer of a capture holds the end of the output, or a beginning of it with something else behind it. As long as
trimming gives back a part of the buffer as it was (`TrimsCleanly`), truncating the buffer gives what truncating the
output gives (`content_retained`).

Trimming encodes the buffer and decodes a part of it. This is clean for text without lone surrogates that does not
start with a byte order mark (`trimsCleanly_of_paired`). A pair cut between two chunks comes apart, and a byte order
mark is dropped.
-/

namespace Phi.Output

variable {options : TruncationOptions} {c : OutputCapture} {text output : JsString}

/-! ## Lines cut from their end -/

namespace Harness

open Text (isHighSurrogate isLowSurrogate)

/-- The bytes of the reversed text, counted from its end. -/
def backBytes : JsString → ℕ
  | [] => 0
  | [u] => unitBytes u
  | u :: v :: before =>
    if isHighSurrogate v && isLowSurrogate u then 4 + backBytes before else unitBytes u + backBytes (v :: before)

theorem byteLength_singleton (u : UInt16) : byteLength [u] = unitBytes u := by
  rw [unitBytes_eq, byteLength, textEncode, Text.scalars]
  simp

theorem byteLength_pair {u v : UInt16} (h : (isHighSurrogate v && isLowSurrogate u) = true) : byteLength [v, u] = 4 := by
  rw [byteLength, textEncode, Text.scalars, if_pos h]
  simp [length_utf8Of_pair, Text.scalars]

theorem byteLength_append_of_not_pair {s t : JsString}
    (h : ∀ u ∈ s.getLast?, ∀ v ∈ t.head?, ¬(isHighSurrogate u && isLowSurrogate v) = true) :
    byteLength (s ++ t) = byteLength s + byteLength t := by
  rw [byteLength, textEncode, scalars_append h, List.flatMap_append, List.length_append]
  rfl

theorem not_low_of_high {u : UInt16} (h : isHighSurrogate u = true) : isLowSurrogate u = false := by
  simp only [isHighSurrogate, isLowSurrogate, Bool.and_eq_true, Bool.and_eq_false_iff, decide_eq_true_eq,
    decide_eq_false_iff_not] at h ⊢
  omega

theorem backBytes_eq (before : JsString) : backBytes before = byteLength before.reverse := by
  fun_induction backBytes before with
  | case1 => rfl
  | case2 u => rw [List.reverse_singleton, byteLength_singleton]
  | case3 u v before hpair ih =>
    rw [List.reverse_cons, List.reverse_cons, List.append_assoc, List.singleton_append, byteLength_append_of_not_pair,
      byteLength_pair hpair, ih, Nat.add_comm]
    intro w _ v' hv'
    cases hv'
    rw [not_low_of_high (Bool.and_eq_true_iff.mp hpair).1, Bool.and_false]
    exact Bool.false_ne_true
  | case4 u v before hpair ih =>
    rw [List.reverse_cons, byteLength_append_of_not_pair, byteLength_singleton, ih, Nat.add_comm]
    intro w hw u' hu'
    rw [List.getLast?_reverse] at hw
    cases hw
    cases hu'
    exact hpair

/-- A cut behind which there is more than fits does not matter. -/
theorem takeBack_append {maxBytes : ℕ} (before front : JsString) {outputBytes : ℕ} {needsReplacement : Bool}
    {out : JsString} (hout : outputBytes ≤ maxBytes) (hmore : maxBytes < outputBytes + backBytes before) :
    takeBack maxBytes outputBytes needsReplacement (before ++ front) out =
      takeBack maxBytes outputBytes needsReplacement before out := by
  fun_induction backBytes before generalizing outputBytes needsReplacement out with
  | case1 => omega
  | case2 u =>
    cases front with
    | nil => rfl
    | cons v front =>
      rw [List.singleton_append, takeBack, takeBack, if_pos (show outputBytes + unitBytes u > maxBytes from hmore)]
      split
      · rename_i hpair
        have hunit : unitBytes u ≤ 3 := by
          rw [unitBytes_eq]
          exact length_utf8Of_loneScalar_le u
        rw [if_pos (by omega)]
      · rfl
  | case3 u v before hpair ih =>
    rw [List.cons_append, List.cons_append, takeBack, takeBack, if_pos hpair, if_pos hpair]
    split
    · rfl
    · exact ih (by omega) (by omega)
  | case4 u v before hpair ih =>
    rw [List.cons_append, List.cons_append, takeBack, takeBack, if_neg hpair, if_neg hpair]
    split
    · rfl
    · rw [← List.cons_append]
      exact ih (by omega) (by omega)

theorem truncateStringToBytesFromEnd_cut (start : JsString) {first : JsString} {n : ℕ} (hn : n < byteLength first) :
    truncateStringToBytesFromEnd (start ++ first) n = truncateStringToBytesFromEnd first n := by
  rw [truncateStringToBytesFromEnd, truncateStringToBytesFromEnd, List.reverse_append,
    takeBack_append first.reverse start.reverse (Nat.zero_le n)]
  rw [backBytes_eq, List.reverse_reverse, Nat.zero_add]
  exact hn

end Harness

/-! ## Trimming -/

theorem byteLength_stripBom {cs : List ℕ} (h : ∀ c ∈ cs, Utf8.IsScalar c) :
    (cs.flatMap Text.utf8Of).length ≤ byteLength ((TextDecoder.stripBom false cs).flatMap Text.utf16Of) + 3 := by
  rw [byteLength_flatMap fun c hc => h c (TextDecoder.mem_of_mem_stripBom hc)]
  cases cs with
  | nil => simp
  | cons c cs =>
    rw [TextDecoder.stripBom]
    split
    · rename_i hbom
      have hc : c = 0xFEFF := by simpa using hbom
      rw [hc, List.flatMap_cons, List.length_append, show (Text.utf8Of 0xFEFF).length = 3 by decide]
      omega
    · omega

theorem trim_of_le (retain : Retain) {maxBytes : ℕ} (h : byteLength text ≤ maxBytes) : retain.trim text maxBytes = text := by
  have hlength : (textEncode text).length ≤ maxBytes := h
  cases retain with
  | head => exact if_pos hlength
  | tail => exact if_pos hlength

/-- What is left is some of the characters, and has almost as many bytes as it may. -/
theorem le_byteLength_trim (retain : Retain) {maxBytes : ℕ} (h : maxBytes < byteLength text) :
    maxBytes ≤ byteLength (retain.trim text maxBytes) + 6 := by
  have hlength : ¬(textEncode text).length ≤ maxBytes := Nat.not_le.mpr h
  have hscalars := isScalar_scalars text
  cases retain with
  | head =>
    rcases firstBytes_textEncode text (le_of_lt h) with ⟨front, back, heq, hfirst, hle, hlt⟩
    rw [heq] at hscalars
    have hfront : ∀ c ∈ front, Utf8.IsScalar c := fun c hc => hscalars c (List.mem_append_left _ hc)
    have hstrip := byteLength_stripBom hfront
    rw [Retain.trim, trimToFirstUtf8Bytes, if_neg hlength, hfirst, TextDecoder.decode, run_flatMap_utf8Of hfront]
    omega
  | tail =>
    rcases lastBytes_textEncode text maxBytes with ⟨front, back, heq, hlast, hle, hlt⟩
    rw [heq] at hscalars
    have hback : ∀ c ∈ back, Utf8.IsScalar c := fun c hc => hscalars c (List.mem_append_right _ hc)
    have hstrip := byteLength_stripBom hback
    have hlt := hlt (le_of_lt h)
    rw [Retain.trim, trimToLastUtf8Bytes, if_neg hlength, hlast, TextDecoder.decode, run_flatMap_utf8Of hback]
    omega

/-- A part that is kept: the end, or the beginning. -/
def Retain.Part (retain : Retain) (part whole : JsString) : Prop :=
  match retain with
  | .head => part <+: whole
  | .tail => part <:+ whole

/-- If the buffer is trimmed when this text comes, it keeps its characters. -/
def OutputCapture.TrimsCleanly (c : OutputCapture) (text : JsString) : Prop :=
  c.overflows text = true → c.retain.Part (c.retain.trim (c.buffer ++ text) (c.options.maxBytes * 2)) (c.buffer ++ text)

theorem Retain.Part.refl (retain : Retain) (text : JsString) : retain.Part text text := by
  cases retain with
  | head => exact List.prefix_refl text
  | tail => exact List.suffix_refl text

/-- It does so for well-formed text without a byte order mark in front. -/
theorem trimsCleanly_of_paired (h : Text.Paired (c.buffer ++ text))
    (hbom : c.retain = .head → (c.buffer ++ text).head? ≠ some 0xFEFF) : c.TrimsCleanly text := by
  intro _
  have hscalars := isScalar_scalars (c.buffer ++ text)
  have hwhole := flatMap_scalars h
  by_cases hle : byteLength (c.buffer ++ text) ≤ c.options.maxBytes * 2
  · rw [trim_of_le _ hle]
    exact .refl _ _
  have hlength : ¬(textEncode (c.buffer ++ text)).length ≤ c.options.maxBytes * 2 := hle
  cases hretain : c.retain with
  | head =>
    rcases firstBytes_textEncode (c.buffer ++ text) (le_of_not_ge hle) with ⟨front, back, heq, hfirst, -⟩
    rw [heq] at hscalars hwhole
    have hfront : ∀ c ∈ front, Utf8.IsScalar c := fun c hc => hscalars c (List.mem_append_left _ hc)
    have hstrip : TextDecoder.stripBom false front = front := by
      cases front with
      | nil => rfl
      | cons scalar front =>
        rw [TextDecoder.stripBom, if_neg]
        intro hmark
        have hscalar : scalar = 0xFEFF := by simpa using hmark
        rw [hscalar, List.cons_append, List.flatMap_cons, show Text.utf16Of 0xFEFF = [0xFEFF] from rfl] at hwhole
        rw [← hwhole] at hbom
        exact hbom hretain rfl
    rw [Retain.trim, trimToFirstUtf8Bytes, if_neg hlength, hfirst, TextDecoder.decode, run_flatMap_utf8Of hfront, hstrip,
      ← hwhole, List.flatMap_append]
    exact List.prefix_append _ _
  | tail =>
    rcases lastBytes_textEncode (c.buffer ++ text) (c.options.maxBytes * 2) with ⟨front, back, heq, hlast, -⟩
    rw [heq] at hscalars hwhole
    have hback : ∀ c ∈ back, Utf8.IsScalar c := fun c hc => hscalars c (List.mem_append_right _ hc)
    have hsuffix : TextDecoder.stripBom false back <:+ back := by
      cases back with
      | nil => exact List.suffix_refl _
      | cons scalar back =>
        rw [TextDecoder.stripBom]
        split
        · exact List.suffix_cons _ _
        · exact List.suffix_refl _
    rcases hsuffix with ⟨mark, hmark⟩
    rw [Retain.trim, trimToLastUtf8Bytes, if_neg hlength, hlast, TextDecoder.decode, run_flatMap_utf8Of hback, ← hwhole,
      List.flatMap_append]
    refine List.IsSuffix.trans ?_ (List.suffix_append _ _)
    conv_rhs => rw [← hmark, List.flatMap_append]
    exact List.suffix_append _ _

/-! ## The buffer and the output -/

/-- The buffer is the output, or holds enough of its end or of its beginning. -/
def OutputCapture.Covers (c : OutputCapture) (output : JsString) : Prop :=
  match c.retain with
  | .tail => ∃ front, output = front ++ c.buffer ∧ (front = [] ∨ c.options.maxBytes * 2 ≤ byteLength c.buffer + 6)
  | .head => ∃ start more more', output = start ++ more ∧ c.buffer = start ++ more' ∧
      (more = more' ∨ c.options.maxBytes * 2 ≤ byteLength start + 6)

theorem OutputCapture.Covers.receive (h : c.Covers output) (hclean : c.TrimsCleanly text) :
    (c.receive text).Covers (output ++ text) := by
  have hbuffer : (c.receive text).buffer =
      if c.overflows text then c.retain.trim (c.buffer ++ text) (c.options.maxBytes * 2) else c.buffer ++ text := rfl
  -- the buffer after the trim is a part of the buffer before it
  have hpart : c.retain.Part (c.receive text).buffer (c.buffer ++ text) ∧
      ((c.receive text).buffer = c.buffer ++ text ∨ c.options.maxBytes * 2 ≤ byteLength (c.receive text).buffer + 6) := by
    rw [hbuffer]
    split
    · rename_i hover
      refine ⟨hclean hover, ?_⟩
      by_cases hle : byteLength (c.buffer ++ text) ≤ c.options.maxBytes * 2
      · exact .inl (trim_of_le _ hle)
      · exact .inr (le_byteLength_trim _ (Nat.lt_of_not_le hle))
    · exact ⟨.refl _ _, .inl rfl⟩
  rcases hpart with ⟨hpart, hlarge⟩
  unfold Covers at h ⊢
  rw [show (c.receive text).retain = c.retain from rfl, show (c.receive text).options = c.options from rfl]
  cases hretain : c.retain with
  | tail =>
    rw [hretain] at h hpart
    dsimp only at h ⊢
    rcases h with ⟨front, rfl, hfront⟩
    rcases hpart with ⟨before, hbefore⟩
    refine ⟨front ++ before, ?_, ?_⟩
    · rw [List.append_assoc, List.append_assoc, hbefore]
    · rcases hlarge with hsame | hlarge
      · have hnil : before = [] := by
          rw [hsame] at hbefore
          exact List.append_left_eq_self.mp hbefore
        rw [hnil, List.append_nil]
        refine hfront.imp_right fun hfront => hfront.trans ?_
        rw [hsame]
        exact Nat.add_le_add_right (byteLength_le_append_right c.buffer text) 6
      · exact .inr hlarge
  | head =>
    rw [hretain] at h hpart
    dsimp only at h ⊢
    rcases h with ⟨start, more, more', rfl, hstart, hfront⟩
    rcases hpart with ⟨rest, hrest⟩
    rcases hfront with rfl | hfront
    · rcases hlarge with hsame | hlarge
      · exact ⟨start, more ++ text, more ++ text, List.append_assoc _ _ _, by rw [hsame, hstart, List.append_assoc], .inl rfl⟩
      · refine ⟨(c.receive text).buffer, rest, [], ?_, (List.append_nil _).symm, .inr hlarge⟩
        rw [hrest, hstart]
    · rw [hstart, List.append_assoc] at hrest
      rcases List.append_eq_append_iff.mp hrest with ⟨x, hx, -⟩ | ⟨x, hx, -⟩
      · -- the buffer ends inside the common beginning
        refine ⟨(c.receive text).buffer, x ++ (more ++ text), [], ?_, (List.append_nil _).symm, ?_⟩
        · rw [hx, List.append_assoc, List.append_assoc]
        · rcases hlarge with hsame | hlarge
          · right
            rw [hsame]
            refine hfront.trans (Nat.add_le_add_right ?_ 6)
            rw [hstart, List.append_assoc]
            exact byteLength_le_append_right _ _
          · exact .inr hlarge
      · exact ⟨start, more ++ text, x, List.append_assoc _ _ _, hx, .inr hfront⟩

/-- What is retained of the buffer is what is retained of the output. -/
theorem content_retained (h : c.Covers output) (hm : 8 ≤ c.options.maxBytes) :
    (c.retain.truncate c.buffer c.options).content = (c.retain.truncate output c.options).content := by
  unfold OutputCapture.Covers at h
  cases hretain : c.retain with
  | tail =>
    rw [hretain] at h
    rcases h with ⟨front, rfl, rfl | hlarge⟩
    · rfl
    · refine (content_truncateTailBy_cut front (by omega) ?_).symm
      intro before start first _ hfirst
      exact Harness.truncateStringToBytesFromEnd_cut start hfirst
  | head =>
    rw [hretain] at h
    rcases h with ⟨start, more, more', rfl, hbuffer, rfl | hlarge⟩
    · rw [hbuffer]
    · rw [hbuffer]
      exact content_truncateHead_cut (by omega) more' more

end Phi.Output
