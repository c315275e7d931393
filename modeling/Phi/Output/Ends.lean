import Phi.Output.Retained

/-!
# The end of a line

A last line that is too long by itself is cut from its end. Both copies of `truncateStringToBytesFromEnd` give its last
characters, as many as fit (`IsEnd`): the one encodes the line and moves the cut to the next character, the other goes
back from character to character. A lone surrogate is a character, and comes out as U+FFFD.
-/

namespace Phi.Output

/-- `content` is made of the last characters of a line, and no more would fit. -/
def IsEnd (maxBytes : ℕ) (line content : JsString) : Prop :=
  ∃ front back, Text.scalars line = front ++ back ∧ content = back.flatMap Text.utf16Of ∧
    byteLength content ≤ maxBytes ∧ ∀ c ∈ front.getLast?, maxBytes < (Text.utf8Of c).length + byteLength content

variable {maxBytes : ℕ} {line : JsString}

theorem byteLength_of_scalars {front back : List ℕ} (h : Text.scalars line = front ++ back) :
    byteLength (back.flatMap Text.utf16Of) = (back.flatMap Text.utf8Of).length := by
  refine byteLength_flatMap fun c hc => isScalar_scalars line c ?_
  rw [h]
  exact List.mem_append_right _ hc

/-- There is one end of a line. -/
theorem IsEnd.unique {content content' : JsString} (h : IsEnd maxBytes line content)
    (h' : IsEnd maxBytes line content') :
    content = content' := by
  -- the longer of two ends has the character that does not fit in front of the shorter
  have hnot : ∀ {front back front' back' : List ℕ}, Text.scalars line = front ++ back →
      Text.scalars line = front' ++ back' →
      byteLength (back.flatMap Text.utf16Of) ≤ maxBytes →
      (∀ c ∈ front'.getLast?, maxBytes < (Text.utf8Of c).length + byteLength (back'.flatMap Text.utf16Of)) →
      ¬front.length < front'.length := by
    intro front back front' back' heq heq' hle hmore hlt
    obtain ⟨between, hbetween⟩ := List.prefix_of_prefix_length_le ⟨back, rfl⟩ ⟨back', heq'.symm.trans heq⟩ hlt.le
    rcases List.eq_nil_or_concat between with rfl | ⟨between, c, rfl⟩
    · rw [← hbetween, List.append_nil] at hlt
      exact lt_irrefl _ hlt
    · have hback : back = between ++ [c] ++ back' := by
        rw [heq, ← hbetween, List.append_assoc, List.append_right_inj] at heq'
        simpa using heq'
      have hc := hmore c (by rw [← hbetween]; simp)
      rw [byteLength_of_scalars heq, hback] at hle
      rw [byteLength_of_scalars heq'] at hc
      simp only [List.flatMap_append, List.flatMap_singleton, List.length_append] at hle
      omega
  obtain ⟨front, back, heq, rfl, hle, hmore⟩ := h
  obtain ⟨front', back', heq', rfl, hle', hmore'⟩ := h'
  have h1 := hnot heq heq' hle hmore'
  have h2 := hnot heq' heq hle' hmore
  rw [heq] at heq'
  rw [(List.append_inj heq' (by omega)).2]

/-! ## Cutting the bytes -/

/-- No character in front of the last bytes would fit. -/
theorem lt_of_lastBytes {before after : List (List UInt8)} {char : List UInt8} (h : IsChar char) {n : ℕ}
    (hlast : lastBytes n (before ++ char :: after).flatten = after.flatten) :
    n < char.length + after.flatten.length := by
  by_contra hle
  obtain ⟨b, rest, rfl⟩ := List.exists_cons_of_ne_nil h.ne_nil
  have hb : isContinuation b = false := h.head b rfl
  rw [lastBytes, List.flatten_append, List.flatten_cons, List.drop_append_of_le_length] at hlast
  · have hlength := congrArg List.length hlast
    have hstop : ¬isContinuation b = true := by rw [hb]; exact Bool.false_ne_true
    rw [List.dropWhile_append, List.cons_append, List.dropWhile_cons_of_neg hstop] at hlength
    split_ifs at hlength
    · simp at hlength
      omega
    · simp at hlength
      omega
  · simp only [List.length_append, List.length_cons] at hle ⊢
    omega

theorem isEnd_truncateStringToBytesFromEnd (h : maxBytes < byteLength line) :
    IsEnd maxBytes line (truncateStringToBytesFromEnd line maxBytes) := by
  obtain ⟨front, back, heq, hlast, hle, -⟩ := lastBytes_textEncode line maxBytes
  have hscalar : ∀ c ∈ front ++ back, Utf8.IsScalar c := fun c hc => isScalar_scalars line c (heq ▸ hc)
  have hback : ∀ c ∈ back, Utf8.IsScalar c := fun c hc => hscalar c (List.mem_append_right _ hc)
  have hcontent : truncateStringToBytesFromEnd line maxBytes = back.flatMap Text.utf16Of := by
    have hlong : ¬(textEncode line).length ≤ maxBytes := Nat.not_le.mpr h
    rw [truncateStringToBytesFromEnd, if_neg hlong, hlast, decodeUtf8, run_flatMap_utf8Of hback]
  refine ⟨front, back, heq, hcontent, ?_, fun c hc => ?_⟩
  · rw [hcontent, byteLength_flatMap hback]
    exact hle
  · rw [hcontent, byteLength_flatMap hback, List.flatMap_def]
    obtain ⟨front, rfl⟩ : ∃ front', front = front' ++ [c] := ⟨_, (List.dropLast_append_getLast? c hc).symm⟩
    refine @lt_of_lastBytes (front.map Text.utf8Of) (back.map Text.utf8Of) _ (isChar_utf8Of (hscalar c (by simp))) _ ?_
    rw [← List.flatMap_def, ← hlast, textEncode, heq]
    simp [List.flatMap_def]

/-! ## Going back over the characters -/

namespace Harness

open Text (isHighSurrogate isLowSurrogate)

theorem replaceUnpairedSurrogates_eq (content : JsString) :
    replaceUnpairedSurrogates content = (Text.scalars content).flatMap Text.utf16Of := by
  have hlone : ∀ u : UInt16, Text.utf16Of (Text.loneScalar u)
      = [if isHighSurrogate u || isLowSurrogate u then 0xFFFD else u] := by
    intro u
    rw [Text.loneScalar]
    split
    · rfl
    · exact Text.utf16Of_unit
  fun_induction replaceUnpairedSurrogates content with
  | case1 => rfl
  | case2 u => rw [Text.scalars, List.flatMap_singleton, hlone]
  | case3 u v rest hpair ih =>
    have hboth := Bool.and_eq_true_iff.mp hpair
    rw [Text.scalars_pair hboth.1 hboth.2, List.flatMap_cons, Text.utf16Of_pair hboth.1 hboth.2, ih]
    rfl
  | case4 u v rest hpair ih => rw [Text.scalars, if_neg hpair, List.flatMap_cons, hlone, ih, List.singleton_append]

/-- The characters that the loop has gone back over, and whether a surrogate among them stands alone. -/
structure TakesBack (maxBytes outputBytes : ℕ) (needsReplacement : Bool) (before output : JsString)
    (taken : JsString × Bool) (front back : JsString) : Prop where
  split : before.reverse = front ++ back
  output : taken.1 = back ++ output
  scalars : Text.scalars (front ++ back) = Text.scalars front ++ Text.scalars back
  le : outputBytes ≤ maxBytes → outputBytes + byteLength back ≤ maxBytes
  more : ∀ c ∈ (Text.scalars front).getLast?, maxBytes < (Text.utf8Of c).length + (outputBytes + byteLength back)
  paired : taken.2 = false → needsReplacement = false ∧ Text.Paired back

theorem takesBack_stop {outputBytes : ℕ} {needsReplacement : Bool} {before output : JsString}
    (h : ∀ c ∈ (Text.scalars before.reverse).getLast?, maxBytes < (Text.utf8Of c).length + outputBytes) :
    TakesBack maxBytes outputBytes needsReplacement before output (output, needsReplacement) before.reverse [] where
  split := (List.append_nil _).symm
  output := rfl
  scalars := by rw [List.append_nil, Text.scalars, List.append_nil]
  le hle := hle
  more := h
  paired hfalse := ⟨hfalse, .nil⟩

/-- The loop goes back over one more character. -/
theorem TakesBack.concat {outputBytes outputBytes' : ℕ} {needs needs' : Bool}
    {before output piece front back : JsString} {taken : JsString × Bool}
    (hpiece : ∀ x, x <:+ before.reverse → Text.scalars (x ++ piece) = Text.scalars x ++ Text.scalars piece)
    (hsum : outputBytes' = outputBytes + byteLength piece) (hfit : outputBytes' ≤ maxBytes)
    (hneeds : needs' = false → needs = false ∧ Text.Paired piece)
    (h : TakesBack maxBytes outputBytes' needs' before (piece ++ output) taken front back) :
    TakesBack maxBytes outputBytes needs (piece.reverse ++ before) output taken front (back ++ piece) := by
  have hback : Text.scalars (back ++ piece) = Text.scalars back ++ Text.scalars piece :=
    hpiece back ⟨front, h.split.symm⟩
  have hbytes : byteLength (back ++ piece) = byteLength back + byteLength piece := by
    rw [byteLength, textEncode, hback, List.flatMap_append, List.length_append]
    rfl
  refine ⟨?_, ?_, ?_, fun _ => ?_, fun c hc => ?_, fun hfalse => ?_⟩
  · rw [List.reverse_append, List.reverse_reverse, h.split, List.append_assoc]
  · rw [h.output, List.append_assoc]
  · rw [← List.append_assoc, hpiece (front ++ back) ⟨[], h.split.symm⟩, h.scalars, hback, List.append_assoc]
  · have hle := h.le hfit
    omega
  · have hmore := h.more c hc
    omega
  · obtain ⟨hneeds', hpaired⟩ := h.paired hfalse
    exact ⟨(hneeds hneeds').1, hpaired.append (hneeds hneeds').2⟩

/-- A pair is one character, whatever stands in front of it. -/
theorem scalars_append_pair {u v : UInt16} (h : (isHighSurrogate v && isLowSurrogate u) = true) (x : JsString) :
    Text.scalars (x ++ [v, u]) = Text.scalars x ++ Text.scalars [v, u] := by
  have hlow := not_low_of_high (Bool.and_eq_true_iff.mp h).1
  refine scalars_append fun w _ v' hv' => ?_
  cases hv'
  rw [hlow, Bool.and_false]
  exact Bool.false_ne_true

/-- So is a code unit that makes no pair with the one in front of it. -/
theorem scalars_append_unit {u v : UInt16} (h : ¬(isHighSurrogate v && isLowSurrogate u) = true) {before x : JsString}
    (hx : x <:+ (v :: before).reverse) : Text.scalars (x ++ [u]) = Text.scalars x ++ Text.scalars [u] := by
  refine scalars_append fun w hw u' hu' => ?_
  cases hu'
  obtain ⟨y, hy⟩ := hx
  have hlast := congrArg List.getLast? hy
  rw [List.getLast?_append, Option.mem_def.mp hw, List.reverse_cons, List.getLast?_concat, Option.some_or] at hlast
  cases hlast
  exact h

theorem exists_takesBack (outputBytes : ℕ) (needsReplacement : Bool) (before output : JsString) :
    ∃ front back, TakesBack maxBytes outputBytes needsReplacement before output
      (takeBack maxBytes outputBytes needsReplacement before output) front back := by
  fun_induction takeBack maxBytes outputBytes needsReplacement before output with
  | case1 => exact ⟨_, _, takesBack_stop (by simp [Text.scalars])⟩
  | case2 outputBytes needsReplacement u output hmore =>
    refine ⟨_, _, takesBack_stop fun c hc => ?_⟩
    rw [List.reverse_singleton, Text.scalars] at hc
    obtain rfl : Text.loneScalar u = c := by simpa using hc
    rw [← unitBytes_eq]
    omega
  | case3 outputBytes needsReplacement u output hmore =>
    refine ⟨[], [u], rfl, rfl, rfl, fun _ => ?_, by simp [Text.scalars], fun hfalse => ?_⟩
    · rw [byteLength_singleton]
      omega
    · rw [Bool.or_eq_false_iff] at hfalse
      exact ⟨hfalse.1, .unit hfalse.2 .nil⟩
  | case4 outputBytes needsReplacement u v before output hpair hmore =>
    have hboth := Bool.and_eq_true_iff.mp hpair
    refine ⟨_, _, takesBack_stop fun c hc => ?_⟩
    rw [List.reverse_cons, List.reverse_cons, List.append_assoc, List.singleton_append, scalars_append_pair hpair,
      Text.scalars_pair hboth.1 hboth.2, Text.scalars, List.getLast?_concat] at hc
    rw [← Option.some.inj hc, length_utf8Of_pair]
    omega
  | case5 outputBytes needsReplacement u v before output hpair hmore ih =>
    have hboth := Bool.and_eq_true_iff.mp hpair
    obtain ⟨front, back, ih⟩ := ih
    refine ⟨front, back ++ [v, u], ih.concat (fun x _ => scalars_append_pair hpair x) ?_ (by omega)
      fun hfalse => ⟨hfalse, .pair hboth.1 hboth.2 .nil⟩⟩
    rw [byteLength_pair hpair]
  | case6 outputBytes needsReplacement u v before output hpair hmore =>
    refine ⟨_, _, takesBack_stop fun c hc => ?_⟩
    rw [List.reverse_cons, scalars_append_unit hpair List.suffix_rfl, Text.scalars, List.getLast?_concat] at hc
    cases hc
    rw [← unitBytes_eq]
    omega
  | case7 outputBytes needsReplacement u v before output hpair hmore ih =>
    obtain ⟨front, back, ih⟩ := ih
    refine ⟨front, back ++ [u], ih.concat (fun x hx => scalars_append_unit hpair hx) ?_ (by omega) fun hfalse => ?_⟩
    · rw [byteLength_singleton]
    · rw [Bool.or_eq_false_iff] at hfalse
      exact ⟨hfalse.1, .unit hfalse.2 .nil⟩

theorem isEnd_truncateStringToBytesFromEnd (maxBytes : ℕ) (line : JsString) :
    IsEnd maxBytes line (truncateStringToBytesFromEnd line maxBytes) := by
  have hpos : ∀ c : ℕ, 0 < (Text.utf8Of c).length := by
    intro c
    rw [length_utf8Of]
    split_ifs <;> omega
  rw [truncateStringToBytesFromEnd]
  split_ifs with hzero
  · refine ⟨Text.scalars line, [], (List.append_nil _).symm, rfl, Nat.zero_le _, fun c _ => ?_⟩
    rw [hzero, byteLength_nil]
    exact hpos c
  · obtain ⟨front, back, h⟩ := @exists_takesBack maxBytes 0 false line.reverse []
    have hline : Text.scalars line = Text.scalars front ++ Text.scalars back := by
      rw [← h.scalars, ← h.split, List.reverse_reverse]
    have houtput : (takeBack maxBytes 0 false line.reverse []).1 = back := by rw [h.output, List.append_nil]
    have hbytes : byteLength ((Text.scalars back).flatMap Text.utf16Of) = byteLength back := byteLength_of_scalars hline
    have hend : IsEnd maxBytes line ((Text.scalars back).flatMap Text.utf16Of) := by
      refine ⟨_, _, hline, rfl, ?_, fun c hc => ?_⟩
      · have hle := h.le (Nat.zero_le _)
        omega
      · have hmore := h.more c hc
        omega
    dsimp only
    split
    · rw [houtput, replaceUnpairedSurrogates_eq]
      exact hend
    · rename_i hpaired
      rw [houtput]
      rwa [flatMap_scalars (h.paired (Bool.eq_false_of_not_eq_true hpaired)).2] at hend

/-- Both copies cut a line that is too long in the same place. -/
theorem truncateStringToBytesFromEnd_eq (h : maxBytes < byteLength line) :
    truncateStringToBytesFromEnd line maxBytes = Output.truncateStringToBytesFromEnd line maxBytes :=
  (isEnd_truncateStringToBytesFromEnd maxBytes line).unique (Output.isEnd_truncateStringToBytesFromEnd h)

end Harness

end Phi.Output
