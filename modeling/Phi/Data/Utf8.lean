import Phi.Data.Text

/-!
# Text files

A text file is written with `textEncode` and read with `decodeUtf8`, the decoder of `readFile(path, "utf8")`:
it goes byte by byte and puts U+FFFD where the bytes are no UTF-8. What is read back is what was written when
the text has no lone surrogate (`decodeUtf8_textEncode`). A newline byte is a newline wherever it stands, and
nothing else is, so that the lines of a file are those of its bytes (`decodeUtf8_newline`,
`newline_not_mem_decodeUtf8`).
-/

namespace Phi

namespace Utf8

/-- What the decoder holds between two bytes: nothing, or the bits read, with the number of bytes owed and
the range of the next. -/
inductive State where
  | start
  | more (owed bits low high : ℕ)

/-- A byte at the start of a character. -/
def first (b : ℕ) : List ℕ × State :=
  if b < 0x80 then ([b], .start)
  else if 0xC2 ≤ b ∧ b ≤ 0xDF then ([], .more 1 (b % 0x20) 0x80 0xBF)
  else if 0xE0 ≤ b ∧ b ≤ 0xEF then
    ([], .more 2 (b % 0x10) (if b = 0xE0 then 0xA0 else 0x80) (if b = 0xED then 0x9F else 0xBF))
  else if 0xF0 ≤ b ∧ b ≤ 0xF4 then
    ([], .more 3 (b % 8) (if b = 0xF0 then 0x90 else 0x80) (if b = 0xF4 then 0x8F else 0xBF))
  else ([0xFFFD], .start)

/-- The characters a byte completes, and what the decoder holds then. A byte out of range ends the character
before it and is read again. -/
def step : State → ℕ → List ℕ × State
  | .start, b => first b
  | .more owed bits low high, b =>
    if low ≤ b ∧ b ≤ high then
      if owed ≤ 1 then ([bits * 0x40 + b % 0x40], .start)
      else ([], .more (owed - 1) (bits * 0x40 + b % 0x40) 0x80 0xBF)
    else (0xFFFD :: (first b).1, (first b).2)

/-- The characters of the rest of the input. -/
def run : State → List UInt8 → List ℕ
  | .start, [] => []
  | .more _ _ _ _, [] => [0xFFFD]
  | q, b :: rest => (step q b.toNat).1 ++ run (step q b.toNat).2 rest

end Utf8

/-- `readFile(path, "utf8")`. -/
def decodeUtf8 (bytes : List UInt8) : JsString := (Utf8.run .start bytes).flatMap Text.utf16Of

namespace Utf8

/-! ## Newlines -/

theorem run_cons (q : State) (b : UInt8) (rest : List UInt8) :
    run q (b :: rest) = (step q b.toNat).1 ++ run (step q b.toNat).2 rest := by
  cases q <;> rfl

/-- The range of the next byte leaves out all of ASCII, and no completed character is a newline. -/
def State.Ok : State → Prop
  | .start => True
  | .more _ bits low high => 0x80 ≤ low ∧ high ≤ 0xBF ∧ 10 < bits * 0x40 + (low - 0x80)

theorem first_ok (b : ℕ) : (first b).2.Ok ∧ (10 ∈ (first b).1 → b = 10) := by
  unfold first
  split_ifs <;> simp [State.Ok] <;> omega

theorem step_ok {q : State} (hq : q.Ok) (b : ℕ) : (step q b).2.Ok ∧ (10 ∈ (step q b).1 → b = 10) := by
  cases q with
  | start => exact first_ok b
  | more owed bits low high =>
    rcases hq with ⟨hlow, hhigh, hbits⟩
    simp only [step]
    split_ifs
    · simp [State.Ok]
      omega
    · simp [State.Ok]
      omega
    · refine ⟨(first_ok b).1, fun h => ?_⟩
      rcases List.mem_cons.mp h with h | h
      · cases h
      · exact (first_ok b).2 h

theorem newline_mem_run {q : State} (hq : q.Ok) {bytes : List UInt8} (h : 10 ∈ run q bytes) :
    (10 : UInt8) ∈ bytes := by
  induction bytes generalizing q with
  | nil => cases q <;> simp [run] at h
  | cons b rest ih =>
    rw [run_cons, List.mem_append] at h
    rcases h with h | h
    · have hb := (step_ok hq b.toNat).2 h
      have : b = 10 := UInt8.toNat_inj.mp hb
      rw [this]
      exact List.mem_cons_self ..
    · exact List.mem_cons_of_mem _ (ih (step_ok hq b.toNat).1 h)

theorem run_newline {q : State} (hq : q.Ok) (bytes rest : List UInt8) :
    run q (bytes ++ 10 :: rest) = run q bytes ++ 10 :: run .start rest := by
  induction bytes generalizing q with
  | nil =>
    cases q with
    | start => rfl
    | more owed bits low high =>
      have hout : ¬(low ≤ 10 ∧ 10 ≤ high) := by
        have := hq.1
        omega
      rw [List.nil_append, run_cons]
      simp only [step, UInt8.reduceToNat, if_neg hout]
      rfl
  | cons b bytes ih =>
    rw [List.cons_append, run_cons, run_cons, ih (step_ok hq b.toNat).1, List.append_assoc]

/-! ## What was written is read back -/

theorem ofNat_toNat {n : ℕ} (h : n < 256) : (UInt8.ofNat n).toNat = n := by
  rw [UInt8.toNat_ofNat']
  omega

theorem run_utf8Of {c : ℕ} (hc : c < 0x110000) (hs : c < 0xD800 ∨ 0xE000 ≤ c) (rest : List UInt8) :
    run .start (Text.utf8Of c ++ rest) = c :: run .start rest := by
  unfold Text.utf8Of
  split_ifs with h1 h2 h3
  · simp only [List.cons_append, List.nil_append, run_cons, ofNat_toNat (show c < 256 by omega), step, first,
      if_pos h1]
  · simp only [List.cons_append, List.nil_append, run_cons, ofNat_toNat (show 0xC0 + c / 0x40 < 256 by omega),
      ofNat_toNat (show 0x80 + c % 0x40 < 256 by omega)]
    simp only [step, first]
    rw [if_neg (by omega), if_pos (by omega)]
    simp only [step]
    rw [if_pos (by omega), if_pos (by omega)]
    simp only [List.nil_append, List.cons_append, List.cons.injEq, and_true]
    omega
  · have hfirst : first (0xE0 + c / 0x1000) = ([], .more 2 (c / 0x1000)
        (if 0xE0 + c / 0x1000 = 0xE0 then 0xA0 else 0x80) (if 0xE0 + c / 0x1000 = 0xED then 0x9F else 0xBF)) := by
      unfold first
      rw [if_neg (by omega), if_neg (by omega), if_pos (by omega), show (0xE0 + c / 0x1000) % 0x10 = c / 0x1000 by omega]
    simp only [List.cons_append, List.nil_append, run_cons, ofNat_toNat (show 0xE0 + c / 0x1000 < 256 by omega),
      ofNat_toNat (show 0x80 + c / 0x40 % 0x40 < 256 by omega),
      ofNat_toNat (show 0x80 + c % 0x40 < 256 by omega)]
    simp only [step, hfirst]
    rw [if_pos (by split_ifs <;> omega), if_neg (by omega)]
    simp only [step]
    rw [if_pos (by omega), if_pos (by omega)]
    simp only [List.nil_append, List.cons_append, List.cons.injEq, and_true]
    omega
  · have hfirst : first (0xF0 + c / 0x40000) = ([], .more 3 (c / 0x40000)
        (if 0xF0 + c / 0x40000 = 0xF0 then 0x90 else 0x80)
        (if 0xF0 + c / 0x40000 = 0xF4 then 0x8F else 0xBF)) := by
      unfold first
      rw [if_neg (by omega), if_neg (by omega), if_neg (by omega), if_pos (by omega),
        show (0xF0 + c / 0x40000) % 8 = c / 0x40000 by omega]
    simp only [List.cons_append, List.nil_append, run_cons, ofNat_toNat (show 0xF0 + c / 0x40000 < 256 by omega),
      ofNat_toNat (show 0x80 + c / 0x1000 % 0x40 < 256 by omega),
      ofNat_toNat (show 0x80 + c / 0x40 % 0x40 < 256 by omega),
      ofNat_toNat (show 0x80 + c % 0x40 < 256 by omega)]
    simp only [step, hfirst]
    rw [if_pos (by split_ifs <;> omega), if_neg (by omega)]
    simp only [step]
    rw [if_pos (by omega), if_neg (by omega)]
    simp only [step]
    rw [if_pos (by omega), if_pos (by omega)]
    simp only [List.nil_append, List.cons_append, List.cons.injEq, and_true]
    omega

/-! ## What is read has no lone surrogate -/

/-- A Unicode scalar value. -/
def IsScalar (c : ℕ) : Prop := c < 0x110000 ∧ (c < 0xD800 ∨ 0xE000 ≤ c)

/-- Bytes in range complete the bits to a scalar value. -/
def Completes : ℕ → ℕ → ℕ → ℕ → Prop
  | 0, bits, _, _ => IsScalar bits
  | owed + 1, bits, low, high =>
    ∀ b, low ≤ b → b ≤ high → Completes owed (bits * 0x40 + b % 0x40) 0x80 0xBF

/-- The decoder is on the way to a scalar value. -/
def State.Sound : State → Prop
  | .start => True
  | .more owed bits low high => 1 ≤ owed ∧ Completes owed bits low high

theorem first_sound (b : ℕ) : (first b).2.Sound ∧ ∀ c ∈ (first b).1, IsScalar c := by
  unfold first
  split_ifs <;> simp [State.Sound, Completes, IsScalar] <;> intros <;> omega

theorem step_sound {q : State} (hq : q.Sound) (b : ℕ) :
    (step q b).2.Sound ∧ ∀ c ∈ (step q b).1, IsScalar c := by
  cases q with
  | start => exact first_sound b
  | more owed bits low high =>
    rcases hq with ⟨howed, hbits⟩
    rcases owed with _ | owed
    · omega
    · simp only [step]
      split_ifs with hb hlast
      · rw [show owed = 0 by omega] at hbits
        refine ⟨trivial, ?_⟩
        intro c hc
        rw [List.mem_singleton.mp hc]
        exact hbits b hb.1 hb.2
      · refine ⟨⟨by omega, ?_⟩, nofun⟩
        exact hbits b hb.1 hb.2
      · refine ⟨(first_sound b).1, ?_⟩
        intro c hc
        rcases List.mem_cons.mp hc with rfl | hc
        · exact ⟨by omega, by omega⟩
        · exact (first_sound b).2 c hc

theorem isScalar_of_mem_run {q : State} (hq : q.Sound) {bytes : List UInt8} {c : ℕ} (h : c ∈ run q bytes) :
    IsScalar c := by
  induction bytes generalizing q with
  | nil =>
    cases q with
    | start => simp [run] at h
    | more owed bits low high =>
      rw [run, List.mem_singleton] at h
      exact ⟨by omega, by omega⟩
  | cons b rest ih =>
    rw [run_cons, List.mem_append] at h
    rcases h with h | h
    · exact (step_sound hq b.toNat).2 c h
    · exact ih (step_sound hq b.toNat).1 h

end Utf8

namespace Text

/-- No surrogate stands alone. -/
inductive Paired : JsString → Prop where
  | nil : Paired []
  | unit {u : UInt16} {s : JsString} (hu : (isHighSurrogate u || isLowSurrogate u) = false) (hs : Paired s) :
    Paired (u :: s)
  | pair {u v : UInt16} {s : JsString} (hu : isHighSurrogate u = true) (hv : isLowSurrogate v = true)
    (hs : Paired s) : Paired (u :: v :: s)

theorem Paired.append {s t : JsString} (hs : Paired s) (ht : Paired t) : Paired (s ++ t) := by
  induction hs with
  | nil => exact ht
  | unit hu _ ih => exact .unit hu ih
  | pair hu hv _ ih => exact .pair hu hv ih

theorem scalars_cons {u : UInt16} (hu : (isHighSurrogate u || isLowSurrogate u) = false) (s : JsString) :
    scalars (u :: s) = u.toNat :: scalars s := by
  have hlone : loneScalar u = u.toNat := by simp [loneScalar, hu]
  cases s with
  | nil => simp [scalars, hlone]
  | cons v rest =>
    have hhigh : isHighSurrogate u = false := (Bool.or_eq_false_iff.mp hu).1
    simp [scalars, hhigh, hlone]

theorem scalars_pair {u v : UInt16} (hu : isHighSurrogate u = true) (hv : isLowSurrogate v = true)
    (s : JsString) :
    scalars (u :: v :: s) = (0x10000 + (u.toNat - 0xD800) * 0x400 + (v.toNat - 0xDC00)) :: scalars s := by
  simp [scalars, hu, hv]

theorem utf16Of_unit {u : UInt16} : utf16Of u.toNat = [u] := by
  have hlt := u.toNat_lt
  rw [utf16Of, if_pos (by omega), UInt16.ofNat_toNat]

theorem utf16Of_pair {u v : UInt16} (hu : isHighSurrogate u = true) (hv : isLowSurrogate v = true) :
    utf16Of (0x10000 + (u.toNat - 0xD800) * 0x400 + (v.toNat - 0xDC00)) = [u, v] := by
  simp only [isHighSurrogate, isLowSurrogate, Bool.and_eq_true, decide_eq_true_eq] at hu hv
  have hhigh : 0xD800 + (0x10000 + (u.toNat - 0xD800) * 0x400 + (v.toNat - 0xDC00) - 0x10000) / 0x400 = u.toNat := by
    omega
  have hlow : 0xDC00 + (0x10000 + (u.toNat - 0xD800) * 0x400 + (v.toNat - 0xDC00) - 0x10000) % 0x400 = v.toNat := by
    omega
  rw [utf16Of, if_neg (by omega), hhigh, hlow, UInt16.ofNat_toNat, UInt16.ofNat_toNat]

/-- The code units of a scalar value have no lone surrogate. -/
theorem paired_utf16Of {c : ℕ} (h : Utf8.IsScalar c) : Paired (utf16Of c) := by
  have hunit : ∀ n : ℕ, n < 0x10000 → (UInt16.ofNat n).toNat = n := by
    intro n hn
    rw [UInt16.toNat_ofNat']
    omega
  rcases h with ⟨hlt, hs⟩
  unfold utf16Of
  split_ifs with hc
  · refine .unit ?_ .nil
    simp only [isHighSurrogate, isLowSurrogate, hunit c hc, Bool.or_eq_false_iff, Bool.and_eq_false_iff,
      decide_eq_false_iff_not]
    omega
  · refine .pair ?_ ?_ .nil
    · simp only [isHighSurrogate, hunit _ (show 0xD800 + (c - 0x10000) / 0x400 < 0x10000 by omega),
        Bool.and_eq_true, decide_eq_true_eq]
      omega
    · simp only [isLowSurrogate, hunit _ (show 0xDC00 + (c - 0x10000) % 0x400 < 0x10000 by omega),
        Bool.and_eq_true, decide_eq_true_eq]
      omega

end Text

/-- The bytes of two texts in a row. -/
theorem textEncode_append {s : JsString} (hs : Text.Paired s) (t : JsString) :
    textEncode (s ++ t) = textEncode s ++ textEncode t := by
  induction hs with
  | nil => rfl
  | unit hu _ ih =>
    simp only [textEncode, List.cons_append, Text.scalars_cons hu, List.flatMap_cons] at ih ⊢
    rw [ih, List.append_assoc]
  | pair hu hv _ ih =>
    simp only [textEncode, List.cons_append, Text.scalars_pair hu hv, List.flatMap_cons] at ih ⊢
    rw [ih, List.append_assoc]

/-- A text without lone surrogates is read back from its bytes. -/
theorem decodeUtf8_textEncode {s : JsString} (hs : Text.Paired s) : decodeUtf8 (textEncode s) = s := by
  unfold decodeUtf8 textEncode
  induction hs with
  | nil => rfl
  | @unit u s hu _ ih =>
    have hrange : u.toNat < 0xD800 ∨ 0xE000 ≤ u.toNat := by
      simp only [Text.isHighSurrogate, Text.isLowSurrogate, Bool.or_eq_false_iff, Bool.and_eq_false_iff,
        decide_eq_false_iff_not] at hu
      omega
    have hlt := u.toNat_lt
    rw [Text.scalars_cons hu, List.flatMap_cons, Utf8.run_utf8Of (by omega) hrange, List.flatMap_cons, ih,
      Text.utf16Of_unit]
    rfl
  | pair hu hv _ ih =>
    rw [Text.scalars_pair hu hv, List.flatMap_cons, Utf8.run_utf8Of _ _, List.flatMap_cons, ih,
      Text.utf16Of_pair hu hv]
    · rfl
    · simp only [Text.isHighSurrogate, Text.isLowSurrogate, Bool.and_eq_true, decide_eq_true_eq] at hu hv
      omega
    · simp only [Text.isHighSurrogate, Text.isLowSurrogate, Bool.and_eq_true, decide_eq_true_eq] at hu hv
      omega

/-- A newline byte ends whatever stands before it. -/
theorem decodeUtf8_newline (bytes rest : List UInt8) :
    decodeUtf8 (bytes ++ 10 :: rest) = decodeUtf8 bytes ++ 10 :: decodeUtf8 rest := by
  simp only [decodeUtf8, Utf8.run_newline (show Utf8.State.Ok .start from trivial), List.flatMap_append,
    List.flatMap_cons]
  rfl

theorem newline_not_mem_decodeUtf8 {bytes : List UInt8} (h : (10 : UInt8) ∉ bytes) :
    (10 : UInt16) ∉ decodeUtf8 bytes := by
  intro hmem
  rcases List.mem_flatMap.mp hmem with ⟨c, hc, hunit⟩
  have hscalar := Utf8.isScalar_of_mem_run (show Utf8.State.Sound .start from trivial) hc
  -- the only scalar value with the code unit of a newline is the newline
  have hten : c = 10 := by
    have hnat : ∀ n : ℕ, n < 0x10000 → (10 : UInt16) = UInt16.ofNat n → n = 10 := by
      intro n hn heq
      have := congrArg UInt16.toNat heq
      rw [UInt16.toNat_ofNat'] at this
      simp only [UInt16.reduceToNat] at this
      omega
    have hlt := hscalar.1
    unfold Text.utf16Of at hunit
    split_ifs at hunit with hc
    · exact hnat c hc (List.mem_singleton.mp hunit)
    · rcases List.mem_pair.mp hunit with heq | heq
      · have := hnat _ (by omega) heq
        omega
      · have := hnat _ (by omega) heq
        omega
  rw [hten] at hc
  exact h (Utf8.newline_mem_run (show Utf8.State.Ok .start from trivial) hc)

theorem paired_decodeUtf8 (bytes : List UInt8) : Text.Paired (decodeUtf8 bytes) := by
  have hall : ∀ c ∈ Utf8.run .start bytes, Utf8.IsScalar c := fun c hc =>
    Utf8.isScalar_of_mem_run (show Utf8.State.Sound .start from trivial) hc
  unfold decodeUtf8
  generalize Utf8.run .start bytes = cs at hall
  induction cs with
  | nil => exact .nil
  | cons c cs ih =>
    rw [List.forall_mem_cons] at hall
    rw [List.flatMap_cons]
    exact (Text.paired_utf16Of hall.1).append (ih hall.2)

/-- Only a newline has the byte of one. -/
theorem Text.newline_not_mem_utf8Of {c : ℕ} (hlt : c < 0x110000) (hc : c ≠ 10) :
    (10 : UInt8) ∉ Text.utf8Of c := by
  have hnat : ∀ n : ℕ, (10 : UInt8) = UInt8.ofNat n → n % 256 = 10 := by
    intro n heq
    have := congrArg UInt8.toNat heq
    rw [UInt8.toNat_ofNat'] at this
    simpa using this.symm
  intro h
  unfold Text.utf8Of at h
  split_ifs at h
  · have := hnat _ (List.mem_singleton.mp h)
    omega
  · rcases List.mem_pair.mp h with h | h <;> have := hnat _ h <;> omega
  · simp only [List.mem_cons, List.not_mem_nil, or_false] at h
    rcases h with h | h | h <;> have := hnat _ h <;> omega
  · simp only [List.mem_cons, List.not_mem_nil, or_false] at h
    rcases h with h | h | h | h <;> have := hnat _ h <;> omega

theorem newline_not_mem_textEncode {s : JsString} (hs : Text.Paired s) (h : (10 : UInt16) ∉ s) :
    (10 : UInt8) ∉ textEncode s := by
  unfold textEncode
  induction hs with
  | nil => simp [Text.scalars]
  | @unit u s hu _ ih =>
    have hlt := u.toNat_lt
    rw [List.mem_cons, not_or] at h
    rw [Text.scalars_cons hu, List.flatMap_cons, List.mem_append, not_or]
    refine ⟨Text.newline_not_mem_utf8Of (by omega) fun heq => h.1 ?_, ih h.2⟩
    exact UInt16.toNat_inj.mp heq.symm
  | pair hu hv _ ih =>
    simp only [List.mem_cons, not_or] at h
    rw [Text.scalars_pair hu hv, List.flatMap_cons, List.mem_append, not_or]
    simp only [Text.isHighSurrogate, Text.isLowSurrogate, Bool.and_eq_true, decide_eq_true_eq] at hu hv
    exact ⟨Text.newline_not_mem_utf8Of (by omega) (by omega), ih h.2.2⟩

end Phi
