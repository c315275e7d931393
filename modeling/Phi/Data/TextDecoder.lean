import Phi.Data.Utf8

/-!
# Streaming text decoders

`new TextDecoder()` keeps the bytes of an unfinished character between two calls with `stream: true`, and drops one
byte order mark at the start of what it decodes. However the bytes are cut into calls, the texts it returns make up
the text of all the bytes (`decodeChunks_eq`), and none of them has a lone surrogate.
-/

namespace Phi

namespace Utf8

/-- The characters that some bytes complete, and what the decoder holds then. -/
def feed : State → List UInt8 → List ℕ × State
  | q, [] => ([], q)
  | q, b :: rest =>
    let rest' := feed (step q b.toNat).2 rest
    ((step q b.toNat).1 ++ rest'.1, rest'.2)

/-- The end of the input closes an unfinished character. -/
def close : State → List ℕ
  | .start => []
  | .more _ _ _ _ => [0xFFFD]

theorem run_eq_feed (q : State) (bytes : List UInt8) : run q bytes = (feed q bytes).1 ++ close (feed q bytes).2 := by
  induction bytes generalizing q with
  | nil => cases q <;> rfl
  | cons b rest ih => rw [run_cons, ih, feed, List.append_assoc]

theorem run_append (q : State) (bytes rest : List UInt8) :
    run q (bytes ++ rest) = (feed q bytes).1 ++ run (feed q bytes).2 rest := by
  induction bytes generalizing q with
  | nil => rfl
  | cons b bytes ih => rw [List.cons_append, run_cons, ih, feed, List.append_assoc]

theorem feed_sound {q : State} (hq : q.Sound) (bytes : List UInt8) :
    (feed q bytes).2.Sound ∧ ∀ c ∈ (feed q bytes).1, IsScalar c := by
  induction bytes generalizing q with
  | nil => exact ⟨hq, by simp [feed]⟩
  | cons b rest ih =>
    rcases step_sound hq b.toNat with ⟨hnext, hout⟩
    rcases ih hnext with ⟨hlast, hrest⟩
    refine ⟨hlast, ?_⟩
    intro c hc
    rcases List.mem_append.mp hc with hc | hc
    · exact hout c hc
    · exact hrest c hc

theorem close_sound (q : State) : ∀ c ∈ close q, IsScalar c := by
  cases q with
  | start => simp [close]
  | more owed bits low high =>
    intro c hc
    rw [List.mem_singleton.mp hc]
    exact ⟨by omega, by omega⟩

end Utf8

theorem Text.paired_flatMap {cs : List ℕ} (h : ∀ c ∈ cs, Utf8.IsScalar c) : Text.Paired (cs.flatMap Text.utf16Of) := by
  induction cs with
  | nil => exact .nil
  | cons c cs ih =>
    rw [List.forall_mem_cons] at h
    rw [List.flatMap_cons]
    exact (Text.paired_utf16Of h.1).append (ih h.2)

/-! ## The decoder -/

/-- What `new TextDecoder()` holds between two calls. -/
structure TextDecoder where
  state : Utf8.State := .start
  bomSeen : Bool := false

namespace TextDecoder

/-- The output without the byte order mark at its start. -/
def stripBom (bomSeen : Bool) : List ℕ → List ℕ
  | [] => []
  | c :: cs => if !bomSeen && c = 0xFEFF then cs else c :: cs

/-- `decoder.decode(bytes, { stream: true })`. -/
def decodeStream (d : TextDecoder) (bytes : List UInt8) : JsString × TextDecoder :=
  let out := Utf8.feed d.state bytes
  ((stripBom d.bomSeen out.1).flatMap Text.utf16Of, ⟨out.2, d.bomSeen || !out.1.isEmpty⟩)

/-- `decoder.decode()`: the end of the stream. The decoder starts anew after it. -/
def decodeEnd (d : TextDecoder) : JsString × TextDecoder :=
  ((stripBom d.bomSeen (Utf8.close d.state)).flatMap Text.utf16Of, {})

/-- `new TextDecoder().decode(bytes)`. -/
def decode (bytes : List UInt8) : JsString := (stripBom false (Utf8.run .start bytes)).flatMap Text.utf16Of

/-- The texts of a stream, and what the decoder holds then. -/
def decodeChunks : TextDecoder → List (List UInt8) → List JsString × TextDecoder
  | d, [] => ([], d)
  | d, bytes :: chunks =>
    let rest := decodeChunks (d.decodeStream bytes).2 chunks
    ((d.decodeStream bytes).1 :: rest.1, rest.2)

/-- The output of the rest of the stream and of its end. -/
def outputFrom (d : TextDecoder) (bytes : List UInt8) : JsString :=
  (stripBom d.bomSeen (Utf8.run d.state bytes)).flatMap Text.utf16Of

theorem stripBom_append (bomSeen : Bool) (cs cs' : List ℕ) :
    stripBom bomSeen (cs ++ cs') = stripBom bomSeen cs ++ stripBom (bomSeen || !cs.isEmpty) cs' := by
  cases cs with
  | nil => simp [stripBom]
  | cons c cs =>
    have hseen : stripBom (bomSeen || !(c :: cs).isEmpty) cs' = cs' := by
      rw [List.isEmpty_cons, Bool.not_false, Bool.or_true]
      cases cs' <;> rfl
    rw [hseen, List.cons_append, stripBom, stripBom]
    split <;> rfl

theorem outputFrom_append (d : TextDecoder) (bytes rest : List UInt8) :
    d.outputFrom (bytes ++ rest) = (d.decodeStream bytes).1 ++ (d.decodeStream bytes).2.outputFrom rest := by
  simp only [outputFrom, decodeStream, Utf8.run_append, stripBom_append, List.flatMap_append]

theorem decodeEnd_eq (d : TextDecoder) : d.decodeEnd.1 = d.outputFrom [] := by
  rw [outputFrom, Utf8.run_eq_feed]
  rfl

theorem decodeChunks_outputFrom (d : TextDecoder) (chunks : List (List UInt8)) :
    (d.decodeChunks chunks).1.flatten ++ (d.decodeChunks chunks).2.decodeEnd.1 = d.outputFrom chunks.flatten := by
  induction chunks generalizing d with
  | nil => exact decodeEnd_eq d
  | cons bytes chunks ih =>
    rw [List.flatten_cons, outputFrom_append, ← ih, ← List.append_assoc]
    rfl

/-- However the bytes are cut, the texts of the stream make up the text of all of them. -/
theorem decodeChunks_eq (chunks : List (List UInt8)) :
    (decodeChunks {} chunks).1.flatten ++ (decodeChunks {} chunks).2.decodeEnd.1 = decode chunks.flatten :=
  decodeChunks_outputFrom {} chunks

/-! ## No lone surrogate -/

theorem mem_of_mem_stripBom {bomSeen : Bool} {cs : List ℕ} {c : ℕ} (h : c ∈ stripBom bomSeen cs) : c ∈ cs := by
  cases cs with
  | nil => exact h
  | cons c' cs =>
    rw [stripBom] at h
    split at h
    · exact List.mem_cons_of_mem _ h
    · exact h

theorem decodeStream_sound {d : TextDecoder} (hd : d.state.Sound) (bytes : List UInt8) :
    (d.decodeStream bytes).2.state.Sound ∧ Text.Paired (d.decodeStream bytes).1 := by
  rcases Utf8.feed_sound hd bytes with ⟨hstate, hout⟩
  exact ⟨hstate, Text.paired_flatMap fun c hc => hout c (mem_of_mem_stripBom hc)⟩

theorem paired_decodeEnd (d : TextDecoder) : Text.Paired d.decodeEnd.1 :=
  Text.paired_flatMap fun c hc => Utf8.close_sound _ c (mem_of_mem_stripBom hc)

theorem decodeChunks_sound {d : TextDecoder} (hd : d.state.Sound) (chunks : List (List UInt8)) :
    (d.decodeChunks chunks).2.state.Sound ∧ ∀ text ∈ (d.decodeChunks chunks).1, Text.Paired text := by
  induction chunks generalizing d with
  | nil => exact ⟨hd, by simp [decodeChunks]⟩
  | cons bytes chunks ih =>
    rcases decodeStream_sound hd bytes with ⟨hstate, hout⟩
    rcases ih hstate with ⟨hlast, hrest⟩
    exact ⟨hlast, List.forall_mem_cons.mpr ⟨hout, hrest⟩⟩

end TextDecoder

/-! ## Cutting behind a carriage return -/

namespace Utf8

theorem feed_append (q : State) (bytes rest : List UInt8) :
    feed q (bytes ++ rest) = ((feed q bytes).1 ++ (feed (feed q bytes).2 rest).1, (feed (feed q bytes).2 rest).2) := by
  induction bytes generalizing q with
  | nil => rfl
  | cons b bytes ih => rw [List.cons_append, feed, feed, ih, List.append_assoc]

/-- A byte completes one character, and before it at most one that is wrong. -/
theorem dropLast_step (q : State) (b : ℕ) : ∀ c ∈ (step q b).1.dropLast, c = 0xFFFD := by
  have hfirst : (first b).1 = [] ∨ ∃ c, (first b).1 = [c] := by
    rw [first]
    split_ifs <;> simp
  cases q with
  | start => rcases hfirst with h | ⟨c, h⟩ <;> simp [step, h]
  | more owed bits low high =>
    rw [step]
    split_ifs
    · simp
    · simp
    · rcases hfirst with h | ⟨c, h⟩ <;> simp [h]

end Utf8

theorem Text.utf16Of_return {c : ℕ} (h : Utf8.IsScalar c) {front rest : JsString}
    (heq : utf16Of c = front ++ 13 :: rest) : rest = [] := by
  rw [utf16Of] at heq
  split_ifs at heq with hsmall
  · cases front with
    | nil => exact (List.cons.inj heq).2.symm
    | cons u front => simp at heq
  · cases front with
    | nil =>
      have hhigh := congrArg UInt16.toNat (List.cons.inj heq).1
      have := h.1
      rw [UInt16.toNat_ofNat', show (13 : UInt16).toNat = 13 from rfl] at hhigh
      omega
    | cons u front =>
      have htail := (List.cons.inj heq).2
      cases front with
      | nil => exact (List.cons.inj htail).2.symm
      | cons v front => simp at htail

/-- A carriage return is the last of these characters. -/
theorem Text.flatMap_return {cs : List ℕ} (hscalar : ∀ c ∈ cs, Utf8.IsScalar c) (hwrong : ∀ c ∈ cs.dropLast, c = 0xFFFD)
    {front rest : JsString} (heq : cs.flatMap utf16Of = front ++ 13 :: rest) : rest = [] := by
  induction cs generalizing front with
  | nil => simp at heq
  | cons c cs ih =>
    cases cs with
    | nil => exact utf16Of_return (hscalar c (by simp)) (by simpa using heq)
    | cons c' cs =>
      rw [List.dropLast_cons_cons, List.forall_mem_cons] at hwrong
      rw [List.forall_mem_cons] at hscalar
      rw [List.flatMap_cons, hwrong.1] at heq
      cases front with
      | nil => exact absurd (List.cons.inj heq).1 (by decide)
      | cons u front => exact ih hscalar.2 hwrong.2 (List.cons.inj heq).2

namespace TextDecoder

theorem decodeStream_append (d : TextDecoder) (bytes rest : List UInt8) :
    (d.decodeStream (bytes ++ rest)).1 = (d.decodeStream bytes).1 ++ ((d.decodeStream bytes).2.decodeStream rest).1 := by
  simp only [decodeStream, Utf8.feed_append, stripBom_append, List.flatMap_append]

theorem dropLast_stripBom {bomSeen : Bool} {cs : List ℕ} (h : ∀ c ∈ cs.dropLast, c = 0xFFFD) :
    ∀ c ∈ (stripBom bomSeen cs).dropLast, c = 0xFFFD := by
  cases cs with
  | nil => exact h
  | cons c cs =>
    rw [stripBom]
    split
    · cases cs with
      | nil => simp
      | cons c' cs =>
        rw [List.dropLast_cons_cons, List.forall_mem_cons] at h
        exact h.2
    · exact h

/-- The bytes of a text can be cut behind each of its carriage returns. -/
theorem exists_cut {d : TextDecoder} (hd : d.state.Sound) {bytes : List UInt8} {front rest : JsString}
    (h : d.outputFrom bytes = front ++ 13 :: rest) :
    ∃ bytes₁ bytes₂, bytes = bytes₁ ++ bytes₂ ∧ (d.decodeStream bytes₁).1 = front ++ [13] := by
  induction bytes generalizing d front with
  | nil =>
    rw [← decodeEnd_eq, decodeEnd] at h
    cases hclose : d.state with
    | start => simp [hclose, Utf8.close, stripBom] at h
    | more owed bits low high =>
      have hwrong : stripBom d.bomSeen (Utf8.close d.state) = [0xFFFD] := by
        rw [hclose]
        cases d.bomSeen <;> rfl
      rw [hwrong] at h
      have hmem : (13 : UInt16) ∈ [0xFFFD].flatMap Text.utf16Of := by
        rw [show [0xFFFD].flatMap Text.utf16Of = front ++ 13 :: rest from h]
        simp
      exact absurd hmem (by decide)
  | cons b bytes ih =>
    rw [← List.singleton_append, outputFrom_append] at h
    have hlater (front' : JsString) (hfront : front = (d.decodeStream [b]).1 ++ front')
        (hrest : (d.decodeStream [b]).2.outputFrom bytes = front' ++ 13 :: rest) :
        ∃ bytes₁ bytes₂, b :: bytes = bytes₁ ++ bytes₂ ∧ (d.decodeStream bytes₁).1 = front ++ [13] := by
      obtain ⟨bytes₁, bytes₂, hbytes, hcut⟩ := ih (decodeStream_sound hd [b]).1 hrest
      refine ⟨b :: bytes₁, bytes₂, by rw [hbytes]; rfl, ?_⟩
      rw [← List.singleton_append, decodeStream_append, hcut, hfront, List.append_assoc]
    rcases List.append_eq_append_iff.mp h with ⟨front', hfront, hrest⟩ | ⟨out, hout, hrest⟩
    · exact hlater front' hfront hrest
    · cases out with
      | nil =>
        rw [List.append_nil] at hout
        exact hlater [] (by rw [hout, List.append_nil]) hrest.symm
      | cons u out =>
        obtain ⟨rfl, -⟩ := List.cons.inj hrest
        have hone : (d.decodeStream [b]).1 = (stripBom d.bomSeen (Utf8.step d.state b.toNat).1).flatMap Text.utf16Of := by
          simp [decodeStream, Utf8.feed]
        have hlast : out = [] := by
          rw [hone] at hout
          refine Text.flatMap_return ?_ (dropLast_stripBom (Utf8.dropLast_step _ _)) hout
          exact fun c hc => (Utf8.step_sound hd b.toNat).2 c (mem_of_mem_stripBom hc)
        exact ⟨[b], bytes, rfl, by rw [hout, hlast]⟩

end TextDecoder

end Phi
