import Phi.Data.JsonGrammar

/-!
# The arguments of a grammar tool as deltas

A grammar tool is called with a text, which the model streams. `appendGrammarToolInputJsonDelta` turns each extension of
that text into the next piece of a JSON object with the text as its one property. The pieces together are that object's
text wherever the input was cut (`appendDeltas_value`).
-/

namespace Phi.Ai

open JsonGrammar

/-! ## The buffer -/

structure GrammarToolInputJsonBuffer where
  input : JsString := []
  started : Bool := false
  closed : Bool := false

inductive GrammarInputError where
  | changedAfterClose (inputProperty : JsString)
  | changedNonMonotonically (inputProperty : JsString)

/-- The text of the error. -/
def GrammarInputError.message : GrammarInputError → JsString
  | .changedAfterClose inputProperty =>
    JsString.ofAscii "grammar tool input for property \"" ++ inputProperty
      ++ JsString.ofAscii "\" changed after it was closed"
  | .changedNonMonotonically inputProperty =>
    JsString.ofAscii "grammar tool input for property \"" ++ inputProperty
      ++ JsString.ofAscii "\" changed non-monotonically"

/-- What the call returns or throws, and the buffer it leaves. `none` is `undefined`. -/
def appendGrammarToolInputJsonDelta (buffer : GrammarToolInputJsonBuffer) (inputProperty nextInput : JsString)
    (close : Bool) : Except GrammarInputError (Option JsString) × GrammarToolInputJsonBuffer :=
  if buffer.closed then
    if close ∧ nextInput = buffer.input then (.ok none, buffer)
    else (.error (.changedAfterClose inputProperty), buffer)
  else if ¬buffer.input <+: nextInput then (.error (.changedNonMonotonically inputProperty), buffer)
  else
    let inputDelta := nextInput.drop buffer.input.length
    if ¬close ∧ inputDelta.length = 0 then (.ok none, buffer)
    else
      let delta := if ¬buffer.started then 123 :: (quote inputProperty ++ [58, 34]) else []
      let buffer := if ¬buffer.started then { buffer with started := true } else buffer
      let delta := delta ++ (quote inputDelta).tail.dropLast
      let buffer := { buffer with input := nextInput }
      if close then (.ok (some (delta ++ [34, 125])), { buffer with closed := true })
      else (.ok (some delta), buffer)

/-- What the calls return, one after the other on one buffer. -/
def appendDeltas (inputProperty : JsString) (buffer : GrammarToolInputJsonBuffer) :
    List (JsString × Bool) → List (Except GrammarInputError (Option JsString)) × GrammarToolInputJsonBuffer
  | [] => ([], buffer)
  | (nextInput, close) :: calls =>
    let called := appendGrammarToolInputJsonDelta buffer inputProperty nextInput close
    let rest := appendDeltas inputProperty called.2 calls
    (called.1 :: rest.1, rest.2)

/-! ## One call -/

theorem quote_inside (s : JsString) : (quote s).tail.dropLast = escapeUnits s := by
  rw [quote, List.tail_cons, List.dropLast_concat]

/-- The opening of the object, before the first piece of the input. -/
def opening (inputProperty : JsString) : JsString := 123 :: (quote inputProperty ++ [58, 34])

/-- A call on an open buffer with an input that extends the one before. -/
theorem append_open {buffer : GrammarToolInputJsonBuffer} (hopen : buffer.closed = false) {nextInput : JsString}
    (hextends : buffer.input <+: nextInput) (inputProperty : JsString) (close : Bool) :
    appendGrammarToolInputJsonDelta buffer inputProperty nextInput close
      = if close = false ∧ nextInput.drop buffer.input.length = [] then (.ok none, buffer)
        else (.ok (some ((if buffer.started then [] else opening inputProperty)
            ++ escapeUnits (nextInput.drop buffer.input.length) ++ if close then [34, 125] else [])),
          ⟨nextInput, true, close⟩) := by
  rcases buffer with ⟨input, started, closed⟩
  subst hopen
  simp only [appendGrammarToolInputJsonDelta, quote_inside, List.length_eq_zero_iff]
  rw [if_neg (by decide), if_neg (not_not.mpr hextends)]
  cases started <;> cases close <;> simp [opening]

/-- A call that throws leaves the buffer as it was. -/
theorem append_of_error {buffer : GrammarToolInputJsonBuffer} {inputProperty nextInput : JsString} {close : Bool}
    {e : GrammarInputError}
    (h : (appendGrammarToolInputJsonDelta buffer inputProperty nextInput close).1 = .error e) :
    (appendGrammarToolInputJsonDelta buffer inputProperty nextInput close).2 = buffer := by
  cases hclosed : buffer.closed with
  | true =>
    rw [appendGrammarToolInputJsonDelta, if_pos hclosed]
    split_ifs <;> rfl
  | false =>
    by_cases hextends : buffer.input <+: nextInput
    · rw [append_open hclosed hextends] at h
      split_ifs at h
    · rw [appendGrammarToolInputJsonDelta, if_neg (by simp [hclosed]), if_pos hextends]

/-! ## The deltas of a run -/

/-- What has been returned spells the input so far, behind the opening, and nothing before there was any. -/
def Spelled (inputProperty : JsString) (buffer : GrammarToolInputJsonBuffer) (text : JsString) : Prop :=
  ∃ body, (∀ {t x rest}, Literal t x rest → Literal (body ++ t) (buffer.input ++ x) rest) ∧
    (if buffer.started then opening inputProperty else []) ++ body = text ∧ (buffer.started = false → body = [])

theorem Spelled.extend {inputProperty : JsString} {buffer : GrammarToolInputJsonBuffer} {text : JsString}
    (h : Spelled inputProperty buffer text) {nextInput : JsString} (hextends : buffer.input <+: nextInput)
    (close : Bool) :
    Spelled inputProperty ⟨nextInput, true, close⟩ (text ++ ((if buffer.started then [] else opening inputProperty)
      ++ escapeUnits (nextInput.drop buffer.input.length))) := by
  rcases h with ⟨body, hbody, htext, hempty⟩
  refine ⟨body ++ escapeUnits (nextInput.drop buffer.input.length), ?_, ?_, by simp⟩
  · intro t x rest ht
    have hread := hbody (ht.escapeUnits (nextInput.drop buffer.input.length))
    rw [← List.append_assoc, ← List.append_assoc, List.prefix_iff_eq_append.mp hextends] at hread
    exact hread
  · rw [← htext]
    cases hstarted : buffer.started with
    | true => simp
    | false => simp [hempty hstarted]

/-- The object is read from its opening, the spelled input and the closing. -/
theorem parse_closed (F : NumberFormat) (inputProperty : JsString) {input body : JsString}
    (hbody : Literal (body ++ [34, 125]) input [125]) :
    parse F (opening inputProperty ++ body ++ [34, 125]) = some (.object [(inputProperty, .string input)]) := by
  have hkey : readString (escapeUnits inputProperty ++ 34 :: 58 :: 34 :: (body ++ [34, 125]))
      = some (inputProperty, 58 :: 34 :: (body ++ [34, 125])) := readString_escapeUnits _ _
  have htext : opening inputProperty ++ body ++ [34, 125]
      = 123 :: 34 :: (escapeUnits inputProperty ++ 34 :: 58 :: 34 :: (body ++ [34, 125])) := by
    simp [opening, quote]
  have hvalue : Derives F .value (34 :: (body ++ [34, 125])) (.string input) [125] :=
    .string (skipSpace_cons (by decide) _) hbody.readString_eq
  have hmember : Derives F (.members [])
      (skipSpace (34 :: (escapeUnits inputProperty ++ 34 :: 58 :: 34 :: (body ++ [34, 125]))))
      (.object [(inputProperty, .string input)]) [] := by
    rw [skipSpace_cons (by decide)]
    exact .lastMember (skipSpace_cons (by decide) _) hkey (skipSpace_cons (by decide) _) hvalue
      (skipSpace_cons (by decide) _)
  rw [htext]
  refine Derives.parse (.object (skipSpace_cons (by decide) _) ?_ hmember) rfl
  rw [skipSpace_cons (by decide), List.head?_cons]
  decide

/-- The deltas that were returned, as one text. -/
def joined (deltas : List (Option JsString)) : JsString := deltas.reduceOption.flatten

theorem joined_append (deltas rest : List (Option JsString)) : joined (deltas ++ rest) = joined deltas ++ joined rest := by
  rw [joined, List.reduceOption_append, List.flatten_append]
  rfl

theorem appendDeltas_append (inputProperty : JsString) (buffer : GrammarToolInputJsonBuffer)
    (calls rest : List (JsString × Bool)) :
    appendDeltas inputProperty buffer (calls ++ rest)
      = ((appendDeltas inputProperty buffer calls).1
          ++ (appendDeltas inputProperty (appendDeltas inputProperty buffer calls).2 rest).1,
        (appendDeltas inputProperty (appendDeltas inputProperty buffer calls).2 rest).2) := by
  induction calls generalizing buffer with
  | nil => rfl
  | cons call calls ih =>
    rw [List.cons_append, appendDeltas, appendDeltas, ih]
    rfl

/-- One call without a close: nothing is returned when nothing is new, and else the next piece. -/
theorem Spelled.append {inputProperty : JsString} {buffer : GrammarToolInputJsonBuffer} {text : JsString}
    (h : Spelled inputProperty buffer text) (hopen : buffer.closed = false) {nextInput : JsString}
    (hextends : buffer.input <+: nextInput) :
    ∃ delta buffer', appendGrammarToolInputJsonDelta buffer inputProperty nextInput false = (.ok delta, buffer') ∧
      Spelled inputProperty buffer' (text ++ joined [delta]) ∧ buffer'.closed = false ∧ buffer'.input = nextInput := by
  rw [append_open hopen hextends]
  by_cases hempty : nextInput.drop buffer.input.length = []
  · rw [if_pos ⟨rfl, hempty⟩]
    refine ⟨none, buffer, rfl, ?_, hopen, ?_⟩
    · rw [show joined [none] = [] from rfl, List.append_nil]
      exact h
    · rcases hextends with ⟨rest, rfl⟩
      rw [List.drop_left] at hempty
      rw [hempty, List.append_nil]
  · rw [if_neg fun h => hempty h.2]
    refine ⟨_, _, rfl, ?_, rfl, rfl⟩
    have hspelled := h.extend hextends false
    rw [show ∀ delta, joined [some delta] = delta from fun delta => List.append_nil delta]
    simpa using hspelled

/-- The call that closes: its piece ends the object. -/
theorem Spelled.close {inputProperty : JsString} {buffer : GrammarToolInputJsonBuffer} {text : JsString}
    (h : Spelled inputProperty buffer text) (hopen : buffer.closed = false) {last : JsString}
    (hextends : buffer.input <+: last) (F : NumberFormat) :
    ∃ delta, appendGrammarToolInputJsonDelta buffer inputProperty last true = (.ok (some delta), ⟨last, true, true⟩) ∧
      parse F (text ++ delta) = some (.object [(inputProperty, .string last)]) := by
  rw [append_open hopen hextends, if_neg fun h => Bool.noConfusion h.1]
  refine ⟨_, rfl, ?_⟩
  rcases h.extend hextends true with ⟨body, hbody, htext, -⟩
  have hlast : Literal (body ++ [34, 125]) last [125] := by
    have hread := hbody (.close [125])
    rwa [List.append_nil] at hread
  rw [if_pos rfl] at htext
  rw [if_pos rfl, ← List.append_assoc, ← htext]
  exact parse_closed F inputProperty hlast

/-- Further closes with the same input return nothing. -/
theorem appendDeltas_closed (inputProperty last : JsString) (n : ℕ) :
    appendDeltas inputProperty ⟨last, true, true⟩ (List.replicate n (last, true))
      = (List.replicate n (.ok none), ⟨last, true, true⟩) := by
  induction n with
  | zero => rfl
  | succ n ih =>
    have hcall : appendGrammarToolInputJsonDelta ⟨last, true, true⟩ inputProperty last true
        = (.ok none, ⟨last, true, true⟩) := by
      rw [appendGrammarToolInputJsonDelta, if_pos rfl, if_pos ⟨rfl, rfl⟩]
    rw [List.replicate_succ, appendDeltas, hcall, ih]
    rfl

/-- The inputs before the close. -/
theorem Spelled.run {inputProperty : JsString} {inputs : List JsString} {buffer : GrammarToolInputJsonBuffer}
    {text last : JsString} (h : Spelled inputProperty buffer text) (hopen : buffer.closed = false)
    (hextends : (buffer.input :: (inputs ++ [last])).IsChain (· <+: ·)) :
    ∃ deltas buffer', appendDeltas inputProperty buffer (inputs.map (·, false)) = (deltas.map .ok, buffer') ∧
      Spelled inputProperty buffer' (text ++ joined deltas) ∧ buffer'.closed = false ∧ buffer'.input <+: last := by
  induction inputs generalizing buffer text with
  | nil =>
    refine ⟨[], buffer, rfl, ?_, hopen, ?_⟩
    · rw [show joined [] = [] from rfl, List.append_nil]
      exact h
    · exact (List.isChain_cons_cons.mp hextends).1
  | cons nextInput inputs ih =>
    rw [List.cons_append, List.isChain_cons_cons] at hextends
    rcases h.append hopen hextends.1 with ⟨delta, buffer', hcall, h', hopen', hinput⟩
    subst hinput
    rcases ih h' hopen' hextends.2 with ⟨deltas, final, hrun, hfinal⟩
    refine ⟨delta :: deltas, final, ?_, ?_, hfinal.2⟩
    · rw [List.map_cons, appendDeltas, hcall, hrun]
      rfl
    · have hjoined := joined_append [delta] deltas
      rw [List.singleton_append] at hjoined
      rw [hjoined, ← List.append_assoc]
      exact hfinal.1

theorem joined_replicate_none (n : ℕ) : joined (List.replicate n none) = [] := by
  induction n with
  | zero => rfl
  | succ n ih => exact ih

theorem joined_of_prefix {front deltas : List (Option JsString)} (h : front <+: deltas) :
    joined front <+: joined deltas := by
  rcases h with ⟨rest, rfl⟩
  rw [joined_append]
  exact List.prefix_append ..

/-- Inputs that extend each other and end with a close (or with several) never throw, what is returned is piece by piece
the text of the object, and a call that throws changes nothing. -/
theorem appendDeltas_value (F : NumberFormat) (inputProperty : JsString) :
    (∀ (inputs : List JsString) (last : JsString) (n : ℕ), (inputs ++ [last]).IsChain (· <+: ·) →
      ∃ deltas : List (Option JsString),
        (appendDeltas inputProperty {} (inputs.map (·, false) ++ List.replicate (n + 1) (last, true))).1
          = deltas.map .ok ∧
        parse F (joined deltas) = some (.object [(inputProperty, .string last)]) ∧
        ∀ front, front <+: deltas → joined front <+: joined deltas) ∧
    ∀ buffer nextInput close e, (appendGrammarToolInputJsonDelta buffer inputProperty nextInput close).1 = .error e →
      (appendGrammarToolInputJsonDelta buffer inputProperty nextInput close).2 = buffer := by
  constructor
  · intro inputs last n hextends
    have hstart : Spelled inputProperty {} [] := ⟨[], fun ht => ht, rfl, fun _ => rfl⟩
    have hchain : (([] : JsString) :: (inputs ++ [last])).IsChain (· <+: ·) := by
      refine List.isChain_cons.mpr ⟨?_, hextends⟩
      exact fun _ _ => List.nil_prefix
    rcases hstart.run rfl hchain with ⟨deltas, buffer, hrun, hspelled, hopen, hlast⟩
    rcases hspelled.close hopen hlast F with ⟨delta, hclose, hvalue⟩
    refine ⟨deltas ++ some delta :: List.replicate n none, ?_, ?_, fun front hfront => joined_of_prefix hfront⟩
    · rw [appendDeltas_append, hrun, List.replicate_succ, appendDeltas, hclose, appendDeltas_closed]
      simp
    · have hjoined := joined_append [some delta] (List.replicate n none)
      rw [joined_replicate_none, List.append_nil, List.singleton_append] at hjoined
      rw [joined_append, hjoined]
      rw [List.nil_append] at hvalue
      rw [show joined [some delta] = delta from List.append_nil delta]
      exact hvalue
  · intro buffer nextInput close e h
    exact append_of_error h

/-- A surrogate pair cut in two is put together again. -/
theorem appendDeltas_value_surrogates :
    ∃ deltas : List (Option JsString),
      (appendDeltas [120] {} [([0xD83D], false), ([0xD83D, 0xDE00], true)]).1 = deltas.map .ok ∧
      parse .fractions (joined deltas) = some (.object [([120], .string [0xD83D, 0xDE00])]) := by
  have hchain : ([[0xD83D]] ++ [[0xD83D, 0xDE00]] : List JsString).IsChain (· <+: ·) :=
    .cons_cons ⟨[0xDE00], rfl⟩ (.singleton _)
  rcases (appendDeltas_value .fractions [120]).1 [[0xD83D]] [0xD83D, 0xDE00] 0 hchain with ⟨deltas, hrun, hvalue, -⟩
  exact ⟨deltas, hrun, hvalue⟩

end Phi.Ai
