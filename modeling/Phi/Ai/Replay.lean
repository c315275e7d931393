import Phi.Ai.Stream

/-!
# Frames replay the stream

The frames of any part of a stream can be reduced, and the result is the message as far as the consumed events go, with
more text where the accumulator was ahead of them. `Agree` relates the stream, the encoder and the reducer of its
frames: for an open block the reducer has `max covered streamed` characters of the text, where the encoder counts both.
Each event keeps `Agree`, so a whole run does.

What the frames do not carry is how the stream was settled, so the message they give is never the settled one.
-/

namespace Phi.Ai

/-! ## Texts that are covered in part -/

/-- The characters that the encoder counts for a text or thinking block. -/
def EncoderBlockState.chars : EncoderBlockState → Option (ℕ × ℕ)
  | .text covered chars => some (covered, chars)
  | .thinking covered chars => some (covered, chars)
  | .toolCall _ _ _ => none

/-- A delta adds what is not covered: the reduced text stays between what was consumed and what was streamed. -/
theorem append_uncovered {streamed delta t all : JsString} {covered : ℕ} (hs : streamed <+: t) (ht : t <+: all)
    (hall : streamed ++ delta <+: all) (hlen : t.length = max covered streamed.length) :
    let t' := t ++ (Encoder.uncovered covered streamed.length delta).getD []
    streamed ++ delta <+: t' ∧ t' <+: all ∧ t'.length = max covered (streamed ++ delta).length := by
  have hlength : (streamed ++ delta).length = streamed.length + delta.length := List.length_append
  unfold Encoder.uncovered
  simp only
  split_ifs with hle
  · -- The delta is covered.
    rw [Option.getD_none, List.append_nil]
    have hpos : (streamed ++ delta).length ≤ t.length ∨ delta = [] := by
      rcases Nat.eq_zero_or_pos (covered - streamed.length) with h0 | h0
      · exact .inr (List.length_eq_zero_iff.mp (by omega))
      · exact .inl (by omega)
    rcases hpos with hpos | rfl
    · exact ⟨List.prefix_of_prefix_length_le hall ht hpos, ht, by omega⟩
    · rw [List.append_nil]
      exact ⟨hs, ht, hlen⟩
  · -- What is covered of the delta ends the text, and the rest is added.
    have htle : t.length ≤ (streamed ++ delta).length := by omega
    have hpre : t <+: streamed ++ delta := List.prefix_of_prefix_length_le ht hall htle
    have hrest : t ++ delta.drop (covered - streamed.length) = streamed ++ delta := by
      rw [List.prefix_iff_eq_take.mp hpre, List.take_append, List.take_of_length_le (by omega), List.append_assoc,
        show t.length - streamed.length = covered - streamed.length by omega, List.take_append_drop]
    rw [Option.getD_some, hrest]
    exact ⟨List.prefix_rfl, hall, by omega⟩

/-! ## One event -/

section
variable (parseStreamingJson : JsString → Json) (F : NumberFormat)

/-- The encoder takes an event, and the reducer takes the frame if there is one. -/
def Steps (e : Encoder) (r : Reducer) (event : AssistantMessageEvent) (live : AssistantMessage) (e' : Encoder)
    (r' : Reducer) : Prop :=
  ∃ frame, e.encode parseStreamingJson F event live = .ok (frame, e') ∧
    frame.toList.foldlM (Reducer.step parseStreamingJson) r = .ok r'

end

theorem foldlM_nil_ok {σ α ε : Type} {f : σ → α → Except ε σ} {r : σ} : [].foldlM f r = .ok r := rfl

theorem assertContentIndex_of_lt {i : ℕ} (h : i < 2 ^ 32) : assertContentIndex i = .ok () :=
  if_pos (by omega)

section
variable {e : Encoder} {r : Reducer} {i : ℕ} {live : AssistantMessage} {block : Block}

theorem eventBlock_eq (hi : i < 2 ^ 32) (h : live.content[i]? = some block) :
    Encoder.eventBlock live i = .ok block := by
  simp only [Encoder.eventBlock, assertContentIndex_of_lt hi, ok_bind, h]

theorem startBlock_eq (hi : i < 2 ^ 32) (h : e.blocks.get i = none) (state : EncoderBlockState) :
    e.startBlock i state = .ok { e with blocks := e.blocks.set i state } := by
  have hhas : e.blocks.has i = false := by rw [Table.has, h, Option.isSome_none]
  simp only [Encoder.startBlock, assertContentIndex_of_lt hi, ok_bind, hhas, Bool.false_eq_true, if_false]

theorem block_eq (hi : i < 2 ^ 32) {state : EncoderBlockState} (h : e.blocks.get i = some state) {kind : BlockKind}
    (hkind : state.kind = kind) : e.block i kind = .ok state := by
  simp only [Encoder.block, assertContentIndex_of_lt hi, ok_bind, h, hkind, if_true]

theorem endBlock_eq (hi : i < 2 ^ 32) {state : EncoderBlockState} (h : e.blocks.get i = some state) {kind : BlockKind}
    (hkind : state.kind = kind) : e.endBlock i kind = .ok { e with blocks := e.blocks.erase i } := by
  simp only [Encoder.endBlock, block_eq hi h hkind, ok_bind]

theorem appendBlock_eq (hi : i < 2 ^ 32) (h : i = r.message.content.length) :
    r.appendBlock i block = .ok ⟨{ r.message with content := r.message.content ++ [block] },
      r.states.set i { kind := block.kind }⟩ := by
  simp only [Reducer.appendBlock, assertContentIndex_of_lt hi, ok_bind, ne_eq, ← h, not_true, if_false]

/-- A block that is open in the reducer. -/
structure Open (r : Reducer) (i : ℕ) (state : ReducerBlockState) (block : Block) : Prop where
  index : i < 2 ^ 32
  get : r.states.get i = some state
  content : r.message.content[i]? = some block
  kind : state.kind = block.kind
  ended : state.ended = false

theorem Open.activeBlock {state : ReducerBlockState} (h : Open r i state block) {kind : BlockKind}
    (hkind : block.kind = kind) : r.activeBlock i kind = .ok (block, state) := by
  simp [Reducer.activeBlock, assertContentIndex_of_lt h.index, h.get, h.content, h.kind, h.ended, hkind]

theorem Open.put_self {state : ReducerBlockState} (h : Open r i state block) : r.put i block state = r := by
  obtain ⟨hi, hget⟩ := List.getElem?_eq_some_iff.mp h.content
  simp only [Reducer.put, Table.set_of_get h.get, ← hget, List.set_getElem_self]

end

namespace Steps

variable {parseStreamingJson : JsString → Json} {F : NumberFormat} {e : Encoder} {r : Reducer} {i : ℕ}
  {live : AssistantMessage} {block : Block}

/-- A block event of a running stream. -/
theorem of_blockEvent (hs : e.started = true) (ht : e.terminal = false) {event : AssistantMessageEvent}
    (frame : Option AssistantMessageFrame) {e' : Encoder} {r' : Reducer}
    (he : e.encodeBlockEvent parseStreamingJson F event live = .ok (frame, e'))
    (hr : frame.toList.foldlM (Reducer.step parseStreamingJson) r = .ok r') :
    Steps parseStreamingJson F e r event live e' r' := by
  refine ⟨frame, ?_, hr⟩
  cases event <;> simp only [Encoder.encode, hs, ht, Bool.false_eq_true, if_false, if_true]
  all_goals first
    | exact he
    | cases he

theorem start (hs : e.started = true) (ht : e.terminal = false) (hi : i < 2 ^ 32)
    (hlive : live.content[i]? = some block) (hnone : e.blocks.get i = none) (hlen : i = r.message.content.length) :
    ∃ state : EncoderBlockState, state.kind = block.kind ∧
      (∀ t, block.text? = some t → state.chars = some (t.length, 0)) ∧
      Steps parseStreamingJson F e r (startEvent i block.kind) live { e with blocks := e.blocks.set i state }
        ⟨{ r.message with content := r.message.content ++ [block] }, r.states.set i { kind := block.kind }⟩ := by
  cases block with
  | text content =>
    refine ⟨.text content.text.length 0, rfl, by rintro t ⟨⟩; rfl, ?_⟩
    refine of_blockEvent hs ht (some (.textStart i content)) ?_ ?_
    · simp only [startEvent, Block.kind, Encoder.encodeBlockEvent, eventBlock_eq hi hlive, ok_bind,
        startBlock_eq hi hnone]
    · simp only [Option.toList, List.foldlM_cons, Reducer.step, appendBlock_eq hi hlen, ok_bind, foldlM_nil_ok]
  | thinking content =>
    refine ⟨.thinking content.thinking.length 0, rfl, by rintro t ⟨⟩; rfl, ?_⟩
    refine of_blockEvent hs ht (some (.thinkingStart i content)) ?_ ?_
    · simp only [startEvent, Block.kind, Encoder.encodeBlockEvent, eventBlock_eq hi hlive, ok_bind,
        startBlock_eq hi hnone]
    · simp only [Option.toList, List.foldlM_cons, Reducer.step, appendBlock_eq hi hlen, ok_bind, foldlM_nil_ok]
  | toolCall content =>
    let snapshotArguments := stringify F content.arguments
    let caughtUp := snapshotArguments == stringify F (parseStreamingJson [])
    refine ⟨.toolCall caughtUp [] (if caughtUp then [] else snapshotArguments), rfl, by rintro t ⟨⟩, ?_⟩
    refine of_blockEvent hs ht (some (.toolcallStart i content)) ?_ ?_
    · simp only [startEvent, Block.kind, Encoder.encodeBlockEvent, eventBlock_eq hi hlive, ok_bind,
        startBlock_eq hi hnone, caughtUp, snapshotArguments]
    · simp only [Option.toList, List.foldlM_cons, Reducer.step, appendBlock_eq hi hlen, ok_bind, foldlM_nil_ok]

theorem finish (hs : e.started = true) (ht : e.terminal = false) (hlive : live.content[i]? = some block)
    {es : EncoderBlockState} (hes : e.blocks.get i = some es) (hkind : es.kind = block.kind)
    {state : ReducerBlockState} {content : Block} (ho : Open r i state content) (hc : content.kind = block.kind) :
    Steps parseStreamingJson F e r (endEvent i block) live { e with blocks := e.blocks.erase i }
      (r.put i block { state with ended := true }) := by
  have hactive := ho.activeBlock hc
  have hend := endBlock_eq ho.index hes hkind
  have hevent := eventBlock_eq ho.index hlive
  cases block with
  | text after =>
    cases content with
    | text before =>
      refine of_blockEvent hs ht (some (.textEnd i after.text after.textSignature)) ?_ ?_
      · simp only [endEvent, Encoder.encodeBlockEvent, hevent, ok_bind, show e.endBlock i .text = _ from hend]
      · simp only [Option.toList, List.foldlM_cons, Reducer.step, show r.activeBlock i .text = _ from hactive, ok_bind,
          foldlM_nil_ok]
    | thinking before => cases hc
    | toolCall before => cases hc
  | thinking after =>
    cases content with
    | text before => cases hc
    | thinking before =>
      refine of_blockEvent hs ht (some (.thinkingEnd i after.thinking after.thinkingSignature after.redacted)) ?_ ?_
      · simp only [endEvent, Encoder.encodeBlockEvent, hevent, ok_bind, show e.endBlock i .thinking = _ from hend]
      · simp only [Option.toList, List.foldlM_cons, Reducer.step, show r.activeBlock i .thinking = _ from hactive,
          ok_bind, foldlM_nil_ok]
    | toolCall before => cases hc
  | toolCall after =>
    cases content with
    | text before => cases hc
    | thinking before => cases hc
    | toolCall before =>
      refine of_blockEvent hs ht (some (.toolcallEnd i after)) ?_ ?_
      · simp only [endEvent, Encoder.encodeBlockEvent, hevent, ok_bind, show e.endBlock i .toolCall = _ from hend]
      · simp only [Option.toList, List.foldlM_cons, Reducer.step, show r.activeBlock i .toolCall = _ from hactive,
          ok_bind, foldlM_nil_ok]

/-- An event without a frame. -/
theorem of_noFrame (hs : e.started = true) (ht : e.terminal = false) {event : AssistantMessageEvent} {e' : Encoder}
    {state : ReducerBlockState} (ho : Open r i state block)
    (he : e.encodeBlockEvent parseStreamingJson F event live = .ok (none, e')) :
    Steps parseStreamingJson F e r event live e' (r.put i block state) := by
  rw [ho.put_self]
  exact of_blockEvent hs ht none he rfl

theorem toolcallDelta (hs : e.started = true) (ht : e.terminal = false) {es : EncoderBlockState}
    (hes : e.blocks.get i = some es) (hkind : es.kind = .toolCall) {state : ReducerBlockState} {toolCall : ToolCall}
    (ho : Open r i state (.toolCall toolCall)) (delta : JsString) :
    ∃ es' state' toolCall', EncoderBlockState.kind es' = .toolCall ∧
      (state'.kind = .toolCall ∧ state'.ended = false) ∧
      Steps parseStreamingJson F e r (.toolcallDelta i delta) live { e with blocks := e.blocks.set i es' }
        (r.put i (.toolCall toolCall') state') := by
  have hactive : r.activeBlock i .toolCall = .ok (.toolCall toolCall, state) := ho.activeBlock rfl
  have hblock := block_eq ho.index hes hkind
  cases es with
  | text covered chars => cases hkind
  | thinking covered chars => cases hkind
  | toolCall caughtUp catchupJson snapshotArguments =>
    cases caughtUp with
    | true =>
      have hencode : e.encodeBlockEvent parseStreamingJson F (.toolcallDelta i delta) live
          = .ok (if delta.length = 0 then none else some (.toolcallDelta i delta), e) := by
        simp only [Encoder.encodeBlockEvent, Encoder.encodeToolcallDelta, hblock, ok_bind]
      split_ifs at hencode with hdelta
      · refine ⟨_, state, toolCall, hkind, ⟨ho.kind, ho.ended⟩, ?_⟩
        rw [Table.set_of_get hes]
        exact of_noFrame hs ht ho hencode
      · refine ⟨_, { state with json := state.json ++ delta }, toolCall, hkind, ⟨ho.kind, ho.ended⟩, ?_⟩
        rw [Table.set_of_get hes]
        refine of_blockEvent hs ht _ hencode ?_
        simp only [Option.toList, List.foldlM_cons, Reducer.step, hactive, ok_bind, foldlM_nil_ok]
    | false =>
      have hencode : e.encodeBlockEvent parseStreamingJson F (.toolcallDelta i delta) live
          = e.encodeToolcallDelta parseStreamingJson F i delta := rfl
      simp only [Encoder.encodeToolcallDelta, hblock, ok_bind] at hencode
      split_ifs at hencode with hbehind hjson
      · -- The arguments are still those of an earlier event than the accumulator's.
        exact ⟨_, state, toolCall, rfl, ⟨ho.kind, ho.ended⟩, of_noFrame hs ht ho hencode⟩
      · exact ⟨_, state, toolCall, rfl, ⟨ho.kind, ho.ended⟩, of_noFrame hs ht ho hencode⟩
      · refine ⟨_, { state with json := catchupJson ++ delta },
          { toolCall with arguments := parseStreamingJson (catchupJson ++ delta) }, rfl, ⟨ho.kind, ho.ended⟩,
          of_blockEvent hs ht _ hencode ?_⟩
        simp only [Option.toList, List.foldlM_cons, Reducer.step, hactive, ok_bind, foldlM_nil_ok]

/-- A delta of any block: a text grows by what was not covered. -/
theorem delta (hs : e.started = true) (ht : e.terminal = false) {es : EncoderBlockState}
    (hes : e.blocks.get i = some es) {state : ReducerBlockState} (ho : Open r i state block)
    (hkind : es.kind = block.kind) (delta : JsString) :
    ∃ es' state' block', EncoderBlockState.kind es' = block.kind ∧ block'.kind = block.kind ∧
      (state'.kind = block.kind ∧ state'.ended = false) ∧
      (∀ t', block'.text? = some t' → ∃ t covered chars, block.text? = some t ∧ es.chars = some (covered, chars) ∧
        es'.chars = some (covered, chars + delta.length) ∧
        t' = t ++ (Encoder.uncovered covered chars delta).getD []) ∧
      Steps parseStreamingJson F e r (deltaEvent i delta block.kind) live { e with blocks := e.blocks.set i es' }
        (r.put i block' state') := by
  cases block with
  | toolCall toolCall =>
    obtain ⟨es', state', toolCall', hes', hstate', hsteps⟩ := toolcallDelta hs ht hes hkind ho delta
    exact ⟨es', state', .toolCall toolCall', hes', rfl, hstate', by rintro t' ⟨⟩, hsteps⟩
  | text content =>
    have hactive : r.activeBlock i .text = .ok (.text content, state) := ho.activeBlock rfl
    have hblock := block_eq ho.index hes hkind
    cases es with
    | thinking covered chars => cases hkind
    | toolCall caughtUp catchupJson snapshotArguments => cases hkind
    | text covered chars =>
      refine ⟨.text covered (chars + delta.length), state,
        .text { content with text := content.text ++ (Encoder.uncovered covered chars delta).getD [] }, rfl, rfl,
        ⟨ho.kind, ho.ended⟩, ?_, ?_⟩
      · rintro t' ⟨⟩
        exact ⟨content.text, covered, chars, rfl, rfl, rfl, rfl⟩
      · have hencode : e.encodeBlockEvent parseStreamingJson F (.textDelta i delta) live
            = .ok ((Encoder.uncovered covered chars delta).map (.textDelta i),
              { e with blocks := e.blocks.set i (.text covered (chars + delta.length)) }) := by
          simp only [Encoder.encodeBlockEvent, show e.block i .text = _ from hblock, ok_bind]
        cases huncovered : Encoder.uncovered covered chars delta with
        | none =>
          rw [huncovered] at hencode
          rw [Option.getD_none, List.append_nil]
          exact of_noFrame hs ht ho hencode
        | some rest =>
          rw [huncovered] at hencode
          refine of_blockEvent hs ht _ hencode ?_
          simp only [Option.map_some, Option.toList, List.foldlM_cons, Reducer.step, hactive, ok_bind, foldlM_nil_ok,
            Option.getD_some]
  | thinking content =>
    have hactive : r.activeBlock i .thinking = .ok (.thinking content, state) := ho.activeBlock rfl
    have hblock := block_eq ho.index hes hkind
    cases es with
    | text covered chars => cases hkind
    | toolCall caughtUp catchupJson snapshotArguments => cases hkind
    | thinking covered chars =>
      refine ⟨.thinking covered (chars + delta.length), state,
        .thinking { content with thinking := content.thinking ++ (Encoder.uncovered covered chars delta).getD [] },
        rfl, rfl, ⟨ho.kind, ho.ended⟩, ?_, ?_⟩
      · rintro t' ⟨⟩
        exact ⟨content.thinking, covered, chars, rfl, rfl, rfl, rfl⟩
      · have hencode : e.encodeBlockEvent parseStreamingJson F (.thinkingDelta i delta) live
            = .ok ((Encoder.uncovered covered chars delta).map (.thinkingDelta i),
              { e with blocks := e.blocks.set i (.thinking covered (chars + delta.length)) }) := by
          simp only [Encoder.encodeBlockEvent, show e.block i .thinking = _ from hblock, ok_bind]
        cases huncovered : Encoder.uncovered covered chars delta with
        | none =>
          rw [huncovered] at hencode
          rw [Option.getD_none, List.append_nil]
          exact of_noFrame hs ht ho hencode
        | some rest =>
          rw [huncovered] at hencode
          refine of_blockEvent hs ht _ hencode ?_
          simp only [Option.map_some, Option.toList, List.foldlM_cons, Reducer.step, hactive, ok_bind, foldlM_nil_ok,
            Option.getD_some]

end Steps

/-! ## A run of events -/

/-- The text that the first `k` events stream into a block. -/
def Stream.streamed (s : Stream) (k i : ℕ) : JsString := ((s.progress k)[i]?.map BlockProgress.streamed).getD []

theorem Stream.streamed_mono (s : Stream) {k l : ℕ} (hkl : k ≤ l) (hl : l ≤ s.events.length) (i : ℕ) :
    s.streamed k i <+: s.streamed l i := by
  unfold Stream.streamed
  cases hp : (s.progress k)[i]? with
  | none => exact List.nil_prefix
  | some p =>
    obtain ⟨q, hq, hpq⟩ := s.extends hkl hl hp
    rw [hq]
    exact hpq.streamed

/-- One block of the stream, with the states that the encoder and the reducer keep for it. -/
structure BlockAgree (s : Stream) (k i : ℕ) (p : BlockProgress) (es : Option EncoderBlockState)
    (state : ReducerBlockState) (block : Block) : Prop where
  state_kind : state.kind = p.kind
  block_kind : block.kind = p.kind
  state_ended : state.ended = p.ended
  closed : p.ended = true → es = none ∧ s.final.content[i]? = some block
  opened : p.ended = false → ∃ state, es = some state ∧ state.kind = p.kind ∧ ∀ t, block.text? = some t →
    ∃ covered, state.chars = some (covered, p.streamed.length) ∧ p.streamed <+: t ∧ t <+: s.streamed (s.ahead k) i ∧
      t.length = max covered p.streamed.length

/-- The encoder and the reducer behind the start and the first `k` events after it. -/
structure Agree (s : Stream) (k : ℕ) (e : Encoder) (r : Reducer) : Prop where
  started : e.started = true
  running : e.terminal = false
  metadata : r.message.metadata = (cloneStartMessage (s.live 0)).metadata
  length : r.message.content.length = (s.progress k).length
  nodup : r.states.Nodup
  index_lt : ∀ i ∈ r.states.keys, i < (s.progress k).length
  fresh : ∀ i, (s.progress k).length ≤ i → e.blocks.get i = none
  blocks : ∀ {i : ℕ} {p : BlockProgress}, (s.progress k)[i]? = some p →
    ∃ state block, r.states.get i = some state ∧ r.message.content[i]? = some block ∧
      BlockAgree s k i p (e.blocks.get i) state block

section
variable {s : Stream} {k i : ℕ} {p : BlockProgress} {e : Encoder} {r : Reducer}

theorem BlockAgree.succ {es : Option EncoderBlockState} {state : ReducerBlockState} {block : Block}
    (h : BlockAgree s k i p es state block) : BlockAgree s (k + 1) i p es state block where
  state_kind := h.state_kind
  block_kind := h.block_kind
  state_ended := h.state_ended
  closed := h.closed
  opened hp := by
    obtain ⟨es, hes, hkind, htext⟩ := h.opened hp
    refine ⟨es, hes, hkind, fun t ht => ?_⟩
    obtain ⟨covered, hchars, hstreamed, hall, hlen⟩ := htext t ht
    have hahead := s.streamed_mono (s.ahead_mono k.le_succ) (s.ahead_le (k + 1)) i
    exact ⟨covered, hchars, hstreamed, hall.trans hahead, hlen⟩

namespace Agree

theorem «open» (h : Agree s k e r) (hk : k ≤ s.events.length) (hp : (s.progress k)[i]? = some p)
    (hended : p.ended = false) :
    ∃ es state block, e.blocks.get i = some es ∧ es.kind = p.kind ∧ block.kind = p.kind ∧ Open r i state block ∧
      ∀ t, block.text? = some t → ∃ covered, es.chars = some (covered, p.streamed.length) ∧ p.streamed <+: t ∧
        t <+: s.streamed (s.ahead k) i ∧ t.length = max covered p.streamed.length := by
  obtain ⟨state, block, hstate, hblock, hagree⟩ := h.blocks hp
  obtain ⟨es, hes, hkind, htext⟩ := hagree.opened hended
  exact ⟨es, state, block, hes, hkind, hagree.block_kind, ⟨s.index_lt hk hp, hstate, hblock,
    hagree.state_kind.trans hagree.block_kind.symm, hagree.state_ended.trans hended⟩, htext⟩

/-- An event of one block, which it leaves agreeing. -/
theorem put (h : Agree s k e r) (hp : (s.progress k)[i]? = some p) {p' : BlockProgress}
    (hnext : s.progress (k + 1) = (s.progress k).set i p') {blocks : Table ℕ EncoderBlockState}
    (hblocks : ∀ j, j ≠ i → blocks.get j = e.blocks.get j) {block : Block} {state : ReducerBlockState}
    (hagree : BlockAgree s (k + 1) i p' (blocks.get i) state block) :
    Agree s (k + 1) { e with blocks } (r.put i block state) := by
  have hi : i < (s.progress k).length := (List.getElem?_eq_some_iff.mp hp).1
  have hlen : (s.progress (k + 1)).length = (s.progress k).length := by rw [hnext, List.length_set]
  refine ⟨h.started, h.running, h.metadata, ?_, h.nodup.set i state, ?_, ?_, ?_⟩
  · simp only [Reducer.put, List.length_set, h.length, hlen]
  · intro j hj
    rw [hlen]
    rcases Table.mem_keys_set.mp hj with rfl | hj
    · exact hi
    · exact h.index_lt j hj
  · intro j hj
    rw [hlen] at hj
    have hij : j ≠ i := by omega
    exact (hblocks j hij).trans (h.fresh j hj)
  · intro j q hq
    rw [hnext] at hq
    rcases eq_or_ne i j with rfl | hij
    · rw [List.getElem?_set_self hi] at hq
      cases hq
      refine ⟨state, block, by simp [Reducer.put], ?_, hagree⟩
      exact List.getElem?_set_self (h.length ▸ hi)
    · rw [List.getElem?_set_ne hij] at hq
      obtain ⟨state', block', hstate, hblock, hagree'⟩ := h.blocks hq
      refine ⟨state', block', ?_, ?_, ?_⟩
      · simpa only [Reducer.put, Table.get_set, if_neg hij, if_neg hij.symm] using hstate
      · simpa only [Reducer.put, List.getElem?_set_ne hij] using hblock
      · rw [hblocks j hij.symm]
        exact hagree'.succ

variable {parseStreamingJson : JsString → Json} {F : NumberFormat}

/-- The start of a block: what the accumulator holds of it already counts as covered. -/
theorem start (h : Agree s k e r) (hk : k + 1 ≤ s.events.length) {kind : BlockKind}
    (hnext : s.progress (k + 1) = s.progress k ++ [⟨kind, [], false⟩]) :
    ∃ e' r', Steps parseStreamingJson F e r (startEvent (s.progress k).length kind) (s.live (k + 1)) e' r' ∧
      Agree s (k + 1) e' r' := by
  have hp : (s.progress (k + 1))[(s.progress k).length]? = some ⟨kind, [], false⟩ := by
    rw [hnext, List.getElem?_concat_length]
  have hi := s.index_lt hk hp
  obtain ⟨q, block, hq, -, hlive, hkind, htext, -⟩ := s.exists_live (s.le_ahead _ hk) hp
  obtain rfl : block.kind = kind := hkind
  obtain ⟨es, hes, hchars, hsteps⟩ := Steps.start h.started h.running hi hlive (h.fresh _ le_rfl) h.length.symm
  refine ⟨_, _, hsteps, h.started, h.running, h.metadata, ?_, h.nodup.set _ _, ?_, ?_, ?_⟩
  · rw [List.length_append, h.length, hnext, List.length_append, List.length_singleton, List.length_singleton]
  · intro j hj
    rw [hnext, List.length_append, List.length_singleton]
    rcases Table.mem_keys_set.mp hj with rfl | hj
    · omega
    · exact (h.index_lt j hj).trans (Nat.lt_succ_self _)
  · intro j hj
    rw [hnext, List.length_append, List.length_singleton] at hj
    rw [Table.get_set, if_neg (by omega)]
    exact h.fresh j (by omega)
  · intro j p hj
    rcases lt_or_ge j (s.progress k).length with hlt | hge
    · rw [hnext, List.getElem?_append_left hlt] at hj
      obtain ⟨state, block', hstate, hblock, hagree⟩ := h.blocks hj
      have hne : (s.progress k).length ≠ j := by omega
      refine ⟨state, block', ?_, ?_, ?_⟩
      · rw [Table.get_set, if_neg hne]
        exact hstate
      · rw [List.getElem?_append_left (h.length ▸ hlt)]
        exact hblock
      · rw [Table.get_set, if_neg hne]
        exact hagree.succ
    · have hlt := (List.getElem?_eq_some_iff.mp hj).1
      rw [hnext, List.length_append, List.length_singleton] at hlt
      obtain rfl : j = (s.progress k).length := by omega
      obtain rfl := Option.some.inj (hp.symm.trans hj)
      refine ⟨{ kind := block.kind }, block, ?_, ?_, rfl, rfl, rfl, fun h => absurd h Bool.false_ne_true, fun _ => ?_⟩
      · rw [Table.get_set, if_pos rfl]
      · rw [← h.length, List.getElem?_concat_length]
      · refine ⟨es, ?_, hes, fun t ht => ⟨t.length, hchars t ht, List.nil_prefix, ?_, ?_⟩⟩
        · rw [Table.get_set, if_pos rfl]
        · rw [htext t ht, Stream.streamed, hq]
          exact List.prefix_rfl
        · exact (Nat.max_zero _).symm

theorem delta (h : Agree s k e r) (hk : k + 1 ≤ s.events.length) {kind : BlockKind} {streamed delta : JsString}
    (hp : (s.progress k)[i]? = some ⟨kind, streamed, false⟩)
    (hnext : s.progress (k + 1) = (s.progress k).set i ⟨kind, streamed ++ delta, false⟩) :
    ∃ e' r', Steps parseStreamingJson F e r (deltaEvent i delta kind) (s.live (k + 1)) e' r' ∧
      Agree s (k + 1) e' r' := by
  obtain ⟨es, state, block, hes, hkind, hblock, ho, htext⟩ := h.open (by omega) hp rfl
  obtain rfl : block.kind = kind := hblock
  obtain ⟨es', state', block', hes', hkind', ⟨hstate, hended⟩, htext', hsteps⟩ :=
    Steps.delta h.started h.running hes ho hkind delta
  refine ⟨_, _, hsteps, h.put hp hnext ?_ ?_⟩
  · intro j hj
    rw [Table.get_set, if_neg hj.symm]
  · refine ⟨hstate, hkind', hended, fun h => absurd h Bool.false_ne_true, fun _ => ⟨es', ?_, hes', fun t' ht' => ?_⟩⟩
    · rw [Table.get_set, if_pos rfl]
    · obtain ⟨t, covered, chars, ht, hchars, hchars', rfl⟩ := htext' t' ht'
      obtain ⟨covered', hcovered, hstreamed, hall, hlen⟩ := htext t ht
      cases hchars.symm.trans hcovered
      -- The accumulator is not behind the delta that is consumed.
      have hi : i < (s.progress k).length := (List.getElem?_eq_some_iff.mp hp).1
      have hnow : streamed ++ delta = s.streamed (k + 1) i := by
        rw [Stream.streamed, hnext, List.getElem?_set_self hi]
        rfl
      have hdelta : streamed ++ delta <+: s.streamed (s.ahead (k + 1)) i := by
        rw [hnow]
        exact s.streamed_mono (s.le_ahead _ hk) (s.ahead_le _) i
      have hahead := s.streamed_mono (s.ahead_mono k.le_succ) (s.ahead_le (k + 1)) i
      obtain ⟨hpre, hall', hlen'⟩ := append_uncovered hstreamed (hall.trans hahead) hdelta hlen
      exact ⟨covered, by rw [hchars', List.length_append], hpre, hall', hlen'⟩

theorem finish (h : Agree s k e r) (hk : k + 1 ≤ s.events.length) {block : Block} {streamed : JsString}
    (hp : (s.progress k)[i]? = some ⟨block.kind, streamed, false⟩) (hfinal : s.final.content[i]? = some block)
    (hnext : s.progress (k + 1) = (s.progress k).set i ⟨block.kind, streamed, true⟩) :
    ∃ e' r', Steps parseStreamingJson F e r (endEvent i block) (s.live (k + 1)) e' r' ∧ Agree s (k + 1) e' r' := by
  obtain ⟨es, state, content, hes, hkind, hcontent, ho, -⟩ := h.open (by omega) hp rfl
  have hi : i < (s.progress k).length := (List.getElem?_eq_some_iff.mp hp).1
  have hp' : (s.progress (k + 1))[i]? = some ⟨block.kind, streamed, true⟩ := by
    rw [hnext, List.getElem?_set_self hi]
  obtain ⟨-, block', -, -, hlive, -, -, hended⟩ := s.exists_live (s.le_ahead _ hk) hp'
  obtain rfl : block = block' := Option.some.inj (hfinal.symm.trans (hended rfl))
  refine ⟨_, _, Steps.finish h.started h.running hlive hes hkind ho hcontent, h.put hp hnext ?_ ?_⟩
  · intro j hj
    rw [Table.get_erase, if_neg hj.symm]
  · refine ⟨ho.kind.trans hcontent, rfl, rfl, fun _ => ⟨?_, hfinal⟩, fun h => absurd h (by simp)⟩
    rw [Table.get_erase, if_pos rfl]

/-- One event of the body. -/
theorem step (h : Agree s k e r) {event : AssistantMessageEvent} (hevent : s.events[k]? = some event) :
    ∃ e' r', Steps parseStreamingJson F e r event (s.live (k + 1)) e' r' ∧ Agree s (k + 1) e' r' := by
  have hk : k + 1 ≤ s.events.length := (List.getElem?_eq_some_iff.mp hevent).1
  have hadvance := s.advance hevent
  generalize hps : s.progress k = ps at hadvance
  generalize hps' : s.progress (k + 1) = ps' at hadvance
  cases hadvance with
  | start kind =>
    subst hps
    exact h.start hk hps'
  | delta hp delta =>
    subst hps
    exact h.delta hk hp hps'
  | finish hp hfinal htext =>
    subst hps
    exact h.finish hk hp hfinal hps'

end Agree

end

/-! ## The loop over the open tool calls -/

/-- Only open tool calls are changed, and only in their arguments. -/
theorem Reducer.finish_spec (parseStreamingJson : JsString → Json) {states : Table ℕ ReducerBlockState}
    {content : List Block} (h : ∀ i state, (i, state) ∈ states → state.kind = .toolCall → state.ended = false →
      ∃ toolCall, content[i]? = some (.toolCall toolCall)) :
    ∃ content', Reducer.finish parseStreamingJson content states = .ok content' ∧
      content'.length = content.length ∧
      ∀ i, content'[i]? = content[i]? ∨
        (∃ state, (i, state) ∈ states ∧ state.kind = .toolCall ∧ state.ended = false) ∧
          ∃ toolCall, content'[i]? = some (.toolCall toolCall) := by
  induction states generalizing content with
  | nil => exact ⟨content, rfl, rfl, fun i => .inl rfl⟩
  | cons entry states ih =>
    obtain ⟨i, state⟩ := entry
    unfold Reducer.finish
    split_ifs with hskip
    · obtain ⟨content', heq, hlen, hsame⟩ := ih fun j state hj => h j state (List.mem_cons_of_mem _ hj)
      refine ⟨content', heq, hlen, fun j => (hsame j).imp_right ?_⟩
      rintro ⟨⟨state', hmem, hstate⟩, htool⟩
      exact ⟨⟨state', List.mem_cons_of_mem _ hmem, hstate⟩, htool⟩
    · obtain ⟨hkind, hended⟩ : state.kind = .toolCall ∧ state.ended = false := by
        refine ⟨by_contra fun hk => hskip (.inl hk), ?_⟩
        rw [← Bool.not_eq_true]
        exact fun he => hskip (.inr (.inl he))
      obtain ⟨toolCall, htool⟩ := h i state List.mem_cons_self hkind hended
      simp only [htool]
      -- The other open tool calls are tool calls still.
      have hset : ∀ (j : ℕ) (toolCall' : ToolCall), content[j]? = some (.toolCall toolCall') → ∀ toolCall'' : ToolCall,
          ∃ found : ToolCall, (content.set i (.toolCall toolCall''))[j]? = some (.toolCall found) := by
        intro j toolCall' hj toolCall''
        rcases eq_or_ne i j with rfl | hij
        · exact ⟨_, List.getElem?_set_self (List.getElem?_eq_some_iff.mp hj).1⟩
        · exact ⟨toolCall', by rw [List.getElem?_set_ne hij, hj]⟩
      obtain ⟨content', heq, hlen, hsame⟩ := ih fun j state' hj hkind' hended' => by
        obtain ⟨toolCall', hj'⟩ := h j state' (List.mem_cons_of_mem _ hj) hkind' hended'
        exact hset j toolCall' hj' { toolCall with arguments := parseStreamingJson state.json }
      refine ⟨content', heq, by rw [hlen, List.length_set], fun j => ?_⟩
      rcases hsame j with hj | ⟨⟨state', hmem, hstate⟩, hj⟩
      · rcases eq_or_ne i j with rfl | hij
        · obtain ⟨found, hfound⟩ := hset i toolCall htool { toolCall with arguments := parseStreamingJson state.json }
          exact .inr ⟨⟨state, List.mem_cons_self, hkind, hended⟩, found, hj.trans hfound⟩
        · exact .inl (by rw [hj, List.getElem?_set_ne hij])
      · exact .inr ⟨⟨state', List.mem_cons_of_mem _ hmem, hstate⟩, hj⟩

/-- What the frames of the start and the first `k` events after it give. -/
structure Stream.Replayed (s : Stream) (k : ℕ) (message : AssistantMessage) : Prop where
  metadata : message.metadata = (cloneStartMessage (s.live 0)).metadata
  length : message.content.length = (s.progress k).length
  /-- A block that has ended has its final content. -/
  ended : ∀ {i : ℕ} {p : BlockProgress}, (s.progress k)[i]? = some p → p.ended = true →
    message.content[i]? = s.final.content[i]?
  /-- An open block has at least the text that was consumed, and no more than was streamed into it. -/
  «open» : ∀ {i : ℕ} {p : BlockProgress}, (s.progress k)[i]? = some p → p.ended = false →
    ∃ block, message.content[i]? = some block ∧ block.kind = p.kind ∧
      ∀ t, block.text? = some t → p.streamed <+: t ∧ t <+: s.streamed (s.ahead k) i

theorem Agree.replayed {s : Stream} {k : ℕ} {e : Encoder} {r : Reducer} (h : Agree s k e r)
    (parseStreamingJson : JsString → Json) :
    ∃ content, Reducer.finish parseStreamingJson r.message.content r.states = .ok content ∧
      s.Replayed k { r.message with content } := by
  have hstate : ∀ i state, (i, state) ∈ r.states → ∃ p block, (s.progress k)[i]? = some p ∧
      r.message.content[i]? = some block ∧ BlockAgree s k i p (e.blocks.get i) state block := by
    intro i state hmem
    have hget := Table.get_of_mem h.nodup hmem
    have hi := h.index_lt i (Table.mem_keys_of_get hget)
    have hp : (s.progress k)[i]? = some (s.progress k)[i] := List.getElem?_eq_getElem hi
    obtain ⟨state', block, hget', hblock, hagree⟩ := h.blocks hp
    obtain rfl := Option.some.inj (hget.symm.trans hget')
    exact ⟨_, block, hp, hblock, hagree⟩
  obtain ⟨content, heq, hlen, hsame⟩ := Reducer.finish_spec parseStreamingJson fun i state hmem hkind hended => by
    obtain ⟨p, block, hp, hblock, hagree⟩ := hstate i state hmem
    have hk : block.kind = .toolCall := (hagree.block_kind.trans hagree.state_kind.symm).trans hkind
    cases block with
    | text content => cases hk
    | thinking content => cases hk
    | toolCall toolCall => exact ⟨toolCall, hblock⟩
  refine ⟨content, heq, h.metadata, hlen.trans h.length, fun {i p} hp hended => ?_, fun {i p} hp hended => ?_⟩
  · obtain ⟨state, block, -, hblock, hagree⟩ := h.blocks hp
    rcases hsame i with hi | ⟨⟨state', hmem, -, hopen⟩, -⟩
    · rw [(hagree.closed hended).2]
      exact hi.trans hblock
    · obtain ⟨p', block', hp', -, hagree'⟩ := hstate i state' hmem
      obtain rfl := Option.some.inj (hp.symm.trans hp')
      rw [hagree'.state_ended, hended] at hopen
      cases hopen
  · obtain ⟨state, block, -, hblock, hagree⟩ := h.blocks hp
    rcases hsame i with hi | ⟨⟨state', hmem, hkind, -⟩, toolCall, htool⟩
    · obtain ⟨es, -, -, htext⟩ := hagree.opened hended
      refine ⟨block, hi.trans hblock, hagree.block_kind, fun t ht => ?_⟩
      obtain ⟨covered, -, hstreamed, hall, -⟩ := htext t ht
      exact ⟨hstreamed, hall⟩
    · obtain ⟨p', block', hp', -, hagree'⟩ := hstate i state' hmem
      obtain rfl := Option.some.inj (hp.symm.trans hp')
      exact ⟨.toolCall toolCall, htool, hkind.symm.trans hagree'.state_kind, by rintro t ⟨⟩⟩

/-! ## Whole streams -/

/-- The events of a stream, each with the message as it was when the event was consumed. -/
def Stream.consumed (s : Stream) : List (AssistantMessageEvent × AssistantMessage) :=
  (.start :: s.events ++ [s.terminal]).mapIdx fun k event => (event, s.live k)

section
variable (parseStreamingJson : JsString → Json) (F : NumberFormat)

/-- The frames of some events and the encoder behind them, whatever events follow. -/
def Encodes (e : Encoder) (consumed : List (AssistantMessageEvent × AssistantMessage))
    (frames : List AssistantMessageFrame) (e' : Encoder) : Prop :=
  ∀ rest, e.encodeAll parseStreamingJson F (consumed ++ rest)
    = do .ok (frames ++ (← e'.encodeAll parseStreamingJson F rest))

variable {parseStreamingJson F}

theorem Encodes.encodeAll {e e' : Encoder} {consumed : List (AssistantMessageEvent × AssistantMessage)}
    {frames : List AssistantMessageFrame} (h : Encodes parseStreamingJson F e consumed frames e') :
    e.encodeAll parseStreamingJson F consumed = .ok frames := by
  have hnil := h []
  rwa [List.append_nil, Encoder.encodeAll, ok_bind, List.append_nil] at hnil

theorem Encodes.concat {e e' e'' : Encoder} {consumed : List (AssistantMessageEvent × AssistantMessage)}
    {frames : List AssistantMessageFrame} (h : Encodes parseStreamingJson F e consumed frames e')
    {event : AssistantMessageEvent} {live : AssistantMessage} {frame : Option AssistantMessageFrame}
    (he : e'.encode parseStreamingJson F event live = .ok (frame, e'')) :
    Encodes parseStreamingJson F e (consumed ++ [(event, live)]) (frames ++ frame.toList) e'' := by
  intro rest
  rw [List.append_assoc, List.singleton_append, h, Encoder.encodeAll, he, ok_bind]
  dsimp only
  cases e''.encodeAll parseStreamingJson F rest with
  | error e => rfl
  | ok fs => simp only [ok_bind, List.append_assoc]

theorem Stream.take_consumed (s : Stream) {k : ℕ} {event : AssistantMessageEvent}
    (h : (.start :: s.events ++ [s.terminal])[k]? = some event) :
    s.consumed.take (k + 1) = s.consumed.take k ++ [(event, s.live k)] := by
  rw [List.take_add_one, Stream.consumed, List.getElem?_mapIdx, h]
  rfl

variable (parseStreamingJson F)

/-- Behind the start and some events after it, the encoder and the reducer agree with the stream. -/
theorem Stream.agree (s : Stream) {k : ℕ} (hk : k ≤ s.events.length) :
    ∃ frames e r,
      Encodes parseStreamingJson F {} (s.consumed.take (k + 1)) (.start (cloneStartMessage (s.live 0)) :: frames) e ∧
      frames.foldlM (Reducer.step parseStreamingJson) ⟨cloneStartMessage (s.live 0), []⟩ = .ok r ∧ Agree s k e r := by
  induction k with
  | zero =>
    refine ⟨[], { started := true }, _, ?_, rfl, rfl, rfl, rfl, ?_, List.nodup_nil, by simp, by simp, ?_⟩
    · rw [s.take_consumed rfl]
      have hnil : Encodes parseStreamingJson F {} (s.consumed.take 0) [] {} := by
        intro rest
        rw [List.take_zero, List.nil_append]
        cases Encoder.encodeAll parseStreamingJson F {} rest <;> rfl
      have hstart : Encoder.encode parseStreamingJson F {} .start (s.live 0)
          = .ok (some (.start (cloneStartMessage (s.live 0))), { started := true }) := rfl
      exact hnil.concat hstart
    · rw [s.progress_zero]
      rfl
    · intro i p hp
      rw [s.progress_zero] at hp
      cases hp
  | succ k ih =>
    obtain ⟨frames, e, r, hencodes, hfold, hagree⟩ := ih (by omega)
    have hevent : s.events[k]? = some s.events[k] := List.getElem?_eq_getElem hk
    obtain ⟨e', r', ⟨frame, hencode, hstep⟩, hagree'⟩ := hagree.step hevent
    refine ⟨frames ++ frame.toList, e', r', ?_, ?_, hagree'⟩
    · have hget : (AssistantMessageEvent.start :: s.events ++ [s.terminal])[k + 1]? = some s.events[k] := by
        rw [List.cons_append, List.getElem?_cons_succ, List.getElem?_append_left hk, hevent]
      rw [s.take_consumed hget]
      exact hencodes.concat hencode
    · rw [List.foldlM_append, hfold]
      exact hstep

/-- The message that frames with a start give. -/
theorem reduce_of_agree {s : Stream} {k : ℕ} {e : Encoder} {r : Reducer} (h : Agree s k e r)
    {frames : List AssistantMessageFrame} {message : AssistantMessage}
    (hfold : frames.foldlM (Reducer.step parseStreamingJson) ⟨message, []⟩ = .ok r) :
    ∃ result, reduceAssistantMessageFrames parseStreamingJson (.start message :: frames) = .ok (some result) ∧
      s.Replayed k result := by
  obtain ⟨content, hfinish, hreplayed⟩ := h.replayed parseStreamingJson
  refine ⟨_, ?_, hreplayed⟩
  simp only [reduceAssistantMessageFrames, findStart, ok_bind, hfold, hfinish]

/-- The terminal event adds no frame. -/
theorem Stream.encodeAll_consumed (s : Stream) :
    ∃ frames e r, Encoder.encodeAll parseStreamingJson F {} s.consumed
        = .ok (.start (cloneStartMessage (s.live 0)) :: frames) ∧
      frames.foldlM (Reducer.step parseStreamingJson) ⟨cloneStartMessage (s.live 0), []⟩ = .ok r ∧
      Agree s s.events.length e r := by
  obtain ⟨frames, e, r, hencodes, hfold, hagree⟩ := s.agree parseStreamingJson F le_rfl
  have hget : (AssistantMessageEvent.start :: s.events ++ [s.terminal])[s.events.length + 1]? = some s.terminal := by
    rw [List.cons_append, List.getElem?_cons_succ, List.getElem?_concat_length]
  have hall : s.consumed = s.consumed.take (s.events.length + 1) ++ [(s.terminal, s.live (s.events.length + 1))] := by
    rw [← s.take_consumed hget, List.take_of_length_le]
    simp [Stream.consumed]
  have hencode : e.encode parseStreamingJson F s.terminal (s.live (s.events.length + 1))
      = .ok (none, { e with terminal := true }) := by
    rcases s.terminal_eq with h | h <;> rw [h] <;>
      simp only [Encoder.encode, hagree.running, hagree.started, Bool.false_eq_true, if_false, if_true]
  refine ⟨frames, e, r, ?_, hfold, hagree⟩
  rw [hall, (hencodes.concat hencode).encodeAll, Option.toList_none, List.append_nil]

end

/-- The content of the settled message, as far as the events brought it. -/
structure Stream.Settled (s : Stream) (message : AssistantMessage) : Prop where
  length : message.content.length = s.final.content.length
  text : ∀ i : ℕ, message.content[i]?.bind Block.text? = s.final.content[i]?.bind Block.text?
  content : (∀ p ∈ s.progress s.events.length, p.ended = true) → message.content = s.final.content

/-- Blocks of one kind have the same text, if what text there is, is the same. -/
theorem Block.text?_eq {a b : Block} (hkind : a.kind = b.kind)
    (h : ∀ t u, a.text? = some t → b.text? = some u → t = u) : a.text? = b.text? := by
  cases a <;> cases b <;> first
    | exact congrArg some (h _ _ rfl rfl)
    | rfl
    | cases hkind

theorem Stream.Replayed.settled {s : Stream} {message : AssistantMessage} (h : s.Replayed s.events.length message) :
    s.Settled message := by
  have hlen : message.content.length = s.final.content.length := h.length.trans s.final_live.length.symm
  have hnow : s.ahead s.events.length = s.events.length := le_antisymm (s.ahead_le _) (s.le_ahead _ le_rfl)
  refine ⟨hlen, fun i => ?_, fun hall => ?_⟩
  · rcases lt_or_ge i (s.progress s.events.length).length with hi | hi
    · have hp := List.getElem?_eq_getElem hi
      set p := (s.progress s.events.length)[i]
      cases hended : p.ended with
      | true => rw [h.ended hp hended]
      | false =>
        obtain ⟨block, hblock, hkind, htext⟩ := h.open hp hended
        have hi' : i < s.final.content.length := s.final_live.length ▸ hi
        have hfinal := List.getElem?_eq_getElem hi'
        have hholds := s.final_live.holds hp hfinal
        rw [BlockProgress.Holds, if_neg (by simp [hended])] at hholds
        rw [hblock, hfinal]
        refine Block.text?_eq (hkind.trans hholds.1.symm) fun t u ht hu => ?_
        -- Everything that was streamed into the block has been consumed.
        obtain ⟨hstreamed, hle⟩ := htext t ht
        rw [hnow, Stream.streamed, hp] at hle
        rw [hholds.2 u hu]
        exact (hle.eq_of_length (le_antisymm hle.length_le hstreamed.length_le))
    · rw [List.getElem?_eq_none (h.length ▸ hi), List.getElem?_eq_none (s.final_live.length ▸ hi)]
  · apply List.ext_getElem?
    intro i
    rcases lt_or_ge i (s.progress s.events.length).length with hi | hi
    · exact h.ended (List.getElem?_eq_getElem hi) (hall _ (List.getElem_mem hi))
    · rw [List.getElem?_eq_none (h.length ▸ hi), List.getElem?_eq_none (s.final_live.length ▸ hi)]

/-- Encoding a part of a stream and reducing the frames never throws, and gives the message as far as the part goes.
Behind the terminal event, the content is that of the settled message. -/
theorem frames_replay (parseStreamingJson : JsString → Json) (F : NumberFormat) (s : Stream) (j : ℕ) :
    ∃ frames, Encoder.encodeAll parseStreamingJson F {} (s.consumed.take j) = .ok frames ∧
      ∃ result, reduceAssistantMessageFrames parseStreamingJson frames = .ok result ∧
        (j = 0 → result = none) ∧
        (0 < j → ∃ message, result = some message ∧ s.Replayed (min (j - 1) s.events.length) message ∧
          (s.consumed.length ≤ j → s.Settled message)) := by
  have hlen : s.consumed.length = s.events.length + 2 := by simp [Stream.consumed]
  rcases Nat.eq_zero_or_pos j with rfl | hj
  · exact ⟨[], rfl, none, rfl, fun _ => rfl, fun h => absurd h (lt_irrefl 0)⟩
  rcases lt_or_ge j (s.events.length + 2) with hlt | hge
  · obtain ⟨frames, e, r, hencodes, hfold, hagree⟩ := s.agree parseStreamingJson F (show j - 1 ≤ s.events.length by omega)
    obtain ⟨message, hreduce, hreplayed⟩ := reduce_of_agree parseStreamingJson hagree hfold
    rw [show j - 1 + 1 = j by omega] at hencodes
    refine ⟨_, hencodes.encodeAll, _, hreduce, by omega, fun _ => ⟨message, rfl, ?_, by omega⟩⟩
    rwa [min_eq_left (by omega)]
  · obtain ⟨frames, e, r, hencode, hfold, hagree⟩ := s.encodeAll_consumed parseStreamingJson F
    obtain ⟨message, hreduce, hreplayed⟩ := reduce_of_agree parseStreamingJson hagree hfold
    rw [List.take_of_length_le (by omega)]
    refine ⟨_, hencode, _, hreduce, by omega, fun _ => ⟨message, rfl, ?_, fun _ => hreplayed.settled⟩⟩
    rwa [min_eq_right (by omega)]

/-! ## A settled message is not replayed -/

/-- The text "hi". -/
def hiText : JsString := [104, 105]

def hiMessage (stopReason : StopReason) : AssistantMessage where
  content := [.text ⟨hiText, none⟩]
  metadata :=
    { api := [97], provider := [112], model := [109], responseModel := none, responseId := none,
      providerThinkingLevel := none, diagnostics := none, usage := .object [], stopReason, deferred := none,
      errorMessage := none, rawStopReason := none, endTurn := none, timestamp := 0 }

/-- The blocks of a stream of one text in one delta. -/
def hiProgress : ℕ → List BlockProgress
  | 0 => []
  | 1 => [⟨.text, [], false⟩]
  | 2 => [⟨.text, hiText, false⟩]
  | _ => [⟨.text, hiText, true⟩]

theorem hi_live (stopReason : StopReason) : Live (hiMessage .stop).content (hiProgress 3) (hiMessage stopReason) where
  length := rfl
  holds {i p block} hp hblock := by
    cases i with
    | zero =>
      cases hp
      exact hblock
    | succ i => cases hp

theorem hi_advance {k : ℕ} {event : AssistantMessageEvent}
    (h : [AssistantMessageEvent.textStart 0, .textDelta 0 hiText, .textEnd 0 hiText][k]? = some event) :
    Advance (hiMessage .stop).content (hiProgress k) event (hiProgress (k + 1)) := by
  rcases k with _ | _ | _ | k
  · obtain rfl : .textStart 0 = event := Option.some.inj h
    exact .start [] .text
  · obtain rfl : .textDelta 0 hiText = event := Option.some.inj h
    have hp : (hiProgress 1)[0]? = some ⟨.text, [], false⟩ := rfl
    exact .delta hp hiText
  · obtain rfl : .textEnd 0 hiText = event := Option.some.inj h
    have hp : (hiProgress 2)[0]? = some ⟨(Block.text ⟨hiText, none⟩).kind, hiText, false⟩ := rfl
    exact .finish hp rfl fun t ht => (Option.some.inj ht).symm
  · cases h

/-- A whole answer that arrived before its first event was consumed. -/
def hiStream : Stream where
  final := hiMessage .stop
  events := [.textStart 0, .textDelta 0 hiText, .textEnd 0 hiText]
  terminal := .done (hiMessage .stop)
  terminal_eq := .inl rfl
  progress := hiProgress
  progress_zero := rfl
  advance := hi_advance
  live _ := hiMessage .pending
  ahead _ := 3
  ahead_mono := monotone_const
  le_ahead _ h := h
  ahead_le _ := le_rfl
  live_ahead _ := hi_live .pending
  final_live := hi_live .stop
  length_lt := by decide

/-- The message that the frames of a whole stream give is still pending. -/
theorem settled_not_replayed :
    ¬∃ frames, Encoder.encodeAll (fun _ => .object []) .fractions {} hiStream.consumed = .ok frames ∧
      reduceAssistantMessageFrames (fun _ => .object []) frames = .ok (some hiStream.final) := by
  rintro ⟨frames, hencode, hreduce⟩
  obtain ⟨frames', e, r, hencode', hfold, hagree⟩ := hiStream.encodeAll_consumed (fun _ => .object []) .fractions
  obtain ⟨message, hreduce', hreplayed⟩ := reduce_of_agree (fun _ => .object []) hagree hfold
  cases hencode.symm.trans hencode'
  cases hreduce.symm.trans hreduce'
  have hpending : hiStream.final.metadata.stopReason = .pending := congrArg Metadata.stopReason hreplayed.metadata
  exact absurd hpending (by decide)

end Phi.Ai
