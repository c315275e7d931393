import Phi.Ai.Frames

/-!
# Assistant event streams

What a provider sends: a start, then for each block a start, deltas and an end, in any interleaving, then the settled
message. `BlockProgress` says how far the events have taken a block, and `Advance` is one event of the body.

The message that the events refer to is one object that the provider keeps filling. A `Stream` therefore holds the
message that is seen with each event apart from the events: it is what the accumulator held after some later event.
-/

namespace Phi.Ai

/-- How far the events have taken a block. -/
structure BlockProgress where
  kind : BlockKind
  streamed : JsString := []
  ended : Bool := false

/-- The text of a text or thinking block. -/
def Block.text? : Block → Option JsString
  | .text content => some content.text
  | .thinking content => some content.thinking
  | .toolCall _ => none

def startEvent (i : ℕ) : BlockKind → AssistantMessageEvent
  | .text => .textStart i
  | .thinking => .thinkingStart i
  | .toolCall => .toolcallStart i

def deltaEvent (i : ℕ) (delta : JsString) : BlockKind → AssistantMessageEvent
  | .text => .textDelta i delta
  | .thinking => .thinkingDelta i delta
  | .toolCall => .toolcallDelta i delta

def endEvent (i : ℕ) : Block → AssistantMessageEvent
  | .text content => .textEnd i content.text
  | .thinking content => .thinkingEnd i content.thinking
  | .toolCall toolCall => .toolcallEnd i toolCall

/-- One event between the start and the terminal event of a stream that ends with the content `final`. -/
inductive Advance (final : List Block) :
    List BlockProgress → AssistantMessageEvent → List BlockProgress → Prop
  | start (ps : List BlockProgress) (kind : BlockKind) :
    Advance final ps (startEvent ps.length kind) (ps ++ [⟨kind, [], false⟩])
  | delta {ps : List BlockProgress} {i : ℕ} {kind : BlockKind} {streamed : JsString}
      (hp : ps[i]? = some ⟨kind, streamed, false⟩) (delta : JsString) :
    Advance final ps (deltaEvent i delta kind) (ps.set i ⟨kind, streamed ++ delta, false⟩)
  | finish {ps : List BlockProgress} {i : ℕ} {block : Block} {streamed : JsString}
      (hp : ps[i]? = some ⟨block.kind, streamed, false⟩) (hfinal : final[i]? = some block)
      (htext : ∀ t, block.text? = some t → t = streamed) :
    Advance final ps (endEvent i block) (ps.set i ⟨block.kind, streamed, true⟩)

/-- What the accumulator holds of a block. -/
def BlockProgress.Holds (final : Option Block) (p : BlockProgress) (block : Block) : Prop :=
  if p.ended then final = some block
  else block.kind = p.kind ∧ ∀ t, block.text? = some t → t = p.streamed

/-- A message that holds exactly what the events up to `ps` have brought. -/
structure Live (final : List Block) (ps : List BlockProgress) (message : AssistantMessage) : Prop where
  length : message.content.length = ps.length
  holds : ∀ {i : ℕ} {p : BlockProgress} {block : Block}, ps[i]? = some p → message.content[i]? = some block → p.Holds final[i]? block

/-- A well-formed stream, and the accumulator as it was when each event was consumed. -/
structure Stream where
  final : AssistantMessage
  /-- The events between the start and the terminal event. -/
  events : List AssistantMessageEvent
  terminal : AssistantMessageEvent
  terminal_eq : terminal = .done final ∨ terminal = .error final
  /-- The blocks after some of `events`. -/
  progress : ℕ → List BlockProgress
  progress_zero : progress 0 = []
  advance : ∀ {k : ℕ} {event : AssistantMessageEvent}, events[k]? = some event → Advance final.content (progress k) event (progress (k + 1))
  /-- The message when the start, the event behind `k` others, or the terminal event is consumed. -/
  live : ℕ → AssistantMessage
  /-- How many of `events` the accumulator was filled from at that time. -/
  ahead : ℕ → ℕ
  ahead_mono : Monotone ahead
  le_ahead : ∀ k ≤ events.length, k ≤ ahead k
  ahead_le : ∀ k, ahead k ≤ events.length
  live_ahead : ∀ k, Live final.content (progress (ahead k)) (live k)
  final_live : Live final.content (progress events.length) final
  /-- An array has fewer than 2^32 elements. -/
  length_lt : final.content.length < 2 ^ 32

/-! ## How blocks grow -/

/-- The later state of one block. -/
structure BlockProgress.Extends (p q : BlockProgress) : Prop where
  kind : q.kind = p.kind
  streamed : p.streamed <+: q.streamed
  ended : p.ended = true → q = p

theorem BlockProgress.Extends.refl (p : BlockProgress) : p.Extends p := ⟨rfl, List.prefix_rfl, fun _ => rfl⟩

theorem BlockProgress.Extends.trans {p q r : BlockProgress} (h : p.Extends q) (h' : q.Extends r) : p.Extends r where
  kind := h'.kind.trans h.kind
  streamed := h.streamed.trans h'.streamed
  ended hp := by
    obtain rfl := h.ended hp
    exact h'.ended hp

/-- Every ended block has its final content. -/
def Consistent (final : List Block) (ps : List BlockProgress) : Prop :=
  ∀ (i : ℕ) (p : BlockProgress), ps[i]? = some p → p.ended = true →
    ∃ block : Block, final[i]? = some block ∧ block.kind = p.kind ∧ ∀ t, block.text? = some t → t = p.streamed

namespace Advance

variable {final : List Block} {ps ps' : List BlockProgress} {event : AssistantMessageEvent}

/-- A block that is replaced by a later state of itself. -/
theorem extends_set {i : ℕ} {p q : BlockProgress} (hp : ps[i]? = some p) (hpq : p.Extends q) {j : ℕ}
    {r : BlockProgress} (hr : ps[j]? = some r) : ∃ r', (ps.set i q)[j]? = some r' ∧ r.Extends r' := by
  have hi : i < ps.length := (List.getElem?_eq_some_iff.mp hp).1
  rcases eq_or_ne i j with rfl | hij
  · obtain rfl : p = r := Option.some.inj (hp.symm.trans hr)
    exact ⟨q, by rw [List.getElem?_set_self hi], hpq⟩
  · exact ⟨r, by rw [List.getElem?_set_ne hij, hr], .refl r⟩

theorem «extends» (h : Advance final ps event ps') {i : ℕ} {p : BlockProgress} (hp : ps[i]? = some p) :
    ∃ q, ps'[i]? = some q ∧ p.Extends q := by
  cases h with
  | start kind =>
    refine ⟨p, ?_, .refl p⟩
    rw [List.getElem?_append_left (List.getElem?_eq_some_iff.mp hp).1, hp]
  | @delta _ kind streamed hi delta =>
    have hopen : BlockProgress.Extends ⟨kind, streamed, false⟩ ⟨kind, streamed ++ delta, false⟩ :=
      ⟨rfl, List.prefix_append _ _, fun h => absurd h Bool.false_ne_true⟩
    exact extends_set hi hopen hp
  | @finish _ block streamed hi hfinal htext =>
    have hopen : BlockProgress.Extends ⟨block.kind, streamed, false⟩ ⟨block.kind, streamed, true⟩ :=
      ⟨rfl, List.prefix_rfl, fun h => absurd h Bool.false_ne_true⟩
    exact extends_set hi hopen hp

theorem consistent (h : Advance final ps event ps') (hc : Consistent final ps) : Consistent final ps' := by
  intro j q hq hended
  cases h with
  | start kind =>
    rcases lt_or_ge j ps.length with hj | hj
    · exact hc j q (by rwa [List.getElem?_append_left hj] at hq) hended
    · rw [List.getElem?_append_right hj, List.getElem?_singleton] at hq
      split_ifs at hq
      · cases hq
        exact absurd hended Bool.false_ne_true
  | @delta i _ _ hi delta =>
    rcases eq_or_ne i j with rfl | hij
    · rw [List.getElem?_set_self (List.getElem?_eq_some_iff.mp hi).1] at hq
      cases hq
      exact absurd hended Bool.false_ne_true
    · exact hc j q (by rwa [List.getElem?_set_ne hij] at hq) hended
  | @finish i block _ hi hfinal htext =>
    rcases eq_or_ne i j with rfl | hij
    · rw [List.getElem?_set_self (List.getElem?_eq_some_iff.mp hi).1] at hq
      cases hq
      exact ⟨block, hfinal, rfl, htext⟩
    · exact hc j q (by rwa [List.getElem?_set_ne hij] at hq) hended

end Advance

namespace Stream

variable (s : Stream)

theorem consistent {k : ℕ} (hk : k ≤ s.events.length) : Consistent s.final.content (s.progress k) := by
  induction k with
  | zero =>
    intro i p hp
    rw [s.progress_zero] at hp
    cases hp
  | succ k ih =>
    obtain ⟨event, hevent⟩ : ∃ event, s.events[k]? = some event := ⟨_, List.getElem?_eq_getElem hk⟩
    exact (s.advance hevent).consistent (ih (by omega))

/-- Between two points of the stream a block only grows. -/
theorem «extends» {k l : ℕ} (hkl : k ≤ l) (hl : l ≤ s.events.length) {i : ℕ} {p : BlockProgress}
    (hp : (s.progress k)[i]? = some p) : ∃ q, (s.progress l)[i]? = some q ∧ p.Extends q := by
  induction l, hkl using Nat.le_induction with
  | base => exact ⟨p, hp, .refl p⟩
  | succ l _ ih =>
    obtain ⟨q, hq, hpq⟩ := ih (by omega)
    obtain ⟨event, hevent⟩ : ∃ event, s.events[l]? = some event := ⟨_, List.getElem?_eq_getElem hl⟩
    obtain ⟨r, hr, hqr⟩ := (s.advance hevent).extends hq
    exact ⟨r, hr, hpq.trans hqr⟩

/-- Every index in use is that of an array element. -/
theorem index_lt {k : ℕ} (hk : k ≤ s.events.length) {i : ℕ} {p : BlockProgress} (hp : (s.progress k)[i]? = some p) :
    i < 2 ^ 32 := by
  obtain ⟨q, hq, -⟩ := s.extends hk le_rfl hp
  have hi := (List.getElem?_eq_some_iff.mp hq).1
  rw [← s.final_live.length] at hi
  exact hi.trans s.length_lt

/-- The accumulator has every block that was started, with the text that was streamed into it so far. -/
theorem exists_live {k l : ℕ} (hkl : k ≤ s.ahead l) {i : ℕ} {p : BlockProgress} (hp : (s.progress k)[i]? = some p) :
    ∃ (q : BlockProgress) (block : Block), (s.progress (s.ahead l))[i]? = some q ∧ p.Extends q ∧ (s.live l).content[i]? = some block ∧
      block.kind = p.kind ∧ (∀ t, block.text? = some t → t = q.streamed) ∧
      (p.ended = true → s.final.content[i]? = some block) := by
  obtain ⟨q, hq, hpq⟩ := s.extends hkl (s.ahead_le l) hp
  have hi : i < (s.live l).content.length := by
    rw [(s.live_ahead l).length]
    exact (List.getElem?_eq_some_iff.mp hq).1
  have hblock : (s.live l).content[i]? = some (s.live l).content[i] := List.getElem?_eq_getElem hi
  have hholds := (s.live_ahead l).holds hq hblock
  unfold BlockProgress.Holds at hholds
  refine ⟨q, _, hq, hpq, hblock, ?_⟩
  split_ifs at hholds with hended
  · obtain ⟨block, hfinal, hkind, htext⟩ := s.consistent (s.ahead_le l) i q hq hended
    obtain rfl : (s.live l).content[i] = block := Option.some.inj (hholds.symm.trans hfinal)
    exact ⟨hkind.trans hpq.kind, htext, fun _ => hfinal⟩
  · refine ⟨hholds.1.trans hpq.kind, hholds.2, fun hp => ?_⟩
    rw [hpq.ended hp] at hended
    exact absurd hp hended

end Stream

end Phi.Ai
