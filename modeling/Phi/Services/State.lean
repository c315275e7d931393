import Phi.Delta.Converge
import Phi.Delta.Immutable
import Phi.Services.Messages

/-!
# Replicated state

Model of `MutableReplicatedStateImpl` and `ReplicatedStateReplica` of
`packages/chord/src/services/state.ts`. The source keeps a tracker and the value its published batches
add up to; the replica keeps the same value, built from a snapshot and the batches that follow it.
-/

namespace Phi.Services

open Delta

/-! ## The source -/

/-- A source listener, the closure that `#createInstance` registers for one state member: the identity
and address of its instance, and the name of the member. -/
structure SourceListener where
  id : ℕ
  address : Option Address
  member : JsString
deriving DecidableEq

/-- `MutableReplicatedStateImpl`. Its local listeners run after the source listeners and change
nothing here. `published` is a history variable, the published values by sequence; no function reads
it. -/
structure MutableReplicatedState where
  tracker : Tracker
  publishedValue : Json
  sequence : ℕ
  sourceListeners : List SourceListener
  published : List Json

namespace MutableReplicatedState

/-- The default of `maxOverlapScan`. -/
def maxOverlapScan : ℕ := 65536

/-- `new MutableReplicatedStateImpl(initial)`. -/
def create (initial : Json) : Except DeltaError MutableReplicatedState := do
  let (ops, tracker) ← (track initial maxOverlapScan).flush
  let value ← applyImmutable none ops
  return {
    tracker := tracker
    publishedValue := value.getD initial
    sequence := 0
    sourceListeners := []
    published := [value.getD initial] }

/-- A mutation through the proxy `state`; one that throws changes nothing. -/
def mutate (s : MutableReplicatedState) (path : Path) (m : Mutation) : MutableReplicatedState :=
  match s.tracker.mutate path m with
  | .ok tracker => { s with tracker := tracker }
  | .error _ => s

/-- `publish` up to the calls of its listeners: the batch to hand them, if there is one. -/
def publish (s : MutableReplicatedState) :
    MutableReplicatedState × Except DeltaError (Option (List Op)) :=
  match s.tracker.flush with
  | .error e => (s, .error e)
  | .ok (ops, tracker) =>
    if ops.length = 0 then ({ s with tracker := tracker }, .ok none)
    else
      match applyImmutable (some s.publishedValue) ops with
      | .ok value =>
        ({ s with
            tracker := tracker
            sequence := s.sequence + 1
            publishedValue := value.getD s.publishedValue
            published := s.published ++ [value.getD s.publishedValue] }, .ok (some ops))
      -- the sequence has been advanced, the value has not
      | .error e => ({ s with tracker := tracker, sequence := s.sequence + 1 }, .error e)

/-- The published value is what the tracker's batches have built, and the last one published. -/
structure Sound (s : MutableReplicatedState) : Prop where
  tracks : Tracks s.tracker (some s.publishedValue)
  length : s.published.length = s.sequence + 1
  last : s.published[s.sequence]? = some s.publishedValue

/-- A new state has published its initial value under sequence zero. -/
theorem create_sound {initial : Json} (h : initial.WellFormed) :
    ∃ s, create initial = .ok s ∧ s.Sound ∧ s.sequence = 0 ∧ s.sourceListeners = [] := by
  obtain ⟨ops, t, v, hflush, -, happly, -, htr, -, -⟩ :=
    (tracks_track h maxOverlapScan none).flush
  refine ⟨⟨t, v, 0, [], [v]⟩, ?_, ⟨htr, rfl, rfl⟩, rfl, rfl⟩
  rw [create, hflush, ok_bind]
  simp only [applyImmutable_of_apply happly, ok_bind]
  rfl

theorem Sound.mutate {s : MutableReplicatedState} (h : s.Sound) (path : Path) {m : Mutation}
    (hm : m.WellFormed) : (s.mutate path m).Sound := by
  rw [MutableReplicatedState.mutate]
  split
  · next tracker htracker => exact ⟨h.tracks.mutate hm htracker, h.length, h.last⟩
  · exact h

@[simp] theorem sequence_mutate (s : MutableReplicatedState) (path : Path) (m : Mutation) :
    (s.mutate path m).sequence = s.sequence := by
  rw [MutableReplicatedState.mutate]
  split <;> rfl

@[simp] theorem publishedValue_mutate (s : MutableReplicatedState) (path : Path) (m : Mutation) :
    (s.mutate path m).publishedValue = s.publishedValue := by
  rw [MutableReplicatedState.mutate]
  split <;> rfl

@[simp] theorem published_mutate (s : MutableReplicatedState) (path : Path) (m : Mutation) :
    (s.mutate path m).published = s.published := by
  rw [MutableReplicatedState.mutate]
  split <;> rfl

@[simp] theorem sourceListeners_mutate (s : MutableReplicatedState) (path : Path) (m : Mutation) :
    (s.mutate path m).sourceListeners = s.sourceListeners := by
  rw [MutableReplicatedState.mutate]
  split <;> rfl

@[simp] theorem sourceListeners_publish (s : MutableReplicatedState) :
    s.publish.1.sourceListeners = s.sourceListeners := by
  rw [MutableReplicatedState.publish]
  split
  · rfl
  split
  · rfl
  split <;> rfl

/-- What `publish` does: nothing that a listener could see, or one batch under the next sequence, that
takes the published value to the next one. -/
theorem Sound.publish {s : MutableReplicatedState} (h : s.Sound) :
    s.publish.1.Sound ∧
      ((s.publish.2 = .ok none ∧ s.publish.1.sequence = s.sequence ∧
          s.publish.1.publishedValue = s.publishedValue ∧ s.publish.1.published = s.published) ∨
        ∃ ops, s.publish.2 = .ok (some ops) ∧ s.publish.1.sequence = s.sequence + 1 ∧
          s.published <+: s.publish.1.published ∧ (∀ op ∈ ops, op.Valid) ∧
          applyImmutable (some s.publishedValue) ops = .ok (some s.publish.1.publishedValue)) := by
  obtain ⟨ops, t, v, hflush, hvalid, happly, -, htr, -, -⟩ := h.tracks.flush
  have himm := applyImmutable_of_apply happly
  by_cases hnil : ops.length = 0
  · have hpub : s.publish = ({ s with tracker := t }, .ok none) := by
      rw [MutableReplicatedState.publish, hflush]
      simp only [if_pos hnil]
    obtain rfl := List.length_eq_zero_iff.mp hnil
    obtain rfl : s.publishedValue = v := Option.some.inj (Except.ok.inj happly)
    rw [hpub]
    exact ⟨⟨htr, h.length, h.last⟩, .inl ⟨rfl, rfl, rfl, rfl⟩⟩
  · have hpub : s.publish = ({ s with
        tracker := t, sequence := s.sequence + 1, publishedValue := v,
        published := s.published ++ [v] }, .ok (some ops)) := by
      rw [MutableReplicatedState.publish, hflush]
      simp only [if_neg hnil, himm]
      rfl
    rw [hpub]
    refine ⟨⟨htr, by simp [h.length], ?_⟩, .inr ⟨ops, rfl, rfl, List.prefix_append _ _, hvalid, himm⟩⟩
    simp [← h.length]

end MutableReplicatedState

/-! ## The replica -/

/-- `ReplicatedStateReplica`: nothing, or the value at a sequence. Both are set and cleared together. -/
structure Replica where
  held : Option (ℕ × Json)

namespace Replica

/-- A cold replica. -/
def empty : Replica := ⟨none⟩

def clear (_ : Replica) : Replica := empty

/-- `hydrate(sequence, ops)`. -/
def hydrate (r : Replica) (sequence : ℕ) (ops : List Op) : Replica × Except ServiceError Unit :=
  if isBase ops = false then
    (r, .error (.error (JsString.ofAscii "Replicated state snapshot is not a base operation batch")))
  else
    match applyImmutable none ops with
    | .ok (some value) => (⟨some (sequence, value)⟩, .ok ())
    | .ok none => (⟨none⟩, .ok ())
    | .error e => (r, .error (.delta e))

/-- `update(sequence, ops)`. -/
def update (r : Replica) (sequence : ℕ) (ops : List Op) : Replica × Except ServiceError Unit :=
  match r.held with
  | none =>
    (r, .error (.error (JsString.ofAscii "Replicated state received an update before hydration")))
  | some (current, value) =>
    if sequence ≠ current + 1 then (r.clear, .error .gap)
    else
      match applyImmutable (some value) ops with
      | .ok (some value) => (⟨some (sequence, value)⟩, .ok ())
      | .ok none => (⟨none⟩, .ok ())
      | .error e => (r, .error (.delta e))

theorem hydrate_base (r : Replica) (sequence : ℕ) (value : Json) :
    r.hydrate sequence [.r value] = (⟨some (sequence, value)⟩, .ok ()) := rfl

/-- The batch that took the source to the next value takes the replica there. -/
theorem update_next {r : Replica} {n : ℕ} {v w : Json} {ops : List Op} (h : r.held = some (n, v))
    (happly : applyImmutable (some v) ops = .ok (some w)) :
    r.update (n + 1) ops = (⟨some (n + 1, w)⟩, .ok ()) := by
  simp [update, h, happly]

end Replica

end Phi.Services
