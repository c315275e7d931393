import Phi.Services.State

/-!
# Source listeners that mutate, publish and throw

`MutableReplicatedStateImpl.publish` of `packages/chord/src/services/state.ts` calls its source listeners one after
another, and a listener may do what any other code may do. The machine below suspends the loop of `publish` while the
listener that it called runs, so the loops that are under way form a stack.

The loop hands each listener the batch that it flushed, and the field `#sequence` as it is by then. A publication from
within a listener therefore reaches the listeners behind it first, and leaves the outer loop with a sequence that is not
its batch's; an exception ends the loop, and the listeners behind never get the batch.
-/

namespace Phi.Services.Publishing

open Delta

/-! ## The machine -/

/-- The loop of `publish` over its source listeners, with the place of the next one, or the code of a listener. -/
inductive Frame where
  | round (ops : List Op) (next : ℕ)
  | listener

/-- A call of a source listener: its place, its arguments, and the published value when it was called. -/
structure Call where
  listener : ℕ
  ops : List Op
  sequence : ℕ
  value : Json

/-- `listeners` is the size of the set of source listeners. `batches` and `calls` are history: the batches under the
sequence numbers they were published with, and the calls of the listeners. -/
structure State where
  source : MutableReplicatedState
  listeners : ℕ
  stack : List Frame
  batches : List (ℕ × List Op)
  calls : List Call

inductive Action where
  | mutate (path : Path) (m : Mutation) (hm : m.WellFormed)
  | publish
  /-- The loop on top of the stack goes on, or the listener on top returns. -/
  | proceed
  /-- The listener on top throws, through the `publish` that called it to the caller of that. -/
  | throw

namespace State

/-- A state with so many source listeners, before any code runs. -/
def start (source : MutableReplicatedState) (listeners : ℕ) : State := ⟨source, listeners, [], [], []⟩

/-- Code runs: that of a listener, or, with an empty stack, of the program. -/
def codeRuns (σ : State) : Bool :=
  match σ.stack with
  | [] | .listener :: _ => true
  | .round _ _ :: _ => false

/-- The loop on top of the stack goes on, or the listener on top returns. -/
def proceed (σ : State) : Option State :=
  match σ.stack with
  | [] => none
  | .listener :: stack => some { σ with stack := stack }
  | .round ops next :: stack =>
    if next < σ.listeners then some
      { σ with
        stack := .listener :: .round ops (next + 1) :: stack
        calls := σ.calls ++ [⟨next, ops, σ.source.sequence, σ.source.publishedValue⟩] }
    else some { σ with stack := stack }

/-- `publish`, up to its loop. -/
def publish (σ : State) : State :=
  match σ.source.publish with
  | (source, .ok (some ops)) =>
    { σ with
      source := source
      stack := .round ops 0 :: σ.stack
      batches := σ.batches ++ [(source.sequence, ops)] }
  | (source, _) => { σ with source := source }

def step (σ : State) (action : Action) : Option State :=
  match action with
  | .mutate path m _ => if σ.codeRuns then some { σ with source := σ.source.mutate path m } else none
  | .publish => if σ.codeRuns then some σ.publish else none
  | .proceed => σ.proceed
  | .throw =>
    match σ.stack with
    | .listener :: .round _ _ :: stack => some { σ with stack := stack }
    | _ => none

def run (σ : State) (actions : List Action) : Option State := actions.foldlM step σ

/-- What a listener was called with, in order. -/
def received (σ : State) (listener : ℕ) : List (ℕ × List Op) :=
  (σ.calls.filter fun call => call.listener = listener).map fun call => (call.sequence, call.ops)

end State

/-! ## What a listener is to get -/

/-- A listener gets the batches in the order of their sequence numbers, each with its own and none twice; when no
publication is under way it has got all of them; and what is published when it is called is the value at the sequence
that it is called with. -/
structure Follows (σ : State) (listener : ℕ) : Prop where
  numbered : (σ.batches.map Prod.fst).Pairwise (· < ·)
  received : σ.received listener <+: σ.batches
  complete : σ.stack = [] → σ.received listener = σ.batches
  value : ∀ call ∈ σ.calls, call.listener = listener → σ.source.published[call.sequence]? = some call.value

/-- The batches that are under way to a listener, the innermost first. -/
def awaited (listener : ℕ) : List Frame → List (List Op)
  | [] => []
  | .round ops next :: stack => (if next ≤ listener then [ops] else []) ++ awaited listener stack
  | .listener :: stack => awaited listener stack

/-- A publication has something to publish. -/
def hasBatch (source : MutableReplicatedState) : Bool :=
  match source.tracker.flush with
  | .ok (ops, _) => ops.length ≠ 0
  | .error _ => false

/-- What a step may not do: publish a batch while another is still under way to some listener, or throw from a listener
with others behind it. -/
def Allowed (σ : State) : Action → Prop
  | .publish => hasBatch σ.source = true → ∀ listener < σ.listeners, awaited listener σ.stack = []
  | .throw =>
    match σ.stack with
    | .listener :: .round _ next :: _ => σ.listeners ≤ next
    | _ => True
  | .mutate _ _ _ | .proceed => True

/-- The states that runs of allowed steps come to. -/
inductive Reachable (initial : State) : State → Prop where
  | initial : Reachable initial initial
  | step {σ σ' : State} {action : Action} (h : Reachable initial σ) (hallowed : Allowed σ action)
      (hstep : σ.step action = some σ') : Reachable initial σ'

/-- What holds in every such state: a batch that a listener has not got yet is the latest, and under way to it. -/
structure Invariant (σ : State) : Prop where
  sound : σ.source.Sound
  numbered : (σ.batches.map Prod.fst).Pairwise (· < ·)
  bound : ∀ batch ∈ σ.batches, batch.1 ≤ σ.source.sequence
  split : ∀ listener < σ.listeners,
    σ.received listener ++ (awaited listener σ.stack).map (fun ops => (σ.source.sequence, ops)) = σ.batches
  value : ∀ call ∈ σ.calls, σ.source.published[call.sequence]? = some call.value

theorem Invariant.follows {σ : State} (h : Invariant σ) {listener : ℕ} (hlt : listener < σ.listeners) :
    Follows σ listener where
  numbered := h.numbered
  received := by
    rw [← h.split listener hlt]
    exact List.prefix_append _ _
  complete hstack := by
    have hsplit := h.split listener hlt
    rwa [hstack, awaited, List.map_nil, List.append_nil] at hsplit
  value call hcall _ := h.value call hcall

theorem Invariant.start {source : MutableReplicatedState} (h : source.Sound) (listeners : ℕ) :
    Invariant (State.start source listeners) where
  sound := h
  numbered := List.Pairwise.nil
  bound _ hbatch := absurd hbatch List.not_mem_nil
  split _ _ := rfl
  value _ hcall := absurd hcall List.not_mem_nil

/-! ## What a step keeps -/

section

variable {σ σ' : State}

theorem listeners_publish (σ : State) : σ.publish.listeners = σ.listeners := by
  rw [State.publish]
  split <;> rfl

/-- The set of listeners stays. -/
theorem listeners_step {action : Action} (hstep : σ.step action = some σ') : σ'.listeners = σ.listeners := by
  cases action with
  | mutate path m hm =>
    obtain ⟨-, hmutate⟩ := Option.ite_none_right_eq_some.mp hstep
    rw [← Option.some.inj hmutate]
  | publish =>
    obtain ⟨-, hpublish⟩ := Option.ite_none_right_eq_some.mp hstep
    rw [← Option.some.inj hpublish, listeners_publish]
  | proceed =>
    rw [State.step, State.proceed] at hstep
    split at hstep
    · cases hstep
    · rw [← Option.some.inj hstep]
    · split at hstep <;> rw [← Option.some.inj hstep]
  | throw =>
    rw [State.step] at hstep
    split at hstep
    · rw [← Option.some.inj hstep]
    · cases hstep

/-- Only the batches under way to a listener matter of the stack. -/
theorem Invariant.of_stack (h : Invariant σ) {stack : List Frame}
    (hstack : ∀ listener < σ.listeners, awaited listener stack = awaited listener σ.stack) :
    Invariant { σ with stack := stack } where
  sound := h.sound
  numbered := h.numbered
  bound := h.bound
  split listener hlt := by
    rw [← h.split listener hlt, ← hstack listener hlt]
    rfl
  value := h.value

theorem Invariant.mutate (h : Invariant σ) (path : Path) {m : Mutation} (hm : m.WellFormed) :
    Invariant { σ with source := σ.source.mutate path m } where
  sound := h.sound.mutate path hm
  numbered := h.numbered
  bound := by simpa using h.bound
  split listener hlt := by
    rw [← h.split listener hlt, MutableReplicatedState.sequence_mutate]
    rfl
  value := by simpa using h.value

/-- The loop comes to its next listener, which is called with the latest batch. -/
theorem Invariant.call (h : Invariant σ) {ops : List Op} {next : ℕ} {stack : List Frame}
    (hstack : σ.stack = .round ops next :: stack) :
    Invariant
      { σ with
        stack := .listener :: .round ops (next + 1) :: stack
        calls := σ.calls ++ [⟨next, ops, σ.source.sequence, σ.source.publishedValue⟩] } where
  sound := h.sound
  numbered := h.numbered
  bound := h.bound
  split listener hlt := by
    rw [← h.split listener hlt, hstack]
    simp only [State.received, awaited, List.filter_append, List.map_append]
    by_cases hself : next = listener
    · simp [hself]
    · have hle : next + 1 ≤ listener ↔ next ≤ listener := by omega
      simp [hself, hle]
  value call hcall := by
    rcases List.mem_append.mp hcall with hold | hnew
    · exact h.value call hold
    · rw [List.mem_singleton.mp hnew]
      exact h.sound.last

theorem hasBatch_of_publish {source : MutableReplicatedState} {ops : List Op}
    (h : source.publish.2 = .ok (some ops)) : hasBatch source = true := by
  rw [MutableReplicatedState.publish] at h
  unfold hasBatch
  split at h
  · cases h
  · next ops' tracker hflush =>
    rw [hflush]
    split at h
    · cases h
    · next hlength => simpa using hlength

/-- A publication finds every listener with all earlier batches. -/
theorem Invariant.publish (h : Invariant σ) (hallowed : Allowed σ .publish) : Invariant σ.publish := by
  obtain ⟨hsound, hquiet | ⟨ops, hops, hsequence, hpublished, -, -⟩⟩ := h.sound.publish
  · obtain ⟨hnone, hsequence, -, hpublished⟩ := hquiet
    have heq : σ.publish = { σ with source := σ.source.publish.1 } := by
      rw [State.publish, ← Prod.mk.eta (p := σ.source.publish), hnone]
    rw [heq]
    constructor
    · exact hsound
    · exact h.numbered
    · rw [hsequence]
      exact h.bound
    · intro listener hlt
      rw [← h.split listener hlt, hsequence]
      rfl
    · rw [hpublished]
      exact h.value
  · have heq : σ.publish =
        { σ with
          source := σ.source.publish.1
          stack := .round ops 0 :: σ.stack
          batches := σ.batches ++ [(σ.source.publish.1.sequence, ops)] } := by
      rw [State.publish, ← Prod.mk.eta (p := σ.source.publish), hops]
    have hawaited := hallowed (hasBatch_of_publish hops)
    rw [heq]
    constructor
    · exact hsound
    · rw [List.map_append, List.map_singleton]
      refine List.pairwise_append.mpr ⟨h.numbered, List.pairwise_singleton _ _, fun n hn m hm => ?_⟩
      obtain ⟨batch, hbatch, rfl⟩ := List.mem_map.mp hn
      have hle := h.bound batch hbatch
      rw [List.mem_singleton.mp hm, hsequence]
      omega
    · intro batch hbatch
      rcases List.mem_append.mp hbatch with hold | hnew
      · have hle := h.bound batch hold
        simp only [hsequence]
        omega
      · rw [List.mem_singleton.mp hnew]
    · intro listener hlt
      have hsplit := h.split listener hlt
      rw [hawaited listener hlt, List.map_nil, List.append_nil] at hsplit
      rw [← hsplit]
      simp [awaited, hawaited listener hlt, State.received]
    · intro call hcall
      obtain ⟨later, hlater⟩ := hpublished
      rw [← hlater]
      have hvalue := h.value call hcall
      rwa [List.getElem?_append_left (List.getElem?_eq_some_iff.mp hvalue).1]

theorem Invariant.step (h : Invariant σ) {action : Action} (hallowed : Allowed σ action)
    (hstep : σ.step action = some σ') : Invariant σ' := by
  cases action with
  | mutate path m hm =>
    obtain ⟨-, hmutate⟩ := Option.ite_none_right_eq_some.mp hstep
    rw [← Option.some.inj hmutate]
    exact h.mutate path hm
  | publish =>
    obtain ⟨-, hpublish⟩ := Option.ite_none_right_eq_some.mp hstep
    rw [← Option.some.inj hpublish]
    exact h.publish hallowed
  | proceed =>
    rw [State.step, State.proceed] at hstep
    split at hstep
    · cases hstep
    · next stack hstack =>
      rw [← Option.some.inj hstep]
      exact h.of_stack fun listener _ => by rw [hstack, awaited]
    · next ops next stack hstack =>
      split at hstep
      · rw [← Option.some.inj hstep]
        exact h.call hstack
      · next hdone =>
        rw [← Option.some.inj hstep]
        refine h.of_stack fun listener hlt => ?_
        rw [hstack, awaited, if_neg (by omega), List.nil_append]
  | throw =>
    rw [State.step] at hstep
    split at hstep
    · next ops next stack hstack =>
      rw [Allowed, hstack] at hallowed
      simp only at hallowed
      rw [← Option.some.inj hstep]
      refine h.of_stack fun listener hlt => ?_
      rw [hstack, awaited, awaited, if_neg (by omega), List.nil_append]
    · cases hstep

end

theorem Reachable.listeners {initial σ : State} (h : Reachable initial σ) : σ.listeners = initial.listeners := by
  induction h with
  | initial => rfl
  | step h hallowed hstep ih =>
    rw [← ih]
    exact listeners_step hstep

/-! ## Runs of allowed steps -/

theorem Reachable.invariant {initial σ : State} (h : Reachable initial σ) (hinitial : Invariant initial) :
    Invariant σ := by
  induction h with
  | initial => exact hinitial
  | step _ hallowed hstep ih => exact ih.step hallowed hstep

/-- A counter. -/
def counter : Json := .object [(JsString.ofAscii "n", .number 0)]

/-- The counter is set. -/
def Action.count (n : ℚ) : Action := .mutate [] (.assign (JsString.ofAscii "n") (.number n)) (.number n)

/-- In a run of allowed steps every source listener gets every batch once, in order, with its own sequence number and
with the value at that sequence published. -/
theorem follows_of_reachable (source : MutableReplicatedState) (hsource : source.Sound) (listeners : ℕ) (σ : State)
    (h : Reachable (.start source listeners) σ) (listener : ℕ) (hlt : listener < listeners) : Follows σ listener := by
  refine (h.invariant (.start hsource listeners)).follows ?_
  rw [h.listeners]
  exact hlt

/-- The batch that sets the counter. -/
def counted (n : ℚ) : List Op := [.s [.key (JsString.ofAscii "n")] (.number n)]

theorem counter_wellFormed : counter.WellFormed := by
  have hkeys : [JsString.ofAscii "n"].Nodup := List.nodup_singleton _
  refine .object hkeys ?_
  simp only [List.forall_mem_cons, List.not_mem_nil, false_imp_iff, implies_true, and_true]
  exact .number 0

/-- The state of a new counter. -/
def counterSource : MutableReplicatedState :=
  match MutableReplicatedState.create counter with
  | .ok source => source
  | .error _ => ⟨track counter MutableReplicatedState.maxOverlapScan, counter, 0, [], []⟩

theorem counterSource_sound : counterSource.Sound := by
  obtain ⟨source, hcreate, hsound, -⟩ := MutableReplicatedState.create_sound counter_wellFormed
  rwa [counterSource, hcreate]

/-- A listener gets the batch that sets the counter. -/
theorem follows_of_reachable_counter :
    ∃ σ, (State.start counterSource 1).run [.count 1, .publish, .proceed, .proceed, .proceed] = some σ ∧
      σ.received 0 = [(1, counted 1)] ∧ Follows σ 0 := by
  have hinitial := @Reachable.initial (.start counterSource 1)
  have hmutated := @Reachable.step _ _ _ (.count 1) hinitial trivial rfl
  have hpublished := @Reachable.step _ _ _ .publish hmutated (fun _ _ _ => rfl) rfl
  have hcalled := @Reachable.step _ _ _ .proceed hpublished trivial rfl
  have hreturned := @Reachable.step _ _ _ .proceed hcalled trivial rfl
  have hdone := @Reachable.step _ _ _ .proceed hreturned trivial rfl
  exact ⟨_, rfl, rfl, follows_of_reachable _ counterSource_sound 1 _ hdone 0 (by omega)⟩

/-- A listener that starts with another number than the batches do. -/
theorem not_follows_of_ne {σ : State} {listener n m : ℕ} {ops ops' : List Op} {batches batches' : List (ℕ × List Op)}
    (hbatches : σ.batches = (n, ops) :: batches) (hreceived : σ.received listener = (m, ops') :: batches')
    (hne : m ≠ n) : ¬Follows σ listener := by
  intro h
  have hprefix := h.received
  rw [hbatches, hreceived, List.cons_prefix_cons] at hprefix
  exact hne (Prod.mk.inj hprefix.1).1

/-- A listener that got nothing of what was published. -/
theorem not_follows_of_nil {σ : State} {listener : ℕ} (hstack : σ.stack = [])
    (hreceived : σ.received listener = []) (hbatches : σ.batches ≠ []) : ¬Follows σ listener := by
  intro h
  exact hbatches ((h.complete hstack).symm.trans hreceived)

/-- The first of two listeners sets the counter and publishes when it is called. -/
def nested : List Action :=
  [.count 1, .publish, .proceed, .count 2, .publish, .proceed, .proceed, .proceed, .proceed, .proceed, .proceed,
    .proceed, .proceed, .proceed]

/-- The first of two listeners throws. -/
def thrown : List Action := [.count 1, .publish, .proceed, .throw]

/-- A listener behind one that publishes gets the later batch first, and the earlier one under the number of the later;
a listener behind one that throws does not get the batch. -/
theorem listener_behind :
    (∃ σ, (State.start counterSource 2).run nested = some σ ∧ σ.batches = [(1, counted 1), (2, counted 2)] ∧
      σ.received 1 = [(2, counted 2), (2, counted 1)] ∧ ¬Follows σ 1) ∧
    ∃ σ, (State.start counterSource 2).run thrown = some σ ∧ σ.batches = [(1, counted 1)] ∧ σ.stack = [] ∧
      σ.received 1 = [] ∧ ¬Follows σ 1 := by
  constructor
  · exact ⟨_, rfl, rfl, rfl, not_follows_of_ne (n := 1) (m := 2) rfl rfl (by omega)⟩
  · exact ⟨_, rfl, rfl, rfl, rfl, not_follows_of_nil rfl rfl (List.cons_ne_nil _ _)⟩

end Phi.Services.Publishing
