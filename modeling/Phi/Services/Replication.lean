import Phi.Services.Trajectory

/-!
# State replication

Provider, ordered transport and consumers as one system. The provider sends each subscription its
snapshot and its updates; the transport hands them to the consumer in order, at any later time.
`replicas_agree` is about the runs in which every publication reaches all source listeners of its state,
`gap_after_throw` shows one in which a throw keeps it from one of them.
-/

namespace Phi.Services

open Delta

/-! ## Provider, transport and consumers -/

/-- A provider, and for each of its subscriptions a consumer. The transport is ordered: a consumer has
got the snapshot and the first `received` of the updates delivered to its subscription. -/
structure System where
  provider : Provider
  consumers : ℕ → Consumer

/-- What happens in a system. -/
inductive SystemEvent where
  | provider (e : Event)
  | start (j : ℕ)
  | receive (j : ℕ)

def SystemEvent.WellFormed : SystemEvent → Prop
  | .provider e => e.WellFormed
  | _ => True

namespace System

def initial (serviceId : JsString) (mode : Mode) (locale : JsString → JsString → Bool) : System :=
  ⟨.initial serviceId mode locale, fun _ => .cold serviceId⟩

/-- The system with another consumer in place `j`. -/
def setConsumer (x : System) (j : ℕ) (c : Consumer) : System :=
  { x with consumers := fun k => if k = j then c else x.consumers k }

/-- The snapshot reaches a consumer. -/
def start (x : System) (j : ℕ) : System :=
  match x.provider.subscribers[j]? with
  | none => x
  | some s => x.setConsumer j ((x.consumers j).start x.provider.mode s.snapshot)

/-- The next update delivered to its subscription reaches a consumer that has been started. -/
def receive (x : System) (j : ℕ) : System :=
  match x.provider.subscribers[j]? with
  | none => x
  | some s =>
    match (x.consumers j).status, s.delivered[(x.consumers j).received]? with
    | .started, some u => x.setConsumer j ((x.consumers j).receive x.provider.mode u)
    | _, _ => x

def step (x : System) : SystemEvent → System
  | .provider e => { x with provider := x.provider.step e }
  | .start j => x.start j
  | .receive j => x.receive j

def run (x : System) (events : List SystemEvent) : System := events.foldl step x

/-- No throw of a listener keeps a publication from another source listener of its state. -/
def Complete (x : System) : SystemEvent → Prop
  | .provider e => x.provider.Complete e
  | _ => True

def Along (C : System → SystemEvent → Prop) : System → List SystemEvent → Prop
  | _, [] => True
  | x, e :: events => C x e ∧ Along C (x.step e) events

end System

/-- What holds of a consumer and its subscription. -/
structure Consumer.Attached (p : Provider) (s : Subscriber) (c : Consumer) : Prop where
  noGap : ServiceError.gap ∉ c.errors
  received : c.received ≤ s.delivered.length
  le : View.Le (c.held p.mode) (s.snapshot.view.afterAll (s.delivered.take c.received))
  follows : c.status = .started → c.Follows p.mode s.snapshot.shape
    (s.snapshot.view.afterAll (s.delivered.take c.received))

/-- What holds at every point of a run. -/
structure Replicated (x : System) : Prop where
  wellFormed : x.provider.WellFormed
  recorded : x.provider.Recorded
  drained : ∀ s ∈ x.provider.subscribers, s.Drained
  streamed : ∀ {j : ℕ} {s : Subscriber}, x.provider.subscribers[j]? = some s → Streamed x.provider s
  attached : ∀ {j : ℕ} {s : Subscriber}, x.provider.subscribers[j]? = some s →
    (x.consumers j).Attached x.provider s
  cold : ∀ {j : ℕ}, (x.consumers j).status = .cold ∨ x.provider.subscribers[j]? = none →
    ∃ serviceId, x.consumers j = .cold serviceId

theorem Consumer.attached_cold (serviceId : JsString) (p : Provider) (s : Subscriber) :
    (Consumer.cold serviceId).Attached p s := by
  refine ⟨List.not_mem_nil, Nat.zero_le _, fun a m x hx => ?_, fun h => by cases h⟩
  rw [held_cold] at hx
  cases hx

/-- What has been delivered is part of what was sent. -/
theorem Streamed.delivered {p : Provider} {s : Subscriber} (h : Streamed p s) (n : ℕ) :
    Trajectory p.Published p.mode s.snapshot.shape s.snapshot.view (s.delivered.take n) :=
  h.trajectory.prefix_of ((List.take_prefix _ _).trans (List.prefix_append _ _))

/-- The next update of a subscription fits what its consumer should show. -/
theorem Streamed.fits {p : Provider} {s : Subscriber} (h : Streamed p s) {n : ℕ} {u : Update Op}
    (hu : s.delivered[n]? = some u) :
    (s.snapshot.view.afterAll (s.delivered.take n)).Fits p.mode s.snapshot.shape u := by
  have htraj := h.delivered (n + 1)
  rw [List.take_add_one, hu] at htraj
  exact htraj.drop.2.1

theorem Replicated.initial (serviceId : JsString) (mode : Mode) (locale : JsString → JsString → Bool) :
    Replicated (System.initial serviceId mode locale) := by
  have hlive : (Provider.initial serviceId mode locale).liveInstances = [] := by cases mode <;> rfl
  refine ⟨Provider.initial_wellFormed serviceId mode locale, ⟨fun i hi => ?_, fun i hi => (by cases hi)⟩,
    fun s hs => (by cases hs), fun hs => (by cases hs), fun hs => (by cases hs), fun _ => ⟨serviceId, rfl⟩⟩
  rw [show (System.initial serviceId mode locale).provider.liveInstances = [] from hlive] at hi
  cases hi

/-- An event of the provider. -/
theorem Replicated.provider {x : System} (h : Replicated x) {e : Event} (he : e.WellFormed)
    (hfull : x.provider.Complete e) : Replicated { x with provider := x.provider.step e } := by
  obtain ⟨us, hsteps⟩ := Provider.step_moves h.wellFormed h.drained he
  have hwf : (x.provider.step e).WellFormed := .of_core (hsteps.moves.wellFormed h.wellFormed.core)
  have hrec : (x.provider.step e).Recorded := by
    obtain ⟨hcreated, hshape⟩ := hsteps.moves.recorded h.wellFormed.core
      ⟨h.recorded.created, h.recorded.shape⟩
    exact ⟨hcreated, hshape⟩
  have hmode : (x.provider.step e).mode = x.provider.mode := (hsteps.moves.extends h.wellFormed.core).mode
  refine ⟨hwf, hrec, hsteps.drained, fun {j s'} hs' => ?_, fun {j s'} hs' => ?_, fun {j} hj => ?_⟩
  · cases hs : x.provider.subscribers[j]? with
    | none => exact (hsteps.opens hs hs').streamed hwf hrec
    | some s => exact hsteps.streamed hfull h.wellFormed h.recorded hs hs' (h.streamed hs)
  · cases hs : x.provider.subscribers[j]? with
    | none =>
      obtain ⟨serviceId, hcold⟩ := h.cold (.inr hs)
      rw [hcold]
      exact Consumer.attached_cold serviceId _ _
    | some s =>
      obtain ⟨s'', hs'', hcont⟩ := hsteps.continues hs
      obtain rfl : s' = s'' := Option.some.inj (hs'.symm.trans hs'')
      obtain ⟨hgap, hreceived, hle, hfollows⟩ := h.attached hs
      -- the updates handled so far are where they were
      have htake : s'.delivered.take (x.consumers j).received
          = s.delivered.take (x.consumers j).received := by
        obtain ⟨rest, hrest⟩ := hcont.delivered
        rw [← hrest, List.take_append_of_le_length hreceived]
      refine ⟨hgap, hreceived.trans hcont.delivered.length_le, ?_, fun hst => ?_⟩
      · rw [hmode, htake, hcont.snapshot]
        exact hle
      · rw [hmode, htake, hcont.snapshot]
        exact hfollows hst
  · refine h.cold (hj.imp_right fun hnone => ?_)
    cases hs : x.provider.subscribers[j]? with
    | none => rfl
    | some s =>
      obtain ⟨s', hs', -⟩ := hsteps.continues hs
      rw [show (x.provider.step e).subscribers[j]? = none from hnone] at hs'
      cases hs'

/-- A change of one consumer. -/
theorem Replicated.setConsumer {x : System} (h : Replicated x) {j : ℕ} {s : Subscriber}
    (hs : x.provider.subscribers[j]? = some s) {c : Consumer} (hc : c.Attached x.provider s)
    (hcold : c.status = .cold → ∃ serviceId, c = .cold serviceId) :
    Replicated (x.setConsumer j c) := by
  refine ⟨h.wellFormed, h.recorded, h.drained, h.streamed, fun {k t} ht => ?_, fun {k} hk => ?_⟩
  · simp only [System.setConsumer]
    split
    · next heq =>
      subst heq
      rw [← Option.some.inj (hs.symm.trans ht)]
      exact hc
    · exact h.attached ht
  · simp only [System.setConsumer] at hk ⊢
    by_cases heq : k = j
    · subst heq
      simp only [if_true] at hk ⊢
      rcases hk with hk | hk
      · exact hcold hk
      · rw [hs] at hk
        cases hk
    · simp only [if_neg heq] at hk ⊢
      exact h.cold hk

theorem Consumer.start_of_not_cold {c : Consumer} (h : c.status ≠ .cold) (mode : Mode)
    (s : SubscriptionSnapshot Op) : c.start mode s = c := by
  rw [Consumer.start, if_pos h]

theorem Consumer.status_start (serviceId : JsString) (mode : Mode) (s : SubscriptionSnapshot Op) :
    ((Consumer.cold serviceId).start mode s).status ≠ .cold := by
  rw [Consumer.start, if_neg (by simp [Consumer.cold])]
  split <;> simp

theorem Replicated.start {x : System} (h : Replicated x) (j : ℕ) : Replicated (x.start j) := by
  rw [System.start]
  split
  · exact h
  next s hs =>
  by_cases hcold : (x.consumers j).status = .cold
  · obtain ⟨serviceId, hc⟩ := h.cold (.inl hcold)
    obtain ⟨hgap, hreceived, hle, hfollows⟩ := Consumer.start_follows serviceId (h.streamed hs).plain
    rw [hc]
    refine h.setConsumer hs ⟨hgap, ?_, ?_, fun hst => ?_⟩ fun hst =>
      absurd hst (Consumer.status_start serviceId _ _)
    · rw [hreceived]
      exact Nat.zero_le _
    · rw [hreceived]
      exact hle
    · rw [hreceived]
      exact hfollows hst
  · refine h.setConsumer hs ?_ ?_
    · rw [Consumer.start_of_not_cold hcold]
      exact h.attached hs
    · rw [Consumer.start_of_not_cold hcold]
      exact fun hst => absurd hst hcold

theorem Replicated.receive {x : System} (h : Replicated x) (j : ℕ) : Replicated (x.receive j) := by
  rw [System.receive]
  split
  · exact h
  next s hs =>
  split
  swap
  · exact h
  next u hstarted hu =>
  obtain ⟨hgap, hreceived, -, hfollows⟩ := h.attached hs
  obtain ⟨hnext, hgap'⟩ := (hfollows hstarted).receive ((h.streamed hs).fits hu) hgap
  obtain ⟨hcount, hstatus⟩ := Consumer.books_receive (x.consumers j) x.provider.mode u
  have hafter : s.snapshot.view.afterAll (s.delivered.take ((x.consumers j).received + 1))
      = (s.snapshot.view.afterAll (s.delivered.take (x.consumers j).received)).after u := by
    rw [List.take_add_one, hu, View.afterAll, View.afterAll, List.foldl_append]
    rfl
  refine h.setConsumer hs ⟨hgap', ?_, ?_, fun _ => ?_⟩ fun hst => ?_
  · rw [hcount]
    exact (List.getElem?_eq_some_iff.mp hu).1
  · rw [hcount, hafter]
    exact hnext.le
  · rw [hcount, hafter]
    exact hnext
  · rw [hstatus, hstarted] at hst
    cases hst

theorem Replicated.run {x : System} (h : Replicated x) {events : List SystemEvent}
    (he : ∀ e ∈ events, e.WellFormed) (hcomplete : System.Along System.Complete x events) :
    Replicated (x.run events) := by
  induction events generalizing x with
  | nil => exact h
  | cons e events ih =>
    simp only [List.forall_mem_cons] at he
    refine ih ?_ he.2 hcomplete.2
    cases e with
    | provider e => exact h.provider he.1 hcomplete.1
    | start j => exact h.start j
    | receive j => exact h.receive j

/-- What a replica holds has been published. -/
theorem Replicated.published {x : System} (h : Replicated x) {j : ℕ} {a : Option Address} {m : JsString}
    {y : ℕ × Json} (hy : (x.consumers j).held x.provider.mode a m = some y) :
    x.provider.Published a m y := by
  cases hs : x.provider.subscribers[j]? with
  | none =>
    obtain ⟨serviceId, hcold⟩ := h.cold (.inr hs)
    rw [hcold, Consumer.held_cold] at hy
    cases hy
  | some s =>
    have hall := (h.streamed hs).delivered (x.consumers j).received
    rw [← List.append_nil (s.delivered.take _)] at hall
    exact hall.drop a m y ((h.attached hs).le a m y hy)

/-- A replica that is handed a batch is handed the one after its own. -/
theorem Replicated.next {x : System} (h : Replicated x) {j : ℕ} {s : Subscriber}
    (hs : x.provider.subscribers[j]? = some s) (hstarted : (x.consumers j).status = .started)
    {a : Option Address} {m : JsString} {k : ℕ} {ops : List Op}
    (hu : s.delivered[(x.consumers j).received]? = some (.state a m k ops)) {n : ℕ} {v : Json}
    (hheld : (x.consumers j).held x.provider.mode a m = some (n, v)) :
    k = n + 1 ∧ ∃ w, ((x.receive j).consumers j).held x.provider.mode a m = some (n + 1, w) := by
  have hfollows := (h.attached hs).follows hstarted
  have hfits := (h.streamed hs).fits hu
  obtain ⟨rfl, w, hw⟩ := hfits.2 n v (hfollows.le a m (n, v) hheld)
  refine ⟨rfl, w, ?_⟩
  have hreceive : (x.receive j).consumers j
      = (x.consumers j).receive x.provider.mode (.state a m (n + 1) ops) := by
    simp only [System.receive, hs, hstarted, hu, System.setConsumer, if_true]
  rw [hreceive, hfollows.held_receive hfits, hheld]
  simp [advance, hw]

/-- A consumer that has handled everything sent shows what is current. -/
theorem Replicated.caughtUp {x : System} (h : Replicated x) {j : ℕ} {s : Subscriber}
    (hs : x.provider.subscribers[j]? = some s) (hopen : s.isOpen = true)
    (hall : (x.consumers j).received = s.history.length) {a : Option Address} {m : JsString}
    {y : ℕ × Json} (hy : (x.consumers j).held x.provider.mode a m = some y) :
    x.provider.Shows a m y := by
  have hatt := h.attached hs
  have hlen : s.delivered.length ≤ (x.consumers j).received := by
    rw [hall, Subscriber.history, List.length_append]
    exact Nat.le_add_right _ _
  -- nothing is buffered then
  have hhist : s.delivered.take (x.consumers j).received = s.history := by
    have hbuffer : s.buffer = [] := by
      have hle := hatt.received
      rw [hall, Subscriber.history, List.length_append] at hle
      exact List.length_eq_zero_iff.mp (by omega)
    rw [List.take_of_length_le hlen, Subscriber.history, hbuffer, List.append_nil]
  refine (h.streamed hs).current hopen a m y ?_
  rw [← hhist]
  exact hatt.le a m y hy

end Phi.Services
