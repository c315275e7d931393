import Phi.Services.Provider

/-!
# Listeners that call back into the provider

`Provider` lets every listener return before the next is called. Here a listener may do what any other code may do:
cause an update to be emitted, subscribe, activate or close a subscription. `#emit` and `activate()` of
`packages/chord/src/services/provider.ts` are then loops that are suspended while the listener they have called runs,
and the machine below has a stack of them.

Updates are numbered in the order in which `#emit` is called. A subscriber gets them out of that order in two ways:
`activate()` sets `active` before it has delivered what was buffered, so what is emitted meanwhile overtakes the rest
of the buffer; and a nested emission comes to the subscribers behind the listener before the outer one does.
-/

namespace Phi.Services.Reentrant

/-! ## The machine -/

/-- `ProviderSubscriber`, without the listener. `since`, `sent`, `delivered` and `cancelled` are history: the number of
updates emitted when it subscribed, the updates that came to it while it was open, the calls of its listener, and
whether `close()` has been called. -/
structure Subscriber where
  buffer : List ℕ
  active : Bool
  terminated : Bool
  closed : Bool
  registered : Bool
  since : ℕ
  sent : List ℕ
  delivered : List ℕ
  cancelled : Bool
deriving DecidableEq

/-- A loop that is suspended, or the code of a listener. -/
inductive Frame where
  /-- The loop of `#emit`, with the place of the next subscriber. -/
  | emit (update next : ℕ)
  /-- The loop of `activate()`, with the entries that it still has to deliver. -/
  | drain (subscriber : ℕ) (rest : List ℕ)
  | listener
deriving DecidableEq

/-- `subscribers` has every subscriber there ever was; those of the set are `registered`. -/
structure State where
  emitted : ℕ
  subscribers : List Subscriber
  stack : List Frame
deriving DecidableEq

def State.initial : State := ⟨0, [], []⟩

inductive Action where
  | emit
  | subscribe
  | activate (subscriber : ℕ)
  | close (subscriber : ℕ)
  | dispose
  /-- The loop on top of the stack goes on, or the listener on top returns or throws. -/
  | proceed

namespace Subscriber

/-- A new subscription, when so many updates have been emitted. -/
def new (emitted : ℕ) : Subscriber := ⟨[], false, false, false, true, emitted, [], [], false⟩

/-- `#emit` reaches the subscriber. -/
def isOpen (s : Subscriber) : Bool := s.registered && !s.closed

/-- The turn of `#emit` for one subscriber. -/
def push (update : ℕ) (s : Subscriber) : Subscriber :=
  if s.isOpen = false then s
  else if s.active then { s with sent := s.sent ++ [update], delivered := s.delivered ++ [update] }
  else { s with sent := s.sent ++ [update], buffer := s.buffer ++ [update] }

/-- The turn of `activate()` for one entry. -/
def deliver (update : ℕ) (s : Subscriber) : Subscriber := { s with delivered := s.delivered ++ [update] }

/-- What `activate()` does before its loop. -/
def start (s : Subscriber) : Subscriber := { s with active := true, buffer := [] }

/-- What `activate()` does after its loop. -/
def finish (s : Subscriber) : Subscriber := { s with closed := s.closed || s.terminated }

def close (s : Subscriber) : Subscriber :=
  if s.closed then s else { s with closed := true, buffer := [], registered := false, cancelled := true }

/-- What `dispose` does to a subscriber. -/
def terminate (s : Subscriber) : Subscriber :=
  if s.registered = false then s
  else if s.active then { s with closed := true, buffer := [], registered := false }
  else { s with terminated := true, registered := false }

end Subscriber

namespace State

/-- Code runs: that of a listener, or, with an empty stack, of the program. -/
def codeRuns (σ : State) : Bool :=
  match σ.stack with
  | [] | .listener :: _ => true
  | .emit _ _ :: _ | .drain _ _ :: _ => false

/-- The loop on top of the stack goes on. -/
def proceed (σ : State) : Option State :=
  match σ.stack with
  | [] => none
  | .listener :: stack => some { σ with stack := stack }
  | .emit update next :: stack =>
    match σ.subscribers[next]? with
    | none => some { σ with stack := stack }
    | some s => some
      { σ with
        subscribers := σ.subscribers.set next (s.push update)
        stack := (if s.isOpen && s.active then [.listener] else []) ++ .emit update (next + 1) :: stack }
  | .drain subscriber rest :: stack =>
    match σ.subscribers[subscriber]?, rest with
    | none, _ => none
    | some s, [] => some { σ with subscribers := σ.subscribers.set subscriber s.finish, stack := stack }
    | some s, update :: rest => some
      { σ with
        subscribers := σ.subscribers.set subscriber (s.deliver update)
        stack := .listener :: .drain subscriber rest :: stack }

def step (σ : State) (action : Action) : Option State :=
  match action with
  | .proceed => σ.proceed
  | .emit =>
    if σ.codeRuns then some { σ with emitted := σ.emitted + 1, stack := .emit σ.emitted 0 :: σ.stack } else none
  | .subscribe =>
    if σ.codeRuns then some { σ with subscribers := σ.subscribers ++ [.new σ.emitted] } else none
  | .activate i =>
    match σ.codeRuns, σ.subscribers[i]? with
    | true, some s =>
      if s.closed || s.active then some σ
      else some { σ with subscribers := σ.subscribers.set i s.start, stack := .drain i s.buffer :: σ.stack }
    | _, _ => none
  | .close i =>
    match σ.codeRuns, σ.subscribers[i]? with
    | true, some s => some { σ with subscribers := σ.subscribers.set i s.close }
    | _, _ => none
  | .dispose => if σ.codeRuns then some { σ with subscribers := σ.subscribers.map Subscriber.terminate } else none

def run (σ : State) (actions : List Action) : Option State := actions.foldlM step σ

end State

/-! ## What the loops still have to do -/

/-- The entries that `activate()` still has to deliver to a subscriber. -/
def rests (i : ℕ) : List Frame → List ℕ
  | [] => []
  | .drain j rest :: stack => (if j = i then rest else []) ++ rests i stack
  | .emit _ _ :: stack | .listener :: stack => rests i stack

/-- The updates whose emission has not come to a subscriber yet, the innermost first. -/
def awaited (i : ℕ) : List Frame → List ℕ
  | [] => []
  | .emit update next :: stack => (if next ≤ i then [update] else []) ++ awaited i stack
  | .drain _ _ :: stack | .listener :: stack => awaited i stack

/-- No emission that has not come to a subscriber yet was called while its buffer was being delivered. -/
def Clear (i : ℕ) : List Frame → Prop
  | [] => True
  | .emit _ next :: stack => (next ≤ i → rests i stack = []) ∧ Clear i stack
  | .drain _ _ :: stack | .listener :: stack => Clear i stack

@[simp] theorem rests_nil (i : ℕ) : rests i [] = [] := rfl

@[simp] theorem rests_listener (i : ℕ) (stack : List Frame) : rests i (.listener :: stack) = rests i stack := rfl

@[simp] theorem rests_emit (i update next : ℕ) (stack : List Frame) :
    rests i (.emit update next :: stack) = rests i stack :=
  rfl

@[simp] theorem rests_drain (i j : ℕ) (rest : List ℕ) (stack : List Frame) :
    rests i (.drain j rest :: stack) = (if j = i then rest else []) ++ rests i stack :=
  rfl

@[simp] theorem awaited_nil (i : ℕ) : awaited i [] = [] := rfl

@[simp] theorem awaited_listener (i : ℕ) (stack : List Frame) : awaited i (.listener :: stack) = awaited i stack := rfl

@[simp] theorem awaited_drain (i j : ℕ) (rest : List ℕ) (stack : List Frame) :
    awaited i (.drain j rest :: stack) = awaited i stack :=
  rfl

@[simp] theorem awaited_emit (i update next : ℕ) (stack : List Frame) :
    awaited i (.emit update next :: stack) = (if next ≤ i then [update] else []) ++ awaited i stack :=
  rfl

@[simp] theorem clear_listener (i : ℕ) (stack : List Frame) : Clear i (.listener :: stack) ↔ Clear i stack := .rfl

@[simp] theorem clear_drain (i j : ℕ) (rest : List ℕ) (stack : List Frame) :
    Clear i (.drain j rest :: stack) ↔ Clear i stack :=
  .rfl

@[simp] theorem clear_emit (i update next : ℕ) (stack : List Frame) :
    Clear i (.emit update next :: stack) ↔ (next ≤ i → rests i stack = []) ∧ Clear i stack :=
  .rfl

/-! ## The order -/

/-- A subscriber gets the updates in order and none of them twice, and when everything has come to rest it has got all
that came to it, which for an open subscriber is all that was emitted since it subscribed. -/
structure InOrder (σ : State) (s : Subscriber) : Prop where
  sorted : s.delivered.Pairwise (· < ·)
  delivered : σ.stack = [] → s.active = true → s.cancelled = false → s.delivered = s.sent
  sent : σ.stack = [] → s.isOpen = true → ∀ update, s.since ≤ update → update < σ.emitted → update ∈ s.sent

/-- What a step may not do: emit an update while an open subscriber has yet to get another, or subscribe while an
emission is nested in another. -/
def Allowed (σ : State) : Action → Prop
  | .emit => ∀ i ∈ List.range σ.subscribers.length, σ.subscribers[i]?.any Subscriber.isOpen = true →
      rests i σ.stack = [] ∧ awaited i σ.stack = []
  | .subscribe => (awaited σ.subscribers.length σ.stack).length ≤ 1
  | .activate _ | .close _ | .dispose | .proceed => True

instance (σ : State) : (action : Action) → Decidable (Allowed σ action)
  | .emit => inferInstanceAs (Decidable (∀ i ∈ List.range σ.subscribers.length,
      σ.subscribers[i]?.any Subscriber.isOpen = true → rests i σ.stack = [] ∧ awaited i σ.stack = []))
  | .subscribe => inferInstanceAs (Decidable ((awaited σ.subscribers.length σ.stack).length ≤ 1))
  | .activate _ | .close _ | .dispose | .proceed => inferInstanceAs (Decidable True)

/-- The states that runs of allowed steps come to. -/
inductive Reachable : State → Prop where
  | initial : Reachable .initial
  | step {σ σ' : State} {action : Action} (h : Reachable σ) (hallowed : Allowed σ action)
      (hstep : σ.step action = some σ') : Reachable σ'

/-- What holds of one subscriber in every such state. -/
structure Sound (emitted : ℕ) (stack : List Frame) (i : ℕ) (s : Subscriber) : Prop where
  sorted : s.sent.Pairwise (· < ·)
  bound : ∀ update ∈ s.sent, update < emitted
  split : s.delivered ++ rests i stack ++ s.buffer <+: s.sent
  whole : s.cancelled = false → s.delivered ++ rests i stack ++ s.buffer = s.sent
  idle : s.active = false → rests i stack = []
  live : s.active = true → s.buffer = []
  cancelled : s.cancelled = true → s.isOpen = false
  clear : s.isOpen = true → Clear i stack
  single : s.isOpen = true → (awaited i stack).length ≤ 1
  later : s.isOpen = true → ∀ update ∈ awaited i stack, ∀ v ∈ s.sent, v < update
  complete : s.isOpen = true → ∀ update, s.since ≤ update → update < emitted →
    update ∈ s.sent ∨ update ∈ awaited i stack

structure Invariant (σ : State) : Prop where
  drains : ∀ i rest, Frame.drain i rest ∈ σ.stack → i < σ.subscribers.length
  emits : ∀ update next, Frame.emit update next ∈ σ.stack → update < σ.emitted
  sound : ∀ (i : ℕ) (s : Subscriber), σ.subscribers[i]? = some s → Sound σ.emitted σ.stack i s

theorem Sound.inOrder {σ : State} {i : ℕ} {s : Subscriber} (h : Sound σ.emitted σ.stack i s) : InOrder σ s where
  sorted := h.sorted.sublist (((List.prefix_append _ _).trans (List.prefix_append _ _)).trans h.split).sublist
  delivered hstack hactive hcancelled := by
    have hwhole := h.whole hcancelled
    rwa [hstack, h.live hactive, rests_nil, List.append_nil, List.append_nil] at hwhole
  sent hstack hopen update hsince hlt := by
    have hsent := h.complete hopen update hsince hlt
    rw [hstack, awaited_nil] at hsent
    exact hsent.resolve_right List.not_mem_nil

/-! ## What a step keeps -/

theorem rests_eq_nil {i : ℕ} {stack : List Frame} (h : ∀ j rest, Frame.drain j rest ∈ stack → j < i) :
    rests i stack = [] := by
  induction stack with
  | nil => rfl
  | cons frame stack ih =>
    have htail := ih fun j rest hmem => h j rest (List.mem_cons_of_mem _ hmem)
    cases frame with
    | emit update next => exact htail
    | drain j rest =>
      have hne : j ≠ i := (h j rest List.mem_cons_self).ne
      simp [hne, htail]
    | listener => exact htail

theorem clear_of_drains {i : ℕ} {stack : List Frame} (h : ∀ j rest, Frame.drain j rest ∈ stack → j < i) :
    Clear i stack := by
  induction stack with
  | nil => trivial
  | cons frame stack ih =>
    have hstack : ∀ j rest, Frame.drain j rest ∈ stack → j < i := fun j rest hmem =>
      h j rest (List.mem_cons_of_mem _ hmem)
    cases frame with
    | emit update next => exact ⟨fun _ => rests_eq_nil hstack, ih hstack⟩
    | drain j rest => exact ih hstack
    | listener => exact ih hstack

theorem mem_of_mem_awaited {i update : ℕ} {stack : List Frame} (h : update ∈ awaited i stack) :
    ∃ next, Frame.emit update next ∈ stack := by
  induction stack with
  | nil => cases h
  | cons frame stack ih =>
    cases frame with
    | emit update' next =>
      rw [awaited_emit, List.mem_append] at h
      rcases h with hself | htail
      · split_ifs at hself
        · rw [List.mem_singleton.mp hself]
          exact ⟨next, List.mem_cons_self⟩
        · cases hself
      · obtain ⟨next', hmem⟩ := ih htail
        exact ⟨next', List.mem_cons_of_mem _ hmem⟩
    | drain j rest =>
      obtain ⟨next', hmem⟩ := ih h
      exact ⟨next', List.mem_cons_of_mem _ hmem⟩
    | listener =>
      obtain ⟨next', hmem⟩ := ih h
      exact ⟨next', List.mem_cons_of_mem _ hmem⟩

section

variable {emitted : ℕ} {stack stack' : List Frame} {i : ℕ} {s : Subscriber}

/-- The stack matters for what it still has to do for the subscriber. -/
theorem Sound.of_same (h : Sound emitted stack i s) (hrests : rests i stack' = rests i stack)
    (hawaited : awaited i stack' = awaited i stack) (hclear : Clear i stack → Clear i stack') :
    Sound emitted stack' i s where
  sorted := h.sorted
  bound := h.bound
  split := hrests ▸ h.split
  whole := hrests ▸ h.whole
  idle := hrests ▸ h.idle
  live := h.live
  cancelled := h.cancelled
  clear hopen := hclear (h.clear hopen)
  single := hawaited ▸ h.single
  later := hawaited ▸ h.later
  complete := hawaited ▸ h.complete

/-- A subscriber that is no longer open only has what came to it left. -/
theorem Sound.of_not_open {t : Subscriber} (h : Sound emitted stack i s) (hopen : t.isOpen = false)
    (hrests : rests i stack' = rests i stack) (hsent : t.sent = s.sent) (hdelivered : t.delivered = s.delivered)
    (hbuffer : t.buffer <+: s.buffer)
    (hwhole : t.cancelled = false → s.cancelled = false ∧ t.buffer = s.buffer)
    (hactive : t.active = s.active) : Sound emitted stack' i t where
  sorted := hsent ▸ h.sorted
  bound := hsent ▸ h.bound
  split := by
    rw [hsent, hdelivered, hrests]
    exact ((List.prefix_append_right_inj _).mpr hbuffer).trans h.split
  whole hcancelled := by
    obtain ⟨hs, heq⟩ := hwhole hcancelled
    rw [hsent, hdelivered, heq, hrests]
    exact h.whole hs
  idle ht := hrests.trans (h.idle (hactive ▸ ht))
  live ht := by
    rw [h.live (hactive ▸ ht)] at hbuffer
    exact List.prefix_nil.mp hbuffer
  cancelled _ := hopen
  clear ht := absurd ht (by simp [hopen])
  single ht := absurd ht (by simp [hopen])
  later ht := absurd ht (by simp [hopen])
  complete ht := absurd ht (by simp [hopen])

theorem Sound.emit (h : Sound emitted stack i s)
    (hallowed : s.isOpen = true → rests i stack = [] ∧ awaited i stack = []) :
    Sound (emitted + 1) (.emit emitted 0 :: stack) i s where
  sorted := h.sorted
  bound update hmem := Nat.lt_succ_of_lt (h.bound update hmem)
  split := h.split
  whole := h.whole
  idle := h.idle
  live := h.live
  cancelled := h.cancelled
  clear hopen := ⟨fun _ => (hallowed hopen).1, h.clear hopen⟩
  single hopen := by simp [(hallowed hopen).2]
  later hopen update hmem v hv := by
    simp only [awaited_emit, (hallowed hopen).2, Nat.zero_le, if_true, List.append_nil, List.mem_singleton] at hmem
    rw [hmem]
    exact h.bound v hv
  complete hopen update hsince hlt := by
    rcases Nat.lt_succ_iff_lt_or_eq.mp hlt with hlt | rfl
    · rcases h.complete hopen update hsince hlt with hsent | hawaited
      · exact .inl hsent
      · exact .inr (List.mem_append_right _ hawaited)
    · exact .inr (by simp)

/-- The emission comes to the subscriber. -/
theorem Sound.push {update : ℕ} (h : Sound emitted (.emit update i :: stack) i s) (hupdate : update < emitted) :
    Sound emitted (.emit update (i + 1) :: stack) i (s.push update) := by
  cases hopen : s.isOpen with
  | false =>
    have hpush : s.push update = s := if_pos hopen
    rw [hpush]
    exact h.of_not_open hopen rfl rfl rfl (List.prefix_refl _) (fun hcancelled => ⟨hcancelled, rfl⟩) rfl
  | true =>
    -- nothing else is on its way to the subscriber
    have hrests : rests i stack = [] := (h.clear hopen).1 le_rfl
    have hclear : Clear i stack := (h.clear hopen).2
    have hawaited : awaited i stack = [] := by
      have hsingle := h.single hopen
      simp only [awaited_emit, le_refl, if_true, List.length_append, List.length_singleton] at hsingle
      exact List.eq_nil_of_length_eq_zero (by omega)
    have hlater : ∀ v ∈ s.sent, v < update := h.later hopen update (by simp)
    have hcancelled : s.cancelled = false := by
      by_contra hne
      rw [h.cancelled (by simpa using hne)] at hopen
      cases hopen
    have hwhole := h.whole hcancelled
    rw [rests_emit, hrests, List.append_nil] at hwhole
    have hsorted : (s.sent ++ [update]).Pairwise (· < ·) :=
      List.pairwise_append.mpr ⟨h.sorted, List.pairwise_singleton _ _, fun v hv w hw => by
        rw [List.mem_singleton.mp hw]
        exact hlater v hv⟩
    have hbound : ∀ v ∈ s.sent ++ [update], v < emitted := fun v hv => by
      rcases List.mem_append.mp hv with hv | hv
      · exact h.bound v hv
      · rw [List.mem_singleton.mp hv]
        exact hupdate
    have hcomplete : ∀ v, s.since ≤ v → v < emitted → v ∈ s.sent ++ [update] := fun v hsince hlt => by
      rcases h.complete hopen v hsince hlt with hsent | hlate
      · exact List.mem_append_left _ hsent
      · exact List.mem_append_right _ (by simpa [hawaited] using hlate)
    cases hactive : s.active with
    | true =>
      have hpush : s.push update = { s with sent := s.sent ++ [update], delivered := s.delivered ++ [update] } := by
        simp [Subscriber.push, hopen, hactive]
      have hbuffer := h.live hactive
      have heq : s.delivered ++ [update] ++ rests i (.emit update (i + 1) :: stack) ++ s.buffer
          = s.sent ++ [update] := by
        rw [rests_emit, hrests, hbuffer, ← hwhole, hbuffer]
        simp
      rw [hpush]
      exact
        { sorted := hsorted
          bound := hbound
          split := heq ▸ List.prefix_refl _
          whole := fun _ => heq
          idle := fun hidle => absurd hidle (by simp [hactive])
          live := h.live
          cancelled := h.cancelled
          clear := fun _ => ⟨fun _ => hrests, hclear⟩
          single := fun _ => by simp [hawaited]
          later := fun _ v hv => by simp [hawaited] at hv
          complete := fun _ v hsince hlt => .inl (hcomplete v hsince hlt) }
    | false =>
      have hpush : s.push update = { s with sent := s.sent ++ [update], buffer := s.buffer ++ [update] } := by
        simp [Subscriber.push, hopen, hactive]
      have heq : s.delivered ++ rests i (.emit update (i + 1) :: stack) ++ (s.buffer ++ [update])
          = s.sent ++ [update] := by
        rw [rests_emit, hrests, ← hwhole]
        simp
      rw [hpush]
      exact
        { sorted := hsorted
          bound := hbound
          split := heq ▸ List.prefix_refl _
          whole := fun _ => heq
          idle := fun _ => hrests
          live := fun hlive => absurd hlive (by simp [hactive])
          cancelled := h.cancelled
          clear := fun _ => ⟨fun _ => hrests, hclear⟩
          single := fun _ => by simp [hawaited]
          later := fun _ v hv => by simp [hawaited] at hv
          complete := fun _ v hsince hlt => .inl (hcomplete v hsince hlt) }

/-- An entry of the buffer is delivered. -/
theorem Sound.deliver {update : ℕ} {rest : List ℕ} (h : Sound emitted (.drain i (update :: rest) :: stack) i s) :
    Sound emitted (.listener :: .drain i rest :: stack) i (s.deliver update) := by
  have heq : s.delivered ++ [update] ++ rests i (.listener :: .drain i rest :: stack) ++ s.buffer
      = s.delivered ++ rests i (.drain i (update :: rest) :: stack) ++ s.buffer := by
    simp
  exact
    { sorted := h.sorted
      bound := h.bound
      split := by
        have hsplit := h.split
        rwa [← heq] at hsplit
      whole := fun hcancelled => heq.trans (h.whole hcancelled)
      idle := fun hidle => by
        have hnone := h.idle hidle
        simp at hnone
      live := h.live
      cancelled := h.cancelled
      clear := h.clear
      single := h.single
      later := h.later
      complete := h.complete }

theorem Sound.start (h : Sound emitted stack i s) (hactive : s.active = false) :
    Sound emitted (.drain i s.buffer :: stack) i s.start := by
  have hrests := h.idle hactive
  have heq : s.delivered ++ rests i (.drain i s.buffer :: stack) ++ [] = s.delivered ++ rests i stack ++ s.buffer := by
    simp [hrests]
  exact
    { sorted := h.sorted
      bound := h.bound
      split := by
        have hsplit := h.split
        rwa [← heq] at hsplit
      whole := fun hcancelled => heq.trans (h.whole hcancelled)
      idle := fun hidle => by cases hidle
      live := fun _ => rfl
      cancelled := h.cancelled
      clear := h.clear
      single := h.single
      later := h.later
      complete := h.complete }

theorem Sound.finish (h : Sound emitted (.drain i [] :: stack) i s) : Sound emitted stack i s.finish := by
  cases hterminated : s.terminated with
  | false =>
    have hclosed : (s.closed || s.terminated) = s.closed := by rw [hterminated, Bool.or_false]
    have hsame : s.finish = s := by rw [Subscriber.finish, hclosed]
    rw [hsame]
    exact h.of_same (by simp) (by simp) id
  | true =>
    have hopen : s.finish.isOpen = false := by simp [Subscriber.finish, Subscriber.isOpen, hterminated]
    exact h.of_not_open hopen (by simp) rfl rfl (List.prefix_refl _) (fun hcancelled => ⟨hcancelled, rfl⟩) rfl

theorem Sound.close (h : Sound emitted stack i s) : Sound emitted stack i s.close := by
  rw [Subscriber.close]
  split
  · exact h
  · exact h.of_not_open (by simp [Subscriber.isOpen]) rfl rfl rfl List.nil_prefix
      (fun hcancelled => by cases hcancelled) rfl

theorem Sound.terminate (h : Sound emitted stack i s) : Sound emitted stack i s.terminate := by
  rw [Subscriber.terminate]
  split
  · exact h
  · split
    next hactive =>
      have hbuffer := h.live hactive
      exact h.of_not_open (by simp [Subscriber.isOpen]) rfl rfl rfl List.nil_prefix
        (fun hcancelled => ⟨hcancelled, hbuffer.symm⟩) rfl
    next hactive =>
      exact h.of_not_open (by simp [Subscriber.isOpen]) rfl rfl rfl (List.prefix_refl _)
        (fun hcancelled => ⟨hcancelled, rfl⟩) rfl

/-- A new subscriber awaits at most what is being emitted. -/
theorem sound_new (hdrains : ∀ j rest, Frame.drain j rest ∈ stack → j < i) (hsingle : (awaited i stack).length ≤ 1) :
    Sound emitted stack i (.new emitted) where
  sorted := List.Pairwise.nil
  bound _ hmem := by cases hmem
  split := by simp [Subscriber.new, rests_eq_nil hdrains]
  whole _ := by simp [Subscriber.new, rests_eq_nil hdrains]
  idle _ := rests_eq_nil hdrains
  live _ := rfl
  cancelled hcancelled := by cases hcancelled
  clear _ := clear_of_drains hdrains
  single _ := hsingle
  later _ _ _ _ hmem := by cases hmem
  complete _ update hsince hlt := absurd hlt (not_lt.mpr hsince)

end

/-! ## Runs -/

section

variable {σ σ' : State}

theorem Invariant.set (h : Invariant σ) {n : ℕ} {s s' : Subscriber} {stack : List Frame}
    (hn : σ.subscribers[n]? = some s) (hframes : ∀ frame ∈ stack, frame ∈ σ.stack ∨ frame = .listener ∨
      (∃ rest, frame = .drain n rest) ∨ ∃ update next, frame = .emit update next ∧ update < σ.emitted)
    (hself : Sound σ.emitted stack n s') (hothers : ∀ i t, i ≠ n → σ.subscribers[i]? = some t →
      Sound σ.emitted σ.stack i t → Sound σ.emitted stack i t) :
    Invariant { σ with subscribers := σ.subscribers.set n s', stack := stack } where
  drains i rest hmem := by
    rw [List.length_set]
    rcases hframes _ hmem with hold | hlistener | ⟨rest', heq⟩ | ⟨update, next, heq, -⟩
    · exact h.drains i rest hold
    · cases hlistener
    · cases heq
      exact (List.getElem?_eq_some_iff.mp hn).1
    · cases heq
  emits update next hmem := by
    rcases hframes _ hmem with hold | hlistener | ⟨rest', heq⟩ | ⟨update', next', heq, hlt⟩
    · exact h.emits update next hold
    · cases hlistener
    · cases heq
    · cases heq
      exact hlt
  sound i t ht := by
    by_cases hi : i = n
    · subst hi
      rw [List.getElem?_set_self (List.getElem?_eq_some_iff.mp hn).1, Option.some.injEq] at ht
      exact ht ▸ hself
    · rw [List.getElem?_set_ne (Ne.symm hi)] at ht
      exact hothers i t hi ht (h.sound i t ht)

theorem Invariant.pop (h : Invariant σ) {frame : Frame} {stack : List Frame} (hstack : σ.stack = frame :: stack)
    (hsound : ∀ i s, σ.subscribers[i]? = some s → Sound σ.emitted (frame :: stack) i s → Sound σ.emitted stack i s) :
    Invariant { σ with stack := stack } where
  drains i rest hmem := h.drains i rest (hstack ▸ List.mem_cons_of_mem _ hmem)
  emits update next hmem := h.emits update next (hstack ▸ List.mem_cons_of_mem _ hmem)
  sound i s hs := hsound i s hs (hstack ▸ h.sound i s hs)

theorem Invariant.proceed (h : Invariant σ) (hstep : σ.proceed = some σ') : Invariant σ' := by
  rw [State.proceed] at hstep
  split at hstep
  next hstack => cases hstep
  next stack hstack =>
    cases hstep
    exact h.pop hstack fun i s _ hs => hs.of_same rfl rfl id
  next update next stack hstack =>
    split at hstep
    next hnone =>
      cases hstep
      refine h.pop hstack fun i s hs hsound => ?_
      have hlt : ¬next ≤ i := by
        have hlength := List.getElem?_eq_none_iff.mp hnone
        have hi := (List.getElem?_eq_some_iff.mp hs).1
        omega
      exact hsound.of_same rfl (by simp [hlt]) fun hclear => hclear.2
    next s hs =>
      cases hstep
      have hupdate : update < σ.emitted := h.emits update next (hstack ▸ List.mem_cons_self)
      have hsound := h.sound next s hs
      rw [hstack] at hsound
      -- the listener that is called leaves nothing of its own to do
      have hlistener : ∀ {i : ℕ} {t : Subscriber} {stack : List Frame} (b : Bool), Sound σ.emitted stack i t →
          Sound σ.emitted ((if b then [.listener] else []) ++ stack) i t := by
        intro i t stack b ht
        cases b with
        | false => exact ht
        | true => exact ht.of_same rfl rfl id
      apply h.set hs
      · intro frame hmem
        rcases List.mem_append.mp hmem with hmem | hmem
        · split_ifs at hmem
          · exact .inr (.inl (List.mem_singleton.mp hmem))
          · cases hmem
        · rcases List.mem_cons.mp hmem with rfl | hmem
          · exact .inr (.inr (.inr ⟨update, next + 1, rfl, hupdate⟩))
          · exact .inl (hstack ▸ List.mem_cons_of_mem _ hmem)
      · exact hlistener _ (hsound.push hupdate)
      · intro i t hi _ ht
        rw [hstack] at ht
        have hle : next + 1 ≤ i ↔ next ≤ i := by omega
        refine hlistener _ (ht.of_same rfl (by simp [hle]) fun hclear => ?_)
        simpa [hle] using hclear
  next subscriber rest stack hstack =>
    split at hstep
    next hnone => cases hstep
    next s hs =>
      cases hstep
      have hsound := h.sound subscriber s hs
      rw [hstack] at hsound
      apply h.set hs
      · intro frame hmem
        exact .inl (hstack ▸ List.mem_cons_of_mem _ hmem)
      · exact hsound.finish
      · intro i t hi _ ht
        rw [hstack] at ht
        exact ht.of_same (by simp) (by simp) id
    next s update rest hs =>
      cases hstep
      have hsound := h.sound subscriber s hs
      rw [hstack] at hsound
      apply h.set hs
      · intro frame hmem
        rcases List.mem_cons.mp hmem with rfl | hmem
        · exact .inr (.inl rfl)
        rcases List.mem_cons.mp hmem with rfl | hmem
        · exact .inr (.inr (.inl ⟨rest, rfl⟩))
        · exact .inl (hstack ▸ List.mem_cons_of_mem _ hmem)
      · exact hsound.deliver
      · intro i t hi _ ht
        rw [hstack] at ht
        exact ht.of_same (by simp [Ne.symm hi]) (by simp) id

theorem Invariant.step (h : Invariant σ) {action : Action} (hallowed : Allowed σ action)
    (hstep : σ.step action = some σ') : Invariant σ' := by
  cases action with
  | proceed => exact h.proceed hstep
  | emit =>
    simp only [State.step, Option.ite_none_right_eq_some, Option.some.injEq] at hstep
    obtain ⟨-, rfl⟩ := hstep
    exact
      { drains := fun i rest hmem => h.drains i rest (by simpa using hmem)
        emits := fun update next hmem => by
          rcases List.mem_cons.mp hmem with heq | hmem
          · cases heq
            exact Nat.lt_succ_self _
          · exact Nat.lt_succ_of_lt (h.emits update next hmem)
        sound := fun i s hs => (h.sound i s hs).emit fun hopen =>
          hallowed i (List.mem_range.mpr (List.getElem?_eq_some_iff.mp hs).1) (by simpa [hs] using hopen) }
  | subscribe =>
    simp only [State.step, Option.ite_none_right_eq_some, Option.some.injEq] at hstep
    obtain ⟨-, rfl⟩ := hstep
    exact
      { drains := fun i rest hmem => by
          rw [List.length_append]
          exact Nat.lt_add_right _ (h.drains i rest hmem)
        emits := h.emits
        sound := fun i s hs => by
          rcases Nat.lt_or_ge i σ.subscribers.length with hi | hi
          · rw [List.getElem?_append_left hi] at hs
            exact h.sound i s hs
          · rw [List.getElem?_append_right hi, List.getElem?_singleton] at hs
            split_ifs at hs with hzero
            cases hs
            obtain rfl : i = σ.subscribers.length := by omega
            exact sound_new h.drains hallowed }
  | activate i =>
    simp only [State.step] at hstep
    split at hstep
    next s hruns hs =>
      split at hstep
      next hdone => exact Option.some.inj hstep ▸ h
      next hdone =>
        cases hstep
        rw [Bool.not_eq_true, Bool.or_eq_false_iff] at hdone
        apply h.set hs
        · intro frame hmem
          rcases List.mem_cons.mp hmem with rfl | hmem
          · exact .inr (.inr (.inl ⟨s.buffer, rfl⟩))
          · exact .inl hmem
        · exact (h.sound i s hs).start hdone.2
        · intro j t hj _ ht
          exact ht.of_same (by simp [Ne.symm hj]) rfl id
    · cases hstep
  | close i =>
    simp only [State.step] at hstep
    split at hstep
    next s hruns hs =>
      cases hstep
      exact h.set hs (fun frame hmem => .inl hmem) (h.sound i s hs).close fun j t _ _ ht => ht
    · cases hstep
  | dispose =>
    simp only [State.step, Option.ite_none_right_eq_some, Option.some.injEq] at hstep
    obtain ⟨-, rfl⟩ := hstep
    exact
      { drains := fun i rest hmem => by
          rw [List.length_map]
          exact h.drains i rest hmem
        emits := h.emits
        sound := fun i s hs => by
          rw [List.getElem?_map, Option.map_eq_some_iff] at hs
          obtain ⟨t, ht, rfl⟩ := hs
          exact (h.sound i t ht).terminate }

theorem Reachable.invariant (h : Reachable σ) : Invariant σ := by
  induction h with
  | initial =>
    exact
      { drains := fun i rest hmem => by cases hmem
        emits := fun update next hmem => by cases hmem
        sound := fun i s hs => by cases hs }
  | step h hallowed hstep ih => exact ih.step hallowed hstep

end

/-! ## Listeners that do not call back -/

/-- A subscriber of this machine and one of `Provider`, where `updates` has the updates by their numbers. -/
structure Matches (updates : ℕ → Update Delta.Op) (s : Subscriber) (t : Services.Subscriber) : Prop where
  buffer : t.buffer = s.buffer.map updates
  delivered : t.delivered = s.delivered.map updates
  active : t.active = s.active
  terminated : t.terminated = s.terminated
  closed : t.closed = s.closed
  registered : t.registered = s.registered

section

variable {σ : State} {updates : ℕ → Update Delta.Op} {s : Subscriber} {t : Services.Subscriber}

theorem Matches.push (h : Matches updates s t) (update : ℕ) :
    Matches updates (s.push update) (t.push (updates update)) := by
  have hopen : t.isOpen = s.isOpen := by rw [Services.Subscriber.isOpen, h.registered, h.closed, Subscriber.isOpen]
  rw [Subscriber.push, Services.Subscriber.push, hopen, h.active]
  split_ifs
  · exact h
  · exact ⟨h.buffer, by simp [h.delivered], rfl, h.terminated, h.closed, h.registered⟩
  · exact ⟨by simp [h.buffer], h.delivered, rfl, h.terminated, h.closed, h.registered⟩

/-- What `activate()` comes to when the listener only returns. -/
def Subscriber.activate (s : Subscriber) : Subscriber :=
  if s.closed || s.active then s else { s.start with delivered := s.delivered ++ s.buffer }.finish

theorem Matches.activate (h : Matches updates s t) : Matches updates s.activate t.activate := by
  rw [Subscriber.activate, Services.Subscriber.activate, h.closed, h.active]
  split_ifs with hdone
  · exact h
  · rw [Bool.not_eq_true, Bool.or_eq_false_iff] at hdone
    exact ⟨rfl, by simp [h.delivered, h.buffer, Subscriber.finish], rfl, h.terminated,
      by simp [h.terminated, Subscriber.finish, Subscriber.start, hdone.1], h.registered⟩

theorem run_cons {σ₁ σ₂ : State} {action : Action} {actions : List Action} (hstep : σ.step action = some σ₁)
    (hrun : σ₁.run actions = some σ₂) : σ.run (action :: actions) = some σ₂ := by
  rw [State.run, List.foldlM_cons, hstep]
  exact hrun

/-- The loop of `#emit` serves the subscribers it has not come to. -/
theorem run_emit {update next : ℕ} {stack : List Frame} (hstack : σ.stack = .emit update next :: stack) :
    ∃ n, σ.run (List.replicate n .proceed) = some
      { σ with
        subscribers := σ.subscribers.take next ++ (σ.subscribers.drop next).map (Subscriber.push update)
        stack := stack } := by
  induction hrest : σ.subscribers.length - next generalizing σ next with
  | zero =>
    have hle : σ.subscribers.length ≤ next := by omega
    have hnone : σ.subscribers[next]? = none := List.getElem?_eq_none hle
    refine ⟨1, run_cons (show σ.step .proceed = some { σ with stack := stack } from ?_) ?_⟩
    · simp [State.step, State.proceed, hstack, hnone]
    · simp [State.run, List.take_of_length_le hle, List.drop_eq_nil_of_le hle]
  | succ k ih =>
    have hlt : next < σ.subscribers.length := by omega
    have hs : σ.subscribers[next]? = some σ.subscribers[next] := List.getElem?_eq_getElem hlt
    -- one subscriber is served, and where its listener is called it returns
    let served : State :=
      { σ with
        subscribers := σ.subscribers.set next (σ.subscribers[next].push update)
        stack := .emit update (next + 1) :: stack }
    have hserved : ∃ m, ∀ actions σ', served.run actions = some σ' →
        σ.run (List.replicate m .proceed ++ actions) = some σ' := by
      cases hcalls : σ.subscribers[next].isOpen && σ.subscribers[next].active with
      | false =>
        refine ⟨1, fun actions σ' hrun => run_cons (show σ.step .proceed = some served from ?_) hrun⟩
        simp [State.step, State.proceed, hstack, hs, hcalls, served]
      | true =>
        refine ⟨2, fun actions σ' hrun => run_cons
          (show σ.step .proceed = some { served with stack := .listener :: served.stack } from ?_) (run_cons rfl hrun)⟩
        simp only [State.step, State.proceed, hstack, hs, hcalls, if_true, List.singleton_append, served]
    obtain ⟨m, hserved⟩ := hserved
    have hlength : served.subscribers.length = σ.subscribers.length := List.length_set
    obtain ⟨n, hn⟩ := ih (σ := served) rfl (by omega)
    refine ⟨m + n, ?_⟩
    rw [List.replicate_add]
    apply hserved
    rw [hn]
    have htake : served.subscribers.take (next + 1) = σ.subscribers.take next ++ [σ.subscribers[next].push update] := by
      rw [List.take_add_one, List.take_set_of_le le_rfl, List.getElem?_set_self hlt]
      rfl
    have hdrop : served.subscribers.drop (next + 1) = σ.subscribers.drop (next + 1) :=
      List.drop_set_of_lt (Nat.lt_succ_self next)
    rw [htake, hdrop, List.drop_eq_getElem_cons hlt, List.map_cons, List.append_assoc, List.singleton_append]

/-- An emission whose listeners only return is the one of `Provider`. -/
theorem run_emit_quiet (hcode : σ.codeRuns = true) :
    ∃ n, σ.run (.emit :: List.replicate n .proceed) = some
      { σ with emitted := σ.emitted + 1, subscribers := σ.subscribers.map (Subscriber.push σ.emitted) } := by
  obtain ⟨n, hn⟩ := run_emit
    (σ := { σ with emitted := σ.emitted + 1, stack := .emit σ.emitted 0 :: σ.stack }) rfl
  refine ⟨n, run_cons (by rw [State.step, if_pos hcode]) ?_⟩
  rw [hn]
  simp

/-- The loop of `activate()` delivers what was buffered. -/
theorem run_drain {i : ℕ} {rest : List ℕ} {stack : List Frame} {s : Subscriber}
    (hstack : σ.stack = .drain i rest :: stack) (hs : σ.subscribers[i]? = some s) :
    ∃ n, σ.run (List.replicate n .proceed) = some
      { σ with
        subscribers := σ.subscribers.set i { s with delivered := s.delivered ++ rest }.finish
        stack := stack } := by
  induction rest generalizing σ s with
  | nil =>
    refine ⟨1, run_cons (show σ.step .proceed = some
      { σ with subscribers := σ.subscribers.set i s.finish, stack := stack } from ?_) ?_⟩
    · simp [State.step, State.proceed, hstack, hs]
    · simp [State.run]
  | cons update rest ih =>
    let served : State :=
      { σ with subscribers := σ.subscribers.set i (s.deliver update), stack := .drain i rest :: stack }
    have hi := (List.getElem?_eq_some_iff.mp hs).1
    obtain ⟨n, hn⟩ := ih (σ := served) rfl (List.getElem?_set_self hi)
    refine ⟨n + 2, run_cons (show σ.step .proceed = some { served with stack := .listener :: served.stack } from ?_)
      (run_cons rfl ?_)⟩
    · simp [State.step, State.proceed, hstack, hs, served]
    · change served.run (List.replicate n .proceed) = _
      rw [hn]
      simp [served, Subscriber.deliver, List.set_set]

/-- An activation whose listener only returns is the one of `Provider`. -/
theorem run_activate_quiet {i : ℕ} {s : Subscriber} (hcode : σ.codeRuns = true) (hs : σ.subscribers[i]? = some s) :
    ∃ n, σ.run (.activate i :: List.replicate n .proceed) = some
      { σ with subscribers := σ.subscribers.set i s.activate } := by
  have hi := (List.getElem?_eq_some_iff.mp hs).1
  by_cases hdone : (s.closed || s.active) = true
  · refine ⟨0, run_cons (show σ.step (.activate i) = some σ from ?_) ?_⟩
    · simp only [State.step, hcode, hs, hdone, if_true]
    · have hself : σ.subscribers.set i s = σ.subscribers := by
        obtain ⟨-, rfl⟩ := List.getElem?_eq_some_iff.mp hs
        exact List.set_getElem_self hi
      rw [Subscriber.activate, if_pos hdone, hself]
      rfl
  · let started : State :=
      { σ with subscribers := σ.subscribers.set i s.start, stack := .drain i s.buffer :: σ.stack }
    obtain ⟨n, hn⟩ := run_drain (σ := started) rfl (List.getElem?_set_self hi)
    refine ⟨n, run_cons (show σ.step (.activate i) = some started from ?_) ?_⟩
    · simp only [State.step, hcode, hs, started]
      rw [if_neg hdone]
    · rw [hn, Subscriber.activate, if_neg hdone]
      simp [started, List.set_set, Subscriber.start]

end

/-! ## Runs of allowed steps -/

/-- In a run of allowed steps every subscriber gets the updates in order. -/
theorem inOrder_of_reachable (σ : State) (h : Reachable σ) (s : Subscriber) (hs : s ∈ σ.subscribers) : InOrder σ s := by
  obtain ⟨i, hi⟩ := List.mem_iff_getElem?.mp hs
  exact (h.invariant.sound i s hi).inOrder

theorem inOrder_of_reachable_activated :
    InOrder ⟨1, [⟨[], true, false, false, true, 0, [0], [0], false⟩], []⟩
      ⟨[], true, false, false, true, 0, [0], [0], false⟩ := by
  -- an update is buffered, and then the subscription activated
  have hsubscribed := @Reachable.step _ _ .subscribe .initial (by decide) rfl
  have hemitted := @Reachable.step _ _ .emit hsubscribed (by decide) rfl
  have hbuffered := @Reachable.step _ _ .proceed hemitted (by decide) rfl
  have hended := @Reachable.step _ _ .proceed hbuffered (by decide) rfl
  have hactivated := @Reachable.step _ _ (.activate 0) hended (by decide) rfl
  have hcalled := @Reachable.step _ _ .proceed hactivated (by decide) rfl
  have hreturned := @Reachable.step _ _ .proceed hcalled (by decide) rfl
  have hdone := @Reachable.step _ _ .proceed hreturned (by decide) rfl
  exact inOrder_of_reachable _ hdone _ List.mem_cons_self

/-- Two updates that are buffered, and a third that the listener emits when it is called with the first. -/
def drained : List Action :=
  [.subscribe, .emit, .proceed, .proceed, .emit, .proceed, .proceed, .activate 0, .proceed, .emit, .proceed, .proceed,
    .proceed, .proceed, .proceed, .proceed, .proceed]

/-- Two active subscriptions, and an update that the listener of the first emits when it is called with another. -/
def nested : List Action :=
  [.subscribe, .activate 0, .proceed, .subscribe, .activate 1, .proceed, .emit, .proceed, .emit, .proceed, .proceed,
    .proceed, .proceed, .proceed, .proceed, .proceed, .proceed, .proceed]

/-- A listener that emits an update gets it, or has another listener get it, in front of an earlier one. -/
theorem listener_overtakes :
    (∃ σ, State.initial.run drained = some σ ∧ ∃ s ∈ σ.subscribers, s.delivered = [0, 2, 1] ∧ ¬InOrder σ s) ∧
      ∃ σ, State.initial.run nested = some σ ∧ ∃ s ∈ σ.subscribers, s.delivered = [1, 0] ∧ ¬InOrder σ s := by
  constructor
  · exact ⟨_, rfl, _, List.mem_cons_self, rfl, fun h => absurd h.sorted (by decide)⟩
  · exact ⟨_, rfl, _, List.mem_cons_of_mem _ List.mem_cons_self, rfl, fun h => absurd h.sorted (by decide)⟩

end Phi.Services.Reentrant
