import Phi.Services.Replication
import Phi.Services.Lockstep

/-!
# Facades and the current singleton

`Replication` shows that a facade holds nothing that is not current. Here is the other half: the facade of an active
subscription holds all that is current, so that it is the singleton's published state, and empty while there is none.
It is lost where nothing is emitted for a singleton that comes in: `withdraw` keeps the subscriptions and empties their
facades, and `provide` tells them nothing. `replace` does.

The consumer is the one of `#startSingleton`, on a transport that hands over updates as they are delivered.
-/

namespace Phi.Services

open Delta

/-! ## Views that show all -/

/-- The view shows everything that is current. -/
def Covers (p : Provider) (view : View) : Prop := ∀ a m x, p.Shows a m x → view a m = some x

/-- What is shown under an address whose instances were there was shown. -/
theorem Provider.Shows.back {p q : Provider} (hp : p.WellFormed) {a : Option Address} {m : JsString} {x : ℕ × Json}
    (hx : q.Shows a m x) (h : p.SameShown q)
    (hlive : ∀ i ∈ q.liveInstances, i.address = a → i ∈ p.liveInstances) : p.Shows a m x := by
  obtain ⟨i, hi, haddr, id, s', hm, hs', rfl⟩ := hx
  have hi' := hlive i hi haddr
  obtain ⟨s, hs⟩ := hp.wired.exists_state hi' hm
  obtain ⟨s'', hs'', hseq, hval, -⟩ := h hs
  obtain rfl : s'' = s' := Option.some.inj (hs''.symm.trans hs')
  exact ⟨i, hi', haddr, id, s, hm, hs, by rw [hseq, hval]⟩

/-- A snapshot holds what its instance shows. -/
theorem Provider.heldIn_of_member {p : Provider} {i : ProviderInstance} (hnodup : Table.Nodup i.members) {m : JsString}
    {id : ℕ} {s : MutableReplicatedState} (hm : (m, Member.state id) ∈ i.members) (hs : p.states[id]? = some s) :
    heldIn (p.snapshotInstance i).members m = some (s.sequence, s.publishedValue) := by
  rw [Provider.snapshotInstance]
  generalize i.members = members at hnodup hm
  induction members with
  | nil => cases hm
  | cons e members ih =>
    obtain ⟨hfresh, hnodup⟩ := List.nodup_cons.mp hnodup
    rw [List.map_cons, heldIn_cons, p.name_snapshotMember]
    rcases List.mem_cons.mp hm with rfl | hm
    · rw [if_pos rfl, p.snapshotMember_of_state hs]
      rfl
    · rw [if_neg, ih hnodup hm]
      intro heq
      refine hfresh ?_
      rw [heq]
      exact Table.mem_keys_of_mem hm

/-- The calls of source listeners, for a view that shows the value before the batch. -/
theorem afterAll_served {n : ℕ} {v w : Json} {ops : List Op} (happly : applyImmutable (some v) ops = .ok (some w))
    {ls : List SourceListener} (hkeys : (ls.map fun l => (l.address, l.member)).Nodup) {view : View}
    {a : Option Address} {m : JsString} :
    ((∃ l ∈ ls, a = l.address ∧ m = l.member) → view a m = some (n, v) →
        view.afterAll (ls.map (·.update (n + 1) ops)) a m = some (n + 1, w)) ∧
      ((¬∃ l ∈ ls, a = l.address ∧ m = l.member) →
        view.afterAll (ls.map (·.update (n + 1) ops)) a m = view a m) := by
  induction ls generalizing view with
  | nil => exact ⟨fun h => by simp at h, fun _ => rfl⟩
  | cons l ls ih =>
    rw [List.map_cons, List.nodup_cons] at hkeys
    obtain ⟨hhere, helse⟩ := @ih hkeys.2 (view.after (l.update (n + 1) ops))
    have hafter : view.after (l.update (n + 1) ops) a m
        = if a = l.address ∧ m = l.member then advance (view a m) (n + 1) ops else view a m := rfl
    constructor
    · rintro ⟨l', hl', heq⟩ hview
      by_cases hself : a = l.address ∧ m = l.member
      · have hgone : ¬∃ l' ∈ ls, a = l'.address ∧ m = l'.member := by
          rintro ⟨l'', hl'', ha, hm⟩
          refine hkeys.1 (List.mem_map.mpr ⟨l'', hl'', ?_⟩)
          rw [← ha, ← hm, ← hself.1, ← hself.2]
        rw [List.map_cons, View.afterAll, List.foldl_cons]
        refine (helse hgone).trans ?_
        rw [hafter, if_pos hself, hview]
        simp only [advance, Option.bind_some, happly]
      · rw [List.map_cons, View.afterAll, List.foldl_cons]
        refine hhere ?_ ?_
        · rcases List.mem_cons.mp hl' with rfl | hl'
          · exact absurd heq hself
          · exact ⟨l', hl', heq⟩
        · rw [hafter, if_neg hself]
          exact hview
    · intro hnone
      rw [List.map_cons, View.afterAll, List.foldl_cons]
      refine (helse ?_).trans ?_
      · rintro ⟨l', hl', heq⟩
        exact hnone ⟨l', List.mem_cons_of_mem _ hl', heq⟩
      · rw [hafter, if_neg]
        exact fun heq => hnone ⟨l, List.mem_cons_self, heq⟩

/-- A publication that reaches all source listeners of its state. -/
theorem Covers.publish {p : Provider} (hp : p.WellFormed) {view : View} (hc : Covers p view) {id : ℕ}
    {s : MutableReplicatedState} {ops : List Op} (here : p.states[id]? = some s)
    (batch : s.publish.2 = .ok (some ops)) :
    Covers { p with states := p.states.set id s.publish.1 }
      (view.afterAll (s.sourceListeners.map (·.update s.publish.1.sequence ops))) := by
  have hlt := (List.getElem?_eq_some_iff.mp here).1
  have hlisteners := hp.wired.listeners here
  obtain ⟨-, ⟨hnone, -⟩ | ⟨ops', hops', hseq, -, -, happly⟩⟩ :=
    (hp.wired.sound s (List.mem_of_getElem? here)).publish
  · rw [hnone] at batch
    cases batch
  obtain rfl : ops = ops' := by
    rw [hops'] at batch
    cases batch
    rfl
  have hkeys : (s.sourceListeners.map fun l => (l.address, l.member)).Nodup := by
    refine List.Nodup.map_on ?_ (hp.wired.nodup s (List.mem_of_getElem? here))
    intro l hl l' hl' heq
    exact hp.listener_ext here hl hl' (Prod.mk.inj heq).1 (Prod.mk.inj heq).2
  rintro a m x ⟨i, hi, ha, id', t, hm, ht, rfl⟩
  obtain ⟨hhere, helse⟩ := @afterAll_served s.sequence _ _ _ happly _ hkeys view a m
  rw [hseq]
  by_cases hid : id = id'
  · subst hid
    obtain rfl : s.publish.1 = t := by
      rw [List.getElem?_set_self hlt] at ht
      exact Option.some.inj ht
    rw [hseq]
    refine hhere ⟨⟨i.id, i.address, m⟩, (hlisteners _).mpr ⟨i, hi, rfl, rfl, hm⟩, ha.symm, rfl⟩ ?_
    exact hc a m _ ⟨i, hi, ha, id, s, hm, here, rfl⟩
  · rw [List.getElem?_set_ne hid] at ht
    rw [helse]
    · exact hc a m _ ⟨i, hi, ha, id', t, hm, ht, rfl⟩
    · rintro ⟨l, hl, ha', hm'⟩
      obtain ⟨j, hj, -, hja, hjm⟩ := (hlisteners l).mp hl
      obtain rfl : i = j := hp.eq_of_address hi hj (ha.trans (ha'.trans hja))
      rw [← hm'] at hjm
      have hget := Table.get_of_mem (hp.wired.members i hi) hm
      rw [Table.get_of_mem (hp.wired.members i hi) hjm] at hget
      cases hget
      exact hid rfl

variable {κ : Allowance}

/-- A move that brings in no singleton untold takes a view that shows all to one that does. -/
theorem Move.covers (hκ : κ.full) (hseen : ¬κ.unseen) {p q : Provider} {us : List (Update Op)} (h : Move κ p us q)
    (hp : p.WellFormed) (hmode : p.mode = .singleton) {view : View} (hc : Covers p view) :
    Covers q (view.afterAll us) := by
  have hq := h.wellFormed hp
  have hkeyed : p.mode ≠ .keyed := by simp [hmode]
  cases h with
  | @create s => exact fun a m x hx => hc a m x (hx.back hp (p.sameShown_push s) fun _ hi _ => hi)
  | change here sound listeners sequence value published =>
    exact fun a m x hx =>
      hc a m x (hx.back hp (Provider.sameShown_set here sequence value published) fun _ hi _ => hi)
  | @publish id s ops here batch served rest listeners all =>
    rw [all hκ, List.append_nil] at listeners
    rw [← listeners]
    exact hc.publish hp here batch
  | provide may => exact absurd may hseen
  | @withdraw i here =>
    -- nothing is live
    rintro a m x ⟨j, hj, -⟩
    rw [Provider.liveInstances_of_singleton (p := { p.detach i with singleton := none }) hmode] at hj
    cases hj
  | @replace members mode accepts shape =>
    rintro a m x ⟨i, hi, ha, id, s, hm, hs, rfl⟩
    rw [Provider.live_replacedBy mode] at hi
    obtain rfl := List.mem_singleton.mp hi
    simp only [View.afterAll, List.foldl_cons, List.foldl_nil, View.after]
    exact (if_pos ha.symm).trans (Provider.heldIn_of_member accepts.nodup hm hs)
  | generation mode => exact absurd mode hkeyed
  | spawn mode => exact absurd mode hkeyed
  | close here is => exact absurd (hp.mode_of_instance (Table.mem_of_get here)) hkeyed
  | dispose =>
    exact fun a m x hx => hc a m x (hx.back hp (fun hs => ⟨_, hs, rfl, rfl, rfl⟩) fun _ hi _ => hi)

theorem Moves.covers (hκ : κ.full) (hseen : ¬κ.unseen) {p q : Provider} {us : List (Update Op)} (h : Moves κ p us q)
    (hp : p.WellFormed) (hmode : p.mode = .singleton) {view : View} (hc : Covers p view) :
    Covers q (view.afterAll us) := by
  induction h generalizing view with
  | refl => exact hc
  | @head p p' q us vs move rest ih =>
    rw [View.afterAll, List.foldl_append]
    exact ih (move.wellFormed hp) ((move.extends hp).mode.trans hmode) (move.covers hκ hseen hp hmode hc)

/-! ## Open subscriptions -/

/-- What an open subscription has been sent shows everything that is current. -/
def Covered (p : Provider) (s : Subscriber) : Prop :=
  s.isOpen = true → Covers p (s.snapshot.view.afterAll s.history)

theorem Provider.Opens.covered {q : Provider} (hq : q.WellFormed) (hmode : q.mode = .singleton) {s : Subscriber}
    (h : q.Opens s) : Covered q s := by
  rintro - a m x ⟨i, hi, ha, id, t, hm, ht, rfl⟩
  rw [h.history, h.snapshot]
  have hlive : q.liveInstances = [i] := by
    rw [Provider.liveInstances_of_singleton hmode, Option.mem_toList] at hi
    rw [Provider.liveInstances_of_singleton hmode, hi]
    rfl
  have hview : q.snapshot.view = View.after (fun _ _ => none) (.spawned (q.snapshotInstance i)) := by
    rw [SubscriptionSnapshot.view, Provider.snapshot, Provider.sortedInstances, hmode]
    simp only
    rw [hlive]
    rfl
  rw [hview]
  refine (if_pos ha.symm).trans (Provider.heldIn_of_member (hq.wired.members i ?_) hm ht)
  rw [hlive]
  exact List.mem_cons_self

theorem Provider.Steps.covered {p q : Provider} {us : List (Update Op)} (h : Steps κ p us q) (hκ : κ.full)
    (hseen : ¬κ.unseen) (hp : p.WellFormed) (hmode : p.mode = .singleton) {j : ℕ} {s s' : Subscriber}
    (hs : p.subscribers[j]? = some s) (hs' : q.subscribers[j]? = some s') (hst : Covered p s) : Covered q s' := by
  obtain ⟨s'', hs'', hcont⟩ := h.continues hs
  obtain rfl : s' = s'' := Option.some.inj (hs'.symm.trans hs'')
  intro ho
  obtain ⟨hopen, hhistory⟩ := hcont.opened ho
  rw [hcont.snapshot, hhistory, View.afterAll, List.foldl_append]
  exact h.moves.covers hκ hseen hp.core hmode (hst hopen)

namespace Provider

/-- The event brings in a singleton with a state, and tells no subscription. -/
def Untold (p : Provider) : Event → Prop
  | .provide implementation => p.registration .singleton = .ok () ∧ p.singleton = none ∧
    ∃ members, p.validateReplacement implementation = .ok members ∧ ∃ name id, (name, Member.state id) ∈ members
  | _ => False

/-- While the subscription is open no singleton comes in untold, and no throw of a listener keeps a publication from
another source listener. -/
def Hydrates (j : ℕ) (p : Provider) (e : Event) : Prop := p.Complete e ∧ (p.IsOpen j → ¬p.Untold e)

end Provider

/-- A singleton without states has nothing to tell of. -/
theorem Covers.provide {p : Provider} {view : View} (hc : Covers p view) {implementation : Implementation}
    (htold : ¬p.Untold (.provide implementation)) : Covers (p.provide implementation).1 view := by
  rw [Provider.provide]
  split
  · exact hc
  next hreg =>
  split
  · exact hc
  next hnone =>
  split
  · exact hc
  next members hmembers =>
  rintro a m x ⟨i, hi, ha, id, s, hm, -⟩
  have hmode := Provider.mode_of_registration hreg
  change i ∈ (p.provided members).liveInstances at hi
  rw [Provider.liveInstances_of_singleton (p := p.provided members) hmode, Option.mem_toList] at hi
  obtain rfl := Option.some.inj hi
  exact absurd ⟨hreg, by simpa using hnone, members, hmembers, m, id, hm⟩ htold

theorem subscribers_provide (p : Provider) (implementation : Implementation) :
    (p.provide implementation).1.subscribers = p.subscribers := by
  rw [Provider.provide]
  split
  · rfl
  split
  · rfl
  split <;> rfl

/-- What holds at every point of a run in which the subscription is told of every singleton. -/
structure Hydrated (serviceId : JsString) (j : ℕ) (p : Provider) : Prop where
  mode : p.mode = .singleton
  replicated : Replicated ⟨p, fun _ => .cold serviceId⟩
  covered : ∀ s, p.subscribers[j]? = some s → Covered p s

variable {serviceId : JsString} {j : ℕ} {p : Provider}

theorem Hydrated.step (h : Hydrated serviceId j p) {e : Event} (he : e.WellFormed) (hydrates : p.Hydrates j e) :
    Hydrated serviceId j (p.step e) := by
  have hwf := h.replicated.wellFormed
  obtain ⟨us, hsteps⟩ := Provider.step_moves hwf h.replicated.drained he
  have hmode : (p.step e).mode = .singleton := (hsteps.moves.extends hwf.core).mode.trans h.mode
  refine ⟨hmode, h.replicated.provider he hydrates.1, fun s' hs' => ?_⟩
  cases hs : p.subscribers[j]? with
  | none =>
    have hwf' : (p.step e).WellFormed := .of_core (hsteps.moves.wellFormed hwf.core)
    exact (hsteps.opens hs hs').covered hwf' hmode
  | some s =>
    have hcovered := h.covered s hs
    by_cases hprovide : ∃ implementation, e = .provide implementation
    · obtain ⟨implementation, rfl⟩ := hprovide
      obtain rfl : s = s' := by
        change (p.provide implementation).1.subscribers[j]? = some s' at hs'
        rw [subscribers_provide, hs] at hs'
        exact Option.some.inj hs'
      exact fun ho => (hcovered ho).provide (hydrates.2 ⟨s, hs, ho⟩)
    · have hseen : ¬p.Unseen e := by
        intro hunseen
        cases e with
        | provide implementation => exact hprovide ⟨implementation, rfl⟩
        | _ => exact hunseen
      exact hsteps.covered hydrates.1 hseen hwf h.mode hs hs' hcovered

theorem Hydrated.run (h : Hydrated serviceId j p) {events : List Event} (he : ∀ e ∈ events, e.WellFormed)
    (hydrates : Provider.Along (Provider.Hydrates j) p events) : Hydrated serviceId j (p.run events) := by
  induction events generalizing p with
  | nil => exact h
  | cons e events ih =>
    obtain ⟨he, hes⟩ := List.forall_mem_cons.mp he
    exact ih (h.step he hydrates.1) hes hydrates.2

/-! ## Facades that hold all -/

namespace Consumer

variable {shape : List (JsString × MemberKind)} {c : Consumer} {view : View}

/-- The facade holds everything that the view shows. -/
def Holds (c : Consumer) (view : View) : Prop := ∀ m x, view none m = some x → c.facade.held m = some x

theorem facade_receive (c : Consumer) (u : Update Op) :
    (c.receive .singleton u).facade = (c.handleSingleton u).1.facade := by
  show ((c.handleSingleton u).1.report (c.handleSingleton u).2).facade = _
  cases (c.handleSingleton u).2 <;> rfl

/-- An update that fits is followed. -/
theorem Follows.holds (h : c.Follows .singleton shape view) (hc : c.Holds view) {u : Update Op}
    (hfits : view.Fits .singleton shape u) : (c.receive .singleton u).Holds (view.after u) := by
  obtain ⟨hdesc, haddr⟩ := h.described rfl
  intro m x hx
  rw [facade_receive]
  cases u with
  | unavailable => cases hx
  | replaced snapshot =>
    obtain ⟨-, hnone, hplain, hshape⟩ := hfits
    have hslots : ∀ name ∈ c.facade.slots.keys, (name, MemberKind.state) ∈ snapshot.shape := by
      intro name hname
      obtain ⟨slot, hslot⟩ := Table.exists_get_of_mem_keys hname
      have hmem := Table.mem_of_get (hdesc.ready name slot hslot).2
      exact (hshape _).mpr (hdesc.kinds _ hmem)
    obtain ⟨-, hinstalled, hok, -⟩ := Facade.install_spec hdesc.ready hplain hslots
    have hins := hinstalled (hok (hnone.trans haddr.symm) fun e he => hdesc.names e ((hshape e).mp he))
    rw [Consumer.handleSingleton, if_neg (by simp [hnone])]
    simp only [View.after, hnone, if_true] at hx
    rw [← hx]
    exact hins.held m
  | state address member sequence ops =>
    obtain rfl : address = none := hfits.1.mpr rfl
    have hle : ∀ m x, c.facade.held m = some x → view none m = some x := fun m x hx => h.le none m x hx
    obtain ⟨-, -, -, hheld, -⟩ := Facade.update_spec hdesc.ready member sequence ops
      fun n v hnv => hfits.2 n v (hle member (n, v) hnv)
    have hsame (m : JsString) : view none m = c.facade.held m := by
      cases hview : view none m with
      | some x => exact (hc m x hview).symm
      | none =>
        cases hfacade : c.facade.held m with
        | none => rfl
        | some x =>
          rw [hle m x hfacade] at hview
          cases hview
    rw [Consumer.handleSingleton]
    rw [hheld m, ← hsame m, ← hx]
    simp only [View.after, true_and]
  | spawned i => cases hfits.1
  | closed address => cases hfits

end Consumer

/-! ## The current singleton -/

/-- What the singleton has published of a member: nothing while there is none, or no state of that name. -/
def Provider.shown (p : Provider) (member : JsString) : Option (ℕ × Json) :=
  p.singleton.bind fun i => (i.members.get member).bind fun
    | .state id => p.states[id]?.map fun s => (s.sequence, s.publishedValue)
    | .method => none

theorem Hydrated.initial (serviceId : JsString) (locale : JsString → JsString → Bool) (j : ℕ) :
    Hydrated serviceId j (Provider.initial serviceId .singleton locale) where
  mode := rfl
  replicated := Replicated.initial serviceId .singleton locale
  covered s hs := by simp [Provider.initial] at hs

end Phi.Services
