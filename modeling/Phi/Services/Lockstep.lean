import Phi.Services.Moves
import Phi.Services.StateCodec

/-!
# The codec and the provider

The histories a provider sends are legal for the service state codec, with one exception: `provide`
tells the open subscriptions nothing. A subscription that saw the singleton withdrawn and is still open
when another one is provided has forgotten its states, and the first publication of the new singleton
names a state its codec does not know.

`history_roundTrips`: over every run in which no singleton is provided while the subscription is open,
what the subscription was sent comes back from the codec as it was.
-/

namespace Phi.Services

open Delta

/-! ## Runs -/

namespace Provider

/-- A run of events. -/
def run (p : Provider) (events : List Event) : Provider := events.foldl step p

/-- The condition holds at every step of a run. -/
def Along (C : Provider → Event → Prop) : Provider → List Event → Prop
  | _, [] => True
  | p, e :: events => C p e ∧ Along C (p.step e) events

/-- The subscription in place `j` is open. -/
def IsOpen (p : Provider) (j : ℕ) : Prop := ∃ s, p.subscribers[j]? = some s ∧ s.isOpen = true

theorem initial_wellFormed (serviceId : JsString) (mode : Mode) (locale : JsString → JsString → Bool) :
    (initial serviceId mode locale).WellFormed := by
  have hlive : (initial serviceId mode locale).liveInstances = [] := by
    cases mode <;> rfl
  refine ⟨?_, fun _ => rfl, fun _ => rfl, by simp [initial], List.nodup_nil, by simp [initial]⟩
  rw [hlive]
  exact ⟨by simp [initial], by simp [initial], by simp [initial], by simp, by simp, by simp, by simp⟩

end Provider

theorem Provider.Steps.drained {κ : Allowance} {p q : Provider} {us : List (Update Op)}
    (h : Steps κ p us q) : ∀ s ∈ q.subscribers, s.Drained := by
  intro s hs
  obtain ⟨j, hj⟩ := List.getElem?_of_mem hs
  cases hp : p.subscribers[j]? with
  | none => exact (h.opens hp hj).drained
  | some t =>
    obtain ⟨s', hs', hcont⟩ := h.continues hp
    rw [hj] at hs'
    rw [Option.some.inj hs']
    exact hcont.drained

/-! ## The states of the live instances -/

/-- The states of an instance, as announced by its snapshot. -/
def ProviderInstance.keys (i : ProviderInstance) : Announced :=
  i.members.filterMap fun e =>
    match e.2 with
    | .state _ => some (i.address, e.1)
    | .method => none

/-- The states of the live instances. -/
def Provider.liveKeys (p : Provider) : Announced := p.liveInstances.flatMap ProviderInstance.keys

theorem ProviderInstance.mem_keys {i : ProviderInstance} {k : Option Address × JsString} :
    k ∈ i.keys ↔ k.1 = i.address ∧ ∃ id, (k.2, Member.state id) ∈ i.members := by
  obtain ⟨address, member⟩ := k
  simp only [ProviderInstance.keys, List.mem_filterMap]
  constructor
  · rintro ⟨⟨name, m⟩, hmem, heq⟩
    cases m with
    | method => cases heq
    | state id =>
      obtain ⟨rfl, rfl⟩ := Prod.mk.inj (Option.some.inj heq)
      exact ⟨rfl, id, hmem⟩
  · rintro ⟨rfl, id, hmem⟩
    exact ⟨_, hmem, rfl⟩

theorem Provider.mem_liveKeys {p : Provider} {k : Option Address × JsString} :
    k ∈ p.liveKeys ↔ ∃ i ∈ p.liveInstances, k ∈ i.keys := List.mem_flatMap

theorem ProviderInstance.nodup_keys {i : ProviderInstance} (h : Table.Nodup i.members) :
    i.keys.Nodup := by
  -- the names in the keys are among the names of the members, in order
  have hsub : ∀ members : Table JsString Member, ((members.filterMap fun e =>
      match e.2 with
      | .state _ => some (i.address, e.1)
      | .method => none).map Prod.snd).Sublist members.keys := by
    intro members
    induction members with
    | nil => exact .slnil
    | cons e members ih =>
      obtain ⟨name, m⟩ := e
      cases m with
      | method => exact ih.cons _
      | state id => exact ih.cons_cons _
  exact List.Nodup.of_map Prod.snd ((hsub i.members).nodup h)

/-- The snapshot of a live instance announces its states. -/
theorem Provider.keys_snapshotInstance {p : Provider} {i : ProviderInstance}
    (h : ∀ name id, (name, Member.state id) ∈ i.members → id < p.states.length) :
    (p.snapshotInstance i).keys = i.keys := by
  rw [InstanceSnapshot.keys, Provider.snapshotInstance, memberKeys, ProviderInstance.keys,
    List.filterMap_map]
  refine List.filterMap_congr fun e he => ?_
  obtain ⟨name, m⟩ := e
  cases m with
  | method => rfl
  | state id =>
    have hget := List.getElem?_eq_getElem (h name id he)
    simp only [Function.comp_apply, Provider.snapshotMember, hget]

theorem Provider.valid_snapshotInstance (p : Provider) (i : ProviderInstance) :
    (p.snapshotInstance i).Valid := by
  intro m hm
  obtain ⟨⟨name, member⟩, -, rfl⟩ := List.mem_map.mp hm
  rw [Provider.snapshotMember]
  cases member with
  | method => trivial
  | state id =>
    simp only
    split
    · intro op hop
      rw [List.mem_singleton.mp hop]
      rfl
    · trivial

/-- The instances in the snapshot are the live ones. -/
theorem Provider.mem_sortedInstances {p : Provider} {i : ProviderInstance} :
    i ∈ p.sortedInstances ↔ i ∈ p.liveInstances := by
  rw [Provider.sortedInstances]
  split
  · exact Iff.rfl
  · next hmode =>
    rw [Provider.liveInstances_of_keyed hmode]
    exact ((List.mergeSort_perm _ _).map Prod.snd).mem_iff

theorem Provider.WellFormed.nodup_sorted {p : Provider} (h : p.WellFormed) :
    (p.sortedInstances.flatMap ProviderInstance.keys).Nodup := by
  rw [List.nodup_flatMap]
  refine ⟨fun i hi => ?_, ?_⟩
  · exact ProviderInstance.nodup_keys (h.wired.members i (Provider.mem_sortedInstances.mp hi))
  rw [Provider.sortedInstances]
  split
  · next hmode =>
    rw [Provider.liveInstances_of_singleton hmode]
    cases p.singleton with
    | none => exact .nil
    | some i => exact List.pairwise_singleton _ _
  · next hmode =>
    rw [List.pairwise_map]
    have hperm := List.mergeSort_perm p.instances fun left right => p.locale left.1 right.1
    have hnodup : (List.map Prod.fst (p.instances.mergeSort
        fun left right => p.locale left.1 right.1)).Nodup := (hperm.map Prod.fst).nodup_iff.mpr h.keys
    refine (List.pairwise_map.mp hnodup).imp_of_mem fun {e e'} he he' hne k hk hk' => hne ?_
    -- a shared state would give both instances one address, and so one key
    obtain ⟨g, haddr, -⟩ := h.address e.1 e.2 (hperm.mem_iff.mp he)
    obtain ⟨g', haddr', -⟩ := h.address e'.1 e'.2 (hperm.mem_iff.mp he')
    have heq := (ProviderInstance.mem_keys.mp hk).1.symm.trans (ProviderInstance.mem_keys.mp hk').1
    rw [haddr, haddr'] at heq
    exact (Address.mk.inj (Option.some.inj heq)).1

theorem Provider.WellFormed.bound {p : Provider} (h : p.WellFormed) {i : ProviderInstance}
    (hi : i ∈ p.liveInstances) :
    ∀ name id, (name, Member.state id) ∈ i.members → id < p.states.length := h.wired.bound i hi

/-- A snapshot announces the states of the live instances. -/
theorem Provider.WellFormed.keys_snapshot {p : Provider} (h : p.WellFormed) :
    p.snapshot.keys.Nodup ∧ (∀ k, k ∈ p.snapshot.keys ↔ k ∈ p.liveKeys) ∧
      ∀ i ∈ p.snapshot.instances, i.Valid := by
  have hkeys : p.snapshot.keys = p.sortedInstances.flatMap ProviderInstance.keys := by
    rw [SubscriptionSnapshot.keys, Provider.snapshot, List.flatMap_map]
    refine List.flatMap_congr fun i hi => ?_
    exact Provider.keys_snapshotInstance (h.bound (Provider.mem_sortedInstances.mp hi))
  refine ⟨?_, fun k => ?_, fun i hi => ?_⟩
  · rw [hkeys]
    exact h.nodup_sorted
  · simp only [hkeys, Provider.mem_liveKeys, List.mem_flatMap, Provider.mem_sortedInstances]
  · obtain ⟨i', -, rfl⟩ := List.mem_map.mp hi
    exact p.valid_snapshotInstance i'

/-! ## Moves are legal -/

/-- Exactly the states of the live instances are announced. -/
structure Told (p : Provider) (live : Announced) : Prop where
  nodup : live.Nodup
  mem : ∀ k, k ∈ live ↔ k ∈ p.liveKeys

/-- The updates of a publication leave what is announced. -/
theorem foldlM_after_served {live : Announced} {sequence : ℕ} {ops : List Op}
    {served : List SourceListener} (h : ∀ l ∈ served, (l.address, l.member) ∈ live) :
    (served.map (·.update sequence ops)).foldlM Announced.after live = some live := by
  induction served with
  | nil => rfl
  | cons l served ih =>
    simp only [List.forall_mem_cons] at h
    rw [List.map_cons, List.foldlM_cons, SourceListener.update, Announced.after, if_pos h.1]
    exact ih h.2

theorem Told.of_liveKeys {p q : Provider} {live : Announced} (h : Told p live)
    (heq : q.liveInstances = p.liveInstances) : Told q live :=
  ⟨h.nodup, fun k => by rw [h.mem, Provider.liveKeys, Provider.liveKeys, heq]⟩

theorem told_instance {q : Provider} {i : ProviderInstance} (hlive : q.liveInstances = [i])
    (hnodup : Table.Nodup i.members) : Told q i.keys :=
  ⟨ProviderInstance.nodup_keys hnodup, fun k => by simp [Provider.liveKeys, hlive]⟩

/-- A move that tells of what it does keeps announced what is live. -/
theorem Move.told {κ : Allowance} (hκ : ¬κ.unseen) {p q : Provider} {us : List (Update Op)}
    (h : Move κ p us q) (hp : p.WellFormed) {live : Announced} (htold : Told p live) :
    (∃ live', us.foldlM Announced.after live = some live' ∧ Told q live') ∧ ∀ u ∈ us, u.Valid := by
  have hq := h.wellFormed hp
  cases h with
  | create => exact ⟨⟨live, rfl, htold.of_liveKeys rfl⟩, by simp⟩
  | change => exact ⟨⟨live, rfl, htold.of_liveKeys rfl⟩, by simp⟩
  | generation => exact ⟨⟨live, rfl, htold.of_liveKeys rfl⟩, by simp⟩
  | dispose => exact ⟨⟨live, rfl, htold.of_liveKeys rfl⟩, by simp⟩
  | provide may => exact absurd may hκ
  | @publish id s ops here batch served rest listeners =>
    refine ⟨⟨live, foldlM_after_served fun l hl => ?_, htold.of_liveKeys rfl⟩, ?_⟩
    · -- a source listener is a member of a live instance
      have hmem : l ∈ s.sourceListeners := by
        rw [listeners]
        exact List.mem_append_left _ hl
      obtain ⟨i, hi, -, haddr, hmember⟩ := (hp.wired.listeners here l).mp hmem
      refine (htold.mem _).mpr (Provider.mem_liveKeys.mpr ⟨i, hi, ?_⟩)
      exact ProviderInstance.mem_keys.mpr ⟨haddr, id, hmember⟩
    · intro u hu
      obtain ⟨l, -, rfl⟩ := List.mem_map.mp hu
      have hsound := hp.wired.sound s (List.mem_of_getElem? here)
      obtain ⟨-, ⟨hnone, -⟩ | ⟨ops', hops', -, -, hvalid, -⟩⟩ := hsound.publish
      · rw [hnone] at batch
        cases batch
      · rw [hops'] at batch
        cases batch
        exact hvalid
  | @withdraw i here =>
    have hmode := hp.mode_of_singleton here
    refine ⟨⟨[], rfl, List.nodup_nil, fun k => ?_⟩, by simp [Update.Valid]⟩
    rw [Provider.liveKeys, Provider.liveInstances_of_singleton
      (p := { p.detach i with singleton := none }) hmode]
    rfl
  | @replace members mode accepts =>
    have hlive := Provider.live_replacedBy mode members
    have hkeys := Provider.keys_snapshotInstance (hq.bound (by rw [hlive]; exact List.mem_cons_self))
    have htold' := told_instance hlive accepts.nodup
    refine ⟨⟨_, ?_, htold'⟩, ?_⟩
    · have hnodup : ((p.replacedBy members).snapshotInstance
          (p.createInstance members none).2).keys.Nodup := by
        rw [show (p.createInstance members none).2 = ⟨p.nextInstance, none, members⟩ from rfl, hkeys]
        exact htold'.nodup
      rw [List.foldlM_cons, Announced.after, if_pos hnodup]
      exact congrArg some hkeys
    · intro u hu
      rw [List.mem_singleton.mp hu]
      exact Provider.valid_snapshotInstance _ _
  | @spawn key members mode absent accepts =>
    have hlive := Provider.live_spawned mode absent members
    have hkeys := Provider.keys_snapshotInstance (hq.bound (by
      rw [hlive]
      exact List.mem_append_right _ List.mem_cons_self))
    -- no live instance has the key, so none has the new address
    have hdisjoint : ∀ k ∈ live, ∀ k' ∈ ProviderInstance.keys
        ⟨p.nextInstance, some (p.nextAddress key), members⟩, k ≠ k' := by
      rintro k hk k' hk' rfl
      obtain ⟨i, hi, hki⟩ := Provider.mem_liveKeys.mp ((htold.mem k).mp hk)
      rw [Provider.liveInstances_of_keyed mode] at hi
      obtain ⟨⟨key', i'⟩, hmem, rfl⟩ := List.mem_map.mp hi
      obtain ⟨g, haddr, -⟩ := hp.address key' i' hmem
      have heq := (ProviderInstance.mem_keys.mp hki).1.symm.trans (ProviderInstance.mem_keys.mp hk').1
      rw [haddr] at heq
      have hkey : key' = key := (Address.mk.inj (Option.some.inj heq)).1
      rw [hkey] at hmem
      exact absent (Table.mem_keys_of_mem hmem)
    have hnodup := List.nodup_append.mpr ⟨htold.nodup, ProviderInstance.nodup_keys accepts.nodup,
      hdisjoint⟩
    refine ⟨⟨_, ?_, hnodup, fun k => ?_⟩, ?_⟩
    · rw [List.foldlM_cons, Announced.after, hkeys, if_pos hnodup]
      rfl
    · rw [List.mem_append, htold.mem, Provider.liveKeys, Provider.liveKeys, hlive,
        List.flatMap_append, List.mem_append]
      simp
    · intro u hu
      rw [List.mem_singleton.mp hu]
      exact Provider.valid_snapshotInstance _ _
  | @close address i here is =>
    refine ⟨⟨_, rfl, htold.nodup.filter _, fun k => ?_⟩, by simp [Update.Valid]⟩
    simp only [List.mem_filter, htold.mem, Provider.mem_liveKeys, decide_eq_true_eq,
      hp.mem_live_closed here is]
    constructor
    · rintro ⟨⟨j, hj, hk⟩, hne⟩
      refine ⟨j, ⟨hj, ?_⟩, hk⟩
      rw [← (ProviderInstance.mem_keys.mp hk).1]
      exact hne
    · rintro ⟨j, ⟨hj, hne⟩, hk⟩
      refine ⟨⟨j, hj, hk⟩, ?_⟩
      rw [(ProviderInstance.mem_keys.mp hk).1]
      exact hne

theorem Moves.told {κ : Allowance} (hκ : ¬κ.unseen) {p q : Provider} {us : List (Update Op)}
    (h : Moves κ p us q) (hp : p.WellFormed) {live : Announced} (htold : Told p live) :
    (∃ live', us.foldlM Announced.after live = some live' ∧ Told q live') ∧ ∀ u ∈ us, u.Valid := by
  induction h generalizing live with
  | refl => exact ⟨⟨live, rfl, htold⟩, by simp⟩
  | head move _ ih =>
    obtain ⟨⟨live₁, hafter₁, htold₁⟩, hvalid₁⟩ := move.told hκ hp htold
    obtain ⟨⟨live₂, hafter₂, htold₂⟩, hvalid₂⟩ := ih (move.wellFormed hp) htold₁
    refine ⟨⟨live₂, ?_, htold₂⟩, fun u hu => (List.mem_append.mp hu).elim (hvalid₁ u) (hvalid₂ u)⟩
    rw [List.foldlM_append, hafter₁]
    exact hafter₂

/-! ## Histories are legal -/

/-- What the subscription was sent is legal, and tells an open one of the live states. -/
structure Followed (p : Provider) (s : Subscriber) : Prop where
  legal : Legal s.snapshot s.history
  told : s.isOpen = true → ∃ live, s.history.foldlM Announced.after s.snapshot.keys = some live ∧
    Told p live

/-- A history cut short is legal. -/
theorem Legal.prefix_of {s : SubscriptionSnapshot Op} {us vs : List (Update Op)} (h : Legal s vs)
    (hpre : us <+: vs) : Legal s us := by
  obtain ⟨rest, rfl⟩ := hpre
  refine ⟨h.nodup, ?_, h.snapshotValid, fun u hu => h.updatesValid u (List.mem_append_left _ hu)⟩
  obtain ⟨live, hfits⟩ := h.fits
  rw [List.foldlM_append] at hfits
  obtain ⟨live', hlive', -⟩ := Option.bind_eq_some_iff.mp hfits
  exact ⟨live', hlive'⟩

theorem Provider.Opens.followed {q : Provider} (hq : q.WellFormed) {s : Subscriber}
    (h : q.Opens s) : Followed q s := by
  obtain ⟨hnodup, hmem, hvalid⟩ := hq.keys_snapshot
  have hhist := h.history
  rw [← h.snapshot] at hnodup hmem hvalid
  refine ⟨⟨hnodup, ⟨_, by rw [hhist]; rfl⟩, hvalid, by simp [hhist]⟩, fun _ => ⟨_, ?_, hnodup, hmem⟩⟩
  rw [hhist]
  rfl

theorem Provider.Steps.followed {κ : Allowance} {p q : Provider} {us : List (Update Op)}
    (h : Steps κ p us q) (hp : p.WellFormed) {j : ℕ} {s : Subscriber} (hs : p.subscribers[j]? = some s)
    (hfollowed : Followed p s) (hκ : s.isOpen = true → ¬κ.unseen) :
    ∀ s', q.subscribers[j]? = some s' → Followed q s' := by
  intro s' hs'
  obtain ⟨s'', hs'', hcont⟩ := h.continues hs
  obtain rfl : s' = s'' := Option.some.inj (hs'.symm.trans hs'')
  cases hopen : s.isOpen with
  | false =>
    have hpre := hcont.history
    rw [hopen] at hpre
    refine ⟨?_, fun ho => ?_⟩
    · rw [hcont.snapshot]
      exact hfollowed.legal.prefix_of hpre
    · rw [(hcont.opened ho).1] at hopen
      cases hopen
  | true =>
    obtain ⟨live, hlive, htold⟩ := hfollowed.told hopen
    obtain ⟨⟨live', hafter, htold'⟩, hvalid⟩ := h.moves.told (hκ hopen) hp.core
      (show Told p.core live from ⟨htold.nodup, htold.mem⟩)
    have hfold : (s.history ++ us).foldlM Announced.after s.snapshot.keys = some live' := by
      rw [List.foldlM_append, hlive]
      exact hafter
    have hall : Legal s.snapshot (s.history ++ us) := by
      refine ⟨hfollowed.legal.nodup, ⟨live', hfold⟩, hfollowed.legal.snapshotValid, fun u hu => ?_⟩
      exact (List.mem_append.mp hu).elim (hfollowed.legal.updatesValid u) (hvalid u)
    have hpre := hcont.history
    rw [hopen] at hpre
    refine ⟨?_, fun ho => ⟨live', ?_, htold'.nodup, htold'.mem⟩⟩
    · rw [hcont.snapshot]
      exact hall.prefix_of hpre
    · rw [hcont.snapshot, (hcont.opened ho).2]
      exact hfold

/-- What holds at every point of a run in which the subscription is told of every singleton. -/
structure Lockstep (j : ℕ) (p : Provider) : Prop where
  wellFormed : p.WellFormed
  drained : ∀ s ∈ p.subscribers, s.Drained
  followed : ∀ s, p.subscribers[j]? = some s → Followed p s

/-- No singleton is provided while the subscription is open. -/
def Provider.Tells (j : ℕ) (p : Provider) (e : Event) : Prop := p.IsOpen j → ¬p.Unseen e

theorem Lockstep.step {j : ℕ} {p : Provider} (h : Lockstep j p) {e : Event} (he : e.WellFormed)
    (htells : p.Tells j e) : Lockstep j (p.step e) := by
  obtain ⟨us, hsteps⟩ := Provider.step_moves h.wellFormed h.drained he
  have hwf : (p.step e).WellFormed := .of_core (hsteps.moves.wellFormed h.wellFormed.core)
  refine ⟨hwf, hsteps.drained, fun s' hs' => ?_⟩
  cases hs : p.subscribers[j]? with
  | none => exact (hsteps.opens hs hs').followed hwf
  | some s =>
    refine hsteps.followed h.wellFormed hs (h.followed s hs) (fun ho => ?_) s' hs'
    exact htells ⟨s, hs, ho⟩

theorem Lockstep.run {j : ℕ} {p : Provider} (h : Lockstep j p) {events : List Event}
    (he : ∀ e ∈ events, e.WellFormed) (htells : Provider.Along (Provider.Tells j) p events) :
    Lockstep j (p.run events) := by
  induction events generalizing p with
  | nil => exact h
  | cons e events ih =>
    simp only [List.forall_mem_cons] at he
    exact ih (h.step he.1 htells.1) he.2 htells.2

/-- **Codec lockstep.** In every run in which no singleton is provided while the subscription is open,
the codec gives back what the subscription has been sent. -/
theorem history_roundTrips (serviceId : JsString) (mode : Mode) (locale : JsString → JsString → Bool)
    (events : List Event) (hevents : ∀ e ∈ events, e.WellFormed) (j : ℕ)
    (htells : Provider.Along (Provider.Tells j) (Provider.initial serviceId mode locale) events)
    (s : Subscriber)
    (hs : ((Provider.initial serviceId mode locale).run events).subscribers[j]? = some s) :
    ∃ wire, encodeHistory s.snapshot s.delivered = .ok wire ∧
      decodeHistory wire.1 wire.2 = .ok (s.snapshot, s.delivered) := by
  have hinit : Lockstep j (Provider.initial serviceId mode locale) :=
    ⟨Provider.initial_wellFormed serviceId mode locale, by simp [Provider.initial],
      by simp [Provider.initial]⟩
  have hlegal := ((hinit.run hevents htells).followed s hs).legal
  exact decodeHistory_encodeHistory (hlegal.prefix_of (List.prefix_append _ _))

/-! ### A run told of everything, and one that is not -/

/-- No listener throws. -/
def noFailures : Failures := fun _ _ => false

/-- An object with one state. -/
def oneState (id : ℕ) : Implementation :=
  .object [(JsString.ofAscii "n", .state id)] (List.nodup_singleton _)

/-- A subscription through a publication, a withdrawal and a replacement that publishes in turn. -/
def replacedEvents : List Event :=
  let set := Mutation.assign (JsString.ofAscii "k") .null
  [.create (.object []), .create (.object []), .provide (oneState 0), .subscribe .singleton noFailures,
    .mutate 0 [] set, .publish 0 noFailures, .activate 0 noFailures, .withdraw noFailures,
    .replace (oneState 1) noFailures, .mutate 1 [] set, .publish 1 noFailures]

/-- The same with `provide` in place of `replace`. -/
def providedEvents : List Event :=
  let set := Mutation.assign (JsString.ofAscii "k") .null
  [.create (.object []), .create (.object []), .provide (oneState 0), .subscribe .singleton noFailures,
    .activate 0 noFailures, .withdraw noFailures, .provide (oneState 1), .mutate 1 [] set,
    .publish 1 noFailures]

/-- A provider of a singleton service named `s`. -/
def sampleProvider : Provider := .initial (JsString.ofAscii "s") .singleton fun _ _ => true

theorem replacedEvents_wellFormed : ∀ e ∈ replacedEvents, e.WellFormed := by
  have hobj : (Json.object []).WellFormed := .object List.nodup_nil (by simp)
  simp only [replacedEvents, List.forall_mem_cons, Event.WellFormed, Mutation.WellFormed,
    List.not_mem_nil, false_imp_iff, implies_true, and_true, true_and]
  exact ⟨hobj, hobj, .null, .null⟩

theorem providedEvents_wellFormed : ∀ e ∈ providedEvents, e.WellFormed := by
  have hobj : (Json.object []).WellFormed := .object List.nodup_nil (by simp)
  simp only [providedEvents, List.forall_mem_cons, Event.WellFormed, Mutation.WellFormed,
    List.not_mem_nil, false_imp_iff, implies_true, and_true, true_and]
  exact ⟨hobj, hobj, .null⟩

/-- The message of an error thrown as such. -/
def thrown {α : Type} : Except ServiceError α → Option JsString
  | .error (.error message) => some message
  | _ => none

theorem eq_error_of_thrown {α : Type} {x : Except ServiceError α} {message : JsString}
    (h : thrown x = some message) : x = .error (.error message) := by
  cases x with
  | ok a => cases h
  | error e =>
    cases e with
    | error m => rw [Option.some.inj h]
    | remote _ _ | typeError _ | gap | listeners _ | delta _ => cases h

theorem exists_of_elim {α : Type} {x : Option α} {f : α → Bool} (h : x.elim false f = true) :
    ∃ a, x = some a ∧ f a = true := by
  cases x with
  | none => cases h
  | some a => exact ⟨a, rfl, h⟩

theorem replacedEvents_tell : Provider.Along (Provider.Tells 0) sampleProvider replacedEvents := by
  simp only [replacedEvents, Provider.Along, Provider.Tells, Provider.Unseen, not_false_eq_true,
    implies_true, and_true, true_and]
  -- the only `provide` comes before the subscription
  rintro ⟨s, hs, -⟩
  cases hs

theorem history_roundTrips_replaced :
    ∃ s, (sampleProvider.run replacedEvents).subscribers[0]? = some s ∧ s.delivered.length = 4 ∧
      ∃ wire, encodeHistory s.snapshot s.delivered = .ok wire ∧
        decodeHistory wire.1 wire.2 = .ok (s.snapshot, s.delivered) := by
  obtain ⟨s, hs, hlen⟩ := exists_of_elim (show (sampleProvider.run replacedEvents).subscribers[0]?.elim
    false (fun s => s.delivered.length == 4) = true by decide +kernel)
  exact ⟨s, hs, by simpa using hlen, history_roundTrips _ _ _ replacedEvents replacedEvents_wellFormed 0
    replacedEvents_tell s hs⟩

/-- After a withdrawal, a singleton that is provided again publishes under a state the encoder does not
know: encoding the history of the subscription throws. -/
theorem encodeHistory_throws_provided : (∀ e ∈ providedEvents, e.WellFormed) ∧
    ∃ s, (sampleProvider.run providedEvents).subscribers[0]? = some s ∧ s.isOpen = true ∧
      encodeHistory s.snapshot s.delivered
        = .error (.error (JsString.ofAscii "Unknown service state n")) := by
  refine ⟨providedEvents_wellFormed, ?_⟩
  obtain ⟨s, hs, h⟩ := exists_of_elim (show (sampleProvider.run providedEvents).subscribers[0]?.elim
    false (fun s => s.isOpen && decide (thrown (encodeHistory s.snapshot s.delivered)
      = some (JsString.ofAscii "Unknown service state n"))) = true by decide +kernel)
  obtain ⟨hopen, hthrown⟩ := Bool.and_eq_true_iff.mp h
  exact ⟨s, hs, hopen, eq_error_of_thrown (of_decide_eq_true hthrown)⟩

end Phi.Services
