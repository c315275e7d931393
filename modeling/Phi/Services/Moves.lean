import Phi.Services.Wiring

/-!
# What a provider can do

Seen from its subscriptions, a provider makes a few kinds of move (`Move`), each with the updates it
emits. `step_moves` takes every event apart into moves, and says what becomes of each subscription: it
continues with exactly what was emitted, or is closed. Whatever is to hold over all runs needs to be
shown for the moves only.
-/

namespace Phi.Services

open Delta

/-! ## Well-formed providers -/

/-- What holds of a provider at every point of a run. -/
structure Provider.WellFormed (p : Provider) : Prop where
  wired : Wired p.states p.liveInstances p.nextInstance
  single : p.mode = .singleton → p.instances = []
  keyed : p.mode = .keyed → p.singleton = none
  noAddress : ∀ i, p.singleton = some i → i.address = none
  keys : p.instances.Nodup
  address : ∀ key i, (key, i) ∈ p.instances → ∃ generation, i.address = some ⟨key, generation⟩ ∧
    generation ≤ (p.generations.get key).getD 0

/-- Values a program can put into a state. -/
def Event.WellFormed : Event → Prop
  | .create initial => initial.WellFormed
  | .mutate _ _ m => m.WellFormed
  | _ => True

/-- The provider without its subscriptions. -/
def Provider.core (p : Provider) : Provider := { p with subscribers := [] }

theorem Provider.WellFormed.core {p : Provider} (h : p.WellFormed) : p.core.WellFormed :=
  ⟨h.wired, h.single, h.keyed, h.noAddress, h.keys, h.address⟩

theorem Provider.WellFormed.of_core {p : Provider} (h : p.core.WellFormed) : p.WellFormed :=
  ⟨h.wired, h.single, h.keyed, h.noAddress, h.keys, h.address⟩

/-! ## Moves -/

/-- The update a source listener emits for a batch. -/
def SourceListener.update (sequence : ℕ) (ops : List Op) (l : SourceListener) : Update Op :=
  .state l.address l.member sequence ops

namespace Provider

/-- The provider after `provide` has accepted an implementation. -/
def provided (p : Provider) (members : Table JsString Member) : Provider :=
  { (p.createInstance members none).1 with
    singleton := some (p.createInstance members none).2
    singletonShape := some (serviceMemberShape members) }

/-- The provider after `replace` has accepted an implementation. -/
def replacedBy (p : Provider) (members : Table JsString Member) : Provider :=
  { p.singleton.elim (p.createInstance members none).1 (p.createInstance members none).1.detach with
    singleton := some (p.createInstance members none).2
    singletonShape := some (serviceMemberShape members) }

/-- The address of the next instance under a key. -/
def nextAddress (p : Provider) (key : JsString) : Address := ⟨key, (p.generations.get key).getD 0 + 1⟩

/-- The provider after `spawn` has accepted an implementation. -/
def spawned (p : Provider) (key : JsString) (members : Table JsString Member) : Provider :=
  let q := { p with generations := p.generations.set key (p.nextAddress key).generation }
  let r := (q.createInstance members (some (p.nextAddress key))).1
  { r with instances :=
      r.instances.set key (q.createInstance members (some (p.nextAddress key))).2 }

end Provider

/-- The members of an implementation that `classifyRemoteServiceImplementation` accepts. -/
structure Provider.Accepts (p : Provider) (members : Table JsString Member) : Prop where
  nodup : members.Nodup
  bound : ∀ name id, (name, Member.state id) ∈ members → id < p.states.length

/-- What the moves of an event may be like: whether its publications serve all source listeners of their
state, and whether it may bring in a singleton, which no update tells of. -/
structure Allowance where
  full : Prop
  unseen : Prop

/-- One move of a provider, with the updates it emits. A publication serves the first listeners of its
state, up to one whose call throws. -/
inductive Move (κ : Allowance) : Provider → List (Update Op) → Provider → Prop
  | create {p : Provider} {s : MutableReplicatedState} (sound : s.Sound)
      (noListeners : s.sourceListeners = []) : Move κ p [] { p with states := p.states ++ [s] }
  | change {p : Provider} {id : ℕ} {s s' : MutableReplicatedState} (here : p.states[id]? = some s)
      (sound : s'.Sound) (listeners : s'.sourceListeners = s.sourceListeners)
      (sequence : s'.sequence = s.sequence) (value : s'.publishedValue = s.publishedValue)
      (published : s'.published = s.published) :
      Move κ p [] { p with states := p.states.set id s' }
  | publish {p : Provider} {id : ℕ} {s : MutableReplicatedState} {ops : List Op}
      (here : p.states[id]? = some s) (batch : s.publish.2 = .ok (some ops))
      {served rest : List SourceListener} (listeners : s.sourceListeners = served ++ rest)
      (all : κ.full → rest = []) :
      Move κ p (served.map (·.update s.publish.1.sequence ops))
        { p with states := p.states.set id s.publish.1 }
  | provide {p : Provider} {members : Table JsString Member} (may : κ.unseen)
      (mode : p.mode = .singleton) (none : p.singleton = none) (accepts : p.Accepts members)
      (shape : p.assertSingletonShape (serviceMemberShape members) = .ok ()) :
      Move κ p [] (p.provided members)
  | withdraw {p : Provider} {i : ProviderInstance} (here : p.singleton = some i) :
      Move κ p [.unavailable] { p.detach i with singleton := none }
  | replace {p : Provider} {members : Table JsString Member} (mode : p.mode = .singleton)
      (accepts : p.Accepts members)
      (shape : p.assertSingletonShape (serviceMemberShape members) = .ok ()) :
      Move κ p [.replaced ((p.replacedBy members).snapshotInstance
        (p.createInstance members none).2)] (p.replacedBy members)
  | generation {p : Provider} {key : JsString} (mode : p.mode = .keyed) :
      Move κ p [] { p with generations := p.generations.set key (p.nextAddress key).generation }
  | spawn {p : Provider} {key : JsString} {members : Table JsString Member} (mode : p.mode = .keyed)
      (absent : key ∉ p.instances.keys) (accepts : p.Accepts members) :
      Move κ p [.spawned ((p.spawned key members).snapshotInstance
        ⟨p.nextInstance, some (p.nextAddress key), members⟩)] (p.spawned key members)
  | close {p : Provider} {address : Address} {i : ProviderInstance}
      (here : p.instances.get address.key = some i) (is : i.address = some address) :
      Move κ p [.closed address] { p.detach i with instances := p.instances.erase address.key }
  | dispose {p : Provider} : Move κ p [] { p with disposed := true }

/-- Moves one after the other, with all they emit. -/
inductive Moves (κ : Allowance) : Provider → List (Update Op) → Provider → Prop
  | refl (p : Provider) : Moves κ p [] p
  | head {p q r : Provider} {us vs : List (Update Op)} (move : Move κ p us q) (rest : Moves κ q vs r) :
      Moves κ p (us ++ vs) r

theorem Move.moves {κ : Allowance} {p q : Provider} {us : List (Update Op)} (h : Move κ p us q) : Moves κ p us q := by
  simpa using Moves.head h (Moves.refl q)

theorem Moves.trans {κ : Allowance} {p q r : Provider} {us vs : List (Update Op)} (h : Moves κ p us q)
    (h' : Moves κ q vs r) : Moves κ p (us ++ vs) r := by
  induction h with
  | refl => exact h'
  | head move _ ih =>
    rw [List.append_assoc]
    exact .head move (ih h')

/-! ### Moves keep providers well formed -/

theorem Provider.liveInstances_of_singleton {p : Provider} (h : p.mode = .singleton) :
    p.liveInstances = p.singleton.toList := by rw [Provider.liveInstances, h]

theorem Provider.liveInstances_of_keyed {p : Provider} (h : p.mode = .keyed) :
    p.liveInstances = p.instances.map Prod.snd := by rw [Provider.liveInstances, h]

/-- An instance of a singleton service is the singleton. -/
theorem Provider.WellFormed.mode_of_singleton {p : Provider} (h : p.WellFormed)
    {i : ProviderInstance} (hi : p.singleton = some i) : p.mode = .singleton := by
  cases hmode : p.mode with
  | singleton => rfl
  | keyed =>
    rw [h.keyed hmode] at hi
    cases hi

theorem Provider.WellFormed.mode_of_instance {p : Provider} (h : p.WellFormed)
    {e : JsString × ProviderInstance} (hi : e ∈ p.instances) : p.mode = .keyed := by
  cases hmode : p.mode with
  | keyed => rfl
  | singleton =>
    rw [h.single hmode] at hi
    cases hi

theorem Provider.WellFormed.provided {p : Provider} (h : p.WellFormed)
    {members : Table JsString Member} (hmode : p.mode = .singleton) (hnone : p.singleton = none)
    (hacc : p.Accepts members) : (p.provided members).WellFormed := by
  have hlive : p.liveInstances = [] := by rw [Provider.liveInstances_of_singleton hmode, hnone]; rfl
  have hwired := h.wired.attach hacc.nodup hacc.bound none
  rw [hlive] at hwired
  refine ⟨?_, h.single, fun hk => ?_, ?_, h.keys, h.address⟩
  · rw [Provider.liveInstances_of_singleton (p := p.provided members) hmode]
    exact hwired
  · have hkeyed : p.mode = .keyed := hk
    rw [hmode] at hkeyed
    cases hkeyed
  · rintro i hi
    obtain rfl := Option.some.inj hi
    rfl

theorem Provider.WellFormed.withdrawn {p : Provider} (h : p.WellFormed) {i : ProviderInstance}
    (hi : p.singleton = some i) : { p.detach i with singleton := none }.WellFormed := by
  have hmode := h.mode_of_singleton hi
  refine ⟨?_, h.single, fun _ => rfl, by simp, h.keys, h.address⟩
  have hwired := h.wired.detach i
  rw [Provider.liveInstances_of_singleton hmode, hi] at hwired
  rw [Provider.liveInstances_of_singleton (p := { p.detach i with singleton := none }) hmode]
  refine hwired.congr fun j => ?_
  simp

theorem Provider.mode_replacedBy (p : Provider) (members : Table JsString Member) :
    (p.replacedBy members).mode = p.mode := by
  rw [Provider.replacedBy]
  cases p.singleton <;> rfl

theorem Provider.WellFormed.replacedBy {p : Provider} (h : p.WellFormed)
    {members : Table JsString Member} (hmode : p.mode = .singleton) (hacc : p.Accepts members) :
    (p.replacedBy members).WellFormed := by
  have hwired := h.wired.attach hacc.nodup hacc.bound none
  rw [Provider.liveInstances_of_singleton hmode] at hwired
  have hmode' := (p.mode_replacedBy members).trans hmode
  have hinst : (p.replacedBy members).instances = [] := by
    rw [Provider.replacedBy]
    cases p.singleton <;> exact h.single hmode
  refine ⟨?_, fun _ => hinst, fun hk => ?_, ?_, ?_, ?_⟩
  · rw [Provider.liveInstances_of_singleton hmode']
    cases hs : p.singleton with
    | none =>
      rw [hs] at hwired
      rw [Provider.replacedBy, hs]
      exact hwired
    | some previous =>
      rw [hs] at hwired
      rw [Provider.replacedBy, hs]
      have hlt : previous.id < p.nextInstance := by
        refine h.wired.fresh previous ?_
        rw [Provider.liveInstances_of_singleton hmode, hs]
        simp
      refine (hwired.detach previous).congr fun j => ?_
      simp only [Provider.createInstance, Option.toList_some, ne_eq,
        decide_not, List.singleton_append, List.mem_filter, List.mem_cons, List.not_mem_nil, or_false,
        Bool.not_eq_eq_eq_not, Bool.not_true, decide_eq_false_iff_not]
      constructor
      · rintro rfl
        exact ⟨.inr rfl, Nat.ne_of_gt hlt⟩
      · rintro ⟨rfl | rfl, hne⟩
        · exact absurd rfl hne
        · rfl
  · rw [hmode'] at hk
    cases hk
  · rintro i hi
    obtain rfl := Option.some.inj hi
    rfl
  · rw [hinst]
    exact List.nodup_nil
  · rw [hinst]
    simp

theorem Provider.WellFormed.spawned {p : Provider} (h : p.WellFormed) {key : JsString}
    {members : Table JsString Member} (hmode : p.mode = .keyed) (habsent : key ∉ p.instances.keys)
    (hacc : p.Accepts members) : (p.spawned key members).WellFormed := by
  have hwired := h.wired.attach hacc.nodup hacc.bound (some (p.nextAddress key))
  have hset : (p.spawned key members).instances
      = p.instances ++ [(key, ⟨p.nextInstance, some (p.nextAddress key), members⟩)] :=
    Table.set_of_not_mem habsent _
  refine ⟨?_, fun hs => ?_, fun _ => h.keyed hmode, h.noAddress, ?_, ?_⟩
  · rw [Provider.liveInstances_of_keyed (p := p.spawned key members) hmode, hset, List.map_append]
    rw [Provider.liveInstances_of_keyed hmode] at hwired
    exact hwired
  · have hsingle : p.mode = .singleton := hs
    rw [hmode] at hsingle
    cases hsingle
  · exact h.keys.set key _
  · intro key' i hmem
    rw [hset] at hmem
    have hgen : (p.spawned key members).generations
        = p.generations.set key (p.nextAddress key).generation := rfl
    rw [hgen, Table.get_set]
    rcases List.mem_append.mp hmem with hmem | hmem
    · obtain ⟨generation, haddr, hle⟩ := h.address key' i hmem
      refine ⟨generation, haddr, ?_⟩
      split
      · next heq =>
        rw [heq] at habsent
        exact absurd (Table.mem_keys_of_mem hmem) habsent
      · exact hle
    · obtain ⟨rfl, rfl⟩ := Prod.mk.inj (List.mem_singleton.mp hmem)
      exact ⟨_, rfl, by simp [Provider.nextAddress]⟩

theorem Provider.WellFormed.closed {p : Provider} (h : p.WellFormed) {address : Address}
    {i : ProviderInstance} (hi : p.instances.get address.key = some i)
    (haddr : i.address = some address) :
    { p.detach i with instances := p.instances.erase address.key }.WellFormed := by
  have hmem := Table.mem_of_get hi
  have hmode := h.mode_of_instance hmem
  refine ⟨?_, fun hs => ?_, h.keyed, h.noAddress, h.keys.erase _, ?_⟩
  · have hwired := h.wired.detach i
    rw [Provider.liveInstances_of_keyed
      (p := { p.detach i with instances := p.instances.erase address.key }) hmode]
    rw [Provider.liveInstances_of_keyed hmode] at hwired
    refine hwired.congr fun j => ?_
    -- an instance under another key is another instance
    simp only [Table.erase, List.mem_map, List.mem_filter, Prod.exists, exists_eq_right,
      decide_eq_true_eq, ne_eq]
    constructor
    · rintro ⟨key, hj, hne⟩
      refine ⟨⟨key, hj⟩, fun hid => hne ?_⟩
      have heq : j = i := by
        refine h.wired.distinct j ?_ i ?_ hid <;> rw [Provider.liveInstances_of_keyed hmode]
        · exact List.mem_map_of_mem hj
        · exact List.mem_map_of_mem hmem
      obtain ⟨generation, hja, -⟩ := h.address key j hj
      rw [heq, haddr] at hja
      rw [Option.some.inj hja]
    · rintro ⟨⟨key, hj⟩, hid⟩
      refine ⟨key, hj, fun hkey => hid ?_⟩
      have hget := Table.get_of_mem h.keys hj
      rw [hkey, hi] at hget
      rw [Option.some.inj hget]
  · have hsingle : p.mode = .singleton := hs
    rw [hmode] at hsingle
    cases hsingle
  · intro key j hj
    exact h.address key j (List.mem_of_mem_filter hj)

/-- The live instances after a spawn. -/
theorem Provider.live_spawned {p : Provider} {key : JsString} (hmode : p.mode = .keyed)
    (habsent : key ∉ p.instances.keys) (members : Table JsString Member) :
    (p.spawned key members).liveInstances
      = p.liveInstances ++ [⟨p.nextInstance, some (p.nextAddress key), members⟩] := by
  rw [Provider.liveInstances_of_keyed hmode,
    Provider.liveInstances_of_keyed (p := p.spawned key members) hmode]
  have hset : (p.spawned key members).instances
      = p.instances ++ [(key, ⟨p.nextInstance, some (p.nextAddress key), members⟩)] :=
    Table.set_of_not_mem habsent _
  rw [hset, List.map_append]
  rfl

theorem Provider.live_replacedBy {p : Provider} (hmode : p.mode = .singleton)
    (members : Table JsString Member) :
    (p.replacedBy members).liveInstances = [⟨p.nextInstance, none, members⟩] :=
  Provider.liveInstances_of_singleton ((p.mode_replacedBy members).trans hmode)

/-- What is live after a closure was live under another address. -/
theorem Provider.WellFormed.mem_live_closed {p : Provider} (h : p.WellFormed) {address : Address}
    {i : ProviderInstance} (here : p.instances.get address.key = some i)
    (is : i.address = some address) {j : ProviderInstance} :
    j ∈ { p.detach i with instances := p.instances.erase address.key }.liveInstances ↔
      j ∈ p.liveInstances ∧ j.address ≠ some address := by
  have hmode := h.mode_of_instance (Table.mem_of_get here)
  rw [Provider.liveInstances_of_keyed hmode, Provider.liveInstances_of_keyed
    (p := { p.detach i with instances := p.instances.erase address.key }) hmode]
  simp only [Table.erase, List.mem_map, List.mem_filter, decide_eq_true_eq]
  constructor
  · rintro ⟨⟨key, j'⟩, ⟨hj, hne⟩, rfl⟩
    refine ⟨⟨(key, j'), hj, rfl⟩, fun heq => hne ?_⟩
    obtain ⟨g, haddr, -⟩ := h.address key j' hj
    rw [haddr] at heq
    exact congrArg Address.key (Option.some.inj heq)
  · rintro ⟨⟨⟨key, j'⟩, hj, rfl⟩, hne⟩
    refine ⟨(key, j'), ⟨hj, fun heq => hne ?_⟩, rfl⟩
    have hget := Table.get_of_mem h.keys hj
    rw [show key = address.key from heq, here] at hget
    rw [← Option.some.inj hget]
    exact is

theorem Move.wellFormed {κ : Allowance} {p q : Provider} {us : List (Update Op)} (h : Move κ p us q)
    (hp : p.WellFormed) : q.WellFormed := by
  cases h with
  | create sound noListeners =>
    exact ⟨hp.wired.push sound noListeners, hp.single, hp.keyed, hp.noAddress, hp.keys, hp.address⟩
  | change here sound listeners =>
    exact ⟨hp.wired.set here sound listeners, hp.single, hp.keyed, hp.noAddress, hp.keys, hp.address⟩
  | @publish _ s _ here batch served rest =>
    have hsound := (hp.wired.sound s (List.mem_of_getElem? here)).publish.1
    exact ⟨hp.wired.set here hsound (by simp), hp.single, hp.keyed, hp.noAddress, hp.keys, hp.address⟩
  | provide _ mode none accepts => exact hp.provided mode none accepts
  | withdraw here => exact hp.withdrawn here
  | replace mode accepts => exact hp.replacedBy mode accepts
  | @generation key mode =>
    refine ⟨hp.wired, hp.single, hp.keyed, hp.noAddress, hp.keys, ?_⟩
    intro key' i hi
    obtain ⟨generation, haddr, hle⟩ := hp.address key' i hi
    refine ⟨generation, haddr, ?_⟩
    simp only [Table.get_set]
    split
    · next heq =>
      rw [← heq] at hle
      simp only [Provider.nextAddress, Option.getD_some]
      omega
    · exact hle
  | spawn mode absent accepts => exact hp.spawned mode absent accepts
  | close here is => exact hp.closed here is
  | dispose => exact ⟨hp.wired, hp.single, hp.keyed, hp.noAddress, hp.keys, hp.address⟩

theorem Moves.wellFormed {κ : Allowance} {p q : Provider} {us : List (Update Op)} (h : Moves κ p us q)
    (hp : p.WellFormed) : q.WellFormed := by
  induction h with
  | refl => exact hp
  | head move _ ih => exact ih (move.wellFormed hp)

/-! ## Subscriptions -/

namespace Subscriber

/-- Nothing is buffered for an active subscription. -/
def Drained (s : Subscriber) : Prop := s.active = true → s.buffer = []

/-- From `s` to `s'` the subscription has been sent `us`, unless it has been closed on the way. -/
structure Continues (us : List (Update Op)) (s s' : Subscriber) : Prop where
  snapshot : s'.snapshot = s.snapshot
  opened : s'.isOpen = true → s.isOpen = true ∧ s'.history = s.history ++ us
  history : s'.history <+: if s.isOpen then s.history ++ us else s.history
  delivered : s.delivered <+: s'.delivered
  drained : s'.Drained

/-- Updates of `#emit` for one subscription, one after the other. -/
def pushAll (us : List (Update Op)) (s : Subscriber) : Subscriber := us.foldl (fun s u => s.push u) s

theorem pushAll_append (us vs : List (Update Op)) (s : Subscriber) :
    (s.pushAll us).pushAll vs = s.pushAll (us ++ vs) := by rw [pushAll, pushAll, pushAll, List.foldl_append]

/-- What `#emit` leaves alone. -/
theorem push_flags (u : Update Op) (s : Subscriber) :
    (s.push u).isOpen = s.isOpen ∧ (s.push u).active = s.active ∧ (s.push u).snapshot = s.snapshot ∧
      (s.push u).registered = s.registered := by
  rw [push]
  split
  · exact ⟨rfl, rfl, rfl, rfl⟩
  split <;> exact ⟨rfl, rfl, rfl, rfl⟩

/-- An update goes to the end of what an open subscription has been sent. -/
theorem push_open {s : Subscriber} (hd : s.Drained) (ho : s.isOpen = true) (u : Update Op) :
    (s.push u).history = s.history ++ [u] ∧ s.delivered <+: (s.push u).delivered ∧
      (s.push u).Drained := by
  rw [push, if_neg (by simp [ho])]
  split
  · next hactive =>
    have hnil := hd hactive
    refine ⟨?_, List.prefix_append _ _, fun _ => hnil⟩
    simp only [history, hnil, List.append_nil]
  · next hactive =>
    refine ⟨?_, List.prefix_rfl, fun h => absurd h hactive⟩
    simp only [history, List.append_assoc]

theorem push_closed {s : Subscriber} (ho : s.isOpen = false) (u : Update Op) : s.push u = s := by
  rw [push, if_pos ho]

theorem isOpen_pushAll (us : List (Update Op)) (s : Subscriber) :
    (s.pushAll us).isOpen = s.isOpen := by
  induction us generalizing s with
  | nil => rfl
  | cons u us ih => exact (ih (s.push u)).trans (push_flags u s).1

theorem continues_pushAll {s : Subscriber} (hd : s.Drained) (us : List (Update Op)) :
    Continues us s (s.pushAll us) := by
  induction us generalizing s with
  | nil => exact ⟨rfl, fun h => ⟨h, by simp [pushAll]⟩, by simp [pushAll], List.prefix_rfl, hd⟩
  | cons u us ih =>
    show Continues (u :: us) s ((s.push u).pushAll us)
    cases ho : s.isOpen with
    | false =>
      rw [push_closed ho]
      have h := ih hd
      refine ⟨h.snapshot, fun hc => ?_, ?_, h.delivered, h.drained⟩
      · rw [isOpen_pushAll, ho] at hc
        cases hc
      · have hhist := h.history
        rw [ho] at hhist ⊢
        exact hhist
    | true =>
      obtain ⟨hend, hdel, hd'⟩ := push_open hd ho u
      obtain ⟨hopen, -, hsnap, -⟩ := push_flags u s
      have h := ih hd'
      refine ⟨h.snapshot.trans hsnap, fun hc => ⟨ho, ?_⟩, ?_, hdel.trans h.delivered, h.drained⟩
      · rw [(h.opened hc).2, hend, List.append_assoc]
        rfl
      · have hhist := h.history
        rw [hopen, ho, hend, List.append_assoc] at hhist
        rw [ho]
        exact hhist

/-- After the updates, nothing or one of `activate`, `close` and the end of the provider. -/
theorem Continues.andThen {us : List (Update Op)} {s s' s'' : Subscriber} (h : Continues us s s')
    (hsnap : s''.snapshot = s'.snapshot)
    (hopen : s''.isOpen = true → s'.isOpen = true ∧ s''.history = s'.history)
    (hhist : s''.history <+: s'.history) (hdel : s'.delivered <+: s''.delivered) (hd : s''.Drained) :
    Continues us s s'' where
  snapshot := hsnap.trans h.snapshot
  opened ho := by
    obtain ⟨ho', heq⟩ := hopen ho
    rw [heq]
    exact h.opened ho'
  history := hhist.trans h.history
  delivered := h.delivered.trans hdel
  drained := hd

theorem Continues.activate {us : List (Update Op)} {s s' : Subscriber} (h : Continues us s s') :
    Continues us s s'.activate := by
  rw [Subscriber.activate]
  split
  · exact h
  · next hidle =>
    simp only [Bool.or_eq_true, not_or, Bool.not_eq_true] at hidle
    have hhist : s'.delivered ++ s'.buffer ++ [] = s'.history := by rw [List.append_nil]; rfl
    refine h.andThen rfl (fun ho => ⟨?_, hhist⟩) ?_ (List.prefix_append _ _) (fun _ => rfl)
    · have hreg : s'.registered = true := (Bool.and_eq_true_iff.mp ho).1
      rw [isOpen, hreg, hidle.1]
      rfl
    · exact hhist ▸ List.prefix_rfl

/-- A closed subscription keeps what was delivered. -/
theorem Continues.drop {us : List (Update Op)} {s s' : Subscriber} (h : Continues us s s') :
    Continues us s { s' with closed := true, buffer := [], registered := false } := by
  refine h.andThen rfl (fun ho => ?_) ?_ List.prefix_rfl (fun _ => rfl)
  · simp [isOpen] at ho
  · simp only [Subscriber.history, List.append_nil]
    exact List.prefix_append _ _

theorem Continues.close {us : List (Update Op)} {s s' : Subscriber} (h : Continues us s s') :
    Continues us s s'.close := by
  rw [Subscriber.close]
  split
  · exact h
  · exact h.drop

theorem Continues.terminate {us : List (Update Op)} {s s' : Subscriber} (h : Continues us s s') :
    Continues us s s'.terminate := by
  rw [Subscriber.terminate]
  split
  · exact h
  split
  · exact h.drop
  · refine h.andThen rfl (fun ho => ?_) List.prefix_rfl List.prefix_rfl h.drained
    simp [isOpen] at ho

end Subscriber

/-! ## Events as moves -/

namespace Provider

/-- Every source listener of the state is called when it publishes: none before the last throws. -/
def PublishesFully (p : Provider) (fails : Failures) (id : ℕ) : Prop :=
  ∀ s ops, p.states[id]? = some s → s.publish.2 = .ok (some ops) →
    ∀ l ∈ s.sourceListeners.dropLast, p.throws fails (l.update s.publish.1.sequence ops) = false

def PublishesAllFully (p : Provider) (fails : Failures) : List ℕ → Prop
  | [] => True
  | id :: ids => p.PublishesFully fails id ∧ (p.publish fails id).1.PublishesAllFully fails ids

/-- No throw of a listener keeps a publication of the event from another source listener. -/
def Complete (p : Provider) : Event → Prop
  | .publish id fails => p.PublishesFully fails id
  | .subscribe _ fails => p.PublishesAllFully fails (p.liveInstances.flatMap stateIds)
  | _ => True

/-- The event brings in a singleton that no update tells of. -/
def Unseen (p : Provider) : Event → Prop
  | .provide _ => p.singleton = none
  | _ => False

def allowance (p : Provider) (e : Event) : Allowance := ⟨p.Complete e, p.Unseen e⟩

/-- The provider after some updates have been emitted. -/
def sent (p : Provider) (us : List (Update Op)) : Provider :=
  { p with subscribers := p.subscribers.map (Subscriber.pushAll us) }

@[simp] theorem sent_nil (p : Provider) : p.sent [] = p := by
  have hid : Subscriber.pushAll [] = id := rfl
  rw [sent, hid, List.map_id]

@[simp] theorem sent_sent (p : Provider) (us vs : List (Update Op)) :
    (p.sent us).sent vs = p.sent (us ++ vs) := by
  simp only [sent, List.map_map]
  congr 2
  funext s
  exact Subscriber.pushAll_append us vs s

@[simp] theorem core_sent (p : Provider) (us : List (Update Op)) : (p.sent us).core = p.core := rfl

theorem emit_fst (p : Provider) (fails : Failures) (u : Update Op) :
    (p.emit fails u).1 = p.sent [u] := rfl

/-- Whether a delivery throws does not depend on what has been delivered. -/
theorem throws_sent (p : Provider) (fails : Failures) (u v : Update Op) :
    (p.sent [u]).throws fails v = p.throws fails v := by
  have hzip : (p.sent [u]).subscribers.zipIdx
      = p.subscribers.zipIdx.map fun e => (e.1.push u, e.2) := by
    show (p.subscribers.map (Subscriber.push u)).zipIdx = _
    rw [List.zipIdx_map]
    rfl
  simp only [throws, hzip, List.any_map]
  congr 1
  funext e
  obtain ⟨hopen, hactive, -, -⟩ := Subscriber.push_flags u e.1
  simp only [Function.comp_apply, hopen, hactive]

/-- The calls of the source listeners emit their updates, up to a first throw. -/
theorem notify_eq (p : Provider) (fails : Failures) (sequence : ℕ) (ops : List Op)
    (listeners : List SourceListener) :
    ∃ served rest, listeners = served ++ rest ∧
      (p.notify fails sequence ops listeners).1 = p.sent (served.map (·.update sequence ops)) ∧
      ((∀ l ∈ listeners.dropLast, p.throws fails (l.update sequence ops) = false) → rest = []) := by
  induction listeners generalizing p with
  | nil => exact ⟨[], [], rfl, (p.sent_nil).symm, fun _ => rfl⟩
  | cons l listeners ih =>
    cases hthrow : p.throws fails (l.update sequence ops) with
    | false =>
      have hstep : p.notify fails sequence ops (l :: listeners)
          = (p.sent [l.update sequence ops]).notify fails sequence ops listeners := by
        rw [notify]
        simp only [emit, show Update.state l.address l.member sequence ops = l.update sequence ops
          from rfl, hthrow]
        rfl
      obtain ⟨served, rest, rfl, heq, hfull⟩ := ih (p.sent [l.update sequence ops])
      refine ⟨l :: served, rest, rfl, ?_, fun hall => hfull fun l' hl' => ?_⟩
      · rw [hstep, heq, sent_sent]
        rfl
      · rw [throws_sent]
        refine hall l' ?_
        rw [List.dropLast_cons_of_ne_nil (List.ne_nil_of_mem (List.mem_of_mem_dropLast hl'))]
        exact List.mem_cons_of_mem _ hl'
    | true =>
      have hstep : (p.notify fails sequence ops (l :: listeners)).1
          = p.sent [l.update sequence ops] := by
        rw [notify]
        simp only [emit, show Update.state l.address l.member sequence ops = l.update sequence ops
          from rfl, hthrow]
        rfl
      refine ⟨[l], listeners, rfl, hstep, fun hall => ?_⟩
      by_contra hne
      have hfalse := hall l (by
        rw [List.dropLast_cons_of_ne_nil hne]
        exact List.mem_cons_self)
      rw [hthrow] at hfalse
      cases hfalse

/-- From `p` to `q` the provider has made moves, and its subscriptions have been sent what they emit. -/
structure Advances (κ : Allowance) (p : Provider) (us : List (Update Op)) (q : Provider) : Prop where
  moves : Moves κ p.core us q.core
  subscribers : q.subscribers = (p.sent us).subscribers

variable {κ : Allowance}

theorem Advances.refl (p : Provider) : Advances κ p [] p := ⟨.refl _, by rw [sent_nil]⟩

theorem Advances.of_move {p q : Provider} {us : List (Update Op)} (h : Move κ p.core us q.core)
    (hs : q.subscribers = (p.sent us).subscribers) : Advances κ p us q := ⟨h.moves, hs⟩

theorem Advances.trans {p q r : Provider} {us vs : List (Update Op)} (h : Advances κ p us q)
    (h' : Advances κ q vs r) : Advances κ p (us ++ vs) r := by
  refine ⟨h.moves.trans h'.moves, ?_⟩
  rw [h'.subscribers, ← sent_sent]
  simp only [sent, h.subscribers]

theorem Advances.wellFormed {p q : Provider} {us : List (Update Op)} (h : Advances κ p us q)
    (hp : p.WellFormed) : q.WellFormed := .of_core (h.moves.wellFormed hp.core)

/-- `publish` is a change nobody sees, or one publication. -/
theorem publish_advances {p : Provider} (h : p.WellFormed) (fails : Failures) (id : ℕ)
    (hfull : κ.full → p.PublishesFully fails id) : ∃ us, Advances κ p us (p.publish fails id).1 := by
  cases hs : p.states[id]? with
  | none =>
    refine ⟨[], ?_⟩
    rw [publish, hs]
    exact .refl p
  | some s =>
    obtain ⟨hsound, hcases⟩ := (h.wired.sound s (List.mem_of_getElem? hs)).publish
    rcases hcases with ⟨hnone, hseq, hval, hpub⟩ | ⟨ops, hops, -⟩
    · refine ⟨[], ?_⟩
      rw [publish, hs]
      simp only [hnone]
      exact .of_move (.change hs hsound (by simp) hseq hval hpub) (by rw [sent_nil])
    · obtain ⟨served, rest, hlisteners, heq, hrest⟩ := notify_eq
        { p with states := p.states.set id s.publish.1 } fails s.publish.1.sequence ops
        s.publish.1.sourceListeners
      refine ⟨served.map (·.update s.publish.1.sequence ops), ?_⟩
      rw [publish, hs]
      simp only [hops, heq]
      rw [MutableReplicatedState.sourceListeners_publish] at hlisteners hrest
      refine .of_move (.publish (p := p.core) hs hops hlisteners fun hf => hrest ?_) rfl
      exact hfull hf s ops hs hops

theorem publishAll_advances {p : Provider} (h : p.WellFormed) (fails : Failures) (ids : List ℕ)
    (hfull : κ.full → p.PublishesAllFully fails ids) :
    ∃ us, Advances κ p us (p.publishAll fails ids).1 := by
  induction ids generalizing p with
  | nil => exact ⟨[], .refl p⟩
  | cons id ids ih =>
    obtain ⟨us, hadv⟩ := publish_advances h fails id fun hf => (hfull hf).1
    obtain ⟨vs, hrest⟩ := ih (hadv.wellFormed h) fun hf => (hfull hf).2
    rw [publishAll]
    split
    · next q heq =>
      rw [heq] at hadv hrest
      exact ⟨us ++ vs, hadv.trans hrest⟩
    · next q e heq =>
      rw [heq] at hadv
      exact ⟨us, hadv⟩

/-! ### Operations -/

theorem accepts_of_classify {p : Provider} {implementation : Implementation}
    {members : Table JsString Member}
    (h : classifyRemoteServiceImplementation p.states.length p.serviceId implementation = .ok members) :
    p.Accepts members :=
  ⟨(classify_spec h).1, (classify_spec h).2⟩

theorem mode_of_registration {p : Provider} {mode : Mode} (h : p.registration mode = .ok ()) :
    p.mode = mode := by
  rw [registration] at h
  split at h
  · cases h
  split at h
  · cases h
  · next hmode => exact not_not.mp hmode

theorem validateReplacement_ok {p : Provider} {implementation : Implementation}
    {members : Table JsString Member} (h : p.validateReplacement implementation = .ok members) :
    p.Accepts members ∧ p.assertSingletonShape (serviceMemberShape members) = .ok () := by
  rw [validateReplacement] at h
  obtain ⟨members', hmembers, h⟩ := bind_eq_ok.mp h
  obtain ⟨_, hshape, h⟩ := bind_eq_ok.mp h
  obtain rfl := Except.ok.inj h
  exact ⟨accepts_of_classify hmembers, hshape⟩

theorem provide_advances (p : Provider) (implementation : Implementation)
    (hmay : p.singleton = none → κ.unseen) : Advances κ p [] (p.provide implementation).1 := by
  rw [provide]
  split
  · exact .refl p
  next hreg =>
  split
  · exact .refl p
  next hnone =>
  split
  · exact .refl p
  next members hvalid =>
  obtain ⟨hacc, hshape⟩ := validateReplacement_ok hvalid
  have habsent := Option.not_isSome_iff_eq_none.mp hnone
  refine .of_move (q := p.provided members) (.provide (p := p.core) (hmay habsent)
    (mode_of_registration hreg) habsent ⟨hacc.nodup, hacc.bound⟩ hshape) ?_
  rw [sent_nil]
  rfl

theorem withdraw_advances (p : Provider) (fails : Failures) :
    ∃ us, Advances κ p us (p.withdraw fails).1 := by
  rw [withdraw]
  split
  · exact ⟨[], .refl p⟩
  split
  · exact ⟨[], .refl p⟩
  next i hi => exact ⟨[.unavailable], .of_move (.withdraw (p := p.core) hi) rfl⟩

theorem core_replacedBy (p : Provider) (members : Table JsString Member) :
    (p.replacedBy members).core = p.core.replacedBy members ∧
      (p.replacedBy members).subscribers = p.subscribers := by
  rw [replacedBy, replacedBy, show p.core.singleton = p.singleton from rfl]
  cases p.singleton <;> exact ⟨rfl, rfl⟩

theorem replace_advances (p : Provider) (fails : Failures) (implementation : Implementation) :
    ∃ us, Advances κ p us (p.replace fails implementation).1 := by
  rw [replace]
  split
  · exact ⟨[], .refl p⟩
  next hreg =>
  split
  · exact ⟨[], .refl p⟩
  next members hvalid =>
  obtain ⟨hacc, hshape⟩ := validateReplacement_ok hvalid
  obtain ⟨hcore, hsubs⟩ := core_replacedBy p members
  have hmove : Move κ p.core _ (p.core.replacedBy members) :=
    .replace (mode_of_registration hreg) ⟨hacc.nodup, hacc.bound⟩ hshape
  refine ⟨[.replaced ((p.core.replacedBy members).snapshotInstance
    (p.core.createInstance members none).2)], ?_⟩
  show Advances κ p _ ((p.replacedBy members).emit fails
    (.replaced ((p.replacedBy members).snapshotInstance (p.createInstance members none).2))).1
  have hsnap : (p.replacedBy members).snapshotInstance (p.createInstance members none).2
      = (p.core.replacedBy members).snapshotInstance (p.core.createInstance members none).2 := by
    rw [← hcore]
    rfl
  rw [emit_fst, hsnap]
  refine .of_move ?_ ?_
  · rw [core_sent, hcore]
    exact hmove
  · simp only [sent, hsubs]

theorem spawn_advances (p : Provider) (fails : Failures) (key : JsString)
    (implementation : Implementation) :
    ∃ us, Advances κ p us (p.spawn fails key implementation).1 := by
  rw [spawn]
  split
  · exact ⟨[], .refl p⟩
  split
  · exact ⟨[], .refl p⟩
  split
  · exact ⟨[], .refl p⟩
  next hreg =>
  have hmode := mode_of_registration hreg
  split
  · exact ⟨[], .refl p⟩
  next habsent =>
  rw [Table.has_eq_true] at habsent
  simp only
  split
  · refine ⟨[], .of_move (.generation (p := p.core) hmode) ?_⟩
    rw [sent_nil]
  · next members hmembers =>
    have hacc := accepts_of_classify hmembers
    exact ⟨_, .of_move (.spawn (p := p.core) hmode habsent ⟨hacc.nodup, hacc.bound⟩) rfl⟩

theorem close_advances (p : Provider) (fails : Failures) (address : Address) :
    ∃ us, Advances κ p us (p.close fails address).1 := by
  rw [close]
  split
  · exact ⟨[], .refl p⟩
  next i hi =>
  split
  · exact ⟨[], .refl p⟩
  · next haddr => exact ⟨_, .of_move (.close (p := p.core) hi (not_not.mp haddr)) rfl⟩

theorem dropSingleton_advances (p : Provider) (fails : Failures) :
    ∃ us, Advances κ p us (p.dropSingleton fails).1 := by
  rw [dropSingleton]
  split
  · exact ⟨[], .refl p⟩
  · next i hi => exact ⟨_, .of_move (.withdraw (p := p.core) hi) rfl⟩

/-- The entries of the instances, closed one after the other. -/
theorem closeAll_advances {p : Provider} (h : p.WellFormed) (fails : Failures)
    {entries : List (JsString × ProviderInstance)} (hentries : p.instances = entries) :
    ∃ us, Advances κ p us (p.closeAll fails entries).1 := by
  induction entries generalizing p with
  | nil => exact ⟨[], .refl p⟩
  | cons e entries ih =>
    obtain ⟨key, i⟩ := e
    have hmem : (key, i) ∈ p.instances := by
      rw [hentries]
      exact List.mem_cons_self
    obtain ⟨generation, haddr, -⟩ := h.address key i hmem
    have hget : p.core.instances.get (Address.mk key generation).key = some i :=
      Table.get_of_mem h.keys hmem
    have hadv : Advances κ p [.closed ⟨key, generation⟩]
        ({ p.detach i with instances := p.instances.erase key }.emit fails
          (.closed ⟨key, generation⟩)).1 := .of_move (.close hget haddr) rfl
    have hrest : p.instances.erase key = entries := by
      have hnodup := h.keys
      rw [hentries] at hnodup ⊢
      obtain ⟨hnot, -⟩ := List.nodup_cons.mp hnodup
      rw [Table.erase, List.filter_cons_of_neg (by simp)]
      exact Table.erase_of_not_mem hnot
    obtain ⟨vs, hadv'⟩ := ih (hadv.wellFormed h) hrest
    refine ⟨[.closed ⟨key, generation⟩] ++ vs, ?_⟩
    have hstep : (p.closeAll fails ((key, i) :: entries)).1
        = (({ p.detach i with instances := p.instances.erase key }.emit fails
          (.closed ⟨key, generation⟩)).1.closeAll fails entries).1 := by
      rw [closeAll, haddr]
      rfl
    rw [hstep]
    exact hadv.trans hadv'

/-- A subscription that an event opens. -/
structure Opens (q : Provider) (s : Subscriber) : Prop where
  snapshot : s.snapshot = q.snapshot
  history : s.history = []
  isOpen : s.isOpen = true
  drained : s.Drained
  present : q.mode = .singleton → q.singleton ≠ none

/-- What an event does: the provider makes moves, every subscription continues with what they emit, and
one the event opens starts at its end. -/
structure Steps (κ : Allowance) (p : Provider) (us : List (Update Op)) (q : Provider) : Prop where
  moves : Moves κ p.core us q.core
  continues : ∀ {j : ℕ} {s : Subscriber}, p.subscribers[j]? = some s →
    ∃ s', q.subscribers[j]? = some s' ∧ s.Continues us s'
  opens : ∀ {j : ℕ} {s : Subscriber}, p.subscribers[j]? = none → q.subscribers[j]? = some s → q.Opens s

/-- Moves, then a change of single subscriptions. -/
theorem Advances.stepsTo {p q r : Provider} {us : List (Update Op)} (h : Advances κ p us q)
    (hd : ∀ s ∈ p.subscribers, s.Drained) (f : ℕ → Subscriber → Subscriber) (hcore : r.core = q.core)
    (hsubs : ∀ j, r.subscribers[j]? = q.subscribers[j]?.map (f j))
    (hf : ∀ j {s s' : Subscriber}, s.Continues us s' → s.Continues us (f j s')) : Steps κ p us r where
  moves := by
    rw [hcore]
    exact h.moves
  continues {j s} hs := by
    refine ⟨f j (s.pushAll us), ?_, hf j
      (Subscriber.continues_pushAll (hd s (List.mem_of_getElem? hs)) us)⟩
    rw [hsubs, h.subscribers, sent, List.getElem?_map, hs]
    rfl
  opens {j s} hnone hs := by
    rw [hsubs, h.subscribers, sent, List.getElem?_map, hnone] at hs
    cases hs

theorem Advances.steps {p q : Provider} {us : List (Update Op)} (h : Advances κ p us q)
    (hd : ∀ s ∈ p.subscribers, s.Drained) : Steps κ p us q :=
  h.stepsTo hd (fun _ s => s) rfl (fun j => by simp) fun _ _ _ hcont => hcont

/-- Publications leave the instances alone. -/
theorem singleton_notify (p : Provider) (fails : Failures) (sequence : ℕ) (ops : List Op)
    (listeners : List SourceListener) :
    (p.notify fails sequence ops listeners).1.singleton = p.singleton ∧
      (p.notify fails sequence ops listeners).1.mode = p.mode := by
  obtain ⟨served, -, -, heq, -⟩ := notify_eq p fails sequence ops listeners
  rw [heq]
  exact ⟨rfl, rfl⟩

theorem singleton_publishAll (p : Provider) (fails : Failures) (ids : List ℕ) :
    (p.publishAll fails ids).1.singleton = p.singleton ∧ (p.publishAll fails ids).1.mode = p.mode := by
  have hone : ∀ (p : Provider) (id : ℕ), (p.publish fails id).1.singleton = p.singleton ∧
      (p.publish fails id).1.mode = p.mode := by
    intro p id
    rw [publish]
    split
    · exact ⟨rfl, rfl⟩
    · simp only
      split
      · exact ⟨rfl, rfl⟩
      · exact ⟨rfl, rfl⟩
      · exact singleton_notify { p with states := p.states.set id _ } fails _ _ _
  induction ids generalizing p with
  | nil => exact ⟨rfl, rfl⟩
  | cons id ids ih =>
    obtain ⟨hsingleton, hmode⟩ := hone p id
    rw [publishAll]
    split
    · next q heq =>
      rw [heq] at hsingleton hmode
      exact ⟨(ih q).1.trans hsingleton, (ih q).2.trans hmode⟩
    · next q e heq =>
      rw [heq] at hsingleton hmode
      exact ⟨hsingleton, hmode⟩

theorem subscribe_steps {p : Provider} (h : p.WellFormed) (hd : ∀ s ∈ p.subscribers, s.Drained)
    (fails : Failures) (mode : Mode)
    (hfull : κ.full → p.PublishesAllFully fails (p.liveInstances.flatMap stateIds)) :
    ∃ us, Steps κ p us (p.subscribe fails mode).1 := by
  rw [subscribe]
  split
  · exact ⟨[], (Advances.refl p).steps hd⟩
  split
  · exact ⟨[], (Advances.refl p).steps hd⟩
  next habsent =>
  obtain ⟨us, hadv⟩ : ∃ us, Advances κ p us (p.publishPending fails).1 :=
    publishAll_advances h fails _ hfull
  obtain ⟨hsingleton, hmode⟩ : (p.publishPending fails).1.singleton = p.singleton ∧
      (p.publishPending fails).1.mode = p.mode := singleton_publishAll p fails _
  split
  · next q e heq =>
    rw [heq] at hadv
    exact ⟨us, hadv.steps hd⟩
  · next q heq =>
    rw [heq] at hadv hsingleton hmode
    have hsteps := hadv.steps hd
    refine ⟨us, hsteps.moves, fun {j s} hs => ?_, fun {j s} hnone hs => ?_⟩
    · obtain ⟨s', hs', hcont⟩ := hsteps.continues hs
      refine ⟨s', ?_, hcont⟩
      rw [List.getElem?_append_left (List.getElem?_eq_some_iff.mp hs').1]
      exact hs'
    · have hlen : q.subscribers[j]? = none := by
        rw [hadv.subscribers, sent, List.getElem?_map, hnone]
        rfl
      rw [List.getElem?_append_right (List.getElem?_eq_none_iff.mp hlen)] at hs
      rw [List.mem_singleton.mp (List.mem_of_getElem? hs)]
      refine ⟨rfl, rfl, rfl, fun hc => (by cases hc), fun hs hnone => habsent ⟨?_, ?_⟩⟩
      · rw [← hmode]
        exact hs
      · rw [← hsingleton]
        exact Option.isNone_iff_eq_none.mpr hnone

theorem dispose_steps {p : Provider} (h : p.WellFormed) (hd : ∀ s ∈ p.subscribers, s.Drained)
    (fails : Failures) : ∃ us, Steps κ p us (p.dispose fails).1 := by
  rw [dispose]
  split
  · exact ⟨[], (Advances.refl p).steps hd⟩
  have hfirst : Advances κ p [] { p with disposed := true } :=
    .of_move (.dispose (p := p.core)) (by rw [sent_nil])
  obtain ⟨us, hdrop⟩ : ∃ us, Advances κ { p with disposed := true } us
      ({ p with disposed := true }.dropSingleton fails).1 := dropSingleton_advances _ fails
  obtain ⟨vs, hclose⟩ : ∃ vs, Advances κ _ vs _ :=
    closeAll_advances ((hfirst.trans hdrop).wellFormed h) fails rfl
  refine ⟨_, ((hfirst.trans hdrop).trans hclose).stepsTo hd (fun _ => Subscriber.terminate) rfl
    (fun j => ?_) fun _ _ _ hcont => hcont.terminate⟩
  exact List.getElem?_map ..

/-- **Every event is made of moves.** -/
theorem step_moves {p : Provider} (h : p.WellFormed) (hd : ∀ s ∈ p.subscribers, s.Drained) {e : Event}
    (he : e.WellFormed) : ∃ us, Steps (p.allowance e) p us (p.step e) := by
  have hrefl : Advances (p.allowance e) p [] p := .refl p
  cases e with
  | create initial =>
    obtain ⟨s, hs, hsound, -, hnil⟩ := MutableReplicatedState.create_sound he
    refine ⟨[], ?_⟩
    rw [step, hs]
    exact (Advances.of_move (.create (p := p.core) hsound hnil) (by rw [sent_nil])).steps hd
  | mutate id path m =>
    refine ⟨[], ?_⟩
    cases hs : p.states[id]? with
    | none =>
      have hsame : p.states.modify id (fun s => s.mutate path m) = p.states := by
        rw [List.modify_eq_set_getElem?, hs]
        rfl
      rw [step, hsame]
      exact hrefl.steps hd
    | some s =>
      have hset : p.states.modify id (fun s => s.mutate path m)
          = p.states.set id (s.mutate path m) := by
        rw [List.modify_eq_set_getElem?, hs]
        rfl
      have hsound := (h.wired.sound s (List.mem_of_getElem? hs)).mutate path he
      rw [step, hset]
      exact (Advances.of_move (.change (p := p.core) hs hsound (by simp) (by simp) (by simp) (by simp))
        (by rw [sent_nil])).steps hd
  | publish id fails =>
    obtain ⟨us, hadv⟩ : ∃ us, Advances (p.allowance (.publish id fails)) p us _ :=
      publish_advances h fails id fun hf => hf
    exact ⟨us, hadv.steps hd⟩
  | provide implementation => exact ⟨[], (provide_advances p implementation id).steps hd⟩
  | withdraw fails =>
    obtain ⟨us, hadv⟩ := withdraw_advances p fails
    exact ⟨us, hadv.steps hd⟩
  | replace implementation fails =>
    obtain ⟨us, hadv⟩ := replace_advances p fails implementation
    exact ⟨us, hadv.steps hd⟩
  | spawn key implementation fails =>
    obtain ⟨us, hadv⟩ := spawn_advances p fails key implementation
    exact ⟨us, hadv.steps hd⟩
  | close address fails =>
    obtain ⟨us, hadv⟩ := close_advances p fails address
    exact ⟨us, hadv.steps hd⟩
  | subscribe mode fails => exact subscribe_steps h hd fails mode fun hf => hf
  | activate j fails =>
    refine ⟨[], hrefl.stepsTo hd (fun k => if j = k then Subscriber.activate else id) rfl ?_ ?_⟩
    · intro k
      simp only [step, activate, List.getElem?_modify]
      split <;> simp_all
    · intro k s s' hcont
      split
      · exact hcont.activate
      · exact hcont
  | unsubscribe j =>
    refine ⟨[], hrefl.stepsTo hd (fun k => if j = k then Subscriber.close else id) rfl ?_ ?_⟩
    · intro k
      simp only [step, unsubscribe, List.getElem?_modify]
      split <;> simp_all
    · intro k s s' hcont
      split
      · exact hcont.close
      · exact hcont
  | dispose fails => exact dispose_steps h hd fails

end Provider

end Phi.Services
