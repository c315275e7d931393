import Phi.Services.Lockstep
import Phi.Services.View

/-!
# What a subscription is sent

A subscription that is open will, once everything sent has been handled, show the current values
(`Current`), and on the way there every update fits the view before it and every value shown is one the
provider has published (`Trajectory`). One publication that does not reach all source listeners of its
state breaks this: a throw of one subscription's listener leaves the loop over them, and another member
that stands on the same state misses the batch. `Streamed` is about the steps in which that does not
happen.
-/

namespace Phi.Services

open Delta

/-! ## What a provider has published -/

namespace Provider

/-- A live instance of this address has this member, whose state is at this pair. -/
def Shows (p : Provider) (address : Option Address) (member : JsString) (x : ℕ × Json) : Prop :=
  ∃ i ∈ p.liveInstances, i.address = address ∧ ∃ id s, (member, Member.state id) ∈ i.members ∧
    p.states[id]? = some s ∧ x = (s.sequence, s.publishedValue)

/-- An instance of this address, live or gone, has this member, and its state has published the value
under the sequence. -/
def Published (p : Provider) (address : Option Address) (member : JsString) (x : ℕ × Json) : Prop :=
  ∃ i ∈ p.created, i.address = address ∧ ∃ id s, (member, Member.state id) ∈ i.members ∧
    p.states[id]? = some s ∧ s.published[x.1]? = some x.2

/-- The live instances are among the created ones, and the shape is that of the singleton. -/
structure Recorded (p : Provider) : Prop where
  created : ∀ i ∈ p.liveInstances, i ∈ p.created
  shape : ∀ i, p.singleton = some i → p.singletonShape = some (serviceMemberShape i.members)

end Provider

/-- Every pair of the view has the property. -/
def View.Bounded (B : Option Address → JsString → ℕ × Json → Prop) (view : View) : Prop :=
  ∀ a m x, view a m = some x → B a m x

/-- What the view shows is current. -/
def Current (p : Provider) (view : View) : Prop := view.Bounded p.Shows

theorem Provider.Shows.published {p : Provider} (hp : p.WellFormed) (hr : p.Recorded)
    {a : Option Address} {m : JsString} {x : ℕ × Json} (h : p.Shows a m x) : p.Published a m x := by
  obtain ⟨i, hi, haddr, id, s, hm, hs, rfl⟩ := h
  exact ⟨i, hr.created i hi, haddr, id, s, hm, hs, (hp.wired.sound s (List.mem_of_getElem? hs)).last⟩

theorem Current.published {p : Provider} (hp : p.WellFormed) (hr : p.Recorded) {view : View}
    (h : Current p view) : view.Bounded p.Published := fun a m x hx => (h a m x hx).published hp hr

/-! ## Trajectories -/

/-- Each update fits the view before it, and every pair on the way has the property. -/
def Trajectory (B : Option Address → JsString → ℕ × Json → Prop) (mode : Mode)
    (shape : List (JsString × MemberKind)) : View → List (Update Op) → Prop
  | view, [] => view.Bounded B
  | view, u :: us => view.Bounded B ∧ view.Fits mode shape u ∧ Trajectory B mode shape (view.after u) us

/-- The view after some updates. -/
def View.afterAll (view : View) (us : List (Update Op)) : View := us.foldl View.after view

namespace Trajectory

variable {B B' : Option Address → JsString → ℕ × Json → Prop} {mode : Mode}
  {shape : List (JsString × MemberKind)} {view : View}

theorem mono (hB : ∀ a m x, B a m x → B' a m x) {us : List (Update Op)}
    (h : Trajectory B mode shape view us) : Trajectory B' mode shape view us := by
  induction us generalizing view with
  | nil => exact fun a m x hx => hB a m x (h a m x hx)
  | cons u us ih => exact ⟨fun a m x hx => hB a m x (h.1 a m x hx), h.2.1, ih h.2.2⟩

theorem append {us vs : List (Update Op)} (h : Trajectory B mode shape view us)
    (h' : Trajectory B mode shape (view.afterAll us) vs) :
    Trajectory B mode shape view (us ++ vs) := by
  induction us generalizing view with
  | nil => exact h'
  | cons u us ih => exact ⟨h.1, h.2.1, ih h.2.2 h'⟩

theorem bounded {us : List (Update Op)} (h : Trajectory B mode shape view us) : view.Bounded B := by
  cases us with
  | nil => exact h
  | cons u us => exact h.1

theorem drop {us vs : List (Update Op)} (h : Trajectory B mode shape view (us ++ vs)) :
    Trajectory B mode shape (view.afterAll us) vs := by
  induction us generalizing view with
  | nil => exact h
  | cons u us ih => exact ih h.2.2

theorem take {us vs : List (Update Op)} (h : Trajectory B mode shape view (us ++ vs)) :
    Trajectory B mode shape view us := by
  induction us generalizing view with
  | nil => exact h.bounded
  | cons u us ih => exact ⟨h.1, h.2.1, ih h.2.2⟩

theorem prefix_of {us vs : List (Update Op)} (h : Trajectory B mode shape view vs) (hpre : us <+: vs) :
    Trajectory B mode shape view us := by
  obtain ⟨rest, rfl⟩ := hpre
  exact h.take

end Trajectory

/-! ## Snapshots -/

theorem Provider.snapshotMember_of_state {p : Provider} {name : JsString} {id : ℕ}
    {s : MutableReplicatedState} (hs : p.states[id]? = some s) :
    p.snapshotMember (name, .state id) = .state name s.sequence [.r s.publishedValue] := by
  simp only [Provider.snapshotMember, hs]

theorem Provider.name_snapshotMember (p : Provider) (e : JsString × Member) :
    (p.snapshotMember e).name = e.1 := by
  obtain ⟨name, member⟩ := e
  cases member with
  | method => rfl
  | state id =>
    simp only [Provider.snapshotMember]
    split <;> rfl

theorem Provider.plain_snapshotInstance {p : Provider} {i : ProviderInstance}
    (h : Table.Nodup i.members) : (p.snapshotInstance i).Plain := by
  refine ⟨?_, ?_⟩
  · have hnames : (p.snapshotInstance i).members.map MemberSnapshot.name = i.members.keys := by
      rw [Provider.snapshotInstance, List.map_map, Table.keys]
      refine List.map_congr_left fun e _ => ?_
      exact p.name_snapshotMember e
    rw [hnames]
    exact h
  · intro name sequence ops hm
    obtain ⟨⟨name', member⟩, -, heq⟩ := List.mem_map.mp hm
    cases member with
    | method => cases heq
    | state id =>
      simp only [Provider.snapshotMember] at heq
      split at heq
      · cases heq
        exact ⟨_, rfl⟩
      · cases heq

theorem Provider.shape_snapshotInstance {p : Provider} {i : ProviderInstance}
    (h : ∀ name id, (name, Member.state id) ∈ i.members → id < p.states.length) :
    (p.snapshotInstance i).shape = serviceMemberShape i.members := by
  rw [InstanceSnapshot.shape, Provider.snapshotInstance, List.map_map, serviceMemberShape,
    Table.mapValues]
  refine List.map_congr_left fun e he => ?_
  obtain ⟨name, member⟩ := e
  cases member with
  | method => rfl
  | state id =>
    simp only [Function.comp_apply, p.snapshotMember_of_state (List.getElem?_eq_getElem (h name id he))]
    rfl

/-- What a snapshot holds is the pair of a member's state. -/
theorem Provider.heldIn_snapshotInstance {p : Provider} {i : ProviderInstance} {m : JsString}
    {x : ℕ × Json} (h : heldIn (p.snapshotInstance i).members m = some x) :
    ∃ id s, (m, Member.state id) ∈ i.members ∧ p.states[id]? = some s ∧
      x = (s.sequence, s.publishedValue) := by
  obtain ⟨ms, hfind, hheld⟩ := Option.bind_eq_some_iff.mp h
  obtain ⟨⟨name, member⟩, hmem, rfl⟩ := List.mem_map.mp (List.mem_of_find?_eq_some hfind)
  have hname : name = m := by
    have hsome := List.find?_some hfind
    rw [decide_eq_true_eq, p.name_snapshotMember] at hsome
    exact hsome
  cases member with
  | method => cases hheld
  | state id =>
    cases hs : p.states[id]? with
    | none =>
      simp only [Provider.snapshotMember, hs] at hheld
      cases hheld
    | some s =>
      rw [Provider.snapshotMember_of_state hs] at hheld
      refine ⟨id, s, ?_, hs, (Option.some.inj hheld).symm⟩
      rw [← hname]
      exact hmem

/-- What the view of a subscription's snapshot shows comes from one of its instances. -/
theorem view_mem {is : List (InstanceSnapshot Op)} {view : View} {a : Option Address} {m : JsString}
    {x : ℕ × Json} (h : is.foldl (fun view i => view.after (.spawned i)) view a m = some x) :
    view a m = some x ∨ ∃ i ∈ is, i.address = a ∧ heldIn i.members m = some x := by
  induction is generalizing view with
  | nil => exact .inl h
  | cons i is ih =>
    rcases ih h with hview | ⟨j, hj, hrest⟩
    · simp only [View.after] at hview
      split at hview
      · next heq => exact .inr ⟨i, List.mem_cons_self, heq.symm, hview⟩
      · exact .inl hview
    · exact .inr ⟨j, List.mem_cons_of_mem _ hj, hrest⟩

theorem Provider.current_snapshot (p : Provider) : Current p p.snapshot.view := by
  intro a m x hx
  rcases view_mem hx with hnone | ⟨i, hi, haddr, hheld⟩
  · cases hnone
  obtain ⟨j, hj, rfl⟩ := List.mem_map.mp hi
  obtain ⟨id, s, hm, hs, hx⟩ := Provider.heldIn_snapshotInstance hheld
  exact ⟨j, Provider.mem_sortedInstances.mp hj, haddr, id, s, hm, hs, hx⟩

theorem Provider.WellFormed.plain_snapshot {p : Provider} (h : p.WellFormed)
    (hpresent : p.mode = .singleton → p.singleton ≠ none) : p.snapshot.Plain p.mode := by
  refine ⟨fun i hi => ?_, fun hmode => ?_, fun hmode => ⟨?_, fun i hi => ?_⟩⟩
  · obtain ⟨j, hj, rfl⟩ := List.mem_map.mp hi
    exact Provider.plain_snapshotInstance (h.wired.members j (Provider.mem_sortedInstances.mp hj))
  · obtain ⟨i, hi⟩ := Option.ne_none_iff_exists'.mp (hpresent hmode)
    refine ⟨p.snapshotInstance i, ?_, h.noAddress i hi⟩
    rw [Provider.snapshot, Provider.sortedInstances, hmode]
    simp only
    rw [Provider.liveInstances_of_singleton hmode, hi]
    rfl
  · -- the keys of the sorted entries are distinct, and so are the addresses that hold them
    have hperm := List.mergeSort_perm p.instances fun left right => p.locale left.1 right.1
    have hsnapshot : p.snapshot.instances.map InstanceSnapshot.address
        = (p.instances.mergeSort fun left right => p.locale left.1 right.1).map
          fun e => e.2.address := by
      rw [Provider.snapshot, Provider.sortedInstances, hmode]
      simp only [List.map_map]
      rfl
    have hnodup : (List.map Prod.fst (p.instances.mergeSort
        fun left right => p.locale left.1 right.1)).Nodup := (hperm.map Prod.fst).nodup_iff.mpr h.keys
    rw [hsnapshot]
    refine List.pairwise_map.mpr ((List.pairwise_map.mp hnodup).imp_of_mem fun {e e'} he he' hne => ?_)
    obtain ⟨g, haddr, -⟩ := h.address e.1 e.2 (hperm.mem_iff.mp he)
    obtain ⟨g', haddr', -⟩ := h.address e'.1 e'.2 (hperm.mem_iff.mp he')
    rw [haddr, haddr']
    exact fun heq => hne (Address.mk.inj (Option.some.inj heq)).1
  · obtain ⟨j, hj, rfl⟩ := List.mem_map.mp hi
    have hlive := Provider.mem_sortedInstances.mp hj
    rw [Provider.liveInstances_of_keyed hmode] at hlive
    obtain ⟨⟨key, j'⟩, hmem, rfl⟩ := List.mem_map.mp hlive
    obtain ⟨g, haddr, -⟩ := h.address key j' hmem
    show j'.address ≠ none
    rw [haddr]
    simp

/-! ## Moves add to what has been published -/

/-- What a move keeps: the mode, the instances created, and what the states have published. -/
structure Provider.Extends (p q : Provider) : Prop where
  mode : q.mode = p.mode
  created : ∀ i ∈ p.created, i ∈ q.created
  states : ∀ {id : ℕ} {s : MutableReplicatedState}, p.states[id]? = some s →
    ∃ s', q.states[id]? = some s' ∧ s.published <+: s'.published

namespace Provider

theorem Extends.refl (p : Provider) : p.Extends p :=
  ⟨rfl, fun _ hi => hi, fun hs => ⟨_, hs, List.prefix_rfl⟩⟩

theorem Extends.trans {p q r : Provider} (h : p.Extends q) (h' : q.Extends r) : p.Extends r where
  mode := h'.mode.trans h.mode
  created i hi := h'.created i (h.created i hi)
  states hs := by
    obtain ⟨s', hs', hpre⟩ := h.states hs
    obtain ⟨s'', hs'', hpre'⟩ := h'.states hs'
    exact ⟨s'', hs'', hpre.trans hpre'⟩

theorem Extends.published {p q : Provider} (h : p.Extends q) {a : Option Address} {m : JsString}
    {x : ℕ × Json} (hx : p.Published a m x) : q.Published a m x := by
  obtain ⟨i, hi, haddr, id, s, hm, hs, hpub⟩ := hx
  obtain ⟨s', hs', rest, hrest⟩ := h.states hs
  refine ⟨i, h.created i hi, haddr, id, s', hm, hs', ?_⟩
  rw [← hrest, List.getElem?_append_left (List.getElem?_eq_some_iff.mp hpub).1, hpub]

/-- The listeners of a state are not part of what it shows. -/
theorem states_addListeners {states : List MutableReplicatedState} {id : ℕ} {s : MutableReplicatedState}
    (hs : states[id]? = some s) (instanceId : ℕ) (address : Option Address)
    (members : Table JsString Member) :
    ∃ s', (addListeners states instanceId address members)[id]? = some s' ∧
      s'.sequence = s.sequence ∧ s'.publishedValue = s.publishedValue ∧ s'.published = s.published := by
  rw [Wired.getElem?_addListeners, hs]
  exact ⟨_, rfl, rfl, rfl, rfl⟩

theorem states_removeListeners {states : List MutableReplicatedState} {id : ℕ}
    {s : MutableReplicatedState} (hs : states[id]? = some s) (instanceId : ℕ) :
    ∃ s', (removeListeners states instanceId)[id]? = some s' ∧
      s'.sequence = s.sequence ∧ s'.publishedValue = s.publishedValue ∧ s'.published = s.published := by
  rw [removeListeners, List.getElem?_map, hs]
  exact ⟨_, rfl, rfl, rfl, rfl⟩

/-- The states of two providers show the same. -/
def SameShown (p q : Provider) : Prop :=
  ∀ {id : ℕ} {s : MutableReplicatedState}, p.states[id]? = some s → ∃ s', q.states[id]? = some s' ∧
    s'.sequence = s.sequence ∧ s'.publishedValue = s.publishedValue ∧ s'.published = s.published

theorem SameShown.extends {p q : Provider} (h : p.SameShown q) (hmode : q.mode = p.mode)
    (hcreated : ∀ i ∈ p.created, i ∈ q.created) : p.Extends q := by
  refine ⟨hmode, hcreated, fun hs => ?_⟩
  obtain ⟨s', hs', -, -, hpub⟩ := h hs
  exact ⟨s', hs', hpub ▸ List.prefix_rfl⟩

/-- What is shown under an address whose instances stay is still shown. -/
theorem Shows.keep {p q : Provider} {a : Option Address} {m : JsString} {x : ℕ × Json}
    (hx : p.Shows a m x) (h : p.SameShown q)
    (hlive : ∀ i ∈ p.liveInstances, i.address = a → i ∈ q.liveInstances) : q.Shows a m x := by
  obtain ⟨i, hi, haddr, id, s, hm, hs, rfl⟩ := hx
  obtain ⟨s', hs', hseq, hval, -⟩ := h hs
  exact ⟨i, hlive i hi haddr, haddr, id, s', hm, hs', by rw [hseq, hval]⟩

theorem sameShown_set {p : Provider} {id : ℕ} {s s' : MutableReplicatedState}
    (here : p.states[id]? = some s) (hseq : s'.sequence = s.sequence)
    (hval : s'.publishedValue = s.publishedValue) (hpub : s'.published = s.published) :
    p.SameShown { p with states := p.states.set id s' } := by
  intro id' t ht
  obtain ⟨hlt, -⟩ := List.getElem?_eq_some_iff.mp here
  by_cases heq : id = id'
  · subst heq
    obtain rfl := Option.some.inj (here.symm.trans ht)
    exact ⟨s', List.getElem?_set_self hlt, hseq, hval, hpub⟩
  · exact ⟨t, by rw [List.getElem?_set_ne heq, ht], rfl, rfl, rfl⟩

theorem sameShown_push (p : Provider) (s : MutableReplicatedState) :
    p.SameShown { p with states := p.states ++ [s] } := by
  intro id t ht
  refine ⟨t, ?_, rfl, rfl, rfl⟩
  rw [List.getElem?_append_left (List.getElem?_eq_some_iff.mp ht).1, ht]

theorem sameShown_replacedBy (p : Provider) (members : Table JsString Member) :
    p.SameShown (p.replacedBy members) := by
  intro id s hs
  obtain ⟨s', hs', hseq, hval, hpub⟩ := states_addListeners hs p.nextInstance none members
  rw [replacedBy]
  cases p.singleton with
  | none => exact ⟨s', hs', hseq, hval, hpub⟩
  | some i =>
    obtain ⟨s'', hs'', hseq', hval', hpub'⟩ := states_removeListeners hs' i.id
    exact ⟨s'', hs'', hseq'.trans hseq, hval'.trans hval, hpub'.trans hpub⟩

theorem created_replacedBy (p : Provider) (members : Table JsString Member) :
    (p.replacedBy members).created = p.created ++ [⟨p.nextInstance, none, members⟩] := by
  rw [replacedBy]
  cases p.singleton <;> rfl

end Provider

variable {κ : Allowance}

theorem Move.extends {p q : Provider} {us : List (Update Op)} (h : Move κ p us q) (hp : p.WellFormed) :
    p.Extends q := by
  have hsame : ∀ {q : Provider}, p.SameShown q → q.mode = p.mode → q.created = p.created →
      p.Extends q := by
    intro q hq hmode hcreated
    exact hq.extends hmode fun i hi => hcreated ▸ hi
  cases h with
  | @create s sound noListeners => exact hsame (p.sameShown_push s) rfl rfl
  | change here sound listeners sequence value published =>
    exact hsame (Provider.sameShown_set here sequence value published) rfl rfl
  | @publish id s ops here batch served rest listeners all =>
    refine ⟨rfl, fun _ hi => hi, fun {id' t} ht => ?_⟩
    obtain ⟨hlt, -⟩ := List.getElem?_eq_some_iff.mp here
    by_cases heq : id = id'
    · subst heq
      obtain rfl := Option.some.inj (here.symm.trans ht)
      refine ⟨s.publish.1, List.getElem?_set_self hlt, ?_⟩
      rcases (hp.wired.sound s (List.mem_of_getElem? here)).publish.2 with
        ⟨-, -, -, hpub⟩ | ⟨_, -, -, hpre, -⟩
      · rw [hpub]
      · exact hpre
    · refine ⟨t, ?_, List.prefix_rfl⟩
      rw [List.getElem?_set_ne heq, ht]
  | provide =>
    exact Provider.SameShown.extends (fun hs => Provider.states_addListeners hs _ _ _) rfl
      fun _ hi => List.mem_append_left _ hi
  | withdraw => exact hsame (fun hs => Provider.states_removeListeners hs _) rfl rfl
  | @replace members =>
    refine Provider.SameShown.extends (p.sameShown_replacedBy members) (p.mode_replacedBy members)
      fun i hi => ?_
    rw [p.created_replacedBy]
    exact List.mem_append_left _ hi
  | generation => exact hsame (fun hs => ⟨_, hs, rfl, rfl, rfl⟩) rfl rfl
  | spawn =>
    exact Provider.SameShown.extends (fun hs => Provider.states_addListeners hs _ _ _) rfl
      fun _ hi => List.mem_append_left _ hi
  | close => exact hsame (fun hs => Provider.states_removeListeners hs _) rfl rfl
  | dispose => exact hsame (fun hs => ⟨_, hs, rfl, rfl, rfl⟩) rfl rfl

theorem Moves.extends {p q : Provider} {us : List (Update Op)} (h : Moves κ p us q)
    (hp : p.WellFormed) : p.Extends q := by
  induction h with
  | refl p => exact .refl p
  | head move _ ih => exact (move.extends hp).trans (ih (move.wellFormed hp))

theorem Move.recorded {p q : Provider} {us : List (Update Op)} (h : Move κ p us q) (hp : p.WellFormed)
    (hr : p.Recorded) : q.Recorded := by
  cases h with
  | create | change | publish | generation | dispose => exact ⟨hr.created, hr.shape⟩
  | @provide members may mode none =>
    refine ⟨fun i hi => ?_, fun i hi => ?_⟩
    · rw [Provider.liveInstances_of_singleton (p := p.provided members) mode] at hi
      exact List.mem_append_right _ hi
    · obtain rfl := Option.some.inj hi
      rfl
  | @withdraw i here =>
    have hmode := hp.mode_of_singleton here
    refine ⟨fun j hj => ?_, fun j hj => by cases hj⟩
    rw [Provider.liveInstances_of_singleton (p := { p.detach i with singleton := none }) hmode] at hj
    cases hj
  | @replace members mode =>
    refine ⟨fun i hi => ?_, fun i hi => ?_⟩
    · rw [Provider.live_replacedBy mode] at hi
      rw [p.created_replacedBy]
      exact List.mem_append_right _ hi
    · obtain rfl := Option.some.inj hi
      rfl
  | @spawn key members mode absent =>
    refine ⟨fun i hi => ?_, fun i hi => ?_⟩
    · rw [Provider.live_spawned mode absent] at hi
      rcases List.mem_append.mp hi with hi | hi
      · exact List.mem_append_left _ (hr.created i hi)
      · exact List.mem_append_right _ hi
    · exact hr.shape i hi
  | close here is =>
    refine ⟨fun j hj => ?_, hr.shape⟩
    exact hr.created j ((hp.mem_live_closed here is).mp hj).1

theorem Moves.recorded {p q : Provider} {us : List (Update Op)} (h : Moves κ p us q)
    (hp : p.WellFormed) (hr : p.Recorded) : q.Recorded := by
  induction h with
  | refl => exact hr
  | head move _ ih => exact ih (move.wellFormed hp) (move.recorded hp hr)

/-! ## The shape of a singleton -/

/-- The shape that a replacement has to have is that of the snapshot. -/
def Provider.ShapeKnown (p : Provider) (shape : List (JsString × MemberKind)) : Prop :=
  p.mode = .singleton → ∃ current, p.singletonShape = some current ∧ current.Nodup ∧
    ∀ e, e ∈ current ↔ e ∈ shape

/-- Shapes that `sameServiceMemberShape` takes for the same have the same members. -/
theorem mem_of_sameServiceMemberShape {left right : Table JsString MemberKind} (hl : left.Nodup)
    (h : sameServiceMemberShape left right = true) (e : JsString × MemberKind) :
    e ∈ right ↔ e ∈ left := by
  rw [sameServiceMemberShape, Bool.and_eq_true, beq_iff_eq, List.all_eq_true] at h
  obtain ⟨hlen, hall⟩ := h
  have hsub : left ⊆ right := by
    intro e he
    exact Table.mem_of_get (beq_iff_eq.mp (hall e he))
  -- as many entries, and no entry of the left one twice
  have hnodup : List.Nodup left := List.Nodup.of_map Prod.fst hl
  have hperm : left.Perm right := (hnodup.subperm hsub).perm_of_length_le (Nat.le_of_eq hlen.symm)
  exact hperm.mem_iff.symm

theorem shape_accepted {p : Provider} {shape : List (JsString × MemberKind)} (h : p.ShapeKnown shape)
    (hmode : p.mode = .singleton) {members : Table JsString Member}
    (hshape : p.assertSingletonShape (serviceMemberShape members) = .ok ()) :
    ∀ e, e ∈ serviceMemberShape members ↔ e ∈ shape := by
  obtain ⟨current, hcurrent, hnodup, hmem⟩ := h hmode
  rw [Provider.assertSingletonShape, hcurrent] at hshape
  simp only at hshape
  split at hshape
  · next hsame => exact fun e => (mem_of_sameServiceMemberShape hnodup hsame e).trans (hmem e)
  · cases hshape

theorem Move.shapeKnown {p q : Provider} {us : List (Update Op)} (h : Move κ p us q)
    {shape : List (JsString × MemberKind)} (hs : p.ShapeKnown shape) : q.ShapeKnown shape := by
  have hnew : ∀ {members : Table JsString Member}, p.mode = .singleton → members.Nodup →
      p.assertSingletonShape (serviceMemberShape members) = .ok () →
      ∃ current, some (serviceMemberShape members) = some current ∧ current.Nodup ∧
        ∀ e, e ∈ current ↔ e ∈ shape := by
    intro members hmode hnodup hshape
    refine ⟨_, rfl, ?_, shape_accepted hs hmode hshape⟩
    rw [serviceMemberShape, Table.Nodup, Table.keys_mapValues]
    exact hnodup
  cases h with
  | create | change | publish | withdraw | generation | close | dispose => exact hs
  | provide may mode none accepts hshape => exact fun _ => hnew mode accepts.nodup hshape
  | replace mode accepts hshape => exact fun _ => hnew mode accepts.nodup hshape
  | @spawn key members mode =>
    intro hmode
    have hsingle : p.mode = .singleton := hmode
    rw [mode] at hsingle
    cases hsingle

/-! ## Views follow the moves -/

/-- Two live instances of one address are one. -/
theorem Provider.WellFormed.eq_of_address {p : Provider} (h : p.WellFormed) {i j : ProviderInstance}
    (hi : i ∈ p.liveInstances) (hj : j ∈ p.liveInstances) (heq : i.address = j.address) : i = j := by
  cases hmode : p.mode with
  | singleton =>
    rw [Provider.liveInstances_of_singleton hmode, Option.mem_toList] at hi hj
    exact Option.some.inj (hi.symm.trans hj)
  | keyed =>
    rw [Provider.liveInstances_of_keyed hmode] at hi hj
    obtain ⟨⟨key, i'⟩, hmem, rfl⟩ := List.mem_map.mp hi
    obtain ⟨⟨key', j'⟩, hmem', rfl⟩ := List.mem_map.mp hj
    obtain ⟨g, haddr, -⟩ := h.address key i' hmem
    obtain ⟨g', haddr', -⟩ := h.address key' j' hmem'
    rw [show i'.address = j'.address from heq, haddr'] at haddr
    have hkey : key' = key := (Address.mk.inj (Option.some.inj haddr)).1
    have hget := Table.get_of_mem h.keys hmem
    rw [← hkey, Table.get_of_mem h.keys hmem'] at hget
    exact (Option.some.inj hget).symm

/-- Singletons have no address, keyed instances have one. -/
theorem Provider.WellFormed.address_none {p : Provider} (h : p.WellFormed) {i : ProviderInstance}
    (hi : i ∈ p.liveInstances) : i.address = none ↔ p.mode = .singleton := by
  cases hmode : p.mode with
  | singleton =>
    rw [Provider.liveInstances_of_singleton hmode, Option.mem_toList] at hi
    simp [h.noAddress i hi]
  | keyed =>
    rw [Provider.liveInstances_of_keyed hmode] at hi
    obtain ⟨⟨key, i'⟩, hmem, rfl⟩ := List.mem_map.mp hi
    obtain ⟨g, haddr, -⟩ := h.address key i' hmem
    simp [haddr]

/-- A listener of a state is told apart by its address and its member. -/
theorem Provider.WellFormed.listener_ext {p : Provider} (h : p.WellFormed) {id : ℕ}
    {s : MutableReplicatedState} (hs : p.states[id]? = some s) {l l' : SourceListener}
    (hl : l ∈ s.sourceListeners) (hl' : l' ∈ s.sourceListeners) (haddr : l.address = l'.address)
    (hmember : l.member = l'.member) : l = l' := by
  obtain ⟨i, hi, hid, ha, -⟩ := (h.wired.listeners hs l).mp hl
  obtain ⟨i', hi', hid', ha', -⟩ := (h.wired.listeners hs l').mp hl'
  have hsame : i = i' := h.eq_of_address hi hi' (ha.symm.trans (haddr.trans ha'))
  have hids : l.id = l'.id := by rw [hid, hid', hsame]
  cases l
  cases l'
  simp_all

/-- The calls of some source listeners, for a view that shows the value before the batch. -/
theorem trajectory_served {B : Option Address → JsString → ℕ × Json → Prop} {mode : Mode}
    (shape : List (JsString × MemberKind)) {n : ℕ} {v w : Json} {ops : List Op}
    (happly : applyImmutable (some v) ops = .ok (some w)) {ls : List SourceListener}
    (hkeys : (ls.map fun l => (l.address, l.member)).Nodup)
    (hmode : ∀ l ∈ ls, l.address = none ↔ mode = .singleton)
    (hnew : ∀ l ∈ ls, B l.address l.member (n + 1, w)) {view : View} (hview : view.Bounded B)
    (hold : ∀ l ∈ ls, ∀ x, view l.address l.member = some x → x = (n, v)) :
    Trajectory B mode shape view (ls.map (·.update (n + 1) ops)) ∧
      ∀ a m x, view.afterAll (ls.map (·.update (n + 1) ops)) a m = some x →
        ((∃ l ∈ ls, a = l.address ∧ m = l.member) ∧ x = (n + 1, w)) ∨
          ((¬∃ l ∈ ls, a = l.address ∧ m = l.member) ∧ view a m = some x) := by
  induction ls generalizing view with
  | nil => exact ⟨hview, fun a m x hx => .inr ⟨by simp, hx⟩⟩
  | cons l ls ih =>
    simp only [List.forall_mem_cons] at hmode hnew hold
    rw [List.map_cons, List.nodup_cons] at hkeys
    have hne : ∀ l' ∈ ls, ¬(l'.address = l.address ∧ l'.member = l.member) := by
      rintro l' hl' ⟨ha, hm⟩
      exact hkeys.1 (List.mem_map.mpr ⟨l', hl', by rw [ha, hm]⟩)
    have hadvance : ∀ x, advance (view l.address l.member) (n + 1) ops = some x → x = (n + 1, w) := by
      intro x hx
      cases hheld : view l.address l.member with
      | none =>
        rw [hheld] at hx
        cases hx
      | some y =>
        rw [hheld, hold.1 y hheld] at hx
        simp only [advance, Option.bind_some, happly] at hx
        exact (Option.some.inj hx).symm
    have hafter : ∀ a m, view.after (l.update (n + 1) ops) a m
        = if a = l.address ∧ m = l.member then advance (view a m) (n + 1) ops else view a m :=
      fun _ _ => rfl
    have hview' : (view.after (l.update (n + 1) ops)).Bounded B := by
      intro a m x hx
      rw [hafter] at hx
      split at hx
      · next heq =>
        rw [heq.1, heq.2] at hx ⊢
        rw [hadvance x hx]
        exact hnew.1
      · exact hview a m x hx
    have hold' : ∀ l' ∈ ls, ∀ x, view.after (l.update (n + 1) ops) l'.address l'.member = some x →
        x = (n, v) := by
      intro l' hl' x hx
      rw [hafter, if_neg (hne l' hl')] at hx
      exact hold.2 l' hl' x hx
    obtain ⟨htraj, hrest⟩ := ih hkeys.2 hmode.2 hnew.2 hview' hold'
    refine ⟨⟨hview, ⟨hmode.1, fun k u hku => ?_⟩, htraj⟩, fun a m x hx => ?_⟩
    · obtain ⟨rfl, rfl⟩ := Prod.mk.inj (hold.1 _ hku)
      exact ⟨rfl, w, happly⟩
    · rcases hrest a m x hx with ⟨⟨l', hl', heq⟩, rfl⟩ | ⟨hnone, hx⟩
      · exact .inl ⟨⟨l', List.mem_cons_of_mem _ hl', heq⟩, rfl⟩
      rw [hafter] at hx
      split at hx
      · next heq =>
        rw [heq.1, heq.2] at hx
        exact .inl ⟨⟨l, List.mem_cons_self, heq⟩, hadvance x hx⟩
      · next heq =>
        refine .inr ⟨?_, hx⟩
        rintro ⟨l', hl', heq'⟩
        rcases List.mem_cons.mp hl' with rfl | hl'
        · exact heq heq'
        · exact hnone ⟨l', hl', heq'⟩

/-- One publication that reaches all source listeners of its state. -/
theorem trajectory_publish {p : Provider} (hp : p.WellFormed) (hr : p.Recorded)
    {shape : List (JsString × MemberKind)} {view : View} (hc : Current p view) {id : ℕ}
    {s : MutableReplicatedState} {ops : List Op} (here : p.states[id]? = some s)
    (batch : s.publish.2 = .ok (some ops)) :
    Trajectory (Provider.Published { p with states := p.states.set id s.publish.1 }) p.mode shape view
        (s.sourceListeners.map (·.update s.publish.1.sequence ops)) ∧
      Current { p with states := p.states.set id s.publish.1 }
        (view.afterAll (s.sourceListeners.map (·.update s.publish.1.sequence ops))) := by
  have hmove : Move ⟨True, True⟩ p (s.sourceListeners.map (·.update s.publish.1.sequence ops))
      { p with states := p.states.set id s.publish.1 } :=
    .publish here batch (List.append_nil _).symm fun _ => rfl
  have hlt := (List.getElem?_eq_some_iff.mp here).1
  have hsound := hp.wired.sound s (List.mem_of_getElem? here)
  have hlisteners := hp.wired.listeners here
  obtain ⟨hsound', ⟨hnone, -⟩ | ⟨ops', hops', hseq, -, -, happly⟩⟩ := hsound.publish
  · rw [hnone] at batch
    cases batch
  obtain rfl : ops = ops' := by
    rw [hops'] at batch
    cases batch
    rfl
  -- what a listener stands for was at the old value
  have hold : ∀ l ∈ s.sourceListeners, ∀ x, view l.address l.member = some x →
      x = (s.sequence, s.publishedValue) := by
    intro l hl x hx
    obtain ⟨i, hi, -, ha, hm⟩ := (hlisteners l).mp hl
    obtain ⟨j, hj, ha', id', t, hm', ht, rfl⟩ := hc _ _ x hx
    obtain rfl : i = j := hp.eq_of_address hi hj (ha.symm.trans ha'.symm)
    have hget := Table.get_of_mem (hp.wired.members i hi) hm
    rw [Table.get_of_mem (hp.wired.members i hi) hm'] at hget
    obtain rfl : id' = id := by
      cases hget
      rfl
    rw [Option.some.inj (ht.symm.trans here)]
  have hnew : ∀ l ∈ s.sourceListeners, Provider.Shows { p with states := p.states.set id s.publish.1 }
      l.address l.member (s.sequence + 1, s.publish.1.publishedValue) := by
    intro l hl
    obtain ⟨i, hi, -, ha, hm⟩ := (hlisteners l).mp hl
    exact ⟨i, hi, ha.symm, id, s.publish.1, hm, List.getElem?_set_self hlt, by rw [hseq]⟩
  have hkeys : (s.sourceListeners.map fun l => (l.address, l.member)).Nodup := by
    refine List.Nodup.map_on ?_ (hp.wired.nodup s (List.mem_of_getElem? here))
    intro l hl l' hl' heq
    exact hp.listener_ext here hl hl' (Prod.mk.inj heq).1 (Prod.mk.inj heq).2
  have hmode : ∀ l ∈ s.sourceListeners, l.address = none ↔ p.mode = .singleton := by
    intro l hl
    obtain ⟨i, hi, -, ha, -⟩ := (hlisteners l).mp hl
    rw [ha]
    exact hp.address_none hi
  have hext := hmove.extends hp
  rw [hseq]
  have hserved := trajectory_served (B := Provider.Published
    { p with states := p.states.set id s.publish.1 }) shape happly hkeys hmode
    (fun l hl => (hnew l hl).published (hmove.wellFormed hp) (hmove.recorded hp hr))
    (fun a m x hx => hext.published (hc.published hp hr a m x hx)) hold
  refine ⟨hserved.1, fun a m x hx => ?_⟩
  rcases hserved.2 a m x hx with ⟨⟨l, hl, rfl, rfl⟩, rfl⟩ | ⟨hnone, hx⟩
  · exact hnew l hl
  · -- another state: it has not changed
    obtain ⟨i, hi, ha, id', t, hm, ht, rfl⟩ := hc a m x hx
    refine ⟨i, hi, ha, id', t, hm, ?_, rfl⟩
    rw [List.getElem?_set_ne, ht]
    rintro rfl
    exact hnone ⟨⟨i.id, i.address, m⟩, (hlisteners _).mpr ⟨i, hi, rfl, rfl, hm⟩, ha.symm, rfl⟩

/-- **What a move emits takes a current view to a current view.** -/
theorem Move.trajectory (hκ : κ.full) {p q : Provider} {us : List (Update Op)} (h : Move κ p us q)
    (hp : p.WellFormed) (hr : p.Recorded) {shape : List (JsString × MemberKind)}
    (hs : p.ShapeKnown shape) {view : View} (hc : Current p view) :
    Trajectory q.Published p.mode shape view us ∧ Current q (view.afterAll us) := by
  have hq := h.wellFormed hp
  have hrq := h.recorded hp hr
  have hbefore : view.Bounded q.Published := fun a m x hx =>
    (h.extends hp).published (hc.published hp hr a m x hx)
  -- a move that emits nothing
  have hsilent : Current q view → Trajectory q.Published p.mode shape view [] ∧
      Current q (view.afterAll []) := fun hcq => ⟨hcq.published hq hrq, hcq⟩
  -- a move that emits one update
  have hone : ∀ {u : Update Op}, view.Fits p.mode shape u → Current q (view.after u) →
      Trajectory q.Published p.mode shape view [u] ∧ Current q (view.afterAll [u]) :=
    fun hfits hcq => ⟨⟨hbefore, hfits, hcq.published hq hrq⟩, hcq⟩
  cases h with
  | @create s => exact hsilent fun a m x hx => (hc a m x hx).keep (p.sameShown_push s) fun _ hi _ => hi
  | change here sound listeners sequence value published =>
    exact hsilent fun a m x hx =>
      (hc a m x hx).keep (Provider.sameShown_set here sequence value published) fun _ hi _ => hi
  | @publish id s ops here batch served rest listeners all =>
    rw [all hκ, List.append_nil] at listeners
    rw [← listeners]
    exact trajectory_publish hp hr hc here batch
  | provide may mode none =>
    -- nothing was live, so nothing is shown
    refine hsilent fun a m x hx => ?_
    obtain ⟨i, hi, -⟩ := hc a m x hx
    rw [Provider.liveInstances_of_singleton mode, none] at hi
    cases hi
  | withdraw here => exact hone (hp.mode_of_singleton here) fun a m x hx => by cases hx
  | @replace members mode accepts shape' =>
    have hlive := Provider.live_replacedBy mode members
    have hmem : (⟨p.nextInstance, none, members⟩ : ProviderInstance)
        ∈ (p.replacedBy members).liveInstances := by
      rw [hlive]
      exact List.mem_cons_self
    refine hone ⟨mode, rfl, Provider.plain_snapshotInstance accepts.nodup, ?_⟩ fun a m x hx => ?_
    · have hsnap := Provider.shape_snapshotInstance (hq.wired.bound _ hmem)
      intro e
      rw [← shape_accepted hs mode shape' e, ← hsnap]
      rfl
    · simp only [View.after] at hx
      split at hx
      · next ha =>
        obtain ⟨id, s, hm, hst, rfl⟩ := Provider.heldIn_snapshotInstance hx
        exact ⟨_, hmem, ha.symm, id, s, hm, hst, rfl⟩
      · next ha =>
        obtain ⟨i, hi, hia, -⟩ := hc a m x hx
        exact absurd (hia.symm.trans ((hp.address_none hi).mpr mode)) ha
  | generation =>
    exact hsilent fun a m x hx =>
      (hc a m x hx).keep (fun hs => ⟨_, hs, rfl, rfl, rfl⟩) fun _ hi _ => hi
  | @spawn key members mode absent accepts =>
    have hlive := Provider.live_spawned mode absent members
    have hmem : (⟨p.nextInstance, some (p.nextAddress key), members⟩ : ProviderInstance)
        ∈ (p.spawned key members).liveInstances := by
      rw [hlive]
      exact List.mem_append_right _ List.mem_cons_self
    refine hone ⟨mode, Provider.plain_snapshotInstance accepts.nodup, p.nextAddress key, rfl,
      fun m => ?_⟩ fun a m x hx => ?_
    · -- no live instance has the key
      cases hview : view (some (p.nextAddress key)) m with
      | none => rfl
      | some x =>
        obtain ⟨i, hi, ha, -⟩ := hc _ m x hview
        rw [Provider.liveInstances_of_keyed mode] at hi
        obtain ⟨⟨key', i'⟩, hin, rfl⟩ := List.mem_map.mp hi
        obtain ⟨g, haddr, -⟩ := hp.address key' i' hin
        have hkey : key' = key :=
          (Address.mk.inj (Option.some.inj (haddr.symm.trans ha))).1
        rw [hkey] at hin
        exact absurd (Table.mem_keys_of_mem hin) absent
    · simp only [View.after] at hx
      split at hx
      · next ha =>
        obtain ⟨id, s, hm, hst, rfl⟩ := Provider.heldIn_snapshotInstance hx
        exact ⟨_, hmem, ha.symm, id, s, hm, hst, rfl⟩
      · refine (hc a m x hx).keep (fun hs => Provider.states_addListeners hs _ _ _) fun i hi _ => ?_
        rw [hlive]
        exact List.mem_append_left _ hi
  | @close address i here is =>
    refine hone (hp.mode_of_instance (Table.mem_of_get here)) fun a m x hx => ?_
    simp only [View.after] at hx
    split at hx
    · cases hx
    · next ha =>
      refine (hc a m x hx).keep (fun hs => Provider.states_removeListeners hs _) fun j hj hja => ?_
      refine (hp.mem_live_closed here is).mpr ⟨hj, ?_⟩
      rw [hja]
      exact ha
  | dispose =>
    exact hsilent fun a m x hx =>
      (hc a m x hx).keep (fun hs => ⟨_, hs, rfl, rfl, rfl⟩) fun _ hi _ => hi

theorem Moves.trajectory (hκ : κ.full) {p q : Provider} {us : List (Update Op)} (h : Moves κ p us q)
    (hp : p.WellFormed) (hr : p.Recorded) {shape : List (JsString × MemberKind)}
    (hs : p.ShapeKnown shape) {view : View} (hc : Current p view) :
    Trajectory q.Published p.mode shape view us ∧ Current q (view.afterAll us) ∧ q.ShapeKnown shape := by
  induction h generalizing view with
  | refl => exact ⟨hc.published hp hr, hc, hs⟩
  | @head p p' q us vs move rest ih =>
    obtain ⟨htraj, hc'⟩ := move.trajectory hκ hp hr hs hc
    obtain ⟨htraj', hc'', hs'⟩ := ih (move.wellFormed hp) (move.recorded hp hr) (move.shapeKnown hs) hc'
    have hext := rest.extends (move.wellFormed hp)
    refine ⟨(htraj.mono fun a m x => hext.published).append ?_, ?_, hs'⟩
    · rw [← (move.extends hp).mode]
      exact htraj'
    · rw [View.afterAll, List.foldl_append]
      exact hc''

/-! ## What a subscription is sent -/

/-- What the subscription is sent fits, from its snapshot on, and takes an open one to what is
current. -/
structure Streamed (p : Provider) (s : Subscriber) : Prop where
  plain : s.snapshot.Plain p.mode
  trajectory : Trajectory p.Published p.mode s.snapshot.shape s.snapshot.view s.history
  current : s.isOpen = true → Current p (s.snapshot.view.afterAll s.history)
  shape : s.isOpen = true → p.ShapeKnown s.snapshot.shape

theorem Provider.Opens.streamed {q : Provider} (hq : q.WellFormed) (hr : q.Recorded) {s : Subscriber}
    (h : q.Opens s) : Streamed q s := by
  have hc := q.current_snapshot
  have hplain := hq.plain_snapshot h.present
  rw [← h.snapshot] at hc hplain
  refine ⟨hplain, ?_, fun _ => ?_, fun _ hmode => ?_⟩
  · rw [h.history]
    exact hc.published hq hr
  · rw [h.history]
    exact hc
  · obtain ⟨i, hi⟩ := Option.ne_none_iff_exists'.mp (h.present hmode)
    have hlive : q.liveInstances = [i] := by rw [Provider.liveInstances_of_singleton hmode, hi]; rfl
    have hmem : i ∈ q.liveInstances := by
      rw [hlive]
      exact List.mem_cons_self
    refine ⟨_, hr.shape i hi, ?_, fun e => ?_⟩
    · rw [serviceMemberShape, Table.Nodup, Table.keys_mapValues]
      exact hq.wired.members i hmem
    · have hshape : s.snapshot.shape = (q.snapshotInstance i).shape := by
        rw [h.snapshot, SubscriptionSnapshot.shape, Provider.snapshot, Provider.sortedInstances, hmode]
        simp only
        rw [hlive]
        simp
      rw [hshape, Provider.shape_snapshotInstance (hq.wired.bound i hmem)]

theorem Provider.Steps.streamed {p q : Provider} {us : List (Update Op)} (h : Steps κ p us q)
    (hκ : κ.full) (hp : p.WellFormed) (hr : p.Recorded) {j : ℕ} {s s' : Subscriber}
    (hs : p.subscribers[j]? = some s) (hs' : q.subscribers[j]? = some s') (hst : Streamed p s) :
    Streamed q s' := by
  obtain ⟨s'', hs'', hcont⟩ := h.continues hs
  obtain rfl : s' = s'' := Option.some.inj (hs'.symm.trans hs'')
  have hext := h.moves.extends hp.core
  have hmode : q.mode = p.mode := hext.mode
  have hmono : ∀ a m x, p.Published a m x → q.Published a m x := fun a m x hx => hext.published hx
  have hplain : s'.snapshot.Plain q.mode := by
    rw [hmode, hcont.snapshot]
    exact hst.plain
  cases hopen : s.isOpen with
  | false =>
    have hpre := hcont.history
    rw [hopen] at hpre
    have hclosed : s'.isOpen ≠ true := fun ho => by
      rw [(hcont.opened ho).1] at hopen
      cases hopen
    refine ⟨hplain, ?_, fun ho => absurd ho hclosed, fun ho => absurd ho hclosed⟩
    rw [hmode, hcont.snapshot]
    exact (hst.trajectory.prefix_of hpre).mono hmono
  | true =>
    obtain ⟨htraj, hc, hshape⟩ := h.moves.trajectory hκ hp.core ⟨hr.created, hr.shape⟩
      (hst.shape hopen) (hst.current hopen)
    have hall : Trajectory q.Published p.mode s.snapshot.shape s.snapshot.view (s.history ++ us) :=
      (hst.trajectory.mono hmono).append htraj
    have hpre := hcont.history
    rw [hopen] at hpre
    refine ⟨hplain, ?_, fun ho => ?_, fun ho => ?_⟩
    · rw [hmode, hcont.snapshot]
      exact hall.prefix_of hpre
    · rw [hcont.snapshot, (hcont.opened ho).2, View.afterAll, List.foldl_append]
      exact hc
    · rw [hcont.snapshot]
      exact hshape

end Phi.Services
