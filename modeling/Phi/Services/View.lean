import Phi.Services.Consumer

/-!
# What a subscription shows

A `View` is what a consumer's replicas should hold: for every state of the service nothing, or the value
at a sequence. `View.after` says what an update makes of it, and `View.Fits` what an update has to be
like to be understood. The consumer's replicas hold no more than the view says
(`Consumer.Follows`), and as long as the updates fit, no update finds a gap.
-/

namespace Phi.Services

open Delta

/-! ## Views -/

/-- For every state, the value at a sequence, if there is one. -/
abbrev View := Option Address → JsString → Option (ℕ × Json)

/-- What one batch makes of a replica. -/
def advance (x : Option (ℕ × Json)) (sequence : ℕ) (ops : List Op) : Option (ℕ × Json) :=
  x.bind fun held =>
    match applyImmutable (some held.2) ops with
    | .ok (some value) => some (sequence, value)
    | _ => none

/-- The pair a member of a snapshot hydrates its replica with. -/
def MemberSnapshot.held : MemberSnapshot Op → Option (ℕ × Json)
  | .state _ sequence [.r value] => some (sequence, value)
  | _ => none

/-- The pair a snapshot holds for a name. -/
def heldIn (members : List (MemberSnapshot Op)) (name : JsString) : Option (ℕ × Json) :=
  (members.find? fun m => m.name = name).bind MemberSnapshot.held

namespace View

/-- The view after an update. -/
def after (view : View) : Update Op → View
  | .state address member sequence ops => fun a m =>
    if a = address ∧ m = member then advance (view a m) sequence ops else view a m
  | .unavailable => fun _ _ => none
  | .replaced snapshot => fun a m =>
    if a = snapshot.address then heldIn snapshot.members m else view a m
  | .spawned i => fun a m => if a = i.address then heldIn i.members m else view a m
  | .closed address => fun a m => if a = some address then none else view a m

/-- One view says no more than another. -/
def Le (view view' : View) : Prop := ∀ a m x, view a m = some x → view' a m = some x

end View

/-! ## Snapshots -/

/-- A snapshot as a provider takes it: names once, and each state as one replacement. -/
structure InstanceSnapshot.Plain (s : InstanceSnapshot Op) : Prop where
  nodup : (s.members.map MemberSnapshot.name).Nodup
  base : ∀ name sequence ops, MemberSnapshot.state name sequence ops ∈ s.members → ∃ v, ops = [.r v]

/-- The names and kinds of the members. -/
def InstanceSnapshot.shape {ω : Type} (s : InstanceSnapshot ω) : List (JsString × MemberKind) :=
  s.members.map fun m => (m.name, m.kind)

/-- The names and kinds in a snapshot of a singleton. -/
def SubscriptionSnapshot.shape {ω : Type} (s : SubscriptionSnapshot ω) : List (JsString × MemberKind) :=
  s.instances.flatMap InstanceSnapshot.shape

/-- An update that a subscription with this view understands. -/
def View.Fits (mode : Mode) (shape : List (JsString × MemberKind)) (view : View) : Update Op → Prop
  | .state address member sequence ops => (address = none ↔ mode = .singleton) ∧
    ∀ n v, view address member = some (n, v) →
      sequence = n + 1 ∧ ∃ w, applyImmutable (some v) ops = .ok (some w)
  | .unavailable => mode = .singleton
  | .replaced snapshot => mode = .singleton ∧ snapshot.address = none ∧ snapshot.Plain ∧
    ∀ e, e ∈ snapshot.shape ↔ e ∈ shape
  | .spawned i => mode = .keyed ∧ i.Plain ∧ ∃ address, i.address = some address ∧
    ∀ m, view (some address) m = none
  | .closed _ => mode = .keyed

theorem heldIn_cons (m : MemberSnapshot Op) (ms : List (MemberSnapshot Op)) (name : JsString) :
    heldIn (m :: ms) name = if m.name = name then m.held else heldIn ms name := by
  rw [heldIn, List.find?_cons]
  by_cases h : m.name = name
  · simp [h]
  · simp [h, heldIn]

theorem heldIn_eq_none {ms : List (MemberSnapshot Op)} {name : JsString}
    (h : name ∉ ms.map MemberSnapshot.name) : heldIn ms name = none := by
  have hfind : ms.find? (fun m => m.name = name) = none := by
    rw [List.find?_eq_none]
    intro m hm heq
    exact h (List.mem_map.mpr ⟨m, hm, by simpa using heq⟩)
  rw [heldIn, hfind]
  rfl

/-! ## Facades -/

namespace Facade

/-- Slots stand for the members described as states. -/
def Ready (f : Facade) : Prop :=
  ∀ name slot, f.slots.get name = some slot →
    slot.kind = some .state ∧ f.descriptions.get name = some .state

/-- The facade with a slot in its place. -/
def put (f : Facade) (member : JsString) (slot : Slot) : Facade :=
  { f with slots := f.slots.set member slot }

/-- What `hydrate` and `update` do to a member described as a state. -/
theorem onState_eq {f : Facade} (h : f.Ready) {member : JsString}
    (hkind : f.descriptions.get member = some .state)
    (action : Replica → Replica × Except ServiceError Unit) :
    ∃ slot : Slot, slot.kind = some .state ∧ slot.replica.held = f.held member ∧
      f.onState member action
        = (f.put member ⟨slot.kind, (action slot.replica).1⟩, (action slot.replica).2) := by
  cases hslot : f.slots.get member with
  | none =>
    refine ⟨⟨some .state, .empty⟩, rfl, ?_, ?_⟩
    · rw [held, hslot]
      rfl
    · rw [onState, slot, hslot, hkind]
      rfl
  | some s =>
    obtain ⟨hk, -⟩ := h member s hslot
    refine ⟨s, hk, ?_, ?_⟩
    · rw [held, hslot]
      rfl
    · have hset : s.setDescription f.serviceId member .state = .ok s := by
        simp [Slot.setDescription, hk]
      rw [onState, slot, hslot]
      simp only [hset]
      rfl

/-- Replacing the replica of a slot. -/
theorem held_put (f : Facade) (member : JsString) (slot : Slot) (m : JsString) :
    (f.put member slot).held m = if member = m then slot.replica.held else f.held m := by
  simp only [held, put, Table.get_set]
  split <;> rfl

theorem Ready.put {f : Facade} (h : f.Ready) {member : JsString}
    (hkind : f.descriptions.get member = some .state) {slot : Slot} (hslot : slot.kind = some .state) :
    (f.put member slot).Ready := by
  intro name s hs
  simp only [Facade.put, Table.get_set] at hs
  split at hs
  · next heq =>
    obtain rfl := Option.some.inj hs
    rw [← heq]
    exact ⟨hslot, hkind⟩
  · exact h name s hs

/-- A batch for a state: the replica that can follow it does. -/
theorem update_spec {f : Facade} (h : f.Ready) (member : JsString) (sequence : ℕ) (ops : List Op)
    (hfits : ∀ n v, f.held member = some (n, v) →
      sequence = n + 1 ∧ ∃ w, applyImmutable (some v) ops = .ok (some w)) :
    (f.update member sequence ops).1.Ready ∧
      (f.update member sequence ops).1.descriptions = f.descriptions ∧
      (f.update member sequence ops).2 ≠ .error .gap ∧
      (∀ m, (f.update member sequence ops).1.held m
        = if m = member then advance (f.held m) sequence ops else f.held m) ∧
      (f.update member sequence ops).1.address = f.address ∧
      (f.update member sequence ops).1.serviceId = f.serviceId := by
  rw [update]
  split
  · next hkind =>
    -- no slot stands for a member that is not described as a state
    have hnone : f.held member = none := by
      rw [held]
      cases hs : f.slots.get member with
      | none => rfl
      | some s => exact absurd (h member s hs).2 hkind
    refine ⟨h, rfl, by simp, fun m => ?_, rfl, rfl⟩
    split
    · next heq =>
      rw [heq, hnone]
      rfl
    · rfl
  · next hkind =>
    rw [not_not] at hkind
    obtain ⟨slot, hslot, hheld, heq⟩ := onState_eq h hkind fun r => r.update sequence ops
    rw [heq]
    have hstep : (slot.replica.update sequence ops).2 ≠ .error .gap ∧
        (slot.replica.update sequence ops).1.held = advance (f.held member) sequence ops := by
      cases hf : f.held member with
      | none =>
        rw [hf] at hheld
        simp [Replica.update, hheld, advance]
      | some x =>
        obtain ⟨n, v⟩ := x
        obtain ⟨rfl, w, hw⟩ := hfits n v hf
        rw [hf] at hheld
        rw [Replica.update_next hheld hw]
        simp [advance, hw]
    refine ⟨h.put hkind hslot, rfl, hstep.1, fun m => ?_, rfl, rfl⟩
    rw [held_put]
    by_cases hm : m = member
    · rw [if_pos hm.symm, if_pos hm, hstep.2, hm]
    · rw [if_neg (Ne.symm hm), if_neg hm]

theorem clear_spec {f : Facade} (h : f.Ready) :
    f.clear.Ready ∧ f.clear.descriptions = f.descriptions ∧ (∀ m, f.clear.held m = none) := by
  refine ⟨fun name slot hs => ?_, rfl, fun m => ?_⟩
  · rw [clear, Table.get_mapValues] at hs
    obtain ⟨s, hs', rfl⟩ := Option.map_eq_some_iff.mp hs
    exact h name s hs'
  · rw [held, clear, Table.get_mapValues]
    cases f.slots.get m <;> rfl

/-- The members of a snapshot, on a facade that describes them. -/
theorem installMembers_spec {f : Facade} (h : f.Ready) {ms : List (MemberSnapshot Op)}
    (hnodup : (ms.map MemberSnapshot.name).Nodup)
    (hbase : ∀ name sequence ops, MemberSnapshot.state name sequence ops ∈ ms → ∃ v, ops = [.r v])
    (hkinds : ∀ m ∈ ms, f.descriptions.get m.name = some m.kind) :
    (f.installMembers ms).2 = .ok () ∧ (f.installMembers ms).1.Ready ∧
      (f.installMembers ms).1.descriptions = f.descriptions ∧
      (∀ name, (f.installMembers ms).1.held name
        = if (name, MemberKind.state) ∈ ms.map (fun m => (m.name, m.kind)) then heldIn ms name
          else f.held name) ∧
      (f.installMembers ms).1.address = f.address ∧
      (f.installMembers ms).1.serviceId = f.serviceId := by
  induction ms generalizing f with
  | nil => exact ⟨rfl, h, rfl, fun name => by simp [installMembers], rfl, rfl⟩
  | cons m ms ih =>
    simp only [List.forall_mem_cons] at hkinds
    rw [List.map_cons, List.nodup_cons] at hnodup
    have hbase' : ∀ name sequence ops, MemberSnapshot.state name sequence ops ∈ ms →
        ∃ v, ops = [.r v] := fun name sequence ops hm => hbase name sequence ops
      (List.mem_cons_of_mem _ hm)
    cases m with
    | method name =>
      -- a method has no slot
      have hnone : f.slots.get name = none := by
        cases hs : f.slots.get name with
        | none => rfl
        | some s =>
          have hstate := (h name s hs).2
          rw [show f.descriptions.get name = some MemberKind.method from hkinds.1] at hstate
          cases hstate
      have hstep : f.installMembers (.method name :: ms) = f.installMembers ms := by
        rw [installMembers, installMember, hnone]
      obtain ⟨hok, hready, hdesc, hheld, haddr, hid⟩ := ih h hnodup.2 hbase' hkinds.2
      rw [hstep]
      refine ⟨hok, hready, hdesc, fun name' => ?_, haddr, hid⟩
      rw [hheld name', heldIn_cons]
      by_cases heq : name = name'
      · subst heq
        have hnot : (name, MemberKind.state) ∉ ms.map fun m => (m.name, m.kind) := by
          intro hin
          obtain ⟨m, hm, heq⟩ := List.mem_map.mp hin
          exact hnodup.1 (List.mem_map.mpr ⟨m, hm, (Prod.mk.inj heq).1⟩)
        rw [if_neg hnot, if_neg]
        simpa [MemberSnapshot.kind] using hnot
      · simp [MemberSnapshot.name, heq, MemberSnapshot.kind]
    | state name sequence ops =>
      obtain ⟨v, rfl⟩ := hbase name sequence ops List.mem_cons_self
      obtain ⟨slot, hslot, -, heq⟩ := onState_eq h hkinds.1 fun r => r.hydrate sequence [.r v]
      have hstep : f.installMembers (.state name sequence [.r v] :: ms)
          = (f.put name ⟨slot.kind, ⟨some (sequence, v)⟩⟩).installMembers ms := by
        have honState : f.onState name (fun r => r.hydrate sequence [.r v])
            = (f.put name ⟨slot.kind, ⟨some (sequence, v)⟩⟩, .ok ()) := heq
        rw [installMembers, installMember, honState]
      have hput : (f.put name ⟨slot.kind, ⟨some (sequence, v)⟩⟩).Ready := h.put hkinds.1 hslot
      obtain ⟨hok, hready, hdesc, hheld, haddr, hid⟩ := ih hput hnodup.2 hbase' hkinds.2
      rw [hstep]
      refine ⟨hok, hready, hdesc, fun name' => ?_, haddr, hid⟩
      rw [hheld name', heldIn_cons, held_put]
      by_cases heq : name = name'
      · subst heq
        have hnot : (name, MemberKind.state) ∉ ms.map fun m => (m.name, m.kind) := by
          intro hin
          obtain ⟨m, hm, heq⟩ := List.mem_map.mp hin
          exact hnodup.1 (List.mem_map.mpr ⟨m, hm, (Prod.mk.inj heq).1⟩)
        have hin : (name, MemberKind.state) ∈ (MemberSnapshot.state name sequence [.r v] :: ms).map
            fun m => (m.name, m.kind) := List.mem_cons_self
        have hself : (MemberSnapshot.state name sequence [.r v] : MemberSnapshot Op).name = name := rfl
        simp only [hnot, hin, hself, if_true, if_false]
        rfl
      · simp [MemberSnapshot.name, MemberSnapshot.kind, heq, Ne.symm heq]

theorem keys_byName (ms : List (MemberSnapshot Op)) :
    (byName ms).keys = ms.map MemberSnapshot.name := by
  rw [byName, Table.keys, List.map_map]
  rfl

theorem get_kinds {ms : List (MemberSnapshot Op)} (hnodup : (ms.map MemberSnapshot.name).Nodup)
    {m : MemberSnapshot Op} (hm : m ∈ ms) :
    ((byName ms).mapValues MemberSnapshot.kind).get m.name = some m.kind := by
  refine Table.get_of_mem ?_ (List.mem_map.mpr ⟨(m.name, m), List.mem_map.mpr ⟨m, hm, rfl⟩, rfl⟩)
  rw [Table.Nodup, Table.keys_mapValues, keys_byName]
  exact hnodup

/-- A facade that has been installed describes the members of a snapshot of this shape. -/
structure Described (shape : List (JsString × MemberKind)) (f : Facade) : Prop where
  ready : f.Ready
  names : ∀ e ∈ shape, e.1.length ≠ 0
  kinds : ∀ e, e ∈ f.descriptions → e ∈ shape

/-- What `install` leaves when it does not throw. -/
structure Installed (f : Facade) (snapshot : InstanceSnapshot Op) (f' : Facade) : Prop where
  described : Described snapshot.shape f'
  held : ∀ name, f'.held name = heldIn snapshot.members name
  address : f'.address = f.address
  serviceId : f'.serviceId = f.serviceId

/-- `install` of a plain snapshot, on a facade that is new or whose slots the snapshot knows as states. -/
theorem install_spec {f : Facade} (h : f.Ready) {snapshot : InstanceSnapshot Op} (hplain : snapshot.Plain)
    (hslots : ∀ name ∈ f.slots.keys, (name, MemberKind.state) ∈ snapshot.shape) :
    (f.install snapshot).2 ≠ .error .gap ∧
      ((f.install snapshot).2 = .ok () → f.Installed snapshot (f.install snapshot).1) ∧
      (snapshot.address = f.address → (∀ e ∈ snapshot.shape, e.1.length ≠ 0) →
        (f.install snapshot).2 = .ok ()) ∧
      ((f.install snapshot).2 ≠ .ok () → (f.install snapshot).1 = f) := by
  rw [install]
  split
  · next haddr => exact ⟨by simp, by simp, fun heq => absurd heq haddr, fun _ => rfl⟩
  cases hvalid : validateMembers snapshot.members with
  | error e =>
    have hnot : ¬∀ e ∈ snapshot.shape, e.1.length ≠ 0 := by
      intro hall
      rw [validateMembers, if_pos] at hvalid
      · cases hvalid
      · refine ⟨?_, hplain.nodup⟩
        rw [List.all_eq_true]
        intro m hm
        simpa using hall (m.name, m.kind) (List.mem_map.mpr ⟨m, hm, rfl⟩)
    refine ⟨?_, by simp, fun _ hall => absurd hall hnot, fun _ => rfl⟩
    rw [validateMembers] at hvalid
    split at hvalid
    · cases hvalid
    · cases hvalid
      simp
  | ok members =>
    rw [validateMembers] at hvalid
    split at hvalid
    swap
    · cases hvalid
    next hcheck =>
    obtain rfl := Except.ok.inj hvalid
    -- every slot stands for a state of the snapshot
    have hfind : f.slots.keys.find? (fun name => !(byName snapshot.members).has name) = none := by
      rw [List.find?_eq_none]
      intro name hname
      simp only [Bool.not_eq_true, Bool.not_eq_false']
      rw [Table.has_eq_true, keys_byName]
      obtain ⟨m, hm, heq⟩ := List.mem_map.mp (hslots name hname)
      exact List.mem_map.mpr ⟨m, hm, (Prod.mk.inj heq).1⟩
    simp only [hfind]
    have hready : Ready { f with descriptions :=
        (byName snapshot.members).mapValues MemberSnapshot.kind } := by
      intro name slot hslot
      refine ⟨(h name slot hslot).1, ?_⟩
      obtain ⟨m, hm, heq⟩ := List.mem_map.mp (hslots name (Table.mem_keys_of_get hslot))
      obtain ⟨rfl, hkind⟩ := Prod.mk.inj heq
      have hget := get_kinds hplain.nodup hm
      rw [hkind] at hget
      exact hget
    obtain ⟨hok, hready', hdesc, hheld, haddr, hid⟩ := installMembers_spec hready hplain.nodup hplain.base
      fun m hm => get_kinds hplain.nodup hm
    refine ⟨by rw [hok]; simp, fun _ => ⟨⟨hready', ?_, ?_⟩, fun name => ?_, haddr, hid⟩, fun _ _ => hok,
      fun hne => absurd hok hne⟩
    · intro e he
      obtain ⟨m, hm, rfl⟩ := List.mem_map.mp he
      have hlen := List.all_eq_true.mp hcheck.1 m hm
      simpa using hlen
    · intro e he
      rw [hdesc] at he
      obtain ⟨e', he', rfl⟩ := List.mem_map.mp he
      obtain ⟨m, hm, rfl⟩ := List.mem_map.mp he'
      exact List.mem_map.mpr ⟨m, hm, rfl⟩
    · rw [hheld name]
      split
      · rfl
      · next hnot =>
        -- not a state of the snapshot: no slot stands for it, and the snapshot holds nothing
        have hnone : f.held name = none := by
          rw [Facade.held]
          cases hs : f.slots.get name with
          | none => rfl
          | some slot => exact absurd (hslots name (Table.mem_keys_of_get hs)) hnot
        have hold : Facade.held { f with descriptions :=
            (byName snapshot.members).mapValues MemberSnapshot.kind } name = f.held name := rfl
        rw [hold, hnone, heldIn]
        cases hf : snapshot.members.find? fun m => m.name = name with
        | none => rfl
        | some m =>
          have hname : m.name = name := by simpa using List.find?_some hf
          cases m with
          | method _ => rfl
          | state name' sequence ops =>
            refine absurd (List.mem_map.mpr ⟨_, List.mem_of_find?_eq_some hf, ?_⟩) hnot
            rw [hname]
            rfl

end Facade

/-! ## Consumers -/

theorem advance_some {x : ℕ × Json} {view : View} {a : Option Address} {m : JsString}
    {held : Option (ℕ × Json)} (hle : ∀ y, held = some y → view a m = some y) {sequence : ℕ}
    {ops : List Op} (h : advance held sequence ops = some x) :
    advance (view a m) sequence ops = some x := by
  cases hheld : held with
  | none =>
    rw [hheld] at h
    cases h
  | some y =>
    rw [hle y hheld, ← hheld]
    exact h

namespace Consumer

/-- The replicas hold no more than the view says, and are ready for the next update. -/
structure Follows (mode : Mode) (shape : List (JsString × MemberKind)) (c : Consumer) (view : View) :
    Prop where
  le : View.Le (c.held mode) view
  described : mode = .singleton → c.facade.Described shape ∧ c.facade.address = none
  ready : ∀ key generation facade, c.instances.get key = some (generation, facade) → facade.Ready

variable {mode : Mode} {shape : List (JsString × MemberKind)} {c : Consumer} {view : View}

theorem held_singleton (c : Consumer) (a : Option Address) (m : JsString) :
    c.held .singleton a m = if a = none then c.facade.held m else none := by
  cases a <;> rfl

/-- An update to the consumer of a singleton. -/
theorem Follows.handleSingleton (h : c.Follows .singleton shape view) {u : Update Op}
    (hfits : view.Fits .singleton shape u) :
    (c.handleSingleton u).1.Follows .singleton shape (view.after u) ∧
      (c.handleSingleton u).2 ≠ .error .gap := by
  obtain ⟨hdesc, haddr⟩ := h.described rfl
  -- the facade is all that changes
  have hfollows : ∀ (facade : Facade) (view' : View), facade.Described shape → facade.address = none →
      (∀ m x, facade.held m = some x → view' none m = some x) →
      Follows .singleton shape { c with facade := facade } view' := by
    intro facade view' hd ha hle
    refine ⟨fun a m x hx => ?_, fun _ => ⟨hd, ha⟩, h.ready⟩
    rw [held_singleton] at hx
    split at hx
    · next ha =>
      rw [ha]
      exact hle m x hx
    · cases hx
  have hle : ∀ m x, c.facade.held m = some x → view none m = some x := fun m x hx => h.le none m x hx
  cases u with
  | unavailable =>
    obtain ⟨hready, hdescriptions, hnone⟩ := Facade.clear_spec hdesc.ready
    refine ⟨hfollows c.facade.clear _ ⟨hready, hdesc.names, ?_⟩ haddr fun m x hx => ?_, fun hc => by
      cases hc⟩
    · rw [hdescriptions]
      exact hdesc.kinds
    · rw [hnone] at hx
      cases hx
  | replaced snapshot =>
    obtain ⟨-, hnone, hplain, hshape⟩ := hfits
    have hslots : ∀ name ∈ c.facade.slots.keys, (name, MemberKind.state) ∈ snapshot.shape := by
      intro name hname
      obtain ⟨slot, hslot⟩ := Table.exists_get_of_mem_keys hname
      have hmem := Table.mem_of_get (hdesc.ready name slot hslot).2
      exact (hshape _).mpr (hdesc.kinds _ hmem)
    obtain ⟨hgap, hinstalled, hok, -⟩ := Facade.install_spec hdesc.ready hplain hslots
    have hresult := hok (hnone.trans haddr.symm) fun e he => hdesc.names e ((hshape e).mp he)
    have hins := hinstalled hresult
    rw [Consumer.handleSingleton, if_neg (by simp [hnone])]
    refine ⟨hfollows _ _ ⟨hins.described.ready, hdesc.names, fun e he => ?_⟩
      (hins.address.trans haddr) fun m x hx => ?_, hgap⟩
    · exact (hshape e).mp (hins.described.kinds e he)
    · rw [hins.held] at hx
      simp only [View.after, hnone, if_true]
      exact hx
  | state address member sequence ops =>
    obtain rfl : address = none := hfits.1.mpr rfl
    obtain ⟨hready, hdescriptions, hgap, hheld, haddress, -⟩ := Facade.update_spec hdesc.ready member
      sequence ops fun n v hnv => hfits.2 n v (hle member (n, v) hnv)
    refine ⟨hfollows (c.facade.update member sequence ops).1 _ ⟨hready, hdesc.names, ?_⟩
      (haddress.trans haddr) fun m x hx => ?_, hgap⟩
    · rw [hdescriptions]
      exact hdesc.kinds
    · rw [hheld] at hx
      simp only [View.after, true_and]
      split at hx
      · next heq =>
        rw [if_pos heq]
        exact advance_some (hle m) hx
      · next heq =>
        rw [if_neg heq]
        exact hle m x hx
  | spawned i => cases hfits.1
  | closed address => cases hfits

theorem held_keyed (c : Consumer) (address : Address) (m : JsString) :
    c.held .keyed (some address) m = (c.instances.get address.key).bind fun e =>
      if e.1 = address.generation then e.2.held m else none := by
  simp only [held]
  cases c.instances.get address.key <;> rfl

/-- A facade put in place of an entry, or as a new one. -/
theorem Follows.putInstance (h : c.Follows .keyed shape view) {address : Address} {facade : Facade}
    (hready : facade.Ready) {instances : Table JsString (ℕ × Facade)}
    (hget : ∀ key, instances.get key = if address.key = key then some (address.generation, facade)
      else c.instances.get key) {view' : View}
    (hnew : ∀ m x, facade.held m = some x → view' (some address) m = some x)
    (hold : ∀ a m, a ≠ some address → view' a m = view a m) :
    Follows .keyed shape { c with instances := instances } view' := by
  refine ⟨fun a m x hx => ?_, fun hmode => (by cases hmode), fun key generation f hf => ?_⟩
  · cases a with
    | none => cases hx
    | some address' =>
      have hheld := h.le (some address') m x
      rw [held_keyed] at hx hheld
      simp only [hget] at hx
      by_cases hkey : address.key = address'.key
      · rw [if_pos hkey] at hx
        simp only [Option.bind_some] at hx
        split at hx
        · next hgen =>
          rw [← Address.ext hkey hgen]
          exact hnew m x hx
        · cases hx
      · rw [if_neg hkey] at hx
        rw [hold _ _ fun heq => hkey (by rw [Option.some.inj heq])]
        exact hheld hx
  · simp only [hget] at hf
    split at hf
    · obtain ⟨-, rfl⟩ := Prod.mk.inj (Option.some.inj hf)
      exact hready
    · exact h.ready key generation f hf

/-- The snapshot of a new instance. -/
theorem Follows.spawn (h : c.Follows .keyed shape view) {i : InstanceSnapshot Op}
    (hfits : view.Fits .keyed shape (.spawned i)) :
    (c.spawn i).1.Follows .keyed shape (view.after (.spawned i)) ∧ (c.spawn i).2 ≠ .error .gap := by
  obtain ⟨-, hplain, address, haddr, hfresh⟩ := hfits
  have hnew : ∀ m, view.after (.spawned i) (some address) m = heldIn i.members m := by
    intro m
    simp only [View.after, haddr, if_true]
  have hold : ∀ a m, a ≠ some address → view.after (.spawned i) a m = view a m := by
    intro a m hne
    simp only [View.after, haddr, if_neg hne]
  -- an instance that is not taken up leaves the consumer without its states
  have hsame : c.Follows .keyed shape (view.after (.spawned i)) := by
    refine ⟨fun a m x hx => ?_, h.described, h.ready⟩
    have hview := h.le a m x hx
    by_cases heq : a = some address
    · rw [heq, hfresh] at hview
      cases hview
    · rw [hold a m heq]
      exact hview
  have hempty : (Facade.empty c.facade.serviceId (some address)).Ready := by
    intro name slot hslot
    cases hslot
  obtain ⟨hgap, hinstalled, -⟩ := Facade.install_spec hempty hplain (by simp [Facade.empty])
  rw [Consumer.spawn, haddr]
  simp only
  split
  · next f e heq =>
    rw [heq] at hgap
    exact ⟨hsame, hgap⟩
  · next f heq =>
    rw [heq] at hinstalled
    have hins := hinstalled rfl
    have hheld : ∀ m x, f.held m = some x → view.after (.spawned i) (some address) m = some x := by
      intro m x hx
      rw [hins.held] at hx
      rw [hnew, hx]
    rw [replaceInstance]
    split
    · refine ⟨h.putInstance hins.described.ready (fun key => ?_) hheld hold, by simp⟩
      rw [Table.get_set]
    · split
      · exact ⟨hsame, by simp⟩
      · refine ⟨h.putInstance hins.described.ready (fun key => ?_) hheld hold, by simp⟩
        rw [Table.get_set, Table.get_erase]
        split <;> simp_all

/-- An update to the consumer of a keyed service. -/
theorem Follows.handleKeyed (h : c.Follows .keyed shape view) {u : Update Op}
    (hfits : view.Fits .keyed shape u) :
    (c.handleKeyed u).1.Follows .keyed shape (view.after u) ∧ (c.handleKeyed u).2 ≠ .error .gap := by
  cases u with
  | unavailable => cases hfits
  | replaced snapshot => cases hfits.1
  | spawned i => exact h.spawn hfits
  | closed address =>
    -- what is left is what was held under other addresses
    have hle : ∀ c' : Consumer, (∀ a m x, c'.held .keyed a m = some x →
        c.held .keyed a m = some x ∧ a ≠ some address) →
        View.Le (c'.held .keyed) (view.after (.closed address)) := by
      intro c' hc' a m x hx
      obtain ⟨hheld, hne⟩ := hc' a m x hx
      simp only [View.after, if_neg hne]
      exact h.le a m x hheld
    have hother : ∀ generation facade, c.instances.get address.key = some (generation, facade) →
        generation ≠ address.generation → ∀ m, c.held .keyed (some address) m = none := by
      intro generation facade hget hne m
      rw [held_keyed, hget]
      simp [hne]
    rw [Consumer.handleKeyed]
    split
    · next generation facade hget =>
      split
      · next hgen =>
        refine ⟨⟨hle _ fun a m x hx => ?_, fun hmode => (by cases hmode), fun key g f hf => ?_⟩, by simp⟩
        · cases a with
          | none => cases hx
          | some address' =>
            rw [held_keyed, Table.get_erase] at hx
            split at hx
            · cases hx
            · next hkey =>
              refine ⟨by rw [held_keyed]; exact hx, fun heq => hkey ?_⟩
              rw [Option.some.inj heq]
        · rw [Table.get_erase] at hf
          split at hf
          · cases hf
          · exact h.ready key g f hf
      · next hgen =>
        refine ⟨⟨hle c fun a m x hx => ⟨hx, fun heq => ?_⟩, h.described, h.ready⟩, by simp⟩
        rw [heq, hother generation facade hget hgen] at hx
        cases hx
    · next hget =>
      refine ⟨⟨hle c fun a m x hx => ⟨hx, fun heq => ?_⟩, h.described, h.ready⟩, by simp⟩
      rw [heq, held_keyed, hget] at hx
      cases hx
  | state address member sequence ops =>
    cases address with
    | none =>
      have hmode := hfits.1.mp rfl
      cases hmode
    | some address =>
      have hold : ∀ a m, a ≠ some address →
          view.after (.state (some address) member sequence ops) a m = view a m := by
        intro a m hne
        simp only [View.after, hne, false_and, if_false]
      -- an update that finds no replica
      have hskip : (∀ m, c.held .keyed (some address) m = none) →
          c.Follows .keyed shape (view.after (.state (some address) member sequence ops)) := by
        intro hnone
        refine ⟨fun a m x hx => ?_, h.described, h.ready⟩
        by_cases heq : a = some address
        · rw [heq, hnone] at hx
          cases hx
        · rw [hold a m heq]
          exact h.le a m x hx
      rw [Consumer.handleKeyed]
      split
      · next generation facade hget =>
        split
        · next hgen =>
          refine ⟨hskip fun m => ?_, by simp⟩
          rw [held_keyed, hget]
          simp [hgen]
        · next hgen =>
          rw [not_not] at hgen
          have hheld : ∀ m, c.held .keyed (some address) m = facade.held m := by
            intro m
            rw [held_keyed, hget]
            simp [hgen]
          have hle : ∀ m x, facade.held m = some x → view (some address) m = some x := by
            intro m x hx
            rw [← hheld] at hx
            exact h.le _ m x hx
          obtain ⟨hready, -, hgap, hnext, -, -⟩ := Facade.update_spec
            (h.ready _ _ _ hget) member sequence ops fun n v hnv => hfits.2 n v (hle member (n, v) hnv)
          refine ⟨h.putInstance hready (fun key => ?_) (fun m x hx => ?_) hold, hgap⟩
          · rw [Table.get_set, hgen]
          · rw [hnext] at hx
            simp only [View.after, true_and]
            split at hx
            · next heq =>
              rw [if_pos heq]
              exact advance_some (hle m) hx
            · next heq =>
              rw [if_neg heq]
              exact hle m x hx
      · next hget =>
        refine ⟨hskip fun m => ?_, by simp⟩
        rw [held_keyed, hget]
        rfl

/-- Handling an update leaves alone what the binding keeps about itself. -/
structure SameBooks (c c' : Consumer) : Prop where
  errors : c'.errors = c.errors
  received : c'.received = c.received
  status : c'.status = c.status

theorem books_spawn (c : Consumer) (i : InstanceSnapshot Op) : c.SameBooks (c.spawn i).1 := by
  rw [spawn]
  split
  · exact ⟨rfl, rfl, rfl⟩
  split
  · exact ⟨rfl, rfl, rfl⟩
  rw [replaceInstance]
  split
  · exact ⟨rfl, rfl, rfl⟩
  split <;> exact ⟨rfl, rfl, rfl⟩

theorem books_handleSingleton (c : Consumer) (u : Update Op) : c.SameBooks (c.handleSingleton u).1 := by
  rw [Consumer.handleSingleton.eq_def]
  split
  · exact ⟨rfl, rfl, rfl⟩
  · split <;> exact ⟨rfl, rfl, rfl⟩
  · exact ⟨rfl, rfl, rfl⟩
  · exact ⟨rfl, rfl, rfl⟩

theorem books_handleKeyed (c : Consumer) (u : Update Op) : c.SameBooks (c.handleKeyed u).1 := by
  rw [Consumer.handleKeyed.eq_def]
  split
  · exact ⟨rfl, rfl, rfl⟩
  · exact ⟨rfl, rfl, rfl⟩
  · exact books_spawn c _
  · split
    · split <;> exact ⟨rfl, rfl, rfl⟩
    · exact ⟨rfl, rfl, rfl⟩
  · exact ⟨rfl, rfl, rfl⟩
  · split
    · split <;> exact ⟨rfl, rfl, rfl⟩
    · exact ⟨rfl, rfl, rfl⟩

/-- What `receive` counts. -/
theorem books_receive (c : Consumer) (mode : Mode) (u : Update Op) :
    (c.receive mode u).received = c.received + 1 ∧ (c.receive mode u).status = c.status := by
  have hreport : ∀ (c : Consumer) (result : Except ServiceError Unit),
      (c.report result).status = c.status := by
    intro c result
    cases result <;> rfl
  cases mode with
  | singleton =>
    have h := books_handleSingleton c u
    exact ⟨congrArg (· + 1) h.received, (hreport _ _).trans h.status⟩
  | keyed =>
    have h := books_handleKeyed c u
    exact ⟨congrArg (· + 1) h.received, (hreport _ _).trans h.status⟩

/-- **An update that fits is followed, and finds no gap.** -/
theorem Follows.receive (h : c.Follows mode shape view) {u : Update Op} (hfits : view.Fits mode shape u)
    (hgap : ServiceError.gap ∉ c.errors) :
    (c.receive mode u).Follows mode shape (view.after u) ∧
      ServiceError.gap ∉ (c.receive mode u).errors := by
  have hreport : ∀ (r : Consumer × Except ServiceError Unit),
      r.1.Follows mode shape (view.after u) → r.1.errors = c.errors → r.2 ≠ .error .gap →
      Follows mode shape { r.1.report r.2 with received := r.1.received + 1 } (view.after u) ∧
        ServiceError.gap ∉ (r.1.report r.2).errors := by
    rintro ⟨c', result⟩ hf herr hne
    cases result with
    | ok => exact ⟨⟨hf.le, hf.described, hf.ready⟩, by rw [report, herr]; exact hgap⟩
    | error e =>
      refine ⟨⟨hf.le, hf.described, hf.ready⟩, ?_⟩
      simp only [report, List.mem_append, List.mem_singleton, not_or]
      refine ⟨?_, fun heq => hne (by rw [heq])⟩
      rw [show c'.errors = c.errors from herr]
      exact hgap
  cases mode with
  | singleton =>
    obtain ⟨hf, hne⟩ := h.handleSingleton hfits
    exact hreport _ hf (books_handleSingleton c u).errors hne
  | keyed =>
    obtain ⟨hf, hne⟩ := h.handleKeyed hfits
    exact hreport _ hf (books_handleKeyed c u).errors hne

/-- Reporting and counting change no replica. -/
theorem held_receive_eq (c : Consumer) (mode : Mode) (u : Update Op) (mode' : Mode) :
    (c.receive mode u).held mode' = (match mode with
      | .singleton => c.handleSingleton u
      | .keyed => c.handleKeyed u).1.held mode' := by
  have hreport : ∀ (c : Consumer) (result : Except ServiceError Unit) (n : ℕ),
      ({ c.report result with received := n } : Consumer).held mode' = c.held mode' := by
    intro c result n
    cases result <;> rfl
  cases mode <;> exact hreport _ _ _

/-- The replica that a batch is for makes the step the batch describes. -/
theorem Follows.held_receive (h : c.Follows mode shape view) {address : Option Address}
    {member : JsString} {sequence : ℕ} {ops : List Op}
    (hfits : view.Fits mode shape (.state address member sequence ops)) :
    (c.receive mode (.state address member sequence ops)).held mode address member
      = advance (c.held mode address member) sequence ops := by
  cases mode with
  | singleton =>
    obtain rfl : address = none := hfits.1.mpr rfl
    obtain ⟨-, -, -, hheld, -⟩ := Facade.update_spec (h.described rfl).1.ready member sequence ops
      fun n v hnv => hfits.2 n v (h.le none member (n, v) hnv)
    rw [held_receive_eq]
    simp only [Consumer.handleSingleton, held_singleton, if_true]
    rw [hheld, if_pos rfl]
  | keyed =>
    cases address with
    | none =>
      have hmode := hfits.1.mp rfl
      cases hmode
    | some address =>
      rw [held_receive_eq]
      cases hget : c.instances.get address.key with
      | none => simp [Consumer.handleKeyed, held_keyed, hget, advance]
      | some e =>
        obtain ⟨generation, facade⟩ := e
        by_cases hgen : generation = address.generation
        · have hle : ∀ n v, facade.held member = some (n, v) →
              view (some address) member = some (n, v) := by
            intro n v hnv
            refine h.le (some address) member (n, v) ?_
            rw [held_keyed, hget]
            simpa [hgen] using hnv
          obtain ⟨-, -, -, hheld, -⟩ := Facade.update_spec (h.ready _ _ _ hget) member sequence ops
            fun n v hnv => hfits.2 n v (hle n v hnv)
          simp [Consumer.handleKeyed, held_keyed, hget, hgen, hheld]
        · simp [Consumer.handleKeyed, held_keyed, hget, hgen, advance]

end Consumer

/-! ## Snapshots of a subscription -/

/-- The view a snapshot starts. -/
def SubscriptionSnapshot.view (s : SubscriptionSnapshot Op) : View :=
  s.instances.foldl (fun view i => view.after (.spawned i)) fun _ _ => none

/-- A snapshot as a provider takes it. -/
structure SubscriptionSnapshot.Plain (mode : Mode) (s : SubscriptionSnapshot Op) : Prop where
  instances : ∀ i ∈ s.instances, i.Plain
  single : mode = .singleton → ∃ i, s.instances = [i] ∧ i.address = none
  keyed : mode = .keyed → (s.instances.map InstanceSnapshot.address).Nodup ∧
    ∀ i ∈ s.instances, i.address ≠ none

/-- Instances under addresses that are new to the view add to it. -/
theorem View.le_spawned {view : View} {is : List (InstanceSnapshot Op)}
    (hnodup : (is.map InstanceSnapshot.address).Nodup)
    (hfresh : ∀ i ∈ is, ∀ m, view i.address m = none) :
    View.Le view (is.foldl (fun view i => view.after (.spawned i)) view) := by
  induction is generalizing view with
  | nil => exact fun _ _ _ hx => hx
  | cons i is ih =>
    simp only [List.forall_mem_cons] at hfresh
    rw [List.map_cons, List.nodup_cons] at hnodup
    intro a m x hx
    refine ih hnodup.2 (fun j hj m => ?_) a m x ?_
    · have hne : j.address ≠ i.address := fun heq => hnodup.1 (List.mem_map.mpr ⟨j, hj, heq⟩)
      simp only [View.after, if_neg hne]
      exact hfresh.2 j hj m
    · have hne : a ≠ i.address := by
        rintro rfl
        rw [hfresh.1] at hx
        cases hx
      simp only [View.after, if_neg hne]
      exact hx

namespace Consumer

variable {shape : List (JsString × MemberKind)} {c : Consumer} {view : View}

/-- What the instances of a keyed snapshot leave: up to a throw, and without one. -/
theorem Follows.spawnAll (h : c.Follows .keyed shape view) {is : List (InstanceSnapshot Op)}
    (hplain : ∀ i ∈ is, i.Plain) (haddr : ∀ i ∈ is, i.address ≠ none)
    (hnodup : (is.map InstanceSnapshot.address).Nodup)
    (hfresh : ∀ i ∈ is, ∀ m, view i.address m = none) :
    (c.spawnAll is).2 ≠ .error .gap ∧ (c.spawnAll is).1.errors = c.errors ∧
      (c.spawnAll is).1.received = c.received ∧
      View.Le ((c.spawnAll is).1.held .keyed) (is.foldl (fun view i => view.after (.spawned i)) view) ∧
      ((c.spawnAll is).2 = .ok () →
        (c.spawnAll is).1.Follows .keyed shape (is.foldl (fun view i => view.after (.spawned i)) view)) := by
  induction is generalizing c view with
  | nil => exact ⟨by simp [Consumer.spawnAll], rfl, rfl, h.le, fun _ => h⟩
  | cons i is ih =>
    simp only [List.forall_mem_cons] at hplain haddr hfresh
    rw [List.map_cons, List.nodup_cons] at hnodup
    obtain ⟨address, haddress⟩ := Option.ne_none_iff_exists'.mp haddr.1
    have hfirst := hfresh.1
    rw [haddress] at hfirst
    obtain ⟨hfollows, hgap⟩ := h.spawn ⟨rfl, hplain.1, address, haddress, hfirst⟩
    obtain ⟨herr, hreceived, -⟩ := books_spawn c i
    -- the addresses that follow are others
    have hrest : ∀ j ∈ is, ∀ m, view.after (.spawned i) j.address m = none := by
      intro j hj m
      have hne : j.address ≠ i.address := fun heq => hnodup.1 (List.mem_map.mpr ⟨j, hj, heq⟩)
      simp only [View.after, if_neg hne]
      exact hfresh.2 j hj m
    rw [Consumer.spawnAll]
    split
    · next c' e heq =>
      rw [heq] at hgap herr hreceived hfollows
      refine ⟨hgap, herr, hreceived, fun a m x hx => ?_, by simp⟩
      exact View.le_spawned hnodup.2 hrest a m x (hfollows.le a m x hx)
    · next c' heq =>
      rw [heq] at hfollows herr hreceived
      obtain ⟨hgap', herr', hreceived', hle, hok⟩ := ih hfollows hplain.2 haddr.2 hnodup.2 hrest
      exact ⟨hgap', herr'.trans herr, hreceived'.trans hreceived, hle, hok⟩

theorem held_cold (serviceId : JsString) (mode : Mode) (a : Option Address) (m : JsString) :
    (cold serviceId).held mode a m = none := by
  cases mode <;> cases a <;> rfl

/-- What installing a plain snapshot does to a cold consumer. -/
theorem installSnapshot_spec (serviceId : JsString) {mode : Mode} {s : SubscriptionSnapshot Op}
    (hplain : s.Plain mode) {c : Consumer} {result : Except ServiceError Unit}
    (heq : (cold serviceId).installSnapshot mode s = (c, result)) :
    result ≠ .error .gap ∧ c.errors = [] ∧ c.received = 0 ∧ View.Le (c.held mode) s.view ∧
      (result = .ok () → c.Follows mode s.shape s.view) := by
  have hready : (cold serviceId).facade.Ready := by
    intro name slot hslot
    cases hslot
  have hcoldLe : ∀ {mode : Mode}, View.Le ((cold serviceId).held mode) s.view := by
    intro mode a m x hx
    rw [held_cold] at hx
    cases hx
  cases mode with
  | singleton =>
    obtain ⟨i, hi, haddr⟩ := hplain.single rfl
    have hshape : s.shape = i.shape := by simp [SubscriptionSnapshot.shape, hi]
    obtain ⟨hgap, hinstalled, -, hsame⟩ := Facade.install_spec hready
      (hplain.instances i (by simp [hi])) (by simp [cold, Facade.empty])
    rw [installSnapshot, hi] at heq
    simp only at heq
    split at heq
    · cases heq
      exact ⟨by simp [installSnapshot.invalid], rfl, rfl, hcoldLe, by simp⟩
    cases heq
    by_cases hok : ((cold serviceId).facade.install i).2 = .ok ()
    swap
    · refine ⟨hgap, rfl, rfl, ?_, fun h => absurd h hok⟩
      rw [hsame hok]
      exact hcoldLe
    have hins := hinstalled hok
    have hfollows : Follows .singleton s.shape
        { cold serviceId with facade := ((cold serviceId).facade.install i).1 } s.view := by
      refine ⟨fun a m x hx => ?_, fun _ => ⟨?_, hins.address⟩, fun key g f hf => by cases hf⟩
      · rw [held_singleton] at hx
        split at hx
        · next ha =>
          have hview : s.view a m = heldIn i.members m := by
            simp [SubscriptionSnapshot.view, hi, View.after, ha, haddr]
          rw [hview, ← hx]
          exact (hins.held m).symm
        · cases hx
      · rw [hshape]
        exact hins.described
    exact ⟨hgap, rfl, rfl, hfollows.le, fun _ => hfollows⟩
  | keyed =>
    obtain ⟨hnodup, hsome⟩ := hplain.keyed rfl
    have hcold : (cold serviceId).Follows .keyed s.shape fun _ _ => none := by
      refine ⟨fun a m x hx => ?_, fun hmode => (by cases hmode), fun key g f hf => by cases hf⟩
      cases a <;> cases hx
    rw [installSnapshot] at heq
    split at heq
    · cases heq
      exact ⟨by simp, rfl, rfl, hcoldLe, by simp⟩
    have hall := hcold.spawnAll hplain.instances hsome hnodup fun _ _ _ => rfl
    rw [heq] at hall
    exact hall

/-- **The snapshot is the first view.** -/
theorem start_follows (serviceId : JsString) {mode : Mode} {s : SubscriptionSnapshot Op}
    (hplain : s.Plain mode) :
    ServiceError.gap ∉ ((cold serviceId).start mode s).errors ∧
      ((cold serviceId).start mode s).received = 0 ∧
      View.Le (((cold serviceId).start mode s).held mode) s.view ∧
      (((cold serviceId).start mode s).status = .started →
        ((cold serviceId).start mode s).Follows mode s.shape s.view) := by
  rw [start, if_neg (by simp [cold])]
  split
  · next c' heq =>
    obtain ⟨-, herr, hreceived, hle, hfollows⟩ := installSnapshot_spec serviceId hplain heq
    have hf := hfollows rfl
    refine ⟨?_, hreceived, hle, fun _ => ⟨hf.le, hf.described, hf.ready⟩⟩
    show ServiceError.gap ∉ c'.errors
    rw [herr]
    exact List.not_mem_nil
  · next c' e heq =>
    obtain ⟨hgap, herr, hreceived, hle, -⟩ := installSnapshot_spec serviceId hplain heq
    refine ⟨?_, hreceived, hle, by simp⟩
    show ServiceError.gap ∉ c'.errors ++ [e]
    rw [herr, List.nil_append, List.mem_singleton]
    exact fun heq' => hgap (by rw [heq'])

end Consumer

end Phi.Services
