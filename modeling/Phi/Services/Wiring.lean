import Phi.Services.Provider

/-!
# The wiring of a provider

What holds of a provider at every point of a run: each state is sound, and its source listeners are
exactly the state members of the live instances that stand on it (`Wired`), each once. Instances come
and go by `Wired.attach` and `Wired.detach`; everything else leaves the wiring alone.
-/

namespace Phi.Services

open Delta

/-! ## Implementations -/

theorem classifyProperty_bound {states : ℕ} {serviceId name : JsString} {property : Property} {id : ℕ}
    (h : classifyProperty states serviceId name property = .ok (.state id)) : id < states := by
  cases property with
  | method => cases h
  | accessor => cases h
  | other => cases h
  | state id' =>
    rw [classifyProperty] at h
    split at h
    · next hlt =>
      cases h
      exact hlt
    · cases h

/-- The members carry the names of the properties, and their states exist. -/
theorem classifyMembers_spec {states : ℕ} {serviceId : JsString}
    {properties : List (JsString × Property)} {members : Table JsString Member}
    (h : classifyMembers states serviceId properties = .ok members) :
    members.keys = Table.keys properties ∧
      ∀ name id, (name, Member.state id) ∈ members → id < states := by
  induction properties generalizing members with
  | nil =>
    cases h
    exact ⟨rfl, by simp⟩
  | cons e properties ih =>
    obtain ⟨name, property⟩ := e
    rw [classifyMembers] at h
    obtain ⟨member, hmember, h⟩ := bind_eq_ok.mp h
    obtain ⟨rest, hrest, h⟩ := bind_eq_ok.mp h
    obtain rfl := Except.ok.inj h
    obtain ⟨hkeys, hbound⟩ := ih hrest
    refine ⟨by simp [hkeys], ?_⟩
    intro name' id hmem
    rcases List.mem_cons.mp hmem with heq | hmem
    · obtain ⟨rfl, rfl⟩ := Prod.mk.inj heq
      exact classifyProperty_bound hmember
    · exact hbound name' id hmem

theorem classify_spec {states : ℕ} {serviceId : JsString} {implementation : Implementation}
    {members : Table JsString Member}
    (h : classifyRemoteServiceImplementation states serviceId implementation = .ok members) :
    members.Nodup ∧ ∀ name id, (name, Member.state id) ∈ members → id < states := by
  cases implementation with
  | other => cases h
  | object properties nodup =>
    rw [classifyRemoteServiceImplementation] at h
    obtain ⟨members', hmembers, h⟩ := bind_eq_ok.mp h
    split at h
    · cases h
    · obtain rfl := Except.ok.inj h
      obtain ⟨hkeys, hbound⟩ := classifyMembers_spec hmembers
      refine ⟨?_, hbound⟩
      rw [Table.Nodup, hkeys]
      exact ((List.mergeSort_perm properties _).map Prod.fst).nodup_iff.mpr nodup

/-! ## Wiring -/

/-- The source listeners of the states are the state members of the live instances. -/
structure Wired (states : List MutableReplicatedState) (live : List ProviderInstance) (next : ℕ) :
    Prop where
  sound : ∀ s ∈ states, s.Sound
  listeners : ∀ {id s}, states[id]? = some s → ∀ l, l ∈ s.sourceListeners ↔
    ∃ i ∈ live, l.id = i.id ∧ l.address = i.address ∧ (l.member, Member.state id) ∈ i.members
  nodup : ∀ s ∈ states, s.sourceListeners.Nodup
  bound : ∀ i ∈ live, ∀ name id, (name, Member.state id) ∈ i.members → id < states.length
  fresh : ∀ i ∈ live, i.id < next
  distinct : ∀ i ∈ live, ∀ j ∈ live, i.id = j.id → i = j
  members : ∀ i ∈ live, Table.Nodup i.members

namespace Wired

variable {states : List MutableReplicatedState} {live : List ProviderInstance} {next : ℕ}

theorem congr (h : Wired states live next) {live' : List ProviderInstance}
    (heq : ∀ i, i ∈ live' ↔ i ∈ live) : Wired states live' next where
  sound := h.sound
  listeners hs l := by simp only [h.listeners hs l, heq]
  nodup := h.nodup
  bound i hi := h.bound i ((heq i).mp hi)
  fresh i hi := h.fresh i ((heq i).mp hi)
  distinct i hi j hj := h.distinct i ((heq i).mp hi) j ((heq j).mp hj)
  members i hi := h.members i ((heq i).mp hi)

/-- The state behind a member of a live instance. -/
theorem exists_state (h : Wired states live next) {i : ProviderInstance} (hi : i ∈ live)
    {name : JsString} {id : ℕ} (hm : (name, Member.state id) ∈ i.members) :
    ∃ s, states[id]? = some s :=
  ⟨_, List.getElem?_eq_getElem (h.bound i hi name id hm)⟩

/-- A new state has no listeners. -/
theorem push (h : Wired states live next) {s : MutableReplicatedState} (hs : s.Sound)
    (hnil : s.sourceListeners = []) : Wired (states ++ [s]) live next where
  sound s' hs' := by
    rcases List.mem_append.mp hs' with hs' | hs'
    · exact h.sound s' hs'
    · rw [List.mem_singleton.mp hs']
      exact hs
  listeners {id s'} hs' l := by
    by_cases hlt : id < states.length
    · rw [List.getElem?_append_left hlt] at hs'
      exact h.listeners hs' l
    · rw [List.getElem?_append_right (by omega)] at hs'
      obtain rfl : s = s' := by
        rw [List.getElem?_singleton] at hs'
        split at hs'
        · exact Option.some.inj hs'
        · cases hs'
      rw [hnil]
      simp only [List.not_mem_nil, false_iff, not_exists, not_and]
      rintro i hi - - hm
      exact hlt (h.bound i hi _ _ hm)
  nodup s' hs' := by
    rcases List.mem_append.mp hs' with hs' | hs'
    · exact h.nodup s' hs'
    · rw [List.mem_singleton.mp hs', hnil]
      exact List.nodup_nil
  bound i hi name id hm := by
    rw [List.length_append]
    exact Nat.lt_add_right _ (h.bound i hi name id hm)
  fresh := h.fresh
  distinct := h.distinct
  members := h.members

/-- A state that changes, its listeners apart. -/
theorem set (h : Wired states live next) {id : ℕ} {s s' : MutableReplicatedState}
    (hs : states[id]? = some s) (hsound : s'.Sound)
    (hlisteners : s'.sourceListeners = s.sourceListeners) : Wired (states.set id s') live next where
  sound t ht := by
    rcases List.mem_or_eq_of_mem_set ht with ht | rfl
    · exact h.sound t ht
    · exact hsound
  listeners {id' t} ht l := by
    by_cases heq : id = id'
    · subst heq
      obtain ⟨hlt, -⟩ := List.getElem?_eq_some_iff.mp hs
      rw [List.getElem?_set_self hlt] at ht
      obtain rfl := Option.some.inj ht
      rw [hlisteners]
      exact h.listeners hs l
    · rw [List.getElem?_set_ne heq] at ht
      exact h.listeners ht l
  nodup t ht := by
    rcases List.mem_or_eq_of_mem_set ht with ht | rfl
    · exact h.nodup t ht
    · rw [hlisteners]
      exact h.nodup s (List.mem_of_getElem? hs)
  bound i hi name id' hm := by
    rw [List.length_set]
    exact h.bound i hi name id' hm
  fresh := h.fresh
  distinct := h.distinct
  members := h.members

theorem mem_listenersFor {instanceId : ℕ} {address : Option Address} {members : Table JsString Member}
    {id : ℕ} {l : SourceListener} : l ∈ Provider.listenersFor instanceId address members id ↔
      l.id = instanceId ∧ l.address = address ∧ (l.member, Member.state id) ∈ members := by
  obtain ⟨lid, laddress, lmember⟩ := l
  simp only [Provider.listenersFor, List.mem_filterMap]
  constructor
  · rintro ⟨⟨name, member⟩, hmem, heq⟩
    split at heq
    · next hstate =>
      simp only [Option.some.injEq, SourceListener.mk.injEq] at heq
      obtain ⟨rfl, rfl, rfl⟩ := heq
      refine ⟨rfl, rfl, ?_⟩
      rw [← show member = Member.state id from hstate]
      exact hmem
    · cases heq
  · rintro ⟨rfl, rfl, hmem⟩
    exact ⟨_, hmem, by simp⟩

theorem nodup_listenersFor {members : Table JsString Member} (hm : members.Nodup) (instanceId : ℕ)
    (address : Option Address) (id : ℕ) :
    (Provider.listenersFor instanceId address members id).Nodup := by
  refine (List.Nodup.of_map Prod.fst hm).filterMap ?_
  rintro ⟨name, member⟩ ⟨name', member'⟩ l hl hl'
  simp only [Option.mem_def, Option.ite_none_right_eq_some, Option.some.injEq] at hl hl'
  obtain ⟨rfl, rfl⟩ := hl
  obtain ⟨rfl, hl'⟩ := hl'
  simp only [SourceListener.mk.injEq, true_and] at hl'
  rw [hl']

theorem getElem?_addListeners (states : List MutableReplicatedState) (instanceId : ℕ)
    (address : Option Address) (members : Table JsString Member) (id : ℕ) :
    (Provider.addListeners states instanceId address members)[id]? = states[id]?.map fun s =>
      { s with sourceListeners :=
          s.sourceListeners ++ Provider.listenersFor instanceId address members id } := by
  rw [Provider.addListeners, List.getElem?_mapIdx]

/-- `#createInstance` keeps the wiring, with the new instance live. -/
theorem attach (h : Wired states live next) {members : Table JsString Member} (hm : members.Nodup)
    (hbound : ∀ name id, (name, Member.state id) ∈ members → id < states.length)
    (address : Option Address) :
    Wired (Provider.addListeners states next address members) (live ++ [⟨next, address, members⟩])
      (next + 1) where
  sound s hs := by
    obtain ⟨id, hid⟩ := List.getElem?_of_mem hs
    rw [getElem?_addListeners] at hid
    obtain ⟨t, ht, rfl⟩ := Option.map_eq_some_iff.mp hid
    have hsound := h.sound t (List.mem_of_getElem? ht)
    exact ⟨hsound.tracks, hsound.length, hsound.last⟩
  listeners {id s} hs l := by
    rw [getElem?_addListeners] at hs
    obtain ⟨t, ht, rfl⟩ := Option.map_eq_some_iff.mp hs
    simp only [List.mem_append, h.listeners ht, mem_listenersFor, List.mem_singleton]
    constructor
    · rintro (⟨i, hi, hl⟩ | hl)
      · exact ⟨i, .inl hi, hl⟩
      · exact ⟨_, .inr rfl, hl⟩
    · rintro ⟨i, hi | rfl, hl⟩
      · exact .inl ⟨i, hi, hl⟩
      · exact .inr hl
  nodup s hs := by
    obtain ⟨id, hid⟩ := List.getElem?_of_mem hs
    rw [getElem?_addListeners] at hid
    obtain ⟨t, ht, rfl⟩ := Option.map_eq_some_iff.mp hid
    refine (h.nodup t (List.mem_of_getElem? ht)).append (nodup_listenersFor hm _ _ _) ?_
    -- the new closures are of an instance that did not exist
    intro l hl hl'
    obtain ⟨i, hi, heq, -⟩ := (h.listeners ht l).mp hl
    have hlt := h.fresh i hi
    have hnew := (mem_listenersFor.mp hl').1
    omega
  bound i hi name id hmem := by
    rw [Provider.addListeners, List.length_mapIdx]
    rcases List.mem_append.mp hi with hi | hi
    · exact h.bound i hi name id hmem
    · rw [List.mem_singleton.mp hi] at hmem
      exact hbound name id hmem
  fresh i hi := by
    rcases List.mem_append.mp hi with hi | hi
    · exact Nat.lt_succ_of_lt (h.fresh i hi)
    · rw [List.mem_singleton.mp hi]
      exact Nat.lt_succ_self next
  distinct i hi j hj hid := by
    rcases List.mem_append.mp hi with hi | hi <;> rcases List.mem_append.mp hj with hj | hj
    · exact h.distinct i hi j hj hid
    · rw [List.mem_singleton.mp hj] at hid
      exact absurd hid (Nat.ne_of_lt (h.fresh i hi))
    · rw [List.mem_singleton.mp hi] at hid
      exact absurd hid.symm (Nat.ne_of_lt (h.fresh j hj))
    · rw [List.mem_singleton.mp hi, List.mem_singleton.mp hj]
  members i hi := by
    rcases List.mem_append.mp hi with hi | hi
    · exact h.members i hi
    · rw [List.mem_singleton.mp hi]
      exact hm

/-- Removing the listeners of an instance keeps the wiring of the others. -/
theorem detach (h : Wired states live next) (i : ProviderInstance) :
    Wired (Provider.removeListeners states i.id) (live.filter (·.id ≠ i.id)) next where
  sound s hs := by
    obtain ⟨t, ht, rfl⟩ := List.mem_map.mp hs
    exact ⟨(h.sound t ht).tracks, (h.sound t ht).length, (h.sound t ht).last⟩
  listeners {id s} hs l := by
    rw [Provider.removeListeners, List.getElem?_map] at hs
    obtain ⟨t, ht, rfl⟩ := Option.map_eq_some_iff.mp hs
    simp only [List.mem_filter, h.listeners ht, decide_eq_true_eq]
    constructor
    · rintro ⟨⟨j, hj, hl⟩, hne⟩
      exact ⟨j, ⟨hj, by rwa [← hl.1]⟩, hl⟩
    · rintro ⟨j, ⟨hj, hne⟩, hl⟩
      exact ⟨⟨j, hj, hl⟩, by rwa [hl.1]⟩
  nodup s hs := by
    obtain ⟨t, ht, rfl⟩ := List.mem_map.mp hs
    exact (h.nodup t ht).filter _
  bound j hj name id hmem := by
    rw [Provider.removeListeners, List.length_map]
    exact h.bound j (List.mem_of_mem_filter hj) name id hmem
  fresh j hj := h.fresh j (List.mem_of_mem_filter hj)
  distinct j hj k hk := h.distinct j (List.mem_of_mem_filter hj) k (List.mem_of_mem_filter hk)
  members j hj := h.members j (List.mem_of_mem_filter hj)

end Wired

end Phi.Services
