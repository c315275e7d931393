import Phi.Data.Except
import Phi.Session.Storage

/-!
# The storage invariant

Validation looks at all writes of a transaction before the first is applied. `validateCommitted_cons` says
that this is the same as checking each write against the state the writes before it leave (`Fits`), so that
everything a commit does is a sequence of steps, and one lemma for a step gives the invariant for every
sequence of commits.

A set or append to an address that `value()` or `list()` refuses passes the validation and throws while the
writes are applied. `applyValidated_atomic_iff` says when a rejected commit leaves the state as it was.
-/

namespace Phi.Session

namespace CommittedWrite

/-- The address of the write, where it stores something there, is one that can be built. -/
def AddressOk : CommittedWrite → Prop
  | setValue _ address _ => address.Valid
  | appendList _ address _ => address.Valid
  | _ => True

instance (w : CommittedWrite) : Decidable w.AddressOk := by
  cases w <;> unfold AddressOk <;> infer_instance

end CommittedWrite

namespace InMemoryStorageState

variable {s s' : InMemoryStorageState} {w : CommittedWrite} {ws : List CommittedWrite}

/-! ## Steps -/

/-- The write is in order on the state: its sequence is new, its id free and its parent there. -/
structure Fits (s : InMemoryStorageState) (w : CommittedWrite) : Prop where
  seq : s.nextSeq ≤ w.seq
  entry_id : ∀ id ∈ w.id?, id ∉ s.entries.keys
  usage_id : ∀ id ∈ w.id?, id ∉ s.usage.keys
  parent : ∀ e, w = .entry e → ∀ p ∈ e.parentId, p ∈ s.entries.keys

/-- A write that is in order was applied. -/
def Step (s s' : InMemoryStorageState) : Prop := ∃ w, s.Fits w ∧ s.applyWrite w = .ok s'

/-- The list an append leaves. -/
def appended (s : InMemoryStorageState) (seq : ℕ) (address : StoreAddress) (value : Json) : StoredList :=
  match s.listValues.get (physicalKey address) with
  | none => ⟨address, [⟨seq, value⟩]⟩
  | some stored => { stored with elements := stored.elements ++ [⟨seq, value⟩] }

/-- The state a write leaves when it does not throw. -/
def put (s : InMemoryStorageState) : CommittedWrite → InMemoryStorageState
  | .entry e =>
    { s with
      entries := s.entries.set e.id e
      entriesBySeq := s.entriesBySeq ++ [e]
      stats :=
        if e.type = .message then { s.stats with messageCount := s.stats.messageCount + 1 } else s.stats
      nextSeq := e.seq + 1 }
  | .usage row =>
    { s with
      usage := s.usage.set row.id row
      stats := { s.stats with usage := addUsage s.stats.usage row.usage }
      nextSeq := row.seq + 1 }
  | .deleteValue seq address =>
    { s with scalarValues := s.scalarValues.erase (physicalKey address), nextSeq := seq + 1 }
  | .setValue seq address value =>
    { s with
      scalarValues := s.scalarValues.set (physicalKey address) ⟨address, value, seq⟩
      nextSeq := seq + 1 }
  | .deleteList seq address =>
    { s with listValues := s.listValues.erase (physicalKey address), nextSeq := seq + 1 }
  | .appendList seq address value =>
    { s with
      listValues := s.listValues.set (physicalKey address) (s.appended seq address value)
      nextSeq := seq + 1 }

/-- A write throws only over its address. -/
theorem applyWrite_of_addressOk (s : InMemoryStorageState) (h : w.AddressOk) :
    s.applyWrite w = .ok (s.put w) := by
  cases w with
  | setValue seq address value =>
    have hv : validateAddress address = .ok () := h
    simp only [applyWrite, hv]
    rfl
  | appendList seq address value =>
    have hv : validateAddress address = .ok () := h
    cases hl : s.listValues.get (physicalKey address) with
    | none =>
      simp only [applyWrite, put, appended, hl, hv]
      rfl
    | some stored => simp only [applyWrite, put, appended, hl]
  | _ => rfl

theorem eq_put_of_applyWrite (h : s.applyWrite w = .ok s') : s' = s.put w := by
  cases w with
  | setValue seq address value =>
    rcases bind_eq_ok.mp h with ⟨_, _, h⟩
    cases h
    rfl
  | appendList seq address value =>
    cases hl : s.listValues.get (physicalKey address) with
    | none =>
      simp only [applyWrite, hl] at h
      rcases bind_eq_ok.mp h with ⟨_, _, h⟩
      cases h
      simp only [put, appended, hl]
    | some stored =>
      simp only [applyWrite, hl] at h
      cases h
      simp only [put, appended, hl]
  | _ => cases h; rfl

@[simp] theorem nextSeq_put (s : InMemoryStorageState) (w : CommittedWrite) :
    (s.put w).nextSeq = w.seq + 1 := by
  cases w <;> rfl

theorem mem_keys_entries_put {id : JsString} :
    id ∈ (s.put w).entries.keys ↔ id ∈ s.entries.keys ∨ id ∈ w.entryId?.toList := by
  cases w with
  | entry e => simp [put, CommittedWrite.entryId?, Table.mem_keys_set, or_comm]
  | _ => simp [put, CommittedWrite.entryId?]

theorem mem_keys_put {id : JsString} :
    id ∈ (s.put w).entries.keys ∨ id ∈ (s.put w).usage.keys ↔
      (id ∈ s.entries.keys ∨ id ∈ s.usage.keys) ∨ id ∈ w.id?.toList := by
  cases w with
  | entry e =>
    simp only [put, CommittedWrite.id?, Table.mem_keys_set, Option.toList_some, List.mem_singleton]
    tauto
  | usage row =>
    simp only [put, CommittedWrite.id?, Table.mem_keys_set, Option.toList_some, List.mem_singleton]
    tauto
  | _ => simp [put, CommittedWrite.id?]

/-! ## Validation -/

/-- The loop sees the ids of the storage and those of the transaction as one set. -/
theorem validate_loop_congr {has has' hasEntry hasEntry' : JsString → Bool}
    {ids ids' entryIds entryIds' : List JsString} {prev : ℤ}
    (hids : ∀ id, (has id = true ∨ id ∈ ids) ↔ (has' id = true ∨ id ∈ ids'))
    (hentry : ∀ id, (hasEntry id = true ∨ id ∈ entryIds) ↔ (hasEntry' id = true ∨ id ∈ entryIds')) :
    validateCommittedWrites.loop has hasEntry prev ids entryIds ws
      = validateCommittedWrites.loop has' hasEntry' prev ids' entryIds' ws := by
  induction ws generalizing prev ids ids' entryIds entryIds' with
  | nil => rfl
  | cons w ws ih =>
    simp only [validateCommittedWrites.loop]
    have hhead : validateWrite has hasEntry prev ids entryIds w
        = validateWrite has' hasEntry' prev ids' entryIds' w := by
      have hparent : ∀ id, (hasEntry id = false ∧ id ∉ entryIds) ↔
          (hasEntry' id = false ∧ id ∉ entryIds') := by
        intro id
        have h := not_congr (hentry id)
        simpa only [not_or, Bool.not_eq_true] using h
      cases w <;> simp only [validateWrite, hids, hparent]
    rw [hhead]
    congr 1
    funext _
    apply ih
    · intro id
      rw [List.mem_append, List.mem_append, ← or_assoc, ← or_assoc, hids]
    · intro id
      rw [List.mem_append, List.mem_append, ← or_assoc, ← or_assoc, hentry]

/-- The first write passes exactly when it is in order on the state. -/
theorem validateWrite_eq_ok :
    validateWrite (fun id => s.entries.has id || s.usage.has id) (fun id => s.entries.has id)
        ((s.nextSeq : ℤ) - 1) [] [] w = .ok () ↔ s.Fits w := by
  have hseq : ((w.seq : ℤ) ≤ (s.nextSeq : ℤ) - 1) ↔ ¬ s.nextSeq ≤ w.seq := by omega
  have hnot : ∀ id : JsString, ((s.entries.has id || s.usage.has id) = true ∨ id ∈ ([] : List JsString)) ↔
      ¬ (id ∉ s.entries.keys ∧ id ∉ s.usage.keys) := by
    intro id
    simp only [Bool.or_eq_true, Table.has_eq_true, List.not_mem_nil, or_false]
    tauto
  simp only [validateWrite, hseq, hnot, ite_error_eq_ok, not_not]
  constructor
  · rintro ⟨hs, h⟩
    cases w with
    | entry e =>
      simp only [ite_error_eq_ok, not_not] at h
      rcases h with ⟨⟨he, hu⟩, h⟩
      refine ⟨hs, ?_, ?_, ?_⟩
      · rintro id ⟨⟩
        exact he
      · rintro id ⟨⟩
        exact hu
      · rintro e' ⟨⟩ p hp
        rw [Option.mem_def] at hp
        simpa [hp] using h
    | usage row =>
      simp only [ite_error_eq_ok, not_not] at h
      refine ⟨hs, ?_, ?_, ?_⟩
      · rintro id ⟨⟩
        exact h.1.1
      · rintro id ⟨⟩
        exact h.1.2
      · rintro e ⟨⟩
    | _ => refine ⟨hs, ?_, ?_, ?_⟩ <;> rintro _ ⟨⟩
  · intro h
    refine ⟨h.seq, ?_⟩
    cases w with
    | entry e =>
      simp only [ite_error_eq_ok, not_not]
      refine ⟨⟨h.entry_id _ rfl, h.usage_id _ rfl⟩, ?_⟩
      cases hp : e.parentId with
      | none => rfl
      | some p => simpa using h.parent e rfl p hp
    | usage row =>
      simp only [ite_error_eq_ok, not_not]
      exact ⟨⟨h.entry_id _ rfl, h.usage_id _ rfl⟩, trivial⟩
    | _ => rfl

/-- Checking a transaction before it is applied is checking each write on the state before it. -/
theorem validateCommitted_cons :
    s.validateCommitted (w :: ws) = .ok () ↔ s.Fits w ∧ (s.put w).validateCommitted ws = .ok () := by
  unfold validateCommitted validateCommittedWrites
  rw [validateCommittedWrites.loop, bind_eq_ok]
  have hrest : validateCommittedWrites.loop (fun id => s.entries.has id || s.usage.has id)
        (fun id => s.entries.has id) w.seq ([] ++ w.id?.toList) ([] ++ w.entryId?.toList) ws
      = validateCommittedWrites.loop (fun id => (s.put w).entries.has id || (s.put w).usage.has id)
        (fun id => (s.put w).entries.has id) (((s.put w).nextSeq : ℤ) - 1) [] [] ws := by
    have hprev : (((s.put w).nextSeq : ℤ) - 1) = w.seq := by
      rw [nextSeq_put]
      push_cast
      ring
    rw [hprev]
    apply validate_loop_congr
    · intro id
      simp only [Bool.or_eq_true, Table.has_eq_true, List.nil_append, List.not_mem_nil, or_false,
        mem_keys_put]
    · intro id
      simp only [Table.has_eq_true, List.nil_append, List.not_mem_nil, or_false, mem_keys_entries_put]
  constructor
  · rintro ⟨_, hw, h⟩
    exact ⟨validateWrite_eq_ok.mp hw, hrest ▸ h⟩
  · rintro ⟨hw, h⟩
    exact ⟨(), validateWrite_eq_ok.mpr hw, hrest ▸ h⟩

/-- A commit is a sequence of steps, also when it throws on the way. -/
theorem applyValidated_steps (h : s.validateCommitted ws = .ok ()) :
    Relation.ReflTransGen Step s (s.applyValidated ws).1 := by
  induction ws generalizing s with
  | nil => exact .refl
  | cons w ws ih =>
    rcases validateCommitted_cons.mp h with ⟨hw, hws⟩
    unfold applyValidated
    cases hs : s.applyWrite w with
    | error e => exact .refl
    | ok s' =>
      have hput := eq_put_of_applyWrite hs
      subst hput
      exact .head ⟨w, hw, hs⟩ (ih hws)

/-! ## The invariant -/

/-- The physical key of an address that can be built is that of no other address, built or not. -/
theorem eq_of_physicalKey_eq {a b : StoreAddress} (ha : a.Valid) (h : physicalKey a = physicalKey b) :
    a = b := by
  have hv : validateAddress a = .ok () := ha
  simp only [validateAddress, ite_error_eq_ok] at hv
  simp only [physicalKey, List.append_assoc, List.singleton_append] at h
  rcases a with ⟨an, ak⟩
  rcases b with ⟨bn, bk⟩
  rcases (List.append_cons_inj_of_notMem hv.2.1 hv.2.2.1).mp h with ⟨hn, -, hk⟩
  rw [StoreAddress.mk.injEq]
  exact ⟨hn, hk⟩

/-- A table is keyed by the address of what it stores, and holds only addresses that can be built. -/
def Addressed {V : Type*} (address : V → StoreAddress) (t : Table JsString V) : Prop :=
  t.Nodup ∧ ∀ x ∈ t, x.1 = physicalKey (address x.2) ∧ (address x.2).Valid

/-- What holds of every storage state that commits lead to. -/
structure Invariant (s : InMemoryStorageState) : Prop where
  entriesBySeq : s.entriesBySeq = s.entries.map Prod.snd
  entry_key : ∀ x ∈ s.entries, x.1 = x.2.id
  usage_key : ∀ x ∈ s.usage, x.1 = x.2.id
  ids : (s.entriesBySeq.map (·.id) ++ s.usage.map (·.2.id)).Nodup
  entry_seqs : (s.entriesBySeq.map (·.seq)).Pairwise (· < ·)
  usage_seqs : (s.usage.map (·.2.seq)).Pairwise (· < ·)
  seqs_disjoint : ∀ e ∈ s.entriesBySeq, ∀ x ∈ s.usage, e.seq ≠ x.2.seq
  entry_lt : ∀ e ∈ s.entriesBySeq, e.seq < s.nextSeq
  usage_lt : ∀ x ∈ s.usage, x.2.seq < s.nextSeq
  parents : ∀ e ∈ s.entriesBySeq, ∀ p ∈ e.parentId, ∃ q, s.entries.get p = some q ∧ q.seq < e.seq
  messages : s.stats.messageCount = (s.entriesBySeq.filter (·.type = .message)).length
  totals : s.stats.usage = (s.usage.map (·.2.usage)).foldl addUsage emptyUsage
  values : Addressed StoredValue.address s.scalarValues
  lists : Addressed StoredList.address s.listValues
  elements : ∀ x ∈ s.listValues, (x.2.elements.map ListElement.seq).Pairwise (· < ·) ∧
    ∀ element ∈ x.2.elements, element.seq < s.nextSeq

theorem invariant_empty : Invariant empty := by
  have hnone : ∀ {α : Type} {p : α → Prop}, ∀ x ∈ ([] : List α), p x :=
    fun x hx => absurd hx List.not_mem_nil
  exact
    { entriesBySeq := rfl
      entry_key := hnone
      usage_key := hnone
      ids := List.nodup_nil
      entry_seqs := List.Pairwise.nil
      usage_seqs := List.Pairwise.nil
      seqs_disjoint := hnone
      entry_lt := hnone
      usage_lt := hnone
      parents := hnone
      messages := rfl
      totals := rfl
      values := ⟨List.nodup_nil, hnone⟩
      lists := ⟨List.nodup_nil, hnone⟩
      elements := hnone }

namespace Invariant

theorem entries_nodup (h : s.Invariant) : s.entries.Nodup := by
  have hkeys : s.entries.keys = s.entriesBySeq.map (·.id) := by
    rw [h.entriesBySeq, List.map_map]
    exact List.map_congr_left h.entry_key
  rw [Table.Nodup, hkeys]
  exact (List.nodup_append.mp h.ids).1

theorem usage_nodup (h : s.Invariant) : s.usage.Nodup := by
  have hkeys : s.usage.keys = s.usage.map (·.2.id) := List.map_congr_left h.usage_key
  rw [Table.Nodup, hkeys]
  exact (List.nodup_append.mp h.ids).2.1

theorem get_id (h : s.Invariant) {e : Entry} (he : e ∈ s.entriesBySeq) : s.entries.get e.id = some e := by
  rw [h.entriesBySeq] at he
  rcases List.mem_map.mp he with ⟨⟨k, e⟩, hx, rfl⟩
  have hk : k = e.id := h.entry_key _ hx
  subst hk
  exact Table.get_of_mem h.entries_nodup hx

theorem id_of_get (h : s.Invariant) {id : JsString} {e : Entry} (hg : s.entries.get id = some e) :
    e.id = id := (h.entry_key _ (Table.mem_of_get hg)).symm

theorem mem_of_get (h : s.Invariant) {id : JsString} {e : Entry} (hg : s.entries.get id = some e) :
    e ∈ s.entriesBySeq := by
  rw [h.entriesBySeq]
  exact List.mem_map.mpr ⟨_, Table.mem_of_get hg, rfl⟩

/-- What does not touch the entries, the rows and the totals keeps what the invariant says of them. -/
theorem of_eq (h : s.Invariant) (hentries : s'.entries = s.entries)
    (hbySeq : s'.entriesBySeq = s.entriesBySeq) (husage : s'.usage = s.usage) (hstats : s'.stats = s.stats)
    (hseq : s.nextSeq ≤ s'.nextSeq) (hvalues : Addressed StoredValue.address s'.scalarValues)
    (hlists : Addressed StoredList.address s'.listValues)
    (helements : ∀ x ∈ s'.listValues, (x.2.elements.map ListElement.seq).Pairwise (· < ·) ∧
      ∀ element ∈ x.2.elements, element.seq < s'.nextSeq) : s'.Invariant where
  entriesBySeq := by rw [hbySeq, hentries, h.entriesBySeq]
  entry_key := hentries ▸ h.entry_key
  usage_key := husage ▸ h.usage_key
  ids := by rw [hbySeq, husage]; exact h.ids
  entry_seqs := hbySeq ▸ h.entry_seqs
  usage_seqs := husage ▸ h.usage_seqs
  seqs_disjoint := by rw [hbySeq, husage]; exact h.seqs_disjoint
  entry_lt e he := (h.entry_lt e (hbySeq ▸ he)).trans_le hseq
  usage_lt x hx := (h.usage_lt x (husage ▸ hx)).trans_le hseq
  parents := by rw [hbySeq, hentries]; exact h.parents
  messages := by rw [hstats, hbySeq, h.messages]
  totals := by rw [hstats, husage, h.totals]
  values := hvalues
  lists := hlists
  elements := helements

end Invariant

/-- Storing at an address that can be built keeps a table keyed by addresses. -/
theorem Addressed.set {V : Type*} {address : V → StoreAddress} {t : Table JsString V}
    (h : Addressed address t) {v : V} (hv : (address v).Valid) :
    Addressed address (t.set (physicalKey (address v)) v) := by
  refine ⟨h.1.set _ _, ?_⟩
  intro x hx
  rcases Table.mem_set hx with rfl | hx
  · exact ⟨rfl, hv⟩
  · exact h.2 x hx

theorem Addressed.erase {V : Type*} {address : V → StoreAddress} {t : Table JsString V}
    (h : Addressed address t) (k : JsString) : Addressed address (t.erase k) :=
  ⟨h.1.erase k, fun x hx => h.2 x (List.mem_of_mem_filter hx)⟩

/-- What is found at an address was stored at that address, which can be built. -/
theorem Addressed.of_get {V : Type*} {address : V → StoreAddress} {t : Table JsString V}
    (h : Addressed address t) {a : StoreAddress} {v : V} (hg : t.get (physicalKey a) = some v) :
    address v = a ∧ a.Valid := by
  have hmem := h.2 _ (Table.mem_of_get hg)
  have haddr := eq_of_physicalKey_eq hmem.2 hmem.1.symm
  exact ⟨haddr, haddr ▸ hmem.2⟩

theorem Invariant.addressOk_of_applyWrite (h : s.Invariant) (hw : s.applyWrite w = .ok s') :
    w.AddressOk := by
  cases w with
  | setValue seq address value =>
    rcases bind_eq_ok.mp hw with ⟨⟨⟩, hv, -⟩
    exact hv
  | appendList seq address value =>
    cases hl : s.listValues.get (physicalKey address) with
    | none =>
      simp only [applyWrite, hl] at hw
      rcases bind_eq_ok.mp hw with ⟨⟨⟩, hv, -⟩
      exact hv
    | some stored => exact (h.lists.of_get hl).2
  | _ => trivial

theorem Invariant.put_entry (h : s.Invariant) {e : Entry} (hw : s.Fits (.entry e)) :
    (s.put (.entry e)).Invariant := by
  have hseq : s.nextSeq ≤ e.seq := hw.seq
  have hentry : e.id ∉ s.entries.keys := hw.entry_id _ rfl
  have husage : e.id ∉ s.usage.keys := hw.usage_id _ rfl
  have hset : s.entries.set e.id e = s.entries ++ [(e.id, e)] := Table.set_of_not_mem hentry e
  have hlt : ∀ e' ∈ s.entriesBySeq, e'.seq < e.seq := fun e' he => (h.entry_lt e' he).trans_le hseq
  constructor
  case entriesBySeq => simp [put, hset, h.entriesBySeq]
  case entry_key =>
    intro x hx
    simp only [put, hset, List.mem_append, List.mem_singleton] at hx
    rcases hx with hx | rfl
    · exact h.entry_key x hx
    · rfl
  case usage_key => exact h.usage_key
  case ids =>
    have hperm : ((s.put (.entry e)).entriesBySeq.map (·.id) ++ s.usage.map (·.2.id)).Perm
        (e.id :: (s.entriesBySeq.map (·.id) ++ s.usage.map (·.2.id))) := by
      simp only [put, List.map_append, List.map_cons, List.map_nil, List.append_assoc, List.singleton_append]
      exact List.perm_middle
    refine (hperm.nodup_iff).mpr (List.nodup_cons.mpr ⟨?_, h.ids⟩)
    rw [List.mem_append]
    rintro (hid | hid)
    · rcases List.mem_map.mp hid with ⟨e', he', hid⟩
      exact hentry (hid ▸ Table.mem_keys_of_get (h.get_id he'))
    · rcases List.mem_map.mp hid with ⟨x, hx, hid⟩
      exact husage (hid ▸ h.usage_key x hx ▸ Table.mem_keys_of_mem hx)
  case entry_seqs =>
    simp only [put, List.map_append, List.map_cons, List.map_nil]
    refine List.pairwise_append.mpr ⟨h.entry_seqs, List.pairwise_singleton _ _, ?_⟩
    intro a ha b hb
    rcases List.mem_map.mp ha with ⟨e', he', rfl⟩
    rw [List.mem_singleton.mp hb]
    exact hlt e' he'
  case usage_seqs => exact h.usage_seqs
  case seqs_disjoint =>
    intro e' he' x hx
    rcases List.mem_append.mp he' with he' | he'
    · exact h.seqs_disjoint e' he' x hx
    · rw [List.mem_singleton.mp he']
      exact ((h.usage_lt x hx).trans_le hseq).ne'
  case entry_lt =>
    intro e' he'
    rcases List.mem_append.mp he' with he' | he'
    · exact (hlt e' he').trans (Nat.lt_succ_self _)
    · rw [List.mem_singleton.mp he']
      exact Nat.lt_succ_self _
  case usage_lt =>
    intro x hx
    exact ((h.usage_lt x hx).trans_le hseq).trans (Nat.lt_succ_self _)
  case parents =>
    intro e' he' p hp
    rcases List.mem_append.mp he' with he' | he'
    · rcases h.parents e' he' p hp with ⟨q, hq, hlt'⟩
      have hne : e.id ≠ p := fun heq => hentry (heq ▸ Table.mem_keys_of_get hq)
      exact ⟨q, by simp only [put, Table.get_set, if_neg hne, hq], hlt'⟩
    · rw [List.mem_singleton.mp he'] at hp ⊢
      have hkey := hw.parent e rfl p hp
      rcases Table.exists_get_of_mem_keys hkey with ⟨q, hq⟩
      have hne : e.id ≠ p := fun heq => hentry (heq ▸ hkey)
      exact ⟨q, by simp only [put, Table.get_set, if_neg hne, hq], hlt q (h.mem_of_get hq)⟩
  case messages =>
    by_cases hm : e.type = .message
    · simp [put, hm, h.messages]
    · simp [put, hm, h.messages]
  case totals =>
    by_cases hm : e.type = .message
    · simp [put, hm, h.totals]
    · simp [put, hm, h.totals]
  case values => exact h.values
  case lists => exact h.lists
  case elements =>
    intro x hx
    refine ⟨(h.elements x hx).1, fun element hmem => ?_⟩
    exact (((h.elements x hx).2 element hmem).trans_le hseq).trans (Nat.lt_succ_self _)

theorem Invariant.put_usage (h : s.Invariant) {row : UsageRow} (hw : s.Fits (.usage row)) :
    (s.put (.usage row)).Invariant := by
  have hseq : s.nextSeq ≤ row.seq := hw.seq
  have hentry : row.id ∉ s.entries.keys := hw.entry_id _ rfl
  have husage : row.id ∉ s.usage.keys := hw.usage_id _ rfl
  have hset : s.usage.set row.id row = s.usage ++ [(row.id, row)] := Table.set_of_not_mem husage row
  have hlt : ∀ x ∈ s.usage, x.2.seq < row.seq := fun x hx => (h.usage_lt x hx).trans_le hseq
  constructor
  case entriesBySeq => exact h.entriesBySeq
  case entry_key => exact h.entry_key
  case usage_key =>
    intro x hx
    simp only [put, hset, List.mem_append, List.mem_singleton] at hx
    rcases hx with hx | rfl
    · exact h.usage_key x hx
    · rfl
  case ids =>
    simp only [put, hset, List.map_append, List.map_cons, List.map_nil, ← List.append_assoc]
    refine List.nodup_append.mpr ⟨h.ids, List.nodup_singleton _, ?_⟩
    rintro a ha b hb rfl
    rw [List.mem_singleton] at hb
    subst hb
    rcases List.mem_append.mp ha with hid | hid
    · rcases List.mem_map.mp hid with ⟨e', he', hid⟩
      exact hentry (hid ▸ Table.mem_keys_of_get (h.get_id he'))
    · rcases List.mem_map.mp hid with ⟨x, hx, hid⟩
      exact husage (hid ▸ h.usage_key x hx ▸ Table.mem_keys_of_mem hx)
  case entry_seqs => exact h.entry_seqs
  case usage_seqs =>
    simp only [put, hset, List.map_append, List.map_cons, List.map_nil]
    refine List.pairwise_append.mpr ⟨h.usage_seqs, List.pairwise_singleton _ _, ?_⟩
    intro a ha b hb
    rcases List.mem_map.mp ha with ⟨x, hx, rfl⟩
    rw [List.mem_singleton.mp hb]
    exact hlt x hx
  case seqs_disjoint =>
    intro e' he' x hx
    simp only [put, hset, List.mem_append, List.mem_singleton] at hx
    rcases hx with hx | rfl
    · exact h.seqs_disjoint e' he' x hx
    · exact ((h.entry_lt e' he').trans_le hseq).ne
  case entry_lt =>
    intro e' he'
    exact ((h.entry_lt e' he').trans_le hseq).trans (Nat.lt_succ_self _)
  case usage_lt =>
    intro x hx
    simp only [put, hset, List.mem_append, List.mem_singleton] at hx
    rcases hx with hx | rfl
    · exact (hlt x hx).trans (Nat.lt_succ_self _)
    · exact Nat.lt_succ_self _
  case parents => exact h.parents
  case messages => exact h.messages
  case totals => simp [put, hset, h.totals]
  case values => exact h.values
  case lists => exact h.lists
  case elements =>
    intro x hx
    refine ⟨(h.elements x hx).1, fun element hmem => ?_⟩
    exact (((h.elements x hx).2 element hmem).trans_le hseq).trans (Nat.lt_succ_self _)

/-- An append keeps the address of its list and puts the element last. -/
theorem Invariant.appended_spec (h : s.Invariant) {seq : ℕ} (address : StoreAddress) (value : Json)
    (hseq : s.nextSeq ≤ seq) :
    (s.appended seq address value).address = address ∧
      ((s.appended seq address value).elements.map ListElement.seq).Pairwise (· < ·) ∧
      ∀ element ∈ (s.appended seq address value).elements, element.seq < seq + 1 := by
  unfold appended
  cases hl : s.listValues.get (physicalKey address) with
  | none => simp
  | some stored =>
    have hold := h.elements _ (Table.mem_of_get hl)
    have hlt : ∀ element ∈ stored.elements, element.seq < seq :=
      fun element hmem => (hold.2 element hmem).trans_le hseq
    refine ⟨(h.lists.of_get hl).1, ?_, ?_⟩
    · simp only [List.map_append, List.map_cons, List.map_nil]
      refine List.pairwise_append.mpr ⟨hold.1, List.pairwise_singleton _ _, ?_⟩
      intro a ha b hb
      rcases List.mem_map.mp ha with ⟨element, hmem, rfl⟩
      rw [List.mem_singleton.mp hb]
      exact hlt element hmem
    · intro element hmem
      rcases List.mem_append.mp hmem with hmem | hmem
      · exact (hlt element hmem).trans (Nat.lt_succ_self _)
      · rw [List.mem_singleton.mp hmem]
        exact Nat.lt_succ_self _

theorem Invariant.put (h : s.Invariant) (hw : s.Fits w) (haddr : w.AddressOk) : (s.put w).Invariant := by
  have hseq := hw.seq
  have hnext : s.nextSeq ≤ (s.put w).nextSeq := by
    rw [nextSeq_put]
    omega
  have hold : ∀ x ∈ s.listValues, (x.2.elements.map ListElement.seq).Pairwise (· < ·) ∧
      ∀ element ∈ x.2.elements, element.seq < (s.put w).nextSeq := fun x hx =>
    ⟨(h.elements x hx).1, fun element hmem => ((h.elements x hx).2 element hmem).trans_le hnext⟩
  cases w with
  | entry e => exact h.put_entry hw
  | usage row => exact h.put_usage hw
  | setValue seq address value =>
    have hset := h.values.set (v := ⟨address, value, seq⟩) haddr
    exact h.of_eq rfl rfl rfl rfl hnext hset h.lists hold
  | deleteValue seq address => exact h.of_eq rfl rfl rfl rfl hnext (h.values.erase _) h.lists hold
  | deleteList seq address =>
    refine h.of_eq rfl rfl rfl rfl hnext h.values (h.lists.erase _) ?_
    intro x hx
    exact hold x (List.mem_of_mem_filter hx)
  | appendList seq address value =>
    have hseq : s.nextSeq ≤ seq := hseq
    rcases h.appended_spec address value hseq with ⟨ha, hsorted, hlt⟩
    refine h.of_eq rfl rfl rfl rfl hnext h.values ?_ ?_
    · have hset := h.lists.set (v := s.appended seq address value) (ha.symm ▸ haddr)
      rw [ha] at hset
      exact hset
    · intro x hx
      rcases Table.mem_set hx with rfl | hx
      · exact ⟨hsorted, hlt⟩
      · exact hold x hx

theorem Invariant.step (h : s.Invariant) (hstep : Step s s') : s'.Invariant := by
  rcases hstep with ⟨w, hw, happly⟩
  rw [eq_put_of_applyWrite happly]
  exact h.put hw (h.addressOk_of_applyWrite happly)

theorem Invariant.steps (h : s.Invariant) (hsteps : Relation.ReflTransGen Step s s') : s'.Invariant := by
  induction hsteps with
  | refl => exact h
  | tail _ hstep ih => exact ih.step hstep

/-! ## Growth -/

/-- An entry is never replaced. -/
theorem get_of_step (h : Step s s') {id : JsString} {e : Entry} (he : s.entries.get id = some e) :
    s'.entries.get id = some e := by
  rcases h with ⟨w, hw, happly⟩
  rw [eq_put_of_applyWrite happly]
  cases w with
  | entry e' =>
    have hne : e'.id ≠ id := by
      rintro rfl
      exact hw.entry_id _ rfl (Table.mem_keys_of_get he)
    simp only [InMemoryStorageState.put, Table.get_set, if_neg hne, he]
  | _ => exact he

theorem get_of_steps (h : Relation.ReflTransGen Step s s') {id : JsString} {e : Entry}
    (he : s.entries.get id = some e) : s'.entries.get id = some e := by
  induction h with
  | refl => exact he
  | tail _ hstep ih => exact get_of_step hstep ih

/-! ## Branches -/

/-- The line of an entry in the storage. -/
def Ancestry (s : InMemoryStorageState) : Entry → List Entry → Prop :=
  Lineage s.entries.get (fun e => e.parentId)

theorem Invariant.exists_ancestry (h : s.Invariant) {e : Entry} (he : e ∈ s.entriesBySeq) :
    ∃ path, s.Ancestry e path := by
  refine Lineage.exists_of_rank (fun e => e.seq) (· ∈ s.entriesBySeq) ?_ he
  intro x k hx hk
  rcases h.parents x hx k hk with ⟨y, hy, hlt⟩
  exact ⟨y, hy, h.mem_of_get hy, hlt⟩

/-- The loop of `scanBranch` ends with the line of its start. -/
theorem walkParents_of_ancestry {e : Entry} {path : List Entry} (h : s.Ancestry e path) {fuel : ℕ}
    (hfuel : path.length ≤ fuel) : walkParents s.entries fuel e = some (.ok path) := by
  induction h generalizing fuel with
  | root hx =>
    rcases fuel with _ | fuel
    · simp at hfuel
    · simp only [walkParents, hx]
  | step hx hk _ ih =>
    rcases fuel with _ | fuel
    · simp at hfuel
    · rw [List.length_cons, Nat.succ_le_succ_iff] at hfuel
      simp only [walkParents, hx, hk, ih hfuel]
      rfl

/-- The branch of every entry of the storage is scanned up to a root. -/
theorem Invariant.scanBranch_eq (h : s.Invariant) (query : StorageBranchScan) {e : Entry}
    (he : s.entries.get query.start = some e) :
    ∃ path, s.Ancestry e path ∧
      ∀ fuel, path.length ≤ fuel → s.scanBranch query fuel = some (.ok (selectBranch query path)) := by
  rcases h.exists_ancestry (h.mem_of_get he) with ⟨path, hpath⟩
  refine ⟨path, hpath, ?_⟩
  intro fuel hfuel
  simp only [scanBranch, he, walkParents_of_ancestry hpath hfuel]
  rfl

/-! ## Rejected commits -/

/-- The writes go through the validation but throw after the first of them was applied. -/
def Tears (s : InMemoryStorageState) (ws : List CommittedWrite) : Prop :=
  s.validateCommitted ws = .ok () ∧ (∃ w ∈ ws, ¬w.AddressOk) ∧ ∀ w ∈ ws.head?, w.AddressOk

theorem nextSeq_lt_of_step (h : Step s s') : s.nextSeq < s'.nextSeq := by
  rcases h with ⟨w, hw, happly⟩
  rw [eq_put_of_applyWrite happly, nextSeq_put]
  exact Nat.lt_succ_of_le hw.seq

theorem nextSeq_le_of_steps (h : Relation.ReflTransGen Step s s') : s.nextSeq ≤ s'.nextSeq := by
  induction h with
  | refl => exact le_rfl
  | tail _ hstep ih => exact ih.trans (nextSeq_lt_of_step hstep).le

/-- The loop returns when all addresses can be built, and leaves the writes applied in order. -/
theorem applyValidated_of_addressOk (h : ∀ w ∈ ws, w.AddressOk) :
    s.applyValidated ws = (ws.foldl InMemoryStorageState.put s, .ok (ws.foldl InMemoryStorageState.put s).stats) := by
  induction ws generalizing s with
  | nil => rfl
  | cons w ws ih =>
    rw [List.forall_mem_cons] at h
    simp only [applyValidated, applyWrite_of_addressOk s h.1, List.foldl_cons]
    exact ih h.2

/-- The loop throws when some address cannot be built. -/
theorem Invariant.applyValidated_error (h : s.Invariant) (hok : s.validateCommitted ws = .ok ())
    (hbad : ∃ w ∈ ws, ¬w.AddressOk) : ∃ e, (s.applyValidated ws).2 = .error e := by
  induction ws generalizing s with
  | nil => simp at hbad
  | cons w ws ih =>
    rcases validateCommitted_cons.mp hok with ⟨hw, hws⟩
    unfold applyValidated
    cases happly : s.applyWrite w with
    | error e => exact ⟨e, rfl⟩
    | ok s' =>
      have haddr := h.addressOk_of_applyWrite happly
      have hput := eq_put_of_applyWrite happly
      subst hput
      rcases hbad with ⟨w', hw', hbad⟩
      rcases List.mem_cons.mp hw' with rfl | hw'
      · exact absurd haddr hbad
      · exact ih (h.put hw haddr) hws ⟨w', hw', hbad⟩

/-- A commit that throws leaves the state as it was exactly when the throw is not in the middle. -/
theorem Invariant.applyCommitted_atomic_iff (h : s.Invariant) (ws : List CommittedWrite) :
    ((∃ e, (s.applyCommitted ws).2 = .error e) → (s.applyCommitted ws).1 = s) ↔ ¬s.Tears ws := by
  unfold applyCommitted Tears
  cases hok : s.validateCommitted ws with
  | error e => simp
  | ok u =>
    rcases u with ⟨⟩
    simp only [true_and, not_and, not_forall]
    by_cases hbad : ∃ w ∈ ws, ¬w.AddressOk
    · have herr := h.applyValidated_error hok hbad
      rw [imp_iff_right herr, imp_iff_right hbad]
      cases ws with
      | nil => simp at hbad
      | cons w ws =>
        rcases validateCommitted_cons.mp hok with ⟨hw, hws⟩
        simp only [List.head?_cons, Option.mem_some_iff, exists_prop, exists_eq_left']
        constructor
        · intro hsame haddr
          rw [applyValidated, applyWrite_of_addressOk s haddr] at hsame
          -- the first write was applied, and sequences only grow
          have hlt := nextSeq_lt_of_step ⟨w, hw, applyWrite_of_addressOk s haddr⟩
          have hle := nextSeq_le_of_steps (applyValidated_steps hws)
          rw [hsame] at hle
          omega
        · intro haddr
          unfold applyValidated
          cases happly : s.applyWrite w with
          | error e => rfl
          | ok s' => exact absurd (h.addressOk_of_applyWrite happly) haddr
    · have hall : ∀ w ∈ ws, w.AddressOk := by
        intro w hw
        by_contra haddr
        exact hbad ⟨w, hw, haddr⟩
      rw [applyValidated_of_addressOk hall]
      simp [hbad]

/-! ## Sequences of commits -/

/-- A commit: new writes, or a stored transaction that is read back. -/
inductive Commit where
  | new (writes : List Write) (timestamp : ℕ)
  | stored (writes : List CommittedWrite)

/-- The writes of a commit with their sequences. -/
def Commit.writes (s : InMemoryStorageState) : Commit → List CommittedWrite
  | .new writes timestamp => prepareStorageCommit writes s.nextSeq timestamp
  | .stored writes => writes

/-- A commit, with the state it leaves and the totals it reports. -/
def perform (s : InMemoryStorageState) : Commit → InMemoryStorageState × Except StorageError SessionStats
  | .new writes timestamp => ((s.commit writes timestamp).1, (s.commit writes timestamp).2.map (·.stats))
  | .stored writes => s.applyCommitted writes

def runCommits (s : InMemoryStorageState) (commits : List Commit) : InMemoryStorageState :=
  commits.foldl (fun s c => (s.perform c).1) s

theorem perform_eq (s : InMemoryStorageState) (c : Commit) :
    s.perform c = s.applyCommitted (c.writes s) := by
  cases c with
  | stored writes => rfl
  | new writes timestamp =>
    simp only [perform, commit, prepareCommit, applyCommitted, Commit.writes]
    cases s.validateCommitted (prepareStorageCommit writes s.nextSeq timestamp) with
    | error e => rfl
    | ok u =>
      rcases u with ⟨⟩
      simp only [ok_bind, pure, Except.pure]
      cases s.applyValidated (prepareStorageCommit writes s.nextSeq timestamp) with
      | mk s' r => cases r <;> rfl

/-- A commit is a sequence of steps, accepted or not. -/
theorem perform_steps (s : InMemoryStorageState) (c : Commit) :
    Relation.ReflTransGen Step s (s.perform c).1 := by
  rw [perform_eq, applyCommitted]
  cases hok : s.validateCommitted (c.writes s) with
  | error e => exact .refl
  | ok u => exact applyValidated_steps hok

theorem Invariant.perform (h : s.Invariant) (c : Commit) : (s.perform c).1.Invariant :=
  h.steps (perform_steps s c)

theorem runCommits_steps (s : InMemoryStorageState) (commits : List Commit) :
    Relation.ReflTransGen Step s (runCommits s commits) := by
  induction commits generalizing s with
  | nil => exact .refl
  | cons c commits ih => exact (perform_steps s c).trans (ih _)

theorem invariant_runCommits (commits : List Commit) : (runCommits empty commits).Invariant :=
  invariant_empty.steps (runCommits_steps empty commits)

/-- After any sequence of commits, accepted or rejected, the storage is well formed and every branch is scanned
up to its root. A commit given to it next leaves it as it was when it is rejected, exactly if it does not throw
in the middle of its writes. -/
theorem commits_keep_invariant (commits : List Commit) (s : InMemoryStorageState)
    (hs : s = runCommits empty commits) :
    s.Invariant ∧
      (∀ query e, s.entries.get query.start = some e → ∃ path, s.Ancestry e path ∧
        ∀ fuel, path.length ≤ fuel → s.scanBranch query fuel = some (.ok (selectBranch query path))) ∧
      ∀ c, ((∃ e, (s.perform c).2 = .error e) → (s.perform c).1 = s) ↔ ¬s.Tears (c.writes s) := by
  have h : s.Invariant := hs ▸ invariant_runCommits commits
  refine ⟨h, fun query e he => h.scanBranch_eq query he, ?_⟩
  intro c
  rw [perform_eq]
  exact h.applyCommitted_atomic_iff _

/-- A value, then one under an empty namespace: the commit is refused and the first value stays. -/
def tornCommit : Commit :=
  .new [.setValue ⟨JsString.ofAscii "app", []⟩ .null, .setValue ⟨[], JsString.ofAscii "key"⟩ .null] 0

theorem commits_keep_invariant_torn :
    empty.Tears (tornCommit.writes empty) ∧
      ¬((∃ e, (empty.perform tornCommit).2 = .error e) → (empty.perform tornCommit).1 = empty) := by
  have htears : empty.Tears (tornCommit.writes empty) := by
    refine ⟨rfl, ⟨.setValue 2 ⟨[], JsString.ofAscii "key"⟩ .null, ?_, by decide⟩, ?_⟩
    · exact List.mem_cons_of_mem _ (List.mem_cons_self ..)
    · rintro w ⟨⟩
      decide
  refine ⟨htears, fun h => ?_⟩
  exact ((commits_keep_invariant [] empty rfl).2.2 tornCommit).mp h htears

theorem rejected_commit_changes_state :
    (empty.perform tornCommit).2 = .error (.typeError "Value namespace must not be empty") ∧
      (empty.perform tornCommit).1 ≠ empty := by
  refine ⟨rfl, fun h => ?_⟩
  have hseq : (empty.perform tornCommit).1.nextSeq = 2 := rfl
  rw [h] at hseq
  exact absurd hseq (by decide)

end InMemoryStorageState

end Phi.Session
