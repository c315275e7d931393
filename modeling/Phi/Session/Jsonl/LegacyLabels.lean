import Phi.Data.Ensures
import Phi.Session.Jsonl.LegacyV3

/-!
# Labels of a session of format 3

The old format labels any record; the new one labels entries. A label record of a discarded target is imported as one of
the nearest retained ancestor of that target, so the label of an entry is that of the last record, in the order of the
file, whose target is the entry or is discarded above it.

`Resolves` says what an id resolves to, without the cache; every computation with the resolver keeps a cache that agrees
with it.
-/

namespace Phi.Session.Jsonl

open Phi.Ai InMemoryStorageState

/-! ## The resolver -/

namespace RetainedIdResolver

variable {resolver : RetainedIdResolver}

/-- What an id resolves to: the new id of the first retained record of its chain, or nothing when the chain ends. -/
inductive Resolves (resolver : RetainedIdResolver) : Option JsString → Option JsString → Prop
  | root : Resolves resolver none none
  | retained {id remintedId : JsString} (h : resolver.remintedIds.get id = some remintedId) :
    Resolves resolver (some id) (some remintedId)
  | discarded {id : JsString} {entry : LegacyV3Entry} {found : Option JsString}
    (h : resolver.remintedIds.get id = none) (hentry : resolver.entriesById.get id = some entry)
    (hparent : Resolves resolver entry.parentId found) : Resolves resolver (some id) found

theorem Resolves.unique {id found found' : Option JsString} (h : Resolves resolver id found)
    (h' : Resolves resolver id found') : found = found' := by
  induction h with
  | root =>
    cases h'
    rfl
  | retained h =>
    cases h' with
    | retained h' => rw [← h, h']
    | discarded h' => exact absurd (h.symm.trans h') (by simp)
  | discarded h hentry _ ih =>
    cases h' with
    | retained h' => exact absurd (h'.symm.trans h) (by simp)
    | discarded _ hentry' hparent' =>
      cases Option.some.inj (hentry.symm.trans hentry')
      exact ih hparent'

/-- The cache holds what its ids resolve to. -/
def Cached (resolver : RetainedIdResolver) (resolvedIds : ResolvedIds) : Prop :=
  ∀ id found, resolvedIds.get id = some found → Resolves resolver (some id) found

theorem cached_nil : Cached resolver [] := fun id found h => absurd h (by simp)

/-- Where `traverse` leaves the chain: at an id that has a new one, or that is in the cache. -/
def knownId (resolver : RetainedIdResolver) (resolvedIds : ResolvedIds) (traversedIds : List JsString)
    (currentId : JsString) : Option (List JsString × Option JsString) :=
  match resolver.remintedIds.get currentId with
  | some remintedId => some (traversedIds, some remintedId)
  | none => (resolvedIds.get currentId).map fun resolvedId => (traversedIds, resolvedId)

theorem traverse_spec {resolvedIds : ResolvedIds} (hcached : Cached resolver resolvedIds) {legacyId : Option JsString}
    {traversedIds : List JsString} {found : Option JsString}
    (h : resolver.traverse resolvedIds legacyId = .ok (traversedIds, found)) :
    Resolves resolver legacyId found ∧ ∀ id ∈ traversedIds, Resolves resolver (some id) found := by
  -- What the rest of the chain resolves to, everything before it does.
  let I (traversedIds : List JsString) (id : Option JsString) : Prop := ∀ found, Resolves resolver id found →
    Resolves resolver legacyId found ∧ ∀ id ∈ traversedIds, Resolves resolver (some id) found
  let P : List JsString ⊕ List JsString × Option JsString → Prop :=
    Sum.elim (fun traversedIds => Resolves resolver legacyId none ∧ ∀ id ∈ traversedIds, Resolves resolver (some id) none)
      fun result => Resolves resolver legacyId result.2 ∧ ∀ id ∈ result.1, Resolves resolver (some id) result.2
  have hwalk : ∀ r, walk resolver.entriesById LegacyV3Entry.parentId (resolver.knownId resolvedIds)
      (fun traversedIds currentId _ => .inl (traversedIds ++ [currentId])) [] [] legacyId = .ok r → P r := by
    intro r hr
    refine walk_rule (I := I) (P := P) ?_ ?_ ?_ ?_ ?_ hr
    · exact fun s hI => hI none .root
    · intro s key b hI hexit
      cases hreminted : resolver.remintedIds.get key with
      | some remintedId =>
        rw [knownId, hreminted] at hexit
        cases hexit
        exact hI _ (.retained hreminted)
      | none =>
        rw [knownId, hreminted] at hexit
        obtain ⟨resolvedId, hresolved, rfl⟩ := Option.map_eq_some_iff.mp hexit
        exact hI _ (hcached key resolvedId hresolved)
    · intro s key node b _ _ hstop
      cases hstop
    · intro s key node s' hI hexit hnode hvisit found hfound
      cases hvisit
      cases hreminted : resolver.remintedIds.get key with
      | some remintedId =>
        rw [knownId, hreminted] at hexit
        cases hexit
      | none =>
        have hkey : Resolves resolver (some key) found := .discarded hreminted hnode hfound
        obtain ⟨hlegacy, hall⟩ := hI found hkey
        refine ⟨hlegacy, fun id hid => ?_⟩
        rcases List.mem_append.mp hid with hid | hid
        · exact hall id hid
        · rw [List.mem_singleton.mp hid]
          exact hkey
    · exact fun found hfound => ⟨hfound, by simp⟩
  unfold traverse at h
  dsimp only at h
  split at h
  · rename_i heq
    cases h
    exact hwalk _ heq
  · rename_i heq
    cases h
    exact hwalk _ heq
  · cases h
  · cases h

theorem Cached.foldl_set {resolvedIds : ResolvedIds} (h : Cached resolver resolvedIds) {found : Option JsString}
    {ids : List JsString} (hids : ∀ id ∈ ids, Resolves resolver (some id) found) :
    Cached resolver (ids.foldl (fun resolvedIds id => Table.set resolvedIds id found) resolvedIds) := by
  induction ids generalizing resolvedIds with
  | nil => exact h
  | cons id ids ih =>
    rw [List.forall_mem_cons] at hids
    refine ih (fun id' found' hget => ?_) hids.2
    rw [Table.get_set] at hget
    split_ifs at hget with hid
    · cases hget
      rw [← hid]
      exact hids.1
    · exact h id' found' hget

theorem ensures_resolve (legacyId : Option JsString) :
    Ensures (Cached resolver) (resolver.resolve legacyId) (Resolves resolver legacyId) := by
  intro resolvedIds hcached found resolvedIds' h
  obtain ⟨⟨traversedIds, found'⟩, htraverse, h⟩ := bind_eq_ok.mp h
  cases h
  obtain ⟨hlegacy, hall⟩ := traverse_spec hcached htraverse
  exact ⟨hlegacy, hcached.foldl_set hall⟩

theorem ensures_requireRetainedId (legacyId : JsString) : Ensures (Cached resolver)
    (resolver.requireRetainedId legacyId) fun id => Resolves resolver (some legacyId) (some id) := by
  refine (ensures_resolve (some legacyId)).bind fun found hfound => ?_
  cases found with
  | none => exact .throw _
  | some id => exact .pure hfound

theorem ensures_resolveBranchSummaryFromId (legacyFromId : JsString) :
    Ensures (Cached resolver) (resolver.resolveBranchSummaryFromId legacyFromId) fun _ => True := by
  unfold resolveBranchSummaryFromId
  split_ifs
  · exact .pure trivial
  · exact (ensures_resolve _).mono fun _ _ => trivial

end RetainedIdResolver

open RetainedIdResolver

/-! ## Entries -/

section
variable {E : ImportEnvironment} {resolver : RetainedIdResolver}

theorem ensures_projectContextMessages (entry : LegacyV3Entry) :
    Ensures (Cached resolver) (projectContextMessages E resolver entry) fun _ => True := by
  unfold projectContextMessages
  split
  · exact .pure trivial
  · exact .pure trivial
  · split_ifs
    · exact .pure trivial
    · exact (ensures_resolveBranchSummaryFromId _).bind fun _ _ => .pure trivial
  · exact .pure trivial
  · exact .pure trivial
  · exact .pure trivial

theorem ensures_materializeRetainedTail (compactionId : JsString) (parentId : Option JsString)
    (firstKeptEntryId : JsString) : Ensures (Cached resolver)
      (materializeRetainedTail E resolver compactionId parentId firstKeptEntryId) fun _ => True := by
  refine (Ensures.lift (P := fun _ => True) fun _ _ => trivial).bind fun tail _ => ?_
  refine Ensures.bind (P := fun _ => True) ?_ fun _ _ => .pure trivial
  induction tail with
  | nil => exact .pure trivial
  | cons entry tail ih =>
    rw [List.mapM_cons]
    exact (ensures_projectContextMessages entry).bind fun _ _ => ih.bind fun _ _ => .pure trivial

theorem ensures_retainedFields (entry : LegacyV3Entry) (record : RetainedLegacyV3Record) :
    Ensures (Cached resolver) (retainedFields E resolver entry record) fun _ => True := by
  cases record with
  | message message => exact .pure trivial
  | custom customType data => exact .pure trivial
  | customMessage customType content details display => exact .pure trivial
  | branchSummary fromId summary details usage fromHook =>
    exact (ensures_resolveBranchSummaryFromId fromId).bind fun _ _ => .pure trivial
  | compaction summary firstKeptEntryId tokensBefore details usage fromHook =>
    exact (ensures_materializeRetainedTail _ _ _).bind fun _ _ => .pure trivial

/-- A migrated entry: its ids are what those of the record resolve to. -/
structure Migrated (resolver : RetainedIdResolver) (entry : LegacyV3Entry) (e : Entry) : Prop where
  id : Resolves resolver (some entry.id) (some e.id)
  parentId : Resolves resolver entry.parentId e.parentId

theorem ensures_normalizeRetainedEntry (entry : LegacyV3Entry) (record : RetainedLegacyV3Record) (seq : ℕ) :
    Ensures (Cached resolver) (normalizeRetainedEntry E resolver entry record seq) (Migrated resolver entry) := by
  refine (ensures_requireRetainedId entry.id).bind fun id hid => ?_
  refine (ensures_resolve entry.parentId).bind fun parentId hparent => ?_
  exact (ensures_retainedFields entry record).bind fun _ _ => .pure ⟨hid, hparent⟩

theorem ensures_normalizeRetainedEntries (seq : ℕ) (retained : List (LegacyV3Entry × RetainedLegacyV3Record)) :
    Ensures (Cached resolver) (normalizeRetainedEntries E resolver seq retained)
      (List.Forall₂ (fun x e => Migrated resolver x.1 e) retained) := by
  induction retained generalizing seq with
  | nil => exact .pure .nil
  | cons x retained ih =>
    refine (ensures_normalizeRetainedEntry x.1 x.2 seq).bind fun e he => ?_
    exact (ih (seq + 1)).bind fun entries hentries => .pure (.cons he hentries)

end

/-! ## Label records -/

/-- A record that labels what resolves to an id. -/
def SetsLabel (resolver : RetainedIdResolver) (id : JsString) (entry : LegacyV3Entry) (label : Option JsString) : Prop :=
  ∃ targetId, entry.record = .discarded (.label targetId label) ∧ Resolves resolver (some targetId) (some id)

/-- What the last of some records that satisfy a relation says, or what was there before when there is none. -/
structure LastSays (sets : LegacyV3Entry → Option JsString → Prop) (entries : List LegacyV3Entry)
    (before after : Option JsString) : Prop where
  last : ∀ front entry rest label, entries = front ++ entry :: rest → sets entry label →
    (∀ entry' ∈ rest, ∀ label', ¬sets entry' label') → after = label.filter fun label => label ≠ []
  none : (∀ entry ∈ entries, ∀ label, ¬sets entry label) → after = before

theorem LastSays.cons {sets : LegacyV3Entry → Option JsString → Prop} {entry : LegacyV3Entry}
    {entries : List LegacyV3Entry} {before between after : Option JsString} (h : LastSays sets entries between after)
    (hsets : ∀ label, sets entry label → between = label.filter fun label => label ≠ [])
    (hnone : (∀ label, ¬sets entry label) → between = before) : LastSays sets (entry :: entries) before after := by
  refine ⟨fun front entry' rest label heq hlabel hrest => ?_, fun hall => ?_⟩
  · cases front with
    | nil =>
      cases heq
      rw [h.none hrest, hsets label hlabel]
    | cons x front => exact h.last front entry' rest label (List.cons.inj heq).2 hlabel hrest
  · rw [List.forall_mem_cons] at hall
    rw [h.none hall.2, hnone hall.1]

theorem LastSays.congr {sets sets' : LegacyV3Entry → Option JsString → Prop} {entries : List LegacyV3Entry}
    {before after : Option JsString} (hsets : ∀ entry label, sets entry label ↔ sets' entry label)
    (h : LastSays sets entries before after) : LastSays sets' entries before after := by
  obtain rfl : sets = sets' := funext fun entry => funext fun label => propext (hsets entry label)
  exact h

theorem ensures_importLabels {resolver : RetainedIdResolver} (entries : List LegacyV3Entry)
    (labels : Table JsString JsString) (hnodup : labels.Nodup) :
    Ensures (Cached resolver) (importLabels resolver entries labels) fun labels' => labels'.Nodup ∧
      ∀ id, LastSays (SetsLabel resolver id) entries (labels.get id) (labels'.get id) := by
  induction entries generalizing labels with
  | nil =>
    refine .pure ⟨hnodup, fun id => ⟨fun front entry rest label heq => ?_, fun _ => rfl⟩⟩
    exact absurd heq (by simp)
  | cons entry entries ih =>
    have hother : (∀ id label, ¬SetsLabel resolver id entry label) →
        Ensures (Cached resolver) (importLabels resolver entries labels) fun labels' => labels'.Nodup ∧
          ∀ id, LastSays (SetsLabel resolver id) (entry :: entries) (labels.get id) (labels'.get id) := by
      intro hno
      refine (ih labels hnodup).mono fun labels' hlabels' => ⟨hlabels'.1, fun id => ?_⟩
      exact (hlabels'.2 id).cons (fun label hlabel => absurd hlabel (hno id label)) fun _ => rfl
    unfold importLabels
    split
    · rename_i targetId label hrecord
      have hsets : ∀ {found : Option JsString}, Resolves resolver (some targetId) found →
          ∀ id label', SetsLabel resolver id entry label' ↔ found = some id ∧ label' = label := by
        intro found hfound id label'
        constructor
        · rintro ⟨targetId', hrecord', htarget⟩
          rw [hrecord] at hrecord'
          cases hrecord'
          exact ⟨hfound.unique htarget, rfl⟩
        · rintro ⟨rfl, rfl⟩
          exact ⟨targetId, hrecord, hfound⟩
      refine (ensures_resolve (some targetId)).bind fun found hfound => ?_
      cases found with
      | none => exact hother fun id label' hlabel => absurd ((hsets hfound id label').mp hlabel).1 (by simp)
      | some target =>
        -- Only the label of the target changes, to what the record says.
        have hstep : ∀ between : Table JsString JsString, between.Nodup →
            (∀ id, between.get id = if target = id then label.filter fun label => label ≠ [] else labels.get id) →
            Ensures (Cached resolver) (importLabels resolver entries between) fun labels' => labels'.Nodup ∧
              ∀ id, LastSays (SetsLabel resolver id) (entry :: entries) (labels.get id) (labels'.get id) := by
          intro between hbetween hget
          refine (ih between hbetween).mono fun labels' hlabels' => ⟨hlabels'.1, fun id => ?_⟩
          refine (hlabels'.2 id).cons (fun label' hlabel => ?_) fun hno => ?_
          · obtain ⟨htarget, rfl⟩ := (hsets hfound id label').mp hlabel
            rw [hget, if_pos (Option.some.inj htarget)]
          · have hne : target ≠ id := by
              rintro rfl
              exact hno label ((hsets hfound target label).mpr ⟨rfl, rfl⟩)
            rw [hget, if_neg hne]
        cases hlabel : label.filter fun label => label ≠ [] with
        | some text =>
          refine hstep _ (hnodup.set target text) fun id => ?_
          rw [Table.get_set, hlabel]
        | none =>
          refine hstep _ (hnodup.erase target) fun id => ?_
          rw [Table.get_erase, hlabel]
    · rename_i hrecord
      refine hother fun id label hlabel => ?_
      obtain ⟨targetId, hrecord', -⟩ := hlabel
      exact hrecord targetId label hrecord'

/-! ## Values -/

/-- The imported values: the labels, among values at other addresses. -/
structure LabelValues (resolver : RetainedIdResolver) (entries : List LegacyV3Entry) (values : List (StoreAddress × Json))
    (labels : Table JsString JsString) : Prop where
  nodup : labels.Nodup
  last : ∀ id, LastSays (SetsLabel resolver id) entries none (labels.get id)
  mem : ∀ id value, (entryLabel id, value) ∈ values ↔ ∃ label, (id, label) ∈ labels ∧ value = .string label

theorem ensures_legacyValues {resolver : RetainedIdResolver} (entries : List LegacyV3Entry) :
    Ensures (Cached resolver) (legacyValues resolver entries) fun values =>
      ∃ labels, LabelValues resolver entries values labels := by
  refine (ensures_importLabels entries [] List.nodup_nil).bind fun labels hlabels => ?_
  refine (ensures_resolve _).bind fun tip _ => ?_
  refine (Ensures.lift (P := fun _ => True) fun _ _ => trivial).bind fun configuration _ => ?_
  refine .pure ⟨labels, hlabels.1, hlabels.2, fun id value => ?_⟩
  have hne : ∀ a : StoreAddress, a.namespace ≠ (entryLabel []).namespace → entryLabel id ≠ a := by
    rintro a hne rfl
    exact hne rfl
  have hname := hne sessionName (by decide)
  have htip := hne (branchTip (name "main")) (by decide)
  have hconfig := hne (laneConfig (name "main")) (by decide)
  have hstate := hne (laneState (name "main")) (by decide)
  simp only [List.mem_append, List.mem_map, List.mem_flatMap, List.mem_cons, List.not_mem_nil, or_false, Prod.mk.injEq]
  constructor
  · rintro (((⟨latest, -, heq, -⟩ | ⟨label, hmem, heq, rfl⟩) | ⟨heq, -⟩) | ⟨configuration, -, ⟨heq, -⟩ | ⟨heq, -⟩⟩)
    · exact absurd heq.symm hname
    · obtain rfl : label.1 = id := congrArg StoreAddress.key heq
      exact ⟨label.2, hmem, rfl⟩
    · exact absurd heq htip
    · exact absurd heq hconfig
    · exact absurd heq hstate
  · rintro ⟨label, hmem, rfl⟩
    exact .inl (.inl (.inr ⟨(id, label), hmem, rfl, rfl⟩))

/-- The state behind writes that a replay accepts. -/
theorem replayCommitted_eq_ok {s s' : InMemoryStorageState} {ws : List CommittedWrite}
    (h : replayCommitted s ws = .ok s') : s.validateCommitted ws = .ok () ∧ s' = ws.foldl put s := by
  unfold replayCommitted applyCommitted at h
  cases hok : s.validateCommitted ws with
  | error e =>
    rw [hok] at h
    cases h
  | ok u =>
    rw [hok] at h
    refine ⟨rfl, ?_⟩
    cases happly : s.applyValidated ws with
    | mk next result =>
      simp only [happly] at h
      cases result with
      | error e => cases h
      | ok stats =>
        cases h
        rw [← foldl_put_of_applyValidated (by rw [happly]), happly]

theorem mem_setWrites {firstSeq : ℕ} {values : List (StoreAddress × Json)} {w : CommittedWrite} :
    w ∈ setWrites firstSeq values → ∃ seq, ∃ x ∈ values, w = .setValue seq x.1 x.2 := by
  induction values generalizing firstSeq with
  | nil => exact fun h => absurd h List.not_mem_nil
  | cons x values ih =>
    intro h
    rcases List.mem_cons.mp h with rfl | h
    · exact ⟨firstSeq, x, List.mem_cons_self, rfl⟩
    · obtain ⟨seq, y, hy, rfl⟩ := ih h
      exact ⟨seq, y, List.mem_cons_of_mem _ hy, rfl⟩

theorem exists_mem_setWrites {firstSeq : ℕ} {values : List (StoreAddress × Json)} {x : StoreAddress × Json}
    (hx : x ∈ values) : ∃ seq, .setValue seq x.1 x.2 ∈ setWrites firstSeq values := by
  induction values generalizing firstSeq with
  | nil => exact absurd hx List.not_mem_nil
  | cons y values ih =>
    rcases List.mem_cons.mp hx with rfl | hx
    · exact ⟨firstSeq, List.mem_cons_self⟩
    · obtain ⟨seq, hseq⟩ := ih hx
      exact ⟨seq, List.mem_cons_of_mem _ hseq⟩

theorem entriesBySeq_foldl_put (s : InMemoryStorageState) (entries : List Entry) (firstSeq : ℕ)
    (values : List (StoreAddress × Json)) :
    ((entries.map CommittedWrite.entry ++ setWrites firstSeq values).foldl put s).entriesBySeq
      = s.entriesBySeq ++ entries := by
  induction entries generalizing s with
  | nil =>
    rw [List.append_nil, List.map_nil, List.nil_append]
    induction values generalizing s firstSeq with
    | nil => rfl
    | cons x values ih => exact ih _ _
  | cons e entries ih =>
    rw [List.map_cons, List.cons_append, List.foldl_cons, ih]
    exact List.append_assoc _ _ _

def getLabel (s : InMemoryStorageState) (targetId : JsString) : Option Json :=
  (s.getValue (entryLabel targetId)).map (·.value)

/-- What is stored as the label of an entry. -/
theorem getLabel_foldl_put {resolver : RetainedIdResolver} {entries : List LegacyV3Entry}
    {values : List (StoreAddress × Json)} {labels : Table JsString JsString}
    (h : LabelValues resolver entries values labels) (migrated : List Entry) (firstSeq : ℕ) {id : JsString}
    (hid : 0 ∉ id) :
    getLabel ((migrated.map CommittedWrite.entry ++ setWrites firstSeq values).foldl put empty) id
      = (labels.get id).map .string := by
  have hvalid : (entryLabel id).Valid := by
    simp only [StoreAddress.Valid, validateAddress, entryLabel, hid, if_false]
    decide
  have hcases : ∀ w ∈ migrated.map CommittedWrite.entry ++ setWrites firstSeq values,
      (∃ e, w = .entry e) ∨ ∃ seq a v, w = .setValue seq a v := by
    intro w hw
    rcases List.mem_append.mp hw with hw | hw
    · obtain ⟨e, -, rfl⟩ := List.mem_map.mp hw
      exact .inl ⟨e, rfl⟩
    · obtain ⟨seq, x, -, rfl⟩ := mem_setWrites hw
      exact .inr ⟨seq, x.1, x.2, rfl⟩
  rw [getLabel, getValue, (foldl_put_forkWrites (s := empty) hcases).1]
  refine map_get_foldl_set (fun x : StoredValue => x.value) _ _ _ fun value => ?_
  have hlabel : (labels.get id).map Json.string = some value ↔ (entryLabel id, value) ∈ values := by
    rw [h.mem, Option.map_eq_some_iff]
    refine exists_congr fun label => and_congr ⟨Table.mem_of_get, Table.get_of_mem h.nodup⟩ eq_comm
  rw [hlabel]
  constructor
  · rintro ⟨x, hx, hkey, rfl⟩
    obtain ⟨w, hw, hscalar⟩ := List.mem_filterMap.mp hx
    rcases List.mem_append.mp hw with hw | hw
    · obtain ⟨e, -, rfl⟩ := List.mem_map.mp hw
      cases hscalar
    · obtain ⟨seq, y, hy, rfl⟩ := mem_setWrites hw
      cases hscalar
      rw [eq_of_physicalKey_eq hvalid hkey.symm]
      exact hy
  · intro hmem
    obtain ⟨seq, hseq⟩ := exists_mem_setWrites hmem
    exact ⟨_, List.mem_filterMap.mpr ⟨_, List.mem_append_right _ hseq, rfl⟩, rfl, rfl⟩

/-! ## The ids of a file -/

theorem inventory_eq_ok {entries : List LegacyV3Entry} {entriesById entriesById' : Table JsString LegacyV3Entry}
    (hnodup : entriesById.Nodup) (h : inventory entries entriesById = .ok entriesById') :
    entriesById' = entriesById ++ entries.map (fun entry => (entry.id, entry)) ∧ entriesById'.Nodup := by
  induction entries generalizing entriesById with
  | nil =>
    cases h
    exact ⟨(List.append_nil _).symm, hnodup⟩
  | cons entry entries ih =>
    rw [inventory, ite_error_eq_ok, Bool.not_eq_true, Table.has_eq_false] at h
    obtain ⟨hnodup', heq⟩ := (ih (hnodup.set _ _) h.2).symm
    rw [Table.set_of_not_mem h.1, List.append_assoc] at heq
    exact ⟨heq, hnodup'⟩

/-- The new ids: those of different entries differ, and none has a null character. -/
structure Minted (E : ImportEnvironment) (sequence : Option ℕ) (entries : List LegacyV3Entry)
    (minted : List (JsString × JsString)) : Prop where
  keys : minted.map Prod.fst = entries.map LegacyV3Entry.id
  values : ∀ ids ∈ minted, ∃ t n random, ids.2 = uuidText (uuidBytes t n random) ∧ n ≤ maxSequence ∧ ∀ s ∈ sequence, s < n
  nodup : (minted.map Prod.snd).Nodup

theorem lt_nextSequence {s next : ℕ} {random : RandomBytes} (h : nextSequence (some s) random = .ok next) : s < next := by
  rw [nextSequence, ite_error_eq_ok] at h
  cases h.2
  exact Nat.lt_succ_self s

theorem minted_of_remint {E : ImportEnvironment} {index : ℕ} {sequence : Option ℕ} {entries : List LegacyV3Entry}
    {minted : List (JsString × JsString)} (hs : ∀ s ∈ sequence, s ≤ maxSequence)
    (h : remint E index sequence entries = .ok minted) : Minted E sequence entries minted := by
  induction entries generalizing index sequence minted with
  | nil =>
    cases h
    exact ⟨rfl, by simp, List.nodup_nil⟩
  | cons entry entries ih =>
    rw [remint, bind_eq_ok] at h
    obtain ⟨⟨id, next⟩, hid, h⟩ := h
    obtain ⟨rest, hrest, h⟩ := bind_eq_ok.mp h
    cases h
    have huuid : uuidv7 sequence (E.dateParse entry.timestamp) (E.random index) = .ok (id, next) := by
      cases heq : uuidv7 sequence (E.dateParse entry.timestamp) (E.random index) with
      | error e =>
        rw [heq] at hid
        cases hid
      | ok r =>
        rw [heq] at hid
        cases hid
        rfl
    obtain ⟨t, -, -, hnext, rfl⟩ := uuidv7_eq_ok huuid
    have hle := nextSequence_le hs hnext
    have hlt : ∀ s ∈ sequence, s < next := by
      rintro s rfl
      exact lt_nextSequence hnext
    have hmore := ih (by simpa using hle) hrest
    refine ⟨?_, ?_, ?_⟩
    · rw [List.map_cons, List.map_cons, hmore.keys]
    · rw [List.forall_mem_cons]
      refine ⟨⟨t, next, _, rfl, hle, hlt⟩, fun ids hids => ?_⟩
      obtain ⟨t', n, random, hids, hn, hafter⟩ := hmore.values ids hids
      exact ⟨t', n, random, hids, hn, fun s hs => (hlt s hs).trans (hafter next rfl)⟩
    · refine List.nodup_cons.mpr ⟨fun hmem => ?_, hmore.nodup⟩
      obtain ⟨ids, hids, heq⟩ := List.mem_map.mp hmem
      obtain ⟨t', n, random, hvalue, hn, hafter⟩ := hmore.values ids hids
      have hsame := uuidText_inj hn hle (hvalue.symm.trans heq)
      exact absurd (hafter next rfl) (by omega)

theorem remintedTable_eq {minted : List (JsString × JsString)} (hnodup : (minted.map Prod.fst).Nodup) :
    remintedTable minted = minted := by
  suffices ∀ front : Table JsString JsString, (front ++ minted).Nodup →
      minted.foldl (fun remintedIds ids => Table.set remintedIds ids.1 ids.2) front = front ++ minted from
    this [] hnodup
  clear hnodup
  induction minted with
  | nil => exact fun front _ => (List.append_nil _).symm
  | cons ids minted ih =>
    intro front hfront
    rw [← List.singleton_append, ← List.append_assoc] at hfront
    have hfresh : ids.1 ∉ front.keys := by
      rw [Table.Nodup, Table.keys_append, Table.keys_append, List.append_assoc, List.nodup_append] at hfront
      exact fun hmem => hfront.2.2 _ hmem _ List.mem_cons_self rfl
    rw [List.foldl_cons, Table.set_of_not_mem hfresh, ih _ hfront, List.append_assoc]
    rfl

/-! ## Ancestors -/

/-- The nearest retained record of a chain of discarded ones, from a record on. -/
inductive NearestRetained (entries : List LegacyV3Entry) : JsString → LegacyV3Entry → Prop
  | self {entry : LegacyV3Entry} (h : entry ∈ entries) (hretained : isRetainedEntry entry = true) :
    NearestRetained entries entry.id entry
  | parent {discarded entry : LegacyV3Entry} {parentId : JsString} (h : discarded ∈ entries)
    (hdiscarded : isRetainedEntry discarded = false) (hparent : discarded.parentId = some parentId)
    (hnearest : NearestRetained entries parentId entry) : NearestRetained entries discarded.id entry

theorem retainedEntries_map_fst (entries : List LegacyV3Entry) :
    (retainedEntries entries).map Prod.fst = entries.filter isRetainedEntry := by
  induction entries with
  | nil => rfl
  | cons entry entries ih =>
    cases hrecord : entry.record with
    | retained record => simpa [retainedEntries, isRetainedEntry, hrecord] using ih
    | discarded record => simpa [retainedEntries, isRetainedEntry, hrecord] using ih

/-- A resolver that was built from a file. -/
structure BuiltFrom (entries : List LegacyV3Entry) (resolver : RetainedIdResolver) : Prop where
  entriesById : resolver.entriesById = entries.map fun entry => (entry.id, entry)
  ids : (entries.map LegacyV3Entry.id).Nodup
  retained : resolver.remintedIds.keys = (entries.filter isRetainedEntry).map LegacyV3Entry.id
  reminted : (resolver.remintedIds.map Prod.snd).Nodup
  plain : ∀ ids ∈ resolver.remintedIds, 0 ∉ ids.2

namespace BuiltFrom

variable {entries : List LegacyV3Entry} {resolver : RetainedIdResolver}

theorem eq_of_id (h : BuiltFrom entries resolver) {entry entry' : LegacyV3Entry} (he : entry ∈ entries)
    (he' : entry' ∈ entries) (hid : entry.id = entry'.id) : entry = entry' :=
  List.inj_on_of_nodup_map h.ids he he' hid

theorem get_entry (h : BuiltFrom entries resolver) {id : JsString} {entry : LegacyV3Entry} :
    resolver.entriesById.get id = some entry ↔ entry ∈ entries ∧ entry.id = id := by
  have hnodup : resolver.entriesById.Nodup := by
    rw [Table.Nodup, Table.keys, h.entriesById, List.map_map]
    exact h.ids
  constructor
  · intro hget
    have hmem := Table.mem_of_get hget
    rw [h.entriesById] at hmem
    obtain ⟨entry', he', heq⟩ := List.mem_map.mp hmem
    cases heq
    exact ⟨he', rfl⟩
  · rintro ⟨he, rfl⟩
    refine Table.get_of_mem hnodup ?_
    rw [h.entriesById]
    exact List.mem_map.mpr ⟨entry, he, rfl⟩

theorem exists_reminted (h : BuiltFrom entries resolver) {entry : LegacyV3Entry} (he : entry ∈ entries) :
    (∃ id, resolver.remintedIds.get entry.id = some id) ↔ isRetainedEntry entry = true := by
  constructor
  · rintro ⟨id, hget⟩
    have hmem := Table.mem_keys_of_get hget
    rw [h.retained] at hmem
    obtain ⟨entry', he', hid⟩ := List.mem_map.mp hmem
    obtain ⟨he', hretained⟩ := List.mem_filter.mp he'
    rwa [h.eq_of_id he he' hid.symm]
  · intro hretained
    refine Table.exists_get_of_mem_keys ?_
    rw [h.retained]
    exact List.mem_map.mpr ⟨entry, List.mem_filter.mpr ⟨he, hretained⟩, rfl⟩

/-- Without the cache and the new ids: what a record resolves to is its nearest retained ancestor. -/
theorem resolves_iff (h : BuiltFrom entries resolver) {id newId : JsString} :
    Resolves resolver (some id) (some newId) ↔
      ∃ entry, NearestRetained entries id entry ∧ resolver.remintedIds.get entry.id = some newId := by
  constructor
  · suffices ∀ found target, Resolves resolver found target → ∀ id, found = some id → target = some newId →
        ∃ entry, NearestRetained entries id entry ∧ resolver.remintedIds.get entry.id = some newId from
      fun hresolves => this _ _ hresolves id rfl rfl
    intro found target hresolves
    induction hresolves with
    | root =>
      intro id hid
      cases hid
    | retained hget =>
      rintro id ⟨⟩ ⟨⟩
      have hmem := Table.mem_keys_of_get hget
      rw [h.retained] at hmem
      obtain ⟨entry, he, rfl⟩ := List.mem_map.mp hmem
      obtain ⟨he, hretained⟩ := List.mem_filter.mp he
      exact ⟨entry, .self he hretained, hget⟩
    | @discarded id' entry found hnone hentry hparent ih =>
      rintro id ⟨⟩ rfl
      obtain ⟨he, rfl⟩ := h.get_entry.mp hentry
      have hdiscarded : isRetainedEntry entry = false := by
        rw [← Bool.not_eq_true, ← h.exists_reminted he, hnone]
        simp
      cases hp : entry.parentId with
      | none =>
        rw [hp] at hparent
        cases hparent
      | some parentId =>
        obtain ⟨ancestor, hnearest, hget⟩ := ih parentId hp rfl
        exact ⟨ancestor, .parent he hdiscarded hp hnearest, hget⟩
  · rintro ⟨entry, hnearest, hget⟩
    induction hnearest with
    | self he hretained => exact .retained hget
    | @parent discarded entry parentId hd hdiscarded hparent _ ih =>
      refine .discarded ?_ (h.get_entry.mpr ⟨hd, rfl⟩) (hparent ▸ ih hget)
      rw [← Option.not_isSome_iff_eq_none, Option.isSome_iff_exists, h.exists_reminted hd, hdiscarded]
      exact Bool.false_ne_true

/-- The entry that an id was minted for. -/
theorem eq_of_reminted (h : BuiltFrom entries resolver) {entry entry' : LegacyV3Entry} (he : entry ∈ entries)
    (he' : entry' ∈ entries) {id : JsString} (hget : resolver.remintedIds.get entry.id = some id)
    (hget' : resolver.remintedIds.get entry'.id = some id) : entry = entry' := by
  have hpair := List.inj_on_of_nodup_map h.reminted (Table.mem_of_get hget) (Table.mem_of_get hget') rfl
  exact h.eq_of_id he he' (congrArg Prod.fst hpair)

end BuiltFrom

theorem NearestRetained.mem {entries : List LegacyV3Entry} {id : JsString} {entry : LegacyV3Entry}
    (h : NearestRetained entries id entry) : entry ∈ entries ∧ isRetainedEntry entry = true := by
  induction h with
  | self h hretained => exact ⟨h, hretained⟩
  | parent _ _ _ _ ih => exact ih

/-! ## Migration -/

/-- A record that counts as a label record of a retained entry: its target is that entry, or is discarded and has it as
its nearest retained ancestor. -/
def Labels (entries : List LegacyV3Entry) (entry record : LegacyV3Entry) (label : Option JsString) : Prop :=
  ∃ targetId, record.record = .discarded (.label targetId label) ∧ NearestRetained entries targetId entry

/-- What opening a file of format 3 makes of its records. -/
structure Imported (entries : List LegacyV3Entry) (storage : MigratedStorage) (resolver : RetainedIdResolver)
    (values : List (StoreAddress × Json)) (migrated : List Entry) : Prop where
  built : BuiltFrom entries resolver
  each : List.Forall₂ (fun x e => Migrated resolver x.1 e) (retainedEntries entries) migrated
  labels : ∃ labels, LabelValues resolver entries values labels
  memory : storage.memory = (migrated.map CommittedWrite.entry ++ setWrites (migrated.length + 1) values).foldl put empty

theorem imported_of_openLegacyV3 {E : ImportEnvironment} {header : LegacyV3SessionHeader}
    {resolvedParent : Option JsString} {entries : List LegacyV3Entry} {storage : MigratedStorage}
    (h : openLegacyV3 E header resolvedParent entries = .ok storage) :
    ∃ resolver values migrated, Imported entries storage resolver values migrated := by
  have hmap : ∀ {ε ε' α : Type} {f : ε → ε'} {x : Except ε α} {a : α}, x.mapError f = .ok a → x = .ok a := by
    intro ε ε' α f x a hx
    cases x with
    | error e => cases hx
    | ok b =>
      cases hx
      rfl
  unfold openLegacyV3 at h
  split at h
  · cases h
  obtain ⟨normalized, hnormalized, h⟩ := bind_eq_ok.mp h
  obtain ⟨memory, hmemory, h⟩ := bind_eq_ok.mp h
  cases h
  obtain ⟨entriesById, hinventory, hrest⟩ := bind_eq_ok.mp (hmap hnormalized)
  obtain ⟨minted, hremint, hrest⟩ := bind_eq_ok.mp hrest
  obtain ⟨⟨writes, resolvedIds⟩, hwrites, hrest⟩ := bind_eq_ok.mp hrest
  cases hrest
  obtain ⟨hentries, hnodup⟩ := inventory_eq_ok (show Table.Nodup [] from List.nodup_nil) hinventory
  rw [List.nil_append] at hentries
  have hminted := minted_of_remint E.sequence_le hremint
  rw [retainedEntries_map_fst] at hminted
  have hids : (entries.map LegacyV3Entry.id).Nodup := by
    rw [hentries, Table.Nodup, Table.keys, List.map_map] at hnodup
    exact hnodup
  have hkeys : (minted.map Prod.fst).Nodup := by
    rw [hminted.keys]
    exact hids.sublist (List.filter_sublist.map _)
  have hbuilt : BuiltFrom entries ⟨entriesById, remintedTable minted⟩ := by
    refine ⟨hentries, hids, ?_, ?_, ?_⟩
    · rw [remintedTable_eq hkeys]
      exact hminted.keys
    · rw [remintedTable_eq hkeys]
      exact hminted.nodup
    · rw [remintedTable_eq hkeys]
      intro ids hmem
      obtain ⟨t, n, random, hvalue, -⟩ := hminted.values ids hmem
      rw [hvalue]
      exact zero_not_mem_uuidText (uuidBytes_lt _ _ _)
  have hensures : Ensures (Cached ⟨entriesById, remintedTable minted⟩)
      (normalizeWrites E ⟨entriesById, remintedTable minted⟩ entries) fun writes => ∃ values migrated,
        writes = migrated.map CommittedWrite.entry ++ setWrites (migrated.length + 1) values ∧
          List.Forall₂ (fun x e => Migrated ⟨entriesById, remintedTable minted⟩ x.1 e) (retainedEntries entries) migrated ∧
          ∃ labels, LabelValues ⟨entriesById, remintedTable minted⟩ entries values labels := by
    refine (ensures_normalizeRetainedEntries 1 _).bind fun migrated hmigrated => ?_
    exact (ensures_legacyValues entries).bind fun values hvalues => .pure ⟨values, migrated, rfl, hmigrated, hvalues⟩
  obtain ⟨⟨values, migrated, rfl, hmigrated, hvalues⟩, -⟩ := hensures [] cached_nil _ _ hwrites
  exact ⟨_, values, migrated, hbuilt, hmigrated, hvalues, (replayCommitted_eq_ok (hmap hmemory)).2⟩

/-- After the migration of a file, the label of each retained record is the one of the last record that counts as a label
record of it, or none when that one clears it. -/
theorem openLegacyV3_labels {E : ImportEnvironment} {header : LegacyV3SessionHeader}
    {resolvedParent : Option JsString} {entries : List LegacyV3Entry} {storage : MigratedStorage}
    (h : openLegacyV3 E header resolvedParent entries = .ok storage) {i : ℕ} {entry : LegacyV3Entry}
    (he : (entries.filter isRetainedEntry)[i]? = some entry) :
    ∃ e label, storage.memory.entriesBySeq[i]? = some e ∧ getLabel storage.memory e.id = label.map .string ∧
      LastSays (Labels entries entry) entries none label := by
  obtain ⟨resolver, values, migrated, himported⟩ := imported_of_openLegacyV3 h
  obtain ⟨hbuilt, hmigrated, ⟨labels, hlabels⟩, hmemory⟩ := himported
  rw [← retainedEntries_map_fst, List.getElem?_map, Option.map_eq_some_iff] at he
  obtain ⟨x, hx, rfl⟩ := he
  have hlen := hmigrated.length_eq
  have hi := (List.getElem?_eq_some_iff.mp hx).1
  have hi' : i < migrated.length := hlen ▸ hi
  obtain ⟨e, he⟩ : ∃ e, migrated[i]? = some e := ⟨_, List.getElem?_eq_getElem hi'⟩
  have hid : Resolves resolver (some x.1.id) (some e.id) := by
    have hget := (List.forall₂_iff_get.mp hmigrated).2 i hi hi'
    rw [List.getElem?_eq_getElem hi, Option.some.injEq] at hx
    rw [List.getElem?_eq_getElem hi', Option.some.injEq] at he
    rw [List.get_eq_getElem, List.get_eq_getElem, hx, he] at hget
    exact hget.id
  have hmem : x.1 ∈ entries.filter isRetainedEntry := by
    rw [← retainedEntries_map_fst]
    exact List.mem_map_of_mem (List.mem_of_getElem? hx)
  obtain ⟨hxmem, hretained⟩ := List.mem_filter.mp hmem
  obtain ⟨newId, hget⟩ := (hbuilt.exists_reminted hxmem).mpr hretained
  obtain rfl : newId = e.id := Option.some.inj ((Resolves.retained hget).unique hid)
  have hplain : 0 ∉ e.id := hbuilt.plain _ (Table.mem_of_get hget)
  refine ⟨e, labels.get e.id, ?_, ?_, (hlabels.last e.id).congr fun record label => ?_⟩
  · rw [hmemory, entriesBySeq_foldl_put]
    exact he
  · rw [hmemory]
    exact getLabel_foldl_put hlabels migrated _ hplain
  · refine exists_congr fun targetId => and_congr_right fun _ => ?_
    rw [hbuilt.resolves_iff]
    constructor
    · rintro ⟨ancestor, hnearest, hancestor⟩
      rw [hbuilt.eq_of_reminted hxmem hnearest.mem.1 hget hancestor]
      exact hnearest
    · exact fun hnearest => ⟨x.1, hnearest, hget⟩

def sampleEnvironment : ImportEnvironment where
  dateParse _ := some 1000
  sequence := none
  sequence_le := by simp
  random _ _ := 0

def sampleLegacyHeader : LegacyV3SessionHeader := ⟨name "s", name "1970-01-01T00:00:01Z", name "/", none⟩

def sampleMessage : LegacyV3Entry :=
  ⟨name "message", none, name "1970-01-01T00:00:01Z",
    .retained (.message (.object [(name "role", text "user"), (name "content", text "hi"), (name "timestamp", count 1000)]))⟩

/-- A message, a discarded record below it, and a label of that record. -/
def discardedTarget : List LegacyV3Entry :=
  [sampleMessage, ⟨name "info", some (name "message"), name "1970-01-01T00:00:01Z", .discarded (.sessionInfo none)⟩,
    ⟨name "label", some (name "info"), name "1970-01-01T00:00:01Z",
      .discarded (.label (name "info") (some (name "mark")))⟩]

theorem openLegacyV3_labels_discardedTarget : ∃ storage e label,
    openLegacyV3 sampleEnvironment sampleLegacyHeader none discardedTarget = .ok storage ∧
      storage.memory.entriesBySeq[0]? = some e ∧ getLabel storage.memory e.id = label.map .string ∧
      LastSays (Labels discardedTarget sampleMessage) discardedTarget none label := by
  have hok : (openLegacyV3 sampleEnvironment sampleLegacyHeader none discardedTarget).isOk = true := by decide +kernel
  cases hopen : openLegacyV3 sampleEnvironment sampleLegacyHeader none discardedTarget with
  | error e =>
    rw [hopen] at hok
    cases hok
  | ok storage =>
    have hfirst : (discardedTarget.filter isRetainedEntry)[0]? = some sampleMessage := rfl
    obtain ⟨e, label, he, hlabel, hlast⟩ := openLegacyV3_labels hopen hfirst
    exact ⟨storage, e, label, rfl, he, hlabel, hlast⟩

/-- The text of a label that has one. -/
def labelText : Json → Option JsString
  | .string label => some label
  | _ => none

theorem eq_of_labelText {value : Json} {label : JsString} (h : labelText value = some label) : value = .string label := by
  cases value with
  | string label' =>
    cases h
    rfl
  | _ => cases h

/-- No record labels the message itself, and it is labelled. -/
theorem discarded_target_labels_ancestor :
    (∀ record ∈ discardedTarget, ∀ label, record.record ≠ .discarded (.label sampleMessage.id label)) ∧
      ∃ storage e, openLegacyV3 sampleEnvironment sampleLegacyHeader none discardedTarget = .ok storage ∧
        storage.memory.entriesBySeq[0]? = some e ∧ getLabel storage.memory e.id = some (.string (name "mark")) := by
  refine ⟨?_, ?_⟩
  · simp only [discardedTarget, List.forall_mem_cons]
    refine ⟨fun label => by simp [sampleMessage], fun label => by simp, fun label heq => ?_, by simp⟩
    cases heq
  · have hrun : (openLegacyV3 sampleEnvironment sampleLegacyHeader none discardedTarget).toOption.bind (fun storage =>
        storage.memory.entriesBySeq[0]?.bind fun e =>
          (getLabel storage.memory e.id).bind labelText) = some (name "mark") := by decide +kernel
    obtain ⟨storage, hopen, hrun⟩ := Option.bind_eq_some_iff.mp hrun
    obtain ⟨e, he, hrun⟩ := Option.bind_eq_some_iff.mp hrun
    obtain ⟨label, hlabel, htext⟩ := Option.bind_eq_some_iff.mp hrun
    refine ⟨storage, e, ?_, he, ?_⟩
    · cases hresult : openLegacyV3 sampleEnvironment sampleLegacyHeader none discardedTarget with
      | error e =>
        rw [hresult] at hopen
        cases hopen
      | ok storage' =>
        rw [hresult] at hopen
        cases hopen
        rfl
    · rw [hlabel, eq_of_labelText htext]

end Phi.Session.Jsonl
