import Phi.Coding.SessionTree
import Phi.Session.Jsonl.LegacyLabels

/-!
# The configuration of a session of format 3

The coding agent reads the model and the thinking level of a session off the path to its last record, with
`buildSessionContext`. The migration to format 4 takes them from the nearest changes on this path instead
(`selectedConfiguration`), and does not look at the assistant messages. So a configuration that it writes has the
thinking level of the context, and its model unless an assistant message behind the last change names another one
(`migrated_configuration`).
-/

namespace Phi.Session.Jsonl

open Coding (SessionEntry EntryBody ModelRef IsTree)

/-! ## Records as the coding agent reads them -/

/-- It does nothing with `active_tools_change`, as with a custom entry. A message is an object. -/
def entryBody : LegacyV3Record → EntryBody
  | .retained (.message (.object message)) => .message message
  | .retained (.message _) => .message []
  | .retained (.custom customType data) => .custom customType data
  | .retained (.customMessage customType content details display) =>
    .customMessage customType (some content) display details
  | .retained (.branchSummary fromId summary details usage fromHook) =>
    .branchSummary ⟨fromId, summary, details, usage.map usageJson, fromHook⟩
  | .retained (.compaction summary firstKeptEntryId tokensBefore details usage fromHook) =>
    .compaction ⟨summary, firstKeptEntryId, tokensBefore, details, usage.map usageJson, fromHook⟩
  | .discarded (.modelChange provider modelId) => .modelChange provider modelId
  | .discarded (.thinkingLevelChange thinkingLevel) => .thinkingLevelChange thinkingLevel
  | .discarded (.activeToolsChange _) => .custom (name "active_tools_change") none
  | .discarded (.sessionInfo sessionName) => .sessionInfo sessionName
  | .discarded (.label targetId label) => .label targetId label

def sessionEntry (entry : LegacyV3Entry) : SessionEntry :=
  ⟨entry.id, entry.parentId, entry.timestamp, entryBody entry.record⟩

/-! ## What a record says -/

/-- The model that a model change sets. -/
def changedModel (entry : SessionEntry) : Option (JsString × JsString) :=
  match entry.body with
  | .modelChange provider modelId => some (provider, modelId)
  | _ => none

/-- The model that an assistant message names. -/
def assistantModel (entry : SessionEntry) : Option ModelRef :=
  match entry.body with
  | .message message =>
    if Coding.roleOf message = some .assistant then
      some ⟨message.get (name "provider"), message.get (name "model")⟩
    else none
  | _ => none

def changedThinkingLevel (entry : SessionEntry) : Option JsString :=
  match entry.body with
  | .thinkingLevelChange thinkingLevel => some thinkingLevel
  | _ => none

def modelRef (model : JsString × JsString) : ModelRef := ⟨some (.string model.1), some (.string model.2)⟩

/-! ## The context -/

/-- From the leaf up, the first record that says something decides. -/
theorem getSessionContextSettings_reverse (up : List SessionEntry) :
    Coding.getSessionContextSettings up.reverse =
      ((up.findSome? changedThinkingLevel).getD (name "off"),
        up.findSome? fun entry => ((changedModel entry).map modelRef).or (assistantModel entry)) := by
  induction up with
  | nil => rfl
  | cons entry up ih =>
    obtain ⟨id, parentId, timestamp, body⟩ := entry
    rw [Coding.getSessionContextSettings] at ih ⊢
    rw [List.reverse_cons, List.foldl_append, ih, List.foldl_cons, List.foldl_nil, List.findSome?_cons,
      List.findSome?_cons]
    cases body with
    | message message =>
      dsimp only [changedThinkingLevel, changedModel, assistantModel]
      split <;> rfl
    | _ => rfl

/-! ## The migration -/

theorem Selection.visit_of_complete {s : Selection} (h : s.complete = true) (entry : LegacyV3Entry) :
    s.visit entry = s := by
  simp only [Selection.complete, Bool.and_eq_true] at h
  unfold Selection.visit
  split <;> simp [h]

theorem Selection.foldl_of_complete {s : Selection} (h : s.complete = true) (up : List LegacyV3Entry) :
    up.foldl Selection.visit s = s := by
  induction up with
  | nil => rfl
  | cons entry up ih => rw [List.foldl_cons, visit_of_complete h, ih]

def supportedModel (model : JsString × JsString) : Option (JsString × JsString) :=
  if model.1 ≠ [] ∧ model.2 ≠ [] then some model else none

def supportedThinkingLevel (thinkingLevel : JsString) : Option JsString :=
  if thinkingLevel ∈ thinkingLevels then some thinkingLevel else none

theorem Selection.visit_model (s : Selection) (entry : LegacyV3Entry) :
    (s.visit entry).model = s.model.or ((changedModel (sessionEntry entry)).map supportedModel) := by
  obtain ⟨id, parentId, timestamp, record⟩ := entry
  unfold Selection.visit
  cases record with
  | retained record =>
    cases record with
    | message message => cases message <;> simp [sessionEntry, entryBody, changedModel]
    | _ => simp [sessionEntry, entryBody, changedModel]
  | discarded record =>
    cases record with
    | modelChange provider modelId =>
      dsimp only [sessionEntry, entryBody, changedModel]
      cases hmodel : s.model <;> simp [supportedModel, hmodel]
    | thinkingLevelChange thinkingLevel =>
      dsimp only [sessionEntry, entryBody, changedModel]
      split <;> simp
    | activeToolsChange names =>
      dsimp only [sessionEntry, entryBody, changedModel]
      split <;> simp
    | _ => simp [sessionEntry, entryBody, changedModel]

theorem Selection.visit_thinkingLevel (s : Selection) (entry : LegacyV3Entry) :
    (s.visit entry).thinkingLevel =
      s.thinkingLevel.or ((changedThinkingLevel (sessionEntry entry)).map supportedThinkingLevel) := by
  obtain ⟨id, parentId, timestamp, record⟩ := entry
  unfold Selection.visit
  cases record with
  | retained record =>
    cases record with
    | message message => cases message <;> simp [sessionEntry, entryBody, changedThinkingLevel]
    | _ => simp [sessionEntry, entryBody, changedThinkingLevel]
  | discarded record =>
    cases record with
    | modelChange provider modelId =>
      dsimp only [sessionEntry, entryBody, changedThinkingLevel]
      split <;> simp
    | thinkingLevelChange thinkingLevel =>
      dsimp only [sessionEntry, entryBody, changedThinkingLevel]
      cases hlevel : s.thinkingLevel <;> simp [supportedThinkingLevel, hlevel]
    | activeToolsChange names =>
      dsimp only [sessionEntry, entryBody, changedThinkingLevel]
      split <;> simp
    | _ => simp [sessionEntry, entryBody, changedThinkingLevel]

/-- From the leaf up, the first change of a kind decides. -/
theorem Selection.foldl_model (s : Selection) (up : List LegacyV3Entry) :
    (up.foldl Selection.visit s).model =
      s.model.or (((up.map sessionEntry).findSome? changedModel).map supportedModel) := by
  induction up generalizing s with
  | nil => simp
  | cons entry up ih =>
    rw [List.foldl_cons, ih, visit_model, List.map_cons, List.findSome?_cons]
    cases s.model <;> cases changedModel (sessionEntry entry) <;> rfl

theorem Selection.foldl_thinkingLevel (s : Selection) (up : List LegacyV3Entry) :
    (up.foldl Selection.visit s).thinkingLevel =
      s.thinkingLevel.or (((up.map sessionEntry).findSome? changedThinkingLevel).map supportedThinkingLevel) := by
  induction up generalizing s with
  | nil => simp
  | cons entry up ih =>
    rw [List.foldl_cons, ih, visit_thinkingLevel, List.map_cons, List.findSome?_cons]
    cases s.thinkingLevel <;> cases changedThinkingLevel (sessionEntry entry) <;> rfl

/-! ## The path -/

/-- The records from one up to the root, or to one whose parent is not there. -/
inductive Climb (nodes : Table JsString LegacyV3Entry) : Option JsString → List LegacyV3Entry → Prop
  | root : Climb nodes none []
  | missing {id : JsString} (h : nodes.get id = none) : Climb nodes (some id) []
  | step {id : JsString} {entry : LegacyV3Entry} {up : List LegacyV3Entry} (h : nodes.get id = some entry)
    (hup : Climb nodes entry.parentId up) : Climb nodes (some id) (entry :: up)

/-- What the migration finds on a path. -/
def Selection.configuration (s : Selection) : Option LaneConfiguration := do
  let (provider, modelId) ← s.model.join
  let thinkingLevel ← s.thinkingLevel.join
  return ⟨provider, modelId, thinkingLevel, s.activeToolNames.getD []⟩

/-- That it stops when it has seen all makes no difference. -/
theorem selectedConfiguration_eq {nodes : Table JsString LegacyV3Entry} {selectedId : Option JsString}
    {up : List LegacyV3Entry} (hup : Climb nodes selectedId up) {configuration : Option LaneConfiguration}
    (h : selectedConfiguration nodes selectedId = .ok configuration) :
    configuration = (up.foldl Selection.visit {}).configuration := by
  let I (s : Selection) (id : Option JsString) : Prop :=
    ∃ rest, Climb nodes id rest ∧ rest.foldl Selection.visit s = up.foldl Selection.visit {}
  let P : Selection ⊕ Selection → Prop
    | .inl s => s = up.foldl Selection.visit {}
    | .inr s => s = up.foldl Selection.visit {}
  have hwalk : ∀ r, walk nodes LegacyV3Entry.parentId (fun s _ => if s.complete then some s else none)
      (fun s _ entry => .inl (s.visit entry)) [] {} selectedId = .ok r → P r := by
    intro r hr
    refine walk_rule (I := I) (P := P) ?_ ?_ ?_ ?_ ⟨up, hup, rfl⟩ hr
    · rintro s ⟨rest, hrest, heq⟩
      cases hrest
      exact heq
    · rintro s id s' ⟨rest, -, heq⟩ hexit
      split at hexit
      · next hcomplete =>
        cases hexit
        exact (Selection.foldl_of_complete hcomplete rest).symm.trans heq
      · cases hexit
    · rintro s id entry s' - - hvisit
      cases hvisit
    · rintro s id entry s' ⟨rest, hrest, heq⟩ - hentry hvisit
      cases hvisit
      cases hrest with
      | missing hnone => exact absurd (hnone.symm.trans hentry) (by simp)
      | step hentry' hrest =>
        obtain rfl := Option.some.inj (hentry'.symm.trans hentry)
        exact ⟨_, hrest, heq⟩
  unfold selectedConfiguration at h
  dsimp only at h
  split at h
  · next s hs =>
    cases h
    rw [← (hwalk _ hs : s = _)]
    rfl
  · next s hs =>
    cases h
    rw [← (hwalk _ hs : s = _)]
    rfl
  · cases h
  · cases h

/-- The records of a file by their ids. -/
def recordTable (entries : List LegacyV3Entry) : Table JsString LegacyV3Entry := entries.map fun entry => (entry.id, entry)

theorem ids_sessionEntry (entries : List LegacyV3Entry) :
    Coding.ids (entries.map sessionEntry) = entries.map LegacyV3Entry.id := by
  rw [Coding.ids, List.map_map]
  rfl

theorem get_recordTable {entries : List LegacyV3Entry} (hids : (entries.map LegacyV3Entry.id).Nodup) {id : JsString}
    {entry : LegacyV3Entry} : (recordTable entries).get id = some entry ↔ entry ∈ entries ∧ entry.id = id := by
  have hkeys : (recordTable entries).keys = entries.map LegacyV3Entry.id := by
    rw [Table.keys, recordTable, List.map_map]
    rfl
  constructor
  · intro hget
    obtain ⟨entry', hentry', heq⟩ := List.mem_map.mp (Table.mem_of_get hget)
    cases heq
    exact ⟨hentry', rfl⟩
  · rintro ⟨hentry, rfl⟩
    refine Table.get_of_mem ?_ (List.mem_map.mpr ⟨entry, hentry, rfl⟩)
    rw [Table.Nodup, hkeys]
    exact hids

section

variable {entries : List LegacyV3Entry}

/-- A parent that the coding agent does not find ends the climb as well. -/
theorem climb_of_no_parent (htree : IsTree (entries.map sessionEntry)) {parentId : Option JsString}
    (h : (Coding.truthy parentId).bind (Coding.indexOfEntries (entries.map sessionEntry)).get = none) :
    Climb (recordTable entries) parentId [] := by
  cases parentId with
  | none => exact .root
  | some id =>
    refine .missing ?_
    by_contra hne
    obtain ⟨entry, hentry⟩ := Option.ne_none_iff_exists'.mp hne
    obtain ⟨hmem, rfl⟩ := (get_recordTable (ids_sessionEntry entries ▸ htree.nodup)).mp hentry
    have hmem' := List.mem_map_of_mem (f := sessionEntry) hmem
    have htruthy : Coding.truthy (some entry.id) = some entry.id := by
      rw [Coding.truthy, Option.filter_some_eq_some]
      exact decide_eq_true (htree.nonempty _ hmem')
    have hget := (Coding.get_indexOfEntries htree.nodup).mpr ⟨hmem', rfl⟩
    rw [htruthy, Option.bind_some] at h
    exact absurd (h.symm.trans hget) (by simp)

/-- On a tree the coding agent climbs as the migration does. -/
theorem exists_climb (htree : IsTree (entries.map sessionEntry)) (n : ℕ) {before after : List SessionEntry}
    {entry : LegacyV3Entry} (hmem : entry ∈ entries)
    (heq : entries.map sessionEntry = before ++ sessionEntry entry :: after) (hn : before.length < n) :
    ∃ up, Climb (recordTable entries) (some entry.id) up ∧
      Coding.walk (Coding.indexOfEntries (entries.map sessionEntry)) n (some (sessionEntry entry)) =
        up.map sessionEntry := by
  have hids := ids_sessionEntry entries ▸ htree.nodup
  induction n generalizing before after entry with
  | zero => exact absurd hn (Nat.not_lt_zero _)
  | succ n ih =>
    have hentry := (get_recordTable hids).mpr ⟨hmem, rfl⟩
    rw [Coding.walk]
    cases hparent : (Coding.truthy (sessionEntry entry).parentId).bind
        (Coding.indexOfEntries (entries.map sessionEntry)).get with
    | none =>
      refine ⟨[entry], .step hentry (climb_of_no_parent htree hparent), ?_⟩
      have hnil : Coding.walk (Coding.indexOfEntries (entries.map sessionEntry)) n none = [] := by cases n <;> rfl
      rw [hnil]
      rfl
    | some parent =>
      obtain ⟨front, back, rfl⟩ := List.append_of_mem (htree.parent_mem heq hparent)
      obtain ⟨id, hid, hget⟩ := Option.bind_eq_some_iff.mp hparent
      obtain ⟨hmemParent, rfl⟩ := (Coding.get_indexOfEntries htree.nodup).mp hget
      obtain ⟨record, hrecord, rfl⟩ := List.mem_map.mp hmemParent
      rw [List.length_append, List.length_cons] at hn
      obtain ⟨up, hup, hwalk⟩ := ih hrecord (heq.trans (List.append_assoc _ _ _)) (by omega)
      have hparentId : entry.parentId = some record.id := (Option.filter_eq_some_iff.mp hid).1
      refine ⟨entry :: up, .step hentry ?_, ?_⟩
      · rw [hparentId]
        exact hup
      · rw [hwalk]
        rfl

/-- The path to the last record. -/
theorem exists_path (htree : IsTree (entries.map sessionEntry)) {last : LegacyV3Entry}
    (hlast : entries.getLast? = some last) :
    ∃ up, Climb (recordTable entries) (some last.id) up ∧
      Coding.buildSessionPath (entries.map sessionEntry) none none = (up.map sessionEntry).reverse := by
  obtain ⟨front, rfl⟩ := List.getLast?_eq_some_iff.mp hlast
  have hmap : (front ++ [last]).map sessionEntry = front.map sessionEntry ++ sessionEntry last :: [] := by simp
  obtain ⟨up, hup, hwalk⟩ := exists_climb htree (front ++ [last]).length List.mem_concat_self hmap (by simp)
  refine ⟨up, hup, ?_⟩
  have hlength : (Coding.indexOfEntries ((front ++ [last]).map sessionEntry)).length = (front ++ [last]).length := by
    rw [Coding.indexOfEntries, List.length_map, List.length_map]
  have hleaf : ((front ++ [last]).map sessionEntry).getLast? = some (sessionEntry last) := by simp
  rw [Coding.buildSessionPath, Option.getD_none, Coding.buildEntryIndex_eq htree.nodup, hlength, hleaf,
    if_neg (by simp)]
  exact congrArg List.reverse hwalk

end

/-! ## Both -/

/-- The configuration that is written is the one that the migration selects. -/
theorem ensures_laneConfig {resolver : RetainedIdResolver} (entries : List LegacyV3Entry) :
    Ensures (fun _ => True) (legacyValues resolver entries) fun values =>
      ∀ value, (laneConfig (name "main"), value) ∈ values ↔ ∃ c, value = c.json ∧
        selectedConfiguration resolver.entriesById (entries.getLast?.map LegacyV3Entry.id) = .ok (some c) := by
  refine Ensures.bind (P := fun _ => True) (fun _ _ _ _ _ => ⟨trivial, trivial⟩) fun labels _ => ?_
  refine Ensures.bind (P := fun _ => True) (fun _ _ _ _ _ => ⟨trivial, trivial⟩) fun tip _ => ?_
  refine (Ensures.lift fun configuration hconfiguration => hconfiguration).bind fun configuration hconfiguration => ?_
  refine .pure fun value => ?_
  have hne : ∀ a : StoreAddress, a.namespace ≠ (laneConfig []).namespace → laneConfig (name "main") ≠ a := by
    rintro a hne rfl
    exact hne rfl
  have hname := hne sessionName (by decide)
  have hlabel : ∀ id, laneConfig (name "main") ≠ entryLabel id := fun id =>
    hne (entryLabel id) (show (entryLabel []).namespace ≠ (laneConfig []).namespace by decide)
  have htip := hne (branchTip (name "main")) (by decide)
  have hstate := hne (laneState (name "main")) (by decide)
  simp only [List.mem_append, List.mem_map, List.mem_flatMap, List.mem_cons, List.not_mem_nil, or_false,
    Prod.mk.injEq]
  constructor
  · rintro (((⟨latest, -, heq, -⟩ | ⟨label, -, heq, -⟩) | ⟨heq, -⟩) | ⟨c, hc, ⟨-, rfl⟩ | ⟨heq, -⟩⟩)
    · exact absurd heq.symm hname
    · exact absurd heq.symm (hlabel label.1)
    · exact absurd heq htip
    · rw [Option.mem_toList] at hc
      exact ⟨c, rfl, hc ▸ hconfiguration⟩
    · exact absurd heq hstate
  · rintro ⟨c, rfl, hc⟩
    obtain rfl : configuration = some c := Except.ok.inj (hconfiguration.symm.trans hc)
    exact .inr ⟨c, by simp, .inl ⟨trivial, rfl⟩⟩

theorem laneConfig_of_normalize {E : ImportEnvironment} {entries : List LegacyV3Entry}
    {normalized : NormalizedLegacyV3Records} (h : normalizeLegacyV3Records E entries = .ok normalized) (value : Json) :
    (∃ seq, .setValue seq (laneConfig (name "main")) value ∈ normalized.writes) ↔ ∃ c, value = c.json ∧
      selectedConfiguration (recordTable entries) (entries.getLast?.map LegacyV3Entry.id) = .ok (some c) := by
  obtain ⟨entriesById, hinventory, hrest⟩ := bind_eq_ok.mp h
  obtain ⟨minted, -, hrest⟩ := bind_eq_ok.mp hrest
  obtain ⟨⟨writes, resolvedIds⟩, hwrites, hrest⟩ := bind_eq_ok.mp hrest
  cases hrest
  obtain ⟨hentries, -⟩ := inventory_eq_ok (show Table.Nodup [] from List.nodup_nil) hinventory
  rw [List.nil_append] at hentries
  subst hentries
  have hensures : Ensures (fun _ => True)
      (normalizeWrites E ⟨recordTable entries, remintedTable minted⟩ entries) fun writes =>
        ∃ (values : List (StoreAddress × Json)) (migrated : List Entry),
          writes = migrated.map CommittedWrite.entry ++ setWrites (migrated.length + 1) values ∧
          ∀ value, (laneConfig (name "main"), value) ∈ values ↔ ∃ c, value = c.json ∧
            selectedConfiguration (recordTable entries) (entries.getLast?.map LegacyV3Entry.id) = .ok (some c) := by
    refine Ensures.bind (P := fun _ => True) (fun _ _ _ _ _ => ⟨trivial, trivial⟩) fun migrated _ => ?_
    exact (ensures_laneConfig entries).bind fun values hvalues => .pure ⟨values, migrated, rfl, hvalues⟩
  obtain ⟨⟨values, migrated, rfl, hvalues⟩, -⟩ := hensures [] trivial _ _ hwrites
  rw [← hvalues value]
  constructor
  · rintro ⟨seq, hvalue⟩
    rcases List.mem_append.mp hvalue with hmem | hmem
    · obtain ⟨entry, -, heq⟩ := List.mem_map.mp hmem
      cases heq
    · obtain ⟨seq', x, hx, heq⟩ := mem_setWrites hmem
      obtain ⟨-, haddress, rfl⟩ := CommittedWrite.setValue.inj heq
      rw [haddress]
      exact hx
  · intro hmem
    obtain ⟨seq, hseq⟩ := exists_mem_setWrites hmem
    exact ⟨seq, List.mem_append_right _ hseq⟩

/-- What a configuration says of the path it was found on. -/
theorem Selection.configuration_eq_some {up : List LegacyV3Entry} {c : LaneConfiguration}
    (h : (up.foldl Selection.visit {}).configuration = some c) :
    (up.map sessionEntry).findSome? changedModel = some (c.provider, c.modelId) ∧
      (up.map sessionEntry).findSome? changedThinkingLevel = some c.thinkingLevel := by
  obtain ⟨⟨provider, modelId⟩, hmodel, h⟩ := Option.bind_eq_some_iff.mp h
  obtain ⟨thinkingLevel, hlevel, h⟩ := Option.bind_eq_some_iff.mp h
  cases h
  rw [foldl_model, Option.none_or, Option.join_eq_some_iff, Option.map_eq_some_iff] at hmodel
  rw [foldl_thinkingLevel, Option.none_or, Option.join_eq_some_iff, Option.map_eq_some_iff] at hlevel
  obtain ⟨model, hfound, hsupported⟩ := hmodel
  obtain ⟨level, hfound', hsupported'⟩ := hlevel
  unfold supportedModel at hsupported
  unfold supportedThinkingLevel at hsupported'
  split at hsupported
  · cases hsupported
    split at hsupported'
    · cases hsupported'
      exact ⟨hfound, hfound'⟩
    · cases hsupported'
  · cases hsupported

/-- The model of a path, where a model change is the last one. -/
theorem model_of_split {before after : List SessionEntry} {change : SessionEntry} {model : JsString × JsString}
    (hchange : changedModel change = some model) (hafter : ∀ entry ∈ after, changedModel entry = none) :
    (Coding.getSessionContextSettings (before ++ change :: after)).2 =
      ((after.filterMap assistantModel).getLast?).or (some (modelRef model)) := by
  have hreverse : before ++ change :: after = (after.reverse ++ change :: before.reverse).reverse := by simp
  have hnone : (after.reverse.findSome? fun entry => ((changedModel entry).map modelRef).or (assistantModel entry)) =
      (after.filterMap assistantModel).getLast? := by
    rw [← List.head?_reverse, ← List.filterMap_reverse, ← List.head?_filterMap]
    refine congrArg List.head? (List.filterMap_congr fun entry hentry => ?_)
    rw [hafter entry (List.mem_reverse.mp hentry)]
    rfl
  rw [hreverse, getSessionContextSettings_reverse]
  dsimp only
  rw [List.findSome?_append, hnone, List.findSome?_cons, hchange]
  rfl

/-- A configuration that is written has the thinking level of the context at the last record and the model of the nearest
model change. This is the model of the context exactly when the last assistant message behind the change, if there is
one, names the same model. -/
theorem migrated_configuration (E : ImportEnvironment) (getTime : JsString → ℚ) (entries : List LegacyV3Entry)
    (normalized : NormalizedLegacyV3Records) (htree : IsTree (entries.map sessionEntry))
    (h : normalizeLegacyV3Records E entries = .ok normalized) (seq : ℕ) (value : Json)
    (hvalue : .setValue seq (laneConfig (name "main")) value ∈ normalized.writes) :
    ∃ c : LaneConfiguration, value = c.json ∧
      (Coding.buildSessionContext getTime (entries.map sessionEntry) none none).thinkingLevel = c.thinkingLevel ∧
      ∃ before change after,
        Coding.buildSessionPath (entries.map sessionEntry) none none = before ++ change :: after ∧
        changedModel change = some (c.provider, c.modelId) ∧ (∀ entry ∈ after, changedModel entry = none) ∧
        ((Coding.buildSessionContext getTime (entries.map sessionEntry) none none).model =
            some (modelRef (c.provider, c.modelId)) ↔
          ∀ model ∈ (after.filterMap assistantModel).getLast?, model = modelRef (c.provider, c.modelId)) := by
  obtain ⟨c, rfl, hselected⟩ := (laneConfig_of_normalize h value).mp ⟨seq, hvalue⟩
  cases hlast : entries.getLast? with
  | none =>
    rw [hlast] at hselected
    cases (selectedConfiguration_eq .root hselected : some c = none)
  | some last =>
    rw [hlast, Option.map_some] at hselected
    obtain ⟨up, hup, hpath⟩ := exists_path htree hlast
    obtain ⟨hmodel, hlevel⟩ := Selection.configuration_eq_some (selectedConfiguration_eq hup hselected).symm
    obtain ⟨later, change, earlier, hsplit, hchange, hlater⟩ := List.findSome?_eq_some_iff.mp hmodel
    have hafter : ∀ entry ∈ later.reverse, changedModel entry = none := fun entry hentry =>
      hlater entry (List.mem_reverse.mp hentry)
    have hbranch : Coding.buildSessionPath (entries.map sessionEntry) none none =
        earlier.reverse ++ change :: later.reverse := by
      rw [hpath, hsplit]
      simp
    refine ⟨c, rfl, ?_, earlier.reverse, change, later.reverse, hbranch, hchange, hafter, ?_⟩
    · have hsettings := getSessionContextSettings_reverse (up.map sessionEntry)
      rw [← hpath, hlevel] at hsettings
      exact congrArg Prod.fst hsettings
    · have hcontext : (Coding.buildSessionContext getTime (entries.map sessionEntry) none none).model =
          (Coding.getSessionContextSettings (Coding.buildSessionPath (entries.map sessionEntry) none none)).2 := rfl
      rw [hcontext, hbranch, model_of_split hchange hafter]
      cases (later.reverse.filterMap assistantModel).getLast? with
      | none => simp
      | some model => simp

/-- Changes of model and thinking level, and the answer of another model. -/
def otherModelAnswers : List LegacyV3Entry :=
  [⟨name "model", none, name "1970-01-01T00:00:01Z", .discarded (.modelChange (name "a") (name "x"))⟩,
    ⟨name "level", some (name "model"), name "1970-01-01T00:00:01Z", .discarded (.thinkingLevelChange (name "high"))⟩,
    ⟨name "answer", some (name "level"), name "1970-01-01T00:00:01Z",
      .retained (.message (.object [(name "role", text "assistant"), (name "provider", text "b"),
        (name "model", text "y")]))⟩]

theorem otherModelAnswers_isTree : IsTree (otherModelAnswers.map sessionEntry) where
  nodup := by decide
  nonempty := by decide
  ordered := by decide
  irrefl := by decide

theorem otherModelAnswers_normalized : ∃ normalized seq,
    normalizeLegacyV3Records sampleEnvironment otherModelAnswers = .ok normalized ∧
      .setValue seq (laneConfig (name "main")) (LaneConfiguration.json ⟨name "a", name "x", name "high", []⟩) ∈
        normalized.writes := by
  have hok : (normalizeLegacyV3Records sampleEnvironment otherModelAnswers).isOk = true := by decide +kernel
  have hrun : (selectedConfiguration (recordTable otherModelAnswers) (some (name "answer"))).toOption.join.map
      (fun c => (c.provider, c.modelId, c.thinkingLevel, c.activeToolNames)) =
        some (name "a", name "x", name "high", []) := by decide +kernel
  cases hnormalized : normalizeLegacyV3Records sampleEnvironment otherModelAnswers with
  | error e =>
    rw [hnormalized] at hok
    cases hok
  | ok normalized =>
    cases hselected : selectedConfiguration (recordTable otherModelAnswers) (some (name "answer")) with
    | error e =>
      rw [hselected] at hrun
      cases hrun
    | ok configuration =>
      rw [hselected] at hrun
      obtain ⟨⟨provider, modelId, thinkingLevel, activeToolNames⟩, rfl, hc⟩ := Option.map_eq_some_iff.mp hrun
      simp only [Prod.mk.injEq] at hc
      obtain ⟨rfl, rfl, rfl, rfl⟩ := hc
      obtain ⟨seq, hseq⟩ := (laneConfig_of_normalize hnormalized _).mpr ⟨_, rfl, hselected⟩
      exact ⟨normalized, seq, rfl, hseq⟩

theorem migrated_configuration_otherModel : ∃ normalized seq value,
    normalizeLegacyV3Records sampleEnvironment otherModelAnswers = .ok normalized ∧
      .setValue seq (laneConfig (name "main")) value ∈ normalized.writes ∧ ∃ c : LaneConfiguration, value = c.json ∧
        (Coding.buildSessionContext (fun _ => 0) (otherModelAnswers.map sessionEntry) none none).thinkingLevel =
          c.thinkingLevel := by
  obtain ⟨normalized, seq, hnormalized, hseq⟩ := otherModelAnswers_normalized
  obtain ⟨c, hc, hlevel, -⟩ := migrated_configuration sampleEnvironment (fun _ => 0) otherModelAnswers normalized
    otherModelAnswers_isTree hnormalized seq _ hseq
  exact ⟨normalized, seq, _, hnormalized, hseq, c, hc, hlevel⟩

/-- The context has the model that answered, the configuration the one that was chosen. -/
theorem migrated_configuration_forgets_answer : ¬ ∀ (E : ImportEnvironment) (getTime : JsString → ℚ)
    (entries : List LegacyV3Entry) (normalized : NormalizedLegacyV3Records), IsTree (entries.map sessionEntry) →
    normalizeLegacyV3Records E entries = .ok normalized → ∀ (seq : ℕ) (value : Json),
    .setValue seq (laneConfig (name "main")) value ∈ normalized.writes → ∃ c : LaneConfiguration, value = c.json ∧
      (Coding.buildSessionContext getTime (entries.map sessionEntry) none none).thinkingLevel = c.thinkingLevel ∧
      (Coding.buildSessionContext getTime (entries.map sessionEntry) none none).model =
        some (modelRef (c.provider, c.modelId)) := by
  intro hall
  obtain ⟨normalized, seq, hnormalized, hseq⟩ := otherModelAnswers_normalized
  obtain ⟨c, hc, -, hmodel⟩ := hall sampleEnvironment (fun _ => 0) otherModelAnswers normalized
    otherModelAnswers_isTree hnormalized seq _ hseq
  have hanswer : (Coding.buildSessionContext (fun _ => 0) (otherModelAnswers.map sessionEntry) none none).model =
      some (modelRef (name "b", name "y")) := rfl
  have hprovider : c.provider = name "b" := by
    have heq := hanswer.symm.trans hmodel
    simp only [modelRef, Option.some.injEq, ModelRef.mk.injEq, Json.string.injEq] at heq
    exact heq.1.symm
  simp only [LaneConfiguration.json, Json.object.injEq, List.cons.injEq, Prod.mk.injEq, Json.string.injEq, true_and]
    at hc
  have hne : name "a" ≠ name "b" := by decide
  exact hne (hc.1.1.trans hprovider)

end Phi.Session.Jsonl
