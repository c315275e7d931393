import Phi.Data.Ascii
import Phi.Data.Json
import Phi.Data.Table

/-!
# The file of the settings

What `SettingsManager` reads from a settings file and how `persistScopedSettings` merges the settings that were modified
into what it reads. The file is what its text parses to: `JSON.parse` gives back what `JSON.stringify` was given.

`Holds` says what the file has under a key. Merging gives the modified keys their values and keeps all others
(`holds_merged`, `get_merged_of_not_mem`), and a value that a setter takes survives `migrateSettings` (`Holds.migrate`).
-/

namespace Phi.Coding

/-- Settings, or an object among them. An array is the object of its indices. -/
abbrev Settings := Table JsString Json

namespace SettingName

def queueMode : JsString := JsString.ofAscii "queueMode"
def steeringMode : JsString := JsString.ofAscii "steeringMode"
def websockets : JsString := JsString.ofAscii "websockets"
def transport : JsString := JsString.ofAscii "transport"
def skills : JsString := JsString.ofAscii "skills"
def enableSkillCommands : JsString := JsString.ofAscii "enableSkillCommands"
def customDirectories : JsString := JsString.ofAscii "customDirectories"
def retry : JsString := JsString.ofAscii "retry"
def maxDelayMs : JsString := JsString.ofAscii "maxDelayMs"
def provider : JsString := JsString.ofAscii "provider"
def maxRetryDelayMs : JsString := JsString.ofAscii "maxRetryDelayMs"
def markdown : JsString := JsString.ofAscii "markdown"

end SettingName

open SettingName

/-! ## Values -/

/-- `{ ...value }` -/
def spread : Json → Settings
  | .object members => members
  | .array items => items.zipIdx.map fun (item, i) => (JsString.ofAscii (toString i), item)
  | .string text => text.zipIdx.map fun (unit, i) => (JsString.ofAscii (toString i), .string [unit])
  | _ => []

/-- `typeof value === "object" && value !== null` -/
def isObject : Json → Bool
  | .object _ | .array _ => true
  | _ => false

/-- `!value` -/
def isFalsy : Json → Bool
  | .null | .bool false | .string [] => true
  | .number q => q = 0
  | _ => false

namespace Settings

/-- `settings[field] = value`. JSON has no field that is undefined. -/
def put (s : Settings) (field : JsString) : Option Json → Settings
  | some value => s.set field value
  | none => s.erase field

@[simp] theorem get_put (s : Settings) (field : JsString) (value : Option Json) (f : JsString) :
    (s.put field value).get f = if field = f then value else s.get f := by
  cases value with
  | none => exact Table.get_erase s field f
  | some v => exact Table.get_set s field v f

theorem put_get (s : Settings) (field : JsString) : s.put field (s.get field) = s := by
  cases h : s.get field with
  | none => exact Table.erase_of_not_mem (Table.get_eq_none_iff.mp h)
  | some v => exact Table.set_of_get h

/-- Fields that are put one after another, each with its value. -/
def putAll (s : Settings) (fields : List JsString) (value : JsString → Option Json) : Settings :=
  fields.foldl (fun s field => s.put field (value field)) s

theorem get_putAll (s : Settings) (fields : List JsString) (value : JsString → Option Json) (f : JsString) :
    (s.putAll fields value).get f = if f ∈ fields then value f else s.get f := by
  induction fields generalizing s with
  | nil => simp [putAll]
  | cons field fields ih =>
    have hrest : (s.putAll (field :: fields) value).get f = ((s.put field (value field)).putAll fields value).get f := rfl
    rw [hrest, ih, get_put]
    by_cases hf : f ∈ fields
    · simp [hf]
    · by_cases hfield : field = f
      · simp [hfield]
      · simp [hf, hfield, Ne.symm hfield]

/-- Putting what is there changes nothing. -/
theorem putAll_of_get {s : Settings} {fields : List JsString} {value : JsString → Option Json}
    (h : ∀ f ∈ fields, value f = s.get f) : s.putAll fields value = s := by
  induction fields with
  | nil => rfl
  | cons field fields ih =>
    rw [List.forall_mem_cons] at h
    have hrest : s.putAll (field :: fields) value = (s.put field (value field)).putAll fields value := rfl
    rw [hrest, h.1, put_get]
    exact ih h.2

/-- `{ ...(settings[field] ?? {}) }` -/
def entries (s : Settings) (field : JsString) : Settings := ((s.get field).map spread).getD []

theorem entries_congr {s s' : Settings} {field : JsString} (h : s.get field = s'.get field) :
    s.entries field = s'.entries field := by
  rw [entries, entries, h]

theorem entries_of_get {s : Settings} {field : JsString} {members : Settings}
    (h : s.get field = some (.object members)) : s.entries field = members := by
  rw [entries, h]
  rfl

end Settings

/-! ## Old formats -/

def migrateQueueMode (s : Settings) : Settings :=
  match s.get queueMode with
  | some mode => if s.has steeringMode then s else (s.set steeringMode mode).erase queueMode
  | none => s

def migrateTransport (s : Settings) : Settings :=
  match s.get transport, s.get websockets with
  | none, some (.bool b) =>
    (s.set transport (.string (JsString.ofAscii (if b then "websocket" else "sse")))).erase websockets
  | _, _ => s

def migrateSkillCommands (skillsSettings s : Settings) : Settings :=
  match skillsSettings.get enableSkillCommands, s.get enableSkillCommands with
  | some enabled, none => s.set enableSkillCommands enabled
  | _, _ => s

def migrateSkills (s : Settings) : Settings :=
  match s.get skills with
  | some (.object skillsSettings) =>
    match Table.get skillsSettings customDirectories with
    | some (.array (directory :: directories)) =>
      (migrateSkillCommands skillsSettings s).set skills (.array (directory :: directories))
    | _ => (migrateSkillCommands skillsSettings s).erase skills
  | _ => s

def providerSettings (retrySettings : Settings) : Settings :=
  match retrySettings.get provider with
  | some value => if isObject value then spread value else []
  | none => []

def hasMaxRetryDelay (retrySettings : Settings) : Bool :=
  match (providerSettings retrySettings).get maxRetryDelayMs with
  | none | some .null => false
  | some _ => true

def migrateMaxDelay (retrySettings : Settings) : Settings :=
  match retrySettings.get maxDelayMs with
  | some (.number delay) =>
    if hasMaxRetryDelay retrySettings then retrySettings
    else retrySettings.set provider (.object ((providerSettings retrySettings).set maxRetryDelayMs (.number delay)))
  | _ => retrySettings

def migrateRetry (s : Settings) : Settings :=
  match s.get retry with
  | some (.object retrySettings) => s.set retry (.object ((migrateMaxDelay retrySettings).erase maxDelayMs))
  | _ => s

def migrateSettings (s : Settings) : Settings := migrateRetry (migrateSkills (migrateTransport (migrateQueueMode s)))

/-! ## Reading the file -/

/-- `missing` is no file or an empty one, `malformed` one that `JSON.parse` throws at. -/
inductive SettingsFile where
  | missing
  | malformed
  | json (value : Json)

/-- What is read, or nothing if it throws: `in` does at what is not an object. -/
def SettingsFile.load : SettingsFile → Option Settings
  | .missing => some []
  | .malformed => none
  | .json value => if isObject value then some (migrateSettings (spread value)) else none

/-! ## Keys -/

/-- The fields that setters set as a whole. -/
def wholeFields : List JsString :=
  ["lastChangelogVersion", "defaultProvider", "defaultModel", "steeringMode", "followUpMode", "theme",
    "defaultThinkingLevel", "modelThinkingLevels", "transport", "httpIdleTimeoutMs", "hideThinkingBlock",
    "showCacheMissNotices", "shellPath", "quietStartup", "defaultProjectTrust", "shellCommandPrefix", "npmCommand",
    "collapseChangelog", "enableInstallTelemetry", "enableAnalytics", "trackingId", "packages", "extensions", "skills",
    "prompts", "themes", "enableSkillCommands", "tuiMode", "fullscreenExitOutput", "fullscreenScrollbar",
    "fullscreenCopyOnSelect", "enabledModels", "doubleEscapeAction", "treeFilterMode", "showHardwareCursor",
    "editorPaddingX", "outputPad", "autocompleteMaxVisible", "warnings"].map JsString.ofAscii

/-- The keys that setters set in a field. -/
def nestedKeys : List (JsString × JsString) :=
  [("compaction", "enabled"), ("retry", "enabled"), ("terminal", "showImages"), ("terminal", "imageWidthCells"),
    ("terminal", "clearOnShrink"), ("terminal", "showTerminalProgress"), ("images", "autoResize"),
    ("images", "blockImages"), ("markdown", "mermaid")].map fun p => (JsString.ofAscii p.1, JsString.ofAscii p.2)

/-- What a setter sets. -/
inductive Key where
  | whole (field : JsString) (h : field ∈ wholeFields)
  | nested (field key : JsString) (h : (field, key) ∈ nestedKeys)
deriving DecidableEq

namespace Key

def field : Key → JsString
  | whole field _ => field
  | nested field _ _ => field

/-- The values that a setter gives to a key, by its type: these four are not removed, and skills are not an object. -/
def Takes : Key → Option Json → Prop
  | whole field _, value =>
    (field = steeringMode ∨ field = transport ∨ field = enableSkillCommands → value ≠ none) ∧
      (field = skills → ∀ members, value ≠ some (.object members))
  | nested .., _ => True

end Key

theorem wholeFields_ne : ∀ f ∈ wholeFields, f ≠ queueMode ∧ f ≠ websockets ∧ f ≠ retry ∧ f ∉ nestedKeys.map Prod.fst :=
  Spelled.forall_ofAscii (by dsimp only; repeat constructor) (by decide +kernel)

theorem nestedKeys_ne : ∀ p ∈ nestedKeys, p.1 ≠ queueMode ∧ p.1 ≠ steeringMode ∧ p.1 ≠ websockets ∧
    p.1 ≠ transport ∧ p.1 ≠ skills ∧ p.1 ≠ enableSkillCommands ∧ p.2 ≠ maxDelayMs ∧ p.2 ≠ provider := by
  decide

/-! ## What the file has -/

namespace Settings

def read (s : Settings) : Key → Option Json
  | .whole field _ => s.get field
  | .nested field key _ => (s.entries field).get key

/-- The settings have a value under a key, in an object where the key is one of a field. -/
def Holds (s : Settings) : Key → Option Json → Prop
  | .whole field _, value => s.get field = value
  | .nested field key _, value => ∃ members, s.get field = some (.object members) ∧ Table.get members key = value

theorem Holds.read_eq {s : Settings} {κ : Key} {value : Option Json} (h : s.Holds κ value) : s.read κ = value := by
  cases κ with
  | whole field hfield => exact h
  | nested field key hkey =>
    obtain ⟨members, hmembers, hvalue⟩ := h
    rw [read, entries_of_get hmembers, hvalue]

end Settings

/-! ## Migrating -/

theorem get_migrateQueueMode {s : Settings} {f : JsString} (hqueue : f ≠ queueMode)
    (hsteering : f = steeringMode → s.get f ≠ none) : (migrateQueueMode s).get f = s.get f := by
  unfold migrateQueueMode
  cases s.get queueMode with
  | none => rfl
  | some mode =>
    dsimp only
    split
    · rfl
    · next h =>
      rw [Table.get_erase, if_neg (Ne.symm hqueue), Table.get_set, if_neg]
      intro hf
      rw [Bool.not_eq_true, Table.has_eq_false, ← Table.get_eq_none_iff, hf] at h
      exact hsteering hf.symm h

theorem get_migrateTransport {s : Settings} {f : JsString} (hwebsockets : f ≠ websockets)
    (htransport : f = transport → s.get f ≠ none) : (migrateTransport s).get f = s.get f := by
  unfold migrateTransport
  split
  · next h _ =>
    rw [Table.get_erase, if_neg (Ne.symm hwebsockets), Table.get_set, if_neg]
    intro hf
    rw [hf] at h
    exact htransport hf.symm h
  · rfl

theorem get_migrateSkillCommands {skillsSettings s : Settings} {f : JsString}
    (hcommands : f = enableSkillCommands → s.get f ≠ none) : (migrateSkillCommands skillsSettings s).get f = s.get f := by
  unfold migrateSkillCommands
  split
  · next hnone =>
    rw [Table.get_set, if_neg]
    rintro rfl
    exact hcommands rfl hnone
  · rfl

theorem get_migrateSkills {s : Settings} {f : JsString}
    (hcommands : f = enableSkillCommands → s.get f ≠ none)
    (hskills : f = skills → ∀ members, s.get f ≠ some (.object members)) : (migrateSkills s).get f = s.get f := by
  unfold migrateSkills
  split
  · next skillsSettings h =>
    have hf : skills ≠ f := by
      rintro rfl
      exact hskills rfl _ h
    split
    · rw [Table.get_set, if_neg hf, get_migrateSkillCommands hcommands]
    · rw [Table.get_erase, if_neg hf, get_migrateSkillCommands hcommands]
  · rfl

theorem get_migrateRetry {s : Settings} {f : JsString} (hf : f ≠ retry) : (migrateRetry s).get f = s.get f := by
  unfold migrateRetry
  split
  · rw [Table.get_set, if_neg (Ne.symm hf)]
  · rfl

theorem get_migrateMaxDelay {retrySettings : Settings} {key : JsString} (hkey : key ≠ provider) :
    (migrateMaxDelay retrySettings).get key = retrySettings.get key := by
  unfold migrateMaxDelay
  split
  · split
    · rfl
    · rw [Table.get_set, if_neg (Ne.symm hkey)]
  · rfl

theorem get_migrateRetry_object {s : Settings} {members : Settings} (h : s.get retry = some (.object members)) :
    (migrateRetry s).get retry = some (.object ((migrateMaxDelay members).erase maxDelayMs)) := by
  rw [migrateRetry, h]
  dsimp only
  rw [Table.get_set, if_pos rfl]

/-- What a setter has set is in the current format. -/
theorem Settings.Holds.migrate {s : Settings} {κ : Key} {value : Option Json} (h : s.Holds κ value)
    (hvalue : κ.Takes value) : (migrateSettings s).Holds κ value := by
  cases κ with
  | whole f hf =>
    obtain ⟨hsome, hskills⟩ := hvalue
    obtain ⟨hqueue, hwebsockets, hretry, -⟩ := wholeFields_ne f hf
    change s.get f = value at h
    subst h
    change (migrateSettings s).get f = s.get f
    have h1 : (migrateQueueMode s).get f = s.get f := get_migrateQueueMode hqueue fun h => hsome (.inl h)
    have h2 : (migrateTransport (migrateQueueMode s)).get f = s.get f :=
      (get_migrateTransport hwebsockets fun h => h1 ▸ hsome (.inr (.inl h))).trans h1
    have h3 : (migrateSkills (migrateTransport (migrateQueueMode s))).get f = s.get f :=
      (get_migrateSkills (fun h => h2 ▸ hsome (.inr (.inr h))) fun h => h2 ▸ hskills h).trans h2
    exact (get_migrateRetry hretry).trans h3
  | nested f key hkey =>
    obtain ⟨hqueue, hsteering, hwebsockets, htransport, hskills, hcommands, hmax, hprovider⟩ := nestedKeys_ne _ hkey
    obtain ⟨members, hmembers, hget⟩ := h
    have hsame : (migrateSkills (migrateTransport (migrateQueueMode s))).get f = some (.object members) := by
      rw [get_migrateSkills (absurd · hcommands) (absurd · hskills),
        get_migrateTransport hwebsockets (absurd · htransport), get_migrateQueueMode hqueue (absurd · hsteering), hmembers]
    by_cases hf : f = retry
    · subst hf
      refine ⟨_, get_migrateRetry_object hsame, ?_⟩
      rw [Table.get_erase, if_neg (Ne.symm hmax), get_migrateMaxDelay hprovider, hget]
    · exact ⟨members, (get_migrateRetry hf).trans hsame, hget⟩

/-! ## Merging -/

/-- `modifiedFields` and `modifiedNestedFields` -/
structure Marks where
  fields : List JsString := []
  nested : Table JsString (List JsString) := []

/-- `Set.prototype.add` -/
def addNew (a : JsString) (as : List JsString) : List JsString := if a ∈ as then as else as ++ [a]

theorem mem_addNew {a b : JsString} {as : List JsString} : b ∈ addNew a as ↔ b = a ∨ b ∈ as := by
  unfold addNew
  split
  · next h => exact ⟨Or.inr, fun hb => hb.elim (fun e => e ▸ h) id⟩
  · simp [or_comm]

namespace Marks

/-- `markModified` -/
def mark (m : Marks) : Key → Marks
  | .whole field _ => { m with fields := addNew field m.fields }
  | .nested field key _ =>
    ⟨addNew field m.fields, m.nested.set field (addNew key ((m.nested.get field).getD []))⟩

def has (m : Marks) : Key → Bool
  | .whole field _ => field ∈ m.fields
  | .nested field key _ => field ∈ m.fields ∧ key ∈ (m.nested.get field).getD []

@[simp] theorem has_whole (m : Marks) (f : JsString) (h : f ∈ wholeFields) :
    m.has (.whole f h) = true ↔ f ∈ m.fields := by
  simp [has]

@[simp] theorem has_nested (m : Marks) (f k : JsString) (h : (f, k) ∈ nestedKeys) :
    m.has (.nested f k h) = true ↔ f ∈ m.fields ∧ k ∈ (m.nested.get f).getD [] := by
  simp [has]

end Marks

/-- The value of a field that the loop of `persistScopedSettings` gives to the merged settings. -/
def mergedValue (snapshotSettings : Settings) (marks : Marks) (current : Settings) (field : JsString) : Option Json :=
  match marks.nested.get field, snapshotSettings.get field with
  | some nestedModified, some value =>
    if isObject value then some (.object ((current.entries field).putAll nestedModified (spread value).get))
    else some value
  | _, value => value

def mergedSettings (snapshotSettings : Settings) (marks : Marks) (current : Settings) : Settings :=
  current.putAll marks.fields (mergedValue snapshotSettings marks current)

/-- What `persistScopedSettings` writes, or nothing if the file cannot be read. -/
def persistScopedSettings (snapshotSettings : Settings) (marks : Marks) (file : SettingsFile) : Option SettingsFile :=
  file.load.map fun current => .json (.object (mergedSettings snapshotSettings marks current))

/-- The marks are those of keys that have been set in the settings. -/
structure Marks.Sound (m : Marks) (s : Settings) : Prop where
  whole : ∀ f ∈ wholeFields, m.nested.get f = none
  nested : ∀ f, m.nested.get f ≠ none → f ∈ m.fields
  fields : ∀ f ∈ m.fields, f ∈ wholeFields ∨ ∃ keys members, keys ≠ [] ∧ m.nested.get f = some keys ∧
    s.get f = some (.object members) ∧ ∀ k ∈ keys, (f, k) ∈ nestedKeys
  takes : ∀ κ, m.has κ → κ.Takes (s.read κ)

theorem not_wholeFields_of_nestedKeys {f k : JsString} (h : (f, k) ∈ nestedKeys) : f ∉ wholeFields :=
  fun hf => (wholeFields_ne f hf).2.2.2 (List.mem_map_of_mem h)

section

variable {snapshot current : Settings} {marks : Marks}

theorem mergedValue_whole (hsound : marks.Sound snapshot) {f : JsString} (hf : f ∈ wholeFields) :
    mergedValue snapshot marks current f = snapshot.get f := by
  rw [mergedValue, hsound.whole f hf]

theorem mergedValue_nested {f : JsString} {keys : List JsString} {members : Settings}
    (hkeys : marks.nested.get f = some keys) (hmembers : snapshot.get f = some (.object members)) :
    mergedValue snapshot marks current f = some (.object ((current.entries f).putAll keys (Table.get members))) := by
  rw [mergedValue, hkeys, hmembers]
  rfl

/-- The modified keys get their values. -/
theorem holds_merged (hsound : marks.Sound snapshot) {κ : Key} (h : marks.has κ) :
    (mergedSettings snapshot marks current).Holds κ (snapshot.read κ) := by
  cases κ with
  | whole f hf =>
    have hmem : f ∈ marks.fields := (marks.has_whole f hf).mp h
    change (mergedSettings snapshot marks current).get f = snapshot.get f
    rw [mergedSettings, Settings.get_putAll, if_pos hmem, mergedValue_whole hsound hf]
  | nested f k hkey =>
    obtain ⟨hmem, hk⟩ := (marks.has_nested f k hkey).mp h
    obtain ⟨keys, members, -, hkeys, hmembers, -⟩ :=
      (hsound.fields f hmem).resolve_left (not_wholeFields_of_nestedKeys hkey)
    rw [hkeys, Option.getD_some] at hk
    refine ⟨(current.entries f).putAll keys (Table.get members), ?_, ?_⟩
    · rw [mergedSettings, Settings.get_putAll, if_pos hmem, mergedValue_nested hkeys hmembers]
    · rw [Settings.get_putAll, if_pos hk, Settings.read, Settings.entries_of_get hmembers]

/-- The keys that are not modified keep theirs. -/
theorem holds_merged_of_not_has (hsound : marks.Sound snapshot) {κ : Key} {value : Option Json} (h : ¬ marks.has κ)
    (hvalue : current.Holds κ value) : (mergedSettings snapshot marks current).Holds κ value := by
  cases κ with
  | whole f hf =>
    have hmem : f ∉ marks.fields := fun hmem => h ((marks.has_whole f hf).mpr hmem)
    change (mergedSettings snapshot marks current).get f = value
    rw [mergedSettings, Settings.get_putAll, if_neg hmem]
    exact hvalue
  | nested f k hkey =>
    obtain ⟨before, hbefore, hget⟩ := hvalue
    by_cases hmem : f ∈ marks.fields
    · obtain ⟨keys, members, -, hkeys, hmembers, -⟩ :=
        (hsound.fields f hmem).resolve_left (not_wholeFields_of_nestedKeys hkey)
      have hk : k ∉ keys := fun hk => h ((marks.has_nested f k hkey).mpr ⟨hmem, by rwa [hkeys]⟩)
      refine ⟨Settings.putAll before keys (Table.get members), ?_, ?_⟩
      · rw [mergedSettings, Settings.get_putAll, if_pos hmem, mergedValue_nested hkeys hmembers,
          Settings.entries_of_get hbefore]
      · rw [Settings.get_putAll, if_neg hk, hget]
    · refine ⟨before, ?_, hget⟩
      rw [mergedSettings, Settings.get_putAll, if_neg hmem, hbefore]

/-- What is set there is the field, or the key in it. -/
def Key.Covers (field key : JsString) : Key → Prop
  | .whole f _ => f = field
  | .nested f k _ => f = field ∧ k = key

/-- Nothing is changed but some keys: all other fields are, and in these fields all other keys. -/
structure Keeps (keys : List Key) (before after : Settings) : Prop where
  field : ∀ f, (∀ κ ∈ keys, κ.field ≠ f) → after.get f = before.get f
  key : ∀ f k, (∀ κ ∈ keys, ¬ κ.Covers f k) → (after.entries f).get k = (before.entries f).get k

/-- What is merged changes nothing but the keys that do not have their values yet. -/
theorem keeps_merged {keys : List Key} (hsound : marks.Sound snapshot)
    (hheld : ∀ κ, marks.has κ → κ ∈ keys ∨ current.Holds κ (snapshot.read κ)) :
    Keeps keys current (mergedSettings snapshot marks current) := by
  have hother : ∀ f ∉ marks.fields, (mergedSettings snapshot marks current).get f = current.get f := by
    intro f hf
    rw [mergedSettings, Settings.get_putAll, if_neg hf]
  have hwhole : ∀ f ∈ marks.fields, ∀ hf : f ∈ wholeFields, .whole f hf ∉ keys →
      (mergedSettings snapshot marks current).get f = current.get f := by
    intro f hmem hf hnot
    rw [mergedSettings, Settings.get_putAll, if_pos hmem, mergedValue_whole hsound hf]
    exact ((hheld (.whole f hf) ((marks.has_whole f hf).mpr hmem)).resolve_left hnot).symm
  have hnested : ∀ f ∈ marks.fields, ∀ nestedKeys' members, marks.nested.get f = some nestedKeys' →
      snapshot.get f = some (.object members) → ∀ k ∈ nestedKeys', ∀ hk : (f, k) ∈ nestedKeys, .nested f k hk ∉ keys →
      ∃ members', current.get f = some (.object members') ∧ Table.get members' k = Table.get members k := by
    intro f hmem nestedKeys' members hkeys hmembers k hk hset hnot
    have h := (hheld (.nested f k hset) ((marks.has_nested f k hset).mpr ⟨hmem, by rwa [hkeys]⟩)).resolve_left hnot
    rwa [Settings.read, Settings.entries_of_get hmembers] at h
  constructor
  · intro f hfield
    by_cases hmem : f ∈ marks.fields
    · rcases hsound.fields f hmem with hf | ⟨nestedKeys', members, hne, hkeys, hmembers, hset⟩
      · exact hwhole f hmem hf fun h => hfield _ h rfl
      · have hget := fun k hk => hnested f hmem _ _ hkeys hmembers k hk (hset k hk) fun h => hfield _ h rfl
        obtain ⟨k, hk⟩ := List.exists_mem_of_ne_nil _ hne
        obtain ⟨members', hmembers', -⟩ := hget k hk
        rw [mergedSettings, Settings.get_putAll, if_pos hmem, mergedValue_nested hkeys hmembers, hmembers',
          Settings.entries_of_get hmembers', Settings.putAll_of_get]
        intro k hk
        obtain ⟨members'', hmembers'', h⟩ := hget k hk
        rw [hmembers', Option.some.injEq, Json.object.injEq] at hmembers''
        rw [hmembers'', h]
    · exact hother f hmem
  · intro f k hcovers
    by_cases hmem : f ∈ marks.fields
    · rcases hsound.fields f hmem with hf | ⟨nestedKeys', members, -, hkeys, hmembers, hset⟩
      · rw [Settings.entries_congr (hwhole f hmem hf fun h => hcovers _ h rfl)]
      · have hentries : (mergedSettings snapshot marks current).entries f =
            (current.entries f).putAll nestedKeys' (Table.get members) := by
          apply Settings.entries_of_get
          rw [mergedSettings, Settings.get_putAll, if_pos hmem, mergedValue_nested hkeys hmembers]
        rw [hentries, Settings.get_putAll]
        split
        · next hk =>
          obtain ⟨members', hmembers', h⟩ :=
            hnested f hmem _ _ hkeys hmembers k hk (hset k hk) fun h => hcovers _ h ⟨rfl, rfl⟩
          rw [Settings.entries_of_get hmembers', h]
        · rfl
    · rw [Settings.entries_congr (hother f hmem)]

end

end Phi.Coding
