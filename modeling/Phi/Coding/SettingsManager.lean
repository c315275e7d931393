import Phi.Coding.SettingsFile
import Phi.Data.Runs

/-!
# The settings manager and its queue of writes

A setter of `SettingsManager` marks what it sets as modified and queues a write of all that is marked; the writes are
made one after another. A write that succeeds takes all marks away, those of what later setters have set as well. If the
write of one of these fails, what it was to save is in no further write, so it is lost unless it is set again.

A write saves all that is to be saved in every run in which no write fails with something that is in no later write
(`written_saves`). What a `reload` finds unsaved is given up by design of `reload`, so the runs reload when all is saved.
-/

namespace Phi.Coding

open SettingName

/-! ## Setters -/

/-- What one assignment of a setter sets. -/
structure Change where
  key : Key
  value : Option Json
  takes : key.Takes value

/-- `if (!settings[field]) settings[field] = {}`, where `??=` takes the place of the test for `markdown`. -/
def isUnset (field : JsString) : Json → Bool
  | .null => true
  | value => isFalsy value && field ≠ markdown

namespace Settings

/-- The object in which a key of a field is set; a property of a primitive cannot be. -/
def object (s : Settings) (field : JsString) : Option Settings :=
  match s.get field with
  | none => some []
  | some value => if isObject value then some (spread value) else if isUnset field value then some [] else none

def assign (s : Settings) (c : Change) : Option Settings :=
  match c.key with
  | .whole field _ => some (s.put field c.value)
  | .nested field key _ => (s.object field).map fun members => s.set field (.object (members.put key c.value))

end Settings

theorem spread_of_isUnset {f : JsString} {value : Json} (h : isUnset f value) : spread value = [] := by
  cases value with
  | null | bool | number => rfl
  | string text =>
    cases text with
    | nil => rfl
    | cons unit text => simp [isUnset, isFalsy] at h
  | array | object => simp [isUnset, isFalsy] at h

namespace Settings

theorem object_eq {s : Settings} {f : JsString} {members : Settings} (h : s.object f = some members) :
    members = s.entries f := by
  unfold object at h
  unfold entries
  cases hget : s.get f with
  | none =>
    rw [hget] at h
    exact (Option.some.inj h).symm
  | some value =>
    rw [hget] at h
    dsimp only at h
    split at h
    · exact (Option.some.inj h).symm
    · split at h
      · next hunset => exact ((spread_of_isUnset hunset).trans (Option.some.inj h)).symm
      · cases h

/-- An assignment gives its key the value, changes no other key, and leaves objects objects. -/
theorem assign_cases {s s' : Settings} {c : Change} (h : s.assign c = some s') :
    s'.Holds c.key c.value ∧ (∀ κ ≠ c.key, s'.read κ = s.read κ) ∧
      ∀ f ∉ wholeFields, ∀ members, s.get f = some (.object members) → ∃ members', s'.get f = some (.object members') := by
  obtain ⟨key, value, htakes⟩ := c
  cases key with
  | whole f hf =>
    obtain rfl : s.put f value = s' := Option.some.inj h
    have hother : ∀ f', f' ≠ f → (s.put f value).get f' = s.get f' := fun f' hne => by
      rw [get_put, if_neg (Ne.symm hne)]
    refine ⟨(get_put ..).trans (if_pos rfl), fun κ hκ => ?_, fun f' hf' members hmembers => ⟨members, ?_⟩⟩
    · cases κ with
      | whole f' hf' => exact hother f' fun h => hκ (by subst h; rfl)
      | nested f' k hk =>
        have hne : f' ≠ f := fun h => not_wholeFields_of_nestedKeys hk (h ▸ hf)
        exact congrArg (Table.get · k) (entries_congr (hother f' hne))
    · rw [hother f' fun h => hf' (h ▸ hf), hmembers]
  | nested f k hk =>
    obtain ⟨members, hobject, rfl⟩ := Option.map_eq_some_iff.mp h
    obtain rfl := object_eq hobject
    have hother : ∀ f' ≠ f, Table.get (s.set f (.object ((s.entries f).put k value))) f' = s.get f' := fun f' hne => by
      rw [Table.get_set, if_neg (Ne.symm hne)]
    have hself : Table.get (s.set f (.object ((s.entries f).put k value))) f =
        some (.object ((s.entries f).put k value)) := by
      rw [Table.get_set, if_pos rfl]
    refine ⟨⟨_, hself, (get_put ..).trans (if_pos rfl)⟩, fun κ hκ => ?_, fun f' hf' members hmembers => ?_⟩
    · cases κ with
      | whole f' hf' => exact hother f' fun h => not_wholeFields_of_nestedKeys hk (h ▸ hf')
      | nested f' k' hk' =>
        by_cases hf : f' = f
        · subst hf
          rw [read, entries_of_get hself, get_put, if_neg, read]
          rintro rfl
          exact hκ rfl
        · exact congrArg (Table.get · k') (entries_congr (hother f' hf))
    · by_cases hf : f' = f
      · subst hf
        exact ⟨_, hself⟩
      · exact ⟨members, (hother f' hf).trans hmembers⟩

end Settings

namespace Marks

theorem Sound.mem_nestedKeys {m : Marks} {s : Settings} (hsound : m.Sound s) {f k : JsString}
    (h : k ∈ (m.nested.get f).getD []) : (f, k) ∈ nestedKeys := by
  cases hnested : m.nested.get f with
  | none => simp [hnested] at h
  | some keys =>
    rcases hsound.fields f (hsound.nested f (by simp [hnested])) with hf | ⟨keys', -, -, hkeys, -, hset⟩
    · exact absurd (hsound.whole f hf) (by simp [hnested])
    · exact hset k (by simpa [hkeys] using h)

theorem not_has_empty (κ : Key) : ({} : Marks).has κ = false := by
  cases κ <;> simp [has]

theorem Sound.empty (s : Settings) : ({} : Marks).Sound s where
  whole _ _ := rfl
  nested _ h := absurd rfl h
  fields _ hf := by cases hf
  takes κ hκ := by simp [not_has_empty] at hκ

theorem has_mark {m : Marks} {s : Settings} (hsound : m.Sound s) {κ κ' : Key} :
    (m.mark κ).has κ' = true ↔ κ' = κ ∨ m.has κ' := by
  cases κ with
  | whole f hf =>
    cases κ' with
    | whole f' hf' => simp [mark, mem_addNew]
    | nested f' k' hk' =>
      have hne : f' ≠ f := fun h => not_wholeFields_of_nestedKeys hk' (h ▸ hf)
      simp [mark, mem_addNew, hne]
  | nested f k hk =>
    cases κ' with
    | whole f' hf' =>
      have hne : f' ≠ f := fun h => not_wholeFields_of_nestedKeys hk (h ▸ hf')
      simp [mark, mem_addNew, hne]
    | nested f' k' hk' =>
      by_cases hf : f' = f
      · subst hf
        have hmem : k' ∈ (m.nested.get f').getD [] → f' ∈ m.fields := by
          intro hk'
          refine hsound.nested f' fun hnone => ?_
          simp [hnone] at hk'
        simp only [mark, has_nested, mem_addNew, Table.get_set, if_true, Option.getD_some, true_or, true_and,
          Key.nested.injEq]
        exact or_congr_right ⟨fun h => ⟨hmem h, h⟩, And.right⟩
      · simp [mark, mem_addNew, hf, Ne.symm hf]

/-- What has just been assigned may be marked. -/
theorem Sound.mark {m : Marks} {s s' : Settings} {c : Change} (hsound : m.Sound s) (h : s.assign c = some s') :
    (m.mark c.key).Sound s' := by
  obtain ⟨hholds, hother, hobject⟩ := Settings.assign_cases h
  have htakes : ∀ κ, (m.mark c.key).has κ → κ.Takes (s'.read κ) := by
    intro κ hκ
    by_cases hc : κ = c.key
    · rw [hc, hholds.read_eq]
      exact c.takes
    · rw [hother κ hc]
      exact hsound.takes κ (((has_mark hsound).mp hκ).resolve_left hc)
  have hfields : ∀ f ∈ m.fields, f ∈ wholeFields ∨ ∃ keys members, keys ≠ [] ∧ m.nested.get f = some keys ∧
      s'.get f = some (.object members) ∧ ∀ k ∈ keys, (f, k) ∈ nestedKeys := by
    intro f hf
    refine (hsound.fields f hf).imp_right ?_
    rintro ⟨keys, members, hne, hkeys, hmembers, hset⟩
    obtain ⟨k, hk⟩ := List.exists_mem_of_ne_nil _ hne
    obtain ⟨members', hmembers'⟩ := hobject f (not_wholeFields_of_nestedKeys (hset k hk)) members hmembers
    exact ⟨keys, members', hne, hkeys, hmembers', hset⟩
  obtain ⟨key, value, hvalue⟩ := c
  cases key with
  | whole f hf =>
    refine ⟨hsound.whole, fun f' hf' => mem_addNew.mpr (.inr (hsound.nested f' hf')), fun f' hf' => ?_, htakes⟩
    rcases mem_addNew.mp hf' with rfl | hf'
    · exact .inl hf
    · exact hfields f' hf'
  | nested f k hk =>
    obtain ⟨members, hmembers, -⟩ := hholds
    refine ⟨fun f' hf' => ?_, fun f' hf' => ?_, fun f' hf' => ?_, htakes⟩
    · have hne : f ≠ f' := fun h => not_wholeFields_of_nestedKeys hk (h ▸ hf')
      exact (Table.get_set ..).trans ((if_neg hne).trans (hsound.whole f' hf'))
    · refine mem_addNew.mpr ?_
      by_cases hf : f = f'
      · exact .inl hf.symm
      · exact .inr (hsound.nested f' ((if_neg hf ▸ Table.get_set m.nested f _ f') ▸ hf'))
    · by_cases hf : f = f'
      · subst hf
        refine .inr ⟨_, members, ?_, (Table.get_set ..).trans (if_pos rfl), hmembers, ?_⟩
        · exact List.ne_nil_of_mem (mem_addNew.mpr (.inl rfl))
        · intro k' hk'
          rcases mem_addNew.mp hk' with rfl | hk'
          · exact hk
          · exact hsound.mem_nestedKeys hk'
      · have hmem := (mem_addNew.mp hf').resolve_left (Ne.symm hf)
        refine (hfields f' hmem).imp_right ?_
        rintro ⟨keys, members, hne, hkeys, hrest⟩
        exact ⟨keys, members, hne, (Table.get_set ..).trans ((if_neg hf).trans hkeys), hrest⟩

end Marks

/-! ## The manager -/

/-- A queued write. `changed` is what the setter that queued it has set; no code reads it. -/
structure Write where
  snapshotSettings : Settings
  marks : Marks
  changed : List Key

structure SettingsManager where
  globalSettings : Settings
  modified : Marks := {}
  globalSettingsLoadError : Bool
  writeQueue : List Write := []

namespace SettingsManager

/-- `save` of what a setter has set -/
def save (m : SettingsManager) (changed : List Key) : SettingsManager :=
  if m.globalSettingsLoadError then m
  else { m with writeQueue := m.writeQueue ++ [⟨m.globalSettings, m.modified, changed⟩] }

/-- A setter: it assigns, marks and saves. -/
def set (m : SettingsManager) (changes : List Change) : Option SettingsManager :=
  (changes.foldlM Settings.assign m.globalSettings).map fun settings =>
    save { m with
      globalSettings := settings
      modified := changes.foldl (fun marks c => marks.mark c.key) m.modified } (changes.map Change.key)

/-- The constructor, with what `tryLoadFromStorage` gives. -/
def create (globalLoad : Option Settings) : SettingsManager where
  globalSettings := globalLoad.getD []
  globalSettingsLoadError := globalLoad.isNone

/-- `reload` after its wait for the writes -/
def reload (m : SettingsManager) (globalLoad : Option Settings) : SettingsManager :=
  match globalLoad with
  | some settings => { m with globalSettings := settings, globalSettingsLoadError := false, modified := {} }
  | none => { m with globalSettingsLoadError := true, modified := {} }

end SettingsManager

/-! ## Runs -/

/-- `unsaved` is what was set before the writes that are still queued, and not written since. -/
structure SettingsState where
  manager : SettingsManager
  file : SettingsFile
  unsaved : List Key := []

/-- A flush waits for the writes, so it is no step of its own. -/
inductive SettingsAction where
  | set (changes : List Change)
  /-- The next write succeeds. -/
  | written
  /-- The next write fails. -/
  | failed
  /-- The file may not be readable. -/
  | reload (readable : Bool)
  /-- Another process writes the file. -/
  | changed (file : SettingsFile)

namespace SettingsState

def init (file : SettingsFile) (readable : Bool) : SettingsState where
  manager := .create (if readable then file.load else none)
  file := file

def step (s : SettingsState) : SettingsAction → Option SettingsState
  | .set changes =>
    (s.manager.set changes).map fun manager =>
      { s with
        manager
        unsaved := s.unsaved ++ if manager.globalSettingsLoadError then changes.map Change.key else [] }
  | .written =>
    match s.manager.writeQueue with
    | [] => none
    | w :: rest =>
      (persistScopedSettings w.snapshotSettings w.marks s.file).map fun file =>
        { manager := { s.manager with modified := {}, writeQueue := rest }
          file
          unsaved := (s.unsaved ++ w.changed).filter fun κ => !w.marks.has κ }
  | .failed =>
    match s.manager.writeQueue with
    | [] => none
    | w :: rest => some { s with
        manager := { s.manager with writeQueue := rest }
        unsaved := s.unsaved ++ w.changed }
  | .reload readable => some { s with manager := s.manager.reload (if readable then s.file.load else none) }
  | .changed file => some { s with file }

/-- What the next write is to save, if no setter comes before it: what the queue has next, or what is marked. -/
def nextMarks (modified : Marks) : List Write → Marks
  | [] => modified
  | w :: _ => w.marks

/-- The file has a value under a key. -/
def FileHolds (file : SettingsFile) (κ : Key) (value : Option Json) : Prop :=
  ∃ current, file.load = some current ∧ current.Holds κ value

/-- Other processes change other fields than those that are going to be written. -/
def OtherFields (s : SettingsState) : SettingsAction → Prop
  | .changed file => ∀ w ∈ s.manager.writeQueue, ∀ κ, w.marks.has κ →
      ∀ value, FileHolds s.file κ value → FileHolds file κ value
  | _ => True

/-- When a write fails, the next one has all that is not saved. Settings are reloaded when all is saved. -/
def KeepsMarks (s : SettingsState) : SettingsAction → Prop
  | .failed => ∀ w rest, s.manager.writeQueue = w :: rest →
      ∀ κ ∈ s.unsaved ++ w.changed, (nextMarks s.manager.modified rest).has κ
  | .reload _ => s.manager.writeQueue = [] ∧ s.unsaved = []
  | _ => True

/-- What a write has to do: `settings` are in the file after it, `current` before it. -/
structure Saves (s : SettingsState) (w : Write) (rest : List Write) (current settings : Settings) : Prop where
  /-- What was set when the write was queued, and not saved since, gets the value it had then. -/
  saved : ∀ κ ∈ s.unsaved ++ w.changed, settings.Holds κ (w.snapshotSettings.read κ)
  /-- This is its value still, unless a later write is to save it again. -/
  latest : ∀ κ ∉ rest.flatMap Write.changed, w.snapshotSettings.read κ = s.manager.globalSettings.read κ
  keeps : Keeps (s.unsaved ++ w.changed) current settings

/-- The next write was made, and saved all that it had to. -/
def Saved (s s' : SettingsState) : Prop :=
  ∃ w rest current settings, s.manager.writeQueue = w :: rest ∧ s.file.load = some current ∧
    s'.file = .json (.object settings) ∧ Saves s w rest current settings ∧ s'.unsaved = []

/-! ## What is queued -/

/-- Each write has the values of what was not set between, up to the present settings. -/
def Follows (settings : Settings) : List Write → Settings → Prop
  | [], present => ∀ κ, settings.read κ = present.read κ
  | w :: ws, present =>
    (∀ κ ∉ w.changed, settings.read κ = w.snapshotSettings.read κ) ∧ Follows w.snapshotSettings ws present

theorem Follows.read_present {settings present : Settings} {ws : List Write} (h : Follows settings ws present) {κ : Key}
    (hκ : κ ∉ ws.flatMap Write.changed) : settings.read κ = present.read κ := by
  induction ws generalizing settings with
  | nil => exact h κ
  | cons w ws ih =>
    rw [List.flatMap_cons, List.mem_append, not_or] at hκ
    exact (h.1 κ hκ.1).trans (ih h.2 hκ.2)

theorem Follows.read_write {settings present : Settings} {ws post : List Write} {w : Write}
    (h : Follows settings (ws ++ w :: post) present) {κ : Key} (hws : κ ∉ ws.flatMap Write.changed)
    (hw : κ ∉ w.changed) : settings.read κ = w.snapshotSettings.read κ := by
  induction ws generalizing settings with
  | nil => exact h.1 κ hw
  | cons w' ws ih =>
    rw [List.flatMap_cons, List.mem_append, not_or] at hws
    exact (h.1 κ hws.1).trans (ih h.2 hws.2)

/-- A setter queues a write with its new settings. -/
theorem Follows.concat {settings present : Settings} {ws : List Write} {w : Write} (h : Follows settings ws present)
    (hw : ∀ κ ∉ w.changed, present.read κ = w.snapshotSettings.read κ) :
    Follows settings (ws ++ [w]) w.snapshotSettings := by
  induction ws generalizing settings with
  | nil => exact ⟨fun κ hκ => (h κ).trans (hw κ hκ), fun _ => rfl⟩
  | cons w' ws ih => exact ⟨h.1, ih h.2⟩

/-- Every write of the queue saves all that is marked in it, or finds it saved. -/
def Held (file : SettingsFile) : List Key → List Write → Prop
  | _, [] => True
  | before, w :: ws =>
    (∀ κ, w.marks.has κ → κ ∈ before ++ w.changed ∨ FileHolds file κ (w.snapshotSettings.read κ)) ∧
      Held file (before ++ w.changed) ws

namespace Held

variable {file file' : SettingsFile} {before before' : List Key} {ws : List Write}

theorem mono (h : Held file before ws) (hsub : ∀ κ ∈ before, κ ∈ before') : Held file before' ws := by
  induction ws generalizing before before' with
  | nil => trivial
  | cons w ws ih =>
    have happend : ∀ κ ∈ before ++ w.changed, κ ∈ before' ++ w.changed := fun κ hκ =>
      List.mem_append.mpr ((List.mem_append.mp hκ).imp_left (hsub κ))
    exact ⟨fun κ hκ => (h.1 κ hκ).imp_left (happend κ), ih h.2 happend⟩

theorem of_file (h : Held file before ws)
    (hfile : ∀ w ∈ ws, ∀ κ, w.marks.has κ → ∀ value, FileHolds file κ value → FileHolds file' κ value) :
    Held file' before ws := by
  induction ws generalizing before with
  | nil => trivial
  | cons w ws ih =>
    rw [List.forall_mem_cons] at hfile
    exact ⟨fun κ hκ => (h.1 κ hκ).imp_right (hfile.1 κ hκ _), ih h.2 hfile.2⟩

theorem concat {w : Write} (h : Held file before ws)
    (hw : ∀ κ, w.marks.has κ → κ ∈ before ++ ws.flatMap Write.changed ++ w.changed) : Held file before (ws ++ [w]) := by
  induction ws generalizing before with
  | nil =>
    refine ⟨fun κ hκ => .inl ?_, trivial⟩
    simpa using hw κ hκ
  | cons w' ws ih =>
    refine ⟨h.1, ih h.2 fun κ hκ => ?_⟩
    simpa [List.append_assoc] using hw κ hκ

/-- What a write has saved, the later ones find saved, unless it is set again. -/
theorem written {w : Write} {since : List Key} {settings present : Settings} (h : Held file before ws)
    (hmarks : ∀ w ∈ ws, w.marks.Sound w.snapshotSettings)
    (hfollows : Follows settings ws present) (hsince : ∀ κ ∉ since, w.snapshotSettings.read κ = settings.read κ)
    (hbefore : ∀ κ ∈ before, κ ∈ since ∨ w.marks.has κ)
    (hsaved : ∀ κ, w.marks.has κ → FileHolds file' κ (w.snapshotSettings.read κ))
    (hkept : ∀ κ value, ¬ w.marks.has κ → κ.Takes value → FileHolds file κ value → FileHolds file' κ value) :
    Held file' since ws := by
  induction ws generalizing before since settings with
  | nil => trivial
  | cons w' ws ih =>
    rw [List.forall_mem_cons] at hmarks
    have hnext : ∀ κ ∉ since ++ w'.changed, w.snapshotSettings.read κ = w'.snapshotSettings.read κ := by
      intro κ hκ
      rw [List.mem_append, not_or] at hκ
      exact (hsince κ hκ.1).trans (hfollows.1 κ hκ.2)
    refine ⟨fun κ hκ => or_iff_not_imp_left.mpr fun hnot => ?_, ih h.2 hmarks.2 hfollows.2 hnext ?_⟩
    · by_cases hw : w.marks.has κ
      · rw [← hnext κ hnot]
        exact hsaved κ hw
      · refine hkept κ _ hw (hmarks.1.takes κ hκ) ((h.1 κ hκ).resolve_left ?_)
        rw [List.mem_append, not_or] at hnot ⊢
        exact ⟨fun hmem => (hbefore κ hmem).elim hnot.1 hw, hnot.2⟩
    · intro κ hκ
      rcases List.mem_append.mp hκ with hκ | hκ
      · exact (hbefore κ hκ).imp_left fun h => List.mem_append.mpr (.inl h)
      · exact .inl (List.mem_append.mpr (.inr hκ))

end Held

structure Consistent (s : SettingsState) : Prop where
  modified : s.manager.modified.Sound s.manager.globalSettings
  marks : ∀ w ∈ s.manager.writeQueue, w.marks.Sound w.snapshotSettings
  changed : ∀ w ∈ s.manager.writeQueue, ∀ κ ∈ w.changed, w.marks.has κ
  unsaved : ∀ κ ∈ s.unsaved, (nextMarks s.manager.modified s.manager.writeQueue).has κ
  pending : ∀ κ, s.manager.modified.has κ → κ ∈ s.unsaved ++ s.manager.writeQueue.flatMap Write.changed
  follows : ∀ w ws, s.manager.writeQueue = w :: ws → Follows w.snapshotSettings ws s.manager.globalSettings
  held : Held s.file s.unsaved s.manager.writeQueue
  loadError : s.manager.globalSettingsLoadError = true → s.manager.writeQueue = []

/-- What a setter assigns and marks. -/
theorem assignAll_cases {settings settings' : Settings} {marks : Marks} {changes : List Change}
    (hsound : marks.Sound settings) (h : changes.foldlM Settings.assign settings = some settings') :
    (changes.foldl (fun marks c => marks.mark c.key) marks).Sound settings' ∧
      (∀ κ, (changes.foldl (fun marks c => marks.mark c.key) marks).has κ = true ↔
        κ ∈ changes.map Change.key ∨ marks.has κ) ∧
      ∀ κ ∉ changes.map Change.key, settings'.read κ = settings.read κ := by
  induction changes generalizing settings marks with
  | nil =>
    obtain rfl : settings = settings' := Option.some.inj h
    exact ⟨hsound, by simp, fun _ _ => rfl⟩
  | cons c changes ih =>
    obtain ⟨next, hnext, hrest⟩ := Option.bind_eq_some_iff.mp h
    obtain ⟨hsound', hhas, hread⟩ := ih (hsound.mark hnext) hrest
    refine ⟨hsound', fun κ => ?_, fun κ hκ => ?_⟩
    · rw [List.foldl_cons, hhas, Marks.has_mark hsound, List.map_cons, List.mem_cons, or_left_comm, or_assoc]
    · rw [List.map_cons, List.mem_cons, not_or] at hκ
      exact (hread κ hκ.2).trans ((Settings.assign_cases hnext).2.1 κ hκ.1)

namespace Consistent

variable {s s' : SettingsState}

theorem init (file : SettingsFile) (readable : Bool) : Consistent (init file readable) where
  modified := .empty _
  marks _ hw := by cases hw
  changed _ hw := by cases hw
  unsaved _ hκ := by cases hκ
  pending κ hκ := absurd hκ (by simp [SettingsState.init, SettingsManager.create, Marks.not_has_empty])
  follows _ _ hq := by cases hq
  held := trivial
  loadError _ := rfl

theorem set {changes : List Change} (hs : Consistent s) (h : s.step (.set changes) = some s') : Consistent s' := by
  obtain ⟨manager, hmanager, rfl⟩ := Option.map_eq_some_iff.mp h
  obtain ⟨settings, hsettings, rfl⟩ := Option.map_eq_some_iff.mp hmanager
  obtain ⟨hsound, hhas, hread⟩ := assignAll_cases hs.modified hsettings
  cases herror : s.manager.globalSettingsLoadError with
  | true =>
    have hqueue : s.manager.writeQueue = [] := hs.loadError herror
    simp only [SettingsManager.save, if_true]
    refine ⟨hsound, hs.marks, hs.changed, ?_, ?_, ?_, ?_, fun _ => hqueue⟩
    · intro κ hκ
      have hnext := hs.unsaved
      rw [hqueue] at hnext ⊢
      rcases List.mem_append.mp hκ with hκ | hκ
      · exact (hhas κ).mpr (.inr (hnext κ hκ))
      · exact (hhas κ).mpr (.inl hκ)
    · intro κ hκ
      have hpending := hs.pending κ
      rw [hqueue] at hpending ⊢
      rcases (hhas κ).mp hκ with hκ | hκ
      · simp [hκ]
      · simpa using Or.inl (by simpa using hpending hκ)
    · intro w ws hq
      cases hqueue.symm.trans hq
    · dsimp only
      rw [hqueue]
      trivial
  | false =>
    simp only [SettingsManager.save, Bool.false_eq_true, if_false, List.append_nil]
    have hmarked : ∀ κ, (changes.foldl (fun marks c => marks.mark c.key) s.manager.modified).has κ = true →
        κ ∈ s.unsaved ++ s.manager.writeQueue.flatMap Write.changed ++ changes.map Change.key := by
      intro κ hκ
      rw [List.mem_append, or_comm]
      exact ((hhas κ).mp hκ).imp_right (hs.pending κ)
    refine ⟨hsound, ?_, ?_, ?_, ?_, ?_, hs.held.concat hmarked, fun he => by cases he⟩
    · rw [List.forall_mem_append]
      exact ⟨hs.marks, by simpa using hsound⟩
    · rw [List.forall_mem_append]
      refine ⟨hs.changed, ?_⟩
      rw [List.forall_mem_singleton]
      exact fun κ hκ => (hhas κ).mpr (.inl hκ)
    · intro κ hκ
      have hnext := hs.unsaved κ hκ
      cases hqueue : s.manager.writeQueue with
      | nil =>
        rw [hqueue] at hnext
        exact (hhas κ).mpr (.inr hnext)
      | cons w ws =>
        rw [hqueue] at hnext
        exact hnext
    · intro κ hκ
      simpa [List.append_assoc] using hmarked κ hκ
    · intro w ws hq
      dsimp only at hq
      cases hqueue : s.manager.writeQueue with
      | nil =>
        rw [hqueue] at hq
        cases hq
        exact fun _ => rfl
      | cons w' ws' =>
        rw [hqueue] at hq
        cases hq
        exact (hs.follows _ _ hqueue).concat (w := ⟨_, _, _⟩) fun κ hκ => (hread κ hκ).symm

theorem failed (hs : Consistent s) (hkeeps : KeepsMarks s .failed) (h : s.step .failed = some s') :
    Consistent s' := by
  unfold SettingsState.step at h
  cases hqueue : s.manager.writeQueue with
  | nil =>
    rw [hqueue] at h
    cases h
  | cons w rest =>
    rw [hqueue] at h
    cases h
    obtain ⟨hmodified, hmarks, hchanged, -, hpending, hfollows, hheld, hloadError⟩ := hs
    rw [hqueue] at hmarks hchanged hpending hheld hloadError
    rw [List.forall_mem_cons] at hmarks hchanged
    refine ⟨hmodified, hmarks.2, hchanged.2, hkeeps w rest hqueue, fun κ hκ => ?_, fun w' ws hq => ?_, hheld.2,
      fun he => ?_⟩
    · simpa [List.append_assoc] using hpending κ hκ
    · dsimp only at hq
      subst hq
      exact (hfollows w _ hqueue).2
    · cases hloadError he

theorem reload {readable : Bool} (hs : Consistent s) (hkeeps : KeepsMarks s (.reload readable))
    (h : s.step (.reload readable) = some s') : Consistent s' := by
  obtain ⟨hqueue, hunsaved⟩ := hkeeps
  cases h
  unfold SettingsManager.reload
  split <;>
  · refine ⟨.empty _, hs.marks, hs.changed, ?_, ?_, ?_, hs.held, fun _ => hqueue⟩
    · dsimp only
      rw [hunsaved]
      exact fun κ hκ => absurd hκ List.not_mem_nil
    · exact fun κ hκ => absurd hκ (by simp [Marks.not_has_empty])
    · intro w ws hq
      cases hqueue.symm.trans hq

theorem changed_file {file : SettingsFile} (hs : Consistent s) (hother : OtherFields s (.changed file)) :
    Consistent { s with file } :=
  ⟨hs.modified, hs.marks, hs.changed, hs.unsaved, hs.pending, hs.follows, hs.held.of_file hother, hs.loadError⟩

/-- A write that succeeds does what it has to, and all is consistent after it. -/
theorem written (hs : Consistent s) (h : s.step .written = some s') : Saved s s' ∧ Consistent s' := by
  unfold SettingsState.step at h
  cases hqueue : s.manager.writeQueue with
  | nil =>
    rw [hqueue] at h
    cases h
  | cons w rest =>
    rw [hqueue] at h
    obtain ⟨file, hfile, rfl⟩ := Option.map_eq_some_iff.mp h
    obtain ⟨current, hcurrent, rfl⟩ := Option.map_eq_some_iff.mp hfile
    obtain ⟨-, hmarks, hchanged, hunsaved, -, hfollows, hheld, hloadError⟩ := hs
    rw [hqueue] at hmarks hchanged hunsaved hheld hloadError
    rw [List.forall_mem_cons] at hmarks hchanged
    have hdue : ∀ κ ∈ s.unsaved ++ w.changed, w.marks.has κ := fun κ hκ =>
      (List.mem_append.mp hκ).elim (hunsaved κ) (hchanged.1 κ)
    have hall : (s.unsaved ++ w.changed).filter (fun κ => !w.marks.has κ) = [] := by
      rw [List.filter_eq_nil_iff]
      intro κ hκ
      simp [hdue κ hκ]
    have hload : (SettingsFile.json (.object (mergedSettings w.snapshotSettings w.marks current))).load =
        some (migrateSettings (mergedSettings w.snapshotSettings w.marks current)) := rfl
    have hheld' : ∀ κ, w.marks.has κ → κ ∈ s.unsaved ++ w.changed ∨ current.Holds κ (w.snapshotSettings.read κ) := by
      intro κ hκ
      refine (hheld.1 κ hκ).imp_right ?_
      rintro ⟨current', hcurrent', hholds⟩
      obtain rfl := Option.some.inj (hcurrent.symm.trans hcurrent')
      exact hholds
    rw [hall]
    refine ⟨⟨w, rest, current, _, hqueue, hcurrent, rfl, ⟨fun κ hκ => holds_merged hmarks.1 (hdue κ hκ), fun κ hκ =>
      (hfollows w rest hqueue).read_present hκ, keeps_merged hmarks.1 hheld'⟩, rfl⟩, ?_⟩
    refine ⟨.empty _, hmarks.2, hchanged.2, fun κ hκ => absurd hκ List.not_mem_nil, fun κ hκ => ?_, fun w' ws hq => ?_,
      ?_, fun he => ?_⟩
    · exact absurd hκ (by simp [Marks.not_has_empty])
    · dsimp only at hq
      subst hq
      exact (hfollows w _ hqueue).2
    · refine hheld.2.written hmarks.2 (hfollows w rest hqueue) (fun _ _ => rfl) (fun κ hκ => .inr (hdue κ hκ)) ?_ ?_
      · intro κ hκ
        exact ⟨_, hload, (holds_merged hmarks.1 hκ).migrate (hmarks.1.takes κ hκ)⟩
      · rintro κ value hκ hvalue ⟨current', hcurrent', hholds⟩
        obtain rfl := Option.some.inj (hcurrent.symm.trans hcurrent')
        exact ⟨_, hload, (holds_merged_of_not_has hmarks.1 hκ hholds).migrate hvalue⟩
    · cases hloadError he

theorem step {a : SettingsAction} (hs : Consistent s) (hother : OtherFields s a) (hkeeps : KeepsMarks s a)
    (h : s.step a = some s') : Consistent s' := by
  cases a with
  | set changes => exact hs.set h
  | written => exact (hs.written h).2
  | failed => exact hs.failed hkeeps h
  | reload readable => exact hs.reload hkeeps h
  | changed file =>
    cases h
    exact hs.changed_file hother

end Consistent

/-- Every write that succeeds leaves in the file what was set and not saved until it was queued, and all other fields
as they were, in every run that reloads when all is saved and in which no write fails with a key that is marked in no
further write. -/
theorem written_saves (file : SettingsFile) (readable : Bool) (s s' : SettingsState)
    (hs : Reaches SettingsState.step (fun s a => OtherFields s a ∧ KeepsMarks s a) (init file readable) s)
    (h : s.step .written = some s') : Saved s s' :=
  (Consistent.written (hs.invariant (Consistent.init file readable) fun _ _ _ hs ha h => hs.step ha.1 ha.2 h) h).1

/-- The change of `setQuietStartup`, `setHideThinkingBlock` and `setCollapseChangelog`. -/
def setFlag (field : JsString) (h : field ∈ wholeFields) (enabled : Bool) : Change where
  key := .whole field h
  value := some (.bool enabled)
  takes := ⟨fun _ => by simp, fun _ members => by simp⟩

def setQuietStartup : Bool → Change := setFlag (JsString.ofAscii "quietStartup") (by decide)

def setHideThinkingBlock : Bool → Change := setFlag (JsString.ofAscii "hideThinkingBlock") (by decide)

def setCollapseChangelog : Bool → Change := setFlag (JsString.ofAscii "collapseChangelog") (by decide)

/-- The first write fails, and the second one saves both settings. -/
theorem written_saves_failed : ∃ s s', s.unsaved = [(setQuietStartup true).key] ∧
    s.step .written = some s' ∧ Saved s s' := by
  have h0 : Reaches SettingsState.step (fun s a => OtherFields s a ∧ KeepsMarks s a) (init .missing true)
    (init .missing true) := .init
  have h1 := h0.step (a := SettingsAction.set [setQuietStartup true]) ⟨trivial, trivial⟩ rfl
  have h2 := h1.step (a := SettingsAction.set [setHideThinkingBlock true]) ⟨trivial, trivial⟩ rfl
  have h3 := h2.step (a := SettingsAction.failed) ⟨trivial, by
    rintro w rest hq κ hκ
    cases hq
    change κ ∈ [(setQuietStartup true).key] at hκ
    rw [List.mem_singleton.mp hκ]
    rfl⟩ rfl
  exact ⟨_, _, rfl, rfl, written_saves .missing true _ _ h3 rfl⟩

/-- Two settings are set, the first write succeeds, the second one fails: the next write does not save what it was to. -/
theorem written_loses_failed : ¬ ∀ file readable s s', Reaches SettingsState.step OtherFields (init file readable) s →
    s.step .written = some s' → Saved s s' := by
  intro hall
  have h0 : Reaches SettingsState.step OtherFields (init .missing true) (init .missing true) := .init
  have h1 := h0.step (a := SettingsAction.set [setQuietStartup true]) trivial rfl
  have h2 := h1.step (a := SettingsAction.set [setHideThinkingBlock true]) trivial rfl
  have h3 := h2.step (a := SettingsAction.written) trivial rfl
  have h4 := h3.step (a := SettingsAction.failed) trivial rfl
  have h5 := h4.step (a := SettingsAction.set [setCollapseChangelog true]) trivial rfl
  obtain ⟨w, rest, current, settings, hq, -, hfile, hsaves, -⟩ := hall .missing true _ _ h5 rfl
  have hsaved := (hsaves.saved (setHideThinkingBlock true).key (List.mem_append_left _ (by decide +kernel))).read_eq
  have hset : (w.snapshotSettings.read (setHideThinkingBlock true).key).isSome = true :=
    Option.some.inj (congrArg (fun q => (List.head? q).map fun w : Write =>
      (w.snapshotSettings.read (setHideThinkingBlock true).key).isSome) hq).symm
  have hlost : (Settings.read settings (setHideThinkingBlock true).key).isSome = false :=
    (congrArg (fun settings => (Settings.read settings (setHideThinkingBlock true).key).isSome)
      (Json.object.inj (SettingsFile.json.inj hfile))).symm
  rw [hsaved, hset] at hlost
  cases hlost

end SettingsState

end Phi.Coding
