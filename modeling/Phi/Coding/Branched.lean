import Phi.Coding.SessionTree

/-!
# Extracting a branch

`createBranchedSession` takes the label entries out of a path, chains what is left, and writes the labels that are set
behind it. A compaction that keeps entries from a label on then keeps them from the next entry on
(`get_replacement`), so the context stays the same: `createBranchedSession_preserves`.
-/

namespace Phi.Coding

open SessionManager

variable {getTime : JsString → ℚ}

/-! ## Contexts of paths -/

theorem sessionEntryToContextMessages_of_isLabel {e : SessionEntry} (h : e.isLabel = true) :
    sessionEntryToContextMessages getTime e = [] := by
  unfold SessionEntry.isLabel at h
  unfold sessionEntryToContextMessages
  cases hbody : e.body <;> simp_all

/-- What an entry does to the thinking level and the model. -/
def settingsAfter (settings : JsString × Option ModelRef) (entry : SessionEntry) : JsString × Option ModelRef :=
  match entry.body with
  | .thinkingLevelChange thinkingLevel => (thinkingLevel, settings.2)
  | .modelChange provider modelId => (settings.1, some ⟨some (.string provider), some (.string modelId)⟩)
  | .message message =>
    if roleOf message = some .assistant then
      (settings.1, some ⟨message.get (name "provider"), message.get (name "model")⟩)
    else settings
  | _ => settings

theorem getSessionContextSettings_eq (path : List SessionEntry) :
    getSessionContextSettings path = path.foldl settingsAfter (name "off", none) := rfl

/-- An entry as it stands in the extracted session. -/
structure Kept (getTime : JsString → ℚ) (e e' : SessionEntry) : Prop where
  id : e'.id = e.id
  isLabel : e'.isLabel = false
  messages : sessionEntryToContextMessages getTime e' = sessionEntryToContextMessages getTime e
  settings : ∀ settings, settingsAfter settings e' = settingsAfter settings e
  compaction : e'.isCompaction = e.isCompaction

/-- The entries that are not labels. -/
def withoutLabels (path : List SessionEntry) : List SessionEntry := path.filter fun e => !e.isLabel

theorem withoutLabels_cons (e : SessionEntry) (path : List SessionEntry) :
    withoutLabels (e :: path) = if e.isLabel then withoutLabels path else e :: withoutLabels path := by
  rw [withoutLabels, List.filter_cons]
  cases e.isLabel <;> rfl

theorem withoutLabels_append (a b : List SessionEntry) : withoutLabels (a ++ b) = withoutLabels a ++ withoutLabels b :=
  List.filter_append a b

theorem contextMessages_cons (e : SessionEntry) (path : List SessionEntry) :
    contextMessages getTime (e :: path) = sessionEntryToContextMessages getTime e ++ contextMessages getTime path := rfl

theorem contextMessages_append (a b : List SessionEntry) :
    contextMessages getTime (a ++ b) = contextMessages getTime a ++ contextMessages getTime b := List.flatMap_append

theorem contextMessages_withoutLabels (path : List SessionEntry) :
    contextMessages getTime (withoutLabels path) = contextMessages getTime path := by
  induction path with
  | nil => rfl
  | cons e path ih =>
    rw [withoutLabels_cons, contextMessages_cons]
    split_ifs with hlabel
    · rw [sessionEntryToContextMessages_of_isLabel hlabel, List.nil_append, ih]
    · rw [contextMessages_cons, ih]

theorem settingsAfter_of_isLabel {e : SessionEntry} (h : e.isLabel = true) (settings : JsString × Option ModelRef) :
    settingsAfter settings e = settings := by
  unfold SessionEntry.isLabel at h
  unfold settingsAfter
  cases hbody : e.body <;> simp_all

theorem foldl_settings_withoutLabels (path : List SessionEntry) (settings : JsString × Option ModelRef) :
    (withoutLabels path).foldl settingsAfter settings = path.foldl settingsAfter settings := by
  induction path generalizing settings with
  | nil => rfl
  | cons e path ih =>
    rw [withoutLabels_cons, List.foldl_cons]
    split_ifs with hlabel
    · rw [settingsAfter_of_isLabel hlabel, ih]
    · rw [List.foldl_cons, ih]

section
variable {xs ys : List SessionEntry}

theorem ids_kept (h : List.Forall₂ (Kept getTime) xs ys) : ids ys = ids xs := by
  induction h with
  | nil => rfl
  | cons hkept _ ih =>
    simp only [ids, List.map_cons] at ih ⊢
    rw [hkept.id, ih]

theorem contextMessages_kept (h : List.Forall₂ (Kept getTime) xs ys) :
    contextMessages getTime ys = contextMessages getTime xs := by
  induction h with
  | nil => rfl
  | cons hkept _ ih =>
    simp only [contextMessages, List.flatMap_cons] at ih ⊢
    rw [hkept.messages, ih]

theorem foldl_settings_kept (h : List.Forall₂ (Kept getTime) xs ys) (settings : JsString × Option ModelRef) :
    ys.foldl settingsAfter settings = xs.foldl settingsAfter settings := by
  induction h generalizing settings with
  | nil => rfl
  | cons hkept _ ih => rw [List.foldl_cons, List.foldl_cons, hkept.settings, ih]

theorem isCompaction_kept (h : List.Forall₂ (Kept getTime) xs ys) (hxs : ∀ e ∈ xs, e.isCompaction = false) :
    ∀ e ∈ ys, e.isCompaction = false := by
  induction h with
  | nil => simp
  | cons hkept _ ih =>
    rw [List.forall_mem_cons] at hxs ⊢
    exact ⟨hkept.compaction.trans hxs.1, ih hxs.2⟩

theorem labelsAfter_of_not_isLabel {e : SessionEntry} (h : e.isLabel = false) (labels : Table JsString JsString) :
    labelsAfter labels e = labels := by
  unfold SessionEntry.isLabel at h
  unfold labelsAfter
  cases hbody : e.body <;> simp_all

theorem foldl_labelsAfter_kept (h : List.Forall₂ (Kept getTime) xs ys) (labels : Table JsString JsString) :
    ys.foldl labelsAfter labels = labels := by
  induction h with
  | nil => rfl
  | cons hkept _ ih => rw [List.foldl_cons, labelsAfter_of_not_isLabel hkept.isLabel, ih]

theorem dropWhile_kept (h : List.Forall₂ (Kept getTime) xs ys) (id : JsString) :
    List.Forall₂ (Kept getTime) (xs.dropWhile fun e => e.id ≠ id) (ys.dropWhile fun e => e.id ≠ id) := by
  induction h with
  | nil => exact .nil
  | @cons e e' xs ys hkept hrest ih =>
    rw [List.dropWhile_cons, List.dropWhile_cons, hkept.id]
    split_ifs
    · exact ih
    · exact .cons hkept hrest

end

/-! ## The latest compaction -/

theorem latestCompaction_concat (path : List SessionEntry) (e : SessionEntry) :
    latestCompaction (path ++ [e]) = (e.compaction?.map fun compaction => (e, compaction)).or (latestCompaction path) := by
  simp [latestCompaction]

theorem latestCompaction_append {path after : List SessionEntry} (h : ∀ e ∈ after, e.isCompaction = false) :
    latestCompaction (path ++ after) = latestCompaction path := by
  induction after using List.reverseRecOn with
  | nil => simp
  | append_singleton after e ih =>
    have hnone : e.compaction? = none := by
      have := h e (by simp)
      rwa [SessionEntry.isCompaction, Option.isSome_eq_false_iff, Option.isNone_iff_eq_none] at this
    rw [← List.append_assoc, latestCompaction_concat, hnone, Option.map_none, Option.none_or,
      ih fun x hx => h x (by simp [hx])]

/-- A path with its latest compaction. -/
theorem latestCompaction_split {before after : List SessionEntry} {e : SessionEntry} {compaction : Compaction}
    (he : e.compaction? = some compaction) (h : ∀ x ∈ after, x.isCompaction = false) :
    latestCompaction (before ++ e :: after) = some (e, compaction) := by
  have happend : before ++ e :: after = before ++ [e] ++ after := by simp
  rw [happend, latestCompaction_append h, latestCompaction_concat, he]
  rfl

/-- Without a compaction all of the path is the context; with one, the path is split at the latest. -/
theorem exists_latest (path : List SessionEntry) :
    (∀ e ∈ path, e.isCompaction = false) ∨
      ∃ before e after compaction, path = before ++ e :: after ∧ e.compaction? = some compaction ∧
        ∀ x ∈ after, x.isCompaction = false := by
  induction path using List.reverseRecOn with
  | nil => exact .inl (by simp)
  | append_singleton path e ih =>
    cases he : e.compaction? with
    | some compaction => exact .inr ⟨path, e, [], compaction, rfl, he, by simp⟩
    | none =>
      have hnot : e.isCompaction = false := by rw [SessionEntry.isCompaction, he]; rfl
      rcases ih with hall | ⟨before, c, after, compaction, rfl, hc, hafter⟩
      · refine .inl fun x hx => ?_
        rcases List.mem_append.mp hx with hx | hx
        · exact hall x hx
        · rw [List.mem_singleton.mp hx]
          exact hnot
      · refine .inr ⟨before, c, after ++ [e], compaction, by simp, hc, fun x hx => ?_⟩
        rcases List.mem_append.mp hx with hx | hx
        · exact hafter x hx
        · rw [List.mem_singleton.mp hx]
          exact hnot

theorem contextEntries_of_none {path : List SessionEntry} (h : ∀ e ∈ path, e.isCompaction = false) :
    contextEntries path = path := by
  have hnone : latestCompaction path = none := by
    have happend : latestCompaction ([] ++ path) = latestCompaction [] := latestCompaction_append h
    rwa [List.nil_append] at happend
  rw [contextEntries, hnone]

theorem contextEntries_split {before after : List SessionEntry} {e : SessionEntry} {compaction : Compaction}
    (hnodup : (ids (before ++ e :: after)).Nodup) (he : e.compaction? = some compaction)
    (h : ∀ x ∈ after, x.isCompaction = false) :
    contextEntries (before ++ e :: after)
      = e :: (before.dropWhile fun x => x.id ≠ compaction.firstKeptEntryId) ++ after := by
  have hidx : (before ++ e :: after).findIdx (fun x => x.id = e.id) = before.length := by
    rw [List.findIdx_append, List.findIdx_cons]
    have hbefore : ¬before.findIdx (fun x => x.id = e.id) < before.length := by
      rw [List.findIdx_lt_length]
      rintro ⟨x, hx, heq⟩
      rw [ids, List.map_append, List.nodup_append] at hnodup
      exact hnodup.2.2 x.id (List.mem_map_of_mem hx) e.id (by simp) (by simpa using heq)
    rw [if_neg hbefore]
    simp
  rw [contextEntries, latestCompaction_split he h]
  simp only [hidx, List.take_left]
  rw [← List.drop_drop, List.drop_left]
  rfl

/-! ## The loop over the path -/

namespace SessionManager.Rechain

/-- The entry that stays. -/
def keep (r : Rechain) (entry : SessionEntry) : SessionEntry :=
  { entry with
    parentId := r.pathParentId
    body :=
      match entry.body with
      | .compaction compaction =>
        .compaction { compaction with
          firstKeptEntryId :=
            ((r.pendingLabelIds.foldl (fun replacement labelId => replacement.set labelId entry.id)
              r.replacementByLabelId).get compaction.firstKeptEntryId).getD compaction.firstKeptEntryId }
      | body => body }

theorem step_of_isLabel {r : Rechain} {e : SessionEntry} (h : e.isLabel = true) :
    r.step e = { r with pendingLabelIds := r.pendingLabelIds ++ [e.id] } := if_pos h

theorem step_of_not_isLabel {r : Rechain} {e : SessionEntry} (h : e.isLabel = false) :
    r.step e =
      { pathWithoutLabels := r.pathWithoutLabels ++ [r.keep e]
        replacementByLabelId :=
          r.pendingLabelIds.foldl (fun replacement labelId => replacement.set labelId e.id) r.replacementByLabelId
        pendingLabelIds := []
        pathParentId := some e.id } := by
  rw [step, if_neg (by simp [h])]
  rfl

theorem kept_keep {r : Rechain} {e : SessionEntry} (h : e.isLabel = false) : Kept getTime e (r.keep e) := by
  unfold SessionEntry.isLabel at h
  cases hbody : e.body with
  | label targetId label =>
    rw [hbody] at h
    cases h
  | _ =>
    refine ⟨rfl, ?_, ?_, fun settings => ?_, ?_⟩
    all_goals simp [keep, SessionEntry.isLabel, sessionEntryToContextMessages, settingsAfter,
      SessionEntry.isCompaction, SessionEntry.compaction?, hbody]

/-- The loop only adds to the entries that stay. -/
theorem foldl_step_pathWithoutLabels (r : Rechain) (path : List SessionEntry) :
    ∃ stays, (path.foldl step r).pathWithoutLabels = r.pathWithoutLabels ++ stays ∧
      List.Forall₂ (Kept getTime) (withoutLabels path) stays := by
  induction path generalizing r with
  | nil => exact ⟨[], by simp, .nil⟩
  | cons e path ih =>
    obtain ⟨stays, heq, hstays⟩ := ih (r.step e)
    rw [List.foldl_cons, withoutLabels_cons]
    split_ifs with hlabel
    · refine ⟨stays, ?_, hstays⟩
      rw [heq, step_of_isLabel hlabel]
    · have hnot : e.isLabel = false := by simpa using hlabel
      refine ⟨r.keep e :: stays, ?_, .cons (kept_keep hnot) hstays⟩
      rw [heq, step_of_not_isLabel hnot]
      simp

/-- The entries that stay are a chain, and the next is to go below the last. -/
theorem foldl_step_chain {r : Rechain} (hchain : IsChain none r.pathWithoutLabels)
    (hparent : r.pathParentId = r.pathWithoutLabels.getLast?.map SessionEntry.id) (path : List SessionEntry) :
    IsChain none (path.foldl step r).pathWithoutLabels := by
  induction path generalizing r with
  | nil => exact hchain
  | cons e path ih =>
    rw [List.foldl_cons]
    cases hlabel : e.isLabel with
    | true =>
      rw [step_of_isLabel hlabel]
      exact ih hchain hparent
    | false =>
      rw [step_of_not_isLabel hlabel]
      refine ih ((isChain_append none _ _).mpr ⟨hchain, ?_, trivial⟩) (by simp [keep])
      rw [Option.or_none, ← hparent]
      rfl

end SessionManager.Rechain

/-- What replaces an id as the first that is kept: for a label in front of `next`, the entry after it. -/
def replacementIn (path : List SessionEntry) (next id : JsString) : Option JsString :=
  match path.dropWhile fun e => e.id ≠ id with
  | [] => none
  | e :: after => if e.isLabel then some (((withoutLabels after).head?.map SessionEntry.id).getD next) else none

/-- The entries from an id on. -/
theorem dropWhile_eq_cons {path after : List SessionEntry} {e : SessionEntry} {id : JsString}
    (h : (path.dropWhile fun x => x.id ≠ id) = e :: after) :
    ∃ before, path = before ++ e :: after ∧ (∀ x ∈ before, x.id ≠ id) ∧ e.id = id := by
  refine ⟨path.takeWhile fun x => x.id ≠ id, ?_, fun x hx => ?_, ?_⟩
  · rw [← h, List.takeWhile_append_dropWhile]
  · simpa using List.mem_takeWhile_imp hx
  · have hhead := List.head?_dropWhile_not (fun x : SessionEntry => decide (x.id ≠ id)) path
    rw [h] at hhead
    simpa using hhead

theorem rechain_concat (path : List SessionEntry) (e : SessionEntry) : rechain (path ++ [e]) = (rechain path).step e := by
  simp [rechain]

/-- An entry behind the path changes what replaces an id only if the id is its own, or a label waits for it. -/
theorem replacementIn_concat {path : List SessionEntry} {e : SessionEntry} (hnodup : (ids (path ++ [e])).Nodup)
    (next id : JsString) :
    replacementIn (path ++ [e]) next id
      = if e.isLabel then (if e.id = id then some next else replacementIn path next id)
        else replacementIn path e.id id := by
  rw [replacementIn, replacementIn, replacementIn, List.dropWhile_append]
  cases hdrop : path.dropWhile fun x => x.id ≠ id with
  | nil =>
    -- The id is not on the path: it may be the entry's.
    by_cases hid : e.id = id
    · cases hlabel : e.isLabel <;> simp [hid, hlabel, withoutLabels]
    · simp [hid]
  | cons x after =>
    obtain ⟨before, rfl, -, hx⟩ := dropWhile_eq_cons hdrop
    have hne : e.id ≠ id := by
      rw [ids, List.map_append, List.nodup_append] at hnodup
      rintro rfl
      exact hnodup.2.2 x.id (by simp) e.id (by simp) hx
    rw [if_neg hne]
    simp only [List.isEmpty_cons, Bool.false_eq_true, if_false, List.cons_append, withoutLabels_append]
    cases hlabel : e.isLabel with
    | true => simp [hlabel, withoutLabels]
    | false =>
      simp only [withoutLabels_cons, hlabel, Bool.false_eq_true, if_false, List.head?_append]
      cases (withoutLabels after).head? <;> simp

theorem get_replacement {path : List SessionEntry} (hnodup : (ids path).Nodup) (next id : JsString) :
    ((rechain path).pendingLabelIds.foldl (fun replacement labelId => replacement.set labelId next)
      (rechain path).replacementByLabelId).get id = replacementIn path next id := by
  induction path using List.reverseRecOn generalizing next with
  | nil => rfl
  | append_singleton path e ih =>
    have hpath : (ids path).Nodup := by
      rw [ids, List.map_append, List.nodup_append] at hnodup
      exact hnodup.1
    rw [rechain_concat, replacementIn_concat hnodup]
    cases hlabel : e.isLabel with
    | true =>
      rw [Rechain.step_of_isLabel hlabel, List.foldl_append, List.foldl_cons, List.foldl_nil, Table.get_set, ih hpath]
      rfl
    | false =>
      rw [Rechain.step_of_not_isLabel hlabel, List.foldl_nil, ih hpath]
      rfl

theorem dropWhile_of_forall {path : List SessionEntry} {id : JsString} (h : ∀ x ∈ path, x.id ≠ id) :
    (path.dropWhile fun x => x.id ≠ id) = [] := by
  rw [List.dropWhile_eq_nil_iff]
  intro x hx
  simpa using h x hx

theorem dropWhile_append_cons {before after : List SessionEntry} {e : SessionEntry} {id : JsString}
    (h : ∀ x ∈ before, x.id ≠ id) (he : e.id = id) :
    ((before ++ e :: after).dropWhile fun x => x.id ≠ id) = e :: after := by
  rw [List.dropWhile_append, dropWhile_of_forall h]
  simp [he]

theorem mem_withoutLabels {path : List SessionEntry} {e : SessionEntry} (h : e ∈ withoutLabels path) : e ∈ path :=
  List.mem_of_mem_filter h

/-- The messages that a compaction keeps, when the labels are gone. -/
theorem contextMessages_dropWhile {path : List SessionEntry} {next : JsString} (hnodup : (ids path).Nodup)
    (hnext : next ∉ ids path) (id : JsString) :
    contextMessages getTime ((withoutLabels path).dropWhile fun e => e.id ≠ (replacementIn path next id).getD id)
      = contextMessages getTime (path.dropWhile fun e => e.id ≠ id) := by
  cases hdrop : path.dropWhile fun e => e.id ≠ id with
  | nil =>
    have hnone : replacementIn path next id = none := by rw [replacementIn, hdrop]
    have hall : ∀ x ∈ path, x.id ≠ id := by
      intro x hx
      simpa using (List.dropWhile_eq_nil_iff.mp hdrop) x hx
    rw [hnone, Option.getD_none, dropWhile_of_forall fun x hx => hall x (mem_withoutLabels hx)]
  | cons e after =>
    obtain ⟨before, rfl, hbefore, rfl⟩ := dropWhile_eq_cons hdrop
    rw [withoutLabels_append, withoutLabels_cons, contextMessages_cons]
    cases hlabel : e.isLabel with
    | false =>
      have hnone : replacementIn (before ++ e :: after) next e.id = none := by
        rw [replacementIn, hdrop]
        simp [hlabel]
      rw [hnone, Option.getD_none, if_neg (by simp),
        dropWhile_append_cons (fun x hx => hbefore x (mem_withoutLabels hx)) rfl, contextMessages_cons,
        contextMessages_withoutLabels]
    | true =>
      rw [if_pos rfl, sessionEntryToContextMessages_of_isLabel hlabel, List.nil_append,
        ← contextMessages_withoutLabels after]
      cases hafter : withoutLabels after with
      | nil =>
        -- Only labels are between this one and the compaction.
        have hnew : replacementIn (before ++ e :: after) next e.id = some next := by
          rw [replacementIn, hdrop]
          simp [hlabel, hafter]
        rw [hnew, Option.getD_some, List.append_nil, dropWhile_of_forall]
        intro x hx heq
        exact hnext (List.mem_map.mpr ⟨x, by simp [mem_withoutLabels hx], heq⟩)
      | cons y rest =>
        have hnew : replacementIn (before ++ e :: after) next e.id = some y.id := by
          rw [replacementIn, hdrop]
          simp [hlabel, hafter]
        have hy : y ∈ after := mem_withoutLabels (by rw [hafter]; exact List.mem_cons_self ..)
        rw [hnew, Option.getD_some, dropWhile_append_cons _ rfl]
        intro x hx heq
        rw [ids, List.map_append, List.nodup_append] at hnodup
        exact hnodup.2.2 x.id (List.mem_map_of_mem (mem_withoutLabels hx)) y.id (by simp [List.mem_map_of_mem hy]) heq

theorem keep_compaction {r : Rechain} {e : SessionEntry} {compaction : Compaction} (h : e.compaction? = some compaction) :
    (r.keep e).compaction? = some { compaction with
      firstKeptEntryId := ((r.pendingLabelIds.foldl (fun replacement labelId => replacement.set labelId e.id)
        r.replacementByLabelId).get compaction.firstKeptEntryId).getD compaction.firstKeptEntryId } := by
  unfold SessionEntry.compaction? at h
  cases hbody : e.body <;> simp_all [Rechain.keep, SessionEntry.compaction?]

theorem isLabel_of_compaction {e : SessionEntry} {compaction : Compaction} (h : e.compaction? = some compaction) :
    e.isLabel = false := by
  unfold SessionEntry.compaction? at h
  unfold SessionEntry.isLabel
  cases hbody : e.body <;> simp_all

theorem isCompaction_of_isLabel {e : SessionEntry} (h : e.isLabel = true) : e.isCompaction = false := by
  unfold SessionEntry.isLabel at h
  unfold SessionEntry.isCompaction SessionEntry.compaction?
  cases hbody : e.body <;> simp_all

theorem rechain_kept (getTime : JsString → ℚ) (path : List SessionEntry) :
    List.Forall₂ (Kept getTime) (withoutLabels path) (rechain path).pathWithoutLabels := by
  obtain ⟨stays, heq, hstays⟩ := Rechain.foldl_step_pathWithoutLabels {} path
  rw [rechain, heq]
  exact hstays

theorem withoutLabels_of_forall {labels : List SessionEntry} (h : ∀ e ∈ labels, e.isLabel = true) :
    withoutLabels labels = [] := by
  rw [withoutLabels, List.filter_eq_nil_iff]
  intro e he
  simp [h e he]

theorem contextMessages_labels {labels : List SessionEntry} (h : ∀ e ∈ labels, e.isLabel = true) :
    contextMessages getTime labels = [] := by
  rw [← contextMessages_withoutLabels, withoutLabels_of_forall h]
  rfl

/-- The messages of the extracted session. -/
theorem contextMessages_rechain {path labels : List SessionEntry} (hpath : (ids path).Nodup)
    (hlabels : ∀ e ∈ labels, e.isLabel = true) (hnodup : (ids ((rechain path).pathWithoutLabels ++ labels)).Nodup) :
    contextMessages getTime (contextEntries ((rechain path).pathWithoutLabels ++ labels))
      = contextMessages getTime (contextEntries path) := by
  rcases exists_latest path with hnone | ⟨before, e, after, compaction, rfl, he, hafter⟩
  · have hstays : ∀ x ∈ (rechain path).pathWithoutLabels ++ labels, x.isCompaction = false := by
      intro x hx
      rcases List.mem_append.mp hx with hx | hx
      · exact isCompaction_kept (rechain_kept getTime path) (fun y hy => hnone y (mem_withoutLabels hy)) x hx
      · exact isCompaction_of_isLabel (hlabels x hx)
    rw [contextEntries_of_none hnone, contextEntries_of_none hstays, contextMessages_append,
      contextMessages_labels hlabels, List.append_nil, contextMessages_kept (rechain_kept getTime path),
      contextMessages_withoutLabels]
  · have hlabel := isLabel_of_compaction he
    obtain ⟨stays, hsplit, hstays⟩ : ∃ stays, (rechain (before ++ e :: after)).pathWithoutLabels
        = (rechain before).pathWithoutLabels ++ (rechain before).keep e :: stays ∧
        List.Forall₂ (Kept getTime) (withoutLabels after) stays := by
      obtain ⟨stays, heq, hstays⟩ := Rechain.foldl_step_pathWithoutLabels ((rechain before).step e) after
      refine ⟨stays, ?_, hstays⟩
      rw [rechain, List.foldl_append, List.foldl_cons]
      refine heq.trans ?_
      rw [Rechain.step_of_not_isLabel hlabel, List.append_assoc]
      rfl
    have hnew : ∀ x ∈ stays ++ labels, x.isCompaction = false := by
      intro x hx
      rcases List.mem_append.mp hx with hx | hx
      · exact isCompaction_kept hstays (fun y hy => hafter y (mem_withoutLabels hy)) x hx
      · exact isCompaction_of_isLabel (hlabels x hx)
    have hbefore : (ids before).Nodup ∧ e.id ∉ ids before := by
      rw [ids, List.map_append, List.nodup_append] at hpath
      exact ⟨hpath.1, fun hmem => hpath.2.2 e.id hmem e.id (by simp) rfl⟩
    have hkept := contextMessages_kept (dropWhile_kept (rechain_kept getTime before)
      ((replacementIn before e.id compaction.firstKeptEntryId).getD compaction.firstKeptEntryId))
    rw [hsplit, List.append_assoc, List.cons_append] at hnodup ⊢
    rw [contextEntries_split hpath he hafter, contextEntries_split hnodup (keep_compaction he) hnew]
    simp only [get_replacement hbefore.1, contextMessages_append, contextMessages_cons]
    rw [contextMessages_labels hlabels, List.append_nil, contextMessages_kept hstays, contextMessages_withoutLabels,
      (Rechain.kept_keep hlabel).messages, hkept, contextMessages_dropWhile hbefore.1 hbefore.2]

theorem contextOfPath_rechain {path labels : List SessionEntry} (hpath : (ids path).Nodup)
    (hlabels : ∀ e ∈ labels, e.isLabel = true) (hnodup : (ids ((rechain path).pathWithoutLabels ++ labels)).Nodup) :
    contextOfPath getTime ((rechain path).pathWithoutLabels ++ labels) = contextOfPath getTime path := by
  have hsettings : getSessionContextSettings ((rechain path).pathWithoutLabels ++ labels)
      = getSessionContextSettings path := by
    rw [getSessionContextSettings_eq, getSessionContextSettings_eq, List.foldl_append,
      foldl_settings_kept (rechain_kept getTime path), foldl_settings_withoutLabels,
      ← foldl_settings_withoutLabels labels, withoutLabels_of_forall hlabels]
    rfl
  rw [contextOfPath, contextOfPath, contextMessages_rechain hpath hlabels hnodup, hsettings]

/-! ## The labels -/

/-- The UUIDs for so many labels: each has 36 characters, and a whole one is not an id that is there already. -/
structure FreshUUIDs (randomUUID : ℕ → ℕ → JsString) (used : List JsString) (count : ℕ) : Prop where
  length : ∀ n i, (randomUUID n i).length = 36
  distinct : ∀ n < count, ∀ k < count, randomUUID n 100 = randomUUID k 100 → n = k
  unused : ∀ n < count, randomUUID n 100 ∉ used

theorem generateId_eq (has : JsString → Bool) (randomUUID : ℕ → JsString) :
    (∃ i, generateId has randomUUID = (randomUUID i).take 8 ∧ has (generateId has randomUUID) = false) ∨
      generateId has randomUUID = randomUUID 100 := by
  rw [generateId]
  cases hfind : ((List.range 100).map fun i => (randomUUID i).take 8).find? fun id => !has id with
  | none => exact .inr rfl
  | some id =>
    obtain ⟨i, -, hi⟩ := List.mem_map.mp (List.mem_of_find?_eq_some hfind)
    have hnot := List.find?_some hfind
    exact .inl ⟨i, hi.symm, by simpa using hnot⟩

section
variable {randomUUID : ℕ → ℕ → JsString} {timestamps : Table JsString JsString}

theorem isLabel_labelEntries (n : ℕ) (used : List JsString) (parentId : Option JsString)
    (labels : List (JsString × JsString)) :
    ∀ e ∈ labelEntries randomUUID timestamps n used parentId labels, e.isLabel = true := by
  induction labels generalizing n used parentId with
  | nil => simp [labelEntries]
  | cons label labels ih =>
    rw [labelEntries, List.forall_mem_cons]
    exact ⟨rfl, ih _ _ _⟩

theorem isChain_labelEntries (n : ℕ) (used : List JsString) (parentId : Option JsString)
    (labels : List (JsString × JsString)) :
    IsChain parentId (labelEntries randomUUID timestamps n used parentId labels) := by
  induction labels generalizing n used parentId with
  | nil => trivial
  | cons label labels ih => exact ⟨rfl, ih _ _ _⟩

/-- The ids of the labels are new, and not empty. -/
theorem ids_labelEntries (timestamps : Table JsString JsString) {count : ℕ}
    (hlength : ∀ n i, (randomUUID n i).length = 36)
    (hdistinct : ∀ n < count, ∀ k < count, randomUUID n 100 = randomUUID k 100 → n = k) {n : ℕ} {used : List JsString}
    (hunused : ∀ k ≥ n, k < count → randomUUID k 100 ∉ used) (parentId : Option JsString)
    {labels : List (JsString × JsString)} (hcount : n + labels.length ≤ count) :
    (ids (labelEntries randomUUID timestamps n used parentId labels)).Nodup ∧
      ∀ id ∈ ids (labelEntries randomUUID timestamps n used parentId labels), id ∉ used ∧ id ≠ [] := by
  induction labels generalizing n used parentId with
  | nil => simp [labelEntries, ids]
  | cons label labels ih =>
    rw [List.length_cons] at hcount
    rw [labelEntries]
    set id := generateId (fun id => decide (id ∈ used)) (randomUUID n) with hid
    -- The id is a front part, or the whole UUID that is kept for this label.
    have hnew : id ∉ used ∧ id ≠ [] ∧ ∀ k ≥ n + 1, k < count → randomUUID k 100 ≠ id := by
      rcases generateId_eq (fun id => decide (id ∈ used)) (randomUUID n) with ⟨i, heq, hnot⟩ | heq
      · have hlen : id.length = 8 := by rw [hid, heq, List.length_take, hlength]; rfl
        refine ⟨by simpa using hnot, ?_, fun k _ _ hk => ?_⟩
        · rintro hnil
          rw [hnil] at hlen
          cases hlen
        · rw [← hk, hlength] at hlen
          omega
      · have hlen : id.length = 36 := by rw [hid, heq, hlength]
        refine ⟨by rw [hid, heq]; exact hunused n le_rfl (by omega), ?_, fun k hk hlt hkid => ?_⟩
        · rintro hnil
          rw [hnil] at hlen
          cases hlen
        · rw [hid, heq] at hkid
          have := hdistinct k hlt n (by omega) hkid
          omega
    have hunused' : ∀ k ≥ n + 1, k < count → randomUUID k 100 ∉ used ++ [id] := by
      intro k hk hlt hmem
      rcases List.mem_append.mp hmem with hmem | hmem
      · exact hunused k (by omega) hlt hmem
      · exact hnew.2.2 k hk hlt (List.mem_singleton.mp hmem)
    obtain ⟨hnodup, hall⟩ := ih hunused' (some id) (by omega)
    refine ⟨List.nodup_cons.mpr ⟨fun hmem => (hall id hmem).1 (by simp), hnodup⟩, fun x hx => ?_⟩
    rcases List.mem_cons.mp hx with rfl | hx
    · exact ⟨hnew.1, hnew.2.1⟩
    · exact ⟨fun hmem => (hall x hx).1 (by simp [hmem]), (hall x hx).2⟩

/-- The labels are set again. -/
theorem foldl_labelEntries (n : ℕ) (used : List JsString) (parentId : Option JsString)
    {labels : List (JsString × JsString)} (h : ∀ label ∈ labels, label.2 ≠ []) (acc : Table JsString JsString) :
    (labelEntries randomUUID timestamps n used parentId labels).foldl labelsAfter acc
      = labels.foldl (fun t label => t.set label.1 label.2) acc := by
  induction labels generalizing n used parentId acc with
  | nil => rfl
  | cons label labels ih =>
    rw [List.forall_mem_cons] at h
    have htruthy : truthy (some label.2) = some label.2 := by simp [truthy, h.1]
    rw [labelEntries, List.foldl_cons, List.foldl_cons]
    simp only [labelsAfter, htruthy]
    exact ih _ _ _ h.2 _

end

theorem get_foldl_set {labels acc : Table JsString JsString} (hnodup : labels.Nodup) (id : JsString) :
    (labels.foldl (fun t label => t.set label.1 label.2) acc).get id = (labels.get id).or (acc.get id) := by
  induction labels generalizing acc with
  | nil => rfl
  | cons label labels ih =>
    rw [Table.Nodup, Table.keys_cons, List.nodup_cons] at hnodup
    rw [List.foldl_cons, ih hnodup.2, Table.get_cons, Table.get_set]
    split_ifs with hid
    · have hnone : Table.get labels id = none := Table.get_eq_none_iff.mpr (hid ▸ hnodup.1)
      rw [hnone]
      rfl
    · rfl

theorem get_filter {labels : Table JsString JsString} {used : List JsString} {id : JsString} (h : id ∈ used) :
    Table.get (labels.filter fun label => label.1 ∈ used) id = labels.get id := by
  induction labels with
  | nil => rfl
  | cons label labels ih =>
    rw [List.filter_cons, Table.get_cons]
    by_cases hlabel : label.1 ∈ used
    · simp only [hlabel, decide_true, if_true, Table.get_cons, ih]
    · have hne : label.1 ≠ id := fun heq => hlabel (heq ▸ h)
      simp only [hlabel, decide_false, Bool.false_eq_true, if_false, if_neg hne, ih]

/-! ## The new session -/

/-- The entries of the new session. -/
def extracted (m : SessionManager) (draw : SessionDraw) (leafId : JsString) : List SessionEntry :=
  let path := (rechain (m.getBranch (some leafId))).pathWithoutLabels
  path ++ labelEntries draw.randomUUID m.labelTimestampsById 0 (ids path) (truthy (path.getLast?.map SessionEntry.id))
    (m.labelsById.filter fun label => label.1 ∈ ids path)

theorem getEntries_of_fileEntries {m : SessionManager} {header : SessionHeader} {entries : List SessionEntry}
    (h : m.fileEntries = .session header :: entries.map FileEntry.entry) : m.getEntries = entries := by
  rw [getEntries, h, List.filterMap_cons]
  simp only [FileEntry.entry?, List.filterMap_map]
  exact List.filterMap_some

/-- The new session is the index of its entries. -/
theorem createBranchedSession_eq (m : SessionManager) (draw : SessionDraw) {leafId : JsString}
    (h : m.getBranch (some leafId) ≠ []) :
    ∃ m' writes, m.createBranchedSession draw leafId = .ok (m', writes) ∧ m'.getEntries = extracted m draw leafId ∧
      m'.byId = buildEntryIndex (extracted m draw leafId) ∧
      m'.leafId = (extracted m draw leafId).getLast?.map SessionEntry.id ∧
      m'.labelsById = (extracted m draw leafId).foldl labelsAfter [] := by
  have hlen : ¬(m.getBranch (some leafId)).length = 0 := fun hzero => h (List.length_eq_zero_iff.mp hzero)
  have hindex : ∀ m₀ : SessionManager, m₀.getEntries = extracted m draw leafId →
      m₀.buildIndex.getEntries = extracted m draw leafId ∧
      m₀.buildIndex.byId = buildEntryIndex (extracted m draw leafId) ∧
      m₀.buildIndex.leafId = (extracted m draw leafId).getLast?.map SessionEntry.id ∧
      m₀.buildIndex.labelsById = (extracted m draw leafId).foldl labelsAfter [] := by
    intro m₀ hentries
    rw [buildIndex_byId, buildIndex_leafId, buildIndex_labelsById, hentries]
    refine ⟨?_, rfl, rfl, rfl⟩
    rw [getEntries, m₀.buildIndex_alike.2.2.2.2.2.1]
    exact hentries
  rw [createBranchedSession, if_neg hlen]
  dsimp only
  split_ifs
  · exact ⟨_, _, rfl, hindex _ (getEntries_of_fileEntries rfl)⟩
  · exact ⟨_, _, rfl, hindex _ (getEntries_of_fileEntries rfl)⟩
  · exact ⟨_, _, rfl, hindex _ (getEntries_of_fileEntries rfl)⟩

theorem ids_rechain (path : List SessionEntry) :
    ids (rechain path).pathWithoutLabels = ids (withoutLabels path) :=
  ids_kept (rechain_kept (fun _ => 0) path)

theorem isChain_rechain (path : List SessionEntry) : IsChain none (rechain path).pathWithoutLabels :=
  Rechain.foldl_step_chain (r := {}) trivial rfl path

theorem mem_ids {path : List SessionEntry} {id : JsString} : id ∈ ids path ↔ ∃ e ∈ path, e.id = id := List.mem_map

/-- The entries of a path that stay keep their ids. -/
theorem mem_ids_rechain {path : List SessionEntry} {id : JsString} :
    id ∈ ids (rechain path).pathWithoutLabels ↔ ∃ e ∈ path, e.isLabel = false ∧ e.id = id := by
  rw [ids_rechain, mem_ids]
  simp only [withoutLabels, List.mem_filter, Bool.not_eq_true', and_assoc]

theorem truthy_of_ne {id : JsString} (h : id ≠ []) : truthy (some id) = some id := by simp [truthy, h]

/-- What the entries of the new session are like. -/
theorem extracted_spec {m : SessionManager} (hm : m.Valid) {draw : SessionDraw} {leafId : JsString}
    (hdraw : FreshUUIDs draw.randomUUID (ids (m.getBranch (some leafId))) m.labelsById.length) :
    (ids (extracted m draw leafId)).Nodup ∧ (∀ e ∈ extracted m draw leafId, e.id ≠ []) ∧
      IsChain none (extracted m draw leafId) := by
  have hsub := hm.getBranch_sublist (some leafId)
  set path := m.getBranch (some leafId)
  have hnodup : (ids (rechain path).pathWithoutLabels).Nodup := by
    rw [ids_rechain]
    exact hm.tree.nodup.sublist ((List.filter_sublist.trans hsub).map _)
  have hnonempty : ∀ e ∈ (rechain path).pathWithoutLabels, e.id ≠ [] := by
    intro e he
    obtain ⟨e', he', -, heq⟩ := mem_ids_rechain.mp (mem_ids.mpr ⟨e, he, rfl⟩)
    rw [← heq]
    exact hm.tree.nonempty e' (hsub.subset he')
  have hunused : ∀ k ≥ 0, k < m.labelsById.length → draw.randomUUID k 100 ∉ ids (rechain path).pathWithoutLabels := by
    intro k _ hlt hmem
    obtain ⟨e, he, -, heq⟩ := mem_ids_rechain.mp hmem
    exact hdraw.unused k hlt (mem_ids.mpr ⟨e, he, heq⟩)
  have hcount : 0 + (m.labelsById.filter fun label => label.1 ∈ ids (rechain path).pathWithoutLabels).length
      ≤ m.labelsById.length := by
    rw [Nat.zero_add]
    exact List.length_filter_le _ _
  obtain ⟨hlabels, hfresh⟩ := ids_labelEntries m.labelTimestampsById hdraw.length hdraw.distinct hunused
    (truthy ((rechain path).pathWithoutLabels.getLast?.map SessionEntry.id)) hcount
  refine ⟨?_, fun e he => ?_, ?_⟩
  · rw [extracted, ids, List.map_append, List.nodup_append]
    exact ⟨hnodup, hlabels, fun id hid id' hid' heq => (hfresh id' hid').1 (heq ▸ hid)⟩
  · rcases List.mem_append.mp he with he | he
    · exact hnonempty e he
    · exact (hfresh e.id (List.mem_map_of_mem he)).2
  · refine (isChain_append none _ _).mpr ⟨isChain_rechain path, ?_⟩
    have hparent : truthy ((rechain path).pathWithoutLabels.getLast?.map SessionEntry.id)
        = ((rechain path).pathWithoutLabels.getLast?.map SessionEntry.id).or none := by
      cases hlast : (rechain path).pathWithoutLabels.getLast? with
      | none => rfl
      | some last =>
        rw [Option.map_some, truthy_of_ne (hnonempty last (List.mem_of_getLast? hlast))]
        rfl
    rw [← hparent]
    exact isChain_labelEntries _ _ _ _

/-- The labels of the entries that stay. -/
theorem labels_extracted {m : SessionManager} (hm : m.Valid) (draw : SessionDraw) {leafId : JsString}
    {e : SessionEntry} (he : e ∈ m.getBranch (some leafId)) (hlabel : e.isLabel = false) :
    ((extracted m draw leafId).foldl labelsAfter []).get e.id = m.labelsById.get e.id := by
  obtain ⟨hkeys, hvalues⟩ := hm.labels
  have hpath : (rechain (m.getBranch (some leafId))).pathWithoutLabels.foldl labelsAfter [] = [] := by
    have hstays := rechain_kept (fun _ => 0) (m.getBranch (some leafId))
    exact foldl_labelsAfter_kept hstays []
  rw [extracted, List.foldl_append, hpath, foldl_labelEntries _ _ _ fun label hmem => hvalues label (List.mem_of_mem_filter hmem),
    get_foldl_set (hkeys.sublist (List.filter_sublist.map _)), get_filter (mem_ids_rechain.mpr ⟨e, he, hlabel, rfl⟩)]
  simp

/-- The path to a leaf is the branch that ends there. -/
theorem contextAt_eq (getTime : JsString → ℚ) {m : SessionManager} (hm : m.Valid) {leafId : JsString} (hleaf : m.byId.has leafId = true) :
    m.contextAt getTime (some leafId) = contextOfPath getTime (m.getBranch (some leafId)) ∧
      m.getBranch (some leafId) ≠ [] := by
  obtain ⟨leaf, hget⟩ := Option.isSome_iff_exists.mp hleaf
  have hentry := (get_indexOfEntries hm.tree.nodup).mp (hm.byId ▸ hget)
  have hne : leafId ≠ [] := hentry.2 ▸ hm.tree.nonempty leaf hentry.1
  have hstart : (truthy (some leafId)).bind m.byId.get = some leaf := by rw [truthy_of_ne hne]; exact hget
  constructor
  · rw [contextAt, Coding.buildSessionContext, buildSessionPath, getBranch]
    simp [hstart]
  · rw [getBranch, Option.some_or, hstart]
    have hpos : 0 < m.byId.length := List.length_pos_of_mem (Table.mem_of_get hget)
    obtain ⟨n, hn⟩ := Nat.exists_eq_succ_of_ne_zero hpos.ne'
    simp [hn, walk]

/-- The context of a session that is one chain, at its last entry. -/
theorem buildSessionContext_chain {m : SessionManager} (hnodup : (ids m.getEntries).Nodup)
    (hnonempty : ∀ e ∈ m.getEntries, e.id ≠ []) (hchain : IsChain none m.getEntries)
    (hbyId : m.byId = buildEntryIndex m.getEntries) (hleaf : m.leafId = m.getEntries.getLast?.map SessionEntry.id) :
    m.buildSessionContext getTime = contextOfPath getTime m.getEntries := by
  have hindex : m.byId = indexOfEntries m.getEntries := hbyId.trans (buildEntryIndex_eq hnodup)
  rw [SessionManager.buildSessionContext, contextAt, Coding.buildSessionContext, buildSessionPath, hleaf]
  cases hlast : m.getEntries.getLast? with
  | none =>
    rw [List.getLast?_eq_none_iff] at hlast
    simp [hlast]
  | some last =>
    have hmem : last ∈ m.getEntries := List.mem_of_getLast? hlast
    have hget : (truthy (some last.id)).bind m.byId.get = some last := by
      rw [truthy_of_ne (hnonempty last hmem), hindex]
      exact (get_indexOfEntries hnodup).mpr ⟨hmem, rfl⟩
    have hall : ∀ e ∈ m.getEntries, m.byId.get e.id = some e := by
      intro e he
      rw [hindex]
      exact (get_indexOfEntries hnodup).mpr ⟨he, rfl⟩
    have hlen : m.getEntries.length ≤ m.byId.length := by rw [hindex, indexOfEntries, List.length_map]
    have hwalk := walk_chain hchain hall hnonempty hlen
    rw [hlast] at hwalk
    simp [hget, hwalk]

/-- An extracted branch is the same conversation: its context is that of the leaf, its ids are unique, it is one chain
from one root, and the entries that are not labels keep their labels. -/
theorem createBranchedSession_preserves {m : SessionManager} (hm : m.Valid) {draw : SessionDraw} {leafId : JsString}
    (hleaf : m.byId.has leafId = true) (hdraw : FreshUUIDs draw.randomUUID (ids (m.getBranch (some leafId))) m.labelsById.length) :
    ∃ m' writes, m.createBranchedSession draw leafId = .ok (m', writes) ∧
      m'.buildSessionContext getTime = m.contextAt getTime (some leafId) ∧ (ids m'.getEntries).Nodup ∧
      IsChain none m'.getEntries ∧
      ∀ e ∈ m.getBranch (some leafId), e.isLabel = false → m'.getLabel e.id = m.getLabel e.id := by
  obtain ⟨hcontext, hne⟩ := contextAt_eq getTime hm hleaf
  obtain ⟨m', writes, hok, hentries, hbyId, hleafId, hlabels⟩ := createBranchedSession_eq m draw hne
  obtain ⟨hnodup, hnonempty, hchain⟩ := extracted_spec hm hdraw
  have hpath : contextOfPath getTime (extracted m draw leafId) = contextOfPath getTime (m.getBranch (some leafId)) :=
    contextOfPath_rechain (hm.tree.nodup.sublist ((hm.getBranch_sublist (some leafId)).map _))
      (isLabel_labelEntries _ _ _ _) hnodup
  refine ⟨m', writes, hok, ?_, hentries ▸ hnodup, hentries ▸ hchain, fun e he hlabel => ?_⟩
  · rw [← hentries] at hnodup hnonempty hchain hbyId hleafId
    rw [buildSessionContext_chain hnodup hnonempty hchain hbyId hleafId, hcontext, hentries, hpath]
  · rw [getLabel, hlabels]
    exact labels_extracted hm draw he hlabel

/-! ## A label on a label -/

/-- A message with a label, and a label on that label. -/
def labelledLabel : SessionManager :=
  buildIndex
    { cwd := name "/"
      sessionDir := name "/"
      persist := false
      sessionId := name "s"
      sessionFile := none
      fileEntries := .session ⟨currentSessionVersion, name "s", name "t", name "/", none⟩ ::
        [⟨name "a", none, name "t", .message [(name "role", .string (name "user"))]⟩,
          ⟨name "b", some (name "a"), name "t", .label (name "a") (some (name "x"))⟩,
          ⟨name "c", some (name "b"), name "t", .label (name "b") (some (name "y"))⟩].map FileEntry.entry
      byId := []
      labelsById := []
      labelTimestampsById := []
      leafId := none
      flushed := false }

def labelledDraw : SessionDraw := ⟨name "n", name "t", fun n _ => List.replicate 36 (UInt16.ofNat (97 + n))⟩

theorem labelledLabel_valid : labelledLabel.Valid where
  indexed := rfl
  tree := ⟨by decide, by decide, by decide, by decide⟩

theorem labelledDraw_fresh :
    FreshUUIDs labelledDraw.randomUUID (ids (labelledLabel.getBranch (some (name "c")))) labelledLabel.labelsById.length where
  length n i := List.length_replicate
  distinct := by decide
  unused := by decide

theorem createBranchedSession_preserves_labelled :
    ∃ m' writes, labelledLabel.createBranchedSession labelledDraw (name "c") = .ok (m', writes) ∧
      m'.buildSessionContext (fun _ => 0) = labelledLabel.contextAt (fun _ => 0) (some (name "c")) ∧
      (ids m'.getEntries).Nodup ∧ IsChain none m'.getEntries ∧
      ∀ e ∈ labelledLabel.getBranch (some (name "c")), e.isLabel = false →
        m'.getLabel e.id = labelledLabel.getLabel e.id :=
  createBranchedSession_preserves labelledLabel_valid (by decide) labelledDraw_fresh

/-- A label that has a label itself is gone, and its label with it. -/
theorem label_of_label_lost :
    ¬∃ m' writes, labelledLabel.createBranchedSession labelledDraw (name "c") = .ok (m', writes) ∧
      m'.buildSessionContext (fun _ => 0) = labelledLabel.contextAt (fun _ => 0) (some (name "c")) ∧
      (ids m'.getEntries).Nodup ∧ IsChain none m'.getEntries ∧
      ∀ e ∈ labelledLabel.getBranch (some (name "c")), m'.getLabel e.id = labelledLabel.getLabel e.id := by
  rintro ⟨m', writes, hok, -, -, -, hlabels⟩
  have hne : labelledLabel.getBranch (some (name "c")) ≠ [] := by
    rw [ne_eq, ← List.length_eq_zero_iff]
    decide
  obtain ⟨m₁, writes₁, hok₁, -, -, -, hlabels₁⟩ := createBranchedSession_eq labelledLabel labelledDraw hne
  rw [hok] at hok₁
  cases hok₁
  have hlost := hlabels ⟨name "b", some (name "a"), name "t", .label (name "a") (some (name "x"))⟩
    (.tail _ (.head _))
  rw [getLabel, hlabels₁] at hlost
  exact absurd hlost (by decide)

end Phi.Coding
