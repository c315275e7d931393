import Phi.Coding.SessionManager

/-!
# The tree of a session

The entries of a session are a tree: no two of them have one id, and no entry names a later one as its parent. So the
path to a leaf is a part of the entries in their order (`walk_sublist`), and the walk ends at a root
(`walk_complete`). A session that is one chain is the path to its last entry (`walk_chain`).
-/

namespace Phi.Coding

/-! ## The index -/

def ids (entries : List SessionEntry) : List JsString := entries.map SessionEntry.id

/-- The index when no id is there twice. -/
def indexOfEntries (entries : List SessionEntry) : EntryIndex := entries.map fun e => (e.id, e)

theorem keys_indexOfEntries (entries : List SessionEntry) : (indexOfEntries entries).keys = ids entries := by
  simp [Table.keys, indexOfEntries, ids]

theorem buildEntryIndex_eq {entries : List SessionEntry} (h : (ids entries).Nodup) :
    buildEntryIndex entries = indexOfEntries entries := by
  induction entries using List.reverseRecOn with
  | nil => rfl
  | append_singleton entries e ih =>
    rw [ids, List.map_append, List.nodup_append] at h
    have hnew : e.id ∉ (indexOfEntries entries).keys := by
      rw [keys_indexOfEntries]
      exact fun hmem => h.2.2 e.id hmem e.id (by simp) rfl
    have hfold : buildEntryIndex (entries ++ [e]) = (buildEntryIndex entries).set e.id e := by
      simp [buildEntryIndex]
    rw [hfold, ih h.1, Table.set_of_not_mem hnew]
    simp [indexOfEntries]

theorem get_indexOfEntries {entries : List SessionEntry} (h : (ids entries).Nodup) {id : JsString} {e : SessionEntry} :
    (indexOfEntries entries).get id = some e ↔ e ∈ entries ∧ e.id = id := by
  constructor
  · intro hget
    obtain ⟨e', he', heq⟩ := List.mem_map.mp (Table.mem_of_get hget)
    cases heq
    exact ⟨he', rfl⟩
  · rintro ⟨he, rfl⟩
    refine Table.get_of_mem ?_ (List.mem_map.mpr ⟨e, he, rfl⟩)
    rw [Table.Nodup, keys_indexOfEntries]
    exact h

/-! ## Trees -/

/-- No id is there twice or empty, and the parent of an entry is not a later one or the entry itself. -/
structure IsTree (entries : List SessionEntry) : Prop where
  nodup : (ids entries).Nodup
  nonempty : ∀ e ∈ entries, e.id ≠ []
  ordered : entries.Pairwise fun a b => a.parentId ≠ some b.id
  irrefl : ∀ e ∈ entries, e.parentId ≠ some e.id

namespace IsTree

variable {entries : List SessionEntry}

/-- The parent of an entry is in front of it. -/
theorem parent_mem (h : IsTree entries) {before after : List SessionEntry} {e parent : SessionEntry}
    (heq : entries = before ++ e :: after) (hparent : (truthy e.parentId).bind (indexOfEntries entries).get = some parent) :
    parent ∈ before := by
  obtain ⟨id, hid, hget⟩ := Option.bind_eq_some_iff.mp hparent
  have hsome : e.parentId = some id := (Option.filter_eq_some_iff.mp hid).1
  obtain ⟨hmem, rfl⟩ := (get_indexOfEntries h.nodup).mp hget
  rw [heq, List.mem_append, List.mem_cons] at hmem
  rcases hmem with hmem | rfl | hmem
  · exact hmem
  · exact absurd hsome (h.irrefl parent (by simp [heq]))
  · have hordered := h.ordered
    rw [heq, List.pairwise_append, List.pairwise_cons] at hordered
    exact absurd hsome (hordered.2.1.1 parent hmem)

/-- The path to an entry is a part of the entries up to it. -/
theorem walk_sublist (h : IsTree entries) (n : ℕ) {before after : List SessionEntry} {e : SessionEntry}
    (heq : entries = before ++ e :: after) :
    (walk (indexOfEntries entries) n (some e)).reverse.Sublist (before ++ [e]) := by
  induction n generalizing before after e with
  | zero => simp [walk]
  | succ n ih =>
    rw [walk, List.reverse_cons]
    refine List.Sublist.append ?_ (List.Sublist.refl [e])
    cases hparent : (truthy e.parentId).bind (indexOfEntries entries).get with
    | none => cases n <;> simp [walk]
    | some parent =>
      obtain ⟨front, back, rfl⟩ := List.append_of_mem (h.parent_mem heq hparent)
      have hsub := ih (heq.trans (List.append_assoc _ _ _))
      refine hsub.trans ?_
      have happend : front ++ parent :: back = front ++ [parent] ++ back := by simp
      rw [happend]
      exact List.sublist_append_left _ _

/-- With as many steps as there are entries, the walk ends at a root. -/
theorem walk_complete (h : IsTree entries) {n : ℕ} {before after : List SessionEntry} {e : SessionEntry}
    (heq : entries = before ++ e :: after) (hn : before.length < n) :
    ∀ root ∈ (walk (indexOfEntries entries) n (some e)).getLast?,
      (truthy root.parentId).bind (indexOfEntries entries).get = none := by
  induction n generalizing before after e with
  | zero => exact absurd hn (Nat.not_lt_zero _)
  | succ n ih =>
    intro root hroot
    rw [walk] at hroot
    cases hparent : (truthy e.parentId).bind (indexOfEntries entries).get with
    | none =>
      rw [hparent] at hroot
      have hnil : walk (indexOfEntries entries) n none = [] := by cases n <;> rfl
      rw [hnil] at hroot
      cases hroot
      exact hparent
    | some parent =>
      obtain ⟨front, back, rfl⟩ := List.append_of_mem (h.parent_mem heq hparent)
      rw [List.length_append, List.length_cons] at hn
      have hlt : front.length < n := by omega
      rw [hparent, List.getLast?_cons] at hroot
      have hne : walk (indexOfEntries entries) n (some parent) ≠ [] := by
        obtain ⟨n, rfl⟩ := Nat.exists_eq_succ_of_ne_zero (Nat.ne_zero_of_lt hlt)
        simp [walk]
      obtain ⟨last, hlast⟩ := Option.ne_none_iff_exists'.mp fun hnone => hne (List.getLast?_eq_none_iff.mp hnone)
      rw [hlast] at hroot
      cases hroot
      exact ih (heq.trans (List.append_assoc _ _ _)) hlt last hlast

end IsTree

/-! ## Chains -/

/-- Every entry is below the one in front of it, and the first below `parentId`. -/
def IsChain (parentId : Option JsString) : List SessionEntry → Prop
  | [] => True
  | e :: entries => e.parentId = parentId ∧ IsChain (some e.id) entries

theorem isChain_append (parentId : Option JsString) (a b : List SessionEntry) :
    IsChain parentId (a ++ b) ↔ IsChain parentId a ∧ IsChain ((a.getLast?.map SessionEntry.id).or parentId) b := by
  induction a generalizing parentId with
  | nil => simp [IsChain]
  | cons e a ih =>
    rw [List.cons_append, IsChain, IsChain, ih, and_assoc, List.getLast?_cons]
    cases a.getLast? <;> simp

/-- The walk from the last entry of a chain goes through all of it. -/
theorem walk_chain {index : EntryIndex} {entries : List SessionEntry} (hchain : IsChain none entries)
    (hindex : ∀ e ∈ entries, index.get e.id = some e) (hids : ∀ e ∈ entries, e.id ≠ []) {n : ℕ}
    (hn : entries.length ≤ n) : (walk index n entries.getLast?).reverse = entries := by
  induction entries using List.reverseRecOn generalizing n with
  | nil => cases n <;> rfl
  | append_singleton entries e ih =>
    obtain ⟨hfront, hparent, -⟩ := (isChain_append none entries [e]).mp hchain
    rw [List.length_append, List.length_singleton] at hn
    obtain ⟨n, rfl⟩ := Nat.exists_eq_succ_of_ne_zero (Nat.ne_zero_of_lt hn)
    have hlast : (truthy e.parentId).bind index.get = entries.getLast? := by
      rw [hparent]
      cases hentries : entries.getLast? with
      | none => rfl
      | some last =>
        have hmem : last ∈ entries := List.mem_of_getLast? hentries
        have htruthy : truthy (some last.id) = some last.id := by simp [truthy, hids last (by simp [hmem])]
        rw [Option.map_some, Option.some_or, htruthy]
        exact hindex last (by simp [hmem])
    rw [List.getLast?_concat, walk, List.reverse_cons, hlast]
    rw [ih hfront (fun x hx => hindex x (by simp [hx])) (fun x hx => hids x (by simp [hx])) (by omega)]

/-! ## The index of a manager -/

namespace SessionManager

/-- What an entry does to the labels that are set. -/
def labelsAfter (labels : Table JsString JsString) (entry : SessionEntry) : Table JsString JsString :=
  match entry.body with
  | .label targetId label =>
    match truthy label with
    | some label => labels.set targetId label
    | none => labels.erase targetId
  | _ => labels

theorem indexEntry_labelsById (m : SessionManager) (entry : SessionEntry) :
    (m.indexEntry entry).labelsById = labelsAfter m.labelsById entry := by
  unfold indexEntry labelsAfter
  cases entry.body with
  | label targetId label =>
    unfold setLabel
    dsimp only
    cases truthy label <;> rfl
  | _ => rfl

/-- The fields that the index is not about. -/
def Alike (m m' : SessionManager) : Prop :=
  m'.cwd = m.cwd ∧ m'.sessionDir = m.sessionDir ∧ m'.persist = m.persist ∧ m'.sessionId = m.sessionId ∧
    m'.sessionFile = m.sessionFile ∧ m'.fileEntries = m.fileEntries ∧ m'.flushed = m.flushed

theorem indexEntry_alike (m : SessionManager) (entry : SessionEntry) :
    Alike m (m.indexEntry entry) ∧ (m.indexEntry entry).byId = m.byId.set entry.id entry ∧
      (m.indexEntry entry).leafId = some entry.id := by
  unfold indexEntry
  cases entry.body with
  | label targetId label =>
    unfold setLabel
    dsimp only
    cases truthy label <;> exact ⟨⟨rfl, rfl, rfl, rfl, rfl, rfl, rfl⟩, rfl, rfl⟩
  | _ => exact ⟨⟨rfl, rfl, rfl, rfl, rfl, rfl, rfl⟩, rfl, rfl⟩

theorem Alike.trans {a b c : SessionManager} (h : Alike a b) (h' : Alike b c) : Alike a c := by
  obtain ⟨h1, h2, h3, h4, h5, h6, h7⟩ := h
  obtain ⟨k1, k2, k3, k4, k5, k6, k7⟩ := h'
  exact ⟨k1.trans h1, k2.trans h2, k3.trans h3, k4.trans h4, k5.trans h5, k6.trans h6, k7.trans h7⟩

theorem foldl_indexEntry (m : SessionManager) (entries : List SessionEntry) :
    Alike m (entries.foldl indexEntry m) ∧
      (entries.foldl indexEntry m).byId = entries.foldl (fun index e => index.set e.id e) m.byId ∧
      (entries.foldl indexEntry m).leafId = (entries.getLast?.map SessionEntry.id).or m.leafId ∧
      (entries.foldl indexEntry m).labelsById = entries.foldl labelsAfter m.labelsById := by
  induction entries generalizing m with
  | nil => exact ⟨⟨rfl, rfl, rfl, rfl, rfl, rfl, rfl⟩, rfl, rfl, rfl⟩
  | cons e entries ih =>
    obtain ⟨halike, hbyId, hleaf⟩ := m.indexEntry_alike e
    obtain ⟨ihalike, ihbyId, ihleaf, ihlabels⟩ := ih (m.indexEntry e)
    rw [List.foldl_cons, List.foldl_cons, List.foldl_cons, List.getLast?_cons]
    refine ⟨halike.trans ihalike, by rw [ihbyId, hbyId], ?_, by rw [ihlabels, m.indexEntry_labelsById e]⟩
    rw [ihleaf, hleaf]
    cases entries.getLast? <;> rfl

theorem buildIndex_alike (m : SessionManager) : Alike m m.buildIndex :=
  (foldl_indexEntry { m with byId := [], labelsById := [], labelTimestampsById := [], leafId := none } m.getEntries).1

theorem buildIndex_byId (m : SessionManager) : m.buildIndex.byId = buildEntryIndex m.getEntries :=
  (foldl_indexEntry { m with byId := [], labelsById := [], labelTimestampsById := [], leafId := none } m.getEntries).2.1

theorem buildIndex_leafId (m : SessionManager) : m.buildIndex.leafId = m.getEntries.getLast?.map SessionEntry.id := by
  have h := (foldl_indexEntry
    { m with byId := [], labelsById := [], labelTimestampsById := [], leafId := none } m.getEntries).2.2.1
  rw [Option.or_none] at h
  exact h

theorem buildIndex_labelsById (m : SessionManager) : m.buildIndex.labelsById = m.getEntries.foldl labelsAfter [] :=
  (foldl_indexEntry { m with byId := [], labelsById := [], labelTimestampsById := [], leafId := none } m.getEntries).2.2.2

/-- The manager holds the index of its entries, and any leaf. -/
def Indexed (m : SessionManager) : Prop := { m.buildIndex with leafId := m.leafId } = m

/-- A session that was built by the operations, or loaded. -/
structure Valid (m : SessionManager) : Prop where
  indexed : m.Indexed
  tree : IsTree m.getEntries

namespace Valid

variable {m : SessionManager}

theorem byId (h : m.Valid) : m.byId = indexOfEntries m.getEntries := by
  have hbyId : ({ m.buildIndex with leafId := m.leafId } : SessionManager).byId = m.byId :=
    congrArg SessionManager.byId h.indexed
  rw [← hbyId, ← buildEntryIndex_eq h.tree.nodup]
  exact m.buildIndex_byId

theorem labelsById (h : m.Valid) : m.labelsById = m.getEntries.foldl labelsAfter [] := by
  have hlabels : ({ m.buildIndex with leafId := m.leafId } : SessionManager).labelsById = m.labelsById :=
    congrArg SessionManager.labelsById h.indexed
  rw [← hlabels]
  exact m.buildIndex_labelsById

/-- A label is not empty, and an entry has one at most. -/
theorem labels (h : m.Valid) : m.labelsById.Nodup ∧ ∀ label ∈ m.labelsById, label.2 ≠ [] := by
  rw [h.labelsById]
  induction m.getEntries using List.reverseRecOn with
  | nil => exact ⟨List.nodup_nil, by simp⟩
  | append_singleton entries e ih =>
    rw [List.foldl_append, List.foldl_cons, List.foldl_nil]
    unfold labelsAfter
    cases e.body with
    | label targetId label =>
      dsimp only
      cases hlabel : truthy label with
      | none => exact ⟨ih.1.erase targetId, fun x hx => ih.2 x (List.mem_of_mem_filter hx)⟩
      | some label =>
        refine ⟨ih.1.set targetId label, fun x hx => ?_⟩
        rcases Table.mem_set hx with rfl | hx
        · simpa using (Option.filter_eq_some_iff.mp hlabel).2
        · exact ih.2 x hx
    | _ => exact ih

/-- The path to a leaf is a part of the entries. -/
theorem getBranch_sublist (h : m.Valid) (fromId : Option JsString) : (m.getBranch fromId).Sublist m.getEntries := by
  rw [getBranch, h.byId]
  cases hleaf : (truthy (fromId.or m.leafId)).bind (indexOfEntries m.getEntries).get with
  | none =>
    cases (indexOfEntries m.getEntries).length <;> simp [walk]
  | some leaf =>
    obtain ⟨id, -, hget⟩ := Option.bind_eq_some_iff.mp hleaf
    obtain ⟨before, after, heq⟩ := List.append_of_mem ((get_indexOfEntries h.tree.nodup).mp hget).1
    refine (h.tree.walk_sublist _ heq).trans ?_
    have happend : m.getEntries = before ++ [leaf] ++ after := by simp [heq]
    rw [happend]
    exact List.sublist_append_left _ _

end Valid

/-! ## A new entry -/

/-- A session that is whole: the leaf is there, and the parents of the entries. -/
structure Sound (m : SessionManager) : Prop extends m.Valid where
  leaf : ∀ id ∈ m.leafId, id ∈ ids m.getEntries
  parents : ∀ e ∈ m.getEntries, ∀ id ∈ e.parentId, id ∈ ids m.getEntries

theorem generateId_not_has {has : JsString → Bool} {randomUUID : ℕ → JsString} (h : has (randomUUID 100) = false) :
    has (generateId has randomUUID) = false := by
  rw [generateId]
  cases hfind : ((List.range 100).map fun i => (randomUUID i).take 8).find? fun id => !has id with
  | none => exact h
  | some id => simpa using List.find?_some hfind

/-- The UUIDs of a new entry have 36 characters, and a whole one is not an id that is there already. -/
structure FreshDraw (m : SessionManager) (draw : Draw) : Prop where
  length : ∀ i, (draw.randomUUID i).length = 36
  unused : draw.randomUUID 100 ∉ ids m.getEntries

theorem Valid.has_iff {m : SessionManager} (h : m.Valid) (id : JsString) : m.byId.has id = true ↔ id ∈ ids m.getEntries := by
  rw [Table.has_eq_true, h.byId, keys_indexOfEntries]

theorem newEntry_id {m : SessionManager} (hm : m.Valid) {draw : Draw} (hdraw : FreshDraw m draw) (body : EntryBody) :
    (m.newEntry draw body).id ∉ ids m.getEntries ∧ (m.newEntry draw body).id ≠ [] := by
  constructor
  · have hunused : m.byId.has (draw.randomUUID 100) = false := by
      rw [← Bool.not_eq_true, hm.has_iff]
      exact hdraw.unused
    rw [← hm.has_iff, Bool.not_eq_true]
    exact generateId_not_has hunused
  · have hlen : 0 < (m.newEntry draw body).id.length := by
      rw [newEntry, generateId]
      cases hfind : ((List.range 100).map fun i => (draw.randomUUID i).take 8).find? fun id => !m.byId.has id with
      | none =>
        rw [Option.getD_none, hdraw.length]
        omega
      | some id =>
        obtain ⟨i, -, rfl⟩ := List.mem_map.mp (List.mem_of_find?_eq_some hfind)
        rw [Option.getD_some, List.length_take, hdraw.length]
        omega
    exact List.ne_nil_of_length_pos hlen

theorem persistEntry_alike (m : SessionManager) (e : SessionEntry) :
    (m.persistEntry e).1.getEntries = m.getEntries ∧ (m.persistEntry e).1.byId = m.byId ∧
      (m.persistEntry e).1.leafId = m.leafId ∧ (m.persistEntry e).1.labelsById = m.labelsById ∧
      (m.persistEntry e).1.labelTimestampsById = m.labelTimestampsById := by
  unfold persistEntry
  split
  · split_ifs <;> exact ⟨rfl, rfl, rfl, rfl, rfl⟩
  · exact ⟨rfl, rfl, rfl, rfl, rfl⟩

theorem appendEntry_getEntries (m : SessionManager) (e : SessionEntry) :
    (m.appendEntry e).1.getEntries = m.getEntries ++ [e] := by
  rw [appendEntry, (persistEntry_alike _ e).1]
  simp [getEntries, FileEntry.entry?]

/-- The walk does not see a new entry that no entry names. -/
theorem walk_append {entries : List SessionEntry} {e : SessionEntry} (hnodup : (ids (entries ++ [e])).Nodup)
    (hparents : ∀ x ∈ entries, ∀ id ∈ x.parentId, id ∈ ids entries) (n : ℕ) {x : Option SessionEntry}
    (hx : ∀ y ∈ x, y ∈ entries) :
    walk (indexOfEntries (entries ++ [e])) n x = walk (indexOfEntries entries) n x := by
  have hold : (ids entries).Nodup := by
    rw [ids, List.map_append, List.nodup_append] at hnodup
    exact hnodup.1
  induction n generalizing x with
  | zero => rfl
  | succ n ih =>
    cases x with
    | none => rfl
    | some x =>
      have hparent : (truthy x.parentId).bind (indexOfEntries (entries ++ [e])).get
          = (truthy x.parentId).bind (indexOfEntries entries).get := by
        cases hid : truthy x.parentId with
        | none => rfl
        | some id =>
          have hmem := hparents x (hx x rfl) id (Option.filter_eq_some_iff.mp hid).1
          obtain ⟨y, hy, rfl⟩ := List.mem_map.mp hmem
          have hget : (indexOfEntries entries).get y.id = some y := (get_indexOfEntries hold).mpr ⟨hy, rfl⟩
          rw [Option.bind_some, Option.bind_some, hget]
          exact (get_indexOfEntries hnodup).mpr ⟨by simp [hy], rfl⟩
      rw [walk, walk, hparent, ih]
      intro y hy
      obtain ⟨id, -, hget⟩ := Option.bind_eq_some_iff.mp hy
      exact ((get_indexOfEntries hold).mp hget).1

theorem ids_append_nodup {m : SessionManager} (hm : m.Valid) {e : SessionEntry} (he : e.id ∉ ids m.getEntries) :
    (ids (m.getEntries ++ [e])).Nodup := by
  rw [ids, List.map_append, List.nodup_append]
  refine ⟨hm.tree.nodup, by simp, fun id hid id' hid' heq => he ?_⟩
  rw [List.map_singleton, List.mem_singleton] at hid'
  exact hid' ▸ heq ▸ hid

theorem byId_set {m : SessionManager} (hm : m.Valid) {e : SessionEntry} (he : e.id ∉ ids m.getEntries) :
    m.byId.set e.id e = indexOfEntries (m.getEntries ++ [e]) := by
  rw [hm.byId, Table.set_of_not_mem (by rw [keys_indexOfEntries]; exact he)]
  simp [indexOfEntries]

/-- The path to a new entry is the path to the leaf, and the entry. -/
theorem appendEntry_path {m : SessionManager} (hm : m.Sound) {e : SessionEntry} (he : e.id ∉ ids m.getEntries)
    (hid : e.id ≠ []) (hparent : e.parentId = m.leafId) :
    buildSessionPath (m.appendEntry e).1.getEntries (some (m.appendEntry e).1.leafId) (some (m.appendEntry e).1.byId)
      = m.getBranch none ++ [e] := by
  have hnodup := ids_append_nodup hm.toValid he
  have hbyId : (m.appendEntry e).1.byId = indexOfEntries (m.getEntries ++ [e]) := by
    rw [appendEntry, (persistEntry_alike _ e).2.1]
    exact byId_set hm.toValid he
  have hleafId : (m.appendEntry e).1.leafId = some e.id := by rw [appendEntry, (persistEntry_alike _ e).2.2.1]
  have hget : (indexOfEntries (m.getEntries ++ [e])).get e.id = some e := (get_indexOfEntries hnodup).mpr ⟨by simp, rfl⟩
  have htruthy : truthy (some e.id) = some e.id := by simp [truthy, hid]
  -- The leaf is found as before.
  have hstart : (truthy m.leafId).bind (indexOfEntries (m.getEntries ++ [e])).get
      = (truthy m.leafId).bind (indexOfEntries m.getEntries).get := by
    cases hleaf : truthy m.leafId with
    | none => rfl
    | some id =>
      have hmem := hm.leaf id (Option.filter_eq_some_iff.mp hleaf).1
      obtain ⟨y, hy, rfl⟩ := List.mem_map.mp hmem
      have hold : (indexOfEntries m.getEntries).get y.id = some y := (get_indexOfEntries hm.tree.nodup).mpr ⟨hy, rfl⟩
      rw [Option.bind_some, Option.bind_some, hold]
      exact (get_indexOfEntries hnodup).mpr ⟨by simp [hy], rfl⟩
  have hlen : (indexOfEntries (m.getEntries ++ [e])).length = m.byId.length + 1 := by
    rw [hm.byId]
    simp [indexOfEntries]
  have hne : ¬(some (some e.id) = (some none : Option (Option JsString))) := by simp
  rw [buildSessionPath, hbyId, hleafId]
  simp only [Option.getD_some, if_neg hne, Option.join_some, htruthy, Option.bind_some, hget, Option.some_or, hlen, walk,
    hparent, hstart, List.reverse_cons]
  rw [walk_append hnodup hm.parents, getBranch, Option.none_or, hm.byId]
  intro y hy
  obtain ⟨id, -, hold⟩ := Option.bind_eq_some_iff.mp hy
  exact ((get_indexOfEntries hm.tree.nodup).mp hold).1

end SessionManager

end Phi.Coding
