import Phi.Coding.SessionManager
import Phi.Data.Forest

/-!
# The tree of loaded entries

The lines of a session file are parsed without validation, so the id and the parent of a loaded entry may be any value,
or missing. The loops that follow the parents have no bound in the source and remember nothing. Here they are given a
number of rounds, and `none` says that they have not ended by then.

A loaded entry is an object, known by its place among the entries. `getTime` is what `new Date(timestamp).getTime()`
gives for a timestamp, and nothing where that is NaN; the order of siblings that are not comparable is up to the
engine, and is the stable one here.
-/

namespace Phi.Coding.Loaded

/-- A member as `===` and the keys of a `Map` compare it. An array or an object equals itself only. -/
inductive Value where
  | undefined
  | null
  | bool (value : Bool)
  | number (value : ℚ)
  | infinity (negative : Bool)
  | string (value : JsString)
  | object (identity : ℕ)
  deriving DecidableEq

def Value.truthy : Value → Bool
  | .undefined | .null => false
  | .bool value => value
  | .number value => value ≠ 0
  | .infinity _ => true
  | .string value => value ≠ []
  | .object _ => true

def Value.isNullish : Value → Bool
  | .undefined | .null => true
  | _ => false

structure Entry where
  id : Value
  parentId : Value
  timestamp : Value
  /-- `firstKeptEntryId`, when the type is `compaction`. -/
  compaction : Option Value := none

section
variable (entries : List Entry)

abbrev Ref := Fin entries.length

/-! ## The path -/

def buildEntryIndex : Table Value (Ref entries) :=
  (List.finRange entries.length).foldl (fun index i => index.set (entries.get i).id i) []

/-- `id ? index.get(id) : undefined` -/
def lookup (id : Value) : Option (Ref entries) := if id.truthy then (buildEntryIndex entries).get id else none

def parentOf (i : Ref entries) : Option (Ref entries) := lookup entries (entries.get i).parentId

/-- The index is the same whether it is given, as by the session manager, or built. -/
def buildSessionPath (rounds : ℕ) (leafId : Value) : Option (List (Ref entries)) :=
  if leafId = .null then some []
  else
    let leaf := (lookup entries leafId).or (List.finRange entries.length).getLast?
    (climb (parentOf entries) rounds leaf).map List.reverse

/-- The leaf of a session that was loaded: its last entry. -/
def leafId : Value := (entries.getLast?.map Entry.id).getD .null

def getBranch (rounds : ℕ) (fromId : Value) : Option (List (Ref entries)) :=
  let startId := if fromId.isNullish then leafId entries else fromId
  (climb (parentOf entries) rounds (lookup entries startId)).map List.reverse

/-! ## The context -/

def latestCompaction (path : List (Ref entries)) : Option (Ref entries) :=
  path.foldl (fun compaction i => if (entries.get i).compaction.isSome then some i else compaction) none

def contextEntries (path : List (Ref entries)) : List (Ref entries) :=
  match latestCompaction entries path with
  | none => path
  | some compaction =>
    match path.findIdx? fun i => (entries.get i).id = (entries.get compaction).id with
    | none => path
    | some compactionIdx =>
      let firstKeptEntryId := (entries.get compaction).compaction.getD .undefined
      compaction :: (path.take compactionIdx).dropWhile (fun i => (entries.get i).id ≠ firstKeptEntryId)
        ++ path.drop (compactionIdx + 1)

def buildContextEntries (rounds : ℕ) (leafId : Value) : Option (List (Ref entries)) :=
  (buildSessionPath entries rounds leafId).map (contextEntries entries)

/-! ## The tree -/

/-- A node is known by the entry it holds. -/
structure SessionTree where
  roots : List (Ref entries) := []
  children : Ref entries → List (Ref entries) := fun _ => []

/-- The node of an entry's id: that of the last entry with the id. -/
def nodeOf (i : Ref entries) : Ref entries := ((buildEntryIndex entries).get (entries.get i).id).getD i

/-- The node that an entry's node is put under. An orphan has none, and neither has an entry that names itself. -/
def treeParent (i : Ref entries) : Option (Ref entries) :=
  let entry := entries.get i
  if entry.parentId = .null ∨ entry.parentId = entry.id then none else (buildEntryIndex entries).get entry.parentId

def placeNode (tree : SessionTree entries) (i : Ref entries) : SessionTree entries :=
  match treeParent entries i with
  | none => { tree with roots := tree.roots ++ [nodeOf entries i] }
  | some parent =>
    { tree with children := Function.update tree.children parent (tree.children parent ++ [nodeOf entries i]) }

def buildTree : SessionTree entries := (List.finRange entries.length).foldl (placeNode entries) {}

variable (getTime : Value → Option ℚ)

/-- `a - b > 0` for two times. -/
def isLater (a b : Ref entries) : Bool :=
  match getTime (entries.get a).timestamp, getTime (entries.get b).timestamp with
  | some s, some t => t < s
  | _, _ => false

def sortByTime (nodes : List (Ref entries)) : List (Ref entries) :=
  nodes.mergeSort fun a b => !isLater entries getTime a b

def getTree (rounds : ℕ) : Option (SessionTree entries) :=
  let tree := buildTree entries
  (sortAll (sortByTime entries getTime) rounds tree.roots.reverse tree.children).map fun children =>
    { tree with children }

/-! ## The index -/

variable {entries}

theorem get_foldl_set (l : List (Ref entries)) (index : Table Value (Ref entries)) (id : Value) :
    (l.foldl (fun index i => index.set (entries.get i).id i) index).get id =
      (l.reverse.find? fun i => (entries.get i).id = id).or (index.get id) := by
  induction l generalizing index with
  | nil => rfl
  | cons i l ih =>
    rw [List.foldl_cons, ih, List.reverse_cons, List.find?_append, Table.get_set, Option.or_assoc, List.find?_singleton]
    congr 1
    by_cases h : (entries.get i).id = id
    · rw [if_pos h, if_pos (decide_eq_true h), Option.some_or]
    · rw [if_neg h, if_neg (by rwa [decide_eq_true_iff]), Option.none_or]

theorem get_buildEntryIndex (id : Value) :
    (buildEntryIndex entries).get id =
      (List.finRange entries.length).reverse.find? fun i => (entries.get i).id = id := by
  rw [buildEntryIndex, get_foldl_set, Table.get_nil, Option.or_none]

theorem id_of_get {id : Value} {i : Ref entries} (h : (buildEntryIndex entries).get id = some i) :
    (entries.get i).id = id := by
  rw [get_buildEntryIndex] at h
  have hid := List.find?_some h
  exact of_decide_eq_true hid

theorem exists_get (i : Ref entries) : ∃ j, (buildEntryIndex entries).get (entries.get i).id = some j := by
  rw [get_buildEntryIndex, ← Option.isSome_iff_exists, List.find?_isSome]
  exact ⟨i, List.mem_reverse.mpr (List.mem_finRange i), decide_eq_true rfl⟩

theorem nodup_iff : (entries.map Entry.id).Nodup ↔ ∀ i j, (entries.get i).id = (entries.get j).id → i = j := by
  have hmap : entries.map Entry.id = (List.finRange entries.length).map fun i => (entries.get i).id := by
    conv_lhs => rw [← List.map_get_finRange entries, List.map_map]
    rfl
  rw [hmap, List.nodup_map_iff_inj_on (List.nodup_finRange _)]
  exact ⟨fun h i j => h i (List.mem_finRange i) j (List.mem_finRange j), fun h i _ j _ => h i j⟩

/-- With ids that are all different, an id leads to its entry. -/
theorem get_eq_some_iff (h : (entries.map Entry.id).Nodup) {id : Value} {i : Ref entries} :
    (buildEntryIndex entries).get id = some i ↔ (entries.get i).id = id := by
  refine ⟨id_of_get, fun hid => ?_⟩
  obtain ⟨j, hj⟩ := exists_get i
  rw [← hid, hj, nodup_iff.mp h j i (id_of_get hj)]

/-! ## The nodes -/

/-- The nodes of the entries of a list that are put under one parent, or become roots. -/
def nodesUnder (parent : Option (Ref entries)) (l : List (Ref entries)) : List (Ref entries) :=
  (l.filter fun i => treeParent entries i = parent).map (nodeOf entries)

theorem nodesUnder_append (parent : Option (Ref entries)) (l l' : List (Ref entries)) :
    nodesUnder parent (l ++ l') = nodesUnder parent l ++ nodesUnder parent l' := by
  rw [nodesUnder, List.filter_append, List.map_append]
  rfl

theorem nodesUnder_singleton (parent : Option (Ref entries)) (i : Ref entries) :
    nodesUnder parent [i] = if treeParent entries i = parent then [nodeOf entries i] else [] := by
  rw [nodesUnder, List.filter_singleton]
  by_cases h : treeParent entries i = parent
  · rw [if_pos h, decide_eq_true h, cond_true, List.map_singleton]
  · rw [if_neg h, decide_eq_false h, cond_false, List.map_nil]

/-- An entry adds its node in one place. -/
theorem placeNode_spec (tree : SessionTree entries) (i : Ref entries) :
    (placeNode entries tree i).roots = tree.roots ++ nodesUnder none [i] ∧
      ∀ x, (placeNode entries tree i).children x = tree.children x ++ nodesUnder (some x) [i] := by
  simp only [nodesUnder_singleton, placeNode]
  cases treeParent entries i with
  | none => exact ⟨rfl, fun x => (List.append_nil _).symm⟩
  | some parent =>
    refine ⟨(List.append_nil _).symm, fun x => ?_⟩
    by_cases hx : parent = x
    · subst hx
      rw [if_pos rfl]
      exact Function.update_self ..
    · rw [if_neg fun h => hx (Option.some.inj h), List.append_nil]
      exact Function.update_of_ne (Ne.symm hx) ..

theorem foldl_placeNode (l : List (Ref entries)) (tree : SessionTree entries) :
    (l.foldl (placeNode entries) tree).roots = tree.roots ++ nodesUnder none l ∧
      ∀ x, (l.foldl (placeNode entries) tree).children x = tree.children x ++ nodesUnder (some x) l := by
  induction l generalizing tree with
  | nil => exact ⟨(List.append_nil _).symm, fun x => (List.append_nil _).symm⟩
  | cons i l ih =>
    obtain ⟨hroots, hchildren⟩ := placeNode_spec tree i
    obtain ⟨ihroots, ihchildren⟩ := ih (placeNode entries tree i)
    rw [List.foldl_cons, ← List.singleton_append, nodesUnder_append, ← List.append_assoc, ← hroots]
    refine ⟨ihroots, fun x => ?_⟩
    rw [ihchildren, hchildren, nodesUnder_append, List.append_assoc]

theorem roots_buildTree : (buildTree entries).roots = nodesUnder none (List.finRange entries.length) :=
  (foldl_placeNode _ _).1

theorem children_buildTree (x : Ref entries) :
    (buildTree entries).children x = nodesUnder (some x) (List.finRange entries.length) :=
  (foldl_placeNode _ _).2 x

/-- Every node of the tree is one that an id leads to. -/
theorem get_of_listed {children : Ref entries → List (Ref entries)} {l : List (Ref entries)}
    (hsame : SameChildren (buildTree entries).children children) (h : Listed children (buildTree entries).roots l)
    {x : Ref entries} (hx : x ∈ l) : (buildEntryIndex entries).get (entries.get x).id = some x := by
  have hunder : ∃ parent, x ∈ nodesUnder parent (List.finRange entries.length) := by
    rcases List.mem_append.mp (h.perm.mem_iff.mp hx) with hx | hx
    · exact ⟨none, roots_buildTree ▸ hx⟩
    · obtain ⟨y, -, hy⟩ := List.mem_flatMap.mp hx
      exact ⟨some y, children_buildTree y ▸ (hsame y).mem_iff.mp hy⟩
  obtain ⟨parent, hparent⟩ := hunder
  obtain ⟨i, -, rfl⟩ := List.mem_map.mp hparent
  obtain ⟨j, hj⟩ := exists_get i
  rw [nodeOf, hj, Option.getD_some, id_of_get hj, hj]

/-! ## Walks that end -/

variable (entries) in
/-- An entry names another one as its parent. -/
def NamesParent (i j : Ref entries) : Prop :=
  (entries.get i).parentId ≠ .null ∧ (entries.get i).parentId = (entries.get j).id ∧ i ≠ j

variable (entries) in
/-- The ids are all different, no entry goes up to itself, and none to itself by way of others. -/
structure WellParented : Prop where
  ids : (entries.map Entry.id).Nodup
  self : ∀ entry ∈ entries, entry.parentId.truthy = true → entry.parentId ≠ entry.id
  cycles : ∀ i, ¬Relation.TransGen (NamesParent entries) i i

variable (entries) in
/-- The loops end, for any leaf and any start, and the tree holds every entry exactly once. -/
structure WalksEnd : Prop where
  sessionPath : ∀ leafId, ∃ rounds path, buildSessionPath entries rounds leafId = some path
  branch : ∀ fromId, ∃ rounds path, getBranch entries rounds fromId = some path
  context : ∀ leafId, ∃ rounds path, buildContextEntries entries rounds leafId = some path
  tree : ∃ rounds tree, getTree entries getTime rounds = some tree ∧
    ∃ l, Listed tree.children tree.roots l ∧ l.Perm (List.finRange entries.length)

theorem treeParent_eq_some_iff (h : (entries.map Entry.id).Nodup) {i j : Ref entries} :
    treeParent entries i = some j ↔ NamesParent entries i j := by
  have hself : (entries.get i).parentId = (entries.get i).id → (entries.get i).parentId = (entries.get j).id → i = j :=
    fun hi hj => nodup_iff.mp h i j (hi.symm.trans hj)
  rw [treeParent, NamesParent]
  by_cases hnone : (entries.get i).parentId = .null ∨ (entries.get i).parentId = (entries.get i).id
  · rw [if_pos hnone]
    refine ⟨fun hp => absurd hp (Option.some_ne_none j).symm, fun ⟨hnull, hid, hne⟩ => ?_⟩
    exact absurd (hself (hnone.resolve_left hnull) hid) hne
  · rw [if_neg hnone, get_eq_some_iff h, eq_comm]
    rw [not_or] at hnone
    refine ⟨fun hid => ⟨hnone.1, hid, ?_⟩, fun ⟨_, hid, _⟩ => hid⟩
    rintro rfl
    exact hnone.2 hid

theorem nodeOf_eq (h : (entries.map Entry.id).Nodup) (i : Ref entries) : nodeOf entries i = i := by
  rw [nodeOf, (get_eq_some_iff h).mpr rfl, Option.getD_some]

theorem nodesUnder_eq (h : (entries.map Entry.id).Nodup) (parent : Option (Ref entries)) :
    nodesUnder parent (List.finRange entries.length)
      = (List.finRange entries.length).filter fun i => treeParent entries i = parent := by
  rw [nodesUnder, List.map_congr_left fun i _ => nodeOf_eq h i, List.map_id']

theorem mem_children_iff (h : (entries.map Entry.id).Nodup) {i j : Ref entries} :
    i ∈ (buildTree entries).children j ↔ NamesParent entries i j := by
  rw [children_buildTree, nodesUnder_eq h, List.mem_filter, ← treeParent_eq_some_iff h, decide_eq_true_iff]
  exact and_iff_right (List.mem_finRange i)

/-- A step of a walk goes to the parent that an entry names. -/
theorem namesParent_of_parentOf (h : WellParented entries) {i j : Ref entries} (hij : parentOf entries i = some j) :
    NamesParent entries i j := by
  rw [parentOf, lookup] at hij
  split_ifs at hij with htruthy
  have hid := id_of_get hij
  refine ⟨fun hnull => ?_, hid.symm, ?_⟩
  · rw [hnull] at htruthy
    cases htruthy
  · rintro rfl
    exact h.self _ (List.get_mem entries i) htruthy hid.symm

theorem exists_climb (h : WellParented entries) (leaf : Option (Ref entries)) :
    ∃ rounds path, climb (parentOf entries) rounds leaf = some path := by
  cases leaf with
  | none => exact ⟨0, [], climb_none _ 0⟩
  | some i =>
    have hwf : WellFounded fun j i => NamesParent entries i j :=
      wellFounded_of_acyclic fun i hi => h.cycles i (Relation.transGen_swap.mp hi)
    have hsub : Subrelation (fun j i => parentOf entries i = some j) fun j i => NamesParent entries i j :=
      fun hij => namesParent_of_parentOf h hij
    exact exists_climb_iff.mpr ((hsub.wf hwf).apply i)

theorem exists_sessionPath (h : WellParented entries) (leafId : Value) :
    ∃ rounds path, buildSessionPath entries rounds leafId = some path := by
  obtain ⟨rounds, path, hpath⟩ :=
    exists_climb h ((lookup entries leafId).or (List.finRange entries.length).getLast?)
  by_cases hnull : leafId = .null
  · exact ⟨0, [], by rw [buildSessionPath, if_pos hnull]⟩
  · refine ⟨rounds, path.reverse, ?_⟩
    rw [buildSessionPath, if_neg hnull]
    exact congrArg (Option.map List.reverse) hpath

theorem perm_sortByTime (l : List (Ref entries)) : (sortByTime entries getTime l).Perm l := List.mergeSort_perm _ _

/-- Well parented entries have a tree, and it holds each of them once. -/
theorem exists_tree (h : WellParented entries) :
    ∃ rounds tree, getTree entries getTime rounds = some tree ∧
      ∃ l, Listed tree.children tree.roots l ∧ l.Perm (List.finRange entries.length) := by
  have hacc : ∀ x, Acc (fun y x => y ∈ (buildTree entries).children x) x := by
    simp only [mem_children_iff h.ids]
    exact (wellFounded_of_acyclic h.cycles).apply
  obtain ⟨rounds, children, hrounds, hsame⟩ :=
    @exists_sortAll _ _ _ (buildTree entries).children (perm_sortByTime getTime) (buildTree entries).roots.reverse
      fun x _ => hacc x
  refine ⟨rounds, ⟨(buildTree entries).roots, children⟩, ?_, ?_⟩
  · rw [getTree]
    exact congrArg _ hrounds
  · obtain ⟨l, hl⟩ := @Listed.exists_of_acc _ children (buildTree entries).roots fun x _ => by
      simp only [(hsame _).mem_iff]
      exact hacc x
    refine ⟨l, hl, @Listed.perm_nodes _ children _ _ _ (treeParent entries) _ hl (List.nodup_finRange _)
      List.mem_finRange ?_ (fun x => ?_) ?_⟩
    · rw [roots_buildTree, nodesUnder_eq h.ids]
    · rw [← nodesUnder_eq h.ids, ← children_buildTree]
      exact hsame x
    · simp only [treeParent_eq_some_iff h.ids]
      exact wellFounded_of_acyclic fun i hi => h.cycles i (Relation.transGen_swap.mp hi)

theorem walksEnd_of_wellParented (h : WellParented entries) : WalksEnd entries getTime where
  sessionPath := exists_sessionPath h
  branch fromId := by
    obtain ⟨rounds, path, hpath⟩ :=
      exists_climb h (lookup entries (if fromId.isNullish then leafId entries else fromId))
    exact ⟨rounds, path.reverse, congrArg (Option.map List.reverse) hpath⟩
  context leafId := by
    obtain ⟨rounds, path, hpath⟩ := exists_sessionPath h leafId
    exact ⟨rounds, contextEntries entries path, congrArg (Option.map (contextEntries entries)) hpath⟩
  tree := exists_tree getTime h

/-- A branch from an entry that goes up to itself does not end. -/
theorem parentId_ne_of_branch (hids : (entries.map Entry.id).Nodup) {i : Ref entries}
    (h : ∃ rounds path, getBranch entries rounds (entries.get i).id = some path)
    (htruthy : (entries.get i).parentId.truthy = true) : (entries.get i).parentId ≠ (entries.get i).id := by
  intro hself
  rw [hself] at htruthy
  have hnullish : (entries.get i).id.isNullish = false := by
    cases hid : (entries.get i).id <;> first | rfl | (rw [hid] at htruthy; cases htruthy)
  have hlookup : lookup entries (entries.get i).id = some i := by
    rw [lookup, if_pos htruthy, get_eq_some_iff hids]
  have hloop : parentOf entries i = some i := by rw [parentOf, hself, hlookup]
  obtain ⟨rounds, path, hpath⟩ := h
  rw [getBranch] at hpath
  obtain ⟨line, hline, -⟩ := Option.map_eq_some_iff.mp hpath
  rw [hnullish, if_neg Bool.false_ne_true, hlookup] at hline
  exact not_transGen_of_acc (exists_climb_iff.mp ⟨rounds, line, hline⟩) (.single hloop)

/-- The loops end, and the tree is complete, exactly for entries with different ids and no cycle of parents. -/
theorem walksEnd_iff (entries : List Entry) (getTime : Value → Option ℚ) :
    WalksEnd entries getTime ↔ WellParented entries := by
  refine ⟨fun h => ?_, walksEnd_of_wellParented getTime⟩
  obtain ⟨rounds, tree, htree, l, hl, hperm⟩ := h.tree
  obtain ⟨children, hchildren, rfl⟩ := Option.map_eq_some_iff.mp htree
  have hmem : ∀ i, i ∈ l := fun i => hperm.mem_iff.mpr (List.mem_finRange i)
  obtain ⟨hsame, -⟩ := sortAll_sound (perm_sortByTime getTime) (fun x => List.Perm.refl _) hchildren
  have hids : (entries.map Entry.id).Nodup := by
    refine nodup_iff.mpr fun i j hij => ?_
    have hi := get_of_listed hsame hl (hmem i)
    rw [hij, get_of_listed hsame hl (hmem j)] at hi
    exact (Option.some.inj hi).symm
  refine ⟨hids, fun entry hentry htruthy => ?_, fun i hi => ?_⟩
  · obtain ⟨i, rfl⟩ := List.mem_iff_get.mp hentry
    exact parentId_ne_of_branch hids (h.branch _) htruthy
  · have hchild : ∀ x y, NamesParent entries x y → x ∈ children y :=
      fun x y hxy => (hsame y).mem_iff.mpr ((mem_children_iff hids).mpr hxy)
    exact not_transGen_of_acc (hl.acc i (hmem i)) (Relation.TransGen.mono hchild _ _ hi)

end

/-- A file whose only entry names itself. -/
def selfParent : List Entry :=
  [⟨.string (name "a"), .string (name "a"), .string (name "2026-01-01T00:00:00.000Z"), none⟩]

/-- The branch of the only entry does not end, though the tree takes it for a root. -/
theorem not_walksEnd_selfParent : ¬WalksEnd selfParent fun _ => none := by
  intro h
  obtain ⟨rounds, path, hpath⟩ := h.branch .null
  have hloop : ∀ n, climb (parentOf selfParent) n (some ⟨0, by decide⟩) = none := by
    intro n
    induction n with
    | zero => rfl
    | succ n ih =>
      have hparent : parentOf selfParent ⟨0, by decide⟩ = some ⟨0, by decide⟩ := by decide
      rw [climb, hparent, ih, Option.map_none]
  have hleaf : lookup selfParent (leafId selfParent) = some ⟨0, by decide⟩ := by decide
  have hnull : Value.null.isNullish = true := rfl
  rw [getBranch, if_pos hnull, hleaf, hloop, Option.map_none] at hpath
  cases hpath

end Phi.Coding.Loaded
