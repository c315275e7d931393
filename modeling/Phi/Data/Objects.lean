import Mathlib.Algebra.BigOperators.Group.Multiset.Basic
import Mathlib.Algebra.Order.BigOperators.Group.List
import Mathlib.Data.Multiset.Count
import Phi.Data.Json

/-!
# JSON values as objects in a heap

A JSON value of a program is a scalar or a reference to an array or an object, whose items and members are such values
again. Two references to one object make it part of a value twice, and what is written through one of them shows
through the other.

`Owns heap value json feet` says that the value stands for `json`, and that `feet` are the addresses of its containers,
each as often as it is reached. A value without sharing is one whose feet are distinct. What is written elsewhere leaves
a value alone (`Owns.frame`), and of a container one child can be exchanged (`CellOwns.focus`).
-/

namespace Phi.Objects

inductive Val where
  | null
  | bool (value : Bool)
  | number (value : ℚ)
  | string (value : JsString)
  | ref (address : ℕ)

inductive Cell where
  | array (items : List Val)
  | object (entries : Table JsString Val)

/-- An address is a place in the list; a new object comes to its end. -/
abbrev Heap := List Cell

/-- The container that a value refers to. -/
def cellOf (heap : Heap) : Val → Option Cell
  | .ref address => heap[address]?
  | _ => none

namespace Cell

/-- The child of a container under a segment. -/
def child : Cell → Seg → Option Val
  | array items, .index i => items[i]?
  | object entries, .key k => entries.get k
  | _, _ => none

/-- Replace the content of a slot; only an object's slot can be emptied. -/
def putChild : Cell → Seg → Option Val → Cell
  | array items, .index i, some v => array (items.set i v)
  | object entries, .key k, some v => object (JsObject.define entries k v)
  | object entries, .key k, none => object (entries.erase k)
  | c, _, _ => c

end Cell

/-! ## What a value stands for -/

/-- A value with what it stands for and the addresses of its containers. -/
structure Row where
  val : Val
  json : Json
  feet : Multiset ℕ

inductive Owns (heap : Heap) : Val → Json → Multiset ℕ → Prop where
  | null : Owns heap .null .null 0
  | bool (b : Bool) : Owns heap (.bool b) (.bool b) 0
  | number (q : ℚ) : Owns heap (.number q) (.number q) 0
  | string (s : JsString) : Owns heap (.string s) (.string s) 0
  | array (address : ℕ) (rows : List Row) (hcell : heap[address]? = some (.array (rows.map Row.val)))
      (hrows : ∀ r ∈ rows, Owns heap r.val r.json r.feet) :
      Owns heap (.ref address) (.array (rows.map Row.json)) (address ::ₘ (rows.map Row.feet).sum)
  | object (address : ℕ) (rows : Table JsString Row)
      (hcell : heap[address]? = some (.object (rows.mapValues Row.val)))
      (hrows : ∀ e ∈ rows, Owns heap e.2.val e.2.json e.2.feet) :
      Owns heap (.ref address) (.object (rows.mapValues Row.json)) (address ::ₘ (rows.map fun e => e.2.feet).sum)

/-- What a container stands for, with the addresses of those in it. -/
inductive CellOwns (heap : Heap) : Cell → Json → Multiset ℕ → Prop where
  | array (rows : List Row) (hrows : ∀ r ∈ rows, Owns heap r.val r.json r.feet) :
      CellOwns heap (.array (rows.map Row.val)) (.array (rows.map Row.json)) (rows.map Row.feet).sum
  | object (rows : Table JsString Row) (hrows : ∀ e ∈ rows, Owns heap e.2.val e.2.json e.2.feet) :
      CellOwns heap (.object (rows.mapValues Row.val)) (.object (rows.mapValues Row.json))
        (rows.map fun e => e.2.feet).sum

variable {heap heap' : Heap} {value : Val} {cell : Cell} {json : Json} {feet : Multiset ℕ} {address : ℕ}

/-- A reference stands for what its container stands for. -/
theorem owns_ref : Owns heap (.ref address) json feet ↔
    ∃ cell inner, heap[address]? = some cell ∧ CellOwns heap cell json inner ∧ feet = address ::ₘ inner := by
  constructor
  · intro h
    cases h with
    | array _ rows hcell hrows => exact ⟨_, _, hcell, .array rows hrows, rfl⟩
    | object _ rows hcell hrows => exact ⟨_, _, hcell, .object rows hrows, rfl⟩
  · rintro ⟨cell, inner, hcell, hcellOwns, rfl⟩
    cases hcellOwns with
    | array rows hrows => exact .array address rows hcell hrows
    | object rows hrows => exact .object address rows hcell hrows

/-- A value with a container is a reference to it. -/
theorem Owns.of_cellOf (h : Owns heap value json feet) (hcell : cellOf heap value = some cell) :
    ∃ address inner, value = .ref address ∧ feet = address ::ₘ inner ∧ CellOwns heap cell json inner := by
  cases value with
  | ref address =>
    obtain ⟨cell', inner, hcell', hcellOwns, rfl⟩ := owns_ref.mp h
    obtain rfl : cell' = cell := Option.some.inj (hcell'.symm.trans hcell)
    exact ⟨address, inner, rfl, rfl, hcellOwns⟩
  | _ => cases hcell

theorem CellOwns.isObj (h : CellOwns heap cell json feet) : json.isObj = true := by
  cases h <;> rfl

theorem Owns.isObj_ref (h : Owns heap (.ref address) json feet) : json.isObj = true := by
  obtain ⟨cell, inner, -, hcell, -⟩ := owns_ref.mp h
  exact hcell.isObj

theorem Owns.cellOf_eq_none (h : Owns heap value json feet) : cellOf heap value = none ↔ json.isObj = false := by
  cases h with
  | array address rows hcell hrows => simp [cellOf, hcell, Json.isObj]
  | object address rows hcell hrows => simp [cellOf, hcell, Json.isObj]
  | _ => simp [cellOf, Json.isObj]

theorem mem_sum_of_mem {α : Type} {f : α → Multiset ℕ} {rows : List α} {r : α} (hr : r ∈ rows) {a : ℕ} (ha : a ∈ f r) :
    a ∈ (rows.map f).sum := by
  induction rows with
  | nil => cases hr
  | cons r' rows ih =>
    rw [List.map_cons, List.sum_cons, Multiset.mem_add]
    rcases List.mem_cons.mp hr with rfl | hr
    · exact .inl ha
    · exact .inr (ih hr)

/-- What is written elsewhere leaves a value alone. -/
theorem Owns.frame (h : Owns heap value json feet) (hsame : ∀ a ∈ feet, heap'[a]? = heap[a]?) :
    Owns heap' value json feet := by
  induction h with
  | null => exact .null
  | bool b => exact .bool b
  | number q => exact .number q
  | string s => exact .string s
  | array address rows hcell hrows ih =>
    refine .array address rows ((hsame address (Multiset.mem_cons_self _ _)).trans hcell) fun r hr => ?_
    exact ih r hr fun a ha => hsame a (Multiset.mem_cons_of_mem (mem_sum_of_mem hr ha))
  | object address rows hcell hrows ih =>
    refine .object address rows ((hsame address (Multiset.mem_cons_self _ _)).trans hcell) fun e he => ?_
    exact ih e he fun a ha =>
      hsame a (Multiset.mem_cons_of_mem (mem_sum_of_mem (f := fun e : JsString × Row => e.2.feet) he ha))

theorem CellOwns.frame (h : CellOwns heap cell json feet) (hsame : ∀ a ∈ feet, heap'[a]? = heap[a]?) :
    CellOwns heap' cell json feet := by
  cases h with
  | array rows hrows =>
    exact .array rows fun r hr => (hrows r hr).frame fun a ha => hsame a (mem_sum_of_mem hr ha)
  | object rows hrows =>
    exact .object rows fun e he => (hrows e he).frame fun a ha =>
      hsame a (mem_sum_of_mem (f := fun e : JsString × Row => e.2.feet) he ha)

theorem Owns.cellOf_eq (h : Owns heap value json feet) (hsame : ∀ a ∈ feet, heap'[a]? = heap[a]?) :
    cellOf heap' value = cellOf heap value := by
  cases h with
  | array address rows hcell hrows => exact hsame address (Multiset.mem_cons_self _ _)
  | object address rows hcell hrows => exact hsame address (Multiset.mem_cons_self _ _)
  | _ => rfl

theorem sum_lt_length {α : Type} {f : α → Multiset ℕ} {rows : List α} (h : ∀ r ∈ rows, ∀ a ∈ f r, a < heap.length) :
    ∀ a ∈ (rows.map f).sum, a < heap.length := by
  intro a ha
  induction rows with
  | nil => simp at ha
  | cons r rows ih =>
    rw [List.map_cons, List.sum_cons, Multiset.mem_add] at ha
    rcases ha with ha | ha
    · exact h r List.mem_cons_self a ha
    · exact ih (fun r' hr' => h r' (List.mem_cons_of_mem _ hr')) ha

/-- The containers of a value are in the heap. -/
theorem Owns.lt_length (h : Owns heap value json feet) : ∀ a ∈ feet, a < heap.length := by
  induction h with
  | array address rows hcell hrows ih =>
    intro a ha
    rcases Multiset.mem_cons.mp ha with rfl | ha
    · exact (List.getElem?_eq_some_iff.mp hcell).1
    · exact sum_lt_length ih a ha
  | object address rows hcell hrows ih =>
    intro a ha
    rcases Multiset.mem_cons.mp ha with rfl | ha
    · exact (List.getElem?_eq_some_iff.mp hcell).1
    · exact sum_lt_length ih a ha
  | _ => intro a ha; simp at ha

/-- A value stands for one JSON value only. -/
theorem Owns.unique {json' : Json} {feet' : Multiset ℕ} (h : Owns heap value json feet)
    (h' : Owns heap value json' feet') : json = json' ∧ feet = feet' := by
  have hrow : ∀ r r' : Row, r.val = r'.val → (∀ {j f}, Owns heap r.val j f → r.json = j ∧ r.feet = f) →
      Owns heap r'.val r'.json r'.feet → r = r' := by
    rintro ⟨v, x, f⟩ ⟨v', x', f'⟩ hval hunique hrow'
    obtain rfl : v = v' := hval
    obtain ⟨rfl, rfl⟩ := hunique hrow'
    rfl
  induction h generalizing json' feet' with
  | array address rows hcell hrows ih =>
    cases h' with
    | object _ rows' hcell' _ => cases hcell.symm.trans hcell'
    | array _ rows' hcell' hrows' =>
      have hvals : rows.map Row.val = rows'.map Row.val := by
        simpa using hcell.symm.trans hcell'
      obtain rfl : rows = rows' := by
        refine List.ext_getElem (by simpa using congrArg List.length hvals) fun i hi hi' => ?_
        have hval := congrArg (·[i]?) hvals
        simp only [List.getElem?_map, List.getElem?_eq_getElem hi, List.getElem?_eq_getElem hi', Option.map_some,
          Option.some.injEq] at hval
        exact hrow _ _ hval (ih _ (List.getElem_mem hi)) (hrows' _ (List.getElem_mem hi'))
      exact ⟨rfl, rfl⟩
  | object address rows hcell hrows ih =>
    cases h' with
    | array _ rows' hcell' _ => cases hcell.symm.trans hcell'
    | object _ rows' hcell' hrows' =>
      have hvals : rows.map (fun e => (e.1, e.2.val)) = rows'.map fun e => (e.1, e.2.val) := by
        simpa [Table.mapValues] using hcell.symm.trans hcell'
      obtain rfl : rows = rows' := by
        refine List.ext_getElem (by simpa using congrArg List.length hvals) fun i hi hi' => ?_
        have hval := congrArg (·[i]?) hvals
        simp only [List.getElem?_map, List.getElem?_eq_getElem hi, List.getElem?_eq_getElem hi', Option.map_some,
          Option.some.injEq, Prod.mk.injEq] at hval
        exact Prod.ext hval.1 (hrow _ _ hval.2 (ih _ (List.getElem_mem hi)) (hrows' _ (List.getElem_mem hi')))
      exact ⟨rfl, rfl⟩
  | _ =>
    cases h'
    exact ⟨rfl, rfl⟩

/-- Every container of the one heap stands in the other as it was. -/
structure Kept (heap heap' : Heap) : Prop where
  length_le : heap.length ≤ heap'.length
  same : ∀ a < heap.length, heap'[a]? = heap[a]?

theorem Kept.refl (heap : Heap) : Kept heap heap := ⟨le_rfl, fun _ _ => rfl⟩

theorem Kept.trans {heap'' : Heap} (h : Kept heap heap') (h' : Kept heap' heap'') : Kept heap heap'' :=
  ⟨h.length_le.trans h'.length_le, fun a ha => (h'.same a (lt_of_lt_of_le ha h.length_le)).trans (h.same a ha)⟩

theorem Kept.append (heap : Heap) (cells : List Cell) : Kept heap (heap ++ cells) :=
  ⟨by simp, fun _ ha => List.getElem?_append_left ha⟩

/-- A heap in which the containers are kept leaves every value alone. -/
theorem Owns.kept (h : Owns heap value json feet) (hkept : Kept heap heap') : Owns heap' value json feet :=
  h.frame fun a ha => hkept.same a (h.lt_length a ha)

/-! ## Tables of rows -/

section Tables

variable {V W : Type}

theorem set_mapValues (f : V → W) (t : Table JsString V) (k : JsString) (v : V) :
    Table.set (t.mapValues f) k (f v) = Table.mapValues f (t.set k v) := by
  induction t with
  | nil => rfl
  | cons e t ih =>
    obtain ⟨k', v'⟩ := e
    change Table.set ((k', f v') :: Table.mapValues f t) k (f v) = _
    rw [Table.set, Table.set]
    split
    · rfl
    · rw [ih]
      rfl

theorem place_mapValues (f : V → W) (t : Table JsString V) (k : JsString) (v : V) :
    JsObject.place k (f v) (t.mapValues f) = Table.mapValues f (JsObject.place k v t) := by
  induction t with
  | nil => rfl
  | cons e t ih =>
    obtain ⟨k', v'⟩ := e
    change JsObject.place k (f v) ((k', f v') :: Table.mapValues f t) = _
    rw [JsObject.place, JsObject.place]
    split
    · rw [ih]
      rfl
    · rfl
    · split
      · rfl
      · rw [ih]
        rfl

theorem define_mapValues (f : V → W) (t : Table JsString V) (k : JsString) (v : V) :
    JsObject.define (t.mapValues f) k (f v) = Table.mapValues f (JsObject.define t k v) := by
  have hhas : Table.has (t.mapValues f) k = t.has k := by
    rw [Table.has, Table.has, Table.get_mapValues, Option.isSome_map]
  rw [JsObject.define, JsObject.define, hhas]
  split
  · exact set_mapValues f t k v
  · exact place_mapValues f t k v

theorem erase_mapValues (f : V → W) (t : Table JsString V) (k : JsString) :
    Table.erase (t.mapValues f) k = Table.mapValues f (t.erase k) := by
  rw [Table.erase, Table.mapValues, List.filter_map]
  rfl

/-- The first entry of a key, with those in front of it. -/
theorem split_of_get {t : Table JsString V} {k : JsString} {v : V} (h : t.get k = some v) :
    ∃ front back : Table JsString V, t = front ++ (k, v) :: back ∧
      ∀ v' : V, JsObject.define t k v' = front ++ (k, v') :: back := by
  have hhas : t.has k = true := by rw [Table.has, h, Option.isSome_some]
  have hset : ∃ front back : Table JsString V, t = front ++ (k, v) :: back ∧
      ∀ v' : V, t.set k v' = front ++ (k, v') :: back := by
    clear hhas
    induction t with
    | nil => cases h
    | cons e t ih =>
      obtain ⟨k', w⟩ := e
      rw [Table.get_cons] at h
      by_cases hk : k' = k
      · simp only [hk, if_true, Option.some.injEq] at h
        subst hk h
        exact ⟨[], t, rfl, fun v' => by simp [Table.set]⟩
      · simp only [hk, if_false] at h
        obtain ⟨front, back, rfl, hfront⟩ := ih h
        exact ⟨(k', w) :: front, back, rfl, fun v' => by simp [Table.set, hk, hfront]⟩
  obtain ⟨front, back, ht, hfront⟩ := hset
  exact ⟨front, back, ht, fun v' => by rw [JsObject.define, if_pos hhas, hfront]⟩

theorem define_subperm (t : Table JsString V) (k : JsString) (v : V) :
    (JsObject.define t k v).Subperm ((k, v) :: t) := by
  cases hget : t.get k with
  | some w =>
    obtain ⟨front, back, rfl, hdefine⟩ := split_of_get hget
    rw [hdefine]
    refine (List.perm_middle.subperm).trans ?_
    exact (List.subperm_cons (k, v)).mpr ((List.sublist_cons_self (k, w) back).append_left front).subperm
  | none =>
    have hhas : ¬t.has k = true := by simp [Table.has, hget]
    rw [JsObject.define, if_neg hhas]
    exact (JsObject.place_perm t k v).subperm

end Tables

/-! ## Exchanging a child -/

theorem set_subperm {α : Type} (xs : List α) (i : ℕ) (x : α) : (xs.set i x).Subperm (x :: xs) := by
  by_cases hi : i < xs.length
  · have hset : xs.set i x = xs.take i ++ x :: xs.drop (i + 1) := List.set_eq_take_append_cons_drop.trans (if_pos hi)
    rw [hset]
    refine List.perm_middle.subperm.trans ((List.subperm_cons x).mpr ?_)
    rw [← List.eraseIdx_eq_take_drop_succ]
    exact (List.eraseIdx_sublist xs i).subperm
  · rw [List.set_eq_of_length_le (Nat.le_of_not_lt hi)]
    exact (List.sublist_cons_self x xs).subperm

theorem sum_le_of_subperm {α : Type} {f : α → Multiset ℕ} {rows rows' : List α} (h : rows'.Subperm rows) :
    (rows'.map f).sum ≤ (rows.map f).sum := by
  obtain ⟨rows'', hperm, hsub⟩ := h
  rw [← (hperm.map f).sum_eq]
  exact (hsub.map f).sum_le_sum fun a _ => Multiset.zero_le a

/-- A child of a container, and what stands in its place when it is exchanged. -/
theorem CellOwns.focus (h : CellOwns heap cell json feet) {seg : Seg} (hchild : cell.child seg = some value) :
    ∃ x inner outer, json.child seg = some x ∧ Owns heap value x inner ∧ feet = inner + outer ∧
      ∀ (heap' : Heap) (value' : Val) (x' : Json) (inner' : Multiset ℕ), (∀ a ∈ outer, heap'[a]? = heap[a]?) →
        Owns heap' value' x' inner' →
        CellOwns heap' (cell.putChild seg (some value')) (json.putChild seg (some x')) (inner' + outer) := by
  cases h with
  | array rows hrows =>
    cases seg with
    | key k => cases hchild
    | index i =>
      simp only [Cell.child, List.getElem?_map, Option.map_eq_some_iff] at hchild
      obtain ⟨r, hr, rfl⟩ := hchild
      obtain ⟨hi, hget⟩ := List.getElem?_eq_some_iff.mp hr
      have hsplit : rows = rows.take i ++ r :: rows.drop (i + 1) := by
        rw [← hget, List.getElem_cons_drop hi, List.take_append_drop]
      have hset : ∀ r' : Row, rows.set i r' = rows.take i ++ r' :: rows.drop (i + 1) := fun r' =>
        List.set_eq_take_append_cons_drop.trans (if_pos hi)
      have hsum : ∀ r' : Row, ((rows.set i r').map Row.feet).sum
          = r'.feet + (((rows.take i).map Row.feet).sum + ((rows.drop (i + 1)).map Row.feet).sum) := fun r' => by
        rw [hset, List.map_append, List.sum_append, List.map_cons, List.sum_cons, add_left_comm]
      refine ⟨r.json, r.feet, ((rows.take i).map Row.feet).sum + ((rows.drop (i + 1)).map Row.feet).sum,
        by simp [Json.child, hr], hrows r (List.mem_of_getElem? hr), ?_, fun heap' value' x' inner' hsame hvalue' => ?_⟩
      · have hself : rows.set i r = rows := by rw [← hget, List.set_getElem_self hi]
        rw [← hsum r, hself]
      · have hcell := @CellOwns.array heap' (rows.set i ⟨value', x', inner'⟩) fun r' hr' => ?_
        · rw [hsum, List.map_set, List.map_set] at hcell
          exact hcell
        · rw [hset, List.mem_append, List.mem_cons] at hr'
          rcases hr' with hmem | rfl | hmem
          · refine (hrows r' (List.mem_of_mem_take hmem)).frame fun a ha => hsame a ?_
            exact Multiset.mem_add.mpr (.inl (mem_sum_of_mem hmem ha))
          · exact hvalue'
          · refine (hrows r' (List.mem_of_mem_drop hmem)).frame fun a ha => hsame a ?_
            exact Multiset.mem_add.mpr (.inr (mem_sum_of_mem hmem ha))
  | object rows hrows =>
    cases seg with
    | index i => cases hchild
    | key k =>
      simp only [Cell.child, Table.get_mapValues, Option.map_eq_some_iff] at hchild
      obtain ⟨r, hr, rfl⟩ := hchild
      obtain ⟨front, back, rfl, hdefine⟩ := split_of_get hr
      let feetOf := fun e : JsString × Row => e.2.feet
      have hsum : ∀ r' : Row, ((front ++ (k, r') :: back).map feetOf).sum
          = r'.feet + ((front.map feetOf).sum + (back.map feetOf).sum) := fun r' => by
        rw [List.map_append, List.sum_append, List.map_cons, List.sum_cons, add_left_comm]
      refine ⟨r.json, r.feet, (front.map feetOf).sum + (back.map feetOf).sum, by simp [Json.child, hr],
        hrows (k, r) (by simp), hsum r, fun heap' value' x' inner' hsame hvalue' => ?_⟩
      have hcell := @CellOwns.object heap' (front ++ (k, ⟨value', x', inner'⟩) :: back) fun e he => ?_
      · change CellOwns heap' _ _ ((front ++ (k, ⟨value', x', inner'⟩) :: back).map feetOf).sum at hcell
        rw [hsum, ← hdefine, ← define_mapValues, ← define_mapValues] at hcell
        exact hcell
      · rw [List.mem_append, List.mem_cons] at he
        rcases he with hmem | rfl | hmem
        · refine (hrows e (by simp [hmem])).frame fun a ha => hsame a ?_
          exact Multiset.mem_add.mpr (.inl (mem_sum_of_mem (f := feetOf) hmem ha))
        · exact hvalue'
        · refine (hrows e (by simp [hmem])).frame fun a ha => hsame a ?_
          exact Multiset.mem_add.mpr (.inr (mem_sum_of_mem (f := feetOf) hmem ha))

/-- Where there is no child, the value has none either. -/
theorem CellOwns.child_eq_none (h : CellOwns heap cell json feet) {seg : Seg} :
    cell.child seg = none ↔ json.child seg = none := by
  cases h with
  | array rows hrows =>
    cases seg with
    | key k => simp [Cell.child, Json.child]
    | index i => simp [Cell.child, Json.child]
  | object rows hrows =>
    cases seg with
    | key k => simp [Cell.child, Json.child]
    | index i => simp [Cell.child, Json.child]

/-- A child that is put where it stands. -/
theorem Cell.putChild_child {seg : Seg} (h : cell.child seg = some value) : cell.putChild seg (some value) = cell := by
  cases cell with
  | array items =>
    cases seg with
    | key k => cases h
    | index i =>
      obtain ⟨hi, hget⟩ := List.getElem?_eq_some_iff.mp h
      rw [Cell.putChild, ← hget, List.set_getElem_self hi]
  | object entries =>
    cases seg with
    | index i => cases h
    | key k =>
      obtain ⟨front, back, hentries, hdefine⟩ := split_of_get h
      rw [Cell.putChild, hdefine, ← hentries]

theorem Cell.child_putChild {seg : Seg} (h : cell.child seg = some value) (value' : Val) :
    (cell.putChild seg (some value')).child seg = some value' := by
  cases cell with
  | array items =>
    cases seg with
    | key k => cases h
    | index i => exact List.getElem?_set_self (List.getElem?_eq_some_iff.mp h).1
  | object entries =>
    cases seg with
    | index i => cases h
    | key k => exact (JsObject.get_define entries k value' k).trans (if_pos rfl)

end Phi.Objects
