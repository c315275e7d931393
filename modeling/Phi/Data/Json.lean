import Phi.Data.Text

/-!
# JSON values and their paths

A `Json` value is a finite tree. Numbers are the rationals they denote, so that `0` and `-0` are one
number, as they are for `===` and for the JSON text. An object lists its members in enumeration order.

Two values are the same JSON value, `Same`, when every path leads to a node of the same kind in both:
member order is not seen by any path. `Same` is therefore an equivalence with nothing to prove, and
`same_iff` unfolds it one level, which is what the proofs about containers use.

A *slot* is a place a value can stand in: `some` value or nothing. `slotAt` reads the slot a path leads
to and `putAt` replaces its content; `Focus` says that the path leads to a slot which may be
given that content. The laws between the three are those of a lens.
-/

namespace Phi

inductive Json where
  | null
  | bool (value : Bool)
  | number (value : ℚ)
  | string (value : JsString)
  | array (items : List Json)
  | object (entries : List (JsString × Json))

/-- A path segment: a member name or an array index. -/
inductive Seg where
  | key (name : JsString)
  | index (value : ℕ)
deriving DecidableEq, Repr

abbrev Path := List Seg

namespace Json

/-! ## Shape -/

/-- What a node is, its children apart. -/
inductive Kind where
  | null
  | bool (value : Bool)
  | number (value : ℚ)
  | string (value : JsString)
  | array (length : ℕ)
  | object
deriving DecidableEq

def kind : Json → Kind
  | null => .null
  | bool b => .bool b
  | number q => .number q
  | string s => .string s
  | array xs => .array xs.length
  | object _ => .object

/-- The child of a container under a segment. -/
def child : Json → Seg → Option Json
  | array xs, .index i => xs[i]?
  | object es, .key k => Table.get es k
  | _, _ => none

/-- The kind of the node a path leads to. -/
def kindAt : Json → Path → Option Kind
  | v, [] => some v.kind
  | v, s :: p =>
    match v.child s with
    | some c => c.kindAt p
    | none => none

/-- The same JSON value, whatever the order of members. -/
def Same (v w : Json) : Prop := ∀ p, v.kindAt p = w.kindAt p

/-- Both slots are empty, or both hold the same JSON value. -/
def SlotSame : Option Json → Option Json → Prop
  | none, none => True
  | some v, some w => Same v w
  | _, _ => False

@[refl] theorem Same.refl (v : Json) : Same v v := fun _ => rfl

theorem Same.symm {v w : Json} (h : Same v w) : Same w v := fun p => (h p).symm

theorem Same.trans {u v w : Json} (h : Same u v) (h' : Same v w) : Same u w :=
  fun p => (h p).trans (h' p)

@[simp] theorem slotSame_some {v w : Json} : SlotSame (some v) (some w) ↔ Same v w := Iff.rfl

theorem SlotSame.refl (x : Option Json) : SlotSame x x := by
  cases x with
  | none => trivial
  | some v => exact Same.refl v

theorem SlotSame.symm {x y : Option Json} (h : SlotSame x y) : SlotSame y x := by
  cases x <;> cases y
  · trivial
  · exact h.elim
  · exact h.elim
  · exact Same.symm h

theorem SlotSame.trans {x y z : Option Json} (h : SlotSame x y) (h' : SlotSame y z) :
    SlotSame x z := by
  cases x <;> cases y <;> cases z <;> first | trivial | exact h.elim | exact h'.elim | skip
  exact Same.trans h h'

theorem SlotSame.none_left {y : Option Json} (h : SlotSame none y) : y = none := by
  cases y with
  | none => rfl
  | some v => exact h.elim

theorem SlotSame.none_right {x : Option Json} (h : SlotSame x none) : x = none :=
  h.symm.none_left

theorem SlotSame.some_left {v : Json} {y : Option Json} (h : SlotSame (some v) y) :
    ∃ w, y = some w ∧ Same v w := by
  cases y with
  | none => exact h.elim
  | some w => exact ⟨w, rfl, h⟩

theorem SlotSame.some_right {x : Option Json} {w : Json} (h : SlotSame x (some w)) :
    ∃ v, x = some v ∧ Same v w := by
  obtain ⟨v, hv, hs⟩ := h.symm.some_left
  exact ⟨v, hv, hs.symm⟩

theorem slotSame_iff {x y : Option Json} :
    SlotSame x y ↔ ∀ p, x.bind (·.kindAt p) = y.bind (·.kindAt p) := by
  cases x <;> cases y
  · simp [SlotSame]
  · next w => simpa [SlotSame] using ⟨[], by simp [kindAt]⟩
  · next v => simpa [SlotSame] using ⟨[], by simp [kindAt]⟩
  · simp [SlotSame, Same]

theorem kindAt_cons (v : Json) (s : Seg) (p : Path) :
    v.kindAt (s :: p) = (v.child s).bind (·.kindAt p) := by
  rw [kindAt]
  cases v.child s <;> rfl

/-- One level of `Same`: equal kinds, and the same children under every segment. -/
theorem same_iff {v w : Json} :
    Same v w ↔ v.kind = w.kind ∧ ∀ s, SlotSame (v.child s) (w.child s) := by
  constructor
  · intro h
    refine ⟨by simpa [kindAt] using h [], fun s => (slotSame_iff).mpr fun p => ?_⟩
    simpa only [kindAt_cons] using h (s :: p)
  · rintro ⟨hk, hc⟩ p
    cases p with
    | nil => simp [kindAt, hk]
    | cons s p =>
      rw [kindAt_cons, kindAt_cons]
      exact (slotSame_iff).mp (hc s) p

theorem Same.kind {v w : Json} (h : Same v w) : v.kind = w.kind := ((same_iff).mp h).1

theorem Same.child {v w : Json} (h : Same v w) (s : Seg) : SlotSame (v.child s) (w.child s) :=
  ((same_iff).mp h).2 s

/-! ## Containers -/

/-- `isObj`: an array or an object. -/
def isObj : Json → Bool
  | array _ => true
  | object _ => true
  | _ => false

/-- `Array.isArray`. -/
def isArray : Json → Bool
  | array _ => true
  | _ => false

/-- A value that is no container is determined by its kind. -/
theorem eq_of_kind {v w : Json} (h : v.kind = w.kind) (hv : w.isObj = false) : v = w := by
  cases v <;> cases w <;> simp_all [Json.kind, isObj]

theorem kind_eq_object {v : Json} : v.kind = .object ↔ ∃ es, v = object es := by
  cases v <;> simp [kind]

theorem kind_eq_array {v : Json} {n : ℕ} : v.kind = .array n ↔ ∃ xs, v = array xs ∧ xs.length = n := by
  cases v <;> simp [kind]

theorem Same.object_right {v : Json} {es : List (JsString × Json)} (h : Same v (object es)) :
    ∃ es', v = object es' ∧ ∀ k, SlotSame (Table.get es' k) (Table.get es k) := by
  obtain ⟨es', rfl⟩ := (kind_eq_object).mp h.kind
  exact ⟨es', rfl, fun k => h.child (.key k)⟩

theorem same_object {es es' : List (JsString × Json)} :
    Same (object es) (object es') ↔ ∀ k, SlotSame (Table.get es k) (Table.get es' k) := by
  refine ⟨fun h k => h.child (.key k), fun h => (same_iff).mpr ⟨rfl, fun s => ?_⟩⟩
  cases s with
  | key k => exact h k
  | index i => exact SlotSame.refl _

theorem same_array {xs ys : List Json} :
    Same (array xs) (array ys) ↔ List.Forall₂ Same xs ys := by
  rw [List.forall₂_iff_get]
  constructor
  · intro h
    have hlen : xs.length = ys.length := by simpa [Json.kind] using h.kind
    refine ⟨hlen, fun i hi hi' => ?_⟩
    have hc := h.child (.index i)
    simpa [child, List.getElem?_eq_getElem hi, List.getElem?_eq_getElem hi'] using hc
  · rintro ⟨hlen, h⟩
    refine (same_iff).mpr ⟨by simp [Json.kind, hlen], fun s => ?_⟩
    cases s with
    | key k => exact SlotSame.refl _
    | index i =>
      by_cases hi : i < xs.length
      · have hi' : i < ys.length := hlen ▸ hi
        simpa [child, List.getElem?_eq_getElem hi, List.getElem?_eq_getElem hi'] using h i hi hi'
      · have hi' : ¬i < ys.length := hlen ▸ hi
        simp [child, List.getElem?_eq_none (Nat.le_of_not_lt hi),
          List.getElem?_eq_none (Nat.le_of_not_lt hi'), SlotSame]

theorem Same.array_right {v : Json} {ys : List Json} (h : Same v (array ys)) :
    ∃ xs, v = array xs ∧ List.Forall₂ Same xs ys := by
  obtain ⟨xs, rfl, -⟩ := (kind_eq_array).mp h.kind
  exact ⟨xs, rfl, (same_array).mp h⟩

/-! ## Well-formed values -/

/-- Every object of the value has distinct keys. -/
inductive WellFormed : Json → Prop
  | null : WellFormed null
  | bool (b : Bool) : WellFormed (bool b)
  | number (q : ℚ) : WellFormed (number q)
  | string (s : JsString) : WellFormed (string s)
  | array {xs : List Json} : (∀ x ∈ xs, WellFormed x) → WellFormed (array xs)
  | object {es : List (JsString × Json)} :
      Table.Nodup es → (∀ e ∈ es, WellFormed e.2) → WellFormed (object es)

theorem WellFormed.items {xs : List Json} (h : WellFormed (Json.array xs)) :
    ∀ x ∈ xs, WellFormed x := by
  cases h with | array h => exact h

theorem WellFormed.nodup {es : List (JsString × Json)} (h : WellFormed (Json.object es)) :
    Table.Nodup es := by
  cases h with | object h _ => exact h

theorem WellFormed.entries {es : List (JsString × Json)} (h : WellFormed (Json.object es)) :
    ∀ e ∈ es, WellFormed e.2 := by
  cases h with | object _ h => exact h

theorem WellFormed.child {v c : Json} {s : Seg} (h : WellFormed v) (hc : v.child s = some c) :
    WellFormed c := by
  cases v <;> cases s <;> simp only [Json.child, reduceCtorEq] at hc
  · exact h.items c (List.mem_of_getElem? hc)
  · exact h.entries _ (Table.mem_of_get hc)

/-! ## Slots -/

/-- The segment names a place of the container: any member of an object, an element of an array. -/
def HasSlot : Json → Seg → Prop
  | array xs, .index i => i < xs.length
  | object _, .key _ => True
  | _, _ => False

/-- Replace the content of a slot; only an object's slot can be emptied. -/
def putChild : Json → Seg → Option Json → Json
  | array xs, .index i, some v => array (xs.set i v)
  | object es, .key k, some v => object (JsObject.define es k v)
  | object es, .key k, none => object (Table.erase es k)
  | v, _, _ => v

/-- The slot may hold `x`. -/
def Accepts (c : Json) (s : Seg) (x : Option Json) : Prop :=
  c.HasSlot s ∧ (x = none → c.kind = .object)

theorem child_putChild {c : Json} {s : Seg} {x : Option Json} (h : c.Accepts s x) (t : Seg) :
    (c.putChild s x).child t = if s = t then x else c.child t := by
  obtain ⟨hs, hx⟩ := h
  cases c <;> cases s <;> simp only [HasSlot] at hs
  · next xs i =>
    cases x with
    | none => simp [Json.kind] at hx
    | some v =>
      cases t with
      | key k => simp [putChild, child]
      | index j =>
        simp only [putChild, child, List.getElem?_set, Seg.index.injEq]
        split
        · next hij => subst hij; simp
        · rfl
  · next es k =>
    cases t with
    | key k' => cases x <;> simp [putChild, child]
    | index j => cases x <;> simp [putChild, child]

@[simp] theorem kind_putChild (c : Json) (s : Seg) (x : Option Json) :
    (c.putChild s x).kind = c.kind := by
  cases c <;> cases s <;> cases x <;> simp [putChild, kind]

@[simp] theorem hasSlot_putChild {c : Json} {s t : Seg} {x : Option Json} :
    (c.putChild s x).HasSlot t ↔ c.HasSlot t := by
  cases c <;> cases s <;> cases x <;> cases t <;> simp [putChild, HasSlot]

theorem putChild_putChild {c : Json} {s : Seg} {x : Option Json} (h : c.Accepts s x) (v : Json) :
    (c.putChild s (some v)).putChild s x = c.putChild s x := by
  have hx := h.2
  cases c <;> cases s <;> cases x <;> simp_all [putChild, kind]

theorem WellFormed.putChild {c : Json} (h : c.WellFormed) (s : Seg) {x : Option Json}
    (hx : ∀ v, x = some v → v.WellFormed) : (c.putChild s x).WellFormed := by
  cases c <;> cases s <;> cases x <;> simp only [Json.putChild] <;> try exact h
  · next xs i v =>
    refine WellFormed.array fun y hy => ?_
    rcases List.mem_or_eq_of_mem_set hy with hy | rfl
    · exact h.items y hy
    · exact hx _ rfl
  · next es k =>
    exact WellFormed.object (h.nodup.erase k) fun e he => h.entries e (List.mem_of_mem_filter he)
  · next es k v =>
    refine WellFormed.object (JsObject.Nodup_define h.nodup k v) fun e he => ?_
    rcases JsObject.mem_define he with rfl | he
    · exact hx _ rfl
    · exact h.entries e he

/-! ## Paths -/

/-- The slot a path leads to. -/
def slotAt : Option Json → Path → Option Json
  | x, [] => x
  | x, s :: p => slotAt (x.bind (·.child s)) p

/-- Replace the content of the slot a path leads to. -/
def putAt : Option Json → Path → Option Json → Option Json
  | _, [], y => y
  | some c, s :: p, y => some (c.putChild s (putAt (c.child s) p y))
  | none, _ :: _, _ => none

/-- The path leads through containers to a slot that may hold `y`. -/
def Focus : Option Json → Path → Option Json → Prop
  | _, [], _ => True
  | x, s :: p, y =>
    ∃ c, x = some c ∧ c.HasSlot s ∧ (p = [] → y = none → c.kind = .object) ∧ Focus (c.child s) p y

theorem Focus.putAt_ne_none {x y : Option Json} {p : Path} (h : Focus x p y) (hp : p ≠ []) :
    putAt x p y ≠ none := by
  cases p with
  | nil => exact absurd rfl hp
  | cons s p =>
    obtain ⟨c, rfl, -⟩ := h
    simp [putAt]

/-- A slot on a focused path accepts what is written back into it. -/
theorem Focus.accepts {c : Json} {s : Seg} {p : Path} {y : Option Json}
    (h : Focus (some c) (s :: p) y) : c.Accepts s (putAt (c.child s) p y) := by
  obtain ⟨c', hc, hs, hkind, hf⟩ := h
  obtain rfl := Option.some.inj hc
  refine ⟨hs, fun hnone => ?_⟩
  by_cases hp : p = []
  · subst hp
    exact hkind rfl hnone
  · exact absurd hnone (hf.putAt_ne_none hp)

theorem slotAt_putAt {x y : Option Json} {p : Path} (h : Focus x p y) :
    slotAt (putAt x p y) p = y := by
  induction p generalizing x with
  | nil => rfl
  | cons s p ih =>
    have hacc := fun c (hc : x = some c) => Focus.accepts (hc ▸ h)
    obtain ⟨c, rfl, -, -, hf⟩ := h
    simp only [putAt, slotAt, Option.bind_some, child_putChild (hacc c rfl), if_true]
    exact ih hf

theorem putAt_putAt {x y : Option Json} {v : Json} {p : Path} (h : Focus x p y) :
    putAt (putAt x p (some v)) p y = putAt x p y := by
  induction p generalizing x with
  | nil => rfl
  | cons s p ih =>
    have hacc := fun c (hc : x = some c) => Focus.accepts (hc ▸ h)
    obtain ⟨c, rfl, hs, -, hf⟩ := h
    have hsome : ∃ v', putAt (c.child s) p (some v) = some v' := by
      cases p with
      | nil => exact ⟨v, rfl⟩
      | cons t q =>
        obtain ⟨c', hc', -⟩ := hf
        simp [hc', putAt]
    obtain ⟨v', hv'⟩ := hsome
    have haccv : c.Accepts s (some v') := ⟨hs, by simp⟩
    simp only [putAt, hv', Option.some.injEq, child_putChild haccv, if_true]
    rw [← hv', ih hf, hv', putChild_putChild (hacc c rfl)]

theorem slotAt_append (x : Option Json) (p q : Path) :
    slotAt x (p ++ q) = slotAt (slotAt x p) q := by
  induction p generalizing x with
  | nil => rfl
  | cons s p ih => exact ih _

/-- Writing one segment deeper is writing the container with that slot replaced. -/
theorem putAt_concat {x : Option Json} {p : Path} {c : Json} (h : slotAt x p = some c) (s : Seg)
    (y : Option Json) : putAt x (p ++ [s]) y = putAt x p (some (c.putChild s y)) := by
  induction p generalizing x with
  | nil =>
    obtain rfl : x = some c := h
    rfl
  | cons t p ih =>
    cases x with
    | none => exact rfl
    | some d =>
      have hd : slotAt (d.child t) p = some c := h
      simp only [List.cons_append, putAt, ih hd]

theorem Focus.fill {x y : Option Json} {p : Path} (h : Focus x p y) (v : Json) :
    Focus x p (some v) := by
  induction p generalizing x with
  | nil => trivial
  | cons s p ih =>
    obtain ⟨c, hc, hs, -, hf⟩ := h
    exact ⟨c, hc, hs, by simp, ih hf⟩

theorem Focus.concat {x z : Option Json} {p : Path} {c : Json} {s : Seg} {y : Option Json}
    (hf : Focus x p z) (h : slotAt x p = some c) (ha : c.Accepts s y) : Focus x (p ++ [s]) y := by
  induction p generalizing x with
  | nil =>
    obtain rfl : x = some c := h
    exact ⟨c, rfl, ha.1, fun _ => ha.2, trivial⟩
  | cons t p ih =>
    obtain ⟨d, rfl, hs, -, hf⟩ := hf
    exact ⟨d, rfl, hs, by simp, ih hf h⟩

/-- Writing at a focused path keeps it focused. -/
theorem Focus.putAt {x y : Option Json} {p : Path} (h : Focus x p y) (v : Json) :
    Focus (Json.putAt x p (some v)) p y := by
  induction p generalizing x with
  | nil => trivial
  | cons s p ih =>
    have hacc := fun c (hc : x = some c) => (hc ▸ h.fill v : Focus _ (s :: p) _).accepts
    obtain ⟨c, rfl, hs, hk, hf⟩ := h
    refine ⟨_, rfl, hasSlot_putChild.mpr hs, fun hp hy => by rw [kind_putChild]; exact hk hp hy, ?_⟩
    rw [child_putChild (hacc c rfl), if_pos rfl]
    exact ih hf

/-- A focused path of at least one segment ends in a slot of a container. -/
theorem Focus.exists_parent {x y : Option Json} {p : Path} {s : Seg} (h : Focus x (p ++ [s]) y) :
    ∃ c, slotAt x p = some c ∧ Focus x p (some c) ∧ c.Accepts s y := by
  induction p generalizing x with
  | nil =>
    obtain ⟨c, rfl, hs, hk, -⟩ := h
    exact ⟨c, rfl, trivial, hs, hk rfl⟩
  | cons t p ih =>
    obtain ⟨d, rfl, hs, -, hf⟩ := h
    obtain ⟨c, hc, hfc, hacc⟩ := ih hf
    exact ⟨c, hc, ⟨d, rfl, hs, by simp, hfc⟩, hacc⟩

/-- Writing back what a slot holds changes nothing. -/
theorem putChild_child (c : Json) (s : Seg) : c.putChild s (c.child s) = c := by
  cases c <;> cases s <;> try rfl
  · next xs i =>
    cases h : xs[i]? with
    | none => simp [child, h, putChild]
    | some v =>
      obtain ⟨hi, rfl⟩ := List.getElem?_eq_some_iff.mp h
      simp only [child, h, putChild, List.set_getElem_self]
  · next es k =>
    cases h : Table.get es k with
    | none => simp [child, h, putChild, Table.erase_of_not_mem (Table.get_eq_none_iff.mp h)]
    | some v => simp [child, h, putChild, JsObject.define_of_get h]

theorem putAt_slotAt {x y : Option Json} {p : Path} (h : Focus x p y) :
    putAt x p (slotAt x p) = x := by
  induction p generalizing x with
  | nil => rfl
  | cons s p ih =>
    obtain ⟨c, rfl, -, -, hf⟩ := h
    simp only [putAt, slotAt, Option.bind_some]
    rw [ih hf, putChild_child]

end Json

end Phi
