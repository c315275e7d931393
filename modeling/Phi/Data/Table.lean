import Mathlib

/-!
# Insertion-ordered tables

`Table K V` is the association list behind a JavaScript `Map`: iteration follows insertion order,
`set` on a present key keeps the key's position, and a new key goes to the end. Reading sees the
first entry of a key, so the laws below need no hypothesis that keys are distinct; `Nodup` states
that hypothesis where iteration matters, and every operation keeps it.
-/

namespace Phi

/-- An insertion-ordered finite map. -/
abbrev Table (K V : Type*) := List (K × V)

namespace Table

variable {K V W : Type*}

/-- The keys in iteration order. -/
def keys (t : Table K V) : List K := t.map Prod.fst

/-- No key has two entries. -/
def Nodup (t : Table K V) : Prop := t.keys.Nodup

@[simp] theorem keys_nil : keys ([] : Table K V) = [] := rfl

@[simp] theorem keys_cons (e : K × V) (t : Table K V) : keys (e :: t) = e.1 :: keys t := rfl

@[simp] theorem keys_append (s t : Table K V) : keys (s ++ t) = keys s ++ keys t :=
  List.map_append

theorem mem_keys_of_mem {t : Table K V} {e : K × V} (h : e ∈ t) : e.1 ∈ t.keys :=
  List.mem_map_of_mem h

variable [DecidableEq K]

/-- `Map.prototype.get`: the value of the first entry of `k`. -/
def get : Table K V → K → Option V
  | [], _ => none
  | (k', v) :: t, k => if k' = k then some v else get t k

/-- `Map.prototype.has`. -/
def has (t : Table K V) (k : K) : Bool := (t.get k).isSome

/-- `Map.prototype.set`: replace in place, or append a new key. -/
def set : Table K V → K → V → Table K V
  | [], k, v => [(k, v)]
  | (k', v') :: t, k, v => if k' = k then (k', v) :: t else (k', v') :: set t k v

/-- `Map.prototype.delete`. -/
def erase (t : Table K V) (k : K) : Table K V := t.filter fun e => e.1 ≠ k

theorem set_nil (k : K) (v : V) : set ([] : Table K V) k v = [(k, v)] := rfl

theorem set_cons (e : K × V) (t : Table K V) (k : K) (v : V) :
    set (e :: t) k v = if e.1 = k then (e.1, v) :: t else e :: set t k v := rfl

/-! ## Reading -/

@[simp] theorem get_nil (k : K) : get ([] : Table K V) k = none := rfl

@[simp] theorem get_cons (e : K × V) (t : Table K V) (k : K) :
    get (e :: t) k = if e.1 = k then some e.2 else get t k := rfl

theorem get_append (s t : Table K V) (k : K) : get (s ++ t) k = (get s k).or (get t k) := by
  induction s with
  | nil => simp
  | cons e s ih =>
    simp only [List.cons_append, get_cons]
    split
    · rfl
    · exact ih

theorem get_eq_none_iff {t : Table K V} {k : K} : t.get k = none ↔ k ∉ t.keys := by
  induction t with
  | nil => simp
  | cons e t ih =>
    simp only [get_cons, keys_cons, List.mem_cons, not_or]
    by_cases h : e.1 = k
    · simp [h]
    · simp [h, ih, Ne.symm h]

theorem mem_keys_of_get {t : Table K V} {k : K} {v : V} (h : t.get k = some v) : k ∈ t.keys := by
  by_contra hk
  rw [(get_eq_none_iff).mpr hk] at h
  exact absurd h (by simp)

theorem mem_of_get {t : Table K V} {k : K} {v : V} (h : t.get k = some v) : (k, v) ∈ t := by
  induction t with
  | nil => simp at h
  | cons e t ih =>
    simp only [get_cons] at h
    split at h
    · next hk => simp [← hk, ← Option.some.inj h]
    · exact List.mem_cons_of_mem _ (ih h)

theorem exists_get_of_mem_keys {t : Table K V} {k : K} (h : k ∈ t.keys) : ∃ v, t.get k = some v := by
  cases hk : t.get k with
  | none => exact absurd h ((get_eq_none_iff).mp hk)
  | some v => exact ⟨v, rfl⟩

/-- With distinct keys, every entry is the one its key reads. -/
theorem get_of_mem {t : Table K V} (hn : t.Nodup) {k : K} {v : V} (h : (k, v) ∈ t) :
    t.get k = some v := by
  induction t with
  | nil => simp at h
  | cons e t ih =>
    simp only [Nodup, keys_cons, List.nodup_cons] at hn
    simp only [get_cons]
    rcases List.mem_cons.mp h with rfl | h
    · simp
    · have hne : e.1 ≠ k := fun he => hn.1 (he ▸ mem_keys_of_mem h)
      rw [if_neg hne]
      exact ih hn.2 h

@[simp] theorem has_eq_true {t : Table K V} {k : K} : t.has k = true ↔ k ∈ t.keys := by
  rw [has, Option.isSome_iff_ne_none, ne_eq, get_eq_none_iff, not_not]

@[simp] theorem has_eq_false {t : Table K V} {k : K} : t.has k = false ↔ k ∉ t.keys := by
  rw [← Bool.not_eq_true, has_eq_true]

/-! ## Writing -/

@[simp] theorem get_set (t : Table K V) (k : K) (v : V) (k' : K) :
    (t.set k v).get k' = if k = k' then some v else t.get k' := by
  induction t with
  | nil => simp [set_nil]
  | cons e t ih =>
    simp only [set_cons]
    split
    · next h => simp only [get_cons, h]; split <;> rfl
    · next h =>
      simp only [get_cons, ih]
      by_cases hk : k = k'
      · simp [hk ▸ h, hk]
      · simp [hk]

theorem keys_set_of_mem {t : Table K V} {k : K} (h : k ∈ t.keys) (v : V) :
    (t.set k v).keys = t.keys := by
  induction t with
  | nil => simp at h
  | cons e t ih =>
    simp only [keys_cons, List.mem_cons] at h
    simp only [set_cons]
    split
    · rfl
    · next hne => simp only [keys_cons, ih (h.resolve_left (Ne.symm hne))]

theorem set_of_not_mem {t : Table K V} {k : K} (h : k ∉ t.keys) (v : V) :
    t.set k v = t ++ [(k, v)] := by
  induction t with
  | nil => rfl
  | cons e t ih =>
    simp only [keys_cons, List.mem_cons, not_or] at h
    simp only [set_cons, if_neg (Ne.symm h.1), ih h.2, List.cons_append]

theorem mem_keys_set {t : Table K V} {k : K} {v : V} {k' : K} :
    k' ∈ (t.set k v).keys ↔ k' = k ∨ k' ∈ t.keys := by
  by_cases h : k ∈ t.keys
  · rw [keys_set_of_mem h]
    exact ⟨Or.inr, fun h' => h'.elim (fun e => e ▸ h) id⟩
  · simp [set_of_not_mem h, or_comm]

/-- The second of two writes to one key wins. -/
theorem set_set (t : Table K V) (k : K) (v v' : V) : (t.set k v).set k v' = t.set k v' := by
  induction t with
  | nil => simp [set_nil, set_cons]
  | cons e t ih =>
    simp only [set_cons]
    split
    · next h => simp [set_cons, h]
    · next h => simp [set_cons, h, ih]

/-- Writing what a key already holds changes nothing. -/
theorem set_of_get {t : Table K V} {k : K} {v : V} (h : t.get k = some v) : t.set k v = t := by
  induction t with
  | nil => simp at h
  | cons e t ih =>
    simp only [get_cons] at h
    simp only [set_cons]
    split
    · next hk => rw [if_pos hk] at h; rw [← Option.some.inj h]
    · next hk => rw [if_neg hk] at h; rw [ih h]

theorem mem_set {t : Table K V} {k : K} {v : V} {e : K × V} (h : e ∈ t.set k v) :
    e = (k, v) ∨ e ∈ t := by
  induction t with
  | nil => simpa [set_nil] using h
  | cons e' t ih =>
    simp only [set_cons] at h
    split at h
    · next hk =>
      rcases List.mem_cons.mp h with rfl | h
      · exact Or.inl (by rw [hk])
      · exact Or.inr (List.mem_cons_of_mem _ h)
    · rcases List.mem_cons.mp h with rfl | h
      · exact Or.inr (List.mem_cons_self ..)
      · exact (ih h).imp_right (List.mem_cons_of_mem _)

theorem Nodup.set {t : Table K V} (hn : t.Nodup) (k : K) (v : V) : (t.set k v).Nodup := by
  by_cases h : k ∈ t.keys
  · rw [Nodup, keys_set_of_mem h]
    exact hn
  · rw [Nodup, set_of_not_mem h, keys_append]
    exact List.nodup_append.mpr ⟨hn, by simp, by rintro a ha b hb rfl; simp_all⟩

@[simp] theorem get_erase (t : Table K V) (k k' : K) :
    (t.erase k).get k' = if k = k' then none else t.get k' := by
  induction t with
  | nil => simp [erase]
  | cons e t ih =>
    simp only [erase, List.filter_cons] at ih ⊢
    by_cases he : e.1 = k
    · simp only [he, ne_eq, not_true_eq_false, decide_false, Bool.false_eq_true, if_false, ih,
        get_cons]
      split <;> rfl
    · simp only [he, ne_eq, not_false_eq_true, decide_true, if_true, get_cons, ih]
      by_cases hk : k = k'
      · simp [hk ▸ he, hk]
      · simp [hk]

theorem mem_keys_erase {t : Table K V} {k k' : K} :
    k' ∈ (t.erase k).keys ↔ k' ≠ k ∧ k' ∈ t.keys := by
  rw [← not_iff_not, ← get_eq_none_iff, get_erase]
  by_cases h : k = k'
  · simp [h]
  · simp [h, get_eq_none_iff, Ne.symm h]

theorem erase_of_not_mem {t : Table K V} {k : K} (h : k ∉ t.keys) : t.erase k = t := by
  refine List.filter_eq_self.mpr fun e he => ?_
  simpa using fun hk : e.1 = k => h (hk ▸ mem_keys_of_mem he)

/-- Writing before deleting changes nothing. -/
theorem erase_set (t : Table K V) (k : K) (v : V) : (t.set k v).erase k = t.erase k := by
  induction t with
  | nil => simp [set_nil, erase]
  | cons e t ih =>
    simp only [erase] at ih
    simp only [set_cons, erase]
    split
    · next h => simp [h]
    · next h => rw [List.filter_cons, List.filter_cons, ih]

theorem Nodup.erase {t : Table K V} (hn : t.Nodup) (k : K) : (t.erase k).Nodup :=
  hn.sublist (List.Sublist.map _ List.filter_sublist)

/-! ## Values -/

/-- Rewrite every value, keys and order kept. -/
def mapValues (f : V → W) (t : Table K V) : Table K W := t.map fun e => (e.1, f e.2)

@[simp] theorem get_mapValues (f : V → W) (t : Table K V) (k : K) :
    (t.mapValues f).get k = (t.get k).map f := by
  induction t with
  | nil => rfl
  | cons e t ih =>
    simp only [mapValues, List.map_cons, get_cons] at ih ⊢
    split
    · rfl
    · exact ih

omit [DecidableEq K] in
@[simp] theorem keys_mapValues (f : V → W) (t : Table K V) : (t.mapValues f).keys = t.keys := by
  simp [keys, mapValues]

end Table

end Phi
