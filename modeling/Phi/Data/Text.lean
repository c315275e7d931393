import Phi.Data.Table

/-!
# JavaScript strings and text coding

A JavaScript string is a sequence of UTF-16 code units, lone surrogates allowed. `textEncode` and
`textDecode` are `TextEncoder` and `TextDecoder("utf-8", { fatal: true, ignoreBOM: true })`: the
first writes U+FFFD for every lone surrogate, the second refuses every ill-formed byte sequence.

`JsObject` holds the own enumerable properties of a plain object. Property enumeration follows
`OrdinaryOwnPropertyKeys`: array indices ascending, then the other keys as they were created.
-/

namespace Phi

/-- A JavaScript string: its UTF-16 code units. -/
abbrev JsString := List UInt16

instance JsString.lawfulBEq : LawfulBEq JsString := inferInstanceAs (LawfulBEq (List UInt16))

/-- The code units of an ASCII literal. -/
def JsString.ofAscii (s : String) : JsString := s.toList.map fun c => UInt16.ofNat c.toNat

namespace Text

/-! ## UTF-16 -/

def isHighSurrogate (u : UInt16) : Bool := 0xD800 ≤ u.toNat && u.toNat < 0xDC00

def isLowSurrogate (u : UInt16) : Bool := 0xDC00 ≤ u.toNat && u.toNat < 0xE000

/-- A code unit standing alone: itself, or U+FFFD for a lone surrogate. -/
def loneScalar (u : UInt16) : ℕ :=
  if isHighSurrogate u || isLowSurrogate u then 0xFFFD else u.toNat

/-- The Unicode scalar values of a string, lone surrogates replaced. -/
def scalars : JsString → List ℕ
  | [] => []
  | [u] => [loneScalar u]
  | u :: v :: rest =>
    if isHighSurrogate u && isLowSurrogate v then
      (0x10000 + (u.toNat - 0xD800) * 0x400 + (v.toNat - 0xDC00)) :: scalars rest
    else loneScalar u :: scalars (v :: rest)

/-- The code units of one scalar value. -/
def utf16Of (c : ℕ) : JsString :=
  if c < 0x10000 then [UInt16.ofNat c]
  else [UInt16.ofNat (0xD800 + (c - 0x10000) / 0x400), UInt16.ofNat (0xDC00 + (c - 0x10000) % 0x400)]

/-! ## UTF-8 -/

/-- The UTF-8 bytes of one scalar value. -/
def utf8Of (c : ℕ) : List UInt8 :=
  if c < 0x80 then [UInt8.ofNat c]
  else if c < 0x800 then [UInt8.ofNat (0xC0 + c / 0x40), UInt8.ofNat (0x80 + c % 0x40)]
  else if c < 0x10000 then
    [UInt8.ofNat (0xE0 + c / 0x1000), UInt8.ofNat (0x80 + c / 0x40 % 0x40),
      UInt8.ofNat (0x80 + c % 0x40)]
  else
    [UInt8.ofNat (0xF0 + c / 0x40000), UInt8.ofNat (0x80 + c / 0x1000 % 0x40),
      UInt8.ofNat (0x80 + c / 0x40 % 0x40), UInt8.ofNat (0x80 + c % 0x40)]

/-- A continuation byte between `low` and `high`. -/
def isTail (b : UInt8) (low high : ℕ) : Bool := low ≤ b.toNat && b.toNat ≤ high

/-- The six payload bits of a continuation byte. -/
def tailBits (b : UInt8) : ℕ := b.toNat % 0x40

/-- Strict UTF-8 decoding: no overlong form, no surrogate, nothing above U+10FFFF, no truncation. -/
def utf8Scalars : List UInt8 → Option (List ℕ)
  | [] => some []
  | a :: rest =>
    if a.toNat < 0x80 then (utf8Scalars rest).map (a.toNat :: ·)
    else if 0xC2 ≤ a.toNat ∧ a.toNat ≤ 0xDF then
      match rest with
      | b :: rest =>
        if isTail b 0x80 0xBF then
          (utf8Scalars rest).map ((a.toNat % 0x20 * 0x40 + tailBits b) :: ·)
        else none
      | _ => none
    else if 0xE0 ≤ a.toNat ∧ a.toNat ≤ 0xEF then
      match rest with
      | b :: c :: rest =>
        if isTail b (if a.toNat = 0xE0 then 0xA0 else 0x80) (if a.toNat = 0xED then 0x9F else 0xBF)
            && isTail c 0x80 0xBF then
          (utf8Scalars rest).map
            ((a.toNat % 0x10 * 0x1000 + tailBits b * 0x40 + tailBits c) :: ·)
        else none
      | _ => none
    else if 0xF0 ≤ a.toNat ∧ a.toNat ≤ 0xF4 then
      match rest with
      | b :: c :: d :: rest =>
        if isTail b (if a.toNat = 0xF0 then 0x90 else 0x80) (if a.toNat = 0xF4 then 0x8F else 0xBF)
            && isTail c 0x80 0xBF && isTail d 0x80 0xBF then
          (utf8Scalars rest).map
            ((a.toNat % 8 * 0x40000 + tailBits b * 0x1000 + tailBits c * 0x40 + tailBits d) :: ·)
        else none
      | _ => none
    else none

end Text

/-- `new TextEncoder().encode(s)`. -/
def textEncode (s : JsString) : List UInt8 := (Text.scalars s).flatMap Text.utf8Of

/-- `new TextDecoder("utf-8", { fatal: true, ignoreBOM: true }).decode(bytes)`; `none` is a throw. -/
def textDecode (bytes : List UInt8) : Option JsString :=
  (Text.utf8Scalars bytes).map fun cs => cs.flatMap Text.utf16Of

example : textEncode (JsString.ofAscii "a") = [0x61] := by decide

example : textDecode (textEncode [0xD83D, 0xDE00]) = some [0xD83D, 0xDE00] := by decide

/-! ## Plain objects -/

namespace JsObject

/-- The number a canonical decimal numeral spells: no sign, no leading zero. -/
def numeral? (key : JsString) : Option ℕ :=
  if key ≠ [] ∧ (∀ u ∈ key, 48 ≤ u.toNat ∧ u.toNat ≤ 57) ∧ (key.head? = some 48 → key.length = 1) then
    some (key.foldl (fun n u => n * 10 + (u.toNat - 48)) 0)
  else none

/-- The array index a key spells: a canonical decimal numeral below `2 ^ 32 - 1`. -/
def arrayIndex? (key : JsString) : Option ℕ := (numeral? key).filter (· < 2 ^ 32 - 1)

/-- Place a new property in enumeration order. -/
def place {V : Type*} (key : JsString) (value : V) : Table JsString V → Table JsString V
  | [] => [(key, value)]
  | (k, v) :: t =>
    match arrayIndex? key, arrayIndex? k with
    | none, _ => (k, v) :: place key value t
    | some _, none => (key, value) :: (k, v) :: t
    | some i, some j => if i < j then (key, value) :: (k, v) :: t else (k, v) :: place key value t

/-- Create or overwrite the own property `key`. -/
def define {V : Type*} (t : Table JsString V) (key : JsString) (value : V) : Table JsString V :=
  if t.has key then t.set key value else place key value t

/-- `k` is enumerated before `k'` in one object. -/
def KeyBefore (k k' : JsString) : Prop :=
  k ≠ k' ∧ ∀ j, arrayIndex? k' = some j → ∃ i, arrayIndex? k = some i ∧ i < j

instance (k k' : JsString) : Decidable (KeyBefore k k') :=
  match h' : arrayIndex? k', h : arrayIndex? k with
  | none, _ => decidable_of_iff (k ≠ k') (by simp [KeyBefore, h'])
  | some _, none => isFalse (by simp [KeyBefore, h', h])
  | some j, some i => decidable_of_iff (k ≠ k' ∧ i < j) (by simp [KeyBefore, h', h])

variable {V : Type*}

theorem get_place {t : Table JsString V} {key : JsString} (h : key ∉ t.keys) (value : V)
    (k' : JsString) : (place key value t).get k' = if key = k' then some value else t.get k' := by
  induction t with
  | nil => simp [place]
  | cons e t ih =>
    simp only [Table.keys_cons, List.mem_cons, not_or] at h
    simp only [place]
    split
    · simp only [Table.get_cons, ih h.2]
      split <;> simp_all
    · simp only [Table.get_cons]
    · split
      · simp only [Table.get_cons]
      · simp only [Table.get_cons, ih h.2]
        split <;> simp_all

theorem place_perm (t : Table JsString V) (key : JsString) (value : V) :
    (place key value t).Perm ((key, value) :: t) := by
  induction t with
  | nil => exact List.Perm.refl _
  | cons e t ih =>
    have hcons : (e :: place key value t).Perm ((key, value) :: e :: t) :=
      (ih.cons e).trans (List.Perm.swap _ _ _)
    simp only [place]
    split
    · exact hcons
    · exact List.Perm.refl _
    · split
      · exact List.Perm.refl _
      · exact hcons

@[simp] theorem get_define (t : Table JsString V) (key : JsString) (value : V) (k' : JsString) :
    (define t key value).get k' = if key = k' then some value else t.get k' := by
  simp only [define]
  split
  · exact Table.get_set t key value k'
  · next h => exact get_place (by simpa using h) value k'

theorem Nodup_define {t : Table JsString V} (hn : t.Nodup) (key : JsString) (value : V) :
    (define t key value).Nodup := by
  simp only [define]
  split
  · exact hn.set key value
  · next h =>
    have hk : key ∉ t.keys := by simpa using h
    refine (List.Perm.nodup_iff ((place_perm t key value).map _)).mpr ?_
    exact List.nodup_cons.mpr ⟨hk, hn⟩

theorem mem_define {t : Table JsString V} {key : JsString} {value : V} {e : JsString × V}
    (h : e ∈ define t key value) : e = (key, value) ∨ e ∈ t := by
  simp only [define] at h
  split at h
  · exact Table.mem_set h
  · exact List.mem_cons.mp ((place_perm t key value).mem_iff.mp h)

/-- The value of a key placed just before does not decide where it stands. -/
theorem set_place {t : Table JsString V} {key : JsString} (h : key ∉ t.keys) (value value' : V) :
    (place key value t).set key value' = place key value' t := by
  induction t with
  | nil => simp [place, Table.set]
  | cons e t ih =>
    simp only [Table.keys_cons, List.mem_cons, not_or] at h
    have hne : e.1 ≠ key := Ne.symm h.1
    simp only [place]
    split
    · simp [Table.set, hne, ih h.2]
    · simp [Table.set]
    · split
      · simp [Table.set]
      · simp [Table.set, hne, ih h.2]

theorem erase_place {t : Table JsString V} {key : JsString} (h : key ∉ t.keys) (value : V) :
    (place key value t).erase key = t := by
  induction t with
  | nil => simp [place, Table.erase]
  | cons e t ih =>
    simp only [Table.keys_cons, List.mem_cons, not_or] at h
    have hne : e.1 ≠ key := Ne.symm h.1
    have hrest : Table.erase ((key, value) :: e :: t) key = e :: t := by
      have hnot : key ∉ Table.keys (e :: t) := by simpa using h
      rw [Table.erase, List.filter_cons_of_neg (by simp), ← Table.erase,
        Table.erase_of_not_mem hnot]
    have hcons : Table.erase (e :: place key value t) key = e :: t := by
      rw [Table.erase, List.filter_cons_of_pos (by simpa using hne), ← Table.erase, ih h.2]
    simp only [place]
    split
    · exact hcons
    · exact hrest
    · split
      · exact hrest
      · exact hcons

@[simp] theorem define_define (t : Table JsString V) (key : JsString) (value value' : V) :
    define (define t key value) key value' = define t key value' := by
  have hhas : (define t key value).has key = true := by simp [Table.has]
  rw [define, if_pos hhas]
  by_cases h : t.has key = true
  · rw [define, define, if_pos h, if_pos h, Table.set_set]
  · rw [define, define, if_neg h, if_neg h, set_place (by simpa using h)]

theorem define_of_get {t : Table JsString V} {key : JsString} {value : V}
    (h : t.get key = some value) : define t key value = t := by
  rw [define, if_pos (by simp [Table.has, h]), Table.set_of_get h]

@[simp] theorem erase_define (t : Table JsString V) (key : JsString) (value : V) :
    (define t key value).erase key = t.erase key := by
  by_cases h : t.has key = true
  · rw [define, if_pos h, Table.erase_set]
  · have hk : key ∉ t.keys := by simpa using h
    rw [define, if_neg h, erase_place hk, Table.erase_of_not_mem hk]

/-- A key enumerated after every present one is placed at the end. -/
theorem define_of_forall_before {t : Table JsString V} {key : JsString}
    (h : ∀ k ∈ t.keys, KeyBefore k key) (value : V) : define t key value = t ++ [(key, value)] := by
  have hk : key ∉ t.keys := fun hmem => (h key hmem).1 rfl
  rw [define, Table.has_eq_false.mpr hk, if_neg Bool.false_ne_true]
  clear hk
  induction t with
  | nil => rfl
  | cons e t ih =>
    have hrest := ih fun k hmem => h k (List.mem_cons_of_mem _ hmem)
    have he := (h e.1 (List.mem_cons_self ..)).2
    simp only [place, List.cons_append]
    split
    · rw [hrest]
    · next i hi hj =>
      obtain ⟨j, hj', -⟩ := he i hi
      rw [hj] at hj'
      cases hj'
    · next i j hi hj =>
      obtain ⟨j', hj', hlt⟩ := he i hi
      rw [hj] at hj'
      cases hj'
      rw [if_neg (by omega), hrest]

/-! ### Enumeration order -/

/-- The decimal digits a numeral spells, least first. -/
def digitsOf (key : JsString) : List ℕ := (key.map fun u => u.toNat - 48).reverse

theorem ofDigits_digitsOf (key : JsString) :
    Nat.ofDigits 10 (digitsOf key) = key.foldl (fun n u => n * 10 + (u.toNat - 48)) 0 := by
  rw [Nat.ofDigits_eq_foldr, digitsOf, List.foldr_reverse, List.foldl_map]
  congr 1
  funext n u
  simp only [Nat.cast_id]
  omega

/-- The code units of a numeral are determined by its digits. -/
theorem eq_of_digitsOf_eq {k k' : JsString} (hk : ∀ u ∈ k, 48 ≤ u.toNat ∧ u.toNat ≤ 57)
    (hk' : ∀ u ∈ k', 48 ≤ u.toNat ∧ u.toNat ≤ 57) (h : digitsOf k = digitsOf k') : k = k' := by
  have hmap := List.reverse_injective h
  induction k generalizing k' with
  | nil => exact (List.map_eq_nil_iff.mp hmap.symm).symm
  | cons u us ih =>
    obtain _ | ⟨u', us'⟩ := k'
    · cases hmap
    · obtain ⟨hu, hus⟩ := List.forall_mem_cons.mp hk
      obtain ⟨hu', hus'⟩ := List.forall_mem_cons.mp hk'
      obtain ⟨hhead, htail⟩ := List.cons_eq_cons.mp hmap
      have hhead' : u.toNat - 48 = u'.toNat - 48 := hhead
      have hnat : u.toNat = u'.toNat := by omega
      rw [UInt16.toNat_inj.mp hnat, ih hus hus' (congrArg List.reverse htail) htail]

/-- A numeral has the digits of the number it spells, unless that is zero. -/
theorem digits_of_numeral? {k : JsString} {n : ℕ} (h : numeral? k = some n) :
    if n = 0 then digitsOf k = [0] else Nat.digits 10 n = digitsOf k := by
  simp only [numeral?, Option.ite_none_right_eq_some, Option.some.injEq] at h
  obtain ⟨⟨hne, hdigits, hlead⟩, hn⟩ := h
  rw [← ofDigits_digitsOf] at hn
  obtain _ | ⟨u, us⟩ := k
  · exact absurd rfl hne
  have hsplit : digitsOf (u :: us) = digitsOf us ++ [u.toNat - 48] := by
    rw [digitsOf, List.map_cons, List.reverse_cons, digitsOf]
  by_cases hzero : u = 48
  · have hus : us = [] := by simpa [hzero] using hlead
    have hlone : digitsOf (u :: us) = [0] := by rw [hus, hzero]; rfl
    rw [hlone] at hn ⊢
    rw [if_pos (by rw [← hn]; rfl)]
  · have hu := (List.forall_mem_cons.mp hdigits).1
    have hpos : u.toNat - 48 ≠ 0 := by
      have : u.toNat ≠ 48 := fun heq => hzero (UInt16.toNat_inj.mp heq)
      omega
    have hback : Nat.digits 10 n = digitsOf (u :: us) := by
      rw [← hn]
      refine Nat.digits_ofDigits 10 (by omega) _ ?_ ?_
      · intro d hd
        obtain ⟨v, hv, rfl⟩ := List.mem_map.mp (List.mem_reverse.mp hd)
        have := hdigits v hv
        omega
      · intro hnil
        simp only [hsplit, List.getLast_append_singleton]
        exact hpos
    have hn0 : n ≠ 0 := by
      intro hn0
      rw [hn0, Nat.digits_zero, hsplit] at hback
      exact absurd hback (by simp)
    rw [if_neg hn0]
    exact hback

theorem numeral?_injective {k k' : JsString} {n : ℕ} (h : numeral? k = some n)
    (h' : numeral? k' = some n) : k = k' := by
  have hd := digits_of_numeral? h
  have hd' := digits_of_numeral? h'
  have hdigits (k : JsString) (h : numeral? k = some n) : ∀ u ∈ k, 48 ≤ u.toNat ∧ u.toNat ≤ 57 := by
    simp only [numeral?, Option.ite_none_right_eq_some] at h
    exact h.1.2.1
  refine eq_of_digitsOf_eq (hdigits k h) (hdigits k' h') ?_
  by_cases hn : n = 0
  · rw [if_pos hn] at hd hd'
    rw [hd, hd']
  · rw [if_neg hn] at hd hd'
    rw [← hd, hd']

theorem arrayIndex?_injective {k k' : JsString} {i : ℕ} (h : arrayIndex? k = some i)
    (h' : arrayIndex? k' = some i) : k = k' :=
  numeral?_injective (Option.filter_eq_some_iff.mp h).1 (Option.filter_eq_some_iff.mp h').1

/-- Placing a new key keeps the enumeration order. -/
theorem pairwise_place {t : Table JsString V} (ht : t.keys.Pairwise KeyBefore) {key : JsString}
    (h : key ∉ t.keys) (value : V) : (place key value t).keys.Pairwise KeyBefore := by
  induction t with
  | nil => simp [place]
  | cons e t ih =>
    obtain ⟨he, ht⟩ := List.pairwise_cons.mp ht
    simp only [Table.keys_cons, List.mem_cons, not_or] at h
    have hlater (hbefore : KeyBefore e.1 key) : (Table.keys (e :: place key value t)).Pairwise KeyBefore := by
      refine List.pairwise_cons.mpr ⟨fun k hk => ?_, ih ht h.2⟩
      rcases List.mem_cons.mp (((place_perm t key value).map Prod.fst).mem_iff.mp hk) with hnew | hold
      · rw [hnew]
        exact hbefore
      · exact he k hold
    have hfirst {i : ℕ} (hi : arrayIndex? key = some i) (hbefore : ∀ j, arrayIndex? e.1 = some j → i < j) :
        (Table.keys ((key, value) :: e :: t)).Pairwise KeyBefore := by
      refine List.pairwise_cons.mpr ⟨fun k hk => ?_, List.pairwise_cons.mpr ⟨he, ht⟩⟩
      have hne : key ≠ k := by
        rintro rfl
        rcases List.mem_cons.mp hk with heq | hmem
        · exact h.1 heq
        · exact h.2 hmem
      refine ⟨hne, fun j hj => ⟨i, hi, ?_⟩⟩
      rcases List.mem_cons.mp hk with heq | hmem
      · rw [heq] at hj
        exact hbefore j hj
      · obtain ⟨i', hi', hlt⟩ := (he k hmem).2 j hj
        exact (hbefore i' hi').trans hlt
    simp only [place]
    split
    · next hnone => exact hlater ⟨Ne.symm h.1, fun j hj => by rw [hnone] at hj; cases hj⟩
    · next i hi hnone => exact hfirst hi fun j hj => by rw [hnone] at hj; cases hj
    · next i j hi hj =>
      split
      · next hlt =>
        refine hfirst hi fun j' hj' => ?_
        rw [hj] at hj'
        rwa [← Option.some.inj hj']
      · next hge =>
        have hne : i ≠ j := by
          rintro rfl
          exact h.1 (arrayIndex?_injective hi hj)
        refine hlater ⟨Ne.symm h.1, fun i' hi' => ⟨j, hj, ?_⟩⟩
        rw [hi] at hi'
        have := Option.some.inj hi'
        omega

theorem pairwise_define {t : Table JsString V} (ht : t.keys.Pairwise KeyBefore) (key : JsString)
    (value : V) : (define t key value).keys.Pairwise KeyBefore := by
  rw [define]
  split
  · next h => rwa [Table.keys_set_of_mem (by simpa using h)]
  · next h => exact pairwise_place ht (by simpa using h) value

end JsObject

end Phi
