import Phi.Data.ByteLength
import Phi.Data.Lexicographic
import Phi.Session.Storage

/-!
# Prefix scans of the SQLite storage

The SQLite storage finds the values whose keys begin with a prefix by a range of keys: from the prefix on, up to a
boundary made by incrementing the last code point that can be incremented. SQLite compares the keys as UTF-8 bytes.
The range is exactly the keys with the prefix, in the order of the in-memory storage (`mem_range_iff`,
`binary_le_iff`), so both storages scan alike (`scanScalarValueRows_eq_scanValues`).
-/

namespace Phi.Session

open InMemoryStorageState Lexicographic

/-! ## The query -/

/-- The loop of `nextPrefixBoundary`, over the code points from the last one back. -/
def incrementLast : List ℕ → Option JsString
  | [] => none
  | codePoint :: front =>
    if codePoint < 0x10ffff then
      let nextCodePoint := if 0xd7ff ≤ codePoint ∧ codePoint < 0xe000 then 0xe000 else codePoint + 1
      some (front.reverse.flatMap Text.utf16Of ++ Text.utf16Of nextCodePoint)
    else incrementLast front

def nextPrefixBoundary (key : JsString) : Option JsString :=
  if key = [] then none else incrementLast (codePoints key).reverse

/-- A text as the collation `BINARY` compares it: its UTF-8 bytes, in lexicographic order. -/
def binary (text : JsString) : List ℕ := (textEncode text).map UInt8.toNat

/-- The condition of the query on `key`. -/
def InRange (start key : JsString) : Prop :=
  binary start ≤ binary key ∧ ∀ bound ∈ nextPrefixBoundary start, binary key < binary bound

instance (start key : JsString) : Decidable (InRange start key) := inferInstanceAs (Decidable (_ ∧ _))

/-- The rows of a session that the query selects, `ORDER BY key ASC`. -/
def scanScalarValueRows (rows : List StoredValue) (scan : StoreAddress) : List StoredValue :=
  (rows.filter fun row => row.address.namespace = scan.namespace ∧ InRange scan.key row.address.key).mergeSort
    fun left right => decide (binary left.address.key ≤ binary right.address.key)

/-! ## UTF-8 keeps the order of the code points -/

theorem map_toNat_utf8Of {c : ℕ} (hc : Utf8.IsScalar c) :
    (Text.utf8Of c).map UInt8.toNat =
      if c < 0x80 then [c]
      else if c < 0x800 then [0xC0 + c / 0x40, 0x80 + c % 0x40]
      else if c < 0x10000 then [0xE0 + c / 0x1000, 0x80 + c / 0x40 % 0x40, 0x80 + c % 0x40]
      else [0xF0 + c / 0x40000, 0x80 + c / 0x1000 % 0x40, 0x80 + c / 0x40 % 0x40, 0x80 + c % 0x40] := by
  have hlt := hc.1
  rw [Text.utf8Of]
  split_ifs
  · simp only [List.map_cons, List.map_nil, Utf8.ofNat_toNat (show c < 256 by omega)]
  · simp only [List.map_cons, List.map_nil, Utf8.ofNat_toNat (show 0xC0 + c / 0x40 < 256 by omega),
      Utf8.ofNat_toNat (show 0x80 + c % 0x40 < 256 by omega)]
  · simp only [List.map_cons, List.map_nil, Utf8.ofNat_toNat (show 0xE0 + c / 0x1000 < 256 by omega),
      Utf8.ofNat_toNat (show 0x80 + c / 0x40 % 0x40 < 256 by omega),
      Utf8.ofNat_toNat (show 0x80 + c % 0x40 < 256 by omega)]
  · simp only [List.map_cons, List.map_nil, Utf8.ofNat_toNat (show 0xF0 + c / 0x40000 < 256 by omega),
      Utf8.ofNat_toNat (show 0x80 + c / 0x1000 % 0x40 < 256 by omega),
      Utf8.ofNat_toNat (show 0x80 + c / 0x40 % 0x40 < 256 by omega),
      Utf8.ofNat_toNat (show 0x80 + c % 0x40 < 256 by omega)]

/-- The digits of a number part where those of a greater one first are greater. -/
theorem parts_of_le {x y : ℕ} {xs ys : List ℕ} (hle : x ≤ y) (h : x = y → Parts xs ys) : Parts (x :: xs) (y :: ys) := by
  rcases hle.lt_or_eq with hlt | rfl
  · exact .head hlt xs ys
  · exact (h rfl).cons x

theorem parts_utf8Of {a b : ℕ} (ha : Utf8.IsScalar a) (hb : Utf8.IsScalar b) (hab : a < b) :
    Parts ((Text.utf8Of a).map UInt8.toNat) ((Text.utf8Of b).map UInt8.toNat) := by
  have hlt := hb.1
  rw [map_toNat_utf8Of ha, map_toNat_utf8Of hb]
  split_ifs
  -- characters of one length, and no two whose lengths are in the wrong order
  · exact .head hab [] []
  · exact .head (by omega) _ _
  · exact .head (by omega) _ _
  · exact .head (by omega) _ _
  · omega
  · refine parts_of_le (by omega) fun h1 => ?_
    exact .head (by omega) _ _
  · exact .head (by omega) _ _
  · exact .head (by omega) _ _
  · omega
  · omega
  · refine parts_of_le (by omega) fun h1 => parts_of_le (by omega) fun h2 => ?_
    exact .head (by omega) _ _
  · exact .head (by omega) _ _
  · omega
  · omega
  · omega
  · refine parts_of_le (by omega) fun h1 => parts_of_le (by omega) fun h2 => parts_of_le (by omega) fun h3 => ?_
    exact .head (by omega) _ _

theorem codePoints_of_paired {s : JsString} (hs : Text.Paired s) : codePoints s = Text.scalars s := by
  induction hs with
  | nil => rfl
  | @unit u s hu _ ih =>
    rw [Text.scalars_cons hu, ← ih]
    have hhigh : Text.isHighSurrogate u = false := (Bool.or_eq_false_iff.mp hu).1
    cases s with
    | nil => rfl
    | cons v rest => rw [codePoints, hhigh, Bool.false_and, if_neg Bool.false_ne_true]
  | @pair u v s hu hv _ ih =>
    rw [Text.scalars_pair hu hv, ← ih, codePoints, hu, hv, Bool.true_and, if_pos rfl]

theorem codePointsLe_iff (xs ys : List ℕ) : codePointsLe xs ys = true ↔ xs ≤ ys := by
  induction xs generalizing ys with
  | nil =>
    rw [codePointsLe]
    exact ⟨fun _ => le_of_isPrefix List.nil_prefix, fun _ => rfl⟩
  | cons a xs ih =>
    cases ys with
    | nil =>
      rw [codePointsLe]
      exact ⟨fun h => Bool.noConfusion h, fun h => (not_lt.mpr h (List.nil_lt_cons a xs)).elim⟩
    | cons b ys =>
      rw [codePointsLe, cons_le_cons_iff]
      split_ifs with hab
      · rw [ih]
        simp [hab]
      · simp [hab]

theorem binary_lt_iff {left right : JsString} :
    binary left < binary right ↔ Text.scalars left < Text.scalars right := by
  have hbytes : ∀ s, binary s = (Text.scalars s).flatMap fun c => (Text.utf8Of c).map UInt8.toNat := by
    intro s
    rw [binary, textEncode, List.map_flatMap]
  rw [hbytes, hbytes]
  refine flatMap_lt_flatMap_iff (P := Utf8.IsScalar) ?_ ?_ (isScalar_scalars left) (isScalar_scalars right)
  · intro c hc
    rw [map_toNat_utf8Of hc]
    split_ifs <;> exact List.cons_ne_nil _ _
  · exact fun a b ha hb hab => parts_utf8Of ha hb hab

/-- SQLite orders the keys as `compareKeys` does. -/
theorem binary_le_iff {left right : JsString} (hleft : Text.Paired left) (hright : Text.Paired right) :
    binary left ≤ binary right ↔ codePointsLe (codePoints left) (codePoints right) = true := by
  rw [codePointsLe_iff, codePoints_of_paired hleft, codePoints_of_paired hright, ← not_lt, binary_lt_iff, not_lt]

/-! ## The range is the prefix -/

theorem scalars_append_of_paired {s : JsString} (hs : Text.Paired s) (t : JsString) :
    Text.scalars (s ++ t) = Text.scalars s ++ Text.scalars t := by
  induction hs with
  | nil => rfl
  | unit hu _ ih => rw [List.cons_append, Text.scalars_cons hu, Text.scalars_cons hu, ih, List.cons_append]
  | pair hu hv _ ih =>
    rw [List.cons_append, List.cons_append, Text.scalars_pair hu hv, Text.scalars_pair hu hv, ih, List.cons_append]

theorem prefix_iff_scalars {start key : JsString} (hstart : Text.Paired start) (hkey : Text.Paired key) :
    start <+: key ↔ Text.scalars start <+: Text.scalars key := by
  constructor
  · rintro ⟨rest, rfl⟩
    rw [scalars_append_of_paired hstart]
    exact List.prefix_append ..
  · rintro ⟨rest, hrest⟩
    rw [← flatMap_scalars hkey, ← hrest, List.flatMap_append, flatMap_scalars hstart]
    exact List.prefix_append ..

/-- The scalar value after `c`. -/
def nextScalar (c : ℕ) : ℕ := if 0xd7ff ≤ c ∧ c < 0xe000 then 0xe000 else c + 1

theorem isScalar_nextScalar {c : ℕ} (hc : c < 0x10ffff) : Utf8.IsScalar (nextScalar c) := by
  rw [nextScalar, Utf8.IsScalar]
  split_ifs <;> omega

/-- No scalar value lies between. -/
theorem lt_nextScalar_iff {b c : ℕ} (hb : Utf8.IsScalar b) (hc : Utf8.IsScalar c) : b < nextScalar c ↔ b ≤ c := by
  rcases hb with ⟨-, hb⟩
  rcases hc with ⟨-, hc⟩
  rw [nextScalar]
  split_ifs <;> omega

/-- The boundary is after the last code point that can be incremented; what comes after that one is dropped. -/
theorem incrementLast_cases (codePoints : List ℕ) :
    (incrementLast codePoints = none ∧ ∀ t ∈ codePoints, 0x10ffff ≤ t) ∨
      ∃ tops c front, codePoints = tops ++ c :: front ∧ (∀ t ∈ tops, 0x10ffff ≤ t) ∧ c < 0x10ffff ∧
        incrementLast codePoints = some ((front.reverse ++ [nextScalar c]).flatMap Text.utf16Of) := by
  induction codePoints with
  | nil => exact Or.inl ⟨rfl, by simp⟩
  | cons c front ih =>
    by_cases hc : c < 0x10ffff
    · refine Or.inr ⟨[], c, front, rfl, by simp, hc, ?_⟩
      rw [incrementLast, if_pos hc, List.flatMap_append, List.flatMap_singleton, nextScalar]
    · rw [incrementLast, if_neg hc]
      rcases ih with ⟨hnone, htops⟩ | ⟨tops, c', front', rfl, htops, hc', hsome⟩
      · exact Or.inl ⟨hnone, List.forall_mem_cons.mpr ⟨by omega, htops⟩⟩
      · exact Or.inr ⟨c :: tops, c', front', rfl, List.forall_mem_cons.mpr ⟨by omega, htops⟩, hc', hsome⟩

theorem inRange_iff {start key : JsString} (hstart : Text.Paired start) (hkey : Text.Paired key) :
    InRange start key ↔ start <+: key := by
  have hscalars := isScalar_scalars key
  have hstartScalars := isScalar_scalars start
  have hle : ∀ left right, binary left ≤ binary right ↔ Text.scalars left ≤ Text.scalars right := by
    intro left right
    rw [← not_lt, binary_lt_iff, not_lt]
  have hmax : ∀ t : ℕ, 0x10ffff ≤ t → ∀ b ∈ Text.scalars key, b ≤ t := by
    intro t ht b hb
    have hb' := (hscalars b hb).1
    omega
  rw [prefix_iff_scalars hstart hkey, InRange, hle]
  by_cases hempty : start = []
  · subst hempty
    simp only [nextPrefixBoundary, if_true, Option.mem_def, reduceCtorEq, false_implies, implies_true, and_true]
    exact tops_le_iff (by simp [Text.scalars])
  · rw [nextPrefixBoundary, if_neg hempty, codePoints_of_paired hstart]
    rcases incrementLast_cases (Text.scalars start).reverse with ⟨hnone, htops⟩ | ⟨tops, c, front, hrev, htops, hc, hsome⟩
    · rw [hnone]
      simp only [Option.mem_def, reduceCtorEq, false_implies, implies_true, and_true]
      refine tops_le_iff fun t ht => hmax t (htops t (List.mem_reverse.mpr ht))
    · have hsplit : Text.scalars start = front.reverse ++ c :: tops.reverse := by
        rw [← List.reverse_reverse (Text.scalars start), hrev]
        simp
      have hc' : Utf8.IsScalar c := hstartScalars c (by simp [hsplit])
      have hfront : ∀ b ∈ front.reverse ++ [nextScalar c], Utf8.IsScalar b := by
        intro b hb
        rcases List.mem_append.mp hb with hb | hb
        · exact hstartScalars b (by rw [hsplit]; exact List.mem_append_left _ hb)
        · rw [List.mem_singleton.mp hb]
          exact isScalar_nextScalar hc
      rw [hsome, hsplit]
      simp only [Option.mem_some_iff, forall_eq', binary_lt_iff, scalars_flatMap_utf16Of hfront]
      refine front_le_and_lt_iff ?_ ?_ ?_
      · exact fun t ht => hmax t (htops t (List.mem_reverse.mp ht))
      · exact fun b hb => lt_nextScalar_iff (hscalars b hb) hc'
      · exact (lt_nextScalar_iff hc' hc').mpr le_rfl

/-- The query selects exactly the keys with the prefix, and puts them in the order of `compareKeys`. -/
theorem prefixScan (start key : JsString) (hstart : Text.Paired start) (hkey : Text.Paired key) :
    (InRange start key ↔ start <+: key) ∧
      ∀ other, Text.Paired other →
        (binary key ≤ binary other ↔ codePointsLe (codePoints key) (codePoints other) = true) :=
  ⟨inRange_iff hstart hkey, fun _ hother => binary_le_iff hkey hother⟩

/-- U+D7FF is followed by U+E000 at the boundary, and U+10FFFF carries. -/
theorem prefixScan_carry : InRange [0x61, 0xDBFF, 0xDFFF] [0x61, 0xDBFF, 0xDFFF, 0xE000] :=
  (prefixScan [0x61, 0xDBFF, 0xDFFF] [0x61, 0xDBFF, 0xDFFF, 0xE000]
    (.unit rfl (.pair rfl rfl .nil)) (.unit rfl (.pair rfl rfl (.unit rfl .nil)))).1.mpr
    ⟨[0xE000], rfl⟩

/-! ## Both storages scan alike -/

theorem keyLe_iff {left right : StoredValue} (hleft : Text.Paired left.address.key)
    (hright : Text.Paired right.address.key) :
    keyLe left right = true ↔ binary left.address.key ≤ binary right.address.key :=
  (binary_le_iff hleft hright).symm

theorem binary_injective {left right : JsString} (hleft : Text.Paired left) (hright : Text.Paired right)
    (h : binary left = binary right) : left = right := by
  have hscalars : Text.scalars left = Text.scalars right := by
    rcases lt_trichotomy (Text.scalars left) (Text.scalars right) with hlt | heq | hgt
    · exact (lt_irrefl _ (h ▸ binary_lt_iff.mpr hlt)).elim
    · exact heq
    · exact (lt_irrefl _ (h ▸ binary_lt_iff.mpr hgt)).elim
  rw [← flatMap_scalars hleft, hscalars, flatMap_scalars hright]

/-- Where the rows are the values of the in-memory state, in any order, a scan gives the same list. -/
theorem scanScalarValueRows_eq_scanValues (s : InMemoryStorageState) {rows : List StoredValue}
    (hrows : rows.Perm (s.scalarValues.map Prod.snd)) (hpaired : ∀ row ∈ rows, Text.Paired row.address.key)
    (hdistinct : ∀ row ∈ rows, ∀ row' ∈ rows, row.address = row'.address → row = row') {scan : StoreAddress}
    (hscan : Text.Paired scan.key) : scanScalarValueRows rows scan = s.scanValues scan := by
  have hselect : rows.filter (fun row => row.address.namespace = scan.namespace ∧ InRange scan.key row.address.key)
      = rows.filter fun row => row.address.namespace = scan.namespace ∧ scan.key <+: row.address.key := by
    refine List.filter_congr fun row hrow => ?_
    simp only [inRange_iff hscan (hpaired row hrow)]
  have hperm : (scanScalarValueRows rows scan).Perm (s.scanValues scan) := by
    rw [scanScalarValueRows, hselect, scanValues]
    exact (List.mergeSort_perm ..).trans ((hrows.filter _).trans (List.mergeSort_perm ..).symm)
  have hmem : ∀ row ∈ scanScalarValueRows rows scan, row ∈ rows ∧ row.address.namespace = scan.namespace := by
    intro row hrow
    rw [scanScalarValueRows, List.mem_mergeSort, List.mem_filter, decide_eq_true_eq] at hrow
    exact ⟨hrow.1, hrow.2.1⟩
  have hsorted : (scanScalarValueRows rows scan).Pairwise fun left right =>
      binary left.address.key ≤ binary right.address.key := by
    refine (List.pairwise_mergeSort ?_ ?_ _).imp fun h => of_decide_eq_true h
    · intro a b c hab hbc
      simp only [decide_eq_true_eq] at hab hbc ⊢
      exact hab.trans hbc
    · intro a b
      simp only [Bool.or_eq_true, decide_eq_true_eq]
      exact le_total _ _
  have hsorted' : (s.scanValues scan).Pairwise fun left right =>
      binary left.address.key ≤ binary right.address.key := by
    have hkeyLe : (s.scanValues scan).Pairwise fun left right => keyLe left right = true := by
      refine List.pairwise_mergeSort ?_ ?_ _
      · intro a b c hab hbc
        rw [keyLe, codePointsLe_iff] at hab hbc ⊢
        exact hab.trans hbc
      · intro a b
        simp only [Bool.or_eq_true, keyLe, codePointsLe_iff]
        exact le_total _ _
    refine hkeyLe.imp_of_mem fun {left right} hleft hright h => ?_
    have hl := (hmem left (hperm.mem_iff.mpr hleft)).1
    have hr := (hmem right (hperm.mem_iff.mpr hright)).1
    exact (keyLe_iff (hpaired left hl) (hpaired right hr)).mp h
  refine hperm.eq_of_pairwise ?_ hsorted hsorted'
  intro left right hleft hright hle hge
  rcases hmem left hleft with ⟨hl, hlns⟩
  rcases hmem right (hperm.mem_iff.mpr hright) with ⟨hr, hrns⟩
  have hkey := binary_injective (hpaired left hl) (hpaired right hr) (le_antisymm hle hge)
  refine hdistinct left hl right hr ?_
  rcases left with ⟨⟨leftNamespace, leftKey⟩, leftValue, leftSeq⟩
  rcases right with ⟨⟨rightNamespace, rightKey⟩, rightValue, rightSeq⟩
  have hnamespace : leftNamespace = rightNamespace := hlns.trans hrns.symm
  have hkeys : leftKey = rightKey := hkey
  show StoreAddress.mk leftNamespace leftKey = StoreAddress.mk rightNamespace rightKey
  rw [hnamespace, hkeys]

end Phi.Session
