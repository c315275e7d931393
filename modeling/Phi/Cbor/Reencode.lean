import Phi.Cbor.PrefixFree
import Phi.Data.StrictText

/-!
# Decoded values are encoded again

The decoder and the encoder check with code of their own. `Admissible o levels v` says what both of them
let through: the decoder returns nothing else (`admits_readItem`), and the encoder refuses nothing of it
that fits (`encodeValue_of_admissible`). The encoder writes every head in its shortest form, so the
`size` it needs is at most what the decoder read, whatever forms the input used. With the round trip the
new bytes decode to the same value (`encodeCbor_decodeCbor`).
-/

namespace Phi.Cbor

/-! ## What is written for a value -/

/-- The length of the head of an item with this argument. -/
def headSize (argument : ℕ) : ℕ :=
  if argument < 24 then 1
  else if argument ≤ 0xff then 2
  else if argument ≤ 0xffff then 3
  else if argument ≤ MAX_UINT32 then 5
  else 9

def numberSize (x : Float64) : ℕ :=
  match x.toInt? with
  | some n => if x.isNegZero then 9 else if n ≥ 0 then headSize n.toNat else headSize (-1 - n).toNat
  | none => 9

theorem headSize_le (argument : ℕ) : headSize argument ≤ 9 := by
  unfold headSize
  split_ifs <;> omega

/-- No number takes more than its float64 item. -/
theorem numberSize_le (x : Float64) : numberSize x ≤ 9 := by
  unfold numberSize
  split
  · split_ifs
    · exact le_refl 9
    · exact headSize_le _
    · exact headSize_le _
  · exact le_refl 9

/-- The length of a byte or text string. -/
def stringSize (bytes : List UInt8) : ℕ := headSize bytes.length + bytes.length

mutual

/-- The number of bytes written for a value without `undefined` members. -/
def size : CborValue → ℕ
  | .null => 1
  | .boolean _ => 1
  | .number x => numberSize x
  | .string s => stringSize (textEncode s)
  | .bytes b => stringSize b
  | .array items => headSize items.length + sizeItems items
  | .map _ entries => headSize entries.length + sizeEntries entries
  | .undefined => 0
  | .other _ => 0

def sizeItems : List CborValue → ℕ
  | [] => 0
  | v :: vs => size v + sizeItems vs

def sizeEntries : List (JsString × CborValue) → ℕ
  | [] => 0
  | e :: es => stringSize (textEncode e.1) + size e.2 + sizeEntries es

end

theorem sizeEntries_eq_sum (entries : List (JsString × CborValue)) :
    sizeEntries entries = (entries.map fun e => stringSize (textEncode e.1) + size e.2).sum := by
  induction entries with
  | nil => rfl
  | cons e es ih => rw [sizeEntries, List.map_cons, List.sum_cons, ih]

/-- A new member costs the same wherever it is enumerated. -/
theorem sizeEntries_define {entries : List (JsString × CborValue)} {key : JsString}
    (h : Table.has entries key = false) (value : CborValue) :
    sizeEntries (JsObject.define entries key value)
      = stringSize (textEncode key) + size value + sizeEntries entries := by
  rw [JsObject.define, if_neg (by simp [h]), sizeEntries_eq_sum, sizeEntries_eq_sum,
    ((JsObject.place_perm entries key value).map _).sum_eq, List.map_cons, List.sum_cons]

/-! ## What both sides let through -/

/-- A text the encoder accepts. -/
structure AdmissibleText (o : ResolvedCborOptions) (s : JsString) : Prop where
  length : (textEncode s).length ≤ o.maxByteLength
  text : textDecode (textEncode s) = some s

/-- A value within the limits, with `levels` nesting levels left. -/
inductive Admissible (o : ResolvedCborOptions) : ℕ → CborValue → Prop where
  | null {levels : ℕ} : Admissible o (levels + 1) .null
  | boolean {levels : ℕ} (b : Bool) : Admissible o (levels + 1) (.boolean b)
  | number {levels : ℕ} {x : Float64} (hfinite : x.isFinite = true)
    (hsafe : (x.isInteger && !x.isSafeInteger) = false) : Admissible o (levels + 1) (.number x)
  | string {levels : ℕ} {s : JsString} (hs : AdmissibleText o s) : Admissible o (levels + 1) (.string s)
  | bytes {levels : ℕ} {b : List UInt8} (hlength : b.length ≤ o.maxByteLength) :
    Admissible o (levels + 1) (.bytes b)
  | array {levels : ℕ} {items : List CborValue} (hlength : items.length ≤ o.maxContainerLength)
    (hitems : ∀ v ∈ items, Admissible o levels v) : Admissible o (levels + 1) (.array items)
  | map {levels : ℕ} {entries : List (JsString × CborValue)}
    (hlength : entries.length ≤ o.maxContainerLength)
    (hkeys : (Table.keys entries).Pairwise JsObject.KeyBefore)
    (htexts : ∀ e ∈ entries, AdmissibleText o e.1)
    (hentries : ∀ e ∈ entries, Admissible o levels e.2) : Admissible o (levels + 1) (.map false entries)

variable {o : ResolvedCborOptions}

namespace Admissible

theorem isUndefined {levels : ℕ} {v : CborValue} (h : Admissible o levels v) : v.isUndefined = false := by
  cases h <;> rfl

theorem dropUndefinedItems_eq {items : List CborValue} (h : ∀ v ∈ items, v.dropUndefined = v) :
    CborValue.dropUndefinedItems items = items := by
  induction items with
  | nil => rfl
  | cons v vs ih =>
    obtain ⟨hv, hvs⟩ := List.forall_mem_cons.mp h
    rw [CborValue.dropUndefinedItems, hv, ih hvs]

theorem dropUndefinedEntries_eq {entries : List (JsString × CborValue)}
    (hu : ∀ e ∈ entries, e.2.isUndefined = false) (h : ∀ e ∈ entries, e.2.dropUndefined = e.2) :
    CborValue.dropUndefinedEntries entries = entries := by
  induction entries with
  | nil => rfl
  | cons e es ih =>
    obtain ⟨he, hes⟩ := List.forall_mem_cons.mp h
    obtain ⟨hue, hues⟩ := List.forall_mem_cons.mp hu
    rw [CborValue.dropUndefinedEntries, if_neg (by simp [hue]), he, ih hues hes]

/-- Nothing is left out of an admissible value. -/
theorem dropUndefined_eq {levels : ℕ} {v : CborValue} (h : Admissible o levels v) :
    v.dropUndefined = v := by
  induction h with
  | array hlength hitems ih => rw [CborValue.dropUndefined, dropUndefinedItems_eq ih]
  | map hlength hkeys htexts hentries ih =>
    rw [CborValue.dropUndefined, dropUndefinedEntries_eq (fun e he => (hentries e he).isUndefined) ih]
  | _ => simp only [CborValue.dropUndefined]

theorem wellFormedItems {items : List CborValue} (h : ∀ v ∈ items, v.WellFormed) :
    CborValue.WellFormedItems items := by
  induction items with
  | nil => exact trivial
  | cons v vs ih =>
    obtain ⟨hv, hvs⟩ := List.forall_mem_cons.mp h
    exact ⟨hv, ih hvs⟩

theorem wellFormedEntries {entries : List (JsString × CborValue)} (h : ∀ e ∈ entries, e.2.WellFormed) :
    CborValue.WellFormedEntries entries := by
  induction entries with
  | nil => exact trivial
  | cons e es ih =>
    obtain ⟨he, hes⟩ := List.forall_mem_cons.mp h
    exact ⟨he, ih hes⟩

/-- An admissible value is one that JavaScript can hold. -/
theorem wellFormed {levels : ℕ} {v : CborValue} (h : Admissible o levels v) : v.WellFormed := by
  induction h with
  | array hlength hitems ih => exact wellFormedItems ih
  | map hlength hkeys htexts hentries ih => exact ⟨hkeys, wellFormedEntries ih⟩
  | _ => exact trivial

end Admissible

/-! ## The encoder accepts them -/

theorem writeBytes_of_fits {w bytes : List UInt8} (h : w.length + bytes.length ≤ o.maxByteLength) :
    writeBytes o w bytes = .ok (w ++ bytes) := by
  rw [writeBytes, ensureCapacity, if_neg (by omega)]
  rfl

/-- `r` appends exactly `n` bytes. -/
def Appends (w : CborWriter) (n : ℕ) (r : Except Failure CborWriter) : Prop :=
  ∃ bytes, r = .ok (w ++ bytes) ∧ bytes.length = n

theorem Appends.bind {w : CborWriter} {n m : ℕ} {r : Except Failure CborWriter}
    {f : CborWriter → Except Failure CborWriter} (hr : Appends w n r)
    (hf : ∀ w', w'.length = w.length + n → Appends w' m (f w')) : Appends w (n + m) (r >>= f) := by
  obtain ⟨bytes, rfl, rfl⟩ := hr
  obtain ⟨bytes', hw, rfl⟩ := hf (w ++ bytes) List.length_append
  exact ⟨bytes ++ bytes', by rw [ok_bind, hw, List.append_assoc], List.length_append⟩

theorem appends_writeBytes {w bytes : List UInt8} (h : w.length + bytes.length ≤ o.maxByteLength) :
    Appends w bytes.length (writeBytes o w bytes) :=
  ⟨bytes, writeBytes_of_fits h, rfl⟩

theorem appends_writeByte {w : CborWriter} (value : ℕ) (h : w.length + 1 ≤ o.maxByteLength) :
    Appends w 1 (writeByte o w value) :=
  appends_writeBytes h

theorem appends_writeUint16 {w : CborWriter} (value : ℕ) (h : w.length + 2 ≤ o.maxByteLength) :
    Appends w 2 (writeUint16 o w value) :=
  appends_writeBytes h

theorem appends_writeUint32 {w : CborWriter} (value : ℕ) (h : w.length + 4 ≤ o.maxByteLength) :
    Appends w 4 (writeUint32 o w value) :=
  appends_writeBytes h

/-- A head takes `headSize` bytes. -/
theorem appends_writeArgument {w : CborWriter} (majorType value : ℕ)
    (h : w.length + headSize value ≤ o.maxByteLength) :
    Appends w (headSize value) (writeArgument o w majorType value) := by
  unfold headSize at h ⊢
  unfold writeArgument
  split_ifs at h ⊢
  · exact appends_writeByte _ h
  · refine (appends_writeByte _ (by omega)).bind (m := 1) fun w' hw' => ?_
    exact appends_writeByte _ (by omega)
  · refine (appends_writeByte _ (by omega)).bind (m := 2) fun w' hw' => ?_
    exact appends_writeUint16 _ (by omega)
  · refine (appends_writeByte _ (by omega)).bind (m := 4) fun w' hw' => ?_
    exact appends_writeUint32 _ (by omega)
  · refine (appends_writeByte _ (by omega)).bind (m := 8) fun w' hw' => ?_
    refine (appends_writeUint32 _ (by omega)).bind (m := 4) fun w'' hw'' => ?_
    exact appends_writeUint32 _ (by omega)

theorem appends_string {w bytes : List UInt8} (majorType : ℕ)
    (h : w.length + stringSize bytes ≤ o.maxByteLength) :
    Appends w (stringSize bytes) (do
      let w ← writeArgument o w majorType bytes.length
      writeBytes o w bytes) := by
  unfold stringSize at h ⊢
  refine (appends_writeArgument majorType bytes.length (by omega)).bind fun w' hw' => ?_
  exact appends_writeBytes (by omega)

theorem appends_encodeText {w : CborWriter} {s : JsString} (hs : AdmissibleText o s)
    (h : w.length + stringSize (textEncode s) ≤ o.maxByteLength) :
    Appends w (stringSize (textEncode s)) (encodeText o w s) := by
  have hlength := hs.length
  unfold encodeText
  rw [if_neg (by omega), if_neg (not_not.mpr hs.text)]
  exact appends_string 3 h

theorem appends_writeFloat64 {w : CborWriter} (x : Float64) (h : w.length + 9 ≤ o.maxByteLength) :
    Appends w 9 (writeFloat64 o w x) := by
  have hlength : (0xfb :: x.toBytesBE).length = 9 := by simp
  rw [← hlength] at h ⊢
  exact appends_writeBytes h

theorem appends_encodeNumber {w : CborWriter} {x : Float64} (hfinite : x.isFinite = true)
    (hsafe : (x.isInteger && !x.isSafeInteger) = false) (h : w.length + numberSize x ≤ o.maxByteLength) :
    Appends w (numberSize x) (encodeNumber o w x) := by
  unfold numberSize at h ⊢
  unfold encodeNumber
  rw [if_neg (by simp [hfinite])]
  cases hint : x.toInt? with
  | none =>
    rw [hint] at h
    exact appends_writeFloat64 x h
  | some n =>
    have hinteger : x.isInteger = true := by
      obtain ⟨m, hm, -⟩ := Option.map_eq_some_iff.mp hint
      simp [Float64.isInteger, hm]
    have hsafe' : x.isSafeInteger = true := by simpa [hinteger] using hsafe
    rw [hint] at h
    simp only [hsafe', Bool.true_eq_false, if_false] at h ⊢
    by_cases hz : x.isNegZero = true
    · rw [if_pos hz] at h ⊢
      rw [if_pos hz]
      exact appends_writeFloat64 x h
    rw [if_neg hz] at h ⊢
    rw [if_neg hz]
    by_cases hn : n ≥ 0
    · rw [if_pos hn] at h ⊢
      rw [if_pos hn]
      exact appends_writeArgument 0 n.toNat h
    · rw [if_neg hn] at h ⊢
      rw [if_neg hn]
      exact appends_writeArgument 1 (-1 - n).toNat h

section Nested

variable {levels depth : ℕ}

/-- Items are written one after another, each as the induction hypothesis says. -/
theorem appends_encodeItems {items : List CborValue} (hitems : ∀ v ∈ items, Admissible o levels v)
    (ih : ∀ v ∈ items, ∀ w : CborWriter, w.length + size v ≤ o.maxByteLength →
      Appends w (size v) (encodeValue o w v depth))
    {w : CborWriter} (h : w.length + sizeItems items ≤ o.maxByteLength) :
    Appends w (sizeItems items) (encodeItems o w items depth) := by
  induction items generalizing w with
  | nil =>
    refine ⟨[], ?_, rfl⟩
    rw [encodeItems, List.append_nil]
  | cons v vs ihs =>
    obtain ⟨hv, hvs⟩ := List.forall_mem_cons.mp hitems
    obtain ⟨ihv, ihvs⟩ := List.forall_mem_cons.mp ih
    rw [sizeItems] at h ⊢
    rw [encodeItems, if_neg (by simp [hv.isUndefined])]
    refine (ihv w (by omega)).bind fun w' hw' => ?_
    exact ihs hvs ihvs (by omega)

theorem appends_encodeEntries {entries : List (JsString × CborValue)}
    (htexts : ∀ e ∈ entries, AdmissibleText o e.1) (hentries : ∀ e ∈ entries, Admissible o levels e.2)
    (ih : ∀ e ∈ entries, ∀ w : CborWriter, w.length + size e.2 ≤ o.maxByteLength →
      Appends w (size e.2) (encodeValue o w e.2 depth))
    {w : CborWriter} (h : w.length + sizeEntries entries ≤ o.maxByteLength) :
    Appends w (sizeEntries entries) (encodeEntries o w entries depth) := by
  induction entries generalizing w with
  | nil =>
    refine ⟨[], ?_, rfl⟩
    rw [encodeEntries, List.append_nil]
  | cons e es ihs =>
    obtain ⟨htext, htexts⟩ := List.forall_mem_cons.mp htexts
    obtain ⟨he, hes⟩ := List.forall_mem_cons.mp hentries
    obtain ⟨ihe, ihes⟩ := List.forall_mem_cons.mp ih
    rw [sizeEntries] at h ⊢
    rw [encodeEntries, if_neg (by simp [he.isUndefined]), Nat.add_assoc]
    refine (appends_encodeText htext (by omega)).bind fun w' hw' => ?_
    refine (ihe w' (by omega)).bind fun w'' hw'' => ?_
    exact ihs htexts hes ihes (by omega)

/-- No member of an admissible map is left out of the count. -/
theorem countP_defined {entries : List (JsString × CborValue)}
    (hentries : ∀ e ∈ entries, Admissible o levels e.2) :
    (entries.countP fun e => !e.2.isUndefined) = entries.length := by
  rw [List.countP_eq_length]
  intro e he
  simp [(hentries e he).isUndefined]

end Nested

/-- An admissible value that fits is written, in `size` bytes. -/
theorem encodeValue_of_admissible {levels : ℕ} {v : CborValue} (hv : Admissible o levels v) :
    ∀ {depth : ℕ}, levels + depth = o.maxDepth + 1 → ∀ w : CborWriter,
      w.length + size v ≤ o.maxByteLength → Appends w (size v) (encodeValue o w v depth) := by
  induction hv with
  | null =>
    intro depth hdepth w h
    rw [encodeValue.eq_def, if_neg (by omega)]
    exact appends_writeByte _ h
  | boolean b =>
    intro depth hdepth w h
    rw [encodeValue.eq_def, if_neg (by omega)]
    exact appends_writeByte _ h
  | number hfinite hsafe =>
    intro depth hdepth w h
    rw [encodeValue.eq_def, if_neg (by omega)]
    exact appends_encodeNumber hfinite hsafe h
  | string hs =>
    intro depth hdepth w h
    rw [encodeValue.eq_def, if_neg (by omega)]
    exact appends_encodeText hs h
  | bytes hlength =>
    intro depth hdepth w h
    rw [encodeValue.eq_def, if_neg (by omega)]
    simp only [if_neg (Nat.not_lt.mpr hlength)]
    exact appends_string 2 h
  | array hlength hitems ih =>
    intro depth hdepth w h
    rw [encodeValue.eq_def, if_neg (by omega)]
    simp only [if_neg (Nat.not_lt.mpr hlength)]
    rw [size] at h ⊢
    refine (appends_writeArgument 4 _ (by omega)).bind fun w' hw' => ?_
    exact appends_encodeItems hitems (fun v hv => ih v hv (by omega)) (by omega)
  | map hlength hkeys htexts hentries ih =>
    intro depth hdepth w h
    rw [encodeValue.eq_def, if_neg (by omega)]
    simp only [countP_defined hentries, Bool.false_eq_true, if_false, if_neg (Nat.not_lt.mpr hlength)]
    rw [size] at h ⊢
    refine (appends_writeArgument 5 _ (by omega)).bind fun w' hw' => ?_
    exact appends_encodeEntries htexts hentries (fun e he => ih e he (by omega)) (by omega)

/-! ## The decoder returns nothing else -/

theorem consumes_readByte : Consumes readByte fun used value => used.length = 1 ∧ value < 256 := by
  intro input value rest h
  cases input with
  | nil => cases h
  | cons b tail =>
    obtain ⟨rfl, rfl⟩ := Prod.mk.inj (Except.ok.inj h)
    exact ⟨[b], rfl, rfl, b.toNat_lt⟩

theorem consumes_readBytes (length : ℕ) :
    Consumes (readBytes length) fun used bytes => used = bytes ∧ bytes.length = length := by
  intro input bytes rest h
  obtain ⟨hle, h⟩ := ite_error_eq_ok.mp h
  obtain ⟨rfl, rfl⟩ := Prod.mk.inj (Except.ok.inj h)
  exact ⟨_, (List.take_append_drop length input).symm, rfl, List.length_take_of_le (by omega)⟩

theorem getD_lt (bytes : List UInt8) (i : ℕ) : (bytes.getD i 0).toNat < 256 := UInt8.toNat_lt _

theorem consumes_readUint32 :
    Consumes readUint32 fun used value => used.length = 4 ∧ value < 2 ^ 32 := by
  refine (consumes_readBytes 4).map fun used bytes h => ?_
  rw [h.1]
  refine ⟨h.2, ?_⟩
  have h0 := getD_lt bytes 0
  have h1 := getD_lt bytes 1
  have h2 := getD_lt bytes 2
  have h3 := getD_lt bytes 3
  omega

/-- An argument's shortest form is no longer than the form it was read from. -/
theorem consumes_readArgument (additionalInformation : ℕ) :
    Consumes (readArgument additionalInformation) fun used value =>
      headSize value ≤ used.length + 1 ∧ value < 2 ^ 53 := by
  have hsize {value length : ℕ} (h : headSize value ≤ length + 1) {used : List UInt8}
      (hused : used.length = length) : headSize value ≤ used.length + 1 := by omega
  unfold readArgument
  split
  · next hsmall =>
    refine Consumes.pure ⟨?_, by omega⟩
    rw [headSize, if_pos hsmall]
    simp
  split
  · refine consumes_readByte.mono fun used value h => ⟨hsize ?_ h.1, by omega⟩
    unfold headSize
    split_ifs <;> omega
  · refine (consumes_readBytes 2).map fun used bytes h => ?_
    have h0 := getD_lt bytes 0
    have h1 := getD_lt bytes 1
    refine ⟨hsize ?_ (h.1 ▸ h.2), by omega⟩
    unfold headSize
    split_ifs <;> omega
  · refine consumes_readUint32.mono fun used value h => ⟨hsize ?_ h.1, by omega⟩
    have hle : value ≤ MAX_UINT32 := by
      simp only [MAX_UINT32]
      omega
    unfold headSize
    split_ifs <;> omega
  · refine consumes_readUint32.bind fun used high h => ?_
    refine consumes_readUint32.bind fun used' low h' => ?_
    refine Consumes.guard _ fun hhigh => Consumes.pure ⟨?_, ?_⟩
    · have hlength : (used ++ (used' ++ [])).length = 8 := by
        rw [List.length_append, List.append_nil, h.1, h'.1]
      rw [hlength]
      unfold headSize
      split_ifs <;> omega
    · simp only [UINT32_BASE]
      omega
  · exact Consumes.throw _
  · exact Consumes.throw _

theorem consumes_readLength (additionalInformation : ℕ) (kind : String) (limit : ℕ) :
    Consumes (readLength additionalInformation kind limit) fun used length =>
      headSize length ≤ used.length + 1 ∧ length ≤ limit := by
  refine Consumes.guard _ fun _ => ?_
  refine (consumes_readArgument additionalInformation).bind fun used length h => ?_
  refine Consumes.guard _ fun hlength => Consumes.pure ⟨?_, by omega⟩
  rw [List.append_nil]
  exact h.1

/-- What `r` returns has admissible nesting, and encoding it takes no more than the bytes read and
`head` more. -/
def Admits (o : ResolvedCborOptions) (levels head : ℕ) (r : CborReader CborValue) : Prop :=
  Consumes r fun used v => Admissible o levels v ∧ size v ≤ used.length + head

theorem admits_readSimple {levels : ℕ} (additionalInformation : ℕ) :
    Admits o (levels + 1) 1 (readSimple additionalInformation) := by
  unfold readSimple
  split
  · exact Consumes.pure ⟨.boolean false, by simp [size]⟩
  · exact Consumes.pure ⟨.boolean true, by simp [size]⟩
  · exact Consumes.pure ⟨.null, by simp [size]⟩
  · refine (consumes_readBytes 8).bind fun used bytes h => ?_
    refine Consumes.guard _ fun hfinite => Consumes.guard _ fun hsafe => Consumes.pure ⟨?_, ?_⟩
    · exact .number (by simpa using hfinite) (by simpa using hsafe)
    · rw [List.append_nil, h.1, h.2, size]
      exact numberSize_le _
  · exact Consumes.throw _
  · exact Consumes.throw _

theorem size_ofInt {n : ℤ} (hn : n.natAbs < 2 ^ 53) :
    size (.number (.ofInt n)) = if n ≥ 0 then headSize n.toNat else headSize (-1 - n).toNat := by
  simp only [size, numberSize, Float64.toInt?_ofInt hn, Float64.isNegZero_ofInt hn, Bool.false_eq_true,
    if_false]

theorem admissible_ofInt {levels : ℕ} {n : ℤ} (hn : n.natAbs < 2 ^ 53) :
    Admissible o (levels + 1) (.number (.ofInt n)) :=
  .number (Float64.isFinite_of_natAbs? (Float64.natAbs?_ofInt hn)) (by simp [Float64.isSafeInteger_ofInt hn])

section Items

variable {levels : ℕ} {item : CborReader CborValue} (hitem : Admits o levels 0 item)

include hitem

theorem consumes_readItems (length : ℕ) :
    Consumes (readItems item length) fun used items =>
      items.length = length ∧ (∀ v ∈ items, Admissible o levels v) ∧ sizeItems items ≤ used.length := by
  induction length with
  | zero => exact Consumes.pure ⟨rfl, by simp, by simp [sizeItems]⟩
  | succ length ih =>
    refine hitem.bind fun used v hv => ih.map fun used' vs hvs => ?_
    refine ⟨congrArg (· + 1) hvs.1, List.forall_mem_cons.mpr ⟨hv.1, hvs.2.1⟩, ?_⟩
    have hsize := hv.2
    have hsizes := hvs.2.2
    rw [sizeItems, List.length_append]
    omega

/-- The members read so far. -/
structure AdmissibleEntries (o : ResolvedCborOptions) (levels : ℕ) (entries : List (JsString × CborValue)) :
    Prop where
  keys : (Table.keys entries).Pairwise JsObject.KeyBefore
  texts : ∀ e ∈ entries, AdmissibleText o e.1
  entries : ∀ e ∈ entries, Admissible o levels e.2

omit hitem in
theorem AdmissibleEntries.define {entries : List (JsString × CborValue)}
    (h : AdmissibleEntries o levels entries) {key : JsString} (hkey : AdmissibleText o key) {v : CborValue}
    (hv : Admissible o levels v) : AdmissibleEntries o levels (JsObject.define entries key v) := by
  refine ⟨JsObject.pairwise_define h.keys key v, fun e he => ?_, fun e he => ?_⟩
  · rcases JsObject.mem_define he with rfl | hold
    · exact hkey
    · exact h.texts e hold
  · rcases JsObject.mem_define he with rfl | hold
    · exact hv
    · exact h.entries e hold

omit hitem in
theorem length_define {entries : List (JsString × CborValue)} {key : JsString}
    (h : Table.has entries key = false) (v : CborValue) :
    (JsObject.define entries key v).length = entries.length + 1 := by
  rw [JsObject.define, if_neg (by simp [h]), (JsObject.place_perm entries key v).length_eq,
    List.length_cons]

theorem consumes_readEntries (length : ℕ) {result : List (JsString × CborValue)}
    (hresult : AdmissibleEntries o levels result) :
    Consumes (readEntries item length result) fun used entries =>
      entries.length = result.length + length ∧ AdmissibleEntries o levels entries ∧
        sizeEntries entries ≤ sizeEntries result + used.length := by
  induction length generalizing result with
  | zero => exact Consumes.pure ⟨rfl, hresult, by simp⟩
  | succ length ih =>
    refine hitem.bind fun used key hkey => ?_
    cases key with
    | string key =>
      refine Consumes.guard _ fun hfresh => ?_
      replace hfresh : Table.has result key = false := by simpa using hfresh
      obtain ⟨hadmissible, hsize⟩ := hkey
      cases hadmissible with
      | string htext =>
        refine hitem.bind fun used' v hv => ?_
        refine (ih (hresult.define htext hv.1)).mono fun used'' entries h => ?_
        obtain ⟨hlength, hentries, hsizes⟩ := h
        have hsize' := hv.2
        rw [length_define hfresh] at hlength
        rw [sizeEntries_define hfresh] at hsizes
        rw [size] at hsize
        refine ⟨by omega, hentries, ?_⟩
        rw [List.length_append, List.length_append]
        omega
    | _ => exact Consumes.throw _

theorem admits_readContent (majorType additionalInformation : ℕ) :
    Admits o (levels + 1) 1 (readContent o item majorType additionalInformation) := by
  have hargument := consumes_readArgument additionalInformation
  have hlength := consumes_readLength additionalInformation
  unfold readContent
  split
  · refine hargument.map fun used n h => ?_
    have hn : (n : ℤ).natAbs < 2 ^ 53 := by omega
    refine ⟨admissible_ofInt hn, ?_⟩
    rw [size_ofInt hn, if_pos (by omega)]
    exact h.1
  · refine hargument.bind fun used n h => Consumes.guard _ fun hsafe => Consumes.pure ?_
    have hn : (-1 - (n : ℤ)).natAbs < 2 ^ 53 := by omega
    refine ⟨admissible_ofInt hn, ?_⟩
    have hback : (-1 - (-1 - (n : ℤ))).toNat = n := by omega
    rw [size_ofInt hn, if_neg (by omega), hback, List.append_nil]
    exact h.1
  · refine (hlength _ _).bind fun used length h => (consumes_readBytes length).map fun used' bytes h' => ?_
    obtain ⟨rfl, rfl⟩ := h'
    refine ⟨.bytes h.2, ?_⟩
    rw [size, stringSize, List.length_append]
    omega
  · refine (hlength _ _).bind fun used length h => (consumes_readBytes length).bind fun used' bytes h' => ?_
    obtain ⟨rfl, rfl⟩ := h'
    cases htext : textDecode used' with
    | none => exact Consumes.throw _
    | some s =>
      have hbytes : textEncode s = used' := textEncode_of_textDecode htext
      refine Consumes.pure ⟨.string ⟨?_, ?_⟩, ?_⟩
      · rw [hbytes]
        exact h.2
      · rw [hbytes]
        exact htext
      · rw [size, stringSize, hbytes, List.append_nil, List.length_append]
        omega
  · refine (hlength _ _).bind fun used length h => (consumes_readItems hitem length).map fun used' items h' => ?_
    obtain ⟨rfl, hitems, hsize⟩ := h'
    refine ⟨.array h.2 hitems, ?_⟩
    rw [size, List.length_append]
    omega
  · refine (hlength _ _).bind fun used length h => ?_
    have hnone : AdmissibleEntries o levels [] := ⟨by simp, by simp, by simp⟩
    refine (consumes_readEntries hitem length hnone).map fun used' entries h' => ?_
    obtain ⟨hcount, hentries, hsize⟩ := h'
    rw [List.length_nil, Nat.zero_add] at hcount
    rw [sizeEntries, Nat.zero_add] at hsize
    subst hcount
    refine ⟨.map h.2 hentries.keys hentries.texts hentries.entries, ?_⟩
    rw [size, List.length_append]
    omega
  · exact Consumes.throw _
  · exact admits_readSimple _
  · exact Consumes.throw _

end Items

/-- The decoder admits nothing that the encoder refuses. -/
theorem admits_readItem (levels : ℕ) : Admits o levels 0 (readItem o levels) := by
  induction levels with
  | zero => exact Consumes.throw _
  | succ levels ih =>
    refine consumes_readByte.bind fun used initial h => ?_
    refine (admits_readContent ih _ _).mono fun used' v hv => ⟨hv.1, ?_⟩
    have hsize := hv.2
    rw [List.length_append, h.1]
    omega

/-! ## Closure -/

/-- **Decoding is closed under re-encoding.** A decoded value is one JavaScript can hold, encoding it under
the same options succeeds in no more bytes, and these decode to the same value. -/
theorem encodeCbor_decodeCbor (bytes : List UInt8) (options : CborOptions) (value : CborValue)
    (h : decodeCbor bytes options = .ok value) :
    ∃ hvalue : value.WellFormed, ∃ bytes', encodeCbor ⟨value, hvalue⟩ options = .ok bytes' ∧
      bytes'.length ≤ bytes.length ∧ decodeCbor bytes' options = .ok value := by
  obtain ⟨resolved, hresolved, hlength, hitem⟩ := decodeCbor_eq_ok h
  obtain ⟨used, hused, hadmissible, hsize⟩ := admits_readItem (resolved.maxDepth + 1) bytes value [] hitem
  rw [List.append_nil] at hused
  rw [Nat.add_zero, ← hused] at hsize
  obtain ⟨bytes', hencode, hbytes'⟩ := encodeValue_of_admissible hadmissible (show _ + 0 = resolved.maxDepth + 1 by omega) []
    (by rw [List.length_nil]; omega)
  rw [List.nil_append] at hencode
  have hencode' : encodeCbor ⟨value, hadmissible.wellFormed⟩ options = .ok bytes' := by
    unfold encodeCbor
    rw [hresolved, ok_bind]
    exact hencode
  refine ⟨hadmissible.wellFormed, bytes', hencode', by omega, ?_⟩
  have hround := decodeCbor_encodeCbor ⟨value, hadmissible.wellFormed⟩ options bytes' hencode'
  rwa [hadmissible.dropUndefined_eq] at hround

/-- A map whose member is written in a longer form than the encoder's. -/
theorem encodeCbor_decodeCbor_longForm :
    ∃ hvalue : (CborValue.map false [(JsString.ofAscii "a", .number (.ofInt 5))]).WellFormed,
      ∃ bytes', encodeCbor ⟨_, hvalue⟩ {} = .ok bytes' ∧ bytes'.length ≤ 6 ∧
        decodeCbor bytes' {} = .ok (.map false [(JsString.ofAscii "a", .number (.ofInt 5))]) :=
  encodeCbor_decodeCbor [0xa1, 0x61, 0x61, 0x19, 0x00, 0x05] {} _ (by rfl)

end Phi.Cbor
