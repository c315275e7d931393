import Phi.Cbor.Decoder
import Phi.Data.Except

/-!
# Decoding inverts encoding

`decodeCbor_encodeCbor`: whatever `encodeCbor` accepts, `decodeCbor` with the same options reads back,
less the map members that are `undefined`.

The proof relates the two sides through `Reads r bytes a`: the reader `r`, standing in front of
`bytes`, consumes exactly these and returns `a`, whatever follows. Every function of the encoder
appends bytes that the corresponding function of the decoder `Reads` back, and `Reads` composes along
`bind`, so the induction over the value has one short case for each kind of item.
-/

namespace Phi.Cbor

/-! ## Readers in front of what they read -/

/-- `r` consumes exactly `bytes` and returns `a`, whatever follows. -/
def Reads {α : Type} (r : CborReader α) (bytes : List UInt8) (a : α) : Prop :=
  ∀ rest, r (bytes ++ rest) = .ok (a, rest)

theorem Reads.pure {α : Type} (a : α) : Reads (Pure.pure a) [] a := fun _ => rfl

theorem Reads.bind {α β : Type} {r : CborReader α} {f : α → CborReader β} {bs bs' : List UInt8}
    {a : α} {b : β} (hr : Reads r bs a) (hf : Reads (f a) bs' b) :
    Reads (r >>= f) (bs ++ bs') b := by
  intro rest
  have hrun : (r >>= f) (bs ++ bs' ++ rest) = r (bs ++ bs' ++ rest) >>= fun p => f p.1 p.2 := rfl
  rw [hrun, List.append_assoc, hr, ok_bind]
  exact hf rest

/-- A reader followed by a check that consumes nothing. -/
theorem Reads.andThen {α β : Type} {r : CborReader α} {f : α → CborReader β} {bs : List UInt8}
    {a : α} {b : β} (hr : Reads r bs a) (hf : Reads (f a) [] b) : Reads (r >>= f) bs b := by
  rw [← List.append_nil bs]
  exact hr.bind hf

/-- A reader followed by a pure function of what it returns. -/
theorem Reads.map {α β : Type} {r : CborReader α} {bs : List UInt8} {a : α} (hr : Reads r bs a)
    (g : α → β) : Reads (r >>= fun x => Pure.pure (g x)) bs (g a) :=
  Reads.andThen (f := fun x => Pure.pure (g x)) hr (Reads.pure (g a))

/-- A guard that does not fire consumes nothing. -/
theorem Reads.guard {α : Type} {p : Prop} [Decidable p] {e : Failure} {r : CborReader α}
    {bs : List UInt8} {a : α} (hp : ¬p) (hr : Reads r bs a) :
    Reads (if p then throw e else r) bs a := by
  simpa only [if_neg hp] using hr

theorem reads_readByte (b : UInt8) : Reads readByte [b] b.toNat := fun _ => rfl

theorem reads_readBytes (bs : List UInt8) : Reads (readBytes bs.length) bs bs := by
  intro rest
  have hle : ¬bs.length > (bs ++ rest).length := by rw [List.length_append]; omega
  rw [readBytes, if_neg hle, List.take_left, List.drop_left]

/-! ## Writers -/

/-- `w'` extends `w` by `bs` and respects the byte limit. -/
structure Extends (o : ResolvedCborOptions) (w : CborWriter) (bs : List UInt8) (w' : CborWriter) :
    Prop where
  eq : w' = w ++ bs
  le : w'.length ≤ o.maxByteLength

variable {o : ResolvedCborOptions} {w w' w'' : CborWriter}

theorem Extends.trans {bs bs' : List UInt8} (h : Extends o w bs w') (h' : Extends o w' bs' w'') :
    Extends o w (bs ++ bs') w'' :=
  ⟨by rw [h'.eq, h.eq, List.append_assoc], h'.le⟩

theorem writeBytes_ok {bs : List UInt8} (h : writeBytes o w bs = .ok w') : Extends o w bs w' := by
  obtain ⟨_, hcap, hw⟩ := bind_eq_ok.mp h
  obtain ⟨hle, -⟩ := ite_error_eq_ok.mp hcap
  have hw' : w' = w ++ bs := (Except.ok.inj hw).symm
  exact ⟨hw', by rw [hw', List.length_append]; omega⟩

/-- `writeUint32` of a number in range writes what `readUint32` reads. -/
theorem writeUint32_ok {value : ℕ} (hv : value < 2 ^ 32) (h : writeUint32 o w value = .ok w') :
    ∃ bs, Extends o w bs w' ∧ Reads readUint32 bs value := by
  refine ⟨_, writeBytes_ok h, ?_⟩
  have hvalue : value / 16777216 % 256 * 16777216 + value / 65536 % 256 * 65536
      + value / 256 % 256 * 256 + value % 256 = value := by omega
  have hread := (reads_readBytes [UInt8.ofNat (value >>> 24), UInt8.ofNat (value >>> 16),
    UInt8.ofNat (value >>> 8), UInt8.ofNat value]).map fun bytes =>
      (bytes.getD 0 0).toNat * 0x1000000 + (bytes.getD 1 0).toNat * 0x10000
        + (bytes.getD 2 0).toNat * 0x100 + (bytes.getD 3 0).toNat
  simp only [List.getD_cons_zero, List.getD_cons_succ, UInt8.toNat_ofNat', Nat.shiftRight_eq_div_pow,
    Nat.reducePow, hvalue] at hread
  simp only [Nat.shiftRight_eq_div_pow, Nat.reducePow]
  exact hread

/-! ## Item heads -/

/-- `bs` is a head that the reader splits into `majorType` and a definite argument `value`. -/
structure IsHead (majorType value : ℕ) (initial : UInt8) (tail : List UInt8) : Prop where
  major : initial.toNat >>> 5 = majorType
  definite : initial.toNat &&& 0x1f ≠ 31
  reads : Reads (readArgument (initial.toNat &&& 0x1f)) tail value

/-- The two fields of an initial byte. -/
theorem initial_fields {majorType : ℕ} (hm : majorType < 8) (info : ℕ) (hi : info < 32) :
    (UInt8.ofNat (majorType <<< 5 ||| info)).toNat >>> 5 = majorType ∧
      (UInt8.ofNat (majorType <<< 5 ||| info)).toNat &&& 0x1f = info := by
  have hor : majorType <<< 5 ||| info = majorType * 32 + info := by
    rw [← Nat.shiftLeft_add_eq_or_of_lt hi, Nat.shiftLeft_eq]
  have hand (n : ℕ) : n &&& 0x1f = n % 32 := Nat.and_two_pow_sub_one_eq_mod n 5
  rw [hor, UInt8.toNat_ofNat', Nat.shiftRight_eq_div_pow, hand]
  omega

/-- `writeArgument` writes a head with the same major type and argument. -/
theorem writeArgument_ok {majorType value : ℕ} (hm : majorType < 8) (hv : value < 2 ^ 53)
    (h : writeArgument o w majorType value = .ok w') :
    ∃ b tail, Extends o w (b :: tail) w' ∧ IsHead majorType value b tail := by
  simp only [writeArgument] at h
  split at h
  · next h24 =>
    obtain ⟨hmajor, hinfo⟩ := initial_fields hm value (by omega)
    refine ⟨_, [], writeBytes_ok h, hmajor, by omega, ?_⟩
    simp only [hinfo, readArgument, if_pos h24]
    exact Reads.pure value
  split at h
  · next h24 h8 =>
    obtain ⟨w₁, hw₁, hw'⟩ := bind_eq_ok.mp h
    obtain ⟨hmajor, hinfo⟩ := initial_fields hm 24 (by omega)
    refine ⟨_, _, (writeBytes_ok hw₁).trans (writeBytes_ok hw'), hmajor, by omega, ?_⟩
    rw [hinfo]
    have hread := reads_readByte (UInt8.ofNat value)
    rw [UInt8.toNat_ofNat', Nat.mod_eq_of_lt (by omega)] at hread
    exact hread
  split at h
  · next h24 h8 h16 =>
    obtain ⟨w₁, hw₁, hw'⟩ := bind_eq_ok.mp h
    obtain ⟨hmajor, hinfo⟩ := initial_fields hm 25 (by omega)
    refine ⟨_, _, (writeBytes_ok hw₁).trans (writeBytes_ok hw'), hmajor, by omega, ?_⟩
    rw [hinfo]
    have hvalue : value / 256 % 256 * 256 + value % 256 = value := by omega
    have hread := (reads_readBytes [UInt8.ofNat (value >>> 8), UInt8.ofNat value]).map fun bytes =>
      (bytes.getD 0 0).toNat * 0x100 + (bytes.getD 1 0).toNat
    simp only [List.getD_cons_zero, List.getD_cons_succ, UInt8.toNat_ofNat',
      Nat.shiftRight_eq_div_pow, Nat.reducePow, hvalue] at hread
    rw [Nat.shiftRight_eq_div_pow]
    exact hread
  split at h
  · next h24 h8 h16 h32 =>
    obtain ⟨w₁, hw₁, hw'⟩ := bind_eq_ok.mp h
    obtain ⟨hmajor, hinfo⟩ := initial_fields hm 26 (by omega)
    have hlt : value < 2 ^ 32 := by simp only [MAX_UINT32] at h32; omega
    obtain ⟨bs, hext, hread⟩ := writeUint32_ok hlt hw'
    refine ⟨_, _, (writeBytes_ok hw₁).trans hext, hmajor, by omega, ?_⟩
    rw [hinfo]
    exact hread
  · next h24 h8 h16 h32 =>
    obtain ⟨w₁, hw₁, hw'⟩ := bind_eq_ok.mp h
    obtain ⟨hmajor, hinfo⟩ := initial_fields hm 27 (by omega)
    obtain ⟨w₂, hw₂, hw'⟩ := bind_eq_ok.mp hw'
    have hhigh : value / UINT32_BASE ≤ 0x1fffff := by simp only [UINT32_BASE]; omega
    have hlow : value - value / UINT32_BASE * UINT32_BASE < 2 ^ 32 := by
      simp only [UINT32_BASE]; omega
    have hsum : value / UINT32_BASE * UINT32_BASE + (value - value / UINT32_BASE * UINT32_BASE)
        = value := by simp only [UINT32_BASE]; omega
    obtain ⟨bs, hext, hread⟩ := writeUint32_ok (by omega) hw₂
    obtain ⟨bs', hext', hread'⟩ := writeUint32_ok hlow hw'
    refine ⟨_, _, (writeBytes_ok hw₁).trans (hext.trans hext'), hmajor, by omega, ?_⟩
    rw [hinfo]
    have hpure : Reads (pure (value / UINT32_BASE * UINT32_BASE
        + (value - value / UINT32_BASE * UINT32_BASE))) [] value := by
      rw [hsum]
      exact Reads.pure value
    exact hread.bind (hread'.andThen (Reads.guard (by omega) hpure))

/-- A length within the limit is accepted by `readLength`. -/
theorem IsHead.readLength {majorType value : ℕ} {b : UInt8} {tail : List UInt8}
    (h : IsHead majorType value b tail) {limit : ℕ} (hle : value ≤ limit) (kind : String) :
    Reads (readLength (b.toNat &&& 0x1f) kind limit) tail value := by
  refine Reads.guard h.definite ?_
  exact h.reads.andThen (Reads.guard (by omega) (Reads.pure value))

/-! ## Items without children -/

/-- An item is read by the branch of its major type, on what follows its initial byte. -/
theorem reads_readItem {levels : ℕ} (majorType : ℕ) {b : UInt8} {bs : List UInt8} {v : CborValue}
    (hmajor : b.toNat >>> 5 = majorType)
    (h : Reads (readContent o (readItem o levels) majorType (b.toNat &&& 0x1f)) bs v) :
    Reads (readItem o (levels + 1)) (b :: bs) v := by
  subst hmajor
  exact (reads_readByte b).bind h

/-- A text string is read back: the encoder checked that its bytes decode to it. -/
theorem encodeText_ok {value : JsString} (ho : o.maxByteLength ≤ MAX_UINT32)
    (h : encodeText o w value = .ok w') :
    ∃ bs, Extends o w bs w' ∧ ∀ levels, Reads (readItem o (levels + 1)) bs (.string value) := by
  simp only [encodeText] at h
  obtain ⟨hlen, h⟩ := ite_error_eq_ok.mp h
  obtain ⟨hdec, h⟩ := ite_error_eq_ok.mp h
  obtain ⟨w₁, hw₁, hw'⟩ := bind_eq_ok.mp h
  have hlt : (textEncode value).length < 2 ^ 53 := by simp only [MAX_UINT32] at ho; omega
  obtain ⟨b, tail, hext, hhead⟩ := writeArgument_ok (by omega) hlt hw₁
  refine ⟨_, hext.trans (writeBytes_ok hw'), fun levels => ?_⟩
  refine reads_readItem _ hhead.major ?_
  refine (hhead.readLength (by omega) _).bind ?_
  refine (reads_readBytes _).andThen ?_
  rw [not_not.mp hdec]
  exact Reads.pure _

/-- A byte string is read back. -/
theorem encodeBytes_ok {bytes : List UInt8} (ho : o.maxByteLength ≤ MAX_UINT32)
    (hlen : bytes.length ≤ o.maxByteLength) (h : writeArgument o w 2 bytes.length = .ok w')
    (h' : writeBytes o w' bytes = .ok w'') :
    ∃ bs, Extends o w bs w'' ∧ ∀ levels, Reads (readItem o (levels + 1)) bs (.bytes bytes) := by
  have hlt : bytes.length < 2 ^ 53 := by simp only [MAX_UINT32] at ho; omega
  obtain ⟨b, tail, hext, hhead⟩ := writeArgument_ok (by omega) hlt h
  refine ⟨_, hext.trans (writeBytes_ok h'), fun levels => ?_⟩
  refine reads_readItem _ hhead.major ?_
  exact (hhead.readLength hlen _).bind ((reads_readBytes bytes).map _)

/-- A float64 item is read back, unless it holds an integer outside the safe range. -/
theorem writeFloat64_ok {x : Float64} (hfinite : x.isFinite = true)
    (hsafe : (x.isInteger && !x.isSafeInteger) = false) (h : writeFloat64 o w x = .ok w') :
    ∃ bs, Extends o w bs w' ∧ ∀ levels, Reads (readItem o (levels + 1)) bs (.number x) := by
  refine ⟨_, writeBytes_ok h, fun levels => reads_readItem 7 rfl ?_⟩
  have hbytes := reads_readBytes x.toBytesBE
  rw [Float64.length_toBytesBE] at hbytes
  refine hbytes.andThen ?_
  simp only [Float64.ofBytesBE_toBytesBE]
  refine Reads.guard (by simp [hfinite]) (Reads.guard (by simp [hsafe]) (Reads.pure _))

/-- A number is read back: safe integers through an integer item, the rest through its bits. -/
theorem encodeNumber_ok {x : Float64} (h : encodeNumber o w x = .ok w') :
    ∃ bs, Extends o w bs w' ∧ ∀ levels, Reads (readItem o (levels + 1)) bs (.number x) := by
  simp only [encodeNumber] at h
  obtain ⟨hfinite, h⟩ := ite_error_eq_ok.mp h
  replace hfinite : x.isFinite = true := by simpa using hfinite
  cases hint : x.toInt? with
  | none =>
    rw [hint] at h
    have hnot : x.isInteger = false := by
      simp only [Float64.toInt?, Option.map_eq_none_iff] at hint
      simp [Float64.isInteger, hint]
    exact writeFloat64_ok hfinite (by simp [hnot]) h
  | some n =>
    rw [hint] at h
    simp only at h
    split at h
    · next hz =>
      have hsafe : x.isSafeInteger = true := by
        simp only [Float64.isNegZero, Bool.and_eq_true, beq_iff_eq] at hz
        simp [Float64.isSafeInteger, Float64.natAbs?, hz]
      exact writeFloat64_ok hfinite (by simp [hsafe]) h
    · next hz =>
      obtain ⟨hsafe, h⟩ := ite_error_eq_ok.mp h
      have hn : n.natAbs < 2 ^ 53 := x.natAbs_lt_of_isSafeInteger hint (by simpa using hsafe)
      have hof : Float64.ofInt n = x := Float64.ofInt_of_toInt? hint (by simpa using hz) hn
      split at h
      · next hpos =>
        obtain ⟨b, tail, hext, hhead⟩ := writeArgument_ok (by omega) (by omega) h
        refine ⟨_, hext, fun levels => reads_readItem _ hhead.major ?_⟩
        have hread := hhead.reads.map fun m : ℕ => CborValue.number (.ofInt m)
        rw [Int.toNat_of_nonneg hpos, hof] at hread
        exact hread
      · next hneg =>
        obtain ⟨b, tail, hext, hhead⟩ := writeArgument_ok (by omega) (by omega) h
        refine ⟨_, hext, fun levels => reads_readItem _ hhead.major ?_⟩
        have hback : -1 - (((-1 - n).toNat : ℕ) : ℤ) = n := by omega
        refine hhead.reads.andThen ?_
        simp only [hback, hof]
        exact Reads.guard (by omega) (Reads.pure _)

/-! ## Nested values -/

theorem resolveLimit_le {name : String} {value : Float64} {maximum n : ℕ}
    (h : resolveLimit name value maximum = .ok n) : n ≤ maximum := by
  simp only [resolveLimit] at h
  split at h
  · obtain ⟨hbound, h⟩ := ite_error_eq_ok.mp h
    have hn := Except.ok.inj h
    omega
  · cases h

/-- Both size limits fit in 32 bits. -/
structure ResolvedCborOptions.FitsUint32 (o : ResolvedCborOptions) : Prop where
  byteLength : o.maxByteLength ≤ MAX_UINT32
  containerLength : o.maxContainerLength ≤ MAX_UINT32

theorem resolveOptions_fitsUint32 {options : CborOptions} (h : resolveOptions options = .ok o) :
    o.FitsUint32 := by
  obtain ⟨n, hn, h⟩ := bind_eq_ok.mp h
  obtain ⟨m, hm, h⟩ := bind_eq_ok.mp h
  obtain ⟨d, -, h⟩ := bind_eq_ok.mp h
  have ho := Except.ok.inj h
  rw [← ho]
  exact ⟨resolveLimit_le hn, resolveLimit_le hm⟩

/-- The members written are as many as the head announces. -/
theorem length_dropUndefinedEntries (entries : List (JsString × CborValue)) :
    (CborValue.dropUndefinedEntries entries).length
      = entries.countP fun e => !e.2.isUndefined := by
  induction entries with
  | nil => rfl
  | cons e es ih =>
    simp only [CborValue.dropUndefinedEntries, List.countP_cons]
    split
    · next hu => simp [hu, ih]
    · next hu => simp [hu, ih]

mutual

theorem encodeValue_ok (ho : o.FitsUint32) {w w' : CborWriter} {v : CborValue} {depth : ℕ}
    (hv : v.WellFormed)
    (h : encodeValue o w v depth = .ok w') :
    ∃ bs, Extends o w bs w' ∧
      Reads (readItem o (o.maxDepth + 1 - depth)) bs v.dropUndefined := by
  rw [encodeValue.eq_def] at h
  obtain ⟨hdepth, h⟩ := ite_error_eq_ok.mp h
  -- a level is left for this item, and its children have one less
  have hlevels : o.maxDepth + 1 - depth = (o.maxDepth - depth) + 1 := by omega
  have hchild : o.maxDepth - depth = o.maxDepth + 1 - (depth + 1) := by omega
  rw [hlevels]
  match v with
  | .null => exact ⟨_, writeBytes_ok h, reads_readItem 7 rfl (Reads.pure _)⟩
  | .boolean true =>
    exact ⟨_, writeBytes_ok h, reads_readItem 7 rfl (Reads.pure _)⟩
  | .boolean false =>
    exact ⟨_, writeBytes_ok h, reads_readItem 7 rfl (Reads.pure _)⟩
  | .number x =>
    obtain ⟨bs, hext, hreads⟩ := encodeNumber_ok h
    exact ⟨bs, hext, hreads _⟩
  | .string s =>
    obtain ⟨bs, hext, hreads⟩ := encodeText_ok ho.byteLength h
    exact ⟨bs, hext, hreads _⟩
  | .bytes b =>
    obtain ⟨hlen, h⟩ := ite_error_eq_ok.mp h
    obtain ⟨w₁, hw₁, hw'⟩ := bind_eq_ok.mp h
    obtain ⟨bs, hext, hreads⟩ := encodeBytes_ok ho.byteLength (by omega) hw₁ hw'
    exact ⟨bs, hext, hreads _⟩
  | .array items =>
    obtain ⟨hlen, h⟩ := ite_error_eq_ok.mp h
    obtain ⟨w₁, hw₁, hw'⟩ := bind_eq_ok.mp h
    have hc := ho.containerLength
    have hlt : items.length < 2 ^ 53 := by simp only [MAX_UINT32] at hc; omega
    obtain ⟨b, tail, hext, hhead⟩ := writeArgument_ok (by omega) hlt hw₁
    obtain ⟨bs, hext', hreads⟩ := encodeItems_ok ho hext.le hv hw'
    refine ⟨_, hext.trans hext', reads_readItem _ hhead.major ?_⟩
    rw [← hchild] at hreads
    exact (hhead.readLength (by omega) _).bind (hreads.map _)
  | .map symbolKeys entries =>
    obtain ⟨hsymbol, h⟩ := ite_error_eq_ok.mp h
    obtain ⟨hlen, h⟩ := ite_error_eq_ok.mp h
    obtain ⟨w₁, hw₁, hw'⟩ := bind_eq_ok.mp h
    have hc := ho.containerLength
    have hlt : (entries.countP fun e => !e.2.isUndefined) < 2 ^ 53 := by
      simp only [MAX_UINT32] at hc; omega
    obtain ⟨b, tail, hext, hhead⟩ := writeArgument_ok (by omega) hlt hw₁
    obtain ⟨bs, hext', hreads⟩ := encodeEntries_ok ho hext.le hv.1 hv.2 hw'
    refine ⟨_, hext.trans hext', reads_readItem _ hhead.major ?_⟩
    have hread := hreads [] (by simp)
    rw [← hchild, length_dropUndefinedEntries] at hread
    have hfalse : symbolKeys = false := by simpa using hsymbol
    subst hfalse
    exact (hhead.readLength (by omega) _).bind (hread.map _)
  | .undefined => cases h
  | .other _ => cases h

theorem encodeItems_ok (ho : o.FitsUint32) {w w' : CborWriter} {items : List CborValue} {depth : ℕ}
    (hw : w.length ≤ o.maxByteLength) (hv : CborValue.WellFormedItems items) (h : encodeItems o w items depth = .ok w') :
    ∃ bs, Extends o w bs w' ∧
      Reads (readItems (readItem o (o.maxDepth + 1 - depth)) items.length) bs
        (CborValue.dropUndefinedItems items) := by
  match items with
  | [] => exact ⟨[], ⟨by simpa using (Except.ok.inj h).symm, by rwa [← Except.ok.inj h]⟩, Reads.pure _⟩
  | v :: vs =>
    rw [encodeItems] at h
    obtain ⟨-, h⟩ := ite_error_eq_ok.mp h
    obtain ⟨w₁, hw₁, hw'⟩ := bind_eq_ok.mp h
    obtain ⟨bs, hext, hreads⟩ := encodeValue_ok ho hv.1 hw₁
    obtain ⟨bs', hext', hreads'⟩ := encodeItems_ok ho hext.le hv.2 hw'
    exact ⟨_, hext.trans hext', hreads.bind (hreads'.map _)⟩

/-- Members are read onto whatever object was read so far, as long as their keys come after its
keys; each is then placed at the end. -/
theorem encodeEntries_ok (ho : o.FitsUint32) {w w' : CborWriter}
    {entries : List (JsString × CborValue)} {depth : ℕ} (hw : w.length ≤ o.maxByteLength) (hkeys : (Table.keys entries).Pairwise JsObject.KeyBefore)
    (hv : CborValue.WellFormedEntries entries) (h : encodeEntries o w entries depth = .ok w') :
    ∃ bs, Extends o w bs w' ∧ ∀ result : Table JsString CborValue,
      (∀ k ∈ result.keys, ∀ k' ∈ Table.keys entries, JsObject.KeyBefore k k') →
      Reads (readEntries (readItem o (o.maxDepth + 1 - depth))
        (CborValue.dropUndefinedEntries entries).length result) bs
        (result ++ CborValue.dropUndefinedEntries entries) := by
  match entries with
  | [] =>
    rw [encodeEntries] at h
    refine ⟨[], ⟨by simpa using (Except.ok.inj h).symm, by rwa [← Except.ok.inj h]⟩, ?_⟩
    intro result _
    simp only [CborValue.dropUndefinedEntries, List.length_nil, List.append_nil]
    exact Reads.pure result
  | e :: es =>
    obtain ⟨hbefore, hkeys⟩ := List.pairwise_cons.mp hkeys
    rw [encodeEntries] at h
    split at h
    · next hu =>
      obtain ⟨bs, hext, hreads⟩ := encodeEntries_ok ho hw hkeys hv.2 h
      refine ⟨bs, hext, fun result hresult => ?_⟩
      rw [CborValue.dropUndefinedEntries, if_pos hu]
      exact hreads result fun k hk k' hk' => hresult k hk k' (List.mem_cons_of_mem _ hk')
    · next hu =>
      obtain ⟨w₁, hw₁, h⟩ := bind_eq_ok.mp h
      obtain ⟨w₂, hw₂, h⟩ := bind_eq_ok.mp h
      obtain ⟨bs, hext, hreads⟩ := encodeText_ok ho.byteLength hw₁
      obtain ⟨bs', hext', hreads'⟩ := encodeValue_ok ho hv.1 hw₂
      obtain ⟨bs'', hext'', hreads''⟩ := encodeEntries_ok ho hext'.le hkeys hv.2 h
      refine ⟨_, hext.trans (hext'.trans hext''), fun result hresult => ?_⟩
      -- the member was written one level down, so that level exists for its key as well
      have hlevel : depth ≤ o.maxDepth := by
        rw [encodeValue.eq_def] at hw₂
        have := (ite_error_eq_ok.mp hw₂).1
        omega
      have hlevels : o.maxDepth + 1 - depth = (o.maxDepth - depth) + 1 := by omega
      have hnew : ∀ k ∈ result.keys, JsObject.KeyBefore k e.1 :=
        fun k hk => hresult k hk e.1 (List.mem_cons_self ..)
      have hfresh : ¬Table.has result e.1 = true := by
        rw [Table.has_eq_true]
        exact fun hmem => (hnew e.1 hmem).1 rfl
      rw [CborValue.dropUndefinedEntries, if_neg hu, List.length_cons, readEntries]
      refine (hlevels ▸ hreads (o.maxDepth - depth)).bind (Reads.guard hfresh ?_)
      refine hreads'.bind ?_
      rw [JsObject.define_of_forall_before hnew,
        List.append_cons result (e.1, e.2.dropUndefined) (CborValue.dropUndefinedEntries es)]
      refine hreads'' _ fun k hk k' hk' => ?_
      rw [Table.keys_append, List.mem_append] at hk
      obtain hk | hk := hk
      · exact hresult k hk k' (List.mem_cons_of_mem _ hk')
      · rw [List.mem_singleton.mp hk]
        exact hbefore k' hk'

end

/-- **CBOR round trip.** What `encodeCbor` accepts under some options, `decodeCbor` reads back under
the same options, less the map members that are `undefined`. -/
theorem decodeCbor_encodeCbor (value : JsValue) (options : CborOptions) (bytes : List UInt8)
    (h : encodeCbor value options = .ok bytes) :
    decodeCbor bytes options = .ok value.value.dropUndefined := by
  obtain ⟨resolved, hresolved, h⟩ := bind_eq_ok.mp h
  obtain ⟨bs, hext, hreads⟩ :=
    encodeValue_ok (resolveOptions_fitsUint32 hresolved) value.wellFormed h
  have hbs : bytes = bs := by simpa using hext.eq
  subst hbs
  have hread := hreads []
  rw [List.append_nil] at hread
  simp only [decodeCbor, hresolved, ok_bind, if_neg (Nat.not_lt.mpr hext.le)]
  rw [show resolved.maxDepth + 1 - 0 = resolved.maxDepth + 1 from rfl] at hread
  rw [hread]
  rfl

/-- A map with an `undefined` member, a negative integer, negative zero and text. -/
def sampleMap : CborValue :=
  .map false [
    (JsString.ofAscii "a", .array [.number (.ofInt (-500)), .number .negZero]),
    (JsString.ofAscii "b", .undefined),
    (JsString.ofAscii "c", .string [0xD83D, 0xDE00])]

theorem sampleMap_wellFormed : sampleMap.WellFormed := by
  have hkeys : [JsString.ofAscii "a", JsString.ofAscii "b", JsString.ofAscii "c"].Pairwise
      JsObject.KeyBefore := by decide +kernel
  exact ⟨hkeys, ⟨⟨trivial, trivial, trivial⟩, trivial, trivial, trivial⟩⟩

theorem decodeCbor_encodeCbor_sampleMap :
    decodeCbor [0xa2, 0x61, 0x61, 0x82, 0x39, 0x01, 0xf3, 0xfb, 0x80, 0, 0, 0, 0, 0, 0, 0,
      0x61, 0x63, 0x64, 0xf0, 0x9f, 0x98, 0x80] {} = .ok sampleMap.dropUndefined :=
  decodeCbor_encodeCbor ⟨sampleMap, sampleMap_wellFormed⟩ {} _ (by rfl)

end Phi.Cbor
