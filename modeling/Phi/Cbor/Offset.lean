import Phi.Cbor.Decoder
import Phi.Data.Except

/-!
# The decoder at the level of offsets

`Decoder` reads from a list of the bytes that remain. The class `CborReader` of the source keeps the
whole input and an offset into it instead; `Cursor` is its state, with every part of the input it looks
at on record, also when it throws. The two agree (`Follows`), and no part on record reaches beyond the
input, because both primitives compare with `byteLength` first and everything else goes through them.
-/

namespace Phi.Cbor

/-- The fields of a `CborReader`, and the parts of the input read so far, each as offset and length. -/
structure Cursor where
  bytes : List UInt8
  offset : ℕ
  accesses : List (ℕ × ℕ)

/-- A method of `CborReader`: what it throws leaves the cursor where it was. -/
abbrev OffsetReader := ExceptT Failure (StateM Cursor)

namespace OffsetReader

def readByte : OffsetReader ℕ := fun cursor =>
  if cursor.offset ≥ cursor.bytes.length then (.error (.cborError "Truncated CBOR payload"), cursor)
  else
    (.ok (cursor.bytes.getD cursor.offset 0).toNat,
      { cursor with
        offset := cursor.offset + 1
        accesses := cursor.accesses ++ [(cursor.offset, 1)] })

def readBytes (length : ℕ) : OffsetReader (List UInt8) := fun cursor =>
  if (length : ℤ) > cursor.bytes.length - cursor.offset then
    (.error (.cborError "Truncated CBOR payload"), cursor)
  else
    (.ok ((cursor.bytes.drop cursor.offset).take length),
      { cursor with
        offset := cursor.offset + length
        accesses := cursor.accesses ++ [(cursor.offset, length)] })

def readUint32 : OffsetReader ℕ := do
  let bytes ← readBytes 4
  return (bytes.getD 0 0).toNat * 0x1000000 + (bytes.getD 1 0).toNat * 0x10000
    + (bytes.getD 2 0).toNat * 0x100 + (bytes.getD 3 0).toNat

def readArgument (additionalInformation : ℕ) : OffsetReader ℕ :=
  if additionalInformation < 24 then return additionalInformation
  else
    match additionalInformation with
    | 24 => readByte
    | 25 => do
      let bytes ← readBytes 2
      return (bytes.getD 0 0).toNat * 0x100 + (bytes.getD 1 0).toNat
    | 26 => readUint32
    | 27 => do
      let high ← readUint32
      let low ← readUint32
      if high > 0x1fffff then
        throw (.cborError "Decoded CBOR integer or length is outside the safe range")
      else return high * UINT32_BASE + low
    | 31 => throw (.cborError "Indefinite-length CBOR items are not supported")
    | _ => throw (.cborError "Malformed CBOR additional information")

def readLength (additionalInformation : ℕ) (kind : String) (limit : ℕ) : OffsetReader ℕ :=
  if additionalInformation = 31 then
    throw (.cborError s!"Indefinite-length CBOR {kind}s are not supported")
  else do
    let length ← readArgument additionalInformation
    if length > limit then
      throw (.cborError s!"CBOR {kind} length exceeds configured limit of {limit}")
    else return length

def readSimple (additionalInformation : ℕ) : OffsetReader CborValue :=
  match additionalInformation with
  | 20 => return .boolean false
  | 21 => return .boolean true
  | 22 => return .null
  | 27 => do
    let bytes ← readBytes 8
    let value := Float64.ofBytesBE bytes
    if value.isFinite = false then throw (.cborError "Decoded CBOR number must be finite")
    else if value.isInteger && !value.isSafeInteger then
      throw (.cborError "Decoded CBOR integer is outside the safe range")
    else return .number value
  | 31 => throw (.cborError "CBOR break marker is not supported")
  | _ => throw (.cborError "Unsupported CBOR simple value or floating-point width")

def readItems (item : OffsetReader CborValue) : ℕ → OffsetReader (List CborValue)
  | 0 => return []
  | length + 1 => do
    let value ← item
    let values ← readItems item length
    return value :: values

def readEntries (item : OffsetReader CborValue) :
    ℕ → List (JsString × CborValue) → OffsetReader (List (JsString × CborValue))
  | 0, result => return result
  | length + 1, result => do
    match ← item with
    | .string key =>
      if Table.has result key then throw (.cborError "CBOR map contains a duplicate key")
      else
        let value ← item
        readEntries item length (JsObject.define result key value)
    | _ => throw (.cborError "CBOR map keys must be strings")

def readContent (o : ResolvedCborOptions) (item : OffsetReader CborValue)
    (majorType additionalInformation : ℕ) : OffsetReader CborValue :=
  match majorType with
  | 0 => return .number (.ofInt (← readArgument additionalInformation))
  | 1 => do
    let value : ℤ := -1 - (← readArgument additionalInformation)
    if value < -(2 ^ 53 - 1) then
      throw (.cborError "Decoded CBOR integer is outside the safe range")
    else return .number (.ofInt value)
  | 2 => do
    let length ← readLength additionalInformation "byte string" o.maxByteLength
    return .bytes (← readBytes length)
  | 3 => do
    let length ← readLength additionalInformation "text string" o.maxByteLength
    let bytes ← readBytes length
    match textDecode bytes with
    | some value => return .string value
    | none => throw (.cborError "CBOR text string contains invalid UTF-8")
  | 4 => do
    let length ← readLength additionalInformation "array" o.maxContainerLength
    return .array (← readItems item length)
  | 5 => do
    let length ← readLength additionalInformation "map" o.maxContainerLength
    return .map false (← readEntries item length [])
  | 6 => throw (.cborError "CBOR tags are not supported")
  | 7 => readSimple additionalInformation
  | _ => throw (.cborError "Malformed CBOR major type")

def readItem (o : ResolvedCborOptions) : ℕ → OffsetReader CborValue
  | 0 => throw (.cborError s!"CBOR nesting depth exceeds configured limit of {o.maxDepth}")
  | levels + 1 => do
    let initial ← readByte
    readContent o (readItem o levels) (initial >>> 5) (initial &&& 0x1f)

/-- `CborReader.decode`. -/
def decode (o : ResolvedCborOptions) : OffsetReader CborValue := do
  let value ← readItem o (o.maxDepth + 1)
  let cursor ← get
  if cursor.offset ≠ cursor.bytes.length then throw (.cborError "CBOR payload contains trailing data")
  else return value

end OffsetReader

/-- `decodeCbor(bytes, options)` with the reads it makes. -/
def decodeCborReads (bytes : List UInt8) (options : CborOptions) :
    Except Failure CborValue × List (ℕ × ℕ) :=
  match resolveOptions options with
  | .error failure => (.error failure, [])
  | .ok resolved =>
    if bytes.length > resolved.maxByteLength then
      (.error (.cborError s!"CBOR byte length exceeds configured limit of {resolved.maxByteLength}"), [])
    else
      let (result, cursor) := OffsetReader.decode resolved ⟨bytes, 0, []⟩
      (result, cursor.accesses)

/-! ## The two readers agree -/

/-- The offset and all reads lie within the input. -/
structure Cursor.Inside (cursor : Cursor) : Prop where
  offset : cursor.offset ≤ cursor.bytes.length
  accesses : ∀ access ∈ cursor.accesses, access.1 + access.2 ≤ cursor.bytes.length

/-- From a cursor inside its input, `r'` stays inside the same input and does what `r` does on the bytes
from the offset on. -/
structure Follows {α : Type} (r' : OffsetReader α) (r : CborReader α) : Prop where
  inside {cursor : Cursor} (h : cursor.Inside) : (r' cursor).2.Inside
  bytes (cursor : Cursor) : (r' cursor).2.bytes = cursor.bytes
  result {cursor : Cursor} (h : cursor.Inside) :
    r (cursor.bytes.drop cursor.offset)
      = (fun a => (a, cursor.bytes.drop (r' cursor).2.offset)) <$> (r' cursor).1

namespace Follows

variable {α β : Type}

protected theorem pure (a : α) : Follows (Pure.pure a) (Pure.pure a) where
  inside h := h
  bytes _ := rfl
  result _ := rfl

protected theorem throw (failure : Failure) :
    Follows (throw failure : OffsetReader α) (throw failure) where
  inside h := h
  bytes _ := rfl
  result _ := rfl

/-- A sequence ends where its first part threw, or where its second part ends. -/
theorem run_bind (r' : OffsetReader α) (f' : α → OffsetReader β) (cursor : Cursor) :
    (r' >>= f') cursor = match r' cursor with
      | (.ok a, between) => f' a between
      | (.error failure, between) => (.error failure, between) := by
  show (ExceptT.bind r' f') cursor = _
  simp only [ExceptT.bind, ExceptT.mk, bind, StateT.bind, ExceptT.bindCont]
  rcases r' cursor with ⟨_ | _, _⟩ <;> rfl

protected theorem bind {r' : OffsetReader α} {r : CborReader α} {f' : α → OffsetReader β}
    {f : α → CborReader β} (hr : Follows r' r) (hf : ∀ a, Follows (f' a) (f a)) :
    Follows (r' >>= f') (r >>= f) := by
  have hrun (rest : List UInt8) : (r >>= f) rest = r rest >>= fun p => f p.1 p.2 := rfl
  constructor
  · intro cursor h
    have hin := hr.inside h
    rw [run_bind]
    rcases hc : r' cursor with ⟨failure | a, between⟩
    · rwa [hc] at hin
    · rw [hc] at hin
      exact (hf a).inside hin
  · intro cursor
    have hbytes := hr.bytes cursor
    rw [run_bind]
    rcases hc : r' cursor with ⟨failure | a, between⟩
    · rwa [hc] at hbytes
    · rw [hc] at hbytes
      exact ((hf a).bytes between).trans hbytes
  · intro cursor h
    have hin := hr.inside h
    have hbytes := hr.bytes cursor
    have hresult := hr.result h
    rw [run_bind, hrun, hresult]
    rcases hc : r' cursor with ⟨failure | a, between⟩
    · rfl
    · rw [hc] at hin hbytes
      have hnext := (hf a).result hin
      rw [hbytes] at hnext
      exact hnext

protected theorem ite {p : Prop} [Decidable p] {r' s' : OffsetReader α} {r s : CborReader α}
    (hr : Follows r' r) (hs : Follows s' s) : Follows (if p then r' else s') (if p then r else s) := by
  split
  · exact hr
  · exact hs

end Follows

theorem Cursor.Inside.step {cursor : Cursor} (h : cursor.Inside) {length : ℕ}
    (hlength : cursor.offset + length ≤ cursor.bytes.length) :
    Cursor.Inside { cursor with
      offset := cursor.offset + length
      accesses := cursor.accesses ++ [(cursor.offset, length)] } := by
  refine ⟨hlength, fun access haccess => ?_⟩
  rcases List.mem_append.mp haccess with hold | hnew
  · exact h.accesses access hold
  · rw [List.mem_singleton.mp hnew]
    exact hlength

namespace OffsetReader

theorem follows_readByte : Follows readByte Cbor.readByte := by
  have htail {cursor : Cursor} (h : ¬cursor.offset ≥ cursor.bytes.length) :
      cursor.bytes.drop cursor.offset
        = cursor.bytes.getD cursor.offset 0 :: cursor.bytes.drop (cursor.offset + 1) := by
    rw [List.drop_eq_getElem_cons (by omega), List.getD_eq_getElem _ _ (by omega)]
  constructor
  · intro cursor h
    unfold readByte
    split
    · exact h
    · exact h.step (by omega)
  · intro cursor
    unfold readByte
    split <;> rfl
  · intro cursor h
    unfold readByte
    split
    · next hend =>
      rw [List.drop_eq_nil_of_le hend]
      rfl
    · next hmore =>
      rw [htail hmore]
      rfl

theorem follows_readBytes (length : ℕ) : Follows (readBytes length) (Cbor.readBytes length) := by
  constructor
  · intro cursor h
    unfold readBytes
    split
    · exact h
    · exact h.step (by omega)
  · intro cursor
    unfold readBytes
    split <;> rfl
  · intro cursor h
    have hoffset := h.offset
    unfold readBytes Cbor.readBytes
    split
    · next hmany =>
      rw [List.length_drop] at hmany
      rw [if_pos (by omega)]
      rfl
    · next hfew =>
      rw [List.length_drop] at hfew
      rw [if_neg (by omega), List.drop_drop]
      rfl

theorem follows_readUint32 : Follows readUint32 Cbor.readUint32 :=
  (follows_readBytes 4).bind fun _ => Follows.pure _

theorem follows_readArgument (additionalInformation : ℕ) :
    Follows (readArgument additionalInformation) (Cbor.readArgument additionalInformation) := by
  unfold readArgument Cbor.readArgument
  refine Follows.ite (Follows.pure _) ?_
  split
  · exact follows_readByte
  · exact (follows_readBytes 2).bind fun _ => Follows.pure _
  · exact follows_readUint32
  · refine follows_readUint32.bind fun high => follows_readUint32.bind fun low => ?_
    exact Follows.ite (Follows.throw _) (Follows.pure _)
  · exact Follows.throw _
  · -- the same default branch on both sides
    first | exact Follows.throw _ | split
    all_goals first | exact Follows.throw _ | contradiction

theorem follows_readLength (additionalInformation : ℕ) (kind : String) (limit : ℕ) :
    Follows (readLength additionalInformation kind limit)
      (Cbor.readLength additionalInformation kind limit) := by
  refine Follows.ite (Follows.throw _) ?_
  refine (follows_readArgument additionalInformation).bind fun length => ?_
  exact Follows.ite (Follows.throw _) (Follows.pure _)

theorem follows_readSimple (additionalInformation : ℕ) :
    Follows (readSimple additionalInformation) (Cbor.readSimple additionalInformation) := by
  unfold readSimple Cbor.readSimple
  split
  · exact Follows.pure _
  · exact Follows.pure _
  · exact Follows.pure _
  · refine (follows_readBytes 8).bind fun bytes => ?_
    exact Follows.ite (Follows.throw _) (Follows.ite (Follows.throw _) (Follows.pure _))
  · exact Follows.throw _
  · first | exact Follows.throw _ | split
    all_goals first | exact Follows.throw _ | contradiction

section Items

variable {item' : OffsetReader CborValue} {item : CborReader CborValue} (hitem : Follows item' item)

include hitem

theorem follows_readItems (length : ℕ) :
    Follows (readItems item' length) (Cbor.readItems item length) := by
  induction length with
  | zero => exact Follows.pure _
  | succ length ih => exact hitem.bind fun _ => ih.bind fun _ => Follows.pure _

theorem follows_readEntries (length : ℕ) (result : List (JsString × CborValue)) :
    Follows (readEntries item' length result) (Cbor.readEntries item length result) := by
  induction length generalizing result with
  | zero => exact Follows.pure _
  | succ length ih =>
    refine hitem.bind fun key => ?_
    cases key with
    | string key => exact Follows.ite (Follows.throw _) (hitem.bind fun value => ih _)
    | _ => exact Follows.throw _

theorem follows_readContent (o : ResolvedCborOptions) (majorType additionalInformation : ℕ) :
    Follows (readContent o item' majorType additionalInformation)
      (Cbor.readContent o item majorType additionalInformation) := by
  have hlength := follows_readLength additionalInformation
  unfold readContent Cbor.readContent
  split
  · exact (follows_readArgument _).bind fun _ => Follows.pure _
  · refine (follows_readArgument _).bind fun _ => ?_
    exact Follows.ite (Follows.throw _) (Follows.pure _)
  · refine (hlength _ _).bind fun length => ?_
    exact (follows_readBytes length).bind fun _ => Follows.pure _
  · refine (hlength _ _).bind fun length => (follows_readBytes length).bind fun bytes => ?_
    cases textDecode bytes with
    | some value => exact Follows.pure _
    | none => exact Follows.throw _
  · refine (hlength _ _).bind fun length => ?_
    exact (follows_readItems hitem length).bind fun _ => Follows.pure _
  · refine (hlength _ _).bind fun length => ?_
    exact (follows_readEntries hitem length []).bind fun _ => Follows.pure _
  · exact Follows.throw _
  · exact follows_readSimple _
  · first | exact Follows.throw _ | split
    all_goals first | exact Follows.throw _ | contradiction

end Items

theorem follows_readItem (o : ResolvedCborOptions) (levels : ℕ) :
    Follows (readItem o levels) (Cbor.readItem o levels) := by
  induction levels with
  | zero => exact Follows.throw _
  | succ levels ih =>
    exact follows_readByte.bind fun initial => follows_readContent ih o _ _

end OffsetReader

/-! ## Whole inputs -/

theorem inside_start (bytes : List UInt8) : Cursor.Inside ⟨bytes, 0, []⟩ := by
  constructor <;> simp

/-- The check of `decode` that the item took up the whole input. -/
theorem OffsetReader.run_finish (value : CborValue) (cursor : Cursor) :
    (do
      let cursor ← get
      if cursor.offset ≠ cursor.bytes.length then
        throw (.cborError "CBOR payload contains trailing data")
      else return value : OffsetReader CborValue) cursor
    = (if cursor.offset ≠ cursor.bytes.length then
        .error (.cborError "CBOR payload contains trailing data")
      else .ok value, cursor) := by
  show (if cursor.offset ≠ cursor.bytes.length then
      throw (.cborError "CBOR payload contains trailing data")
    else return value : OffsetReader CborValue) cursor = _
  split <;> rfl

/-- What follows the item is empty exactly when the offset is at the end. -/
theorem OffsetReader.decode_eq (o : ResolvedCborOptions) (bytes : List UInt8) :
    (decode o ⟨bytes, 0, []⟩).2.Inside ∧ (decode o ⟨bytes, 0, []⟩).2.bytes = bytes ∧
    (decode o ⟨bytes, 0, []⟩).1 = do
      let (value, rest) ← Cbor.readItem o (o.maxDepth + 1) bytes
      if rest ≠ [] then .error (.cborError "CBOR payload contains trailing data")
      else return value := by
  have hitem := follows_readItem o (o.maxDepth + 1)
  have hin := hitem.inside (inside_start bytes)
  have hbytes := hitem.bytes ⟨bytes, 0, []⟩
  have hresult := hitem.result (inside_start bytes)
  rw [List.drop_zero] at hresult
  unfold decode
  rw [Follows.run_bind, hresult]
  rcases hc : readItem o (o.maxDepth + 1) ⟨bytes, 0, []⟩ with ⟨failure | value, cursor⟩
  · rw [hc] at hin hbytes
    exact ⟨hin, hbytes, rfl⟩
  · rw [hc] at hin hbytes
    simp only at hin hbytes
    have hoffset := hin.offset
    have hend : cursor.offset ≠ cursor.bytes.length ↔ bytes.drop cursor.offset ≠ [] := by
      rw [ne_eq, ne_eq, List.drop_eq_nil_iff, ← hbytes]
      omega
    simp only [run_finish]
    refine ⟨hin, hbytes, ?_⟩
    simp only [hend]
    rfl

/-- **The decoder stays inside its input.** Decoding through offsets gives what `decodeCbor` gives, and
every part of the input it reads lies within it. -/
theorem decodeCborReads_inside (bytes : List UInt8) (options : CborOptions) :
    (decodeCborReads bytes options).1 = decodeCbor bytes options ∧
      ∀ access ∈ (decodeCborReads bytes options).2, access.1 + access.2 ≤ bytes.length := by
  unfold decodeCborReads decodeCbor
  cases resolveOptions options with
  | error failure => exact ⟨rfl, by simp⟩
  | ok resolved =>
    obtain ⟨hin, hbytes, hresult⟩ := OffsetReader.decode_eq resolved bytes
    simp only [ok_bind]
    split
    · exact ⟨rfl, by simp⟩
    · have haccesses := hin.accesses
      rw [hbytes] at haccesses
      exact ⟨hresult, haccesses⟩

end Phi.Cbor
