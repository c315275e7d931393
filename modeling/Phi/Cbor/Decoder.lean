import Phi.Cbor.Encoder

/-!
# The protocol's CBOR decoder

Model of `packages/protocol/src/cbor/decoder.ts`. A reader consumes the bytes that remain; the reader's
offset is the number of bytes consumed. `readItem` recurses on the nesting levels that are left,
so no input makes it run without end, whatever lengths the heads declare.
-/

namespace Phi.Cbor

/-- A parser over the remaining bytes. -/
abbrev CborReader := StateT (List UInt8) (Except Failure)

def readByte : CborReader ℕ := fun bytes =>
  match bytes with
  | [] => .error (.cborError "Truncated CBOR payload")
  | b :: rest => .ok (b.toNat, rest)

def readBytes (length : ℕ) : CborReader (List UInt8) := fun bytes =>
  if length > bytes.length then .error (.cborError "Truncated CBOR payload")
  else .ok (bytes.take length, bytes.drop length)

/-- A four-byte argument, `readArgument(26)`. -/
def readUint32 : CborReader ℕ := do
  let bytes ← readBytes 4
  return (bytes.getD 0 0).toNat * 0x1000000 + (bytes.getD 1 0).toNat * 0x10000
    + (bytes.getD 2 0).toNat * 0x100 + (bytes.getD 3 0).toNat

def readArgument (additionalInformation : ℕ) : CborReader ℕ :=
  if additionalInformation < 24 then return additionalInformation
  else
    match additionalInformation with
    | 24 => readByte
    | 25 => do
      let bytes ← readBytes 2
      return (bytes.getD 0 0).toNat * 0x100 + (bytes.getD 1 0).toNat
    | 26 => readUint32
    | 27 => do
      let high ← readUint32
      let low ← readUint32
      if high > 0x1fffff then
        throw (.cborError "Decoded CBOR integer or length is outside the safe range")
      else return high * UINT32_BASE + low
    | 31 => throw (.cborError "Indefinite-length CBOR items are not supported")
    | _ => throw (.cborError "Malformed CBOR additional information")

def readLength (additionalInformation : ℕ) (kind : String) (limit : ℕ) : CborReader ℕ :=
  if additionalInformation = 31 then
    throw (.cborError s!"Indefinite-length CBOR {kind}s are not supported")
  else do
    let length ← readArgument additionalInformation
    if length > limit then
      throw (.cborError s!"CBOR {kind} length exceeds configured limit of {limit}")
    else return length

def readSimple (additionalInformation : ℕ) : CborReader CborValue :=
  match additionalInformation with
  | 20 => return .boolean false
  | 21 => return .boolean true
  | 22 => return .null
  | 27 => do
    let bytes ← readBytes 8
    let value := Float64.ofBytesBE bytes
    if value.isFinite = false then throw (.cborError "Decoded CBOR number must be finite")
    else if value.isInteger && !value.isSafeInteger then
      throw (.cborError "Decoded CBOR integer is outside the safe range")
    else return .number value
  | 31 => throw (.cborError "CBOR break marker is not supported")
  | _ => throw (.cborError "Unsupported CBOR simple value or floating-point width")

/-- `length` items in order. -/
def readItems (item : CborReader CborValue) : ℕ → CborReader (List CborValue)
  | 0 => return []
  | length + 1 => do
    let value ← item
    let values ← readItems item length
    return value :: values

/-- `length` members, defined one by one on the object read so far; its own keys are the `keys` set
of the source. -/
def readEntries (item : CborReader CborValue) :
    ℕ → List (JsString × CborValue) → CborReader (List (JsString × CborValue))
  | 0, result => return result
  | length + 1, result => do
    match ← item with
    | .string key =>
      if Table.has result key then throw (.cborError "CBOR map contains a duplicate key")
      else
        let value ← item
        readEntries item length (JsObject.define result key value)
    | _ => throw (.cborError "CBOR map keys must be strings")

/-- The `switch` of `readItem` on the major type; `item` reads an item one level down. -/
def readContent (o : ResolvedCborOptions) (item : CborReader CborValue)
    (majorType additionalInformation : ℕ) : CborReader CborValue :=
  match majorType with
  | 0 => return .number (.ofInt (← readArgument additionalInformation))
  | 1 => do
    let value : ℤ := -1 - (← readArgument additionalInformation)
    if value < -(2 ^ 53 - 1) then
      throw (.cborError "Decoded CBOR integer is outside the safe range")
    else return .number (.ofInt value)
  | 2 => do
    let length ← readLength additionalInformation "byte string" o.maxByteLength
    return .bytes (← readBytes length)
  | 3 => do
    let length ← readLength additionalInformation "text string" o.maxByteLength
    let bytes ← readBytes length
    match textDecode bytes with
    | some value => return .string value
    | none => throw (.cborError "CBOR text string contains invalid UTF-8")
  | 4 => do
    let length ← readLength additionalInformation "array" o.maxContainerLength
    return .array (← readItems item length)
  | 5 => do
    let length ← readLength additionalInformation "map" o.maxContainerLength
    return .map false (← readEntries item length [])
  | 6 => throw (.cborError "CBOR tags are not supported")
  | 7 => readSimple additionalInformation
  | _ => throw (.cborError "Malformed CBOR major type")

/-- One item with `levels` nesting levels left: `levels = maxDepth + 1 - depth`. -/
def readItem (o : ResolvedCborOptions) : ℕ → CborReader CborValue
  | 0 => throw (.cborError s!"CBOR nesting depth exceeds configured limit of {o.maxDepth}")
  | levels + 1 => do
    let initial ← readByte
    readContent o (readItem o levels) (initial >>> 5) (initial &&& 0x1f)

/-- `decodeCbor(bytes, options)`: exactly one item. -/
def decodeCbor (bytes : List UInt8) (options : CborOptions) : Except Failure CborValue := do
  let resolved ← resolveOptions options
  if bytes.length > resolved.maxByteLength then
    throw (.cborError s!"CBOR byte length exceeds configured limit of {resolved.maxByteLength}")
  else
    let (value, rest) ← readItem resolved (resolved.maxDepth + 1) bytes
    if rest ≠ [] then throw (.cborError "CBOR payload contains trailing data")
    else return value

end Phi.Cbor
