import Phi.Data.Float64
import Phi.Data.Text

/-!
# The protocol's CBOR encoder

Model of `packages/protocol/src/cbor/options.ts` and `encoder.ts`: a strict, definite-length subset
of RFC 8949. A writer is the list of bytes written so far; its buffer growth is not observable, its
byte limit is (`ensureCapacity`).

A `CborValue` is a finite tree, so the encoder's cycle check has nothing to reject here: a cyclic
argument is one the encoder does not accept.
-/

namespace Phi.Cbor

/-- What `encodeCbor` and `decodeCbor` throw. -/
inductive Failure where
  | cborError (message : String)
  | rangeError (message : String)
deriving DecidableEq, Repr

/-! ## Options -/

def UINT32_BASE : ℕ := 0x100000000

def MAX_UINT32 : ℕ := 0xffffffff

def MAX_CONFIGURED_DEPTH : ℕ := 512

def DEFAULT_MAX_CBOR_BYTE_LENGTH : ℕ := 16 * 1024 * 1024

def DEFAULT_MAX_CBOR_CONTAINER_LENGTH : ℕ := 1000000

def DEFAULT_MAX_CBOR_DEPTH : ℕ := 64

structure CborOptions where
  maxByteLength : Option Float64 := none
  maxContainerLength : Option Float64 := none
  maxDepth : Option Float64 := none

structure ResolvedCborOptions where
  maxByteLength : ℕ
  maxContainerLength : ℕ
  maxDepth : ℕ

/-- A configured limit is a safe integer between 0 and `maximum`. -/
def resolveLimit (name : String) (value : Float64) (maximum : ℕ) : Except Failure ℕ :=
  match value.toInt? with
  | some n =>
    if value.isSafeInteger = false ∨ n < 0 ∨ n > maximum then
      .error (.rangeError s!"{name} must be an integer between 0 and {maximum}")
    else .ok n.toNat
  | none => .error (.rangeError s!"{name} must be an integer between 0 and {maximum}")

def resolveOptions (options : CborOptions) : Except Failure ResolvedCborOptions := do
  let maxByteLength ← resolveLimit "maxByteLength"
    (options.maxByteLength.getD (.ofInt DEFAULT_MAX_CBOR_BYTE_LENGTH)) MAX_UINT32
  let maxContainerLength ← resolveLimit "maxContainerLength"
    (options.maxContainerLength.getD (.ofInt DEFAULT_MAX_CBOR_CONTAINER_LENGTH)) MAX_UINT32
  let maxDepth ← resolveLimit "maxDepth"
    (options.maxDepth.getD (.ofInt DEFAULT_MAX_CBOR_DEPTH)) MAX_CONFIGURED_DEPTH
  return { maxByteLength, maxContainerLength, maxDepth }

/-! ## Values -/

/-- A JavaScript value handed to the encoder.

`undefined` also stands for the hole of a sparse array, and `other` for everything the encoder knows
no form for: functions, symbols, bigints, instances of other classes. A plain object lists its own
enumerable string-keyed properties in enumeration order; `symbolKeys` says whether it has an
enumerable symbol-keyed one as well. -/
inductive CborValue where
  | null
  | boolean (value : Bool)
  | number (value : Float64)
  | string (value : JsString)
  | bytes (value : List UInt8)
  | array (items : List CborValue)
  | map (symbolKeys : Bool) (entries : List (JsString × CborValue))
  | undefined
  | other (typeName : String)

namespace CborValue

def isUndefined : CborValue → Bool
  | undefined => true
  | _ => false

mutual

/-- The object part of a value is one JavaScript can hold: own keys distinct and in enumeration
order, at every depth. -/
def WellFormed : CborValue → Prop
  | array items => WellFormedItems items
  | map _ entries => (Table.keys entries).Pairwise JsObject.KeyBefore ∧ WellFormedEntries entries
  | _ => True

def WellFormedItems : List CborValue → Prop
  | [] => True
  | v :: vs => WellFormed v ∧ WellFormedItems vs

def WellFormedEntries : List (JsString × CborValue) → Prop
  | [] => True
  | e :: es => WellFormed e.2 ∧ WellFormedEntries es

end

mutual

/-- The value without the map members that are `undefined`, at every depth. -/
def dropUndefined : CborValue → CborValue
  | array items => array (dropUndefinedItems items)
  | map s entries => map s (dropUndefinedEntries entries)
  | v => v

def dropUndefinedItems : List CborValue → List CborValue
  | [] => []
  | v :: vs => dropUndefined v :: dropUndefinedItems vs

def dropUndefinedEntries : List (JsString × CborValue) → List (JsString × CborValue)
  | [] => []
  | e :: es =>
    if e.2.isUndefined then dropUndefinedEntries es
    else (e.1, dropUndefined e.2) :: dropUndefinedEntries es

end

end CborValue

/-- A JavaScript value: the trees whose objects are objects. -/
structure JsValue where
  value : CborValue
  wellFormed : value.WellFormed

/-! ## Writer -/

/-- The bytes written so far. -/
abbrev CborWriter := List UInt8

/-- Refuse to grow past the byte limit. -/
def ensureCapacity (o : ResolvedCborOptions) (w : CborWriter) (additionalBytes : ℕ) :
    Except Failure Unit :=
  if w.length + additionalBytes > o.maxByteLength then
    .error (.cborError s!"CBOR byte length exceeds configured limit of {o.maxByteLength}")
  else .ok ()

def writeBytes (o : ResolvedCborOptions) (w : CborWriter) (bytes : List UInt8) :
    Except Failure CborWriter := do
  ensureCapacity o w bytes.length
  return w ++ bytes

def writeByte (o : ResolvedCborOptions) (w : CborWriter) (value : ℕ) : Except Failure CborWriter :=
  writeBytes o w [UInt8.ofNat value]

def writeUint16 (o : ResolvedCborOptions) (w : CborWriter) (value : ℕ) :
    Except Failure CborWriter :=
  writeBytes o w [UInt8.ofNat (value >>> 8), UInt8.ofNat value]

def writeUint32 (o : ResolvedCborOptions) (w : CborWriter) (value : ℕ) :
    Except Failure CborWriter :=
  writeBytes o w [UInt8.ofNat (value >>> 24), UInt8.ofNat (value >>> 16),
    UInt8.ofNat (value >>> 8), UInt8.ofNat value]

def writeUint64 (o : ResolvedCborOptions) (w : CborWriter) (value : ℕ) :
    Except Failure CborWriter := do
  let high := value / UINT32_BASE
  let low := value - high * UINT32_BASE
  let w ← writeUint32 o w high
  writeUint32 o w low

def writeFloat64 (o : ResolvedCborOptions) (w : CborWriter) (value : Float64) :
    Except Failure CborWriter :=
  writeBytes o w (0xfb :: value.toBytesBE)

/-- An item head: major type and argument in the shortest form. -/
def writeArgument (o : ResolvedCborOptions) (w : CborWriter) (majorType value : ℕ) :
    Except Failure CborWriter :=
  let initial := majorType <<< 5
  if value < 24 then writeByte o w (initial ||| value)
  else if value ≤ 0xff then do
    let w ← writeByte o w (initial ||| 24)
    writeByte o w value
  else if value ≤ 0xffff then do
    let w ← writeByte o w (initial ||| 25)
    writeUint16 o w value
  else if value ≤ MAX_UINT32 then do
    let w ← writeByte o w (initial ||| 26)
    writeUint32 o w value
  else do
    let w ← writeByte o w (initial ||| 27)
    writeUint64 o w value

/-! ## Encoder -/

/-- A text string must survive the decoder: an ill-formed string does not. -/
def encodeText (o : ResolvedCborOptions) (w : CborWriter) (value : JsString) :
    Except Failure CborWriter :=
  let bytes := textEncode value
  if bytes.length > o.maxByteLength then
    .error (.cborError s!"CBOR text string length exceeds configured limit of {o.maxByteLength}")
  else if textDecode bytes ≠ some value then
    .error (.cborError "CBOR text strings must contain valid Unicode scalar values")
  else do
    let w ← writeArgument o w 3 bytes.length
    writeBytes o w bytes

/-- A number: a safe integer as an integer item, everything else finite as a float64 item. -/
def encodeNumber (o : ResolvedCborOptions) (w : CborWriter) (value : Float64) :
    Except Failure CborWriter :=
  if value.isFinite = false then .error (.cborError "CBOR numbers must be finite")
  else
    match value.toInt? with
    | some n =>
      if value.isNegZero then writeFloat64 o w value
      else if value.isSafeInteger = false then
        .error (.cborError "CBOR integers must be safe JavaScript integers")
      else if n ≥ 0 then writeArgument o w 0 n.toNat
      else writeArgument o w 1 (-1 - n).toNat
    | none => writeFloat64 o w value

mutual

def encodeValue (o : ResolvedCborOptions) (w : CborWriter) (value : CborValue) (depth : ℕ) :
    Except Failure CborWriter :=
  if depth > o.maxDepth then
    .error (.cborError s!"CBOR nesting depth exceeds configured limit of {o.maxDepth}")
  else
    match value with
    | .null => writeByte o w 0xf6
    | .boolean b => writeByte o w (if b then 0xf5 else 0xf4)
    | .number x => encodeNumber o w x
    | .string s => encodeText o w s
    | .bytes b =>
      if b.length > o.maxByteLength then
        .error (.cborError
          s!"CBOR byte string length exceeds configured limit of {o.maxByteLength}")
      else do
        let w ← writeArgument o w 2 b.length
        writeBytes o w b
    | .array items =>
      if items.length > o.maxContainerLength then
        .error (.cborError
          s!"CBOR array length exceeds configured limit of {o.maxContainerLength}")
      else do
        let w ← writeArgument o w 4 items.length
        encodeItems o w items (depth + 1)
    | .map symbolKeys entries =>
      if symbolKeys then .error (.cborError "CBOR map keys must be strings")
      else
        let defined := entries.countP fun e => !e.2.isUndefined
        if defined > o.maxContainerLength then
          .error (.cborError
            s!"CBOR map length exceeds configured limit of {o.maxContainerLength}")
        else do
          let w ← writeArgument o w 5 defined
          encodeEntries o w entries (depth + 1)
    | .undefined => .error (.cborError "Unsupported CBOR value type: undefined")
    | .other typeName => .error (.cborError s!"Unsupported CBOR value type: {typeName}")

def encodeItems (o : ResolvedCborOptions) (w : CborWriter) (items : List CborValue) (depth : ℕ) :
    Except Failure CborWriter :=
  match items with
  | [] => .ok w
  | v :: vs =>
    if v.isUndefined then
      .error (.cborError "CBOR arrays must not contain holes or undefined values")
    else do
      let w ← encodeValue o w v depth
      encodeItems o w vs depth

/-- The members of a map, `undefined` ones left out. -/
def encodeEntries (o : ResolvedCborOptions) (w : CborWriter)
    (entries : List (JsString × CborValue)) (depth : ℕ) : Except Failure CborWriter :=
  match entries with
  | [] => .ok w
  | e :: es =>
    if e.2.isUndefined then encodeEntries o w es depth
    else do
      let w ← encodeText o w e.1
      let w ← encodeValue o w e.2 depth
      encodeEntries o w es depth

end

/-- `encodeCbor(value, options)`. -/
def encodeCbor (value : JsValue) (options : CborOptions) : Except Failure (List UInt8) := do
  let resolved ← resolveOptions options
  encodeValue resolved [] value.value 0

end Phi.Cbor
