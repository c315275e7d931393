import Phi.Data.Except
import Phi.Data.Float64

/-!
# Framing

Model of `packages/protocol/src/framing.ts`. A frame is a four-byte big-endian length and that many
bytes. The decoder is pushed chunks of the stream, cut anywhere; it keeps a header and a payload that
are not complete yet, the payload in blocks.

The decoder does what an automaton on single bytes does (`scan`), so the chunks cannot be told from
their concatenation (`push_eq_scan`). One thing about them can: a push that throws returns none of the
frames it has completed, so where the stream exceeds the limit the frames that were completed in the same
chunk are lost.
-/

namespace Phi.Protocol

/-- What the encoder and the decoder throw. -/
inductive FrameError where
  | rangeError (message : String)
  | limit (frameLength maxFrameLength : ℕ)
  | truncated
  | ended
  | failed
deriving DecidableEq, Repr

def FrameError.message : FrameError → String
  | .rangeError message => message
  | .limit frameLength maxFrameLength =>
    s!"Frame length {frameLength} exceeds configured limit of {maxFrameLength}"
  | .truncated => "Truncated frame at end of stream"
  | .ended => "Frame decoder has ended"
  | .failed => "Frame decoder has failed"

def FRAME_HEADER_LENGTH : ℕ := 4

def MAX_UINT32 : ℕ := 0xffffffff

def PAYLOAD_BLOCK_SIZE : ℕ := 64 * 1024

def DEFAULT_MAX_FRAME_LENGTH : ℕ := 16 * 1024 * 1024

def resolveMaxFrameLength (maxFrameLength : Option Float64) : Except FrameError ℕ :=
  let value := maxFrameLength.getD (.ofInt DEFAULT_MAX_FRAME_LENGTH)
  match value.toInt? with
  | some n =>
    if value.isSafeInteger = false ∨ n < 0 ∨ n > MAX_UINT32 then .error rangeError else .ok n.toNat
  | none => .error rangeError
where
  rangeError : FrameError :=
    .rangeError s!"maxFrameLength must be an integer between 0 and {MAX_UINT32}"

/-! ## Encoder -/

/-- The header of a frame; storing into a byte array keeps the low eight bits. -/
def encodeHeader (length : ℕ) : List UInt8 :=
  [UInt8.ofNat (length >>> 24), UInt8.ofNat (length >>> 16), UInt8.ofNat (length >>> 8),
    UInt8.ofNat length]

def encodeFrame (payload : List UInt8) : Except FrameError (List UInt8) :=
  if payload.length > MAX_UINT32 then
    .error (.rangeError "Frame payload exceeds the unsigned 32-bit length limit")
  else .ok (encodeHeader payload.length ++ payload)

/-- The length a complete header declares. -/
def decodeHeader (header : List UInt8) : ℕ :=
  0x1000000 * (header.getD 0 0).toNat + 0x10000 * (header.getD 1 0).toNat
    + 0x100 * (header.getD 2 0).toNat + (header.getD 3 0).toNat

/-! ## Decoder -/

/-- A block of a payload, an array of `byteLength` bytes; the first ones have been written. -/
structure Block where
  byteLength : ℕ
  filled : List UInt8

/-- The array behind a block. -/
def Block.bytes (b : Block) : List UInt8 :=
  b.filled ++ List.replicate (b.byteLength - b.filled.length) 0

/-- A payload that is not complete yet. The source keeps the current block among the others. -/
structure Payload where
  expectedPayloadLength : ℕ
  payloadBlocks : List Block
  currentPayloadBlock : Option Block
  payloadLength : ℕ

namespace Payload

/-- The payload after its header. -/
def start (frameLength : ℕ) : Payload := ⟨frameLength, [], none, 0⟩

def blocks (p : Payload) : List Block := p.payloadBlocks ++ p.currentPayloadBlock.toList

/-- A new current block, as large as what is missing. -/
def addBlock (p : Payload) : Payload :=
  { p with
    payloadBlocks := p.blocks
    currentPayloadBlock :=
      some ⟨min PAYLOAD_BLOCK_SIZE (p.expectedPayloadLength - p.payloadLength), []⟩ }

/-- The current block has room after this. -/
def ensureBlock (p : Payload) : Payload :=
  match p.currentPayloadBlock with
  | none => p.addBlock
  | some b => if b.filled.length = b.byteLength then p.addBlock else p

/-- Bytes into the current block, as many as it takes: the payload, and the bytes that are left. -/
def writeBlock (p : Payload) (chunk : List UInt8) : Payload × List UInt8 :=
  match p.currentPayloadBlock with
  | none => (p, chunk)
  | some b =>
    let payloadBytes := min (b.byteLength - b.filled.length) chunk.length
    ({ p with
        currentPayloadBlock := some { b with filled := b.filled ++ chunk.take payloadBytes }
        payloadLength := p.payloadLength + payloadBytes }, chunk.drop payloadBytes)

/-- The inner loop of `push`. Each round takes at least one byte, so that the length of the chunk bounds
their number. -/
def fill : ℕ → Payload → List UInt8 → Payload × List UInt8
  | 0, p, chunk => (p, chunk)
  | rounds + 1, p, chunk =>
    if chunk.length = 0 ∨ p.expectedPayloadLength ≤ p.payloadLength then (p, chunk)
    else
      let (p, chunk) := p.ensureBlock.writeBlock chunk
      fill rounds p chunk

/-- The frame of a complete payload. -/
def frame (p : Payload) : List UInt8 :=
  match p.blocks with
  | [b] => b.bytes
  | blocks => blocks.flatMap Block.bytes

end Payload

inductive DecoderState where
  | opened
  | ended
  | failed
deriving DecidableEq

/-- `header` are the first `headerLength` bytes of the header. -/
structure FrameDecoder where
  maxFrameLength : ℕ
  header : List UInt8
  payload : Option Payload
  state : DecoderState

namespace FrameDecoder

def create (maxFrameLength : Option Float64) : Except FrameError FrameDecoder := do
  let maxFrameLength ← resolveMaxFrameLength maxFrameLength
  return ⟨maxFrameLength, [], none, .opened⟩

/-- The decoder that `fail` leaves. -/
def fail (d : FrameDecoder) : FrameDecoder := { d with header := [], payload := none, state := .failed }

/-- The second half of a round: the decoder, what is left of the chunk, and the frame if it is
complete. -/
def collect (d : FrameDecoder) (p : Payload) (chunk : List UInt8) :
    FrameDecoder × List UInt8 × List (List UInt8) :=
  let (p, chunk) := p.fill chunk.length chunk
  if p.payloadLength = p.expectedPayloadLength then ({ d with payload := none }, chunk, [p.frame])
  else ({ d with payload := some p }, chunk, [])

/-- A round of the outer loop of `push`. -/
def round (d : FrameDecoder) (chunk : List UInt8) :
    Except FrameError (FrameDecoder × List UInt8 × List (List UInt8)) :=
  match d.payload with
  | some p => .ok (d.collect p chunk)
  | none =>
    let headerBytes := min (FRAME_HEADER_LENGTH - d.header.length) chunk.length
    let header := d.header ++ chunk.take headerBytes
    let chunk := chunk.drop headerBytes
    if header.length < FRAME_HEADER_LENGTH then .ok ({ d with header := header }, chunk, [])
    else
      let frameLength := decodeHeader header
      let d := { d with header := [] }
      if frameLength > d.maxFrameLength then .error (.limit frameLength d.maxFrameLength)
      else if frameLength = 0 then .ok (d, chunk, [[]])
      else .ok (d.collect (.start frameLength) chunk)

/-- The outer loop of `push`, with the frames so far. Each round takes at least one byte. -/
def loop : ℕ → FrameDecoder → List UInt8 → List (List UInt8) →
    FrameDecoder × Except FrameError (List (List UInt8))
  | 0, d, _, frames => (d, .ok frames)
  | rounds + 1, d, chunk, frames =>
    if chunk.length = 0 then (d, .ok frames)
    else
      match d.round chunk with
      | .error e => (d.fail, .error e)
      | .ok (d, chunk, completed) => loop rounds d chunk (frames ++ completed)

def push (d : FrameDecoder) (chunk : List UInt8) :
    FrameDecoder × Except FrameError (List (List UInt8)) :=
  match d.state with
  | .ended => (d, .error .ended)
  | .failed => (d, .error .failed)
  | .opened => d.loop chunk.length chunk []

/-- `end()`. -/
def finish (d : FrameDecoder) : FrameDecoder × Except FrameError Unit :=
  match d.state with
  | .ended => (d, .error .ended)
  | .failed => (d, .error .failed)
  | .opened =>
    if d.header.length ≠ 0 ∨ d.payload.isSome then (d.fail, .error .truncated)
    else ({ d with state := .ended }, .ok ())

/-- What a reader of a stream does: it pushes the chunks one after the other, up to a throw, and then
calls `end()`. The frames it has got, and what was thrown. -/
def decode (d : FrameDecoder) : List (List UInt8) → List (List UInt8) × Except FrameError Unit
  | [] => ([], d.finish.2)
  | chunk :: chunks =>
    match d.push chunk with
    | (_, .error e) => ([], .error e)
    | (d, .ok frames) =>
      let (rest, result) := d.decode chunks
      (frames ++ rest, result)

end FrameDecoder

/-! ## Byte by byte -/

/-- What has been read of a frame. -/
inductive Reading where
  | header (bytes : List UInt8)
  | payload (expected : ℕ) (bytes : List UInt8)

/-- One byte: what has been read then, and the frame it completes. -/
def Reading.next (maxFrameLength : ℕ) (byte : UInt8) :
    Reading → Except FrameError (Reading × List (List UInt8))
  | .header bytes =>
    let header := bytes ++ [byte]
    if header.length < FRAME_HEADER_LENGTH then .ok (.header header, [])
    else if decodeHeader header > maxFrameLength then
      .error (.limit (decodeHeader header) maxFrameLength)
    else if decodeHeader header = 0 then .ok (.header [], [[]])
    else .ok (.payload (decodeHeader header) [], [])
  | .payload expected bytes =>
    let payload := bytes ++ [byte]
    if payload.length = expected then .ok (.header [], [payload]) else .ok (.payload expected payload, [])

/-- `end()` at this point. -/
def Reading.finish : Reading → Except FrameError Unit
  | .header [] => .ok ()
  | _ => .error .truncated

/-- Some bytes: the frames completed, and what has been read then, or the throw. -/
def scan (maxFrameLength : ℕ) : Reading → List UInt8 → List (List UInt8) × Except FrameError Reading
  | s, [] => ([], .ok s)
  | s, byte :: bytes =>
    match s.next maxFrameLength byte with
    | .error e => ([], .error e)
    | .ok (s, completed) =>
      let (frames, result) := scan maxFrameLength s bytes
      (completed ++ frames, result)

theorem scan_append (max : ℕ) (s : Reading) (bytes bytes' : List UInt8) :
    scan max s (bytes ++ bytes') = match scan max s bytes with
      | (frames, .error e) => (frames, .error e)
      | (frames, .ok s') => (frames ++ (scan max s' bytes').1, (scan max s' bytes').2) := by
  induction bytes generalizing s with
  | nil => rfl
  | cons byte bytes ih =>
    rw [List.cons_append, scan, scan]
    cases hnext : s.next max byte with
    | error e => rfl
    | ok r =>
      obtain ⟨s', completed⟩ := r
      simp only [ih s']
      rcases hscan : scan max s' bytes with ⟨frames, e | s''⟩
      · rfl
      · simp only [List.append_assoc]

/-- The automaton throws for the limit only. -/
theorem scan_error {max : ℕ} {s : Reading} {bytes : List UInt8} {e : FrameError}
    (h : (scan max s bytes).2 = .error e) : ∃ n, e = .limit n max := by
  induction bytes generalizing s with
  | nil => cases h
  | cons byte bytes ih =>
    rw [scan] at h
    cases hnext : s.next max byte with
    | ok r =>
      rw [hnext] at h
      exact ih h
    | error e' =>
      rw [hnext] at h
      obtain rfl := Except.error.inj h
      cases s with
      | header header =>
        rw [Reading.next] at hnext
        split at hnext
        · cases hnext
        split at hnext
        · exact ⟨_, (Except.error.inj hnext).symm⟩
        split at hnext <;> cases hnext
      | payload expected payload =>
        rw [Reading.next] at hnext
        split at hnext <;> cases hnext

/-- Bytes that do not complete the header. -/
theorem scan_header_short (max : ℕ) {header bytes : List UInt8}
    (h : (header ++ bytes).length < FRAME_HEADER_LENGTH) :
    scan max (.header header) bytes = ([], .ok (.header (header ++ bytes))) := by
  induction bytes generalizing header with
  | nil => rw [List.append_nil, scan]
  | cons byte bytes ih =>
    have hlt : (header ++ [byte]).length < FRAME_HEADER_LENGTH := by
      simp only [List.length_append, List.length_cons, List.length_nil] at h ⊢
      omega
    have hrest : ((header ++ [byte]) ++ bytes).length < FRAME_HEADER_LENGTH := by
      rw [List.append_assoc]
      exact h
    rw [scan, Reading.next]
    simp only [if_pos hlt, ih hrest, List.append_assoc, List.nil_append, List.singleton_append]

/-- The bytes that complete the header. -/
theorem scan_header (max : ℕ) {header bytes : List UInt8}
    (h : (header ++ bytes).length = FRAME_HEADER_LENGTH) (hne : bytes ≠ []) :
    scan max (.header header) bytes =
      if decodeHeader (header ++ bytes) > max then
        ([], .error (.limit (decodeHeader (header ++ bytes)) max))
      else if decodeHeader (header ++ bytes) = 0 then ([[]], .ok (.header []))
      else ([], .ok (.payload (decodeHeader (header ++ bytes)) [])) := by
  obtain ⟨bytes, byte, rfl⟩ := (List.eq_nil_or_concat' bytes).resolve_left hne
  have hshort : (header ++ bytes).length < FRAME_HEADER_LENGTH := by
    simp only [List.length_append, List.length_cons, List.length_nil] at h ⊢
    omega
  have hfull : ¬(header ++ bytes ++ [byte]).length < FRAME_HEADER_LENGTH := by
    rw [List.append_assoc, h]
    exact lt_irrefl _
  rw [scan_append, scan_header_short max hshort]
  simp only [scan, Reading.next, if_neg hfull, ← List.append_assoc, List.nil_append]
  generalize decodeHeader (header ++ bytes ++ [byte]) = frameLength
  by_cases hmax : frameLength > max
  · simp only [if_pos hmax]
  by_cases hzero : frameLength = 0
  · simp only [if_neg hmax, if_pos hzero, List.append_nil]
  · simp only [if_neg hmax, if_neg hzero, List.append_nil]

/-- Bytes that do not complete the payload. -/
theorem scan_payload_short (max : ℕ) {expected : ℕ} {payload bytes : List UInt8}
    (h : (payload ++ bytes).length < expected) :
    scan max (.payload expected payload) bytes = ([], .ok (.payload expected (payload ++ bytes))) := by
  induction bytes generalizing payload with
  | nil => rw [List.append_nil, scan]
  | cons byte bytes ih =>
    have hlt : (payload ++ [byte]).length ≠ expected := by
      simp only [List.length_append, List.length_cons, List.length_nil] at h ⊢
      omega
    have hrest : ((payload ++ [byte]) ++ bytes).length < expected := by
      rw [List.append_assoc]
      exact h
    rw [scan, Reading.next]
    simp only [if_neg hlt, ih hrest, List.append_assoc, List.nil_append, List.singleton_append]

/-- The bytes that complete the payload. -/
theorem scan_payload (max : ℕ) {expected : ℕ} {payload bytes : List UInt8}
    (h : (payload ++ bytes).length = expected) (hne : bytes ≠ []) :
    scan max (.payload expected payload) bytes = ([payload ++ bytes], .ok (.header [])) := by
  obtain ⟨bytes, byte, rfl⟩ := (List.eq_nil_or_concat' bytes).resolve_left hne
  have hshort : (payload ++ bytes).length < expected := by
    simp only [List.length_append, List.length_cons, List.length_nil] at h ⊢
    omega
  have hfull : (payload ++ bytes ++ [byte]).length = expected := by
    rw [List.append_assoc]
    exact h
  rw [scan_append, scan_payload_short max hshort]
  simp only [scan, Reading.next, if_pos hfull, ← List.append_assoc, List.nil_append, List.append_nil]

/-! ## Blocks -/

namespace Payload

/-- The bytes collected so far. -/
def collected (p : Payload) : List UInt8 := p.blocks.flatMap Block.filled

/-- What holds of a payload between two bytes: the blocks before the current one are full, and together
they are not larger than the payload. -/
structure Sound (p : Payload) : Prop where
  full : ∀ b ∈ p.payloadBlocks, b.filled.length = b.byteLength
  current : ∀ b ∈ p.currentPayloadBlock, b.filled.length ≤ b.byteLength
  length : p.collected.length = p.payloadLength
  size : (p.blocks.map Block.byteLength).sum ≤ p.expectedPayloadLength

theorem start_sound (frameLength : ℕ) : (start frameLength).Sound :=
  ⟨by simp [start], by simp [start], rfl, Nat.zero_le _⟩

@[simp] theorem collected_start (frameLength : ℕ) : (start frameLength).collected = [] := rfl

/-- Full blocks hold as many bytes as they have. -/
theorem length_filled {bs : List Block} (h : ∀ b ∈ bs, b.filled.length = b.byteLength) :
    (bs.flatMap Block.filled).length = (bs.map Block.byteLength).sum := by
  rw [List.length_flatMap]
  exact congrArg List.sum (List.map_congr_left h)

/-- No more is collected than is expected. -/
theorem Sound.le {p : Payload} (h : p.Sound) : p.payloadLength ≤ p.expectedPayloadLength := by
  have hle : ∀ b ∈ p.blocks, b.filled.length ≤ b.byteLength := by
    intro b hb
    rcases List.mem_append.mp hb with hb | hb
    · exact Nat.le_of_eq (h.full b hb)
    · exact h.current b (Option.mem_toList.mp hb)
  have hsum : (p.blocks.map fun b => b.filled.length).sum ≤ (p.blocks.map Block.byteLength).sum :=
    List.sum_le_sum hle
  rw [← h.length, collected, List.length_flatMap]
  exact hsum.trans h.size

theorem Sound.addBlock {p : Payload} (h : p.Sound)
    (hfull : ∀ b ∈ p.currentPayloadBlock, b.filled.length = b.byteLength) : p.addBlock.Sound := by
  have hall : ∀ b ∈ p.blocks, b.filled.length = b.byteLength := by
    intro b hb
    rcases List.mem_append.mp hb with hb | hb
    · exact h.full b hb
    · exact hfull b (Option.mem_toList.mp hb)
  have hlen : (p.blocks.map Block.byteLength).sum = p.payloadLength := by
    rw [← length_filled hall]
    exact h.length
  refine ⟨hall, fun b hb => ?_, ?_, ?_⟩
  · obtain rfl := Option.some.inj hb
    exact Nat.zero_le _
  · have hcollected : p.addBlock.collected = p.collected := by
      simp [collected, Payload.addBlock, blocks]
    rw [hcollected]
    exact h.length
  · have hsize := h.size
    have hmap : (p.addBlock.blocks.map Block.byteLength).sum
        = (p.blocks.map Block.byteLength).sum
          + min PAYLOAD_BLOCK_SIZE (p.expectedPayloadLength - p.payloadLength) := by
      simp [Payload.addBlock, blocks, Nat.add_assoc]
    rw [hmap, hlen]
    rw [hlen] at hsize
    show _ ≤ p.expectedPayloadLength
    omega

/-- Where bytes are missing, `ensureBlock` leaves room, and changes nothing else. -/
theorem ensureBlock_spec {p : Payload} (h : p.Sound) (hlt : p.payloadLength < p.expectedPayloadLength) :
    p.ensureBlock.Sound ∧ p.ensureBlock.collected = p.collected ∧
      p.ensureBlock.expectedPayloadLength = p.expectedPayloadLength ∧
      ∃ b, p.ensureBlock.currentPayloadBlock = some b ∧ b.filled.length < b.byteLength := by
  have hnew : (∀ b ∈ p.currentPayloadBlock, b.filled.length = b.byteLength) →
      p.addBlock.Sound ∧ p.addBlock.collected = p.collected ∧
        p.addBlock.expectedPayloadLength = p.expectedPayloadLength ∧
        ∃ b, p.addBlock.currentPayloadBlock = some b ∧ b.filled.length < b.byteLength := by
    intro hfull
    refine ⟨h.addBlock hfull, by simp [collected, Payload.addBlock, blocks], rfl, _, rfl, ?_⟩
    simp only [List.length_nil, PAYLOAD_BLOCK_SIZE]
    omega
  rw [ensureBlock]
  cases hcur : p.currentPayloadBlock with
  | none => exact hnew (by simp [hcur])
  | some b =>
    simp only
    split
    · next heq => exact hnew (by simp [hcur, heq])
    · next hne =>
      have hle := h.current b hcur
      exact ⟨h, rfl, rfl, b, hcur, by omega⟩

/-- Bytes into a block with room: at least one is taken. -/
theorem writeBlock_spec {p : Payload} (h : p.Sound) {b : Block} (hcur : p.currentPayloadBlock = some b)
    (hroom : b.filled.length < b.byteLength) {chunk : List UInt8} (hne : chunk ≠ []) :
    ∃ written rest, chunk = written ++ rest ∧ written ≠ [] ∧ (p.writeBlock chunk).2 = rest ∧
      (p.writeBlock chunk).1.Sound ∧ (p.writeBlock chunk).1.collected = p.collected ++ written ∧
      (p.writeBlock chunk).1.expectedPayloadLength = p.expectedPayloadLength := by
  have hpos : 0 < chunk.length := List.length_pos_iff.mpr hne
  rw [writeBlock, hcur]
  simp only
  generalize hn : min (b.byteLength - b.filled.length) chunk.length = n
  have htake : (chunk.take n).length = n := by
    rw [List.length_take]
    omega
  refine ⟨chunk.take n, chunk.drop n, (List.take_append_drop n chunk).symm, ?_, rfl, ?_, ?_, trivial⟩
  · rw [← List.length_pos_iff, htake]
    omega
  · have hcollected : p.collected = p.payloadBlocks.flatMap Block.filled ++ b.filled := by
      simp [collected, blocks, hcur]
    have hlen := h.length
    have hsize := h.size
    rw [hcollected] at hlen
    simp only [blocks, hcur, Option.toList_some] at hsize
    refine ⟨h.full, fun b' hb' => ?_, ?_, ?_⟩
    · obtain rfl := Option.some.inj hb'
      simp only [List.length_append, htake]
      omega
    · simp only [collected, blocks, Option.toList_some, List.flatMap_append, List.flatMap_singleton,
        List.length_append, htake] at hlen ⊢
      omega
    · simp only [blocks, Option.toList_some, List.map_append] at hsize ⊢
      exact hsize
  · simp [collected, blocks, hcur]

/-- **The inner loop** takes the bytes that are missing, as far as the chunk goes. -/
theorem fill_spec {rounds : ℕ} {p : Payload} (h : p.Sound) {chunk : List UInt8}
    (hrounds : chunk.length ≤ rounds) :
    ∃ written rest, chunk = written ++ rest ∧ (p.fill rounds chunk).2 = rest ∧
      (p.fill rounds chunk).1.Sound ∧ (p.fill rounds chunk).1.collected = p.collected ++ written ∧
      (p.fill rounds chunk).1.expectedPayloadLength = p.expectedPayloadLength ∧
      (rest = [] ∨ (p.fill rounds chunk).1.payloadLength = p.expectedPayloadLength) := by
  induction rounds generalizing p chunk with
  | zero =>
    obtain rfl := List.length_eq_zero_iff.mp (Nat.le_zero.mp hrounds)
    exact ⟨[], [], rfl, rfl, h, by simp [fill], rfl, .inl rfl⟩
  | succ rounds ih =>
    rw [fill]
    split
    · next hstop =>
      refine ⟨[], chunk, rfl, rfl, h, by simp, rfl, ?_⟩
      rcases hstop with hnil | hdone
      · exact .inl (List.length_eq_zero_iff.mp hnil)
      · exact .inr (Nat.le_antisymm h.le hdone)
    · next hgo =>
      rw [not_or, not_le] at hgo
      have hne : chunk ≠ [] := fun hnil => hgo.1 (by rw [hnil]; rfl)
      obtain ⟨hs, hcol, hexp, b, hcur, hroom⟩ := ensureBlock_spec h hgo.2
      obtain ⟨written, rest, rfl, hw, hrest, hs', hcol', hexp'⟩ := writeBlock_spec hs hcur hroom hne
      have hlen : (p.ensureBlock.writeBlock (written ++ rest)).2.length ≤ rounds := by
        have hpos := List.length_pos_iff.mpr hw
        rw [hrest]
        rw [List.length_append] at hrounds
        omega
      obtain ⟨written', rest', heq, hrest', hs'', hcol'', hexp'', hend⟩ := ih hs' hlen
      rw [hrest] at heq
      refine ⟨written ++ written', rest', ?_, hrest', hs'', ?_, ?_, ?_⟩
      · rw [heq, List.append_assoc]
      · rw [hcol'', hcol', hcol, List.append_assoc]
      · rw [hexp'', hexp', hexp]
      · rw [← hexp, ← hexp']
        exact hend

/-- The frame of a payload that has all its bytes. -/
theorem Sound.frame {p : Payload} (h : p.Sound) (hall : p.payloadLength = p.expectedPayloadLength) :
    p.frame = p.collected := by
  -- the current block is full as well, since together they are not larger than the payload
  have hfull : ∀ b ∈ p.blocks, b.filled.length = b.byteLength := by
    intro b hb
    rcases List.mem_append.mp hb with hb | hb
    · exact h.full b hb
    have hcur : p.currentPayloadBlock = some b := Option.mem_toList.mp hb
    have hlen := h.length
    have hsize := h.size
    have hle := h.current b hcur
    simp only [collected, blocks, hcur, Option.toList_some, List.flatMap_append, List.flatMap_singleton,
      List.length_append, length_filled h.full] at hlen
    simp only [blocks, hcur, Option.toList_some, List.map_append, List.sum_append, List.map_cons,
      List.map_nil, List.sum_cons, List.sum_nil] at hsize
    omega
  have hbytes : ∀ b ∈ p.blocks, b.bytes = b.filled := by
    intro b hb
    simp [Block.bytes, hfull b hb]
  have hflat : p.blocks.flatMap Block.bytes = p.collected := List.flatMap_congr hbytes
  rw [Payload.frame]
  split
  · next b heq =>
    rw [← hflat, heq, List.flatMap_singleton]
  · exact hflat

end Payload

/-! ## The decoder and the automaton -/

namespace FrameDecoder

/-- What holds of an open decoder between two chunks. -/
structure Sound (d : FrameDecoder) : Prop where
  state : d.state = .opened
  header : d.header.length < FRAME_HEADER_LENGTH
  payload : ∀ p, d.payload = some p → d.header = [] ∧ p.Sound ∧ p.payloadLength < p.expectedPayloadLength

/-- What an open decoder has read of a frame. -/
def reading (d : FrameDecoder) : Reading :=
  match d.payload with
  | none => .header d.header
  | some p => .payload p.expectedPayloadLength p.collected

/-- What a part of the decoder does with a chunk that it is given in this state: it takes some bytes, at
least one, and does with them what the automaton does. -/
structure Takes (max : ℕ) (s : Reading) (chunk rest : List UInt8) (completed : List (List UInt8))
    (d : FrameDecoder) : Prop where
  sound : d.Sound
  limit : d.maxFrameLength = max
  taken : ∃ taken, chunk = taken ++ rest ∧ (chunk ≠ [] → taken ≠ []) ∧
    scan max s taken = (completed, .ok d.reading)

theorem collect_spec {d : FrameDecoder} (hopen : d.state = .opened) (hheader : d.header = [])
    {p : Payload} (hp : p.Sound) (hlt : p.payloadLength < p.expectedPayloadLength) (chunk : List UInt8) :
    Takes d.maxFrameLength (.payload p.expectedPayloadLength p.collected) chunk (d.collect p chunk).2.1
      (d.collect p chunk).2.2 (d.collect p chunk).1 := by
  obtain ⟨taken, rest, hchunk, hrest, hs, hcol, hexp, hend⟩ := Payload.fill_spec hp (le_refl chunk.length)
  have hlen := hs.length
  have hle := hs.le
  rw [hcol, List.length_append, hp.length] at hlen
  -- the loop stops only when the chunk or what is missing has been used up
  have htaken : chunk ≠ [] → taken ≠ [] := by
    rintro hne rfl
    rcases hend with rfl | hall
    · exact hne hchunk
    · rw [← hall, ← hlen] at hlt
      exact absurd hlt (by simp)
  rw [collect]
  simp only
  split
  · next hall =>
    refine ⟨⟨hopen, by rw [hheader]; decide, by simp⟩, rfl, taken, by rw [hrest]; exact hchunk, htaken, ?_⟩
    have hlength : (p.collected ++ taken).length = p.expectedPayloadLength := by
      rw [List.length_append, hp.length, hlen, hall, hexp]
    rw [scan_payload _ hlength, hs.frame hall, hcol]
    · show _ = (_, Except.ok (Reading.header d.header))
      rw [hheader]
    · rintro rfl
      rw [List.append_nil, hp.length] at hlength
      omega
  · next hmore =>
    refine ⟨⟨hopen, by rw [hheader]; decide, fun q hq => ?_⟩, rfl, taken, by rw [hrest]; exact hchunk,
      htaken, ?_⟩
    · obtain rfl := Option.some.inj hq
      exact ⟨hheader, hs, by omega⟩
    · rw [scan_payload_short, ← hcol, ← hexp]
      · rfl
      · rw [List.length_append, hp.length]
        omega

/-- A round of the outer loop. -/
theorem round_spec {d : FrameDecoder} (h : d.Sound) {chunk : List UInt8} (hne : chunk ≠ []) :
    (∀ d' rest completed, d.round chunk = .ok (d', rest, completed) →
      Takes d.maxFrameLength d.reading chunk rest completed d') ∧
    ∀ e, d.round chunk = .error e → ∃ taken rest, chunk = taken ++ rest ∧
      scan d.maxFrameLength d.reading taken = ([], .error e) := by
  rw [round]
  cases hpay : d.payload with
  | some p =>
    obtain ⟨hheader, hp, hlt⟩ := h.payload p hpay
    refine ⟨fun d' rest completed heq => ?_, fun e heq => by cases heq⟩
    obtain ⟨rfl, rfl, rfl⟩ : (d.collect p chunk).1 = d' ∧ (d.collect p chunk).2.1 = rest ∧
        (d.collect p chunk).2.2 = completed := by
      rw [Except.ok.inj heq]
      exact ⟨rfl, rfl, rfl⟩
    have hreading : d.reading = .payload p.expectedPayloadLength p.collected := by rw [reading, hpay]
    rw [hreading]
    exact collect_spec h.state hheader hp hlt chunk
  | none =>
    have hreading : d.reading = .header d.header := by rw [reading, hpay]
    have hlt := h.header
    have hpos := List.length_pos_iff.mpr hne
    simp only
    generalize hn : min (FRAME_HEADER_LENGTH - d.header.length) chunk.length = n
    have hsplit := (List.take_append_drop n chunk).symm
    have htaken : chunk.take n ≠ [] := by
      rw [← List.length_pos_iff, List.length_take]
      omega
    have hlen : (d.header ++ chunk.take n).length ≤ FRAME_HEADER_LENGTH := by
      rw [List.length_append, List.length_take]
      omega
    rw [hreading]
    split
    · next hshort =>
      refine ⟨fun d' rest completed heq => ?_, fun e heq => by cases heq⟩
      obtain ⟨rfl, rfl, rfl⟩ := Except.ok.inj heq
      refine ⟨⟨h.state, hshort, ?_⟩, rfl, chunk.take n, hsplit, fun _ => htaken, ?_⟩
      · exact fun p hp => by cases hp
      · rw [scan_header_short _ hshort]
        rfl
    · next hfull =>
      have hscan := scan_header d.maxFrameLength (le_antisymm hlen (not_lt.mp hfull)) htaken
      split
      · next hmax =>
        refine ⟨fun d' rest completed heq => (by cases heq), fun e heq => ?_⟩
        obtain rfl := Except.error.inj heq
        exact ⟨chunk.take n, chunk.drop n, hsplit, by rw [hscan, if_pos hmax]⟩
      next hmax =>
      split
      · next hzero =>
        refine ⟨fun d' rest completed heq => ?_, fun e heq => by cases heq⟩
        obtain ⟨rfl, rfl, rfl⟩ := Except.ok.inj heq
        refine ⟨⟨h.state, Nat.zero_lt_succ _, ?_⟩, rfl, chunk.take n, hsplit, fun _ => htaken, ?_⟩
        · exact fun p hp => by cases hp
        · rw [hscan, if_neg hmax, if_pos hzero]
          rfl
      · next hzero =>
        -- the payload begins in the same round
        refine ⟨fun d' rest completed heq => ?_, fun e heq => by cases heq⟩
        generalize decodeHeader (d.header ++ chunk.take n) = frameLength at heq hscan hmax hzero
        have hcollect := collect_spec (d := { d with header := [], payload := none }) h.state rfl
          (Payload.start_sound frameLength) (Nat.pos_of_ne_zero hzero) (chunk.drop n)
        rw [Except.ok.inj heq] at hcollect
        obtain ⟨hsound, hlimit, taken, hrest, -, hscan'⟩ := hcollect
        refine ⟨hsound, hlimit, chunk.take n ++ taken, ?_, fun _ => by simp [htaken], ?_⟩
        · rw [List.append_assoc, ← hrest]
          exact hsplit
        · rw [scan_append, hscan, if_neg hmax, if_neg hzero]
          simp only [List.nil_append]
          exact hscan'

/-- **The outer loop** does what the automaton does with the whole chunk. -/
theorem loop_spec {rounds : ℕ} {d : FrameDecoder} (h : d.Sound) {chunk : List UInt8}
    (hrounds : chunk.length ≤ rounds) (frames : List (List UInt8)) :
    match scan d.maxFrameLength d.reading chunk with
    | (completed, .ok s) => ∃ d', d.loop rounds chunk frames = (d', .ok (frames ++ completed)) ∧ d'.Sound ∧
        d'.maxFrameLength = d.maxFrameLength ∧ d'.reading = s
    | (_, .error e) => ∃ d', d.loop rounds chunk frames = (d', .error e) ∧ d'.state = .failed := by
  induction rounds generalizing d chunk frames with
  | zero =>
    obtain rfl := List.length_eq_zero_iff.mp (Nat.le_zero.mp hrounds)
    exact ⟨d, by rw [loop, List.append_nil], h, rfl, rfl⟩
  | succ rounds ih =>
    rw [loop]
    by_cases hnil : chunk.length = 0
    · obtain rfl := List.length_eq_zero_iff.mp hnil
      exact ⟨d, by simp, h, rfl, rfl⟩
    have hne : chunk ≠ [] := fun hnil' => hnil (by rw [hnil']; rfl)
    obtain ⟨hok, herror⟩ := round_spec h hne
    simp only [if_neg hnil]
    cases hround : d.round chunk with
    | error e =>
      obtain ⟨taken, rest, rfl, hscan⟩ := herror e hround
      rw [scan_append, hscan]
      exact ⟨_, rfl, rfl⟩
    | ok r =>
      obtain ⟨d', rest, completed⟩ := r
      obtain ⟨hsound, hlimit, taken, rfl, htaken, hscan⟩ := hok d' rest completed hround
      have hlen : rest.length ≤ rounds := by
        have hpos := List.length_pos_iff.mpr (htaken hne)
        rw [List.length_append] at hrounds
        omega
      have hrest := ih hsound hlen (frames ++ completed)
      rw [scan_append, hscan]
      rw [hlimit] at hrest
      simp only
      generalize scan d.maxFrameLength d'.reading rest = r at hrest ⊢
      rcases r with ⟨more, e | s⟩
      · exact hrest
      · simpa only [List.append_assoc] using hrest

theorem finish_spec {d : FrameDecoder} (h : d.Sound) : d.finish.2 = d.reading.finish := by
  rw [finish, h.state]
  simp only
  cases hpay : d.payload with
  | some p =>
    rw [reading, hpay]
    simp [Reading.finish]
  | none =>
    rw [reading, hpay]
    cases d.header <;> simp [Reading.finish]

/-- **The chunks and their concatenation.** Where the automaton gets through the bytes, the decoder yields
its frames. Where it does not, one chunk is the first that reaches the byte it stops at, and the frames are
those of the chunks before. -/
theorem decode_spec {d : FrameDecoder} (h : d.Sound) (chunks : List (List UInt8)) :
    match scan d.maxFrameLength d.reading chunks.flatten with
    | (frames, .ok s) => d.decode chunks = (frames, s.finish)
    | (_, .error e) => ∃ before chunk after frames s, chunks = before ++ chunk :: after ∧
        scan d.maxFrameLength d.reading before.flatten = (frames, .ok s) ∧
        (scan d.maxFrameLength s chunk).2 = .error e ∧ d.decode chunks = (frames, .error e) := by
  induction chunks generalizing d with
  | nil => exact congrArg (Prod.mk []) (finish_spec h)
  | cons chunk chunks ih =>
    have hpush : d.push chunk = d.loop chunk.length chunk [] := by rw [push, h.state]
    have hloop := loop_spec h (le_refl chunk.length) []
    rw [← hpush] at hloop
    rw [List.flatten_cons, scan_append, decode]
    generalize hscan : scan d.maxFrameLength d.reading chunk = r at hloop ⊢
    rcases r with ⟨frames, e | s⟩
    · obtain ⟨d', hpush', -⟩ := hloop
      rw [hpush']
      exact ⟨[], chunk, chunks, [], d.reading, rfl, rfl, by rw [hscan], rfl⟩
    · obtain ⟨d', hpush', hsound, hlimit, rfl⟩ := hloop
      have hrest := ih hsound
      rw [hpush']
      rw [hlimit] at hrest
      simp only [List.nil_append]
      generalize scan d.maxFrameLength d'.reading chunks.flatten = r at hrest ⊢
      rcases r with ⟨more, e | s⟩
      · obtain ⟨before, chunk', after, frames', s, rfl, hbefore, hfail, hdecode⟩ := hrest
        refine ⟨chunk :: before, chunk', after, frames ++ frames', s, rfl, ?_, hfail, ?_⟩
        · rw [List.flatten_cons, scan_append, hscan]
          simp only [hbefore]
        · rw [hdecode]
      · rw [show d'.decode chunks = (more, s.finish) from hrest]

theorem create_sound {options : Option Float64} {d : FrameDecoder} (h : create options = .ok d) :
    d.Sound ∧ d.reading = .header [] := by
  rw [create] at h
  obtain ⟨max, -, h⟩ := bind_eq_ok.mp h
  obtain rfl := Except.ok.inj h
  exact ⟨⟨rfl, Nat.zero_lt_succ _, fun p hp => by cases hp⟩, rfl⟩

theorem create_limit {options : Option Float64} {d : FrameDecoder} (h : create options = .ok d) :
    d.maxFrameLength ≤ MAX_UINT32 := by
  rw [create] at h
  obtain ⟨max, hmax, h⟩ := bind_eq_ok.mp h
  obtain rfl := Except.ok.inj h
  rw [resolveMaxFrameLength] at hmax
  split at hmax
  · obtain ⟨hrange, hmax⟩ := ite_error_eq_ok.mp hmax
    obtain rfl := Except.ok.inj hmax
    show Int.toNat _ ≤ _
    omega
  · cases hmax

end FrameDecoder

/-! ## Frames that were encoded -/

theorem decodeHeader_encodeHeader {n : ℕ} (h : n ≤ MAX_UINT32) : decodeHeader (encodeHeader n) = n := by
  simp only [MAX_UINT32] at h
  simp only [decodeHeader, encodeHeader, List.getD_cons_zero, List.getD_cons_succ, UInt8.toNat_ofNat',
    Nat.shiftRight_eq_div_pow]
  omega

/-- One frame is read back, whatever follows. -/
theorem scan_frame {max : ℕ} (hmax : max ≤ MAX_UINT32) {payload : List UInt8} (h : payload.length ≤ max) :
    scan max (.header []) (encodeHeader payload.length ++ payload) = ([payload], .ok (.header [])) := by
  have hheader : scan max (.header []) (encodeHeader payload.length) =
      if payload.length = 0 then ([[]], .ok (.header []))
      else ([], .ok (.payload payload.length [])) := by
    rw [scan_header max rfl (by simp [encodeHeader]), List.nil_append,
      decodeHeader_encodeHeader (h.trans hmax), if_neg (not_lt.mpr h)]
  rw [scan_append, hheader]
  by_cases hnil : payload.length = 0
  · obtain rfl := List.length_eq_zero_iff.mp hnil
    rfl
  · rw [if_neg hnil]
    simp only [List.nil_append]
    have hne : payload ≠ [] := fun hnil' => hnil (by rw [hnil']; rfl)
    rw [scan_payload max (List.nil_append payload ▸ rfl) hne]
    rfl

theorem scan_frames {max : ℕ} (hmax : max ≤ MAX_UINT32) {payloads : List (List UInt8)}
    (h : ∀ p ∈ payloads, p.length ≤ max) :
    ∃ frames, payloads.mapM encodeFrame = .ok frames ∧
      scan max (.header []) frames.flatten = (payloads, .ok (.header [])) := by
  induction payloads with
  | nil => exact ⟨[], rfl, rfl⟩
  | cons payload payloads ih =>
    simp only [List.forall_mem_cons] at h
    obtain ⟨frames, hframes, hscan⟩ := ih h.2
    refine ⟨(encodeHeader payload.length ++ payload) :: frames, ?_, ?_⟩
    · have hencode : encodeFrame payload = .ok (encodeHeader payload.length ++ payload) := by
        rw [encodeFrame, if_neg (not_lt.mpr (h.1.trans hmax))]
      rw [List.mapM_cons, hencode, ok_bind, hframes, ok_bind]
      rfl
    · rw [List.flatten_cons, scan_append, scan_frame hmax h.1]
      simp only [hscan, List.singleton_append]

/-! ## Chunking -/

/-- **Framing and chunks.** However the frames of some payloads within the limit are cut, the decoder
yields the payloads. However any bytes are cut, the decoder accepts or throws alike, and unless it throws
for the limit the frames are the same; where it does throw for the limit, the frames are those completed
by the chunks before the one that reaches the limit. -/
theorem decode_chunks {options : Option Float64} {d : FrameDecoder}
    (hd : FrameDecoder.create options = .ok d) :
    (∀ payloads : List (List UInt8), (∀ p ∈ payloads, p.length ≤ d.maxFrameLength) →
      ∃ frames, payloads.mapM encodeFrame = .ok frames ∧
        ∀ chunks : List (List UInt8), chunks.flatten = frames.flatten →
          d.decode chunks = (payloads, .ok ())) ∧
    (∀ chunks chunks' : List (List UInt8), chunks.flatten = chunks'.flatten →
      (d.decode chunks).2 = (d.decode chunks').2 ∧
      ((∀ n m, (d.decode chunks).2 ≠ .error (.limit n m)) →
        (d.decode chunks).1 = (d.decode chunks').1)) ∧
    ∀ (chunks : List (List UInt8)) (n m : ℕ), (d.decode chunks).2 = .error (.limit n m) →
      ∃ before chunk after, chunks = before ++ chunk :: after ∧
        (d.decode chunks).1 = (d.decode (before.flatten.map fun byte => [byte])).1 ∧
        (∀ n m, (d.decode before).2 ≠ .error (.limit n m)) ∧
        (d.decode (before ++ [chunk])).2 = .error (.limit n m) := by
  obtain ⟨hsound, hreading⟩ := FrameDecoder.create_sound hd
  have hdecode := fun chunks => FrameDecoder.decode_spec hsound chunks
  have hfinish : ∀ (s : Reading) (n m : ℕ), s.finish ≠ .error (.limit n m) := by
    intro s n m
    rw [Reading.finish.eq_def]
    split <;> simp
  rw [hreading] at hdecode
  refine ⟨fun payloads hpayloads => ?_, fun chunks chunks' heq => ?_, fun chunks n m hlimit => ?_⟩
  · obtain ⟨frames, hframes, hscan⟩ := scan_frames (FrameDecoder.create_limit hd) hpayloads
    refine ⟨frames, hframes, fun chunks hchunks => ?_⟩
    have h := hdecode chunks
    rw [hchunks, hscan] at h
    exact h
  · have h := hdecode chunks
    have h' := hdecode chunks'
    rw [← heq] at h'
    generalize hscan : scan d.maxFrameLength (.header []) chunks.flatten = r at h h'
    rcases r with ⟨frames, e | s⟩
    · obtain ⟨n, rfl⟩ := scan_error (show (scan _ _ _).2 = .error e by rw [hscan])
      obtain ⟨_, _, _, _, _, -, -, -, hres⟩ := h
      obtain ⟨_, _, _, _, _, -, -, -, hres'⟩ := h'
      rw [hres, hres']
      exact ⟨rfl, fun hne => absurd rfl (hne n d.maxFrameLength)⟩
    · rw [show d.decode chunks = _ from h, show d.decode chunks' = _ from h']
      exact ⟨rfl, fun _ => rfl⟩
  · have h := hdecode chunks
    generalize scan d.maxFrameLength (.header []) chunks.flatten = r at h
    rcases r with ⟨frames, e | s⟩
    swap
    · rw [show d.decode chunks = _ from h] at hlimit
      exact absurd hlimit (hfinish s n m)
    obtain ⟨before, chunk, after, frames', s, rfl, hbefore, hfail, hres⟩ := h
    rw [hres] at hlimit ⊢
    obtain rfl := Except.error.inj hlimit
    have hbytes : (before.flatten.map fun byte => [byte]).flatten = before.flatten := by
      rw [← List.flatMap_def, List.flatMap_singleton']
    refine ⟨before, chunk, after, rfl, ?_, fun n m => ?_, ?_⟩
    · have h := hdecode (before.flatten.map fun byte => [byte])
      rw [hbytes, hbefore] at h
      rw [show d.decode _ = _ from h]
    · have h := hdecode before
      rw [hbefore] at h
      rw [show d.decode before = _ from h]
      exact hfinish s n m
    · have h := hdecode (before ++ [chunk])
      rw [List.flatten_append, List.flatten_singleton, scan_append, hbefore] at h
      simp only at h
      generalize scan d.maxFrameLength s chunk = r at hfail h
      rcases r with ⟨more, e | s'⟩
      · obtain rfl := Except.error.inj hfail
        obtain ⟨_, _, _, _, _, -, -, -, hres'⟩ := h
        rw [hres']
      · cases hfail

/-- A frame with one byte, and a header beyond the limit. -/
def overLimit : List (List UInt8) := [[0, 0, 0, 1, 7], [255, 255, 255, 255]]

theorem create_default : FrameDecoder.create none = .ok ⟨16777216, [], none, .opened⟩ := by
  have hlimit : resolveMaxFrameLength none = .ok 16777216 := by decide +kernel
  rw [FrameDecoder.create, hlimit, ok_bind]
  rfl

theorem decode_chunks_sample :
    ∃ d, FrameDecoder.create none = .ok d ∧
      (d.decode [[0, 0], [0, 1, 7, 0, 0, 0], [], [0]]) = ([[7], []], .ok ()) := by
  refine ⟨_, create_default, ?_⟩
  obtain ⟨frames, hframes, hall⟩ := (decode_chunks create_default).1 [[7], []] (by simp)
  refine hall _ ?_
  obtain rfl : frames = [[0, 0, 0, 1, 7], [0, 0, 0, 0]] := by
    have hencoded : [[7], []].mapM encodeFrame = .ok [[0, 0, 0, 1, 7], [0, 0, 0, 0]] := rfl
    rw [hencoded] at hframes
    exact (Except.ok.inj hframes).symm
  rfl

/-- Cut between the frames, the first one is yielded; in one chunk, it is lost with the throw. -/
theorem decode_overLimit :
    ∃ d, FrameDecoder.create none = .ok d ∧ [overLimit.flatten].flatten = overLimit.flatten ∧
      d.decode overLimit = ([[7]], .error (.limit 4294967295 16777216)) ∧
      d.decode [overLimit.flatten] = ([], .error (.limit 4294967295 16777216)) := by
  refine ⟨_, create_default, rfl, ?_, ?_⟩ <;> decide +kernel

end Phi.Protocol
