import Phi.Data.Except
import Phi.Data.JsonText

/-!
# Time-ordered ids

Model of `uuidv7` of `packages/ai/src/utils/uuid.ts` with a supplied timestamp. The generator counts its calls, and the
count stands in the bits that another generator would fill at random: two ids of one process differ
(`uuidText_inj`).
-/

namespace Phi.Ai

inductive UuidError where
  | timestamp
  | exhausted

def maxUuidV7Timestamp : ℕ := 0xffffffffffff

def maxSequence : ℕ := 2 ^ 41 - 1

def UuidError.message : UuidError → JsString
  | .timestamp =>
    JsString.ofAscii "UUIDv7 timestamp must be an integer between 0 and " ++ numberText maxUuidV7Timestamp
  | .exhausted => JsString.ofAscii "UUIDv7 generator sequence exhausted"

/-- The bytes that `getRandomValues` gives to one call. -/
abbrev RandomBytes := Fin 16 → UInt8

/-- The sequence of a call, after that of the call before it. -/
def nextSequence (sequence : Option ℕ) (random : RandomBytes) : Except UuidError ℕ :=
  match sequence with
  | none =>
    .ok ((random 1).toNat * 2 ^ 32 + (random 2).toNat * 2 ^ 24 + (random 3).toNat * 2 ^ 16 + (random 4).toNat * 2 ^ 8
      + (random 5).toNat)
  | some sequence => if sequence = maxSequence then .error .exhausted else .ok (sequence + 1)

def uuidBytes (timestamp sequence : ℕ) (random : RandomBytes) : List ℕ :=
  [timestamp / 2 ^ 40 % 256, timestamp / 2 ^ 32 % 256, timestamp / 2 ^ 24 % 256, timestamp / 2 ^ 16 % 256,
    timestamp / 2 ^ 8 % 256, timestamp % 256,
    0x70 + sequence / 2 ^ 37 % 16, sequence / 2 ^ 29 % 256,
    0x80 + sequence / 2 ^ 23 % 64, sequence / 2 ^ 15 % 256,
    sequence / 2 ^ 7 % 256, sequence % 128 * 2 + (random 11).toNat % 2, (random 12).toNat, (random 13).toNat,
    (random 14).toNat, (random 15).toNat]

def byteHex (byte : ℕ) : JsString := [hexDigit (byte / 16), hexDigit (byte % 16)]

/-- The groups of hexadecimal digits, with a hyphen between two. -/
def uuidText (bytes : List ℕ) : JsString :=
  let hex (first last : ℕ) : JsString := ((bytes.drop first).take (last - first)).flatMap byteHex
  hex 0 4 ++ [45] ++ hex 4 6 ++ [45] ++ hex 6 8 ++ [45] ++ hex 8 10 ++ [45] ++ hex 10 16

/-- The id, with the sequence it used. A date that is not a number has no timestamp. -/
def uuidv7 (sequence : Option ℕ) (timestamp : Option ℤ) (random : RandomBytes) : Except UuidError (JsString × ℕ) :=
  match timestamp with
  | none => .error .timestamp
  | some timestamp =>
    if timestamp < 0 ∨ (maxUuidV7Timestamp : ℤ) < timestamp then .error .timestamp
    else do
      let sequence ← nextSequence sequence random
      return (uuidText (uuidBytes timestamp.toNat sequence random), sequence)

/-! ## Different ids -/

theorem hexDigit_inj {m n : ℕ} (hm : m < 16) (hn : n < 16) (h : hexDigit m = hexDigit n) : m = n := by
  rw [← hexValue_hexDigit hm, h, hexValue_hexDigit hn]

theorem byteHex_inj {a b : ℕ} (ha : a < 256) (hb : b < 256) (h : byteHex a = byteHex b) : a = b := by
  simp only [byteHex, List.cons.injEq, and_true] at h
  have hhigh := hexDigit_inj (by omega) (by omega) h.1
  have hlow := hexDigit_inj (Nat.mod_lt _ (by omega)) (Nat.mod_lt _ (by omega)) h.2
  omega

theorem nextSequence_le {sequence : Option ℕ} {random : RandomBytes} {next : ℕ} (hs : ∀ s ∈ sequence, s ≤ maxSequence)
    (h : nextSequence sequence random = .ok next) : next ≤ maxSequence := by
  unfold nextSequence at h
  cases sequence with
  | none =>
    cases h
    have hbyte : ∀ i, (random i).toNat < 256 := fun i => (random i).toNat_lt
    have := hbyte 1
    have := hbyte 2
    have := hbyte 3
    have := hbyte 4
    have := hbyte 5
    unfold maxSequence
    omega
  | some s =>
    have hle := hs s rfl
    dsimp only at h
    split_ifs at h with hmax
    cases h
    omega

theorem flatMap_byteHex_inj {as bs : List ℕ} (has : ∀ a ∈ as, a < 256) (hbs : ∀ b ∈ bs, b < 256)
    (h : as.flatMap byteHex = bs.flatMap byteHex) : as = bs := by
  induction as generalizing bs with
  | nil =>
    cases bs with
    | nil => rfl
    | cons b bs => simp [byteHex] at h
  | cons a as ih =>
    cases bs with
    | nil => simp [byteHex] at h
    | cons b bs =>
      rw [List.forall_mem_cons] at has hbs
      rw [List.flatMap_cons, List.flatMap_cons] at h
      obtain ⟨hbyte, hrest⟩ := List.append_inj h rfl
      rw [byteHex_inj has.1 hbs.1 hbyte, ih has.2 hbs.2 hrest]

theorem hexDigit_ne_hyphen {n : ℕ} (hn : n < 16) : hexDigit n ≠ 45 := by
  intro h
  have hvalue := hexValue_hexDigit hn
  have hto := congrArg UInt16.toNat h
  rw [hexDigit, UInt16.toNat_ofNat'] at hto
  split at hto <;> simp at hto <;> omega

theorem hexDigit_ne_zero {n : ℕ} (hn : n < 16) : hexDigit n ≠ 0 := by
  intro h
  have hto := congrArg UInt16.toNat h
  rw [hexDigit, UInt16.toNat_ofNat'] at hto
  split at hto <;> simp at hto <;> omega

theorem zero_not_mem_uuidText {bytes : List ℕ} (hbytes : ∀ b ∈ bytes, b < 256) : 0 ∉ uuidText bytes := by
  have hpiece : ∀ first last, 0 ∉ ((bytes.drop first).take (last - first)).flatMap byteHex := by
    intro first last hmem
    obtain ⟨b, hb, hmem⟩ := List.mem_flatMap.mp hmem
    have hb := hbytes b (List.mem_of_mem_drop (List.mem_of_mem_take hb))
    rw [byteHex, List.mem_cons, List.mem_singleton] at hmem
    rcases hmem with h | h
    · exact hexDigit_ne_zero (by omega) h.symm
    · exact hexDigit_ne_zero (Nat.mod_lt _ (by omega)) h.symm
  simp only [uuidText, List.mem_append, hpiece, List.mem_singleton, false_or, or_false]
  decide

/-- Without its hyphens, an id is the digits of its bytes. -/
theorem filter_uuidText {bytes : List ℕ} (hlen : bytes.length = 16) (hbytes : ∀ b ∈ bytes, b < 256) :
    (uuidText bytes).filter (· ≠ 45) = bytes.flatMap byteHex := by
  have hdigits : ∀ bs : List ℕ, (∀ b ∈ bs, b < 256) → (bs.flatMap byteHex).filter (· ≠ 45) = bs.flatMap byteHex := by
    intro bs hbs
    rw [List.filter_eq_self]
    intro u hu
    obtain ⟨b, hb, hu⟩ := List.mem_flatMap.mp hu
    have hb := hbs b hb
    rw [byteHex, List.mem_cons, List.mem_singleton] at hu
    rw [decide_eq_true_eq]
    rcases hu with rfl | rfl
    · exact hexDigit_ne_hyphen (by omega)
    · exact hexDigit_ne_hyphen (Nat.mod_lt _ (by omega))
  have hpiece : ∀ first last, ((((bytes.drop first).take (last - first)).flatMap byteHex).filter (· ≠ 45))
      = ((bytes.drop first).take (last - first)).flatMap byteHex :=
    fun first last => hdigits _ fun b hb => hbytes b (List.mem_of_mem_drop (List.mem_of_mem_take hb))
  have hsplit : bytes = (bytes.drop 0).take 4 ++ (bytes.drop 4).take 2 ++ (bytes.drop 6).take 2
      ++ (bytes.drop 8).take 2 ++ (bytes.drop 10).take 6 := by
    rw [List.take_of_length_le (l := bytes.drop 10) (by rw [List.length_drop]; omega), List.append_assoc,
      show bytes.drop 10 = (bytes.drop 8).drop 2 by rw [List.drop_drop], List.take_append_drop, List.append_assoc,
      show bytes.drop 8 = (bytes.drop 6).drop 2 by rw [List.drop_drop], List.take_append_drop, List.append_assoc,
      show bytes.drop 6 = (bytes.drop 4).drop 2 by rw [List.drop_drop], List.take_append_drop, List.drop_zero,
      List.take_append_drop]
  conv_rhs => rw [hsplit]
  simp only [uuidText, List.filter_append, hpiece, List.flatMap_append]
  simp

theorem uuidBytes_lt (timestamp sequence : ℕ) (random : RandomBytes) :
    ∀ b ∈ uuidBytes timestamp sequence random, b < 256 := by
  have hbyte : ∀ i, (random i).toNat < 256 := fun i => (random i).toNat_lt
  simp only [uuidBytes, List.forall_mem_cons, hbyte, true_and]
  refine ⟨?_, ?_, ?_, ?_, ?_, ?_, ?_, ?_, ?_, ?_, ?_, ?_, by simp⟩ <;> omega

/-- The sequence can be read from the id. -/
theorem uuidText_inj {timestamp timestamp' sequence sequence' : ℕ} {random random' : RandomBytes}
    (hs : sequence ≤ maxSequence) (hs' : sequence' ≤ maxSequence)
    (h : uuidText (uuidBytes timestamp sequence random) = uuidText (uuidBytes timestamp' sequence' random')) :
    sequence = sequence' := by
  have hbytes : uuidBytes timestamp sequence random = uuidBytes timestamp' sequence' random' := by
    refine flatMap_byteHex_inj (uuidBytes_lt _ _ _) (uuidBytes_lt _ _ _) ?_
    rw [← filter_uuidText rfl (uuidBytes_lt _ _ _), h, filter_uuidText rfl (uuidBytes_lt _ _ _)]
  simp only [uuidBytes, List.cons.injEq, and_true] at hbytes
  obtain ⟨-, -, -, -, -, -, h6, h7, h8, h9, h10, h11, -⟩ := hbytes
  unfold maxSequence at hs hs'
  omega

/-- What a call that returns says of its timestamp and its sequence. -/
theorem uuidv7_eq_ok {sequence : Option ℕ} {timestamp : Option ℤ} {random : RandomBytes} {id : JsString} {next : ℕ}
    (h : uuidv7 sequence timestamp random = .ok (id, next)) :
    ∃ t : ℕ, timestamp = some (t : ℤ) ∧ t ≤ maxUuidV7Timestamp ∧ nextSequence sequence random = .ok next ∧
      id = uuidText (uuidBytes t next random) := by
  unfold uuidv7 at h
  cases timestamp with
  | none => cases h
  | some t =>
    dsimp only at h
    split_ifs at h with hrange
    push Not at hrange
    obtain ⟨next', hnext, h⟩ := bind_eq_ok.mp h
    cases h
    obtain ⟨n, rfl⟩ := Int.eq_ofNat_of_zero_le hrange.1
    exact ⟨n, rfl, by exact_mod_cast hrange.2, hnext, rfl⟩

end Phi.Ai
