import Phi.Ai.Uuid

/-!
# The id generator

Model of `uuidv7` of `packages/ai/src/utils/uuid.ts` with its two module variables, over any sequence of calls: with a
timestamp or with the clock, which may stand still or go back, and with any random bytes.

Every id holds the sequence of its call, and an ordinary one a timestamp that never goes back; both stand in the id most
significant digit first, so ordinary ids grow as strings (`uuidText_lt`).
-/

namespace Phi.Ai

/-! ## Calls -/

structure UuidGenerator where
  lastOrdinaryTimestamp : ℤ
  sequence : Option ℕ

/-- The module variables before the first call. -/
def UuidGenerator.initial : UuidGenerator := ⟨-1, none⟩

/-- A call, with what it reads of its surroundings. Of a number that is no integer nothing else matters: it is `none`. -/
structure UuidCall where
  /-- The argument, if there is one. -/
  timestampMs : Option (Option ℤ)
  /-- `Date.now()`. -/
  now : Option ℤ
  random : RandomBytes

def UuidCall.requestedTimestamp (c : UuidCall) : Option ℤ := c.timestampMs.getD c.now

/-- The second half of a call: the sequence, and the id. -/
def UuidGenerator.issue (g : UuidGenerator) (effectiveTimestamp : ℤ) (random : RandomBytes) :
    UuidGenerator × Except UuidError JsString :=
  match nextSequence g.sequence random with
  | .error e => (g, .error e)
  | .ok sequence =>
    ({ g with sequence := some sequence }, .ok (uuidText (uuidBytes effectiveTimestamp.toNat sequence random)))

def UuidGenerator.call (g : UuidGenerator) (c : UuidCall) : UuidGenerator × Except UuidError JsString :=
  match c.requestedTimestamp with
  | none => (g, .error .timestamp)
  | some requestedTimestamp =>
    if requestedTimestamp < 0 ∨ (maxUuidV7Timestamp : ℤ) < requestedTimestamp then (g, .error .timestamp)
    else if c.timestampMs.isNone then
      let effectiveTimestamp := max requestedTimestamp g.lastOrdinaryTimestamp
      { g with lastOrdinaryTimestamp := effectiveTimestamp }.issue effectiveTimestamp c.random
    else g.issue requestedTimestamp c.random

/-- With a timestamp, a call does what `uuidv7` does on the sequence alone. -/
theorem UuidGenerator.call_explicit (g : UuidGenerator) (timestamp now : Option ℤ) (random : RandomBytes) :
    (g.call ⟨some timestamp, now, random⟩).2 = (uuidv7 g.sequence timestamp random).map Prod.fst := by
  cases timestamp with
  | none => rfl
  | some t =>
    simp only [UuidGenerator.call, UuidCall.requestedTimestamp, Option.getD_some, Option.isNone_some, uuidv7,
      Bool.false_eq_true, if_false]
    split_ifs
    · rfl
    · rw [UuidGenerator.issue]
      cases nextSequence g.sequence random <;> rfl

/-- One call of a run. -/
structure UuidStep where
  before : UuidGenerator
  call : UuidCall
  after : UuidGenerator
  result : Except UuidError JsString

/-- The calls of a program, one after the other. -/
def UuidGenerator.run : UuidGenerator → List UuidCall → List UuidStep
  | _, [] => []
  | g, c :: cs => ⟨g, c, (g.call c).1, (g.call c).2⟩ :: UuidGenerator.run (g.call c).1 cs

/-! ## Reading an id -/

def isLowerHex (u : UInt16) : Bool := 48 ≤ u.toNat && u.toNat ≤ 57 || 97 ≤ u.toNat && u.toNat ≤ 102

def isHyphen (u : UInt16) : Bool := u = 45

def isVersion7 (u : UInt16) : Bool := u = 55

/-- The variant of the standard: the two highest bits of the byte are those of `0x80`. -/
def isVariant (u : UInt16) : Bool := u = 56 || u = 57 || u = 97 || u = 98

/-- What stands at each place of an id. -/
def uuidV7Pattern : List (UInt16 → Bool) :=
  List.replicate 8 isLowerHex ++ isHyphen :: List.replicate 4 isLowerHex
    ++ isHyphen :: isVersion7 :: List.replicate 3 isLowerHex
    ++ isHyphen :: isVariant :: List.replicate 3 isLowerHex ++ isHyphen :: List.replicate 12 isLowerHex

def IsUuidV7 (id : JsString) : Prop := List.Forall₂ (fun isUnit u => isUnit u = true) uuidV7Pattern id

/-- The timestamp of an id: its first twelve digits. -/
def uuidTimestamp (id : JsString) : ℕ :=
  ((id.filter (· ≠ 45)).take 12).foldl (fun n u => n * 16 + hexValue u) 0

theorem isLowerHex_hexDigit {n : ℕ} (h : n < 16) : isLowerHex (hexDigit n) = true := by
  have hto : (hexDigit n).toNat = if n < 10 then 48 + n else 87 + n := by
    rw [hexDigit, UInt16.toNat_ofNat']
    split <;> omega
  simp only [isLowerHex, Bool.or_eq_true, Bool.and_eq_true, decide_eq_true_eq, hto]
  split <;> omega

theorem isVariant_hexDigit {n : ℕ} (h : 8 ≤ n) (h' : n < 12) : isVariant (hexDigit n) = true := by
  obtain rfl | rfl | rfl | rfl : n = 8 ∨ n = 9 ∨ n = 10 ∨ n = 11 := by omega
  · rfl
  · rfl
  · rfl
  · rfl

/-- The id of a call has the version and the variant. -/
theorem isUuidV7_uuidText (timestamp sequence : ℕ) (random : RandomBytes) :
    IsUuidV7 (uuidText (uuidBytes timestamp sequence random)) := by
  have hhigh : ∀ b, b < 256 → isLowerHex (hexDigit (b / 16)) = true := fun b hb => isLowerHex_hexDigit (by omega)
  have hlow : ∀ b, isLowerHex (hexDigit (b % 16)) = true := fun b => isLowerHex_hexDigit (Nat.mod_lt _ (by omega))
  have hversion : isVersion7 (hexDigit ((0x70 + sequence / 2 ^ 37 % 16) / 16)) = true := by
    rw [show (0x70 + sequence / 2 ^ 37 % 16) / 16 = 7 by omega]
    rfl
  have hvariant : isVariant (hexDigit ((0x80 + sequence / 2 ^ 23 % 64) / 16)) = true :=
    isVariant_hexDigit (by omega) (by omega)
  have hhyphen : isHyphen 45 = true := rfl
  have hbytes := uuidBytes_lt timestamp sequence random
  simp only [uuidBytes, List.forall_mem_cons] at hbytes
  obtain ⟨h0, h1, h2, h3, h4, h5, -, h7, -, h9, h10, h11, h12, h13, h14, h15, -⟩ := hbytes
  simp only [IsUuidV7, uuidV7Pattern, List.replicate, List.cons_append, List.nil_append, uuidText, uuidBytes,
    List.drop_succ_cons, List.drop_zero, Nat.reduceSub, List.take_succ_cons, List.take_zero, List.flatMap_cons,
    List.flatMap_nil, byteHex, List.append_nil, List.forall₂_cons, List.forall₂_nil_left_iff, hlow, hversion,
    hvariant, hhyphen, true_and, and_true]
  simp only [hhigh _ h0, hhigh _ h1, hhigh _ h2, hhigh _ h3, hhigh _ h4, hhigh _ h5, hhigh _ h7, hhigh _ h9,
    hhigh _ h10, hhigh _ h11, hhigh _ h12, hhigh _ h13, hhigh _ h14, hhigh _ h15, and_self]

theorem uuidTimestamp_uuidText {timestamp : ℕ} (h : timestamp ≤ maxUuidV7Timestamp) (sequence : ℕ)
    (random : RandomBytes) : uuidTimestamp (uuidText (uuidBytes timestamp sequence random)) = timestamp := by
  have hvalue : ∀ b, b < 256 → hexValue (hexDigit (b / 16)) = b / 16 := fun b hb => hexValue_hexDigit (by omega)
  have hlow : ∀ b, hexValue (hexDigit (b % 16)) = b % 16 := fun b => hexValue_hexDigit (Nat.mod_lt _ (by omega))
  have hmod : ∀ n, n % 256 < 256 := fun n => Nat.mod_lt n (by omega)
  rw [uuidTimestamp, filter_uuidText rfl (uuidBytes_lt _ _ _)]
  simp only [uuidBytes, List.flatMap_cons, byteHex, List.cons_append, List.nil_append, List.take_succ_cons,
    List.take_zero, List.foldl_cons, List.foldl_nil, hlow, hvalue _ (hmod _)]
  unfold maxUuidV7Timestamp at h
  omega

/-! ## The order of ids -/

/-- What an id has for the byte at a place: its digits, behind the hyphen if a group starts there. -/
def uuidPiece (e : ℕ × ℕ) : JsString :=
  (if e.2 = 4 ∨ e.2 = 6 ∨ e.2 = 8 ∨ e.2 = 10 then [45] else []) ++ byteHex e.1

theorem uuidText_eq_flatMap {bytes : List ℕ} (h : bytes.length = 16) :
    uuidText bytes = bytes.zipIdx.flatMap uuidPiece := by
  match bytes, h with
  | [_, _, _, _, _, _, _, _, _, _, _, _, _, _, _, _], _ => rfl

theorem hexDigit_lt {m n : ℕ} (h : m < n) (hn : n < 16) : hexDigit m < hexDigit n := by
  have hto : ∀ k, k < 16 → (hexDigit k).toNat = if k < 10 then 48 + k else 87 + k := by
    intro k hk
    rw [hexDigit, UInt16.toNat_ofNat']
    split <;> omega
  rw [UInt16.lt_iff_toNat_lt, hto m (by omega), hto n hn]
  split_ifs <;> omega

/-- A smaller byte makes a smaller text, whatever follows. -/
theorem byteHex_append_lt {a b : ℕ} (h : a < b) (hb : b < 256) (s t : JsString) : byteHex a ++ s < byteHex b ++ t := by
  have hhigh : a / 16 ≤ b / 16 := Nat.div_le_div_right h.le
  simp only [byteHex, List.cons_append, List.nil_append, List.cons_lt_cons_iff]
  rcases hhigh.lt_or_eq with hlt | heq
  · exact .inl (hexDigit_lt hlt (by omega))
  · refine .inr ⟨by rw [heq], .inl (hexDigit_lt ?_ (Nat.mod_lt _ (by omega)))⟩
    omega

/-- The order of bytes is that of the texts. -/
theorem flatMap_uuidPiece_lt {as bs : List ℕ} (hlen : as.length = bs.length) (hbs : ∀ b ∈ bs, b < 256) (h : as < bs)
    (i : ℕ) : (as.zipIdx i).flatMap uuidPiece < (bs.zipIdx i).flatMap uuidPiece := by
  induction as generalizing bs i with
  | nil =>
    rw [List.length_eq_zero_iff.mp hlen.symm] at h
    exact absurd h (List.lt_irrefl _)
  | cons a as ih =>
    cases bs with
    | nil => cases hlen
    | cons b bs =>
      rw [List.forall_mem_cons] at hbs
      rw [List.zipIdx_cons, List.zipIdx_cons, List.flatMap_cons, List.flatMap_cons, uuidPiece, uuidPiece,
        List.append_assoc, List.append_assoc]
      refine List.append_left_lt ?_
      rcases List.cons_lt_cons_iff.mp h with hlt | ⟨rfl, hlt⟩
      · exact byteHex_append_lt hlt hbs.1 _ _
      · exact List.append_left_lt (ih (by simpa using hlen) hbs.2 hlt (i + 1))

theorem cons_lt_cons_of_le {a b : ℕ} {as bs : List ℕ} (hle : a ≤ b) (h : a = b → as < bs) : a :: as < b :: bs := by
  rw [List.cons_lt_cons_iff]
  rcases hle.lt_or_eq with hlt | heq
  · exact .inl hlt
  · exact .inr ⟨heq, h heq⟩

/-- A later sequence, at a timestamp that is not earlier, gives greater bytes. -/
theorem uuidBytes_lt_uuidBytes {timestamp timestamp' sequence sequence' : ℕ} {random random' : RandomBytes}
    (ht : timestamp ≤ timestamp') (ht' : timestamp' ≤ maxUuidV7Timestamp) (hs : sequence < sequence')
    (hs' : sequence' ≤ maxSequence) :
    uuidBytes timestamp sequence random < uuidBytes timestamp' sequence' random' := by
  unfold maxUuidV7Timestamp at ht'
  unfold maxSequence at hs'
  unfold uuidBytes
  refine cons_lt_cons_of_le (by omega) fun h0 => ?_
  refine cons_lt_cons_of_le (by omega) fun h1 => ?_
  refine cons_lt_cons_of_le (by omega) fun h2 => ?_
  refine cons_lt_cons_of_le (by omega) fun h3 => ?_
  refine cons_lt_cons_of_le (by omega) fun h4 => ?_
  refine cons_lt_cons_of_le (by omega) fun h5 => ?_
  clear h0 h1 h2 h3 h4 h5 ht ht'
  refine cons_lt_cons_of_le (by omega) fun h6 => ?_
  refine cons_lt_cons_of_le (by omega) fun h7 => ?_
  refine cons_lt_cons_of_le (by omega) fun h8 => ?_
  refine cons_lt_cons_of_le (by omega) fun h9 => ?_
  refine cons_lt_cons_of_le (by omega) fun h10 => ?_
  exact List.cons_lt_cons_iff.mpr (.inl (by omega))

theorem uuidText_lt {timestamp timestamp' sequence sequence' : ℕ} {random random' : RandomBytes}
    (ht : timestamp ≤ timestamp') (ht' : timestamp' ≤ maxUuidV7Timestamp) (hs : sequence < sequence')
    (hs' : sequence' ≤ maxSequence) :
    uuidText (uuidBytes timestamp sequence random) < uuidText (uuidBytes timestamp' sequence' random') := by
  have hlen : ∀ t s r, (uuidBytes t s r).length = 16 := fun t s r => rfl
  rw [uuidText_eq_flatMap (hlen timestamp sequence random), uuidText_eq_flatMap (hlen timestamp' sequence' random')]
  refine flatMap_uuidPiece_lt ?_ (uuidBytes_lt _ _ _) (uuidBytes_lt_uuidBytes ht ht' hs hs') 0
  rfl

/-! ## One call -/

/-- The clock of the generator and its sequence are in range. -/
structure UuidGenerator.Valid (g : UuidGenerator) : Prop where
  timestamp_le : g.lastOrdinaryTimestamp ≤ maxUuidV7Timestamp
  sequence_le : ∀ s ∈ g.sequence, s ≤ maxSequence

theorem UuidGenerator.valid_initial : UuidGenerator.initial.Valid := ⟨by decide, nofun⟩

/-- What an id says of the sequence before it and of the generator after it. -/
structure Issued (sequenceBefore : Option ℕ) (random : RandomBytes) (after : UuidGenerator) (id : JsString)
    (timestamp sequence : ℕ) : Prop where
  text : id = uuidText (uuidBytes timestamp sequence random)
  timestamp_le : timestamp ≤ maxUuidV7Timestamp
  sequence_le : sequence ≤ maxSequence
  sequence_after : after.sequence = some sequence
  sequence_before : ∀ s ∈ sequenceBefore, sequence = s + 1

theorem nextSequence_eq_ok {sequence : Option ℕ} {random : RandomBytes} {next : ℕ}
    (h : nextSequence sequence random = .ok next) : ∀ s ∈ sequence, next = s + 1 := by
  rintro s ⟨⟩
  unfold nextSequence at h
  dsimp only at h
  split_ifs at h
  exact (Except.ok.inj h).symm

theorem nextSequence_eq_error {sequence : Option ℕ} {random : RandomBytes} {e : UuidError}
    (h : nextSequence sequence random = .error e) : e = .exhausted ∧ sequence = some maxSequence := by
  unfold nextSequence at h
  split at h
  · cases h
  · next s =>
    split_ifs at h with hmax
    exact ⟨(Except.error.inj h).symm, by rw [hmax]⟩

/-- The second half of a call at a valid timestamp: it issues an id, or the sequence is exhausted. -/
theorem UuidGenerator.issue_spec {g : UuidGenerator} (hg : g.Valid) {timestamp : ℕ}
    (ht : timestamp ≤ maxUuidV7Timestamp) (random : RandomBytes) :
    (g.sequence = some maxSequence ∧ g.issue timestamp random = (g, .error .exhausted)) ∨
      ∃ id sequence, g.issue timestamp random = ({ g with sequence := some sequence }, .ok id) ∧
        Issued g.sequence random { g with sequence := some sequence } id timestamp sequence := by
  unfold UuidGenerator.issue
  cases hnext : nextSequence g.sequence random with
  | error e =>
    obtain ⟨rfl, hmax⟩ := nextSequence_eq_error hnext
    exact .inl ⟨hmax, rfl⟩
  | ok next =>
    refine .inr ⟨_, next, rfl, ?_⟩
    exact ⟨by rw [Int.toNat_natCast], ht, nextSequence_le hg.sequence_le hnext, rfl, nextSequence_eq_ok hnext⟩

/-- What a call does: it issues nothing, or it issues an id of its timestamp. The clock of the generator never goes
back, and it is at the timestamp of every ordinary id. -/
inductive CallOutcome (g : UuidGenerator) (c : UuidCall) : UuidGenerator × Except UuidError JsString → Prop
  | invalid : CallOutcome g c (g, .error .timestamp)
  | exhausted (last : ℤ) (hlast : g.lastOrdinaryTimestamp ≤ last) (hle : last ≤ maxUuidV7Timestamp)
    (hmax : g.sequence = some maxSequence) :
    CallOutcome g c (⟨last, g.sequence⟩, .error .exhausted)
  | ordinary (timestamp sequence : ℕ) (id : JsString) (hc : c.timestampMs = none)
    (hlast : g.lastOrdinaryTimestamp ≤ timestamp)
    (h : Issued g.sequence c.random ⟨timestamp, some sequence⟩ id timestamp sequence) :
    CallOutcome g c (⟨timestamp, some sequence⟩, .ok id)
  | supplied (timestamp sequence : ℕ) (id : JsString) (hc : c.timestampMs = some (some (timestamp : ℤ)))
    (h : Issued g.sequence c.random ⟨g.lastOrdinaryTimestamp, some sequence⟩ id timestamp sequence) :
    CallOutcome g c (⟨g.lastOrdinaryTimestamp, some sequence⟩, .ok id)

theorem UuidGenerator.Valid.outcome {g : UuidGenerator} (hg : g.Valid) (c : UuidCall) : CallOutcome g c (g.call c) := by
  unfold UuidGenerator.call
  cases hrequested : c.requestedTimestamp with
  | none => exact .invalid
  | some requested =>
    dsimp only
    split_ifs with hrange hordinary
    · exact .invalid
    · -- an ordinary call, at the clock or at the last ordinary timestamp
      push Not at hrange
      have hmax : max requested g.lastOrdinaryTimestamp ≤ maxUuidV7Timestamp := max_le hrange.2 hg.timestamp_le
      obtain ⟨timestamp, htimestamp⟩ := Int.eq_ofNat_of_zero_le (hrange.1.trans (le_max_left _ g.lastOrdinaryTimestamp))
      have hlast : g.lastOrdinaryTimestamp ≤ timestamp := htimestamp ▸ le_max_right _ _
      rw [htimestamp] at hmax ⊢
      have hg' : ({ g with lastOrdinaryTimestamp := timestamp } : UuidGenerator).Valid := ⟨hmax, hg.sequence_le⟩
      have hissue := UuidGenerator.issue_spec hg' (by exact_mod_cast hmax) c.random
      rcases hissue with ⟨hexhausted, heq⟩ | ⟨id, sequence, heq, h⟩
      · rw [heq]
        exact .exhausted _ hlast hmax hexhausted
      · rw [heq]
        exact .ordinary _ _ _ (Option.isNone_iff_eq_none.mp hordinary) hlast h
    · -- a supplied timestamp
      push Not at hrange
      obtain ⟨timestamp, rfl⟩ := Int.eq_ofNat_of_zero_le hrange.1
      have hsupplied : c.timestampMs = some (some (timestamp : ℤ)) := by
        cases htimestamp : c.timestampMs with
        | none => simp [htimestamp] at hordinary
        | some t =>
          rw [UuidCall.requestedTimestamp, htimestamp] at hrequested
          rw [← hrequested]
          rfl
      have hissue := UuidGenerator.issue_spec hg (by exact_mod_cast hrange.2) c.random
      rcases hissue with ⟨hexhausted, heq⟩ | ⟨id, sequence, heq, h⟩
      · rw [heq]
        exact .exhausted _ le_rfl hg.timestamp_le hexhausted
      · rw [heq]
        exact .supplied _ _ _ hsupplied h

/-- The id of a call that returned one. -/
theorem CallOutcome.issued {g : UuidGenerator} {c : UuidCall} {r : UuidGenerator × Except UuidError JsString}
    (h : CallOutcome g c r) {id : JsString} (hid : r.2 = .ok id) :
    ∃ timestamp sequence, Issued g.sequence c.random r.1 id timestamp sequence ∧
      (c.timestampMs = none → g.lastOrdinaryTimestamp ≤ timestamp ∧ r.1.lastOrdinaryTimestamp = timestamp) ∧
      ∀ t, c.timestampMs = some t → t = some (timestamp : ℤ) := by
  cases h with
  | invalid => cases hid
  | exhausted => cases hid
  | ordinary timestamp sequence id' hc hlast h =>
    cases hid
    refine ⟨timestamp, sequence, h, fun _ => ⟨hlast, rfl⟩, fun t ht => ?_⟩
    rw [hc] at ht
    cases ht
  | supplied timestamp sequence id' hc h =>
    cases hid
    refine ⟨timestamp, sequence, h, fun hnone => ?_, fun t ht => ?_⟩
    · rw [hnone] at hc
      cases hc
    · rw [hc] at ht
      exact (Option.some.inj ht).symm

/-- The greatest sequence does not wrap: no id follows it. -/
theorem Issued.not_max {sequenceBefore : Option ℕ} {random : RandomBytes} {after : UuidGenerator} {id : JsString}
    {timestamp sequence : ℕ} (h : Issued sequenceBefore random after id timestamp sequence) :
    sequenceBefore ≠ some maxSequence := by
  intro hmax
  have hsucc := h.sequence_before maxSequence hmax
  have hle := h.sequence_le
  omega

theorem CallOutcome.of_exhausted {g : UuidGenerator} {c : UuidCall} {r : UuidGenerator × Except UuidError JsString}
    (h : CallOutcome g c r) (hmax : g.sequence = some maxSequence) :
    ∃ e, r.2 = .error e ∧ r.1.sequence = some maxSequence := by
  cases h with
  | invalid => exact ⟨_, rfl, hmax⟩
  | exhausted => exact ⟨_, rfl, hmax⟩
  | ordinary timestamp sequence id hc hlast h => exact absurd hmax h.not_max
  | supplied timestamp sequence id hc h => exact absurd hmax h.not_max

/-- A call keeps the generator in range, and neither its clock nor its sequence goes back. -/
theorem UuidGenerator.Valid.call {g : UuidGenerator} (hg : g.Valid) (c : UuidCall) :
    (g.call c).1.Valid ∧ g.lastOrdinaryTimestamp ≤ (g.call c).1.lastOrdinaryTimestamp ∧
      ∀ s ∈ g.sequence, ∃ s' ∈ (g.call c).1.sequence, s ≤ s' := by
  have houtcome := hg.outcome c
  generalize g.call c = r at houtcome
  have hsame : ∀ s ∈ g.sequence, ∃ s' ∈ g.sequence, s ≤ s' := fun s hs => ⟨s, hs, le_rfl⟩
  cases houtcome with
  | invalid => exact ⟨hg, le_rfl, hsame⟩
  | exhausted last hlast hle hmax => exact ⟨⟨hle, hg.sequence_le⟩, hlast, hsame⟩
  | ordinary timestamp sequence id hc hlast h =>
    refine ⟨⟨Int.ofNat_le.mpr h.timestamp_le, ?_⟩, hlast, fun s hs => ⟨sequence, rfl, ?_⟩⟩
    · rintro s ⟨⟩
      exact h.sequence_le
    · rw [h.sequence_before s hs]
      exact Nat.le_succ s
  | supplied timestamp sequence id hc h =>
    refine ⟨⟨hg.timestamp_le, ?_⟩, le_rfl, fun s hs => ⟨sequence, rfl, ?_⟩⟩
    · rintro s ⟨⟩
      exact h.sequence_le
    · rw [h.sequence_before s hs]
      exact Nat.le_succ s

/-! ## Runs -/

/-- An id issued later than the generator `g`: its sequence is greater, and if it is an ordinary one then its timestamp
is not smaller. -/
def After (g : UuidGenerator) (step : UuidStep) : Prop :=
  ∀ id, step.result = .ok id → ∃ timestamp sequence,
    id = uuidText (uuidBytes timestamp sequence step.call.random) ∧ timestamp ≤ maxUuidV7Timestamp ∧
      sequence ≤ maxSequence ∧ (∀ s ∈ g.sequence, s < sequence) ∧
      (step.call.timestampMs = none → g.lastOrdinaryTimestamp ≤ timestamp)

theorem After.mono {g g' : UuidGenerator} {step : UuidStep} (h : After g' step)
    (hlast : g.lastOrdinaryTimestamp ≤ g'.lastOrdinaryTimestamp)
    (hsequence : ∀ s ∈ g.sequence, ∃ s' ∈ g'.sequence, s ≤ s') : After g step := by
  intro id hid
  obtain ⟨timestamp, sequence, htext, htimestamp, hmax, hlater, hordinary⟩ := h id hid
  refine ⟨timestamp, sequence, htext, htimestamp, hmax, fun s hs => ?_, fun hc => hlast.trans (hordinary hc)⟩
  obtain ⟨s', hs', hle⟩ := hsequence s hs
  exact hle.trans_lt (hlater s' hs')

theorem after_call {g : UuidGenerator} (hg : g.Valid) (c : UuidCall) :
    After g ⟨g, c, (g.call c).1, (g.call c).2⟩ := by
  intro id hid
  obtain ⟨timestamp, sequence, h, hordinary, -⟩ := (hg.outcome c).issued hid
  refine ⟨timestamp, sequence, h.text, h.timestamp_le, h.sequence_le, fun s hs => ?_, fun hc => (hordinary hc).1⟩
  rw [h.sequence_before s hs]
  exact Nat.lt_succ_self s

theorem after_run {g : UuidGenerator} (hg : g.Valid) (calls : List UuidCall) :
    ∀ step ∈ g.run calls, After g step := by
  induction calls generalizing g with
  | nil => exact fun step hstep => absurd hstep List.not_mem_nil
  | cons c calls ih =>
    obtain ⟨hg', hlast, hsequence⟩ := hg.call c
    rw [UuidGenerator.run, List.forall_mem_cons]
    exact ⟨after_call hg c, fun step hstep => (ih hg' step hstep).mono hlast hsequence⟩

/-- Every step of a run is a call of a generator in range. -/
theorem UuidGenerator.Valid.step {g : UuidGenerator} (hg : g.Valid) {calls : List UuidCall} {step : UuidStep}
    (h : step ∈ g.run calls) : step.before.Valid ∧ (step.after, step.result) = step.before.call step.call := by
  induction calls generalizing g with
  | nil => exact absurd h List.not_mem_nil
  | cons c calls ih =>
    rcases List.mem_cons.mp h with rfl | h
    · exact ⟨hg, rfl⟩
    · exact ih (hg.call c).1 h

/-- What the ids of a run promise. -/
structure UuidGuarantees (steps : List UuidStep) : Prop where
  distinct : steps.Pairwise fun a b => ∀ id id', a.result = .ok id → b.result = .ok id' → id ≠ id'
  increasing : steps.Pairwise fun a b => a.call.timestampMs = none → b.call.timestampMs = none →
    ∀ id id', a.result = .ok id → b.result = .ok id' → id < id'
  version : ∀ step ∈ steps, ∀ id, step.result = .ok id → IsUuidV7 id
  timestamp : ∀ step ∈ steps, ∀ id timestamp, step.result = .ok id → step.call.timestampMs = some timestamp →
    timestamp = some (uuidTimestamp id : ℤ)
  /-- The sequence grows by one, and at its greatest value every call fails. -/
  sequence : ∀ step ∈ steps, ∀ id, step.result = .ok id → ∃ sequence ∈ step.after.sequence, sequence ≤ maxSequence ∧
    ∀ s ∈ step.before.sequence, s < maxSequence ∧ sequence = s + 1
  exhausted : ∀ step ∈ steps, step.before.sequence = some maxSequence →
    ∃ e, step.result = .error e ∧ step.after.sequence = some maxSequence

theorem pairwise_run {g : UuidGenerator} (hg : g.Valid) (calls : List UuidCall) :
    (g.run calls).Pairwise fun a b => After a.after b := by
  induction calls generalizing g with
  | nil => exact .nil
  | cons c calls ih =>
    have hg' := (hg.call c).1
    rw [UuidGenerator.run, List.pairwise_cons]
    exact ⟨after_run hg' calls, ih hg'⟩

/-- Ids are distinct and well formed, ordinary ones grow as strings, a supplied timestamp can be read from its id, and
the sequence never wraps: over every sequence of calls, at any clock and with any random bytes. -/
theorem uuidv7_guarantees (calls : List UuidCall) : UuidGuarantees (UuidGenerator.initial.run calls) := by
  have hvalid := UuidGenerator.valid_initial
  have hsteps : ∀ step ∈ UuidGenerator.initial.run calls, step.before.Valid ∧
      CallOutcome step.before step.call (step.after, step.result) := by
    intro step hstep
    obtain ⟨hbefore, heq⟩ := hvalid.step hstep
    exact ⟨hbefore, heq ▸ hbefore.outcome step.call⟩
  have hpairs := (pairwise_run hvalid calls).imp_of_mem fun {a b} ha _ (hab : After a.after b) =>
    (⟨(hsteps a ha).2, hab⟩ : CallOutcome a.before a.call (a.after, a.result) ∧ After a.after b)
  constructor
  case distinct =>
    refine hpairs.imp fun {a b} hab id id' hid hid' heq => ?_
    obtain ⟨t, s, h, -, -⟩ := hab.1.issued hid
    obtain ⟨t', s', htext, -, hs', hlater, -⟩ := hab.2 id' hid'
    have hlt := hlater s h.sequence_after
    rw [h.text, htext] at heq
    exact hlt.ne (uuidText_inj h.sequence_le hs' heq)
  case increasing =>
    refine hpairs.imp fun {a b} hab ha hb id id' hid hid' => ?_
    obtain ⟨t, s, h, hordinary, -⟩ := hab.1.issued hid
    obtain ⟨t', s', htext, ht', hs', hlater, hlast⟩ := hab.2 id' hid'
    have hle : (t : ℤ) ≤ t' := by
      rw [← (hordinary ha).2]
      exact hlast hb
    rw [h.text, htext]
    exact uuidText_lt (Int.ofNat_le.mp hle) ht' (hlater s h.sequence_after) hs'
  case version =>
    intro step hstep id hid
    obtain ⟨t, s, h, -, -⟩ := (hsteps step hstep).2.issued hid
    rw [h.text]
    exact isUuidV7_uuidText t s _
  case timestamp =>
    intro step hstep id timestamp hid hsupplied
    obtain ⟨t, s, h, -, heq⟩ := (hsteps step hstep).2.issued hid
    rw [heq timestamp hsupplied, h.text, uuidTimestamp_uuidText h.timestamp_le]
  case sequence =>
    intro step hstep id hid
    obtain ⟨t, s, h, -, -⟩ := (hsteps step hstep).2.issued hid
    refine ⟨s, h.sequence_after, h.sequence_le, fun s₀ hs₀ => ?_⟩
    have hsucc := h.sequence_before s₀ hs₀
    have hle := h.sequence_le
    exact ⟨by omega, hsucc⟩
  case exhausted =>
    intro step hstep hmax
    exact (hsteps step hstep).2.of_exhausted hmax

end Phi.Ai
