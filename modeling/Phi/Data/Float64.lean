import Mathlib

/-!
# IEEE 754 binary64 numbers

A JavaScript number is a binary64 datum. `Float64` keeps the three fields of the interchange format,
so that equality is equality of bits: `0` and `-0` are two values, and so are two distinct NaNs.
`toInt?` reads the integer a datum denotes, `ofInt` builds the datum of an integer below `2 ^ 53`,
and `toBytesBE`/`ofBytesBE` are the big-endian interchange encoding that `DataView` reads and writes.

Nothing here rounds. The integers that programs exchange as numbers are the safe ones, and on these
`ofInt` inverts `toInt?` up to the sign of zero (`ofInt_of_toInt?`).
-/

namespace Phi

/-! ## Big-endian byte strings -/

/-- The `k` low-order bytes of `n`, most significant first. -/
def natToBytesBE : ℕ → ℕ → List UInt8
  | 0, _ => []
  | k + 1, n => UInt8.ofNat (n / 256 ^ k) :: natToBytesBE k n

/-- The natural number a big-endian byte string denotes. -/
def natOfBytesBE (bytes : List UInt8) : ℕ := bytes.foldl (fun n b => n * 256 + b.toNat) 0

@[simp] theorem length_natToBytesBE (k n : ℕ) : (natToBytesBE k n).length = k := by
  induction k with
  | zero => rfl
  | succ k ih => simp [natToBytesBE, ih]

/-- Folding the bytes of `n` into an accumulator shifts the accumulator past them. -/
theorem foldl_natToBytesBE (k n acc : ℕ) :
    (natToBytesBE k n).foldl (fun n b => n * 256 + b.toNat) acc = acc * 256 ^ k + n % 256 ^ k := by
  induction k generalizing acc with
  | zero => simp [natToBytesBE, Nat.mod_one]
  | succ k ih =>
    have hsplit : n % 256 ^ (k + 1) = n / 256 ^ k % 256 * 256 ^ k + n % 256 ^ k := by
      rw [pow_succ, Nat.mod_mul, Nat.mul_comm (256 ^ k), Nat.add_comm]
    simp only [natToBytesBE, List.foldl_cons, ih, UInt8.toNat_ofNat']
    rw [hsplit, Nat.add_mul, Nat.mul_assoc, ← pow_succ', Nat.add_assoc]

/-- Reading back the low-order bytes of `n` gives `n` modulo their range. -/
theorem natOfBytesBE_natToBytesBE (k n : ℕ) : natOfBytesBE (natToBytesBE k n) = n % 256 ^ k := by
  simp [natOfBytesBE, foldl_natToBytesBE]

/-! ## The interchange format -/

/-- A binary64 datum: sign bit, biased exponent, trailing significand. -/
structure Float64 where
  sign : Bool
  exponent : Fin 2048
  fraction : Fin (2 ^ 52)
deriving DecidableEq, Repr

namespace Float64

/-- The all-ones exponent holds the infinities and the NaNs. -/
def isFinite (x : Float64) : Bool := x.exponent.val != 2047

/-- The number `-0`. -/
def negZero : Float64 := ⟨true, 0, 0⟩

/-- `Object.is(x, -0)`. -/
def isNegZero (x : Float64) : Bool := x.sign && x.exponent.val == 0 && x.fraction.val == 0

/-- The magnitude of `x`, where that is a natural number. -/
def natAbs? (x : Float64) : Option ℕ :=
  let e := x.exponent.val
  let f := x.fraction.val
  if e = 2047 then none
  else if e = 0 then if f = 0 then some 0 else none
  -- a normal number below 1 is a proper fraction
  else if e < 1023 then none
  else if e ≤ 1075 then
    if (2 ^ 52 + f) % 2 ^ (1075 - e) = 0 then some ((2 ^ 52 + f) / 2 ^ (1075 - e)) else none
  else some ((2 ^ 52 + f) * 2 ^ (e - 1075))

/-- The integer `x` denotes, if it denotes one; both zeros denote `0`. -/
def toInt? (x : Float64) : Option ℤ :=
  x.natAbs?.map fun (n : ℕ) => if x.sign then -(n : ℤ) else (n : ℤ)

/-- `Number.isInteger`. -/
def isInteger (x : Float64) : Bool := x.natAbs?.isSome

/-- `Number.isSafeInteger`. -/
def isSafeInteger (x : Float64) : Bool :=
  match x.natAbs? with
  | some n => decide (n ≤ 2 ^ 53 - 1)
  | none => false

/-- The datum of an integer whose magnitude is below `2 ^ 53`; `0` is positive zero. -/
def ofInt (n : ℤ) : Float64 :=
  if n = 0 then ⟨false, 0, 0⟩
  else
    let l := Nat.log 2 n.natAbs
    ⟨decide (n < 0), Fin.ofNat 2048 (1023 + l),
      Fin.ofNat (2 ^ 52) (n.natAbs * 2 ^ (52 - l) - 2 ^ 52)⟩

/-- The bit pattern as a natural number. -/
def toBits (x : Float64) : ℕ :=
  (if x.sign then 1 else 0) * 2 ^ 63 + x.exponent.val * 2 ^ 52 + x.fraction.val

/-- The datum of a bit pattern, read modulo `2 ^ 64`. -/
def ofBits (n : ℕ) : Float64 :=
  ⟨decide (n / 2 ^ 63 % 2 = 1), Fin.ofNat 2048 (n / 2 ^ 52), Fin.ofNat (2 ^ 52) n⟩

/-- `DataView.setFloat64(offset, x, false)`: the eight bytes of `x`, big-endian. -/
def toBytesBE (x : Float64) : List UInt8 := natToBytesBE 8 x.toBits

/-- `DataView.getFloat64(offset, false)`. -/
def ofBytesBE (bytes : List UInt8) : Float64 := ofBits (natOfBytesBE bytes)

theorem ofBits_toBits (x : Float64) : ofBits x.toBits = x := by
  obtain ⟨s, e, f⟩ := x
  have he := e.isLt
  have hf := f.isLt
  simp only [ofBits, toBits, Float64.mk.injEq, Fin.ext_iff, Fin.val_ofNat]
  cases s
  · simp only [Bool.false_eq_true, if_false, decide_eq_false_iff_not]
    omega
  · simp only [if_true, decide_eq_true_eq]
    omega

theorem toBits_lt (x : Float64) : x.toBits < 256 ^ 8 := by
  have he := x.exponent.isLt
  have hf := x.fraction.isLt
  simp only [toBits]
  split <;> omega

/-- Float64 bits are read back as written. -/
@[simp] theorem ofBytesBE_toBytesBE (x : Float64) : ofBytesBE x.toBytesBE = x := by
  rw [ofBytesBE, toBytesBE, natOfBytesBE_natToBytesBE, Nat.mod_eq_of_lt x.toBits_lt, ofBits_toBits]

@[simp] theorem length_toBytesBE (x : Float64) : x.toBytesBE.length = 8 := length_natToBytesBE 8 _

/-! ## Integers -/

/-- A normal datum with an integral magnitude below `2 ^ 53`: its exponent is the magnitude's binary
logarithm and its significand is the magnitude shifted to 53 bits. -/
theorem natAbs?_normal {x : Float64} {n : ℕ} (hx : x.natAbs? = some n) (hn : n ≠ 0)
    (hlt : n < 2 ^ 53) :
    x.exponent.val = 1023 + Nat.log 2 n ∧ x.fraction.val = n * 2 ^ (52 - Nat.log 2 n) - 2 ^ 52 := by
  have hf := x.fraction.isLt
  simp only [natAbs?] at hx
  split_ifs at hx with h1 h2 h3 h4 h5 h6
  · exact absurd (Option.some.inj hx).symm hn
  · -- the significand divides out to the magnitude
    obtain ⟨l, hl⟩ : ∃ l, x.exponent.val = 1023 + l := ⟨x.exponent.val - 1023, by omega⟩
    have hl52 : l ≤ 52 := by omega
    have hd : 1075 - x.exponent.val = 52 - l := by omega
    rw [hd] at hx h6
    have hnd : n * 2 ^ (52 - l) = 2 ^ 52 + x.fraction.val := by
      rw [← Option.some.inj hx]
      exact Nat.div_mul_cancel (Nat.dvd_of_mod_eq_zero h6)
    have hpow : 2 ^ l * 2 ^ (52 - l) = 2 ^ 52 := by rw [← pow_add]; congr 1; omega
    have hdpos : 0 < 2 ^ (52 - l) := by positivity
    have hlog : Nat.log 2 n = l := by
      refine Nat.log_eq_of_pow_le_of_lt_pow ?_ ?_
      · refine Nat.le_of_mul_le_mul_right ?_ hdpos
        rw [hpow, hnd]
        omega
      · refine Nat.lt_of_mul_lt_mul_right (a := 2 ^ (52 - l)) ?_
        rw [pow_succ, Nat.mul_right_comm, hpow, hnd]
        omega
    rw [hlog, hnd]
    omega
  · -- a larger exponent denotes at least `2 ^ 53`
    have hge : 2 ^ 52 * 2 ^ 1 ≤ (2 ^ 52 + x.fraction.val) * 2 ^ (x.exponent.val - 1075) :=
      Nat.mul_le_mul (by omega) (Nat.pow_le_pow_right (by omega) (by omega))
    rw [Option.some.inj hx] at hge
    omega

/-- Only the zeros denote magnitude zero. -/
theorem natAbs?_zero {x : Float64} (hx : x.natAbs? = some 0) :
    x.exponent.val = 0 ∧ x.fraction.val = 0 := by
  simp only [natAbs?] at hx
  split_ifs at hx with h1 h2 h3 h4 h5 h6
  · exact ⟨h2, h3⟩
  · have hmul := Nat.div_mul_cancel (Nat.dvd_of_mod_eq_zero h6)
    rw [Option.some.inj hx] at hmul
    omega
  · have hpos : 0 < (2 ^ 52 + x.fraction.val) * 2 ^ (x.exponent.val - 1075) := by positivity
    rw [Option.some.inj hx] at hpos
    omega

/-- The magnitude of a safe integer. -/
theorem natAbs_lt_of_isSafeInteger {x : Float64} {n : ℤ} (hx : x.toInt? = some n)
    (hs : x.isSafeInteger = true) : n.natAbs < 2 ^ 53 := by
  obtain ⟨m, hm, hmn⟩ := Option.map_eq_some_iff.mp hx
  have habs : n.natAbs = m := by rw [← hmn]; split <;> simp
  simp only [isSafeInteger, hm, decide_eq_true_eq] at hs
  omega

/-- On safe integers other than `-0`, `ofInt` inverts `toInt?`. -/
theorem ofInt_of_toInt? {x : Float64} {n : ℤ} (hx : x.toInt? = some n) (hz : x.isNegZero = false)
    (hn : n.natAbs < 2 ^ 53) : ofInt n = x := by
  obtain ⟨m, hm, hmn⟩ := Option.map_eq_some_iff.mp hx
  have habs : n.natAbs = m := by rw [← hmn]; split <;> simp
  by_cases h0 : m = 0
  · subst h0
    obtain ⟨he, hf⟩ := natAbs?_zero hm
    have hs : x.sign = false := by
      simp only [isNegZero, he, hf, beq_self_eq_true, Bool.and_true] at hz
      exact hz
    have hn0 : n = 0 := by omega
    obtain ⟨s, e, f⟩ := x
    simp only [ofInt, hn0, if_true, Float64.mk.injEq, Fin.ext_iff]
    exact ⟨hs.symm, he.symm, hf.symm⟩
  · obtain ⟨he, hf⟩ := natAbs?_normal hm h0 (habs ▸ hn)
    have hn0 : n ≠ 0 := fun h => h0 (by rw [← habs, h]; rfl)
    have hsign : decide (n < 0) = x.sign := by
      rw [← hmn]
      cases x.sign
      · simp
      · simp only [if_true, decide_eq_true_eq]
        omega
    obtain ⟨s, e, f⟩ := x
    simp only at he hf hsign
    simp only [ofInt, hn0, if_false, habs, Float64.mk.injEq, Fin.ext_iff, Fin.val_ofNat]
    refine ⟨hsign, ?_, ?_⟩
    · rw [← he]; exact Nat.mod_eq_of_lt e.isLt
    · rw [← hf]; exact Nat.mod_eq_of_lt f.isLt

/-- The fields of a nonzero integer's datum. -/
theorem ofInt_fields {n : ℤ} (h0 : n ≠ 0) (hn : n.natAbs < 2 ^ 53) :
    Nat.log 2 n.natAbs ≤ 52 ∧ (ofInt n).exponent.val = 1023 + Nat.log 2 n.natAbs ∧
      2 ^ 52 + (ofInt n).fraction.val = n.natAbs * 2 ^ (52 - Nat.log 2 n.natAbs) := by
  have habs : n.natAbs ≠ 0 := Int.natAbs_ne_zero.mpr h0
  have hlog : Nat.log 2 n.natAbs < 53 := Nat.log_lt_of_lt_pow habs hn
  have hpow : 2 ^ Nat.log 2 n.natAbs * 2 ^ (52 - Nat.log 2 n.natAbs) = 2 ^ 52 := by
    rw [← pow_add]
    congr 1
    omega
  have hpos : 0 < 2 ^ (52 - Nat.log 2 n.natAbs) := by positivity
  have hle : 2 ^ 52 ≤ n.natAbs * 2 ^ (52 - Nat.log 2 n.natAbs) := by
    rw [← hpow]
    exact Nat.mul_le_mul_right _ (Nat.pow_log_le_self 2 habs)
  have hlt : n.natAbs * 2 ^ (52 - Nat.log 2 n.natAbs) < 2 ^ 53 := by
    calc n.natAbs * 2 ^ (52 - Nat.log 2 n.natAbs)
        < 2 ^ (Nat.log 2 n.natAbs + 1) * 2 ^ (52 - Nat.log 2 n.natAbs) :=
          Nat.mul_lt_mul_of_pos_right (Nat.lt_pow_succ_log_self (by omega) _) hpos
      _ = 2 ^ 53 := by rw [pow_succ, Nat.mul_right_comm, hpow]; norm_num
  simp only [ofInt, if_neg h0, Fin.val_ofNat]
  refine ⟨by omega, Nat.mod_eq_of_lt (by omega), ?_⟩
  rw [Nat.mod_eq_of_lt (by omega)]
  omega

/-- The datum of an integer has its magnitude. -/
theorem natAbs?_ofInt {n : ℤ} (hn : n.natAbs < 2 ^ 53) : (ofInt n).natAbs? = some n.natAbs := by
  by_cases h0 : n = 0
  · rw [h0]
    rfl
  · obtain ⟨hlog, hexponent, hfraction⟩ := ofInt_fields h0 hn
    have hshift : 1075 - (1023 + Nat.log 2 n.natAbs) = 52 - Nat.log 2 n.natAbs := by omega
    simp only [natAbs?, hexponent, hfraction, hshift]
    rw [if_neg (by omega), if_neg (by omega), if_neg (by omega), if_pos (by omega),
      if_pos (Nat.mul_mod_left ..), Nat.mul_div_cancel _ (by positivity)]

theorem sign_ofInt (n : ℤ) : (ofInt n).sign = decide (n < 0) := by
  simp only [ofInt]
  split_ifs with h0
  · simp [h0]
  · rfl

/-- `toInt?` inverts `ofInt` on safe integers. -/
theorem toInt?_ofInt {n : ℤ} (hn : n.natAbs < 2 ^ 53) : (ofInt n).toInt? = some n := by
  rw [toInt?, natAbs?_ofInt hn, sign_ofInt, Option.map_some]
  congr 1
  split_ifs with h <;> simp only [decide_eq_true_eq] at h <;> omega

theorem isSafeInteger_ofInt {n : ℤ} (hn : n.natAbs < 2 ^ 53) : (ofInt n).isSafeInteger = true := by
  simp only [isSafeInteger, natAbs?_ofInt hn, decide_eq_true_eq]
  omega

theorem isFinite_of_natAbs? {x : Float64} {n : ℕ} (h : x.natAbs? = some n) : x.isFinite = true := by
  simp only [isFinite, bne_iff_ne, ne_eq]
  intro he
  simp [natAbs?, he] at h

/-- Zero is written as the positive one. -/
theorem isNegZero_ofInt {n : ℤ} (hn : n.natAbs < 2 ^ 53) : (ofInt n).isNegZero = false := by
  by_cases h0 : n = 0
  · rw [h0]
    rfl
  · have hexponent := (ofInt_fields h0 hn).2.1
    simp [isNegZero, hexponent]

end Float64

end Phi
