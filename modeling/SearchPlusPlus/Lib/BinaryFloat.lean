import Mathlib.Data.Nat.Log
import Mathlib.Algebra.Field.Rat
import Mathlib.Data.Int.Basic
import Mathlib.Tactic.Ring

/-!
# Binary floating-point formats

IEEE 754 binary interchange formats as bit patterns, with the few operations a program needs that
stores, compares and rescales floats: classification, exact comparison, and correctly rounded
(ties to even) multiplication, addition and conversion. A pattern is a natural number and a
format is its two field widths, so one definition serves `float` and `double`.

Every operation decodes its arguments to an exact `significand * 2 ^ exponent`, computes exactly,
and rounds once with `FloatFormat.round`.
-/

/-- A binary format: the stored bits of the significand and the bits of the exponent. -/
structure FloatFormat where
  mantBits : ℕ
  expBits : ℕ

/-- The exact meaning of a bit pattern. A finite value is `± sig * 2 ^ exp`. -/
inductive FloatValue where
  | nan
  | inf (neg : Bool)
  | finite (neg : Bool) (sig : ℕ) (exp : ℤ)
  deriving DecidableEq, Repr

namespace FloatFormat

variable (F : FloatFormat)

/-- The exponent of the last place of the smallest normal numbers and of all subnormal ones. -/
def minExp : ℤ := 2 - 2 ^ (F.expBits - 1) - F.mantBits

/-- The pattern of positive infinity: all exponent bits set. -/
def infBits : ℕ := (2 ^ F.expBits - 1) * 2 ^ F.mantBits

/-- The weight of the sign bit. -/
def signBit : ℕ := 2 ^ (F.mantBits + F.expBits)

/-- The value a bit pattern stands for. -/
def decode (bits : ℕ) : FloatValue :=
  let neg := decide (F.signBit ≤ bits)
  let mag := bits % F.signBit
  let e := mag / 2 ^ F.mantBits
  let m := mag % 2 ^ F.mantBits
  if F.infBits < mag then .nan
  else if mag = F.infBits then .inf neg
  else if e = 0 then .finite neg m F.minExp
  else .finite neg (2 ^ F.mantBits + m) (F.minExp + (e - 1))

/-- Drop the low `k` bits of a significand, rounding to nearest with ties to even. -/
def roundShift (sig k : ℕ) : ℕ :=
  let q := sig / 2 ^ k
  let r := sig % 2 ^ k
  if 2 * r < 2 ^ k then q
  else if 2 ^ k < 2 * r then q + 1
  else q + q % 2

/-- The pattern nearest to `± sig * 2 ^ exp`. The biased exponent is added to the significand, so
that a carry out of the rounding moves to the next exponent by itself. -/
def round (neg : Bool) (sig : ℕ) (exp : ℤ) : ℕ :=
  let q : ℤ := max (exp + (Nat.log2 sig + 1) - (F.mantBits + 1)) F.minExp
  let s := if q ≤ exp then sig * 2 ^ (exp - q).toNat else roundShift sig (q - exp).toNat
  let mag := if sig = 0 then 0 else (q - F.minExp).toNat * 2 ^ F.mantBits + s
  (if neg then F.signBit else 0) + min mag F.infBits

/-- A quiet NaN. -/
def nanBits : ℕ := F.infBits + 2 ^ (F.mantBits - 1)

/-- The pattern of a value, rounded. -/
def encode : FloatValue → ℕ
  | .nan => F.nanBits
  | .inf neg => (if neg then F.signBit else 0) + F.infBits
  | .finite neg sig exp => F.round neg sig exp

/-- Correctly rounded multiplication. -/
def mul (a b : ℕ) : ℕ :=
  match F.decode a, F.decode b with
  | .nan, _ | _, .nan => F.nanBits
  | .inf s, .inf t => F.encode (.inf (s != t))
  | .inf s, .finite t sig _ | .finite t sig _, .inf s =>
    if sig = 0 then F.nanBits else F.encode (.inf (s != t))
  | .finite s m e, .finite t n f => F.round (s != t) (m * n) (e + f)

/-- Correctly rounded addition. An exact zero sum is positive unless both terms are negative. -/
def add (a b : ℕ) : ℕ :=
  match F.decode a, F.decode b with
  | .nan, _ | _, .nan => F.nanBits
  | .inf s, .inf t => if s = t then F.encode (.inf s) else F.nanBits
  | .inf s, .finite .. | .finite .., .inf s => F.encode (.inf s)
  | .finite s m e, .finite t n f =>
    let lo := min e f
    let x : ℤ := (if s then -1 else 1) * (m * 2 ^ (e - lo).toNat)
    let y : ℤ := (if t then -1 else 1) * (n * 2 ^ (f - lo).toNat)
    let sum := x + y
    F.round (if sum = 0 then s && t else sum < 0) sum.natAbs lo

/-- The place of a non-NaN pattern in the numeric order; the two zeros share theirs. -/
def key (bits : ℕ) : ℤ :=
  if F.signBit ≤ bits then -(bits % F.signBit : ℕ) else bits

/-- `a < b` on values: false as soon as an operand is NaN. -/
def lt (a b : ℕ) : Bool :=
  F.decode a != .nan && F.decode b != .nan && F.key a < F.key b

/-- `a <= b` on values: false as soon as an operand is NaN. -/
def le (a b : ℕ) : Bool :=
  F.decode a != .nan && F.decode b != .nan && F.key a ≤ F.key b

/-- `a == b` on values: false as soon as an operand is NaN. -/
def eq (a b : ℕ) : Bool :=
  F.decode a != .nan && F.decode b != .nan && F.key a == F.key b

/-! ### Exact rounding -/

theorem log2_mul_pow {n : ℕ} (h : n ≠ 0) (k : ℕ) : Nat.log2 (n * 2 ^ k) = Nat.log2 n + k := by
  have hpos : n * 2 ^ k ≠ 0 := Nat.mul_ne_zero h (Nat.two_pow_pos k).ne'
  obtain ⟨hlo, hhi⟩ := (Nat.log2_eq_iff h).1 rfl
  rw [Nat.log2_eq_iff hpos, show n.log2 + k + 1 = n.log2 + 1 + k by omega, pow_add, pow_add]
  exact ⟨Nat.mul_le_mul_right _ hlo, Nat.mul_lt_mul_of_pos_right hhi (Nat.two_pow_pos k)⟩

theorem roundShift_mul_pow (sig j k : ℕ) :
    roundShift (sig * 2 ^ k) (j + k) = roundShift sig j := by
  have hk := Nat.two_pow_pos k
  have hlt : ∀ a b : ℕ, a * 2 ^ k < b * 2 ^ k ↔ a < b :=
    fun a b ↦ Nat.mul_lt_mul_right hk
  simp only [roundShift, pow_add, Nat.mul_div_mul_right _ _ hk, Nat.mul_mod_mul_right,
    ← mul_assoc, hlt]

/-- Nothing is lost when the dropped bits are zero. -/
theorem roundShift_pow (sig k : ℕ) : roundShift (sig * 2 ^ k) k = sig := by
  have h := roundShift_mul_pow sig 0 k
  rw [Nat.zero_add] at h
  rw [h]
  simp [roundShift, Nat.mod_one]

/-- **Rounding depends on the value only**, not on how it is split into significand and
exponent. -/
theorem round_mul_pow (neg : Bool) {sig : ℕ} (hsig : sig ≠ 0) (exp : ℤ) (k : ℕ) :
    F.round neg (sig * 2 ^ k) (exp - k) = F.round neg sig exp := by
  have hpos : sig * 2 ^ k ≠ 0 := Nat.mul_ne_zero hsig (Nat.two_pow_pos k).ne'
  have hq : exp - k + ((Nat.log2 (sig * 2 ^ k) : ℕ) + 1) - (F.mantBits + 1) =
      exp + (Nat.log2 sig + 1) - (F.mantBits + 1) := by
    rw [log2_mul_pow hsig]
    push_cast
    ring
  simp only [round, hq, if_neg hpos, if_neg hsig]
  generalize max (exp + (Nat.log2 sig + 1) - (F.mantBits + 1) : ℤ) F.minExp = q
  congr 3
  rcases le_or_gt q (exp - k) with h | h
  · rw [if_pos h, if_pos (by omega), mul_assoc, ← pow_add]
    congr 2
    omega
  · rw [if_neg (by omega)]
    rcases le_or_gt q exp with h' | h'
    · -- Only zero bits are dropped.
      obtain ⟨j, hj⟩ : ∃ j, k = j + (q - (exp - k)).toNat := ⟨k - (q - (exp - k)).toNat, by omega⟩
      rw [if_pos h']
      nth_rewrite 1 [hj]
      rw [pow_add, ← mul_assoc, roundShift_pow]
      congr 2
      omega
    · rw [if_neg (by omega), show (q - (exp - k)).toNat = (q - exp).toNat + k by omega,
        roundShift_mul_pow]

theorem infBits_lt_signBit : F.infBits < F.signBit := by
  rw [infBits, signBit, pow_add, mul_comm (2 ^ F.mantBits)]
  exact Nat.mul_lt_mul_of_pos_right (Nat.sub_lt (Nat.two_pow_pos _) one_pos) (Nat.two_pow_pos _)

theorem round_lt (neg : Bool) (sig : ℕ) (exp : ℤ) : F.round neg sig exp < 2 * F.signBit := by
  have hlt := F.infBits_lt_signBit
  have hsign : (if neg then F.signBit else 0) ≤ F.signBit := by
    cases neg <;> simp
  calc F.round neg sig exp ≤ F.signBit + F.infBits := Nat.add_le_add hsign (Nat.min_le_right ..)
    _ < 2 * F.signBit := by omega

/-- The sign and the magnitude of a pattern. -/
theorem sign_add_mag {bits : ℕ} (h : bits < 2 * F.signBit) :
    (if decide (F.signBit ≤ bits) then F.signBit else 0) + bits % F.signBit = bits := by
  by_cases hs : F.signBit ≤ bits
  · rw [if_pos (decide_eq_true hs), Nat.mod_eq_sub_mod hs, Nat.mod_eq_of_lt (by omega)]
    omega
  · rw [if_neg (by simpa using hs), Nat.mod_eq_of_lt (by omega), Nat.zero_add]

/-- **Rounding a finite pattern's own value gives the pattern.** -/
theorem round_of_decode {bits : ℕ} (h : bits < 2 * F.signBit) {neg : Bool} {sig : ℕ} {exp : ℤ}
    (hdec : F.decode bits = .finite neg sig exp) : F.round neg sig exp = bits := by
  have hbits := F.sign_add_mag h
  have hpow := Nat.two_pow_pos F.mantBits
  have hmag := Nat.div_add_mod (bits % F.signBit) (2 ^ F.mantBits)
  have hm := Nat.mod_lt (bits % F.signBit) hpow
  rw [decode] at hdec
  split_ifs at hdec with hnan hinf he
  · -- Subnormal: the exponent is the least one.
    obtain ⟨rfl, rfl, rfl⟩ := FloatValue.finite.inj hdec
    rw [he, Nat.mul_zero, Nat.zero_add] at hmag
    rw [hmag] at hm ⊢
    rw [round]
    by_cases hzero : bits % F.signBit = 0
    · rw [hzero] at hbits ⊢
      simpa using hbits
    · have hlog : Nat.log2 (bits % F.signBit) < F.mantBits := (Nat.log2_lt hzero).2 hm
      have hq : max (F.minExp + (Nat.log2 (bits % F.signBit) + 1) - (F.mantBits + 1) : ℤ)
          F.minExp = F.minExp := by omega
      simp only [hq, le_refl, if_true, if_neg hzero, sub_self, Int.toNat_zero, pow_zero, mul_one,
        zero_mul, Nat.zero_add]
      rw [Nat.min_eq_left (by omega), hbits]
  · -- Normal: the leading bit fixes the exponent.
    obtain ⟨rfl, rfl, rfl⟩ := FloatValue.finite.inj hdec
    generalize bits % F.signBit / 2 ^ F.mantBits = e at *
    generalize bits % F.signBit % 2 ^ F.mantBits = m at *
    have hsig : 2 ^ F.mantBits + m ≠ 0 := by omega
    have hlog : Nat.log2 (2 ^ F.mantBits + m) = F.mantBits := by
      rw [Nat.log2_eq_iff hsig, pow_succ]
      omega
    have hq : max (F.minExp + (e - 1) + (Nat.log2 (2 ^ F.mantBits + m) + 1) - (F.mantBits + 1) : ℤ)
        F.minExp = F.minExp + (e - 1) := by
      rw [hlog]
      omega
    have hexp : (F.minExp + ((e : ℤ) - 1) - F.minExp).toNat = e - 1 := by omega
    have hval : (e - 1) * 2 ^ F.mantBits + (2 ^ F.mantBits + m) = bits % F.signBit := by
      obtain ⟨e', rfl⟩ := Nat.exists_eq_succ_of_ne_zero he
      rw [← hmag, Nat.succ_sub_one, Nat.succ_eq_add_one]
      ring
    simp only [round, hq, le_refl, if_true, if_neg hsig, sub_self, Int.toNat_zero, pow_zero,
      mul_one, hexp, hval]
    rw [Nat.min_eq_left (by omega), hbits]


theorem decode_add_sign {mag : ℕ} (neg : Bool) (h : mag < F.infBits) :
    F.decode ((if neg then F.signBit else 0) + mag) =
      if mag / 2 ^ F.mantBits = 0 then .finite neg (mag % 2 ^ F.mantBits) F.minExp
      else .finite neg (2 ^ F.mantBits + mag % 2 ^ F.mantBits)
        (F.minExp + ((mag / 2 ^ F.mantBits : ℕ) - 1)) := by
  have hlt := F.infBits_lt_signBit
  have hmod : ((if neg then F.signBit else 0) + mag) % F.signBit = mag := by
    cases neg with
    | false => simpa using Nat.mod_eq_of_lt (by omega)
    | true => simpa using Nat.mod_eq_of_lt (by omega)
  have hneg : decide (F.signBit ≤ (if neg then F.signBit else 0) + mag) = neg := by
    cases neg with
    | false => simpa using by omega
    | true => simp
  rw [decode, hmod, hneg, if_neg (by omega), if_neg (by omega)]

/-- **Rounding is exact** where the significand fits and the exponent is in range. -/
theorem decode_round (neg : Bool) {sig : ℕ} (hsig : sig ≠ 0) {exp : ℤ}
    (hfit : Nat.log2 sig ≤ F.mantBits) (hlo : F.minExp + F.mantBits ≤ exp + Nat.log2 sig)
    (hhi : exp + Nat.log2 sig + 3 ≤ F.minExp + F.mantBits + 2 ^ F.expBits) :
    F.decode (F.round neg sig exp) = .finite neg (sig * 2 ^ (F.mantBits - Nat.log2 sig))
      (exp - (F.mantBits - Nat.log2 sig : ℕ)) := by
  have hpow := Nat.two_pow_pos F.mantBits
  set j := F.mantBits - Nat.log2 sig
  set q := exp - (j : ℤ) with hqdef
  have hq : max (exp + (Nat.log2 sig + 1) - (F.mantBits + 1) : ℤ) F.minExp = q := by omega
  -- The shifted significand has its leading bit in place.
  have hlog : Nat.log2 (sig * 2 ^ j) = F.mantBits := by
    rw [log2_mul_pow hsig]
    omega
  obtain ⟨hle, hlt⟩ := (Nat.log2_eq_iff (Nat.mul_ne_zero hsig (Nat.two_pow_pos j).ne')).1 hlog
  obtain ⟨m, hm⟩ := Nat.exists_eq_add_of_le hle
  rw [hm, pow_succ] at hlt
  have hround : F.round neg sig exp = (if neg then F.signBit else 0) +
      min ((q - F.minExp).toNat * 2 ^ F.mantBits + (2 ^ F.mantBits + m)) F.infBits := by
    simp only [round, hq, if_neg hsig, if_pos (show q ≤ exp by omega),
      show (exp - q).toNat = j by omega, hm]
  have hmag : (q - F.minExp).toNat * 2 ^ F.mantBits + (2 ^ F.mantBits + m) =
      ((q - F.minExp).toNat + 1) * 2 ^ F.mantBits + m := by ring
  have hinf : ((q - F.minExp).toNat + 1) * 2 ^ F.mantBits + m < F.infBits := by
    have hexp : (q - F.minExp).toNat + 1 + 1 ≤ 2 ^ F.expBits - 1 := by
      have hcast : ((2 ^ F.expBits : ℕ) : ℤ) = 2 ^ F.expBits := by push_cast; rfl
      omega
    calc ((q - F.minExp).toNat + 1) * 2 ^ F.mantBits + m
        < ((q - F.minExp).toNat + 1) * 2 ^ F.mantBits + 2 ^ F.mantBits := by omega
      _ = ((q - F.minExp).toNat + 1 + 1) * 2 ^ F.mantBits := by ring
      _ ≤ F.infBits := Nat.mul_le_mul_right _ hexp
  have hdiv : (((q - F.minExp).toNat + 1) * 2 ^ F.mantBits + m) / 2 ^ F.mantBits =
      (q - F.minExp).toNat + 1 := by
    rw [Nat.mul_comm, Nat.mul_add_div hpow, Nat.div_eq_of_lt (by omega), Nat.add_zero]
  have hmod : (((q - F.minExp).toNat + 1) * 2 ^ F.mantBits + m) % 2 ^ F.mantBits = m := by
    rw [Nat.mul_comm, Nat.mul_add_mod, Nat.mod_eq_of_lt (by omega)]
  rw [hround, hmag, Nat.min_eq_left hinf.le, F.decode_add_sign neg hinf, hdiv, hmod,
    if_neg (Nat.succ_ne_zero _), ← hm]
  congr 1
  omega

theorem decode_round_zero (neg : Bool) (exp : ℤ) (h : 0 < F.infBits) :
    F.decode (F.round neg 0 exp) = .finite neg 0 F.minExp := by
  have hround : F.round neg 0 exp = (if neg then F.signBit else 0) + 0 := by simp [round]
  rw [hround, F.decode_add_sign neg h, Nat.zero_div, if_pos rfl, Nat.zero_mod]

theorem round_zero_congr (neg : Bool) (exp exp' : ℤ) : F.round neg 0 exp = F.round neg 0 exp' := by
  simp [round]

/-- The range of the significands and exponents of a format. -/
theorem decode_bounds (hexp : 2 ≤ F.expBits) {bits : ℕ} {neg : Bool} {sig : ℕ} {exp : ℤ}
    (hdec : F.decode bits = .finite neg sig exp) :
    sig < 2 ^ (F.mantBits + 1) ∧ F.minExp ≤ exp ∧ exp + 3 ≤ F.minExp + 2 ^ F.expBits := by
  have hpow := Nat.two_pow_pos F.mantBits
  have hcast : ((2 ^ F.expBits : ℕ) : ℤ) = 2 ^ F.expBits := by push_cast; rfl
  have hm := Nat.mod_lt (bits % F.signBit) hpow
  rw [decode] at hdec
  split_ifs at hdec with hnan hinf he
  · obtain ⟨-, rfl, rfl⟩ := FloatValue.finite.inj hdec
    have hfour : 2 ^ 2 ≤ 2 ^ F.expBits := Nat.pow_le_pow_right two_pos hexp
    rw [pow_succ]
    omega
  · obtain ⟨-, rfl, rfl⟩ := FloatValue.finite.inj hdec
    have he' : bits % F.signBit / 2 ^ F.mantBits < 2 ^ F.expBits - 1 :=
      (Nat.div_lt_iff_lt_mul hpow).2 (by rw [← infBits]; omega)
    generalize bits % F.signBit / 2 ^ F.mantBits = e at *
    generalize bits % F.signBit % 2 ^ F.mantBits = m at *
    rw [pow_succ]
    omega

/-- **Widening is exact**: the pattern of a value in a larger format stands for the same value,
and rounds back to the pattern it came from. -/
theorem round_decode_widen {F G : FloatFormat} (hmant : F.mantBits ≤ G.mantBits)
    (hlo : G.minExp + G.mantBits ≤ F.minExp)
    (hhi : F.minExp + F.mantBits + 2 ^ F.expBits ≤ G.minExp + G.mantBits + 2 ^ G.expBits)
    (hexp : 2 ≤ F.expBits) (hinf : 0 < G.infBits) {bits : ℕ} (hbits : bits < 2 * F.signBit)
    {neg : Bool} {sig : ℕ} {exp : ℤ} (hdec : F.decode bits = .finite neg sig exp) :
    ∃ sig' exp', G.decode (G.round neg sig exp) = .finite neg sig' exp' ∧
      F.round neg sig' exp' = bits := by
  obtain ⟨hsig, hmin, hmax⟩ := F.decode_bounds hexp hdec
  have hback := F.round_of_decode hbits hdec
  by_cases hzero : sig = 0
  · subst hzero
    exact ⟨0, _, G.decode_round_zero neg exp hinf, (F.round_zero_congr neg _ _).trans hback⟩
  · have hlog : Nat.log2 sig < F.mantBits + 1 := (Nat.log2_lt hzero).2 hsig
    refine ⟨_, _, G.decode_round neg hzero (by omega) (by omega) (by omega), ?_⟩
    rw [F.round_mul_pow neg hzero, hback]

/-- Equal values have equal patterns, the two zeros apart. -/
theorem eq_or_zero_of_eq {a b : ℕ} (ha : a < 2 * F.signBit) (hb : b < 2 * F.signBit)
    (h : F.eq a b = true) : a = b ∨ a % F.signBit = 0 ∧ b % F.signBit = 0 := by
  have hkey : F.key a = F.key b := by
    simp only [eq, Bool.and_eq_true, beq_iff_eq] at h
    exact h.2
  have hmod : ∀ {c : ℕ}, c < 2 * F.signBit → F.signBit ≤ c → c % F.signBit = c - F.signBit :=
    fun hc hs ↦ by rw [Nat.mod_eq_sub_mod hs, Nat.mod_eq_of_lt (by omega)]
  simp only [key] at hkey
  split_ifs at hkey with hsa hsb hsb
  · rw [hmod ha hsa, hmod hb hsb] at *
    omega
  · rw [hmod ha hsa, Nat.mod_eq_of_lt (by omega : b < F.signBit)] at *
    omega
  · rw [hmod hb hsb, Nat.mod_eq_of_lt (by omega : a < F.signBit)] at *
    omega
  · omega

end FloatFormat

/-- The integer part of a non-negative finite value, as a conversion to an unsigned type has it. -/
def FloatValue.floorNat : FloatValue → ℕ
  | .finite false sig exp =>
    if 0 ≤ exp then sig * 2 ^ exp.toNat else sig / 2 ^ (-exp).toNat
  | _ => 0

/-- The exact value of a finite pattern. -/
def FloatValue.toRat : FloatValue → ℚ
  | .finite neg sig exp => (if neg then -1 else 1) * sig * 2 ^ exp
  | _ => 0
