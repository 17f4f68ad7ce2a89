import CqlDriver.IntegerMultiplication
import Mathlib.Data.Rat.Defs
import Mathlib.Data.Sign.Basic

/-! # Decimals of arbitrary precision (`lib/types/big-decimal.js`)

A decimal is an unscaled `Integer` and a 32-bit scale.  `add` and `subtract` bring the operand with the
lower scale to the scale of the other one: they multiply it with `Integer.fromNumber(Math.pow(10, d))`,
`d` being the difference of the scales.  The power is a double, so it is `10 ^ d` for `d ≤ 22` only; the
multiplication itself is exact for every power that a double can be here.  `exactArithmetic_iff` says
for which pairs the results are the mathematical ones. -/

namespace CqlDriver

open MachineInt Bytes

structure BigDecimal where
  intVal : Integer
  scale : ℤ
  scaleFits : Fits 32 scale

/-! ### Powers of ten as doubles -/

/-- The weight of the last of the 53 bits of a double next to `10 ^ d`. -/
def unitOfPower (d : ℕ) : ℕ := 2 ^ ((10 ^ d).log2 - 52)

/-- The largest double up to `10 ^ d`. -/
def doubleBelow (d : ℕ) : ℕ := 10 ^ d / unitOfPower d * unitOfPower d

/-- The double that follows it. -/
def doubleAbove (d : ℕ) : ℕ := doubleBelow d + unitOfPower d

/-- `Math.pow(10, d)`, with `none` for `Infinity`: the power where it is a double, one of the two doubles
around it otherwise, and infinite above the largest double. -/
structure MathPow where
  pow : ℕ → Option ℕ
  exact : ∀ d ≤ 22, pow d = some (10 ^ d)
  adjacent : ∀ d, 22 < d → d ≤ 308 → pow d = some (doubleBelow d) ∨ pow d = some (doubleAbove d)
  overflow : ∀ d, 308 < d → pow d = none

/-- At most `n` digits in base 65536, none of them among the largest. -/
def digitsBelow : ℕ → ℕ → Bool
  | 0, v => v == 0
  | n + 1, v => (v % 65536).ble 0xfff0 && digitsBelow n (v / 65536)

theorem smallDigits_of_digitsBelow : ∀ {n v : ℕ}, digitsBelow n v = true → Integer.SmallDigits v
  | 0, v, h => by
      intro i
      rw [eq_of_beq h, Nat.zero_div]
      omega
  | n + 1, v, h => by
      rw [digitsBelow, Bool.and_eq_true, Nat.ble_eq] at h
      intro i
      cases i with
      | zero => rw [pow_zero, Nat.div_one]; exact h.1
      | succ i =>
          rw [pow_succ', ← Nat.div_div_eq_div_mul]
          exact smallDigits_of_digitsBelow h.2 i

/-- The doubles around the powers of ten: their digits, and that they are not the power above `10 ^ 22`. -/
theorem doubles_around : ∀ d < 309, digitsBelow 64 (doubleBelow d) = true ∧ digitsBelow 64 (doubleAbove d) = true ∧
    (d ≤ 22 → doubleBelow d = 10 ^ d) ∧ (22 < d → doubleBelow d ≠ 10 ^ d ∧ doubleAbove d ≠ 10 ^ d) := by
  decide +kernel

namespace MathPow

/-- The multiplier for a difference of scales, `Integer.fromNumber(Math.pow(10, diffScale))`. -/
def multiplier (p : MathPow) (diffScale : ℕ) : Integer := Integer.fromNumber ((p.pow diffScale).map Int.ofNat)

/-- The power is rounded to the nearest double. -/
def nearest : MathPow where
  pow d :=
    if d ≤ 22 then some (10 ^ d)
    else if 308 < d then none
    else if 2 * (10 ^ d - doubleBelow d) ≤ unitOfPower d then some (doubleBelow d)
    else some (doubleAbove d)
  exact d hd := by rw [if_pos hd]
  adjacent d h₁ h₂ := by
    rw [if_neg (by omega), if_neg (by omega)]
    split_ifs
    · exact Or.inl rfl
    · exact Or.inr rfl
  overflow d hd := by rw [if_neg (by omega), if_pos hd]

theorem multiplier_of_pow {p : MathPow} {d v : ℕ} (h : p.pow d = some v) (hv : digitsBelow 64 v = true) :
    (p.multiplier d).value = v ∧ (p.multiplier d).negative = false ∧ (p.multiplier d).HalvesBelow := by
  have heq : p.multiplier d = Integer.fromNumber (some v) := by rw [multiplier, h]; rfl
  rw [heq]
  exact ⟨Integer.value_fromNumber v, Integer.negative_fromNumber v,
    Integer.halvesBelow_of_smallDigits (Integer.value_fromNumber v) (smallDigits_of_digitsBelow hv)⟩

/-- The multiplier is one that the multiplication is exact for, and it is the power of ten up to 22. -/
theorem multiplier_spec (p : MathPow) (d : ℕ) :
    (p.multiplier d).negative = false ∧ (p.multiplier d).HalvesBelow ∧
      ((p.multiplier d).value = 10 ^ d ↔ d ≤ 22) := by
  by_cases hover : 308 < d
  · have heq : p.multiplier d = Integer.zero := by rw [multiplier, p.overflow d hover]; rfl
    have hpos : (0 : ℤ) < 10 ^ d := by positivity
    rw [heq, Integer.value_zero]
    refine ⟨rfl, Integer.halvesBelow_of_smallDigits (v := 0) Integer.value_zero (fun i => by simp), ?_⟩
    omega
  · obtain ⟨hbelow, habove, hexact, hother⟩ := doubles_around d (by omega)
    by_cases hd : d ≤ 22
    · rw [hexact hd] at hbelow
      obtain ⟨hvalue, hneg, hhalves⟩ := multiplier_of_pow (p.exact d hd) hbelow
      refine ⟨hneg, hhalves, ?_⟩
      rw [hvalue]
      simp [hd]
    · obtain ⟨hne, hne'⟩ := hother (by omega)
      rcases p.adjacent d (by omega) (by omega) with h | h
      · obtain ⟨hvalue, hneg, hhalves⟩ := multiplier_of_pow h hbelow
        refine ⟨hneg, hhalves, ?_⟩
        rw [hvalue]
        exact iff_of_false (by exact_mod_cast hne) hd
      · obtain ⟨hvalue, hneg, hhalves⟩ := multiplier_of_pow h habove
        refine ⟨hneg, hhalves, ?_⟩
        rw [hvalue]
        exact iff_of_false (by exact_mod_cast hne') hd

end MathPow

namespace BigDecimal

/-- A buffer of a 32-bit scale and the unscaled value; a shorter buffer makes `readInt32BE` throw. -/
def fromBuffer (buf : List UInt8) : Option BigDecimal :=
  if h : 4 ≤ buf.length then
    some {
      intVal := Integer.fromBuffer (buf.drop 4)
      scale := readInt (buf.take 4)
      scaleFits := by
        have hlen : (buf.take 4).length = 4 := by simp [h]
        have hfits := fits_readInt (List.ne_nil_of_length_pos (by rw [hlen]; norm_num))
        rwa [hlen] at hfits }
  else none

def toBuffer (value : BigDecimal) : List UInt8 := writeInt 4 value.scale ++ value.intVal.toBuffer

variable (p : MathPow)

def subtract (first other : BigDecimal) : BigDecimal :=
  if first.scale = other.scale then
    { first with intVal := first.intVal.subtract other.intVal }
  else if first.scale < other.scale then
    -- the scale of this is lower
    let diffScale := other.scale - first.scale
    { other with intVal := (first.intVal.multiply (p.multiplier diffScale.toNat)).subtract other.intVal }
  else
    let diffScale := first.scale - other.scale
    { first with intVal := first.intVal.subtract (other.intVal.multiply (p.multiplier diffScale.toNat)) }

def add (first other : BigDecimal) : BigDecimal :=
  if first.scale = other.scale then
    { first with intVal := first.intVal.add other.intVal }
  else if first.scale < other.scale then
    let diffScale := other.scale - first.scale
    { other with intVal := (first.intVal.multiply (p.multiplier diffScale.toNat)).add other.intVal }
  else
    let diffScale := first.scale - other.scale
    { first with intVal := first.intVal.add (other.intVal.multiply (p.multiplier diffScale.toNat)) }

def compare (this other : BigDecimal) : ℤ :=
  let diff := this.subtract p other
  if diff.intVal.negative then -1 else if diff.intVal.isZero then 0 else 1

def equals (this other : BigDecimal) : Bool := this.compare p other = 0

/-- The number that is represented, `unscaledValue × 10^(-scale)`. -/
def value (d : BigDecimal) : ℚ := d.intVal.value * 10 ^ (-d.scale)

/-- Every decimal comes from a buffer. -/
theorem fromBuffer_toBuffer (d : BigDecimal) : fromBuffer d.toBuffer = some d := by
  have hlen : (writeInt 4 d.scale).length = 4 := length_writeInt 4 d.scale
  have htake : d.toBuffer.take 4 = writeInt 4 d.scale := List.take_left' hlen
  have hdrop : d.toBuffer.drop 4 = d.intVal.toBuffer := List.drop_left' hlen
  have h4 : 4 ≤ d.toBuffer.length := by simp [toBuffer]
  cases d with
  | mk intVal scale scaleFits =>
      simp only [fromBuffer, h4, dite_true, htake, hdrop, Integer.fromBuffer_toBuffer]
      congr
      exact readInt_writeInt (by norm_num) scaleFits

/-! ### Alignment of the scales -/

/-- The unscaled value of an operand that is brought to the scale `t` of the other one. -/
def scaledTo (d : BigDecimal) (t : ℤ) : Integer :=
  if d.scale < t then d.intVal.multiply (p.multiplier (t - d.scale).toNat) else d.intVal

theorem add_eq (a b : BigDecimal) : (a.add p b).intVal = (a.scaledTo p b.scale).add (b.scaledTo p a.scale) ∧
    (a.add p b).scale = max a.scale b.scale := by
  unfold add scaledTo
  rcases lt_trichotomy a.scale b.scale with h | h | h
  · rw [if_neg h.ne, if_pos h, if_pos h, if_neg h.not_gt]
    exact ⟨rfl, (max_eq_right h.le).symm⟩
  · rw [if_pos h, if_neg h.not_lt, if_neg h.symm.not_lt]
    exact ⟨rfl, by rw [h, max_self]⟩
  · rw [if_neg h.ne', if_neg h.not_gt, if_neg h.not_gt, if_pos h]
    exact ⟨rfl, (max_eq_left h.le).symm⟩

theorem subtract_eq (a b : BigDecimal) :
    (a.subtract p b).intVal = (a.scaledTo p b.scale).subtract (b.scaledTo p a.scale) ∧
      (a.subtract p b).scale = max a.scale b.scale := by
  unfold subtract scaledTo
  rcases lt_trichotomy a.scale b.scale with h | h | h
  · rw [if_neg h.ne, if_pos h, if_pos h, if_neg h.not_gt]
    exact ⟨rfl, (max_eq_right h.le).symm⟩
  · rw [if_pos h, if_neg h.not_lt, if_neg h.symm.not_lt]
    exact ⟨rfl, by rw [h, max_self]⟩
  · rw [if_neg h.ne', if_neg h.not_gt, if_neg h.not_gt, if_pos h]
    exact ⟨rfl, (max_eq_left h.le).symm⟩

/-- The unscaled value at the scale `t`, when that is not lower. -/
def unscaledAt (d : BigDecimal) (t : ℤ) : ℤ := d.intVal.value * 10 ^ (t - d.scale).toNat

theorem value_eq (d : BigDecimal) {t : ℤ} (h : d.scale ≤ t) : d.value = d.unscaledAt t * 10 ^ (-t) := by
  have hexp : (10 : ℚ) ^ (-d.scale) = 10 ^ (t - d.scale).toNat * 10 ^ (-t) := by
    rw [← zpow_natCast, ← zpow_add₀ (by norm_num), Int.toNat_of_nonneg (by omega)]
    congr 1
    ring
  rw [value, unscaledAt, hexp]
  push_cast
  ring

theorem value_scaledTo (d : BigDecimal) (t : ℤ) :
    (d.scaledTo p t).value = d.unscaledAt t ↔ t - d.scale ≤ 22 ∨ d.intVal.value = 0 := by
  unfold scaledTo unscaledAt
  split_ifs with hlt
  · obtain ⟨hneg, hhalves, hpower⟩ := p.multiplier_spec (t - d.scale).toNat
    rw [Integer.value_multiply _ hneg hhalves, mul_eq_mul_left_iff, hpower]
    have : (t - d.scale).toNat ≤ 22 ↔ t - d.scale ≤ 22 := by omega
    rw [this]
  · rw [show (t - d.scale).toNat = 0 by omega, pow_zero, mul_one]
    exact iff_of_true rfl (Or.inl (by omega))

/-! ### Exactness -/

/-- The results of the operations on `a` and `b` are the mathematical ones. -/
structure ExactArithmetic (a b : BigDecimal) : Prop where
  add : (a.add p b).value = a.value + b.value
  subtract : (a.subtract p b).value = a.value - b.value
  compare : a.compare p b = (SignType.sign (a.value - b.value) : ℤ)
  equals : a.equals p b = true ↔ a.value = b.value

/-- The operand with the lower scale is at most 22 digits away from the other one, or zero. -/
def Alignable (a b : BigDecimal) : Prop :=
  (b.scale - a.scale ≤ 22 ∨ a.intVal.value = 0) ∧ (a.scale - b.scale ≤ 22 ∨ b.intVal.value = 0)

instance (a b : BigDecimal) : Decidable (Alignable a b) := inferInstanceAs (Decidable (_ ∧ _))

theorem value_add (a b : BigDecimal) : (a.add p b).value =
    ((a.scaledTo p b.scale).value + (b.scaledTo p a.scale).value : ℤ) * 10 ^ (-max a.scale b.scale) := by
  rw [value, (add_eq p a b).1, (add_eq p a b).2, Integer.value_add]

theorem value_subtract (a b : BigDecimal) : (a.subtract p b).value =
    ((a.scaledTo p b.scale).value - (b.scaledTo p a.scale).value : ℤ) * 10 ^ (-max a.scale b.scale) := by
  rw [value, (subtract_eq p a b).1, (subtract_eq p a b).2, Integer.value_subtract]

/-- At the higher one of the two scales an operand is where `scaledTo` is to bring it. -/
theorem unscaledAt_max (a b : BigDecimal) : a.unscaledAt (max a.scale b.scale) = a.unscaledAt b.scale := by
  unfold unscaledAt
  congr 2
  omega

theorem value_eq_max (a b : BigDecimal) :
    a.value = a.unscaledAt b.scale * 10 ^ (-max a.scale b.scale) := by
  rw [value_eq a (le_max_left a.scale b.scale), unscaledAt_max]

theorem value_eq_max' (a b : BigDecimal) :
    b.value = b.unscaledAt a.scale * 10 ^ (-max a.scale b.scale) := by
  rw [max_comm, value_eq_max]

/-- The comparison is the sign of the difference as it is computed. -/
theorem compare_eq (a b : BigDecimal) :
    a.compare p b = (SignType.sign (a.subtract p b).value : ℤ) := by
  have hpow : (0 : ℚ) < 10 ^ (-(a.subtract p b).scale) := by positivity
  have hneg := (a.subtract p b).intVal.negative_iff
  have hzero := (a.subtract p b).intVal.isZero_iff
  rw [value, sign_mul, sign_pos hpow, mul_one, compare]
  split_ifs with h h'
  · have hlt : ((a.subtract p b).intVal.value : ℚ) < 0 := by exact_mod_cast hneg.1 h
    rw [sign_neg hlt]
    rfl
  · rw [hzero.1 h', Int.cast_zero, sign_zero]
    rfl
  · have hlt : (0 : ℚ) < (a.subtract p b).intVal.value := by
      have := mt hneg.2 h
      have := mt hzero.2 h'
      exact_mod_cast (by omega : 0 < (a.subtract p b).intVal.value)
    rw [sign_pos hlt]
    rfl

theorem ExactArithmetic.alignable {a b : BigDecimal} (h : ExactArithmetic p a b) : Alignable a b := by
  have hpow : (0 : ℚ) < 10 ^ (-max a.scale b.scale) := by positivity
  have ha := value_scaledTo p a b.scale
  have hb := value_scaledTo p b a.scale
  have hsum := h.add
  rw [value_add, value_eq_max a b, value_eq_max' a b, ← add_mul, mul_left_inj' hpow.ne'] at hsum
  have hsum' : (a.scaledTo p b.scale).value + (b.scaledTo p a.scale).value =
      a.unscaledAt b.scale + b.unscaledAt a.scale := by exact_mod_cast hsum
  rw [Alignable, ← ha, ← hb]
  -- one of the operands keeps its scale, so the other one is exact
  rcases le_total a.scale b.scale with hle | hle
  · have := hb.2 (Or.inl (by omega))
    exact ⟨by omega, this⟩
  · have := ha.2 (Or.inl (by omega))
    exact ⟨this, by omega⟩

theorem Alignable.exactArithmetic {a b : BigDecimal} (h : Alignable a b) : ExactArithmetic p a b := by
  obtain ⟨h₁, h₂⟩ := h
  have ha := (value_scaledTo p a b.scale).2 h₁
  have hb := (value_scaledTo p b a.scale).2 h₂
  have hadd : (a.add p b).value = a.value + b.value := by
    rw [value_add, ha, hb, value_eq_max a b, value_eq_max' a b]
    push_cast
    ring
  have hsub : (a.subtract p b).value = a.value - b.value := by
    rw [value_subtract, ha, hb, value_eq_max a b, value_eq_max' a b]
    push_cast
    ring
  have hcompare : a.compare p b = (SignType.sign (a.value - b.value) : ℤ) := by rw [compare_eq, hsub]
  refine ⟨hadd, hsub, hcompare, ?_⟩
  have hcoe : ∀ s : SignType, (s : ℤ) = 0 ↔ s = 0 := by decide
  rw [equals, decide_eq_true_iff, hcompare, hcoe, sign_eq_zero_iff, sub_eq_zero]

/-- The arithmetic is exact for the pairs whose scales can be brought together with an exact power. -/
theorem exactArithmetic_iff (a b : BigDecimal) : ExactArithmetic p a b ↔ Alignable a b := by
  constructor
  · exact ExactArithmetic.alignable p
  · exact Alignable.exactArithmetic p

/-- Two decimals whose scales are 22 apart. -/
theorem exactArithmetic_scales_22 : ExactArithmetic MathPow.nearest
    ⟨Integer.fromInt 7, 0, by decide⟩ ⟨Integer.fromInt 3, 22, by decide⟩ :=
  (exactArithmetic_iff _ _ _).2 (by decide)

/-- The decimals `1` and `10 ^ 23 × 10^(-23)` are equal; their scales are 23 apart. -/
theorem not_exactArithmetic_scales_23 : ¬ ExactArithmetic MathPow.nearest
    ⟨Integer.fromInt 1, 0, by decide⟩ ⟨Integer.new [0xf6800000, 0x2c7e14a, 0x152d] false, 23, by decide⟩ := by
  intro h
  exact absurd (h.alignable MathPow.nearest) (by decide)

end BigDecimal

end CqlDriver
