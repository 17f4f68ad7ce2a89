import CqlDriver.Integer
import CqlDriver.Lib.Limbs
import Mathlib.Data.List.GetD
import Mathlib.Data.Nat.Size

/-! # Arithmetic of arbitrary-precision integers (`lib/types/integer.js`)

Words are added and multiplied by halves of 16 bits.  Addition, negation and comparison are exact for
all operands (`value_add`, `value_negate`, `value_subtract`).  `multiply` fills an array of 16-bit
products with `carry16`, which moves the overflow of one entry into the next and goes no further, so
entries above the current one may hold more than 16 bits for a while. -/

namespace CqlDriver.Integer

open MachineInt Limbs

def getBits (n : Integer) (index : ℕ) : BitVec 32 := n.bits.getD index (signWord n.negative)

/-- The sign is extended from the highest word. -/
def fromBits (bits : List (BitVec 32)) : Integer := new bits (bits.getLast?.getD 0).msb

def fromInt (value : BitVec 32) : Integer := new [value] value.msb

def zero : Integer := fromInt 0

def one : Integer := fromInt 1

def twoPwr24 : Integer := fromInt (1 <<< 24)

def not (n : Integer) : Integer := new (n.bits.map (~~~·)) !n.negative

/-- `w >>> 16` -/
def highHalf (w : BitVec 32) : ℕ := (w >>> 16).toNat

/-- `w & 0xffff` -/
def lowHalf (w : BitVec 32) : ℕ := (w &&& 0xffff).toNat

/-- `(c1 << 16) | c0` -/
def joinHalves (c1 c0 : ℕ) : BitVec 32 := BitVec.ofNat 32 c1 <<< 16 ||| BitVec.ofNat 32 c0

/-- The words of a sum from the index `i` on. -/
def addLoop (this other : Integer) : ℕ → ℕ → ℕ → List (BitVec 32)
  | 0, _, _ => []
  | n + 1, i, carry =>
      let c0 := carry + lowHalf (this.getBits i) + lowHalf (other.getBits i)
      let c1 := c0 / 65536 + highHalf (this.getBits i) + highHalf (other.getBits i)
      joinHalves (c1 % 65536) (c0 % 65536) :: addLoop this other n (i + 1) (c1 / 65536)

def add (this other : Integer) : Integer :=
  fromBits (addLoop this other (max this.bits.length other.bits.length + 1) 0 0)

def negate (this : Integer) : Integer := this.not.add one

def subtract (this other : Integer) : Integer := this.add other.negate

def isZero (this : Integer) : Bool := !this.negative && this.bits.all (· == 0)

def compare (this other : Integer) : ℤ :=
  let diff := this.subtract other
  if diff.negative then -1 else if diff.isZero then 0 else 1

def lessThan (this other : Integer) : Bool := this.compare other < 0

def equals (this other : Integer) : Bool :=
  if this.negative ≠ other.negative then false
  else (List.range (max this.bits.length other.bits.length)).all fun i => this.getBits i == other.getBits i

/-- The sum of the words as a number; a double holds it exactly below `2 ^ 53`, and `multiply` asks for
it below `2 ^ 24` only. -/
def unsignedNumber (bits : List (BitVec 32)) : ℕ := total (2 ^ 32) bits.length fun i => (bits.getD i 0).toNat

def toNumber (this : Integer) : ℤ :=
  if this.negative then -unsignedNumber this.negate.bits else unsignedNumber this.bits

/-- The words of a number, of which the power `pow` is the next one; `fuel` bounds the passes. -/
def numberWords (value : ℕ) : ℕ → ℕ → List (BitVec 32)
  | 0, _ => []
  | fuel + 1, pow =>
      if value ≥ pow then BitVec.ofNat 32 (value / pow) :: numberWords value fuel (pow * 2 ^ 32) else []

/-- An integral number, `none` being one that is not finite. -/
def fromNumber : Option ℤ → Integer
  | none => zero
  | some value =>
      let words := new (numberWords value.natAbs (value.natAbs.size + 1) 1) false
      if value < 0 then words.negate else words

/-- The overflow of the entry `index` goes into the next one.  The loop of the source leaves `index` as it
is, so that it ends after one pass. -/
def carry16 (bits : ℕ → ℕ) (index : ℕ) : ℕ → ℕ :=
  if bits index % 65536 ≠ bits index then
    Function.update (addAt bits (index + 1) (bits index % 2 ^ 32 / 65536)) index (bits index % 65536)
  else bits

/-- The product of two words is added at the entry `k`. -/
def addProduct (arr : ℕ → ℕ) (k : ℕ) (a b : BitVec 32) : ℕ → ℕ :=
  let arr := carry16 (addAt arr k (lowHalf a * lowHalf b)) k
  let arr := carry16 (addAt arr (k + 1) (highHalf a * lowHalf b)) (k + 1)
  let arr := carry16 (addAt arr (k + 1) (lowHalf a * highHalf b)) (k + 1)
  carry16 (addAt arr (k + 2) (highHalf a * highHalf b)) (k + 2)

/-- The inner loop: the products of the word `i` of `this` with the first `m` words of `other`. -/
def addRow (this other : Integer) (i m : ℕ) (arr : ℕ → ℕ) : ℕ → ℕ :=
  (List.range m).foldl (fun arr j => addProduct arr (2 * i + 2 * j) (this.getBits i) (other.getBits j)) arr

/-- The array of 16-bit products. -/
def products (this other : Integer) : ℕ → ℕ :=
  (List.range this.bits.length).foldl (fun arr i => addRow this other i other.bits.length arr) fun _ => 0

def multiplyWords (this other : Integer) : Integer :=
  let len := this.bits.length + other.bits.length
  let arr := products this other
  new ((List.range len).map (fun i => joinHalves (arr (2 * i + 1)) (arr (2 * i))) ++ List.replicate len 0) false

/-! ### Words and halves -/

theorem highHalf_eq (w : BitVec 32) : highHalf w = w.toNat / 65536 := by
  rw [highHalf, BitVec.toNat_ushiftRight, Nat.shiftRight_eq_div_pow]

theorem lowHalf_eq (w : BitVec 32) : lowHalf w = w.toNat % 65536 := by
  rw [lowHalf, BitVec.toNat_and]
  exact Nat.and_two_pow_sub_one_eq_mod w.toNat 16

theorem highHalf_lt (w : BitVec 32) : highHalf w < 65536 := by
  have := w.isLt
  rw [highHalf_eq]
  omega

theorem lowHalf_lt (w : BitVec 32) : lowHalf w < 65536 := by
  rw [lowHalf_eq]
  omega

theorem toNat_eq_halves (w : BitVec 32) : w.toNat = highHalf w * 65536 + lowHalf w := by
  rw [highHalf_eq, lowHalf_eq]
  omega

theorem toNat_joinHalves {c1 c0 : ℕ} (h1 : c1 < 65536) (h0 : c0 < 65536) :
    (joinHalves c1 c0).toNat = c1 * 65536 + c0 := by
  rw [joinHalves, BitVec.toNat_or, BitVec.toNat_shiftLeft, BitVec.toNat_ofNat, BitVec.toNat_ofNat,
    Nat.mod_eq_of_lt (show c1 < 2 ^ 32 by omega), Nat.mod_eq_of_lt (show c0 < 2 ^ 32 by omega),
    Nat.mod_eq_of_lt (by rw [Nat.shiftLeft_eq]; omega)]
  exact shiftLeft_or_byte h0

/-! ### Values -/

/-- The value of the words from `i` on. -/
def valueFrom (n : Integer) (i : ℕ) : ℤ := wordsValue n.negative (n.bits.drop i)

theorem valueFrom_zero (n : Integer) : n.valueFrom 0 = n.value := rfl

theorem toNat_signWord (negative : Bool) : ((signWord negative).toNat : ℤ) = if negative then 2 ^ 32 - 1 else 0 := by
  cases negative <;> rfl

theorem valueFrom_eq (n : Integer) (i : ℕ) :
    n.valueFrom i = (n.getBits i).toNat + 2 ^ 32 * n.valueFrom (i + 1) := by
  by_cases hi : i < n.bits.length
  · rw [valueFrom, List.drop_eq_getElem_cons hi, wordsValue, getBits, List.getD_eq_getElem _ _ hi, valueFrom]
  · rw [valueFrom, valueFrom, List.drop_eq_nil_of_le (by omega), List.drop_eq_nil_of_le (by omega), getBits,
      List.getD_eq_default _ _ (by omega), toNat_signWord]
    cases n.negative <;> simp [wordsValue]

/-- The sign words above the list count as one power. -/
theorem wordsValue_eq_sub (negative : Bool) (ws : List (BitVec 32)) :
    wordsValue negative ws = wordsValue false ws - if negative then 2 ^ (32 * ws.length) else 0 := by
  induction ws with
  | nil => cases negative <;> rfl
  | cons w ws ih =>
      rw [wordsValue, ih, wordsValue, List.length_cons, Nat.mul_succ, pow_add]
      split_ifs <;> ring

theorem wordsValue_nonneg (ws : List (BitVec 32)) : 0 ≤ wordsValue false ws := by
  induction ws with
  | nil => simp [wordsValue]
  | cons w ws ih =>
      rw [wordsValue]
      omega

theorem wordsValue_lt (ws : List (BitVec 32)) : wordsValue false ws < 2 ^ (32 * ws.length) := by
  induction ws with
  | nil => simp [wordsValue]
  | cons w ws ih =>
      have := w.isLt
      rw [wordsValue, List.length_cons, Nat.mul_succ, pow_add]
      omega

theorem wordsValue_concat (ws : List (BitVec 32)) (w : BitVec 32) :
    wordsValue false (ws ++ [w]) = wordsValue false ws + w.toNat * 2 ^ (32 * ws.length) := by
  induction ws with
  | nil => simp [wordsValue]
  | cons v ws ih =>
      rw [List.cons_append, wordsValue, ih, wordsValue, List.length_cons, Nat.mul_succ, pow_add]
      ring

theorem value_nonneg {n : Integer} (h : n.negative = false) : 0 ≤ n.value := by
  rw [value, h]
  exact wordsValue_nonneg n.bits

theorem value_neg {n : Integer} (h : n.negative = true) : n.value < 0 := by
  have := wordsValue_lt n.bits
  rw [value, h, wordsValue_eq_sub, if_pos rfl]
  omega

theorem negative_iff (n : Integer) : n.negative = true ↔ n.value < 0 := by
  cases hn : n.negative with
  | true => simpa using value_neg hn
  | false => simpa using value_nonneg hn

theorem fits_value (n : Integer) {len : ℕ} (h : n.bits.length ≤ len) : Fits (32 * len + 1) n.value := by
  have hpow : (2 : ℤ) ^ (32 * n.bits.length) ≤ 2 ^ (32 * len) :=
    pow_le_pow_right₀ (by norm_num) (by omega)
  have h0 := wordsValue_nonneg n.bits
  have h1 := wordsValue_lt n.bits
  rw [Fits, Nat.add_sub_cancel, value, wordsValue_eq_sub]
  split_ifs <;> omega

@[simp] theorem value_zero : zero.value = 0 := rfl

@[simp] theorem value_one : one.value = 1 := rfl

theorem value_twoPwr24 : twoPwr24.value = 2 ^ 24 := rfl

theorem isZero_iff (n : Integer) : n.isZero = true ↔ n.value = 0 := by
  constructor
  · intro h
    rw [isZero, Bool.and_eq_true, Bool.not_eq_true', List.all_eq_true] at h
    obtain ⟨hneg, hbits⟩ := h
    have hall : n.bits = List.replicate n.bits.length 0 :=
      List.eq_replicate_of_mem fun w hw => by simpa using hbits w hw
    have hc := n.canonical
    rw [hall, hneg, List.getLast?_replicate] at hc
    have hlen : n.bits = [] := by
      by_contra hne
      rw [if_neg (by simpa using hne)] at hc
      exact hc rfl
    rw [value, hneg, hlen]
    rfl
  · intro h
    have hz : n = zero := eq_of_value_eq (h.trans value_zero.symm)
    rw [hz]
    rfl

/-! ### Addition -/

theorem emod_two_pow_succ (s t : ℤ) {m : ℤ} (hm : 0 < m) :
    (s + 2 ^ 32 * t) % (2 ^ 32 * m) = s % 2 ^ 32 + 2 ^ 32 * ((s / 2 ^ 32 + t) % m) := by
  have hs := Int.emod_add_mul_ediv s (2 ^ 32)
  have hsplit : s + 2 ^ 32 * t = s % 2 ^ 32 + 2 ^ 32 * (s / 2 ^ 32 + t) := by linarith
  have hq := Int.emod_add_mul_ediv (s / 2 ^ 32 + t) m
  have hlt := Int.emod_lt_of_pos (s / 2 ^ 32 + t) hm
  have hge := Int.emod_nonneg (s / 2 ^ 32 + t) hm.ne'
  have hwhole : s + 2 ^ 32 * t =
      s % 2 ^ 32 + 2 ^ 32 * ((s / 2 ^ 32 + t) % m) + 2 ^ 32 * m * ((s / 2 ^ 32 + t) / m) := by
    rw [hsplit]
    nth_rewrite 1 [← hq]
    ring
  rw [hwhole, Int.add_mul_emod_self_left]
  apply Int.emod_eq_of_lt
  · omega
  · omega

/-- What the sums of the halves leave in the word and in the carry. -/
theorem sum_of_halves (carry a1 a0 b1 b0 : ℕ) :
    ((carry + a0 + b0) / 65536 + a1 + b1) % 65536 * 65536 + (carry + a0 + b0) % 65536 =
        (carry + (a1 * 65536 + a0) + (b1 * 65536 + b0)) % 2 ^ 32 ∧
      ((carry + a0 + b0) / 65536 + a1 + b1) / 65536 =
        (carry + (a1 * 65536 + a0) + (b1 * 65536 + b0)) / 2 ^ 32 := by
  omega

theorem length_addLoop (a b : Integer) : ∀ n i carry : ℕ, (addLoop a b n i carry).length = n
  | 0, _, _ => rfl
  | n + 1, i, carry => by rw [addLoop, List.length_cons, length_addLoop]

/-- The words of a sum denote the sum of what remains of the operands, modulo the words written. -/
theorem wordsValue_addLoop (a b : Integer) : ∀ n i carry : ℕ,
    wordsValue false (addLoop a b n i carry) = (carry + a.valueFrom i + b.valueFrom i) % 2 ^ (32 * n)
  | 0, i, carry => by
      rw [addLoop, Nat.mul_zero, pow_zero, Int.emod_one]
      rfl
  | n + 1, i, carry => by
      have ha := toNat_eq_halves (a.getBits i)
      have hb := toNat_eq_halves (b.getBits i)
      have hpow : (2 : ℤ) ^ (32 * (n + 1)) = 2 ^ 32 * 2 ^ (32 * n) := by rw [Nat.mul_succ, pow_add, mul_comm]
      rw [addLoop, wordsValue, wordsValue_addLoop a b n (i + 1), toNat_joinHalves (by omega) (by omega),
        valueFrom_eq a i, valueFrom_eq b i, hpow]
      have hsum : (carry : ℤ) + ((a.getBits i).toNat + 2 ^ 32 * a.valueFrom (i + 1)) +
          ((b.getBits i).toNat + 2 ^ 32 * b.valueFrom (i + 1)) =
          ((carry + (a.getBits i).toNat + (b.getBits i).toNat : ℕ) : ℤ) +
            2 ^ 32 * (a.valueFrom (i + 1) + b.valueFrom (i + 1)) := by
        push_cast
        ring
      obtain ⟨hword, hcarry⟩ := sum_of_halves carry (highHalf (a.getBits i)) (lowHalf (a.getBits i))
        (highHalf (b.getBits i)) (lowHalf (b.getBits i))
      rw [hsum, emod_two_pow_succ _ _ (by positivity), ha, hb, hword, hcarry]
      push_cast
      ring_nf

/-- The sign that is extended from the highest word makes the value the signed one. -/
theorem value_fromBits {bits : List (BitVec 32)} (h : bits ≠ []) :
    (fromBits bits).value = wrap (32 * bits.length) (wordsValue false bits) := by
  obtain ⟨ws, w, rfl⟩ : ∃ ws w, bits = ws ++ [w] := ⟨_, _, (List.dropLast_append_getLast h).symm⟩
  have hvalue : wordsValue false (ws ++ [w]) = wordsValue false ws + w.toNat * 2 ^ (32 * ws.length) :=
    wordsValue_concat ws w
  have h0 := wordsValue_nonneg ws
  have h1 := wordsValue_lt ws
  have hw := w.isLt
  have hpow : (2 : ℤ) ^ (32 * (ws ++ [w]).length) = 2 ^ 32 * 2 ^ (32 * ws.length) := by
    rw [List.length_append, List.length_singleton, Nat.mul_succ, pow_add, mul_comm]
  have hhalf : (2 : ℤ) ^ (32 * (ws ++ [w]).length - 1) = 2 ^ 31 * 2 ^ (32 * ws.length) := by
    rw [List.length_append, List.length_singleton, Nat.mul_succ, ← pow_add]
    congr 1
    omega
  rw [fromBits, value_new, List.getLast?_append_of_ne_nil _ (by simp), List.getLast?_singleton, Option.getD_some,
    wordsValue_eq_sub, BitVec.msb_eq_decide]
  symm
  generalize (2 : ℤ) ^ (32 * ws.length) = m at hvalue h1 hpow hhalf
  by_cases hmsb : 2 ^ 31 ≤ w.toNat
  · have hle : 2 ^ 31 * m ≤ w.toNat * m := mul_le_mul_of_nonneg_right (by exact_mod_cast hmsb) (by omega)
    have hlt : (w.toNat : ℤ) * m ≤ (2 ^ 32 - 1) * m := mul_le_mul_of_nonneg_right (by omega) (by omega)
    rw [if_pos (by simpa using hmsb), ← wrap_sub_two_pow, wrap_eq_self (by simp)]
    rw [Fits, hhalf, hpow, hvalue]
    constructor
    · omega
    · omega
  · have hlt : (w.toNat : ℤ) * m ≤ (2 ^ 31 - 1) * m := mul_le_mul_of_nonneg_right (by omega) (by omega)
    have hge : (0 : ℤ) ≤ w.toNat * m := mul_nonneg (by omega) (by omega)
    rw [if_neg (by simpa using hmsb), sub_zero, wrap_eq_self (by simp)]
    rw [Fits, hhalf, hvalue]
    constructor
    · omega
    · omega

theorem value_add (a b : Integer) : (a.add b).value = a.value + b.value := by
  have hlen := length_addLoop a b (max a.bits.length b.bits.length + 1) 0 0
  have ha := a.fits_value (le_max_left a.bits.length b.bits.length)
  have hb := b.fits_value (le_max_right a.bits.length b.bits.length)
  have hfits : Fits (32 * (max a.bits.length b.bits.length + 1)) (a.value + b.value) := by
    have hpow : (2 : ℤ) ^ (32 * (max a.bits.length b.bits.length + 1) - 1) =
        2 ^ 31 * 2 ^ (32 * max a.bits.length b.bits.length) := by
      rw [← pow_add]
      congr 1
      omega
    rw [Fits, Nat.add_sub_cancel] at ha hb
    rw [Fits, hpow]
    omega
  rw [add, value_fromBits (by rw [← List.length_pos_iff, hlen]; omega), hlen, wordsValue_addLoop, valueFrom_zero,
    valueFrom_zero, Nat.cast_zero, zero_add, wrap_emod, wrap_eq_self (by omega) hfits]

theorem value_not (a : Integer) : a.not.value = -1 - a.value := by
  rw [not, value_new, value]
  induction a.bits with
  | nil => cases a.negative <;> rfl
  | cons w ws ih =>
      have := w.isLt
      rw [List.map_cons, wordsValue, ih, wordsValue, BitVec.toNat_not]
      push_cast [show w.toNat ≤ 2 ^ 32 - 1 by omega]
      omega

theorem value_negate (a : Integer) : a.negate.value = -a.value := by
  rw [negate, value_add, value_not, value_one]
  ring

theorem value_subtract (a b : Integer) : (a.subtract b).value = a.value - b.value := by
  rw [subtract, value_add, value_negate]
  ring

/-! ### Comparison -/

theorem compare_eq (a b : Integer) : a.compare b = (a.value - b.value).sign := by
  have hneg := negative_iff (a.subtract b)
  have hzero := isZero_iff (a.subtract b)
  rw [value_subtract] at hneg hzero
  rw [compare]
  split_ifs with h h'
  · exact (Int.sign_eq_neg_one_of_neg (hneg.1 h)).symm
  · rw [hzero.1 h', Int.sign_zero]
  · have hnonneg := mt hneg.2 h
    have hne := mt hzero.2 h'
    exact (Int.sign_eq_one_of_pos (by omega)).symm

theorem lessThan_iff (a b : Integer) : a.lessThan b = true ↔ a.value < b.value := by
  rw [lessThan, decide_eq_true_iff, compare_eq, Int.sign_neg_iff, sub_neg]

/-- Words that are the same from some index on, and up to it, have the same value. -/
theorem valueFrom_congr {a b : Integer} {n : ℕ} (h : a.valueFrom n = b.valueFrom n)
    (hbits : ∀ i < n, a.getBits i = b.getBits i) : a.value = b.value := by
  induction n with
  | zero => exact h
  | succ n ih =>
      apply ih
      · rw [valueFrom_eq, valueFrom_eq b, h, hbits n (by omega)]
      · exact fun i hi => hbits i (by omega)

theorem equals_iff (a b : Integer) : a.equals b = true ↔ a.value = b.value := by
  constructor
  · intro h
    unfold equals at h
    split_ifs at h with hsign
    rw [ne_eq, not_not] at hsign
    rw [List.all_eq_true] at h
    apply valueFrom_congr (n := max a.bits.length b.bits.length)
    · rw [valueFrom, valueFrom, List.drop_eq_nil_of_le (le_max_left _ _), List.drop_eq_nil_of_le (le_max_right _ _),
        hsign]
    · exact fun i hi => eq_of_beq (h i (List.mem_range.2 hi))
  · intro h
    obtain rfl := eq_of_value_eq h
    simp [equals]

/-- The highest word is not one that the sign repeats. -/
def IsCanonical (n : Integer) : Prop := n.bits.getLast? ≠ some (signWord n.negative)

/-- Sums, differences, negations and complements are exact and canonical again, and the comparisons are those of
the values. -/
theorem arithmetic_exact (a b : Integer) :
    ((a.add b).value = a.value + b.value ∧ (a.add b).IsCanonical) ∧
      ((a.subtract b).value = a.value - b.value ∧ (a.subtract b).IsCanonical) ∧
      (a.negate.value = -a.value ∧ a.negate.IsCanonical) ∧ (a.not.value = -a.value - 1 ∧ a.not.IsCanonical) ∧
      a.compare b = (a.value - b.value).sign ∧ (a.equals b = true ↔ a.value = b.value) := by
  refine ⟨⟨value_add a b, (a.add b).canonical⟩, ⟨value_subtract a b, (a.subtract b).canonical⟩,
    ⟨value_negate a, a.negate.canonical⟩, ⟨?_, a.not.canonical⟩, compare_eq a b, equals_iff a b⟩
  rw [value_not]
  ring

/-! ### Multiplication -/

theorem negative_negate {n : Integer} (h : n.negative = true) : n.negate.negative = false := by
  have hneg := (negative_iff n).1 h
  have := negative_iff n.negate
  rw [value_negate] at this
  cases hn : n.negate.negative with
  | true =>
      have := this.1 hn
      omega
  | false => rfl

def multiply (this other : Integer) : Integer :=
  if this.isZero then zero
  else if other.isZero then zero
  else if this.negative then
    if other.negative then this.negate.multiply other.negate else (this.negate.multiply other).negate
  else if other.negative then (this.multiply other.negate).negate
  else if this.lessThan twoPwr24 && other.lessThan twoPwr24 then
    -- both numbers are small, float multiplication is used
    fromNumber (some (this.toNumber * other.toNumber))
  else multiplyWords this other
termination_by this.negative.toNat + other.negative.toNat
decreasing_by all_goals simp_all [negative_negate]

/-- The number denoted by the first `k` words. -/
def lowWords (n : Integer) (k : ℕ) : ℕ := total (2 ^ 32) k fun j => (n.getBits j).toNat

theorem wordsValue_map_range (f : ℕ → BitVec 32) (n : ℕ) :
    wordsValue false ((List.range n).map f) = total (2 ^ 32) n fun i => (f i).toNat := by
  induction n with
  | zero => rfl
  | succ n ih =>
      rw [List.range_succ, List.map_append, List.map_singleton, wordsValue_concat, ih, total_succ, List.length_map,
        List.length_range, pow_mul]
      push_cast
      rfl

theorem wordsValue_append_zeros (ws : List (BitVec 32)) (n : ℕ) :
    wordsValue false (ws ++ List.replicate n 0) = wordsValue false ws := by
  induction n with
  | zero => rw [List.replicate_zero, List.append_nil]
  | succ n ih =>
      rw [List.replicate_succ', ← List.append_assoc, wordsValue_concat, ih, BitVec.ofNat_eq_ofNat, BitVec.toNat_ofNat]
      simp

/-- The value of an integer that is not negative, from its words. -/
theorem value_eq_lowWords {n : Integer} (h : n.negative = false) : n.value = n.lowWords n.bits.length := by
  have hbits : n.bits = (List.range n.bits.length).map n.getBits := by
    apply List.ext_getElem
    · simp
    · intro i h₁ h₂
      rw [List.getElem_map, List.getElem_range, getBits, List.getD_eq_getElem _ _ h₁]
  rw [value, h]
  nth_rewrite 1 [hbits]
  exact wordsValue_map_range n.getBits n.bits.length

/-! ### Numbers -/

theorem toNumber_eq {n : Integer} (h : n.negative = false) : n.toNumber = n.value := by
  rw [toNumber, if_neg (by simp [h]), value_eq_lowWords h, unsignedNumber, lowWords]
  congr 1
  apply total_congr
  intro i hi
  rw [getBits, List.getD_eq_getElem _ _ hi, List.getD_eq_getElem _ _ hi]

theorem wordsValue_numberWords (v fuel pow : ℕ) (hpow : 0 < pow) (hv : v < pow * 2 ^ (32 * fuel)) :
    wordsValue false (numberWords v fuel pow) = (v / pow : ℕ) := by
  induction fuel generalizing pow with
  | zero =>
      rw [Nat.mul_zero, pow_zero, mul_one] at hv
      rw [Nat.div_eq_of_lt hv]
      rfl
  | succ fuel ih =>
      rw [numberWords]
      split_ifs with hle
      · have hnext : v < pow * 2 ^ 32 * 2 ^ (32 * fuel) := by
          rw [Nat.mul_succ, pow_add] at hv
          calc v < pow * (2 ^ (32 * fuel) * 2 ^ 32) := hv
            _ = pow * 2 ^ 32 * 2 ^ (32 * fuel) := by ring
        rw [wordsValue, ih _ (by positivity) hnext, BitVec.toNat_ofNat, ← Nat.div_div_eq_div_mul]
        generalize v / pow = q
        omega
      · rw [Nat.div_eq_of_lt (by omega)]
        rfl

theorem value_fromNumber (v : ℕ) : (fromNumber (some v)).value = v := by
  rw [fromNumber, if_neg (by omega), value_new, Int.natAbs_natCast, wordsValue_numberWords v _ 1 one_pos, Nat.div_one]
  rw [one_mul]
  exact (Nat.lt_size_self v).trans_le (Nat.pow_le_pow_right (by norm_num) (by omega))

theorem negative_fromNumber (v : ℕ) : (fromNumber (some v)).negative = false := by
  cases hn : (fromNumber (some v)).negative with
  | true =>
      have := value_neg hn
      rw [value_fromNumber] at this
      omega
  | false => rfl

/-- The words are the digits of the value in base `2 ^ 32`. -/
theorem valueFrom_eq_div (n : Integer) (i : ℕ) : n.valueFrom i = n.value / 2 ^ (32 * i) := by
  induction i with
  | zero => rw [valueFrom_zero, Nat.mul_zero, pow_zero, Int.ediv_one]
  | succ i ih =>
      have hstep := valueFrom_eq n i
      have := (n.getBits i).isLt
      rw [Nat.mul_succ, pow_add, ← Int.ediv_ediv_of_nonneg (by positivity), ← ih]
      omega

theorem toNat_getBits {n : Integer} {v : ℕ} (h : n.value = v) (j : ℕ) :
    (n.getBits j).toNat = v / 2 ^ (32 * j) % 2 ^ 32 := by
  have hstep := valueFrom_eq n j
  have := (n.getBits j).isLt
  rw [valueFrom_eq_div, h] at hstep
  have hcast : ((v / 2 ^ (32 * j) : ℕ) : ℤ) = v / 2 ^ (32 * j) := by push_cast; rfl
  rw [← hcast] at hstep
  generalize v / 2 ^ (32 * j) = q at *
  omega

end CqlDriver.Integer
