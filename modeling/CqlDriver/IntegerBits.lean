import CqlDriver.IntegerArithmetic
import CqlDriver.Lib.TwosComplement

/-! # Bit operations of arbitrary-precision integers (`lib/types/integer.js`)

The operations work word by word, and the sign stands for all the words above.  Bit `i` of a value is bit `i % 32`
of its word `i / 32` (`testBit_value`), so each operation is what its name says on the value in two's complement,
however many words there are (`bitwise_exact`, `shifts_exact`). -/

namespace CqlDriver.Integer

open TwosComplement

/-! ### The operations -/

/-- `getBits`, with an index that may be negative. -/
def getBitsAt (n : Integer) (index : ℤ) : BitVec 32 := if index < 0 then 0 else n.getBits index.toNat

/-- Word by word, for the words that one of the two has. -/
def zipWords (f : BitVec 32 → BitVec 32 → BitVec 32) (g : Bool → Bool → Bool) (this other : Integer) : Integer :=
  new ((List.range (max this.bits.length other.bits.length)).map fun i => f (this.getBits i) (other.getBits i))
    (g this.negative other.negative)

def and (this other : Integer) : Integer := zipWords (· &&& ·) (· && ·) this other

def or (this other : Integer) : Integer := zipWords (· ||| ·) (· || ·) this other

def xor (this other : Integer) : Integer := zipWords (· ^^^ ·) Bool.xor this other

/-- `numBits >> 5` -/
def arrDelta (numBits : ℕ) : ℤ := ((BitVec.ofNat 32 numBits).sshiftRight 5).toInt

/-- The word `i` of a shift to the left. -/
def leftWord (this : Integer) (numBits i : ℕ) : BitVec 32 :=
  if numBits % 32 > 0 then
    this.getBitsAt (i - arrDelta numBits) <<< (numBits % 32) |||
      this.getBitsAt (i - arrDelta numBits - 1) >>> (32 - numBits % 32)
  else this.getBitsAt (i - arrDelta numBits)

def shiftLeft (this : Integer) (numBits : ℕ) : Integer :=
  let len := this.bits.length + arrDelta numBits + (if numBits % 32 > 0 then 1 else 0)
  new ((List.range len.toNat).map (this.leftWord numBits)) this.negative

/-- The word `i` of a shift to the right. -/
def rightWord (this : Integer) (numBits i : ℕ) : BitVec 32 :=
  if numBits % 32 > 0 then
    this.getBitsAt (i + arrDelta numBits) >>> (numBits % 32) |||
      this.getBitsAt (i + arrDelta numBits + 1) <<< (32 - numBits % 32)
  else this.getBitsAt (i + arrDelta numBits)

def shiftRight (this : Integer) (numBits : ℕ) : Integer :=
  let len := this.bits.length - arrDelta numBits
  new ((List.range len.toNat).map (this.rightWord numBits)) this.negative

/-- The mask of the bits up to `bitIndex`. -/
def sigBits (bitIndex : ℕ) : BitVec 32 :=
  if bitIndex = 31 then BitVec.allOnes 32 else (1 <<< (bitIndex + 1)) - 1

/-- The sign is extended from the bit `numBits - 1`. -/
def shorten (this : Integer) (numBits : ℕ) : Integer :=
  let arrIndex := arrDelta (numBits - 1)
  let bitIndex := (numBits - 1) % 32
  let bits := (List.range arrIndex.toNat).map this.getBits
  let val := this.getBitsAt arrIndex &&& sigBits bitIndex
  if val &&& (1 <<< bitIndex) ≠ 0 then new (bits ++ [val ||| (BitVec.allOnes 32 - sigBits bitIndex)]) true
  else new (bits ++ [val]) false

def abs (this : Integer) : Integer := if this.negative then this.negate else this

def isOdd (this : Integer) : Bool :=
  (this.bits.length == 0 && this.negative) || (decide (this.bits.length > 0) && (this.bits.headD 0 &&& 1) != 0)

/-! ### Bits of a value -/

theorem getLsbD_signWord (negative : Bool) {j : ℕ} (hj : j < 32) : (signWord negative).getLsbD j = negative := by
  cases negative with
  | false => exact BitVec.getLsbD_zero
  | true => rw [signWord, if_pos rfl, BitVec.getLsbD_allOnes, decide_eq_true hj]

theorem testBit_wordsValue (negative : Bool) (ws : List (BitVec 32)) (i : ℕ) :
    (wordsValue negative ws).testBit i = (ws.getD (i / 32) (signWord negative)).getLsbD (i % 32) := by
  induction ws generalizing i with
  | nil =>
      rw [List.getD_nil, getLsbD_signWord negative (Nat.mod_lt i (by decide))]
      cases negative with
      | false => exact testBit_zero i
      | true => exact testBit_neg_one i
  | cons w ws ih =>
      rw [wordsValue, testBit_word_add w.isLt, ih]
      split_ifs with hi
      · rw [Nat.div_eq_of_lt hi, Nat.mod_eq_of_lt hi]
        rfl
      · have hdiv : i / 32 = (i - 32) / 32 + 1 := by omega
        have hmod : i % 32 = (i - 32) % 32 := by omega
        rw [hdiv, hmod, List.getD_cons_succ]

theorem testBit_value (n : Integer) (i : ℕ) : n.value.testBit i = (n.getBits (i / 32)).getLsbD (i % 32) :=
  testBit_wordsValue n.negative n.bits i

/-- The bits of an integer that is made of the words `f 0, …, f (len - 1)`. -/
theorem testBit_new (f : ℕ → BitVec 32) (len : ℕ) (negative : Bool) (i : ℕ) :
    (new ((List.range len).map f) negative).value.testBit i =
      if i / 32 < len then (f (i / 32)).getLsbD (i % 32) else negative := by
  rw [value_new, testBit_wordsValue]
  split_ifs with hi
  · rw [List.getD_eq_getElem _ _ (by simpa using hi), List.getElem_map, List.getElem_range]
  · rw [List.getD_eq_default _ _ (by simpa using hi), getLsbD_signWord negative (Nat.mod_lt i (by decide))]

/-- Above its words an integer has its sign. -/
theorem getLsbD_getBits_of_le {n : Integer} {index : ℕ} (h : n.bits.length ≤ index) {j : ℕ} (hj : j < 32) :
    (n.getBits index).getLsbD j = n.negative := by
  rw [getBits, List.getD_eq_default _ _ h, getLsbD_signWord _ hj]

theorem testBit_zipWords (f : BitVec 32 → BitVec 32 → BitVec 32) {g : Bool → Bool → Bool}
    (hfg : ∀ a b : BitVec 32, ∀ j < 32, (f a b).getLsbD j = g (a.getLsbD j) (b.getLsbD j)) (a b : Integer) (i : ℕ) :
    (zipWords f g a b).value.testBit i = g (a.value.testBit i) (b.value.testBit i) := by
  have hi : i % 32 < 32 := Nat.mod_lt i (by decide)
  rw [zipWords, testBit_new, testBit_value, testBit_value]
  split_ifs with hlt
  · exact hfg _ _ _ hi
  · rw [getLsbD_getBits_of_le (by omega) hi, getLsbD_getBits_of_le (by omega) hi]

theorem value_and (a b : Integer) : (a.and b).value = Int.land a.value b.value := by
  apply eq_of_testBit_eq
  intro i
  rw [and, testBit_zipWords _ (fun _ _ _ _ => BitVec.getLsbD_and), Int.testBit_land]

theorem value_or (a b : Integer) : (a.or b).value = Int.lor a.value b.value := by
  apply eq_of_testBit_eq
  intro i
  rw [or, testBit_zipWords _ (fun _ _ _ _ => BitVec.getLsbD_or), Int.testBit_lor]

theorem value_xor (a b : Integer) : (a.xor b).value = Int.xor a.value b.value := by
  apply eq_of_testBit_eq
  intro i
  rw [xor, testBit_zipWords _ (fun _ _ _ _ => BitVec.getLsbD_xor), Int.testBit_lxor]

theorem and_one_shiftLeft_ne_zero {w : BitVec 32} {j : ℕ} (hj : j < 32) : w &&& (1 <<< j) ≠ 0 ↔ w.getLsbD j = true := by
  have hone : (1 <<< j : BitVec 32) = BitVec.twoPow 32 j := (BitVec.twoPow_eq 32 j).symm
  have hpow : BitVec.twoPow 32 j ≠ 0 := by
    intro hzero
    have hnat := congrArg BitVec.toNat hzero
    rw [BitVec.toNat_twoPow_of_lt hj] at hnat
    exact (Nat.two_pow_pos j).ne' hnat
  rw [hone, BitVec.and_twoPow]
  split_ifs with hbit
  · exact iff_of_true hpow hbit
  · exact iff_of_false (fun hne => hne rfl) hbit

/-- The operations on words are those on the values in two's complement. -/
theorem bitwise_exact (a b : Integer) :
    (a.and b).value = Int.land a.value b.value ∧ (a.or b).value = Int.lor a.value b.value ∧
      (a.xor b).value = Int.xor a.value b.value ∧ a.not.value = Int.lnot a.value := by
  refine ⟨value_and a b, value_or a b, value_xor a b, ?_⟩
  rw [value_not]
  cases a.value with
  | ofNat m => rw [Int.lnot, Int.ofNat_eq_natCast, Int.negSucc_eq]; ring
  | negSucc m => rw [Int.lnot, Int.negSucc_eq]; ring

theorem isOdd_iff (n : Integer) : n.isOdd = true ↔ n.value % 2 = 1 := by
  have hbit : n.isOdd = n.value.testBit 0 := by
    rw [testBit_value, getBits, isOdd]
    cases hbits : n.bits with
    | nil =>
        rw [List.getD_nil, getLsbD_signWord n.negative (by decide)]
        simp
    | cons w ws =>
        have hone : w &&& 1 ≠ 0 ↔ w.getLsbD 0 = true := and_one_shiftLeft_ne_zero (w := w) (j := 0) (by decide)
        change (false && n.negative || (true && w &&& 1 != 0)) = w.getLsbD 0
        rw [Bool.false_and, Bool.false_or, Bool.true_and, Bool.eq_iff_iff, bne_iff_ne]
        exact hone
  rw [hbit, testBit_eq, pow_zero, Int.ediv_one, decide_eq_true_eq]

theorem value_abs (n : Integer) : n.abs.value = |n.value| := by
  rw [abs]
  split_ifs with hneg
  · rw [value_negate, abs_of_neg (value_neg hneg)]
  · rw [abs_of_nonneg (value_nonneg (Bool.eq_false_iff.2 hneg))]

/-! ### Shifts -/

theorem arrDelta_eq {numBits : ℕ} (h : numBits < 2 ^ 31) : arrDelta numBits = (numBits / 32 : ℕ) := by
  have hmsb : (BitVec.ofNat 32 numBits).msb = false := by
    rw [BitVec.msb_eq_false_iff_two_mul_lt, BitVec.toNat_ofNat, Nat.mod_eq_of_lt (by omega)]
    omega
  rw [arrDelta, BitVec.toInt_sshiftRight, BitVec.toInt_eq_toNat_of_msb hmsb, BitVec.toNat_ofNat,
    Nat.mod_eq_of_lt (by omega), Int.shiftRight_eq_div_pow]
  norm_num

theorem getLsbD_getBitsAt (n : Integer) (index : ℤ) {j : ℕ} (hj : j < 32) :
    (n.getBitsAt index).getLsbD j = if index < 0 then false else n.value.testBit (32 * index.toNat + j) := by
  rw [getBitsAt]
  split_ifs with hneg
  · exact BitVec.getLsbD_zero
  · rw [testBit_value]
    congr 2 <;> omega

/-- Above its words an integer repeats its sign. -/
theorem testBit_of_le (n : Integer) {i : ℕ} (h : 32 * n.bits.length ≤ i) : n.value.testBit i = n.negative := by
  rw [testBit_value, getLsbD_getBits_of_le (by omega) (Nat.mod_lt i (by decide))]

theorem getLsbD_leftWord (n : Integer) {numBits : ℕ} (h : numBits < 2 ^ 31) (i : ℕ) :
    (n.leftWord numBits (i / 32)).getLsbD (i % 32) = if i < numBits then false else n.value.testBit (i - numBits) := by
  have hi : i % 32 < 32 := Nat.mod_lt i (by decide)
  rw [leftWord, arrDelta_eq h]
  by_cases hbits : numBits % 32 > 0
  · rw [if_pos hbits, BitVec.getLsbD_or, BitVec.getLsbD_shiftLeft, BitVec.getLsbD_ushiftRight]
    by_cases hlow : i % 32 < numBits % 32
    -- the bit comes from the top of the word below
    · rw [decide_eq_true hlow, Bool.not_true, Bool.and_false, Bool.false_and, Bool.false_or,
        getLsbD_getBitsAt n _ (by omega)]
      split_ifs with hneg hlt hlt
      · rfl
      · omega
      · omega
      · congr 1
        omega
    · rw [decide_eq_true hi, decide_eq_false hlow, Bool.not_false, Bool.true_and, Bool.true_and,
        getLsbD_getBitsAt n _ (by omega), BitVec.getLsbD_of_ge _ _ (by omega), Bool.or_false]
      split_ifs with hneg hlt hlt
      · rfl
      · omega
      · omega
      · congr 1
        omega
  · rw [if_neg hbits, getLsbD_getBitsAt n _ hi]
    split_ifs with hneg hlt hlt
    · rfl
    · omega
    · omega
    · congr 1
      omega

theorem value_shiftLeft (n : Integer) {numBits : ℕ} (h : numBits < 2 ^ 31) :
    (n.shiftLeft numBits).value = n.value * 2 ^ numBits := by
  apply eq_of_testBit_eq
  intro i
  simp only [shiftLeft]
  rw [testBit_new, testBit_mul_two_pow, getLsbD_leftWord n h, arrDelta_eq h, ite_eq_left_iff]
  intro hlen
  rw [if_neg, testBit_of_le]
  all_goals
    split_ifs at hlen <;> omega

theorem getLsbD_rightWord (n : Integer) {numBits : ℕ} (h : numBits < 2 ^ 31) (i : ℕ) :
    (n.rightWord numBits (i / 32)).getLsbD (i % 32) = n.value.testBit (i + numBits) := by
  have hi : i % 32 < 32 := Nat.mod_lt i (by decide)
  rw [rightWord, arrDelta_eq h]
  by_cases hbits : numBits % 32 > 0
  · rw [if_pos hbits, BitVec.getLsbD_or, BitVec.getLsbD_shiftLeft, BitVec.getLsbD_ushiftRight]
    by_cases hlow : i % 32 < 32 - numBits % 32
    · rw [decide_eq_true hlow, Bool.not_true, Bool.and_false, Bool.false_and, Bool.or_false,
        getLsbD_getBitsAt n _ (by omega), if_neg (by omega)]
      congr 1
      omega
    -- the bit comes from the bottom of the word above
    · rw [BitVec.getLsbD_of_ge _ (numBits % 32 + i % 32) (by omega), Bool.false_or, decide_eq_true hi,
        decide_eq_false hlow, Bool.not_false, Bool.true_and, Bool.true_and, getLsbD_getBitsAt n _ (by omega),
        if_neg (by omega)]
      congr 1
      omega
  · rw [if_neg hbits, getLsbD_getBitsAt n _ hi, if_neg (by omega)]
    congr 1
    omega

theorem value_shiftRight (n : Integer) {numBits : ℕ} (h : numBits < 2 ^ 31) :
    (n.shiftRight numBits).value = n.value / 2 ^ numBits := by
  apply eq_of_testBit_eq
  intro i
  simp only [shiftRight]
  rw [testBit_new, testBit_ediv_two_pow, getLsbD_rightWord n h, arrDelta_eq h, ite_eq_left_iff]
  intro hlen
  rw [testBit_of_le]
  omega

/-! ### Shortening -/

theorem getLsbD_sigBits {bitIndex j : ℕ} (hb : bitIndex < 32) (hj : j < 32) :
    (sigBits bitIndex).getLsbD j = decide (j ≤ bitIndex) := by
  have hall : ∀ b < 32, ∀ j < 32, (sigBits b).getLsbD j = decide (j ≤ b) := by
    decide +kernel
  exact hall bitIndex hb j hj

theorem testBit_new_concat (f : ℕ → BitVec 32) (len : ℕ) (top : BitVec 32) (negative : Bool) (i : ℕ) :
    (new ((List.range len).map f ++ [top]) negative).value.testBit i =
      if i / 32 < len then (f (i / 32)).getLsbD (i % 32)
      else if i / 32 = len then top.getLsbD (i % 32) else negative := by
  have hwords : (List.range len).map f ++ [top] = (List.range (len + 1)).map fun i => if i < len then f i else top := by
    rw [List.range_succ, List.map_append, List.map_singleton, if_neg (lt_irrefl len)]
    congr 1
    apply List.map_congr_left
    intro i hi
    rw [if_pos (List.mem_range.1 hi)]
  rw [hwords, testBit_new]
  split_ifs <;> first | rfl | omega

/-- The bit of the top word that `shorten` keeps. -/
theorem getLsbD_and_sigBits (n : Integer) {k j : ℕ} (hj : j < 32) :
    (n.getBitsAt (k / 32 : ℕ) &&& sigBits (k % 32)).getLsbD j =
      (n.value.testBit (32 * (k / 32) + j) && decide (j ≤ k % 32)) := by
  rw [BitVec.getLsbD_and, getLsbD_sigBits (Nat.mod_lt k (by decide)) hj, getLsbD_getBitsAt n _ hj,
    if_neg (by omega), Int.toNat_natCast]

theorem value_shorten (n : Integer) {numBits : ℕ} (hpos : 0 < numBits) (h : numBits < 2 ^ 31) :
    (n.shorten numBits).value = n.value.bmod (2 ^ numBits) := by
  obtain ⟨k, rfl⟩ : ∃ k : ℕ, numBits = k + 1 := ⟨numBits - 1, by omega⟩
  have hk : k % 32 < 32 := Nat.mod_lt k (by decide)
  apply eq_of_testBit_eq
  intro i
  have hi : i % 32 < 32 := Nat.mod_lt i (by decide)
  rw [testBit_bmod_two_pow]
  simp only [shorten, Nat.add_sub_cancel, arrDelta_eq (show k < 2 ^ 31 by omega), Int.toNat_natCast]
  have htop := and_one_shiftLeft_ne_zero (w := n.getBitsAt (k / 32 : ℕ) &&& sigBits (k % 32)) hk
  rw [getLsbD_and_sigBits n hk, decide_eq_true le_rfl, Bool.and_true, Nat.div_add_mod] at htop
  by_cases hset : n.value.testBit k = true
  · rw [if_pos (htop.2 hset), testBit_new_concat]
    split_ifs with hlow heq
    · rw [min_eq_left (by omega), testBit_value]
    · rw [BitVec.getLsbD_or, getLsbD_and_sigBits n hi, BitVec.allOnes_sub_eq_not, BitVec.getLsbD_not,
        getLsbD_sigBits hk hi, decide_eq_true hi]
      by_cases hle : i % 32 ≤ k % 32
      · rw [min_eq_left (by omega), decide_eq_true hle, Bool.and_true, Bool.not_true, Bool.and_false, Bool.or_false,
          ← heq, Nat.div_add_mod]
      · rw [min_eq_right (by omega), hset, decide_eq_false hle, Bool.not_false, Bool.and_true, Bool.or_true]
    · rw [min_eq_right (by omega), hset]
  · rw [if_neg (fun hne => hset (htop.1 hne)), testBit_new_concat]
    split_ifs with hlow heq
    · rw [min_eq_left (by omega), testBit_value]
    · rw [getLsbD_and_sigBits n hi]
      by_cases hle : i % 32 ≤ k % 32
      · rw [min_eq_left (by omega), decide_eq_true hle, Bool.and_true, ← heq, Nat.div_add_mod]
      · rw [min_eq_right (by omega), decide_eq_false hle, Bool.and_false, Bool.eq_false_iff.2 hset]
    · rw [min_eq_right (by omega), Bool.eq_false_iff.2 hset]

/-- The shifts and `shorten` multiply, divide and reduce by a power of two. -/
theorem shifts_exact (n : Integer) {numBits : ℕ} (hpos : 0 < numBits) (h : numBits < 2 ^ 31) :
    (n.shiftLeft numBits).value = n.value * 2 ^ numBits ∧ (n.shiftRight numBits).value = n.value / 2 ^ numBits ∧
      (n.shorten numBits).value = n.value.bmod (2 ^ numBits) :=
  ⟨value_shiftLeft n h, value_shiftRight n h, value_shorten n hpos h⟩

theorem shifts_exact_thirtyFive :
    ((new [5, 0xfffffff0] true).shiftLeft 35).value = (new [5, 0xfffffff0] true).value * 2 ^ 35 ∧
      ((new [5, 0xfffffff0] true).shiftRight 35).value = (new [5, 0xfffffff0] true).value / 2 ^ 35 ∧
      ((new [5, 0xfffffff0] true).shorten 35).value = (new [5, 0xfffffff0] true).value.bmod (2 ^ 35) :=
  shifts_exact _ (by decide) (by decide)

end CqlDriver.Integer
