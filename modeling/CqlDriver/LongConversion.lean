import CqlDriver.Lib.MachineInt
import CqlDriver.ResultsWrapper

/-! # BigInts and Longs (`bigintToLong`, `longToBigint` of `lib/new-utils.js`)

A `Long` holds the two halves of a 64-bit integer as int32 values, so that its low word may be negative.  `%` and `/` of
BigInts truncate: `bigintToLong` corrects the high word of a negative number, and `longToBigint` adds `2 ^ 32` for a
negative low word.  The two are inverse on the 64-bit integers (`bigint_long_inverse`). -/

namespace CqlDriver.LongConversion

open MachineInt

/-- The fields of a `Long`, of which the words are int32 values. -/
structure Long where
  low : ℤ
  high : ℤ
  unsigned : Bool
  low_fits : Fits 32 low
  high_fits : Fits 32 high

theorem fits_wrap32 (x : ℤ) : Fits 32 (wrap 32 x) := by
  have hlow := Int.le_bmod (x := x) (m := 2 ^ 32) (by norm_num)
  have hhigh := Int.bmod_lt (x := x) (m := 2 ^ 32) (by norm_num)
  norm_num at hlow hhigh
  refine ⟨?_, ?_⟩
  · rw [wrap]
    norm_num
    exact hlow
  · rw [wrap]
    norm_num
    exact hhigh

namespace Long

/-- `Long.fromValue` reduces the words with `| 0`. -/
def fromValue (low high : ℤ) (unsigned : Bool) : Long :=
  ⟨wrap 32 low, wrap 32 high, unsigned, fits_wrap32 low, fits_wrap32 high⟩

@[simp] theorem low_fromValue (low high : ℤ) (unsigned : Bool) : (fromValue low high unsigned).low = wrap 32 low := rfl

@[simp] theorem high_fromValue (low high : ℤ) (unsigned : Bool) :
    (fromValue low high unsigned).high = wrap 32 high := rfl

/-- A Long whose words are what they should be is the one made of them. -/
theorem eq_fromValue {l : Long} {low high : ℤ} (hlow : l.low = wrap 32 low) (hhigh : l.high = wrap 32 high) :
    l = fromValue low high l.unsigned := by
  cases l
  subst hlow hhigh
  rfl

/-- The words as one word of 64 bits. -/
def bits (l : Long) : BitVec 64 := BitVec.ofInt 32 l.high ++ BitVec.ofInt 32 l.low

end Long

def maxInt : ℤ := 0x100000000

def minusOne : ℤ := -1

/-- `Number` is exact on both halves of a 64-bit BigInt. -/
def bigintToLong (n : ℤ) : Long :=
  let lo := n.tmod maxInt
  let hi := n.tdiv maxInt
  let hi := if lo < 0 then hi + minusOne else hi
  Long.fromValue lo hi false

def longToBigint (l : Long) : ℤ :=
  let lo := l.low
  let hi := l.high
  let r := lo + maxInt * hi
  if lo < 0 then r + maxInt else r

/-! ### The words -/

/-- The corrected quotient is rounded down. -/
theorem tdiv_corrected (n : ℤ) :
    (if n.tmod maxInt < 0 then n.tdiv maxInt + minusOne else n.tdiv maxInt) = n / maxInt := by
  have hdiv := Int.mul_tdiv_add_tmod n maxInt
  have hlt := Int.tmod_lt_of_pos n (show (0 : ℤ) < maxInt by decide)
  have hgt := Int.lt_tmod_of_pos n (show (0 : ℤ) < maxInt by decide)
  simp only [maxInt, minusOne] at *
  split_ifs
  · omega
  · omega

theorem wrap_tmod (n : ℤ) : wrap 32 (n.tmod maxInt) = wrap 32 n := by
  have hdiv := Int.mul_tdiv_add_tmod n maxInt
  have hmod : n.tmod maxInt % 2 ^ 32 = n % 2 ^ 32 := by
    simp only [maxInt] at *
    omega
  rw [← wrap_emod, hmod, wrap_emod]

theorem bigintToLong_eq (n : ℤ) : bigintToLong n = Long.fromValue n (n / maxInt) false := by
  have hcorrected := tdiv_corrected n
  have hlow := wrap_tmod n
  unfold bigintToLong Long.fromValue
  simp only [hcorrected, hlow]

/-- The correction of the low word gives its value without a sign. -/
theorem longToBigint_eq (l : Long) : longToBigint l = l.low % maxInt + maxInt * l.high := by
  obtain ⟨hge, hlt⟩ := l.low_fits
  norm_num at hge hlt
  unfold longToBigint
  simp only [maxInt]
  split_ifs
  · omega
  · omega

/-- The remainder of a wrapped number is that of the number. -/
theorem wrap32_emod (n : ℤ) : wrap 32 n % maxInt = n % maxInt :=
  Int.bmod_emod ..

theorem wrap32_high {n : ℤ} (hn : Fits 64 n) : wrap 32 (n / maxInt) = n / maxInt := by
  obtain ⟨hge, hlt⟩ := hn
  norm_num at hge hlt
  apply wrap32_eq_self
  · rw [maxInt]
    omega
  · rw [maxInt]
    omega

theorem fits_longToBigint (l : Long) : Fits 64 (longToBigint l) := by
  obtain ⟨hge, hlt⟩ := l.high_fits
  rw [longToBigint_eq]
  norm_num [Fits, maxInt] at *
  omega

/-! ### The halves of the two's complement -/

theorem toNat_ofInt64 (n : ℤ) : ((BitVec.ofInt 64 n).toNat : ℤ) = n % 2 ^ 64 := by
  rw [BitVec.toNat_ofInt]
  norm_num
  omega

theorem toInt_low (n : ℤ) : ((BitVec.ofInt 64 n).setWidth 32).toInt = wrap 32 n := by
  have hmod : n % 2 ^ 64 % 2 ^ 32 = n % 2 ^ 32 := by omega
  rw [BitVec.toInt_setWidth, toNat_ofInt64]
  change wrap 32 _ = _
  rw [← wrap_emod, hmod, wrap_emod]

theorem toInt_high (n : ℤ) : ((BitVec.ofInt 64 n).extractLsb' 32 32).toInt = wrap 32 (n / maxInt) := by
  have hmod : n % 2 ^ 64 / 2 ^ 32 % 2 ^ 32 = n / maxInt % 2 ^ 32 := by
    rw [maxInt]
    omega
  have hshift : (((BitVec.ofInt 64 n).toNat >>> 32 : ℕ) : ℤ) = n % 2 ^ 64 / 2 ^ 32 := by
    rw [Nat.shiftRight_eq_div_pow, Int.natCast_ediv, toNat_ofInt64]
    norm_num
  rw [BitVec.toInt_extractLsb', hshift]
  change wrap 32 _ = _
  rw [← wrap_emod, hmod, wrap_emod]

theorem longToBigint_bigintToLong {n : ℤ} (hn : Fits 64 n) : longToBigint (bigintToLong n) = n := by
  rw [bigintToLong_eq, longToBigint_eq, Long.low_fromValue, Long.high_fromValue, wrap32_emod, wrap32_high hn]
  exact Int.emod_add_mul_ediv n maxInt

theorem bigintToLong_longToBigint {l : Long} (hl : l.unsigned = false) : bigintToLong (longToBigint l) = l := by
  obtain ⟨hge, hlt⟩ := l.low_fits
  obtain ⟨hge', hlt'⟩ := l.high_fits
  norm_num at hge hlt hge' hlt'
  have hhigh : (l.low % maxInt + maxInt * l.high) / maxInt = l.high := by
    rw [maxInt]
    omega
  have hlow : (l.low % maxInt + maxInt * l.high) % 2 ^ 32 = l.low % 2 ^ 32 := by
    rw [maxInt]
    omega
  rw [bigintToLong_eq, longToBigint_eq, ← hl]
  symm
  apply Long.eq_fromValue
  · rw [← wrap_emod, hlow, wrap_emod, wrap32_eq_self hge hlt]
  · rw [hhigh, wrap32_eq_self hge' hlt']

/-- Between the 64-bit integers and the signed Longs the two conversions are inverse. -/
theorem bigint_long_inverse :
    (∀ n, Fits 64 n → (bigintToLong n).low = ((BitVec.ofInt 64 n).setWidth 32).toInt ∧
      (bigintToLong n).high = ((BitVec.ofInt 64 n).extractLsb' 32 32).toInt ∧
      (bigintToLong n).unsigned = false ∧ longToBigint (bigintToLong n) = n) ∧
    ∀ l : Long, l.unsigned = false → Fits 64 (longToBigint l) ∧ bigintToLong (longToBigint l) = l := by
  refine ⟨fun n hn => ?_, fun l hl => ⟨fits_longToBigint l, bigintToLong_longToBigint hl⟩⟩
  refine ⟨?_, ?_, rfl, longToBigint_bigintToLong hn⟩
  · rw [toInt_low, bigintToLong_eq, Long.low_fromValue]
  · rw [toInt_high, bigintToLong_eq, Long.high_fromValue]

theorem bigint_long_inverse_min : longToBigint (bigintToLong (-2 ^ 63)) = -2 ^ 63 :=
  (bigint_long_inverse.1 (-2 ^ 63) (by decide)).2.2.2

/-! ### The Longs of the results

The values of a result are converted by the same function; there a `Long` is its 64 bits. -/

theorem ofInt_wrap32 (x : ℤ) : BitVec.ofInt 32 (wrap 32 x) = BitVec.ofInt 32 x := by
  apply BitVec.eq_of_toInt_eq
  rw [BitVec.toInt_ofInt, BitVec.toInt_ofInt]
  exact Int.bmod_bmod

theorem bits_bigintToLong (n : ℤ) : (bigintToLong n).bits = ResultsWrapper.bigintToLong n := by
  unfold bigintToLong Long.bits Long.fromValue ResultsWrapper.bigintToLong
  rw [ofInt_wrap32, ofInt_wrap32]
  rfl

/-- A signed `Long` denotes the number that its 64 bits denote. -/
theorem longToBigint_bits {l : Long} (hl : l.unsigned = false) : longToBigint l = l.bits.toInt := by
  obtain ⟨hfits, hinv⟩ : Fits 64 (longToBigint l) ∧ (bigintToLong (longToBigint l)).bits = l.bits :=
    ⟨fits_longToBigint l, congrArg Long.bits (bigintToLong_longToBigint hl)⟩
  rw [← hinv, bits_bigintToLong, ResultsWrapper.bigintToLong_eq, BitVec.toInt_ofInt]
  exact (wrap_eq_self (by norm_num) hfits).symm

end CqlDriver.LongConversion
