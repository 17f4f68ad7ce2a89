import Mathlib.Data.Int.Bitwise
import Mathlib.Tactic

/-! # Bits of integers in two's complement

The bits of an integer, of which a negative one has infinitely many that are set, determine it
(`eq_of_testBit_eq`).  The lemmas say which bits a word in front, a product with a power of two, a quotient and a
balanced remainder have. -/

namespace TwosComplement

theorem testBit_eq (v : ℤ) (i : ℕ) : v.testBit i = decide (v / 2 ^ i % 2 = 1) := by
  cases v with
  | ofNat m =>
      rw [Int.testBit, Nat.testBit_eq_decide_div_mod_eq, decide_eq_decide]
      have hdiv : Int.ofNat m / 2 ^ i = ((m / 2 ^ i : ℕ) : ℤ) := by push_cast; rfl
      rw [hdiv]
      omega
  | negSucc m =>
      have hdiv : Int.negSucc m / 2 ^ i = -(((m / 2 ^ i : ℕ) : ℤ) + 1) := by
        rw [Int.negSucc_ediv m (by positivity)]
        push_cast
        rfl
      rw [Int.testBit, Nat.testBit_eq_decide_div_mod_eq, hdiv, ← decide_not, decide_eq_decide]
      omega

theorem testBit_natCast (m i : ℕ) : (m : ℤ).testBit i = m.testBit i := rfl

theorem testBit_zero (i : ℕ) : (0 : ℤ).testBit i = false := Nat.zero_testBit i

theorem testBit_neg_one (i : ℕ) : (-1 : ℤ).testBit i = true := by
  change (!(0 : ℕ).testBit i) = true
  rw [Nat.zero_testBit]
  rfl

/-- A bit above both lengths tells a negative integer from another one. -/
theorem testBit_natCast_ne_negSucc (m n : ℕ) : (m : ℤ).testBit (m + n) ≠ (Int.negSucc n).testBit (m + n) := by
  have hm : m.testBit (m + n) = false :=
    Nat.testBit_lt_two_pow (Nat.lt_two_pow_self.trans_le (Nat.pow_le_pow_right two_pos (Nat.le_add_right m n)))
  have hn : n.testBit (m + n) = false :=
    Nat.testBit_lt_two_pow (Nat.lt_two_pow_self.trans_le (Nat.pow_le_pow_right two_pos (Nat.le_add_left n m)))
  rw [testBit_natCast, Int.testBit, hm, hn]
  decide

theorem eq_of_testBit_eq {a b : ℤ} (h : ∀ i, a.testBit i = b.testBit i) : a = b := by
  cases a with
  | ofNat m =>
      cases b with
      | ofNat n => exact congrArg _ (Nat.eq_of_testBit_eq h)
      | negSucc n => exact absurd (h _) (testBit_natCast_ne_negSucc m n)
  | negSucc m =>
      cases b with
      | ofNat n => exact absurd (h _).symm (testBit_natCast_ne_negSucc n m)
      | negSucc n =>
          congr 1
          apply Nat.eq_of_testBit_eq
          intro i
          simpa [Int.testBit] using h i

/-- The bits of a word of `k` bits in front of an integer. -/
theorem testBit_word_add {w k : ℕ} (hw : w < 2 ^ k) (v : ℤ) (i : ℕ) :
    (w + 2 ^ k * v).testBit i = if i < k then w.testBit i else v.testBit (i - k) := by
  split_ifs with hi
  · have hpow : (2 : ℤ) ^ k = 2 ^ i * (2 * 2 ^ (k - i - 1)) := by
      rw [← pow_succ', ← pow_add]
      congr 1
      omega
    have hdiv : ((w : ℤ) + 2 ^ k * v) / 2 ^ i = w / 2 ^ i + 2 * (2 ^ (k - i - 1) * v) := by
      rw [hpow, mul_assoc, Int.add_mul_ediv_left _ _ (by positivity), mul_assoc]
    rw [← testBit_natCast, testBit_eq, testBit_eq, hdiv, Int.add_mul_emod_self_left]
  · have hpow : (2 : ℤ) ^ i = 2 ^ k * 2 ^ (i - k) := by
      rw [← pow_add]
      congr 1
      omega
    have hquot : ((w : ℤ) + 2 ^ k * v) / 2 ^ k = v := by
      rw [Int.add_mul_ediv_left _ _ (by positivity), Int.ediv_eq_zero_of_lt (by positivity) (by exact_mod_cast hw),
        zero_add]
    rw [testBit_eq, testBit_eq, hpow, ← Int.ediv_ediv_of_nonneg (by positivity), hquot]

theorem testBit_mul_two_pow (v : ℤ) (k i : ℕ) :
    (v * 2 ^ k).testBit i = if i < k then false else v.testBit (i - k) := by
  have h := testBit_word_add (w := 0) (k := k) (by positivity) v i
  rwa [Nat.cast_zero, zero_add, mul_comm, Nat.zero_testBit] at h

theorem testBit_ediv_two_pow (v : ℤ) (k i : ℕ) : (v / 2 ^ k).testBit i = v.testBit (i + k) := by
  rw [testBit_eq, testBit_eq, Int.ediv_ediv_of_nonneg (by positivity), ← pow_add, add_comm k]

/-- The balanced remainder repeats the bit `k`. -/
theorem testBit_bmod_two_pow (v : ℤ) (k i : ℕ) : (v.bmod (2 ^ (k + 1))).testBit i = v.testBit (min i k) := by
  have hpos : (0 : ℤ) < 2 ^ (k + 1) := by positivity
  obtain ⟨w, hw⟩ := Int.eq_ofNat_of_zero_le (Int.emod_nonneg v hpos.ne')
  have hlt : w < 2 ^ (k + 1) := by
    have hemod := Int.emod_lt_of_pos v hpos
    rw [hw] at hemod
    exact_mod_cast hemod
  have hv : v = w + 2 ^ (k + 1) * (v / 2 ^ (k + 1)) := by rw [← hw, Int.emod_add_mul_ediv]
  have hbit : v.testBit (min i k) = w.testBit (min i k) := by
    rw [hv, testBit_word_add hlt, if_pos (by omega)]
  have hhalf : (((2 ^ (k + 1) : ℕ) : ℤ) + 1) / 2 = ((2 ^ k : ℕ) : ℤ) := by
    rw [pow_succ]
    omega
  rw [hbit, Int.bmod_def, hhalf]
  push_cast
  rw [hw]
  split_ifs with hsmall
  · have hk : w.testBit k = false := Nat.testBit_lt_two_pow (by exact_mod_cast hsmall)
    have hsum : (w : ℤ) = w + 2 ^ (k + 1) * 0 := by ring
    rw [hsum, testBit_word_add hlt]
    split_ifs with hi
    · rw [min_eq_left (by omega)]
    · rw [min_eq_right (by omega), hk, testBit_zero]
  · have hk : w.testBit k = true := by
      rw [Nat.testBit_eq_decide_div_mod_eq, decide_eq_true_eq]
      have hge : 2 ^ k ≤ w := by exact_mod_cast not_lt.1 hsmall
      rw [pow_succ] at hlt
      have hdiv : w / 2 ^ k = 1 := Nat.div_eq_of_lt_le (by omega) (by omega)
      omega
    have hsum : (w : ℤ) - 2 ^ (k + 1) = w + 2 ^ (k + 1) * (-1) := by ring
    rw [hsum, testBit_word_add hlt]
    split_ifs with hi
    · rw [min_eq_left (by omega)]
    · rw [min_eq_right (by omega), hk, testBit_neg_one]

end TwosComplement
