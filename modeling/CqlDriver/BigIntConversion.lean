import CqlDriver.Lib.MachineInt

/-! # BigInts as 64-bit integers (`src/utils/mod.rs`)

A BigInt comes from JavaScript as a sign and its words, least significant first.  `bigintToI64` looks at the number of
words and at the first one.  The least 64-bit integer is told by the sign and the first word alone, so that a negative
BigInt of several words is taken for it when its first word is `2 ^ 63` (`converts_iff`). -/

namespace CqlDriver

open MachineInt

/-- A BigInt without redundant zero words at the top. -/
structure BigInt where
  signBit : Bool
  words : List (BitVec 64)
  nonempty : words ≠ []
  normal : words.length ≠ 1 → words.getLast? ≠ some 0
deriving DecidableEq

/-- The number of words, least significant first. -/
def wordsNumber : List (BitVec 64) → ℕ
  | [] => 0
  | w :: ws => w.toNat + 2 ^ 64 * wordsNumber ws

def BigInt.value (b : BigInt) : ℤ := if b.signBit then -wordsNumber b.words else wordsNumber b.words

/-- `i64::MAX as u64` -/
def i64Max : BitVec 64 := BitVec.ofNat 64 (2 ^ 63 - 1)

/-- `i64::MIN`, which is its own absolute value as a `u64`. -/
def i64Min : BitVec 64 := BitVec.ofNat 64 (2 ^ 63)

/-- The error is the message that it is made of. -/
def bigintToI64 (value : BigInt) (errorMsg : String) : Except String (BitVec 64) :=
  if value.words.length ≠ 1 ∨ i64Max < value.words.headD 0 then
    if value.signBit ∧ value.words.headD 0 = i64Min then .ok i64Min else .error errorMsg
  else .ok (value.words.headD 0 * if value.signBit then -1 else 1)

/-- A BigInt in the range of 64 bits is converted to the same integer, and another one is refused. -/
structure BigInt.Converts (b : BigInt) (errorMsg : String) : Prop where
  fits : Fits 64 b.value → ∃ v, bigintToI64 b errorMsg = .ok v ∧ v.toInt = b.value
  overflow : ¬ Fits 64 b.value → bigintToI64 b errorMsg = .error errorMsg

namespace BigInt

/-- The least 64-bit integer is told by the sign and the first of several words. -/
def LooksMin (b : BigInt) : Prop := b.signBit = true ∧ b.words.headD 0 = i64Min ∧ 1 < b.words.length

instance (b : BigInt) : Decidable b.LooksMin := inferInstanceAs (Decidable (_ ∧ _ ∧ _))

theorem wordsNumber_pos {ws : List (BitVec 64)} (hne : ws ≠ []) (hlast : ws.getLast? ≠ some 0) :
    0 < wordsNumber ws := by
  induction ws with
  | nil => exact absurd rfl hne
  | cons w ws ih =>
      rw [wordsNumber]
      cases ws with
      | nil =>
          rw [List.getLast?_singleton, ne_eq, Option.some.injEq, ← BitVec.toNat_inj] at hlast
          have hzero : (0 : BitVec 64).toNat = 0 := rfl
          omega
      | cons v vs =>
          have := ih (by simp) (by rwa [List.getLast?_cons_cons] at hlast)
          omega

/-- A BigInt of one word, or one beyond all words. -/
theorem one_word_or (b : BigInt) :
    (∃ w, b.words = [w]) ∨ (1 < b.words.length ∧ 2 ^ 64 ≤ wordsNumber b.words) := by
  cases hws : b.words with
  | nil => exact absurd hws b.nonempty
  | cons w ws =>
      cases ws with
      | nil => exact Or.inl ⟨w, rfl⟩
      | cons v vs =>
          have hlast := b.normal (by simp [hws])
          rw [hws, List.getLast?_cons_cons] at hlast
          have hpos := wordsNumber_pos (by simp) hlast
          refine Or.inr ⟨by simp, ?_⟩
          rw [wordsNumber]
          omega

theorem i64Max_lt_iff (w : BitVec 64) : i64Max < w ↔ 2 ^ 63 ≤ w.toNat := by
  rw [BitVec.lt_def, i64Max, BitVec.toNat_ofNat]
  omega

theorem eq_i64Min_iff (w : BitVec 64) : w = i64Min ↔ w.toNat = 2 ^ 63 := by
  rw [← BitVec.toNat_inj, i64Min, BitVec.toNat_ofNat]
  norm_num

theorem toInt_i64Min : i64Min.toInt = -2 ^ 63 := by decide

theorem toInt_word {w : BitVec 64} (hw : w.toNat < 2 ^ 63) (signBit : Bool) :
    (w * if signBit then -1 else 1).toInt = if signBit then -(w.toNat : ℤ) else w.toNat := by
  have hint : w.toInt = w.toNat := BitVec.toInt_eq_toNat_of_lt (by omega)
  have hone : w * 1 = w := BitVec.mul_one w
  cases signBit with
  | false => rw [if_neg (by decide), if_neg (by decide), hone, hint]
  | true =>
      rw [if_pos rfl, if_pos rfl, BitVec.mul_neg, hone, BitVec.toInt_neg, hint]
      exact wrap_eq_self (by norm_num) ⟨by omega, by omega⟩

/-- One word is converted as it should be. -/
theorem converts_word {b : BigInt} {w : BitVec 64} (hw : b.words = [w]) (errorMsg : String) :
    b.Converts errorMsg := by
  have hvalue : b.value = if b.signBit then -(w.toNat : ℤ) else w.toNat := by
    rw [value, hw, wordsNumber, wordsNumber, Nat.mul_zero, Nat.add_zero]
  have hconv : bigintToI64 b errorMsg = if 2 ^ 63 ≤ w.toNat then
      if b.signBit ∧ w.toNat = 2 ^ 63 then .ok i64Min else .error errorMsg
      else .ok (w * if b.signBit then -1 else 1) := by
    simp only [bigintToI64, hw, List.length_singleton, ne_eq, not_true, false_or, List.headD_cons, i64Max_lt_iff,
      eq_i64Min_iff]
  have hlt := w.isLt
  by_cases hbig : 2 ^ 63 ≤ w.toNat
  · rw [if_pos hbig] at hconv
    by_cases hmin : b.signBit ∧ w.toNat = 2 ^ 63
    · rw [if_pos hmin] at hconv
      rw [if_pos hmin.1] at hvalue
      refine ⟨fun _ => ⟨i64Min, hconv, ?_⟩, fun hover => ?_⟩
      · rw [toInt_i64Min]
        omega
      · exact absurd (show Fits 64 b.value by rw [Fits]; omega) hover
    · rw [if_neg hmin] at hconv
      refine ⟨fun hfits => ?_, fun _ => hconv⟩
      rw [Fits, hvalue] at hfits
      split_ifs at hfits with hsign
      · exact absurd ⟨hsign, by omega⟩ hmin
      · omega
  · rw [if_neg hbig] at hconv
    refine ⟨fun _ => ⟨_, hconv, ?_⟩, fun hover => ?_⟩
    · rw [toInt_word (by omega), hvalue]
    · exact absurd (show Fits 64 b.value by rw [Fits]; split_ifs at hvalue <;> omega) hover

/-- Several words are refused, but for those that look like the least 64-bit integer. -/
theorem bigintToI64_words {b : BigInt} (hlen : 1 < b.words.length) (errorMsg : String) :
    bigintToI64 b errorMsg = if b.LooksMin then .ok i64Min else .error errorMsg := by
  rw [bigintToI64, if_pos (Or.inl (by omega))]
  by_cases hmin : b.LooksMin
  · rw [if_pos hmin, if_pos ⟨hmin.1, hmin.2.1⟩]
  · rw [if_neg hmin, if_neg fun h => hmin ⟨h.1, h.2, hlen⟩]

theorem not_fits_of_words {b : BigInt} (hbig : 2 ^ 64 ≤ wordsNumber b.words) : ¬ Fits 64 b.value := by
  rw [Fits, value]
  split_ifs <;> omega

/-- The conversion is the right one unless a longer BigInt looks like the least 64-bit integer. -/
theorem converts_iff (b : BigInt) (errorMsg : String) : b.Converts errorMsg ↔ ¬ b.LooksMin := by
  rcases b.one_word_or with ⟨w, hw⟩ | ⟨hlen, hbig⟩
  · apply iff_of_true (converts_word hw errorMsg)
    intro hmin
    have := hmin.2.2
    rw [hw] at this
    exact absurd this (by simp)
  · have hnot := not_fits_of_words hbig
    have hconv := bigintToI64_words hlen errorMsg
    constructor
    · intro h hmin
      rw [if_pos hmin, h.overflow hnot] at hconv
      cases hconv
    · intro hmin
      rw [if_neg hmin] at hconv
      exact ⟨fun hfits => absurd hfits hnot, fun _ => hconv⟩

/-- `-(2 ^ 64 + 2 ^ 63)` is taken for `-2 ^ 63`. -/
theorem not_converts_two_words : ¬ ∀ (b : BigInt) (errorMsg : String), b.Converts errorMsg := by
  intro h
  have hconv := h ⟨true, [i64Min, 1], by decide, by decide⟩ ""
  exact absurd (hconv.overflow (by decide)) (by decide)

end BigInt

end CqlDriver
