import CqlDriver.MutableLong

/-! # The arithmetic of mutable 64-bit integers (`lib/types/mutable-long.js`)

`shiftLeft` and `shiftRightUnsigned` move limbs and then bits; `multiply` takes the signs off, adds up the products of the
limbs with their carries and leaves out those that overflow.  All compute modulo `2 ^ 64`, and a text of decimal digits is
read to the number that it denotes modulo `2 ^ 64` (`arithmetic_mod_two_pow_64`). -/

namespace CqlDriver.MutableLong

open Limbs Digits

/-! ### Shifts -/

section
variable {x y r : ℕ}

theorem pow_mul_pow (hr : r ≤ 16) : 2 ^ r * 2 ^ (16 - r) = 65536 := by
  rw [← pow_add, Nat.add_sub_cancel' hr]
  norm_num

/-- The bits shifted out of a limb are those of the quotient. -/
theorem mul_pow_eq (x : ℕ) (hr : r ≤ 16) : x * 2 ^ r = 65536 * (x / 2 ^ (16 - r)) + x % 2 ^ (16 - r) * 2 ^ r := by
  calc x * 2 ^ r = (2 ^ (16 - r) * (x / 2 ^ (16 - r)) + x % 2 ^ (16 - r)) * 2 ^ r := by rw [Nat.div_add_mod]
    _ = 2 ^ r * 2 ^ (16 - r) * (x / 2 ^ (16 - r)) + x % 2 ^ (16 - r) * 2 ^ r := by ring
    _ = _ := by rw [pow_mul_pow hr]

/-- The low part of a limb, shifted up, leaves room for what is shifted into it. -/
theorem mod_mul_pow_le (x : ℕ) (hr : r ≤ 16) : x % 2 ^ (16 - r) * 2 ^ r + 2 ^ r ≤ 65536 := by
  have hlt : x % 2 ^ (16 - r) < 2 ^ (16 - r) := Nat.mod_lt _ (by positivity)
  calc x % 2 ^ (16 - r) * 2 ^ r + 2 ^ r = (x % 2 ^ (16 - r) + 1) * 2 ^ r := by ring
    _ ≤ 2 ^ (16 - r) * 2 ^ r := Nat.mul_le_mul_right _ hlt
    _ = 65536 := by rw [mul_comm, pow_mul_pow hr]

theorem shl_eq (hx : x < 65536) (hr : r ≤ 16) : shl x r = x * 2 ^ r := by
  apply Nat.mod_eq_of_lt
  calc x * 2 ^ r < 65536 * 2 ^ r := Nat.mul_lt_mul_of_pos_right hx (by positivity)
    _ ≤ 65536 * 2 ^ 16 := Nat.mul_le_mul_left _ (Nat.pow_le_pow_right two_pos hr)
    _ = 2 ^ 32 := by norm_num

theorem shr_eq (hx : x < 65536) : shr x r = x / 2 ^ r := by
  rw [shr, Nat.mod_eq_of_lt (by omega)]

theorem and16_shl (hx : x < 65536) (hr : r ≤ 16) : and16 (shl x r) = x % 2 ^ (16 - r) * 2 ^ r := by
  have hroom := mod_mul_pow_le x hr
  have hpow : 0 < 2 ^ r := by positivity
  rw [shl_eq hx hr, mul_pow_eq x hr, and16, Nat.mul_add_mod, Nat.mod_eq_of_lt (by omega)]

theorem div_pow_lt (hx : x < 65536) (hr : r ≤ 16) : x / 2 ^ (16 - r) < 2 ^ r := by
  rw [Nat.div_lt_iff_lt_mul (by positivity), pow_mul_pow hr]
  exact hx

/-- Bits above and below the position `n`. -/
theorem mul_pow_or {n : ℕ} (x : ℕ) (hy : y < 2 ^ n) : x * 2 ^ n ||| y = x * 2 ^ n + y := by
  rw [← Nat.shiftLeft_eq, Nat.shiftLeft_add_eq_or_of_lt hy]

theorem up_eq (hx : x < 65536) (hy : y < 65536) (hr : r ≤ 16) :
    and16 (shl x r ||| shr y (16 - r)) = x % 2 ^ (16 - r) * 2 ^ r + y / 2 ^ (16 - r) := by
  have hdiv := div_pow_lt hy hr
  have hpow : 2 ^ r ≤ 2 ^ 16 := Nat.pow_le_pow_right two_pos hr
  have hmod : and16 (shl x r ||| shr y (16 - r)) = and16 (shl x r) ||| y / 2 ^ (16 - r) := by
    rw [and16, and16, show 65536 = 2 ^ 16 by norm_num, Nat.or_mod_two_pow, shr_eq hy,
      Nat.mod_eq_of_lt (show y / 2 ^ (16 - r) < 2 ^ 16 by omega)]
  rw [hmod, and16_shl hx hr, mul_pow_or _ hdiv]

theorem down_eq (hx : x < 65536) (hy : y < 65536) (hr : r ≤ 16) :
    shr x r ||| and16 (shl y (16 - r)) = x / 2 ^ r + y % 2 ^ r * 2 ^ (16 - r) := by
  have hback : 16 - (16 - r) = r := by omega
  have hdiv := div_pow_lt (r := 16 - r) hx (by omega)
  rw [hback] at hdiv
  have hand := and16_shl (r := 16 - r) hy (by omega)
  rw [hback] at hand
  rw [hand, shr_eq hx, Nat.or_comm, mul_pow_or _ hdiv, Nat.add_comm]

end

section
variable {this : Ref} {h : Heap} {a : BitVec 64}

theorem stores_shiftUp {r : ℕ} (ha : Holds h this a) (hr : r ≤ 16) : Stores this h (shiftUp this r h) (a <<< r) := by
  obtain ⟨h₀, h₁, h₂, h₃⟩ := limbed_iff.1 ha.limbed
  have hnum := ha.limbs_eq
  set a₀ := h.arr this 0
  set a₁ := h.arr this 1
  set a₂ := h.arr this 2
  set a₃ := h.arr this 3
  have hwrite : ∃ s, shiftUp this r h = h.write this s ∧ s 0 = a₀ % 2 ^ (16 - r) * 2 ^ r ∧
      s 1 = a₁ % 2 ^ (16 - r) * 2 ^ r + a₀ / 2 ^ (16 - r) ∧ s 2 = a₂ % 2 ^ (16 - r) * 2 ^ r + a₁ / 2 ^ (16 - r) ∧
      s 3 = a₃ % 2 ^ (16 - r) * 2 ^ r + a₂ / 2 ^ (16 - r) := by
    simp only [shiftUp, Heap.set_eq_write, Heap.arr_write_self, Heap.write_write]
    exact ⟨_, rfl, and16_shl h₀ hr, up_eq h₁ h₀ hr, up_eq h₂ h₁ hr, up_eq h₃ h₂ hr⟩
  obtain ⟨s, heq, e₀, e₁, e₂, e₃⟩ := hwrite
  have m₀ := mul_pow_eq a₀ hr
  have m₁ := mul_pow_eq a₁ hr
  have m₂ := mul_pow_eq a₂ hr
  have m₃ := mul_pow_eq a₃ hr
  have r₀ := mod_mul_pow_le a₀ hr
  have r₁ := mod_mul_pow_le a₁ hr
  have r₂ := mod_mul_pow_le a₂ hr
  have r₃ := mod_mul_pow_le a₃ hr
  have d₀ := div_pow_lt h₀ hr
  have d₁ := div_pow_lt h₁ hr
  have d₂ := div_pow_lt h₂ hr
  have hprod : (a₀ + a₁ * 65536 + a₂ * 65536 ^ 2 + a₃ * 65536 ^ 3) * 2 ^ r =
      a₀ * 2 ^ r + a₁ * 2 ^ r * 65536 + a₂ * 2 ^ r * 65536 ^ 2 + a₃ * 2 ^ r * 65536 ^ 3 := by ring
  have hlimbed : Limbed s := limbed_iff.2 ⟨by omega, by omega, by omega, by omega⟩
  have hlt := number_lt hlimbed
  rw [heq]
  refine stores_write ha.lt_count hlimbed ?_
  rw [BitVec.toNat_shiftLeft, Nat.shiftLeft_eq, ← hnum, hprod, m₀, m₁, m₂, m₃]
  rw [number_eq, e₀, e₁, e₂, e₃] at hlt ⊢
  omega

theorem stores_shiftDown {r : ℕ} (ha : Holds h this a) (hr : r ≤ 16) : Stores this h (shiftDown this r h) (a >>> r) := by
  obtain ⟨h₀, h₁, h₂, h₃⟩ := limbed_iff.1 ha.limbed
  have hnum := ha.limbs_eq
  set a₀ := h.arr this 0
  set a₁ := h.arr this 1
  set a₂ := h.arr this 2
  set a₃ := h.arr this 3
  have hwrite : ∃ s, shiftDown this r h = h.write this s ∧ s 0 = a₀ / 2 ^ r + a₁ % 2 ^ r * 2 ^ (16 - r) ∧
      s 1 = a₁ / 2 ^ r + a₂ % 2 ^ r * 2 ^ (16 - r) ∧ s 2 = a₂ / 2 ^ r + a₃ % 2 ^ r * 2 ^ (16 - r) ∧
      s 3 = a₃ / 2 ^ r := by
    simp only [shiftDown, Heap.set_eq_write, Heap.arr_write_self, Heap.write_write]
    exact ⟨_, rfl, down_eq h₀ h₁ hr, down_eq h₁ h₂ hr, down_eq h₂ h₃ hr, shr_eq h₃⟩
  obtain ⟨s, heq, e₀, e₁, e₂, e₃⟩ := hwrite
  have hlimbed : Limbed s := by
    have room (x y : ℕ) (hx : x < 65536) : x / 2 ^ r + y % 2 ^ r * 2 ^ (16 - r) < 65536 := by
      have hdiv := div_pow_lt (r := 16 - r) hx (by omega)
      have hroom := mod_mul_pow_le (r := 16 - r) y (by omega)
      rw [show 16 - (16 - r) = r by omega] at hdiv hroom
      omega
    refine limbed_iff.2 ⟨?_, ?_, ?_, ?_⟩
    · rw [e₀]
      exact room _ _ h₀
    · rw [e₁]
      exact room _ _ h₁
    · rw [e₂]
      exact room _ _ h₂
    · rw [e₃]
      exact (Nat.div_le_self _ _).trans_lt h₃
  -- only the bits of the first limb are lost
  have hsum : a₀ + a₁ * 65536 + a₂ * 65536 ^ 2 + a₃ * 65536 ^ 3 = a₀ % 2 ^ r + 2 ^ r * number s := by
    have split (x : ℕ) : x = 2 ^ r * (x / 2 ^ r) + x % 2 ^ r := (Nat.div_add_mod x _).symm
    rw [number_eq, e₀, e₁, e₂, e₃, ← pow_mul_pow hr]
    conv_lhs => rw [split a₀, split a₁, split a₂, split a₃]
    ring
  rw [heq]
  refine stores_write ha.lt_count hlimbed ?_
  rw [BitVec.toNat_ushiftRight, Nat.shiftRight_eq_div_pow, ← hnum, hsum, Nat.add_mul_div_left _ _ (by positivity),
    Nat.div_eq_of_lt (Nat.mod_lt _ (by positivity)), Nat.zero_add]

/-- A limb that is moved is read before it is written. -/
theorem moveUp_write {pos : ℕ} (hpos : 0 < pos) (hlt : pos < 4) :
    ∃ s, moveUp this pos h = h.write this s ∧ s 0 = 0 ∧ s 1 = (if 1 < pos then 0 else h.arr this (1 - pos)) ∧
      s 2 = (if 2 < pos then 0 else h.arr this (2 - pos)) ∧ s 3 = h.arr this (3 - pos) := by
  simp only [moveUp, Heap.set_eq_write, Heap.arr_write_self, Heap.write_write]
  rcases (by omega : pos = 1 ∨ pos = 2 ∨ pos = 3) with rfl | rfl | rfl
  · exact ⟨_, rfl, rfl, rfl, rfl, rfl⟩
  · exact ⟨_, rfl, rfl, rfl, rfl, rfl⟩
  · exact ⟨_, rfl, rfl, rfl, rfl, rfl⟩

theorem moveDown_write {pos : ℕ} (hpos : 0 < pos) (hlt : pos < 4) :
    ∃ s, moveDown this pos h = h.write this s ∧ s 0 = h.arr this pos ∧
      s 1 = (if 2 < pos then 0 else h.arr this (1 + pos)) ∧ s 2 = (if 1 < pos then 0 else h.arr this (2 + pos)) ∧
      s 3 = 0 := by
  simp only [moveDown, Heap.set_eq_write, Heap.arr_write_self, Heap.write_write]
  rcases (by omega : pos = 1 ∨ pos = 2 ∨ pos = 3) with rfl | rfl | rfl
  · exact ⟨_, rfl, rfl, rfl, rfl, rfl⟩
  · exact ⟨_, rfl, rfl, rfl, rfl, rfl⟩
  · exact ⟨_, rfl, rfl, rfl, rfl, rfl⟩

theorem stores_moveUp {pos : ℕ} (ha : Holds h this a) (hpos : 0 < pos) (hlt : pos < 4) :
    Stores this h (moveUp this pos h) (a <<< (16 * pos)) := by
  obtain ⟨h₀, h₁, h₂, h₃⟩ := limbed_iff.1 ha.limbed
  have hnum := ha.limbs_eq
  obtain ⟨s, heq, e₀, e₁, e₂, e₃⟩ := @moveUp_write this h pos hpos hlt
  have hs : Limbed s ∧ number s = a.toNat * 2 ^ (16 * pos) % 2 ^ 64 := by
    rw [limbed_iff, number_eq, ← hnum]
    rcases (by omega : pos = 1 ∨ pos = 2 ∨ pos = 3) with rfl | rfl | rfl
    · norm_num at e₁ e₂ e₃
      omega
    · norm_num at e₁ e₂ e₃
      omega
    · norm_num at e₁ e₂ e₃
      omega
  rw [heq]
  refine stores_write ha.lt_count hs.1 ?_
  rw [BitVec.toNat_shiftLeft, Nat.shiftLeft_eq, hs.2]

theorem stores_moveDown {pos : ℕ} (ha : Holds h this a) (hpos : 0 < pos) (hlt : pos < 4) :
    Stores this h (moveDown this pos h) (a >>> (16 * pos)) := by
  obtain ⟨h₀, h₁, h₂, h₃⟩ := limbed_iff.1 ha.limbed
  have hnum := ha.limbs_eq
  obtain ⟨s, heq, e₀, e₁, e₂, e₃⟩ := @moveDown_write this h pos hpos hlt
  have hs : Limbed s ∧ number s = a.toNat / 2 ^ (16 * pos) := by
    rw [limbed_iff, number_eq, ← hnum]
    rcases (by omega : pos = 1 ∨ pos = 2 ∨ pos = 3) with rfl | rfl | rfl
    · norm_num at e₀ e₁ e₂
      omega
    · norm_num at e₀ e₁ e₂
      omega
    · norm_num at e₀ e₁ e₂
      omega
  rw [heq]
  refine stores_write ha.lt_count hs.1 ?_
  rw [BitVec.toNat_ushiftRight, Nat.shiftRight_eq_div_pow, hs.2]

theorem Stores.refl (ha : Holds h this a) : Stores this h h a := ⟨ha, Changes.refl this h⟩

theorem stores_shiftLeft_bits {h' : Heap} {n r : ℕ} (hmove : Stores this h h' (a <<< n)) (hr : r < 16) :
    Stores this h (if r > 0 then shiftUp this r h' else h') (a <<< (n + r)) := by
  rw [BitVec.shiftLeft_add]
  split_ifs with hbits
  · exact hmove.trans (stores_shiftUp hmove.holds hr.le)
  · rw [show r = 0 by omega, BitVec.shiftLeft_zero]
    exact hmove

theorem stores_shiftLeft (ha : Holds h this a) (numBits : ℕ) :
    Stores this h (shiftLeft this numBits h) (a <<< numBits) := by
  unfold shiftLeft
  split_ifs with hzero hbig
  · rw [hzero, BitVec.shiftLeft_zero]
    exact .refl ha
  · rw [BitVec.shiftLeft_eq_zero hbig]
    exact stores_toZero ha.lt_count
  · have hmove : Stores this h (if numBits / 16 > 0 then moveUp this (numBits / 16) h else h)
        (a <<< (16 * (numBits / 16))) := by
      split_ifs with hpos
      · exact stores_moveUp ha hpos (by omega)
      · rw [show numBits / 16 = 0 by omega, Nat.mul_zero, BitVec.shiftLeft_zero]
        exact .refl ha
    have hbits := stores_shiftLeft_bits hmove (Nat.mod_lt numBits (by norm_num))
    rwa [Nat.div_add_mod] at hbits

theorem stores_shiftRightUnsigned_bits {h' : Heap} {n r : ℕ} (hmove : Stores this h h' (a >>> n)) (hr : r < 16) :
    Stores this h (if r > 0 then shiftDown this r h' else h') (a >>> (n + r)) := by
  rw [BitVec.shiftRight_add]
  split_ifs with hbits
  · exact hmove.trans (stores_shiftDown hmove.holds hr.le)
  · rw [show r = 0 by omega, BitVec.ushiftRight_zero]
    exact hmove

theorem stores_shiftRightUnsigned (ha : Holds h this a) (numBits : ℕ) :
    Stores this h (shiftRightUnsigned this numBits h) (a >>> numBits) := by
  unfold shiftRightUnsigned
  split_ifs with hzero hbig
  · rw [hzero, BitVec.ushiftRight_zero]
    exact .refl ha
  · rw [BitVec.ushiftRight_eq_zero hbig]
    exact stores_toZero ha.lt_count
  · have hmove : Stores this h (if numBits / 16 > 0 then moveDown this (numBits / 16) h else h)
        (a >>> (16 * (numBits / 16))) := by
      split_ifs with hpos
      · exact stores_moveDown ha hpos (by omega)
      · rw [show numBits / 16 = 0 by omega, Nat.mul_zero, BitVec.ushiftRight_zero]
        exact .refl ha
    have hbits := stores_shiftRightUnsigned_bits hmove (Nat.mod_lt numBits (by norm_num))
    rwa [Nat.div_add_mod] at hbits

end

/-! ### Multiplication -/

section
variable {this other : Ref} {h : Heap} {a b : BitVec 64}

theorem limb_mul_le {x y : ℕ} (hx : x < 65536) (hy : y < 65536) : x * y ≤ 4294836225 :=
  (Nat.mul_le_mul (Nat.le_of_lt_succ hx) (Nat.le_of_lt_succ hy)).trans (by norm_num)

/-- The products that overflow are those of limbs whose positions add up to four or more. -/
theorem number_mul (a b : ℕ → ℕ) :
    number a * number b % 2 ^ 64 = (a 0 * b 0 + (a 1 * b 0 + a 0 * b 1) * 65536 +
      (a 2 * b 0 + a 1 * b 1 + a 0 * b 2) * 65536 ^ 2 +
      (a 3 * b 0 + a 2 * b 1 + a 1 * b 2 + a 0 * b 3) * 65536 ^ 3) % 2 ^ 64 := by
  have hprod : number a * number b = a 0 * b 0 + (a 1 * b 0 + a 0 * b 1) * 65536 +
      (a 2 * b 0 + a 1 * b 1 + a 0 * b 2) * 65536 ^ 2 +
      (a 3 * b 0 + a 2 * b 1 + a 1 * b 2 + a 0 * b 3) * 65536 ^ 3 +
      2 ^ 64 * (a 3 * b 1 + a 2 * b 2 + a 1 * b 3 + (a 3 * b 2 + a 2 * b 3) * 65536 + a 3 * b 3 * 65536 ^ 2) := by
    rw [number_eq, number_eq]
    ring
  rw [hprod, Nat.add_mul_mod_self_left]

/-- The sums that `multiply` carries, from the products that go into them. -/
structure Carries (p₀₀ p₁₀ p₀₁ p₂₀ p₁₁ p₀₂ top c16 c16' c32 c32' c32'' c48 : ℕ) : Prop where
  sum16 : c16 = shr p₀₀ 16 + p₁₀
  sum16' : c16' = and16 c16 + p₀₁
  sum32 : c32 = shr c16 16 + shr c16' 16 + p₂₀
  sum32' : c32' = and16 c32 + p₁₁
  sum32'' : c32'' = and16 c32' + p₀₂
  sum48 : c48 = shr c32 16 + shr c32' 16 + shr c32'' 16 + top

/-- No sum that is shifted exceeds 32 bits, so that nothing is lost before the last one. -/
theorem Carries.total_eq {p₀₀ p₁₀ p₀₁ p₂₀ p₁₁ p₀₂ top c16 c16' c32 c32' c32'' c48 : ℕ}
    (hc : Carries p₀₀ p₁₀ p₀₁ p₂₀ p₁₁ p₀₂ top c16 c16' c32 c32' c32'' c48) (h₀₀ : p₀₀ ≤ 4294836225)
    (h₁₀ : p₁₀ ≤ 4294836225) (h₀₁ : p₀₁ ≤ 4294836225) (h₂₀ : p₂₀ ≤ 4294836225) (h₁₁ : p₁₁ ≤ 4294836225)
    (h₀₂ : p₀₂ ≤ 4294836225) :
    and16 p₀₀ + and16 c16' * 65536 + and16 c32'' * 65536 ^ 2 + c48 * 65536 ^ 3 =
      p₀₀ + (p₁₀ + p₀₁) * 65536 + (p₂₀ + p₁₁ + p₀₂) * 65536 ^ 2 + top * 65536 ^ 3 := by
  obtain ⟨hc16, hc16', hc32, hc32', hc32'', hc48⟩ := hc
  obtain ⟨d₀, l₀⟩ := carry_eq (show p₀₀ < 2 ^ 32 by omega)
  obtain ⟨d₁, l₁⟩ := carry_eq (show c16 < 2 ^ 32 by omega)
  have m₁ := and16_lt c16
  obtain ⟨d₂, l₂⟩ := carry_eq (show c16' < 2 ^ 32 by omega)
  -- the greatest of the sums: two carries and a product are at most `2 ^ 32 - 1`
  obtain ⟨d₃, l₃⟩ := carry_eq (show c32 < 2 ^ 32 by omega)
  have m₃ := and16_lt c32
  obtain ⟨d₄, l₄⟩ := carry_eq (show c32' < 2 ^ 32 by omega)
  have m₄ := and16_lt c32'
  obtain ⟨d₅, l₅⟩ := carry_eq (show c32'' < 2 ^ 32 by omega)
  rw [hc48]
  linarith

theorem product_write (this other : Ref) (h : Heap) :
    ∃ s c16 c16' c32 c32' c32'' c48, product this other h = h.write this s ∧
      Carries (h.arr this 0 * h.arr other 0) (h.arr this 1 * h.arr other 0) (h.arr this 0 * h.arr other 1)
        (h.arr this 2 * h.arr other 0) (h.arr this 1 * h.arr other 1) (h.arr this 0 * h.arr other 2)
        (h.arr this 3 * h.arr other 0 + h.arr this 2 * h.arr other 1 + h.arr this 1 * h.arr other 2 +
          h.arr this 0 * h.arr other 3) c16 c16' c32 c32' c32'' c48 ∧
      s 0 = and16 (h.arr this 0 * h.arr other 0) ∧ s 1 = and16 c16' ∧ s 2 = and16 c32'' ∧ s 3 = and16 c48 := by
  simp only [product, Heap.set_eq_write, Heap.arr_write_self, Heap.write_write]
  exact ⟨_, _, _, _, _, _, _, rfl, ⟨rfl, rfl, rfl, rfl, rfl, rfl⟩, rfl, rfl, rfl, rfl⟩

theorem stores_product (ha : Holds h this a) (hb : Holds h other b) :
    Stores this h (product this other h) (a * b) := by
  obtain ⟨h₀, h₁, h₂, h₃⟩ := limbed_iff.1 ha.limbed
  obtain ⟨k₀, k₁, k₂, k₃⟩ := limbed_iff.1 hb.limbed
  obtain ⟨s, c16, c16', c32, c32', c32'', c48, heq, hcarries, e₀, e₁, e₂, e₃⟩ :=
    product_write this other h
  have hsum := hcarries.total_eq (limb_mul_le h₀ k₀) (limb_mul_le h₁ k₀) (limb_mul_le h₀ k₁) (limb_mul_le h₂ k₀)
    (limb_mul_le h₁ k₁) (limb_mul_le h₀ k₂)
  have hmul := number_mul (h.arr this) (h.arr other)
  rw [ha.number_eq, hb.number_eq, ← hsum] at hmul
  have hlimbed : Limbed s := by
    rw [limbed_iff, e₀, e₁, e₂, e₃]
    exact ⟨and16_lt _, and16_lt _, and16_lt _, and16_lt _⟩
  rw [heq]
  refine stores_write ha.lt_count hlimbed ?_
  have hlt := number_lt hlimbed
  rw [number_eq, e₀, e₁, e₂, e₃] at hlt
  rw [BitVec.toNat_mul, hmul, number_eq, e₀, e₁, e₂, e₃]
  have hlast : c48 = 65536 * (c48 / 65536) + and16 c48 := (Nat.div_add_mod c48 65536).symm
  have hover : and16 (h.arr this 0 * h.arr other 0) + and16 c16' * 65536 + and16 c32'' * 65536 ^ 2 + c48 * 65536 ^ 3 =
      and16 (h.arr this 0 * h.arr other 0) + and16 c16' * 65536 + and16 c32'' * 65536 ^ 2 + and16 c48 * 65536 ^ 3 +
        2 ^ 64 * (c48 / 65536) := by
    conv_lhs => rw [hlast]
    ring
  rw [hover, Nat.add_mul_mod_self_left, Nat.mod_eq_of_lt hlt]

theorem stores_negate_if (c : Bool) (ha : Holds h this a) (hone : Holds h one 1) (hne : this ≠ one) :
    Stores this h (if c then negate this h else h) (if c then -a else a) := by
  cases c with
  | false => exact .refl ha
  | true => exact stores_negate ha hone hne

theorem stores_new {b00 b16 b32 b48 : ℕ} {v : BitVec 64}
    (hv : BitVec.ofNat 64 (and16 b00 + and16 b16 * 65536 + and16 b32 * 65536 ^ 2 + and16 b48 * 65536 ^ 3) = v) :
    Stores h.count h (h.new b00 b16 b32 b48).2 v := by
  have hself : (h.new b00 b16 b32 b48).2.arr h.count = fun i => [and16 b00, and16 b16, and16 b32, and16 b48].getD i 0 :=
    Function.update_self ..
  have hother {r : Ref} (hr : r ≠ h.count) : (h.new b00 b16 b32 b48).2.arr r = h.arr r := Function.update_of_ne hr ..
  have hl : Limbed ((h.new b00 b16 b32 b48).2.arr h.count) := by
    rw [hself, limbed_iff]
    exact ⟨and16_lt _, and16_lt _, and16_lt _, and16_lt _⟩
  refine ⟨⟨Nat.lt_succ_self _, hl, ?_⟩, ⟨Nat.le_succ _, fun r _ hr => hother hr, fun hlimbed r hr => ?_⟩⟩
  · rw [hself, number_eq]
    exact hv
  · by_cases hne : r = h.count
    · rw [hne]
      exact hl
    · rw [hother hne]
      exact hlimbed r (by have : r < h.count + 1 := hr; omega)

theorem stores_clone (ha : Holds h this a) : Stores h.count h (clone this h).2 a := by
  obtain ⟨h₀, h₁, h₂, h₃⟩ := limbed_iff.1 ha.limbed
  apply stores_new
  rw [and16, and16, and16, and16, Nat.mod_eq_of_lt h₀, Nat.mod_eq_of_lt h₁, Nat.mod_eq_of_lt h₂, Nat.mod_eq_of_lt h₃,
    ← number_eq, ha.value]

/-- The multiplier without its sign is a copy, or the multiplier itself. -/
def unsignedMultiplier (multiplier : Ref) (h : Heap) : Ref × Heap :=
  if isNegative multiplier h then
    let (copy, h) := clone multiplier h
    (copy, negate copy h)
  else (multiplier, h)

theorem stores_unsignedMultiplier (ha : Holds h this a) (hb : Holds h other b) (hone : Holds h one 1)
    (hne : other ≠ this) :
    Holds (unsignedMultiplier other h).2 (unsignedMultiplier other h).1 (if isNegative other h then -b else b) ∧
      (unsignedMultiplier other h).1 ≠ this ∧ Stores this h (unsignedMultiplier other h).2 a := by
  rw [unsignedMultiplier]
  split_ifs with hneg
  · have hfresh : this ≠ h.count := ha.lt_count.ne
    have hcopy := stores_clone hb
    have hnegate := stores_negate hcopy.holds (hone.of_changes hcopy.changes hone.lt_count.ne) hone.lt_count.ne'
    have hall := hcopy.trans hnegate
    exact ⟨hnegate.holds, hfresh.symm, ha.of_changes hall.changes hfresh, hall.changes.of_new le_rfl this⟩
  · exact ⟨hb, hne, .refl ha⟩

/-- The sign of the factors is taken off first and put back, which is right for the least value, too. -/
theorem stores_multiply (ha : Holds h this a) (hb : Holds h other b) (hone : Holds h one 1) (hne : other ≠ this)
    (hthis : this ≠ one) : Stores this h (multiply this other h) (a * b) := by
  have hdef : multiply this other h =
      if isZero this h || isZero other h then toZero this h
      else
        let h₁ := if isNegative this h then negate this h else h
        let h₂ := unsignedMultiplier other h₁
        let h₃ := product this h₂.1 h₂.2
        if isNegative this h != isNegative other h₁ then negate this h₃ else h₃ := rfl
  rw [hdef, isZero_iff ha, isZero_iff hb]
  by_cases hzero : (decide (a = 0) || decide (b = 0)) = true
  · rw [if_pos hzero]
    rw [Bool.or_eq_true, decide_eq_true_eq, decide_eq_true_eq] at hzero
    have hprod : a * b = 0 := by
      rcases hzero with rfl | rfl
      · exact BitVec.zero_mul
      · exact BitVec.mul_zero
    rw [hprod]
    exact stores_toZero ha.lt_count
  · rw [if_neg hzero]
    have hfst := stores_negate_if (isNegative this h) ha hone hthis
    set h₁ := if isNegative this h then negate this h else h
    have hone₁ := hone.of_changes hfst.changes hthis.symm
    obtain ⟨hmult, hne₂, hsnd⟩ := stores_unsignedMultiplier hfst.holds (hb.of_changes hfst.changes hne) hone₁ hne
    have hthd := stores_product hsnd.holds hmult
    have hone₃ := (hone₁.of_changes hsnd.changes hthis.symm).of_changes hthd.changes hthis.symm
    have hlast := stores_negate_if (isNegative this h != isNegative other h₁) hthd.holds hone₃ hthis
    have hsign : (if isNegative this h != isNegative other h₁ then
        -((if isNegative this h then -a else a) * if isNegative other h₁ then -b else b)
        else (if isNegative this h then -a else a) * if isNegative other h₁ then -b else b) = a * b := by
      rcases isNegative this h with _ | _
      · cases isNegative other h₁
        · rfl
        · simp
      · cases isNegative other h₁
        · simp
        · simp
    rw [hsign] at hlast
    exact ((hfst.trans hsnd).trans hthd).trans hlast

end

/-! ### Reading numbers and texts -/

section
variable {h : Heap}

theorem stores_fromBits {low high : ℕ} {v : BitVec 64}
    (hv : BitVec.ofNat 64 (low % 2 ^ 32 + high % 2 ^ 32 * 2 ^ 32) = v) :
    Stores h.count h (fromBits low high h).2 v := by
  apply stores_new
  rw [← hv]
  congr 1
  unfold and16 shr
  omega

/-- The low 64 bits of a number that is not negative. -/
theorem stores_fromNumber_natCast (n : ℕ) :
    Stores h.count h (fromNumber (some (n : ℤ)) h).2 (BitVec.ofNat 64 n) := by
  have hdef : (fromNumber (some (n : ℤ)) h).2 = (fromBits (n % 2 ^ 32) (n / 2 ^ 32) h).2 := by
    simp only [fromNumber, Int.natAbs_natCast, if_neg (show ¬((n : ℤ) < 0) by omega)]
  rw [hdef]
  apply stores_fromBits
  apply BitVec.eq_of_toNat_eq
  rw [BitVec.toNat_ofNat, BitVec.toNat_ofNat]
  omega

/-- A pass multiplies what was read by the power of the radix and adds the number of its chunk. -/
theorem stores_readChunk {str : List Char} {radix i : ℕ} {radixToPower result : Ref} {v : BitVec 64}
    (hdigits : Numeric radix str) (hi : i < str.length) (hpower : Holds h radixToPower (BitVec.ofNat 64 (radix ^ 8)))
    (hresult : Holds h result v) (hone : Holds h one 1) (hne : radixToPower ≠ result) (hthis : result ≠ one) :
    Stores result h (readChunk str radix radixToPower result h i)
      (v * BitVec.ofNat 64 (radix ^ min 8 (str.length - i)) +
        BitVec.ofNat 64 (numeralFrom radix 0 ((str.drop i).take (min 8 (str.length - i))))) := by
  set size := min 8 (str.length - i) with hsize
  set chunk := (str.drop i).take size with hchunk
  have hlength : chunk.length = size := by simp [hchunk, hsize]
  have hparse : parseInt chunk radix = some (numeralFrom radix 0 chunk : ℤ) :=
    parseInt_eq (List.ne_nil_of_length_pos (by omega))
      (hdigits.sublist ((List.take_sublist _ _).trans (List.drop_sublist _ _)))
  -- the power is a new object or `radixToPower`
  have hread {h' : Heap} {power : Ref} (hold : Holds h' power (BitVec.ofNat 64 (radix ^ size)))
      (hch : Stores result h h' v) (hne' : power ≠ result) (hone' : Holds h' one 1) :
      Stores result h (add result (fromNumber (some (numeralFrom radix 0 chunk : ℤ)) (multiply result power h')).1
        (fromNumber (some (numeralFrom radix 0 chunk : ℤ)) (multiply result power h')).2)
        (v * BitVec.ofNat 64 (radix ^ size) + BitVec.ofNat 64 (numeralFrom radix 0 chunk)) := by
    have hmul := stores_multiply hch.holds hold hone' hne' hthis
    have hnew := stores_fromNumber_natCast (h := multiply result power h') (numeralFrom radix 0 chunk)
    have hfresh : result ≠ (multiply result power h').count := hmul.holds.lt_count.ne
    have hadd := stores_add (hmul.holds.of_changes hnew.changes hfresh) hnew.holds hfresh.symm
    exact ⟨hadd.holds, ((hch.changes.trans hmul.changes).trans (hnew.changes.of_new le_rfl result)).trans hadd.changes⟩
  rw [readChunk, ← hsize, ← hchunk, hparse]
  by_cases hlt : size < 8
  · rw [if_pos hlt]
    have hnew := stores_fromNumber_natCast (h := h) (radix ^ size)
    have hfresh : result ≠ h.count := hresult.lt_count.ne
    have hold := hresult.of_changes hnew.changes hfresh
    exact hread hnew.holds ⟨hold, hnew.changes.of_new le_rfl result⟩ hfresh.symm
      (hone.of_changes hnew.changes hone.lt_count.ne)
  · rw [if_neg hlt]
    have height : size = 8 := by omega
    exact hread (by rwa [height]) (.refl hresult) hne hone

/-- After `k` passes the object holds the number of the first `8 * k` characters. -/
theorem stores_passes {str : List Char} {radix : ℕ} {radixToPower result : Ref} (hdigits : Numeric radix str)
    (hpower : Holds h radixToPower (BitVec.ofNat 64 (radix ^ 8))) (hresult : Holds h result 0) (hone : Holds h one 1)
    (hne : radixToPower ≠ result) (hthis : result ≠ one) (k : ℕ) (hk : 8 * k < str.length + 8) :
    Stores result h ((List.range k).foldl (fun h k => readChunk str radix radixToPower result h (8 * k)) h)
      (BitVec.ofNat 64 (numeralFrom radix 0 (str.take (8 * k)))) := by
  induction k with
  | zero => exact .refl hresult
  | succ k ih =>
      have hprev := ih (by omega)
      have hpass := stores_readChunk hdigits (show 8 * k < str.length by omega)
        (hpower.of_changes hprev.changes hne) hprev.holds (hone.of_changes hprev.changes hthis.symm) hne hthis
      rw [List.range_succ, List.foldl_append, List.foldl_cons, List.foldl_nil]
      have htake : str.take (8 * (k + 1)) = str.take (8 * k) ++ (str.drop (8 * k)).take (min 8 (str.length - 8 * k)) := by
        rw [show 8 * (k + 1) = 8 * k + 8 by ring, List.take_add]
        congr 1
        exact List.take_eq_take_iff.2 (by simp)
      have hlength : ((str.drop (8 * k)).take (min 8 (str.length - 8 * k))).length = min 8 (str.length - 8 * k) := by simp
      rw [htake, numeralFrom_append (hdigits.sublist (List.take_sublist _ _)),
        numeralFrom_eq (hdigits.sublist ((List.take_sublist _ _).trans (List.drop_sublist _ _))), hlength,
        BitVec.ofNat_add, BitVec.ofNat_mul]
      exact hprev.trans hpass

/-- The object with the value of a text is new. -/
structure Reads (h : Heap) (r : Ref) (h' : Heap) (v : BitVec 64) : Prop where
  new : h.count ≤ r
  stores : Stores r h h' v

theorem reads_readChunks {str : List Char} {radix : ℕ} (hdigits : Numeric radix str) (hone : Holds h one 1) :
    Reads h (readChunks str radix h).1 (readChunks str radix h).2 (BitVec.ofNat 64 (numeralFrom radix 0 str)) := by
  have hpower := stores_fromNumber_natCast (h := h) (radix ^ 8)
  have hone₁ := hone.of_changes hpower.changes hone.lt_count.ne
  set h₁ := (fromNumber (some ((radix ^ 8 : ℕ) : ℤ)) h).2
  have hzero : Stores h₁.count h₁ (h₁.new 0 0 0 0).2 0 := stores_new rfl
  have hlt : h.count < h₁.count := hpower.holds.lt_count
  have hpos : one < h₁.count := hone₁.lt_count
  have hpasses := stores_passes hdigits (hpower.holds.of_changes hzero.changes hlt.ne) hzero.holds
    (hone₁.of_changes hzero.changes hpos.ne) hlt.ne hpos.ne' ((str.length + 7) / 8) (by omega)
  rw [List.take_of_length_le (by omega)] at hpasses
  exact ⟨hlt.le, hpasses.holds,
    (hpower.changes.of_new le_rfl _).trans (hzero.changes.trans hpasses.changes)⟩

theorem fromString_digits {str : List Char} {radix : ℕ} (hradix : 2 ≤ radix ∧ radix ≤ 36) (hne : str ≠ [])
    (hdigits : Numeric radix str) (hname : String.ofList str ∉ ["NaN", "Infinity", "+Infinity", "-Infinity"]) :
    fromString str (some (radix : ℤ)) h = .ok (readChunks str radix h) := by
  obtain ⟨c, cs, rfl⟩ := List.exists_cons_of_ne_nil hne
  have hsign : ∀ d ∈ c :: cs, d ≠ '-' := by
    rintro d hd rfl
    exact absurd (range_of_digitOf (hdigits _ hd)) (by decide)
  have hradixOf : radixOf (some (radix : ℤ)) = radix := by
    rw [radixOf, Option.getD_some, if_neg (by omega)]
  rw [fromString, if_neg hname, hradixOf, if_neg (by omega), if_neg (hsign c (by simp)),
    if_neg fun hmem => hsign _ (List.mem_cons_of_mem c hmem) rfl, Int.toNat_natCast]

theorem fromString_default (str : List Char) : fromString str none h = fromString str (some 10) h := by
  cases str with
  | nil => rfl
  | cons c cs => rfl

/-- A text with a decimal digit at the end is no name of a number. -/
theorem not_name {cs : List Char} {c : Char} (hc : c.isDigit = true) (hmem : c ∈ cs) :
    String.ofList cs ∉ ["NaN", "Infinity", "+Infinity", "-Infinity"] := by
  have hnone : ∀ name ∈ ["NaN", "Infinity", "+Infinity", "-Infinity"], ∀ d ∈ name.toList, d.isDigit = false := by
    intro name hname d hd
    have hall := List.all_eq_true.1 (show (["NaN", "Infinity", "+Infinity", "-Infinity"].all fun name =>
      name.toList.all fun d => !d.isDigit) = true by decide) name hname
    have := List.all_eq_true.1 hall d hd
    rwa [Bool.not_eq_true'] at this
  intro hname
  have hdigit := hnone _ hname c (by rwa [String.toList_ofList])
  rw [hc] at hdigit
  exact Bool.noConfusion hdigit

/-- Decimal digits behind at most one sign. -/
theorem reads_fromString (hone : Holds h one 1) (minus : Bool) {digits : List Char} (hne : digits ≠ [])
    (hdigits : ∀ c ∈ digits, c.isDigit = true) :
    ∃ r h', fromString (if minus then '-' :: digits else digits) none h = .ok (r, h') ∧
      Reads h r h' (BitVec.ofInt 64 ((if minus then -1 else 1) * (Nat.ofDigitChars 10 digits 0 : ℤ))) := by
  obtain ⟨c, hc⟩ := List.exists_mem_of_ne_nil digits hne
  have hplain : fromString digits (some (10 : ℕ)) h = .ok (readChunks digits 10 h) :=
    fromString_digits (by norm_num) hne (numeric_ten hdigits) (not_name (hdigits c hc) hc)
  have hread := reads_readChunks (numeric_ten hdigits) hone
  rw [numeralFrom_ten hdigits] at hread
  generalize readChunks digits 10 h = result at hplain hread
  obtain ⟨r, h'⟩ := result
  cases minus with
  | false =>
      refine ⟨r, h', (fromString_default _).trans hplain, ?_⟩
      rw [if_neg (by decide), one_mul, BitVec.ofInt_natCast]
      exact hread
  | true =>
      have hnew : one < r := hone.lt_count.trans_le hread.new
      have hnegate := stores_negate hread.stores.holds (hone.of_changes hread.stores.changes hnew.ne) hnew.ne'
      refine ⟨r, negate r h', ?_, hread.new, ?_⟩
      · have hradixOf : radixOf none = (10 : ℕ) := rfl
        rw [if_pos rfl, fromString, if_neg (not_name (hdigits c hc) (List.mem_cons_of_mem _ hc)), hradixOf,
          if_neg (by norm_num), if_pos rfl, hplain]
        rfl
      · rw [if_pos rfl, neg_one_mul, BitVec.ofInt_neg, BitVec.ofInt_natCast]
        exact hread.stores.trans hnegate

end

/-! ### Arithmetic modulo `2 ^ 64` -/

theorem wellFormed_loaded : WellFormed loaded := by
  have hnew : Stores 0 ⟨fun _ _ => 0, 0⟩ (Heap.new ⟨fun _ _ => 0, 0⟩ 1 0 0 0).2 1 :=
    stores_new (h := ⟨fun _ _ => 0, 0⟩) rfl
  refine ⟨hnew.changes.limbed fun r hr => absurd hr (Nat.not_lt_zero r), hnew.holds⟩

/-- The methods of an object that is not `MutableLong.one` with another object as the argument. -/
structure Arithmetic (this other : Ref) (h : Heap) (a b : BitVec 64) : Prop where
  add : Stores this h (add this other h) (a + b)
  multiply : Stores this h (multiply this other h) (a * b)
  negate : Stores this h (negate this h) (-a)
  shiftLeft (numBits : ℕ) : Stores this h (shiftLeft this numBits h) (a <<< numBits)
  shiftRightUnsigned (numBits : ℕ) : Stores this h (shiftRightUnsigned this numBits h) (a >>> numBits)
  compare : compare this other h = order a.toInt b.toInt

theorem arithmetic_of_holds {this other : Ref} {h : Heap} {a b : BitVec 64} (hone : Holds h one 1) (hthis : this ≠ one)
    (hne : other ≠ this) (ha : Holds h this a) (hb : Holds h other b) : Arithmetic this other h a b :=
  ⟨stores_add ha hb hne, stores_multiply ha hb hone hne hthis, stores_negate ha hone hthis, stores_shiftLeft ha,
    stores_shiftRightUnsigned ha, compare_eq ha hb⟩

end CqlDriver.MutableLong
