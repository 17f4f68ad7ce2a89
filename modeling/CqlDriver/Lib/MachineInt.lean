import Mathlib.Tactic

/-! # Wrapping machine integers over `ℤ`

A fixed-width signed integer is an element of `ℤ` together with the convention that every
operation reduces its result with `wrap w`, the representative of `x` modulo `2 ^ w` in
`[-2^(w-1), 2^(w-1))`.  A nested reduction inside a sum, a difference or a product can be
dropped (the simp lemmas below), so a formula computed with wrapping operations equals the
wrap of the formula over `ℤ`, and `wrap_eq_self` removes the last one when the value fits.
Division is Rust's and JavaScript's: it truncates towards zero (`Int.tdiv`). -/

namespace MachineInt

/-- The signed `w`-bit value congruent to `x`. -/
def wrap (w : ℕ) (x : ℤ) : ℤ := x.bmod (2 ^ w)

/-- `x` is a signed `w`-bit value. -/
def Fits (w : ℕ) (x : ℤ) : Prop := -2 ^ (w - 1) ≤ x ∧ x < 2 ^ (w - 1)

instance (w : ℕ) (x : ℤ) : Decidable (Fits w x) := inferInstanceAs (Decidable (_ ∧ _))

section
variable {w : ℕ} {x y : ℤ}

@[simp] theorem wrap_wrap_add : wrap w (wrap w x + y) = wrap w (x + y) := Int.bmod_add_bmod
@[simp] theorem wrap_add_wrap : wrap w (x + wrap w y) = wrap w (x + y) := Int.add_bmod_bmod
@[simp] theorem wrap_wrap_sub : wrap w (wrap w x - y) = wrap w (x - y) := Int.bmod_sub_bmod
@[simp] theorem wrap_sub_wrap : wrap w (x - wrap w y) = wrap w (x - y) := Int.sub_bmod_bmod
@[simp] theorem wrap_wrap_mul : wrap w (wrap w x * y) = wrap w (x * y) := Int.bmod_mul_bmod
@[simp] theorem wrap_mul_wrap : wrap w (x * wrap w y) = wrap w (x * y) := Int.mul_bmod_bmod

end

theorem wrap_emod (w : ℕ) (x : ℤ) : wrap w (x % 2 ^ w) = wrap w x := by
  have := Int.emod_bmod x (2 ^ w)
  push_cast at this
  exact this

theorem wrap_sub_two_pow (w : ℕ) (x : ℤ) : wrap w (x - 2 ^ w) = wrap w x := by
  rw [← wrap_emod, Int.sub_emod_right, wrap_emod]

theorem wrap_eq_self {w : ℕ} {x : ℤ} (hw : 0 < w) (h : Fits w x) : wrap w x = x := by
  obtain ⟨k, rfl⟩ : ∃ k, w = k + 1 := ⟨w - 1, by omega⟩
  obtain ⟨h₁, h₂⟩ := h
  rw [Nat.add_sub_cancel] at h₁ h₂
  have hpow : ((2 ^ (k + 1) : ℕ) : ℤ) = 2 ^ k * 2 := by push_cast; ring
  apply Int.bmod_eq_of_le
  · rw [hpow, Int.mul_ediv_cancel _ two_ne_zero]
    exact h₁
  · rw [hpow]
    omega

theorem Fits.mono {v w : ℕ} {x : ℤ} (hv : 0 < v) (hle : v ≤ w) (h : Fits v x) : Fits w x := by
  have hpow : (2 : ℤ) ^ (v - 1) ≤ 2 ^ (w - 1) := pow_le_pow_right₀ (by norm_num) (by omega)
  unfold Fits at h ⊢
  omega

theorem wrap8_eq_self {x : ℤ} (h₁ : -128 ≤ x) (h₂ : x < 128) : wrap 8 x = x :=
  Int.bmod_eq_of_le (by norm_num; omega) (by norm_num; omega)

theorem wrap32_eq_self {x : ℤ} (h₁ : -2147483648 ≤ x) (h₂ : x < 2147483648) : wrap 32 x = x :=
  Int.bmod_eq_of_le (by norm_num; omega) (by norm_num; omega)

/-! ### Truncating division -/

theorem tdiv_of_nonneg {a b : ℤ} (h : 0 ≤ a) : a.tdiv b = a / b := Int.tdiv_eq_ediv_of_nonneg h

theorem tdiv_of_neg {a b : ℤ} (h : a < 0) : a.tdiv b = -((-a) / b) := by
  have h' : 0 ≤ -a := by omega
  rw [← Int.tdiv_eq_ediv_of_nonneg h', Int.neg_tdiv, neg_neg]

end MachineInt
