import Mathlib.Tactic
import Mathlib.Algebra.BigOperators.Group.Finset.Basic

/-! # Positional numbers in an array of limbs

An array of limbs is a function on the indices; a limb may hold more than a digit.  `total b n f` is
the number that the first `n` limbs denote in base `b`, and adding to a limb adds to it. -/

namespace Limbs

open Finset

/-- The number denoted by the limbs below `n`. -/
def total (b n : ℕ) (f : ℕ → ℕ) : ℕ := ∑ x ∈ range n, f x * b ^ x

section
variable {b n : ℕ} {f g : ℕ → ℕ}

@[simp] theorem total_zero (b : ℕ) (f : ℕ → ℕ) : total b 0 f = 0 := rfl

theorem total_succ (b n : ℕ) (f : ℕ → ℕ) : total b (n + 1) f = total b n f + f n * b ^ n :=
  sum_range_succ _ _

theorem total_add (b q k : ℕ) (f : ℕ → ℕ) :
    total b (q + k) f = total b q f + b ^ q * total b k fun x => f (q + x) := by
  induction k with
  | zero => simp
  | succ k ih =>
      rw [← Nat.add_assoc, total_succ, ih, total_succ, pow_add]
      ring

/-- Limbs that are digits denote less than the next power of the base. -/
theorem total_lt (h : ∀ x < n, f x < b) : total b n f < b ^ n := by
  induction n with
  | zero => simp
  | succ n ih =>
      have hlow := ih fun x hx => h x (by omega)
      have htop := Nat.mul_le_mul_right (b ^ n) (show f n + 1 ≤ b from h n (by omega))
      rw [total_succ, pow_succ']
      rw [Nat.add_mul, one_mul] at htop
      omega

/-- The low limbs denote the remainder by a power of the base, if they are digits. -/
theorem total_mod {q : ℕ} (h : ∀ x < q, f x < b) (hq : q ≤ n) : total b n f % b ^ q = total b q f := by
  obtain ⟨k, rfl⟩ := Nat.exists_eq_add_of_le hq
  rw [total_add, Nat.add_mul_mod_self_left, Nat.mod_eq_of_lt (total_lt h)]

theorem total_congr (h : ∀ x < n, f x = g x) : total b n f = total b n g :=
  sum_congr rfl fun x hx => by rw [h x (mem_range.1 hx)]

theorem total_eq_zero (h : ∀ x, f x = 0) : total b n f = 0 :=
  sum_eq_zero fun x _ => by rw [h x, zero_mul]

/-- Two adjacent limbs are one limb of the squared base. -/
theorem total_pairs (b n : ℕ) (f : ℕ → ℕ) :
    total b (2 * n) f = total (b ^ 2) n fun i => f (2 * i + 1) * b + f (2 * i) := by
  induction n with
  | zero => rfl
  | succ n ih =>
      rw [show 2 * (n + 1) = 2 * n + 1 + 1 by ring, total_succ, total_succ, ih, total_succ, ← pow_mul,
        pow_succ b (2 * n)]
      ring

/-- The array after `v` is added to the limb `i`. -/
def addAt (f : ℕ → ℕ) (i v : ℕ) : ℕ → ℕ := Function.update f i (f i + v)

@[simp] theorem addAt_same (f : ℕ → ℕ) (i v : ℕ) : addAt f i v i = f i + v := Function.update_self ..

theorem addAt_ne (f : ℕ → ℕ) {i x : ℕ} (v : ℕ) (h : x ≠ i) : addAt f i v x = f x :=
  Function.update_of_ne h ..

theorem total_addAt (f : ℕ → ℕ) {i : ℕ} (v : ℕ) (h : i < n) :
    total b n (addAt f i v) = total b n f + v * b ^ i := by
  induction n with
  | zero => omega
  | succ n ih =>
      rw [total_succ, total_succ]
      by_cases hi : i = n
      · subst hi
        have hrest : total b i (addAt f i v) = total b i f :=
          total_congr fun x hx => addAt_ne f v (by omega)
        rw [hrest, addAt_same]
        ring
      · rw [ih (by omega), addAt_ne f v (by omega)]
        ring

end

end Limbs
