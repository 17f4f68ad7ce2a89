import CqlDriver.IntegerArithmetic

/-! # The product of arbitrary-precision integers (`lib/types/integer.js`)

`multiply` adds the products of 16-bit halves to the entries of an array, row by row, and `carry16` reads an entry
as 32 bits.  An entry that has reached `2 ^ 32` loses what is above; nothing makes up for it later, so the product
is exact just when no entry does (`value_multiply_iff`).  What an entry holds before the first loss is known from the
factors alone. -/

namespace CqlDriver.Integer

open MachineInt Limbs

/-! ### Entries -/

/-- A product is added to an entry, which keeps 16 bits, passes on 16 and loses the rest. -/
structure Carries (arr : ℕ → ℕ) (k v : ℕ) (r : ℕ → ℕ) : Prop where
  entry : r k = (arr k + v) % 65536
  next : r (k + 1) = arr (k + 1) + (arr k + v) % 2 ^ 32 / 65536
  others : ∀ x, x ≠ k → x ≠ k + 1 → r x = arr x
  total : ∀ n, k + 1 < n →
    total 65536 n r + (arr k + v) / 2 ^ 32 * 65536 ^ (k + 2) = total 65536 n arr + v * 65536 ^ k

theorem carry16_eq (bits : ℕ → ℕ) (index : ℕ) :
    carry16 bits index =
      Function.update (addAt bits (index + 1) (bits index % 2 ^ 32 / 65536)) index (bits index % 65536) := by
  rw [carry16]
  split_ifs with hmod
  · rfl
  · have hlt : bits index < 65536 := by omega
    funext x
    by_cases hx : x = index
    · rw [hx, Function.update_self]
      omega
    · rw [Function.update_of_ne hx]
      by_cases hx' : x = index + 1
      · rw [hx', addAt_same]
        omega
      · rw [addAt_ne _ _ hx']

theorem carries (arr : ℕ → ℕ) (k v : ℕ) : Carries arr k v (carry16 (addAt arr k v) k) := by
  have hsum : addAt arr k v k = arr k + v := addAt_same arr k v
  have hnext : addAt arr k v (k + 1) = arr (k + 1) := addAt_ne arr v (by omega)
  rw [carry16_eq, hsum]
  refine ⟨by simp, ?_, ?_, ?_⟩
  · rw [Function.update_of_ne (by omega), addAt_same, hnext]
  · intro x hx hx'
    rw [Function.update_of_ne hx, addAt_ne _ _ hx', addAt_ne _ _ hx]
  · intro n hn
    -- the entry gives up a multiple of the base and the next one gets the part of it below `2 ^ 32`
    have hback : addAt (Function.update (addAt (addAt arr k v) (k + 1) ((arr k + v) % 2 ^ 32 / 65536)) k
        ((arr k + v) % 65536)) k ((arr k + v) / 65536 * 65536) =
        addAt (addAt arr k v) (k + 1) ((arr k + v) % 2 ^ 32 / 65536) := by
      funext x
      by_cases hx : x = k
      · subst hx
        rw [addAt_same, Function.update_self, addAt_ne _ _ (by omega), hsum]
        exact Nat.mod_add_div' _ _
      · rw [addAt_ne _ _ hx, Function.update_of_ne hx]
    have htotal := congrArg (total 65536 n) hback
    rw [total_addAt _ _ (by omega), total_addAt _ _ hn, total_addAt _ _ (by omega)] at htotal
    have hdigits : (arr k + v) / 65536 = (arr k + v) / 2 ^ 32 * 65536 + (arr k + v) % 2 ^ 32 / 65536 := by omega
    rw [hdigits] at htotal
    generalize (arr k + v) / 2 ^ 32 = lost at htotal ⊢
    generalize (arr k + v) % 2 ^ 32 / 65536 = passed at htotal ⊢
    have hpow : 65536 ^ (k + 2) = 65536 ^ k * 65536 * 65536 := by rw [pow_succ, pow_succ]
    rw [pow_succ] at htotal
    rw [hpow]
    linarith

/-- The products of a word with a half are added at the entries `p` and `p + 1`. -/
def addHalf (arr : ℕ → ℕ) (p : ℕ) (a : BitVec 32) (half : ℕ) : ℕ → ℕ :=
  let arr := carry16 (addAt arr p (lowHalf a * half)) p
  carry16 (addAt arr (p + 1) (highHalf a * half)) (p + 1)

theorem addProduct_eq (arr : ℕ → ℕ) (k : ℕ) (a b : BitVec 32) :
    addProduct arr k a b = addHalf (addHalf arr k a (lowHalf b)) (k + 1) a (highHalf b) := rfl

/-! ### A row -/

/-- What the entries up to `q + h + 1` receive in the row of the word `a`, up to the half `h` of `b`, still fits. -/
def Fits16 (a b q h : ℕ) (arr : ℕ → ℕ) : Prop :=
  total 65536 (q + h + 2) arr + a * (b % 65536 ^ (h + 1)) * 65536 ^ q < 65536 ^ (q + h + 3)

/-- In the row of the word `a` that starts at the entry `q`, after `h` halves of `b`: only the entry above the last
one may exceed 16 bits.  What has been lost is none exactly if the entries have held everything. -/
structure Row (a b q h : ℕ) (arr₀ arr : ℕ → ℕ) (loss : ℕ) : Prop where
  small : ∀ x, x ≠ q + h + 1 → arr x < 65536
  next : arr (q + h + 1) < arr₀ (q + h + 1) + 65536
  above : ∀ x, q + h + 2 ≤ x → arr x = arr₀ x
  total : ∀ n, q + h + 2 ≤ n →
    total 65536 n arr + loss = total 65536 n arr₀ + a * (b % 65536 ^ h) * 65536 ^ q
  exact : loss = 0 ↔ ∀ h' < h, Fits16 a b q h' arr₀

theorem half_mul_le {a b : ℕ} (ha : a < 65536) (hb : b < 65536) : a * b ≤ 65535 * 65535 :=
  Nat.mul_le_mul (by omega) (by omega)

/-- A number fits in the digits below a power exactly if its top digit is below the base. -/
theorem add_mul_lt_iff {low top p b : ℕ} (h : low < p) : low + top * p < b * p ↔ top < b := by
  constructor
  · intro hlt
    by_contra hle
    have := Nat.mul_le_mul_right p (Nat.le_of_not_lt hle)
    omega
  · intro hlt
    have := Nat.mul_le_mul_right p (Nat.succ_le_of_lt hlt)
    rw [Nat.succ_mul] at this
    omega

/-- What the half `h` of `b` adds to the product with `a`: a product for each half of `a`. -/
theorem row_product (a : BitVec 32) (b q h : ℕ) : a.toNat * (b % 65536 ^ (h + 1)) * 65536 ^ q =
    a.toNat * (b % 65536 ^ h) * 65536 ^ q + lowHalf a * (b / 65536 ^ h % 65536) * 65536 ^ (q + h) +
      highHalf a * (b / 65536 ^ h % 65536) * 65536 ^ (q + h + 1) := by
  have hmod : b % 65536 ^ (h + 1) = b % 65536 ^ h + 65536 ^ h * (b / 65536 ^ h % 65536) := Nat.mod_pow_succ
  generalize b / 65536 ^ h % 65536 = half at hmod ⊢
  have hboth : a.toNat * half = highHalf a * half * 65536 + lowHalf a * half := by
    rw [toNat_eq_halves a, Nat.add_mul]
    ring
  calc a.toNat * (b % 65536 ^ (h + 1)) * 65536 ^ q
      = a.toNat * (b % 65536 ^ h) * 65536 ^ q + a.toNat * half * 65536 ^ (q + h) := by
        rw [hmod, pow_add]
        ring
    _ = _ := by
        rw [hboth, pow_succ]
        ring

theorem Row.step {a : BitVec 32} {b q h : ℕ} {arr₀ arr : ℕ → ℕ} {loss : ℕ} (hsmall : ∀ x, arr₀ x < 65536)
    (hrow : Row a.toNat b q h arr₀ arr loss) :
    ∃ loss, Row a.toNat b q (h + 1) arr₀ (addHalf arr (q + h) a (b / 65536 ^ h % 65536)) loss := by
  have hhalf : b / 65536 ^ h % 65536 < 65536 := Nat.mod_lt _ (by norm_num)
  have hproduct := row_product a b q h
  generalize b / 65536 ^ h % 65536 = half at hhalf hproduct ⊢
  have hlow := half_mul_le (lowHalf_lt a) hhalf
  have hhigh := half_mul_le (highHalf_lt a) hhalf
  -- the first product fits, as its entry holds 16 bits
  have hfirst := carries arr (q + h) (lowHalf a * half)
  have hp := hrow.small (q + h) (by omega)
  have hp₁ := hsmall (q + h + 1)
  have hnext := hrow.next
  have hmid : arr (q + h + 2) = arr₀ (q + h + 2) := hrow.above _ (by omega)
  have hp₂ := hsmall (q + h + 2)
  rw [addHalf]
  generalize carry16 (addAt arr (q + h) (lowHalf a * half)) (q + h) = r at hfirst ⊢
  have hsecond := carries r (q + h + 1) (highHalf a * half)
  generalize carry16 (addAt r (q + h + 1) (highHalf a * half)) (q + h + 1) = s at hsecond ⊢
  generalize lowHalf a * half = x₀ at hlow hfirst hproduct
  generalize highHalf a * half = x₁ at hhigh hsecond hproduct
  have hr := hfirst.entry
  have hr₁ := hfirst.next
  have hr₂ := hfirst.others (q + h + 2) (by omega) (by omega)
  have hs := hsecond.others (q + h) (by omega) (by omega)
  have hs₁ := hsecond.entry
  have hs₂ : s (q + h + 2) = r (q + h + 2) + (r (q + h + 1) + x₁) % 2 ^ 32 / 65536 := hsecond.next
  have hrest : ∀ x, x < q + h ∨ q + h + 2 < x → s x = arr x := fun x hx => by
    rw [hsecond.others x (by omega) (by omega), hfirst.others x (by omega) (by omega)]
  have hfit : (arr (q + h) + x₀) / 2 ^ 32 = 0 := by omega
  refine ⟨loss + (r (q + h + 1) + x₁) / 2 ^ 32 * 65536 ^ (q + h + 3), ?_, ?_, ?_, ?_, ?_⟩
  · intro x hx
    rcases (by omega : x = q + h ∨ x = q + h + 1 ∨ (x < q + h ∨ q + h + 2 < x)) with rfl | rfl | hother
    · omega
    · omega
    · rw [hrest x hother]
      exact hrow.small x (by omega)
  · change s (q + h + 2) < arr₀ (q + h + 2) + 65536
    omega
  · intro x hx
    rw [hrest x (by omega)]
    exact hrow.above x (by omega)
  · intro n hn
    have h₁ := hfirst.total n (by omega)
    have h₂ := hsecond.total n (by omega)
    have h₃ := hrow.total n (by omega)
    rw [hfit, Nat.zero_mul, Nat.add_zero] at h₁
    rw [hproduct]
    change Limbs.total 65536 n s + (r (q + h + 1) + x₁) / 2 ^ 32 * 65536 ^ (q + h + 3) = _ at h₂
    omega
  · rw [Nat.add_eq_zero_iff, hrow.exact, Nat.mul_eq_zero, or_iff_left (by positivity), Nat.forall_lt_succ_right]
    apply and_congr_right
    intro hexact
    have hloss := hrow.exact.2 hexact
    have h₁ := hfirst.total (q + h + 2) (by omega)
    have h₃ := hrow.total (q + h + 2) le_rfl
    have hlow : Limbs.total 65536 (q + h + 1) r < 65536 ^ (q + h + 1) := by
      apply total_lt
      intro x hx
      rcases (by omega : x = q + h ∨ x < q + h) with rfl | hlt
      · omega
      · rw [hfirst.others x (by omega) (by omega)]
        exact hrow.small x (by omega)
    have hpow : 65536 ^ (q + h + 3) = 2 ^ 32 * 65536 ^ (q + h + 1) := by
      rw [show q + h + 3 = 2 + (q + h + 1) by omega, pow_add]
      norm_num
    have hsum : Limbs.total 65536 (q + h + 2) arr₀ + a.toNat * (b % 65536 ^ (h + 1)) * 65536 ^ q =
        Limbs.total 65536 (q + h + 1) r + (r (q + h + 1) + x₁) * 65536 ^ (q + h + 1) := by
      rw [hfit, Nat.zero_mul, Nat.add_zero] at h₁
      rw [total_succ] at h₁
      rw [hproduct, Nat.add_mul]
      omega
    rw [Fits16, hsum, hpow, add_mul_lt_iff hlow, Nat.div_eq_zero_iff]
    omega

/-- A row of halves. -/
def addHalves (a : BitVec 32) (b q : ℕ) : ℕ → (ℕ → ℕ) → ℕ → ℕ
  | 0, arr => arr
  | h + 1, arr => addHalf (addHalves a b q h arr) (q + h) a (b / 65536 ^ h % 65536)

theorem row_addHalves (a : BitVec 32) (b q : ℕ) {arr₀ : ℕ → ℕ} (hsmall : ∀ x, arr₀ x < 65536) :
    ∀ h, ∃ loss, Row a.toNat b q h arr₀ (addHalves a b q h arr₀) loss
  | 0 => ⟨0, fun x _ => hsmall x, Nat.lt_add_of_pos_right (by norm_num), fun _ _ => rfl,
      fun n _ => by simp [addHalves, Nat.mod_one], by simp⟩
  | h + 1 => by
      obtain ⟨loss, hrow⟩ := row_addHalves a b q hsmall h
      exact hrow.step hsmall

/-- The words of an integer that is not negative are two halves each. -/
theorem halves_eq {n : Integer} {v : ℕ} (h : n.value = v) (j : ℕ) :
    lowHalf (n.getBits j) = v / 65536 ^ (2 * j) % 65536 ∧
      highHalf (n.getBits j) = v / 65536 ^ (2 * j + 1) % 65536 := by
  have hpow : 2 ^ (32 * j) = 65536 ^ (2 * j) := by
    rw [pow_mul, pow_mul]
    norm_num
  rw [highHalf_eq, lowHalf_eq, toNat_getBits h, hpow, pow_succ 65536, ← Nat.div_div_eq_div_mul]
  generalize v / 65536 ^ (2 * j) = q
  constructor <;> omega

theorem addRow_eq {a b : Integer} {v : ℕ} (hb : b.value = v) (i m : ℕ) (arr : ℕ → ℕ) :
    addRow a b i m arr = addHalves (a.getBits i) v (2 * i) (2 * m) arr := by
  induction m with
  | zero => rfl
  | succ m ih =>
      obtain ⟨hlow, hhigh⟩ := halves_eq hb m
      rw [addRow, List.range_succ, List.foldl_append, ← addRow, ih, List.foldl_cons, List.foldl_nil, addProduct_eq,
        hlow, hhigh]
      rfl

/-! ### All rows -/

/-- The entries up to `2 * i + h + 1` hold what they receive in the row `i` of the product of `a` and `b`, up to the
half `h` of `b`. -/
def ColumnFits (a b i h : ℕ) : Prop :=
  a % 65536 ^ (2 * i) * b % 65536 ^ (2 * i + h + 2) +
    a / 65536 ^ (2 * i) % 2 ^ 32 * (b % 65536 ^ (h + 1)) * 65536 ^ (2 * i) < 65536 ^ (2 * i + h + 3)

instance (a b i h : ℕ) : Decidable (ColumnFits a b i h) := inferInstanceAs (Decidable (_ < _))

/-- Between two rows every entry is a digit, and nothing is written above the last row. -/
structure Rows (a b m i : ℕ) (arr : ℕ → ℕ) (loss : ℕ) : Prop where
  small : ∀ x, arr x < 65536
  clear : ∀ x, 2 * i + 2 * m ≤ x → arr x = 0
  total : ∀ n, 2 * i + 2 * m ≤ n → total 65536 n arr + loss = a % 65536 ^ (2 * i) * b
  exact : loss = 0 ↔ ∀ i' < i, ∀ h < 2 * m, ColumnFits a b i' h

theorem Rows.step {a b m i : ℕ} {arr : ℕ → ℕ} {loss : ℕ} (hrows : Rows a b m i arr loss) (hb : b < 65536 ^ (2 * m))
    {w : BitVec 32} (hw : w.toNat = a / 65536 ^ (2 * i) % 2 ^ 32) :
    ∃ loss, Rows a b m (i + 1) (addHalves w b (2 * i) (2 * m) arr) loss := by
  obtain ⟨lost, hrow⟩ := row_addHalves w b (2 * i) hrows.small (2 * m)
  have htop : arr (2 * i + 2 * m + 1) = 0 := hrows.clear _ (by omega)
  have hnext := hrow.next
  refine ⟨loss + lost, ?_, ?_, ?_, ?_⟩
  · intro x
    by_cases hx : x = 2 * i + 2 * m + 1
    · rw [hx]
      omega
    · exact hrow.small x hx
  · intro x hx
    rw [hrow.above x (by omega)]
    exact hrows.clear x (by omega)
  · intro n hn
    have h₁ := hrow.total n (by omega)
    have h₂ := hrows.total n (by omega)
    have hmod : a % 65536 ^ (2 * (i + 1)) = a % 65536 ^ (2 * i) + 65536 ^ (2 * i) * w.toNat := by
      rw [hw, show 65536 ^ (2 * (i + 1)) = 65536 ^ (2 * i) * 2 ^ 32 by rw [Nat.mul_succ, pow_add]; norm_num,
        Nat.mod_mul]
    rw [Nat.mod_eq_of_lt hb] at h₁
    have hsum : a % 65536 ^ (2 * (i + 1)) * b = a % 65536 ^ (2 * i) * b + w.toNat * b * 65536 ^ (2 * i) := by
      rw [hmod]
      ring
    omega
  · rw [Nat.add_eq_zero_iff, hrows.exact, hrow.exact, Nat.forall_lt_succ_right]
    refine and_congr_right fun hexact => forall₂_congr fun h hh => ?_
    have hloss := hrows.exact.2 hexact
    have htotal := hrows.total (2 * i + 2 * m + 1) (by omega)
    rw [hloss, Nat.add_zero] at htotal
    rw [Fits16, ColumnFits, ← htotal, total_mod (fun x _ => hrows.small x) (by omega), hw]

/-- Every row adds the product with its word; the loss is none exactly if every column fits. -/
theorem rows_products {a b : Integer} {x y : ℕ} (ha : a.value = x) (hb : b.value = y)
    (hy : y < 65536 ^ (2 * b.bits.length)) : ∀ i,
    ∃ loss, Rows x y b.bits.length i
      ((List.range i).foldl (fun arr i => addRow a b i b.bits.length arr) fun _ => 0) loss
  | 0 => ⟨0, fun _ => by simp, fun _ _ => rfl, fun n _ => by simp [total_eq_zero, Nat.mod_one], by simp⟩
  | i + 1 => by
      obtain ⟨loss, hrows⟩ := rows_products ha hb hy i
      have hword : (a.getBits i).toNat = x / 65536 ^ (2 * i) % 2 ^ 32 := by
        rw [toNat_getBits ha, show 2 ^ (32 * i) = 65536 ^ (2 * i) by rw [pow_mul, pow_mul]; norm_num]
      rw [List.range_succ, List.foldl_append, List.foldl_cons, List.foldl_nil, addRow_eq hb]
      exact hrows.step hy hword

theorem lt_of_value {n : Integer} {v : ℕ} (h : n.value = v) : v < 65536 ^ (2 * n.bits.length) := by
  have hfits := (n.fits_value le_rfl).2
  rw [Nat.add_sub_cancel, h] at hfits
  have hpow : 65536 ^ (2 * n.bits.length) = 2 ^ (32 * n.bits.length) := by
    rw [pow_mul, pow_mul]
    norm_num
  rw [hpow]
  exact_mod_cast hfits

/-- The entries of every row hold what they receive. -/
def ColumnsFit (a b : ℕ) : Prop := ∀ i h, ColumnFits a b i h

/-- A row whose word is zero, or that is the first one, fits. -/
theorem columnFits_of_word {a b i h : ℕ} (hword : i = 0 ∨ a / 65536 ^ (2 * i) = 0) : ColumnFits a b i h := by
  have hpow : 65536 ^ (2 * i + h + 3) = 65536 ^ (2 * i + h + 2) * 65536 := pow_succ 65536 (2 * i + h + 2)
  have hmod : a % 65536 ^ (2 * i) * b % 65536 ^ (2 * i + h + 2) < 65536 ^ (2 * i + h + 2) :=
    Nat.mod_lt _ (by positivity)
  unfold ColumnFits
  rcases hword with rfl | hzero
  · have hlow : b % 65536 ^ (h + 1) < 65536 ^ (h + 1) := Nat.mod_lt _ (by positivity)
    have hw : a / 65536 ^ (2 * 0) % 2 ^ 32 < 2 ^ 32 := Nat.mod_lt _ (by norm_num)
    have hproduct := Nat.mul_lt_mul'' hw hlow
    have hpow' : 65536 ^ (2 * 0 + h + 3) = 2 ^ 32 * 65536 ^ (h + 1) := by
      rw [show 2 * 0 + h + 3 = 2 + (h + 1) by omega, pow_add]
      norm_num
    rw [hpow']
    simpa [Nat.mod_one] using hproduct
  · rw [hzero]
    omega

/-- A half that is not the largest one fits. -/
theorem columnFits_of_half {a b i h : ℕ} (hhalf : b / 65536 ^ h % 65536 < 65535) : ColumnFits a b i h := by
  have hmod : a % 65536 ^ (2 * i) * b % 65536 ^ (2 * i + h + 2) < 65536 ^ (2 * i + h + 2) :=
    Nat.mod_lt _ (by positivity)
  have hw : a / 65536 ^ (2 * i) % 2 ^ 32 ≤ 2 ^ 32 := (Nat.mod_lt _ (by norm_num)).le
  have hlow : b % 65536 ^ (h + 1) ≤ 65535 * 65536 ^ h := by
    have hrest : b % 65536 ^ h < 65536 ^ h := Nat.mod_lt _ (by positivity)
    have htop := Nat.mul_le_mul_right (65536 ^ h) (Nat.succ_le_of_lt hhalf)
    rw [Nat.succ_mul] at htop
    rw [Nat.mod_pow_succ, Nat.mul_comm (65536 ^ h)]
    omega
  have hproduct : a / 65536 ^ (2 * i) % 2 ^ 32 * (b % 65536 ^ (h + 1)) * 65536 ^ (2 * i) ≤
      65535 * 65536 ^ (2 * i + h + 2) :=
    calc a / 65536 ^ (2 * i) % 2 ^ 32 * (b % 65536 ^ (h + 1)) * 65536 ^ (2 * i)
        ≤ 2 ^ 32 * (65535 * 65536 ^ h) * 65536 ^ (2 * i) := Nat.mul_le_mul_right _ (Nat.mul_le_mul hw hlow)
      _ = 65535 * 65536 ^ (2 * i + h + 2) := by
          rw [pow_add, pow_add]
          ring
  have hpow : 65536 ^ (2 * i + h + 3) = 65536 ^ (2 * i + h + 2) * 65536 := pow_succ 65536 (2 * i + h + 2)
  unfold ColumnFits
  omega

/-- The rows and halves that the factors do not have add nothing. -/
theorem columnsFit_iff {a b n m : ℕ} (ha : a < 65536 ^ (2 * n)) (hb : b < 65536 ^ (2 * m)) :
    ColumnsFit a b ↔ ∀ i < n, ∀ h < 2 * m, ColumnFits a b i h := by
  constructor
  · intro hfit i _ h _
    exact hfit i h
  · intro hfit i h
    by_cases hi : i < n
    · by_cases hh : h < 2 * m
      · exact hfit i hi h hh
      · have hle : 65536 ^ (2 * m) ≤ 65536 ^ h := Nat.pow_le_pow_right (by norm_num) (Nat.le_of_not_lt hh)
        apply columnFits_of_half
        rw [Nat.div_eq_of_lt (hb.trans_le hle)]
        norm_num
    · have hle : 65536 ^ (2 * n) ≤ 65536 ^ (2 * i) := Nat.pow_le_pow_right (by norm_num) (by omega)
      exact columnFits_of_word (Or.inr (Nat.div_eq_of_lt (ha.trans_le hle)))

theorem columnsFit_of_lt {a : ℕ} (b : ℕ) (ha : a < 2 ^ 32) : ColumnsFit a b := by
  intro i h
  apply columnFits_of_word
  rcases Nat.eq_zero_or_pos i with rfl | hi
  · exact Or.inl rfl
  · have hle : 65536 ^ 2 ≤ 65536 ^ (2 * i) := Nat.pow_le_pow_right (by norm_num) (by omega)
    exact Or.inr (Nat.div_eq_of_lt (by omega))

theorem value_multiplyWords {a b : Integer} {x y : ℕ} (ha : a.value = x) (hb : b.value = y) :
    (a.multiplyWords b).value = a.value * b.value ↔ ColumnsFit x y := by
  have hx := lt_of_value ha
  have hy := lt_of_value hb
  obtain ⟨loss, hrows⟩ := rows_products ha hb hy a.bits.length
  rw [← products] at hrows
  have hjoin : ∀ i, (joinHalves (a.products b (2 * i + 1)) (a.products b (2 * i))).toNat =
      a.products b (2 * i + 1) * 65536 + a.products b (2 * i) :=
    fun i => toNat_joinHalves (hrows.small _) (hrows.small _)
  have htotal := hrows.total (2 * (a.bits.length + b.bits.length)) (by omega)
  have hpairs := total_pairs 65536 (a.bits.length + b.bits.length) (a.products b)
  rw [Nat.mod_eq_of_lt hx, hpairs] at htotal
  rw [columnsFit_iff hx hy, ← hrows.exact, multiplyWords, value_new, wordsValue_append_zeros, wordsValue_map_range,
    ha, hb]
  simp only [hjoin]
  norm_cast
  rw [← htotal]
  norm_num

/-! ### The product -/

/-- The product of integers that are not negative. -/
theorem value_multiply_iff_of_nonneg {a b : Integer} {x y : ℕ} (ha : a.value = x) (hb : b.value = y) :
    (a.multiply b).value = a.value * b.value ↔ ColumnsFit x y := by
  have hna : a.negative = false := by
    rw [← Bool.not_eq_true, negative_iff]
    omega
  have hnb : b.negative = false := by
    rw [← Bool.not_eq_true, negative_iff]
    omega
  rw [multiply]
  simp only [hna, hnb, Bool.false_eq_true, if_false]
  split_ifs with hza hzb hsmall
  · have hx : x = 0 := by
      rw [isZero_iff, ha] at hza
      omega
    refine iff_of_true ?_ (columnsFit_of_lt y (by omega))
    rw [ha, hx]
    simp
  · have hy : y = 0 := by
      rw [isZero_iff, hb] at hzb
      omega
    refine iff_of_true ?_ fun i h => columnFits_of_half (by simp [hy])
    rw [hb, hy]
    simp
  · rw [Bool.and_eq_true, lessThan_iff, lessThan_iff, value_twoPwr24, ha, hb] at hsmall
    refine iff_of_true ?_ (columnsFit_of_lt y (by omega))
    rw [toNumber_eq hna, toNumber_eq hnb, ha, hb, ← Nat.cast_mul, value_fromNumber]
  · exact value_multiplyWords ha hb

/-- The operand that is multiplied after the negations. -/
def magnitude (n : Integer) : Integer := if n.negative then n.negate else n

theorem value_magnitude (n : Integer) : n.magnitude.value = n.value.natAbs := by
  unfold magnitude
  cases h : n.negative with
  | true =>
      have := value_neg h
      rw [if_pos rfl, value_negate]
      omega
  | false =>
      have := value_nonneg h
      rw [if_neg (by simp)]
      omega

theorem value_multiply_of_isZero {a b : Integer} (h : a.value = 0 ∨ b.value = 0) :
    (a.multiply b).value = a.value * b.value := by
  rw [← isZero_iff, ← isZero_iff] at h
  rw [multiply]
  split_ifs with hza hzb
  · rw [(isZero_iff a).1 hza, value_zero, zero_mul]
  · rw [(isZero_iff b).1 hzb, value_zero, mul_zero]
  all_goals exact absurd h (by simp [hza, hzb])

/-- The signs are taken out exactly. -/
theorem value_multiply_iff_magnitude (a b : Integer) :
    (a.multiply b).value = a.value * b.value ↔
      (a.magnitude.multiply b.magnitude).value = a.magnitude.value * b.magnitude.value := by
  by_cases hzero : a.value = 0 ∨ b.value = 0
  · refine iff_of_true (value_multiply_of_isZero hzero) (value_multiply_of_isZero ?_)
    rw [value_magnitude, value_magnitude]
    omega
  · rw [not_or, ← isZero_iff, ← isZero_iff] at hzero
    unfold magnitude
    cases ha : a.negative with
    | false =>
        cases hb : b.negative with
        | false => rfl
        | true =>
            rw [multiply, if_neg hzero.1, if_neg hzero.2]
            simp only [ha, hb, Bool.false_eq_true, if_true, if_false, value_negate]
            constructor <;> intro h <;> linarith
    | true =>
        rw [multiply, if_neg hzero.1, if_neg hzero.2, if_pos ha]
        cases hb : b.negative with
        | false =>
            simp only [Bool.false_eq_true, if_true, if_false, value_negate]
            constructor <;> intro h <;> linarith
        | true => simp only [if_true, value_negate, neg_mul_neg]

/-- The product is exact just when no column of the absolute values overflows. -/
theorem value_multiply_iff (a b : Integer) :
    (a.multiply b).value = a.value * b.value ↔ ColumnsFit a.value.natAbs b.value.natAbs := by
  rw [value_multiply_iff_magnitude]
  exact value_multiply_iff_of_nonneg (value_magnitude a) (value_magnitude b)

/-- `(2 ^ 64 - 1) ^ 2` -/
theorem not_value_multiply_twoPwr64 : ¬ ∀ a b : Integer, (a.multiply b).value = a.value * b.value := by
  intro hall
  have hvalue : (new [BitVec.allOnes 32, BitVec.allOnes 32] false).value = ((2 ^ 64 - 1 : ℕ) : ℤ) := by
    rw [value_new]
    rfl
  have hfit := (value_multiply_iff_of_nonneg hvalue hvalue).1 (hall _ _) 1 1
  exact absurd hfit (by decide +kernel)

/-! ### Small halves -/

/-- The halves of the words stay below the largest ones. -/
def HalvesBelow (n : Integer) : Prop :=
  ∀ j < n.bits.length, highHalf (n.getBits j) ≤ 0xfff0 ∧ lowHalf (n.getBits j) ≤ 0xfff0

/-- The digits in base `65536` stay below the largest ones. -/
def SmallDigits (v : ℕ) : Prop := ∀ i, v / 65536 ^ i % 65536 ≤ 0xfff0

theorem halvesBelow_of_smallDigits {n : Integer} {v : ℕ} (h : n.value = v) (hv : SmallDigits v) :
    n.HalvesBelow := by
  intro j _
  rw [(halves_eq h j).1, (halves_eq h j).2]
  exact ⟨hv _, hv _⟩

theorem smallDigits_of_halvesBelow {n : Integer} {v : ℕ} (h : n.value = v) (hn : n.HalvesBelow) :
    SmallDigits v := by
  intro i
  by_cases hi : i < 2 * n.bits.length
  · obtain ⟨hlow, hhigh⟩ := halves_eq h (i / 2)
    obtain ⟨hhigh', hlow'⟩ := hn (i / 2) (by omega)
    rcases Nat.mod_two_eq_zero_or_one i with hmod | hmod
    · rwa [hlow, show 2 * (i / 2) = i by omega] at hlow'
    · rwa [hhigh, show 2 * (i / 2) + 1 = i by omega] at hhigh'
  · have hle : 65536 ^ (2 * n.bits.length) ≤ 65536 ^ i := Nat.pow_le_pow_right (by norm_num) (Nat.le_of_not_lt hi)
    rw [Nat.div_eq_of_lt ((lt_of_value h).trans_le hle)]
    norm_num

/-- The product is exact when the second operand is not negative and has no half among the largest. -/
theorem value_multiply (a : Integer) {b : Integer} (hneg : b.negative = false) (hb : b.HalvesBelow) :
    (a.multiply b).value = a.value * b.value := by
  have hmagnitude : b.magnitude = b := if_neg (by simp [hneg])
  have hvalue := value_magnitude b
  rw [hmagnitude] at hvalue
  have hdigits := smallDigits_of_halvesBelow hvalue hb
  rw [value_multiply_iff_magnitude, value_multiply_iff_of_nonneg (value_magnitude a) (value_magnitude b)]
  intro i h
  apply columnFits_of_half
  have := hdigits h
  omega

end CqlDriver.Integer
