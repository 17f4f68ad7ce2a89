import CqlDriver.IntegerText
import CqlDriver.Lib.Double
import CqlDriver.Lib.Loop

/-! # Division of arbitrary-precision integers (`lib/types/integer.js`)

`divide` approximates the quotient with doubles, makes the approximation smaller until its product is not above the
remainder, adds it to the result and goes on with what remains.  The approximation may be off, and from `2 ^ 53` on it
is changed in steps that are larger than one.  As long as the integers are finite doubles, every pass brings the
remainder down and the result is the quotient (`divide_exact`); from `2 ^ 1024` on the approximation is infinite, is
taken for one without anything being subtracted, and the loop goes round forever (`not_divides`). -/

namespace CqlDriver.Integer

/-! ### The operations -/

/-- A pass of `toNumber`, with the variables `val` and `pow`. -/
def addWord (s : Double × Double) (word : BitVec 32) : Double × Double :=
  (s.1.add ((Double.finite word.toNat).mul s.2), s.2.mul (.finite (2 ^ 32)))

def wordsDouble (bits : List (BitVec 32)) : Double := (bits.foldl addWord (.finite 0, .finite 1)).1

/-- `toNumber`, as a double. -/
def toDouble (this : Integer) : Double :=
  if this.negative then (wordsDouble this.negate.bits).neg else wordsDouble this.bits

/-- `fromNumber` for an integral double. -/
def fromDouble : Double → Integer
  | .finite x => fromNumber (some ⌊x⌋)
  | _ => fromNumber none

/-- `Math.ceil(Math.log(x) / Math.LN2)`, which may be off by one. -/
structure BinaryLogarithm where
  ceil : ℚ → ℤ
  near : ∀ x, 1 ≤ x → (2 : ℚ) ^ (ceil x - 2) ≤ x ∧ x ≤ 2 ^ (ceil x + 1)

def approximation (rem other : Integer) : Double := (Double.finite 1).maximum (rem.toDouble.div other.toDouble).floor

/-- By how much an approximation is changed. -/
def delta (log : BinaryLogarithm) : Double → Double
  | .finite approx => if log.ceil approx ≤ 48 then .finite 1 else .finite (2 ^ (log.ceil approx - 48))
  | .infinity negative => if negative then .nan else .infinity false
  | .nan => .nan

/-- The variables of the two loops. -/
inductive Division where
  | outer (res rem : Integer)
  | inner (res rem : Integer) (delta approx : Double)

/-- A pass of one of the loops. -/
def divisionPass (log : BinaryLogarithm) (other : Integer) : Division → Division ⊕ Integer
  | .outer res rem =>
      if rem.compare other ≥ 0 then
        .inl (.inner res rem (delta log (approximation rem other)) (approximation rem other))
      else .inr res
  | .inner res rem delta approx =>
      let approxRes := fromDouble approx
      let approxRem := approxRes.multiply other
      if approxRem.negative || decide (approxRem.compare rem > 0) then .inl (.inner res rem delta (approx.sub delta))
      -- zero would make no progress
      else .inl (.outer (res.add (if approxRes.isZero then one else approxRes)) (rem.subtract approxRem))

/-- The result, unless the loops take more than `fuel` passes. -/
def divide (log : BinaryLogarithm) (fuel : ℕ) (this other : Integer) : Option (Except String Integer) :=
  if other.isZero then some (.error "Error: division by zero")
  else if this.isZero then some (.ok zero)
  else if this.negative then
    if other.negative then divide log fuel this.negate other.negate
    else (divide log fuel this.negate other).map (·.map negate)
  else if other.negative then (divide log fuel this other.negate).map (·.map negate)
  else (Loop.run (divisionPass log other) fuel (.outer zero this)).map .ok
termination_by this.negative.toNat + other.negative.toNat
decreasing_by all_goals simp_all [negative_negate]

def modulo (log : BinaryLogarithm) (fuel : ℕ) (this other : Integer) : Option (Except String Integer) :=
  (divide log fuel this other).map (·.map fun quotient => this.subtract (quotient.multiply other))

/-! ### Integers as doubles -/

/-- The power of the word `i` as a double. -/
def powAt (i : ℕ) : Double := if i < 32 then .finite (2 ^ (32 * i)) else .infinity false

theorem powAt_succ (i : ℕ) : (powAt i).mul (.finite (2 ^ 32)) = powAt (i + 1) := by
  have hpow : (2 : ℚ) ^ (32 * i) * 2 ^ 32 = (1 : ℤ) * 2 ^ ((32 * (i + 1) : ℕ) : ℤ) := by
    rw [Int.cast_one, one_mul, zpow_natCast, ← pow_add]
    rfl
  have hself : Double.nearest ((1 : ℤ) * 2 ^ ((32 * (i + 1) : ℕ) : ℤ)) = (1 : ℤ) * 2 ^ ((32 * (i + 1) : ℕ) : ℤ) :=
    Double.nearest_eq_self (by norm_num) (by omega)
  by_cases hi : i < 32
  · rw [powAt, if_pos hi, Double.mul, hpow, Double.ofRat, hself, Int.cast_one, one_mul, zpow_natCast,
      abs_of_pos (by positivity), powAt]
    by_cases hnext : i + 1 < 32
    · rw [if_pos (pow_lt_pow_right₀ (by norm_num) (by omega)), if_pos hnext]
    · rw [if_neg (not_lt.2 (pow_le_pow_right₀ (by norm_num) (by omega))), if_neg hnext,
        decide_eq_false (not_lt.2 (by positivity))]
  · rw [powAt, if_neg hi, powAt, if_neg (by omega), Double.mul, if_neg (by norm_num), decide_eq_false (by norm_num)]
    rfl

theorem word_mul_powAt (w : BitVec 32) {i : ℕ} (hi : i < 32) :
    (Double.finite w.toNat).mul (powAt i) = .finite (w.toNat * 2 ^ (32 * i)) := by
  have hw : (w.toNat : ℚ) < 2 ^ 32 := by exact_mod_cast w.isLt
  have hlt : |((w.toNat : ℤ) : ℚ) * 2 ^ ((32 * i : ℕ) : ℤ)| < 2 ^ 1024 := by
    rw [Int.cast_natCast, zpow_natCast, abs_of_nonneg (by positivity)]
    calc (w.toNat : ℚ) * 2 ^ (32 * i) < 2 ^ 32 * 2 ^ (32 * i) := mul_lt_mul_of_pos_right hw (by positivity)
      _ = 2 ^ (32 + 32 * i) := by rw [← pow_add]
      _ ≤ 2 ^ 1024 := pow_le_pow_right₀ (by norm_num) (by omega)
  have hbits : |(w.toNat : ℤ)| ≤ 2 ^ 53 := by
    rw [Nat.abs_cast]
    exact_mod_cast w.isLt.le.trans (by norm_num)
  have hself := Double.ofRat_eq_self (m := w.toNat) (e := (32 * i : ℕ)) hbits (by omega) hlt
  rw [Int.cast_natCast, zpow_natCast] at hself
  rw [powAt, if_pos hi, Double.mul, hself]

/-- One more rounding adds one more part to the error. -/
theorem abs_nearest_add_sub_le {x v t : ℚ} {i : ℕ} (hi : i < 32) (hv : 0 ≤ v) (ht : 0 ≤ t)
    (hx : |x - v| ≤ i / 2 ^ 50 * max v 1) :
    |Double.nearest (x + t) - (v + t)| ≤ (i + 1 : ℕ) / 2 ^ 50 * max (v + t) 1 := by
  have hround := Double.abs_nearest_sub_le_max (x + t)
  set M := max (v + t) 1 with hM
  have hM₁ : 1 ≤ M := le_max_right ..
  have hMv : v + t ≤ M := le_max_left ..
  have hmono : max v 1 ≤ M := max_le_max (by linarith) le_rfl
  have hiq : (i : ℚ) ≤ 32 := by exact_mod_cast hi.le
  have herr : |x - v| ≤ i / 2 ^ 50 * M := hx.trans (mul_le_mul_of_nonneg_left hmono (by positivity))
  have hsmall : (i : ℚ) / 2 ^ 50 * M ≤ M := by
    have hle : (i : ℚ) / 2 ^ 50 ≤ 1 := by
      rw [div_le_one (by positivity)]
      linarith
    exact mul_le_of_le_one_left (by linarith) hle
  have hsum : max |x + t| 1 ≤ 2 * M := by
    apply max_le _ (by linarith)
    obtain ⟨hlow, hhigh⟩ := abs_le.1 herr
    rw [abs_le]
    constructor <;> linarith
  calc |Double.nearest (x + t) - (v + t)| = |(Double.nearest (x + t) - (x + t)) + (x - v)| := by congr 1; ring
    _ ≤ |Double.nearest (x + t) - (x + t)| + |x - v| := abs_add_le _ _
    _ ≤ 2 * M / 2 ^ 53 + i / 2 ^ 50 * M := by
        refine add_le_add (hround.trans ?_) herr
        exact div_le_div_of_nonneg_right hsum (by positivity)
    _ ≤ (i + 1 : ℕ) / 2 ^ 50 * M := by
        push_cast
        linarith

theorem abs_lt_of_near {y v : ℚ} (hv : 0 ≤ v) (hlt : v < 2 ^ 1023) (h : |y - v| ≤ max v 1) : |y| < 2 ^ 1024 := by
  have htwo : (2 : ℚ) ^ 1024 = 2 * 2 ^ 1023 := pow_succ' 2 1023
  have hone : (1 : ℚ) < 2 ^ 1023 := one_lt_pow₀ (by norm_num) (by norm_num)
  rw [htwo]
  generalize (2 : ℚ) ^ 1023 = B at hlt hone ⊢
  have hmax := max_lt hlt hone
  obtain ⟨hlow, hhigh⟩ := abs_le.1 h
  rw [abs_lt]
  constructor <;> linarith

/-- The passes of `toNumber` over the words behind those of which the double is `x` and the value `v`. -/
theorem wordsDouble_loop (ws : List (BitVec 32)) {i : ℕ} {x : ℚ} {v : ℤ} (hi : i + ws.length ≤ 32) (hv : 0 ≤ v)
    (hlt : ((v + 2 ^ (32 * i) * wordsValue false ws : ℤ) : ℚ) < 2 ^ 1023) (hx : |x - v| ≤ i / 2 ^ 50 * max (v : ℚ) 1) :
    ∃ y, (ws.foldl addWord (Double.finite x, powAt i)).1 = .finite y ∧
      |y - (v + 2 ^ (32 * i) * wordsValue false ws : ℤ)| ≤
        (i + ws.length : ℕ) / 2 ^ 50 * max ((v + 2 ^ (32 * i) * wordsValue false ws : ℤ) : ℚ) 1 := by
  induction ws generalizing i x v with
  | nil =>
      refine ⟨x, rfl, ?_⟩
      rwa [wordsValue, if_neg (by decide), mul_zero, add_zero, List.length_nil, add_zero]
  | cons w ws ih =>
      rw [List.length_cons] at hi ⊢
      have hnonneg := wordsValue_nonneg ws
      have hvalue : v + 2 ^ (32 * i) * wordsValue false (w :: ws) =
          v + w.toNat * 2 ^ (32 * i) + 2 ^ (32 * (i + 1)) * wordsValue false ws := by
        rw [wordsValue]
        ring
      rw [hvalue] at hlt ⊢
      have hvq : (0 : ℚ) ≤ v := Int.cast_nonneg hv
      have hword₀ : (0 : ℤ) ≤ w.toNat * 2 ^ (32 * i) := mul_nonneg (Nat.cast_nonneg _) (pow_nonneg zero_le_two _)
      have hwordq : (0 : ℚ) ≤ w.toNat * 2 ^ (32 * i) := mul_nonneg (Nat.cast_nonneg _) (pow_nonneg zero_le_two _)
      have herr := abs_nearest_add_sub_le (x := x) (v := v) (t := w.toNat * 2 ^ (32 * i)) (i := i) (by omega) hvq hwordq
        hx
      have hword : addWord (Double.finite x, powAt i) w =
          (.finite (Double.nearest (x + w.toNat * 2 ^ (32 * i))), powAt (i + 1)) := by
        rw [addWord, powAt_succ, word_mul_powAt w (by omega), Double.add, Double.ofRat_of_lt]
        refine abs_lt_of_near (add_nonneg hvq hwordq) (lt_of_le_of_lt ?_ hlt)
          (herr.trans (mul_le_of_le_one_left ?_ ?_))
        · push_cast
          exact le_add_of_nonneg_right (mul_nonneg (pow_nonneg zero_le_two _) (Int.cast_nonneg hnonneg))
        · exact zero_le_one.trans (le_max_right ..)
        · rw [div_le_one (by norm_num)]
          exact (Nat.cast_le.2 (by omega : i + 1 ≤ 32)).trans (by norm_num)
      rw [List.foldl_cons, hword]
      have hnext := ih (i := i + 1) (by omega) (add_nonneg hv hword₀) hlt (by push_cast at herr ⊢; exact herr)
      rwa [show i + 1 + ws.length = i + (ws.length + 1) by omega] at hnext

theorem two_pow_le_value {n : Integer} (h : n.negative = false) (hne : n.bits ≠ []) :
    2 ^ (32 * (n.bits.length - 1)) ≤ n.value := by
  obtain ⟨ws, w, hbits⟩ : ∃ ws w, n.bits = ws ++ [w] := ⟨_, _, (List.dropLast_append_getLast hne).symm⟩
  have hw : w ≠ 0 := by
    rintro rfl
    apply n.canonical
    rw [hbits, List.getLast?_append_of_ne_nil _ (by simp), h]
    rfl
  have hpos : 1 ≤ w.toNat := Nat.one_le_iff_ne_zero.2 fun hzero => hw (BitVec.eq_of_toNat_eq hzero)
  rw [value, h, hbits, wordsValue_concat, List.length_append, List.length_singleton, Nat.add_sub_cancel]
  have hnonneg := wordsValue_nonneg ws
  have hmul : (2 : ℤ) ^ (32 * ws.length) * 1 ≤ 2 ^ (32 * ws.length) * w.toNat := by
    exact mul_le_mul_of_nonneg_left (by exact_mod_cast hpos) (by positivity)
  linarith

theorem toDouble_of_nonneg {n : Integer} (h : n.negative = false) :
    n.toDouble = (n.bits.foldl addWord (.finite 0, powAt 0)).1 := by
  have hpow : powAt 0 = .finite 1 := by rw [powAt, if_pos (by decide), mul_zero, pow_zero]
  rw [toDouble, if_neg (by rw [h]; decide), wordsDouble, hpow]

/-- An integer of at most 1023 bits is a finite double, near to it. -/
theorem exists_toDouble {n : Integer} (h : n.negative = false) (hlt : n.value < 2 ^ 1023) :
    ∃ x, n.toDouble = .finite x ∧ |x - n.value| ≤ max (n.value : ℚ) 1 / 100 := by
  have hlength : n.bits.length ≤ 32 := by
    by_contra hlong
    have hge := two_pow_le_value h (List.ne_nil_of_length_pos (by omega))
    have hpow : (2 : ℤ) ^ 1023 ≤ 2 ^ (32 * (n.bits.length - 1)) := pow_le_pow_right₀ (by decide) (by omega)
    exact absurd (hpow.trans hge) (not_le.2 hlt)
  have hvalue : (0 : ℤ) + 2 ^ (32 * 0) * wordsValue false n.bits = n.value := by
    rw [mul_zero, pow_zero, one_mul, zero_add, value, h]
  have hltq : ((0 + 2 ^ (32 * 0) * wordsValue false n.bits : ℤ) : ℚ) < 2 ^ 1023 := by
    rw [hvalue]
    calc (n.value : ℚ) < ((2 ^ 1023 : ℤ) : ℚ) := Int.cast_lt.2 hlt
      _ = 2 ^ 1023 := Int.cast_pow 2 1023
  obtain ⟨x, hx, herr⟩ := wordsDouble_loop n.bits (i := 0) (x := 0) (by omega) le_rfl hltq (by norm_num)
  rw [hvalue] at herr
  refine ⟨x, ?_, herr.trans ?_⟩
  · rwa [toDouble_of_nonneg h]
  · rw [zero_add, div_mul_eq_mul_div, div_le_div_iff₀ (by norm_num) (by norm_num)]
    have hmax : (0 : ℚ) ≤ max (n.value : ℚ) 1 := zero_le_one.trans (le_max_right ..)
    have hlen : (n.bits.length : ℚ) ≤ 32 := by exact_mod_cast hlength
    calc (n.bits.length : ℚ) * max (n.value : ℚ) 1 * 100 ≤ 32 * max (n.value : ℚ) 1 * 100 := by
          exact mul_le_mul_of_nonneg_right (mul_le_mul_of_nonneg_right hlen hmax) (by norm_num)
      _ ≤ max (n.value : ℚ) 1 * 2 ^ 50 := by linarith

/-! ### The approximation -/

theorem fromDouble_natCast (a : ℕ) : fromDouble (.finite a) = fromNumber (some (a : ℤ)) := by
  rw [fromDouble, Int.floor_natCast]

theorem negative_eq_false {n : Integer} (h : 0 ≤ n.value) : n.negative = false :=
  Bool.eq_false_iff.2 fun hneg => not_lt.2 h ((negative_iff n).1 hneg)

/-- Doubles near to two integers have a quotient that is at most twice theirs. -/
theorem nearest_div_le {R O r o : ℚ} (hO : 1 ≤ O) (hle : O ≤ R) (hr : |r - R| ≤ R / 100) (ho : |o - O| ≤ O / 100) :
    0 < o ∧ 0 ≤ r / o ∧ |Double.nearest (r / o)| * O ≤ 2 * R := by
  obtain ⟨hrlow, hrhigh⟩ := abs_le.1 hr
  obtain ⟨holow, -⟩ := abs_le.1 ho
  have hopos : 0 < o := by linarith
  have hquot : 0 ≤ r / o := div_nonneg (by linarith) hopos.le
  have hQ : 1 ≤ R / O := (one_le_div (by linarith)).2 hle
  have hbound : r / o ≤ 3 / 2 * (R / O) := by
    rw [div_le_iff₀ hopos]
    have hR : R = R / O * O := (div_mul_cancel₀ _ (by linarith)).symm
    have hmul := mul_le_mul_of_nonneg_left (show 99 / 100 * O ≤ o by linarith) (show 0 ≤ 3 / 2 * (R / O) by linarith)
    nlinarith
  have hround := Double.abs_nearest_sub_le_max (r / o)
  have hmax : max |r / o| 1 ≤ 3 / 2 * (R / O) := by
    rw [abs_of_nonneg hquot]
    exact max_le hbound (by linarith)
  have hnear : |Double.nearest (r / o)| ≤ 2 * (R / O) := by
    have htri := abs_sub_abs_le_abs_sub (Double.nearest (r / o)) (r / o)
    rw [abs_of_nonneg hquot] at htri
    have hpart : max |r / o| 1 / 2 ^ 53 ≤ 1 / 2 * (R / O) := by
      rw [div_le_iff₀ (by norm_num)]
      linarith
    linarith
  refine ⟨hopos, hquot, ?_⟩
  calc |Double.nearest (r / o)| * O ≤ 2 * (R / O) * O := mul_le_mul_of_nonneg_right hnear (by linarith)
    _ = 2 * R := by rw [mul_assoc, div_mul_cancel₀ _ (by linarith)]

/-- The approximation is a double from one on, and at most twice the quotient. -/
theorem exists_approximation {rem other : Integer} (hrem : rem.value < 2 ^ 1023) (hother : 0 < other.value)
    (hle : other.value ≤ rem.value) :
    ∃ a m e : ℕ, approximation rem other = .finite a ∧ 1 ≤ a ∧ a * other.value ≤ 2 * rem.value ∧ a = m * 2 ^ e ∧
      m ≤ 2 ^ 53 := by
  have hone : (1 : ℚ) ≤ other.value := by exact_mod_cast hother
  have hleq : (other.value : ℚ) ≤ rem.value := by exact_mod_cast hle
  obtain ⟨r, hr, hrnear⟩ := exists_toDouble (negative_eq_false (hother.le.trans hle)) hrem
  obtain ⟨o, ho, honear⟩ := exists_toDouble (negative_eq_false hother.le) (hle.trans_lt hrem)
  rw [max_eq_left (by linarith)] at hrnear honear
  obtain ⟨hopos, hquot, hbound⟩ := nearest_div_le hone hleq hrnear honear
  have hfinite : |Double.nearest (r / o)| < 2 ^ 1024 := by
    have htwo : (2 : ℚ) ^ 1024 = 2 * 2 ^ 1023 := pow_succ' 2 1023
    have hremq : (rem.value : ℚ) < 2 ^ 1023 := by
      calc (rem.value : ℚ) < ((2 ^ 1023 : ℤ) : ℚ) := Int.cast_lt.2 hrem
        _ = 2 ^ 1023 := Int.cast_pow 2 1023
    rw [htwo]
    calc |Double.nearest (r / o)| ≤ |Double.nearest (r / o)| * other.value := le_mul_of_one_le_right (abs_nonneg _) hone
      _ ≤ 2 * rem.value := hbound
      _ < 2 * 2 ^ 1023 := mul_lt_mul_of_pos_left hremq two_pos
  obtain ⟨m, e, hfloor, hm⟩ := Double.exists_floor_nearest hquot
  have happrox : approximation rem other = .finite (max 1 (m * 2 ^ e : ℕ)) := by
    rw [approximation, hr, ho, Double.div, if_neg hopos.ne', Double.ofRat_of_lt hfinite, Double.floor, hfloor,
      Double.maximum]
    push_cast
    rfl
  rcases Nat.lt_or_ge (m * 2 ^ e) 1 with hzero | hpos
  · refine ⟨1, 1, 0, ?_, le_rfl, by omega, rfl, by norm_num⟩
    rw [happrox, max_eq_left (by exact_mod_cast hzero.le)]
    norm_num
  · refine ⟨m * 2 ^ e, m, e, ?_, hpos, ?_, rfl, hm⟩
    · rw [happrox, max_eq_right (by exact_mod_cast hpos)]
    · have hint : ((m * 2 ^ e : ℕ) : ℚ) ≤ |Double.nearest (r / o)| := by
        have hfloor' := (Int.floor_le (Double.nearest (r / o))).trans (le_abs_self _)
        rw [hfloor] at hfloor'
        exact_mod_cast hfloor'
      have hmul := (mul_le_mul_of_nonneg_right hint (by linarith : (0 : ℚ) ≤ other.value)).trans hbound
      exact_mod_cast hmul

/-! ### The steps of the approximation -/

/-- The doubles up to `a` are precise enough for the steps of `d`. -/
def OnGrid (a d : ℕ) : Prop := ∃ m k e : ℕ, a = m * 2 ^ e ∧ d = k * 2 ^ e ∧ m ≤ 2 ^ 53

theorem exists_delta (log : BinaryLogarithm) {a m e : ℕ} (hpos : 1 ≤ a) (ha : a = m * 2 ^ e) (hm : m ≤ 2 ^ 53) :
    ∃ d : ℕ, delta log (.finite a) = .finite d ∧ 1 ≤ d ∧ (d = 1 ∨ 4 * d ≤ a) ∧ OnGrid a d := by
  obtain ⟨hlow, hhigh⟩ := log.near a (by exact_mod_cast hpos)
  rw [delta]
  split_ifs with hsmall
  · have hle : (a : ℚ) ≤ ((2 ^ 49 : ℕ) : ℚ) := by
      refine hhigh.trans ?_
      rw [Nat.cast_pow, ← zpow_natCast]
      exact zpow_le_zpow_right₀ (by norm_num) (by push_cast; omega)
    have hle : a ≤ 2 ^ 49 := by exact_mod_cast hle
    exact ⟨1, by norm_num, le_rfl, .inl rfl, a, 1, 0, by simp, by simp, by omega⟩
  · obtain ⟨j, hj⟩ : ∃ j : ℕ, log.ceil a = j + 48 := ⟨(log.ceil a - 48).toNat, by omega⟩
    rw [hj] at hlow hhigh ⊢
    have hlow : 2 ^ (j + 46) ≤ a := by
      rw [show (j : ℤ) + 48 - 2 = (j + 46 : ℕ) by push_cast; ring, zpow_natCast] at hlow
      exact_mod_cast hlow
    have hhigh : a ≤ 2 ^ (j + 49) := by
      rw [show (j : ℤ) + 48 + 1 = (j + 49 : ℕ) by push_cast; ring, zpow_natCast] at hhigh
      exact_mod_cast hhigh
    rw [pow_add] at hlow hhigh
    refine ⟨2 ^ j, ?_, Nat.one_le_two_pow, .inr (by omega), ?_⟩
    · rw [add_sub_cancel_right, zpow_natCast]
      push_cast
      rfl
    rcases Nat.le_total e j with hej | hje
    · exact ⟨m, 2 ^ (j - e), e, ha, by rw [← pow_add, Nat.sub_add_cancel hej], hm⟩
    · have hsplit : a = m * 2 ^ (e - j) * 2 ^ j := by rw [ha, mul_assoc, ← pow_add, Nat.sub_add_cancel hje]
      refine ⟨m * 2 ^ (e - j), 1, j, hsplit, (one_mul _).symm, ?_⟩
      rw [hsplit, mul_comm (2 ^ j)] at hhigh
      exact (Nat.le_of_mul_le_mul_right hhigh (by positivity)).trans (by norm_num)

/-- A step down is not rounded. -/
theorem OnGrid.sub {a d : ℕ} (h : OnGrid a d) (hle : d ≤ a) (hlt : (a : ℚ) < 2 ^ 1024) :
    (Double.finite a).sub (.finite d) = .finite (a - d : ℕ) ∧ OnGrid (a - d) d := by
  obtain ⟨m, k, e, ha, hd, hm⟩ := h
  have hdiff : a - d = (m - k) * 2 ^ e := by rw [ha, hd, Nat.sub_mul]
  refine ⟨?_, m - k, k, e, hdiff, hd, by omega⟩
  have hsum : (a : ℚ) + -d = ((m - k : ℕ) : ℤ) * 2 ^ (e : ℤ) := by
    rw [← sub_eq_add_neg, ← Nat.cast_sub hle, hdiff]
    push_cast
    rw [zpow_natCast]
  have hcast : (((m - k : ℕ) : ℤ) : ℚ) * 2 ^ (e : ℤ) = (a - d : ℕ) := by
    rw [hdiff]
    push_cast
    rw [zpow_natCast]
  rw [Double.sub, Double.neg, Double.add, hsum, Double.ofRat_eq_self, hcast]
  · rw [Nat.abs_cast]
    exact_mod_cast (Nat.sub_le m k).trans hm
  · omega
  · rw [hcast, Nat.abs_cast]
    exact (Nat.cast_le.2 (Nat.sub_le a d)).trans_lt hlt

/-! ### The loops -/

/-- An approximation of the quotient that the steps bring below it, but not to zero. -/
structure Approximates (other rem : ℤ) (delta approx : Double) (a d : ℕ) : Prop where
  approx_eq : approx = .finite a
  delta_eq : delta = .finite d
  approx_pos : 1 ≤ a
  delta_pos : 1 ≤ d
  approx_le : a * other ≤ 2 * rem
  delta_le : d = 1 ∨ 2 * d * other ≤ rem
  grid : OnGrid a d

/-- What is divided is what the result and the remainder stand for. -/
structure Divided (this other res rem : ℤ) : Prop where
  res_nonneg : 0 ≤ res
  rem_nonneg : 0 ≤ rem
  sum : res * other + rem = this

theorem Divided.rem_le {this other res rem : ℤ} (h : Divided this other res rem) (hother : 0 < other) : rem ≤ this := by
  have hmul := mul_nonneg h.res_nonneg hother.le
  linarith [h.sum]

def DivisionInv (this other : ℤ) : Division → Prop
  | .outer res rem => Divided this other res.value rem.value
  | .inner res rem delta approx => Divided this other res.value rem.value ∧ other ≤ rem.value ∧
      ∃ a d, Approximates other rem.value delta approx a d

/-- The remainder falls in the outer loop and the approximation in the inner one. -/
def divisionMeasure (this : ℤ) : Division → ℕ
  | .outer _ rem => ((2 * this + 2) * rem.value + (2 * this + 1)).toNat
  | .inner _ rem _ approx => ((2 * this + 2) * rem.value + match approx with | .finite a => ⌊a⌋ | _ => 0).toNat

theorem le_of_mul_le {a : ℕ} {O R : ℤ} (hO : 0 < O) (h : a * O ≤ 2 * R) : (a : ℤ) ≤ 2 * R := by
  have hmul : (a : ℤ) * 1 ≤ a * O := mul_le_mul_of_nonneg_left hO (by positivity)
  linarith

section
variable (log : BinaryLogarithm) {this other : Integer}

/-- In the outer loop the quotient is approximated, or the result is left with what remains below the divisor. -/
theorem outer_pass (hlt : this.value < 2 ^ 1023) (hother : 0 < other.value) {res rem : Integer}
    (h : Divided this.value other.value res.value rem.value) :
    (∃ result, divisionPass log other (.outer res rem) = .inr result ∧ result.value = this.value / other.value) ∨
      ∃ next, divisionPass log other (.outer res rem) = .inl next ∧ DivisionInv this.value other.value next ∧
        divisionMeasure this.value next < divisionMeasure this.value (.outer res rem) := by
  have hremle := h.rem_le hother
  simp only [divisionPass, compare_eq, ge_iff_le, Int.sign_nonneg_iff, Int.sub_nonneg]
  split_ifs with hle
  · obtain ⟨a, m, e, happrox, hapos, hale, ha, hm⟩ := exists_approximation (hremle.trans_lt hlt) hother hle
    obtain ⟨d, hdelta, hdpos, hdle, hgrid⟩ := exists_delta log hapos ha hm
    refine .inr ⟨_, rfl, ⟨h, hle, a, d, happrox, ?_, hapos, hdpos, hale, ?_, hgrid⟩, ?_⟩
    · rw [happrox, hdelta]
    · refine hdle.imp_right fun hd => ?_
      have hmul : (4 * d : ℤ) * other.value ≤ a * other.value :=
        mul_le_mul_of_nonneg_right (by exact_mod_cast hd) hother.le
      linarith
    · have hmul : 0 ≤ (2 * this.value + 2) * rem.value := mul_nonneg (by linarith [h.rem_nonneg]) h.rem_nonneg
      have hbound := le_of_mul_le hother hale
      simp only [divisionMeasure, happrox, Int.floor_natCast]
      generalize (2 * this.value + 2) * rem.value = P at hmul ⊢
      omega
  · refine .inl ⟨_, rfl, ?_⟩
    have hsum : this.value = rem.value + res.value * other.value := by linarith [h.sum]
    rw [hsum, Int.add_mul_ediv_right _ _ hother.ne', Int.ediv_eq_zero_of_lt h.rem_nonneg (not_le.1 hle), zero_add]

/-- In the inner loop the approximation goes down, or its product is taken off the remainder. -/
theorem inner_pass (hlt : this.value < 2 ^ 1023) (hother : 0 < other.value)
    (hexact : ∀ a : ℕ, ((fromNumber (some (a : ℤ))).multiply other).value = a * other.value) {res rem : Integer}
    {delta approx : Double} {a d : ℕ} (h : Divided this.value other.value res.value rem.value)
    (hle : other.value ≤ rem.value) (ha : Approximates other.value rem.value delta approx a d) :
    ∃ next, divisionPass log other (.inner res rem delta approx) = .inl next ∧
      DivisionInv this.value other.value next ∧
        divisionMeasure this.value next < divisionMeasure this.value (.inner res rem delta approx) := by
  have hremle := h.rem_le hother
  have hproduct : 0 ≤ a * other.value := mul_nonneg (Int.natCast_nonneg a) hother.le
  have hP : 0 ≤ (2 * this.value + 2) * rem.value := mul_nonneg (by linarith [h.rem_nonneg]) h.rem_nonneg
  have hapos := ha.approx_pos
  obtain rfl := ha.approx_eq
  obtain rfl := ha.delta_eq
  have hnegative : ((fromNumber (some (a : ℤ))).multiply other).negative = false :=
    negative_eq_false (by rwa [hexact])
  simp only [divisionPass, fromDouble_natCast, hnegative, Bool.false_or, compare_eq, hexact, gt_iff_lt,
    Int.sign_pos_iff, Int.sub_pos, decide_eq_true_eq]
  by_cases hlarge : rem.value < a * other.value
  · have hda : d < a := by
      rcases ha.delta_le with rfl | hd
      · refine lt_of_le_of_ne hapos fun hone => ?_
        rw [← hone, Nat.cast_one, one_mul] at hlarge
        exact not_lt.2 hle hlarge
      · have hdlt : (2 * d : ℤ) < a := lt_of_mul_lt_mul_right (hd.trans_lt hlarge) hother.le
        omega
    have hbound : (a : ℚ) < 2 ^ 1024 := by
      have haint : (a : ℤ) < 2 ^ 1024 := by
        have htwo : (2 : ℤ) ^ 1024 = 2 * 2 ^ 1023 := pow_succ' 2 1023
        rw [htwo]
        exact (le_of_mul_le hother ha.approx_le).trans_lt (mul_lt_mul_of_pos_left (hremle.trans_lt hlt) two_pos)
      calc (a : ℚ) = ((a : ℤ) : ℚ) := (Int.cast_natCast a).symm
        _ < ((2 ^ 1024 : ℤ) : ℚ) := Int.cast_lt.2 haint
        _ = 2 ^ 1024 := Int.cast_pow 2 1024
    obtain ⟨hsub, hgrid⟩ := ha.grid.sub hda.le hbound
    have hdpos := ha.delta_pos
    refine ⟨_, if_pos hlarge, ⟨h, hle, a - d, d, hsub, rfl, by omega, hdpos, ?_, ha.delta_le, hgrid⟩, ?_⟩
    · have hmul : ((a - d : ℕ) : ℤ) * other.value ≤ a * other.value :=
        mul_le_mul_of_nonneg_right (by omega) hother.le
      exact hmul.trans ha.approx_le
    · simp only [divisionMeasure, hsub, Int.floor_natCast]
      generalize (2 * this.value + 2) * rem.value = P at hP ⊢
      omega
  · have hzero : (fromNumber (some (a : ℤ))).isZero = false := by
      rw [Bool.eq_false_iff, ne_eq, isZero_iff, value_fromNumber]
      omega
    have hprogress : 1 ≤ a * other.value := Int.mul_pos (by omega) hother
    refine ⟨_, if_neg hlarge, ⟨?_, ?_, ?_⟩, ?_⟩
    · rw [hzero, if_neg (by decide), value_add, value_fromNumber]
      exact add_nonneg h.res_nonneg (Int.natCast_nonneg a)
    · rw [value_subtract, hexact]
      linarith
    · rw [hzero, if_neg (by decide), value_add, value_fromNumber, value_subtract, hexact]
      linarith [h.sum]
    · have hmul : 2 * this.value + 2 ≤ (2 * this.value + 2) * (a * other.value) :=
        le_mul_of_one_le_right (by linarith [h.rem_nonneg]) hprogress
      have hdiff : (2 * this.value + 2) * (rem.subtract ((fromNumber (some (a : ℤ))).multiply other)).value =
          (2 * this.value + 2) * rem.value - (2 * this.value + 2) * (a * other.value) := by
        rw [value_subtract, hexact]
        ring
      have hnext : 0 ≤ (2 * this.value + 2) * (rem.subtract ((fromNumber (some (a : ℤ))).multiply other)).value := by
        rw [value_subtract, hexact]
        exact mul_nonneg (by linarith [h.rem_nonneg]) (by linarith)
      simp only [divisionMeasure, Int.floor_natCast]
      rw [hdiff] at hnext ⊢
      generalize (2 * this.value + 2) * rem.value = P at hP hnext ⊢
      generalize (2 * this.value + 2) * (a * other.value) = A at hmul hnext ⊢
      omega

/-- The loops return the quotient. -/
theorem exists_quotient (hthis : 0 ≤ this.value) (hlt : this.value < 2 ^ 1023) (hother : 0 < other.value)
    (hexact : ∀ a : ℕ, ((fromNumber (some (a : ℤ))).multiply other).value = a * other.value) :
    ∃ result, Loop.Returns (divisionPass log other) (.outer zero this) result ∧
      result.value = this.value / other.value := by
  refine Loop.exists_returns (P := DivisionInv this.value other.value) (divisionMeasure this.value) ?_ ?_
  · intro s hs
    cases s with
    | outer res rem => exact outer_pass log hlt hother hs
    | inner res rem delta approx =>
        obtain ⟨h, hle, a, d, ha⟩ := hs
        exact .inr (inner_pass log hlt hother hexact h hle ha)
  · exact ⟨le_rfl, hthis, by rw [value_zero, zero_mul, zero_add]⟩

end

/-! ### Signs -/

theorem magnitude_of_nonneg {n : Integer} (h : n.negative = false) : n.magnitude = n := by
  rw [magnitude, h, if_neg (by decide)]

theorem magnitude_of_neg {n : Integer} (h : n.negative = true) : n.magnitude = n.negate := by
  rw [magnitude, h, if_pos rfl]

/-- The quotient of the absolute values, with its sign. -/
def signed (this other quotient : Integer) : Integer :=
  if this.negative = other.negative then quotient else quotient.negate

theorem isZero_negate (n : Integer) : n.negate.isZero = n.isZero := by
  rw [Bool.eq_iff_iff, isZero_iff, isZero_iff, value_negate, neg_eq_zero]

/-- The signs are taken off and the loops divide the absolute values. -/
theorem divide_eq (log : BinaryLogarithm) (fuel : ℕ) {this other : Integer} (hthis : this.isZero = false)
    (hother : other.isZero = false) :
    divide log fuel this other =
      (Loop.run (divisionPass log other.magnitude) fuel (.outer zero this.magnitude)).map
        fun quotient => .ok (signed this other quotient) := by
  have hpos (a b : Integer) (ha : a.negative = false) (hb : b.negative = false) (hza : a.isZero = false)
      (hzb : b.isZero = false) :
      divide log fuel a b = (Loop.run (divisionPass log b) fuel (.outer zero a)).map .ok := by
    rw [divide]
    simp only [ha, hb, hza, hzb, Bool.false_eq_true, if_false]
  have hzthis := (isZero_negate this).trans hthis
  have hzother := (isZero_negate other).trans hother
  cases ha : this.negative with
  | false =>
      cases hb : other.negative with
      | false =>
          rw [hpos this other ha hb hthis hother, magnitude_of_nonneg ha, magnitude_of_nonneg hb]
          simp only [signed, ha, hb, if_true]
      | true =>
          rw [divide]
          simp only [ha, hb, hthis, hother, Bool.false_eq_true, if_false, if_true]
          rw [hpos this _ ha (negative_negate hb) hthis hzother, magnitude_of_nonneg ha, magnitude_of_neg hb,
            Option.map_map]
          simp only [signed, ha, hb, Bool.false_eq_true, if_false]
          rfl
  | true =>
      rw [divide]
      cases hb : other.negative with
      | false =>
          simp only [ha, hthis, hother, Bool.false_eq_true, if_false, if_true]
          rw [hpos _ other (negative_negate ha) hb hzthis hother, magnitude_of_neg ha, magnitude_of_nonneg hb,
            Option.map_map]
          simp only [signed, ha, hb, Bool.true_eq_false, if_false]
          rfl
      | true =>
          simp only [ha, hthis, hother, Bool.false_eq_true, if_false, if_true]
          rw [hpos _ _ (negative_negate ha) (negative_negate hb) hzthis hzother, magnitude_of_neg ha,
            magnitude_of_neg hb]
          simp only [signed, ha, hb, if_true]

theorem divide_mono (log : BinaryLogarithm) {this other : Integer} {fuel more : ℕ} {result : Except String Integer}
    (hle : fuel ≤ more) (h : divide log fuel this other = some result) : divide log more this other = some result := by
  cases hother : other.isZero with
  | true =>
      rw [divide, if_pos hother] at h ⊢
      exact h
  | false =>
      cases hthis : this.isZero with
      | true =>
          rw [divide, if_neg (by simp [hother]), if_pos hthis] at h ⊢
          exact h
      | false =>
          rw [divide_eq log _ hthis hother, Option.map_eq_some_iff] at h ⊢
          obtain ⟨quotient, hrun, hresult⟩ := h
          exact ⟨quotient, Loop.run_mono hle hrun, hresult⟩

theorem value_signed {this other quotient : Integer}
    (h : quotient.value = this.magnitude.value / other.magnitude.value) :
    (signed this other quotient).value = this.value.tdiv other.value := by
  have hthis : 0 ≤ this.magnitude.value := by rw [value_magnitude]; positivity
  rw [← Int.tdiv_eq_ediv_of_nonneg hthis] at h
  have hvalue (n : Integer) : n.magnitude.value = if n.negative then -n.value else n.value := by
    rw [magnitude]
    split_ifs
    · exact value_negate n
    · rfl
  rw [hvalue, hvalue] at h
  rw [signed]
  cases ha : this.negative <;> cases hb : other.negative <;>
    simp only [ha, hb, Bool.false_eq_true, Bool.true_eq_false, if_true, if_false, Int.neg_tdiv, Int.tdiv_neg, neg_neg,
      value_negate] at h ⊢ <;> rw [h]
  all_goals rw [neg_neg]

/-- The digits in base `65536` leave room for a carry. -/
def NoFullHalf (v : ℕ) : Prop := ∀ i, v / 65536 ^ i % 65536 ≠ 65535

theorem value_multiply_of_noFullHalf (a : Integer) {b : Integer} (h : NoFullHalf b.value.natAbs) :
    (a.multiply b).value = a.value * b.value := by
  rw [value_multiply_iff_magnitude, value_multiply_iff_of_nonneg (value_magnitude a) (value_magnitude b)]
  intro i k
  apply columnFits_of_half
  have := h k
  omega

/-- With enough fuel a division below `2 ^ 1023` ends, rounded towards zero. -/
theorem exists_divide (log : BinaryLogarithm) {this other : Integer} (hlt : this.value.natAbs < 2 ^ 1023)
    (hne : other.value ≠ 0) (hother : NoFullHalf other.value.natAbs) :
    ∃ fuel quotient, divide log fuel this other = some (.ok quotient) ∧
      quotient.value = this.value.tdiv other.value := by
  have hzother : other.isZero = false := Bool.eq_false_iff.2 fun h => hne ((isZero_iff other).1 h)
  cases hzthis : this.isZero with
  | true =>
      refine ⟨0, zero, ?_, ?_⟩
      · rw [divide, hzother, hzthis, if_neg (by decide), if_pos rfl]
      · rw [(isZero_iff this).1 hzthis, Int.zero_tdiv, value_zero]
  | false =>
      have hpositive : 0 < other.magnitude.value := by
        rw [value_magnitude]
        omega
      have hexact (a : ℕ) :
          ((fromNumber (some (a : ℤ))).multiply other.magnitude).value = a * other.magnitude.value := by
        rw [value_multiply_of_noFullHalf _ (by rwa [value_magnitude, Int.natAbs_natCast]), value_fromNumber]
      obtain ⟨quotient, ⟨fuel, hrun⟩, hvalue⟩ := exists_quotient log
        (show 0 ≤ this.magnitude.value by rw [value_magnitude]; exact Int.natCast_nonneg _)
        (by rw [value_magnitude]; exact_mod_cast hlt) hpositive hexact
      refine ⟨fuel, _, ?_, value_signed hvalue⟩
      rw [divide_eq log fuel hzthis hzother, hrun, Option.map_some]

/-- Division and remainder truncate, like those of mathematics that go with the signs. -/
theorem divide_exact (log : BinaryLogarithm) {this other : Integer} (hlt : this.value.natAbs < 2 ^ 1023)
    (hne : other.value ≠ 0) (hother : NoFullHalf other.value.natAbs) :
    ∃ fuel quotient remainder, divide log fuel this other = some (.ok quotient) ∧
      modulo log fuel this other = some (.ok remainder) ∧ quotient.value = this.value.tdiv other.value ∧
        remainder.value = this.value.tmod other.value := by
  obtain ⟨fuel, quotient, hdivide, hquotient⟩ := exists_divide log hlt hne hother
  refine ⟨fuel, quotient, this.subtract (quotient.multiply other), hdivide, ?_, hquotient, ?_⟩
  · rw [modulo, hdivide]
    rfl
  · rw [value_subtract, value_multiply_of_noFullHalf quotient hother, hquotient, Int.tmod_def, mul_comm]

/-- The logarithm without an error. -/
def BinaryLogarithm.exact : BinaryLogarithm where
  ceil := Int.clog 2
  near x hx := by
    have hpos : 0 < x := zero_lt_one.trans_le hx
    have hlow : (2 : ℚ) ^ (Int.clog 2 x - 1) < x := by
      exact_mod_cast Int.zpow_pred_clog_lt_self (b := 2) (by norm_num) hpos
    have hhigh : x ≤ (2 : ℚ) ^ Int.clog 2 x := by
      exact_mod_cast Int.self_le_zpow_clog (b := 2) (by norm_num) x
    exact ⟨(zpow_le_zpow_right₀ (by norm_num) (by omega)).trans hlow.le,
      hhigh.trans (zpow_le_zpow_right₀ (by norm_num) (by omega))⟩

def exampleInteger : Integer := fromNumber (some (123456789012345678901234567890 : ℕ))

theorem divide_exact_million : ∃ fuel quotient remainder,
    divide .exact fuel exampleInteger (new [1000000] false) = some (.ok quotient) ∧
      modulo .exact fuel exampleInteger (new [1000000] false) = some (.ok remainder) ∧
      quotient.value = exampleInteger.value.tdiv (new [1000000] false).value ∧
      remainder.value = exampleInteger.value.tmod (new [1000000] false).value := by
  have hvalue : (new [1000000] false).value = 1000000 := by
    rw [value_new]
    rfl
  refine divide_exact .exact ?_ (by rw [hvalue]; decide) ?_
  · rw [exampleInteger, value_fromNumber, Int.natAbs_natCast]
    exact (by decide : 123456789012345678901234567890 < 2 ^ 100).trans_le
      (pow_le_pow_right₀ one_le_two (by decide : 100 ≤ 1023))
  · rw [hvalue]
    rintro (_ | _ | i)
    · decide
    · decide
    · have hpow : 65536 ^ 2 ≤ 65536 ^ (i + 2) := Nat.pow_le_pow_right (by decide) (by omega)
      rw [Nat.div_eq_of_lt (hpow.trans_lt' (by decide))]
      decide

/-! ### Integers that are no doubles -/

/-- A double that is not below zero, or no number. -/
def NonnegOrNan : Double → Prop
  | .finite x => 0 ≤ x
  | .infinity negative => negative = false
  | .nan => True

/-- The doubles behind the largest one. -/
def Overflow (d : Double) : Prop := d = .infinity false ∨ d = .nan

theorem Overflow.nonnegOrNan {d : Double} (h : Overflow d) : NonnegOrNan d := by
  rcases h with rfl | rfl
  · rfl
  · trivial

theorem Overflow.add {a b : Double} (ha : Overflow a) (hb : NonnegOrNan b) : Overflow (a.add b) := by
  rcases ha with rfl | rfl
  · cases b with
    | finite x => exact .inl rfl
    | infinity s => exact .inl (by rw [Double.add, show s = false from hb]; rfl)
    | nan => exact .inr rfl
  · cases b with
    | finite x => exact .inr rfl
    | infinity s => exact .inr rfl
    | nan => exact .inr rfl

theorem NonnegOrNan.add_overflow {a b : Double} (ha : NonnegOrNan a) (hb : Overflow b) : Overflow (a.add b) := by
  cases a with
  | finite x => rcases hb with rfl | rfl <;> simp [Double.add, Overflow]
  | infinity s => exact Overflow.add (.inl (by rw [show s = false from ha])) hb.nonnegOrNan
  | nan => exact Overflow.add (.inr rfl) hb.nonnegOrNan

theorem nonneg_nearest {x : ℚ} (h : 0 ≤ x) : 0 ≤ Double.nearest x := by
  have hquot := div_nonneg h (Double.ulp_pos x).le
  refine mul_nonneg ?_ (Double.ulp_pos x).le
  have hround := (abs_le.1 (Double.abs_roundHalfEven_sub_le (x / Double.ulp x))).1
  have hgt : (-1 : ℚ) < Double.roundHalfEven (x / Double.ulp x) := by linarith
  have hint : (-1 : ℤ) < Double.roundHalfEven (x / Double.ulp x) := by exact_mod_cast hgt
  exact_mod_cast (by omega : 0 ≤ Double.roundHalfEven (x / Double.ulp x))

theorem nonnegOrNan_ofRat {x : ℚ} (h : 0 ≤ x) : NonnegOrNan (.ofRat x) := by
  rw [Double.ofRat]
  split_ifs
  · exact nonneg_nearest h
  · exact decide_eq_false (not_lt.2 h)

theorem NonnegOrNan.add {a b : Double} (ha : NonnegOrNan a) (hb : NonnegOrNan b) : NonnegOrNan (a.add b) := by
  cases a with
  | finite x =>
      cases b with
      | finite y => exact nonnegOrNan_ofRat (add_nonneg ha hb)
      | infinity s => exact hb
      | nan => trivial
  | infinity s => exact (Overflow.add (.inl (by rw [show s = false from ha])) hb).nonnegOrNan
  | nan => exact (Overflow.add (.inr rfl) hb).nonnegOrNan

/-- A word times its power. -/
theorem nonnegOrNan_mul_powAt (w : BitVec 32) (i : ℕ) : NonnegOrNan ((Double.finite w.toNat).mul (powAt i)) := by
  rw [powAt]
  split_ifs
  · exact nonnegOrNan_ofRat (by positivity)
  · rw [Double.mul]
    split_ifs
    · trivial
    · rw [NonnegOrNan, Bool.false_xor]
      exact decide_eq_false (not_lt.2 (Nat.cast_nonneg _))

theorem nonnegOrNan_foldl (ws : List (BitVec 32)) {d : Double} (i : ℕ) (hd : NonnegOrNan d) :
    NonnegOrNan (ws.foldl addWord (d, powAt i)).1 := by
  induction ws generalizing d i with
  | nil => exact hd
  | cons w ws ih =>
      rw [List.foldl_cons, addWord, powAt_succ]
      exact ih (i + 1) (hd.add (nonnegOrNan_mul_powAt w i))

/-- The power of a word behind the first 32 is infinite. -/
theorem overflow_mul_powAt (w : BitVec 32) {i : ℕ} (hi : 32 ≤ i) :
    Overflow ((Double.finite w.toNat).mul (powAt i)) := by
  rw [powAt, if_neg (by omega), Double.mul]
  split_ifs
  · exact .inr rfl
  · exact .inl (by rw [decide_eq_false (not_lt.2 (Nat.cast_nonneg _))]; rfl)

theorem overflow_foldl (ws : List (BitVec 32)) {d : Double} {i : ℕ} (hd : NonnegOrNan d) (hlong : 32 < i + ws.length)
    (hi : 32 < i → Overflow d) : Overflow (ws.foldl addWord (d, powAt i)).1 := by
  induction ws generalizing d i with
  | nil => exact hi hlong
  | cons w ws ih =>
      rw [List.length_cons] at hlong
      rw [List.foldl_cons, addWord, powAt_succ]
      exact ih (hd.add (nonnegOrNan_mul_powAt w i)) (by omega)
        fun hnext => hd.add_overflow (overflow_mul_powAt w (by omega))

/-- An integer of more than 1024 bits is no double. -/
theorem overflow_toDouble {n : Integer} (h : n.negative = false) (hge : 2 ^ 1024 ≤ n.value) : Overflow n.toDouble := by
  rw [toDouble_of_nonneg h]
  refine overflow_foldl n.bits (le_refl (0 : ℚ)) ?_ fun hlt => absurd hlt (by decide)
  by_contra hshort
  have hvalue := wordsValue_lt n.bits
  have hpow : (2 : ℤ) ^ (32 * n.bits.length) ≤ 2 ^ 1024 := pow_le_pow_right₀ (by decide) (by omega)
  rw [value, h] at hge
  exact absurd (hge.trans_lt hvalue) (not_lt.2 hpow)

theorem Overflow.div {a b : Double} (ha : Overflow a) (hb : NonnegOrNan b) : Overflow (a.div b) := by
  rcases ha with rfl | rfl
  · cases b with
    | finite x => exact .inl (by rw [Double.div, decide_eq_false (not_lt.2 hb)]; rfl)
    | infinity s => exact .inr rfl
    | nan => exact .inr rfl
  · cases b <;> exact .inr rfl

theorem overflow_approximation {rem other : Integer} (hrem : 2 ^ 1024 ≤ rem.value) (hother : other.negative = false) :
    Overflow (approximation rem other) := by
  have hrem₀ : rem.negative = false := negative_eq_false ((pow_nonneg (by decide) _).trans hrem)
  have hdiv := (overflow_toDouble hrem₀ hrem).div (b := other.toDouble)
    (by rw [toDouble_of_nonneg hother]; exact nonnegOrNan_foldl _ 0 (le_refl (0 : ℚ)))
  rw [approximation]
  rcases hdiv with h | h
  · exact .inl (by rw [h]; rfl)
  · exact .inr (by rw [h]; rfl)

theorem fromDouble_overflow {d : Double} (h : Overflow d) : fromDouble d = zero := by
  rcases h with rfl | rfl <;> rfl

/-- An infinite approximation is taken for one, and nothing is taken off the remainder. -/
theorem not_divides (log : BinaryLogarithm) {this other : Integer} (hthis : 2 ^ 1024 ≤ this.value)
    (hother : 0 < other.value) (hle : other.value ≤ this.value) (result : Integer) :
    ¬ Loop.Returns (divisionPass log other) (.outer zero this) result := by
  refine Loop.not_returns (P := fun s => match s with
    | .outer _ rem => rem = this
    | .inner _ rem _ approx => rem = this ∧ Overflow approx) ?_ rfl
  intro s hs
  have hnegative : other.negative = false := negative_eq_false hother.le
  cases s with
  | outer res rem =>
      obtain rfl : rem = this := hs
      refine ⟨_, if_pos ?_, rfl, overflow_approximation hthis hnegative⟩
      rw [compare_eq, ge_iff_le, Int.sign_nonneg_iff, Int.sub_nonneg]
      exact hle
  | inner res rem delta approx =>
      obtain ⟨rfl, happrox⟩ := hs
      have hproduct : ((zero.multiply other).value) = 0 := by
        rw [value_multiply_of_isZero (.inl rfl), value_zero, zero_mul]
      have hkept : rem.subtract (zero.multiply other) = rem := by
        apply eq_of_value_eq
        rw [value_subtract, hproduct, sub_zero]
      refine ⟨.outer (res.add one) rem, ?_, rfl⟩
      simp only [divisionPass, fromDouble_overflow happrox, compare_eq, hproduct, hkept,
        negative_eq_false hproduct.ge, Bool.false_or, gt_iff_lt, Int.sign_pos_iff, decide_eq_true_eq]
      rw [if_neg (by omega), if_pos ((isZero_iff zero).2 rfl)]

end CqlDriver.Integer
