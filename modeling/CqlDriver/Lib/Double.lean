import Mathlib.Data.Int.Log
import Mathlib.Tactic

/-! # Numbers in double precision

The doubles are the rationals that they denote, the two infinities and `NaN`.  An operation rounds the exact result to
53 bits, and to infinity from `2 ^ 1024` on; the two zeros are one.  A rational of at most 53 bits is not rounded
(`nearest_eq_self`), and a rounded one is off by at most half of the last bit (`abs_nearest_sub_le`). -/

inductive Double where
  | finite (x : ℚ)
  | infinity (negative : Bool)
  | nan
deriving DecidableEq

namespace Double

/-- The nearest integer, the even one of two. -/
def roundHalfEven (x : ℚ) : ℤ :=
  if x - ⌊x⌋ < 1 / 2 ∨ x - ⌊x⌋ = 1 / 2 ∧ ⌊x⌋ % 2 = 0 then ⌊x⌋ else ⌊x⌋ + 1

/-- The weight of the last bit of a rational. -/
def ulp (x : ℚ) : ℚ := 2 ^ max (Int.log 2 |x| - 52) (-1074)

def nearest (x : ℚ) : ℚ := roundHalfEven (x / ulp x) * ulp x

def ofRat (x : ℚ) : Double := if |nearest x| < 2 ^ 1024 then finite (nearest x) else infinity (decide (x < 0))

def neg : Double → Double
  | finite x => finite (-x)
  | infinity s => infinity !s
  | nan => nan

def add : Double → Double → Double
  | finite x, finite y => ofRat (x + y)
  | infinity s, finite _ | finite _, infinity s => infinity s
  | infinity s, infinity t => if s = t then infinity s else nan
  | nan, _ | _, nan => nan

def sub (a b : Double) : Double := a.add b.neg

def mul : Double → Double → Double
  | finite x, finite y => ofRat (x * y)
  | infinity s, finite x | finite x, infinity s => if x = 0 then nan else infinity (s ^^ decide (x < 0))
  | infinity s, infinity t => infinity (s ^^ t)
  | nan, _ | _, nan => nan

def div : Double → Double → Double
  | finite x, finite y => if y = 0 then (if x = 0 then nan else infinity (decide (x < 0))) else ofRat (x / y)
  | finite _, infinity _ => finite 0
  | infinity s, finite y => infinity (s ^^ decide (y < 0))
  | infinity _, infinity _ => nan
  | nan, _ | _, nan => nan

/-- `Math.floor` -/
def floor : Double → Double
  | finite x => finite ⌊x⌋
  | d => d

/-- `Math.max` -/
def maximum : Double → Double → Double
  | finite x, finite y => finite (max x y)
  | infinity s, d | d, infinity s => if d = nan then nan else if s then d else infinity false
  | nan, _ | _, nan => nan

/-! ### Rounding -/

theorem abs_roundHalfEven_sub_le (x : ℚ) : |(roundHalfEven x : ℚ) - x| ≤ 1 / 2 := by
  have hle := Int.floor_le x
  have hlt := Int.lt_floor_add_one x
  rw [roundHalfEven, abs_le]
  split_ifs with h
  · have hhalf : x - ⌊x⌋ ≤ 1 / 2 := h.elim le_of_lt fun h => h.1.le
    constructor <;> linarith
  · rw [not_or, not_lt] at h
    push_cast
    constructor <;> linarith [h.1]

theorem roundHalfEven_intCast (n : ℤ) : roundHalfEven n = n := by
  rw [roundHalfEven, Int.floor_intCast, if_pos (.inl (by norm_num))]

theorem ulp_pos (x : ℚ) : 0 < ulp x := by
  rw [ulp]
  positivity

theorem abs_nearest_sub_le (x : ℚ) : |nearest x - x| ≤ ulp x / 2 := by
  have hpos := ulp_pos x
  have hround := abs_roundHalfEven_sub_le (x / ulp x)
  have hx : nearest x - x = (roundHalfEven (x / ulp x) - x / ulp x) * ulp x := by
    rw [nearest, sub_mul, div_mul_cancel₀ _ hpos.ne']
  rw [hx, abs_mul, abs_of_pos hpos]
  linarith [mul_le_mul_of_nonneg_right hround hpos.le]

theorem ulp_le (x : ℚ) : ulp x ≤ max |x| 1 / 2 ^ 52 := by
  rcases le_total 1 |x| with h | h
  · have hpos : 0 < |x| := zero_lt_one.trans_le h
    have hlog := Int.log_mono_right (b := 2) one_pos h
    rw [Int.log_one_right] at hlog
    have hpow := Int.zpow_log_le_self (b := 2) (by norm_num) hpos
    rw [ulp, max_eq_left h, max_eq_left (by omega), zpow_sub₀ (by norm_num)]
    exact div_le_div_of_nonneg_right (by exact_mod_cast hpow) (by positivity)
  · have hlog : Int.log 2 |x| ≤ 0 := by
      rw [Int.log_of_right_le_one 2 h]
      omega
    rw [ulp, max_eq_right h, ← zpow_natCast, one_div, ← zpow_neg]
    exact zpow_le_zpow_right₀ (by norm_num) (by omega)

/-- Above one a rational is rounded by at most one part in `2 ^ 53`. -/
theorem abs_nearest_sub_le_max (x : ℚ) : |nearest x - x| ≤ max |x| 1 / 2 ^ 53 := by
  have hround := abs_nearest_sub_le x
  have hulp := ulp_le x
  have hsplit : max |x| 1 / 2 ^ 52 = 2 * (max |x| 1 / 2 ^ 53) := by ring
  linarith

theorem nearest_of_div_ulp {x : ℚ} {n : ℤ} (h : x / ulp x = n) : nearest x = x := by
  rw [nearest, h, roundHalfEven_intCast, ← h, div_mul_cancel₀ _ (ulp_pos x).ne']

/-- At most 53 bits in front of an exponent are not rounded. -/
theorem nearest_eq_self {m e : ℤ} (hm : |m| ≤ 2 ^ 53) (he : -1074 ≤ e) : nearest (m * 2 ^ e) = m * 2 ^ e := by
  rcases eq_or_ne m 0 with rfl | hne
  · apply nearest_of_div_ulp (n := 0)
    simp
  have hpow : (0 : ℚ) < 2 ^ e := by positivity
  have habs : |(m : ℚ) * 2 ^ e| = |(m : ℚ)| * 2 ^ e := by rw [abs_mul, abs_of_pos hpow]
  have hmq : |(m : ℚ)| ≤ 2 ^ 53 := by exact_mod_cast hm
  have hpos : 0 < |(m : ℚ) * 2 ^ e| := abs_pos.2 (mul_ne_zero (by exact_mod_cast hne) hpow.ne')
  have hlog : Int.log 2 |(m : ℚ) * 2 ^ e| < e + 54 := by
    rw [← Int.lt_zpow_iff_log_lt (by norm_num) hpos, habs]
    push_cast
    rw [zpow_add₀ (by norm_num), mul_comm (2 ^ e)]
    exact mul_lt_mul_of_pos_right (hmq.trans_lt (by norm_num)) hpow
  set k := max (Int.log 2 |(m : ℚ) * 2 ^ e| - 52) (-1074) with hk
  have hulp : ulp (m * 2 ^ e) = 2 ^ k := rfl
  rcases (by omega : k ≤ e ∨ k = e + 1) with hle | hone
  · apply nearest_of_div_ulp (n := m * 2 ^ (e - k).toNat)
    rw [hulp]
    push_cast
    rw [← zpow_natCast, Int.toNat_of_nonneg (by omega), zpow_sub₀ (by norm_num)]
    ring
  -- only the largest of them has 54 bits
  · have hlast : Int.log 2 |(m : ℚ) * 2 ^ e| = e + 53 := by omega
    have hle := Int.zpow_log_le_self (b := 2) (by norm_num) hpos
    rw [hlast, habs] at hle
    push_cast at hle
    rw [zpow_add₀ (by norm_num), mul_comm (2 ^ e)] at hle
    have hge : (2 : ℤ) ^ 53 ≤ |m| := by exact_mod_cast le_of_mul_le_mul_right hle hpow
    obtain ⟨n, hn⟩ : ∃ n : ℤ, m = 2 * n := by
      rcases abs_choice m with h | h
      · exact ⟨2 ^ 52, by omega⟩
      · exact ⟨-2 ^ 52, by omega⟩
    apply nearest_of_div_ulp (n := n)
    rw [hulp, hone, hn, zpow_add₀ (by norm_num)]
    push_cast
    field_simp

/-- The integral part of a rounded rational has at most 53 bits in front of an exponent. -/
theorem exists_floor_nearest {x : ℚ} (hx : 0 ≤ x) : ∃ m e : ℕ, ⌊nearest x⌋ = m * 2 ^ e ∧ m ≤ 2 ^ 53 := by
  have hpos := ulp_pos x
  have hquot : 0 ≤ x / ulp x := div_nonneg hx hpos.le
  have hlt : x / ulp x < 2 ^ 53 := by
    rw [div_lt_iff₀ hpos]
    have hlog := Int.lt_zpow_succ_log_self (b := 2) (by norm_num) |x|
    push_cast at hlog
    rw [abs_of_nonneg hx] at hlog
    refine hlog.trans_le ?_
    rw [ulp, ← zpow_natCast, ← zpow_add₀ (by norm_num), abs_of_nonneg hx]
    exact zpow_le_zpow_right₀ (by norm_num) (by push_cast; omega)
  have hround := abs_le.1 (abs_roundHalfEven_sub_le (x / ulp x))
  have hnonneg : 0 ≤ roundHalfEven (x / ulp x) := by
    have hgt : (-1 : ℚ) < roundHalfEven (x / ulp x) := by linarith [hround.1]
    have hint : (-1 : ℤ) < roundHalfEven (x / ulp x) := by exact_mod_cast hgt
    omega
  have hle : roundHalfEven (x / ulp x) ≤ 2 ^ 53 := by
    have hlast : (roundHalfEven (x / ulp x) : ℚ) < 2 ^ 53 + 1 := by linarith [hround.2]
    have hint : roundHalfEven (x / ulp x) < 2 ^ 53 + 1 := by exact_mod_cast hlast
    omega
  obtain ⟨m, hm⟩ := Int.eq_ofNat_of_zero_le hnonneg
  rw [nearest, hm, ulp]
  rw [hm] at hle
  rcases le_total 0 (max (Int.log 2 |x| - 52) (-1074)) with he | he
  · obtain ⟨e, he⟩ := Int.eq_ofNat_of_zero_le he
    refine ⟨m, e, ?_, by exact_mod_cast hle⟩
    rw [he, zpow_natCast, Int.floor_eq_iff]
    push_cast
    constructor <;> linarith
  · set unit := (2 : ℚ) ^ max (Int.log 2 |x| - 52) (-1074) with hunit
    have hunit₀ : 0 ≤ unit := by rw [hunit]; positivity
    have hunit₁ : unit ≤ 1 := zpow_le_one_of_nonpos₀ (by norm_num) he
    have hnat : (0 : ℚ) ≤ ((m : ℤ) : ℚ) := by positivity
    have hfloor : ⌊((m : ℤ) : ℚ) * unit⌋ ≤ m := by
      have hmul := Int.floor_mono (mul_le_of_le_one_right hnat hunit₁)
      rwa [Int.floor_intCast] at hmul
    obtain ⟨k, hk⟩ := Int.eq_ofNat_of_zero_le (Int.floor_nonneg.2 (mul_nonneg hnat hunit₀))
    rw [hk] at hfloor ⊢
    exact ⟨k, 0, by rw [pow_zero, mul_one], by omega⟩

/-! ### Operations -/

theorem ofRat_of_lt {x : ℚ} (h : |nearest x| < 2 ^ 1024) : ofRat x = finite (nearest x) := by
  rw [ofRat, if_pos h]

/-- Numbers of at most 53 bits in front of an exponent are computed with as they are. -/
theorem ofRat_eq_self {m e : ℤ} (hm : |m| ≤ 2 ^ 53) (he : -1074 ≤ e) (h : |(m : ℚ) * 2 ^ e| < 2 ^ 1024) :
    ofRat (m * 2 ^ e) = finite (m * 2 ^ e) := by
  rw [ofRat_of_lt, nearest_eq_self hm he]
  rwa [nearest_eq_self hm he]

end Double
