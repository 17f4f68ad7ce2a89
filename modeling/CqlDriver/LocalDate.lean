import CqlDriver.Lib.MachineInt
import CqlDriver.Lib.Gregorian

/-! # Calendar dates (`src/types/local_date.rs`)

`Ymd` is the date record of the native module.  The functions are those of the `impl Ymd`
block, with `i32` and `i8` arithmetic of a release build: every operation is reduced with
`wrap 32` or `wrap 8`, and division truncates towards zero.  The `i64` of `from_days` always
holds a value that came from an `i32`, so its operations are those of `ℤ`.

* `toDays` is compared with `Gregorian.dayNumber` in `toDays_eq`: the branch for the years
  `0 ≤ y < 1970` subtracts the leap years up to `y + 1` instead of up to `y`.
* `fromDays` runs an estimate-and-correct loop over years; it is modelled with fuel, `none`
  meaning that the loop has not ended yet. -/

namespace CqlDriver.LocalDate

open MachineInt Gregorian

/-- The `i32` operations of a release build. -/
def add32 (a b : ℤ) : ℤ := wrap 32 (a + b)
def sub32 (a b : ℤ) : ℤ := wrap 32 (a - b)
def mul32 (a b : ℤ) : ℤ := wrap 32 (a * b)

/-- Max and min date range of the Date class in JS. -/
def maxJsDate : ℤ := 100000000
def minJsDate : ℤ := -maxJsDate

/-- Number of leap years up to 1970. -/
def leapYear1970 : ℤ := 477

/-- Number of days to the beginning of each month. -/
def dayInMonth : List ℤ := [0, 31, 59, 90, 120, 151, 181, 212, 243, 273, 304, 334]

inductive DateInvalid where
  | month
  | day
  | format
deriving DecidableEq, Repr

/-- The message attached to each variant. -/
def DateInvalid.message : DateInvalid → String
  | month => "Invalid month"
  | day => "Invalid number of day"
  | format => "Invalid format of string"

/-- Checks whether the year is leap year. -/
def isLeapYear (year : ℤ) : Bool :=
  (year.tmod 4 == 0 && year.tmod 100 != 0) || year.tmod 400 == 0

def numberLeapYears (n : ℤ) : ℤ := add32 (sub32 (n.tdiv 4) (n.tdiv 100)) (n.tdiv 400)

structure Ymd where
  year : ℤ
  month : ℤ
  day : ℤ
deriving DecidableEq, Repr

namespace Ymd

/-- The number of days in a month. -/
def daysInMonth (month year : ℤ) : ℤ :=
  if month ∈ [1, 3, 5, 7, 8, 10, 12] then 31
  else if month ∈ [4, 6, 9, 11] then 30
  else if month = 2 then (if isLeapYear year then 29 else 28)
  else 0

/-- `Ymd::new`: the month is checked before the day. -/
def new (year month day : ℤ) : Except DateInvalid Ymd :=
  if ¬(1 ≤ month ∧ month ≤ 12) then .error .month
  else if ¬(1 ≤ day ∧ day ≤ daysInMonth month year) then .error .day
  else .ok ⟨year, month, day⟩

/-- Day of the year, from `0`.  A month outside `1..12` is an index panic in the source; it
never reaches this function. -/
def numberDay (self : Ymd) : ℤ :=
  sub32 (add32 (add32 (dayInMonth.getD (self.month - 1).toNat 0)
    (if isLeapYear self.year ∧ self.month > 2 then 1 else 0)) self.day) 1

/-- `to_days`: the number of days since 01.01.1970. -/
def toDays (self : Ymd) : ℤ :=
  let totalDays : ℤ := 0
  let numberDay := self.numberDay
  if self.year ≥ 1970 then
    add32 totalDays (add32 (sub32 (add32 (mul32 (sub32 self.year 1970) 365)
      (numberLeapYears (sub32 self.year 1))) leapYear1970) numberDay)
  else
    let totalDays := sub32 totalDays (sub32 (if isLeapYear self.year then 366 else 365) numberDay)
    if self.year < 0 then
      -- the trailing `1` is the leap day of year 0
      sub32 totalDays (add32 (add32 (add32 (mul32 (sub32 (sub32 1970 self.year) 1) 365)
        (numberLeapYears |add32 self.year 1|)) leapYear1970) 1)
    else
      sub32 totalDays (sub32 (add32 (mul32 (sub32 (sub32 1970 self.year) 1) 365) leapYear1970)
        (numberLeapYears (add32 self.year 1)))

/-- The `while` loop of `from_days` on `(year, n)`, for at most `fuel` tests of its condition. -/
def fromDaysLoop : ℕ → ℤ → ℤ → Option (ℤ × ℤ)
  | 0, _, _ => none
  | fuel + 1, year, n =>
      if 365 ≤ |n| then
        let k := wrap 32 (n.tdiv 365)
        -- year 0 is a leap year that the truncating count of leap years does not see
        let n := if year > 0 ∧ add32 year k < 0 then n + 1
          else if year < 0 ∧ add32 year k > 0 then n - 1 else n
        let year := add32 year k
        let n := n - add32 (sub32 (mul32 k 365) (numberLeapYears (sub32 (sub32 year k) 1)))
          (numberLeapYears (sub32 year 1))
        fromDaysLoop fuel year n
      else some (year, n)

/-- `enumerate().filter(..).max_by_key(..)` on the month table: the last index of a largest
entry not above `n`. -/
def lastMonth (n : ℤ) : Option ℕ :=
  (dayInMonth.zipIdx.foldl (fun acc (x, i) =>
    if x ≤ n then
      match acc with
      | none => some (x, i)
      | some (x', i') => if x' ≤ x then some (x, i) else some (x', i')
    else acc) none).map Prod.snd

/-- The rest of `from_days`: `n` is the offset from the first of January of `year`.  An empty
search is the `unwrap` panic of the source, which offsets in `0..365` never reach. -/
def fromDaysEnd (year n : ℤ) : Option Ymd :=
  let (year, n) :=
    if n < 0 then
      (sub32 year 1, n + if isLeapYear (sub32 year 1) then 366 else 365)
    else (year, n)
  let n' := if isLeapYear year ∧ n ≥ 60 then n - 1 else n
  if ¬(isLeapYear year ∧ n ≥ 60) ∧ isLeapYear year ∧ n > 31 then
    some ⟨year, 2, wrap 8 (n - 30)⟩
  else
    (lastMonth n').map fun (index : ℕ) =>
      ⟨year, wrap 8 (index + 1), wrap 8 (wrap 8 (n' - dayInMonth.getD index 0) + 1)⟩

/-- `from_days`: `none` while the loop is still running, `some none` outside the JS range. -/
def fromDays (fuel : ℕ) (n : ℤ) : Option (Option Ymd) :=
  if ¬(minJsDate ≤ wrap 32 n ∧ wrap 32 n ≤ maxJsDate) then some none
  else (fromDaysLoop fuel 1970 n).map fun (year, n) => fromDaysEnd year n

end Ymd

/-! ### Leap years and month tables -/

theorem isLeapYear_iff (y : ℤ) : isLeapYear y = true ↔ Leap y := by
  have h4 := Int.dvd_iff_tmod_eq_zero (a := 4) (b := y)
  have h100 := Int.dvd_iff_tmod_eq_zero (a := 100) (b := y)
  have h400 := Int.dvd_iff_tmod_eq_zero (a := 400) (b := y)
  simp only [isLeapYear, Bool.or_eq_true, Bool.and_eq_true, beq_iff_eq, bne_iff_ne, ne_eq, Leap,
    ← h4, ← h100, ← h400]
  omega

/-- The leap years counted by `number_leap_years` for a non-negative argument. -/
theorem numberLeapYears_of_nonneg {n : ℤ} (h : 0 ≤ n) (h' : n < 2147483648) :
    numberLeapYears n = leapsBefore (n + 1) := by
  simp only [numberLeapYears, add32, sub32, tdiv_of_nonneg h, wrap_wrap_add, leapsBefore]
  rw [wrap32_eq_self (by omega) (by omega)]
  have e : n + 1 - 1 = n := by omega
  rw [e]

/-- For a negative argument the truncating divisions count symmetrically around `0`. -/
theorem numberLeapYears_of_neg {n : ℤ} (h : n < 0) (h' : -2147483648 < n) :
    numberLeapYears n = -leapsBefore (1 - n) := by
  simp only [numberLeapYears, add32, sub32, tdiv_of_neg h, wrap_wrap_add, leapsBefore]
  rw [wrap32_eq_self (by omega) (by omega)]
  have e : 1 - n - 1 = -n := by omega
  rw [e]
  omega

theorem daysInMonth_eq {y m : ℤ} (h₁ : 1 ≤ m) (h₂ : m ≤ 12) :
    Ymd.daysInMonth m y = monthLength y m := by
  have hl := isLeapYear_iff y
  unfold Ymd.daysInMonth monthLength
  interval_cases m <;> simp [hl]

/-- `Ymd::new` accepts exactly the dates of the calendar. -/
theorem new_eq_ok_iff {y m d : ℤ} {ymd : Ymd} :
    Ymd.new y m d = .ok ymd ↔ IsDate y m d ∧ ymd = ⟨y, m, d⟩ := by
  unfold Ymd.new
  by_cases hm : 1 ≤ m ∧ m ≤ 12
  · rw [if_neg (not_not.mpr hm), daysInMonth_eq hm.1 hm.2]
    by_cases hd : 1 ≤ d ∧ d ≤ monthLength y m
    · rw [if_neg (not_not.mpr hd)]
      constructor
      · rintro h
        exact ⟨⟨hm.1, hm.2, hd.1, hd.2⟩, by injection h with h; exact h.symm⟩
      · rintro ⟨_, rfl⟩
        rfl
    · rw [if_pos hd]
      constructor
      · intro h; cases h
      · rintro ⟨h, _⟩; exact absurd ⟨h.day_pos, h.day_le⟩ hd
  · rw [if_pos hm]
    constructor
    · intro h; cases h
    · rintro ⟨h, _⟩; exact absurd ⟨h.month_pos, h.month_le⟩ hm

/-- The month table with the leap day added from March on is the calendar's. -/
theorem dayInMonth_eq {y m : ℤ} (h₁ : 1 ≤ m) (h₂ : m ≤ 12) :
    dayInMonth.getD (m - 1).toNat 0 + (if isLeapYear y ∧ m > 2 then 1 else 0) =
      monthStart y (m - 1).toNat := by
  have hl := isLeapYear_iff y
  interval_cases m <;> by_cases h : Leap y <;> simp [hl, h, dayInMonth, monthStart, monthLength]

theorem numberDay_eq {y m d : ℤ} (h : IsDate y m d) :
    (Ymd.mk y m d).numberDay = dayNumber y m d - yearStart y := by
  have hm := dayNumber_mem_year h
  have hs := yearStart_succ y
  have hl : yearLength y ≤ 366 := by unfold yearLength; split_ifs <;> omega
  simp only [Ymd.numberDay, add32, sub32, wrap_wrap_add, wrap_wrap_sub]
  rw [dayInMonth_eq h.month_pos h.month_le]
  unfold dayNumber at hm ⊢
  rw [wrap32_eq_self (by omega) (by omega)]
  omega

/-! ### `to_days` -/

theorem ite_isLeapYear (y : ℤ) : (if isLeapYear y = true then (366 : ℤ) else 365) = yearLength y := by
  simp only [isLeapYear_iff, yearLength]

/-- A day number in `i32` bounds the year, so that no year of the computation wraps. -/
theorem year_bounds {y m d : ℤ} (h : IsDate y m d) (hf : Fits 32 (dayNumber y m d)) :
    -5883517 ≤ y ∧ y ≤ 5883517 := by
  have hm := dayNumber_mem_year h
  obtain ⟨h1, h2⟩ := hf
  norm_num at h1 h2
  unfold yearStart leapsBefore at hm
  omega

/-- `to_days` for every year of an `i32`, branch by branch: only the last sum can wrap. -/
theorem toDays_eq_wrap {y m d : ℤ} (h : IsDate y m d) (hy : Fits 32 y) :
    (Ymd.mk y m d).toDays =
      wrap 32 (dayNumber y m d + if 0 ≤ y ∧ y < 1970 ∧ Leap (y + 1) then 1 else 0) := by
  obtain ⟨hlo, hhi⟩ := hy
  norm_num at hlo hhi
  have hnd := numberDay_eq h
  have hsucc := yearStart_succ y
  simp only [Ymd.toDays, add32, sub32, mul32, wrap_wrap_add, wrap_add_wrap, wrap_wrap_sub,
    wrap_sub_wrap, wrap_wrap_mul, hnd, ite_isLeapYear, leapYear1970]
  by_cases h1970 : y ≥ 1970
  · rw [if_pos h1970, if_neg (by omega), wrap32_eq_self (x := y - 1) (by omega) (by omega),
      numberLeapYears_of_nonneg (by omega) (by omega)]
    congr 1
    unfold yearStart
    rw [leapsBefore_epoch]
    have e : y - 1 + 1 = y := by omega
    rw [e]
    ring
  · rw [if_neg h1970, wrap32_eq_self (x := y + 1) (by omega) (by omega)]
    by_cases h0 : y < 0
    · rw [if_pos h0, if_neg (by omega), abs_of_nonpos (by omega),
        numberLeapYears_of_nonneg (by omega) (by omega)]
      congr 1
      have hlen := hsucc
      unfold yearStart leapsBefore at hlen ⊢
      have e : -(y + 1) + 1 - 1 = -y - 1 := by omega
      rw [e]
      omega
    · rw [if_neg h0, numberLeapYears_of_nonneg (by omega) (by omega), leapsBefore_succ (y + 1)]
      congr 1
      have hlen := hsucc
      unfold yearStart at hlen ⊢
      rw [leapsBefore_epoch] at hlen ⊢
      by_cases hl : Leap (y + 1)
      · rw [if_pos hl, if_pos ⟨by omega, by omega, hl⟩]
        omega
      · rw [if_neg hl, if_neg (fun h => hl h.2.2)]
        omega

theorem toDays_eq {y m d : ℤ} (h : IsDate y m d) (hf : Fits 32 (dayNumber y m d)) :
    (Ymd.mk y m d).toDays =
      wrap 32 (dayNumber y m d + if 0 ≤ y ∧ y < 1970 ∧ Leap (y + 1) then 1 else 0) := by
  obtain ⟨hlo, hhi⟩ := year_bounds h hf
  exact toDays_eq_wrap h ⟨by norm_num; omega, by norm_num; omega⟩

/-- Outside of the years `0 ≤ y < 1970` that stand before a leap year, nothing is added. -/
theorem toDays_eq_of_not_leap {y m d : ℤ} (h : IsDate y m d) (hf : Fits 32 (dayNumber y m d))
    (hc : ¬(0 ≤ y ∧ y < 1970 ∧ Leap (y + 1))) : (Ymd.mk y m d).toDays = dayNumber y m d := by
  rw [toDays_eq h hf, if_neg hc, add_zero]
  obtain ⟨hlo, hhi⟩ := hf
  norm_num at hlo hhi
  exact wrap32_eq_self (by omega) (by omega)

/-- Among these dates `to_days` keeps the calendar order. -/
theorem toDays_lt_of_before {y m d y' m' d' : ℤ} (h : IsDate y m d) (h' : IsDate y' m' d')
    (hf : Fits 32 (dayNumber y m d)) (hf' : Fits 32 (dayNumber y' m' d'))
    (hc : ¬(0 ≤ y ∧ y < 1970 ∧ Leap (y + 1))) (hc' : ¬(0 ≤ y' ∧ y' < 1970 ∧ Leap (y' + 1)))
    (hb : Before y m d y' m' d') : (Ymd.mk y m d).toDays < (Ymd.mk y' m' d').toDays := by
  rw [toDays_eq_of_not_leap h hf hc, toDays_eq_of_not_leap h' hf' hc']
  exact dayNumber_lt_of_before h h' hb

/-- In the other years the day too many survives the wrap: their day numbers are far from the border of
`i32`. -/
theorem toDays_eq_of_leap {y m d : ℤ} (h : IsDate y m d) (hc : 0 ≤ y ∧ y < 1970 ∧ Leap (y + 1)) :
    (Ymd.mk y m d).toDays = dayNumber y m d + 1 ∧ -719528 ≤ dayNumber y m d ∧ dayNumber y m d < 0 := by
  have hm := dayNumber_mem_year h
  have h1 := yearStart_strictMono.monotone (show y + 1 ≤ 1970 by omega)
  have h0 := yearStart_strictMono.monotone (show 0 ≤ y by omega)
  have e1 : yearStart 1970 = 0 := by decide
  have e0 : yearStart 0 = -719528 := by decide
  rw [toDays_eq_wrap h ⟨by norm_num; omega, by norm_num; omega⟩, if_pos hc,
    wrap32_eq_self (by omega) (by omega)]
  omega

/-- `to_days` returns the day number of the date exactly when its year is not one of
`0 ≤ y < 1970` that stand before a leap year. -/
theorem toDays_eq_dayNumber_iff {y m d : ℤ} {ymd : Ymd} (hnew : Ymd.new y m d = .ok ymd)
    (hf : Fits 32 (dayNumber y m d)) :
    ymd.toDays = dayNumber y m d ↔ ¬(0 ≤ y ∧ y < 1970 ∧ Leap (y + 1)) := by
  obtain ⟨h, rfl⟩ := new_eq_ok_iff.mp hnew
  by_cases hc : 0 ≤ y ∧ y < 1970 ∧ Leap (y + 1)
  · rw [(toDays_eq_of_leap h hc).1]
    exact iff_of_false (by omega) (not_not.mpr hc)
  · exact iff_of_true (toDays_eq_of_not_leap h hf hc) hc

theorem toDays_eq_dayNumber_iff_leap_day :
    (Ymd.mk 1968 2 29).toDays = dayNumber 1968 2 29 ↔ ¬(0 ≤ (1968 : ℤ) ∧ (1968 : ℤ) < 1970 ∧ Leap (1968 + 1)) :=
  toDays_eq_dayNumber_iff (show Ymd.new 1968 2 29 = .ok ⟨1968, 2, 29⟩ by decide) (by decide)

/-- The last day of 1967 gets the number of the first day of 1968. -/
theorem toDays_not_dayNumber :
    Ymd.new 1967 12 31 = .ok ⟨1967, 12, 31⟩ ∧ Fits 32 (dayNumber 1967 12 31) ∧
      (Ymd.mk 1967 12 31).toDays ≠ dayNumber 1967 12 31 ∧
      (Ymd.mk 1967 12 31).toDays = (Ymd.mk 1968 1 1).toDays := by
  decide

/-! ### `from_days` -/

/-- One pass through the loop, with the reductions to `i32` removed. -/
theorem fromDaysLoop_step {fuel : ℕ} {year n : ℤ} (hn : 365 ≤ |n|)
    (hlo : -100000000 ≤ n) (hhi : n ≤ 100000000) (hyl : -1000000 ≤ year) (hyh : year ≤ 1000000) :
    Ymd.fromDaysLoop (fuel + 1) year n =
      Ymd.fromDaysLoop fuel (year + n.tdiv 365)
        ((if year > 0 ∧ year + n.tdiv 365 < 0 then n + 1
          else if year < 0 ∧ year + n.tdiv 365 > 0 then n - 1 else n) -
          (n.tdiv 365 * 365 - numberLeapYears (year - 1) + numberLeapYears (year + n.tdiv 365 - 1))) := by
  have hk : -273973 ≤ n.tdiv 365 ∧ n.tdiv 365 ≤ 273973 := by
    rcases lt_or_ge n 0 with h | h
    · rw [tdiv_of_neg h]; omega
    · rw [tdiv_of_nonneg h]; omega
  obtain ⟨hk1, hk2⟩ := hk
  have e1 : year + n.tdiv 365 - n.tdiv 365 - 1 = year - 1 := by omega
  have b : ∀ x : ℤ, -2000000 ≤ x → x ≤ 2000000 →
      -1000000 ≤ numberLeapYears x ∧ numberLeapYears x ≤ 1000000 := by
    intro x h1 h2
    rcases lt_or_ge x 0 with h | h
    · rw [numberLeapYears_of_neg h (by omega)]; unfold leapsBefore; omega
    · rw [numberLeapYears_of_nonneg h (by omega)]; unfold leapsBefore; omega
  obtain ⟨b1, b2⟩ := b (year - 1) (by omega) (by omega)
  obtain ⟨b3, b4⟩ := b (year + n.tdiv 365 - 1) (by omega) (by omega)
  have w1 : wrap 32 (n.tdiv 365) = n.tdiv 365 := wrap32_eq_self (by omega) (by omega)
  have w2 : wrap 32 (year + n.tdiv 365) = year + n.tdiv 365 := wrap32_eq_self (by omega) (by omega)
  have w3 : wrap 32 (year - 1) = year - 1 := wrap32_eq_self (by omega) (by omega)
  have w4 : wrap 32 (year + n.tdiv 365 - 1) = year + n.tdiv 365 - 1 :=
    wrap32_eq_self (by omega) (by omega)
  rw [Ymd.fromDaysLoop, if_pos hn]
  simp only [add32, sub32, mul32, w1, w2, wrap_wrap_sub, wrap_wrap_add, e1, w3, w4]
  rw [wrap32_eq_self (by omega) (by omega)]

/-- The day number that the loop takes for the first of January of `y`.  `crossed` records that
the loop went from a positive to a negative year, where it adds the leap day of year `0`. -/
def codeStart (crossed : Bool) (y : ℤ) : ℤ :=
  if 0 < y then yearStart y
  else yearStart y + (if crossed then 0 else 1) - (if Leap (y - 1) then 1 else 0)

theorem leap_pred_neg (y : ℤ) : Leap (1 - y) ↔ Leap (y - 1) := by
  unfold Leap
  omega

theorem numberLeapYears_pred_of_pos {y : ℤ} (h : 0 < y) (h' : y < 2147483648) :
    numberLeapYears (y - 1) = leapsBefore y := by
  rw [numberLeapYears_of_nonneg (by omega) (by omega), sub_add_cancel]

theorem numberLeapYears_pred_of_nonpos {y : ℤ} (h : y ≤ 0) (h' : -2147483647 < y) :
    numberLeapYears (y - 1) = leapsBefore y + 1 - if Leap (y - 1) then 1 else 0 := by
  have e : 1 - (y - 1) = (1 - y) + 1 := by omega
  rw [numberLeapYears_of_neg (by omega) (by omega), e, leapsBefore_succ]
  simp only [leap_pred_neg]
  have : leapsBefore y = -(1 + leapsBefore (1 - y)) := by unfold leapsBefore; omega
  omega

/-- What one pass preserves: the loop's `n` is the day number it was called with, counted from
its own idea of the first of January of `year`. -/
theorem step_codeStart {N n y k : ℤ} (hn : n = N - codeStart (decide (y < 0)) y)
    (hyl : -1000000 ≤ y) (hyh : y ≤ 1000000) (hkl : -1000000 ≤ y + k) (hkh : y + k ≤ 1000000) :
    (if y > 0 ∧ y + k < 0 then n + 1 else if y < 0 ∧ y + k > 0 then n - 1 else n) -
        (k * 365 - numberLeapYears (y - 1) + numberLeapYears (y + k - 1)) =
      N - codeStart (decide (y < 0 ∨ (0 < y ∧ y + k < 0))) (y + k) := by
  subst hn
  -- The four cases are the signs of the year before and after the pass.
  rcases lt_or_ge 0 y with hy | hy <;> rcases lt_or_ge 0 (y + k) with hk | hk
  · rw [if_neg (by omega), if_neg (by omega), numberLeapYears_pred_of_pos hy (by omega),
      numberLeapYears_pred_of_pos hk (by omega)]
    simp only [codeStart, hy, hk, if_true, yearStart]
    omega
  · rw [numberLeapYears_pred_of_pos hy (by omega), numberLeapYears_pred_of_nonpos hk (by omega)]
    simp only [codeStart, hy, if_true, not_lt.mpr hk, if_false, yearStart, true_and,
      decide_eq_true_eq]
    split_ifs <;> omega
  · rw [numberLeapYears_pred_of_nonpos hy (by omega), numberLeapYears_pred_of_pos hk (by omega),
      if_neg (by omega)]
    simp only [codeStart, hk, if_true, not_lt.mpr hy, if_false, yearStart, and_true,
      decide_eq_true_eq]
    split_ifs <;> omega
  · rw [numberLeapYears_pred_of_nonpos hy (by omega), numberLeapYears_pred_of_nonpos hk (by omega),
      if_neg (by omega), if_neg (by omega)]
    simp only [codeStart, not_lt.mpr hk, not_lt.mpr hy, if_false, yearStart, false_and, or_false,
      decide_eq_true_eq]
    split_ifs <;> omega

theorem fromDaysLoop_stop {fuel : ℕ} {year n : ℤ} (hn : |n| < 365) :
    Ymd.fromDaysLoop (fuel + 1) year n = some (year, n) := by
  rw [Ymd.fromDaysLoop, if_neg (by omega)]

/-- The day number of the first of January differs between the loop and the calendar only in
years `≤ 0`, by the leap day of year `0` or of the year before. -/
theorem codeStart_bounds (c : Bool) (y : ℤ) :
    yearStart y - 1 ≤ codeStart c y ∧ codeStart c y ≤ yearStart y + 1 := by
  unfold codeStart
  split_ifs <;> omega

theorem codeStart_true_iff (y : ℤ) : codeStart true y = yearStart y ↔ 0 < y ∨ ¬ Leap (y - 1) := by
  unfold codeStart
  by_cases hp : 0 < y
  · simp [hp]
  · by_cases hL : Leap (y - 1)
    · rw [if_neg hp, if_pos rfl, if_pos hL]
      exact iff_of_false (by omega) (by tauto)
    · rw [if_neg hp, if_pos rfl, if_neg hL]
      exact iff_of_true (by omega) (Or.inr hL)

/-- The first estimate of the year: `365`-day years from 1970. -/
def firstEstimate (n : ℤ) : ℤ := 1970 + n.tdiv 365

/-- One pass from a state whose offset is counted from `codeStart`. -/
theorem fromDaysLoop_pass {fuel : ℕ} {N n y : ℤ} (h : n = N - codeStart (decide (y < 0)) y)
    (hn : 365 ≤ |n|) (hlo : -100000000 ≤ n) (hhi : n ≤ 100000000) (hyl : -600000 ≤ y)
    (hyh : y ≤ 600000) :
    Ymd.fromDaysLoop (fuel + 1) y n =
      Ymd.fromDaysLoop fuel (y + n.tdiv 365)
        (N - codeStart (decide (y < 0 ∨ (0 < y ∧ y + n.tdiv 365 < 0))) (y + n.tdiv 365)) := by
  have hk : -273973 ≤ n.tdiv 365 ∧ n.tdiv 365 ≤ 273973 := by
    rcases lt_or_ge n 0 with h | h
    · rw [tdiv_of_neg h]; omega
    · rw [tdiv_of_nonneg h]; omega
  rw [fromDaysLoop_step hn hlo hhi (by omega) (by omega),
    step_codeStart h (by omega) (by omega) (by omega) (by omega)]

/-- A non-negative day number: the first pass overshoots to a later year, a second one comes
back. -/
theorem fromDaysLoop_of_nonneg (fuel : ℕ) {n : ℤ} (hn : 365 ≤ n) (hhi : n ≤ 100000000) :
    ∃ Y, Ymd.fromDaysLoop (fuel + 3) 1970 n = some (Y, n - yearStart Y) ∧ |n - yearStart Y| < 365 ∧
      0 < Y ∧ Y ≤ 600000 := by
  have e0 : codeStart (decide ((1970 : ℤ) < 0)) 1970 = 0 := by decide
  rw [fromDaysLoop_pass (N := n) (by rw [e0, sub_zero]) (by rw [abs_of_nonneg] <;> omega)
    (by omega) hhi (by omega) (by omega), tdiv_of_nonneg (by omega)]
  have hb := leapsBefore_sub_le (show 1970 ≤ 1970 + n / 365 by omega)
  have hm := leapsBefore_mono (show 1970 ≤ 1970 + n / 365 by omega)
  have hp : 0 < 1970 + n / 365 := by omega
  simp only [codeStart, if_pos hp]
  set y₁ := 1970 + n / 365 with hy₁
  by_cases h1 : |n - yearStart y₁| < 365
  · exact ⟨y₁, fromDaysLoop_stop h1, h1, by omega, by omega⟩
  · -- the second pass goes back `k` years, `k ≤ 190`
    have hle : n - yearStart y₁ ≤ 364 := by
      unfold yearStart
      omega
    have hr : n - yearStart y₁ < 0 := by
      by_contra hge
      rw [abs_of_nonneg (by omega)] at h1
      omega
    rw [abs_of_neg hr] at h1
    rw [fromDaysLoop_pass (N := n) (by simp only [codeStart, if_pos hp])
      (by rw [abs_of_neg hr]; omega) (by unfold yearStart; omega) (by omega) (by omega) (by omega),
      tdiv_of_neg hr]
    have hk : -(n - yearStart y₁) / 365 ≤ 190 := by
      unfold yearStart
      omega
    have hk0 : 0 ≤ -(n - yearStart y₁) / 365 := by omega
    set k := -(n - yearStart y₁) / 365 with hkdef
    have hp2 : 0 < y₁ + -k := by
      unfold yearStart at hkdef
      omega
    have hb2 := leapsBefore_sub_le (show y₁ + -k ≤ y₁ by omega)
    have hm2 := leapsBefore_mono (show y₁ + -k ≤ y₁ by omega)
    simp only [codeStart, if_pos hp2]
    have habs : |n - yearStart (y₁ + -k)| < 365 := by
      rw [abs_lt]
      unfold yearStart at hkdef ⊢
      constructor <;> omega
    exact ⟨y₁ + -k, fromDaysLoop_stop habs, habs, hp2, by omega⟩

/-- A negative day number whose first estimate is a positive year: at most one correction. -/
theorem fromDaysLoop_of_estimate_pos (fuel : ℕ) {n : ℤ} (hn : n ≤ -365) (hlo : -100000000 ≤ n)
    (he : 0 < firstEstimate n) :
    ∃ Y, Ymd.fromDaysLoop (fuel + 3) 1970 n = some (Y, n - yearStart Y) ∧ |n - yearStart Y| < 365 ∧
      0 < Y ∧ Y ≤ 600000 := by
  have e0 : codeStart (decide ((1970 : ℤ) < 0)) 1970 = 0 := by decide
  rw [fromDaysLoop_pass (N := n) (by rw [e0, sub_zero]) (by rw [abs_of_neg] <;> omega)
    hlo (by omega) (by omega) (by omega)]
  unfold firstEstimate at he
  simp only [codeStart, if_pos he]
  rw [tdiv_of_neg (by omega)] at he ⊢
  have h1 := leapsBefore_mono (show 1 ≤ 1970 + -(-n / 365) by omega)
  have h2 := leapsBefore_mono (show 1970 + -(-n / 365) ≤ 1970 by omega)
  have e1 : leapsBefore 1 = 0 := by decide
  set y₁ := 1970 + -(-n / 365) with hy₁
  by_cases hs : |n - yearStart y₁| < 365
  · exact ⟨y₁, fromDaysLoop_stop hs, hs, he, by omega⟩
  · have hge : -364 ≤ n - yearStart y₁ := by
      unfold yearStart
      omega
    have hr : 0 ≤ n - yearStart y₁ := by
      by_contra hlt
      rw [abs_of_neg (by omega)] at hs
      omega
    rw [abs_of_nonneg hr] at hs
    have hk : (n - yearStart y₁) / 365 = 1 := by
      have := leapsBefore_epoch
      unfold yearStart at hs ⊢
      omega
    rw [fromDaysLoop_pass (N := n) (by simp only [codeStart, if_pos he])
      (by rw [abs_of_nonneg hr]; omega) (by omega) (by omega) (by omega) (by omega),
      tdiv_of_nonneg hr, hk]
    simp only [codeStart, if_pos (show 0 < y₁ + 1 by omega)]
    have habs : |n - yearStart (y₁ + 1)| < 365 := by
      have h3 := yearStart_succ y₁
      have h4 := yearLength_cases y₁
      rw [abs_lt]
      omega
    exact ⟨y₁ + 1, fromDaysLoop_stop habs, habs, by omega, by omega⟩

theorem neg_of_firstEstimate_le {n : ℤ} (he : firstEstimate n ≤ 0) : n < 0 := by
  by_contra hge
  rw [firstEstimate, tdiv_of_nonneg (by omega)] at he
  omega

/-- The day numbers whose first estimate is year `0`. -/
theorem bounds_of_firstEstimate_eq_zero {n : ℤ} (he : firstEstimate n = 0) : 719050 ≤ -n ∧ -n < 719415 := by
  rw [firstEstimate, tdiv_of_neg (neg_of_firstEstimate_le he.le)] at he
  omega

/-- The first estimate is year `0`: the loop stays there unless the date is in year `1`. -/
theorem fromDaysLoop_of_estimate_zero (fuel : ℕ) {n : ℤ} (he : firstEstimate n = 0) :
    Ymd.fromDaysLoop (fuel + 3) 1970 n =
      some (if n < yearStart 1 then (0, n - (yearStart 0 + 1)) else (1, n - yearStart 1)) := by
  have hn := neg_of_firstEstimate_le he.le
  have e0 : codeStart (decide ((1970 : ℤ) < 0)) 1970 = 0 := by decide
  have ec0 : codeStart false 0 = yearStart 0 + 1 := by decide
  have ec1 : codeStart false 1 = yearStart 1 := by decide
  have es0 : yearStart 0 = -719528 := by decide
  have es1 : yearStart 1 = -719162 := by decide
  have hk := bounds_of_firstEstimate_eq_zero he
  have he' : 1970 + n.tdiv 365 = 0 := he
  rw [fromDaysLoop_pass (N := n) (by rw [e0, sub_zero]) (by rw [abs_of_neg] <;> omega)
    (by omega) (by omega) (by omega) (by omega), he']
  have ed : decide ((1970 : ℤ) < 0 ∨ (0 < (1970 : ℤ) ∧ (0 : ℤ) < 0)) = false := by decide
  rw [ed, ec0]
  split_ifs with hlt
  · exact fromDaysLoop_stop (by rw [abs_of_nonneg] <;> omega)
  · have hq : (n - (yearStart 0 + 1)).tdiv 365 = 1 := by
      rw [tdiv_of_nonneg (by omega)]
      omega
    rw [fromDaysLoop_pass (N := n) (by rw [← ec0]; rfl) (by rw [abs_of_nonneg] <;> omega) (by omega)
      (by omega) (by omega) (by omega), hq]
    have ed' : decide ((0 : ℤ) < 0 ∨ (0 < (0 : ℤ) ∧ (0 : ℤ) + 1 < 0)) = false := by decide
    rw [ed', zero_add, ec1]
    exact fromDaysLoop_stop (by rw [abs_of_nonneg] <;> omega)

/-- Leap years from the one before the first estimate up to the year before `y`. -/
def leapsPassed (n y : ℤ) : ℤ := leapsBefore y - leapsBefore (firstEstimate n - 1)

/-- The year in which the loop ends for a day number of year `y` whose first estimate is
negative: the leap days passed on the way back push the last days of `y` into `y + 1`. -/
def landing (n y : ℤ) : ℤ := if n - yearStart y + leapsPassed n y < 365 then y else y + 1

/-- A negative first estimate is before the calendar year, at most 190 years, and that year is not positive. -/
theorem year_of_firstEstimate_neg {n y : ℤ} (hlo : -100000000 ≤ n) (he : firstEstimate n < 0) (hy : yearStart y ≤ n)
    (hy' : n < yearStart (y + 1)) : firstEstimate n ≤ y ∧ y < 1 ∧ y - firstEstimate n ≤ 190 := by
  have hn := neg_of_firstEstimate_le he.le
  have hE : firstEstimate n = 1970 + -(-n / 365) := by rw [firstEstimate, tdiv_of_neg hn]
  have hEy : firstEstimate n ≤ y := by
    by_contra hlt
    have h1 := yearStart_strictMono.monotone (show y + 1 ≤ firstEstimate n by omega)
    have h2 := leapsBefore_mono (show firstEstimate n ≤ -1 by omega)
    have h3 : leapsBefore (-1) = -1 := by decide
    have h4 := leapsBefore_epoch
    unfold yearStart at h1 hy'
    omega
  have hy1 : y < 1 := by
    by_contra hge
    have h1 := yearStart_strictMono.monotone (show 1 ≤ y by omega)
    have h2 : yearStart 1 = -719162 := by decide
    omega
  refine ⟨hEy, hy1, ?_⟩
  have hmono := leapsBefore_mono hEy
  have hbound := leapsBefore_sub_le (show firstEstimate n ≤ 1970 by omega)
  unfold yearStart at hy
  omega

/-- With the leap days of the way back, the days since the first of January are less than two years. -/
theorem daysPassed_bounds {n y : ℤ} (hlo : -100000000 ≤ n) (he : firstEstimate n < 0) (hy : yearStart y ≤ n)
    (hy' : n < yearStart (y + 1)) :
    0 ≤ n - yearStart y + leapsPassed n y ∧ n - yearStart y + leapsPassed n y < 730 := by
  obtain ⟨hEy, -, hspan⟩ := year_of_firstEstimate_neg hlo he hy hy'
  have hyl := leapsBefore_succ (y - 1)
  have hlength := yearLength_cases y
  have hmono := leapsBefore_mono (show firstEstimate n - 1 ≤ y - 1 by omega)
  have hbound := leapsBefore_sub_le (show firstEstimate n - 1 ≤ y by omega)
  rw [sub_add_cancel] at hyl
  rw [yearStart_succ] at hy'
  unfold leapsPassed
  split_ifs at hyl <;> omega

theorem landing_eq {n y : ℤ} (h₀ : 0 ≤ n - yearStart y + leapsPassed n y)
    (h₁ : n - yearStart y + leapsPassed n y < 730) :
    landing n y = y + (n - yearStart y + leapsPassed n y) / 365 := by
  unfold landing
  split_ifs <;> omega

/-- The days that the first pass leaves over. -/
theorem sub_codeStart_firstEstimate {n : ℤ} (he : firstEstimate n < 0) (y : ℤ) :
    n - codeStart true (firstEstimate n) = n - yearStart y + leapsPassed n y + 365 * (y - firstEstimate n) := by
  have hleap := leapsBefore_succ (firstEstimate n - 1)
  rw [sub_add_cancel] at hleap
  simp only [codeStart, if_neg (show ¬ 0 < firstEstimate n by omega), if_true, add_zero]
  unfold yearStart leapsPassed
  split_ifs at hleap ⊢ <;> omega

theorem abs_sub_codeStart_landing {n y : ℤ} (hlo : -100000000 ≤ n) (he : firstEstimate n < 0) (hy : yearStart y ≤ n)
    (hy' : n < yearStart (y + 1)) : |n - codeStart true (landing n y)| < 365 := by
  obtain ⟨hEy, hy1, hspan⟩ := year_of_firstEstimate_neg hlo he hy hy'
  have hyl := leapsBefore_succ (y - 1)
  have hlength := yearLength_cases y
  have hmono := leapsBefore_mono (show firstEstimate n - 1 ≤ y - 1 by omega)
  rw [sub_add_cancel] at hyl
  rw [abs_lt]
  unfold landing leapsPassed
  split_ifs with hlt
  · simp only [codeStart, if_neg (show ¬ 0 < y by omega), if_true, add_zero]
    split_ifs at hyl ⊢ <;> omega
  · have hbounds := codeStart_bounds true (y + 1)
    have hbound := leapsBefore_sub_le (show firstEstimate n - 1 ≤ y by omega)
    rw [yearStart_succ] at hbounds hy'
    omega

/-- The first estimate is a negative year: one pass crosses year `0`, one comes back. -/
theorem fromDaysLoop_of_estimate_neg (fuel : ℕ) {n y : ℤ} (hlo : -100000000 ≤ n)
    (he : firstEstimate n < 0) (hy : yearStart y ≤ n) (hy' : n < yearStart (y + 1)) :
    Ymd.fromDaysLoop (fuel + 3) 1970 n =
        some (landing n y, n - codeStart true (landing n y)) ∧
      |n - codeStart true (landing n y)| < 365 ∧ -600000 ≤ landing n y ∧ landing n y ≤ 600000 := by
  have hn := neg_of_firstEstimate_le he.le
  have hE : firstEstimate n = 1970 + -(-n / 365) := by rw [firstEstimate, tdiv_of_neg hn]
  obtain ⟨hEy, hy1, hspan⟩ := year_of_firstEstimate_neg hlo he hy hy'
  obtain ⟨h₀, h₁⟩ := daysPassed_bounds hlo he hy hy'
  have hland := landing_eq h₀ h₁
  have habs := abs_sub_codeStart_landing hlo he hy hy'
  have hleft := sub_codeStart_firstEstimate he y
  set E := firstEstimate n with hEdef
  set w := n - yearStart y + leapsPassed n y
  refine ⟨?_, habs, by omega, by omega⟩
  have e0 : codeStart (decide ((1970 : ℤ) < 0)) 1970 = 0 := by decide
  have ed : decide ((1970 : ℤ) < 0 ∨ (0 < (1970 : ℤ) ∧ E < 0)) = true := by simpa using he
  have hpass : Ymd.fromDaysLoop (fuel + 3) 1970 n =
      Ymd.fromDaysLoop (fuel + 2) E (n - codeStart true E) := by
    rw [fromDaysLoop_pass (N := n) (by rw [e0, sub_zero]) (by rw [abs_of_neg] <;> omega)
      hlo (by omega) (by omega) (by omega)]
    change Ymd.fromDaysLoop (fuel + 2) E
      (n - codeStart (decide ((1970 : ℤ) < 0 ∨ (0 < (1970 : ℤ) ∧ E < 0))) E) = _
    rw [ed]
  rw [hpass]
  by_cases hstop : w + 365 * (y - E) < 365
  · have hl : landing n y = E := by omega
    rw [hl] at habs ⊢
    exact fromDaysLoop_stop habs
  · have hE0 : decide (E < 0) = true := by simpa using he
    have hr0 : 0 ≤ n - codeStart true E := by omega
    rw [fromDaysLoop_pass (N := n) (by rw [hE0]) (by rw [abs_of_nonneg hr0]; omega) (by omega)
      (by omega) (by omega) (by omega), tdiv_of_nonneg hr0, hleft]
    have hl : E + (w + 365 * (y - E)) / 365 = landing n y := by omega
    have ed' : decide (E < 0 ∨ (0 < E ∧ landing n y < 0)) = true := by simp [he]
    rw [hl, ed']
    exact fromDaysLoop_stop habs

/-- The month search on every offset of a common year. -/
theorem lastMonth_spec : ∀ o : Fin 365, ∃ i : Fin 12, Ymd.lastMonth (o : ℕ) = some (i : ℕ) ∧
    dayInMonth.getD i 0 ≤ (o : ℕ) ∧
    (o : ℕ) < dayInMonth.getD i 0 + monthLength 1970 ((i : ℕ) + 1) := by
  -- Every search is evaluated once, and its month is compared with the offset.
  have hsearch : ∀ o : Fin 365, (Ymd.lastMonth (o : ℕ)).any (fun i => decide (i < 12 ∧
      dayInMonth.getD i 0 ≤ (o : ℕ) ∧ (o : ℕ) < dayInMonth.getD i 0 + monthLength 1970 (i + 1))) = true := by
    decide +kernel
  intro o
  obtain ⟨i, hmonth, hi⟩ := (Option.any_eq_true _ _).1 (hsearch o)
  obtain ⟨hlt, hoffset⟩ := of_decide_eq_true hi
  exact ⟨⟨i, hlt⟩, hmonth, hoffset⟩

/-- The date read off the month table from an offset of a common year. -/
def tableDate (y : ℤ) (i : ℕ) (o : ℤ) : Ymd := ⟨y, i + 1, o - dayInMonth.getD i 0 + 1⟩

theorem fromDaysEnd_of_not_leap {y o : ℤ} (hl : ¬ Leap y) (h0 : 0 ≤ o) (h1 : o < 365) :
    ∃ ymd, Ymd.fromDaysEnd y o = some ymd ∧ IsDate ymd.year ymd.month ymd.day ∧
      dayNumber ymd.year ymd.month ymd.day = yearStart y + o := by
  have hb : isLeapYear y = false := by
    rw [← isLeapYear_iff] at hl
    simpa using hl
  obtain ⟨⟨i, hi⟩, hm, hlo, hhi⟩ := lastMonth_spec ⟨o.toNat, by omega⟩
  have eo : ((o.toNat : ℕ) : ℤ) = o := by omega
  simp only [eo] at hm hlo hhi
  have e : Ymd.fromDaysEnd y o = some (tableDate y i o) := by
    have hml := monthLength_le 1970 ((i : ℤ) + 1)
    simp only [Ymd.fromDaysEnd, if_neg (show ¬ o < 0 by omega), hb, Bool.false_eq_true, false_and,
      and_false, if_false, hm, Option.map_some, tableDate]
    rw [wrap8_eq_self (by omega) (by omega), wrap8_eq_self (x := o - _) (by omega) (by omega),
      wrap8_eq_self (by omega) (by omega)]
  refine ⟨_, e, ?_, ?_⟩
  · have hmm : monthLength y ((i : ℤ) + 1) = monthLength 1970 ((i : ℤ) + 1) := by
      simp [monthLength, hl, show ¬ Leap 1970 by decide]
    exact ⟨by simp only [tableDate]; omega, by simp only [tableDate]; omega,
      by simp only [tableDate]; omega, by simp only [tableDate]; rw [hmm]; omega⟩
  · have ht := dayInMonth_eq (y := y) (m := (i : ℤ) + 1) (by omega) (by omega)
    have ei : ((i : ℤ) + 1 - 1).toNat = i := by omega
    rw [ei, hb] at ht
    simp only [Bool.false_eq_true, false_and, if_false, add_zero] at ht
    simp only [tableDate, dayNumber, ei]
    omega

/-- The months before the leap day and those behind it, on the table of a common year. -/
theorem dayInMonth_side : ∀ j : Fin 12, (2 ≤ (j : ℕ) → 59 ≤ dayInMonth.getD j 0) ∧
    ((j : ℕ) < 2 → dayInMonth.getD j 0 + monthLength 1970 ((j : ℕ) + 1) ≤ 59) := by
  decide

/-- Outside of February the offset in a leap year tells on which side of the leap day the month lies. -/
theorem two_lt_month_iff {o : ℤ} {i : ℕ} (hi : i < 12) (hfeb : ¬ (31 < o ∧ o < 60))
    (hlo : dayInMonth.getD i 0 ≤ if o < 60 then o else o - 1)
    (hhi : (if o < 60 then o else o - 1) < dayInMonth.getD i 0 + monthLength 1970 ((i : ℤ) + 1)) :
    (i : ℤ) + 1 > 2 ↔ 60 ≤ o := by
  obtain ⟨hbehind, hbefore⟩ := dayInMonth_side ⟨i, hi⟩
  dsimp only at hbehind hbefore
  constructor
  · intro hmonth
    have := hbehind (by omega)
    split_ifs at hlo <;> omega
  · intro ho
    by_contra hmonth
    have := hbefore (by omega)
    split_ifs at hhi <;> omega

theorem fromDaysEnd_of_leap {y o : ℤ} (hl : Leap y) (h0 : 0 ≤ o) (h1 : o < 366) :
    ∃ ymd, Ymd.fromDaysEnd y o = some ymd ∧ IsDate ymd.year ymd.month ymd.day ∧
      dayNumber ymd.year ymd.month ymd.day = yearStart y + o := by
  have hb : isLeapYear y = true := (isLeapYear_iff y).mpr hl
  by_cases hfeb : 31 < o ∧ o < 60
  · -- the branch for February itself
    refine ⟨⟨y, 2, o - 30⟩, ?_, ⟨by norm_num, by norm_num, by dsimp only; omega, ?_⟩, ?_⟩
    · simp only [Ymd.fromDaysEnd, if_neg (show ¬ o < 0 by omega), hb, true_and]
      rw [if_pos ⟨by omega, by omega⟩, wrap8_eq_self (by omega) (by omega)]
    · simp only [monthLength, hl, if_true]
      omega
    · have e1 : ((2 : ℤ) - 1).toNat = 1 := rfl
      simp only [dayNumber, e1, monthStart, monthLength]
      norm_num
      omega
  · -- January and from March on the table of a common year is used
    have hn' : (if (60 : ℤ) ≤ o then o - 1 else o) = if o < 60 then o else o - 1 := by
      split_ifs <;> omega
    set o' := if o < 60 then o else o - 1 with ho'
    have hb0 : 0 ≤ o' := by rw [ho']; split_ifs <;> omega
    have hb1 : o' < 365 := by rw [ho']; split_ifs <;> omega
    obtain ⟨⟨i, hi⟩, hm, hlo, hhi⟩ := lastMonth_spec ⟨o'.toNat, by omega⟩
    have eo : ((o'.toNat : ℕ) : ℤ) = o' := by omega
    simp only [eo] at hm hlo hhi
    have hml := monthLength_le 1970 ((i : ℤ) + 1)
    have e : Ymd.fromDaysEnd y o = some (tableDate y i o') := by
      simp only [Ymd.fromDaysEnd, if_neg (show ¬ o < 0 by omega), hb, true_and, ge_iff_le]
      rw [if_neg (by omega), hn', hm]
      simp only [Option.map_some, tableDate]
      rw [wrap8_eq_self (by omega) (by omega), wrap8_eq_self (x := o' - _) (by omega) (by omega),
        wrap8_eq_self (by omega) (by omega)]
    have ei : ((i : ℤ) + 1 - 1).toNat = i := by omega
    have ht := dayInMonth_eq (y := y) (m := (i : ℤ) + 1) (by omega) (by omega)
    rw [ei, hb] at ht
    have hside := two_lt_month_iff hi hfeb hlo hhi
    refine ⟨_, e, ?_, ?_⟩
    · have hmm : monthLength 1970 ((i : ℤ) + 1) ≤ monthLength y ((i : ℤ) + 1) := by
        simp only [monthLength, hl, if_true, show ¬ Leap 1970 by decide, if_false]
        split_ifs <;> omega
      exact ⟨by simp only [tableDate]; omega, by simp only [tableDate]; omega,
        by simp only [tableDate]; omega, by simp only [tableDate]; omega⟩
    · simp only [tableDate, dayNumber, ei, ← ht, true_and]
      simp only [hside]
      by_cases h : o < 60
      · rw [if_neg (not_le.2 h), ho', if_pos h]
        omega
      · rw [if_pos (not_lt.1 h), ho', if_neg h]
        omega

/-- The end of `from_days` turns an offset from the first of January of `Y` into the date with
that day number. -/
theorem fromDaysEnd_spec {Y r : ℤ} (hr : |r| < 365) (hlo : -600000 ≤ Y) (hhi : Y ≤ 600000) :
    ∃ ymd, Ymd.fromDaysEnd Y r = some ymd ∧ IsDate ymd.year ymd.month ymd.day ∧
      dayNumber ymd.year ymd.month ymd.day = yearStart Y + r := by
  rw [abs_lt] at hr
  have hpos : ∀ {y o : ℤ}, 0 ≤ o → o < yearLength y →
      ∃ ymd, Ymd.fromDaysEnd y o = some ymd ∧ IsDate ymd.year ymd.month ymd.day ∧
        dayNumber ymd.year ymd.month ymd.day = yearStart y + o := by
    intro y o h0 h1
    unfold yearLength at h1
    by_cases hl : Leap y
    · exact fromDaysEnd_of_leap hl h0 (by rwa [if_pos hl] at h1)
    · exact fromDaysEnd_of_not_leap hl h0 (by rwa [if_neg hl] at h1)
  have hlen := yearLength_pos (Y - 1)
  have hs := yearStart_succ (Y - 1)
  rw [sub_add_cancel] at hs
  by_cases hneg : r < 0
  · -- a negative offset is counted from the first of January of the year before
    have e : Ymd.fromDaysEnd Y r = Ymd.fromDaysEnd (Y - 1) (r + yearLength (Y - 1)) := by
      have hw : wrap 32 (Y - 1) = Y - 1 := wrap32_eq_self (by omega) (by omega)
      simp only [Ymd.fromDaysEnd, if_pos hneg, sub32, hw, ite_isLeapYear,
        if_neg (show ¬ r + yearLength (Y - 1) < 0 by omega)]
    obtain ⟨ymd, h1, h2, h3⟩ := hpos (y := Y - 1) (o := r + yearLength (Y - 1)) (by omega) (by omega)
    exact ⟨ymd, e.trans h1, h2, by omega⟩
  · exact hpos (by omega) (by have := yearLength_pos Y; omega)

/-- More fuel does not change the result of the loop. -/
theorem fromDaysLoop_mono {x : ℤ × ℤ} : ∀ {fuel fuel' : ℕ} {year n : ℤ}, fuel ≤ fuel' →
    Ymd.fromDaysLoop fuel year n = some x → Ymd.fromDaysLoop fuel' year n = some x
  | 0, _, _, _, _, h => by cases h
  | fuel + 1, 0, _, _, hle, _ => by omega
  | fuel + 1, fuel' + 1, year, n, hle, h => by
      rw [Ymd.fromDaysLoop] at h ⊢
      by_cases hn : 365 ≤ |n|
      · rw [if_pos hn] at h ⊢
        exact fromDaysLoop_mono (by omega) h
      · rwa [if_neg hn] at h ⊢

/-- The day numbers of year `y` that the loop reads correctly: all of them from year `1` on; in
year `0` those whose first estimate is already negative; in a negative year `y` those for which
the year before the one where the loop ends is not a leap year. -/
def LandsExactly (n y : ℤ) : Prop :=
  0 < y ∨ (y = 0 ∧ firstEstimate n < 0) ∨ (y < 0 ∧ ¬ Leap (landing n y - 1))

instance (n y : ℤ) : Decidable (LandsExactly n y) := inferInstanceAs (Decidable (_ ∨ _ ∨ _))

/-- `from_days` ends and returns the calendar date with day number `n`. -/
def ReturnsDateOf (n : ℤ) : Prop :=
  ∃ fuel₀, ∀ fuel, fuel₀ ≤ fuel → ∃ ymd, Ymd.fromDays fuel n = some (some ymd) ∧
    Ymd.new ymd.year ymd.month ymd.day = .ok ymd ∧ dayNumber ymd.year ymd.month ymd.day = n

/-- A loop that ends in year `Y` with an offset counted from `start` gives the date of `n`
exactly when `start` is the first of January of `Y`. -/
theorem returnsDateOf_iff_of_loop {n Y start : ℤ} (hlo : -100000000 ≤ n) (hhi : n ≤ 100000000)
    (h : Ymd.fromDaysLoop 3 1970 n = some (Y, n - start)) (hr : |n - start| < 365)
    (hYl : -600000 ≤ Y) (hYh : Y ≤ 600000) : ReturnsDateOf n ↔ start = yearStart Y := by
  obtain ⟨ymd, h1, h2, h3⟩ := fromDaysEnd_spec hr hYl hYh
  have hret : ∀ fuel, 3 ≤ fuel → Ymd.fromDays fuel n = some (some ymd) := by
    intro fuel hfuel
    unfold Ymd.fromDays minJsDate maxJsDate
    rw [wrap32_eq_self (by omega) (by omega), if_neg (by omega), fromDaysLoop_mono hfuel h]
    exact congrArg some h1
  constructor
  · rintro ⟨fuel₀, hf⟩
    obtain ⟨ymd', g1, _, g3⟩ := hf (max fuel₀ 3) (le_max_left _ _)
    rw [hret _ (le_max_right _ _)] at g1
    obtain rfl : ymd = ymd' := by simpa using g1
    omega
  · rintro rfl
    exact ⟨3, fun fuel hfuel => ⟨ymd, hret fuel hfuel, new_eq_ok_iff.mpr ⟨h2, rfl⟩, by omega⟩⟩

theorem le_of_yearStart_le {n y a : ℤ} (hy' : n < yearStart (y + 1)) (h : yearStart a ≤ n) : a ≤ y := by
  by_contra hlt
  have := yearStart_strictMono.monotone (show y + 1 ≤ a by omega)
  omega

/-- The loop crosses year `0` and comes back. -/
theorem returnsDateOf_iff_of_estimate_neg {n y : ℤ} (hlo : -100000000 ≤ n) (hhi : n ≤ 100000000)
    (hE : firstEstimate n < 0) (hy : yearStart y ≤ n) (hy' : n < yearStart (y + 1)) :
    ReturnsDateOf n ↔ LandsExactly n y := by
  obtain ⟨h1, h2, h3, h4⟩ := fromDaysLoop_of_estimate_neg 0 hlo hE hy hy'
  rw [returnsDateOf_iff_of_loop hlo hhi h1 h2 h3 h4]
  have hl : landing n y = y ∨ landing n y = y + 1 := by
    unfold landing
    split_ifs <;> simp
  rw [codeStart_true_iff]
  unfold LandsExactly
  rcases lt_trichotomy y 0 with hy0 | hy0 | hy0
  · simp only [show ¬ 0 < landing n y by omega, false_or, hy0, true_and, not_lt.mpr hy0.le, hy0.ne,
      false_and]
  · -- the year before 0 and the year before 1 are both harmless
    refine iff_of_true ?_ (Or.inr (Or.inl ⟨hy0, hE⟩))
    rcases hl with hl | hl
    · exact Or.inr (by rw [hl, hy0]; decide)
    · exact Or.inl (by omega)
  · exact iff_of_true (Or.inl (by omega)) (Or.inl hy0)

/-- The loop ends in year `0`, one day off, or in year `1`. -/
theorem returnsDateOf_iff_of_estimate_zero {n y : ℤ} (hlo : -100000000 ≤ n) (hhi : n ≤ 100000000)
    (hE : firstEstimate n = 0) (hy : yearStart y ≤ n) (hy' : n < yearStart (y + 1)) :
    ReturnsDateOf n ↔ LandsExactly n y := by
  have es0 : yearStart 0 = -719528 := by decide
  have es1 : yearStart 1 = -719162 := by decide
  have h1 := fromDaysLoop_of_estimate_zero 0 hE
  have hk := bounds_of_firstEstimate_eq_zero hE
  by_cases hlt : n < yearStart 1
  · rw [if_pos hlt] at h1
    rw [returnsDateOf_iff_of_loop hlo hhi h1 (by rw [abs_of_nonneg] <;> omega) (by omega) (by omega)]
    have hy0 : y = 0 := by
      have := le_of_yearStart_le (a := 0) hy' (by omega)
      by_contra hne
      have := yearStart_strictMono.monotone (show 1 ≤ y by omega)
      omega
    subst hy0
    exact iff_of_false (by omega) (by unfold LandsExactly; omega)
  · rw [if_neg hlt] at h1
    rw [returnsDateOf_iff_of_loop hlo hhi h1 (by rw [abs_of_nonneg] <;> omega) (by omega) (by omega)]
    have := le_of_yearStart_le (a := 1) hy' (by omega)
    exact iff_of_true rfl (Or.inl (by omega))

/-- The loop stays in positive years. -/
theorem returnsDateOf_of_estimate_pos {n : ℤ} (hlo : -100000000 ≤ n) (hhi : n ≤ 100000000)
    (hE : 0 < firstEstimate n) : ReturnsDateOf n := by
  rcases lt_or_ge |n| 365 with hs | hs
  · have e70 : yearStart 1970 = 0 := by decide
    have h1 : Ymd.fromDaysLoop 3 1970 n = some (1970, n - yearStart 1970) := by
      rw [fromDaysLoop_stop hs, e70, sub_zero]
    exact (returnsDateOf_iff_of_loop hlo hhi h1 (by rwa [e70, sub_zero]) (by omega) (by omega)).mpr rfl
  · obtain ⟨Y, h1, h2, h3, h4⟩ : ∃ Y, Ymd.fromDaysLoop 3 1970 n = some (Y, n - yearStart Y) ∧
        |n - yearStart Y| < 365 ∧ 0 < Y ∧ Y ≤ 600000 := by
      rcases lt_or_ge n 0 with hn | hn
      · rw [abs_of_neg hn] at hs
        exact fromDaysLoop_of_estimate_pos 0 (by omega) hlo hE
      · rw [abs_of_nonneg hn] at hs
        exact fromDaysLoop_of_nonneg 0 hs hhi
    exact (returnsDateOf_iff_of_loop hlo hhi h1 h2 (by omega) h4).mpr rfl

/-- `from_days` on a day number `n` of the calendar year `y`. -/
theorem returnsDateOf_iff_of_year {n y : ℤ} (hlo : minJsDate ≤ n) (hhi : n ≤ maxJsDate)
    (hy : yearStart y ≤ n) (hy' : n < yearStart (y + 1)) : ReturnsDateOf n ↔ LandsExactly n y := by
  unfold minJsDate maxJsDate at hlo
  unfold maxJsDate at hhi
  rcases lt_trichotomy (firstEstimate n) 0 with hE | hE | hE
  · exact returnsDateOf_iff_of_estimate_neg hlo hhi hE hy hy'
  · exact returnsDateOf_iff_of_estimate_zero hlo hhi hE hy hy'
  · have hn1 : yearStart 1 ≤ n := by
      have es1 : yearStart 1 = -719162 := by decide
      rcases lt_or_ge n 0 with hn | hn
      · rw [firstEstimate, tdiv_of_neg hn] at hE
        omega
      · omega
    have hy1 := le_of_yearStart_le hy' hn1
    exact iff_of_true (returnsDateOf_of_estimate_pos hlo hhi hE) (Or.inl (by omega))

/-- `from_days` ends with the date of `n` exactly when `n` is a day number of a year `y` that
the loop reads correctly. -/
theorem fromDays_returnsDateOf_iff {n : ℤ} (hlo : minJsDate ≤ n) (hhi : n ≤ maxJsDate) :
    ∃ y, (yearStart y ≤ n ∧ n < yearStart (y + 1)) ∧ (ReturnsDateOf n ↔ LandsExactly n y) := by
  obtain ⟨y, hy, hy'⟩ := exists_year n
  exact ⟨y, ⟨hy, hy'⟩, returnsDateOf_iff_of_year hlo hhi hy hy'⟩

theorem fromDays_returnsDateOf_leap_day : ReturnsDateOf 28548 := by
  obtain ⟨y, ⟨hy, hy'⟩, h⟩ := fromDays_returnsDateOf_iff (show minJsDate ≤ 28548 by decide) (by decide)
  refine h.mpr (Or.inl ?_)
  by_contra hle
  have := yearStart_strictMono.monotone (show y + 1 ≤ 1 by omega)
  have e : yearStart 1 = -719162 := by decide
  omega

/-- `-720623` is the first of January of the year `-3`, which follows a leap year; the code
returns the second. -/
theorem fromDays_not_returnsDateOf : ¬ ReturnsDateOf (-720623) := by
  rintro ⟨fuel₀, hf⟩
  obtain ⟨ymd, h1, -, h3⟩ := hf (max fuel₀ 3) (le_max_left _ _)
  have h : Ymd.fromDaysLoop 3 1970 (-720623) = some (-3, 1) := by decide
  have hr : Ymd.fromDays (max fuel₀ 3) (-720623) = some (some ⟨-3, 1, 2⟩) := by
    rw [Ymd.fromDays, fromDaysLoop_mono (le_max_right _ _) h]
    decide
  rw [hr] at h1
  obtain rfl : (⟨-3, 1, 2⟩ : Ymd) = ymd := by simpa using h1
  revert h3
  decide

end CqlDriver.LocalDate
