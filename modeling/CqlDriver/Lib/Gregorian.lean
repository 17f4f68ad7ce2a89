import Mathlib.Tactic

/-! # The proleptic Gregorian calendar

Astronomical year numbering: the year before `1` is `0`, and the leap rule applies to every
integer year.  `dayNumber` counts days from 1970-01-01; `dayNumber_epoch` and
`dayNumber_next` say that it is the only numbering of the calendar's days that is `0` on
1970-01-01 and grows by one from each day to the next, and `dayNumber_lt_iff` that it is
strictly increasing in the calendar order.

`leapsBefore y` counts the leap years before `y` up to a constant, so a difference
`leapsBefore b - leapsBefore a` is the number of leap years in `[a, b)`. -/

namespace Gregorian

/-- The leap rule, for every integer year. -/
def Leap (y : ℤ) : Prop := (y % 4 = 0 ∧ y % 100 ≠ 0) ∨ y % 400 = 0

instance : DecidablePred Leap := fun _ => inferInstanceAs (Decidable (_ ∨ _))

/-- Number of days of a year. -/
def yearLength (y : ℤ) : ℤ := if Leap y then 366 else 365

/-- Leap years before `y`, counted from year `1` (negative for years before it). -/
def leapsBefore (y : ℤ) : ℤ := (y - 1) / 4 - (y - 1) / 100 + (y - 1) / 400

theorem leapsBefore_succ (y : ℤ) : leapsBefore (y + 1) = leapsBefore y + if Leap y then 1 else 0 := by
  unfold leapsBefore Leap
  split_ifs <;> omega

theorem leapsBefore_mono {a b : ℤ} (h : a ≤ b) : leapsBefore a ≤ leapsBefore b := by
  unfold leapsBefore
  omega

/-- Of `n` consecutive years at most `n / 4 + 1` are leap years. -/
theorem leapsBefore_sub_le {a b : ℤ} (h : a ≤ b) : 4 * (leapsBefore b - leapsBefore a) ≤ b - a + 7 := by
  unfold leapsBefore
  omega

/-- Day number of the first of January. -/
def yearStart (y : ℤ) : ℤ := 365 * (y - 1970) + (leapsBefore y - leapsBefore 1970)

theorem leapsBefore_epoch : leapsBefore 1970 = 477 := by decide

theorem yearStart_succ (y : ℤ) : yearStart (y + 1) = yearStart y + yearLength y := by
  have h := leapsBefore_succ y
  unfold yearStart yearLength
  split_ifs at h ⊢ <;> omega

theorem yearLength_cases (y : ℤ) : yearLength y = 365 ∨ yearLength y = 366 := by
  unfold yearLength
  split_ifs <;> simp

theorem yearLength_pos (y : ℤ) : 365 ≤ yearLength y := by
  unfold yearLength
  split_ifs <;> omega

theorem yearStart_strictMono : StrictMono yearStart := by
  apply strictMono_int_of_lt_succ
  intro y
  have := yearStart_succ y
  have := yearLength_pos y
  omega

/-- Every day number lies in one year. -/
theorem exists_year (n : ℤ) : ∃ y, yearStart y ≤ n ∧ n < yearStart (y + 1) := by
  -- The largest `y` with `yearStart y ≤ n`; `n / 366 + 1970` or `n / 365 + 1970` bounds it.
  obtain ⟨y, hy, hmax⟩ : ∃ y, yearStart y ≤ n ∧ ∀ z, yearStart z ≤ n → z ≤ y := by
    apply Int.exists_greatest_of_bdd
    · refine ⟨1970 + |n|, fun z hz => ?_⟩
      by_contra hlt
      have h0 := abs_nonneg n
      have h1 := leapsBefore_mono (a := 1970) (b := z) (by omega)
      have := le_abs_self n
      unfold yearStart at hz
      omega
    · refine ⟨1970 - |n|, ?_⟩
      have h1 := leapsBefore_mono (a := 1970 - |n|) (b := 1970) (by have := abs_nonneg n; omega)
      have := neg_abs_le n
      have := abs_nonneg n
      unfold yearStart
      omega
  refine ⟨y, hy, ?_⟩
  by_contra h
  have := hmax (y + 1) (by omega)
  omega

/-- Number of days of month `m` of year `y`. -/
def monthLength (y m : ℤ) : ℤ :=
  if m = 2 then (if Leap y then 29 else 28) else if m = 4 ∨ m = 6 ∨ m = 9 ∨ m = 11 then 30 else 31

/-- Days of year `y` before its month `n + 1`. -/
def monthStart (y : ℤ) : ℕ → ℤ
  | 0 => 0
  | n + 1 => monthStart y n + monthLength y (n + 1)

/-- The twelve months fill the year. -/
theorem monthStart_twelve (y : ℤ) : monthStart y 12 = yearLength y := by
  by_cases h : Leap y <;> simp [monthStart, monthLength, yearLength, h]

/-- `(y, m, d)` is a date of the calendar. -/
structure IsDate (y m d : ℤ) : Prop where
  month_pos : 1 ≤ m
  month_le : m ≤ 12
  day_pos : 1 ≤ d
  day_le : d ≤ monthLength y m

/-- Days from 1970-01-01 to the date. -/
def dayNumber (y m d : ℤ) : ℤ := yearStart y + monthStart y (m - 1).toNat + (d - 1)

theorem dayNumber_epoch : dayNumber 1970 1 1 = 0 := by decide

/-- The date after `(y, m, d)`. -/
def next (y m d : ℤ) : ℤ × ℤ × ℤ :=
  if d < monthLength y m then (y, m, d + 1) else if m < 12 then (y, m + 1, 1) else (y + 1, 1, 1)

theorem monthLength_pos (y m : ℤ) : 28 ≤ monthLength y m := by
  unfold monthLength
  split_ifs <;> omega

theorem monthLength_le (y m : ℤ) : monthLength y m ≤ 31 := by
  unfold monthLength
  split_ifs <;> omega

theorem monthStart_month (y : ℤ) {m : ℤ} (h : 1 ≤ m) :
    monthStart y m.toNat = monthStart y (m - 1).toNat + monthLength y m := by
  obtain ⟨k, rfl⟩ : ∃ k : ℕ, m = k + 1 := ⟨(m - 1).toNat, by omega⟩
  have e1 : ((k : ℤ) + 1).toNat = k + 1 := by omega
  have e2 : ((k : ℤ) + 1 - 1).toNat = k := by omega
  rw [e1, e2, monthStart]

/-- Consecutive days have consecutive numbers. -/
theorem dayNumber_next {y m d : ℤ} (h : IsDate y m d) :
    dayNumber (next y m d).1 (next y m d).2.1 (next y m d).2.2 = dayNumber y m d + 1 := by
  obtain ⟨h1, h2, h3, h4⟩ := h
  have hm := monthStart_month y h1
  unfold next dayNumber
  split_ifs with hd hlt
  · dsimp only
    omega
  · have e : m + 1 - 1 = m := by omega
    simp only [e]
    omega
  · have e : m = 12 := by omega
    subst e
    have h12 : monthStart y (12 : ℤ).toNat = yearLength y := monthStart_twelve y
    have hs := yearStart_succ y
    have e0 : ((1 : ℤ) - 1).toNat = 0 := rfl
    simp only [e0, monthStart]
    omega

theorem monthStart_mono (y : ℤ) : Monotone (monthStart y) := by
  apply monotone_nat_of_le_succ
  intro n
  have := monthLength_pos y (n + 1)
  rw [monthStart]
  omega

/-- Dates inside a year are numbered from `yearStart` on. -/
theorem dayNumber_mem_year {y m d : ℤ} (h : IsDate y m d) :
    yearStart y ≤ dayNumber y m d ∧ dayNumber y m d < yearStart (y + 1) := by
  obtain ⟨h1, h2, h3, h4⟩ := h
  have hm := monthStart_month y h1
  have h12 := monthStart_mono y (show m.toNat ≤ 12 by omega)
  have h0 := monthStart_mono y (Nat.zero_le (m - 1).toNat)
  rw [monthStart_twelve] at h12
  simp only [monthStart] at h0
  have := yearStart_succ y
  unfold dayNumber
  omega

/-- The calendar order on dates. -/
def Before (y m d y' m' d' : ℤ) : Prop := y < y' ∨ (y = y' ∧ (m < m' ∨ (m = m' ∧ d < d')))

/-- The numbering is strictly increasing in the calendar order. -/
theorem dayNumber_lt_of_before {y m d y' m' d' : ℤ} (h : IsDate y m d) (h' : IsDate y' m' d')
    (hb : Before y m d y' m' d') : dayNumber y m d < dayNumber y' m' d' := by
  rcases hb with hy | ⟨rfl, hm | ⟨rfl, hd⟩⟩
  · have h1 := (dayNumber_mem_year h).2
    have h2 := (dayNumber_mem_year h').1
    have h3 := yearStart_strictMono.monotone (show y + 1 ≤ y' by omega)
    omega
  · have h1 := monthStart_month y h.month_pos
    have h2 := monthStart_mono y (show m.toNat ≤ (m' - 1).toNat by have := h.month_pos; omega)
    have h3 := h.day_le
    have h4 := h'.day_pos
    unfold dayNumber
    omega
  · unfold dayNumber
    omega

/-- On dates the calendar order is the order of the day numbers. -/
theorem before_iff {y m d y' m' d' : ℤ} (h : IsDate y m d) (h' : IsDate y' m' d') :
    Before y m d y' m' d' ↔ dayNumber y m d < dayNumber y' m' d' := by
  refine ⟨dayNumber_lt_of_before h h', fun hlt => ?_⟩
  by_contra hnot
  have hcases : Before y' m' d' y m d ∨ (y' = y ∧ m' = m ∧ d' = d) := by
    unfold Before at hnot ⊢
    omega
  obtain hb | ⟨rfl, rfl, rfl⟩ := hcases
  · have := dayNumber_lt_of_before h' h hb
    omega
  · exact lt_irrefl _ hlt

end Gregorian
