import CqlDriver.LocalDateWrapper
import CqlDriver.Lib.JsString

/-! # The text of a date (`src/types/local_date.rs`, `src/utils/mod.rs`)

The `Display` of `LocalDateWrapper` prints the date as `[-]YYYY-MM-DD`: it puts the sign and the zeros of
the year by hand, with a writer that counts the digits.  A record without a date prints its day number.
`from_string` tells the two forms apart by the dashes; it reads back what was printed
(`fromString_display`). -/

namespace CqlDriver

open MachineInt Gregorian LocalDate

/-- `{}` for a signed integer. -/
def displayInt (n : ℤ) : List Char := (if n < 0 then ['-'] else []) ++ Nat.toDigits 10 n.natAbs

theorem displayInt_of_nonneg {n : ℤ} (h : 0 ≤ n) : displayInt n = Nat.toDigits 10 n.natAbs := by
  rw [displayInt, if_neg (not_lt.2 h), List.nil_append]

/-- `utils::CharCounter`, with the length of the last text that was written to it. -/
structure CharCounter where
  count : ℕ

namespace CharCounter

def new : CharCounter := ⟨0⟩

/-- `write_str`; a digit is one byte. -/
def writeStr (_self : CharCounter) (s : List Char) : CharCounter := ⟨s.length⟩

end CharCounter

namespace LocalDateWrapper

/-- `-0{}` and `-{}` -/
def displayPart (n : ℤ) : List Char := (if n < 10 then ['-', '0'] else ['-']) ++ displayInt n

/-- `Display for LocalDateWrapper` -/
def display (w : LocalDateWrapper) : List Char :=
  match w.date with
  | some date =>
      let year := displayInt (wrap 32 |date.year|)
      let counter := CharCounter.new.writeStr year
      (if date.year < 0 then ['-'] else []) ++
        List.replicate (max (wrap 8 (4 - wrap 8 counter.count)) 0).toNat '0' ++ year ++
        displayPart date.month ++ displayPart date.day
  | none => displayInt w.value

/-! ### The printed parts -/

/-- The digits of a number behind zeros. -/
def DigitText.padded (zeros n : ℕ) : DigitText where
  chars := List.replicate zeros '0' ++ Nat.toDigits 10 n
  ne_nil := by simp [Nat.toDigits_ne_nil]
  digits := by
    intro c hc
    rcases List.mem_append.1 hc with hc | hc
    · rw [List.eq_of_mem_replicate hc]
      rfl
    · exact JsString.isDigit_of_mem hc

@[simp] theorem DigitText.number_padded (zeros n : ℕ) : (DigitText.padded zeros n).number = n := by
  simp only [DigitText.number, DigitText.padded, Nat.ofDigitChars_append, Nat.ofDigitChars_replicate_zero,
    Nat.mul_zero, Nat.ofDigitChars_ten_toDigits]

/-- A month or a day. -/
def partText (n : ℤ) : DigitText := .padded (if n < 10 then 1 else 0) n.natAbs

theorem displayPart_eq {n : ℤ} (h : 0 ≤ n) : displayPart n = '-' :: (partText n).chars := by
  unfold displayPart partText DigitText.padded
  rw [displayInt_of_nonneg h]
  split <;> rfl

theorem isMonth_partText {n : ℤ} (h₁ : 1 ≤ n) (h₂ : n ≤ 12) : isMonth (partText n).chars = true := by
  have hall : ∀ k < 13, 1 ≤ k → isMonth (partText (k : ℕ)).chars = true := by decide +kernel
  have := hall n.toNat (by omega) (by omega)
  rwa [Int.toNat_of_nonneg (by omega)] at this

theorem isDay_partText {n : ℤ} (h₁ : 1 ≤ n) (h₂ : n ≤ 31) : isDay (partText n).chars = true := by
  have hall : ∀ k < 32, 1 ≤ k → isDay (partText (k : ℕ)).chars = true := by decide +kernel
  have := hall n.toNat (by omega) (by omega)
  rwa [Int.toNat_of_nonneg (by omega)] at this

/-- The zeros in front of a year. -/
def yearZeros (year : ℤ) : ℕ :=
  (max (wrap 8 (4 - wrap 8 (CharCounter.new.writeStr (displayInt (wrap 32 |year|))).count)) 0).toNat

def yearText (year : ℤ) : DigitText := .padded (yearZeros year) year.natAbs

theorem display_eq {w : LocalDateWrapper} {date : Ymd} (h : w.date = some date) (hyear : |date.year| < 2 ^ 31)
    (hmonth : 0 ≤ date.month) (hday : 0 ≤ date.day) :
    display w =
      dateText (decide (date.year < 0)) (yearText date.year) (partText date.month) (partText date.day) := by
  have habs : wrap 32 |date.year| = |date.year| := wrap32_eq_self (by have := abs_nonneg date.year; omega) hyear
  unfold display
  rw [h]
  simp only [displayPart_eq hmonth, displayPart_eq hday]
  unfold dateText yearText DigitText.padded yearZeros
  rw [habs, displayInt_of_nonneg (abs_nonneg date.year), Int.natAbs_abs]
  simp [List.intercalate]

/-! ### Reading back -/

theorem textYear_yearText (year : ℤ) : textYear (decide (year < 0)) (yearText year) = year := by
  unfold textYear yearText
  rw [DigitText.number_padded]
  by_cases h : year < 0
  · rw [decide_eq_true h, if_pos rfl]
    omega
  · rw [decide_eq_false h, if_neg (by simp)]
    omega

theorem number_partText {n : ℤ} (h : 0 ≤ n) : (partText n).number = n := by
  rw [partText, DigitText.number_padded, Int.natAbs_of_nonneg h]

theorem parse_displayInt {w : ℕ} {n : ℤ} (h : Fits w n) : parse w (displayInt n) = some n := by
  have hdigits : ∀ c ∈ Nat.toDigits 10 n.natAbs, c.isDigit = true := fun c hc => JsString.isDigit_of_mem hc
  by_cases hn : n < 0
  · have hall : (Nat.toDigits 10 n.natAbs).all Char.isDigit = true := List.all_eq_true.2 hdigits
    have hvalue : -1 * ((n.natAbs : ℕ) : ℤ) = n := by omega
    rw [displayInt, if_pos hn, List.singleton_append, parse, parse.signed, hall,
      if_neg (by simp [Nat.toDigits_ne_nil]), Nat.ofDigitChars_ten_toDigits, hvalue, if_pos h]
  · have hvalue : (DigitText.padded 0 n.natAbs).number = n := by
      rw [DigitText.number_padded]
      omega
    have hparse := (DigitText.padded 0 n.natAbs).parse_chars w
    rw [hvalue, if_pos h] at hparse
    rw [displayInt_of_nonneg (by omega)]
    exact hparse

theorem count_displayInt (n : ℤ) : (displayInt n).count '-' < 2 := by
  have hdigits : (Nat.toDigits 10 n.natAbs).count '-' = 0 :=
    List.count_eq_zero.2 fun h => absurd (JsString.isDigit_of_mem h) (by decide)
  rw [displayInt, List.count_append, hdigits]
  split <;> simp

/-- What `from_string` makes of the text of a date. -/
theorem fromString_display_of_date {w : LocalDateWrapper} {date : Ymd} (hw : w.date = some date)
    (hdate : IsDate date.year date.month date.day) (hyear : |date.year| < 2 ^ 31) :
    dateRegex (display w) = true ∧ readDate (display w) = some date ∧
      fromString (display w) = .ok date.toDays := by
  obtain ⟨year, month, day⟩ := date
  obtain ⟨hm₁, hm₂, hd₁, hd₂⟩ := hdate
  simp only at hm₁ hm₂ hd₁ hd₂ hyear
  have hd₃ := hd₂.trans (monthLength_le year month)
  have hm₀ : 0 ≤ month := by omega
  have hd₀ : 0 ≤ day := by omega
  rw [display_eq hw hyear hm₀ hd₀]
  have hmonth := isMonth_partText hm₁ hm₂
  have hday := isDay_partText hd₁ hd₃
  have haccepted : Accepted (yearText year) (partText month) (partText day) := by
    refine ⟨hmonth, hday, ?_⟩
    rw [yearText, DigitText.number_padded, Int.natCast_natAbs]
    exact hyear
  refine ⟨?_, ?_, ?_⟩
  · rw [dateRegex_dateText, hmonth, hday, Bool.and_true]
  · rw [readDate_of_accepted _ _ _ _ haccepted, textYear_yearText, number_partText hm₀, number_partText hd₀]
  · rw [fromString_of_accepted _ _ _ _ haccepted, textYear_yearText, number_partText hm₀, number_partText hd₀]

/-- A day number has at most one dash, so that it is not taken for a date. -/
theorem fromString_display_of_none {w : LocalDateWrapper} (hw : w.date = none) (hvalue : Fits 32 w.value) :
    fromString (display w) = .ok w.value := by
  unfold display
  rw [hw]
  unfold fromString
  simp only [count_displayInt, if_true, parse_displayInt hvalue]

/-- The text of a date, whatever its year is, matches the pattern and is read back as that date; the text
of a record without a date is read back as its value. -/
theorem fromString_display (w : LocalDateWrapper) :
    (∀ date, w.date = some date → IsDate date.year date.month date.day → Fits 32 date.year →
        -2 ^ 31 < date.year →
        dateRegex (display w) = true ∧ readDate (display w) = some date ∧
          fromString (display w) = .ok date.toDays) ∧
      (w.date = none → Fits 32 w.value → fromString (display w) = .ok w.value) := by
  refine ⟨fun date hw hdate hfits hyear => ?_, fromString_display_of_none⟩
  have hlt := hfits.2
  norm_num at hlt
  exact fromString_display_of_date hw hdate (abs_lt.2 ⟨hyear, by omega⟩)

theorem fromString_display_examples :
    (fromString (display ⟨-719591, some ⟨-44, 3, 15⟩, true⟩) = .ok (Ymd.mk (-44) 3 15).toDays ∧
      fromString (display ⟨2147483647, none, false⟩) = .ok 2147483647) ∧
      display ⟨-719591, some ⟨-44, 3, 15⟩, true⟩ = "-0044-03-15".toList :=
  ⟨⟨((fromString_display ⟨-719591, some ⟨-44, 3, 15⟩, true⟩).1 ⟨-44, 3, 15⟩ rfl
      ⟨by decide, by decide, by decide, by decide⟩ (by decide) (by decide)).2.2,
    (fromString_display ⟨2147483647, none, false⟩).2 rfl (by decide)⟩, by decide +kernel⟩

end LocalDateWrapper
end CqlDriver
