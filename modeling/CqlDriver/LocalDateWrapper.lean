import CqlDriver.LocalDate

/-! # `LocalDateWrapper` (`src/types/local_date.rs`, `lib/types/local-date.js`)

The record that the JavaScript class `LocalDate` wraps: the day number and, within the range of a
JavaScript `Date`, the date.  `new` makes it from a year, a month and a day, of which the constructor
of `LocalDate` accepts what is in the range; `fromString` reads a day number from a text.

Both leave the arithmetic to `to_days`, which wraps: `new` tests the range on the wrapped number
(`constructs_iff`), and `fromString` builds its `Ymd` without the checks of `Ymd::new`
(`readsDate_iff`). -/

namespace CqlDriver

open MachineInt Gregorian LocalDate

structure LocalDateWrapper where
  /-- The number of days from 01.01.1970. -/
  value : ℤ
  date : Option Ymd
  /-- Whether the value can be represented as Date class in JS. -/
  inDate : Bool
deriving DecidableEq

namespace LocalDateWrapper

/-- `(MIN_JS_DATE..=MAX_JS_DATE).contains(&value)` -/
def isInDate (value : ℤ) : Bool := decide (minJsDate ≤ value ∧ value ≤ maxJsDate)

/-- `LocalDateWrapper::new` -/
def new (day month year : ℤ) : Except DateInvalid LocalDateWrapper :=
  (Ymd.new year month day).map fun date => ⟨date.toDays, some date, isInDate date.toDays⟩

/-- `new LocalDate(year, month, day)`: the errors of the native constructor pass through. -/
def construct (year month day : ℤ) : Except String LocalDateWrapper :=
  match new day month year with
  | .error e => .error e.message
  | .ok inner =>
      if inner.inDate then .ok inner else .error "You must provide a valid year, month and day"

/-! ### Construction -/

/-- The dates of a JavaScript `Date`, from -271821-04-20 to +275760-09-13. -/
def InJsRange (y m d : ℤ) : Prop :=
  IsDate y m d ∧ ¬ Before y m d (-271821) 4 20 ∧ ¬ Before 275760 9 13 y m d

/-- The range is set exactly for the dates in it, and the value of what is constructed is the day
number of the date. -/
def Constructs (y m d : ℤ) : Prop :=
  ((∃ w, new d m y = .ok w ∧ w.inDate = true) ↔ InJsRange y m d) ∧
    ∀ w, construct y m d = .ok w → w.value = dayNumber y m d

theorem isInDate_iff {value : ℤ} : isInDate value = true ↔ |value| ≤ 100000000 := by
  unfold isInDate
  rw [decide_eq_true_iff, abs_le]
  rfl

theorem inJsRange_iff {y m d : ℤ} (h : IsDate y m d) :
    InJsRange y m d ↔ |dayNumber y m d| ≤ 100000000 := by
  have hfirst : IsDate (-271821) 4 20 := ⟨by decide, by decide, by decide, by decide⟩
  have hlast : IsDate 275760 9 13 := ⟨by decide, by decide, by decide, by decide⟩
  have e₁ : dayNumber (-271821) 4 20 = -100000000 := by decide
  have e₂ : dayNumber 275760 9 13 = 100000000 := by decide
  unfold InJsRange
  rw [before_iff h hfirst, before_iff hlast h, e₁, e₂, abs_le]
  refine ⟨fun ⟨_, h₁, h₂⟩ => ⟨by omega, by omega⟩, fun ⟨h₁, h₂⟩ => ⟨h, by omega, by omega⟩⟩

theorem new_of_not_isDate {y m d : ℤ} (h : ¬ IsDate y m d) : ∃ e, new d m y = .error e := by
  unfold new
  cases hnew : Ymd.new y m d with
  | error e => exact ⟨e, rfl⟩
  | ok date => exact absurd (new_eq_ok_iff.1 hnew).1 h

theorem new_of_isDate {y m d : ℤ} (h : IsDate y m d) :
    new d m y = .ok ⟨(Ymd.mk y m d).toDays, some ⟨y, m, d⟩, isInDate (Ymd.mk y m d).toDays⟩ := by
  unfold new
  rw [new_eq_ok_iff.2 ⟨h, rfl⟩]
  rfl

theorem constructs_of_not_isDate {y m d : ℤ} (h : ¬ IsDate y m d) : Constructs y m d := by
  obtain ⟨e, he⟩ := new_of_not_isDate h
  refine ⟨⟨?_, fun hr => absurd hr.1 h⟩, ?_⟩
  · rintro ⟨w, hw, -⟩
    rw [he] at hw
    cases hw
  · intro w hw
    unfold construct at hw
    rw [he] at hw
    cases hw

/-- For a date the two parts only ask about the wrapped day number. -/
theorem constructs_iff_of_isDate {y m d : ℤ} (h : IsDate y m d) :
    Constructs y m d ↔
      ((|(Ymd.mk y m d).toDays| ≤ 100000000 ↔ |dayNumber y m d| ≤ 100000000) ∧
        (|(Ymd.mk y m d).toDays| ≤ 100000000 → (Ymd.mk y m d).toDays = dayNumber y m d)) := by
  have hnew := new_of_isDate h
  have hin : (∃ w, new d m y = .ok w ∧ w.inDate = true) ↔ |(Ymd.mk y m d).toDays| ≤ 100000000 := by
    rw [hnew, ← isInDate_iff]
    constructor
    · rintro ⟨w, hw, hdate⟩
      cases hw
      exact hdate
    · intro hdate
      exact ⟨_, rfl, hdate⟩
  have hvalue : (∀ w, construct y m d = .ok w → w.value = dayNumber y m d) ↔
      (|(Ymd.mk y m d).toDays| ≤ 100000000 → (Ymd.mk y m d).toDays = dayNumber y m d) := by
    unfold construct
    rw [hnew, ← isInDate_iff]
    simp only
    constructor
    · intro hw hdate
      exact hw _ (if_pos hdate)
    · intro hw w hc
      split_ifs at hc with hdate
      cases hc
      exact hw hdate
  unfold Constructs
  rw [hin, hvalue, inJsRange_iff h]

/-- The wrapped number differs from the day number by a multiple of `2 ^ 32`. -/
theorem exists_wrap32_eq (x : ℤ) : ∃ k : ℤ, wrap 32 x = x - k * 2 ^ 32 ∧ Fits 32 (wrap 32 x) := by
  have h₁ := Int.le_bmod (x := x) (m := 2 ^ 32) (by norm_num)
  have h₂ := Int.bmod_lt (x := x) (m := 2 ^ 32) (by norm_num)
  obtain ⟨k, hk⟩ : (2 ^ 32 : ℤ) ∣ x - wrap 32 x := by
    have := Int.dvd_self_sub_bmod (x := x) (m := 2 ^ 32)
    simpa [wrap] using this
  refine ⟨k, by omega, ?_⟩
  unfold Fits wrap
  norm_num at h₁ h₂ ⊢
  omega

/-- The construction does what it is for unless the arguments are a date in one of the years `0` to
`1969` that stand before a leap year, or a date whose day number is within the range of a multiple of
`2 ^ 32` other than zero. -/
theorem constructs_iff {y m d : ℤ} (hy : Fits 32 y) (_hm : Fits 8 m) (_hd : Fits 8 d) :
    Constructs y m d ↔ (IsDate y m d → ¬(0 ≤ y ∧ y < 1970 ∧ Leap (y + 1)) ∧
      ∀ k : ℤ, k ≠ 0 → 100000000 < |dayNumber y m d - k * 2 ^ 32|) := by
  by_cases h : IsDate y m d
  · rw [constructs_iff_of_isDate h, toDays_eq_wrap h hy]
    simp only [h, true_imp_iff]
    by_cases hleap : 0 ≤ y ∧ y < 1970 ∧ Leap (y + 1)
    · -- the day number is near zero, so that the day too many is in the range
      obtain ⟨hvalue, hlo, hhi⟩ := toDays_eq_of_leap h hleap
      rw [toDays_eq_wrap h hy] at hvalue
      rw [hvalue, abs_le]
      refine iff_of_false (fun hc => ?_) (fun hc => hc.1 hleap)
      have := hc.2 ⟨by omega, by omega⟩
      omega
    · rw [if_neg hleap, add_zero]
      obtain ⟨k, hk, hfits⟩ := exists_wrap32_eq (dayNumber y m d)
      obtain ⟨hlo, hhi⟩ := hfits
      norm_num at hlo hhi
      rw [hk] at hlo hhi ⊢
      generalize dayNumber y m d = n at hlo hhi ⊢
      constructor
      · rintro ⟨hiff, hvalue⟩
        refine ⟨hleap, fun k' hk' => ?_⟩
        by_contra hnear
        rw [not_lt, abs_le] at hnear
        -- only the multiple that is taken off can be as near
        obtain rfl : k' = k := by omega
        have := hvalue (abs_le.2 hnear)
        omega
      · rintro ⟨-, hfar⟩
        by_cases hk0 : k = 0
        · subst hk0
          simp
        · have := hfar k hk0
          refine ⟨iff_of_false (not_le.2 this) ?_, fun hle => absurd hle (not_le.2 this)⟩
          rw [abs_le]
          omega
  · exact iff_of_true (constructs_of_not_isDate h) (fun hd => absurd hd h)

theorem constructs_iff_leap_day :
    Constructs 2024 2 29 ∧ construct 2024 2 29 = .ok ⟨19782, some ⟨2024, 2, 29⟩, true⟩ := by
  refine ⟨(constructs_iff (by decide) (by decide) (by decide)).2 fun _ => ⟨by decide, fun k hk => ?_⟩,
    by decide⟩
  have e : dayNumber 2024 2 29 = 19782 := by decide
  rw [e, lt_abs]
  omega

/-- The first of January 11761191 is `2 ^ 32 - 20` days behind the epoch and gets the value `-20`; the
last day of 1967 gets the value of the first day of 1968. -/
theorem not_constructs :
    ¬ Constructs 11761191 1 1 ∧ ¬ Constructs 1967 12 31 ∧
      construct 11761191 1 1 = .ok ⟨-20, some ⟨11761191, 1, 1⟩, true⟩ ∧
      construct 1967 12 31 = .ok ⟨-731, some ⟨1967, 12, 31⟩, true⟩ := by
  refine ⟨?_, ?_, by decide, by decide⟩
  · rw [constructs_iff_of_isDate ⟨by decide, by decide, by decide, by decide⟩]
    decide
  · rw [constructs_iff_of_isDate ⟨by decide, by decide, by decide, by decide⟩]
    decide

/-! ### Texts -/

/-- `str::parse` for the signed integers of `w` bits. -/
def parse (w : ℕ) (s : List Char) : Option ℤ :=
  match s with
  | '-' :: digits => signed (-1) digits
  | '+' :: digits => signed 1 digits
  | digits => signed 1 digits
where
  signed (sign : ℤ) (digits : List Char) : Option ℤ :=
    if digits.isEmpty || !digits.all Char.isDigit then none
    else if Fits w (sign * Nat.ofDigitChars 10 digits 0) then some (sign * Nat.ofDigitChars 10 digits 0)
    else none

/-- `[1-9]` -/
def isNonzeroDigit (c : Char) : Bool := c.isDigit && c != '0'

/-- `0?[1-9]|1[012]` -/
def isMonth : List Char → Bool
  | [c] => isNonzeroDigit c
  | [b, c] => b == '0' && isNonzeroDigit c || b == '1' && (c == '0' || c == '1' || c == '2')
  | _ => false

/-- `0?[1-9]|[12][0-9]|3[01]` -/
def isDay : List Char → Bool
  | [c] => isNonzeroDigit c
  | [b, c] =>
      b == '0' && isNonzeroDigit c || (b == '1' || b == '2') && c.isDigit || b == '3' && (c == '0' || c == '1')
  | _ => false

/-- `s.strip_prefix('-').unwrap_or(&s)` -/
def stripDash (s : List Char) : List Char :=
  match s with
  | '-' :: s => s
  | s => s

/-- `DATE_REGEX.is_match(&value)`: no part has a dash.  The class `\d` also has the digits of other
scripts; a text with one of them passes here and is refused as a number, with the same error. -/
def dateRegex (value : List Char) : Bool :=
  match (stripDash value).splitOn '-' with
  | [y, m, d] => !y.isEmpty && y.all Char.isDigit && isMonth m && isDay d
  | _ => false

/-- The numbers of a date text. -/
def readDate (s : List Char) : Option Ymd :=
  match (stripDash s).splitOn '-' with
  | y :: m :: d :: _ => do
      let y ← parse 32 y
      let m ← parse 8 m
      let d ← parse 8 d
      some ⟨mul32 (if s.head? = some '-' then -1 else 1) y, m, d⟩
  | _ => none

/-- `LocalDateWrapper::from_string` -/
def fromString (value : List Char) : Except DateInvalid ℤ :=
  let dashes := value.count '-'
  if dashes < 2 then
    match parse 32 value with
    | some days => .ok days
    | none => .error .format
  else if dashes = 2 ∨ dashes = 3 then
    if !dateRegex value then .error .format
    else
      match readDate value with
      | some date => .ok date.toDays
      | none => .error .format
  else .error .format

/-- A text of one or more digits. -/
structure DigitText where
  chars : List Char
  ne_nil : chars ≠ []
  digits : ∀ c ∈ chars, c.isDigit = true

namespace DigitText

def number (t : DigitText) : ℤ := Nat.ofDigitChars 10 t.chars 0

variable (t : DigitText)

theorem number_nonneg : 0 ≤ t.number := Int.natCast_nonneg _

theorem not_mem {c : Char} (h : c.isDigit = false) : c ∉ t.chars := fun hc => by
  rw [t.digits c hc] at h
  cases h

theorem dash_not_mem : '-' ∉ t.chars := t.not_mem rfl

theorem parse_chars (w : ℕ) : parse w t.chars = if Fits w t.number then some t.number else none := by
  obtain ⟨chars, hne, hdigits⟩ := t
  have hall : chars.all Char.isDigit = true := List.all_eq_true.2 hdigits
  have hsigned : parse w chars = parse.signed w 1 chars := by
    cases chars with
    | nil => exact absurd rfl hne
    | cons c cs =>
        have hc := hdigits c (List.mem_cons_self ..)
        have h₁ : c ≠ '-' := by rintro rfl; exact absurd hc (by decide)
        have h₂ : c ≠ '+' := by rintro rfl; exact absurd hc (by decide)
        unfold parse
        split
        · next heq => exact absurd (List.cons.inj heq).1 h₁
        · next heq => exact absurd (List.cons.inj heq).1 h₂
        · rfl
  rw [hsigned, parse.signed, hall, one_mul, if_neg (by simpa using hne)]
  rfl

end DigitText

/-- The text `[-]Y-M-D`. -/
def dateText (negative : Bool) (y m d : DigitText) : List Char :=
  (if negative then ['-'] else []) ++ ['-'].intercalate [y.chars, m.chars, d.chars]

/-- The year of the text. -/
def textYear (negative : Bool) (y : DigitText) : ℤ := if negative then -y.number else y.number

section dateText

variable (negative : Bool) (y m d : DigitText)

theorem count_dateText : (dateText negative y m d).count '-' = if negative then 3 else 2 := by
  have hy := List.count_eq_zero.2 y.dash_not_mem
  have hm := List.count_eq_zero.2 m.dash_not_mem
  have hd := List.count_eq_zero.2 d.dash_not_mem
  cases negative <;> simp [dateText, hy, hm, hd]

theorem head_dateText : (dateText negative y m d).head? = some '-' ↔ negative = true := by
  obtain ⟨chars, hne, hdigits⟩ := y
  obtain ⟨c, cs, rfl⟩ := List.exists_cons_of_ne_nil hne
  cases negative with
  | true => simp [dateText]
  | false =>
      have hc : c ≠ '-' := by
        rintro rfl
        exact absurd (hdigits '-' (List.mem_cons_self ..)) (by decide)
      simp [dateText, hc]

theorem stripDash_dateText :
    stripDash (dateText negative y m d) = ['-'].intercalate [y.chars, m.chars, d.chars] := by
  have hhead := head_dateText negative y m d
  cases negative with
  | true => rfl
  | false =>
      simp only [dateText, Bool.false_eq_true, if_false, List.nil_append] at hhead ⊢
      unfold stripDash
      split
      · next cs heq =>
          rw [heq] at hhead
          exact absurd (hhead.1 rfl) (by simp)
      · rfl

theorem splitOn_dateText :
    (stripDash (dateText negative y m d)).splitOn '-' = [y.chars, m.chars, d.chars] := by
  rw [stripDash_dateText]
  refine List.splitOn_intercalate '-' (fun p hp => ?_) (by simp)
  simp only [List.mem_cons, List.not_mem_nil, or_false] at hp
  obtain rfl | rfl | rfl := hp
  · exact y.dash_not_mem
  · exact m.dash_not_mem
  · exact d.dash_not_mem

theorem dateRegex_dateText :
    dateRegex (dateText negative y m d) = (isMonth m.chars && isDay d.chars) := by
  have hall : y.chars.all Char.isDigit = true := List.all_eq_true.2 y.digits
  unfold dateRegex
  rw [splitOn_dateText]
  simp [List.isEmpty_eq_false_iff.2 y.ne_nil, hall]

theorem isNonzeroDigit_spec {c : Char} (h : isNonzeroDigit c = true) : 49 ≤ c.toNat ∧ c.toNat ≤ 57 := by
  simp only [isNonzeroDigit, Char.isDigit, Bool.and_eq_true, decide_eq_true_eq, bne_iff_ne, ne_eq] at h
  obtain ⟨⟨h₁, h₂⟩, h₃⟩ := h
  have h₁' : 48 ≤ c.toNat := h₁
  have h₂' : c.toNat ≤ 57 := h₂
  refine ⟨?_, h₂'⟩
  by_contra hlt
  apply h₃
  apply Char.toNat_inj.1
  change c.toNat = 48
  omega

theorem isDigit_toNat {c : Char} (h : c.isDigit = true) : 48 ≤ c.toNat ∧ c.toNat ≤ 57 := by
  simp only [Char.isDigit, Bool.and_eq_true, decide_eq_true_eq] at h
  exact ⟨h.1, h.2⟩

theorem ofDigitChars_one (c : Char) : Nat.ofDigitChars 10 [c] 0 = c.toNat - 48 := by
  rw [Nat.ofDigitChars_cons, Nat.ofDigitChars_nil, mul_zero, zero_add]
  rfl

theorem ofDigitChars_two (b c : Char) :
    Nat.ofDigitChars 10 [b, c] 0 = 10 * (b.toNat - 48) + (c.toNat - 48) := by
  rw [Nat.ofDigitChars_cons, Nat.ofDigitChars_cons, Nat.ofDigitChars_nil, mul_zero, zero_add]
  rfl

theorem month_number : ∀ {chars : List Char}, isMonth chars = true →
    1 ≤ Nat.ofDigitChars 10 chars 0 ∧ Nat.ofDigitChars 10 chars 0 ≤ 12
  | [c], h => by
      have := isNonzeroDigit_spec h
      rw [ofDigitChars_one]
      omega
  | [b, c], h => by
      simp only [isMonth, Bool.or_eq_true, Bool.and_eq_true, beq_iff_eq] at h
      obtain ⟨rfl, hc⟩ | ⟨rfl, (rfl | rfl) | rfl⟩ := h
      · have := isNonzeroDigit_spec hc
        rw [ofDigitChars_two, show Char.toNat '0' = 48 from rfl]
        omega
      · decide
      · decide
      · decide

theorem day_number : ∀ {chars : List Char}, isDay chars = true →
    1 ≤ Nat.ofDigitChars 10 chars 0 ∧ Nat.ofDigitChars 10 chars 0 ≤ 31
  | [c], h => by
      have := isNonzeroDigit_spec h
      rw [ofDigitChars_one]
      omega
  | [b, c], h => by
      simp only [isDay, Bool.or_eq_true, Bool.and_eq_true, beq_iff_eq] at h
      obtain (⟨rfl, hc⟩ | ⟨rfl | rfl, hc⟩) | ⟨rfl, rfl | rfl⟩ := h
      · have := isNonzeroDigit_spec hc
        rw [ofDigitChars_two, show Char.toNat '0' = 48 from rfl]
        omega
      · have := isDigit_toNat hc
        rw [ofDigitChars_two, show Char.toNat '1' = 49 from rfl]
        omega
      · have := isDigit_toNat hc
        rw [ofDigitChars_two, show Char.toNat '2' = 50 from rfl]
        omega
      · decide
      · decide

/-- The texts that are read: the pattern bounds the month and the day, the year has to be an `i32`. -/
def Accepted (y m d : DigitText) : Prop :=
  isMonth m.chars = true ∧ isDay d.chars = true ∧ y.number < 2 ^ 31

variable {y m d} in
theorem Accepted.bounds (h : Accepted y m d) :
    (1 ≤ m.number ∧ m.number ≤ 12) ∧ 1 ≤ d.number ∧ d.number ≤ 31 := by
  have hm := month_number h.1
  have hd := day_number h.2.1
  unfold DigitText.number
  omega

theorem readDate_of_accepted (h : Accepted y m d) :
    readDate (dateText negative y m d) = some ⟨textYear negative y, m.number, d.number⟩ := by
  obtain ⟨⟨hm₁, hm₂⟩, hd₁, hd₂⟩ := h.bounds
  obtain ⟨-, -, hy⟩ := h
  have hy₀ := y.number_nonneg
  have hyear : mul32 (if negative then -1 else 1) y.number = textYear negative y := by
    unfold mul32 textYear
    cases negative
    · simp only [Bool.false_eq_true, if_false, one_mul]
      exact wrap32_eq_self (by omega) (by omega)
    · simp only [if_true, neg_one_mul]
      exact wrap32_eq_self (by omega) (by omega)
  unfold readDate
  rw [splitOn_dateText]
  simp only [DigitText.parse_chars, head_dateText]
  rw [if_pos ⟨by norm_num; omega, by norm_num; omega⟩, if_pos ⟨by norm_num; omega, by norm_num; omega⟩,
    if_pos ⟨by norm_num; omega, by norm_num; omega⟩]
  simp only [Option.bind_eq_bind, Option.bind_some, hyear]

theorem fromString_of_accepted (h : Accepted y m d) :
    fromString (dateText negative y m d) =
      .ok (Ymd.mk (textYear negative y) m.number d.number).toDays := by
  have hread := readDate_of_accepted negative y m d h
  obtain ⟨hm, hd, -⟩ := h
  unfold fromString
  rw [count_dateText, dateRegex_dateText, hm, hd, hread]
  cases negative <;> rfl

theorem fromString_of_not_accepted (h : ¬ Accepted y m d) :
    fromString (dateText negative y m d) = .error .format := by
  unfold fromString
  rw [count_dateText, dateRegex_dateText]
  by_cases hmd : isMonth m.chars = true ∧ isDay d.chars = true
  · have hy : ¬ y.number < 2 ^ 31 := fun hy => h ⟨hmd.1, hmd.2, hy⟩
    have hread : readDate (dateText negative y m d) = none := by
      unfold readDate
      rw [splitOn_dateText]
      simp only [DigitText.parse_chars]
      rw [if_neg (fun hf => hy hf.2)]
      rfl
    rw [hmd.1, hmd.2, hread]
    cases negative <;> rfl
  · have hfalse : (isMonth m.chars && isDay d.chars) = false := by
      rw [Bool.eq_false_iff]
      simpa using hmd
    rw [hfalse]
    cases negative <;> rfl

/-- A date text gives an error, or it is a date of the calendar and gives its day number. -/
def ReadsDate (negative : Bool) (y m d : DigitText) : Prop :=
  ∀ v, fromString (dateText negative y m d) = .ok v →
    IsDate (textYear negative y) m.number d.number ∧
      Fits 32 (dayNumber (textYear negative y) m.number d.number) ∧
      v = dayNumber (textYear negative y) m.number d.number

/-- A date text that is not refused is read right exactly when the day is in the month, the day number
is an `i32`, and the year is not one of the years `0` to `1969` that stand before a leap year. -/
theorem readsDate_iff :
    ReadsDate negative y m d ↔ (Accepted y m d →
      d.number ≤ monthLength (textYear negative y) m.number ∧
        Fits 32 (dayNumber (textYear negative y) m.number d.number) ∧
        ¬(0 ≤ textYear negative y ∧ textYear negative y < 1970 ∧ Leap (textYear negative y + 1))) := by
  unfold ReadsDate
  by_cases h : Accepted y m d
  · obtain ⟨⟨hm₁, hm₂⟩, hd₁, -⟩ := h.bounds
    rw [fromString_of_accepted negative y m d h]
    simp only [h, true_imp_iff, Except.ok.injEq, forall_eq']
    constructor
    · rintro ⟨hdate, hfits, hvalue⟩
      refine ⟨hdate.day_le, hfits, fun hleap => ?_⟩
      rw [(toDays_eq_of_leap hdate hleap).1] at hvalue
      omega
    · rintro ⟨hle, hfits, hleap⟩
      have hdate : IsDate (textYear negative y) m.number d.number := ⟨hm₁, hm₂, hd₁, hle⟩
      exact ⟨hdate, hfits, toDays_eq_of_not_leap hdate hfits hleap⟩
  · rw [fromString_of_not_accepted negative y m d h]
    exact iff_of_true (fun v hv => by cases hv) (fun hacc => absurd hacc h)

end dateText

/-- The digits of a text. -/
def DigitText.ofString (s : String) (h : (!s.toList.isEmpty && s.toList.all Char.isDigit) = true) :
    DigitText where
  chars := s.toList
  ne_nil := List.isEmpty_eq_false_iff.1 (by simpa using (Bool.and_eq_true_iff.1 h).1)
  digits := List.all_eq_true.1 (Bool.and_eq_true_iff.1 h).2

/-- `2023-02-30` is read as the second of March, and the first day of a year behind the range of the day
numbers as a day of another year. -/
theorem not_readsDate :
    ¬ ReadsDate false (.ofString "2023" (by decide)) (.ofString "02" (by decide)) (.ofString "30" (by decide)) ∧
    ¬ ReadsDate false (.ofString "11761191" (by decide)) (.ofString "1" (by decide))
        (.ofString "1" (by decide)) ∧
      fromString "2023-02-30".toList = .ok 19418 ∧ fromString "2023-03-02".toList = .ok 19418 ∧
      fromString "11761191-1-1".toList = .ok (-20) := by
  have h₁ : fromString "2023-02-30".toList = .ok 19418 := by decide +kernel
  have h₂ : fromString "11761191-1-1".toList = .ok (-20) := by decide +kernel
  refine ⟨fun h => ?_, fun h => ?_, h₁, by decide +kernel, h₂⟩
  · exact absurd (h 19418 h₁).1.day_le (by decide)
  · exact absurd (h (-20) h₂).2.1 (by decide)

end LocalDateWrapper
end CqlDriver
