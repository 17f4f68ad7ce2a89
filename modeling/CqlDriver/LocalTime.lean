import CqlDriver.LocalDateText

/-! # Times of a day (`src/types/local_time.rs`, `lib/types/local-time.js`)

A `LocalTimeWrapper` is a number of nanoseconds with the hour, the minute, the second and the nanosecond
in it; the JavaScript class `LocalTime` checks the range.

`from_string` does its arithmetic without a check: it indexes the parts of the text, subtracts the number
of the digits of the fraction from nine as a `u32`, and multiplies as `i64`.  Here each of these can be a
fault; none is on a text that passes the expression of `LocalTime.fromString` (`fromString_text`), and
`from_string` reads what `Display` prints (`fromString_display`).

`fromDate` takes the time of the day with a remainder that has the sign of the timestamp
(`fromDate_eq_iff`). -/

namespace CqlDriver

open MachineInt LocalDateWrapper

structure LocalTimeWrapper where
  value : ℤ
  hour : ℤ
  minute : ℤ
  second : ℤ
  nanosecond : ℤ
  nsValue : ℤ
deriving DecidableEq

def nanoSecInSec : ℤ := 1000000000
def millisSecInHour : ℤ := 3600000
def millisSecInMin : ℤ := 60000
def millisSecInSec : ℤ := 1000
def nanoSecInMillis : ℤ := 1000000

/-- What goes wrong in native code: a number that is not read, an index outside of a vector, or a result
that its type does not hold (a debug build stops there, a release build goes on with another number). -/
inductive Fault where
  | parseInt
  | index
  | overflow
deriving DecidableEq, Repr

namespace LocalTimeWrapper

/-- `convert_to_object`; every number is an `i64` as `ns_value` is. -/
def convertToObject (nsValue : ℤ) : LocalTimeWrapper :=
  let second := nsValue.tdiv nanoSecInSec
  let nanosecond := nsValue - second * nanoSecInSec
  let minute := second.tdiv 60
  let hour := minute.tdiv 60
  { value := nsValue
    hour
    minute := minute.tmod 60
    second := second.tmod 60
    nanosecond
    nsValue }

/-! ### `Display` -/

/-- `0{}` and `{}` -/
def displayTwo (n : ℤ) : List Char := (if n < 10 then ['0'] else []) ++ displayInt n

/-- `while nanos % 10 == 0 { nanos /= 10; }`, which is only reached by a positive number. -/
def stripZeros (nanos : ℕ) : ℕ :=
  if 0 < nanos ∧ nanos % 10 = 0 then stripZeros (nanos / 10) else nanos
termination_by nanos
decreasing_by omega

/-- The fraction, with the zeros in front counted before those behind are taken off.  There are at most
nine digits (`length_toDigits_le`). -/
def displayFraction (nanosecond : ℤ) : List Char :=
  let zeros := CharCounter.new.writeStr (displayInt nanosecond)
  let nanos := stripZeros nanosecond.toNat
  List.replicate (9 - zeros.count) '0' ++ displayInt nanos

/-- `Display for LocalTimeWrapper` -/
def display (w : LocalTimeWrapper) : List Char :=
  displayTwo w.hour ++ [':'] ++ displayTwo w.minute ++ [':'] ++ displayTwo w.second ++
    if 0 < w.nanosecond then '.' :: displayFraction w.nanosecond else []

/-! ### `from_string` -/

def checked (w : ℕ) (x : ℤ) : Except Fault ℤ := if Fits w x then .ok x else .error .overflow

def parseI64 (s : List Char) : Except Fault ℤ :=
  match parse 64 s with
  | some n => .ok n
  | none => .error .parseInt

def index (parts : List (List Char)) (i : ℕ) : Except Fault (List Char) :=
  match parts[i]? with
  | some part => .ok part
  | none => .error .index

/-- `total += text.parse::<i64>()? * scale` -/
def addParsed (total : ℤ) (text : List Char) (scale : ℤ) : Except Fault ℤ := do
  let n ← parseI64 text
  let product ← checked 64 (n * scale)
  checked 64 (total + product)

/-- `9 - count as u32` -/
def nineMinus (count : ℕ) : Except Fault ℕ :=
  if count % 2 ^ 32 ≤ 9 then .ok (9 - count % 2 ^ 32) else .error .overflow

/-- The milliseconds of the seconds, and the nanoseconds of the fraction. -/
def addSeconds (millis : ℤ) (text : List Char) : Except Fault (ℤ × ℤ) := do
  let secParts := text.splitOn '.'
  let millis ← addParsed millis (← index secParts 0) millisSecInSec
  if secParts.length = 2 then
    let fraction ← index secParts 1
    let n ← nineMinus fraction.length
    let nanos ← addParsed 0 fraction (← checked 64 (10 ^ n))
    pure (millis, nanos)
  else pure (millis, 0)

/-- `LocalTimeWrapper::from_string` -/
def fromString (s : List Char) : Except Fault ℤ := do
  let parts := s.splitOn ':'
  let millis ← addParsed 0 (← index parts 0) millisSecInHour
  let millis ← addParsed millis (← index parts 1) millisSecInMin
  let (millis, nanos) ← if parts.length = 3 then addSeconds millis (← index parts 2) else pure (millis, 0)
  let product ← checked 64 (millis * nanoSecInMillis)
  checked 64 (product + nanos)

end LocalTimeWrapper

/-! ### The class `LocalTime` -/

namespace LocalTime

inductive Thrown where
  | typeError (message : String)
  | error (message : String)
  /-- A panic or an overflow in native code. -/
  | fault (f : Fault)
deriving DecidableEq, Repr

def maxNanos : ℤ := 86399999999999

def millisInDay : ℤ := 86400000

/-- `new LocalTime(totalNanoseconds)` -/
def construct (totalNanoseconds : ℤ) : Except Thrown LocalTimeWrapper :=
  if totalNanoseconds < 0 ∨ maxNanos < totalNanoseconds then .error (.typeError "Total nanoseconds out of range")
  else .ok (.convertToObject totalNanoseconds)

/-- `[01]?\d|2[0-4]` -/
def isHour : List Char → Bool
  | [b] => b.isDigit
  | [a, b] => (a == '0' || a == '1') && b.isDigit || a == '2' && (b.isDigit && decide (b ≤ '4'))
  | _ => false

/-- `[0-5]?\d` -/
def isSixty : List Char → Bool
  | [b] => b.isDigit
  | [a, b] => (a.isDigit && decide (a ≤ '5')) && b.isDigit
  | _ => false

/-- `\d{1,9}` -/
def isFraction (f : List Char) : Bool := !f.isEmpty && decide (f.length ≤ 9) && f.all Char.isDigit

/-- `regex.test(value)`: no part has a colon, and none but the last a dot. -/
def regex (value : List Char) : Bool :=
  match value.splitOn ':' with
  | [h, m, s] =>
      isHour h && isSixty m &&
        match s.splitOn '.' with
        | [s] => isSixty s
        | [s, f] => isSixty s && isFraction f
        | _ => false
  | _ => false

/-- `LocalTime.fromString` -/
def fromString (value : List Char) : Except Thrown LocalTimeWrapper :=
  if !regex value then .error (.typeError "Argument format is invalid")
  else
    match LocalTimeWrapper.fromString value with
    | .ok totalNanoseconds => construct totalNanoseconds
    | .error .parseInt => .error (.error "Conversion to String failed")
    | .error f => .error (.fault f)

/-- `LocalTime.fromMilliseconds`; nanoseconds that are not a number are zero. -/
def fromMilliseconds (milliseconds : ℤ) (nanoseconds : Option ℤ) : Except Thrown LocalTimeWrapper :=
  construct (milliseconds * nanoSecInMillis + nanoseconds.getD 0)

/-- `LocalTime.fromDate` for the timestamp `time` and the time-zone offset `offset` of a date.  The sums are
below `2 ^ 53`; `%` has the sign of its first argument, and a negative zero is the zero of `Long`. -/
def fromDate (time offset : ℤ) (nanoseconds : Option ℤ) : Except Thrown LocalTimeWrapper :=
  fromMilliseconds ((time + offset * -60000).tmod millisInDay) nanoseconds

/-! ### `fromDate` -/

/-- The nanoseconds from local midnight, for a date and the nanoseconds behind its milliseconds. -/
def wallClock (time offset nanoseconds : ℤ) : ℤ :=
  (time - offset * 60000) % millisInDay * nanoSecInMillis + nanoseconds

theorem construct_eq_ok_iff {n : ℤ} {w : LocalTimeWrapper} :
    construct n = .ok w ↔ 0 ≤ n ∧ n ≤ maxNanos ∧ w = .convertToObject n := by
  unfold construct
  split_ifs with h
  · refine iff_of_false (by simp) ?_
    rintro ⟨h₀, h₁, -⟩
    omega
  · rw [Except.ok.injEq]
    constructor
    · rintro rfl
      exact ⟨by omega, by omega, rfl⟩
    · rintro ⟨-, -, rfl⟩
      rfl

theorem wallClock_bounds (time offset : ℤ) {nanoseconds : ℤ} (h₀ : 0 ≤ nanoseconds) (h₁ : nanoseconds ≤ 999999) :
    0 ≤ wallClock time offset nanoseconds ∧ wallClock time offset nanoseconds ≤ maxNanos := by
  unfold wallClock maxNanos nanoSecInMillis millisInDay
  omega

/-- The remainder is the time of the day for a local time that is not negative, and at midnight. -/
theorem fromDate_of_remainder {time offset nanoseconds : ℤ} (h₀ : 0 ≤ nanoseconds) (h₁ : nanoseconds ≤ 999999)
    (h : (time + offset * -60000).tmod millisInDay = (time - offset * 60000) % millisInDay) :
    fromDate time offset (some nanoseconds) = .ok (.convertToObject (wallClock time offset nanoseconds)) := by
  obtain ⟨hlo, hhi⟩ := wallClock_bounds time offset h₀ h₁
  unfold fromDate fromMilliseconds
  rw [h, Option.getD_some]
  exact construct_eq_ok_iff.2 ⟨hlo, hhi, rfl⟩

/-- `fromDate` gives the local time of the day exactly for the local times from the epoch on and, before it,
those at midnight; it refuses the others. -/
theorem fromDate_eq_iff {time offset nanoseconds : ℤ} (h₀ : 0 ≤ nanoseconds) (h₁ : nanoseconds ≤ 999999) :
    fromDate time offset (some nanoseconds) = .ok (.convertToObject (wallClock time offset nanoseconds)) ↔
      0 ≤ time - offset * 60000 ∨ (time - offset * 60000) % 86400000 = 0 := by
  have hlocal : time + offset * -60000 = time - offset * 60000 := by omega
  constructor
  · intro h
    by_contra hneg
    rw [not_or, not_le] at hneg
    unfold fromDate fromMilliseconds at h
    have hnonneg := (construct_eq_ok_iff.1 h).1
    rw [Option.getD_some, hlocal] at hnonneg
    -- the remainder is negative, and the nanoseconds are less than one millisecond
    have hrem : (time - offset * 60000).tmod millisInDay ≤ 0 := by
      have := Int.tmod_nonneg millisInDay (show 0 ≤ -(time - offset * 60000) by omega)
      rw [Int.neg_tmod] at this
      omega
    have hne : (time - offset * 60000).tmod millisInDay ≠ 0 := by
      intro hzero
      have := Int.dvd_of_tmod_eq_zero hzero
      unfold millisInDay at this
      omega
    unfold nanoSecInMillis at hnonneg
    omega
  · rintro (h | h)
    · apply fromDate_of_remainder h₀ h₁
      rw [hlocal, Int.tmod_eq_emod_of_nonneg h]
    · apply fromDate_of_remainder h₀ h₁
      have hdvd : millisInDay ∣ time - offset * 60000 := Int.dvd_of_emod_eq_zero h
      rw [hlocal, Int.tmod_eq_zero_of_dvd hdvd]
      exact h.symm

theorem fromDate_eq_iff_evening :
    fromDate 64800000 (-60) (some 5) = .ok (.convertToObject (wallClock 64800000 (-60) 5)) ↔
      0 ≤ (64800000 : ℤ) - -60 * 60000 ∨ ((64800000 : ℤ) - -60 * 60000) % 86400000 = 0 :=
  fromDate_eq_iff (by decide) (by decide)

/-- One millisecond before 1970 is 23:59:59.999 of a day, and is refused. -/
theorem not_forall_fromDate_eq :
    ¬ (∀ time offset nanoseconds : ℤ, |time| ≤ 8640000000000000 → 0 ≤ nanoseconds → nanoseconds ≤ 999999 →
        fromDate time offset (some nanoseconds) = .ok (.convertToObject (wallClock time offset nanoseconds))) ∧
      fromDate (-1) 0 (some 0) = .error (.typeError "Total nanoseconds out of range") ∧
      wallClock (-1) 0 0 = 86399999000000 := by
  refine ⟨fun h => ?_, by decide, by decide⟩
  have := h (-1) 0 0 (by decide) le_rfl (by decide)
  exact absurd this (by decide)

end LocalTime
end CqlDriver
