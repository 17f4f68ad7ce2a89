import CqlDriver.EncoderRoundTrip

/-! # The text of a duration (`lib/types/duration.js`)

`toString` splits the months into years and months and the nanoseconds into hours down to nanoseconds;
`fromString` finds the pieces `digits unit` of a text and adds them in a `Builder` that checks their order and
the range of the sums.  Texts are lists of characters and a `Long` is a `BitVec 64`.

A number that is read is rounded to a double; the numbers that pass the checks are exact.  The quotients
`dividend / divisor` and `(maxInt32 - this._months) / monthsPerUnit` are taken exactly: they are rounded by less
than `2⁻²⁴`, where the exact value is at least `1/12` away from the integers and halves that decide the result. -/

namespace CqlDriver.Duration

open MachineInt

/-! ### Writing -/

/-- `x.toFixed(0)` for `x ≥ 0`: the nearest integer, the larger one of two. -/
def toFixed (x : ℚ) : ℕ := ⌊x + 1 / 2⌋.toNat

def monthsPerYear : ℕ := 12
def daysPerWeek : ℕ := 7
def maxInt32 : ℕ := 0x7fffffff
def nanosPerMicro : BitVec 64 := 1000
def nanosPerMilli : BitVec 64 := 1000 * nanosPerMicro
def nanosPerSecond : BitVec 64 := 1000 * nanosPerMilli
def nanosPerMinute : BitVec 64 := 60 * nanosPerSecond
def nanosPerHour : BitVec 64 := 60 * nanosPerMinute

/-- `append`: the text with the number of units, and the remainder. -/
def append (value : List Char) (dividend divisor : ℕ) (unit : List Char) : List Char × ℕ :=
  if dividend = 0 ∨ dividend < divisor then (value, dividend)
  else (value ++ Nat.toDigits 10 (toFixed ((dividend : ℚ) / divisor)) ++ unit, dividend % divisor)

/-- `toString` of a `Long` -/
def longText (n : BitVec 64) : List Char :=
  if n.toInt < 0 then '-' :: Nat.toDigits 10 n.toInt.natAbs else Nat.toDigits 10 n.toInt.natAbs

def append64 (value : List Char) (dividend divisor : BitVec 64) (unit : List Char) : List Char × BitVec 64 :=
  if dividend = 0 ∨ dividend.slt divisor = true then (value, dividend)
  else (value ++ longText (dividend.sdiv divisor) ++ unit, dividend.srem divisor)

/-- The calls of `append64` in `toString`. -/
def appendNanos (value : List Char) (nanos : BitVec 64) : List Char :=
  let hours := append64 value nanos nanosPerHour ['h']
  let minutes := append64 hours.1 hours.2 nanosPerMinute ['m']
  let seconds := append64 minutes.1 minutes.2 nanosPerSecond ['s']
  let millis := append64 seconds.1 seconds.2 nanosPerMilli ['m', 's']
  let micros := append64 millis.1 millis.2 nanosPerMicro ['u', 's']
  (append64 micros.1 micros.2 1 ['n', 's']).1

def toString (d : Duration) : List Char :=
  let value := if d.months < 0 ∨ d.days < 0 ∨ d.nanoseconds.toInt < 0 then ['-'] else []
  let years := append value d.months.natAbs monthsPerYear ['y']
  let months := append years.1 years.2 1 ['m', 'o']
  let days := append months.1 d.days.natAbs 1 ['d']
  if d.nanoseconds = 0 then days.1
  else appendNanos days.1 (if d.nanoseconds.toInt < 0 then -d.nanoseconds else d.nanoseconds)

/-! ### The builder -/

inductive TimeUnit where
  | years
  | months
  | weeks
  | days
  | hours
  | minutes
  | seconds
  | milliseconds
  | microseconds
  | nanoseconds
deriving DecidableEq

/-- The place of the unit in `_unitByIndex`. -/
def TimeUnit.index : TimeUnit → ℕ
  | years => 1
  | months => 2
  | weeks => 3
  | days => 4
  | hours => 5
  | minutes => 6
  | seconds => 7
  | milliseconds => 8
  | microseconds => 9
  | nanoseconds => 10

/-- `_getUnitName` -/
def getUnitName : ℕ → String
  | 1 => "years"
  | 2 => "months"
  | 3 => "weeks"
  | 4 => "days"
  | 5 => "hours"
  | 6 => "minutes"
  | 7 => "seconds"
  | 8 => "milliseconds"
  | 9 => "microseconds"
  | 10 => "nanoseconds"
  | unitIndex => "unknown unit index: " ++ unitIndex.repr

structure Builder where
  isNegative : Bool
  unitIndex : ℕ
  months : ℕ
  days : ℕ
  nanoseconds : BitVec 64
deriving DecidableEq

namespace Builder

def new (isNegative : Bool) : Builder := ⟨isNegative, 0, 0, 0, 0⟩

/-- `_validateOrder`; an error is the message of its `TypeError`. -/
def validateOrder (b : Builder) (unitIndex : ℕ) : Except String Builder :=
  if unitIndex = b.unitIndex then
    .error ("Invalid duration. The " ++ getUnitName unitIndex ++ " are specified multiple times")
  else if unitIndex ≤ b.unitIndex then
    .error ("Invalid duration. The " ++ getUnitName b.unitIndex ++ " should be after " ++ getUnitName unitIndex)
  else .ok { b with unitIndex }

def outOfRange (unitName : String) (limit : ℕ) : String :=
  "Invalid duration. The total number of " ++ unitName ++ " must be less or equal to " ++ limit.repr

/-- `addYears` and `addMonths` -/
def addMonthUnits (b : Builder) (unitIndex : ℕ) (value monthsPerUnit : ℕ) : Except String Builder :=
  (b.validateOrder unitIndex).bind fun b =>
    if (value : ℚ) > ((maxInt32 : ℚ) - b.months) / monthsPerUnit then .error (outOfRange "months" maxInt32)
    else .ok { b with months := b.months + value * monthsPerUnit }

/-- `addWeeks` and `addDays` -/
def addDayUnits (b : Builder) (unitIndex : ℕ) (value daysPerUnit : ℕ) : Except String Builder :=
  (b.validateOrder unitIndex).bind fun b =>
    if (value : ℚ) > ((maxInt32 : ℚ) - b.days) / daysPerUnit then .error (outOfRange "days" maxInt32)
    else .ok { b with days := b.days + value * daysPerUnit }

/-- `addHours` to `addNanos` -/
def addNanoUnits (b : Builder) (unitIndex : ℕ) (value nanosPerUnit : BitVec 64) : Except String Builder :=
  (b.validateOrder unitIndex).bind fun b =>
    if ((BitVec.intMax 64 - b.nanoseconds).sdiv nanosPerUnit).slt value then
      .error (outOfRange "nanoseconds" 9223372036854775807)
    else .ok { b with nanoseconds := b.nanoseconds + value * nanosPerUnit }

/-- The nearest double, the even one of two.  From `2 ^ 1024` on it is `Infinity`; like the number that stands here
it is above every limit. -/
def toDouble (n : ℕ) : ℕ :=
  let unit := 2 ^ (n.log2 - 52)
  if 2 * (n % unit) < unit ∨ 2 * (n % unit) = unit ∧ n / unit % 2 = 0 then n / unit * unit
  else (n / unit + 1) * unit

/-- `+text` -/
def number (text : List Char) : ℕ := toDouble (Nat.ofDigitChars 10 text 0)

/-- `Long.fromString(text)`, which wraps. -/
def long (text : List Char) : BitVec 64 := BitVec.ofNat 64 (Nat.ofDigitChars 10 text 0)

def addYears (b : Builder) (years : List Char) : Except String Builder :=
  b.addMonthUnits 1 (number years) monthsPerYear

def addMonths (b : Builder) (months : List Char) : Except String Builder := b.addMonthUnits 2 (number months) 1

def addWeeks (b : Builder) (weeks : List Char) : Except String Builder :=
  b.addDayUnits 3 (number weeks) daysPerWeek

def addDays (b : Builder) (days : List Char) : Except String Builder := b.addDayUnits 4 (number days) 1

def addHours (b : Builder) (hours : List Char) : Except String Builder :=
  b.addNanoUnits 5 (long hours) nanosPerHour

def addMinutes (b : Builder) (minutes : List Char) : Except String Builder :=
  b.addNanoUnits 6 (long minutes) nanosPerMinute

def addSeconds (b : Builder) (seconds : List Char) : Except String Builder :=
  b.addNanoUnits 7 (long seconds) nanosPerSecond

def addMillis (b : Builder) (millis : List Char) : Except String Builder :=
  b.addNanoUnits 8 (long millis) nanosPerMilli

def addMicros (b : Builder) (micros : List Char) : Except String Builder :=
  b.addNanoUnits 9 (long micros) nanosPerMicro

def addNanos (b : Builder) (nanos : List Char) : Except String Builder := b.addNanoUnits 10 (long nanos) 1

def addUnit (b : Builder) (text : List Char) : TimeUnit → Except String Builder
  | .years => b.addYears text
  | .months => b.addMonths text
  | .weeks => b.addWeeks text
  | .days => b.addDays text
  | .hours => b.addHours text
  | .minutes => b.addMinutes text
  | .seconds => b.addSeconds text
  | .milliseconds => b.addMillis text
  | .microseconds => b.addMicros text
  | .nanoseconds => b.addNanos text

/-- `_addMethods` -/
def addMethods : List (List Char × TimeUnit) :=
  [(['y'], .years), (['m', 'o'], .months), (['w'], .weeks), (['d'], .days), (['h'], .hours), (['m'], .minutes),
    (['s'], .seconds), (['m', 's'], .milliseconds), (['µ', 's'], .microseconds), (['u', 's'], .microseconds),
    (['n', 's'], .nanoseconds)]

/-- `toLowerCase`, on the characters that the unit of a match can have. -/
def toLowerCase (c : Char) : Char := if c = 'Μ' then 'μ' else c.toLower

def add (b : Builder) (textValue symbol : List Char) : Except String Builder :=
  match addMethods.lookup (symbol.map toLowerCase) with
  | some unit => b.addUnit textValue unit
  | none => .error ("Unknown duration symbol '" ++ String.ofList symbol ++ "'")

/-- `build`; the native constructor takes `months` and `days` as 32-bit integers. -/
def build (b : Builder) : Duration :=
  if b.isNegative then ⟨wrap 32 (-b.months), wrap 32 (-b.days), -b.nanoseconds, fits_wrap32 _, fits_wrap32 _⟩
  else ⟨wrap 32 b.months, wrap 32 b.days, b.nanoseconds, fits_wrap32 _, fits_wrap32 _⟩

end Builder

/-! ### Reading -/

/-- How the flag `i` of a regular expression compares characters; the micro sign has the same capital as `μ`. -/
def canonicalize (c : Char) : Char := if c = 'µ' ∨ c = 'μ' then 'Μ' else c.toUpper

/-- The units of `standardRegex`, in its order. -/
def unitAlternatives : List (List Char) :=
  [['y'], ['m', 'o'], ['w'], ['d'], ['h'], ['s'], ['m', 's'], ['u', 's'], ['µ', 's'], ['n', 's'], ['m']]

/-- The unit at the front of a text, and what follows. -/
def matchUnit (source : List Char) : Option (List Char × List Char) :=
  unitAlternatives.findSome? fun unit =>
    if (source.take unit.length).map canonicalize = unit.map canonicalize then
      some (source.take unit.length, source.drop unit.length)
    else none

/-- `standardRegex.exec`: the first `(\d+)(unit)`, and the text behind it.  Fewer digits than there are cannot
be followed by a unit. -/
def nextMatch : List Char → Option (List Char × List Char × List Char)
  | [] => none
  | c :: cs =>
      match matchUnit ((c :: cs).dropWhile Char.isDigit) with
      | some (unit, rest) =>
          if c.isDigit then some ((c :: cs).takeWhile Char.isDigit, unit, rest) else nextMatch cs
      | none => nextMatch cs

/-- The loop of `parseStandardFormat`; `fuel` bounds its passes. -/
def parseStandardLoop : ℕ → Builder → List Char → Except String Builder
  | 0, builder, _ => .ok builder
  | fuel + 1, builder, source =>
      match nextMatch source with
      | some (digits, unit, rest) =>
          (builder.add digits unit).bind fun builder => parseStandardLoop fuel builder rest
      | none => .ok builder

def parseStandardFormat (isNegative : Bool) (source : List Char) : Except String Duration :=
  (parseStandardLoop source.length (.new isNegative) source).map Builder.build

def unableToConvert (source : List Char) : String :=
  "Unable to convert '" ++ String.ofList source ++ "' to a duration"

/-- The group `((\d+)X)?` with the designator `X`: its digits, and the text behind it. -/
def isoPart (designator : Char) (source : List Char) : Option (List Char) × List Char :=
  match source.takeWhile Char.isDigit, source.dropWhile Char.isDigit with
  | digit :: digits, c :: rest =>
      if c = designator then (some (digit :: digits), rest) else (none, source)
  | _, _ => (none, source)

def addPart (part : Option (List Char)) (unit : TimeUnit) (b : Builder) : Except String Builder :=
  match part with
  | some text => b.addUnit text unit
  | none => .ok b

/-- The text behind `T`, or no text when there is no `T`. -/
def isoTime : List Char → List Char
  | 'T' :: rest => rest
  | _ => []

def parseIso8601Format (isNegative : Bool) (source : List Char) : Except String Duration :=
  let years := isoPart 'Y' source.tail
  let months := isoPart 'M' years.2
  let days := isoPart 'D' months.2
  let hours := isoPart 'H' (isoTime days.2)
  let minutes := isoPart 'M' hours.2
  let seconds := isoPart 'S' minutes.2
  let rest := if days.2.head? = some 'T' then seconds.2 else days.2
  if rest ≠ [] then .error (unableToConvert source)
  else
    (addPart years.1 .years (.new isNegative)).bind fun b =>
      (addPart months.1 .months b).bind fun b =>
        (addPart days.1 .days b).bind fun b =>
          (addPart hours.1 .hours b).bind fun b =>
            (addPart minutes.1 .minutes b).bind fun b =>
              (addPart seconds.1 .seconds b).map Builder.build

def parseIso8601WeekFormat (isNegative : Bool) (source : List Char) : Except String Duration :=
  let weeks := isoPart 'W' source.tail
  match weeks.1 with
  | some digits =>
      if weeks.2 ≠ [] then .error (unableToConvert source)
      else ((Builder.new isNegative).addWeeks digits).map Builder.build
  | none => .error (unableToConvert source)

/-- `P(\d{4})-(\d{2})-(\d{2})T(\d{2}):(\d{2}):(\d{2})`, on the whole text. -/
def alternateParts : List Char → Option (List (List Char))
  | ['P', a, b, c, d, '-', e, f, '-', g, h, 'T', i, j, ':', k, l, ':', m, n] =>
      if [a, b, c, d, e, f, g, h, i, j, k, l, m, n].all Char.isDigit then
        some [[a, b, c, d], [e, f], [g, h], [i, j], [k, l], [m, n]]
      else none
  | _ => none

def parseIso8601AlternativeFormat (isNegative : Bool) (source : List Char) : Except String Duration :=
  match alternateParts source with
  | some [years, months, days, hours, minutes, seconds] =>
      ((Builder.new isNegative).addYears years).bind fun b =>
        (b.addMonths months).bind fun b =>
          (b.addDays days).bind fun b =>
            (b.addHours hours).bind fun b =>
              (b.addMinutes minutes).bind fun b =>
                (b.addSeconds seconds).map Builder.build
  | _ => .error (unableToConvert source)

def fromString (input : List Char) : Except String Duration :=
  let isNegative := input.head? = some '-'
  let source := if isNegative then input.tail else input
  if source.head? = some 'P' then
    if source.getLast? = some 'W' then parseIso8601WeekFormat isNegative source
    else if source.contains '-' then parseIso8601AlternativeFormat isNegative source
    else parseIso8601Format isNegative source
  else parseStandardFormat isNegative source

/-! ### Pieces -/

/-- The symbol that `toString` writes. -/
def TimeUnit.symbol : TimeUnit → List Char
  | years => ['y']
  | months => ['m', 'o']
  | weeks => ['w']
  | days => ['d']
  | hours => ['h']
  | minutes => ['m']
  | seconds => ['s']
  | milliseconds => ['m', 's']
  | microseconds => ['u', 's']
  | nanoseconds => ['n', 's']

/-- The text of a list of pieces. -/
def render (pieces : List (ℕ × TimeUnit)) : List Char :=
  pieces.flatMap fun p => Nat.toDigits 10 p.1 ++ p.2.symbol

/-- The pieces are added one after the other. -/
def addAll : Builder → List (ℕ × TimeUnit) → Except String Builder
  | b, [] => .ok b
  | b, p :: pieces => (b.addUnit (Nat.toDigits 10 p.1) p.2).bind fun b => addAll b pieces

@[simp] theorem render_nil : render [] = [] := rfl

@[simp] theorem render_cons (p : ℕ × TimeUnit) (pieces : List (ℕ × TimeUnit)) :
    render (p :: pieces) = Nat.toDigits 10 p.1 ++ p.2.symbol ++ render pieces := rfl

@[simp] theorem render_append (ps qs : List (ℕ × TimeUnit)) : render (ps ++ qs) = render ps ++ render qs :=
  List.flatMap_append

theorem addAll_append (b : Builder) (ps qs : List (ℕ × TimeUnit)) :
    addAll b (ps ++ qs) = (addAll b ps).bind fun b => addAll b qs := by
  induction ps generalizing b with
  | nil => rfl
  | cons p ps ih =>
      rw [List.cons_append, addAll, addAll]
      cases b.addUnit (Nat.toDigits 10 p.1) p.2 with
      | error e => rfl
      | ok b' => exact ih b'

/-- A text that is empty or starts with a digit. -/
def StartsNumber (text : List Char) : Prop := ∀ c, text.head? = some c → c.isDigit = true

theorem startsNumber_render (pieces : List (ℕ × TimeUnit)) : StartsNumber (render pieces) := by
  intro c hc
  cases pieces with
  | nil => simp at hc
  | cons p pieces =>
      obtain ⟨d, ds, hd⟩ := List.exists_cons_of_ne_nil (Nat.toDigits_ne_nil (n := p.1) (b := 10))
      have hmem : d ∈ Nat.toDigits 10 p.1 := by simp [hd]
      rw [render_cons, hd] at hc
      obtain rfl : d = c := by simpa using hc
      exact JsString.isDigit_of_mem hmem

theorem digit_cases {c : Char} (h : c.isDigit = true) :
    c = '0' ∨ c = '1' ∨ c = '2' ∨ c = '3' ∨ c = '4' ∨ c = '5' ∨ c = '6' ∨ c = '7' ∨ c = '8' ∨ c = '9' := by
  simp only [Char.isDigit, Bool.and_eq_true, decide_eq_true_eq] at h
  obtain ⟨h₁, h₂⟩ := h
  have h₁' : 48 ≤ c.toNat := h₁
  have h₂' : c.toNat ≤ 57 := h₂
  have hc : c = Char.ofNat c.toNat := (Char.ofNat_toNat c).symm
  rw [hc]
  interval_cases c.toNat <;> simp

/-- The longest unit that fits is found, as a digit or the end follows. -/
theorem matchUnit_symbol (u : TimeUnit) (rest : List Char) (hrest : StartsNumber rest) :
    matchUnit (u.symbol ++ rest) = some (u.symbol, rest) := by
  cases u with
  | minutes =>
      cases rest with
      | nil => rfl
      | cons c cs =>
          rcases digit_cases (hrest c rfl) with rfl | rfl | rfl | rfl | rfl | rfl | rfl | rfl | rfl | rfl <;> rfl
  | _ => rfl

theorem add_symbol (b : Builder) (text : List Char) (u : TimeUnit) : b.add text u.symbol = b.addUnit text u := by
  cases u <;> rfl

theorem nextMatch_piece (p : ℕ × TimeUnit) (rest : List Char) (hrest : StartsNumber rest) :
    nextMatch (Nat.toDigits 10 p.1 ++ p.2.symbol ++ rest) = some (Nat.toDigits 10 p.1, p.2.symbol, rest) := by
  have hdigits : ∀ c ∈ Nat.toDigits 10 p.1, c.isDigit = true := fun c hc => JsString.isDigit_of_mem hc
  have hsymbol : (p.2.symbol ++ rest).dropWhile Char.isDigit = p.2.symbol ++ rest ∧
      (p.2.symbol ++ rest).takeWhile Char.isDigit = [] := by
    cases p.2 <;> exact ⟨rfl, rfl⟩
  have hdrop : (Nat.toDigits 10 p.1 ++ p.2.symbol ++ rest).dropWhile Char.isDigit = p.2.symbol ++ rest := by
    rw [List.append_assoc, List.dropWhile_append_of_pos hdigits, hsymbol.1]
  have htake : (Nat.toDigits 10 p.1 ++ p.2.symbol ++ rest).takeWhile Char.isDigit = Nat.toDigits 10 p.1 := by
    rw [List.append_assoc, List.takeWhile_append_of_pos hdigits, hsymbol.2, List.append_nil]
  obtain ⟨c, cs, hc⟩ := List.exists_cons_of_ne_nil (Nat.toDigits_ne_nil (n := p.1) (b := 10))
  have hfirst : c.isDigit = true := hdigits c (by simp [hc])
  rw [hc] at hdrop htake ⊢
  rw [List.cons_append, List.cons_append] at hdrop htake ⊢
  rw [nextMatch, hdrop, matchUnit_symbol p.2 rest hrest]
  simp only [hfirst, if_true, htake]

/-- The loop reads the pieces back. -/
theorem parseStandardLoop_render : ∀ (pieces : List (ℕ × TimeUnit)) (fuel : ℕ) (b : Builder),
    (render pieces).length ≤ fuel → parseStandardLoop fuel b (render pieces) = addAll b pieces
  | [], 0, b, _ => rfl
  | [], fuel + 1, b, _ => rfl
  | p :: pieces, fuel, b, hfuel => by
      have hpos := List.length_pos_of_ne_nil (Nat.toDigits_ne_nil (n := p.1) (b := 10))
      rw [render_cons] at hfuel ⊢
      simp only [List.length_append] at hfuel
      obtain ⟨fuel, rfl⟩ : ∃ k, fuel = k + 1 := ⟨fuel - 1, by omega⟩
      rw [parseStandardLoop, nextMatch_piece p _ (startsNumber_render pieces), addAll]
      simp only [add_symbol]
      congr 1
      funext b'
      exact parseStandardLoop_render pieces fuel b' (by omega)

/-- `fromString` on a rendered list of pieces, with or without a sign. -/
theorem fromString_render (isNegative : Bool) (pieces : List (ℕ × TimeUnit)) :
    fromString ((if isNegative then ['-'] else []) ++ render pieces) =
      (addAll (.new isNegative) pieces).map Builder.build := by
  have hP : (render pieces).head? ≠ some 'P' := fun h => absurd (startsNumber_render pieces _ h) (by decide)
  have hminus : (render pieces).head? ≠ some '-' := fun h => absurd (startsNumber_render pieces _ h) (by decide)
  have hparse := parseStandardLoop_render pieces _ (.new isNegative) le_rfl
  cases isNegative with
  | true =>
      simp only [if_true, List.singleton_append, fromString, List.head?_cons, List.tail_cons, hP, if_false,
        parseStandardFormat, decide_true, hparse]
  | false =>
      simp only [Bool.false_eq_true, if_false, List.nil_append, fromString, hminus, decide_false, hP,
        parseStandardFormat, hparse]

/-! ### What the builder sums up -/

theorem validateOrder_of_lt {b : Builder} {unitIndex : ℕ} (h : b.unitIndex < unitIndex) :
    b.validateOrder unitIndex = .ok { b with unitIndex } := by
  rw [Builder.validateOrder, if_neg (by omega), if_neg (by omega)]

/-- The test `units > (maxInt32 - total) / perUnit`. -/
theorem gt_limit_iff {value total perUnit : ℕ} (h : 0 < perUnit) :
    (value : ℚ) > ((maxInt32 : ℚ) - total) / perUnit ↔ ¬ total + value * perUnit ≤ maxInt32 := by
  have hpos : (0 : ℚ) < perUnit := by exact_mod_cast h
  rw [gt_iff_lt, div_lt_iff₀ hpos, not_le, sub_lt_iff_lt_add', ← Nat.cast_mul, ← Nat.cast_add, Nat.cast_lt]

theorem toDouble_eq_self {n : ℕ} (h : n < 2 ^ 53) : Builder.toDouble n = n := by
  have hlog : n.log2 - 52 = 0 := by
    rcases Nat.eq_zero_or_pos n with rfl | hpos
    · rfl
    · have hlt := (Nat.log2_lt hpos.ne').2 h
      omega
  simp [Builder.toDouble, hlog, Nat.mod_one]

theorem le_toDouble {n : ℕ} (h : 2 ^ 53 ≤ n) : 2 ^ 53 ≤ Builder.toDouble n := by
  have hlog := (Nat.le_log2 (by omega)).2 h
  have hunit : 2 ^ 53 ≤ 2 ^ 52 * 2 ^ (n.log2 - 52) := by
    rw [← pow_add]
    exact Nat.pow_le_pow_right two_pos (by omega)
  have hquot : 2 ^ 52 ≤ n / 2 ^ (n.log2 - 52) := by
    rw [Nat.le_div_iff_mul_le (by positivity), ← pow_add]
    refine (Nat.pow_le_pow_right two_pos (by omega)).trans (Nat.log2_self_le (by omega))
  simp only [Builder.toDouble]
  split_ifs
  · exact hunit.trans (Nat.mul_le_mul_right _ hquot)
  · exact hunit.trans (Nat.mul_le_mul_right _ (by omega))

/-- Rounding does not change on which side of the limit a sum is. -/
theorem toDouble_le_iff {n total perUnit : ℕ} (h : 0 < perUnit) :
    total + Builder.toDouble n * perUnit ≤ maxInt32 ↔ total + n * perUnit ≤ maxInt32 := by
  by_cases hn : n < 2 ^ 53
  · rw [toDouble_eq_self hn]
  · have hround := le_toDouble (Nat.le_of_not_lt hn)
    have hle := Nat.le_mul_of_pos_right (Builder.toDouble n) h
    have hle' := Nat.le_mul_of_pos_right n h
    unfold maxInt32
    omega

/-- A number below the limit is read exactly. -/
theorem toDouble_of_le {n total perUnit : ℕ} (h : 0 < perUnit) (hle : total + n * perUnit ≤ maxInt32) :
    Builder.toDouble n = n := by
  have hn := Nat.le_mul_of_pos_right n h
  unfold maxInt32 at hle
  apply toDouble_eq_self
  omega

theorem addMonthUnits_toDouble (b : Builder) (unitIndex value : ℕ) {perUnit : ℕ} (h : 0 < perUnit) :
    b.addMonthUnits unitIndex (Builder.toDouble value) perUnit = b.addMonthUnits unitIndex value perUnit := by
  unfold Builder.addMonthUnits
  congr 1
  funext b'
  simp only [gt_limit_iff h, toDouble_le_iff h, ite_not]
  by_cases hle : b'.months + value * perUnit ≤ maxInt32
  · rw [if_pos hle, if_pos hle, toDouble_of_le h hle]
  · rw [if_neg hle, if_neg hle]

theorem addDayUnits_toDouble (b : Builder) (unitIndex value : ℕ) {perUnit : ℕ} (h : 0 < perUnit) :
    b.addDayUnits unitIndex (Builder.toDouble value) perUnit = b.addDayUnits unitIndex value perUnit := by
  unfold Builder.addDayUnits
  congr 1
  funext b'
  simp only [gt_limit_iff h, toDouble_le_iff h, ite_not]
  by_cases hle : b'.days + value * perUnit ≤ maxInt32
  · rw [if_pos hle, if_pos hle, toDouble_of_le h hle]
  · rw [if_neg hle, if_neg hle]

theorem addMonthUnits_eq {b : Builder} {unitIndex perUnit : ℕ} (hindex : b.unitIndex < unitIndex)
    (hper : 0 < perUnit) (value : ℕ) :
    b.addMonthUnits unitIndex value perUnit =
      if b.months + value * perUnit ≤ maxInt32 then
        .ok { b with unitIndex, months := b.months + value * perUnit }
      else .error (Builder.outOfRange "months" maxInt32) := by
  rw [Builder.addMonthUnits, validateOrder_of_lt hindex]
  simp only [Except.bind, gt_limit_iff hper, ite_not]

theorem addDayUnits_eq {b : Builder} {unitIndex perUnit : ℕ} (hindex : b.unitIndex < unitIndex)
    (hper : 0 < perUnit) (value : ℕ) :
    b.addDayUnits unitIndex value perUnit =
      if b.days + value * perUnit ≤ maxInt32 then
        .ok { b with unitIndex, days := b.days + value * perUnit }
      else .error (Builder.outOfRange "days" maxInt32) := by
  rw [Builder.addDayUnits, validateOrder_of_lt hindex]
  simp only [Except.bind, gt_limit_iff hper, ite_not]

theorem toInt_ofNat_of_lt {n : ℕ} (h : n < 2 ^ 63) : (BitVec.ofNat 64 n).toInt = n := by
  rw [BitVec.toInt_eq_toNat_of_lt]
  · rw [BitVec.toNat_ofNat, Nat.mod_eq_of_lt (by omega)]
  · rw [BitVec.toNat_ofNat, Nat.mod_eq_of_lt (by omega)]
    omega

theorem sdiv_ofNat {n k : ℕ} (hn : n < 2 ^ 63) (hk : k < 2 ^ 63) :
    (BitVec.ofNat 64 n).sdiv (BitVec.ofNat 64 k) = BitVec.ofNat 64 (n / k) := by
  have hdiv : n / k < 2 ^ 63 := (Nat.div_le_self n k).trans_lt hn
  apply BitVec.eq_of_toInt_eq
  rw [BitVec.toInt_sdiv, toInt_ofNat_of_lt hn, toInt_ofNat_of_lt hk, toInt_ofNat_of_lt hdiv,
    Int.tdiv_eq_ediv_of_nonneg (Int.natCast_nonneg n), ← Int.natCast_ediv]
  generalize n / k = q at hdiv ⊢
  exact Int.bmod_eq_of_le (by omega) (by omega)

theorem srem_ofNat {n k : ℕ} (hn : n < 2 ^ 63) (hk : k < 2 ^ 63) :
    (BitVec.ofNat 64 n).srem (BitVec.ofNat 64 k) = BitVec.ofNat 64 (n % k) := by
  have hmod : n % k < 2 ^ 63 := (Nat.mod_le n k).trans_lt hn
  apply BitVec.eq_of_toInt_eq
  rw [BitVec.toInt_srem, toInt_ofNat_of_lt hn, toInt_ofNat_of_lt hk, toInt_ofNat_of_lt hmod,
    Int.tmod_eq_emod_of_nonneg (Int.natCast_nonneg n), ← Int.natCast_emod]

theorem slt_ofNat {n k : ℕ} (hn : n < 2 ^ 63) (hk : k < 2 ^ 63) :
    (BitVec.ofNat 64 n).slt (BitVec.ofNat 64 k) = decide (n < k) := by
  rw [Bool.eq_iff_iff, BitVec.slt_iff_toInt_lt, toInt_ofNat_of_lt hn, toInt_ofNat_of_lt hk, decide_eq_true_iff,
    Nat.cast_lt]

theorem intMax_sub_ofNat {n : ℕ} (hn : n < 2 ^ 63) :
    BitVec.intMax 64 - BitVec.ofNat 64 n = BitVec.ofNat 64 (2 ^ 63 - 1 - n) := by
  have hmax : BitVec.intMax 64 = BitVec.ofNat 64 (2 ^ 63 - 1) := by decide
  rw [hmax]
  apply BitVec.eq_of_toNat_eq
  rw [BitVec.toNat_sub, BitVec.toNat_ofNat, BitVec.toNat_ofNat, BitVec.toNat_ofNat]
  omega

theorem addNanoUnits_eq {b : Builder} {unitIndex perUnit value total : ℕ} (hindex : b.unitIndex < unitIndex)
    (hper : 0 < perUnit ∧ perUnit < 2 ^ 63) (htotal : b.nanoseconds = BitVec.ofNat 64 total)
    (hfits : total + value * perUnit < 2 ^ 63) :
    b.addNanoUnits unitIndex (BitVec.ofNat 64 value) (BitVec.ofNat 64 perUnit) =
      .ok { b with unitIndex, nanoseconds := BitVec.ofNat 64 (total + value * perUnit) } := by
  have hlimit : BitVec.intMax 64 - BitVec.ofNat 64 total = _ := intMax_sub_ofNat (by omega)
  have hvalue : value * perUnit < 2 ^ 63 := by omega
  have hle : value ≤ value * perUnit := Nat.le_mul_of_pos_right value hper.1
  have hsum : BitVec.ofNat 64 total + BitVec.ofNat 64 value * BitVec.ofNat 64 perUnit =
      BitVec.ofNat 64 (total + value * perUnit) := by
    rw [BitVec.ofNat_add, BitVec.ofNat_mul]
  rw [Builder.addNanoUnits, validateOrder_of_lt hindex]
  simp only [Except.bind, htotal, hlimit, hsum]
  have hquot : (2 ^ 63 - 1 - total) / perUnit < 2 ^ 63 := (Nat.div_le_self _ _).trans_lt (by omega)
  have hok : ¬ (2 ^ 63 - 1 - total) / perUnit < value := by
    rw [not_lt, Nat.le_div_iff_mul_le hper.1]
    omega
  rw [sdiv_ofNat (by omega) hper.2, slt_ofNat hquot (by omega), decide_eq_false hok]
  rfl

/-! ### What is written -/

/-- The piece of a unit, if there is one. -/
def piece (perUnit : ℕ) (u : TimeUnit) (n : ℕ) : List (ℕ × TimeUnit) :=
  if n < perUnit then [] else [(n / perUnit, u)]

/-- The years are rounded to the nearest. -/
def yearPiece (months : ℕ) : List (ℕ × TimeUnit) :=
  if months < monthsPerYear then [] else [((months + 6) / monthsPerYear, .years)]

theorem toFixed_div (n : ℕ) {k : ℕ} (hk : 0 < k) : toFixed ((n : ℚ) / k) = (2 * n + k) / (2 * k) := by
  have hne : (k : ℚ) ≠ 0 := by exact_mod_cast hk.ne'
  have hsum : (n : ℚ) / k + 1 / 2 = ((2 * n + k : ℕ) : ℚ) / ((2 * k : ℕ) : ℚ) := by
    push_cast
    field_simp
  rw [toFixed, hsum, Rat.floor_natCast_div_natCast]
  norm_cast

theorem append_years (value : List Char) (months : ℕ) :
    append value months monthsPerYear ['y'] = (value ++ render (yearPiece months), months % monthsPerYear) := by
  unfold append yearPiece
  by_cases h : months < monthsPerYear
  · rw [if_pos (Or.inr h), if_pos h, Nat.mod_eq_of_lt h]
    simp
  · have hround : toFixed ((months : ℚ) / monthsPerYear) = (months + 6) / monthsPerYear := by
      rw [toFixed_div months (by decide), monthsPerYear]
      omega
    have hne : ¬ (months = 0 ∨ months < monthsPerYear) := by
      rw [monthsPerYear] at h ⊢
      omega
    rw [if_neg hne, if_neg h, hround]
    simp [TimeUnit.symbol]

theorem append_one (value : List Char) (n : ℕ) (u : TimeUnit) :
    append value n 1 u.symbol = (value ++ render (piece 1 u n), 0) := by
  unfold append piece
  by_cases h : n = 0
  · rw [if_pos (Or.inl h), if_pos (by omega), h]
    simp
  · have hround : toFixed ((n : ℚ) / (1 : ℕ)) = n := by
      rw [toFixed_div n one_pos]
      omega
    rw [if_neg (by omega), if_neg (by omega), hround]
    simp [Nat.mod_one]

theorem append64_eq {n perUnit : ℕ} (hn : n < 2 ^ 63) (hper : 0 < perUnit ∧ perUnit < 2 ^ 63) (value : List Char)
    (u : TimeUnit) :
    append64 value (BitVec.ofNat 64 n) (BitVec.ofNat 64 perUnit) u.symbol =
      (value ++ render (piece perUnit u n), BitVec.ofNat 64 (n % perUnit)) := by
  have hzero : BitVec.ofNat 64 n = 0 ↔ n = 0 := by
    rw [← BitVec.toNat_inj, BitVec.toNat_ofNat, Nat.mod_eq_of_lt (by omega)]
    rfl
  have hquot : n / perUnit < 2 ^ 63 := (Nat.div_le_self _ _).trans_lt hn
  have htext : longText (BitVec.ofNat 64 (n / perUnit)) = Nat.toDigits 10 (n / perUnit) := by
    rw [longText, toInt_ofNat_of_lt hquot, if_neg (not_lt.2 (Int.natCast_nonneg _)), Int.natAbs_natCast]
  unfold append64 piece
  simp only [hzero, slt_ofNat hn hper.2, sdiv_ofNat hn hper.2, srem_ofNat hn hper.2, htext, decide_eq_true_iff]
  by_cases h : n < perUnit
  · rw [if_pos (Or.inr h), if_pos h, Nat.mod_eq_of_lt h]
    simp
  · rw [if_neg (by omega), if_neg h]
    simp

/-- The units below the day, with their nanoseconds. -/
def nanoUnits : List (ℕ × TimeUnit) :=
  [(3600000000000, .hours), (60000000000, .minutes), (1000000000, .seconds), (1000000, .milliseconds),
    (1000, .microseconds), (1, .nanoseconds)]

def unitPieces : List (ℕ × TimeUnit) → ℕ → List (ℕ × TimeUnit)
  | [], _ => []
  | unit :: units, n => piece unit.1 unit.2 n ++ unitPieces units (n % unit.1)

theorem appendNanos_eq {n : ℕ} (hn : n < 2 ^ 63) (value : List Char) :
    appendNanos value (BitVec.ofNat 64 n) = value ++ render (unitPieces nanoUnits n) := by
  have hrem (m k : ℕ) (hm : m < 2 ^ 63) : m % k < 2 ^ 63 := (Nat.mod_le m k).trans_lt hm
  have hunit (perUnit : ℕ) (hper : 0 < perUnit ∧ perUnit < 2 ^ 63) (u : TimeUnit) (v : List Char) (m : ℕ)
      (hm : m < 2 ^ 63) : append64 v (BitVec.ofNat 64 m) (BitVec.ofNat 64 perUnit) u.symbol =
        (v ++ render (piece perUnit u m), BitVec.ofNat 64 (m % perUnit)) := append64_eq hm hper v u
  have hhours := hunit 3600000000000 (by norm_num) .hours
  have hminutes := hunit 60000000000 (by norm_num) .minutes
  have hseconds := hunit 1000000000 (by norm_num) .seconds
  have hmillis := hunit 1000000 (by norm_num) .milliseconds
  have hmicros := hunit 1000 (by norm_num) .microseconds
  have hnanos := hunit 1 (by norm_num) .nanoseconds
  have hn₁ := hrem n 3600000000000 hn
  have hn₂ := hrem _ 60000000000 hn₁
  have hn₃ := hrem _ 1000000000 hn₂
  have hn₄ := hrem _ 1000000 hn₃
  have hn₅ := hrem _ 1000 hn₄
  simp only [TimeUnit.symbol] at hhours hminutes hseconds hmillis hmicros hnanos
  have hperHour : nanosPerHour = BitVec.ofNat 64 3600000000000 := by decide
  have hperMinute : nanosPerMinute = BitVec.ofNat 64 60000000000 := by decide
  have hperSecond : nanosPerSecond = BitVec.ofNat 64 1000000000 := by decide
  have hperMilli : nanosPerMilli = BitVec.ofNat 64 1000000 := by decide
  have hperMicro : nanosPerMicro = BitVec.ofNat 64 1000 := by decide
  simp only [appendNanos, hperHour, hperMinute, hperSecond, hperMilli, hperMicro, hhours _ _ hn, hminutes _ _ hn₁,
    hseconds _ _ hn₂, hmillis _ _ hn₃, hmicros _ _ hn₄]
  rw [show (1 : BitVec 64) = BitVec.ofNat 64 1 from rfl, hnanos _ _ hn₅]
  simp only [unitPieces, nanoUnits, render_append, List.append_nil, List.append_assoc]

/-- The pieces of a duration with the given absolute values. -/
def pieces (months days nanos : ℕ) : List (ℕ × TimeUnit) :=
  yearPiece months ++ piece 1 .months (months % monthsPerYear) ++ piece 1 .days days ++ unitPieces nanoUnits nanos

/-- The nanoseconds that are written: the minimum is its own negative and is left out. -/
def writtenNanos (n : BitVec 64) : ℕ := if n = BitVec.intMin 64 then 0 else n.toInt.natAbs

theorem appendNanos_intMin (value : List Char) : appendNanos value (BitVec.intMin 64) = value := by
  have hskip (perUnit : BitVec 64) (h : (BitVec.intMin 64).slt perUnit = true) (v unit : List Char) :
      append64 v (BitVec.intMin 64) perUnit unit = (v, BitVec.intMin 64) := by
    rw [append64, if_pos (Or.inr h)]
  simp only [appendNanos, hskip nanosPerHour (by decide), hskip nanosPerMinute (by decide),
    hskip nanosPerSecond (by decide), hskip nanosPerMilli (by decide), hskip nanosPerMicro (by decide),
    hskip 1 (by decide)]

theorem appendNanos_magnitude (value : List Char) (n : BitVec 64) :
    appendNanos value (if n.toInt < 0 then -n else n) = value ++ render (unitPieces nanoUnits (writtenNanos n)) := by
  have hbound := n.isLt
  have hle : -(2 ^ 63 : ℤ) ≤ n.toInt := BitVec.le_toInt n
  have hlt : n.toInt < 2 ^ 63 := BitVec.toInt_lt
  have hmin : (BitVec.intMin 64).toInt = -2 ^ 63 := by decide
  by_cases h : n = BitVec.intMin 64
  · have hneg : -BitVec.intMin 64 = BitVec.intMin 64 := by decide
    have hempty : unitPieces nanoUnits 0 = [] := by decide
    rw [h, writtenNanos, if_pos rfl, if_pos (by rw [hmin]; norm_num), hneg, appendNanos_intMin, hempty]
    simp
  · have hne : n.toInt ≠ -2 ^ 63 := fun he => h (BitVec.eq_of_toInt_eq (by rw [he, hmin]))
    have hnat : n.toInt.natAbs < 2 ^ 63 := by omega
    have habs : (if n.toInt < 0 then -n else n) = BitVec.ofNat 64 n.toInt.natAbs := by
      apply BitVec.eq_of_toInt_eq
      rw [toInt_ofNat_of_lt hnat]
      split_ifs with hneg
      · rw [BitVec.toInt_neg, Int.bmod_eq_of_le (by omega) (by omega)]
        omega
      · omega
    rw [habs, appendNanos_eq hnat, writtenNanos, if_neg h]

theorem toString_eq (d : Duration) :
    d.toString = (if d.months < 0 ∨ d.days < 0 ∨ d.nanoseconds.toInt < 0 then ['-'] else []) ++
      render (pieces d.months.natAbs d.days.natAbs (writtenNanos d.nanoseconds)) := by
  have hmonths (v : List Char) (n : ℕ) := append_one v n .months
  have hdays (v : List Char) (n : ℕ) := append_one v n .days
  simp only [TimeUnit.symbol] at hmonths hdays
  simp only [toString, append_years, hmonths, hdays, appendNanos_magnitude, pieces, render_append,
    List.append_assoc]
  by_cases hzero : d.nanoseconds = 0
  · have hempty : unitPieces nanoUnits (writtenNanos 0) = [] := by decide
    rw [if_pos hzero, hzero, hempty]
    simp
  · rw [if_neg hzero]

/-! ### What is read back -/

/-- The months that are read back. -/
def readMonths (months : ℕ) : ℕ :=
  (if months < monthsPerYear then 0 else (months + 6) / monthsPerYear * monthsPerYear) + months % monthsPerYear

/-- A sum goes through as long as it is in range; `last` bounds the index of the last unit. -/
def AddsUp (total : ℕ) (result : Except String Builder) (b : ℕ → Builder) (last : ℕ) : Prop :=
  (total ≤ maxInt32 → ∃ i ≤ last, result = .ok (b i)) ∧ (¬ total ≤ maxInt32 → ∃ e, result = .error e)

theorem addAll_one (b : Builder) (n : ℕ) (u : TimeUnit) :
    addAll b [(n, u)] = b.addUnit (Nat.toDigits 10 n) u := by
  rw [addAll]
  cases b.addUnit (Nat.toDigits 10 n) u <;> rfl

theorem addUnit_years (b : Builder) (n : ℕ) :
    b.addUnit (Nat.toDigits 10 n) .years = b.addMonthUnits 1 n monthsPerYear := by
  simp [Builder.addUnit, Builder.addYears, Builder.number, addMonthUnits_toDouble, monthsPerYear]

theorem addUnit_months (b : Builder) (n : ℕ) :
    b.addUnit (Nat.toDigits 10 n) .months = b.addMonthUnits 2 n 1 := by
  simp [Builder.addUnit, Builder.addMonths, Builder.number, addMonthUnits_toDouble]

theorem addUnit_days (b : Builder) (n : ℕ) : b.addUnit (Nat.toDigits 10 n) .days = b.addDayUnits 4 n 1 := by
  simp [Builder.addUnit, Builder.addDays, Builder.number, addDayUnits_toDouble]

theorem addAll_months {b : Builder} (hindex : b.unitIndex < 2) (hle : b.months ≤ maxInt32) (months : ℕ) :
    AddsUp (b.months + months) (addAll b (piece 1 .months months))
      (fun unitIndex => { b with unitIndex, months := b.months + months }) 2 := by
  unfold piece
  by_cases hzero : months = 0
  · subst hzero
    exact ⟨fun _ => ⟨b.unitIndex, by omega, rfl⟩, fun hgt => absurd hle hgt⟩
  · rw [if_neg (by omega), Nat.div_one, addAll_one, addUnit_months, addMonthUnits_eq hindex one_pos, mul_one]
    exact ⟨fun hle => ⟨2, le_rfl, if_pos hle⟩, fun hgt => ⟨_, if_neg hgt⟩⟩

theorem addAll_days {b : Builder} (hindex : b.unitIndex < 4) (hzero : b.days = 0) (days : ℕ) :
    AddsUp days (addAll b (piece 1 .days days)) (fun unitIndex => { b with unitIndex, days }) 4 := by
  unfold piece
  by_cases hdays : days = 0
  · subst hdays
    refine ⟨fun _ => ⟨b.unitIndex, by omega, ?_⟩, fun hgt => absurd (Nat.zero_le _) hgt⟩
    rw [if_pos (by omega), addAll, ← hzero]
  · rw [if_neg (by omega), Nat.div_one, addAll_one, addUnit_days, addDayUnits_eq hindex one_pos, mul_one, hzero,
      Nat.zero_add]
    exact ⟨fun hle => ⟨4, le_rfl, if_pos hle⟩, fun hgt => ⟨_, if_neg hgt⟩⟩

theorem addAll_years_months (isNegative : Bool) (months : ℕ) :
    AddsUp (readMonths months)
      (addAll (.new isNegative) (yearPiece months ++ piece 1 .months (months % monthsPerYear)))
      (fun unitIndex => ⟨isNegative, unitIndex, readMonths months, 0, 0⟩) 2 := by
  unfold readMonths yearPiece
  by_cases hsmall : months < monthsPerYear
  · rw [if_pos hsmall, if_pos hsmall, List.nil_append]
    exact addAll_months (b := .new isNegative) (by simp [Builder.new]) (by simp [Builder.new]) _
  · set years := (months + 6) / monthsPerYear
    rw [if_neg hsmall, if_neg hsmall, addAll_append, addAll_one, addUnit_years,
      addMonthUnits_eq (b := .new isNegative) (by simp [Builder.new]) (by decide)]
    have hzero : (Builder.new isNegative).months = 0 := rfl
    rw [hzero, Nat.zero_add]
    by_cases hyears : years * monthsPerYear ≤ maxInt32
    · rw [if_pos hyears]
      exact addAll_months (b := ⟨isNegative, 1, years * monthsPerYear, 0, 0⟩) (by norm_num) hyears _
    · rw [if_neg hyears]
      exact ⟨fun hle => absurd hle (by omega), fun _ => ⟨_, rfl⟩⟩

/-- `perUnit` nanoseconds are added for each `u`. -/
def AddsNanos (perUnit : ℕ) (u : TimeUnit) : Prop :=
  (0 < perUnit ∧ perUnit < 2 ^ 63) ∧ ∀ (b : Builder) (n : ℕ), b.addUnit (Nat.toDigits 10 n) u =
    b.addNanoUnits u.index (BitVec.ofNat 64 n) (BitVec.ofNat 64 perUnit)

theorem addsNanos_nanoUnits : ∀ unit ∈ nanoUnits, AddsNanos unit.1 unit.2 := by
  intro unit hunit
  simp only [nanoUnits, List.mem_cons, List.not_mem_nil, or_false] at hunit
  rcases hunit with rfl | rfl | rfl | rfl | rfl | rfl <;> refine ⟨by norm_num, fun b n => ?_⟩ <;>
    simp only [Builder.addUnit, Builder.addHours, Builder.addMinutes, Builder.addSeconds, Builder.addMillis,
      Builder.addMicros, Builder.addNanos, Builder.long, Nat.ofDigitChars_ten_toDigits, TimeUnit.index] <;> rfl

/-- The pieces of the nanoseconds add up to them; the units come in the order of the builder. -/
theorem addAll_unitPieces : ∀ (units : List (ℕ × TimeUnit)) (n total : ℕ) (b : Builder),
    (∀ unit ∈ units, AddsNanos unit.1 unit.2) → units.Pairwise (fun u v => u.2.index < v.2.index) →
    (∀ unit ∈ units, b.unitIndex < unit.2.index) → units.foldl (fun r unit => r % unit.1) n = 0 →
    b.nanoseconds = BitVec.ofNat 64 total → total + n < 2 ^ 63 →
    ∃ unitIndex, addAll b (unitPieces units n) =
      .ok { b with unitIndex, nanoseconds := BitVec.ofNat 64 (total + n) }
  | [], n, total, b, _, _, _, hrest, htotal, _ => by
      obtain rfl : n = 0 := hrest
      exact ⟨b.unitIndex, by rw [unitPieces, addAll, Nat.add_zero, ← htotal]⟩
  | unit :: units, n, total, b, hunits, hsorted, hindex, hrest, htotal, hfits => by
      have hunits' := fun u hu => hunits u (List.mem_cons_of_mem unit hu)
      obtain ⟨hlater, hsorted'⟩ := List.pairwise_cons.1 hsorted
      obtain ⟨hper, hadds⟩ := hunits unit (by simp)
      rw [List.foldl_cons] at hrest
      rw [unitPieces, piece]
      split_ifs with hsmall
      · rw [Nat.mod_eq_of_lt hsmall] at hrest ⊢
        exact addAll_unitPieces units n total b hunits' hsorted' (fun u hu => hindex u (by simp [hu])) hrest htotal
          hfits
      · have hdiv := Nat.div_add_mod n unit.1
        rw [Nat.mul_comm] at hdiv
        rw [addAll_append, addAll_one, hadds, addNanoUnits_eq (hindex unit (by simp)) hper htotal (by omega)]
        obtain ⟨unitIndex, h⟩ := addAll_unitPieces units (n % unit.1) (total + n / unit.1 * unit.1)
          { b with
            unitIndex := unit.2.index
            nanoseconds := BitVec.ofNat 64 (total + n / unit.1 * unit.1) }
          hunits' hsorted' hlater hrest rfl (by omega)
        refine ⟨unitIndex, h.trans ?_⟩
        rw [Nat.add_assoc, hdiv]

/-- The sums of all pieces. -/
theorem addAll_pieces (isNegative : Bool) (months days nanos : ℕ) (hnanos : nanos < 2 ^ 63) :
    (readMonths months ≤ maxInt32 ∧ days ≤ maxInt32 → ∃ unitIndex,
      addAll (.new isNegative) (pieces months days nanos) =
        .ok ⟨isNegative, unitIndex, readMonths months, days, BitVec.ofNat 64 nanos⟩) ∧
    (¬ (readMonths months ≤ maxInt32 ∧ days ≤ maxInt32) →
      ∃ e, addAll (.new isNegative) (pieces months days nanos) = .error e) := by
  obtain ⟨hok, herror⟩ := addAll_years_months isNegative months
  rw [pieces, addAll_append, addAll_append]
  by_cases hmonths : readMonths months ≤ maxInt32
  · obtain ⟨i, hi, hres⟩ := hok hmonths
    rw [hres]
    obtain ⟨hok', herror'⟩ := addAll_days (b := ⟨isNegative, i, readMonths months, 0, 0⟩)
      (Nat.lt_of_le_of_lt hi (by norm_num)) rfl days
    by_cases hdays : days ≤ maxInt32
    · obtain ⟨j, hj, hres'⟩ := hok' hdays
      refine ⟨fun _ => ?_, fun hbad => absurd ⟨hmonths, hdays⟩ hbad⟩
      obtain ⟨k, hk⟩ := addAll_unitPieces nanoUnits nanos 0 ⟨isNegative, j, readMonths months, days, 0⟩
        addsNanos_nanoUnits (by decide) (fun unit hunit => by
          have hfive : ∀ unit ∈ nanoUnits, 4 < unit.2.index := by decide
          exact Nat.lt_of_le_of_lt hj (hfive unit hunit))
        (Nat.mod_one _) rfl (by omega)
      rw [Nat.zero_add] at hk
      exact ⟨k, by rw [Except.bind, hres', Except.bind]; exact hk⟩
    · obtain ⟨e, he⟩ := herror' hdays
      exact ⟨fun hgood => absurd hgood.2 hdays, fun _ => ⟨e, by rw [Except.bind, he]; rfl⟩⟩
  · obtain ⟨e, he⟩ := herror hmonths
    exact ⟨fun hgood => absurd hgood.1 hmonths, fun _ => ⟨e, by rw [he]; rfl⟩⟩

/-! ### The round trip -/

theorem readMonths_eq_iff (months : ℕ) : readMonths months = months ↔ months < 12 ∨ months % 12 < 6 := by
  unfold readMonths monthsPerYear
  split_ifs <;> omega

/-- The components do not have opposite signs. -/
def SameSign (d : Duration) : Prop :=
  0 ≤ d.months ∧ 0 ≤ d.days ∧ 0 ≤ d.nanoseconds.toInt ∨
    d.months ≤ 0 ∧ d.days ≤ 0 ∧ d.nanoseconds.toInt ≤ 0

/-- What is written is in range and exact: the years are not rounded up, and there is no minimum value, which
has no counterpart of the other sign. -/
def WrittenExactly (d : Duration) : Prop :=
  (d.months.natAbs < 12 ∨ d.months.natAbs % 12 < 6) ∧ d.days ≠ -2147483648 ∧ d.nanoseconds ≠ BitVec.intMin 64

instance (d : Duration) : Decidable d.WrittenExactly := inferInstanceAs (Decidable (_ ∧ _))

theorem toInt_intMin : (BitVec.intMin 64).toInt = -9223372036854775808 := by decide

theorem writtenNanos_lt (n : BitVec 64) : writtenNanos n < 2 ^ 63 := by
  have hle : -(2 ^ 63 : ℤ) ≤ n.toInt := BitVec.le_toInt n
  have hlt : n.toInt < 2 ^ 63 := BitVec.toInt_lt
  unfold writtenNanos
  split_ifs with h
  · norm_num
  · have hne : n.toInt ≠ -9223372036854775808 := fun he => h (BitVec.eq_of_toInt_eq (by rw [he, toInt_intMin]))
    omega

/-- The nanoseconds that are read back are those that were written, the minimum value apart. -/
theorem nanos_eq_iff (n : BitVec 64) (isNegative : Bool) (hsign : if isNegative then n.toInt ≤ 0 else 0 ≤ n.toInt) :
    (if isNegative then -BitVec.ofNat 64 (writtenNanos n) else BitVec.ofNat 64 (writtenNanos n)) = n ↔
      n ≠ BitVec.intMin 64 := by
  have hlt := writtenNanos_lt n
  by_cases hmin : n = BitVec.intMin 64
  · subst hmin
    cases isNegative <;> simp [writtenNanos] <;> decide
  · refine iff_of_true ?_ hmin
    apply BitVec.eq_of_toInt_eq
    have habs : writtenNanos n = n.toInt.natAbs := if_neg hmin
    cases isNegative with
    | false =>
        have hpos : 0 ≤ n.toInt := by simpa using hsign
        simp only [Bool.false_eq_true, if_false]
        rw [toInt_ofNat_of_lt hlt, habs]
        omega
    | true =>
        have hneg : n.toInt ≤ 0 := by simpa using hsign
        simp only [if_true]
        rw [BitVec.toInt_neg, toInt_ofNat_of_lt hlt, Int.bmod_eq_of_le (by omega) (by omega), habs]
        omega

theorem eq_iff (c d : Duration) :
    c = d ↔ c.months = d.months ∧ c.days = d.days ∧ c.nanoseconds = d.nanoseconds := by
  obtain ⟨m, dd, n, hc⟩ := c
  obtain ⟨m', dd', n', hd⟩ := d
  simp

/-- What is built from the sums is the duration, if the years were not rounded up. -/
theorem build_eq_iff (d : Duration) (isNegative : Bool) (unitIndex : ℕ)
    (hsign : if isNegative then d.months ≤ 0 ∧ d.days ≤ 0 ∧ d.nanoseconds.toInt ≤ 0
      else 0 ≤ d.months ∧ 0 ≤ d.days ∧ 0 ≤ d.nanoseconds.toInt)
    (hmonths : readMonths d.months.natAbs ≤ maxInt32) (hdays : d.days.natAbs ≤ maxInt32) :
    Builder.build ⟨isNegative, unitIndex, readMonths d.months.natAbs, d.days.natAbs,
        BitVec.ofNat 64 (writtenNanos d.nanoseconds)⟩ = d ↔
      (d.months.natAbs < 12 ∨ d.months.natAbs % 12 < 6) ∧ d.nanoseconds ≠ BitVec.intMin 64 := by
  rw [← readMonths_eq_iff, eq_iff]
  unfold maxInt32 at hmonths hdays
  cases isNegative with
  | false =>
      obtain ⟨hm, hd, hn⟩ : 0 ≤ d.months ∧ 0 ≤ d.days ∧ 0 ≤ d.nanoseconds.toInt := by simpa using hsign
      have hnanos := nanos_eq_iff d.nanoseconds false (by simpa using hn)
      simp only [Bool.false_eq_true, if_false] at hnanos
      simp only [Builder.build, Bool.false_eq_true, if_false, hnanos]
      rw [wrap32_eq_self (by omega) (by omega), wrap32_eq_self (by omega) (by omega)]
      constructor
      · rintro ⟨h₁, -, h₃⟩
        exact ⟨by omega, h₃⟩
      · rintro ⟨h₁, h₃⟩
        exact ⟨by omega, by omega, h₃⟩
  | true =>
      obtain ⟨hm, hd, hn⟩ : d.months ≤ 0 ∧ d.days ≤ 0 ∧ d.nanoseconds.toInt ≤ 0 := by simpa using hsign
      have hnanos := nanos_eq_iff d.nanoseconds true (by simpa using hn)
      simp only [if_true] at hnanos
      simp only [Builder.build, if_true, hnanos]
      rw [wrap32_eq_self (by omega) (by omega), wrap32_eq_self (by omega) (by omega)]
      constructor
      · rintro ⟨h₁, -, h₃⟩
        exact ⟨by omega, h₃⟩
      · rintro ⟨h₁, h₃⟩
        exact ⟨by omega, by omega, h₃⟩

/-- For a duration whose components do not have opposite signs, `fromString` reads back what `toString` writes
exactly when that was exact. -/
theorem fromString_toString_iff_writtenExactly (d : Duration) (h : d.SameSign) :
    fromString d.toString = .ok d ↔ d.WrittenExactly := by
  obtain ⟨hm, hd⟩ := d.fits
  unfold Fits at hm hd
  norm_num at hm hd
  set isNegative := decide (d.months < 0 ∨ d.days < 0 ∨ d.nanoseconds.toInt < 0) with hneg
  have hsign : if isNegative then d.months ≤ 0 ∧ d.days ≤ 0 ∧ d.nanoseconds.toInt ≤ 0
      else 0 ≤ d.months ∧ 0 ≤ d.days ∧ 0 ≤ d.nanoseconds.toInt := by
    unfold SameSign at h
    by_cases hany : d.months < 0 ∨ d.days < 0 ∨ d.nanoseconds.toInt < 0
    · simp only [hneg, hany, decide_true, if_true]
      omega
    · simp only [hneg, hany, decide_false, Bool.false_eq_true, if_false]
      omega
  have htext : d.toString = (if isNegative then ['-'] else []) ++
      render (pieces d.months.natAbs d.days.natAbs (writtenNanos d.nanoseconds)) := by
    rw [toString_eq, hneg]
    simp only [decide_eq_true_eq]
  obtain ⟨hok, herror⟩ := addAll_pieces isNegative d.months.natAbs d.days.natAbs _ (writtenNanos_lt d.nanoseconds)
  have hdays : d.days.natAbs ≤ maxInt32 ↔ d.days ≠ -2147483648 := by
    unfold maxInt32
    omega
  have hmonths : d.months.natAbs < 12 ∨ d.months.natAbs % 12 < 6 → readMonths d.months.natAbs ≤ maxInt32 := by
    intro hexact
    rw [(readMonths_eq_iff _).2 hexact]
    unfold maxInt32
    omega
  rw [htext, fromString_render]
  by_cases hrange : readMonths d.months.natAbs ≤ maxInt32 ∧ d.days.natAbs ≤ maxInt32
  · obtain ⟨unitIndex, hres⟩ := hok hrange
    rw [hres, Except.map, Except.ok.injEq, build_eq_iff d isNegative unitIndex hsign hrange.1 hrange.2]
    exact ⟨fun ⟨h₁, h₂⟩ => ⟨h₁, hdays.1 hrange.2, h₂⟩, fun ⟨h₁, _, h₂⟩ => ⟨h₁, h₂⟩⟩
  · obtain ⟨e, hres⟩ := herror hrange
    rw [hres]
    refine iff_of_false (by simp [Except.map]) fun hexact => hrange ⟨hmonths hexact.1, hdays.2 hexact.2.1⟩

/-- Fifteen months are written as `1y3mo`. -/
theorem fromString_toString_fifteenMonths :
    SameSign ⟨15, 3, 5400000001005, by decide⟩ ∧ WrittenExactly ⟨15, 3, 5400000001005, by decide⟩ ∧
      fromString (toString ⟨15, 3, 5400000001005, by decide⟩) = .ok ⟨15, 3, 5400000001005, by decide⟩ := by
  have hsign : SameSign ⟨15, 3, 5400000001005, by decide⟩ := Or.inl (by decide)
  have hexact : WrittenExactly ⟨15, 3, 5400000001005, by decide⟩ := by decide
  exact ⟨hsign, hexact, (fromString_toString_iff_writtenExactly _ hsign).2 hexact⟩

/-- Eighteen months are written as `2y6mo`, which is read as thirty. -/
theorem fromString_toString_eighteenMonths :
    SameSign ⟨18, 0, 0, by decide⟩ ∧ toString ⟨18, 0, 0, by decide⟩ = ['2', 'y', '6', 'm', 'o'] ∧
      (fromString (toString ⟨18, 0, 0, by decide⟩)).toOption = some ⟨30, 0, 0, by decide⟩ ∧
      fromString (toString ⟨18, 0, 0, by decide⟩) ≠ .ok ⟨18, 0, 0, by decide⟩ := by
  have htext : toString ⟨18, 0, 0, by decide⟩ = ['2', 'y', '6', 'm', 'o'] := by decide +kernel
  have hread : (fromString ['2', 'y', '6', 'm', 'o']).toOption = some ⟨30, 0, 0, by decide⟩ := by decide +kernel
  refine ⟨Or.inl (by decide), htext, by rw [htext, hread], ?_⟩
  rw [htext]
  intro hsame
  rw [hsame] at hread
  exact absurd hread (by decide)

end CqlDriver.Duration
