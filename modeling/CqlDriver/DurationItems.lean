import CqlDriver.DurationText
import CqlDriver.Lib.Fallible

/-! # What the text of a duration adds up to (`lib/types/duration.js`)

The items `digits unit` that `fromString` finds in a text are added up as unbounded integers.  What the `Builder`
returns is this sum unless a number in front of a unit of the time of day is too large for a `Long`: then
`Long.fromString` wraps it before it is checked. -/

namespace CqlDriver.Duration

open MachineInt

/-! ### Items -/

/-- Digits in front of a unit. -/
structure Item where
  digits : List Char
  unit : TimeUnit
deriving DecidableEq

/-- The integer that the digits denote. -/
def Item.number (i : Item) : ℕ := Nat.ofDigitChars 10 i.digits 0

namespace TimeUnit

def monthsPerUnit : TimeUnit → ℕ
  | years => 12
  | months => 1
  | _ => 0

def daysPerUnit : TimeUnit → ℕ
  | weeks => 7
  | days => 1
  | _ => 0

def nanosPerUnit : TimeUnit → ℕ
  | hours => 3600000000000
  | minutes => 60000000000
  | seconds => 1000000000
  | milliseconds => 1000000
  | microseconds => 1000
  | nanoseconds => 1
  | _ => 0

/-- The unit is one of the time of day. -/
def IsTime (u : TimeUnit) : Prop := 0 < u.nanosPerUnit

instance (u : TimeUnit) : Decidable u.IsTime := inferInstanceAs (Decidable (_ < _))

theorem nanosPerUnit_lt (u : TimeUnit) : u.nanosPerUnit < 2 ^ 63 := by
  cases u <;> norm_num [nanosPerUnit]

end TimeUnit

/-- The sum of the items in months, days or nanoseconds. -/
def total (perUnit : TimeUnit → ℕ) (items : List Item) : ℕ :=
  (items.map fun i => i.number * perUnit i.unit).sum

@[simp] theorem total_nil (perUnit : TimeUnit → ℕ) : total perUnit [] = 0 := rfl

@[simp] theorem total_cons (perUnit : TimeUnit → ℕ) (i : Item) (items : List Item) :
    total perUnit (i :: items) = i.number * perUnit i.unit + total perUnit items := by
  simp [total]

@[simp] theorem total_append (perUnit : TimeUnit → ℕ) (items later : List Item) :
    total perUnit (items ++ later) = total perUnit items + total perUnit later := by
  simp [total]

/-- An item is at most the sum. -/
theorem le_total (perUnit : TimeUnit → ℕ) {i : Item} {items : List Item} (h : i ∈ items) :
    i.number * perUnit i.unit ≤ total perUnit items :=
  List.single_le_sum (fun _ _ => Nat.zero_le _) _ (List.mem_map_of_mem h)

/-- No unit comes twice, or after a smaller one. -/
def Ordered (items : List Item) : Prop := items.Pairwise fun i j => i.unit.index < j.unit.index

instance (items : List Item) : Decidable (Ordered items) := inferInstanceAs (Decidable (List.Pairwise _ _))

/-- The items are added one after the other. -/
def addItems : Builder → List Item → Except String Builder
  | b, [] => .ok b
  | b, i :: items => (b.addUnit i.digits i.unit).bind fun b => addItems b items

theorem addItems_append (b : Builder) (items later : List Item) :
    addItems b (items ++ later) = (addItems b items).bind fun b => addItems b later := by
  induction items generalizing b with
  | nil => rfl
  | cons i items ih =>
      rw [List.cons_append, addItems, addItems]
      cases b.addUnit i.digits i.unit with
      | error e => rfl
      | ok b' => exact ih b'

@[simp] theorem addItems_singleton (b : Builder) (i : Item) : addItems b [i] = b.addUnit i.digits i.unit := by
  rw [addItems]
  cases b.addUnit i.digits i.unit <;> rfl

/-! ### One item -/

/-- The test of `_validateNanos`, on `Long`s: the item is at most what is left of the range. -/
def RoomFor (nanoseconds : BitVec 64) (i : Item) : Prop :=
  ((BitVec.intMax 64 - nanoseconds).sdiv (BitVec.ofNat 64 i.unit.nanosPerUnit)).slt (Builder.long i.digits) = false

instance (nanoseconds : BitVec 64) (i : Item) : Decidable (RoomFor nanoseconds i) :=
  inferInstanceAs (Decidable (_ = _))

/-- The builder with the sums of an item added. -/
def plus (b : Builder) (i : Item) : Builder where
  isNegative := b.isNegative
  unitIndex := i.unit.index
  months := b.months + i.number * i.unit.monthsPerUnit
  days := b.days + i.number * i.unit.daysPerUnit
  nanoseconds := b.nanoseconds + Builder.long i.digits * BitVec.ofNat 64 i.unit.nanosPerUnit

theorem validateOrder_eq_ok_iff (b b' : Builder) (unitIndex : ℕ) :
    b.validateOrder unitIndex = .ok b' ↔ b.unitIndex < unitIndex ∧ { b with unitIndex } = b' := by
  unfold Builder.validateOrder
  split_ifs <;> simp <;> omega

theorem addMonthUnits_eq_ok_iff (b b' : Builder) (unitIndex value : ℕ) {perUnit : ℕ} (h : 0 < perUnit) :
    b.addMonthUnits unitIndex value perUnit = .ok b' ↔
      b.unitIndex < unitIndex ∧ b.months + value * perUnit ≤ maxInt32 ∧
        { b with unitIndex, months := b.months + value * perUnit } = b' := by
  unfold Builder.addMonthUnits
  simp only [Fallible.bind_eq_ok_iff, validateOrder_eq_ok_iff, gt_limit_iff h, ite_not]
  constructor
  · rintro ⟨a, ⟨hindex, rfl⟩, hadd⟩
    split_ifs at hadd with hle
    exact ⟨hindex, hle, Except.ok.inj hadd⟩
  · rintro ⟨hindex, hle, hadd⟩
    exact ⟨_, ⟨hindex, rfl⟩, by rw [if_pos hle, hadd]⟩

theorem addDayUnits_eq_ok_iff (b b' : Builder) (unitIndex value : ℕ) {perUnit : ℕ} (h : 0 < perUnit) :
    b.addDayUnits unitIndex value perUnit = .ok b' ↔
      b.unitIndex < unitIndex ∧ b.days + value * perUnit ≤ maxInt32 ∧
        { b with unitIndex, days := b.days + value * perUnit } = b' := by
  unfold Builder.addDayUnits
  simp only [Fallible.bind_eq_ok_iff, validateOrder_eq_ok_iff, gt_limit_iff h, ite_not]
  constructor
  · rintro ⟨a, ⟨hindex, rfl⟩, hadd⟩
    split_ifs at hadd with hle
    exact ⟨hindex, hle, Except.ok.inj hadd⟩
  · rintro ⟨hindex, hle, hadd⟩
    exact ⟨_, ⟨hindex, rfl⟩, by rw [if_pos hle, hadd]⟩

theorem addNanoUnits_eq_ok_iff (b b' : Builder) (unitIndex : ℕ) (value perUnit : BitVec 64) :
    b.addNanoUnits unitIndex value perUnit = .ok b' ↔
      b.unitIndex < unitIndex ∧ ((BitVec.intMax 64 - b.nanoseconds).sdiv perUnit).slt value = false ∧
        { b with unitIndex, nanoseconds := b.nanoseconds + value * perUnit } = b' := by
  unfold Builder.addNanoUnits
  simp only [Fallible.bind_eq_ok_iff, validateOrder_eq_ok_iff]
  constructor
  · rintro ⟨a, ⟨hindex, rfl⟩, hadd⟩
    split_ifs at hadd with hroom
    exact ⟨hindex, by simpa using hroom, Except.ok.inj hadd⟩
  · rintro ⟨hindex, hroom, hadd⟩
    exact ⟨_, ⟨hindex, rfl⟩, by rw [if_neg (by simp [hroom]), hadd]⟩

/-- A unit is one of months, of days or of the time of day. -/
theorem unit_cases (u : TimeUnit) :
    (0 < u.monthsPerUnit ∧ u.daysPerUnit = 0 ∧ u.nanosPerUnit = 0) ∨
      (u.monthsPerUnit = 0 ∧ 0 < u.daysPerUnit ∧ u.nanosPerUnit = 0) ∨
        (u.monthsPerUnit = 0 ∧ u.daysPerUnit = 0 ∧ 0 < u.nanosPerUnit) := by
  cases u <;> decide

theorem addUnit_eq_addMonthUnits (b : Builder) (i : Item) (h : 0 < i.unit.monthsPerUnit) :
    b.addUnit i.digits i.unit = b.addMonthUnits i.unit.index i.number i.unit.monthsPerUnit := by
  obtain ⟨digits, unit⟩ := i
  cases unit with
  | years => exact addMonthUnits_toDouble b 1 _ (by decide)
  | months => exact addMonthUnits_toDouble b 2 _ one_pos
  | _ => exact absurd h (lt_irrefl 0)

theorem addUnit_eq_addDayUnits (b : Builder) (i : Item) (h : 0 < i.unit.daysPerUnit) :
    b.addUnit i.digits i.unit = b.addDayUnits i.unit.index i.number i.unit.daysPerUnit := by
  obtain ⟨digits, unit⟩ := i
  cases unit with
  | weeks => exact addDayUnits_toDouble b 3 _ (by decide)
  | days => exact addDayUnits_toDouble b 4 _ one_pos
  | _ => exact absurd h (lt_irrefl 0)

theorem addUnit_eq_addNanoUnits (b : Builder) (i : Item) (h : i.unit.IsTime) :
    b.addUnit i.digits i.unit =
      b.addNanoUnits i.unit.index (Builder.long i.digits) (BitVec.ofNat 64 i.unit.nanosPerUnit) := by
  obtain ⟨digits, unit⟩ := i
  have hhour : nanosPerHour = BitVec.ofNat 64 3600000000000 := by decide
  have hminute : nanosPerMinute = BitVec.ofNat 64 60000000000 := by decide
  have hsecond : nanosPerSecond = BitVec.ofNat 64 1000000000 := by decide
  have hmilli : nanosPerMilli = BitVec.ofNat 64 1000000 := by decide
  cases unit with
  | years | months | weeks | days => exact absurd h (lt_irrefl 0)
  | hours => exact congrArg (b.addNanoUnits 5 (Builder.long digits)) hhour
  | minutes => exact congrArg (b.addNanoUnits 6 (Builder.long digits)) hminute
  | seconds => exact congrArg (b.addNanoUnits 7 (Builder.long digits)) hsecond
  | milliseconds => exact congrArg (b.addNanoUnits 8 (Builder.long digits)) hmilli
  | microseconds => rfl
  | nanoseconds => rfl

/-- What a unit adds to the builder, and when it is refused. -/
theorem addUnit_eq_ok_iff (b b' : Builder) (i : Item) (hmonths : b.months ≤ maxInt32) (hdays : b.days ≤ maxInt32) :
    b.addUnit i.digits i.unit = .ok b' ↔
      b.unitIndex < i.unit.index ∧ (plus b i).months ≤ maxInt32 ∧ (plus b i).days ≤ maxInt32 ∧
        (i.unit.IsTime → RoomFor b.nanoseconds i) ∧ plus b i = b' := by
  unfold plus RoomFor TimeUnit.IsTime
  rcases unit_cases i.unit with ⟨hper, hd, hn⟩ | ⟨hm, hper, hn⟩ | ⟨hm, hd, hper⟩
  · rw [addUnit_eq_addMonthUnits b i hper, addMonthUnits_eq_ok_iff b b' _ _ hper]
    simp [hd, hn, hdays]
  · rw [addUnit_eq_addDayUnits b i hper, addDayUnits_eq_ok_iff b b' _ _ hper]
    simp [hm, hn, hmonths]
  · rw [addUnit_eq_addNanoUnits b i hper, addNanoUnits_eq_ok_iff]
    simp [hm, hd, hper, hmonths, hdays]

/-! ### A run of the builder -/

/-- Each unit of the time of day is at most what is left of the range. -/
def RoomForAll : BitVec 64 → List Item → Prop
  | _, [] => True
  | nanoseconds, i :: items =>
      (i.unit.IsTime → RoomFor nanoseconds i) ∧
        RoomForAll (nanoseconds + Builder.long i.digits * BitVec.ofNat 64 i.unit.nanosPerUnit) items

/-- The builder after the items. -/
def plusAll : Builder → List Item → Builder
  | b, [] => b
  | b, i :: items => plusAll (plus b i) items

theorem plusAll_isNegative (b : Builder) (items : List Item) : (plusAll b items).isNegative = b.isNegative := by
  induction items generalizing b with
  | nil => rfl
  | cons i items ih => rw [plusAll, ih, plus]

theorem plusAll_months (b : Builder) (items : List Item) :
    (plusAll b items).months = b.months + total TimeUnit.monthsPerUnit items := by
  induction items generalizing b with
  | nil => rfl
  | cons i items ih => rw [plusAll, ih, plus, total_cons, Nat.add_assoc]

theorem plusAll_days (b : Builder) (items : List Item) :
    (plusAll b items).days = b.days + total TimeUnit.daysPerUnit items := by
  induction items generalizing b with
  | nil => rfl
  | cons i items ih => rw [plusAll, ih, plus, total_cons, Nat.add_assoc]

/-- The `Long`s add up modulo `2 ^ 64`. -/
theorem plusAll_nanoseconds (b : Builder) (items : List Item) :
    (plusAll b items).nanoseconds = b.nanoseconds + BitVec.ofNat 64 (total TimeUnit.nanosPerUnit items) := by
  induction items generalizing b with
  | nil => simp [plusAll]
  | cons i items ih =>
      rw [plusAll, ih, plus, total_cons, BitVec.ofNat_add, BitVec.ofNat_mul, BitVec.add_assoc]
      rfl

/-- The sums of the items alone. -/
theorem plusAll_new (isNegative : Bool) (items : List Item) :
    (plusAll (.new isNegative) items).isNegative = isNegative ∧
      (plusAll (.new isNegative) items).months = total TimeUnit.monthsPerUnit items ∧
        (plusAll (.new isNegative) items).days = total TimeUnit.daysPerUnit items ∧
          (plusAll (.new isNegative) items).nanoseconds =
            BitVec.ofNat 64 (total TimeUnit.nanosPerUnit items) := by
  rw [plusAll_isNegative, plusAll_months, plusAll_days, plusAll_nanoseconds]
  exact ⟨rfl, Nat.zero_add _, Nat.zero_add _, BitVec.zero_add _⟩

/-- The builder takes the items exactly if the units are in order, the months and days are in range, and there is
room for every `Long`. -/
theorem addItems_eq_ok_iff (b b' : Builder) (items : List Item) (hmonths : b.months ≤ maxInt32)
    (hdays : b.days ≤ maxInt32) :
    addItems b items = .ok b' ↔
      ((∀ i ∈ items, b.unitIndex < i.unit.index) ∧ Ordered items) ∧
        (plusAll b items).months ≤ maxInt32 ∧ (plusAll b items).days ≤ maxInt32 ∧
          RoomForAll b.nanoseconds items ∧ plusAll b items = b' := by
  induction items generalizing b with
  | nil => simp [addItems, plusAll, RoomForAll, Ordered, hmonths, hdays]
  | cons i items ih =>
      have hsteps : (plus b i).months ≤ (plusAll b (i :: items)).months ∧
          (plus b i).days ≤ (plusAll b (i :: items)).days := by
        rw [plusAll, plusAll_months, plusAll_days]
        exact ⟨Nat.le_add_right _ _, Nat.le_add_right _ _⟩
      rw [addItems, Fallible.bind_eq_ok_iff]
      constructor
      · rintro ⟨a, ha, hadd⟩
        obtain ⟨hindex, hm, hd, hroom, rfl⟩ := (addUnit_eq_ok_iff b a i hmonths hdays).1 ha
        obtain ⟨⟨hlater, hordered⟩, hm', hd', hroom', rfl⟩ := (ih _ hm hd).1 hadd
        refine ⟨⟨?_, List.pairwise_cons.2 ⟨hlater, hordered⟩⟩, hm', hd', ⟨hroom, hroom'⟩, rfl⟩
        intro j hj
        rcases List.mem_cons.1 hj with rfl | hj
        · exact hindex
        · exact hindex.trans (hlater j hj)
      · rintro ⟨⟨hindex, hordered⟩, hm, hd, ⟨hroom, hroom'⟩, rfl⟩
        obtain ⟨hlater, hordered⟩ := List.pairwise_cons.1 hordered
        have hm' := hsteps.1.trans hm
        have hd' := hsteps.2.trans hd
        exact ⟨plus b i, (addUnit_eq_ok_iff b _ i hmonths hdays).2 ⟨hindex i (by simp), hm', hd', hroom, rfl⟩,
          (ih _ hm' hd').2 ⟨⟨hlater, hordered⟩, hm, hd, hroom', rfl⟩⟩

/-! ### Numbers that do not wrap -/

/-- Every number in front of a unit of the time of day is below `2 ^ 63`, as a `Long` is. -/
def LongsFit (items : List Item) : Prop := ∀ i ∈ items, i.unit.IsTime → i.number < 2 ^ 63

instance (items : List Item) : Decidable (LongsFit items) := inferInstanceAs (Decidable (∀ i ∈ items, _))

theorem toInt_ofNat_eq_iff (n : ℕ) : (BitVec.ofNat 64 n).toInt = n ↔ n < 2 ^ 63 := by
  constructor
  · intro h
    have hlt : (BitVec.ofNat 64 n).toInt < 2 ^ 63 := BitVec.toInt_lt
    omega
  · exact toInt_ofNat_of_lt

/-- The test of `_validateNanos` is exact when nothing has wrapped. -/
theorem roomFor_iff {n : ℕ} {i : Item} (hn : n < 2 ^ 63) (htime : i.unit.IsTime) (hnumber : i.number < 2 ^ 63) :
    RoomFor (BitVec.ofNat 64 n) i ↔ n + i.number * i.unit.nanosPerUnit < 2 ^ 63 := by
  have hquot : (2 ^ 63 - 1 - n) / i.unit.nanosPerUnit < 2 ^ 63 := (Nat.div_le_self _ _).trans_lt (by omega)
  have hlong : Builder.long i.digits = BitVec.ofNat 64 i.number := rfl
  rw [RoomFor, intMax_sub_ofNat hn, sdiv_ofNat (by omega) i.unit.nanosPerUnit_lt, hlong, slt_ofNat hquot hnumber,
    decide_eq_false_iff_not, not_lt, Nat.le_div_iff_mul_le htime]
  omega

theorem roomForAll_iff {n : ℕ} {items : List Item} (hn : n < 2 ^ 63) (hfit : LongsFit items) :
    RoomForAll (BitVec.ofNat 64 n) items ↔ n + total TimeUnit.nanosPerUnit items < 2 ^ 63 := by
  induction items generalizing n with
  | nil => exact ⟨fun _ => hn, fun _ => trivial⟩
  | cons i items ih =>
      have hfit' : LongsFit items := fun j hj => hfit j (List.mem_cons_of_mem i hj)
      have hsum : BitVec.ofNat 64 n + Builder.long i.digits * BitVec.ofNat 64 i.unit.nanosPerUnit =
          BitVec.ofNat 64 (n + i.number * i.unit.nanosPerUnit) := by
        rw [BitVec.ofNat_add, BitVec.ofNat_mul]
        rfl
      rw [RoomForAll, hsum, total_cons, ← Nat.add_assoc]
      by_cases htime : i.unit.IsTime
      · rw [roomFor_iff hn htime (hfit i (by simp) htime)]
        constructor
        · rintro ⟨hroom, hrest⟩
          exact (ih (hroom htime) hfit').1 hrest
        · intro hlt
          have hlt' : n + i.number * i.unit.nanosPerUnit < 2 ^ 63 := by omega
          exact ⟨fun _ => hlt', (ih hlt' hfit').2 hlt⟩
      · have hzero : i.unit.nanosPerUnit = 0 := Nat.eq_zero_of_not_pos htime
        rw [hzero, Nat.mul_zero, Nat.add_zero, ih hn hfit']
        exact ⟨And.right, fun h => ⟨fun h' => absurd h' htime, h⟩⟩

/-- Numbers fit if their sum does. -/
theorem longsFit_of_total_lt {items : List Item} (h : total TimeUnit.nanosPerUnit items < 2 ^ 63) :
    LongsFit items := by
  intro i hi htime
  have hle := le_total TimeUnit.nanosPerUnit hi
  have hmul := Nat.le_mul_of_pos_right i.number htime
  omega

/-! ### The items that are found in a text -/

/-- The item of a match, if its unit is known. -/
def item? (found : List Char × List Char) : Option Item :=
  (Builder.addMethods.lookup (found.2.map Builder.toLowerCase)).map (Item.mk found.1)

/-- The matches of `standardRegex`, one behind the other; `fuel` bounds their number. -/
def scan : ℕ → List Char → List (List Char × List Char)
  | 0, _ => []
  | fuel + 1, source =>
      match nextMatch source with
      | some (digits, unit, rest) => (digits, unit) :: scan fuel rest
      | none => []

def standardItems (source : List Char) : Option (List Item) := (scan source.length source).mapM item?

/-- The item of a group that has matched. -/
def partItem (part : Option (List Char)) (unit : TimeUnit) : List Item := (part.map fun text => ⟨text, unit⟩).toList

def iso8601Items (source : List Char) : Option (List Item) :=
  let years := isoPart 'Y' source.tail
  let months := isoPart 'M' years.2
  let days := isoPart 'D' months.2
  let hours := isoPart 'H' (isoTime days.2)
  let minutes := isoPart 'M' hours.2
  let seconds := isoPart 'S' minutes.2
  let rest := if days.2.head? = some 'T' then seconds.2 else days.2
  if rest ≠ [] then none
  else
    some (partItem years.1 .years ++ (partItem months.1 .months ++ (partItem days.1 .days ++
      (partItem hours.1 .hours ++ (partItem minutes.1 .minutes ++ partItem seconds.1 .seconds)))))

def iso8601WeekItems (source : List Char) : Option (List Item) :=
  let weeks := isoPart 'W' source.tail
  if weeks.2 ≠ [] then none else weeks.1.map fun digits => [⟨digits, .weeks⟩]

def iso8601AlternativeItems (source : List Char) : Option (List Item) :=
  (alternateParts source).map fun parts =>
    parts.zipWith Item.mk [.years, .months, .days, .hours, .minutes, .seconds]

/-- The items of a text behind its sign, if its form is recognised. -/
def readItems (source : List Char) : Option (List Item) :=
  if source.head? = some 'P' then
    if source.getLast? = some 'W' then iso8601WeekItems source
    else if source.contains '-' then iso8601AlternativeItems source
    else iso8601Items source
  else standardItems source

/-- The text behind the sign. -/
def unsigned (input : List Char) : List Char := if input.head? = some '-' then input.tail else input

def isNegative (input : List Char) : Bool := input.head? = some '-'

/-- The builder's result for the items. -/
def ofItems (isNegative : Bool) (items : List Item) : Except String Duration :=
  (addItems (.new isNegative) items).map Builder.build

/-- `parse` returns what the builder makes of the items that `read` finds. -/
def ParsesItems (parse : Bool → List Char → Except String Duration) (read : List Char → Option (List Item)) : Prop :=
  ∀ isNegative source d,
    parse isNegative source = .ok d ↔ ∃ items, read source = some items ∧ ofItems isNegative items = .ok d

theorem add_eq_ok_iff (b b' : Builder) (found : List Char × List Char) :
    b.add found.1 found.2 = .ok b' ↔ ∃ i, item? found = some i ∧ b.addUnit i.digits i.unit = .ok b' := by
  unfold Builder.add item?
  cases Builder.addMethods.lookup (found.2.map Builder.toLowerCase) <;> simp

theorem parseStandardLoop_eq_ok_iff (fuel : ℕ) (b b' : Builder) (source : List Char) :
    parseStandardLoop fuel b source = .ok b' ↔
      ∃ items, (scan fuel source).mapM item? = some items ∧ addItems b items = .ok b' := by
  induction fuel generalizing b source with
  | zero => simp [parseStandardLoop, scan, addItems]
  | succ fuel ih =>
      rw [parseStandardLoop, scan]
      cases nextMatch source with
      | none => simp [addItems]
      | some found =>
          obtain ⟨digits, unit, rest⟩ := found
          simp only [Fallible.bind_eq_ok_iff, ih, add_eq_ok_iff b _ (digits, unit), List.mapM_cons]
          constructor
          · rintro ⟨a, ⟨i, hi, ha⟩, items, hitems, hadd⟩
            refine ⟨i :: items, by simp [hi, hitems], ?_⟩
            rw [addItems, ha]
            exact hadd
          · rintro ⟨items, hitems, hadd⟩
            simp only [Option.bind_eq_bind, Option.bind_eq_some_iff, Option.pure_def, Option.some.injEq] at hitems
            obtain ⟨i, hi, items', hitems', rfl⟩ := hitems
            obtain ⟨a, ha, hadd⟩ := Fallible.bind_eq_ok_iff.1 hadd
            exact ⟨a, ⟨i, hi, ha⟩, items', hitems', hadd⟩

theorem map_build_eq_ok_iff {x : Except String Builder} {d : Duration} :
    x.map Builder.build = .ok d ↔ ∃ b, x = .ok b ∧ b.build = d := by
  cases x <;> simp [Except.map]

theorem parsesItems_standard : ParsesItems parseStandardFormat standardItems := by
  intro isNegative source d
  unfold parseStandardFormat standardItems ofItems
  simp only [map_build_eq_ok_iff, parseStandardLoop_eq_ok_iff]
  constructor
  · rintro ⟨b, ⟨items, hitems, hadd⟩, hd⟩
    exact ⟨items, hitems, b, hadd, hd⟩
  · rintro ⟨items, hitems, b, hadd, hd⟩
    exact ⟨b, ⟨items, hitems, hadd⟩, hd⟩

theorem addPart_eq (part : Option (List Char)) (unit : TimeUnit) (b : Builder) :
    addPart part unit b = addItems b (partItem part unit) := by
  cases part with
  | none => rfl
  | some text => simp [addPart, partItem]

theorem map_bind {α β γ : Type} (f : β → γ) (x : Except String α) (g : α → Except String β) :
    (x.bind g).map f = x.bind fun a => (g a).map f := by
  cases x <;> rfl

theorem bind_map_ok {α β : Type} (f : α → β) (x : Except String α) :
    (x.bind fun a => (Except.ok a).map f) = x.map f := by
  cases x <;> rfl

theorem parsesItems_iso8601 : ParsesItems parseIso8601Format iso8601Items := by
  intro isNegative source d
  simp only [parseIso8601Format, iso8601Items, addPart_eq]
  generalize isoPart 'Y' source.tail = years
  generalize isoPart 'M' years.2 = months
  generalize isoPart 'D' months.2 = days
  generalize isoPart 'H' (isoTime days.2) = hours
  generalize isoPart 'M' hours.2 = minutes
  generalize isoPart 'S' minutes.2 = seconds
  generalize (if days.2.head? = some 'T' then seconds.2 else days.2) = rest
  by_cases hrest : rest = []
  · rw [if_neg (not_not.2 hrest), if_neg (not_not.2 hrest)]
    simp only [Option.some.injEq, exists_eq_left', ofItems, addItems_append, map_bind]
  · rw [if_pos hrest, if_pos hrest]
    simp

theorem parsesItems_iso8601Week : ParsesItems parseIso8601WeekFormat iso8601WeekItems := by
  intro isNegative source d
  simp only [parseIso8601WeekFormat, iso8601WeekItems]
  generalize isoPart 'W' source.tail = weeks
  obtain ⟨part, rest⟩ := weeks
  by_cases hrest : rest = []
  · rw [if_neg (not_not.2 hrest)]
    cases part with
    | none => simp
    | some digits => simp [hrest, ofItems, Builder.addUnit]
  · rw [if_pos hrest]
    cases part <;> simp [hrest]

/-- The text consists of so many digits. -/
def Digits (n : ℕ) (text : List Char) : Prop := text.length = n ∧ ∀ c ∈ text, c.isDigit = true

theorem alternateParts_eq_some_iff (source : List Char) (parts : List (List Char)) :
    alternateParts source = some parts ↔ ∃ years months days hours minutes seconds,
      (Digits 4 years ∧ Digits 2 months ∧ Digits 2 days ∧ Digits 2 hours ∧ Digits 2 minutes ∧ Digits 2 seconds) ∧
        source = 'P' :: (years ++ '-' :: (months ++ '-' :: (days ++ 'T' :: (hours ++ ':' ::
          (minutes ++ ':' :: seconds))))) ∧
        parts = [years, months, days, hours, minutes, seconds] := by
  constructor
  · intro h
    unfold alternateParts at h
    split at h
    · split_ifs at h with hdigits
      simp only [List.all_cons, List.all_nil, Bool.and_true, Bool.and_eq_true] at hdigits
      refine ⟨_, _, _, _, _, _, ?_, ?_, (Option.some.inj h).symm⟩
      · simp [Digits, hdigits]
      · rfl
    · cases h
  · rintro ⟨years, months, days, hours, minutes, seconds, ⟨hy, hmo, hd, hh, hmi, hs⟩, rfl, rfl⟩
    obtain ⟨a, b, c, d, rfl⟩ := List.length_eq_four.1 hy.1
    obtain ⟨e, f, rfl⟩ := List.length_eq_two.1 hmo.1
    obtain ⟨g, h, rfl⟩ := List.length_eq_two.1 hd.1
    obtain ⟨i, j, rfl⟩ := List.length_eq_two.1 hh.1
    obtain ⟨k, l, rfl⟩ := List.length_eq_two.1 hmi.1
    obtain ⟨m, n, rfl⟩ := List.length_eq_two.1 hs.1
    simp_all [Digits, alternateParts]

theorem parsesItems_iso8601Alternative : ParsesItems parseIso8601AlternativeFormat iso8601AlternativeItems := by
  intro isNegative source d
  unfold parseIso8601AlternativeFormat iso8601AlternativeItems
  cases hparts : alternateParts source with
  | none => simp
  | some parts =>
      obtain ⟨years, months, days, hours, minutes, seconds, -, -, rfl⟩ :=
        (alternateParts_eq_some_iff source parts).1 hparts
      simp [ofItems, addItems, Builder.addUnit, map_bind, bind_map_ok]

/-- `fromString` returns what the builder makes of the items of the text. -/
theorem fromString_eq_ok_iff (input : List Char) (d : Duration) :
    fromString input = .ok d ↔
      ∃ items, readItems (unsigned input) = some items ∧ ofItems (isNegative input) items = .ok d := by
  have hsource : (if decide (input.head? = some '-') = true then input.tail else input) = unsigned input := by
    simp [unsigned]
  simp only [fromString, decide_eq_true_eq] at hsource ⊢
  rw [hsource, ← isNegative]
  unfold readItems
  split_ifs
  · exact parsesItems_iso8601Week _ _ _
  · exact parsesItems_iso8601Alternative _ _ _
  · exact parsesItems_iso8601 _ _ _
  · exact parsesItems_standard _ _ _

/-! ### Exact results -/

/-- The builder takes the items. -/
structure Takes (items : List Item) : Prop where
  ordered : Ordered items
  months : total TimeUnit.monthsPerUnit items ≤ maxInt32
  days : total TimeUnit.daysPerUnit items ≤ maxInt32
  room : RoomForAll 0 items

theorem addItems_new_eq_ok_iff (isNegative : Bool) (items : List Item) (b : Builder) :
    addItems (.new isNegative) items = .ok b ↔ Takes items ∧ plusAll (.new isNegative) items = b := by
  have hindex : ∀ i ∈ items, (Builder.new isNegative).unitIndex < i.unit.index := by
    intro i _
    change 0 < i.unit.index
    cases i.unit <;> decide
  rw [addItems_eq_ok_iff _ _ _ (Nat.zero_le _) (Nat.zero_le _), plusAll_months, plusAll_days]
  simp only [Builder.new, Nat.zero_add]
  constructor
  · rintro ⟨⟨-, hordered⟩, hm, hd, hroom, hb⟩
    exact ⟨⟨hordered, hm, hd, hroom⟩, hb⟩
  · rintro ⟨⟨hordered, hm, hd, hroom⟩, hb⟩
    exact ⟨⟨hindex, hordered⟩, hm, hd, hroom, hb⟩

theorem ofItems_eq_ok_iff (isNegative : Bool) (items : List Item) (d : Duration) :
    ofItems isNegative items = .ok d ↔ Takes items ∧ (plusAll (.new isNegative) items).build = d := by
  simp only [ofItems, map_build_eq_ok_iff, addItems_new_eq_ok_iff]
  constructor
  · rintro ⟨b, ⟨htakes, rfl⟩, hd⟩
    exact ⟨htakes, hd⟩
  · rintro ⟨htakes, hd⟩
    exact ⟨_, ⟨htakes, rfl⟩, hd⟩

/-- The number with the sign of the text. -/
def signed (isNegative : Bool) (n : ℕ) : ℤ := if isNegative then -n else n

/-- The duration has the sums of the items, in the order and the range they should have, and no `Long` on the way
to them has wrapped. -/
structure Exact (isNegative : Bool) (items : List Item) (d : Duration) : Prop where
  ordered : Ordered items
  months : d.months = signed isNegative (total TimeUnit.monthsPerUnit items)
  days : d.days = signed isNegative (total TimeUnit.daysPerUnit items)
  nanoseconds : d.nanoseconds.toInt = signed isNegative (total TimeUnit.nanosPerUnit items)
  fits : Fits 32 (signed isNegative (total TimeUnit.monthsPerUnit items)) ∧
    Fits 32 (signed isNegative (total TimeUnit.daysPerUnit items)) ∧
      Fits 64 (signed isNegative (total TimeUnit.nanosPerUnit items))
  longs : ∀ i ∈ items, i.unit.IsTime → (Builder.long i.digits).toInt = i.number ∧
    (Builder.long i.digits * BitVec.ofNat 64 i.unit.nanosPerUnit).toInt = i.number * i.unit.nanosPerUnit
  sums : ∀ done, done <+: items → ∃ b, addItems (.new isNegative) done = .ok b ∧
    b.months = total TimeUnit.monthsPerUnit done ∧ b.days = total TimeUnit.daysPerUnit done ∧
      b.nanoseconds.toInt = total TimeUnit.nanosPerUnit done

/-- Every beginning of the items is taken as well. -/
theorem sums_of_takes {isNegative : Bool} {items : List Item} (h : Takes items)
    (hlt : total TimeUnit.nanosPerUnit items < 2 ^ 63) {done : List Item} (hdone : done <+: items) :
    ∃ b, addItems (.new isNegative) done = .ok b ∧ b.months = total TimeUnit.monthsPerUnit done ∧
      b.days = total TimeUnit.daysPerUnit done ∧ b.nanoseconds.toInt = total TimeUnit.nanosPerUnit done := by
  obtain ⟨later, rfl⟩ := hdone
  have hall := (addItems_new_eq_ok_iff isNegative _ _).2 ⟨h, rfl⟩
  rw [addItems_append, Fallible.bind_eq_ok_iff] at hall
  obtain ⟨b, hb, -⟩ := hall
  obtain ⟨-, hplus⟩ := (addItems_new_eq_ok_iff _ _ _).1 hb
  rw [total_append] at hlt
  obtain ⟨-, hm, hd, hn⟩ := plusAll_new isNegative done
  rw [hplus] at hm hd hn
  exact ⟨b, hb, hm, hd, by rw [hn, toInt_ofNat_of_lt (by omega)]⟩

theorem fits_signed {w n : ℕ} (isNegative : Bool) (h : n < 2 ^ (w - 1)) : Fits w (signed isNegative n) := by
  have hlt : (n : ℤ) < 2 ^ (w - 1) := by exact_mod_cast h
  unfold Fits signed
  split_ifs <;> omega

theorem build_eq (b : Builder) (hmonths : b.months ≤ maxInt32) (hdays : b.days ≤ maxInt32) {n : ℕ}
    (hnanos : b.nanoseconds = BitVec.ofNat 64 n) (hlt : n < 2 ^ 63) :
    b.build.months = signed b.isNegative b.months ∧ b.build.days = signed b.isNegative b.days ∧
      b.build.nanoseconds.toInt = signed b.isNegative n := by
  unfold maxInt32 at hmonths hdays
  have hneg : (-BitVec.ofNat 64 n).toInt = -n := by
    rw [BitVec.toInt_neg, toInt_ofNat_of_lt hlt, Int.bmod_eq_of_le (by omega) (by omega)]
  cases hsign : b.isNegative with
  | false =>
      simp only [Builder.build, hsign, signed, Bool.false_eq_true, if_false, hnanos]
      exact ⟨wrap32_eq_self (by omega) (by omega), wrap32_eq_self (by omega) (by omega), toInt_ofNat_of_lt hlt⟩
  | true =>
      simp only [Builder.build, hsign, signed, if_true, hnanos]
      exact ⟨wrap32_eq_self (by omega) (by omega), wrap32_eq_self (by omega) (by omega), hneg⟩

theorem exact_of_longsFit {isNegative : Bool} {items : List Item} {d : Duration}
    (h : ofItems isNegative items = .ok d) (hfit : LongsFit items) : Exact isNegative items d := by
  obtain ⟨htakes, rfl⟩ := (ofItems_eq_ok_iff _ _ _).1 h
  have hlt : total TimeUnit.nanosPerUnit items < 2 ^ 63 := by
    have hroom := (roomForAll_iff (n := 0) (by norm_num) hfit).1 htakes.room
    omega
  have hmonths := htakes.months
  have hdays := htakes.days
  obtain ⟨hsign, hm, hd, hn⟩ := plusAll_new isNegative items
  have hbuild := build_eq (plusAll (.new isNegative) items) (hm.trans_le hmonths) (hd.trans_le hdays) hn hlt
  rw [hsign, hm, hd] at hbuild
  have h32 : (maxInt32 : ℕ) < 2 ^ (32 - 1) := by norm_num [maxInt32]
  refine ⟨htakes.ordered, hbuild.1, hbuild.2.1, hbuild.2.2, ⟨fits_signed _ (hmonths.trans_lt h32),
    fits_signed _ (hdays.trans_lt h32), fits_signed _ hlt⟩, ?_, fun done => sums_of_takes htakes hlt⟩
  intro i hi htime
  have hlong : Builder.long i.digits = BitVec.ofNat 64 i.number := rfl
  have hle := (le_total TimeUnit.nanosPerUnit hi).trans_lt hlt
  rw [hlong, ← BitVec.ofNat_mul, toInt_ofNat_of_lt (hfit i hi htime), toInt_ofNat_of_lt hle]
  exact ⟨rfl, by push_cast; rfl⟩

theorem Exact.longsFit {isNegative : Bool} {items : List Item} {d : Duration} (h : Exact isNegative items d) :
    LongsFit items :=
  fun i hi htime => (toInt_ofNat_eq_iff _).1 (h.longs i hi htime).1

/-- The duration is exact for the digits of the text. -/
def ExactFor (input : List Char) (d : Duration) : Prop :=
  ∃ items, readItems (unsigned input) = some items ∧ Exact (isNegative input) items d

/-- A text that is taken gives the exact duration just when no number in front of a unit of the time of day is
`2 ^ 63` or more. -/
theorem exactFor_iff (input : List Char) (d : Duration) (h : fromString input = .ok d) :
    ExactFor input d ↔ ∀ items, readItems (unsigned input) = some items → LongsFit items := by
  obtain ⟨items, hitems, hd⟩ := (fromString_eq_ok_iff input d).1 h
  constructor
  · rintro ⟨items', hitems', hexact⟩ items'' hitems''
    rw [hitems', Option.some.injEq] at hitems''
    subst hitems''
    exact hexact.longsFit
  · intro hfit
    exact ⟨items, hitems, exact_of_longsFit hd (hfit items hitems)⟩

theorem eq_ok_of_toOption {x : Except String Duration} {d : Duration} (h : x.toOption = some d) : x = .ok d := by
  cases x with
  | error e => cases h
  | ok d' => exact congrArg Except.ok (Option.some.inj h)

/-- `-1y2mo3d4H5ns` is minus fourteen months, three days and the nanoseconds. -/
theorem exactFor_iff_negativeText :
    ExactFor ['-', '1', 'y', '2', 'm', 'o', '3', 'd', '4', 'H', '5', 'n', 's']
        ⟨-14, -3, BitVec.ofInt 64 (-14400000000005), by decide⟩ ↔
      ∀ items, readItems (unsigned ['-', '1', 'y', '2', 'm', 'o', '3', 'd', '4', 'H', '5', 'n', 's']) = some items →
        LongsFit items :=
  exactFor_iff _ _ (eq_ok_of_toOption (by decide +kernel))

/-- `18446744073709551617h`, with `2 ^ 64 + 1` hours. -/
def wrappedHours : List Char :=
  ['1', '8', '4', '4', '6', '7', '4', '4', '0', '7', '3', '7', '0', '9', '5', '5', '1', '6', '1', '7', 'h']

/-- It is read as one hour. -/
theorem fromString_wrappedHours : fromString wrappedHours = .ok ⟨0, 0, 3600000000000, by decide⟩ :=
  eq_ok_of_toOption (by decide +kernel)

theorem readItems_wrappedHours : ∃ items, readItems (unsigned wrappedHours) = some items ∧ ¬ LongsFit items :=
  ⟨[⟨wrappedHours.dropLast, .hours⟩], by decide +kernel, by decide +kernel⟩

theorem not_exactFor_wrappedHours :
    ¬ ∀ (input : List Char) (d : Duration), fromString input = .ok d → ExactFor input d := by
  intro hall
  obtain ⟨items, hitems, hexact⟩ := hall _ _ fromString_wrappedHours
  obtain ⟨items', hitems', hwrap⟩ := readItems_wrappedHours
  rw [hitems, Option.some.injEq] at hitems'
  exact hwrap (hitems' ▸ hexact.longsFit)

end CqlDriver.Duration
