import Mathlib
import CqlDriver.DurationItems

/-! # Which texts are durations (`lib/types/duration.js`)

The texts that `fromString` should take are described without its loops, as a grammar of four forms.  The three
ISO 8601 forms are compared with the whole text; the loop of `parseStandardFormat` skips what does not match. -/

namespace CqlDriver.Duration

/-! ### The grammar -/

/-- The text is a number: digits, at least one. -/
def IsNumber (text : List Char) : Prop := text ≠ [] ∧ ∀ c ∈ text, c.isDigit = true

/-- Digits with units, one behind the other; a unit may be written in capitals. -/
inductive ItemSequence : List Char → List Item → Prop
  | nil : ItemSequence [] []
  | cons {digits symbol source : List Char} {unit : TimeUnit} {items : List Item} (hdigits : IsNumber digits)
      (hunit : Builder.addMethods.lookup (symbol.map Builder.toLowerCase) = some unit)
      (hrest : ItemSequence source items) : ItemSequence (digits ++ symbol ++ source) (⟨digits, unit⟩ :: items)

/-- `[n]X`, or nothing. -/
inductive Part (designator : Char) (unit : TimeUnit) : List Char → List Item → Prop
  | absent : Part designator unit [] []
  | present {digits : List Char} (hdigits : IsNumber digits) :
      Part designator unit (digits ++ [designator]) [⟨digits, unit⟩]

/-- `T[n]H[n]M[n]S`, or nothing. -/
inductive TimePart : List Char → List Item → Prop
  | absent : TimePart [] []
  | present {hours minutes seconds : List Char} {hs ms ss : List Item} (hhours : Part 'H' .hours hours hs)
      (hminutes : Part 'M' .minutes minutes ms) (hseconds : Part 'S' .seconds seconds ss) :
      TimePart ('T' :: (hours ++ (minutes ++ seconds))) (hs ++ (ms ++ ss))

/-- The four forms of a text without a sign, and their items. -/
inductive Form : List Char → List Item → Prop
  | standard {source : List Char} {items : List Item} (h : ItemSequence source items) : Form source items
  | iso8601 {years months days time : List Char} {ys ms ds ts : List Item} (hyears : Part 'Y' .years years ys)
      (hmonths : Part 'M' .months months ms) (hdays : Part 'D' .days days ds) (htime : TimePart time ts) :
      Form ('P' :: (years ++ (months ++ (days ++ time)))) (ys ++ (ms ++ (ds ++ ts)))
  | iso8601Week {digits : List Char} (hdigits : IsNumber digits) : Form ('P' :: (digits ++ ['W'])) [⟨digits, .weeks⟩]
  | iso8601Alternative {years months days hours minutes seconds : List Char}
      (hdigits : Digits 4 years ∧ Digits 2 months ∧ Digits 2 days ∧ Digits 2 hours ∧ Digits 2 minutes ∧
        Digits 2 seconds) :
      Form ('P' :: (years ++ '-' :: (months ++ '-' :: (days ++ 'T' :: (hours ++ ':' :: (minutes ++ ':' :: seconds))))))
        [⟨years, .years⟩, ⟨months, .months⟩, ⟨days, .days⟩, ⟨hours, .hours⟩, ⟨minutes, .minutes⟩,
          ⟨seconds, .seconds⟩]

/-- The sums are in the range that the messages of the builder state. -/
structure InRange (items : List Item) : Prop where
  months : total TimeUnit.monthsPerUnit items ≤ maxInt32
  days : total TimeUnit.daysPerUnit items ≤ maxInt32
  nanoseconds : total TimeUnit.nanosPerUnit items ≤ 9223372036854775807

/-- The texts that are documented: a form behind an optional sign, with its units in order and its sums in range. -/
def Grammar (input : List Char) : Prop :=
  ∃ source items, (input = source ∨ input = '-' :: source) ∧ Form source items ∧ Ordered items ∧ InRange items

/-- The matches of the scan make up the text. -/
def NothingSkipped (source : List Char) : Prop :=
  source.head? = some 'P' ∨ (scan source.length source).flatMap (fun found => found.1 ++ found.2) = source

instance (source : List Char) : Decidable (NothingSkipped source) := inferInstanceAs (Decidable (_ ∨ _))

/-! ### A sequence of items is found -/

theorem canonicalize_toLowerCase (c : Char) : canonicalize (Builder.toLowerCase c) = canonicalize c := by
  by_cases hupper : 'A' ≤ c ∧ c ≤ 'Z'
  · have h₁ : 65 ≤ c.toNat := hupper.1
    have h₂ : c.toNat ≤ 90 := hupper.2
    have hc : c = Char.ofNat c.toNat := (Char.ofNat_toNat c).symm
    rw [hc]
    interval_cases c.toNat <;> rfl
  · have hlower : c.toLower = c := dif_neg hupper
    unfold Builder.toLowerCase
    rw [hlower]
    split_ifs with hmu
    · rw [hmu]; rfl
    · rfl

/-- Whether a unit matches depends on the letters without their case. -/
theorem matchUnit_congr {source source' : List Char} (h : source.map canonicalize = source'.map canonicalize) :
    matchUnit source = (matchUnit source').map fun found => (source.take found.1.length, source.drop found.1.length) := by
  have hlength : source.length = source'.length := by simpa using congrArg List.length h
  unfold matchUnit
  induction unitAlternatives with
  | nil => rfl
  | cons unit units ih =>
      rw [List.findSome?_cons, List.findSome?_cons, List.map_take, List.map_take, h, ih]
      split_ifs with hunit
      · simp [hlength]
      · rfl

/-- The texts that name a unit. -/
theorem eq_symbol_of_lookup {text : List Char} {unit : TimeUnit} (h : Builder.addMethods.lookup text = some unit) :
    text = unit.symbol ∨ text = ['µ', 's'] := by
  obtain ⟨before, after, heq, -⟩ := List.lookup_eq_some_iff.1 h
  have hmem : (text, unit) ∈ Builder.addMethods := by
    rw [heq]
    simp
  simp only [Builder.addMethods, List.mem_cons, Prod.mk.injEq, List.not_mem_nil, or_false] at hmem
  rcases hmem with ⟨rfl, rfl⟩ | ⟨rfl, rfl⟩ | ⟨rfl, rfl⟩ | ⟨rfl, rfl⟩ | ⟨rfl, rfl⟩ | ⟨rfl, rfl⟩ | ⟨rfl, rfl⟩ |
    ⟨rfl, rfl⟩ | ⟨rfl, rfl⟩ | ⟨rfl, rfl⟩ | ⟨rfl, rfl⟩ <;> first | exact Or.inl rfl | exact Or.inr rfl

/-- A unit is found in either case, as a digit or the end follows. -/
theorem matchUnit_of_lookup {symbol rest : List Char} {unit : TimeUnit}
    (h : Builder.addMethods.lookup (symbol.map Builder.toLowerCase) = some unit) (hrest : StartsNumber rest) :
    matchUnit (symbol ++ rest) = some (symbol, rest) := by
  have hlower : matchUnit (symbol.map Builder.toLowerCase ++ rest) = some (symbol.map Builder.toLowerCase, rest) := by
    rcases eq_symbol_of_lookup h with hsymbol | hsymbol
    · rw [hsymbol]
      exact matchUnit_symbol unit rest hrest
    · rw [hsymbol]
      rfl
  have hcase : (symbol ++ rest).map canonicalize = (symbol.map Builder.toLowerCase ++ rest).map canonicalize := by
    simp [canonicalize_toLowerCase]
  rw [matchUnit_congr hcase, hlower]
  simp

/-- A unit does not start with a digit. -/
theorem takeWhile_unit {symbol rest : List Char} {unit : TimeUnit}
    (h : Builder.addMethods.lookup (symbol.map Builder.toLowerCase) = some unit) :
    (symbol ++ rest).takeWhile Char.isDigit = [] ∧ (symbol ++ rest).dropWhile Char.isDigit = symbol ++ rest := by
  cases symbol with
  | nil => cases h
  | cons c cs =>
      have hdigit : c.isDigit = false := by
        by_contra hc
        rw [Bool.not_eq_false] at hc
        rcases digit_cases hc with rfl | rfl | rfl | rfl | rfl | rfl | rfl | rfl | rfl | rfl <;>
          rcases eq_symbol_of_lookup h with h' | h' <;> cases unit <;> cases h'
      simp [hdigit]

/-- The number and the unit at the front of a text are found. -/
theorem nextMatch_item {digits symbol rest : List Char} {unit : TimeUnit} (hdigits : IsNumber digits)
    (hunit : Builder.addMethods.lookup (symbol.map Builder.toLowerCase) = some unit) (hrest : StartsNumber rest) :
    nextMatch (digits ++ symbol ++ rest) = some (digits, symbol, rest) := by
  have hsymbol : (symbol ++ rest).takeWhile Char.isDigit = [] ∧ _ := takeWhile_unit hunit
  have hdrop : (digits ++ symbol ++ rest).dropWhile Char.isDigit = symbol ++ rest := by
    rw [List.append_assoc, List.dropWhile_append_of_pos hdigits.2, hsymbol.2]
  have htake : (digits ++ symbol ++ rest).takeWhile Char.isDigit = digits := by
    rw [List.append_assoc, List.takeWhile_append_of_pos hdigits.2, hsymbol.1, List.append_nil]
  obtain ⟨c, cs, rfl⟩ := List.exists_cons_of_ne_nil hdigits.1
  have hfirst : c.isDigit = true := hdigits.2 c (by simp)
  rw [List.cons_append, List.cons_append] at hdrop htake ⊢
  rw [nextMatch, hdrop, matchUnit_of_lookup hunit hrest]
  simp only [hfirst, if_true, htake]

theorem startsNumber_of_isNumber {digits : List Char} (h : IsNumber digits) (rest : List Char) :
    StartsNumber (digits ++ rest) := by
  obtain ⟨c, cs, rfl⟩ := List.exists_cons_of_ne_nil h.1
  intro d hd
  rw [List.cons_append, List.head?_cons, Option.some.injEq] at hd
  rw [← hd]
  exact h.2 c (by simp)

theorem ItemSequence.startsNumber {source : List Char} {items : List Item} (h : ItemSequence source items) :
    StartsNumber source := by
  cases h with
  | nil => simp [StartsNumber]
  | cons hdigits hunit hrest =>
      rw [List.append_assoc]
      exact startsNumber_of_isNumber hdigits _

/-- The scan finds the items of a sequence. -/
theorem ItemSequence.scan_eq {source : List Char} {items : List Item} (h : ItemSequence source items) :
    ∀ fuel, source.length ≤ fuel → (scan fuel source).mapM item? = some items ∧
      (scan fuel source).flatMap (fun found => found.1 ++ found.2) = source := by
  induction h with
  | nil =>
      intro fuel _
      cases fuel <;> exact ⟨rfl, rfl⟩
  | @cons digits symbol source unit items hdigits hunit hrest ih =>
      intro fuel hfuel
      have hpos := List.length_pos_of_ne_nil hdigits.1
      simp only [List.length_append] at hfuel
      obtain ⟨fuel, rfl⟩ : ∃ k, fuel = k + 1 := ⟨fuel - 1, by omega⟩
      obtain ⟨hitems, htext⟩ := ih fuel (by omega)
      have hitem : item? (digits, symbol) = some ⟨digits, unit⟩ := by simp [item?, hunit]
      rw [scan, nextMatch_item hdigits hunit hrest.startsNumber]
      simp [hitem, hitems, htext]

/-- What is found starts with a number. -/
theorem isNumber_of_nextMatch {source digits unit rest : List Char}
    (h : nextMatch source = some (digits, unit, rest)) : IsNumber digits := by
  induction source with
  | nil => cases h
  | cons c cs ih =>
      rw [nextMatch] at h
      split at h
      · split_ifs at h with hc
        · simp only [Option.some.injEq, Prod.mk.injEq] at h
          obtain ⟨rfl, -, -⟩ := h
          refine ⟨by simp [hc], fun d hd => ?_⟩
          exact List.mem_takeWhile_imp hd
        · exact ih h
      · exact ih h

theorem isNumber_of_mem_scan {fuel : ℕ} {source : List Char} :
    ∀ found ∈ scan fuel source, IsNumber found.1 := by
  induction fuel generalizing source with
  | zero => simp [scan]
  | succ fuel ih =>
      rw [scan]
      split
      · next heq =>
          intro found hfound
          rcases List.mem_cons.1 hfound with rfl | hfound
          · exact isNumber_of_nextMatch heq
          · exact ih found hfound
      · simp

/-- Matches that lie one behind the other are a sequence of items. -/
theorem itemSequence_of_mapM {ms : List (List Char × List Char)} {items : List Item}
    (hnumber : ∀ found ∈ ms, IsNumber found.1) (hitems : ms.mapM item? = some items) :
    ItemSequence (ms.flatMap fun found => found.1 ++ found.2) items := by
  induction ms generalizing items with
  | nil =>
      obtain rfl : [] = items := by simpa using hitems
      exact .nil
  | cons found found' ih =>
      simp only [List.mapM_cons, Option.bind_eq_bind, Option.bind_eq_some_iff, Option.pure_def,
        Option.some.injEq] at hitems
      obtain ⟨i, hi, items', hitems', rfl⟩ := hitems
      obtain ⟨unit, hunit, rfl⟩ := Option.map_eq_some_iff.1 hi
      rw [List.flatMap_cons]
      exact .cons (hnumber found (by simp)) hunit
        (ih (fun f hf => hnumber f (List.mem_cons_of_mem _ hf)) hitems')

theorem itemSequence_iff (source : List Char) (items : List Item) :
    ItemSequence source items ↔ standardItems source = some items ∧
      (scan source.length source).flatMap (fun found => found.1 ++ found.2) = source := by
  constructor
  · intro h
    exact h.scan_eq _ le_rfl
  · rintro ⟨hitems, htext⟩
    have hsequence := itemSequence_of_mapM isNumber_of_mem_scan hitems
    rwa [htext] at hsequence

/-! ### The ISO 8601 forms are found -/

/-- The character behind the digits at the front. -/
def nextDesignator (source : List Char) : Option Char := (source.dropWhile Char.isDigit).head?

theorem isoPart_absent {designator : Char} {source : List Char} (h : nextDesignator source ≠ some designator) :
    isoPart designator source = (none, source) := by
  unfold isoPart
  split
  · next hrest =>
      rw [nextDesignator, hrest] at h
      exact if_neg fun heq => h (by rw [heq]; rfl)
  · rfl

theorem span_present {digits rest : List Char} {designator : Char} (hdigits : IsNumber digits)
    (hdesignator : designator.isDigit = false) :
    (digits ++ designator :: rest).takeWhile Char.isDigit = digits ∧
      (digits ++ designator :: rest).dropWhile Char.isDigit = designator :: rest := by
  rw [List.takeWhile_append_of_pos hdigits.2, List.dropWhile_append_of_pos hdigits.2]
  simp [hdesignator]

theorem isoPart_present {digits rest : List Char} {designator : Char} (hdigits : IsNumber digits)
    (hdesignator : designator.isDigit = false) :
    isoPart designator (digits ++ designator :: rest) = (some digits, rest) := by
  obtain ⟨htake, hdrop⟩ : (digits ++ designator :: rest).takeWhile Char.isDigit = digits ∧ _ :=
    span_present hdigits hdesignator
  unfold isoPart
  rw [htake, hdrop]
  obtain ⟨c, cs, rfl⟩ := List.exists_cons_of_ne_nil hdigits.1
  simp

section

variable {designator : Char} {unit : TimeUnit} {text rest : List Char} {items : List Item}

theorem Part.isoPart_eq (h : Part designator unit text items) (hdesignator : designator.isDigit = false)
    (hrest : nextDesignator rest ≠ some designator) :
    ∃ part, isoPart designator (text ++ rest) = (part, rest) ∧ partItem part unit = items := by
  cases h with
  | absent => exact ⟨none, isoPart_absent hrest, rfl⟩
  | @present digits hdigits =>
      refine ⟨some digits, ?_, rfl⟩
      rw [List.append_assoc, List.singleton_append, isoPart_present hdigits hdesignator]

theorem Part.nextDesignator_ne (h : Part designator unit text items) (hdesignator : designator.isDigit = false)
    {other : Char} (hne : designator ≠ other) (hrest : nextDesignator rest ≠ some other) :
    nextDesignator (text ++ rest) ≠ some other := by
  cases h with
  | absent => exact hrest
  | present hdigits =>
      rw [List.append_assoc, List.singleton_append, nextDesignator, (span_present hdigits hdesignator).2]
      exact fun heq => hne (Option.some.inj heq)

theorem Part.mem (h : Part designator unit text items) {c : Char} (hc : c ∈ text) :
    c.isDigit = true ∨ c = designator := by
  cases h with
  | absent => cases hc
  | present hdigits =>
      rcases List.mem_append.1 hc with hc | hc
      · exact Or.inl (hdigits.2 c hc)
      · exact Or.inr (List.mem_singleton.1 hc)

/-- The group takes its part from the front of a text. -/
theorem part_of_isoPart (designator : Char) (unit : TimeUnit) (source : List Char) :
    ∃ text, Part designator unit text (partItem (isoPart designator source).1 unit) ∧
      text ++ (isoPart designator source).2 = source := by
  unfold isoPart
  split
  · next digit digits c rest htake hdrop =>
      split_ifs with hc
      · refine ⟨digit :: digits ++ [designator], .present ⟨by simp, fun d hd => ?_⟩, ?_⟩
        · rw [← htake] at hd
          exact List.mem_takeWhile_imp hd
        · rw [← hc, List.append_assoc, List.singleton_append, ← htake, ← hdrop, List.takeWhile_append_dropWhile]
      · exact ⟨[], .absent, rfl⟩
  · exact ⟨[], .absent, rfl⟩

end

theorem TimePart.nextDesignator_ne {time : List Char} {items : List Item} (h : TimePart time items) {other : Char}
    (hne : 'T' ≠ other) : nextDesignator time ≠ some other := by
  cases h with
  | absent => exact nofun
  | present => exact fun heq => hne (Option.some.inj heq)

/-- The characters of the three parts of a time. -/
theorem TimePart.mem {time : List Char} {items : List Item} (h : TimePart time items) {c : Char} (hc : c ∈ time) :
    c.isDigit = true ∨ c ∈ ['T', 'H', 'M', 'S'] := by
  cases h with
  | absent => cases hc
  | present hhours hminutes hseconds =>
      simp only [List.mem_cons, List.mem_append] at hc
      rcases hc with rfl | hc | hc | hc
      · simp
      · exact (hhours.mem hc).imp_right fun h => by simp [h]
      · exact (hminutes.mem hc).imp_right fun h => by simp [h]
      · exact (hseconds.mem hc).imp_right fun h => by simp [h]

theorem iso8601Items_of_parts {years months days time : List Char} {ys ms ds ts : List Item}
    (hyears : Part 'Y' .years years ys) (hmonths : Part 'M' .months months ms) (hdays : Part 'D' .days days ds)
    (htime : TimePart time ts) :
    iso8601Items ('P' :: (years ++ (months ++ (days ++ time)))) = some (ys ++ (ms ++ (ds ++ ts))) := by
  -- no designator comes a second time, so a part that is absent is not found further behind
  have hnotD : nextDesignator time ≠ some 'D' := htime.nextDesignator_ne (by decide)
  have hnotM : nextDesignator (days ++ time) ≠ some 'M' :=
    hdays.nextDesignator_ne (by decide) (by decide) (htime.nextDesignator_ne (by decide))
  have hnotY : nextDesignator (months ++ (days ++ time)) ≠ some 'Y' :=
    hmonths.nextDesignator_ne (by decide) (by decide)
      (hdays.nextDesignator_ne (by decide) (by decide) (htime.nextDesignator_ne (by decide)))
  obtain ⟨y, hy, rfl⟩ := hyears.isoPart_eq (by decide) hnotY
  obtain ⟨m, hm, rfl⟩ := hmonths.isoPart_eq (by decide) hnotM
  obtain ⟨d, hd, rfl⟩ := hdays.isoPart_eq (by decide) hnotD
  simp only [iso8601Items, List.tail_cons, hy, hm, hd]
  cases htime with
  | absent => rfl
  | @present hours minutes seconds hs mins ss hhours hminutes hseconds =>
      have hend (other : Char) : nextDesignator [] ≠ some other := (Option.some_ne_none other).symm
      have hnotMin : nextDesignator (seconds ++ []) ≠ some 'M' :=
        hseconds.nextDesignator_ne (by decide) (by decide) (hend 'M')
      have hnotH : nextDesignator (minutes ++ (seconds ++ [])) ≠ some 'H' :=
        hminutes.nextDesignator_ne (by decide) (by decide)
          (hseconds.nextDesignator_ne (by decide) (by decide) (hend 'H'))
      obtain ⟨h, hh, rfl⟩ := hhours.isoPart_eq (by decide) hnotH
      obtain ⟨mi, hmi, rfl⟩ := hminutes.isoPart_eq (by decide) hnotMin
      obtain ⟨s, hs, rfl⟩ := hseconds.isoPart_eq (by decide) (hend 'S')
      rw [List.append_nil] at hh hmi hs
      simp [isoTime, hh, hmi, hs]

/-- The groups of the time take its parts from a text that they use up. -/
theorem timePart_of_isoPart (time : List Char)
    (hrest : (if time.head? = some 'T' then
      (isoPart 'S' (isoPart 'M' (isoPart 'H' (isoTime time)).2).2).2 else time) = []) :
    TimePart time (partItem (isoPart 'H' (isoTime time)).1 .hours ++
      (partItem (isoPart 'M' (isoPart 'H' (isoTime time)).2).1 .minutes ++
        partItem (isoPart 'S' (isoPart 'M' (isoPart 'H' (isoTime time)).2).2).1 .seconds)) := by
  by_cases hT : time.head? = some 'T'
  · obtain ⟨t, rfl⟩ := List.head?_eq_some_iff.1 hT
    rw [if_pos hT, isoTime] at hrest
    rw [isoTime]
    obtain ⟨hours, hhours, hh⟩ := part_of_isoPart 'H' .hours t
    obtain ⟨minutes, hminutes, hmi⟩ := part_of_isoPart 'M' .minutes (isoPart 'H' t).2
    obtain ⟨seconds, hseconds, hs⟩ := part_of_isoPart 'S' .seconds (isoPart 'M' (isoPart 'H' t).2).2
    rw [hrest, List.append_nil] at hs
    have hpresent := TimePart.present hhours hminutes hseconds
    rwa [hs, hmi, hh] at hpresent
  · rw [if_neg hT] at hrest
    subst hrest
    exact .absent

theorem form_of_iso8601Items {source : List Char} {items : List Item} (hP : source.head? = some 'P')
    (h : iso8601Items source = some items) : Form source items := by
  obtain ⟨tail, rfl⟩ := List.head?_eq_some_iff.1 hP
  simp only [iso8601Items, List.tail_cons] at h
  rcases ite_eq_iff.1 h with ⟨-, h⟩ | ⟨hrest, h⟩
  · cases h
  · obtain ⟨years, hyears, hy⟩ := part_of_isoPart 'Y' .years tail
    obtain ⟨months, hmonths, hm⟩ := part_of_isoPart 'M' .months (isoPart 'Y' tail).2
    obtain ⟨days, hdays, hd⟩ := part_of_isoPart 'D' .days (isoPart 'M' (isoPart 'Y' tail).2).2
    have htime := timePart_of_isoPart _ (not_not.1 hrest)
    have hform := Form.iso8601 hyears hmonths hdays htime
    rw [hd, hm, hy] at hform
    rwa [Option.some.inj h] at hform

/-- The characters of the first form, behind the `P`. -/
theorem mem_iso8601 {years months days time : List Char} {ys ms ds ts : List Item}
    (hyears : Part 'Y' .years years ys) (hmonths : Part 'M' .months months ms) (hdays : Part 'D' .days days ds)
    (htime : TimePart time ts) {c : Char} (hc : c ∈ 'P' :: (years ++ (months ++ (days ++ time)))) :
    c.isDigit = true ∨ c ∈ ['P', 'Y', 'M', 'D', 'T', 'H', 'S'] := by
  simp only [List.mem_cons, List.mem_append] at hc
  rcases hc with rfl | hc | hc | hc | hc
  · simp
  · exact (hyears.mem hc).imp_right fun h => by simp [h]
  · exact (hmonths.mem hc).imp_right fun h => by simp [h]
  · exact (hdays.mem hc).imp_right fun h => by simp [h]
  · refine (htime.mem hc).imp_right fun h => ?_
    simp only [List.mem_cons] at h ⊢
    tauto

/-! ### The forms and what is read -/

/-- The items of a form are those that are read, and nothing is skipped. -/
theorem Form.readItems_eq {source : List Char} {items : List Item} (h : Form source items) :
    readItems source = some items ∧ NothingSkipped source := by
  cases h with
  | standard h =>
      have hP : source.head? ≠ some 'P' := fun hP => absurd (h.startsNumber _ hP) (by decide)
      obtain ⟨hitems, htext⟩ := (itemSequence_iff _ _).1 h
      exact ⟨by rw [readItems, if_neg hP, hitems], Or.inr htext⟩
  | @iso8601 years months days time _ _ _ _ hyears hmonths hdays htime =>
      have hmem := fun c => mem_iso8601 hyears hmonths hdays htime (c := c)
      have hW : ('P' :: (years ++ (months ++ (days ++ time)))).getLast? ≠ some 'W' :=
        fun hW => absurd (hmem 'W' (List.mem_of_getLast? hW)) (by decide)
      have hminus : ('P' :: (years ++ (months ++ (days ++ time)))).contains '-' = false := by
        rw [← Bool.not_eq_true, List.contains_iff_mem]
        exact fun hminus => absurd (hmem '-' hminus) (by decide)
      refine ⟨?_, Or.inl rfl⟩
      rw [readItems, if_pos List.head?_cons, if_neg hW, hminus]
      exact iso8601Items_of_parts hyears hmonths hdays htime
  | @iso8601Week digits hdigits =>
      have hW : ('P' :: (digits ++ ['W'])).getLast? = some 'W' :=
        List.getLast?_concat (l := 'P' :: digits)
      refine ⟨?_, Or.inl rfl⟩
      rw [readItems, if_pos List.head?_cons, if_pos hW]
      have hpart : isoPart 'W' (digits ++ ['W']) = (some digits, []) := isoPart_present hdigits (by decide)
      simp [iso8601WeekItems, hpart]
  | @iso8601Alternative years months days hours minutes seconds hdigits =>
      have hparts := (alternateParts_eq_some_iff _ _).2 ⟨_, _, _, _, _, _, hdigits, rfl, rfl⟩
      have hW : 'W' ∉ 'P' :: (years ++ '-' :: (months ++ '-' :: (days ++ 'T' :: (hours ++ ':' ::
          (minutes ++ ':' :: seconds))))) := by
        obtain ⟨hy, hmo, hd, hh, hmi, hs⟩ := hdigits
        have hnot {n : ℕ} {text : List Char} (h : Digits n text) : 'W' ∉ text :=
          fun hW => absurd (h.2 'W' hW) (by decide)
        simp [hnot hy, hnot hmo, hnot hd, hnot hh, hnot hmi, hnot hs]
      refine ⟨?_, Or.inl rfl⟩
      rw [readItems, if_pos List.head?_cons, if_neg fun h => hW (List.mem_of_getLast? h), if_pos (by simp),
        iso8601AlternativeItems, hparts]
      rfl

theorem Form.head?_ne {source : List Char} {items : List Item} (h : Form source items) :
    source.head? ≠ some '-' := by
  cases h with
  | standard h => exact fun hminus => absurd (h.startsNumber _ hminus) (by decide)
  | iso8601 | iso8601Week | iso8601Alternative => exact fun hminus => absurd (Option.some.inj hminus) (by decide)

theorem form_of_readItems {source : List Char} {items : List Item} (h : readItems source = some items)
    (hnothing : NothingSkipped source) : Form source items := by
  unfold readItems at h
  by_cases hP : source.head? = some 'P'
  · rw [if_pos hP] at h
    split_ifs at h
    · obtain ⟨tail, rfl⟩ := List.head?_eq_some_iff.1 hP
      simp only [iso8601WeekItems, List.tail_cons] at h
      rcases ite_eq_iff.1 h with ⟨-, h⟩ | ⟨hrest, h⟩
      · cases h
      · obtain ⟨digits, hdigits, rfl⟩ := Option.map_eq_some_iff.1 h
        obtain ⟨text, hpart, htext⟩ := part_of_isoPart 'W' .weeks tail
        rw [not_not.1 hrest, List.append_nil] at htext
        subst htext
        rw [hdigits] at hpart
        cases hpart with
        | present hnumber => exact .iso8601Week hnumber
    · obtain ⟨parts, hparts, rfl⟩ := Option.map_eq_some_iff.1 h
      obtain ⟨_, _, _, _, _, _, hdigits, rfl, rfl⟩ := (alternateParts_eq_some_iff _ _).1 hparts
      exact .iso8601Alternative hdigits
    · exact form_of_iso8601Items hP h
  · rw [if_neg hP] at h
    exact .standard ((itemSequence_iff _ _).2 ⟨h, hnothing.resolve_left hP⟩)

/-- A text is of a form exactly if its items are read without a part being skipped. -/
theorem form_iff (source : List Char) (items : List Item) :
    Form source items ↔ readItems source = some items ∧ NothingSkipped source :=
  ⟨Form.readItems_eq, fun h => form_of_readItems h.1 h.2⟩

/-! ### What is accepted -/

theorem grammar_iff (input : List Char) :
    Grammar input ↔ ∃ items, readItems (unsigned input) = some items ∧ NothingSkipped (unsigned input) ∧
      Ordered items ∧ InRange items := by
  constructor
  · rintro ⟨source, items, hinput, hform, hordered, hrange⟩
    have hsource : unsigned input = source := by
      rcases hinput with rfl | rfl
      · exact if_neg hform.head?_ne
      · exact if_pos rfl
    rw [hsource]
    exact ⟨items, hform.readItems_eq.1, hform.readItems_eq.2, hordered, hrange⟩
  · rintro ⟨items, hitems, hnothing, hordered, hrange⟩
    refine ⟨unsigned input, items, ?_, form_of_readItems hitems hnothing, hordered, hrange⟩
    unfold unsigned
    split_ifs with hminus
    · obtain ⟨tail, rfl⟩ := List.head?_eq_some_iff.1 hminus
      exact Or.inr rfl
    · exact Or.inl rfl

theorem accepts_iff (input : List Char) :
    (∃ d, fromString input = .ok d) ↔ ∃ items, readItems (unsigned input) = some items ∧ Takes items := by
  simp only [fromString_eq_ok_iff, ofItems_eq_ok_iff]
  constructor
  · rintro ⟨d, items, hitems, htakes, -⟩
    exact ⟨items, hitems, htakes⟩
  · rintro ⟨items, hitems, htakes⟩
    exact ⟨_, items, hitems, htakes, rfl⟩

/-- The builder takes the items exactly if they are in range, when no number wraps. -/
theorem takes_iff {items : List Item} (hfit : LongsFit items) : Takes items ↔ Ordered items ∧ InRange items := by
  have hroom := roomForAll_iff (n := 0) (by norm_num) hfit
  rw [Nat.zero_add] at hroom
  constructor
  · intro h
    exact ⟨h.ordered, h.months, h.days, Nat.le_of_lt_succ (hroom.1 h.room)⟩
  · rintro ⟨hordered, hrange⟩
    exact ⟨hordered, hrange.months, hrange.days, hroom.2 (Nat.lt_succ_of_le hrange.nanoseconds)⟩

/-- `fromString` meets the grammar on a text unless the builder takes what the scan finds although text has been
skipped or a number has wrapped. -/
theorem accepts_iff_grammar_iff (input : List Char) :
    ((∃ d, fromString input = .ok d) ↔ Grammar input) ↔
      ∀ items, readItems (unsigned input) = some items → Takes items →
        NothingSkipped (unsigned input) ∧ LongsFit items := by
  rw [accepts_iff, grammar_iff]
  constructor
  · intro h items hitems htakes
    obtain ⟨items', hitems', hnothing, -, hrange⟩ := h.1 ⟨items, hitems, htakes⟩
    obtain rfl : items = items' := Option.some.inj (hitems.symm.trans hitems')
    exact ⟨hnothing, longsFit_of_total_lt (Nat.lt_succ_of_le hrange.nanoseconds)⟩
  · intro h
    constructor
    · rintro ⟨items, hitems, htakes⟩
      obtain ⟨hnothing, hfit⟩ := h items hitems htakes
      exact ⟨items, hitems, hnothing, (takes_iff hfit).1 htakes⟩
    · rintro ⟨items, hitems, -, hordered, hrange⟩
      have hfit := longsFit_of_total_lt (Nat.lt_succ_of_le hrange.nanoseconds)
      exact ⟨items, hitems, (takes_iff hfit).2 ⟨hordered, hrange⟩⟩

/-- `1.5h` is read as five hours. -/
theorem not_accepts_iff_grammar_decimal : ¬ ∀ input : List Char, (∃ d, fromString input = .ok d) ↔ Grammar input := by
  intro hall
  have hread : fromString ['1', '.', '5', 'h'] = .ok ⟨0, 0, 18000000000000, by decide⟩ :=
    eq_ok_of_toOption (by decide +kernel)
  obtain ⟨-, -, hnothing, -⟩ := (grammar_iff _).1 ((hall ['1', '.', '5', 'h']).1 ⟨_, hread⟩)
  exact absurd hnothing (by decide +kernel)

end CqlDriver.Duration
