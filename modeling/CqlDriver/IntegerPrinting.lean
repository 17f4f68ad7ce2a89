import CqlDriver.BigDecimalText
import CqlDriver.IntegerDivision
import CqlDriver.Lib.Numerals

/-! # Printing arbitrary-precision integers (`toString` of `lib/types/integer.js`)

`toString` takes six digits at a time off the integer by dividing it by a power of the radix, and prints them as the
number in the lowest word of the remainder.  The word is signed: in radix 36 six digits may be `2 ^ 31` or more, and are
printed as a negative number.  Otherwise the text is the numeral of the integer, which `fromString` reads back
(`toString_iff`, `fromString_printed`); an integer of more than 1024 bits is never printed (`not_prints`). -/

namespace CqlDriver.Integer

open Numerals

/-! ### The operation -/

/-- `toInt` -/
def toInt (this : Integer) : BitVec 32 := this.bits.headD (signWord this.negative)

/-- The loop of `toString`, of which every pass and its division have the fuel that is left. -/
def printLoop (log : BinaryLogarithm) (radix : ℕ) : ℕ → Integer → List Char → Option (Except String (List Char))
  | 0, _, _ => none
  | fuel + 1, rem, result =>
      let radixToPower := fromNumber (some (radix ^ 6 : ℕ))
      match divide log fuel rem radixToPower with
      | none => none
      | some (.error error) => some (.error error)
      | some (.ok remDiv) =>
          let digits := intText radix (rem.subtract (remDiv.multiply radixToPower)).toInt.toInt
          if remDiv.isZero then some (.ok (digits ++ result))
          else printLoop log radix fuel remDiv (padTo 6 digits ++ result)

def toString (log : BinaryLogarithm) (fuel : ℕ) (this : Integer) (optRadix : Option ℤ) :
    Option (Except String (List Char)) :=
  let radix := radixOf optRadix
  if radix < 2 ∨ 36 < radix then some (.error (FormatError.radixRange radix).text)
  else if this.isZero then some (.ok ['0'])
  else if this.negative then (toString log fuel this.negate (some radix)).map (·.map ('-' :: ·))
  else printLoop log radix.toNat fuel this []
termination_by this.negative.toNat
decreasing_by simp_all [negative_negate]

/-- Some fuel is enough to print the text. -/
def Prints (log : BinaryLogarithm) (this : Integer) (optRadix : Option ℤ) (text : List Char) : Prop :=
  ∃ fuel, toString log fuel this optRadix = some (.ok text)

/-! ### What the loop prints -/

/-- Six digits as they are printed, the word that they are in being signed. -/
def chunkText (radix v : ℕ) : List Char := intText radix (BitVec.ofNat 32 v).toInt

/-- What is printed for a number that is not negative. -/
def chunksText (radix : ℕ) (v : ℕ) : List Char :=
  if h : radix < 2 ∨ v < radix ^ 6 then chunkText radix v
  else chunksText radix (v / radix ^ 6) ++ padTo 6 (chunkText radix (v % radix ^ 6))
termination_by v
decreasing_by
  rw [not_or, not_lt, not_lt] at h
  have hpow : 1 < radix ^ 6 := Nat.one_lt_pow (by decide) h.1
  exact Nat.div_lt_self (by omega) hpow

theorem chunksText_of_lt {radix v : ℕ} (h : v < radix ^ 6) : chunksText radix v = chunkText radix v := by
  rw [chunksText, dif_pos (.inr h)]

theorem chunksText_of_le {radix v : ℕ} (hradix : 2 ≤ radix) (h : radix ^ 6 ≤ v) :
    chunksText radix v = chunksText radix (v / radix ^ 6) ++ padTo 6 (chunkText radix (v % radix ^ 6)) := by
  rw [chunksText, dif_neg (by omega)]

theorem toInt_eq {n : Integer} {v : ℕ} (h : n.value = v) : n.toInt = BitVec.ofNat 32 v := by
  have hbits : n.toInt = n.getBits 0 := by
    rw [toInt, getBits]
    cases n.bits <;> rfl
  apply BitVec.eq_of_toNat_eq
  rw [hbits, toNat_getBits h 0, mul_zero, pow_zero, Nat.div_one, BitVec.toNat_ofNat]

theorem noFullHalf_pow {radix : ℕ} (hradix : radix ≤ 36) : NoFullHalf (radix ^ 6) := by
  intro i
  have := smallDigits_pow hradix (by decide : 6 ≤ 8) i
  omega

section
variable (log : BinaryLogarithm) {radix : ℕ}

/-- A pass divides by the power of the radix, with any fuel that is large enough. -/
theorem exists_pass (hradix : 2 ≤ radix ∧ radix ≤ 36) {rem : Integer} {v : ℕ} (h : rem.value = v) (hlt : v < 2 ^ 1023) :
    ∃ enough remDiv, (∀ fuel ≥ enough, divide log fuel rem (fromNumber (some (radix ^ 6 : ℕ))) = some (.ok remDiv)) ∧
      remDiv.value = (v / radix ^ 6 : ℕ) ∧
      (rem.subtract (remDiv.multiply (fromNumber (some (radix ^ 6 : ℕ))))).value = (v % radix ^ 6 : ℕ) := by
  have hvalue := value_fromNumber (radix ^ 6)
  have hpow : ((radix ^ 6 : ℕ) : ℤ) ≠ 0 := Nat.cast_ne_zero.2 (pow_ne_zero 6 (by omega))
  obtain ⟨enough, remDiv, hdivide, hquotient⟩ := exists_divide log (show rem.value.natAbs < 2 ^ 1023 by
    rwa [h, Int.natAbs_natCast]) (show (fromNumber (some (radix ^ 6 : ℕ))).value ≠ 0 by rwa [hvalue])
    (by rw [hvalue, Int.natAbs_natCast]; exact noFullHalf_pow hradix.2)
  rw [h, hvalue, ← Int.ofNat_tdiv] at hquotient
  refine ⟨enough, remDiv, fun fuel hfuel => divide_mono log hfuel hdivide, hquotient, ?_⟩
  rw [value_subtract, value_multiply_pow remDiv hradix.2 (by decide), h, hquotient]
  rw [← Nat.cast_pow, sub_eq_iff_eq_add, ← Nat.cast_mul, ← Nat.cast_add, mul_comm, Nat.mod_add_div]

theorem exists_printLoop (hradix : 2 ≤ radix ∧ radix ≤ 36) {rem : Integer} {v : ℕ} (h : rem.value = v)
    (hlt : v < 2 ^ 1023) (result : List Char) :
    ∃ enough, ∀ fuel ≥ enough, printLoop log radix fuel rem result = some (.ok (chunksText radix v ++ result)) := by
  induction v using Nat.strong_induction_on generalizing rem result with
  | _ v ih =>
      have hpow : 1 < radix ^ 6 := Nat.one_lt_pow (by decide) hradix.1
      obtain ⟨enough, remDiv, hdivide, hquotient, hrest⟩ := exists_pass log hradix h hlt
      have hpass (fuel : ℕ) (hfuel : fuel ≥ enough) : printLoop log radix (fuel + 1) rem result =
          if remDiv.isZero then some (.ok (chunkText radix (v % radix ^ 6) ++ result))
          else printLoop log radix fuel remDiv (padTo 6 (chunkText radix (v % radix ^ 6)) ++ result) := by
        rw [printLoop]
        simp only [hdivide fuel hfuel, toInt_eq hrest]
        rfl
      rcases Nat.lt_or_ge v (radix ^ 6) with hsmall | hlarge
      · refine ⟨enough + 1, fun fuel hfuel => ?_⟩
        obtain ⟨k, rfl⟩ : ∃ k : ℕ, fuel = k + 1 := ⟨fuel - 1, by omega⟩
        have hzero : remDiv.isZero = true := (isZero_iff remDiv).2 (by rw [hquotient, Nat.div_eq_of_lt hsmall]; rfl)
        rw [hpass k (by omega), if_pos hzero, Nat.mod_eq_of_lt hsmall, chunksText_of_lt hsmall]
      · have hnext := Nat.div_pos hlarge (by omega)
        obtain ⟨more, hmore⟩ := ih (v / radix ^ 6) (Nat.div_lt_self (by omega) hpow) hquotient
          ((Nat.div_le_self _ _).trans_lt hlt) (padTo 6 (chunkText radix (v % radix ^ 6)) ++ result)
        refine ⟨max enough more + 1, fun fuel hfuel => ?_⟩
        obtain ⟨k, rfl⟩ : ∃ k : ℕ, fuel = k + 1 := ⟨fuel - 1, by omega⟩
        have hzero : ¬ remDiv.isZero = true := by
          rw [isZero_iff, hquotient]
          exact Nat.cast_ne_zero.2 hnext.ne'
        rw [hpass k (by omega), if_neg hzero, hmore k (by omega), chunksText_of_le hradix.1 hlarge,
          List.append_assoc]

end

/-! ### When the text is the numeral -/

/-- No six digits make `2 ^ 31` or more. -/
def SmallChunks (radix v : ℕ) : Prop := ∀ i, v / radix ^ (6 * i) % radix ^ 6 < 2 ^ 31

theorem smallChunks_iff {radix : ℕ} (v : ℕ) :
    SmallChunks radix v ↔ v % radix ^ 6 < 2 ^ 31 ∧ SmallChunks radix (v / radix ^ 6) := by
  have hshift (i : ℕ) : v / radix ^ 6 / radix ^ (6 * i) = v / radix ^ (6 * (i + 1)) := by
    rw [Nat.div_div_eq_div_mul, ← pow_add, Nat.mul_succ, Nat.add_comm]
  constructor
  · refine fun h => ⟨by simpa using h 0, fun i => ?_⟩
    rw [hshift]
    exact h (i + 1)
  · rintro ⟨hlast, h⟩ (_ | i)
    · simpa using hlast
    · rw [← hshift]
      exact h i

theorem smallChunks_of_le {radix : ℕ} (hradix : 0 < radix ∧ radix ≤ 35) (v : ℕ) : SmallChunks radix v := by
  intro i
  have hpow : radix ^ 6 ≤ 35 ^ 6 := Nat.pow_le_pow_left hradix.2 6
  exact (Nat.mod_lt _ (Nat.pow_pos hradix.1)).trans (by omega)

theorem chunkText_of_lt (radix : ℕ) {v : ℕ} (h : v < 2 ^ 31) : chunkText radix v = text radix v := by
  have hvalue : (BitVec.ofNat 32 v).toInt = v := by
    rw [BitVec.toInt_eq_toNat_bmod, BitVec.toNat_ofNat, Nat.mod_eq_of_lt (by omega), Int.bmod_def]
    omega
  rw [chunkText, hvalue, intText, if_neg (by omega), Int.natAbs_natCast]

theorem dash_mem_chunkText (radix : ℕ) {v : ℕ} (hle : 2 ^ 31 ≤ v) (hlt : v < 2 ^ 32) : '-' ∈ chunkText radix v := by
  have hneg : (BitVec.ofNat 32 v).toInt < 0 := by
    rw [BitVec.toInt_eq_toNat_bmod, BitVec.toNat_ofNat, Nat.mod_eq_of_lt hlt, Int.bmod_def]
    omega
  rw [chunkText, intText, if_pos hneg]
  exact List.mem_cons_self ..

theorem dash_not_mem_text {radix : ℕ} (hradix : 2 ≤ radix ∧ radix ≤ 36) (v : ℕ) : '-' ∉ text radix v := fun h =>
  absurd (Digits.range_of_digitOf (numeric_text hradix v _ h)) (by decide)

/-- The text is the numeral just when no six digits are taken for a negative number. -/
theorem chunksText_iff {radix : ℕ} (hradix : 2 ≤ radix ∧ radix ≤ 36) (v : ℕ) :
    chunksText radix v = text radix v ↔ SmallChunks radix v := by
  have hpow : radix ^ 6 ≤ 36 ^ 6 := Nat.pow_le_pow_left hradix.2 6
  have hpos : 0 < radix ^ 6 := Nat.pow_pos (by omega)
  have hboth : (SmallChunks radix v → chunksText radix v = text radix v) ∧
      (¬ SmallChunks radix v → '-' ∈ chunksText radix v) := by
    induction v using Nat.strong_induction_on with
    | _ v ih =>
        rw [smallChunks_iff]
        rcases Nat.lt_or_ge v (radix ^ 6) with hsmall | hlarge
        · have hzero : SmallChunks radix 0 := fun i => by simp
          rw [chunksText_of_lt hsmall, Nat.mod_eq_of_lt hsmall, Nat.div_eq_of_lt hsmall, and_iff_left hzero]
          exact ⟨chunkText_of_lt radix, fun h => dash_mem_chunkText radix (not_lt.1 h) (by omega)⟩
        · have hmod : v % radix ^ 6 < radix ^ 6 := Nat.mod_lt v hpos
          obtain ⟨hsmall, hlarge'⟩ := ih (v / radix ^ 6)
            (Nat.div_lt_self (by omega) (Nat.one_lt_pow (by decide) hradix.1))
          rw [chunksText_of_le hradix.1 hlarge, List.mem_append]
          refine ⟨fun h => ?_, fun h => ?_⟩
          · rw [hsmall h.2, chunkText_of_lt radix h.1, ← text_eq_append hradix.1 (by decide) hlarge]
          · rcases not_and_or.1 h with hlast | hfront
            · have hdash := dash_mem_chunkText radix (not_lt.1 hlast) (by omega)
              exact .inr (List.mem_append_right _ hdash)
            · exact .inl (hlarge' hfront)
  refine ⟨fun heq => ?_, hboth.1⟩
  by_contra hlarge
  exact dash_not_mem_text hradix v (heq ▸ hboth.2 hlarge)

/-! ### Printing and reading -/

/-- What is printed for an integer. -/
def signedChunks (radix : ℕ) (v : ℤ) : List Char :=
  if v < 0 then '-' :: chunksText radix v.natAbs else chunksText radix v.natAbs

theorem toString_eq (log : BinaryLogarithm) (fuel : ℕ) {radix : ℕ} (hradix : 2 ≤ radix ∧ radix ≤ 36) {n : Integer}
    (hzero : n.isZero = false) (hneg : n.negative = false) :
    toString log fuel n (some radix) = printLoop log radix fuel n [] := by
  rw [toString, radixOf_natCast hradix.1]
  simp only [hzero, hneg, Bool.false_eq_true, if_false, Int.toNat_natCast]
  rw [if_neg (by omega)]

theorem toString_of_neg (log : BinaryLogarithm) (fuel : ℕ) {radix : ℕ} (hradix : 2 ≤ radix ∧ radix ≤ 36) {n : Integer}
    (hneg : n.negative = true) :
    toString log fuel n (some radix) = (toString log fuel n.negate (some radix)).map (·.map ('-' :: ·)) := by
  have hzero : n.isZero = false := by
    rw [Bool.eq_false_iff, ne_eq, isZero_iff]
    exact (value_neg hneg).ne
  rw [toString, radixOf_natCast hradix.1]
  simp only [hzero, hneg, Bool.false_eq_true, if_false, if_true]
  rw [if_neg (by omega)]

theorem prints_of_nonneg (log : BinaryLogarithm) {radix : ℕ} (hradix : 2 ≤ radix ∧ radix ≤ 36) {n : Integer} {v : ℕ}
    (hvalue : n.value = v) (hlt : v < 2 ^ 1023) : Prints log n (some radix) (chunksText radix v) := by
  cases hzero : n.isZero with
  | true =>
      obtain rfl : v = 0 := by
        have := (isZero_iff n).1 hzero
        omega
      refine ⟨0, ?_⟩
      rw [toString, radixOf_natCast hradix.1, if_pos hzero, if_neg (by omega),
        chunksText_of_lt (Nat.pow_pos (by omega)), chunkText_of_lt radix (by decide)]
      rfl
  | false =>
      obtain ⟨enough, hprint⟩ := exists_printLoop log hradix hvalue hlt []
      refine ⟨enough, ?_⟩
      rw [toString_eq log enough hradix hzero (negative_eq_false (by omega)), hprint enough le_rfl, List.append_nil]

theorem prints_signedChunks (log : BinaryLogarithm) {radix : ℕ} (hradix : 2 ≤ radix ∧ radix ≤ 36) {n : Integer}
    (hlt : n.value.natAbs < 2 ^ 1023) : Prints log n (some radix) (signedChunks radix n.value) := by
  rw [signedChunks]
  split_ifs with hneg
  · obtain ⟨fuel, hprint⟩ := prints_of_nonneg log hradix (n := n.negate) (v := n.value.natAbs)
      (by rw [value_negate]; omega) hlt
    refine ⟨fuel, ?_⟩
    rw [toString_of_neg log fuel hradix ((negative_iff n).2 hneg), hprint]
    rfl
  · exact prints_of_nonneg log hradix (by omega) hlt

theorem printLoop_mono {log : BinaryLogarithm} {radix fuel more : ℕ} {rem : Integer} {result : List Char}
    {printed : Except String (List Char)} (hle : fuel ≤ more) (h : printLoop log radix fuel rem result = some printed) :
    printLoop log radix more rem result = some printed := by
  induction fuel generalizing more rem result with
  | zero => simp only [printLoop, reduceCtorEq] at h
  | succ fuel ih =>
      obtain ⟨k, rfl⟩ : ∃ k : ℕ, more = k + 1 := ⟨more - 1, by omega⟩
      rw [printLoop] at h ⊢
      cases hdivide : divide log fuel rem (fromNumber (some (radix ^ 6 : ℕ))) with
      | none => simp only [hdivide, reduceCtorEq] at h
      | some quotient =>
          simp only [hdivide] at h
          simp only [divide_mono log (by omega : fuel ≤ k) hdivide]
          cases quotient with
          | error error => exact h
          | ok remDiv =>
              simp only at h ⊢
              split_ifs at h ⊢ with hzero
              · exact h
              · exact ih (by omega) h

theorem toString_mono {log : BinaryLogarithm} {fuel more : ℕ} {n : Integer} {optRadix : Option ℤ}
    {printed : Except String (List Char)} (hle : fuel ≤ more) (h : toString log fuel n optRadix = some printed) :
    toString log more n optRadix = some printed := by
  have hpos (n : Integer) (hneg : n.negative = false) (optRadix : Option ℤ) (printed : Except String (List Char))
      (h : toString log fuel n optRadix = some printed) : toString log more n optRadix = some printed := by
    rw [toString] at h ⊢
    simp only [hneg, Bool.false_eq_true, if_false] at h ⊢
    split_ifs at h ⊢ with hradix hzero
    · exact h
    · exact h
    · exact printLoop_mono hle h
  cases hneg : n.negative with
  | false => exact hpos n hneg optRadix printed h
  | true =>
      rw [toString] at h ⊢
      simp only [hneg, if_true] at h ⊢
      split_ifs at h ⊢ with hradix hzero
      · exact h
      · exact h
      · rw [Option.map_eq_some_iff] at h ⊢
        obtain ⟨digits, hdigits, hprinted⟩ := h
        exact ⟨digits, hpos _ (negative_negate hneg) _ _ hdigits, hprinted⟩

theorem Prints.unique {log : BinaryLogarithm} {n : Integer} {optRadix : Option ℤ} {text other : List Char}
    (h : Prints log n optRadix text) (h' : Prints log n optRadix other) : text = other := by
  obtain ⟨fuel, hprint⟩ := h
  obtain ⟨fuel', hprint'⟩ := h'
  have hmore := toString_mono (le_max_left fuel fuel') hprint
  rw [toString_mono (le_max_right fuel fuel') hprint', Option.some.injEq, Except.ok.injEq] at hmore
  exact hmore.symm

theorem signedChunks_iff {radix : ℕ} (hradix : 2 ≤ radix ∧ radix ≤ 36) (v : ℤ) :
    signedChunks radix v = intText radix v ↔ SmallChunks radix v.natAbs := by
  rw [← chunksText_iff hradix, signedChunks, intText]
  split_ifs
  · rw [List.cons.injEq, and_iff_right rfl]
  · rfl

/-- An integer of up to 1023 bits is printed, and as its numeral just when no six digits are `2 ^ 31` or more. -/
theorem toString_iff (log : BinaryLogarithm) {radix : ℕ} (hradix : 2 ≤ radix ∧ radix ≤ 36) {n : Integer}
    (hlt : n.value.natAbs < 2 ^ 1023) :
    (∃ digits, Prints log n (some radix) digits) ∧
      (Prints log n (some radix) (intText radix n.value) ↔ SmallChunks radix n.value.natAbs) := by
  have hprints := prints_signedChunks log hradix hlt
  refine ⟨⟨_, hprints⟩, ?_⟩
  rw [← signedChunks_iff hradix]
  constructor
  · exact fun h => hprints.unique h
  · exact fun h => h ▸ hprints

/-- `2 ^ 31`, which has six digits in radix 36. -/
theorem toString_iff_thirtySix :
    (∃ digits, Prints .exact (fromNumber (some (2 ^ 31 : ℕ))) (some (36 : ℕ)) digits) ∧
      ¬ Prints .exact (fromNumber (some (2 ^ 31 : ℕ))) (some (36 : ℕ))
        (intText 36 (fromNumber (some (2 ^ 31 : ℕ))).value) := by
  have hlt : (fromNumber (some (2 ^ 31 : ℕ))).value.natAbs < 2 ^ 1023 := by
    rw [value_fromNumber, Int.natAbs_natCast]
    exact pow_lt_pow_right₀ one_lt_two (by decide : 31 < 1023)
  obtain ⟨hprints, hiff⟩ := toString_iff .exact (show 2 ≤ 36 ∧ 36 ≤ 36 by decide) hlt
  refine ⟨hprints, fun h => ?_⟩
  have hfirst := hiff.1 h 0
  rw [value_fromNumber, Int.natAbs_natCast] at hfirst
  exact absurd hfirst (by decide)

/-- In a radix below 36 `fromString` reads back what `toString` prints. -/
theorem fromString_printed (log : BinaryLogarithm) {radix : ℕ} (hradix : 2 ≤ radix ∧ radix ≤ 35) {n : Integer}
    (hlt : n.value.natAbs < 2 ^ 1023) :
    ∃ text, Prints log n (some radix) text ∧ fromString text (some radix) = .ok n := by
  have hradix' : 2 ≤ radix ∧ radix ≤ 36 := ⟨hradix.1, by omega⟩
  have hchunks := smallChunks_of_le ⟨by omega, hradix.2⟩ n.value.natAbs
  refine ⟨signedChunks radix n.value, prints_signedChunks log hradix' hlt, ?_⟩
  obtain ⟨m, hread, hvalue⟩ := value_fromString hradix' (decide (n.value < 0)) (text_ne_nil hradix.1 n.value.natAbs)
    (numeric_text hradix' n.value.natAbs)
  have htext : signedChunks radix n.value =
      if decide (n.value < 0) then '-' :: text radix n.value.natAbs else text radix n.value.natAbs := by
    rw [signedChunks, (chunksText_iff hradix' _).2 hchunks]
    simp only [decide_eq_true_eq]
  rw [htext, hread, eq_of_value_eq (a := m) (b := n)]
  rw [hvalue, numeralFrom_text hradix']
  simp only [decide_eq_true_eq]
  split_ifs <;> omega

theorem fromString_printed_hex : ∃ text, Prints .exact exampleInteger (some (16 : ℕ)) text ∧
    fromString text (some (16 : ℕ)) = .ok exampleInteger := by
  refine fromString_printed .exact (by decide) ?_
  rw [exampleInteger, value_fromNumber, Int.natAbs_natCast]
  exact (by decide : 123456789012345678901234567890 < 2 ^ 100).trans_le
    (pow_le_pow_right₀ one_le_two (by decide : 100 ≤ 1023))

/-- Without a radix the decimal digits are printed. -/
theorem prints_decimalDigits (log : BinaryLogarithm) {n : Integer} (hlt : n.value.natAbs < 2 ^ 1023) :
    Prints log n none (decimalDigits n.value) := by
  have hdefault (fuel : ℕ) (m : Integer) : toString log fuel m none = toString log fuel m (some (10 : ℕ)) := by
    rw [toString.eq_def log fuel m none, toString.eq_def log fuel m (some (10 : ℕ))]
    rfl
  obtain ⟨fuel, hprint⟩ := prints_signedChunks log (show 2 ≤ 10 ∧ 10 ≤ 36 by decide) hlt
  refine ⟨fuel, ?_⟩
  rw [hdefault, hprint, (signedChunks_iff (by decide) _).2 (smallChunks_of_le (by decide) _), intText,
    decimalDigits, text_ten]
  split_ifs <;> rfl

theorem toString_eq_none (log : BinaryLogarithm) {radix : ℕ} (hradix : 2 ≤ radix ∧ radix ≤ 36) {n : Integer}
    (hge : 2 ^ 1024 ≤ n.value) (fuel : ℕ) : toString log fuel n (some radix) = none := by
  have hpos : 0 < n.value := (pow_pos (by decide) 1024).trans_le hge
  have hneg := negative_eq_false hpos.le
  have hzero : n.isZero = false := by
    rw [Bool.eq_false_iff, ne_eq, isZero_iff]
    exact hpos.ne'
  have hvalue := value_fromNumber (radix ^ 6)
  have hradix₀ : (0 : ℤ) < (radix ^ 6 : ℕ) := by exact_mod_cast Nat.pow_pos (by omega : 0 < radix)
  have hle : ((radix ^ 6 : ℕ) : ℤ) ≤ n.value := by
    have hpow : radix ^ 6 ≤ 2 ^ 32 := (Nat.pow_le_pow_left hradix.2 6).trans (by decide)
    have hmono : (2 : ℤ) ^ 32 ≤ 2 ^ 1024 := pow_le_pow_right₀ (by decide) (by decide)
    exact (by exact_mod_cast hpow : ((radix ^ 6 : ℕ) : ℤ) ≤ 2 ^ 32).trans (hmono.trans hge)
  rw [toString_eq log fuel hradix hzero hneg]
  cases fuel with
  | zero => rfl
  | succ fuel =>
      have hdivide : divide log fuel n (fromNumber (some (radix ^ 6 : ℕ))) = none := by
        rw [divide_eq log fuel hzero (by rw [Bool.eq_false_iff, ne_eq, isZero_iff, hvalue]; exact hradix₀.ne'),
          magnitude_of_nonneg hneg, magnitude_of_nonneg (negative_fromNumber _), Option.map_eq_none_iff,
          Option.eq_none_iff_forall_ne_some]
        intro quotient hrun
        exact not_divides log hge (by rwa [hvalue]) (by rwa [hvalue]) quotient ⟨fuel, hrun⟩
      simp only [printLoop, hdivide]

/-- An integer of more than 1024 bits is never printed. -/
theorem not_prints (log : BinaryLogarithm) {radix : ℕ} (hradix : 2 ≤ radix ∧ radix ≤ 36) {n : Integer}
    (hge : 2 ^ 1024 ≤ n.value.natAbs) (text : List Char) : ¬ Prints log n (some radix) text := by
  have habs : (2 : ℤ) ^ 1024 ≤ n.value.natAbs := (Nat.cast_pow (α := ℤ) 2 1024) ▸ Nat.cast_le.2 hge
  rintro ⟨fuel, hprint⟩
  cases hneg : n.negative with
  | false =>
      have := value_nonneg hneg
      rw [toString_eq_none log hradix (by omega)] at hprint
      exact absurd hprint (by simp)
  | true =>
      have := value_neg hneg
      rw [toString_of_neg log fuel hradix hneg, toString_eq_none log hradix (by rw [value_negate]; omega)] at hprint
      exact absurd hprint (by simp)

theorem not_prints_twoPwr1024 :
    ¬ ∃ text, Prints .exact (fromNumber (some (2 ^ 1024 : ℕ))) (some (10 : ℕ)) text := by
  rintro ⟨text, hprints⟩
  refine not_prints .exact (by decide) ?_ text hprints
  rw [value_fromNumber, Int.natAbs_natCast]

end CqlDriver.Integer
