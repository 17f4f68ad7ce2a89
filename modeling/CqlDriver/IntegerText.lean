import CqlDriver.IntegerMultiplication
import CqlDriver.Lib.Digits

/-! # The text of arbitrary-precision integers (`lib/types/integer.js`)

`fromString` reads the digits in chunks of eight: what was read is multiplied by a power of the radix and the number
of the chunk is added.  Such a power has no half among the largest, in any radix, so the multiplication is exact
(`value_multiply`) and the integer is the one that is written (`value_fromString`). -/

namespace CqlDriver.Integer

open Digits

/-- The errors of `fromString`. -/
inductive FormatError where
  | emptyString
  | radixRange (radix : ℤ)
  | interiorSign
deriving DecidableEq, Repr

/-- The text of an error, behind the name of its class. -/
def FormatError.text : FormatError → String
  | emptyString => "TypeError: number format error: empty string"
  | radixRange radix => "Error: radix out of range: " ++ toString radix
  | interiorSign => "TypeError: number format error: interior \"-\" character"

/-- One pass of the loop, at the index `i`. -/
def readChunk (str : List Char) (radix i : ℕ) (result : Integer) : Integer :=
  let size := min 8 (str.length - i)
  let value := parseInt ((str.drop i).take size) radix
  if size < 8 then (result.multiply (fromNumber (some (radix ^ size : ℕ)))).add (fromNumber value)
  else (result.multiply (fromNumber (some (radix ^ 8 : ℕ)))).add (fromNumber value)

def readChunks (str : List Char) (radix : ℕ) : Integer :=
  (List.range ((str.length + 7) / 8)).foldl (fun result k => readChunk str radix (8 * k) result) zero

/-- `optRadix || 10` -/
def radixOf (optRadix : Option ℤ) : ℤ := if optRadix.getD 0 = 0 then 10 else optRadix.getD 0

def fromString (str : List Char) (optRadix : Option ℤ) : Except FormatError Integer :=
  match str with
  | [] => .error .emptyString
  | c :: cs =>
      let radix := radixOf optRadix
      if radix < 2 ∨ 36 < radix then .error (.radixRange radix)
      else if c = '-' then (fromString cs (some radix)).map negate
      else if '-' ∈ cs then .error .interiorSign
      else .ok (readChunks (c :: cs) radix.toNat)

/-! ### Powers of the radix -/

/-- Two digits in base `65536` and a third one, none of them among the largest. -/
theorem halves_of_pow : ∀ radix < 37, ∀ size < 9, radix ^ size < 65536 ^ 3 ∧ radix ^ size % 65536 ≤ 0xfff0 ∧
    radix ^ size / 65536 % 65536 ≤ 0xfff0 ∧ radix ^ size / 65536 ^ 2 % 65536 ≤ 0xfff0 := by
  decide +kernel

theorem smallDigits_pow {radix size : ℕ} (hradix : radix ≤ 36) (hsize : size ≤ 8) : SmallDigits (radix ^ size) := by
  obtain ⟨hlt, h₀, h₁, h₂⟩ := halves_of_pow radix (by omega) size (by omega)
  intro i
  rcases (by omega : i = 0 ∨ i = 1 ∨ i = 2 ∨ 3 ≤ i) with rfl | rfl | rfl | hi
  · rwa [pow_zero, Nat.div_one]
  · rwa [pow_one]
  · exact h₂
  · have hle : 65536 ^ 3 ≤ 65536 ^ i := Nat.pow_le_pow_right (by norm_num) hi
    rw [Nat.div_eq_of_lt (hlt.trans_le hle)]
    norm_num

theorem value_multiply_pow (n : Integer) {radix size : ℕ} (hradix : radix ≤ 36) (hsize : size ≤ 8) :
    (n.multiply (fromNumber (some (radix ^ size : ℕ)))).value = n.value * radix ^ size := by
  have hvalue := value_fromNumber (radix ^ size)
  rw [value_multiply n (negative_fromNumber _) (halvesBelow_of_smallDigits hvalue (smallDigits_pow hradix hsize)),
    hvalue, Nat.cast_pow]

/-! ### Chunks -/

/-- A pass reads the digits of its chunk behind those that have been read. -/
theorem value_readChunk {str : List Char} {radix i : ℕ} {result : Integer} (hradix : radix ≤ 36)
    (hdigits : Numeric radix str) (hi : i < str.length) (hresult : result.value = numeralFrom radix 0 (str.take i)) :
    (readChunk str radix i result).value = numeralFrom radix 0 (str.take (i + 8)) := by
  have hsize : min 8 (str.length - i) ≤ 8 := min_le_left _ _
  set chunk := (str.drop i).take (min 8 (str.length - i)) with hchunk
  have hlength : chunk.length = min 8 (str.length - i) := by simp [hchunk]
  have hnum : Numeric radix chunk :=
    hdigits.sublist ((List.take_sublist _ _).trans (List.drop_sublist _ _))
  have hparse := parseInt_eq (List.ne_nil_of_length_pos (by omega)) hnum
  have htake : str.take (i + 8) = str.take i ++ chunk := by
    rw [List.take_add, hchunk]
    congr 1
    exact List.take_eq_take_iff.2 (by simp)
  have hpass : readChunk str radix i result =
      (result.multiply (fromNumber (some (radix ^ chunk.length : ℕ)))).add (fromNumber (parseInt chunk radix)) := by
    rw [readChunk, hlength, ← hchunk]
    split_ifs with hlt
    · rfl
    · rw [show min 8 (str.length - i) = 8 by omega]
  rw [hpass, value_add, value_multiply_pow _ hradix (by omega), hparse, value_fromNumber, hresult, htake,
    numeralFrom_append (hdigits.sublist (List.take_sublist _ _)),
    numeralFrom_eq hnum (numeralFrom radix 0 (str.take i))]
  push_cast
  ring

theorem value_readChunks {str : List Char} {radix : ℕ} (hradix : radix ≤ 36) (hdigits : Numeric radix str) :
    (readChunks str radix).value = numeralFrom radix 0 str := by
  have hpasses : ∀ k, 8 * k < str.length + 8 →
      ((List.range k).foldl (fun result k => readChunk str radix (8 * k) result) zero).value =
        numeralFrom radix 0 (str.take (8 * k)) := by
    intro k
    induction k with
    | zero => exact fun _ => rfl
    | succ k ih =>
        intro hk
        rw [List.range_succ, List.foldl_append, List.foldl_cons, List.foldl_nil]
        exact value_readChunk hradix hdigits (by omega) (ih (by omega))
  rw [readChunks, hpasses _ (by omega), List.take_of_length_le (by omega)]

/-! ### Texts -/

theorem radixOf_natCast {radix : ℕ} (h : 2 ≤ radix) : radixOf (some (radix : ℤ)) = radix := by
  rw [radixOf, Option.getD_some, if_neg (by omega)]

/-- The digits of a number in any radix from 2 to 36 are read. -/
theorem fromString_digits {str : List Char} {radix : ℕ} (hradix : 2 ≤ radix ∧ radix ≤ 36) (hne : str ≠ [])
    (hdigits : Numeric radix str) : fromString str (some radix) = .ok (readChunks str radix) := by
  obtain ⟨c, cs, rfl⟩ := List.exists_cons_of_ne_nil hne
  have hsign : ∀ d ∈ c :: cs, d ≠ '-' := by
    rintro d hd rfl
    exact absurd (range_of_digitOf (hdigits _ hd)) (by decide)
  rw [fromString, radixOf_natCast hradix.1, if_neg (by omega), if_neg (hsign c (by simp)), if_neg fun h => hsign _ (List.mem_cons_of_mem c h) rfl,
    Int.toNat_natCast]

theorem fromString_neg (cs : List Char) {radix : ℕ} (hradix : 2 ≤ radix ∧ radix ≤ 36) :
    fromString ('-' :: cs) (some radix) = (fromString cs (some radix)).map negate := by
  rw [fromString, radixOf_natCast hradix.1]
  simp only
  rw [if_neg (by omega), if_pos trivial]

/-- A text of digits of the radix, behind a sign, denotes the number that is written. -/
theorem value_fromString {radix : ℕ} (hradix : 2 ≤ radix ∧ radix ≤ 36) (minus : Bool) {digits : List Char}
    (hne : digits ≠ []) (hdigits : Numeric radix digits) :
    ∃ n, fromString (if minus then '-' :: digits else digits) (some radix) = .ok n ∧
      n.value = if minus then -(numeralFrom radix 0 digits : ℤ) else numeralFrom radix 0 digits := by
  have hvalue := value_readChunks hradix.2 hdigits
  cases minus with
  | false => exact ⟨_, fromString_digits hradix hne hdigits, hvalue⟩
  | true =>
      refine ⟨(readChunks digits radix).negate, ?_, ?_⟩
      · rw [if_pos rfl, fromString_neg digits hradix, fromString_digits hradix hne hdigits]
        rfl
      · rw [value_negate, hvalue]
        rfl

theorem fromString_default (str : List Char) : fromString str none = fromString str (some 10) := by
  cases str with
  | nil => rfl
  | cons c cs => rfl

/-- Decimal digits of any number, leading zeros among them, behind at most one sign. -/
theorem fromString_decimal (minus : Bool) (digits : List Char) (hne : digits ≠ [])
    (hdigits : ∀ c ∈ digits, c.isDigit = true) :
    ∃ n, fromString (if minus then '-' :: digits else digits) none = .ok n ∧
      n.value = (if minus then -1 else 1) * (Nat.ofDigitChars 10 digits 0 : ℤ) ∧ n.IsCanonical := by
  obtain ⟨n, hread, hvalue⟩ := value_fromString (by norm_num) minus hne (numeric_ten hdigits)
  refine ⟨n, (fromString_default _).trans hread, ?_, n.canonical⟩
  rw [hvalue, numeralFrom_ten hdigits]
  cases minus with
  | false => rw [if_neg (by decide), if_neg (by decide), one_mul]
  | true => rw [if_pos rfl, if_pos rfl, neg_one_mul]

theorem fromString_decimal_two_chunks :
    ∃ n, fromString (if true then '-' :: "00123456789".toList else "00123456789".toList) none = .ok n ∧
      n.value = (if true then -1 else 1) * (Nat.ofDigitChars 10 "00123456789".toList 0 : ℤ) ∧ n.IsCanonical :=
  fromString_decimal true "00123456789".toList (by decide) (List.all_eq_true.1 (by decide))

end CqlDriver.Integer
