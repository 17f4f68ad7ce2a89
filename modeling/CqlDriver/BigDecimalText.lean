import CqlDriver.BigDecimal
import CqlDriver.IntegerText

/-! # The text of decimals of arbitrary precision (`lib/types/big-decimal.js`)

`toString` puts the point into the digits of the unscaled value, behind zeros where the scale asks for more digits
than there are.  A negative scale puts the point at the end and adds no zeros there, so the text is the one of the
unscaled value itself (`decimalValue_toString`).  `fromString` reads the number that the text denotes
(`fromString_pointed`). -/

namespace CqlDriver

open MachineInt Digits JsString

namespace Integer

/-- The decimal digits of an integer, behind its sign. -/
def decimalDigits (n : ℤ) : List Char := (if n < 0 then ['-'] else []) ++ Nat.toDigits 10 n.natAbs

/-- `Integer.toString`, which is taken to print the decimal digits. -/
structure Printer where
  toString : Integer → List Char
  exact : ∀ n, toString n = decimalDigits n.value

def Printer.digits : Printer where
  toString n := decimalDigits n.value
  exact _ := rfl

end Integer

namespace BigDecimal

/-- `utils.stringRepeat` -/
def stringRepeat (val : List Char) (times : ℤ) : Option (List Char) :=
  if times ≤ 0 then none else some (List.replicate times.toNat val).flatten

/-- The separator is put at an index, counted from the end by the scale; the index is positive. -/
def insertSeparator (intString : List Char) (scale : ℤ) : List Char :=
  let separatorIndex : ℤ := intString.length - scale
  let padded :=
    if separatorIndex ≤ 0 then (stringRepeat ['0'] (-separatorIndex + 1)).getD "null".toList ++ intString
    else intString
  let separatorIndex := if separatorIndex ≤ 0 then padded.length - scale else separatorIndex
  padded.take separatorIndex.toNat ++ '.' :: padded.drop separatorIndex.toNat

def toString (print : Integer.Printer) (d : BigDecimal) : List Char :=
  let intString := print.toString d.intVal
  if d.scale = 0 then intString
  else if intString.head? = some '-' then '-' :: insertSeparator (intString.drop 1) d.scale
  else insertSeparator intString d.scale

inductive TextError where
  | nullOrUndefined
  | integer (error : Integer.FormatError)
deriving DecidableEq

def TextError.text : TextError → String
  | nullOrUndefined => "TypeError: Invalid null or undefined value"
  | integer error => error.text

/-- `fromString`, up to the unscaled value and the scale that the constructor is given. -/
def fromString (value : Option (List Char)) : Except TextError (Integer × ℕ) :=
  match value.getD [] with
  | [] => .error .nullOrUndefined
  | c :: cs =>
      let value := trim (c :: cs)
      match indexOf value ['.'] with
      | some scaleIndex =>
          let scale := value.length - 1 - scaleIndex
          ((Integer.fromString (value.take scaleIndex ++ value.drop (scaleIndex + 1)) none).map fun n =>
            (n, scale)).mapError .integer
      | none => ((Integer.fromString value none).map fun n => (n, 0)).mapError .integer

/-! ### Decimal notation -/

/-- The number that digits with a point among them denote; there is a digit on one side of the point at least. -/
def unsignedValue (text : List Char) : Option ℚ :=
  let whole := text.takeWhile Char.isDigit
  match text.dropWhile Char.isDigit with
  | [] => if whole = [] then none else some (Nat.ofDigitChars 10 whole 0)
  | '.' :: fraction =>
      if fraction.all Char.isDigit && whole ++ fraction ≠ [] then
        some (Nat.ofDigitChars 10 (whole ++ fraction) 0 * 10 ^ (-(fraction.length : ℤ)))
      else none
  | _ => none

/-- The number that a text denotes in decimal notation. -/
def decimalValue (text : List Char) : Option ℚ :=
  match text with
  | '-' :: text => (unsignedValue text).map fun q => -q
  | text => unsignedValue text

/-! ### Pointed texts -/

/-- A sign, and the digits before and behind a point. -/
structure Pointed where
  minus : Bool
  whole : List Char
  fraction : List Char
  digits : ∀ c ∈ whole ++ fraction, c.isDigit = true
  nonempty : whole ++ fraction ≠ []

namespace Pointed

/-- What is in front of the point. -/
def front (t : Pointed) : List Char := if t.minus then '-' :: t.whole else t.whole

def text (t : Pointed) : List Char := t.front ++ '.' :: t.fraction

/-- The integer without the point. -/
def unscaled (t : Pointed) : ℤ := (if t.minus then -1 else 1) * Nat.ofDigitChars 10 (t.whole ++ t.fraction) 0

theorem whole_digits (t : Pointed) : ∀ c ∈ t.whole, c.isDigit = true :=
  fun c hc => t.digits c (List.mem_append_left _ hc)

theorem fraction_digits (t : Pointed) : ∀ c ∈ t.fraction, c.isDigit = true :=
  fun c hc => t.digits c (List.mem_append_right _ hc)

theorem unsignedValue_text (t : Pointed) : unsignedValue (t.whole ++ '.' :: t.fraction) =
    some ((Nat.ofDigitChars 10 (t.whole ++ t.fraction) 0 : ℚ) * 10 ^ (-(t.fraction.length : ℤ))) := by
  have htake : (t.whole ++ '.' :: t.fraction).takeWhile Char.isDigit = t.whole := by
    rw [List.takeWhile_append_of_pos t.whole_digits, List.takeWhile_cons_of_neg (by decide), List.append_nil]
  have hdrop : (t.whole ++ '.' :: t.fraction).dropWhile Char.isDigit = '.' :: t.fraction := by
    rw [List.dropWhile_append_of_pos t.whole_digits, List.dropWhile_cons_of_neg (by decide)]
  have hall : t.fraction.all Char.isDigit = true := List.all_eq_true.2 t.fraction_digits
  rw [unsignedValue, htake, hdrop]
  simp only
  rw [if_pos]
  simp only [hall, Bool.true_and, decide_eq_true_eq]
  exact t.nonempty

/-- A sign is read where there is one. -/
theorem decimalValue_of_unsigned {text : List Char} (h : ∀ c, text.head? = some c → c ≠ '-') :
    decimalValue text = unsignedValue text := by
  unfold decimalValue
  split
  · exact absurd rfl (h '-' rfl)
  · rfl

theorem head_ne_minus (t : Pointed) : ∀ c, (t.whole ++ '.' :: t.fraction).head? = some c → c ≠ '-' := by
  rintro c hc rfl
  cases hw : t.whole with
  | nil =>
      rw [hw] at hc
      cases hc
  | cons d ds =>
      rw [hw, List.cons_append, List.head?_cons, Option.some.injEq] at hc
      have hd := t.whole_digits d (by rw [hw]; exact List.mem_cons_self ..)
      rw [hc] at hd
      exact absurd hd (by decide)

/-- The number that a text with a point denotes. -/
theorem decimalValue_text (t : Pointed) :
    decimalValue t.text = some ((t.unscaled : ℚ) * 10 ^ (-(t.fraction.length : ℤ))) := by
  rw [text, front]
  unfold unscaled
  cases t.minus with
  | false =>
      rw [if_neg (by decide), if_neg (by decide), decimalValue_of_unsigned t.head_ne_minus, t.unsignedValue_text]
      simp
  | true =>
      rw [if_pos rfl, if_pos rfl, List.cons_append, decimalValue, t.unsignedValue_text]
      simp

theorem of_mem_front {t : Pointed} {c : Char} (h : c ∈ t.front) : c = '-' ∨ c.isDigit = true := by
  rw [front] at h
  split_ifs at h
  · exact (List.mem_cons.1 h).imp_right (t.whole_digits c)
  · exact Or.inr (t.whole_digits c h)

theorem trim_text (t : Pointed) : trim t.text = t.text := by
  apply trim_eq
  apply trimmed_of_forall
  intro c hc
  rw [text, List.mem_append, List.mem_cons] at hc
  rcases hc with hc | rfl | hc
  · rcases of_mem_front hc with rfl | hc
    · rfl
    · exact isSpace_of_isDigit hc
  · rfl
  · exact isSpace_of_isDigit (t.fraction_digits c hc)

theorem indexOf_text (t : Pointed) : indexOf t.text ['.'] = some t.front.length := by
  apply indexOf_char_append
  intro hmem
  rcases of_mem_front hmem with h | h
  · exact absurd h (by decide)
  · exact absurd h (by decide)

/-- What `fromString` reads in a text with a point: the integer without it, and the number of digits behind it. -/
theorem fromString_text (t : Pointed) :
    ∃ n, fromString (some t.text) = .ok (n, t.fraction.length) ∧ n.value = t.unscaled := by
  obtain ⟨n, hread, hvalue⟩ := Integer.value_fromString (by norm_num) t.minus t.nonempty
    (numeric_ten t.digits)
  have hparts : t.text.take t.front.length ++ t.text.drop (t.front.length + 1) =
      if t.minus then '-' :: (t.whole ++ t.fraction) else t.whole ++ t.fraction := by
    have hdrop : t.text.drop (t.front.length + 1) = t.fraction := by
      rw [text, List.drop_append, List.drop_of_length_le (by omega), Nat.add_sub_cancel_left]
      rfl
    rw [hdrop, text, List.take_left, front]
    split_ifs <;> rfl
  have hscale : t.text.length - 1 - t.front.length = t.fraction.length := by
    rw [text, List.length_append, List.length_cons]
    omega
  refine ⟨n, ?_, ?_⟩
  · have hread := (Integer.fromString_default _).trans hread
    have htrim := t.trim_text
    have hindex := t.indexOf_text
    obtain ⟨c, cs, hcs⟩ : ∃ c cs, t.text = c :: cs := List.exists_cons_of_ne_nil (by simp [text])
    rw [← hparts] at hread
    rw [fromString, Option.getD_some]
    rw [hcs] at htrim hindex hscale hread ⊢
    simp only [htrim, hindex, hread, hscale]
    rfl
  · rw [hvalue, unscaled, numeralFrom_ten t.digits]
    split_ifs <;> simp

end Pointed

/-! ### Texts without a point -/

theorem toDigits_digits (n : ℕ) : ∀ c ∈ Nat.toDigits 10 n, c.isDigit = true :=
  fun _ => isDigit_of_mem

theorem unsignedValue_toDigits (n : ℕ) : unsignedValue (Nat.toDigits 10 n) = some (n : ℚ) := by
  have htake := List.takeWhile_eq_self_iff.2 (toDigits_digits n)
  have hdrop := List.dropWhile_eq_nil_iff.2 (toDigits_digits n)
  rw [unsignedValue, hdrop, htake]
  simp only
  rw [if_neg Nat.toDigits_ne_nil, Nat.ofDigitChars_ten_toDigits]

theorem decimalValue_decimalDigits (n : ℤ) : decimalValue (Integer.decimalDigits n) = some (n : ℚ) := by
  rw [Integer.decimalDigits]
  split_ifs with hn
  · rw [List.singleton_append, decimalValue, unsignedValue_toDigits, Option.map_some, Nat.cast_natAbs, abs_of_neg hn]
    simp
  · rw [List.nil_append, Pointed.decimalValue_of_unsigned, unsignedValue_toDigits, Nat.cast_natAbs,
      abs_of_nonneg (by omega)]
    rintro c hc rfl
    exact absurd (toDigits_digits _ _ (List.mem_of_head? hc)) (by decide)

theorem of_mem_decimalDigits {n : ℤ} {c : Char} (h : c ∈ Integer.decimalDigits n) : c = '-' ∨ c.isDigit = true := by
  rw [Integer.decimalDigits, List.mem_append] at h
  rcases h with h | h
  · split_ifs at h
    · exact Or.inl (List.mem_singleton.1 h)
    · cases h
  · exact Or.inr (toDigits_digits _ c h)

theorem fromString_decimalDigits (v : ℤ) :
    ∃ n, fromString (some (Integer.decimalDigits v)) = .ok (n, 0) ∧ n.value = v := by
  obtain ⟨n, hread, hvalue⟩ := Integer.value_fromString (by norm_num) (decide (v < 0))
    (Nat.toDigits_ne_nil (n := v.natAbs)) (numeric_ten (toDigits_digits v.natAbs))
  have htext : (if decide (v < 0) = true then '-' :: Nat.toDigits 10 v.natAbs else Nat.toDigits 10 v.natAbs) =
      Integer.decimalDigits v := by
    rw [Integer.decimalDigits]
    by_cases hv : v < 0
    · rw [if_pos (by simpa using hv), if_pos hv, List.singleton_append]
    · rw [if_neg (by simpa using hv), if_neg hv, List.nil_append]
  have htrim : trim (Integer.decimalDigits v) = Integer.decimalDigits v := by
    apply trim_eq
    apply trimmed_of_forall
    intro c hc
    rcases of_mem_decimalDigits hc with rfl | hc
    · rfl
    · exact isSpace_of_isDigit hc
  have hindex : indexOf (Integer.decimalDigits v) ['.'] = none := by
    apply indexOf_char_eq_none
    intro hmem
    rcases of_mem_decimalDigits hmem with h | h
    · exact absurd h (by decide)
    · exact absurd h (by decide)
  refine ⟨n, ?_, ?_⟩
  · have hread := (Integer.fromString_default _).trans hread
    obtain ⟨c, cs, hcs⟩ : ∃ c cs, Integer.decimalDigits v = c :: cs :=
      List.exists_cons_of_ne_nil (by simp [Integer.decimalDigits, Nat.toDigits_ne_nil])
    rw [htext] at hread
    rw [fromString, Option.getD_some]
    rw [hcs] at htrim hindex hread ⊢
    simp only [htrim, hindex, hread]
    rfl
  · rw [hvalue, numeralFrom_ten (toDigits_digits v.natAbs), Nat.ofDigitChars_ten_toDigits]
    by_cases hv : v < 0
    · rw [if_pos (by simpa using hv)]
      omega
    · rw [if_neg (by simpa using hv)]
      omega

/-! ### `toString` -/

/-- The separator leaves as many digits behind it as a positive scale says, and none for another scale. -/
theorem insertSeparator_eq {ds : List Char} {scale : ℤ} (hds : ∀ c ∈ ds, c.isDigit = true) (hne : ds ≠ []) :
    ∃ whole fraction, insertSeparator ds scale = whole ++ '.' :: fraction ∧
      (∀ c ∈ whole ++ fraction, c.isDigit = true) ∧ whole ++ fraction ≠ [] ∧
      Nat.ofDigitChars 10 (whole ++ fraction) 0 = Nat.ofDigitChars 10 ds 0 ∧ fraction.length = scale.toNat := by
  have hlen := List.length_pos_of_ne_nil hne
  unfold insertSeparator
  by_cases hsep : (ds.length : ℤ) - scale ≤ 0
  · have hzeros : (stringRepeat ['0'] (-((ds.length : ℤ) - scale) + 1)).getD "null".toList =
        List.replicate (-((ds.length : ℤ) - scale) + 1).toNat '0' := by
      rw [stringRepeat, if_neg (by omega), Option.getD_some]
      simp
    simp only [if_pos hsep, hzeros]
    set padded := List.replicate (-((ds.length : ℤ) - scale) + 1).toNat '0' ++ ds with hpadded
    have hlength : padded.length = (-((ds.length : ℤ) - scale) + 1).toNat + ds.length := by simp [hpadded]
    refine ⟨_, _, rfl, ?_, ?_, ?_, ?_⟩
    · intro c hc
      rw [List.take_append_drop, hpadded, List.mem_append] at hc
      rcases hc with hc | hc
      · rw [List.eq_of_mem_replicate hc]
        rfl
      · exact hds c hc
    · rw [List.take_append_drop]
      exact List.ne_nil_of_length_pos (by omega)
    · rw [List.take_append_drop, hpadded, Nat.ofDigitChars_append, Nat.ofDigitChars_replicate_zero, Nat.mul_zero]
    · rw [List.length_drop]
      omega
  · simp only [if_neg hsep]
    refine ⟨_, _, rfl, ?_, ?_, ?_, ?_⟩
    · rwa [List.take_append_drop]
    · rwa [List.take_append_drop]
    · rw [List.take_append_drop]
    · rw [List.length_drop]
      omega

variable (print : Integer.Printer)

/-- With a scale other than zero the text has a point, with the digits of the unscaled value around it. -/
theorem toString_eq_text {d : BigDecimal} (hscale : d.scale ≠ 0) :
    ∃ t : Pointed, d.toString print = t.text ∧ t.unscaled = d.intVal.value ∧ t.fraction.length = d.scale.toNat := by
  obtain ⟨whole, fraction, htext, hdigits, hne, hvalue, hlength⟩ :=
    @insertSeparator_eq _ d.scale (toDigits_digits d.intVal.value.natAbs) Nat.toDigits_ne_nil
  rw [Nat.ofDigitChars_ten_toDigits] at hvalue
  refine ⟨⟨decide (d.intVal.value < 0), whole, fraction, hdigits, hne⟩, ?_, ?_, hlength⟩
  · rw [toString, print.exact, Integer.decimalDigits, if_neg hscale, Pointed.text, Pointed.front]
    by_cases hneg : d.intVal.value < 0
    · simp only [hneg, decide_true, if_true, List.cons_append, List.nil_append, List.head?_cons, List.drop_succ_cons,
        List.drop_zero, htext]
    · have hhead : (Nat.toDigits 10 d.intVal.value.natAbs).head? ≠ some '-' := by
        intro hc
        exact absurd (toDigits_digits _ _ (List.mem_of_head? hc)) (by decide)
      simp only [hneg, decide_false, if_false, List.nil_append, hhead, htext, Bool.false_eq_true]
  · rw [Pointed.unscaled, hvalue]
    by_cases hneg : d.intVal.value < 0
    · rw [if_pos (by simpa using hneg)]
      omega
    · rw [if_neg (by simpa using hneg)]
      omega

/-- What the text denotes: digits that a negative scale asks for are missing. -/
theorem decimalValue_toString (d : BigDecimal) :
    decimalValue (d.toString print) = some ((d.intVal.value : ℚ) * 10 ^ (-(d.scale.toNat : ℤ))) := by
  by_cases hscale : d.scale = 0
  · rw [toString, if_pos hscale, print.exact, decimalValue_decimalDigits, hscale]
    simp
  · obtain ⟨t, htext, hunscaled, hlength⟩ := toString_eq_text print hscale
    rw [htext, t.decimalValue_text, hunscaled, hlength]

/-- The text is read as the unscaled value, with the scale if that is not negative. -/
theorem fromString_toString (d : BigDecimal) :
    ∃ n, fromString (some (d.toString print)) = .ok (n, d.scale.toNat) ∧ n.value = d.intVal.value := by
  by_cases hscale : d.scale = 0
  · rw [toString, if_pos hscale, print.exact, hscale]
    exact fromString_decimalDigits d.intVal.value
  · obtain ⟨t, htext, hunscaled, hlength⟩ := toString_eq_text print hscale
    rw [htext, ← hunscaled, ← hlength]
    exact t.fromString_text

/-- The text denotes the decimal, and is read as a decimal of the same value. -/
structure ExactText (d : BigDecimal) : Prop where
  denotes : decimalValue (d.toString print) = some d.value
  roundTrip : ∃ n scale, fromString (some (d.toString print)) = .ok (n, scale) ∧
    (n.value : ℚ) * 10 ^ (-(scale : ℤ)) = d.value

/-- The value without the zeros that a negative scale stands for. -/
theorem value_of_nonneg_iff (d : BigDecimal) :
    (d.intVal.value : ℚ) * 10 ^ (-(d.scale.toNat : ℤ)) = d.value ↔ 0 ≤ d.scale ∨ d.intVal.value = 0 := by
  rw [value, mul_eq_mul_left_iff, Int.cast_eq_zero]
  apply or_congr_left
  constructor
  · intro h
    have hexp := zpow_right_injective₀ (by norm_num : (0 : ℚ) < 10) (by norm_num) h
    omega
  · intro h
    rw [Int.toNat_of_nonneg h]

theorem exactText_iff (d : BigDecimal) : ExactText print d ↔ 0 ≤ d.scale ∨ d.intVal.value = 0 := by
  obtain ⟨n, hread, hvalue⟩ := fromString_toString print d
  have hiff := d.value_of_nonneg_iff
  constructor
  · intro h
    have hdenotes := h.denotes
    rw [decimalValue_toString, Option.some.injEq] at hdenotes
    exact hiff.1 hdenotes
  · intro h
    have heq := hiff.2 h
    refine ⟨?_, n, d.scale.toNat, hread, ?_⟩
    · rw [decimalValue_toString, heq]
    · rw [hvalue, heq]

/-- `123 × 10 ^ 2` is printed as `123.` -/
theorem not_exactText_negativeScale : ¬ ∀ (print : Integer.Printer) (d : BigDecimal), ExactText print d := by
  intro h
  have hdenotes := (h Integer.Printer.digits ⟨Integer.fromInt 123, -2, by decide⟩).denotes
  rw [decimalValue_toString, Option.some.injEq, value_of_nonneg_iff] at hdenotes
  exact absurd hdenotes (by decide)

end BigDecimal

end CqlDriver
