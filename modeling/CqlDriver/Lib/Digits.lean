import CqlDriver.Lib.JsString
import Mathlib.Tactic

/-! # Numerals

`parseHex` reads the hexadecimal digits at the front of a text, as `parseInt(text, 16)` does on a
text without sign, blanks or `0x`; `parseHex_toDigits` says that it reads back what is printed with
`Nat.toDigits 16`.  `parseInt` is the function of that name for any radix, on any text. -/

namespace Digits

def hexValue (c : Char) : Option ℕ :=
  if '0' ≤ c ∧ c ≤ '9' then some (c.toNat - 48)
  else if 'a' ≤ c ∧ c ≤ 'f' then some (c.toNat - 87)
  else if 'A' ≤ c ∧ c ≤ 'F' then some (c.toNat - 55)
  else none

/-- The digits at the front of `cs`, read behind the number `acc`. -/
def parseHexFrom (acc : ℕ) : List Char → ℕ
  | [] => acc
  | c :: cs =>
      match hexValue c with
      | some d => parseHexFrom (acc * 16 + d) cs
      | none => acc

/-- The number at the front of a text; `none` when the text does not start with a digit. -/
def parseHex : List Char → Option ℕ
  | [] => none
  | c :: cs => (hexValue c).map fun d => parseHexFrom d cs

theorem hexValue_digitChar : ∀ d < 16, hexValue d.digitChar = some d := by
  decide

theorem parseHexFrom_append_digit {d : ℕ} (hd : d < 16) (acc : ℕ) (cs : List Char)
    (hcs : ∀ c ∈ cs, (hexValue c).isSome = true) :
    parseHexFrom acc (cs ++ [d.digitChar]) = parseHexFrom acc cs * 16 + d := by
  induction cs generalizing acc with
  | nil => simp [parseHexFrom, hexValue_digitChar d hd]
  | cons c cs ih =>
      obtain ⟨e, he⟩ := Option.isSome_iff_exists.1 (hcs c (by simp))
      simp only [List.cons_append, parseHexFrom, he]
      exact ih _ fun c hc => hcs c (by simp [hc])

/-- Only hexadecimal digits are printed. -/
theorem hexValue_of_mem_toDigits {n : ℕ} {c : Char} (hc : c ∈ Nat.toDigits 16 n) :
    (hexValue c).isSome = true := by
  induction n using Nat.strong_induction_on with
  | _ n ih =>
      rcases Nat.lt_or_ge n 16 with hlt | hge
      · rw [Nat.toDigits_of_lt_base hlt, List.mem_singleton] at hc
        rw [hc, hexValue_digitChar n hlt]
        rfl
      · rw [Nat.toDigits_of_base_le (by norm_num) hge, List.mem_append, List.mem_singleton] at hc
        rcases hc with hc | rfl
        · exact ih (n / 16) (by omega) hc
        · rw [hexValue_digitChar _ (Nat.mod_lt _ (by norm_num))]
          rfl

theorem parseHex_toDigits (n : ℕ) : parseHex (Nat.toDigits 16 n) = some n := by
  induction n using Nat.strong_induction_on with
  | _ n ih =>
      rcases Nat.lt_or_ge n 16 with hlt | hge
      · rw [Nat.toDigits_of_lt_base hlt]
        simp [parseHex, hexValue_digitChar n hlt, parseHexFrom]
      · have hprev := ih (n / 16) (by omega)
        have hdigits : ∀ c ∈ Nat.toDigits 16 (n / 16), (hexValue c).isSome = true :=
          fun c hc => hexValue_of_mem_toDigits hc
        rw [Nat.toDigits_of_base_le (by norm_num) hge]
        cases hcs : Nat.toDigits 16 (n / 16) with
        | nil => exact absurd hcs Nat.toDigits_ne_nil
        | cons c cs =>
            rw [hcs] at hprev hdigits
            simp only [parseHex, Option.map_eq_some_iff] at hprev
            obtain ⟨d, hd, hval⟩ := hprev
            rw [List.cons_append, parseHex, hd, Option.map_some,
              parseHexFrom_append_digit (Nat.mod_lt _ (by norm_num)) _ _
                (fun c hc => hdigits c (by simp [hc])), hval]
            congr 1
            omega

/-! ### Bytes as hexadecimal texts -/

/-- Two digits for every byte. -/
def toHex (bs : List UInt8) : List Char :=
  bs.flatMap fun b => [(b.toNat / 16).digitChar, (b.toNat % 16).digitChar]

/-- `Buffer.from(text, "hex")`, which stops at the first pair that is not hexadecimal. -/
def fromHex : List Char → List UInt8
  | c :: d :: cs =>
      match hexValue c, hexValue d with
      | some x, some y => UInt8.ofNat (x * 16 + y) :: fromHex cs
      | _, _ => []
  | _ => []

theorem fromHex_toHex (bs : List UInt8) : fromHex (toHex bs) = bs := by
  induction bs with
  | nil => rfl
  | cons b bs ih =>
      have hb := b.toNat_lt
      change fromHex ((b.toNat / 16).digitChar :: (b.toNat % 16).digitChar :: toHex bs) = _
      rw [fromHex, hexValue_digitChar _ (by omega), hexValue_digitChar _ (by omega)]
      simp only
      rw [ih, show b.toNat / 16 * 16 + b.toNat % 16 = b.toNat by omega, UInt8.ofNat_toNat]

theorem hexValue_of_mem_toHex {bs : List UInt8} {c : Char} (h : c ∈ toHex bs) : (hexValue c).isSome = true := by
  obtain ⟨b, -, hc⟩ := List.mem_flatMap.1 h
  have hb := b.toNat_lt
  rw [List.mem_cons, List.mem_singleton] at hc
  rcases hc with rfl | rfl
  · rw [hexValue_digitChar _ (by omega)]
    rfl
  · rw [hexValue_digitChar _ (by omega)]
    rfl

/-! ### Any radix -/

/-- The digit that a character is in base `radix`. -/
def digitOf (radix : ℕ) (c : Char) : Option ℕ :=
  let digit :=
    if '0' ≤ c ∧ c ≤ '9' then some (c.toNat - 48)
    else if 'a' ≤ c ∧ c ≤ 'z' then some (c.toNat - 87)
    else if 'A' ≤ c ∧ c ≤ 'Z' then some (c.toNat - 55)
    else none
  digit.filter (· < radix)

/-- The digits at the front of a text, read behind the number `acc`. -/
def numeralFrom (radix acc : ℕ) : List Char → ℕ
  | [] => acc
  | c :: cs =>
      match digitOf radix c with
      | some d => numeralFrom radix (acc * radix + d) cs
      | none => acc

/-- The number at the front of a text without blanks and sign; `none` is `NaN`. -/
def numeral (radix : ℕ) : List Char → Option ℕ
  | [] => none
  | c :: cs => (digitOf radix c).map fun d => numeralFrom radix d cs

/-- `0x` is left out in front of hexadecimal digits. -/
def stripHex (radix : ℕ) : List Char → List Char
  | '0' :: c :: cs => if radix = 16 ∧ (c = 'x' ∨ c = 'X') then cs else '0' :: c :: cs
  | cs => cs

/-- `parseInt(text, radix)`, with `none` for `NaN`. -/
def parseInt (text : List Char) (radix : ℕ) : Option ℤ :=
  match text.dropWhile JsString.isSpace with
  | '-' :: cs => (numeral radix (stripHex radix cs)).map fun n : ℕ => -(n : ℤ)
  | '+' :: cs => (numeral radix (stripHex radix cs)).map Int.ofNat
  | cs => (numeral radix (stripHex radix cs)).map Int.ofNat

/-- A text of digits only. -/
def Numeric (radix : ℕ) (cs : List Char) : Prop := ∀ c ∈ cs, (digitOf radix c).isSome = true

theorem Numeric.tail {radix : ℕ} {c : Char} {cs : List Char} (h : Numeric radix (c :: cs)) : Numeric radix cs :=
  fun d hd => h d (List.mem_cons_of_mem c hd)

theorem Numeric.sublist {radix : ℕ} {cs ds : List Char} (h : Numeric radix ds) (hsub : cs.Sublist ds) :
    Numeric radix cs := fun c hc => h c (hsub.subset hc)

/-- The characters that are digits in some base. -/
theorem range_of_digitOf {radix : ℕ} {c : Char} (h : (digitOf radix c).isSome = true) :
    (48 ≤ c.toNat ∧ c.toNat ≤ 57) ∨ (97 ≤ c.toNat ∧ c.toNat ≤ 122) ∨ (65 ≤ c.toNat ∧ c.toNat ≤ 90) := by
  obtain ⟨d, hd⟩ := Option.isSome_iff_exists.1 h
  rw [digitOf] at hd
  have hsome := (Option.filter_eq_some_iff.1 hd).1
  split_ifs at hsome with h₁ h₂ h₃
  · exact Or.inl h₁
  · exact Or.inr (Or.inl h₂)
  · exact Or.inr (Or.inr h₃)

theorem isSpace_of_digitOf {radix : ℕ} {c : Char} (h : (digitOf radix c).isSome = true) :
    JsString.isSpace c = false := by
  have hrange := range_of_digitOf h
  rw [JsString.isSpace]
  simp
  omega

theorem numeralFrom_append {radix : ℕ} {cs : List Char} (h : Numeric radix cs) (acc : ℕ) (ds : List Char) :
    numeralFrom radix acc (cs ++ ds) = numeralFrom radix (numeralFrom radix acc cs) ds := by
  induction cs generalizing acc with
  | nil => rfl
  | cons c cs ih =>
      obtain ⟨d, hd⟩ := Option.isSome_iff_exists.1 (h c (List.mem_cons_self ..))
      rw [List.cons_append, numeralFrom, numeralFrom, hd]
      exact ih h.tail _

/-- What was read before counts for the number of digits that follow. -/
theorem numeralFrom_eq {radix : ℕ} {cs : List Char} (h : Numeric radix cs) (acc : ℕ) :
    numeralFrom radix acc cs = acc * radix ^ cs.length + numeralFrom radix 0 cs := by
  induction cs generalizing acc with
  | nil => simp [numeralFrom]
  | cons c cs ih =>
      obtain ⟨d, hd⟩ := Option.isSome_iff_exists.1 (h c (List.mem_cons_self ..))
      rw [numeralFrom, numeralFrom, hd]
      simp only
      rw [ih h.tail, ih h.tail (0 * radix + d), List.length_cons, pow_succ]
      ring

theorem numeral_eq {radix : ℕ} {cs : List Char} (hne : cs ≠ []) (h : Numeric radix cs) :
    numeral radix cs = some (numeralFrom radix 0 cs) := by
  obtain ⟨c, cs, rfl⟩ := List.exists_cons_of_ne_nil hne
  obtain ⟨d, hd⟩ := Option.isSome_iff_exists.1 (h c (List.mem_cons_self ..))
  rw [numeral, numeralFrom, hd]
  simp

theorem stripHex_eq {radix : ℕ} {cs : List Char} (h : Numeric radix cs) : stripHex radix cs = cs := by
  unfold stripHex
  split
  · next c ds =>
      rw [if_neg]
      rintro ⟨rfl, hc | hc⟩
      · exact absurd (hc ▸ h c (by simp)) (by decide)
      · exact absurd (hc ▸ h c (by simp)) (by decide)
  · rfl

theorem parseInt_eq {radix : ℕ} {cs : List Char} (hne : cs ≠ []) (h : Numeric radix cs) :
    parseInt cs radix = some (numeralFrom radix 0 cs : ℤ) := by
  obtain ⟨c, cs, rfl⟩ := List.exists_cons_of_ne_nil hne
  have hc := h c (List.mem_cons_self ..)
  have hrange := range_of_digitOf hc
  rw [parseInt, List.dropWhile_cons_of_neg (by simp [isSpace_of_digitOf hc])]
  split
  · next heq =>
      rw [(List.cons.inj heq).1] at hrange
      exact absurd hrange (by decide)
  · next heq =>
      rw [(List.cons.inj heq).1] at hrange
      exact absurd hrange (by decide)
  · rw [stripHex_eq h, numeral_eq hne h]
    rfl

/-! ### Decimal digits -/

theorem digitOf_ten {c : Char} (h : c.isDigit = true) : digitOf 10 c = some (c.toNat - 48) := by
  have hrange : '0' ≤ c ∧ c ≤ '9' := by
    simp only [Char.isDigit, Bool.and_eq_true, decide_eq_true_eq] at h
    exact h
  have hle : c.toNat ≤ 57 := hrange.2
  rw [digitOf, if_pos hrange]
  simp only [Option.filter_some]
  rw [if_pos]
  simp
  omega

theorem numeric_ten {cs : List Char} (h : ∀ c ∈ cs, c.isDigit = true) : Numeric 10 cs := by
  intro c hc
  rw [digitOf_ten (h c hc)]
  rfl

theorem numeralFrom_ten {cs : List Char} (h : ∀ c ∈ cs, c.isDigit = true) (acc : ℕ) :
    numeralFrom 10 acc cs = Nat.ofDigitChars 10 cs acc := by
  induction cs generalizing acc with
  | nil => simp [numeralFrom]
  | cons c cs ih =>
      rw [numeralFrom, digitOf_ten (h c (by simp)), Nat.ofDigitChars_cons]
      simp only
      rw [ih fun d hd => h d (by simp [hd]), Nat.mul_comm]
      rfl

end Digits
