import CqlDriver.LocalTime
import CqlDriver.Lib.Fallible

/-! # The text of a time (`src/types/local_time.rs`, `lib/types/local-time.js`)

A text that passes the expression of `LocalTime.fromString` has an hour, a minute, a second and perhaps a
fraction of up to nine digits (`regex_text`, `exists_text`).  `from_string` reads such a text without a
fault, as the number of nanoseconds that it denotes (`fromString_text`).  The text that `Display` prints
is one of them and denotes the number it was made of (`display_eq_text`). -/

namespace CqlDriver.LocalTime

open MachineInt Fallible LocalDateWrapper LocalTimeWrapper

/-- The numbers of a text `h:m:s` or `h:m:s.f`. -/
structure TimeText where
  hour : DigitText
  minute : DigitText
  second : DigitText
  fraction : Option DigitText

namespace TimeText

variable (t : TimeText)

/-- The seconds with the fraction. -/
def secondChars : List Char :=
  match t.fraction with
  | none => t.second.chars
  | some f => t.second.chars ++ '.' :: f.chars

def text : List Char := [':'].intercalate [t.hour.chars, t.minute.chars, t.secondChars]

/-- The fraction of a second that the text denotes. -/
def fractionValue : ℚ :=
  match t.fraction with
  | none => 0
  | some f => f.number / 10 ^ f.chars.length

/-- The time that the text denotes, in nanoseconds. -/
def nanoseconds : ℚ :=
  (t.hour.number * 3600 + t.minute.number * 60 + t.second.number + t.fractionValue) * 10 ^ 9

/-! ### The parts of a text -/

theorem colon_not_mem_secondChars : ':' ∉ t.secondChars := by
  unfold secondChars
  cases t.fraction with
  | none => exact DigitText.not_mem _ rfl
  | some f =>
      have hcolon : Char.isDigit ':' = false := rfl
      simp [t.second.not_mem hcolon, f.not_mem hcolon]

theorem splitOn_text : t.text.splitOn ':' = [t.hour.chars, t.minute.chars, t.secondChars] := by
  refine List.splitOn_intercalate ':' (fun p hp => ?_) (by simp)
  simp only [List.mem_cons, List.not_mem_nil, or_false] at hp
  obtain rfl | rfl | rfl := hp
  · exact DigitText.not_mem _ rfl
  · exact DigitText.not_mem _ rfl
  · exact t.colon_not_mem_secondChars

theorem splitOn_secondChars :
    t.secondChars.splitOn '.' = t.second.chars :: (t.fraction.map DigitText.chars).toList := by
  unfold secondChars
  cases t.fraction with
  | none =>
      have : (['.'].intercalate [t.second.chars]).splitOn '.' = [t.second.chars] :=
        List.splitOn_intercalate '.' (by simpa using t.second.not_mem rfl) (by simp)
      simpa [List.intercalate] using this
  | some f =>
      have : (['.'].intercalate [t.second.chars, f.chars]).splitOn '.' = [t.second.chars, f.chars] :=
        List.splitOn_intercalate '.' (by simpa using ⟨t.second.not_mem rfl, f.not_mem rfl⟩) (by simp)
      simpa [List.intercalate] using this

/-- The texts that pass the expression. -/
def Accepted : Prop :=
  isHour t.hour.chars = true ∧ isSixty t.minute.chars = true ∧ isSixty t.second.chars = true ∧
    ∀ f ∈ t.fraction, f.chars.length ≤ 9

theorem regex_text : regex t.text = true ↔ t.Accepted := by
  unfold regex Accepted
  rw [splitOn_text]
  simp only [splitOn_secondChars]
  cases t.fraction with
  | none => simp [and_assoc]
  | some f =>
      have hall : f.chars.all Char.isDigit = true := List.all_eq_true.2 f.digits
      simp [isFraction, hall, f.ne_nil, and_assoc]

theorem exists_digitText {p : List Char} (h : p ≠ [] ∧ ∀ c ∈ p, c.isDigit = true) :
    ∃ d : DigitText, p = d.chars := ⟨⟨p, h.1, h.2⟩, rfl⟩

theorem toNat_le {c : Char} {n : Char} (h : c ≤ n) : c.toNat ≤ n.toNat := h

theorem isHour_spec : ∀ {p : List Char}, isHour p = true →
    (p ≠ [] ∧ ∀ c ∈ p, c.isDigit = true) ∧ Nat.ofDigitChars 10 p 0 ≤ 24
  | [b], h => by
      have hb := isDigit_toNat h
      refine ⟨⟨by simp, fun c hc => ?_⟩, ?_⟩
      · rw [List.mem_singleton.1 hc]
        exact h
      · rw [ofDigitChars_one]
        omega
  | [a, b], h => by
      simp only [isHour, Bool.or_eq_true, Bool.and_eq_true, beq_iff_eq, decide_eq_true_eq] at h
      have hb : b.isDigit = true := h.elim (·.2) (·.2.1)
      have hb' := isDigit_toNat hb
      have ha : a.isDigit = true := by
        rcases h with ⟨rfl | rfl, -⟩ | ⟨rfl, -⟩ <;> rfl
      refine ⟨⟨by simp, ?_⟩, ?_⟩
      · simp [ha, hb]
      · rw [ofDigitChars_two]
        rcases h with ⟨rfl | rfl, -⟩ | ⟨rfl, -, h⟩
        · rw [show Char.toNat '0' = 48 from rfl]
          omega
        · rw [show Char.toNat '1' = 49 from rfl]
          omega
        · have := toNat_le h
          rw [show Char.toNat '4' = 52 from rfl] at this
          rw [show Char.toNat '2' = 50 from rfl]
          omega

theorem isSixty_spec : ∀ {p : List Char}, isSixty p = true →
    (p ≠ [] ∧ ∀ c ∈ p, c.isDigit = true) ∧ Nat.ofDigitChars 10 p 0 < 60
  | [b], h => by
      have hb := isDigit_toNat h
      refine ⟨⟨by simp, fun c hc => ?_⟩, ?_⟩
      · rw [List.mem_singleton.1 hc]
        exact h
      · rw [ofDigitChars_one]
        omega
  | [a, b], h => by
      simp only [isSixty, Bool.and_eq_true, decide_eq_true_eq] at h
      obtain ⟨⟨ha, h5⟩, hb⟩ := h
      have ha' := isDigit_toNat ha
      have hb' := isDigit_toNat hb
      have := toNat_le h5
      rw [show Char.toNat '5' = 53 from rfl] at this
      refine ⟨⟨by simp, ?_⟩, ?_⟩
      · simp [ha, hb]
      · rw [ofDigitChars_two]
        omega

/-- A text that passes has the parts of a `TimeText`. -/
theorem exists_text {s : List Char} (h : regex s = true) : ∃ t : TimeText, s = t.text := by
  have hs : [':'].intercalate (s.splitOn ':') = s := List.intercalate_splitOn ':'
  unfold regex at h
  split at h
  · next hour minute second heq =>
      rw [heq] at hs
      simp only [Bool.and_eq_true] at h
      obtain ⟨⟨hh, hm⟩, h⟩ := h
      obtain ⟨hour, rfl⟩ := exists_digitText (isHour_spec hh).1
      obtain ⟨minute, rfl⟩ := exists_digitText (isSixty_spec hm).1
      have hsec : ['.'].intercalate (second.splitOn '.') = second := List.intercalate_splitOn '.'
      split at h
      · next sec heq' =>
          obtain ⟨sec, rfl⟩ := exists_digitText (isSixty_spec h).1
          rw [heq'] at hsec
          refine ⟨⟨hour, minute, sec, none⟩, ?_⟩
          rw [← hs, ← hsec]
          simp [text, secondChars, List.intercalate]
      · next sec f heq' =>
          simp only [Bool.and_eq_true, isFraction, Bool.not_eq_true', List.isEmpty_eq_false_iff,
            List.all_eq_true] at h
          obtain ⟨hsixty, ⟨hne, -⟩, hall⟩ := h
          obtain ⟨sec, rfl⟩ := exists_digitText (isSixty_spec hsixty).1
          obtain ⟨f, rfl⟩ := exists_digitText ⟨hne, hall⟩
          rw [heq'] at hsec
          refine ⟨⟨hour, minute, sec, some f⟩, ?_⟩
          rw [← hs, ← hsec]
          simp [text, secondChars, List.intercalate]
      · cases h
  · cases h

/-! ### Reading -/

theorem ofDigitChars_lt {p : List Char} (h : ∀ c ∈ p, c.isDigit = true) :
    Nat.ofDigitChars 10 p 0 < 10 ^ p.length := by
  induction p using List.reverseRecOn with
  | nil => simp
  | append_singleton p c ih =>
      have ih := ih fun x hx => h x (List.mem_append_left _ hx)
      have hc := isDigit_toNat (h c (by simp))
      rw [Nat.ofDigitChars_append, Nat.ofDigitChars_cons, Nat.ofDigitChars_nil, List.length_append,
        List.length_singleton, pow_succ, show Char.toNat '0' = 48 from rfl]
      omega

theorem fits64 {x : ℤ} (h₁ : 0 ≤ x) (h₂ : x < 9223372036854775808) : Fits 64 x := by
  unfold Fits
  norm_num
  omega

theorem checked64 {x : ℤ} (h₁ : 0 ≤ x) (h₂ : x < 9223372036854775808) : checked 64 x = .ok x :=
  if_pos (fits64 h₁ h₂)

/-- The sum bounds the number and the product. -/
theorem addParsed_chars {d : DigitText} {total scale : ℤ} (htotal : 0 ≤ total) (hscale : 1 ≤ scale)
    (h : total + d.number * scale < 9223372036854775808) :
    addParsed total d.chars scale = .ok (total + d.number * scale) := by
  have hnumber := d.number_nonneg
  have hproduct : 0 ≤ d.number * scale := mul_nonneg hnumber (by omega)
  have hle : d.number ≤ d.number * scale := le_mul_of_one_le_right hnumber hscale
  have hparse : parseI64 d.chars = .ok d.number := by
    unfold parseI64
    rw [d.parse_chars, if_pos (fits64 hnumber (by omega))]
  unfold addParsed
  rw [bind_of_eq_ok hparse, bind_of_eq_ok (checked64 hproduct (by omega)),
    checked64 (add_nonneg htotal hproduct) h]

/-- The nanoseconds of the fraction. -/
def fractionNanos : ℤ :=
  match t.fraction with
  | none => 0
  | some f => f.number * 10 ^ (9 - f.chars.length)

/-- The total of `from_string`. -/
def total : ℤ :=
  (t.hour.number * millisSecInHour + t.minute.number * millisSecInMin + t.second.number * millisSecInSec) *
    nanoSecInMillis + t.fractionNanos

variable {t}

theorem Accepted.bounds (h : t.Accepted) : t.hour.number ≤ 24 ∧ t.minute.number < 60 ∧ t.second.number < 60 := by
  obtain ⟨hh, hm, hs, -⟩ := h
  have h₁ := (isHour_spec hh).2
  have h₂ := (isSixty_spec hm).2
  have h₃ := (isSixty_spec hs).2
  unfold DigitText.number
  omega

theorem fraction_lt {f : DigitText} : f.number < 10 ^ f.chars.length := by
  unfold DigitText.number
  exact_mod_cast ofDigitChars_lt f.digits

theorem scaled_lt {f : DigitText} (hlen : f.chars.length ≤ 9) :
    0 ≤ f.number * 10 ^ (9 - f.chars.length) ∧ f.number * 10 ^ (9 - f.chars.length) < 10 ^ 9 := by
  have hpow : (10 : ℤ) ^ f.chars.length * 10 ^ (9 - f.chars.length) = 10 ^ 9 := by
    rw [← pow_add, Nat.add_sub_cancel' hlen]
  have hpos : (0 : ℤ) < 10 ^ (9 - f.chars.length) := by positivity
  refine ⟨mul_nonneg f.number_nonneg hpos.le, ?_⟩
  rw [← hpow]
  exact mul_lt_mul_of_pos_right fraction_lt hpos

theorem Accepted.fractionNanos_lt (h : t.Accepted) : 0 ≤ t.fractionNanos ∧ t.fractionNanos < 10 ^ 9 := by
  obtain ⟨-, -, -, hf⟩ := h
  unfold fractionNanos
  cases hfraction : t.fraction with
  | none => simp
  | some f => exact scaled_lt (hf f hfraction)

/-- Nothing goes wrong for a fraction of up to nine digits. -/
theorem addParsed_fraction {f : DigitText} (hlen : f.chars.length ≤ 9) :
    nineMinus f.chars.length = .ok (9 - f.chars.length) ∧
      checked 64 (10 ^ (9 - f.chars.length)) = .ok (10 ^ (9 - f.chars.length)) ∧
      addParsed 0 f.chars (10 ^ (9 - f.chars.length)) = .ok (f.number * 10 ^ (9 - f.chars.length)) := by
  have hpow : (10 : ℤ) ^ (9 - f.chars.length) ≤ 10 ^ 9 := pow_le_pow_right₀ (by norm_num) (by omega)
  have hpow₀ : (0 : ℤ) < 10 ^ (9 - f.chars.length) := by positivity
  have hscaled := (scaled_lt hlen).2
  refine ⟨?_, checked64 (by omega) (by omega), ?_⟩
  · unfold nineMinus
    rw [Nat.mod_eq_of_lt (by omega), if_pos hlen]
  · have hadd := @addParsed_chars f 0 (10 ^ (9 - f.chars.length)) le_rfl (by omega) (by omega)
    rwa [zero_add] at hadd

theorem addSeconds_secondChars (h : t.Accepted) {millis : ℤ} (h₀ : 0 ≤ millis) (h₁ : millis ≤ 100000000) :
    addSeconds millis t.secondChars = .ok (millis + t.second.number * millisSecInSec, t.fractionNanos) := by
  obtain ⟨-, -, hsec⟩ := h.bounds
  have hsec₀ := t.second.number_nonneg
  have hadd : addParsed millis t.second.chars millisSecInSec = .ok (millis + t.second.number * millisSecInSec) := by
    unfold millisSecInSec
    exact addParsed_chars h₀ (by norm_num) (by omega)
  have hparts := t.splitOn_secondChars
  unfold addSeconds
  cases hfraction : t.fraction with
  | none =>
      rw [hfraction] at hparts
      rw [hparts]
      simp [index, hadd, fractionNanos, hfraction, bind, Except.bind, pure, Except.pure]
  | some f =>
      rw [hfraction, Option.map_some, Option.toList_some] at hparts
      have hvalue : t.fractionNanos = f.number * 10 ^ (9 - f.chars.length) := by
        unfold fractionNanos
        rw [hfraction]
      obtain ⟨hcount, hchecked, hnanos⟩ := addParsed_fraction (h.2.2.2 f hfraction)
      have hsecond : index [t.second.chars, f.chars] 0 = .ok t.second.chars := rfl
      have hfrac : index [t.second.chars, f.chars] 1 = .ok f.chars := rfl
      have hlength : [t.second.chars, f.chars].length = 2 := rfl
      rw [hparts, hvalue]
      simp only
      rw [bind_of_eq_ok hsecond, bind_of_eq_ok hadd, if_pos hlength, bind_of_eq_ok hfrac, bind_of_eq_ok hcount,
        bind_of_eq_ok hchecked, bind_of_eq_ok hnanos]
      rfl

/-- `from_string` reads an accepted text without a fault. -/
theorem fromString_text (h : t.Accepted) : LocalTimeWrapper.fromString t.text = .ok t.total := by
  obtain ⟨hhour, hmin, hsec⟩ := h.bounds
  obtain ⟨hnanos₀, hnanos⟩ := h.fractionNanos_lt
  have h₁ := t.hour.number_nonneg
  have h₂ := t.minute.number_nonneg
  have h₃ := t.second.number_nonneg
  have hadd : addParsed 0 t.hour.chars millisSecInHour = .ok (0 + t.hour.number * millisSecInHour) := by
    unfold millisSecInHour
    exact addParsed_chars le_rfl (by norm_num) (by omega)
  have hadd' : addParsed (t.hour.number * millisSecInHour) t.minute.chars millisSecInMin =
      .ok (t.hour.number * millisSecInHour + t.minute.number * millisSecInMin) := by
    unfold millisSecInHour millisSecInMin
    exact addParsed_chars (by omega) (by norm_num) (by omega)
  have hseconds := @addSeconds_secondChars t h
    (t.hour.number * millisSecInHour + t.minute.number * millisSecInMin)
    (by unfold millisSecInHour millisSecInMin; omega) (by unfold millisSecInHour millisSecInMin; omega)
  rw [zero_add] at hadd
  unfold LocalTimeWrapper.fromString
  rw [t.splitOn_text]
  have hhourPart : index [t.hour.chars, t.minute.chars, t.secondChars] 0 = .ok t.hour.chars := rfl
  have hminPart : index [t.hour.chars, t.minute.chars, t.secondChars] 1 = .ok t.minute.chars := rfl
  have hsecPart : index [t.hour.chars, t.minute.chars, t.secondChars] 2 = .ok t.secondChars := rfl
  have hlength : [t.hour.chars, t.minute.chars, t.secondChars].length = 3 := rfl
  simp only
  rw [bind_of_eq_ok hhourPart, bind_of_eq_ok hadd, bind_of_eq_ok hminPart, bind_of_eq_ok hadd', if_pos hlength,
    bind_of_eq_ok hsecPart, bind_of_eq_ok hseconds]
  norm_num at hnanos
  unfold total millisSecInHour millisSecInMin millisSecInSec nanoSecInMillis
  rw [bind_of_eq_ok (checked64 (by omega) (by omega)), checked64 (by omega) (by omega)]

theorem fractionNanos_eq (h : t.Accepted) : (t.fractionNanos : ℚ) = t.fractionValue * 10 ^ 9 := by
  obtain ⟨-, -, -, hf⟩ := h
  unfold fractionNanos fractionValue
  cases hfraction : t.fraction with
  | none => simp
  | some f =>
      have hpow : (10 : ℚ) ^ 9 = 10 ^ (9 - f.chars.length) * 10 ^ f.chars.length := by
        rw [← pow_add, Nat.sub_add_cancel (hf f hfraction)]
      simp only
      rw [hpow]
      push_cast
      field_simp

/-- The total is the number of nanoseconds that the text denotes. -/
theorem total_eq (h : t.Accepted) : (t.total : ℚ) = t.nanoseconds := by
  unfold total nanoseconds millisSecInHour millisSecInMin millisSecInSec nanoSecInMillis
  push_cast
  rw [fractionNanos_eq h]
  ring

theorem total_nonneg (h : t.Accepted) : 0 ≤ t.total := by
  have h₁ := t.hour.number_nonneg
  have h₂ := t.minute.number_nonneg
  have h₃ := t.second.number_nonneg
  have h₄ := h.fractionNanos_lt.1
  unfold total millisSecInHour millisSecInMin millisSecInSec nanoSecInMillis
  positivity

end TimeText

/-! ### Printing -/

theorem convertToObject_spec {n : ℤ} (h₀ : 0 ≤ n) (h₁ : n ≤ maxNanos) :
    ∃ hour minute second nanosecond : ℤ,
      convertToObject n = ⟨n, hour, minute, second, nanosecond, n⟩ ∧
      (0 ≤ hour ∧ hour < 24) ∧ (0 ≤ minute ∧ minute < 60) ∧ (0 ≤ second ∧ second < 60) ∧
      (0 ≤ nanosecond ∧ nanosecond < 10 ^ 9) ∧
      n = (hour * 3600 + minute * 60 + second) * 10 ^ 9 + nanosecond := by
  refine ⟨n / 1000000000 / 60 / 60, n / 1000000000 / 60 % 60, n / 1000000000 % 60, n % 1000000000, ?_, ?_, ?_,
    ?_, ?_, ?_⟩
  · have hsecond : 0 ≤ n / 1000000000 := by omega
    have hminute : 0 ≤ n / 1000000000 / 60 := by omega
    unfold convertToObject nanoSecInSec
    simp only [tdiv_of_nonneg h₀, tdiv_of_nonneg hsecond, tdiv_of_nonneg hminute,
      Int.tmod_eq_emod_of_nonneg hsecond, Int.tmod_eq_emod_of_nonneg hminute, LocalTimeWrapper.mk.injEq, true_and, and_true]
    omega
  all_goals
    unfold maxNanos at h₁
    omega

theorem displayTwo_eq {n : ℤ} (h : 0 ≤ n) : displayTwo n = (partText n).chars := by
  unfold displayTwo partText DigitText.padded
  rw [displayInt_of_nonneg h]
  split <;> rfl

theorem isHour_partText {n : ℤ} (h₀ : 0 ≤ n) (h₁ : n < 24) : isHour (partText n).chars = true := by
  have hall : ∀ k < 24, isHour (partText (k : ℕ)).chars = true := by decide +kernel
  have := hall n.toNat (by omega)
  rwa [Int.toNat_of_nonneg h₀] at this

theorem isSixty_partText {n : ℤ} (h₀ : 0 ≤ n) (h₁ : n < 60) : isSixty (partText n).chars = true := by
  have hall : ∀ k < 60, isSixty (partText (k : ℕ)).chars = true := by decide +kernel
  have := hall n.toNat (by omega)
  rwa [Int.toNat_of_nonneg h₀] at this

/-- The zeros that are taken off are the digits that are missing then. -/
theorem stripZeros_spec {n : ℕ} (h : 0 < n) : ∃ k, n = stripZeros n * 10 ^ k ∧
    (Nat.toDigits 10 n).length = (Nat.toDigits 10 (stripZeros n)).length + k := by
  induction n using stripZeros.induct with
  | case1 n hn ih =>
      obtain ⟨k, hk, hlen⟩ := ih (by omega)
      have hstrip : stripZeros n = stripZeros (n / 10) := by
        conv_lhs => rw [stripZeros, if_pos hn]
      refine ⟨k + 1, ?_, ?_⟩
      · rw [hstrip, pow_succ, ← mul_assoc, ← hk]
        omega
      · have hdigits : Nat.toDigits 10 (n / 10) ++ Nat.toDigits 10 0 = Nat.toDigits 10 (10 * (n / 10) + 0) :=
          Nat.toDigits_append_toDigits (by norm_num) (by omega) (by norm_num)
        rw [show 10 * (n / 10) + 0 = n by omega] at hdigits
        rw [← hdigits, List.length_append, hlen, hstrip]
        rfl
  | case2 n hn =>
      refine ⟨0, ?_, ?_⟩ <;> simp [stripZeros, hn]

theorem length_toDigits_le {n : ℕ} (h : n < 10 ^ 9) : (Nat.toDigits 10 n).length ≤ 9 :=
  (Nat.length_toDigits_le_iff (by norm_num) (by norm_num)).2 h

/-- The fraction of a number of nanoseconds. -/
def fractionText (n : ℕ) : DigitText := .padded (9 - (Nat.toDigits 10 n).length) (stripZeros n)

theorem displayFraction_eq {n : ℤ} (h : 0 ≤ n) : displayFraction n = (fractionText n.toNat).chars := by
  have hnat : n.natAbs = n.toNat := by omega
  unfold displayFraction fractionText DigitText.padded
  simp only
  rw [displayInt_of_nonneg h, hnat, displayInt_of_nonneg (Int.natCast_nonneg _)]
  rfl

theorem fractionText_spec {n : ℕ} (h₀ : 0 < n) (h₁ : n < 10 ^ 9) :
    (fractionText n).chars.length ≤ 9 ∧
      (fractionText n).number * 10 ^ (9 - (fractionText n).chars.length) = n := by
  obtain ⟨k, hk, hlen⟩ := stripZeros_spec h₀
  have hle := length_toDigits_le h₁
  have hlength : (fractionText n).chars.length = 9 - k := by
    simp only [fractionText, DigitText.padded, List.length_append, List.length_replicate]
    omega
  refine ⟨by omega, ?_⟩
  have hback : 9 - (9 - k) = k := by omega
  rw [hlength, hback, fractionText, DigitText.number_padded]
  exact_mod_cast hk.symm

/-- The parts of what is printed. -/
def printed (w : LocalTimeWrapper) : TimeText where
  hour := partText w.hour
  minute := partText w.minute
  second := partText w.second
  fraction := if 0 < w.nanosecond then some (fractionText w.nanosecond.toNat) else none

theorem display_eq_text {w : LocalTimeWrapper} (hh : 0 ≤ w.hour) (hm : 0 ≤ w.minute) (hs : 0 ≤ w.second) :
    w.display = (printed w).text := by
  unfold LocalTimeWrapper.display TimeText.text TimeText.secondChars printed
  rw [displayTwo_eq hh, displayTwo_eq hm, displayTwo_eq hs]
  by_cases hn : 0 < w.nanosecond
  · simp [hn, displayFraction_eq hn.le, List.intercalate]
  · simp [hn, List.intercalate]

theorem accepted_printed {n : ℤ} (h₀ : 0 ≤ n) (h₁ : n ≤ maxNanos) :
    (convertToObject n).display = (printed (convertToObject n)).text ∧
      (printed (convertToObject n)).Accepted ∧
      LocalTimeWrapper.fromString (printed (convertToObject n)).text = .ok n := by
  obtain ⟨hour, minute, second, nanosecond, hw, ⟨hh₀, hh₁⟩, ⟨hm₀, hm₁⟩, ⟨hs₀, hs₁⟩, ⟨hn₀, hn₁⟩, hsum⟩ :=
    convertToObject_spec h₀ h₁
  rw [hw]
  have haccepted : (printed ⟨n, hour, minute, second, nanosecond, n⟩).Accepted := by
    refine ⟨isHour_partText hh₀ hh₁, isSixty_partText hm₀ hm₁, isSixty_partText hs₀ hs₁, fun f hf => ?_⟩
    simp only [printed, Option.mem_def, Option.ite_none_right_eq_some, Option.some.injEq] at hf
    obtain ⟨hpos, rfl⟩ := hf
    exact (fractionText_spec (by omega) (by omega)).1
  have hnanos : (printed ⟨n, hour, minute, second, nanosecond, n⟩).fractionNanos = nanosecond := by
    unfold TimeText.fractionNanos printed
    by_cases hpos : 0 < nanosecond
    · have := (fractionText_spec (n := nanosecond.toNat) (by omega) (by omega)).2
      rw [Int.toNat_of_nonneg hn₀] at this
      simpa only [if_pos hpos] using this
    · simp only [if_neg hpos]
      omega
  refine ⟨display_eq_text hh₀ hm₀ hs₀, haccepted, ?_⟩
  rw [TimeText.fromString_text haccepted, TimeText.total, hnanos]
  unfold printed millisSecInHour millisSecInMin millisSecInSec nanoSecInMillis
  simp only [number_partText hh₀, number_partText hm₀, number_partText hs₀]
  congr 1
  omega

/-! ### `LocalTime.fromString` -/

theorem construct_of_le {n : ℤ} (h₀ : 0 ≤ n) (h₁ : n ≤ maxNanos) : construct n = .ok (convertToObject n) :=
  if_neg (by omega)

/-- Every time of a day comes back from its text.  A text that passes the expression is read without a
fault, as the number of nanoseconds that it denotes, and is refused if that is past the end of the day. -/
theorem fromString_exact :
    (∀ n : ℤ, 0 ≤ n → n ≤ maxNanos → ∃ w, construct n = .ok w ∧ w.value = n ∧ fromString w.display = .ok w) ∧
      (∀ s : List Char, regex s = true → ∃ t : TimeText, s = t.text) ∧
      ∀ t : TimeText, regex t.text = true → ∃ v : ℤ, (v : ℚ) = t.nanoseconds ∧
        LocalTimeWrapper.fromString t.text = .ok v ∧
        fromString t.text =
          if v ≤ maxNanos then .ok (convertToObject v) else .error (.typeError "Total nanoseconds out of range") := by
  refine ⟨fun n h₀ h₁ => ?_, fun s => TimeText.exists_text, fun t ht => ?_⟩
  · obtain ⟨hdisplay, haccepted, hread⟩ := accepted_printed h₀ h₁
    refine ⟨convertToObject n, construct_of_le h₀ h₁, rfl, ?_⟩
    rw [hdisplay, fromString, (TimeText.regex_text _).2 haccepted, hread]
    exact construct_of_le h₀ h₁
  · have haccepted := t.regex_text.1 ht
    have hnonneg := TimeText.total_nonneg haccepted
    have hread := TimeText.fromString_text haccepted
    refine ⟨t.total, TimeText.total_eq haccepted, hread, ?_⟩
    rw [fromString, ht, hread]
    simp only [Bool.not_true, Bool.false_eq_true, if_false, construct]
    by_cases hle : t.total ≤ maxNanos
    · rw [if_neg (by omega), if_pos hle]
    · rw [if_pos (by omega), if_neg hle]

theorem fromString_exact_late :
    (∃ w, construct 45296000120000 = .ok w ∧ w.value = 45296000120000 ∧ fromString w.display = .ok w) ∧
      (∃ t : TimeText, "24:5:9.025".toList = t.text) ∧
      ∃ v : ℤ, (v : ℚ) = TimeText.nanoseconds ⟨.ofString "24" (by decide), .ofString "5" (by decide),
          .ofString "9" (by decide), some (.ofString "025" (by decide))⟩ ∧
        LocalTimeWrapper.fromString "24:5:9.025".toList = .ok v ∧
        fromString "24:5:9.025".toList =
          if v ≤ maxNanos then .ok (convertToObject v) else .error (.typeError "Total nanoseconds out of range") :=
  ⟨fromString_exact.1 45296000120000 (by decide) (by decide),
    fromString_exact.2.1 "24:5:9.025".toList (by decide +kernel),
    fromString_exact.2.2 ⟨.ofString "24" (by decide), .ofString "5" (by decide), .ofString "9" (by decide),
      some (.ofString "025" (by decide))⟩ (by decide +kernel)⟩

end CqlDriver.LocalTime
