import CqlDriver.Lib.Digits
import Mathlib.Data.Nat.Digits.Lemmas

/-! # Numerals in any radix up to 36

`text radix n` is what `Number.prototype.toString(radix)` prints for a natural number.  It is a numeral that is read
back (`numeralFrom_text`), and the text of a number with more than `k` digits is that of its front part and then its
last `k` digits, zeros among them (`text_eq_append`). -/

namespace Numerals

open Digits

def digitChar (d : ℕ) : Char := if d < 10 then Char.ofNat (48 + d) else Char.ofNat (87 + d)

def text (radix n : ℕ) : List Char := if n = 0 then ['0'] else (Nat.digits radix n).reverse.map digitChar

/-- `Number.prototype.toString(radix)` of an integer. -/
def intText (radix : ℕ) (n : ℤ) : List Char := if n < 0 then '-' :: text radix n.natAbs else text radix n.natAbs

/-- Zeros are put in front of a text that is shorter than `k`. -/
def padTo (k : ℕ) (digits : List Char) : List Char := List.replicate (k - digits.length) '0' ++ digits

variable {radix : ℕ}

theorem digitOf_digitChar (hradix : radix ≤ 36) {d : ℕ} (hd : d < radix) : digitOf radix (digitChar d) = some d := by
  have hall : ∀ radix < 37, ∀ d < radix, digitOf radix (digitChar d) = some d := by decide +kernel
  exact hall radix (by omega) d hd

theorem numeralFrom_map (hradix : radix ≤ 36) {ds : List ℕ} (hds : ∀ d ∈ ds, d < radix) (acc : ℕ) :
    numeralFrom radix acc (ds.map digitChar) = ds.foldl (fun acc d => acc * radix + d) acc := by
  induction ds generalizing acc with
  | nil => rfl
  | cons d ds ih =>
      rw [List.forall_mem_cons] at hds
      rw [List.map_cons, numeralFrom, digitOf_digitChar hradix hds.1]
      exact ih hds.2 _

theorem foldl_reverse_digits (ds : List ℕ) :
    ds.reverse.foldl (fun acc d => acc * radix + d) 0 = Nat.ofDigits radix ds := by
  induction ds with
  | nil => rfl
  | cons d ds ih =>
      rw [List.reverse_cons, List.foldl_append, ih, List.foldl_cons, List.foldl_nil, Nat.ofDigits_cons]
      ring

theorem text_eq (hradix : 2 ≤ radix) (n : ℕ) :
    ∃ ds : List ℕ, ds ≠ [] ∧ (∀ d ∈ ds, d < radix) ∧ text radix n = ds.reverse.map digitChar ∧
      Nat.ofDigits radix ds = n := by
  rcases eq_or_ne n 0 with rfl | hne
  · exact ⟨[0], by simp, by simpa using by omega, rfl, by simp⟩
  · exact ⟨Nat.digits radix n, Nat.digits_ne_nil_iff_ne_zero.2 hne, fun d => Nat.digits_lt_base hradix,
      if_neg hne, Nat.ofDigits_digits radix n⟩

theorem numeric_text (hradix : 2 ≤ radix ∧ radix ≤ 36) (n : ℕ) : Numeric radix (text radix n) := by
  obtain ⟨ds, -, hds, heq, -⟩ := text_eq hradix.1 n
  intro c hc
  rw [heq, List.mem_map] at hc
  obtain ⟨d, hd, rfl⟩ := hc
  rw [digitOf_digitChar hradix.2 (hds d (List.mem_reverse.1 hd))]
  rfl

theorem text_ne_nil (hradix : 2 ≤ radix) (n : ℕ) : text radix n ≠ [] := by
  obtain ⟨ds, hne, -, heq, -⟩ := text_eq hradix n
  rw [heq]
  simpa using hne

/-- The numeral of a number is read as that number. -/
theorem numeralFrom_text (hradix : 2 ≤ radix ∧ radix ≤ 36) (n : ℕ) : numeralFrom radix 0 (text radix n) = n := by
  obtain ⟨ds, -, hds, heq, hn⟩ := text_eq hradix.1 n
  rw [heq, numeralFrom_map hradix.2 (fun d hd => hds d (List.mem_reverse.1 hd)), foldl_reverse_digits, hn]

theorem padTo_text {k n : ℕ} (hk : 0 < k) :
    padTo k (text radix n) = (Nat.digits radix n ++ List.replicate (k - (Nat.digits radix n).length) 0).reverse.map
      digitChar := by
  rcases eq_or_ne n 0 with rfl | hne
  · obtain ⟨j, rfl⟩ : ∃ j : ℕ, k = j + 1 := ⟨k - 1, by omega⟩
    simp only [padTo, text, Nat.digits_zero, List.nil_append, List.reverse_replicate, List.map_replicate]
    exact (List.replicate_succ' (n := j) (a := '0')).symm
  · simp [padTo, text, hne, digitChar]

/-- The last `k` digits behind the others. -/
theorem text_eq_append (hradix : 2 ≤ radix) {k n : ℕ} (hk : 0 < k) (hle : radix ^ k ≤ n) :
    text radix n = text radix (n / radix ^ k) ++ padTo k (text radix (n % radix ^ k)) := by
  have hpow : 0 < radix ^ k := by positivity
  have hquot : 0 < n / radix ^ k := Nat.div_pos hle hpow
  have hlen : (Nat.digits radix (n % radix ^ k)).length ≤ k :=
    (Nat.digits_length_le_iff (by omega) _).2 (Nat.mod_lt n hpow)
  have happend := Nat.digits_append_zeroes_append_digits (b := radix) (n := n % radix ^ k)
    (k := k - (Nat.digits radix (n % radix ^ k)).length) (by omega) hquot
  rw [Nat.add_sub_cancel' hlen, Nat.mod_add_div] at happend
  rw [padTo_text hk, text, text, if_neg (by omega), if_neg hquot.ne', ← happend, ← List.map_append,
    ← List.reverse_append, List.append_assoc]

theorem text_ten (n : ℕ) : text 10 n = Nat.toDigits 10 n := by
  have hdigit : ∀ d < 10, text 10 d = [d.digitChar] := by decide +kernel
  induction n using Nat.strong_induction_on with
  | _ n ih =>
      rcases Nat.lt_or_ge n 10 with hlt | hge
      · rw [hdigit n hlt, Nat.toDigits_of_lt_base hlt]
      · have hmod := Nat.mod_lt n (by decide : 0 < 10)
        rw [text_eq_append (by decide) one_pos (by simpa using hge), pow_one, ih _ (by omega), hdigit _ hmod,
          Nat.toDigits_of_base_le (by decide) hge]
        rfl

end Numerals
