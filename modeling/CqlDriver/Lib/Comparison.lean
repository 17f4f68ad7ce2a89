import Mathlib

/-! # Comparison functions

A comparison function returns a number whose sign says how two values compare.  A list that is sorted by a total
preorder holds the values that are less than a key first, then those that compare equal to it, then the greater ones;
`lower` and `upper` are the positions where the second and the third part start.  A value may be inserted between the
two, and nowhere else (`sorted_insert_iff`). -/

/-- A comparison function that is a total preorder. -/
structure Comparison (α R : Type) [LinearOrder R] [Zero R] where
  compareFunc : α → α → R
  swap : ∀ a b, compareFunc a b < 0 ↔ 0 < compareFunc b a
  trans : ∀ a b c, compareFunc a b ≤ 0 → compareFunc b c ≤ 0 → compareFunc a c ≤ 0

namespace Comparison

variable {α R : Type} [LinearOrder R] [Zero R] (c : Comparison α R)

def Sorted (l : List α) : Prop := l.Pairwise fun a b => c.compareFunc a b ≤ 0

/-- The position of the first value that is not less than the key. -/
def lower (l : List α) (key : α) : ℕ := l.findIdx fun a => decide (0 ≤ c.compareFunc a key)

/-- The position of the first value that is greater than the key. -/
def upper (l : List α) (key : α) : ℕ := l.findIdx fun a => decide (0 < c.compareFunc a key)

variable {c}

theorem nonneg_iff {a b : α} : 0 ≤ c.compareFunc a b ↔ c.compareFunc b a ≤ 0 := by
  rw [← not_lt, c.swap, not_lt]

theorem upper_le_length (l : List α) (key : α) : c.upper l key ≤ l.length := List.findIdx_le_length

/-- What holds of the values behind one of which it holds is found at its first position and from there on. -/
theorem of_findIdx_le {p : α → Bool} (hp : ∀ a b, c.compareFunc a b ≤ 0 → p a = true → p b = true) {l : List α}
    (h : c.Sorted l) {i : ℕ} {a : α} (hi : l.findIdx p ≤ i) (ha : l[i]? = some a) : p a = true := by
  obtain ⟨hlt, rfl⟩ := List.getElem?_eq_some_iff.1 ha
  have hfirst := List.findIdx_getElem (p := p) (w := hi.trans_lt hlt)
  rcases hi.eq_or_lt with heq | hbefore
  · simpa only [heq] using hfirst
  · exact hp _ _ (List.pairwise_iff_getElem.1 h _ _ (hi.trans_lt hlt) hlt hbefore) hfirst

/-- A value is less than the key, equal or greater by its position. -/
theorem compare_cases {l : List α} (h : c.Sorted l) (key : α) {i : ℕ} {a : α} (ha : l[i]? = some a) :
    i < c.lower l key ∧ c.compareFunc a key < 0 ∨
      c.lower l key ≤ i ∧ i < c.upper l key ∧ c.compareFunc a key = 0 ∨
        c.upper l key ≤ i ∧ 0 < c.compareFunc a key := by
  obtain ⟨hlt, hget⟩ := List.getElem?_eq_some_iff.1 ha
  by_cases hlower : i < c.lower l key
  · have hnot := List.not_of_lt_findIdx hlower
    rw [hget, decide_eq_false_iff_not, not_le] at hnot
    exact .inl ⟨hlower, hnot⟩
  · have hnonneg : 0 ≤ c.compareFunc a key := by
      have hp := of_findIdx_le (p := fun a => decide (0 ≤ c.compareFunc a key)) (fun a b hab hpa => ?_) h
        (not_lt.1 hlower) ha
      · exact of_decide_eq_true hp
      · rw [decide_eq_true_eq, nonneg_iff] at hpa ⊢
        exact c.trans _ _ _ hpa hab
    by_cases hupper : i < c.upper l key
    · have hnot := List.not_of_lt_findIdx hupper
      rw [hget, decide_eq_false_iff_not, not_lt] at hnot
      exact .inr (.inl ⟨not_lt.1 hlower, hupper, hnot.antisymm hnonneg⟩)
    · have hp := of_findIdx_le (p := fun a => decide (0 < c.compareFunc a key)) (fun a b hab hpa => ?_) h
        (not_lt.1 hupper) ha
      · exact .inr (.inr ⟨not_lt.1 hupper, of_decide_eq_true hp⟩)
      · rw [decide_eq_true_eq, ← c.swap] at hpa ⊢
        by_contra hle
        rw [not_lt, nonneg_iff] at hle
        exact absurd (c.trans _ _ _ hab hle) (not_le.2 ((c.swap _ _).1 hpa))

theorem lower_le_upper {l : List α} (h : c.Sorted l) (key : α) : c.lower l key ≤ c.upper l key := by
  by_contra hlt
  have hlength : c.upper l key < l.length := (not_le.1 hlt).trans_le List.findIdx_le_length
  rcases compare_cases h key (List.getElem?_eq_getElem hlength) with ⟨-, hneg⟩ | ⟨hle, -⟩ | ⟨-, hpos⟩
  · have hupper := List.findIdx_getElem (w := hlength)
    exact absurd (of_decide_eq_true hupper) (not_lt.2 hneg.le)
  · exact hlt hle
  · have hnot := List.not_of_lt_findIdx (not_le.1 hlt)
    exact of_decide_eq_false hnot hpos.le

/-- Without an equal value the less ones are followed by the greater ones. -/
theorem lower_eq_upper {l : List α} (h : c.Sorted l) {key : α} (hne : ∀ a ∈ l, c.compareFunc a key ≠ 0) :
    c.lower l key = c.upper l key := by
  refine (lower_le_upper h key).antisymm (not_lt.1 fun hlt => ?_)
  have hget := List.getElem?_eq_getElem (hlt.trans_le (upper_le_length l key))
  rcases compare_cases h key hget with ⟨hless, -⟩ | ⟨-, -, hzero⟩ | ⟨hge, -⟩
  · omega
  · exact hne _ (List.mem_of_getElem? hget) hzero
  · omega

/-! ### Insertion -/

theorem getElem?_take_of_mem {β : Type} {l : List β} {p : ℕ} {a : β} (h : a ∈ l.take p) :
    ∃ i < p, l[i]? = some a := by
  obtain ⟨i, hi, rfl⟩ := List.mem_take_iff_getElem.1 h
  exact ⟨i, by omega, List.getElem?_eq_getElem _⟩

theorem getElem?_drop_of_mem {β : Type} {l : List β} {p : ℕ} {a : β} (h : a ∈ l.drop p) :
    ∃ i ≥ p, l[i]? = some a := by
  obtain ⟨i, hi, rfl⟩ := List.mem_drop_iff_getElem.1 h
  exact ⟨p + i, by omega, List.getElem?_eq_getElem _⟩

/-- A value is inserted in order behind all that are less and before all that are greater. -/
theorem sorted_insert_iff {l : List α} (h : c.Sorted l) {p : ℕ} (hp : p ≤ l.length) (item : α) :
    c.Sorted (l.take p ++ item :: l.drop p) ↔ c.lower l item ≤ p ∧ p ≤ c.upper l item := by
  constructor
  · intro hsorted
    obtain ⟨-, hback, hacross⟩ := List.pairwise_append.1 hsorted
    refine ⟨not_lt.1 fun hlt => ?_, not_lt.1 fun hlt => ?_⟩
    · have hlength : p < l.length := hlt.trans_le List.findIdx_le_length
      have hmem : l[p] ∈ l.drop p := List.mem_drop_iff_getElem.2 ⟨0, by omega, by simp⟩
      have hle := (List.pairwise_cons.1 hback).1 _ hmem
      rcases compare_cases h item (List.getElem?_eq_getElem hlength) with ⟨-, hneg⟩ | ⟨hge, -⟩ | ⟨hge, -⟩
      · exact absurd hle (not_le.2 ((c.swap _ _).1 hneg))
      · omega
      · have := lower_le_upper h item
        omega
    · have hlength : c.upper l item < l.length := by omega
      have hmem : l[c.upper l item] ∈ l.take p := List.mem_take_iff_getElem.2 ⟨_, by omega, rfl⟩
      have hle := hacross _ hmem item List.mem_cons_self
      rcases compare_cases h item (List.getElem?_eq_getElem hlength) with ⟨hbefore, -⟩ | ⟨-, hbefore, -⟩ | ⟨-, hpos⟩
      · have := lower_le_upper h item
        omega
      · omega
      · exact absurd hle (not_le.2 hpos)
  · rintro ⟨hlower, hupper⟩
    have hfront : ∀ a ∈ l.take p, c.compareFunc a item ≤ 0 := by
      intro a ha
      obtain ⟨i, hi, hget⟩ := getElem?_take_of_mem ha
      rcases compare_cases h item hget with ⟨-, hneg⟩ | ⟨-, -, hzero⟩ | ⟨hge, -⟩
      · exact hneg.le
      · exact hzero.le
      · omega
    have hback : ∀ b ∈ l.drop p, c.compareFunc item b ≤ 0 := by
      intro b hb
      obtain ⟨i, hi, hget⟩ := getElem?_drop_of_mem hb
      rw [← nonneg_iff]
      rcases compare_cases h item hget with ⟨hlt, -⟩ | ⟨-, -, hzero⟩ | ⟨-, hpos⟩
      · omega
      · exact hzero.ge
      · exact hpos.le
    refine List.pairwise_append.2 ⟨h.sublist (List.take_sublist p l), List.pairwise_cons.2
      ⟨hback, h.sublist (List.drop_sublist p l)⟩, fun a ha b hb => ?_⟩
    rcases List.mem_cons.1 hb with rfl | hb
    · exact hfront a ha
    · exact c.trans _ _ _ (hfront a ha) (hback b hb)

/-! ### Linear orders -/

section
variable {α : Type} [LinearOrder α]

/-- The sign of the comparison in a linear order. -/
def sign (a b : α) : ℤ := match cmp a b with
  | .lt => -1
  | .eq => 0
  | .gt => 1

theorem sign_neg_iff {a b : α} : sign a b < 0 ↔ a < b := by
  rcases lt_trichotomy a b with h | rfl | h
  · simp [sign, h.cmp_eq_lt, h]
  · simp [sign]
  · simp [sign, h.cmp_eq_gt, h.le]

theorem sign_pos_iff {a b : α} : 0 < sign a b ↔ b < a := by
  rcases lt_trichotomy a b with h | rfl | h
  · simp [sign, h.cmp_eq_lt, h.le]
  · simp [sign]
  · simp [sign, h.cmp_eq_gt, h]

theorem sign_eq_zero_iff {a b : α} : sign a b = 0 ↔ a = b := by
  rw [eq_iff_le_not_lt, ← not_lt, sign_pos_iff, sign_neg_iff, not_lt, ← eq_iff_le_not_lt]

/-- The comparison of a linear order. -/
def ofOrder (α : Type) [LinearOrder α] : Comparison α ℤ where
  compareFunc := sign
  swap a b := by rw [sign_neg_iff, sign_pos_iff]
  trans a b d hab hbd := by
    rw [← not_lt, sign_pos_iff, not_lt] at *
    exact hab.trans hbd

theorem sorted_ofOrder {l : List α} (h : l.Pairwise (· < ·)) : (ofOrder α).Sorted l :=
  h.imp fun hlt => (sign_neg_iff.2 hlt).le

end

end Comparison
