import Mathlib

/-! # Binary search in a sorted list

`binarySearch` returns the position of a key, or the bitwise complement of the position where it
belongs; `insertSorted` inserts at that position.  The position is `rank`, the number of elements
before the first one that is not below the key: `binarySearch_eq` and `insertSorted_eq` hold for every
list in strictly increasing order. -/

namespace SortedSearch

variable {α : Type} [LinearOrder α]

/-- `~x` -/
def complement (x : ℤ) : ℤ := -x - 1

/-- The loop on `low` and `high`, for at most `fuel` tests of its condition. -/
def searchLoop (arr : List α) (key : α) : ℕ → ℤ → ℤ → ℤ
  | 0, low, _ => complement low
  | fuel + 1, low, high =>
      if low ≤ high then
        let mid := (low + high) / 2
        match arr[mid.toNat]? with
        | none => complement low
        | some midVal =>
            match cmp midVal key with
            | .lt => searchLoop arr key fuel (mid + 1) high
            | .gt => searchLoop arr key fuel low (mid - 1)
            | .eq => mid
      else complement low

/-- Every pass makes the interval shorter, so that a pass for each element is enough. -/
def binarySearch (arr : List α) (key : α) : ℤ := searchLoop arr key (arr.length + 1) 0 (arr.length - 1)

/-- The position of a result, found or not. -/
def position (i : ℤ) : ℕ := (if i < 0 then complement i else i).toNat

def insertSorted (arr : List α) (item : α) : List α :=
  if arr.length = 0 then arr ++ [item]
  else
    let position := position (binarySearch arr item)
    arr.take position ++ item :: arr.drop position

/-! ### The position of a key -/

/-- The number of elements before the first one that is not below the key. -/
def rank (arr : List α) (key : α) : ℕ := (arr.takeWhile (· < key)).length

theorem rank_le_length (arr : List α) (key : α) : rank arr key ≤ arr.length :=
  (List.takeWhile_prefix _).length_le

theorem takeWhile_append_eq (arr : List α) (key : α) :
    arr.takeWhile (· < key) ++ arr.dropWhile (· < key) = arr := List.takeWhile_append_dropWhile ..

/-- Before the rank of a key the elements are below it. -/
theorem getElem?_lt_of_lt_rank {arr : List α} {key a : α} {i : ℕ} (hi : i < rank arr key)
    (ha : arr[i]? = some a) : a < key := by
  have heq : (arr.takeWhile (· < key))[i]? = some a := by
    rw [← ha]
    conv_rhs => rw [← takeWhile_append_eq arr key]
    rw [List.getElem?_append_left hi]
  have hall := List.all_eq_true.1 (List.all_takeWhile (p := (· < key)) (l := arr)) a (List.mem_of_getElem? heq)
  simpa using hall

/-- From the rank of a key on the elements of a sorted list are not below it. -/
theorem le_getElem?_of_rank_le {arr : List α} (h : arr.Pairwise (· < ·)) {key a : α} {i : ℕ}
    (hi : rank arr key ≤ i) (ha : arr[i]? = some a) : key ≤ a := by
  induction arr generalizing i with
  | nil => simp at ha
  | cons b arr ih =>
      obtain ⟨hb, harr⟩ := List.pairwise_cons.1 h
      by_cases hlt : b < key
      · have hrank : rank (b :: arr) key = rank arr key + 1 := by simp [rank, hlt]
        obtain ⟨j, rfl⟩ : ∃ j, i = j + 1 := ⟨i - 1, by omega⟩
        rw [List.getElem?_cons_succ] at ha
        exact ih harr (by omega) ha
      · cases i with
        | zero =>
            rw [List.getElem?_cons_zero, Option.some.injEq] at ha
            rw [← ha]
            exact not_lt.1 hlt
        | succ i =>
            rw [List.getElem?_cons_succ] at ha
            exact (not_lt.1 hlt).trans (hb a (List.mem_of_getElem? ha)).le

/-- The rank of an element is its position. -/
theorem rank_eq_of_getElem? {arr : List α} (h : arr.Pairwise (· < ·)) {key : α} {i : ℕ}
    (hi : arr[i]? = some key) : rank arr key = i := by
  have hle : rank arr key ≤ i := by
    by_contra hlt
    exact lt_irrefl _ (getElem?_lt_of_lt_rank (not_le.1 hlt) hi)
  by_contra hne
  obtain ⟨hi', rfl⟩ := List.getElem?_eq_some_iff.1 hi
  -- an element between the rank and the key would be below the key
  have hlt : rank arr arr[i] < arr.length := by omega
  have hge := le_getElem?_of_rank_le h le_rfl (List.getElem?_eq_getElem hlt)
  exact absurd (List.pairwise_iff_getElem.1 h _ _ hlt hi' (by omega)) (not_lt.2 hge)

theorem getElem?_rank_of_mem {arr : List α} (h : arr.Pairwise (· < ·)) {key : α} (hkey : key ∈ arr) :
    arr[rank arr key]? = some key := by
  obtain ⟨i, hi⟩ := List.mem_iff_getElem?.1 hkey
  rw [rank_eq_of_getElem? h hi]
  exact hi

/-! ### The search -/

/-- What the search returns. -/
def found (arr : List α) (key : α) : ℤ :=
  if key ∈ arr then rank arr key else complement (rank arr key)

theorem searchLoop_eq {arr : List α} (h : arr.Pairwise (· < ·)) (key : α) :
    ∀ (fuel : ℕ) (low high : ℤ), 0 ≤ low → low ≤ rank arr key → (rank arr key : ℤ) ≤ high + 1 →
      high < arr.length → (key ∈ arr → (rank arr key : ℤ) ≤ high) → high + 1 - low < fuel →
      searchLoop arr key fuel low high = found arr key
  | 0, low, high, h₀, h₁, h₂, _, _, hfuel => by omega
  | fuel + 1, low, high, h₀, h₁, h₂, h₃, hmem, hfuel => by
      rw [searchLoop]
      by_cases hle : low ≤ high
      · have hmid : ((low + high) / 2).toNat < arr.length := by omega
        have hget := List.getElem?_eq_getElem hmid
        rw [if_pos hle]
        simp only [hget]
        set a := arr[((low + high) / 2).toNat]
        rcases hcmp : cmp a key with _ | _ | _
        · -- below the key: the rank is behind the middle
          have hlt : a < key := by simpa using hcmp
          have hrank : ((low + high) / 2).toNat < rank arr key := by
            by_contra hge
            exact absurd (le_getElem?_of_rank_le h (not_lt.1 hge) hget) (not_le.2 hlt)
          exact searchLoop_eq h key fuel _ _ (by omega) (by omega) h₂ h₃ hmem (by omega)
        · have heq : a = key := by simpa using hcmp
          have hin : key ∈ arr := heq ▸ List.getElem_mem hmid
          have hrank := rank_eq_of_getElem? h (heq ▸ hget)
          rw [found, if_pos hin, hrank]
          change (low + high) / 2 = _
          omega
        · -- above the key: the rank is not behind the middle
          have hgt : key < a := by simpa using hcmp
          have hrank : rank arr key ≤ ((low + high) / 2).toNat := by
            by_contra hlt
            exact lt_asymm hgt (getElem?_lt_of_lt_rank (not_le.1 hlt) hget)
          refine searchLoop_eq h key fuel _ _ h₀ h₁ (by omega) (by omega) (fun hin => ?_) (by omega)
          have hr := getElem?_rank_of_mem h hin
          have hne : rank arr key ≠ ((low + high) / 2).toNat := by
            intro he
            rw [he, hget] at hr
            exact absurd (Option.some.inj hr) (ne_of_gt hgt)
          omega
      · rw [if_neg hle]
        have hnot : key ∉ arr := fun hin => by
          have := hmem hin
          omega
        rw [found, if_neg hnot, complement, complement]
        omega

theorem binarySearch_eq {arr : List α} (h : arr.Pairwise (· < ·)) (key : α) :
    binarySearch arr key = found arr key := by
  have hle := rank_le_length arr key
  refine searchLoop_eq h key _ _ _ le_rfl (by omega) (by omega) (by omega) (fun hin => ?_) (by push_cast; omega)
  have := (List.getElem?_eq_some_iff.1 (getElem?_rank_of_mem h hin)).1
  omega

theorem position_found (arr : List α) (key : α) : position (found arr key) = rank arr key := by
  unfold position found complement
  split_ifs <;> omega

/-! ### Insertion -/

/-- The element is inserted, in a list of any order. -/
theorem insertSorted_perm (arr : List α) (item : α) : (insertSorted arr item).Perm (item :: arr) := by
  unfold insertSorted
  split_ifs with hnil
  · rw [List.length_eq_zero_iff.1 hnil]
    exact .refl _
  · apply List.perm_middle.trans
    rw [List.take_append_drop]

theorem foldl_insertSorted_perm (items arr : List α) : (items.foldl insertSorted arr).Perm (arr ++ items) := by
  induction items generalizing arr with
  | nil => rw [List.append_nil, List.foldl_nil]
  | cons item items ih =>
      have hmiddle := ((insertSorted_perm arr item).append_right items).trans List.perm_middle.symm
      exact (ih (insertSorted arr item)).trans hmiddle

theorem insertSorted_eq {arr : List α} (h : arr.Pairwise (· < ·)) (item : α) :
    insertSorted arr item = arr.orderedInsert (· ≤ ·) item := by
  have hrank : insertSorted arr item = arr.take (rank arr item) ++ item :: arr.drop (rank arr item) := by
    unfold insertSorted
    split_ifs with hnil
    · rw [List.length_eq_zero_iff.1 hnil]
      rfl
    · simp only [binarySearch_eq h, position_found]
  have htake : arr.take (rank arr item) = arr.takeWhile (· < item) := by
    conv_lhs => rhs; rw [← takeWhile_append_eq arr item]
    exact List.take_left
  have hdrop : arr.drop (rank arr item) = arr.dropWhile (· < item) := by
    conv_lhs => rhs; rw [← takeWhile_append_eq arr item]
    exact List.drop_left
  rw [hrank, htake, hdrop, List.orderedInsert_eq_take_drop]
  simp only [not_le]

/-- Inserting an element that is new keeps the order. -/
theorem insertSorted_pairwise {arr : List α} (h : arr.Pairwise (· < ·)) {item : α} (hitem : item ∉ arr) :
    (insertSorted arr item).Pairwise (· < ·) := by
  have hnodup : (insertSorted arr item).Nodup :=
    (insertSorted_perm arr item).nodup_iff.2 (List.nodup_cons.2 ⟨hitem, h.imp ne_of_lt⟩)
  rw [insertSorted_eq h] at hnodup ⊢
  have hsorted := List.Pairwise.orderedInsert (r := (· ≤ ·)) item arr (h.imp le_of_lt)
  exact hsorted.imp₂ (fun _ _ hle hne => lt_of_le_of_ne hle hne) hnodup

/-- The elements of a list without repetitions, inserted one after the other. -/
theorem foldl_insertSorted {items arr : List α} (h : arr.Pairwise (· < ·)) (hnodup : (arr ++ items).Nodup) :
    (items.foldl insertSorted arr).Pairwise (· < ·) := by
  induction items generalizing arr with
  | nil => exact h
  | cons item items ih =>
      have hitem : item ∉ arr := fun hmem => (List.nodup_append.1 hnodup).2.2 item hmem item (by simp) rfl
      have hmiddle := ((insertSorted_perm arr item).append_right items).trans List.perm_middle.symm
      exact ih (insertSorted_pairwise h hitem) (hmiddle.nodup_iff.2 hnodup)

end SortedSearch
