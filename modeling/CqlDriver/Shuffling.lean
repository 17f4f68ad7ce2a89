import Mathlib
import CqlDriver.LoadBalancing

/-! # Shuffled replicas (`shuffleArray` of `lib/utils.js`)

A pass of the loop settles one place of the array, from the last one down, with one of the elements in front of it.  So
an order of the elements fixes what each pass must have drawn: it comes out for the draws in one interval of length
`1 / (i + 1)` for each index `i`, and every order for intervals of the same lengths (`shuffleArray_eq_iff`). -/

namespace CqlDriver.LoadBalancing

variable {α : Type}

/-- The index that a pass draws. -/
def drawn (random : Random) (i : ℕ) : ℕ := ⌊(random : ℚ) * (i + 1)⌋.toNat

theorem drawn_le (random : Random) (i : ℕ) : drawn random i ≤ i := by
  have hlt : (random : ℚ) * (i + 1) < ((i + 1 : ℕ) : ℤ) := by
    push_cast
    nlinarith [random.2.2, random.2.1]
  have hfloor := Int.floor_lt.2 hlt
  unfold drawn
  omega

theorem drawn_eq_iff (random : Random) (i j : ℕ) :
    drawn random i = j ↔ (random : ℚ) ∈ Set.Ico ((j : ℚ) / (i + 1)) ((j + 1) / (i + 1)) := by
  have hpos : (0 : ℚ) < i + 1 := by positivity
  have hnonneg : 0 ≤ ⌊(random : ℚ) * (i + 1)⌋ := Int.floor_nonneg.2 (mul_nonneg random.2.1 hpos.le)
  have hcast : drawn random i = j ↔ ⌊(random : ℚ) * (i + 1)⌋ = (j : ℤ) := by
    unfold drawn
    omega
  rw [hcast, Int.floor_eq_iff, Set.mem_Ico, div_le_iff₀ hpos, lt_div_iff₀ hpos]
  push_cast
  rfl

/-! ### Places -/

theorem getElem?_swapIfInBounds_left {arr : Array α} {i j : ℕ} (hi : i < arr.size) (hj : j < arr.size) :
    (arr.swapIfInBounds i j)[i]? = arr[j]? := by
  rw [Array.getElem?_eq_getElem (by simpa using hi), Array.getElem_swapIfInBounds_left hj,
    Array.getElem?_eq_getElem hj]

theorem getElem?_swapIfInBounds_of_ne {arr : Array α} {i j k : ℕ} (hi : k ≠ i) (hj : k ≠ j) :
    (arr.swapIfInBounds i j)[k]? = arr[k]? := by
  by_cases hk : k < arr.size
  · rw [Array.getElem?_eq_getElem (by simpa using hk), Array.getElem_swapIfInBounds_of_ne_of_ne hi hj,
      Array.getElem?_eq_getElem hk]
  · rw [Array.getElem?_eq_none (by simpa using hk), Array.getElem?_eq_none (by simpa using hk)]

/-- The passes from an index down leave the places behind it as they are. -/
theorem getElem?_shuffleFrom (random : ℕ → Random) {i k : ℕ} (hk : i < k) (arr : Array α) :
    (shuffleFrom random i arr)[k]? = arr[k]? := by
  induction i generalizing arr with
  | zero => rfl
  | succ i ih =>
      have hle : drawn (random (i + 1)) (i + 1) ≤ i + 1 := drawn_le _ _
      rw [shuffleFrom, ih (by omega)]
      apply getElem?_swapIfInBounds_of_ne
      · omega
      · unfold drawn at hle
        push_cast at hle ⊢
        omega

theorem index_unique {arr : Array α} (hnodup : arr.toList.Nodup) {i j : ℕ} (hi : i < arr.size)
    (h : arr[i]? = arr[j]?) : i = j := by
  rw [← Array.getElem?_toList, ← Array.getElem?_toList] at h
  exact (List.getElem?_inj (by simpa using hi) hnodup).1 h

/-- Two orders that agree behind a place: the element that one of them has there is in front of it in the other. -/
theorem exists_source {arr arr' : Array α} (hnodup : arr.toList.Nodup) (hperm : arr'.Perm arr) {i : ℕ}
    (hi : i < arr.size) (hsame : ∀ k, i < k → arr'[k]? = arr[k]?) : ∃ j ≤ i, arr[j]? = arr'[i]? := by
  have hi' : i < arr'.size := hperm.size_eq ▸ hi
  have hmem : arr'[i] ∈ arr := hperm.mem_iff.1 (Array.getElem_mem hi')
  obtain ⟨j, hj⟩ := Array.getElem?_of_mem hmem
  have hsource : arr[j]? = arr'[i]? := by rw [hj, Array.getElem?_eq_getElem hi']
  refine ⟨j, ?_, hsource⟩
  by_contra hlt
  have hnodup' : arr'.toList.Nodup := (Array.perm_iff_toList_perm.1 hperm).nodup_iff.2 hnodup
  have hindex := index_unique hnodup' hi' ((hsource.symm.trans (hsame j (by omega)).symm))
  omega

/-- The passes make one order from another just when each of them draws one certain index. -/
theorem shuffleFrom_eq_iff (i : ℕ) {arr arr' : Array α} (hnodup : arr.toList.Nodup) (hperm : arr'.Perm arr)
    (hi : i < arr.size) (hsame : ∀ k, i < k → arr'[k]? = arr[k]?) :
    ∃ j : ℕ → ℕ, (∀ k, j k ≤ k) ∧ ∀ random, shuffleFrom random i arr = arr' ↔
      ∀ k, 0 < k → k ≤ i → drawn (random k) k = j k := by
  induction i generalizing arr with
  | zero =>
      have heq : arr = arr' := by
        apply Array.ext_getElem?
        intro k
        obtain rfl | hk := Nat.eq_zero_or_pos k
        · obtain ⟨j, hj, hsource⟩ := exists_source hnodup hperm hi hsame
          rw [← hsource, Nat.le_zero.1 hj]
        · exact (hsame k hk).symm
      exact ⟨fun _ => 0, fun k => k.zero_le, fun random => iff_of_true heq fun k hpos hle => by omega⟩
  | succ i ih =>
      obtain ⟨j, hj, hsource⟩ := exists_source hnodup hperm hi hsame
      have hsize : j < arr.size := by omega
      have hswap := perm_swapIfInBounds arr (i + 1) j
      have hnodup' : (arr.swapIfInBounds (i + 1) j).toList.Nodup :=
        (Array.perm_iff_toList_perm.1 hswap).nodup_iff.2 hnodup
      have hsame' : ∀ k, i < k → arr'[k]? = (arr.swapIfInBounds (i + 1) j)[k]? := by
        intro k hk
        by_cases hlast : k = i + 1
        · rw [hlast, getElem?_swapIfInBounds_left hi hsize, hsource]
        · rw [getElem?_swapIfInBounds_of_ne hlast (by omega), hsame k (by omega)]
      obtain ⟨js, hle, hjs⟩ := ih hnodup' (hperm.trans hswap.symm) (by rw [Array.size_swapIfInBounds]; omega) hsame'
      refine ⟨Function.update js (i + 1) j, fun k => ?_, fun random => ?_⟩
      · rw [Function.update_apply]
        split_ifs with hk
        · omega
        · exact hle k
      have hstep : shuffleFrom random (i + 1) arr =
          shuffleFrom random i (arr.swapIfInBounds (i + 1) (drawn (random (i + 1)) (i + 1))) := by
        rw [shuffleFrom, drawn]
        push_cast
        rfl
      have hrest : (∀ k, 0 < k → k ≤ i + 1 → drawn (random k) k = Function.update js (i + 1) j k) ↔
          drawn (random (i + 1)) (i + 1) = j ∧ ∀ k, 0 < k → k ≤ i → drawn (random k) k = js k := by
        constructor
        · intro h
          refine ⟨by rw [h (i + 1) (by omega) le_rfl, Function.update_self], fun k hpos hk => ?_⟩
          rw [h k hpos (by omega), Function.update_of_ne (by omega)]
        · rintro ⟨hlast, h⟩ k hpos hk
          by_cases hk' : k = i + 1
          · rw [hk', hlast, Function.update_self]
          · rw [h k hpos (by omega), Function.update_of_ne hk']
      rw [hstep, hrest]
      constructor
      · intro heq
        -- The place of this pass keeps what it has drawn.
        have hdrawn : arr[drawn (random (i + 1)) (i + 1)]? = arr[j]? := by
          have hle' := drawn_le (random (i + 1)) (i + 1)
          rw [hsource, ← heq, getElem?_shuffleFrom random (Nat.lt_succ_self i),
            getElem?_swapIfInBounds_left hi (by omega)]
        have hindex := index_unique hnodup (by have := drawn_le (random (i + 1)) (i + 1); omega) hdrawn
        exact ⟨hindex, (hjs random).1 (hindex ▸ heq)⟩
      · rintro ⟨hlast, h⟩
        rw [hlast]
        exact (hjs random).2 h

end CqlDriver.LoadBalancing
