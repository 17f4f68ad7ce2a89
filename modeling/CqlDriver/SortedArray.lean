import CqlDriver.Lib.Comparison
import CqlDriver.Lib.Loop
import CqlDriver.Lib.MachineInt
import CqlDriver.Lib.SortedSearch
import CqlDriver.Lib.TransitionSystem

/-! # Sorted arrays (`lib/utils.js`)

`binarySearch` halves the window with `(low + high) >>> 1` and answers with `~low`, both on 32 bits.  An array may
have up to `2 ^ 32 - 1` elements.  From `2 ^ 31` on `~low` may be positive, and the sum may wrap, so that `mid` is
before `low` and the loop goes round forever.  A search is right exactly when the array is shorter, or when one of the
middles that it meets while it moves to the right is not before the key (`finds_iff`).  The first `2 ^ 31` insertions
into an array are right (`builds_of_length_le`). -/

namespace CqlDriver.SortedArray

open MachineInt TransitionSystem

variable {α R : Type}

/-! ### Arrays -/

/-- An array, whose length is an unsigned 32-bit integer. -/
structure JsArray (α : Type) where
  items : List α
  length_lt : items.length < 2 ^ 32

inductive RangeError where
  | invalidArrayLength
deriving DecidableEq, Repr

namespace JsArray

def empty : JsArray α := ⟨[], by simp only [List.length_nil, Nat.ofNat_pos, pow_pos]⟩

/-- An array that was given one more element. -/
def grow (items : List α) : Except RangeError (JsArray α) :=
  if h : items.length < 2 ^ 32 then .ok ⟨items, h⟩ else .error .invalidArrayLength

/-- `arr.push(item)` returns the new length. -/
def push (arr : JsArray α) (item : α) : Except RangeError (JsArray α × ℕ) :=
  (grow (arr.items ++ [item])).map fun grown => (grown, grown.items.length)

/-- `arr.splice(start, 0, item)`; a negative start counts from the end. -/
def splice (arr : JsArray α) (start : ℤ) (item : α) : Except RangeError (JsArray α) :=
  let actualStart :=
    (if start < 0 then max (arr.items.length + start) 0 else min start arr.items.length).toNat
  grow (arr.items.take actualStart ++ item :: arr.items.drop actualStart)

end JsArray

/-! ### The functions -/

/-- `x >>> 1` -/
def halve (x : ℤ) : ℤ := x % 2 ^ 32 / 2

/-- `~x` -/
def complement (x : ℤ) : ℤ := -wrap 32 x - 1

/-- The variables of the loop. -/
structure Window where
  low : ℤ
  high : ℤ
deriving DecidableEq, Repr

variable [LinearOrder R] [Zero R]

/-- A pass of the loop: the next window, or the result. -/
def searchBody (arr : JsArray α) (key : α) (compareFunc : α → α → R) (w : Window) : Window ⊕ ℤ :=
  if w.low ≤ w.high then
    let mid := halve (w.low + w.high)
    match arr.items[mid.toNat]? with
    | none => .inl w  -- no middle is outside of the array (`searchBody_cases`)
    | some midVal =>
        let cmp := compareFunc midVal key
        if cmp < 0 then .inl { w with low := mid + 1 }
        else if cmp > 0 then .inl { w with high := mid - 1 }
        else .inr mid
  else .inr (complement w.low)

/-- The result, when the loop is left within `fuel` passes. -/
def binarySearch (fuel : ℕ) (arr : JsArray α) (key : α) (compareFunc : α → α → R) : Option ℤ :=
  Loop.run (searchBody arr key compareFunc) fuel ⟨0, arr.items.length - 1⟩

/-- The position of a result, found or not. -/
def position (res : ℤ) : ℤ := if res < 0 then complement res else res

/-- The array after the call, and what the call returns. -/
def insertSorted (fuel : ℕ) (arr : JsArray α) (item : α) (compareFunc : α → α → R) :
    Option (Except RangeError (JsArray α × Option ℕ)) :=
  if arr.items.length = 0 then
    some ((arr.push item).map fun (arr, length) => (arr, some length))
  else
    (binarySearch fuel arr item compareFunc).map fun res =>
      (arr.splice (position res) item).map fun arr => (arr, none)

/-! ### What is promised -/

/-- The position of an element that compares equal to the key or, when there is none, the complement of the position
of the first greater one. -/
def Answer (c : Comparison α R) (arr : JsArray α) (key : α) (res : ℤ) : Prop :=
  (∃ (i : ℕ) (a : α), res = i ∧ arr.items[i]? = some a ∧ c.compareFunc a key = 0) ∨
    (∀ a ∈ arr.items, c.compareFunc a key ≠ 0) ∧ res = -(c.upper arr.items key : ℤ) - 1

/-- The search terminates, and what it returns is an answer. -/
def Finds (c : Comparison α R) (arr : JsArray α) (key : α) : Prop :=
  (∃ fuel res, binarySearch fuel arr key c.compareFunc = some res) ∧
    ∀ fuel res, binarySearch fuel arr key c.compareFunc = some res → Answer c arr key res

/-- The insertion terminates without an error, and leaves the array in order with the item added. -/
def Inserts (c : Comparison α R) (arr : JsArray α) (item : α) : Prop :=
  (∃ fuel result, insertSorted fuel arr item c.compareFunc = some result) ∧
    ∀ fuel result, insertSorted fuel arr item c.compareFunc = some result →
      ∃ after length, result = .ok (after, length) ∧ c.Sorted after.items ∧ after.items.Perm (item :: arr.items)

/-- A call of `insertSorted` that returns. -/
structure Insertion (α : Type) where
  item : α
  fuel : ℕ

def step (c : Comparison α R) (arr : JsArray α) (a : Insertion α) : Option (JsArray α) :=
  match insertSorted a.fuel arr a.item c.compareFunc with
  | some (.ok (after, _)) => some after
  | _ => none

/-- The array after the items were inserted one after the other, into an empty one at first. -/
def Builds (c : Comparison α R) (items : List α) (arr : JsArray α) : Prop :=
  ∃ as : List (Insertion α), as.map Insertion.item = items ∧ Run (step c) .empty as arr

/-! ### The middles of a search to the right -/

/-- The low end of the window over `n` elements after `k` passes to the right. -/
def lowAfter (n : ℕ) : ℕ → ℕ
  | 0 => 0
  | k + 1 => (lowAfter n k + (n - 1)) % 2 ^ 32 / 2 + 1

def middle (n k : ℕ) : ℕ := (lowAfter n k + (n - 1)) % 2 ^ 32 / 2

/-- The low ends fit 32 bits, or the search meets an element that is not less than the key while it moves to the
right. -/
def InReach (c : Comparison α R) (arr : JsArray α) (key : α) : Prop :=
  arr.items.length < 2 ^ 31 ∨ ∃ k, c.lower arr.items key ≤ middle arr.items.length k

/-! ### One pass -/

variable {c : Comparison α R} {arr : JsArray α} {key : α} {w : Window}

theorem complement_eq {x : ℤ} (h₁ : -2147483648 ≤ x) (h₂ : x < 2147483648) : complement x = -x - 1 := by
  rw [complement, wrap32_eq_self h₁ h₂]

theorem halve_nonneg (x : ℤ) : 0 ≤ halve x := by
  unfold halve
  omega

theorem halve_add_le {low high : ℤ} (hlow : 0 ≤ low) (hle : low ≤ high) : halve (low + high) ≤ high := by
  unfold halve
  omega

theorem le_halve_add {low high : ℤ} (hlow : 0 ≤ low) (hle : low ≤ high) (hfits : low + high < 4294967296) :
    low ≤ halve (low + high) := by
  unfold halve
  omega

/-- The part of the array that holds the middle element decides where a pass ends. -/
theorem searchBody_cases (key : α) (h : c.Sorted arr.items) (hlow : 0 ≤ w.low) (hle : w.low ≤ w.high)
    (hhigh : w.high < arr.items.length) : ∃ mid : ℕ, (mid : ℤ) = halve (w.low + w.high) ∧ (mid : ℤ) ≤ w.high ∧
      (mid < c.lower arr.items key ∧ searchBody arr key c.compareFunc w = .inl ⟨mid + 1, w.high⟩ ∨
        c.lower arr.items key ≤ mid ∧ (∃ a, arr.items[mid]? = some a ∧ c.compareFunc a key = 0) ∧
            searchBody arr key c.compareFunc w = .inr mid ∨
          c.upper arr.items key ≤ mid ∧ searchBody arr key c.compareFunc w = .inl ⟨w.low, mid - 1⟩) := by
  obtain ⟨mid, hmid⟩ := Int.eq_ofNat_of_zero_le (halve_nonneg (w.low + w.high))
  have hmid_le : (mid : ℤ) ≤ w.high := hmid ▸ halve_add_le hlow hle
  have hget := List.getElem?_eq_getElem (show mid < arr.items.length by omega)
  refine ⟨mid, hmid.symm, hmid_le, ?_⟩
  simp only [searchBody, if_pos hle, hmid, Int.toNat_natCast, hget]
  rcases Comparison.compare_cases h key hget with ⟨hlt, hneg⟩ | ⟨hge, -, hzero⟩ | ⟨hge, hpos⟩
  · exact .inl ⟨hlt, if_pos hneg⟩
  · exact .inr (.inl ⟨hge, ⟨_, rfl, hzero⟩, by rw [if_neg hzero.not_lt, if_neg hzero.not_gt]⟩)
  · exact .inr (.inr ⟨hge, by rw [if_neg hpos.not_gt, if_pos hpos]⟩)

theorem searchBody_exit (hgt : w.high < w.low) : searchBody arr key c.compareFunc w = .inr (complement w.low) :=
  if_neg (not_le.2 hgt)

/-! ### Windows that fit -/

/-- The elements before the window are less than the key, those behind it are greater, and its ends fit 32 bits. -/
structure Narrowed (c : Comparison α R) (arr : JsArray α) (key : α) (w : Window) : Prop where
  low_nonneg : 0 ≤ w.low
  low_le_lower : w.low ≤ c.lower arr.items key
  upper_le_high : (c.upper arr.items key : ℤ) ≤ w.high + 1
  high_lt : w.high < arr.items.length
  fits : w.high + 1 < 2147483648

/-- A pass leaves with an answer, or goes on with a smaller window. -/
theorem Narrowed.pass (h : c.Sorted arr.items) (hw : Narrowed c arr key w) :
    (∃ res, searchBody arr key c.compareFunc w = .inr res ∧ Answer c arr key res) ∨
      ∃ next, searchBody arr key c.compareFunc w = .inl next ∧ Narrowed c arr key next ∧
        (next.high + 1 - next.low).toNat < (w.high + 1 - w.low).toNat := by
  obtain ⟨hnonneg, hlower, hupper, hhigh, hfits⟩ := hw
  have hparts := Comparison.lower_le_upper h key
  rcases lt_or_ge w.high w.low with hgt | hle
  · refine .inl ⟨_, searchBody_exit hgt, .inr ⟨fun a ha hzero => ?_, ?_⟩⟩
    · obtain ⟨i, hi⟩ := List.mem_iff_getElem?.1 ha
      rcases Comparison.compare_cases h key hi with ⟨-, hneg⟩ | ⟨hge, hlt, -⟩ | ⟨-, hpos⟩
      · exact hneg.ne hzero
      · omega
      · exact hpos.ne' hzero
    · rw [complement_eq (by omega) (by omega)]
      omega
  · obtain ⟨mid, hmid, hmid_le, hcases⟩ := searchBody_cases key h hnonneg hle hhigh
    have hle_mid := le_halve_add hnonneg hle (by omega)
    rcases hcases with ⟨hlt, hbody⟩ | ⟨-, ⟨a, hget, hzero⟩, hbody⟩ | ⟨hge, hbody⟩
    · refine .inr ⟨_, hbody, ⟨?_, ?_, hupper, hhigh, hfits⟩, ?_⟩
      all_goals
        dsimp only
        omega
    · exact .inl ⟨_, hbody, .inl ⟨mid, a, rfl, hget, hzero⟩⟩
    · refine .inr ⟨_, hbody, ⟨hnonneg, hlower, ?_, ?_, ?_⟩, ?_⟩
      all_goals
        dsimp only
        omega

theorem Narrowed.returns (h : c.Sorted arr.items) (hw : Narrowed c arr key w) :
    ∃ res, Loop.Returns (searchBody arr key c.compareFunc) w res ∧ Answer c arr key res :=
  Loop.exists_returns (fun w => (w.high + 1 - w.low).toNat) (fun _ hw => hw.pass h) hw

/-! ### Passes to the right -/

/-- The window over the whole array after `k` passes to the right. -/
def rightWindow (arr : JsArray α) (k : ℕ) : Window := ⟨lowAfter arr.items.length k, arr.items.length - 1⟩

theorem middle_lt (n k : ℕ) : middle n k < 2147483648 := by
  unfold middle
  omega

theorem lowAfter_le (n k : ℕ) : lowAfter n k ≤ 2147483648 := by
  cases k with
  | zero => exact Nat.zero_le _
  | succ k => exact middle_lt n k

theorem halve_rightWindow (hpos : 0 < arr.items.length) (k : ℕ) :
    halve ((rightWindow arr k).low + (rightWindow arr k).high) = middle arr.items.length k := by
  unfold halve middle rightWindow
  dsimp only
  omega

theorem rightWindow_cases (key : α) (h : c.Sorted arr.items) {k : ℕ}
    (hlow : lowAfter arr.items.length k < arr.items.length) :
    middle arr.items.length k < c.lower arr.items key ∧
        searchBody arr key c.compareFunc (rightWindow arr k) = .inl (rightWindow arr (k + 1)) ∨
      c.lower arr.items key ≤ middle arr.items.length k ∧
        (∃ a, arr.items[middle arr.items.length k]? = some a ∧ c.compareFunc a key = 0) ∧
          searchBody arr key c.compareFunc (rightWindow arr k) = .inr (middle arr.items.length k : ℕ) ∨
      c.upper arr.items key ≤ middle arr.items.length k ∧
        searchBody arr key c.compareFunc (rightWindow arr k) =
          .inl ⟨lowAfter arr.items.length k, (middle arr.items.length k : ℤ) - 1⟩ := by
  have hwindow : 0 ≤ (rightWindow arr k).low ∧ (rightWindow arr k).low ≤ (rightWindow arr k).high ∧
      (rightWindow arr k).high < arr.items.length := by
    dsimp only [rightWindow]
    omega
  obtain ⟨mid, hmid, -, hcases⟩ := searchBody_cases key h hwindow.1 hwindow.2.1 hwindow.2.2
  rw [halve_rightWindow (by omega), Int.natCast_inj] at hmid
  subst hmid
  exact hcases

theorem lowAfter_le_of_middle_lt {n l k : ℕ} (hbelow : ∀ j < k, middle n j < l) : lowAfter n k ≤ l := by
  cases k with
  | zero => exact Nat.zero_le _
  | succ k => exact hbelow k (Nat.lt_succ_self k)

/-- While the middles are less than the key the search moves to the right. -/
theorem returns_rightWindow (h : c.Sorted arr.items) (hlower : c.lower arr.items key < arr.items.length) {res : ℤ} :
    ∀ k, (∀ j < k, middle arr.items.length j < c.lower arr.items key) →
      (Loop.Returns (searchBody arr key c.compareFunc) (rightWindow arr 0) res ↔
        Loop.Returns (searchBody arr key c.compareFunc) (rightWindow arr k) res)
  | 0, _ => Iff.rfl
  | k + 1, hbelow => by
      have hbefore : ∀ j < k, middle arr.items.length j < c.lower arr.items key := fun j hj => hbelow j (by omega)
      have hlow := (lowAfter_le_of_middle_lt hbefore).trans_lt hlower
      have hmiddle := hbelow k (Nat.lt_succ_self k)
      have hparts := Comparison.lower_le_upper h key
      rw [returns_rightWindow h hlower k hbefore]
      rcases rightWindow_cases key h hlow with ⟨-, hbody⟩ | ⟨hge, -⟩ | ⟨hge, -⟩
      · exact Loop.returns_pass hbody
      · omega
      · omega

/-- A search that meets an element that is not less than the key goes on with a window that fits. -/
theorem returns_of_inReach (h : c.Sorted arr.items) (hreach : InReach c arr key) :
    ∃ res, Loop.Returns (searchBody arr key c.compareFunc) (rightWindow arr 0) res ∧ Answer c arr key res := by
  have hupper := Comparison.upper_le_length (c := c) arr.items key
  by_cases hshort : arr.items.length < 2147483648
  · refine Narrowed.returns h ⟨le_rfl, ?_, ?_, ?_, ?_⟩
    all_goals
      dsimp only [rightWindow, lowAfter]
      omega
  · have hexists : ∃ k, c.lower arr.items key ≤ middle arr.items.length k := hreach.resolve_left hshort
    classical
    -- up to the first middle that is not before the key all passes go to the right
    set k := Nat.find hexists
    have hmeets : c.lower arr.items key ≤ middle arr.items.length k := Nat.find_spec hexists
    have hbelow : ∀ j < k, middle arr.items.length j < c.lower arr.items key :=
      fun j hj => not_le.1 (Nat.find_min hexists hj)
    have hlow := lowAfter_le_of_middle_lt hbelow
    have hlt := middle_lt arr.items.length k
    simp only [returns_rightWindow h (by omega : c.lower arr.items key < arr.items.length) k hbelow]
    rcases rightWindow_cases key h (k := k) (by omega) with
      ⟨hless, -⟩ | ⟨-, ⟨a, hget, hzero⟩, hbody⟩ | ⟨hge, hbody⟩
    · omega
    · exact ⟨_, Loop.returns_of_exit hbody, .inl ⟨_, a, rfl, hget, hzero⟩⟩
    · simp only [Loop.returns_pass hbody]
      refine Narrowed.returns h ⟨?_, ?_, ?_, ?_, ?_⟩
      all_goals
        dsimp only
        omega

/-! ### Searches that go wrong -/

/-- Beyond `2 ^ 31` elements a search that meets only elements less than the key goes round forever. -/
theorem not_returns_of_long (h : c.Sorted arr.items) (hlong : 2147483648 < arr.items.length)
    (hbelow : ∀ k, middle arr.items.length k < c.lower arr.items key) (res : ℤ) :
    ¬ Loop.Returns (searchBody arr key c.compareFunc) (rightWindow arr 0) res := by
  refine Loop.not_returns (P := fun w => ∃ k, w = rightWindow arr k) ?_ ⟨0, rfl⟩
  rintro w ⟨k, rfl⟩
  have hlow := lowAfter_le arr.items.length k
  have hmiddle := hbelow k
  have hparts := Comparison.lower_le_upper h key
  rcases rightWindow_cases key h (k := k) (by omega) with ⟨-, hbody⟩ | ⟨hge, -⟩ | ⟨hge, -⟩
  · exact ⟨_, hbody, k + 1, rfl⟩
  · omega
  · omega

/-- Up to `2 ^ 31` elements no sum wraps, and the search returns. -/
theorem returns_of_le (key : α) (h : c.Sorted arr.items) (hle : arr.items.length ≤ 2147483648) :
    ∃ res, Loop.Returns (searchBody arr key c.compareFunc) (rightWindow arr 0) res := by
  suffices hreturns : ∃ res, Loop.Returns (searchBody arr key c.compareFunc) (rightWindow arr 0) res ∧ True by
    obtain ⟨res, hres, -⟩ := hreturns
    exact ⟨res, hres⟩
  refine Loop.exists_returns (P := fun w : Window => 0 ≤ w.low ∧ w.high < arr.items.length)
    (fun w => (w.high + 1 - w.low).toNat) ?_ ?_
  · rintro w ⟨hlow, hhigh⟩
    rcases lt_or_ge w.high w.low with hgt | hwindow
    · exact .inl ⟨_, searchBody_exit hgt, trivial⟩
    · obtain ⟨mid, hmid, hmid_le, hcases⟩ := searchBody_cases key h hlow hwindow hhigh
      have hle_mid := le_halve_add hlow hwindow (by omega)
      rcases hcases with ⟨-, hbody⟩ | ⟨-, -, hbody⟩ | ⟨-, hbody⟩
      · refine .inr ⟨_, hbody, ?_⟩
        dsimp only
        omega
      · exact .inl ⟨_, hbody, trivial⟩
      · refine .inr ⟨_, hbody, ?_⟩
        dsimp only
        omega
  · dsimp only [rightWindow, lowAfter]
    omega

/-- Behind elements that are all less than the key the search leaves at the end of the array. -/
theorem eq_complement_of_returns (h : c.Sorted arr.items) (hlower : c.lower arr.items key = arr.items.length)
    {res : ℤ} (hreturns : Loop.Returns (searchBody arr key c.compareFunc) (rightWindow arr 0) res) :
    res = complement arr.items.length := by
  have hparts := Comparison.lower_le_upper h key
  refine hreturns.of_invariant (Q := fun res => res = complement arr.items.length)
    (P := fun w : Window => 0 ≤ w.low ∧ w.low ≤ arr.items.length ∧ w.high = (arr.items.length : ℤ) - 1) ?_ ?_
  · rintro w ⟨hlow, hlow_le, hhigh⟩
    rcases lt_or_ge w.high w.low with hgt | hwindow
    · refine .inl ⟨_, searchBody_exit hgt, ?_⟩
      rw [show w.low = arr.items.length by omega]
    · obtain ⟨mid, -, hmid_le, hcases⟩ := searchBody_cases key h hlow hwindow (by omega)
      rcases hcases with ⟨-, hbody⟩ | ⟨hge, -⟩ | ⟨hge, -⟩
      · refine .inr ⟨_, hbody, ?_⟩
        dsimp only
        omega
      · omega
      · omega
  · dsimp only [rightWindow, lowAfter]
    omega

/-- What a search out of reach returns is a position, the last one. -/
theorem eq_of_not_inReach (h : c.Sorted arr.items) (hnot : ¬ InReach c arr key) {res : ℤ}
    (hreturns : Loop.Returns (searchBody arr key c.compareFunc) (rightWindow arr 0) res) :
    arr.items.length = 2147483648 ∧ c.lower arr.items key = arr.items.length ∧ res = 2147483647 := by
  unfold InReach at hnot
  push Not at hnot
  obtain ⟨hlong, hbelow⟩ := hnot
  have hlength : arr.items.length = 2147483648 := by
    by_contra hne
    exact not_returns_of_long h (by omega) hbelow res hreturns
  have hlast : middle arr.items.length 31 = 2147483647 := by
    rw [hlength]
    decide
  have hle : c.lower arr.items key ≤ arr.items.length := List.findIdx_le_length
  have hlower : c.lower arr.items key = arr.items.length := by
    have := hbelow 31
    omega
  refine ⟨hlength, hlower, ?_⟩
  rw [eq_complement_of_returns h hlower hreturns, hlength]
  decide

theorem not_answer_of_nonneg (h : c.Sorted arr.items) (hlower : c.lower arr.items key = arr.items.length) {res : ℤ}
    (hres : 0 ≤ res) : ¬ Answer c arr key res := by
  rintro (⟨i, a, -, hget, hzero⟩ | ⟨-, hupper⟩)
  · obtain ⟨hlt, -⟩ := List.getElem?_eq_some_iff.1 hget
    have hparts := Comparison.lower_le_upper h key
    rcases Comparison.compare_cases h key hget with ⟨-, hneg⟩ | ⟨hge, -⟩ | ⟨hge, -⟩
    · exact hneg.ne hzero
    · omega
    · omega
  · omega

/-- The searches that are right. -/
theorem finds_iff (h : c.Sorted arr.items) : Finds c arr key ↔ InReach c arr key := by
  constructor
  · rintro ⟨⟨fuel, res, hres⟩, hanswer⟩
    by_contra hnot
    obtain ⟨-, hlower, heq⟩ := eq_of_not_inReach h hnot ⟨fuel, hres⟩
    exact not_answer_of_nonneg h hlower (by omega) (hanswer fuel res hres)
  · intro hreach
    obtain ⟨res, ⟨fuel, hres⟩, hanswer⟩ := returns_of_inReach h hreach
    refine ⟨⟨fuel, res, hres⟩, fun fuel' res' hres' => ?_⟩
    rwa [Loop.Returns.unique ⟨fuel', hres'⟩ ⟨fuel, hres⟩]

example : binarySearch 5 (α := ℤ) ⟨[0, 1, 2, 3, 4], by decide⟩ 7 (· - ·) = some (-6) := by decide

/-! ### Insertion -/

theorem complement_range (x : ℤ) : -2147483648 ≤ complement x ∧ complement x < 2147483648 := by
  have hlow := Int.le_bmod (x := x) (m := 2 ^ 32) (by norm_num)
  have hhigh := Int.bmod_lt (x := x) (m := 2 ^ 32) (by norm_num)
  unfold complement wrap
  omega

/-- Results are at least the least 32-bit integer. -/
theorem ge_of_returns {res : ℤ} (hreturns : Loop.Returns (searchBody arr key c.compareFunc) w res) :
    -2147483648 ≤ res := by
  refine hreturns.of_invariant (P := fun _ => True) (Q := fun res => -2147483648 ≤ res) (fun w _ => ?_) trivial
  unfold searchBody
  split_ifs with hle
  · dsimp only
    split
    · exact .inr ⟨_, rfl, trivial⟩
    · split_ifs
      · exact .inr ⟨_, rfl, trivial⟩
      · exact .inr ⟨_, rfl, trivial⟩
      · exact .inl ⟨_, rfl, (halve_nonneg _).trans' (by norm_num)⟩
  · exact .inl ⟨_, rfl, (complement_range _).1⟩

/-- The position of an answer is behind all that are less and not behind a greater one. -/
theorem Answer.position_eq (h : c.Sorted arr.items) {res : ℤ} (hanswer : Answer c arr key res)
    (hres : -2147483648 ≤ res) :
    ∃ p : ℕ, position res = p ∧ c.lower arr.items key ≤ p ∧ p ≤ c.upper arr.items key := by
  have hparts := Comparison.lower_le_upper h key
  unfold position
  rcases hanswer with ⟨i, a, rfl, hget, hzero⟩ | ⟨-, rfl⟩
  · refine ⟨i, if_neg (by omega), ?_⟩
    rcases Comparison.compare_cases h key hget with ⟨-, hneg⟩ | ⟨hge, hlt, -⟩ | ⟨-, hpos⟩
    · exact absurd hzero hneg.ne
    · exact ⟨hge, hlt.le⟩
    · exact absurd hzero hpos.ne'
  · refine ⟨c.upper arr.items key, ?_, hparts, le_rfl⟩
    rw [if_pos (by omega), complement_eq (by omega) (by omega)]
    omega

theorem splice_eq {p : ℕ} (hp : p ≤ arr.items.length) (item : α) :
    arr.splice p item = JsArray.grow (arr.items.take p ++ item :: arr.items.drop p) := by
  have hstart : (if (p : ℤ) < 0 then max ((arr.items.length : ℤ) + p) 0 else min p arr.items.length).toNat = p := by
    rw [if_neg (by omega)]
    omega
  simp only [JsArray.splice, hstart]

theorem items_of_grow {items : List α} {grown : JsArray α} (h : JsArray.grow items = .ok grown) :
    grown.items = items := by
  unfold JsArray.grow at h
  split_ifs at h
  cases h
  rfl

/-- An insertion pushes the item to an empty array, and splices it where the search for it ends otherwise. -/
theorem insertSorted_cases {item : α} {fuel : ℕ} {result : Except RangeError (JsArray α × Option ℕ)}
    (hresult : insertSorted fuel arr item c.compareFunc = some result) :
    arr.items = [] ∧ result.map Prod.fst = JsArray.grow [item] ∨
      arr.items ≠ [] ∧ ∃ res, Loop.Returns (searchBody arr item c.compareFunc) (rightWindow arr 0) res ∧
        result.map Prod.fst = arr.splice (position res) item := by
  unfold insertSorted at hresult
  split_ifs at hresult with hnil
  · rw [List.length_eq_zero_iff] at hnil
    refine .inl ⟨hnil, ?_⟩
    rw [← Option.some.inj hresult, JsArray.push, hnil, List.nil_append]
    rcases JsArray.grow [item] with error | grown
    · rfl
    · rfl
  · obtain ⟨res, hres, rfl⟩ := Option.map_eq_some_iff.1 hresult
    refine .inr ⟨fun h => hnil (List.length_eq_zero_iff.2 h), res, ⟨fuel, hres⟩, ?_⟩
    rcases arr.splice (position res) item with error | after
    · rfl
    · rfl

theorem insertSorted_returns {item : α} (h : ∃ fuel res, binarySearch fuel arr item c.compareFunc = some res) :
    ∃ fuel result, insertSorted fuel arr item c.compareFunc = some result := by
  obtain ⟨fuel, res, hres⟩ := h
  unfold insertSorted
  refine ⟨fuel, ?_⟩
  split_ifs with hnil
  · exact ⟨_, rfl⟩
  · rw [hres]
    exact ⟨_, rfl⟩

/-- A search that is right leads to an insertion in order. -/
theorem Finds.inserted (h : c.Sorted arr.items) {item : α} (hfinds : Finds c arr item) {fuel : ℕ}
    {result : Except RangeError (JsArray α × Option ℕ)}
    (hresult : insertSorted fuel arr item c.compareFunc = some result) :
    ∃ p, c.lower arr.items item ≤ p ∧ p ≤ c.upper arr.items item ∧
      result.map Prod.fst = JsArray.grow (arr.items.take p ++ item :: arr.items.drop p) := by
  rcases insertSorted_cases hresult with ⟨hnil, heq⟩ | ⟨-, res, ⟨fuel', hres⟩, heq⟩
  · refine ⟨0, ?_, Nat.zero_le _, ?_⟩
    · rw [hnil]
      exact le_rfl
    · rw [heq, hnil]
      rfl
  · obtain ⟨p, hp, hlower, hupper⟩ := (hfinds.2 fuel' res hres).position_eq h (ge_of_returns ⟨fuel', hres⟩)
    refine ⟨p, hlower, hupper, ?_⟩
    rw [heq, hp, splice_eq (hupper.trans (Comparison.upper_le_length _ _))]

theorem length_take_cons_drop (l : List α) (p : ℕ) (item : α) :
    (l.take p ++ item :: l.drop p).length = l.length + 1 := by
  rw [List.length_append, List.length_cons, ← Nat.add_assoc, ← List.length_append, List.take_append_drop]

/-- An array that has room for one more element takes it. -/
theorem grow_ok {l : List α} {p : ℕ} {item : α} (hroom : l.length + 1 < 2 ^ 32) :
    ∃ grown, JsArray.grow (l.take p ++ item :: l.drop p) = .ok grown := by
  have hlength := length_take_cons_drop l p item
  exact ⟨⟨_, by omega⟩, dif_pos (by omega)⟩

theorem insertSorted_ok {item : α} {fuel : ℕ} {result : Except RangeError (JsArray α × Option ℕ)}
    (hresult : insertSorted fuel arr item c.compareFunc = some result) (hroom : arr.items.length + 1 < 2 ^ 32) :
    ∃ after length, result = .ok (after, length) := by
  have hgrow : ∃ grown, result.map Prod.fst = .ok grown := by
    rcases insertSorted_cases hresult with ⟨hnil, heq⟩ | ⟨-, res, -, heq⟩
    · rw [heq]
      exact grow_ok (l := []) (p := 0) (by rw [List.length_nil]; norm_num)
    · rw [heq]
      exact grow_ok hroom
  obtain ⟨grown, hgrow⟩ := hgrow
  rcases result with error | ⟨after, length⟩
  · cases hgrow
  · exact ⟨after, length, rfl⟩

theorem insertSorted_of_binarySearch {item : α} {fuel : ℕ} {res : ℤ}
    (hres : binarySearch fuel arr item c.compareFunc = some res) (hne : arr.items.length ≠ 0)
    (hroom : arr.items.length + 1 < 2 ^ 32) :
    ∃ after, insertSorted fuel arr item c.compareFunc = some (.ok (after, none)) := by
  obtain ⟨after, hafter⟩ : ∃ after, arr.splice (position res) item = .ok after := grow_ok hroom
  refine ⟨after, ?_⟩
  rw [insertSorted, if_neg hne, hres, Option.map_some, hafter]
  rfl

/-- Out of reach an insertion breaks the order, if it returns. -/
theorem not_sorted_of_not_inReach (h : c.Sorted arr.items) {item : α} (hnot : ¬ InReach c arr item) {fuel : ℕ}
    {after : JsArray α} {length : Option ℕ}
    (hresult : insertSorted fuel arr item c.compareFunc = some (.ok (after, length))) : ¬ c.Sorted after.items := by
  intro hsorted
  rcases insertSorted_cases hresult with ⟨hnil, -⟩ | ⟨-, res, hres, heq⟩
  · exact hnot (.inl (by rw [hnil]; exact Nat.two_pow_pos 31))
  · obtain ⟨hlength, hlower, rfl⟩ := eq_of_not_inReach h hnot hres
    have hp : 2147483647 ≤ arr.items.length := by omega
    have hsplice : arr.splice (2147483647 : ℕ) item = .ok after := heq.symm
    rw [splice_eq hp] at hsplice
    rw [items_of_grow hsplice, Comparison.sorted_insert_iff h hp] at hsorted
    omega

/-- The insertions that are right. -/
theorem inserts_iff (h : c.Sorted arr.items) {item : α} :
    Inserts c arr item ↔ InReach c arr item ∧ arr.items.length + 1 < 2 ^ 32 := by
  constructor
  · rintro ⟨⟨fuel, result, hresult⟩, hright⟩
    obtain ⟨after, length, rfl, hsorted, hperm⟩ := hright fuel result hresult
    have hlt := after.length_lt
    rw [hperm.length_eq, List.length_cons] at hlt
    exact ⟨by_contra fun hnot => not_sorted_of_not_inReach h hnot hresult hsorted, hlt⟩
  · rintro ⟨hreach, hroom⟩
    have hfinds := (finds_iff h).2 hreach
    refine ⟨insertSorted_returns hfinds.1, fun fuel result hresult => ?_⟩
    obtain ⟨after, length, rfl⟩ := insertSorted_ok hresult hroom
    obtain ⟨p, hlower, hupper, heq⟩ := hfinds.inserted h hresult
    refine ⟨after, length, rfl, ?_, ?_⟩
    all_goals rw [items_of_grow heq.symm]
    · exact (Comparison.sorted_insert_iff h (hupper.trans (Comparison.upper_le_length _ _)) item).2 ⟨hlower, hupper⟩
    · apply List.perm_middle.trans
      rw [List.take_append_drop]

/-! ### Runs -/

/-- A call that is right leaves the array in order with its item added. -/
theorem step_spec {item : α} {fuel : ℕ} {after : JsArray α} (h : Inserts c arr item)
    (hstep : step c arr ⟨item, fuel⟩ = some after) :
    c.Sorted after.items ∧ after.items.Perm (item :: arr.items) := by
  unfold step at hstep
  split at hstep
  · rename_i after' length hresult
    obtain ⟨after₀, length₀, heq, hspec⟩ := h.2 _ _ hresult
    cases heq
    cases hstep
    exact hspec
  · cases hstep

theorem exists_step {item : α} (h : Inserts c arr item) : ∃ fuel after, step c arr ⟨item, fuel⟩ = some after := by
  obtain ⟨⟨fuel, result, hresult⟩, hright⟩ := h
  obtain ⟨after, length, rfl, -⟩ := hright fuel result hresult
  exact ⟨fuel, after, by simp only [step, hresult]⟩

theorem builds_nil_iff : Builds c [] arr ↔ arr = .empty := by
  constructor
  · rintro ⟨as, hmap, hrun⟩
    exact hrun.eq_of_nil (List.map_eq_nil_iff.1 hmap)
  · rintro rfl
    exact ⟨[], rfl, .nil _⟩

theorem builds_append_iff {items : List α} {item : α} {after : JsArray α} :
    Builds c (items ++ [item]) after ↔ ∃ arr fuel, Builds c items arr ∧ step c arr ⟨item, fuel⟩ = some after := by
  constructor
  · rintro ⟨as, hmap, hrun⟩
    cases hrun with
    | nil => simp at hmap
    | @snoc arr _ as a hrun hstep =>
        rw [List.map_append] at hmap
        obtain ⟨hitems, hitem⟩ := List.append_inj' hmap rfl
        obtain rfl : a.item = item := List.singleton_inj.1 hitem
        exact ⟨arr, a.fuel, ⟨as, hitems, hrun⟩, hstep⟩
  · rintro ⟨arr, fuel, ⟨as, rfl, hrun⟩, hstep⟩
    exact ⟨as ++ [⟨item, fuel⟩], by rw [List.map_append]; rfl, hrun.snoc hstep⟩

/-- While every call is in reach, the array is in order and holds the items that were inserted. -/
theorem builds_spec {items : List α} (hlength : items.length < 2 ^ 32)
    (hreach : ∀ pre item post, items = pre ++ item :: post → ∀ arr, Builds c pre arr → InReach c arr item) :
    (∃ arr, Builds c items arr) ∧ ∀ arr, Builds c items arr → c.Sorted arr.items ∧ arr.items.Perm items := by
  induction items using List.reverseRecOn with
  | nil =>
      simp only [builds_nil_iff]
      refine ⟨⟨_, rfl⟩, ?_⟩
      rintro arr rfl
      exact ⟨.nil, .refl _⟩
  | append_singleton items item ih =>
      rw [List.length_append, List.length_singleton] at hlength
      obtain ⟨⟨arr, hbuilds⟩, hall⟩ := ih (by omega) fun pre item' post heq =>
        hreach pre item' (post ++ [item]) (by rw [heq, List.append_assoc, List.cons_append])
      have hinserts : ∀ arr, Builds c items arr → Inserts c arr item := by
        intro arr hbuilds
        obtain ⟨hsorted, hperm⟩ := hall arr hbuilds
        exact (inserts_iff hsorted).2 ⟨hreach items item [] rfl arr hbuilds, by rw [hperm.length_eq]; exact hlength⟩
      simp only [builds_append_iff]
      constructor
      · obtain ⟨fuel, after, hstep⟩ := exists_step (hinserts arr hbuilds)
        exact ⟨after, arr, fuel, hbuilds, hstep⟩
      · rintro after ⟨arr, fuel, hbuilds, hstep⟩
        obtain ⟨hsorted, hperm⟩ := step_spec (hinserts arr hbuilds) hstep
        refine ⟨hsorted, hperm.trans (((hall arr hbuilds).2.cons item).trans ?_)⟩
        exact (List.perm_append_singleton item items).symm

/-- Every insertion adds one element. -/
theorem step_length {a : Insertion α} {after : JsArray α} (hstep : step c arr a = some after) :
    after.items.length = arr.items.length + 1 := by
  unfold step at hstep
  split at hstep
  · rename_i after' length hresult
    cases hstep
    rcases insertSorted_cases hresult with ⟨hnil, heq⟩ | ⟨-, res, -, heq⟩
    · rw [items_of_grow heq.symm, hnil]
      rfl
    · rw [items_of_grow heq.symm]
      exact length_take_cons_drop _ _ _
  · cases hstep

theorem builds_length {items : List α} (h : Builds c items arr) : arr.items.length = items.length := by
  obtain ⟨as, rfl, hrun⟩ := h
  rw [List.length_map]
  refine hrun.history (P := fun as arr => arr.items.length = as.length) rfl fun as arr a after hlength hstep => ?_
  rw [step_length hstep, hlength, List.length_append, List.length_singleton]

/-- The first `2 ^ 31` insertions are in reach. -/
theorem inReach_of_builds {pre post : List α} {item : α} (hlength : (pre ++ item :: post).length ≤ 2 ^ 31)
    (h : Builds c pre arr) : InReach c arr item := by
  have heq := builds_length h
  rw [List.length_append, List.length_cons] at hlength
  exact .inl (by omega)

theorem builds_of_length_le {items : List α} (hlength : items.length ≤ 2 ^ 31) :
    (∃ arr, Builds c items arr) ∧ ∀ arr, Builds c items arr → c.Sorted arr.items ∧ arr.items.Perm items := by
  refine builds_spec (hlength.trans_lt (by norm_num)) ?_
  rintro pre item post rfl arr hbuilds
  exact inReach_of_builds hlength hbuilds

/-- Which searches and which insertions are right; and while the calls of a run are in reach, the array stays in order
and holds the items that were inserted. -/
theorem sortedArray_spec (c : Comparison α R) :
    (∀ (arr : JsArray α) (key : α), c.Sorted arr.items → (Finds c arr key ↔ InReach c arr key)) ∧
      (∀ (arr : JsArray α) (item : α), c.Sorted arr.items →
        (Inserts c arr item ↔ InReach c arr item ∧ arr.items.length + 1 < 2 ^ 32)) ∧
      ∀ items : List α, items.length < 2 ^ 32 →
        (∀ pre item post, items = pre ++ item :: post → ∀ arr, Builds c pre arr → InReach c arr item) →
          (∃ arr, Builds c items arr) ∧ ∀ arr, Builds c items arr → c.Sorted arr.items ∧ arr.items.Perm items :=
  ⟨fun _ _ h => finds_iff h, fun _ _ h => inserts_iff h, fun _ hlength hreach => builds_spec hlength hreach⟩

theorem sortedArray_spec_duplicates :
    Finds (Comparison.ofOrder ℤ) ⟨[1, 2, 2, 5], by decide⟩ 2 ∧
      Inserts (Comparison.ofOrder ℤ) ⟨[1, 2, 2, 5], by decide⟩ 3 ∧
      ∃ arr, Builds (Comparison.ofOrder ℤ) [2, 1, 2] arr ∧ (Comparison.ofOrder ℤ).Sorted arr.items ∧
        arr.items.Perm [2, 1, 2] := by
  obtain ⟨hfinds, hinserts, hruns⟩ := sortedArray_spec (Comparison.ofOrder ℤ)
  have hsorted : (Comparison.ofOrder ℤ).Sorted [1, 2, 2, 5] := by
    unfold Comparison.Sorted
    decide
  refine ⟨(hfinds ⟨[1, 2, 2, 5], by decide⟩ 2 hsorted).2 (.inl (by decide)),
    (hinserts ⟨[1, 2, 2, 5], by decide⟩ 3 hsorted).2 ⟨.inl (by decide), by decide⟩, ?_⟩
  obtain ⟨⟨arr, hbuilds⟩, hall⟩ := hruns [2, 1, 2] (by decide) fun pre item post heq arr hbuilds =>
    have hlength : (pre ++ item :: post).length ≤ 2 ^ 31 := by
      rw [← heq]
      decide
    inReach_of_builds hlength hbuilds
  exact ⟨arr, hbuilds, hall arr hbuilds⟩

/-! ### Long arrays -/

/-- `new Array(n)` -/
def holes (n : ℕ) (h : n < 2 ^ 32) : JsArray (Option ℤ) := ⟨List.replicate n none, by rwa [List.length_replicate]⟩

/-- `(a, b) => (a || 0) - (b || 0)` -/
def difference : Comparison (Option ℤ) ℤ where
  compareFunc a b := a.getD 0 - b.getD 0
  swap a b := by omega
  trans a b d hab hbd := by omega

theorem holes_length (n : ℕ) (h : n < 2 ^ 32) : (holes n h).items.length = n := List.length_replicate

theorem holes_sorted (n : ℕ) (h : n < 2 ^ 32) : difference.Sorted (holes n h).items :=
  List.pairwise_replicate.2 (.inr (le_refl (0 : ℤ)))

/-- The holes are all less than 1. -/
theorem lower_holes (n : ℕ) (h : n < 2 ^ 32) : difference.lower (holes n h).items (some 1) = n := by
  refine (List.findIdx_eq_length_of_false fun a ha => ?_).trans (holes_length n h)
  rw [List.eq_of_mem_replicate ha]
  decide

theorem not_inReach_holes (n : ℕ) (h : n < 2 ^ 32) (hlong : 2 ^ 31 ≤ n) :
    ¬ InReach difference (holes n h) (some 1) := by
  unfold InReach
  rw [holes_length, lower_holes]
  rintro (hshort | ⟨k, hk⟩)
  · omega
  · have := middle_lt n k
    omega

/-- Among `2 ^ 31` holes the search for 1 returns a position as if it were found there, and the insertion breaks the
order; among `2 ^ 32 - 1` holes the search never returns. -/
theorem binarySearch_holes :
    (difference.Sorted (holes (2 ^ 31) (by decide)).items ∧ ¬ Finds difference (holes (2 ^ 31) (by decide)) (some 1) ∧
      ∃ fuel after, binarySearch fuel (holes (2 ^ 31) (by decide)) (some 1) difference.compareFunc = some 2147483647 ∧
        insertSorted fuel (holes (2 ^ 31) (by decide)) (some 1) difference.compareFunc = some (.ok (after, none)) ∧
          ¬ difference.Sorted after.items) ∧
      difference.Sorted (holes (2 ^ 32 - 1) (by decide)).items ∧
        ∀ fuel, binarySearch fuel (holes (2 ^ 32 - 1) (by decide)) (some 1) difference.compareFunc = none := by
  have hlength := holes_length (2 ^ 31) (by decide)
  have hnot : ¬ InReach difference (holes (2 ^ 31) (by decide)) (some 1) := not_inReach_holes _ _ le_rfl
  refine ⟨⟨holes_sorted _ _, fun hfinds => hnot ((finds_iff (holes_sorted _ _)).1 hfinds), ?_⟩, holes_sorted _ _,
    fun fuel => ?_⟩
  · obtain ⟨res, fuel, hres⟩ := returns_of_le (some 1) (holes_sorted (2 ^ 31) (by decide)) hlength.le
    obtain ⟨-, -, rfl⟩ := eq_of_not_inReach (holes_sorted _ _) hnot ⟨fuel, hres⟩
    obtain ⟨after, hafter⟩ := insertSorted_of_binarySearch hres (by omega) (by omega)
    exact ⟨fuel, after, hres, hafter, not_sorted_of_not_inReach (holes_sorted _ _) hnot hafter⟩
  · rw [Option.eq_none_iff_forall_ne_some]
    intro res hres
    have hlong := (eq_of_not_inReach (holes_sorted _ _) (not_inReach_holes (2 ^ 32 - 1) (by decide) (by decide))
      ⟨fuel, hres⟩).1
    rw [holes_length] at hlong
    exact absurd hlong (by decide)

/-! ### Linear orders

Over a strictly increasing array with fewer than `2 ^ 31` elements the two functions are those of `SortedSearch`. -/

section
variable {α : Type} [LinearOrder α] {arr : JsArray α} {key item : α}

open Comparison (ofOrder)

theorem lower_ofOrder (l : List α) (key : α) : (ofOrder α).lower l key = SortedSearch.rank l key := by
  rw [SortedSearch.rank, List.takeWhile_eq_take_findIdx_not, List.length_take, min_eq_left List.findIdx_le_length]
  unfold Comparison.lower
  congr 1
  funext a
  rw [← decide_not, decide_eq_decide, ← not_lt]
  exact not_congr Comparison.sign_neg_iff

theorem Answer.eq_found (h : arr.items.Pairwise (· < ·)) {res : ℤ} (hanswer : Answer (ofOrder α) arr key res) :
    res = SortedSearch.found arr.items key := by
  unfold SortedSearch.found
  rcases hanswer with ⟨i, a, rfl, hget, hzero⟩ | ⟨hne, rfl⟩
  · obtain rfl := Comparison.sign_eq_zero_iff.1 hzero
    rw [if_pos (List.mem_of_getElem? hget), SortedSearch.rank_eq_of_getElem? h hget]
  · have hnot : key ∉ arr.items := fun hkey => hne key hkey (Comparison.sign_eq_zero_iff.2 rfl)
    rw [if_neg hnot, ← Comparison.lower_eq_upper (Comparison.sorted_ofOrder h) hne, lower_ofOrder,
      SortedSearch.complement]

theorem binarySearch_eq_sortedSearch (h : arr.items.Pairwise (· < ·)) (hshort : arr.items.length < 2 ^ 31) {fuel : ℕ}
    {res : ℤ} (hres : binarySearch fuel arr key (ofOrder α).compareFunc = some res) :
    res = SortedSearch.binarySearch arr.items key := by
  rw [SortedSearch.binarySearch_eq h]
  exact (((finds_iff (Comparison.sorted_ofOrder h)).2 (.inl hshort)).2 fuel res hres).eq_found h

theorem insertSorted_eq_sortedSearch (h : arr.items.Pairwise (· < ·)) (hshort : arr.items.length < 2 ^ 31) {fuel : ℕ}
    {result : Except RangeError (JsArray α × Option ℕ)}
    (hresult : insertSorted fuel arr item (ofOrder α).compareFunc = some result) :
    result.map Prod.fst = JsArray.grow (SortedSearch.insertSorted arr.items item) := by
  have hrank := SortedSearch.rank_le_length arr.items item
  rcases insertSorted_cases hresult with ⟨hnil, heq⟩ | ⟨hnil, res, ⟨fuel', hres⟩, heq⟩
  · rw [heq, hnil]
    rfl
  · have hposition : position res = SortedSearch.rank arr.items item := by
      have hfound := binarySearch_eq_sortedSearch h hshort hres
      rw [SortedSearch.binarySearch_eq h, SortedSearch.found, SortedSearch.complement] at hfound
      by_cases hmem : item ∈ arr.items
      · rw [if_pos hmem] at hfound
        rw [hfound, position, if_neg (by omega)]
      · rw [if_neg hmem] at hfound
        rw [hfound, position, if_pos (by omega), complement_eq (by omega) (by omega)]
        omega
    rw [heq, hposition, splice_eq hrank, SortedSearch.insertSorted,
      if_neg fun hlength => hnil (List.length_eq_zero_iff.1 hlength)]
    dsimp only
    rw [SortedSearch.binarySearch_eq h, SortedSearch.position_found]

end

end CqlDriver.SortedArray
