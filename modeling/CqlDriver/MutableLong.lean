import CqlDriver.Lib.Digits
import CqlDriver.Lib.Limbs
import Mathlib.Data.Nat.Bitwise

/-! # Mutable 64-bit integers (`lib/types/mutable-long.js`)

An object holds four limbs of 16 bits in an array that its methods change in place.  Objects are references into a heap,
so that what a method reads after it wrote, and that it writes to its own object only, is as in the code.  The limbs are
JavaScript numbers; the bit operators reduce them to 32 bits first.  `negate` adds the shared object `MutableLong.one`,
which is one as long as no method was called on it (`WellFormed`). -/

namespace CqlDriver.MutableLong

open Limbs Digits

/-- A reference to an object. -/
abbrev Ref := ℕ

/-- The arrays of the objects, which are numbered in the order of their creation. -/
structure Heap where
  arr : Ref → ℕ → ℕ
  count : ℕ

/-- `x & 0xffff` -/
def and16 (x : ℕ) : ℕ := x % 65536

/-- `x << n`, as the bits of the int32. -/
def shl (x n : ℕ) : ℕ := x * 2 ^ n % 2 ^ 32

/-- `x >>> n` -/
def shr (x n : ℕ) : ℕ := x % 2 ^ 32 / 2 ^ n

namespace Heap

/-- `r._arr[i] = v` -/
def set (h : Heap) (r : Ref) (i v : ℕ) : Heap :=
  { h with arr := Function.update h.arr r (Function.update (h.arr r) i v) }

/-- `new MutableLong(b00, b16, b32, b48)`; missing arguments are zero. -/
def new (h : Heap) (b00 b16 b32 b48 : ℕ) : Ref × Heap :=
  (h.count, {
    arr := Function.update h.arr h.count fun i => [and16 b00, and16 b16, and16 b32, and16 b48].getD i 0
    count := h.count + 1 })

end Heap

/-- `MutableLong.one`, the first object. -/
def one : Ref := 0

/-- The heap after the module was loaded. -/
def loaded : Heap := (Heap.new ⟨fun _ _ => 0, 0⟩ 1 0 0 0).2

/-! ### The methods

A method that returns `this` is the change of the heap. -/

def isZero (this : Ref) (h : Heap) : Bool :=
  h.arr this 3 == 0 && h.arr this 2 == 0 && h.arr this 1 == 0 && h.arr this 0 == 0

/-- `(this._arr[3] & 0x8000) > 0` -/
def isNegative (this : Ref) (h : Heap) : Bool := decide (0 < h.arr this 3 &&& 0x8000)

/-- The loop of `_compareBits` from the index `i - 1` down. -/
def compareBits (this other : Ref) (h : Heap) : ℕ → ℤ
  | 0 => 0
  | i + 1 =>
      if h.arr this i > h.arr other i then 1
      else if h.arr this i < h.arr other i then -1
      else compareBits this other h i

def compare (this other : Ref) (h : Heap) : ℤ :=
  let thisNeg := isNegative this h
  let otherNeg := isNegative other h
  if thisNeg && !otherNeg then -1
  else if !thisNeg && otherNeg then 1
  else compareBits this other h 4

/-- `~x & 0xffff` -/
def notLimb (x : ℕ) : ℕ := and16 (2 ^ 32 - 1 - x % 2 ^ 32)

def not (this : Ref) (h : Heap) : Heap :=
  let h := h.set this 0 (notLimb (h.arr this 0))
  let h := h.set this 1 (notLimb (h.arr this 1))
  let h := h.set this 2 (notLimb (h.arr this 2))
  h.set this 3 (notLimb (h.arr this 3))

def add (this addend : Ref) (h : Heap) : Heap :=
  let c00 := h.arr this 0 + h.arr addend 0
  let h := h.set this 0 (and16 c00)
  let c16 := shr c00 16 + (h.arr this 1 + h.arr addend 1)
  let h := h.set this 1 (and16 c16)
  let c32 := shr c16 16 + (h.arr this 2 + h.arr addend 2)
  let h := h.set this 2 (and16 c32)
  let c48 := shr c32 16 + (h.arr this 3 + h.arr addend 3)
  h.set this 3 (and16 c48)

def toZero (this : Ref) (h : Heap) : Heap := (((h.set this 0 0).set this 1 0).set this 2 0).set this 3 0

/-- `shiftLeft` by `pos` limbs. -/
def moveUp (this : Ref) (pos : ℕ) (h : Heap) : Heap :=
  let h := h.set this 3 (h.arr this (3 - pos))
  let h := h.set this 2 (if pos > 2 then 0 else h.arr this (2 - pos))
  let h := h.set this 1 (if pos > 1 then 0 else h.arr this 0)
  h.set this 0 0

/-- `shiftLeft` within the limbs and into the next ones. -/
def shiftUp (this : Ref) (remainingBits : ℕ) (h : Heap) : Heap :=
  let h := h.set this 3 (and16 (shl (h.arr this 3) remainingBits ||| shr (h.arr this 2) (16 - remainingBits)))
  let h := h.set this 2 (and16 (shl (h.arr this 2) remainingBits ||| shr (h.arr this 1) (16 - remainingBits)))
  let h := h.set this 1 (and16 (shl (h.arr this 1) remainingBits ||| shr (h.arr this 0) (16 - remainingBits)))
  h.set this 0 (and16 (shl (h.arr this 0) remainingBits))

def shiftLeft (this : Ref) (numBits : ℕ) (h : Heap) : Heap :=
  if numBits = 0 then h
  else if numBits ≥ 64 then toZero this h
  else
    let remainingBits := numBits % 16
    let pos := numBits / 16
    let h := if pos > 0 then moveUp this pos h else h
    if remainingBits > 0 then shiftUp this remainingBits h else h

/-- `shiftRightUnsigned` by `pos` limbs. -/
def moveDown (this : Ref) (pos : ℕ) (h : Heap) : Heap :=
  let h := h.set this 0 (h.arr this pos)
  let h := h.set this 1 (if pos > 2 then 0 else h.arr this (1 + pos))
  let h := h.set this 2 (if pos > 1 then 0 else h.arr this 3)
  h.set this 3 0

/-- `shiftRightUnsigned` within the limbs and out of the next ones. -/
def shiftDown (this : Ref) (remainingBits : ℕ) (h : Heap) : Heap :=
  let h := h.set this 0 (shr (h.arr this 0) remainingBits ||| and16 (shl (h.arr this 1) (16 - remainingBits)))
  let h := h.set this 1 (shr (h.arr this 1) remainingBits ||| and16 (shl (h.arr this 2) (16 - remainingBits)))
  let h := h.set this 2 (shr (h.arr this 2) remainingBits ||| and16 (shl (h.arr this 3) (16 - remainingBits)))
  h.set this 3 (shr (h.arr this 3) remainingBits)

def shiftRightUnsigned (this : Ref) (numBits : ℕ) (h : Heap) : Heap :=
  if numBits = 0 then h
  else if numBits ≥ 64 then toZero this h
  else
    let remainingBits := numBits % 16
    let pos := numBits / 16
    let h := if pos > 0 then moveDown this pos h else h
    if remainingBits > 0 then shiftDown this remainingBits h else h

def clone (this : Ref) (h : Heap) : Ref × Heap :=
  h.new (h.arr this 0) (h.arr this 1) (h.arr this 2) (h.arr this 3)

def negate (this : Ref) (h : Heap) : Heap := add this one (not this h)

/-- The products of `multiply`. -/
def product (this multiplier : Ref) (h : Heap) : Heap :=
  let a := h.arr this
  let b := h.arr multiplier
  let c00 := a 0 * b 0
  let c16 := shr c00 16 + a 1 * b 0
  let c32 := shr c16 16
  let c16 := and16 c16 + a 0 * b 1
  let c32 := c32 + shr c16 16 + a 2 * b 0
  let c48 := shr c32 16
  let c32 := and16 c32 + a 1 * b 1
  let c48 := c48 + shr c32 16
  let c32 := and16 c32 + a 0 * b 2
  let c48 := c48 + shr c32 16
  let c48 := c48 + (a 3 * b 0 + a 2 * b 1 + a 1 * b 2 + a 0 * b 3)
  let h := h.set this 0 (and16 c00)
  let h := h.set this 1 (and16 c16)
  let h := h.set this 2 (and16 c32)
  h.set this 3 (and16 c48)

def multiply (this multiplier : Ref) (h : Heap) : Heap :=
  if isZero this h || isZero multiplier h then toZero this h
  else
    let thisNeg := isNegative this h
    let h := if thisNeg then negate this h else h
    let multiplierNeg := isNegative multiplier h
    let (multiplier, h) :=
      if multiplierNeg then
        let (copy, h) := clone multiplier h
        (copy, negate copy h)
      else (multiplier, h)
    let h := product this multiplier h
    if thisNeg != multiplierNeg then negate this h else h

/-! ### Numbers and texts -/

def fromBits (low32Bits high32Bits : ℕ) (h : Heap) : Ref × Heap :=
  h.new low32Bits (shr low32Bits 16) high32Bits (shr high32Bits 16)

/-- `fromNumber` of an integer, or of `NaN` as `none`; the bit operators take the integer part of the quotient. -/
def fromNumber (value : Option ℤ) (h : Heap) : Ref × Heap :=
  match value with
  | none => h.new 0 0 0 0
  | some value =>
      let (r, h) := fromBits (value.natAbs % 2 ^ 32) (value.natAbs / 2 ^ 32) h
      (r, if value < 0 then negate r h else h)

inductive FormatError where
  | emptyString
  | radixRange (radix : ℤ)
  | interiorSign (str : List Char)
deriving DecidableEq, Repr

def FormatError.text : FormatError → String
  | emptyString => "number format error: empty string"
  | radixRange radix => "radix out of range: " ++ toString radix
  | interiorSign str => "number format error: interior \"-\" character: " ++ String.ofList str

/-- A pass of the loop at the index `i`, with the objects `radixToPower` and `result`. -/
def readChunk (str : List Char) (radix : ℕ) (radixToPower result : Ref) (h : Heap) (i : ℕ) : Heap :=
  let size := min 8 (str.length - i)
  let value := parseInt ((str.drop i).take size) radix
  if size < 8 then
    let (power, h) := fromNumber (some (radix ^ size : ℕ)) h
    let h := multiply result power h
    let (chunk, h) := fromNumber value h
    add result chunk h
  else
    let h := multiply result radixToPower h
    let (chunk, h) := fromNumber value h
    add result chunk h

/-- The loop of `fromString`; the pass that breaks is the last one. -/
def readChunks (str : List Char) (radix : ℕ) (h : Heap) : Ref × Heap :=
  let (radixToPower, h) := fromNumber (some (radix ^ 8 : ℕ)) h
  let (result, h) := h.new 0 0 0 0
  (result, (List.range ((str.length + 7) / 8)).foldl (fun h k => readChunk str radix radixToPower result h (8 * k)) h)

/-- `radix || 10` -/
def radixOf (radix : Option ℤ) : ℤ := if radix.getD 0 = 0 then 10 else radix.getD 0

def fromString (str : List Char) (radix : Option ℤ) (h : Heap) : Except FormatError (Ref × Heap) :=
  match str with
  | [] => .error .emptyString
  | c :: cs =>
      if String.ofList (c :: cs) ∈ ["NaN", "Infinity", "+Infinity", "-Infinity"] then .ok (h.new 0 0 0 0)
      else if radixOf radix < 2 ∨ 36 < radixOf radix then .error (.radixRange (radixOf radix))
      else if c = '-' then (fromString cs (some (radixOf radix)) h).map fun (r, h) => (r, negate r h)
      else if '-' ∈ cs then .error (.interiorSign (c :: cs))
      else .ok (readChunks (c :: cs) (radixOf radix).toNat h)

/-! ### Objects -/

/-- The number that the limbs of an array denote. -/
def number (a : ℕ → ℕ) : ℕ := total 65536 4 a

/-- The limbs of an array have 16 bits. -/
def Limbed (a : ℕ → ℕ) : Prop := ∀ i < 4, a i < 65536

/-- The object exists and its array holds a 64-bit value. -/
structure Holds (h : Heap) (r : Ref) (v : BitVec 64) : Prop where
  lt_count : r < h.count
  limbed : Limbed (h.arr r)
  value : BitVec.ofNat 64 (number (h.arr r)) = v

/-- Objects are created, and of those that exist only `this` is written. -/
structure Changes (this : Ref) (h h' : Heap) : Prop where
  count_le : h.count ≤ h'.count
  others : ∀ r < h.count, r ≠ this → h'.arr r = h.arr r
  limbed : (∀ r < h.count, Limbed (h.arr r)) → ∀ r < h'.count, Limbed (h'.arr r)

/-- What a method leaves in its object. -/
structure Stores (this : Ref) (h h' : Heap) (v : BitVec 64) : Prop where
  holds : Holds h' this v
  changes : Changes this h h'

/-- Each object holds a 64-bit value, and `MutableLong.one` is one. -/
structure WellFormed (h : Heap) : Prop where
  limbed : ∀ r < h.count, Limbed (h.arr r)
  one : Holds h one 1

theorem number_eq (a : ℕ → ℕ) : number a = a 0 + a 1 * 65536 + a 2 * 65536 ^ 2 + a 3 * 65536 ^ 3 := by
  simp [number, total_succ]

theorem number_lt {a : ℕ → ℕ} (h : Limbed a) : number a < 2 ^ 64 := total_lt h

theorem limbed_iff {a : ℕ → ℕ} : Limbed a ↔ a 0 < 65536 ∧ a 1 < 65536 ∧ a 2 < 65536 ∧ a 3 < 65536 := by
  constructor
  · intro h
    exact ⟨h 0 (by omega), h 1 (by omega), h 2 (by omega), h 3 (by omega)⟩
  · rintro ⟨h₀, h₁, h₂, h₃⟩ i hi
    rcases (by omega : i = 0 ∨ i = 1 ∨ i = 2 ∨ i = 3) with rfl | rfl | rfl | rfl
    · exact h₀
    · exact h₁
    · exact h₂
    · exact h₃

section
variable {this r : Ref} {h h' h'' : Heap} {v w : BitVec 64}

theorem Holds.number_eq (hold : Holds h r v) : number (h.arr r) = v.toNat := by
  rw [← hold.value, BitVec.toNat_ofNat, Nat.mod_eq_of_lt (number_lt hold.limbed)]

theorem Holds.limbs_eq (hold : Holds h r v) :
    h.arr r 0 + h.arr r 1 * 65536 + h.arr r 2 * 65536 ^ 2 + h.arr r 3 * 65536 ^ 3 = v.toNat := by
  rw [← MutableLong.number_eq]
  exact hold.number_eq

/-- Another object holds what it held. -/
theorem Holds.of_changes (hold : Holds h r v) (hch : Changes this h h') (hne : r ≠ this) : Holds h' r v := by
  have harr := hch.others r hold.lt_count hne
  refine ⟨hold.lt_count.trans_le hch.count_le, ?_, ?_⟩
  · rw [harr]
    exact hold.limbed
  · rw [harr]
    exact hold.value

theorem Changes.refl (this : Ref) (h : Heap) : Changes this h h := ⟨le_rfl, fun _ _ _ => rfl, id⟩

theorem Changes.trans (hfst : Changes this h h') (hsnd : Changes this h' h'') : Changes this h h'' :=
  ⟨hfst.count_le.trans hsnd.count_le,
    fun r hr hne => (hsnd.others r (hr.trans_le hfst.count_le) hne).trans (hfst.others r hr hne),
    fun hl => hsnd.limbed (hfst.limbed hl)⟩

/-- A new object may be written. -/
theorem Changes.of_new (hch : Changes r h h') (hr : h.count ≤ r) (this : Ref) : Changes this h h' :=
  ⟨hch.count_le, fun r' hr' _ => hch.others r' hr' (by omega), hch.limbed⟩

theorem Stores.trans (hfst : Stores this h h' v) (hsnd : Stores this h' h'' w) : Stores this h h'' w :=
  ⟨hsnd.holds, hfst.changes.trans hsnd.changes⟩

theorem WellFormed.of_changes (hwf : WellFormed h) (hch : Changes this h h') (hne : this ≠ MutableLong.one) :
    WellFormed h' :=
  ⟨hch.limbed hwf.limbed, hwf.one.of_changes hch hne.symm⟩

end

/-! ### Writing an array -/

namespace Heap

/-- The heap with another array in place of that of `r`. -/
def write (h : Heap) (r : Ref) (a : ℕ → ℕ) : Heap := { h with arr := Function.update h.arr r a }

variable (h : Heap) (r : Ref) (a : ℕ → ℕ)

theorem set_eq_write (i v : ℕ) : h.set r i v = h.write r (Function.update (h.arr r) i v) := rfl

@[simp] theorem arr_write_self : (h.write r a).arr r = a := Function.update_self ..

theorem arr_write_of_ne {r' : Ref} (hne : r' ≠ r) : (h.write r a).arr r' = h.arr r' := Function.update_of_ne hne ..

@[simp] theorem write_write (a' : ℕ → ℕ) : (h.write r a).write r a' = h.write r a' := by
  rw [write, write, write, Function.update_idem]

end Heap

/-- A method leaves the value that the array denotes. -/
theorem stores_write {h : Heap} {this : Ref} {a : ℕ → ℕ} {v : BitVec 64} (hthis : this < h.count) (hl : Limbed a)
    (hv : number a = v.toNat) : Stores this h (h.write this a) v := by
  refine ⟨⟨hthis, ?_, ?_⟩, ⟨le_rfl, fun r _ hne => h.arr_write_of_ne this a hne, fun hlimbed r hr => ?_⟩⟩
  · rwa [Heap.arr_write_self]
  · rw [Heap.arr_write_self, hv, BitVec.ofNat_toNat, BitVec.setWidth_eq]
  · by_cases hne : r = this
    · rw [hne, Heap.arr_write_self]
      exact hl
    · rw [h.arr_write_of_ne this a hne]
      exact hlimbed r hr

/-! ### Negation and addition -/

theorem and16_lt (x : ℕ) : and16 x < 65536 := Nat.mod_lt _ (by norm_num)

/-- A number of 32 bits is its low limb and what is carried. -/
theorem carry_eq {c : ℕ} (hc : c < 2 ^ 32) : c = 65536 * shr c 16 + and16 c ∧ shr c 16 < 65536 := by
  unfold shr and16
  omega

section
variable {this other : Ref} {h : Heap} {a b : BitVec 64}

theorem notLimb_eq {x : ℕ} (hx : x < 65536) : notLimb x = 65535 - x := by
  unfold notLimb and16
  omega

theorem stores_not (ha : Holds h this a) : Stores this h (not this h) (~~~a) := by
  obtain ⟨h₀, h₁, h₂, h₃⟩ := limbed_iff.1 ha.limbed
  have hnum := ha.limbs_eq
  have hwrite : ∃ s, not this h = h.write this s ∧ s 0 = 65535 - h.arr this 0 ∧ s 1 = 65535 - h.arr this 1 ∧
      s 2 = 65535 - h.arr this 2 ∧ s 3 = 65535 - h.arr this 3 := by
    simp only [not, Heap.set_eq_write, Heap.arr_write_self, Heap.write_write]
    refine ⟨_, rfl, ?_⟩
    simp [notLimb_eq, h₀, h₁, h₂, h₃]
  obtain ⟨s, heq, e₀, e₁, e₂, e₃⟩ := hwrite
  rw [heq]
  refine stores_write ha.lt_count (limbed_iff.2 ⟨by omega, by omega, by omega, by omega⟩) ?_
  rw [BitVec.toNat_not, number_eq, e₀, e₁, e₂, e₃]
  omega

theorem stores_add (ha : Holds h this a) (hb : Holds h other b) (hne : other ≠ this) :
    Stores this h (add this other h) (a + b) := by
  obtain ⟨h₀, h₁, h₂, h₃⟩ := limbed_iff.1 ha.limbed
  obtain ⟨k₀, k₁, k₂, k₃⟩ := limbed_iff.1 hb.limbed
  have hanum := ha.limbs_eq
  have hbnum := hb.limbs_eq
  have hwrite : ∃ s c00 c16 c32 c48, add this other h = h.write this s ∧ c00 = h.arr this 0 + h.arr other 0 ∧
      c16 = shr c00 16 + (h.arr this 1 + h.arr other 1) ∧ c32 = shr c16 16 + (h.arr this 2 + h.arr other 2) ∧
      c48 = shr c32 16 + (h.arr this 3 + h.arr other 3) ∧
      s 0 = and16 c00 ∧ s 1 = and16 c16 ∧ s 2 = and16 c32 ∧ s 3 = and16 c48 := by
    simp only [add, Heap.set_eq_write, Heap.arr_write_self, Heap.write_write, Heap.arr_write_of_ne _ _ _ hne]
    refine ⟨_, _, _, _, _, rfl, rfl, rfl, rfl, rfl, ?_⟩
    simp
  obtain ⟨s, c00, c16, c32, c48, heq, hc00, hc16, hc32, hc48, e₀, e₁, e₂, e₃⟩ := hwrite
  obtain ⟨d₀, l₀⟩ := carry_eq (show c00 < 2 ^ 32 by omega)
  obtain ⟨d₁, l₁⟩ := carry_eq (show c16 < 2 ^ 32 by omega)
  obtain ⟨d₂, l₂⟩ := carry_eq (show c32 < 2 ^ 32 by omega)
  obtain ⟨d₃, l₃⟩ := carry_eq (show c48 < 2 ^ 32 by omega)
  rw [heq]
  refine stores_write ha.lt_count (limbed_iff.2 ?_) ?_
  · rw [e₀, e₁, e₂, e₃]
    exact ⟨and16_lt _, and16_lt _, and16_lt _, and16_lt _⟩
  · have hlt₀ := and16_lt c00
    have hlt₁ := and16_lt c16
    have hlt₂ := and16_lt c32
    have hlt₃ := and16_lt c48
    rw [BitVec.toNat_add, number_eq, e₀, e₁, e₂, e₃, ← hanum, ← hbnum]
    omega

theorem stores_negate (ha : Holds h this a) (hone : Holds h one 1) (hne : this ≠ one) :
    Stores this h (negate this h) (-a) := by
  have hnot := stores_not ha
  have hadd := stores_add hnot.holds (hone.of_changes hnot.changes hne.symm) hne.symm
  rw [BitVec.neg_eq_not_add]
  exact hnot.trans hadd

theorem stores_toZero (hthis : this < h.count) : Stores this h (toZero this h) 0 := by
  have hwrite : ∃ s, toZero this h = h.write this s ∧ s 0 = 0 ∧ s 1 = 0 ∧ s 2 = 0 ∧ s 3 = 0 := by
    simp only [toZero, Heap.set_eq_write, Heap.arr_write_self, Heap.write_write]
    refine ⟨_, rfl, ?_⟩
    simp
  obtain ⟨s, heq, e₀, e₁, e₂, e₃⟩ := hwrite
  rw [heq]
  refine stores_write hthis (limbed_iff.2 ⟨by omega, by omega, by omega, by omega⟩) ?_
  rw [number_eq, e₀, e₁, e₂, e₃]
  rfl

end

/-! ### The order -/

/-- Less is `-1`, greater `1`. -/
def order {α : Type} [LinearOrder α] (x y : α) : ℤ := if x < y then -1 else if y < x then 1 else 0

theorem isNegative_iff {this : Ref} {h : Heap} {a : BitVec 64} (ha : Holds h this a) :
    isNegative this h = decide (a.toInt < 0) := by
  obtain ⟨h₀, h₁, h₂, h₃⟩ := limbed_iff.1 ha.limbed
  have hnum := ha.limbs_eq
  have hand : h.arr this 3 &&& 0x8000 = h.arr this 3 / 32768 * 32768 := by
    rw [show 0x8000 = 2 ^ 15 by norm_num, Nat.and_two_pow, Nat.testBit_eq_decide_div_mod_eq,
      Nat.mod_eq_of_lt (by omega : h.arr this 3 / 2 ^ 15 < 2)]
    rcases (by omega : h.arr this 3 / 2 ^ 15 = 0 ∨ h.arr this 3 / 2 ^ 15 = 1) with hbit | hbit
    · rw [hbit]
      rfl
    · rw [hbit]
      rfl
  rw [isNegative, hand, BitVec.toInt_eq_toNat_cond, ← hnum]
  congr 1
  apply propext
  split_ifs
  · omega
  · omega

theorem isZero_iff {this : Ref} {h : Heap} {a : BitVec 64} (ha : Holds h this a) :
    isZero this h = decide (a = 0) := by
  have hnum := ha.limbs_eq
  rw [isZero, Bool.eq_iff_iff]
  simp only [Bool.and_eq_true, beq_iff_eq, decide_eq_true_eq]
  constructor
  · rintro ⟨⟨⟨h₃, h₂⟩, h₁⟩, h₀⟩
    apply BitVec.eq_of_toNat_eq
    rw [← hnum, h₀, h₁, h₂, h₃]
    rfl
  · rintro rfl
    rw [show (0 : BitVec 64).toNat = 0 from rfl] at hnum
    omega

/-- The loop compares the limbs below `i`. -/
theorem compareBits_eq {this other : Ref} {h : Heap} (ha : Limbed (h.arr this)) (hb : Limbed (h.arr other)) {i : ℕ}
    (hi : i ≤ 4) :
    compareBits this other h i = order (total 65536 i (h.arr this)) (total 65536 i (h.arr other)) := by
  induction i with
  | zero => rfl
  | succ i ih =>
      have hlow : total 65536 i (h.arr this) < 65536 ^ i := total_lt fun x hx => ha x (by omega)
      have hlow' : total 65536 i (h.arr other) < 65536 ^ i := total_lt fun x hx => hb x (by omega)
      rw [compareBits, ih (by omega), order, order, total_succ, total_succ]
      -- a greater limb outweighs those below it
      rcases lt_trichotomy (h.arr this i) (h.arr other i) with hlt | heq | hgt
      · have hstep := Nat.mul_le_mul_right (65536 ^ i) (Nat.succ_le_of_lt hlt)
        rw [Nat.succ_mul] at hstep
        rw [if_neg (by omega), if_pos hlt, if_pos (by omega)]
      · rw [heq, if_neg (by omega), if_neg (by omega)]
        simp only [Nat.add_lt_add_iff_right]
      · have hstep := Nat.mul_le_mul_right (65536 ^ i) (Nat.succ_le_of_lt hgt)
        rw [Nat.succ_mul] at hstep
        rw [if_pos hgt, if_neg (by omega), if_pos (by omega)]

theorem toInt_cases (a : BitVec 64) :
    a.toInt = a.toNat ∧ a.toNat < 2 ^ 63 ∨ a.toInt = a.toNat - 2 ^ 64 ∧ 2 ^ 63 ≤ a.toNat := by
  have hcond := BitVec.toInt_eq_toNat_cond a
  split_ifs at hcond
  · exact Or.inl ⟨hcond, by omega⟩
  · exact Or.inr ⟨by exact_mod_cast hcond, by omega⟩

theorem compare_eq {this other : Ref} {h : Heap} {a b : BitVec 64} (ha : Holds h this a) (hb : Holds h other b) :
    compare this other h = order a.toInt b.toInt := by
  have hbits := compareBits_eq ha.limbed hb.limbed le_rfl
  change _ = order (number _) (number _) at hbits
  rw [ha.number_eq, hb.number_eq] at hbits
  simp only [compare, isNegative_iff ha, isNegative_iff hb, hbits]
  have halt := a.isLt
  have hblt := b.isLt
  unfold order
  rcases toInt_cases a with ⟨hint, hsmall⟩ | ⟨hint, hbig⟩
  · rcases toInt_cases b with ⟨hint', hsmall'⟩ | ⟨hint', hbig'⟩
    · rw [hint, hint', decide_eq_false (by omega), decide_eq_false (by omega)]
      simp only [Bool.not_false, Bool.and_false, Bool.false_and, Bool.false_eq_true, if_false, Int.ofNat_lt]
    · rw [hint, hint', decide_eq_false (by omega), decide_eq_true (by omega)]
      rw [if_neg (by decide), if_pos (by decide), if_neg (by omega), if_pos (by omega)]
  · rcases toInt_cases b with ⟨hint', hsmall'⟩ | ⟨hint', hbig'⟩
    · rw [hint, hint', decide_eq_true (by omega), decide_eq_false (by omega)]
      rw [if_pos (by decide), if_pos (by omega)]
    · rw [hint, hint', decide_eq_true (by omega), decide_eq_true (by omega)]
      simp only [Bool.not_true, Bool.and_false, Bool.false_and, Bool.false_eq_true, if_false, Int.sub_lt_sub_right_iff,
        Int.ofNat_lt]

end CqlDriver.MutableLong
