import CqlDriver.Lib.Bytes
import Mathlib.Data.Nat.Size

/-! # Variable-length integers (`VIntCoding` of `lib/utils.js`)

The first byte of a vint starts with as many one bits as bytes follow it.  A `Long` is a `BitVec 64`
and a word of it a `BitVec 32`; the shifts of the code are those of the bit vectors.  The writers
return the bytes that they put at the front of their buffer. -/

namespace CqlDriver.VInt

open Bytes MachineInt

/-- `(n << 1) ^ (n >> 63)` -/
def encodeZigZag64 (n : BitVec 64) : BitVec 64 := (n <<< 1) ^^^ n.sshiftRight 63

/-- `(n >>> 1) ^ -(n & 1)` -/
def decodeZigZag64 (n : BitVec 64) : BitVec 64 := (n >>> 1) ^^^ -(n &&& 1)

def getHighBits (n : BitVec 64) : BitVec 32 := n.extractLsb' 32 32

def getLowBits (n : BitVec 64) : BitVec 32 := n.setWidth 32

/-- A test `x >>> (32 - k) === 0` with its branch `n += k; x <<= k`. -/
def skipZeros (k : ℕ) (s : ℕ × BitVec 32) : ℕ × BitVec 32 :=
  if s.2 >>> (32 - k) = 0 then (s.1 + k, s.2 <<< k) else s

/-- The tests shared by `numberOfLeadingZeros` and `numberOfLeadingZerosInt32`. -/
def leadingZeros (n : ℕ) (x : BitVec 32) : ℕ :=
  let s := skipZeros 2 (skipZeros 4 (skipZeros 8 (skipZeros 16 (n, x))))
  s.1 - (s.2 >>> 31).toNat

def numberOfLeadingZeros (value : BitVec 64) : ℕ :=
  if value = 0 then 64
  else if getHighBits value = 0 then leadingZeros 33 (getLowBits value)
  else leadingZeros 1 (getHighBits value)

def numberOfLeadingZerosInt32 (i : BitVec 32) : ℕ := if i = 0 then 32 else leadingZeros 1 i

def computeUnsignedVIntSize (value : BitVec 64) : ℕ :=
  (639 - numberOfLeadingZeros (value ||| 1) * 9) >>> 6

/-- `~(0xff >> extraBytesToRead)`, as a byte. -/
def encodeExtraBytesToRead (extraBytesToRead : ℕ) : UInt8 :=
  UInt8.ofNat (255 - 255 >>> extraBytesToRead)

/-- The byte written in pass `j` of the two loops of `encodeVInt`: four bytes of the low word, then
those of the high word, which `>>=` extends with its sign. -/
def vintByte (value : BitVec 64) (j : ℕ) : UInt8 :=
  if j < 4 then UInt8.ofNat ((getLowBits value).sshiftRight (8 * j)).toNat
  else UInt8.ofNat ((getHighBits value).sshiftRight (8 * (j - 4))).toNat

/-- The bytes of the passes `j - 1`, …, `0`, in the order of the buffer. -/
def vintBytes (value : BitVec 64) : ℕ → List UInt8
  | 0 => []
  | j + 1 => vintByte value j :: vintBytes value j

def encodeVInt (value : BitVec 64) (size : ℕ) : List UInt8 :=
  match vintBytes value size with
  | [] => []
  | b :: bs => (b ||| encodeExtraBytesToRead (size - 1)) :: bs

def writeUnsignedVInt (value : BitVec 64) : List UInt8 :=
  let size := computeUnsignedVIntSize value
  if size = 1 then [UInt8.ofNat (getLowBits value).toNat] else encodeVInt value size

def writeVInt (value : BitVec 64) : List UInt8 := writeUnsignedVInt (encodeZigZag64 value)

/-- `fromSignedByteToInt`, as the bits of an int32. -/
def fromSignedByteToInt (value : UInt8) : BitVec 32 :=
  if value.toNat > 0x7f then BitVec.ofInt 32 (value.toNat - 256) else BitVec.ofNat 32 value.toNat

def numberOfExtraBytesToRead (firstByte : BitVec 32) : ℕ := numberOfLeadingZerosInt32 (~~~firstByte) - 24

def firstByteValueMask (extraBytesToRead : ℕ) : BitVec 32 := BitVec.ofNat 32 (255 >>> extraBytesToRead)

/-- `Long.fromInt(input[offset])`; a byte behind the end of the buffer reads as zero. -/
def inputByte (input : List UInt8) (offset : ℕ) : BitVec 64 :=
  BitVec.ofNat 64 (input.getD offset 0).toNat

/-- `readUnsignedVInt`: the value and the offset behind it. -/
def readUnsignedVInt (input : List UInt8) (offset : ℕ) : BitVec 64 × ℕ :=
  let firstByte := input.getD offset 0
  if firstByte &&& 0x80 = 0 then (BitVec.ofNat 64 firstByte.toNat, offset + 1)
  else
    let sByteInt := fromSignedByteToInt firstByte
    let size := numberOfExtraBytesToRead sByteInt
    let result := (sByteInt &&& firstByteValueMask size).signExtend 64
    ((List.range' (offset + 1) size).foldl (fun r o => (r <<< 8) ||| inputByte input o) result,
      offset + 1 + size)

def readVInt (buffer : List UInt8) (offset : ℕ) : BitVec 64 × ℕ :=
  let (value, offset) := readUnsignedVInt buffer offset
  (decodeZigZag64 value, offset)

/-! ### The variant for numbers -/

/-- `a | b` -/
def or32 (a b : ℤ) : ℤ := (BitVec.ofInt 32 a ||| BitVec.ofInt 32 b).toInt

/-- The loop of `uvintPack`, with `v`, `numBits`, `numExtraBytes` and `rv`; `fuel` bounds its passes. -/
def uvintPackLoop : ℕ → ℤ → ℤ → ℕ → List UInt8 → ℤ × ℕ × List UInt8
  | 0, v, _, numExtraBytes, rv => (v, numExtraBytes, rv)
  | fuel + 1, v, numBits, numExtraBytes, rv =>
      if numBits > 8 - min (numExtraBytes + 1) 8 then
        uvintPackLoop fuel (wrap 32 v / 256) (numBits - 8) (numExtraBytes + 1)
          (rv ++ [UInt8.ofNat (v % 256).toNat])
      else (v, numExtraBytes, rv)

/-- `uvintPack`; `none` is the error for a value that is too big. -/
def uvintPack (val : ℕ) : Option (List UInt8) :=
  if val < 128 then some [UInt8.ofNat val]
  else
    let (v, numExtraBytes, rv) := uvintPackLoop val.size val val.size 0 []
    if numExtraBytes > 8 then none
    else
      let n := 8 - numExtraBytes
      some (rv ++ [UInt8.ofNat (or32 v ((255 >>> n : ℕ) <<< n : ℕ)).natAbs]).reverse

/-- `8 - (~firstByte & 0xff).toString(2).length` -/
def numExtraBytes (firstByte : UInt8) : ℕ := 8 - (Nat.toDigits 2 (255 - firstByte.toNat)).length

/-- `uvintUnpack`: the size, `none` when there is no first byte, and the number of bytes read. -/
def uvintUnpack (bytes : List UInt8) : Option ℤ × ℕ :=
  match bytes with
  | [] => (none, 1)
  | firstByte :: _ =>
      if firstByte &&& 128 = 0 then (some firstByte.toNat, 1)
      else
        let k := numExtraBytes firstByte
        let rv : ℤ := (firstByte.toNat &&& 255 >>> k : ℕ)
        (some ((List.range' 1 k).foldl (fun rv idx => wrap 32 (rv * 256) + (bytes.getD idx 0).toNat) rv),
          k + 1)

/-! ### Zig-zag and leading zeros -/

theorem and_one_eq (x : BitVec 64) : x &&& 1 = BitVec.ofNat 64 (x.toNat % 2) := by
  apply BitVec.eq_of_toNat_eq
  rw [BitVec.toNat_and, BitVec.toNat_ofNat]
  have : (1 : BitVec 64).toNat = 1 := rfl
  rw [this, Nat.and_one_is_mod]
  omega

theorem decodeZigZag64_encodeZigZag64 (n : BitVec 64) : decodeZigZag64 (encodeZigZag64 n) = n := by
  have hlt := n.isLt
  cases hm : n.msb with
  | false =>
      have hsmall := BitVec.msb_eq_false_iff_two_mul_lt.1 hm
      have hsign : n.sshiftRight 63 = 0#64 := by
        rw [BitVec.sshiftRight_eq_of_msb_false hm]
        apply BitVec.eq_of_toNat_eq
        rw [BitVec.toNat_ushiftRight, Nat.shiftRight_eq_div_pow]
        exact Nat.div_eq_of_lt (by omega)
      have henc : (encodeZigZag64 n).toNat = 2 * n.toNat := by
        rw [encodeZigZag64, hsign, BitVec.xor_zero, BitVec.toNat_shiftLeft, Nat.shiftLeft_eq]
        omega
      have heven : (encodeZigZag64 n).toNat % 2 = 0 := by omega
      apply BitVec.eq_of_toNat_eq
      rw [decodeZigZag64, and_one_eq, heven, BitVec.neg_zero, BitVec.xor_zero, BitVec.toNat_ushiftRight,
        henc, Nat.shiftRight_eq_div_pow]
      omega
  | true =>
      have hbig := BitVec.msb_eq_true_iff_two_mul_ge.1 hm
      have hsign : n.sshiftRight 63 = BitVec.allOnes 64 := by
        rw [BitVec.sshiftRight_eq_of_msb_true hm]
        apply BitVec.eq_of_toNat_eq
        rw [BitVec.toNat_not, BitVec.toNat_ushiftRight, BitVec.toNat_not, Nat.shiftRight_eq_div_pow,
          Nat.div_eq_of_lt (by omega)]
        rfl
      have henc : (encodeZigZag64 n).toNat = 2 ^ 65 - 1 - 2 * n.toNat := by
        rw [encodeZigZag64, hsign, BitVec.xor_allOnes, BitVec.toNat_not, BitVec.toNat_shiftLeft,
          Nat.shiftLeft_eq]
        omega
      have hodd : (encodeZigZag64 n).toNat % 2 = 1 := by omega
      have hneg : -(BitVec.ofNat 64 1) = BitVec.allOnes 64 := by decide
      apply BitVec.eq_of_toNat_eq
      rw [decodeZigZag64, and_one_eq, hodd, hneg, BitVec.xor_allOnes, BitVec.toNat_not,
        BitVec.toNat_ushiftRight, henc, Nat.shiftRight_eq_div_pow]
      omega

theorem size_eq_size_div {n k : ℕ} (h : n / 2 ^ k ≠ 0) : n.size = (n / 2 ^ k).size + k := by
  apply le_antisymm
  · rw [Nat.size_le, pow_add, ← Nat.div_lt_iff_lt_mul (by positivity)]
    exact Nat.lt_size_self _
  · obtain ⟨s, hs⟩ : ∃ s, (n / 2 ^ k).size = s + 1 :=
      ⟨(n / 2 ^ k).size - 1, by have := Nat.size_pos.2 (Nat.pos_of_ne_zero h); omega⟩
    have hle : 2 ^ s ≤ n / 2 ^ k := Nat.lt_size.1 (by omega)
    rw [hs, Nat.succ_add]
    apply Nat.lt_size.2
    rw [pow_add]
    exact (Nat.le_div_iff_mul_le (by positivity)).1 hle

/-- One test keeps the sum of the count and the leading zeros of the rest. -/
theorem skipZeros_spec {k : ℕ} (hk : k ≤ 32) (n : ℕ) (x : BitVec 32) (hx : x.toNat ≠ 0) :
    (skipZeros k (n, x)).2.toNat ≠ 0 ∧
      (skipZeros k (n, x)).2.toNat.size + n = x.toNat.size + (skipZeros k (n, x)).1 ∧
      (32 - k < (skipZeros k (n, x)).2.toNat.size ∨
        (skipZeros k (n, x)).2.toNat.size = x.toNat.size + k) := by
  unfold skipZeros
  simp only
  split_ifs with h
  · have hsmall : x.toNat < 2 ^ (32 - k) := by
      have := congrArg BitVec.toNat h
      rw [BitVec.toNat_ushiftRight, Nat.shiftRight_eq_div_pow] at this
      exact (Nat.div_eq_zero_iff_lt (by positivity)).1 this
    have hshift : (x <<< k).toNat = x.toNat <<< k := by
      rw [BitVec.toNat_shiftLeft, Nat.mod_eq_of_lt]
      rw [Nat.shiftLeft_eq]
      calc x.toNat * 2 ^ k < 2 ^ (32 - k) * 2 ^ k := Nat.mul_lt_mul_of_pos_right hsmall (by positivity)
        _ = 2 ^ 32 := by rw [← pow_add]; congr 1; omega
    have hsize : (x <<< k).toNat.size = x.toNat.size + k := by rw [hshift, Nat.size_shiftLeft hx]
    refine ⟨?_, by rw [hsize]; omega, Or.inr hsize⟩
    rw [hshift, Nat.shiftLeft_eq]
    positivity
  · refine ⟨hx, rfl, Or.inl ?_⟩
    have hbig : 2 ^ (32 - k) ≤ x.toNat := by
      by_contra hlt
      apply h
      apply BitVec.eq_of_toNat_eq
      rw [BitVec.toNat_ushiftRight, Nat.shiftRight_eq_div_pow]
      exact Nat.div_eq_of_lt (by omega)
    exact Nat.lt_size.2 hbig

theorem leadingZeros_eq (n : ℕ) (x : BitVec 32) (hx : x.toNat ≠ 0) :
    leadingZeros (n + 1) x = n + (32 - x.toNat.size) := by
  obtain ⟨h₁, e₁, b₁⟩ := skipZeros_spec (k := 16) (by norm_num) (n + 1) x hx
  set s₁ := skipZeros 16 (n + 1, x)
  obtain ⟨h₂, e₂, b₂⟩ := skipZeros_spec (k := 8) (by norm_num) s₁.1 s₁.2 h₁
  set s₂ := skipZeros 8 s₁
  obtain ⟨h₃, e₃, b₃⟩ := skipZeros_spec (k := 4) (by norm_num) s₂.1 s₂.2 h₂
  set s₃ := skipZeros 4 s₂
  obtain ⟨h₄, e₄, b₄⟩ := skipZeros_spec (k := 2) (by norm_num) s₃.1 s₃.2 h₃
  set s₄ := skipZeros 2 s₃
  have hpos : 0 < x.toNat.size := Nat.size_pos.2 (Nat.pos_of_ne_zero hx)
  have hx32 : x.toNat.size ≤ 32 := Nat.size_le.2 x.isLt
  have hle : s₄.2.toNat.size ≤ 32 := Nat.size_le.2 s₄.2.isLt
  have htop : (s₄.2 >>> 31).toNat = s₄.2.toNat.size - 31 := by
    have hlt := s₄.2.isLt
    have hbig : 2 ^ 30 ≤ s₄.2.toNat := Nat.lt_size.1 (by omega)
    rw [BitVec.toNat_ushiftRight, Nat.shiftRight_eq_div_pow]
    by_cases hb : s₄.2.toNat < 2 ^ 31
    · have := Nat.size_le.2 hb
      omega
    · have := Nat.lt_size.2 (Nat.le_of_not_lt hb)
      omega
  have hres : leadingZeros (n + 1) x = s₄.1 - (s₄.2 >>> 31).toNat := rfl
  rw [hres, htop]
  omega

theorem toNat_getHighBits (n : BitVec 64) : (getHighBits n).toNat = n.toNat / 2 ^ 32 := by
  have := n.isLt
  rw [getHighBits, BitVec.extractLsb'_toNat, Nat.shiftRight_eq_div_pow]
  omega

theorem toNat_getLowBits (n : BitVec 64) : (getLowBits n).toNat = n.toNat % 2 ^ 32 :=
  BitVec.toNat_setWidth ..

theorem numberOfLeadingZeros_eq (value : BitVec 64) :
    numberOfLeadingZeros value = 64 - value.toNat.size := by
  have hlt := value.isLt
  unfold numberOfLeadingZeros
  split_ifs with h hhigh
  · subst h
    rfl
  · have hsmall : value.toNat < 2 ^ 32 := by
      have := congrArg BitVec.toNat hhigh
      rw [toNat_getHighBits] at this
      simp at this
      omega
    have hlow : (getLowBits value).toNat = value.toNat := by
      rw [toNat_getLowBits]
      omega
    have hne : value.toNat ≠ 0 := fun h0 => h (BitVec.eq_of_toNat_eq h0)
    have hsize := Nat.size_le.2 hsmall
    rw [leadingZeros_eq 32 _ (by rwa [hlow]), hlow]
    omega
  · have hbig : getHighBits value ≠ 0 := hhigh
    have hhi := toNat_getHighBits value
    have hne : value.toNat / 2 ^ 32 ≠ 0 := by
      rw [← hhi]
      exact fun h0 => hbig (BitVec.eq_of_toNat_eq h0)
    have hsize := size_eq_size_div hne
    have hsize₁ : (value.toNat / 2 ^ 32).size ≤ 32 := Nat.size_le.2 (by omega)
    rw [leadingZeros_eq 0 _ (by rwa [hhi]), hhi]
    omega

/-! ### The format -/

/-- The number `n` with `k` bytes behind the first one. -/
def pack (k n : ℕ) : List UInt8 := UInt8.ofNat (256 - 2 ^ (8 - k) + n / 256 ^ k) :: toBE k n

/-- The bits of `n` left for the first byte leave room for its marker. -/
def Packs (k n : ℕ) : Prop := k ≤ 8 ∧ n / 256 ^ k < 2 ^ (7 - k)

@[simp] theorem length_pack (k n : ℕ) : (pack k n).length = k + 1 := by simp [pack]

theorem Packs.of_size {k n : ℕ} (hk : k ≤ 7) (h : n.size ≤ 7 * k + 7) : Packs k n := by
  refine ⟨by omega, ?_⟩
  rw [Nat.div_lt_iff_lt_mul (by positivity)]
  calc n < 2 ^ (7 * k + 7) := Nat.size_le.1 h
    _ = 2 ^ (7 - k) * 256 ^ k := by
        rw [show (256 : ℕ) = 2 ^ 8 from rfl, ← pow_mul, ← pow_add]
        congr 1
        omega

theorem Packs.of_lt {n : ℕ} (h : n < 2 ^ 64) : Packs 8 n := by
  refine ⟨le_rfl, ?_⟩
  rw [Nat.div_lt_iff_lt_mul (by positivity)]
  omega

/-- The number of bytes behind the first one: each takes seven more bits, and eight take all. -/
def extraBytes (n : ℕ) : ℕ := min ((n.size - 1) / 7) 8

theorem packs_extraBytes {n : ℕ} (h : n < 2 ^ 64) : Packs (extraBytes n) n := by
  unfold extraBytes
  by_cases hbig : 57 ≤ n.size
  · rw [min_eq_right (by omega)]
    exact .of_lt h
  · rw [min_eq_left (by omega)]
    exact .of_size (by omega) (by omega)

theorem Packs.lt_128 {k n : ℕ} (h : Packs k n) : n / 256 ^ k < 128 :=
  h.2.trans_le (Nat.pow_le_pow_right (by norm_num) (by omega : 7 - k ≤ 7))

/-! ### Writing -/

theorem size_or_one (n : ℕ) : (n ||| 1).size = max n.size 1 := by
  apply le_antisymm
  · rw [Nat.size_le]
    refine Nat.or_lt_two_pow ?_ ?_
    · exact (Nat.lt_size_self n).trans_le (Nat.pow_le_pow_right two_pos (le_max_left _ _))
    · exact Nat.one_lt_two_pow (by omega)
  · exact max_le (Nat.size_le_size Nat.left_le_or) (show Nat.size 1 ≤ _ from Nat.size_le_size Nat.right_le_or)

theorem computeUnsignedVIntSize_eq (value : BitVec 64) :
    computeUnsignedVIntSize value = extraBytes value.toNat + 1 := by
  have hor : (value ||| 1).toNat = value.toNat ||| 1 := rfl
  have hle : value.toNat.size ≤ 64 := Nat.size_le.2 value.isLt
  rw [computeUnsignedVIntSize, numberOfLeadingZeros_eq, hor, size_or_one, Nat.shiftRight_eq_div_pow, extraBytes]
  omega

theorem ofNat_sshiftRight (x : BitVec 32) {j : ℕ} (hj : j < 4) :
    UInt8.ofNat (x.sshiftRight (8 * j)).toNat = UInt8.ofNat (x.toNat / 256 ^ j) := by
  have hlt := x.isLt
  apply UInt8.toNat_inj.1
  rw [UInt8.toNat_ofNat', UInt8.toNat_ofNat']
  cases hm : x.msb with
  | false =>
      rw [BitVec.sshiftRight_eq_of_msb_false hm, BitVec.toNat_ushiftRight, Nat.shiftRight_eq_div_pow, pow_mul]
      rfl
  | true =>
      rw [BitVec.sshiftRight_eq_of_msb_true hm, BitVec.toNat_not, BitVec.toNat_ushiftRight, BitVec.toNat_not,
        Nat.shiftRight_eq_div_pow]
      interval_cases j <;> omega

theorem vintByte_eq (value : BitVec 64) {j : ℕ} (hj : j < 8) :
    vintByte value j = UInt8.ofNat (value.toNat / 256 ^ j) := by
  have hlt := value.isLt
  unfold vintByte
  split_ifs with h4
  · rw [ofNat_sshiftRight _ h4, toNat_getLowBits]
    apply UInt8.toNat_inj.1
    rw [UInt8.toNat_ofNat', UInt8.toNat_ofNat']
    interval_cases j <;> omega
  · rw [ofNat_sshiftRight _ (by omega), toNat_getHighBits, Nat.div_div_eq_div_mul]
    congr 2
    rw [show (2 : ℕ) ^ 32 = 256 ^ 4 by norm_num, ← pow_add]
    congr 1
    omega

theorem vintBytes_eq (value : BitVec 64) (j : ℕ) (hj : j ≤ 8) : vintBytes value j = toBE j value.toNat := by
  induction j with
  | zero => rfl
  | succ j ih => rw [vintBytes, ih (by omega), vintByte_eq value (by omega), toBE_succ]

theorem or_marker : ∀ k < 8, ∀ b < 128, b < 2 ^ (7 - k) →
    UInt8.ofNat b ||| encodeExtraBytesToRead k = UInt8.ofNat (256 - 2 ^ (8 - k) + b) := by
  decide +kernel

theorem or_255 (b : UInt8) : b ||| 255 = 255 := by
  have h : ∀ n < 256, UInt8.ofNat n ||| 255 = 255 := by decide +kernel
  rw [← UInt8.ofNat_toNat (x := b)]
  exact h _ b.toNat_lt

theorem writeUnsignedVInt_pack (value : BitVec 64) :
    writeUnsignedVInt value = pack (extraBytes value.toNat) value.toNat := by
  have hpacks := packs_extraBytes value.isLt
  have hk := computeUnsignedVIntSize_eq value
  generalize extraBytes value.toNat = k at hpacks hk
  have hle := hpacks.1
  have hfirst := hpacks.2
  simp only [writeUnsignedVInt, hk]
  split_ifs with h1
  · obtain rfl : k = 0 := by omega
    have hn : value.toNat < 128 := by simpa using hpacks.lt_128
    rw [toNat_getLowBits, pack, toBE, Nat.mod_eq_of_lt (by omega)]
    simp
  · rw [encodeVInt, vintBytes, vintBytes_eq value k hle, Nat.add_sub_cancel, pack]
    simp only
    by_cases h8 : k = 8
    · subst h8
      have hzero : value.toNat / 256 ^ 8 = 0 := by simpa using hfirst
      rw [hzero]
      exact congrArg (· :: _) (or_255 _)
    · rw [vintByte_eq value (by omega), or_marker k (by omega) _ hpacks.lt_128 hfirst]

theorem writeUnsignedVInt_eq (value : BitVec 64) :
    ∃ k, Packs k value.toNat ∧ writeUnsignedVInt value = pack k value.toNat :=
  ⟨_, packs_extraBytes value.isLt, writeUnsignedVInt_pack value⟩

/-! ### Reading -/

/-- The code reads bytes by their index. -/
theorem foldl_range'_getD {β : Type} (g : β → UInt8 → β) (pre xs post : List UInt8) (r : β) :
    (List.range' pre.length xs.length).foldl (fun r o => g r ((pre ++ xs ++ post).getD o 0)) r =
      xs.foldl g r := by
  induction xs generalizing pre r with
  | nil => rfl
  | cons x xs ih =>
      have hx : (pre ++ x :: xs ++ post).getD pre.length 0 = x := by
        simp [List.getD_eq_getElem?_getD]
      have := ih (pre ++ [x]) (g r x)
      simp only [List.length_append, List.length_singleton, List.append_assoc, List.singleton_append] at this
      rw [List.length_cons, List.range'_succ, List.foldl_cons, hx]
      simpa using this

theorem toNat_foldl (bs : List UInt8) (r : BitVec 64) :
    (bs.foldl (fun (r : BitVec 64) b => (r <<< 8) ||| BitVec.ofNat 64 b.toNat) r).toNat =
      bs.foldl (fun acc b => acc * 256 + b.toNat) r.toNat % 2 ^ 64 := by
  induction bs using List.reverseRecOn with
  | nil => exact (Nat.mod_eq_of_lt r.isLt).symm
  | append_singleton bs b ih =>
      have hb := b.toNat_lt
      simp only [List.foldl_append, List.foldl_cons, List.foldl_nil]
      set R := bs.foldl (fun (r : BitVec 64) b => (r <<< 8) ||| BitVec.ofNat 64 b.toNat) r
      set A := bs.foldl (fun acc b => acc * 256 + b.toNat) r.toNat
      have hR := R.isLt
      rw [BitVec.toNat_or, BitVec.toNat_shiftLeft, BitVec.toNat_ofNat, Nat.mod_eq_of_lt (by omega : b.toNat < 2 ^ 64)]
      have hshift : R.toNat <<< 8 % 2 ^ 64 = (R.toNat % 2 ^ 56) <<< 8 := by
        rw [Nat.shiftLeft_eq, Nat.shiftLeft_eq]
        omega
      rw [hshift, ← Nat.shiftLeft_add_eq_or_of_lt (by simpa using hb), Nat.shiftLeft_eq, ih]
      omega

/-- What the reader takes from the first byte. -/
def FirstByte (k b : ℕ) (f : UInt8) : Prop :=
  (f &&& 0x80 = 0 ↔ k = 0) ∧ (k = 0 → f.toNat = b) ∧
    (k ≠ 0 → numberOfExtraBytesToRead (fromSignedByteToInt f) = k ∧
      ((fromSignedByteToInt f &&& firstByteValueMask k).signExtend 64).toNat = b)

instance (k b : ℕ) (f : UInt8) : Decidable (FirstByte k b f) := inferInstanceAs (Decidable (_ ∧ _))

theorem firstByte_spec : ∀ k < 9, ∀ b < 128, b < 2 ^ (7 - k) →
    FirstByte k b (UInt8.ofNat (256 - 2 ^ (8 - k) + b)) := by
  decide +kernel

theorem readUnsignedVInt_pack {k n : ℕ} (h : Packs k n) (pre post : List UInt8) :
    readUnsignedVInt (pre ++ pack k n ++ post) pre.length = (BitVec.ofNat 64 n, pre.length + (k + 1)) := by
  obtain ⟨hmark, hsmall, hbig⟩ := firstByte_spec k (by have := h.1; omega) (n / 256 ^ k) h.lt_128 h.2
  have hfirst : (pre ++ pack k n ++ post).getD pre.length 0 = UInt8.ofNat (256 - 2 ^ (8 - k) + n / 256 ^ k) := by
    simp [List.getD_eq_getElem?_getD, pack]
  simp only [readUnsignedVInt, hfirst]
  by_cases hk : k = 0
  · rw [if_pos (hmark.2 hk), hsmall hk]
    subst hk
    simp
  · rw [if_neg (fun hz => hk (hmark.1 hz))]
    obtain ⟨hsize, hbits⟩ := hbig hk
    rw [hsize]
    have hfold := foldl_range'_getD (fun (r : BitVec 64) b => (r <<< 8) ||| BitVec.ofNat 64 b.toNat)
      (pre ++ [UInt8.ofNat (256 - 2 ^ (8 - k) + n / 256 ^ k)]) (toBE k n) post
      ((fromSignedByteToInt (UInt8.ofNat (256 - 2 ^ (8 - k) + n / 256 ^ k)) &&& firstByteValueMask k).signExtend 64)
    have hinput : pre ++ [UInt8.ofNat (256 - 2 ^ (8 - k) + n / 256 ^ k)] ++ toBE k n ++ post =
        pre ++ pack k n ++ post := by simp [pack]
    rw [hinput, List.length_append, List.length_singleton, length_toBE] at hfold
    refine Prod.ext ?_ (by simp only; omega)
    simp only [inputByte]
    rw [hfold]
    apply BitVec.eq_of_toNat_eq
    rw [toNat_foldl, hbits, foldl_toBE, BitVec.toNat_ofNat, Nat.div_add_mod']

/-- A vint is read back, whatever stands before and behind it. -/
theorem readVInt_writeVInt (n : BitVec 64) (pre post : List UInt8) :
    readVInt (pre ++ writeVInt n ++ post) pre.length = (n, pre.length + (writeVInt n).length) := by
  obtain ⟨k, hpacks, hw⟩ := writeUnsignedVInt_eq (encodeZigZag64 n)
  rw [readVInt, writeVInt, hw, readUnsignedVInt_pack hpacks]
  simp [decodeZigZag64_encodeZigZag64]

/-- One byte for the size classes below `2⁷`, up to nine for all 64 bits. -/
theorem length_writeVInt (n : BitVec 64) : 1 ≤ (writeVInt n).length ∧ (writeVInt n).length ≤ 9 := by
  obtain ⟨k, hpacks, hw⟩ := writeUnsignedVInt_eq (encodeZigZag64 n)
  have hk := hpacks.1
  rw [writeVInt, hw, length_pack]
  omega

/-! ### Numbers below 2³¹ -/

/-- The loop stops at the first size whose first byte has room for the rest. -/
theorem uvintPackLoop_spec {n : ℕ} (hn : n < 2 ^ 31) : ∀ (fuel j : ℕ), j ≤ extraBytes n → n.size ≤ fuel + 8 * j →
    uvintPackLoop fuel (n / 256 ^ j : ℕ) (n.size - 8 * j : ℤ) j (toBE j n).reverse =
      (((n / 256 ^ extraBytes n : ℕ) : ℤ), extraBytes n, (toBE (extraBytes n) n).reverse)
  | 0, j, hj, hfuel => by
      have hj : j = extraBytes n := by
        unfold extraBytes at *
        omega
      rw [uvintPackLoop, hj]
  | fuel + 1, j, hj, hfuel => by
      have hsize : n.size ≤ 31 := Nat.size_le.2 hn
      rw [uvintPackLoop]
      split_ifs with hloop
      · have hj' : j + 1 ≤ extraBytes n := by
          unfold extraBytes at *
          omega
        have hv : (n / 256 ^ j : ℕ) < 2 ^ 31 := (Nat.div_le_self _ _).trans_lt hn
        have hdiv : wrap 32 (n / 256 ^ j : ℕ) / 256 = ((n / 256 ^ (j + 1) : ℕ) : ℤ) := by
          rw [wrap32_eq_self (le_trans (by norm_num) (Int.natCast_nonneg _)) (by exact_mod_cast hv), pow_succ,
            ← Nat.div_div_eq_div_mul]
          norm_cast
        have hbyte : UInt8.ofNat (((n / 256 ^ j : ℕ) : ℤ) % 256).toNat = UInt8.ofNat (n / 256 ^ j) := by
          apply UInt8.toNat_inj.1
          rw [UInt8.toNat_ofNat', UInt8.toNat_ofNat']
          omega
        have hrv : (toBE j n).reverse ++ [UInt8.ofNat (n / 256 ^ j)] = (toBE (j + 1) n).reverse := by
          rw [toBE_succ, List.reverse_cons]
        have hbits : (n.size : ℤ) - 8 * j - 8 = n.size - 8 * ((j + 1 : ℕ) : ℤ) := by push_cast; ring
        rw [hdiv, hbyte, hrv, hbits]
        exact uvintPackLoop_spec hn fuel (j + 1) hj' (by omega)
      · have hj' : j = extraBytes n := by
          unfold extraBytes at *
          omega
        rw [hj']

theorem or32_marker : ∀ k < 5, ∀ b : ℕ, b < 128 → b < 2 ^ (7 - k) →
    UInt8.ofNat (or32 (b : ℤ) ((255 >>> (8 - k) : ℕ) <<< (8 - k) : ℕ)).natAbs =
      UInt8.ofNat (256 - 2 ^ (8 - k) + b) := by
  decide +kernel

theorem extraBytes_le {n : ℕ} (hn : n < 2 ^ 31) : extraBytes n ≤ 4 := by
  have hsize : n.size ≤ 31 := Nat.size_le.2 hn
  unfold extraBytes
  omega

theorem uvintPack_pack {n : ℕ} (hn : n < 2 ^ 31) : uvintPack n = some (pack (extraBytes n) n) := by
  by_cases hsmall : n < 128
  · have hsize : n.size ≤ 7 := Nat.size_le.2 (by simpa using hsmall)
    have hextra : extraBytes n = 0 := by
      unfold extraBytes
      omega
    rw [uvintPack, if_pos hsmall, hextra, pack, toBE]
    simp
  · have hpacks := packs_extraBytes (hn.trans (by norm_num))
    have hk := extraBytes_le hn
    have hloop := uvintPackLoop_spec hn n.size 0 (by omega) (by omega)
    rw [pow_zero, Nat.div_one, Nat.cast_zero, mul_zero, sub_zero, toBE, List.reverse_nil] at hloop
    rw [uvintPack, if_neg hsmall, hloop]
    simp only
    rw [if_neg (by omega), or32_marker _ (by omega) _ hpacks.lt_128 hpacks.2, List.reverse_append,
      List.reverse_reverse, pack]
    rfl

theorem uvintPack_eq {n : ℕ} (hn : n < 2 ^ 31) : ∃ k, k ≤ 4 ∧ Packs k n ∧ uvintPack n = some (pack k n) :=
  ⟨_, extraBytes_le hn, packs_extraBytes (hn.trans (by norm_num)), uvintPack_pack hn⟩

theorem wrap_mul_add (y : ℤ) (b : UInt8) : wrap 32 (y * 256) + b.toNat = wrap 32 (y * 256 + b.toNat) := by
  have hb := b.toNat_lt
  have hlow := Int.le_bmod (x := y * 256) (m := 2 ^ 32) (by norm_num)
  have hhigh := Int.bmod_lt (x := y * 256) (m := 2 ^ 32) (by norm_num)
  have hmod := Int.bmod_emod (x := y * 256) (m := 2 ^ 32)
  change -_ ≤ wrap 32 (y * 256) at hlow
  change wrap 32 (y * 256) < _ at hhigh
  change wrap 32 (y * 256) % _ = _ at hmod
  norm_num at hlow hhigh hmod
  have hself : wrap 32 (wrap 32 (y * 256) + b.toNat) = wrap 32 (y * 256) + b.toNat :=
    wrap32_eq_self (by omega) (by omega)
  rw [← hself, wrap_wrap_add]

/-- The loop of `uvintUnpack` keeps the lowest 32 bits. -/
theorem foldl_wrap (bs : List UInt8) (r : ℤ) (h : bs ≠ []) :
    bs.foldl (fun (rv : ℤ) b => wrap 32 (rv * 256) + b.toNat) r = wrap 32 (r * 256 ^ bs.length + ofBE bs) := by
  induction bs using List.reverseRecOn with
  | nil => exact absurd rfl h
  | append_singleton bs b ih =>
      rw [List.foldl_append, List.foldl_cons, List.foldl_nil, wrap_mul_add, ofBE_append_singleton,
        List.length_append, List.length_singleton, pow_succ]
      by_cases hbs : bs = []
      · subst hbs
        simp
      · rw [ih hbs, ← wrap_wrap_add, wrap_wrap_mul, wrap_wrap_add]
        congr 1
        push_cast
        ring

/-- What `uvintUnpack` takes from the first byte. -/
def UnpackByte (k b : ℕ) (f : UInt8) : Prop :=
  (f &&& 128 = 0 ↔ k = 0) ∧ (k = 0 → f.toNat = b) ∧
    (k ≠ 0 → numExtraBytes f = k ∧ f.toNat &&& 255 >>> k = b)

instance (k b : ℕ) (f : UInt8) : Decidable (UnpackByte k b f) := inferInstanceAs (Decidable (_ ∧ _))

theorem unpackByte_spec : ∀ k < 8, ∀ b < 128, b < 2 ^ (7 - k) →
    UnpackByte k b (UInt8.ofNat (256 - 2 ^ (8 - k) + b)) := by
  decide +kernel

/-- A size of at most eight bytes is read as a signed number of 32 bits. -/
theorem uvintUnpack_pack_wrap {k n : ℕ} (hk : k ≤ 7) (h : Packs k n) (post : List UInt8) :
    uvintUnpack (pack k n ++ post) = (some (wrap 32 n), k + 1) := by
  obtain ⟨hmark, hsmall, hbig⟩ := unpackByte_spec k (by omega) (n / 256 ^ k) h.lt_128 h.2
  rw [pack, List.cons_append, uvintUnpack]
  by_cases hk0 : k = 0
  · rw [if_pos (hmark.2 hk0), hsmall hk0]
    subst hk0
    have hlt := h.lt_128
    rw [pow_zero, Nat.div_one] at hlt ⊢
    rw [wrap32_eq_self (by omega) (by omega)]
  · obtain ⟨hsize, hbits⟩ := hbig hk0
    rw [if_neg (fun hz => hk0 (hmark.1 hz))]
    simp only [hsize, hbits]
    have hfold := foldl_range'_getD (fun (rv : ℤ) b => wrap 32 (rv * 256) + b.toNat)
      [UInt8.ofNat (256 - 2 ^ (8 - k) + n / 256 ^ k)] (toBE k n) post ((n / 256 ^ k : ℕ) : ℤ)
    have hne : toBE k n ≠ [] := by
      rw [ne_eq, ← List.length_eq_zero_iff, length_toBE]
      exact hk0
    have hn : ((n / 256 ^ k : ℕ) : ℤ) * 256 ^ k + (n % 256 ^ k : ℕ) = n := by
      exact_mod_cast Nat.div_add_mod' n (256 ^ k)
    rw [length_toBE, foldl_wrap _ _ hne, length_toBE, ofBE_toBE, hn] at hfold
    exact congrArg (fun v => (some v, k + 1)) hfold

theorem uvintUnpack_pack {k n : ℕ} (hk : k ≤ 4) (h : Packs k n) (hn : n < 2 ^ 31) (post : List UInt8) :
    uvintUnpack (pack k n ++ post) = (some (n : ℤ), k + 1) := by
  rw [uvintUnpack_pack_wrap (by omega) h, wrap32_eq_self (by omega) (by omega)]

/-- Below `2 ^ 31` both writers choose the same size, and both readers read it back. -/
theorem uvintPack_agrees (n : ℕ) (hn : n < 2 ^ 31) (suffix : List UInt8) :
    uvintPack n = some (writeUnsignedVInt (BitVec.ofNat 64 n)) ∧
      uvintUnpack (writeUnsignedVInt (BitVec.ofNat 64 n) ++ suffix) =
        (some (n : ℤ), (writeUnsignedVInt (BitVec.ofNat 64 n)).length) ∧
      ∀ pre : List UInt8,
        readUnsignedVInt (pre ++ writeUnsignedVInt (BitVec.ofNat 64 n) ++ suffix) pre.length =
          (BitVec.ofNat 64 n, pre.length + (writeUnsignedVInt (BitVec.ofNat 64 n)).length) := by
  have hpacks : Packs (extraBytes n) n := packs_extraBytes (hn.trans (by norm_num))
  have hwrite : writeUnsignedVInt (BitVec.ofNat 64 n) = pack (extraBytes n) n := by
    rw [writeUnsignedVInt_pack, BitVec.toNat_ofNat, Nat.mod_eq_of_lt (hn.trans (by norm_num))]
  rw [hwrite, length_pack]
  refine ⟨uvintPack_pack hn, ?_, fun pre => ?_⟩
  · exact uvintUnpack_pack (extraBytes_le hn) hpacks hn suffix
  · exact readUnsignedVInt_pack hpacks pre suffix

theorem uvintPack_agrees_300 :
    uvintUnpack (writeUnsignedVInt 300 ++ [7]) = (some 300, (writeUnsignedVInt 300).length) :=
  (uvintPack_agrees 300 (by decide) [7]).2.1

/-- Of a size of nine bytes the last one is not read. -/
theorem uvintUnpack_pack_eight {n : ℕ} (h : Packs 8 n) (post : List UInt8) :
    uvintUnpack (pack 8 n ++ post) = (some (wrap 32 (n / 256 : ℕ)), 8) := by
  have hzero : n / 256 ^ 8 = 0 := by simpa using h.2
  have hbytes : pack 8 n ++ post = 255 :: (toBE 7 (n / 256) ++ UInt8.ofNat n :: post) := by
    rw [pack, hzero, toBE]
    simp
  have hfold := foldl_range'_getD (fun (rv : ℤ) b => wrap 32 (rv * 256) + b.toNat)
    [255] (toBE 7 (n / 256)) (UInt8.ofNat n :: post) 1
  rw [length_toBE, foldl_wrap _ _ (by simp [toBE]), length_toBE, ofBE_toBE] at hfold
  have hmod : n / 256 % 256 ^ 7 = n / 256 := by
    apply Nat.mod_eq_of_lt
    omega
  have hpow : wrap 32 (1 * 256 ^ 7 + (n / 256 : ℕ)) = wrap 32 (n / 256 : ℕ) := by
    rw [add_comm, wrap, wrap, show (1 : ℤ) * 256 ^ 7 = (2 ^ 32 : ℕ) * 16777216 by norm_num,
      Int.add_mul_bmod_self_left]
  rw [hmod, hpow] at hfold
  rw [hbytes, uvintUnpack, if_neg (by decide)]
  exact congrArg (fun v => (some v, 8)) hfold

/-! ### Any bytes -/

/-- Each byte starts a vint of one to nine bytes. -/
theorem exists_firstByte (f : UInt8) : ∃ k < 9, ∃ b < 128, b < 2 ^ (7 - k) ∧ f = UInt8.ofNat (256 - 2 ^ (8 - k) + b) := by
  have hlt := f.toNat_lt
  -- the bytes that start with `k` one bits are those from `256 - 2 ^ (8 - k)` on
  have hbyte (k : ℕ) (hk : k < 9) (hge : 256 - 2 ^ (8 - k) ≤ f.toNat)
      (hrest : f.toNat - (256 - 2 ^ (8 - k)) < 2 ^ (7 - k)) :
      ∃ k < 9, ∃ b < 128, b < 2 ^ (7 - k) ∧ f = UInt8.ofNat (256 - 2 ^ (8 - k) + b) := by
    have hpow : 2 ^ (7 - k) ≤ 2 ^ 7 := Nat.pow_le_pow_right two_pos (by omega)
    exact ⟨k, hk, _, hrest.trans_le hpow, hrest, by rw [Nat.add_sub_cancel' hge, UInt8.ofNat_toNat]⟩
  rcases (by omega : f.toNat < 128 ∨ (128 ≤ f.toNat ∧ f.toNat < 192) ∨ (192 ≤ f.toNat ∧ f.toNat < 224) ∨
      (224 ≤ f.toNat ∧ f.toNat < 240) ∨ (240 ≤ f.toNat ∧ f.toNat < 248) ∨ (248 ≤ f.toNat ∧ f.toNat < 252) ∨
      (252 ≤ f.toNat ∧ f.toNat < 254) ∨ f.toNat = 254 ∨ f.toNat = 255) with
    h | h | h | h | h | h | h | h | h
  · exact hbyte 0 (by norm_num) (by omega) (by omega)
  · exact hbyte 1 (by norm_num) (by omega) (by omega)
  · exact hbyte 2 (by norm_num) (by omega) (by omega)
  · exact hbyte 3 (by norm_num) (by omega) (by omega)
  · exact hbyte 4 (by norm_num) (by omega) (by omega)
  · exact hbyte 5 (by norm_num) (by omega) (by omega)
  · exact hbyte 6 (by norm_num) (by omega) (by omega)
  · exact hbyte 7 (by norm_num) (by omega) (by omega)
  · exact hbyte 8 (by norm_num) (by omega) (by omega)

theorem snd_readUnsignedVInt {k b : ℕ} {f : UInt8} (hk : k < 9) (hb : b < 128) (hpow : b < 2 ^ (7 - k))
    (hf : f = UInt8.ofNat (256 - 2 ^ (8 - k) + b)) (fs : List UInt8) : (readUnsignedVInt (f :: fs) 0).2 = k + 1 := by
  obtain ⟨hmark, -, hbig⟩ := firstByte_spec k hk b hb hpow
  rw [← hf] at hmark hbig
  simp only [readUnsignedVInt, List.getD_cons_zero]
  by_cases hk0 : k = 0
  · rw [if_pos (hmark.2 hk0), hk0]
  · rw [if_neg (fun hz => hk0 (hmark.1 hz)), (hbig hk0).1]
    omega

/-- The bytes of a vint behind its first byte may be any. -/
theorem exists_pack {k b : ℕ} {f : UInt8} {fs : List UInt8} (hk : k < 9) (hb : b < 2 ^ (7 - k))
    (hf : f = UInt8.ofNat (256 - 2 ^ (8 - k) + b)) (hlen : k ≤ fs.length) :
    ∃ n, Packs k n ∧ f :: fs = pack k n ++ fs.drop k := by
  have hlt := ofBE_lt (fs.take k)
  have htake : (fs.take k).length = k := List.length_take_of_le hlen
  rw [htake] at hlt
  have hdiv : (b * 256 ^ k + ofBE (fs.take k)) / 256 ^ k = b := by
    rw [Nat.mul_comm, Nat.mul_add_div (by positivity), Nat.div_eq_of_lt hlt, Nat.add_zero]
  have hmod : toBE k (b * 256 ^ k + ofBE (fs.take k)) = fs.take k := by
    have hofBE : ofBE (toBE k (b * 256 ^ k + ofBE (fs.take k))) = ofBE (fs.take k) := by
      rw [ofBE_toBE, Nat.mul_add_mod', Nat.mod_eq_of_lt hlt]
    rw [← toBE_ofBE (toBE k _), hofBE, length_toBE]
    conv_rhs => rw [← toBE_ofBE (fs.take k), htake]
  refine ⟨b * 256 ^ k + ofBE (fs.take k), ⟨by omega, by rwa [hdiv]⟩, ?_⟩
  rw [pack, hdiv, hmod, hf, List.cons_append, List.take_append_drop]

end CqlDriver.VInt
