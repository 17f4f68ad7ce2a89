import CqlDriver.Lib.MachineInt

/-! # Byte strings

Big-endian encodings of natural numbers and of two's complement integers in a fixed number of
bytes, and writing into a buffer at an offset.  `ofBE_toBE`, `toBE_ofBE` and `readInt_writeInt` are
the round trips; `write_append` describes a buffer that is filled from the left. -/

namespace Bytes

open MachineInt

/-- The last `w` base-256 digits of `n`, most significant first. -/
def toBE : ℕ → ℕ → List UInt8
  | 0, _ => []
  | w + 1, n => toBE w (n / 256) ++ [UInt8.ofNat n]

/-- The number with the given base-256 digits. -/
def ofBE (bs : List UInt8) : ℕ := bs.foldl (fun acc b => acc * 256 + b.toNat) 0

@[simp] theorem length_toBE (w n : ℕ) : (toBE w n).length = w := by
  induction w generalizing n with
  | zero => rfl
  | succ w ih => simp [toBE, ih]

@[simp] theorem ofBE_nil : ofBE [] = 0 := rfl

@[simp] theorem ofBE_append_singleton (bs : List UInt8) (b : UInt8) :
    ofBE (bs ++ [b]) = ofBE bs * 256 + b.toNat := by
  simp [ofBE]

theorem ofBE_lt (bs : List UInt8) : ofBE bs < 256 ^ bs.length := by
  induction bs using List.reverseRecOn with
  | nil => simp
  | append_singleton bs b ih =>
      have hb := b.toNat_lt
      rw [ofBE_append_singleton, List.length_append, List.length_singleton, pow_succ]
      omega

theorem ofBE_toBE (w n : ℕ) : ofBE (toBE w n) = n % 256 ^ w := by
  induction w generalizing n with
  | zero => simp [toBE, Nat.mod_one]
  | succ w ih =>
      rw [toBE, ofBE_append_singleton, ih, pow_succ, Nat.mul_comm (256 ^ w), Nat.mod_mul,
        UInt8.toNat_ofNat']
      omega

theorem ofBE_toBE_of_lt {w n : ℕ} (h : n < 256 ^ w) : ofBE (toBE w n) = n := by
  rw [ofBE_toBE, Nat.mod_eq_of_lt h]

theorem toBE_ofBE (bs : List UInt8) : toBE bs.length (ofBE bs) = bs := by
  induction bs using List.reverseRecOn with
  | nil => rfl
  | append_singleton bs b ih =>
      have hb := b.toNat_lt
      have hdiv : (ofBE bs * 256 + b.toNat) / 256 = ofBE bs := by omega
      have hlast : UInt8.ofNat (ofBE bs * 256 + b.toNat) = b := by
        apply UInt8.toNat_inj.1
        rw [UInt8.toNat_ofNat']
        omega
      rw [List.length_append, List.length_singleton, ofBE_append_singleton, toBE, hdiv, ih, hlast]

/-- The most significant digit first. -/
theorem toBE_succ (w n : ℕ) : toBE (w + 1) n = UInt8.ofNat (n / 256 ^ w) :: toBE w n := by
  induction w generalizing n with
  | zero => simp [toBE]
  | succ w ih =>
      rw [toBE, ih, toBE, List.cons_append, Nat.div_div_eq_div_mul, Nat.mul_comm 256, ← pow_succ]

theorem toBE_add (v w n : ℕ) : toBE (v + w) n = toBE v (n / 256 ^ w) ++ toBE w n := by
  induction w generalizing n with
  | zero => simp [toBE]
  | succ w ih =>
      rw [← add_assoc, toBE, ih, toBE, List.append_assoc, Nat.div_div_eq_div_mul, Nat.mul_comm 256, ← pow_succ]

/-- Only the last digits count. -/
theorem toBE_mod (w n : ℕ) : toBE w (n % 256 ^ w) = toBE w n := by
  rw [← ofBE_toBE]
  have h := toBE_ofBE (toBE w n)
  rwa [length_toBE] at h

/-- Reading digits behind a number. -/
theorem foldl_toBE (w n acc : ℕ) :
    (toBE w n).foldl (fun acc b => acc * 256 + b.toNat) acc = acc * 256 ^ w + n % 256 ^ w := by
  induction w generalizing n with
  | zero => simp [toBE, Nat.mod_one]
  | succ w ih =>
      have hmod : n % 256 ^ (w + 1) = n % 256 + 256 * (n / 256 % 256 ^ w) := by
        rw [pow_succ, Nat.mul_comm, Nat.mod_mul]
      have hbyte : (UInt8.ofNat n).toNat = n % 256 := UInt8.toNat_ofNat'
      rw [toBE, List.foldl_append, ih, List.foldl_cons, List.foldl_nil, hmod, hbyte, pow_succ]
      ring

/-! ### Two's complement -/

/-- The `w` bytes of an integer in two's complement. -/
def writeInt (w : ℕ) (x : ℤ) : List UInt8 := toBE w (x % 256 ^ w).toNat

/-- The integer whose two's complement is given. -/
def readInt (bs : List UInt8) : ℤ := wrap (8 * bs.length) (ofBE bs)

@[simp] theorem length_writeInt (w : ℕ) (x : ℤ) : (writeInt w x).length = w := length_toBE w _

theorem readInt_writeInt {w : ℕ} {x : ℤ} (hw : 0 < w) (h : Fits (8 * w) x) : readInt (writeInt w x) = x := by
  have hpos : (0 : ℤ) < 256 ^ w := by positivity
  have hlt : (x % 256 ^ w).toNat < 256 ^ w := by
    have := Int.emod_lt_of_pos x hpos
    have := Int.emod_nonneg x hpos.ne'
    zify
    omega
  rw [readInt, length_writeInt, writeInt, ofBE_toBE_of_lt hlt,
    Int.toNat_of_nonneg (Int.emod_nonneg x hpos.ne')]
  have hpow : (256 : ℤ) ^ w = ((2 ^ (8 * w) : ℕ) : ℤ) := by
    push_cast
    rw [pow_mul]
    norm_num
  rw [wrap, hpow, Int.emod_bmod]
  exact wrap_eq_self (by omega) h

theorem ofBE_append (bs cs : List UInt8) : ofBE (bs ++ cs) = ofBE bs * 256 ^ cs.length + ofBE cs := by
  induction cs using List.reverseRecOn with
  | nil => simp
  | append_singleton cs c ih =>
      rw [← List.append_assoc, ofBE_append_singleton, ofBE_append_singleton, ih, List.length_append,
        List.length_singleton, pow_succ]
      ring

theorem ofBE_cons (b : UInt8) (bs : List UInt8) : ofBE (b :: bs) = b.toNat * 256 ^ bs.length + ofBE bs := by
  rw [← List.singleton_append, ofBE_append]
  simp [ofBE]

/-- The first byte carries the sign. -/
theorem readInt_cons (b : UInt8) (bs : List UInt8) :
    readInt (b :: bs) = ofBE (b :: bs) - if 128 ≤ b.toNat then (256 : ℤ) ^ (bs.length + 1) else 0 := by
  have hb := b.toNat_lt
  have hlt := ofBE_lt bs
  have hpow : (2 : ℕ) ^ (8 * (bs.length + 1)) = 256 * 256 ^ bs.length := by
    rw [pow_mul, show (2 : ℕ) ^ 8 = 256 from rfl, pow_succ, Nat.mul_comm]
  have hpowz : (256 : ℤ) ^ (bs.length + 1) = 256 * (256 ^ bs.length : ℕ) := by
    push_cast
    ring
  rw [readInt, wrap, List.length_cons, hpow, hpowz, ofBE_cons, Int.bmod_eq_iff (by positivity)]
  generalize 256 ^ bs.length = P at *
  have h255 : b.toNat * P ≤ 255 * P := Nat.mul_le_mul_right P (by omega)
  split_ifs with h
  · have h128 : 128 * P ≤ b.toNat * P := Nat.mul_le_mul_right P h
    generalize b.toNat * P = X at *
    exact ⟨by omega, by omega, -1, by push_cast; ring⟩
  · have h127 : b.toNat * P ≤ 127 * P := Nat.mul_le_mul_right P (by omega)
    generalize b.toNat * P = X at *
    exact ⟨by omega, by omega, 0, by ring⟩

/-- The bytes behind a signed number. -/
theorem readInt_append {bs : List UInt8} (h : bs ≠ []) (cs : List UInt8) :
    readInt (bs ++ cs) = readInt bs * 256 ^ cs.length + ofBE cs := by
  obtain ⟨b, bs, rfl⟩ := List.exists_cons_of_ne_nil h
  rw [List.cons_append, readInt_cons, readInt_cons, ← List.cons_append, ofBE_append, List.length_append]
  push_cast
  split_ifs
  · ring
  · ring

/-- The one's complement of the bytes. -/
theorem ofBE_map_not (bs : List UInt8) : ofBE (bs.map (~~~·)) + ofBE bs + 1 = 256 ^ bs.length := by
  induction bs with
  | nil => rfl
  | cons b bs ih =>
      have hb := b.toNat_lt
      have hnot : (~~~b).toNat = 255 - b.toNat := by
        rw [UInt8.toNat_not]
        rfl
      rw [List.map_cons, ofBE_cons, ofBE_cons, List.length_map, List.length_cons, hnot, pow_succ]
      have hmul : (255 - b.toNat) * 256 ^ bs.length + b.toNat * 256 ^ bs.length = 255 * 256 ^ bs.length := by
        rw [← Nat.add_mul, Nat.sub_add_cancel (by omega)]
      omega

/-! ### Shortest encodings -/

theorem fits_readInt {bs : List UInt8} (h : bs ≠ []) : Fits (8 * bs.length) (readInt bs) := by
  have hpos := List.length_pos_of_ne_nil h
  obtain ⟨k, hk⟩ : ∃ k, 8 * bs.length = k + 1 := ⟨8 * bs.length - 1, by omega⟩
  have h₁ := Int.le_bmod (x := ofBE bs) (m := 2 ^ (k + 1)) (by positivity)
  have h₂ := Int.bmod_lt (x := ofBE bs) (m := 2 ^ (k + 1)) (by positivity)
  have hpow : ((2 ^ (k + 1) : ℕ) : ℤ) = 2 * 2 ^ k := by push_cast; ring
  rw [hpow] at h₁ h₂
  rw [Fits, readInt, wrap, hk, Nat.add_sub_cancel]
  exact ⟨by omega, by omega⟩

theorem readInt_inj {bs cs : List UInt8} (hlen : bs.length = cs.length) (h : readInt bs = readInt cs) :
    bs = cs := by
  have hb := ofBE_lt bs
  have hc := ofBE_lt cs
  have hpow : (2 : ℕ) ^ (8 * cs.length) = 256 ^ cs.length := by rw [pow_mul]; norm_num
  rw [readInt, readInt, wrap, wrap, hlen, hpow] at h
  rw [hlen] at hb
  have hmod := congrArg (· % ((256 ^ cs.length : ℕ) : ℤ)) h
  simp only [Int.bmod_emod] at hmod
  norm_cast at hmod
  rw [Nat.mod_eq_of_lt hb, Nat.mod_eq_of_lt hc] at hmod
  rw [← toBE_ofBE bs, ← toBE_ofBE cs, hmod, hlen]

/-- The first byte is not a repetition of the sign of the second. -/
def Trimmed : List UInt8 → Prop
  | b :: c :: _ => ¬ (b.toNat = 0 ∧ c.toNat < 128) ∧ ¬ (b.toNat = 255 ∧ 128 ≤ c.toNat)
  | _ => True

theorem Trimmed.not_fits {b c : UInt8} {bs : List UInt8} (h : Trimmed (b :: c :: bs)) :
    ¬ Fits (8 * (bs.length + 1)) (readInt (b :: c :: bs)) := by
  obtain ⟨hzero, hones⟩ := h
  have hb := b.toNat_lt
  have hc := c.toNat_lt
  have hr := ofBE_lt bs
  have hpow : (2 : ℤ) ^ (8 * (bs.length + 1) - 1) = 128 * (256 ^ bs.length : ℕ) := by
    rw [show 8 * (bs.length + 1) - 1 = 7 + 8 * bs.length by omega, pow_add, pow_mul]
    norm_num
  have hbig : (256 : ℤ) ^ (bs.length + 1 + 1) = 65536 * (256 ^ bs.length : ℕ) := by
    push_cast
    ring
  rw [Fits, hpow, readInt_cons, ofBE_cons, ofBE_cons, List.length_cons, hbig, pow_succ]
  push_cast
  rw [← Nat.cast_ofNat (n := 256), ← Nat.cast_pow]
  generalize 256 ^ bs.length = P at *
  intro ⟨hlow, hhigh⟩
  split_ifs at hlow hhigh with hsign
  · by_cases h255 : b.toNat = 255
    · rw [h255] at hlow hhigh
      have := Nat.mul_le_mul_right P (show c.toNat ≤ 127 by omega)
      push_cast at *
      nlinarith
    · have hb' := Nat.mul_le_mul_right P (show b.toNat ≤ 254 by omega)
      have hc' := Nat.mul_le_mul_right P (show c.toNat ≤ 255 by omega)
      push_cast at *
      nlinarith
  · by_cases h0 : b.toNat = 0
    · rw [h0] at hlow hhigh
      have := Nat.mul_le_mul_right P (show 128 ≤ c.toNat by omega)
      push_cast at *
      nlinarith
    · have hb' := Nat.mul_le_mul_right P (show 1 ≤ b.toNat by omega)
      push_cast at *
      nlinarith

/-- No encoding of the same integer is shorter than a trimmed one. -/
theorem Trimmed.length_le {bs cs : List UInt8} (h : Trimmed bs) (hcs : cs ≠ [])
    (heq : readInt cs = readInt bs) : bs.length ≤ cs.length := by
  have hpos := List.length_pos_of_ne_nil hcs
  cases bs with
  | nil => exact Nat.zero_le _
  | cons b bs =>
      cases bs with
      | nil => exact hpos
      | cons c bs =>
          by_contra hlt
          rw [List.length_cons, List.length_cons] at hlt
          have hfits := fits_readInt hcs
          rw [heq] at hfits
          exact h.not_fits (hfits.mono (by omega) (by omega))

theorem Trimmed.unique {bs cs : List UInt8} (hb : Trimmed bs) (hc : Trimmed cs) (hbs : bs ≠ []) (hcs : cs ≠ [])
    (h : readInt bs = readInt cs) : bs = cs :=
  readInt_inj (le_antisymm (hb.length_le hcs h.symm) (hc.length_le hbs h)) h

/-! ### Writing into a buffer -/

/-- The bytes `bs` written at an offset. -/
def write (buf : List UInt8) (offset : ℕ) (bs : List UInt8) : List UInt8 :=
  buf.take offset ++ bs ++ buf.drop (offset + bs.length)

/-- Behind the bytes already written, the next ones replace the start of the rest. -/
theorem write_append (done rest bs : List UInt8) :
    write (done ++ rest) done.length bs = done ++ bs ++ rest.drop bs.length := by
  simp [write, List.drop_append]

/-! ### Filling a buffer from its start -/

/-- A buffer after some bytes were written from its start on; those behind its end are lost. -/
def overlay (buf done : List UInt8) : List UInt8 := done.take buf.length ++ buf.drop done.length

@[simp] theorem overlay_nil (buf : List UInt8) : overlay buf [] = buf := by simp [overlay]

@[simp] theorem length_overlay (buf done : List UInt8) : (overlay buf done).length = buf.length := by
  rw [overlay, List.length_append, List.length_take, List.length_drop]
  omega

/-- A buffer that is written over shows nothing of its old contents. -/
theorem overlay_of_le {buf done : List UInt8} (h : buf.length ≤ done.length) :
    overlay buf done = done.take buf.length := by
  rw [overlay, List.drop_eq_nil_of_le h, List.append_nil]

theorem overlay_of_ge {buf done : List UInt8} (h : done.length ≤ buf.length) :
    overlay buf done = done ++ buf.drop done.length := by
  rw [overlay, List.take_of_length_le h]

/-- The start of a buffer that was filled. -/
theorem take_overlay {buf : List UInt8} (done : List UInt8) {n : ℕ} (h : n ≤ buf.length) :
    (overlay buf done).take n = done.take n ++ (buf.take n).drop done.length := by
  rw [overlay, List.take_append, List.take_take, List.length_take, min_eq_left h, List.drop_take]
  congr 2
  omega

theorem write_overlay {buf done bs : List UInt8} (h : done.length + bs.length ≤ buf.length) :
    write (overlay buf done) done.length bs = overlay buf (done ++ bs) := by
  rw [overlay_of_ge (by omega), overlay_of_ge (by rw [List.length_append]; omega), write_append,
    List.drop_drop, List.length_append]

/-- One byte, which is ignored behind the end. -/
theorem set_overlay (buf done : List UInt8) (b : UInt8) :
    (overlay buf done).set done.length b = overlay buf (done ++ [b]) := by
  by_cases h : done.length < buf.length
  · rw [overlay_of_ge h.le, overlay_of_ge (by rw [List.length_append]; exact h),
      List.set_append_right _ _ le_rfl, Nat.sub_self, List.length_append, List.length_singleton,
      List.drop_eq_getElem_cons h, List.set_cons_zero, List.append_assoc, List.singleton_append]
  · have hle : buf.length ≤ done.length := not_lt.1 h
    rw [overlay_of_le hle, overlay_of_le (by rw [List.length_append]; omega),
      List.take_append_of_le_length hle, List.set_eq_of_length_le]
    rw [List.length_take]
    omega

/-! ### Reading from a buffer -/

/-- An index of `slice`: a negative one counts from the end. -/
def sliceIndex (length : ℕ) (i : ℤ) : ℕ := if i < 0 then (length + i).toNat else min i.toNat length

/-- `buf.slice(start, stop)` -/
def slice (buf : List UInt8) (start stop : ℤ) : List UInt8 :=
  (buf.take (sliceIndex buf.length stop)).drop (sliceIndex buf.length start)

/-- The `w` bytes at an offset, if they are all inside the buffer. -/
def bytesAt (w : ℕ) (buf : List UInt8) (offset : ℤ) : Option (List UInt8) :=
  if 0 ≤ offset ∧ offset + w ≤ buf.length then some ((buf.drop offset.toNat).take w) else none

theorem slice_append (pre bs post : List UInt8) :
    slice (pre ++ bs ++ post) pre.length (pre.length + bs.length) = bs := by
  have hstart : sliceIndex (pre ++ bs ++ post).length pre.length = pre.length := by
    rw [sliceIndex, if_neg (by omega)]
    simp
  have hstop : sliceIndex (pre ++ bs ++ post).length (pre.length + bs.length) = (pre ++ bs).length := by
    rw [sliceIndex, if_neg (by omega)]
    simp
    omega
  rw [slice, hstart, hstop, List.take_left, List.drop_left]

theorem bytesAt_append (pre bs post : List UInt8) :
    bytesAt bs.length (pre ++ bs ++ post) pre.length = some bs := by
  rw [bytesAt, if_pos]
  · simp
  · simp

end Bytes
