import CqlDriver.Integer

/-! # The two varint codecs

`lib/encoder.js` writes a `varint` either from an `Integer`, word by word (`Integer.toBuffer`), or from a
`bigint`, byte by byte.  Both writers produce the shortest two's complement bytes of the number, and both
readers denote the two's complement number of any bytes; `Trimmed.unique` of the byte library then makes
the written bytes equal. -/

namespace CqlDriver.Encoder

open Bytes MachineInt

/-- The loops of `_encodeVarintFromBigInt`, which run until `value` is `stop`; `fuel` bounds the passes. -/
def bigIntParts (stop : ℤ) : ℕ → ℤ → List UInt8 → List UInt8
  | 0, _, parts => parts
  | fuel + 1, value, parts =>
      if value = stop then parts
      else bigIntParts stop fuel (value / 256) (UInt8.ofNat (value % 256).toNat :: parts)

/-- `_encodeVarintFromBigInt` -/
def encodeVarintFromBigInt (value : ℤ) : List UInt8 :=
  if value = 0 then [0]
  else if value = -1 then [255]
  else if value > 0 then
    let parts := bigIntParts 0 value.natAbs value []
    if (parts.headD 0).toNat > 0x7f then 0 :: parts else parts
  else
    let parts := bigIntParts (-1) value.natAbs value []
    if (parts.headD 0).toNat ≤ 0x7f then 255 :: parts else parts

/-- `result | (f(b) << 8 * i)` over the bytes from the last one on. -/
def orBytes (f : UInt8 → UInt8) (bytes : List UInt8) : ℕ :=
  (List.range bytes.length).foldl
    (fun result i => result ||| (f (bytes.getD (bytes.length - 1 - i) 0)).toNat <<< (i * 8)) 0

/-- `_decodeVarintAsBigInt` -/
def decodeVarintAsBigInt (bytes : List UInt8) : ℤ :=
  if (bytes.headD 0).toNat ≤ 0x7f then orBytes id bytes else -1 - orBytes (~~~·) bytes

/-! ### Reading -/

theorem orBytes_loop (f : UInt8 → UInt8) (bytes : List UInt8) : ∀ k ≤ bytes.length,
    (List.range k).foldl
      (fun result i => result ||| (f (bytes.getD (bytes.length - 1 - i) 0)).toNat <<< (i * 8)) 0 =
      ofBE ((bytes.drop (bytes.length - k)).map f)
  | 0, _ => by simp
  | k + 1, hk => by
      have hlt : bytes.length - 1 - k < bytes.length := by omega
      have hdrop : bytes.drop (bytes.length - (k + 1)) =
          bytes[bytes.length - 1 - k] :: bytes.drop (bytes.length - k) := by
        rw [show bytes.length - (k + 1) = bytes.length - 1 - k by omega, List.drop_eq_getElem_cons hlt,
          show bytes.length - 1 - k + 1 = bytes.length - k by omega]
      have hlen : ((bytes.drop (bytes.length - k)).map f).length = k := by
        simp only [List.length_map, List.length_drop]
        omega
      have hbound := ofBE_lt ((bytes.drop (bytes.length - k)).map f)
      have hpow : (256 : ℕ) ^ k = 2 ^ (k * 8) := by rw [Nat.mul_comm, pow_mul]; norm_num
      have hget : bytes.getD (bytes.length - 1 - k) 0 = bytes[bytes.length - 1 - k] := by
        simp [List.getD_eq_getElem?_getD, hlt]
      rw [hlen, hpow] at hbound
      rw [List.range_succ, List.foldl_append, orBytes_loop f bytes k (by omega), List.foldl_cons, List.foldl_nil,
        hdrop, List.map_cons, ofBE_cons, hlen, hget, Nat.or_comm,
        ← Nat.shiftLeft_add_eq_or_of_lt hbound, Nat.shiftLeft_eq, hpow]

theorem orBytes_eq (f : UInt8 → UInt8) (bytes : List UInt8) : orBytes f bytes = ofBE (bytes.map f) := by
  have h := orBytes_loop f bytes bytes.length le_rfl
  rwa [Nat.sub_self, List.drop_zero] at h

theorem decodeVarintAsBigInt_eq {bytes : List UInt8} (h : bytes ≠ []) :
    decodeVarintAsBigInt bytes = readInt bytes := by
  obtain ⟨b, bs, rfl⟩ := List.exists_cons_of_ne_nil h
  rw [decodeVarintAsBigInt, orBytes_eq, orBytes_eq, List.map_id, readInt_cons, List.headD_cons]
  by_cases hb : b.toNat ≤ 0x7f
  · rw [if_pos hb, if_neg (by omega), sub_zero]
  · have hnot := ofBE_map_not (b :: bs)
    rw [List.length_cons] at hnot
    rw [if_neg hb, if_pos (by omega)]
    zify at hnot
    omega

/-! ### Writing -/

theorem bigIntParts_stop (stop : ℤ) (fuel : ℕ) (parts : List UInt8) :
    bigIntParts stop fuel stop parts = parts := by
  cases fuel with
  | zero => rfl
  | succ fuel => rw [bigIntParts, if_pos rfl]

/-- The loop puts the bytes of `value` above `stop` in front, and the first of them is no sign byte. -/
theorem bigIntParts_spec {stop : ℤ} (hstop : stop = 0 ∨ stop = -1) : ∀ (fuel : ℕ) (value : ℤ)
    (parts : List UInt8), value.natAbs ≤ fuel → (stop = 0 → 0 ≤ value) → (stop = -1 → value ≤ -1) →
    ∃ bs, bigIntParts stop fuel value parts = bs ++ parts ∧
      stop * 256 ^ bs.length + ofBE bs = value ∧
      (value ≠ stop → ∃ b cs, bs = b :: cs ∧ stop * 256 + b.toNat ≠ stop)
  | 0, value, parts, hfuel, hpos, hneg => by
      refine ⟨[], rfl, ?_, ?_⟩
      · rcases hstop with rfl | rfl
        · simp; omega
        · have := hneg rfl
          omega
      · intro hne
        rcases hstop with rfl | rfl
        · omega
        · have := hneg rfl
          omega
  | fuel + 1, value, parts, hfuel, hpos, hneg => by
      rw [bigIntParts]
      split_ifs with hv
      · exact ⟨[], rfl, by simp [hv], fun hne => absurd hv hne⟩
      · have hbyte : (UInt8.ofNat (value % 256).toNat).toNat = value % 256 := by
          rw [UInt8.toNat_ofNat']
          omega
        have hsmaller : (value / 256).natAbs ≤ fuel := by
          rcases hstop with rfl | rfl
          · have := hpos rfl
            omega
          · have := hneg rfl
            omega
        obtain ⟨bs, he, hval, hfirst⟩ := bigIntParts_spec hstop fuel (value / 256)
          (UInt8.ofNat (value % 256).toNat :: parts) hsmaller
          (fun h => by have := hpos h; omega) (fun h => by have := hneg h; omega)
        refine ⟨bs ++ [UInt8.ofNat (value % 256).toNat], by simp [he], ?_, ?_⟩
        · rw [ofBE_append_singleton, List.length_append, List.length_singleton, pow_succ]
          push_cast
          rw [hbyte]
          linear_combination 256 * hval + Int.mul_ediv_add_emod value 256
        · intro _
          by_cases hrest : value / 256 = stop
          · -- the last pass writes the first byte
            have hnil : bs = [] := by
              rw [hrest, bigIntParts_stop] at he
              exact List.append_left_eq_self.1 he.symm
            refine ⟨UInt8.ofNat (value % 256).toNat, [], by simp [hnil], ?_⟩
            rw [hbyte]
            omega
          · obtain ⟨b, cs, rfl, hb⟩ := hfirst hrest
            exact ⟨b, cs ++ _, rfl, hb⟩

theorem readInt_zero_cons (bs : List UInt8) : readInt (0 :: bs) = ofBE bs := by
  rw [readInt_cons, ofBE_cons]
  simp

theorem readInt_ones_cons (bs : List UInt8) : readInt (255 :: bs) = -256 ^ bs.length + ofBE bs := by
  rw [readInt_cons, ofBE_cons, if_pos (by decide), pow_succ]
  have : (255 : UInt8).toNat = 255 := rfl
  rw [this]
  push_cast
  ring

theorem trimmed_cons {b : UInt8} {bs : List UInt8} (h0 : b.toNat ≠ 0) (h255 : b.toNat ≠ 255) :
    Trimmed (b :: bs) := by
  cases bs with
  | nil => trivial
  | cons c bs => exact ⟨fun h => h0 h.1, fun h => h255 h.1⟩

/-- `_encodeVarintFromBigInt` writes the two's complement of the value, without superfluous bytes. -/
theorem encodeVarintFromBigInt_spec (n : ℤ) :
    encodeVarintFromBigInt n ≠ [] ∧ readInt (encodeVarintFromBigInt n) = n ∧
      Trimmed (encodeVarintFromBigInt n) := by
  unfold encodeVarintFromBigInt
  split_ifs with h0 h1 hpos
  · subst h0
    exact ⟨by simp, by decide, trivial⟩
  · subst h1
    exact ⟨by simp, by decide, trivial⟩
  · obtain ⟨bs, he, hval, hfirst⟩ := bigIntParts_spec (Or.inl rfl) n.natAbs n [] le_rfl (by omega) (by omega)
    obtain ⟨b, cs, rfl, hb⟩ := hfirst h0
    simp only [he, List.append_nil, List.headD_cons]
    by_cases hpad : b.toNat > 0x7f
    · rw [if_pos hpad]
      refine ⟨by simp, by rw [readInt_zero_cons]; omega, ?_⟩
      exact ⟨fun h => by omega, fun h => absurd h.1 (by decide)⟩
    · rw [if_neg hpad]
      refine ⟨by simp, ?_, trimmed_cons (by omega) (by omega)⟩
      rw [readInt_cons, if_neg (by omega)]
      omega
  · obtain ⟨bs, he, hval, hfirst⟩ := bigIntParts_spec (Or.inr rfl) n.natAbs n [] le_rfl (by omega) (by omega)
    obtain ⟨b, cs, rfl, hb⟩ := hfirst h1
    simp only [he, List.append_nil, List.headD_cons]
    by_cases hpad : b.toNat ≤ 0x7f
    · rw [if_pos hpad]
      refine ⟨by simp, by rw [readInt_ones_cons]; linarith, ?_⟩
      exact ⟨fun h => absurd h.1 (by decide), fun h => by omega⟩
    · rw [if_neg hpad]
      refine ⟨by simp, ?_, trimmed_cons (by omega) (by omega)⟩
      rw [readInt_cons, if_pos (by omega)]
      rw [List.length_cons] at hval
      linarith

/-- The padded bytes of a nonzero high word, inverted or not, start no byte too early. -/
theorem trimmed_high (u : BitVec 32) (hu : u.toNat ≠ 0) (negative : Bool) (rest : List UInt8) :
    Trimmed ((Integer.padHigh (Integer.highBytes u)).map (fun b => if negative then ~~~b else b) ++ rest) := by
  obtain ⟨k, hlt, hge, he⟩ := Integer.highBytes_eq u
  have hfirst : (UInt8.ofNat (u.toNat / 256 ^ k)).toNat = u.toNat / 256 ^ k := by
    rw [UInt8.toNat_ofNat', Nat.mod_eq_of_lt]
    rw [Nat.div_lt_iff_lt_mul (by positivity), Nat.mul_comm, ← pow_succ]
    exact hlt
  have hpos : 0 < u.toNat / 256 ^ k := Nat.div_pos (hge hu) (by positivity)
  have hnot (b : UInt8) : (~~~b).toNat = 255 - b.toNat := by
    rw [UInt8.toNat_not]
    rfl
  rw [he, toBE_succ, Integer.padHigh, List.headD_cons]
  set b := UInt8.ofNat (u.toNat / 256 ^ k)
  have hb := b.toNat_lt
  by_cases hsign : b >>> 7 ≠ 0
  · rw [if_pos hsign]
    rw [Integer.shiftRight_seven] at hsign
    cases negative with
    | false => exact ⟨fun h => absurd h.2 (by simpa using hsign), fun h => absurd h.1 (by decide)⟩
    | true =>
        refine ⟨fun h => absurd h.1 (by decide), fun h => ?_⟩
        have := h.2
        simp only [if_true, hnot] at this
        omega
  · rw [if_neg hsign]
    rw [Integer.shiftRight_seven] at hsign
    cases negative with
    | false => exact trimmed_cons (by simp; omega) (by simp; omega)
    | true => exact trimmed_cons (by simp only [if_true, hnot]; omega) (by simp only [if_true, hnot]; omega)

theorem trimmed_toBuffer (n : Integer) : Trimmed n.toBuffer := by
  obtain ⟨bits, negative, hc⟩ := n
  rcases List.eq_nil_or_concat' bits with rfl | ⟨ws, top, rfl⟩
  · cases negative with
    | false => trivial
    | true => trivial
  · have htop : (if negative then ~~~top else top).toNat ≠ 0 := by
      have hlt := top.isLt
      have hne : top ≠ signWord negative := by simpa using hc
      intro h0
      apply hne
      apply BitVec.eq_of_toNat_eq
      cases negative with
      | false => exact h0
      | true =>
          rw [if_pos rfl, BitVec.toNat_not] at h0
          rw [signWord, if_pos rfl, BitVec.toNat_allOnes]
          omega
    have := trimmed_high _ htop negative (ws.reverse.flatMap fun group => toBE 4 group.toNat)
    simpa [Integer.toBuffer] using this

/-! ### The two codecs -/

/-- `bytes` is the shortest big-endian two's complement encoding of `n`. -/
def ShortestEncoding (n : ℤ) (bytes : List UInt8) : Prop :=
  bytes ≠ [] ∧ readInt bytes = n ∧
    ∀ other : List UInt8, other ≠ [] → readInt other = n → bytes.length ≤ other.length ∧
      (other.length = bytes.length → other = bytes)

theorem shortestEncoding_encodeVarintFromBigInt (n : ℤ) : ShortestEncoding n (encodeVarintFromBigInt n) := by
  obtain ⟨hne, hval, htrim⟩ := encodeVarintFromBigInt_spec n
  refine ⟨hne, hval, fun other hother heq => ?_⟩
  have hsame : readInt other = readInt (encodeVarintFromBigInt n) := heq.trans hval.symm
  exact ⟨htrim.length_le hother hsame, fun hlen => readInt_inj hlen hsame⟩

theorem toBuffer_eq (a : Integer) : a.toBuffer = encodeVarintFromBigInt a.value := by
  obtain ⟨hne, hval, htrim⟩ := encodeVarintFromBigInt_spec a.value
  obtain ⟨hne', hval'⟩ := Integer.readInt_toBuffer a
  exact (trimmed_toBuffer a).unique htrim hne' hne (hval'.trans hval.symm)

/-- Every number has one `Integer`; its bytes and those written from the `bigint` are the same shortest
two's complement encoding; the two readers denote the same number on all bytes, and each reader inverts
each writer. -/
theorem varint_codecs_agree :
    (∀ n : ℤ, ∃ a : Integer, a.value = n ∧ (∀ b : Integer, b.value = n → b = a) ∧
      a.toBuffer = encodeVarintFromBigInt n ∧ ShortestEncoding n (encodeVarintFromBigInt n) ∧
      Integer.fromBuffer a.toBuffer = a ∧ Integer.fromBuffer (encodeVarintFromBigInt n) = a ∧
      decodeVarintAsBigInt a.toBuffer = n ∧ decodeVarintAsBigInt (encodeVarintFromBigInt n) = n) ∧
    ∀ bytes : List UInt8, bytes ≠ [] →
      (Integer.fromBuffer bytes).value = readInt bytes ∧ decodeVarintAsBigInt bytes = readInt bytes := by
  refine ⟨fun n => ?_, fun bytes h => ⟨Integer.value_fromBuffer h, decodeVarintAsBigInt_eq h⟩⟩
  obtain ⟨hne, hval, -⟩ := encodeVarintFromBigInt_spec n
  set a := Integer.fromBuffer (encodeVarintFromBigInt n) with ha
  have hvalue : a.value = n := (Integer.value_fromBuffer hne).trans hval
  have hbuffer : a.toBuffer = encodeVarintFromBigInt n := by rw [toBuffer_eq, hvalue]
  have hdecode : decodeVarintAsBigInt (encodeVarintFromBigInt n) = n :=
    (decodeVarintAsBigInt_eq hne).trans hval
  refine ⟨a, hvalue, fun b hb => Integer.eq_of_value_eq (hb.trans hvalue.symm), hbuffer,
    shortestEncoding_encodeVarintFromBigInt n, Integer.fromBuffer_toBuffer a, rfl, ?_, hdecode⟩
  rw [hbuffer, hdecode]

/-- A negative number whose low word is zero. -/
theorem varint_codecs_agree_neg_two_pow_32 :
    [255, 0, 0, 0, 0] ≠ ([] : List UInt8) ∧
      (Integer.fromBuffer [255, 0, 0, 0, 0]).value = -4294967296 ∧
      decodeVarintAsBigInt [255, 0, 0, 0, 0] = -4294967296 := by
  have hne : [255, 0, 0, 0, 0] ≠ ([] : List UInt8) := by decide
  have hread : readInt [255, 0, 0, 0, 0] = -4294967296 := by decide
  obtain ⟨h₁, h₂⟩ := varint_codecs_agree.2 [255, 0, 0, 0, 0] hne
  exact ⟨hne, h₁.trans hread, h₂.trans hread⟩

end CqlDriver.Encoder
