import CqlDriver.Encoder

/-! # What `encode` writes, `decode` reads back

`decode_encode_wellTyped` is the round trip for every type: by recursion on the type, from one lemma for each
native type and one for each loop over items.  A loop lemma takes the bytes `code v` of an item and
the value `back v` they decode to, and places the encoded items between arbitrary bytes `pre` and
`post`, so that the offset of the decoder is `pre.length` at every pass. -/

namespace CqlDriver

open Bytes MachineInt

/-! ### Native types -/

theorem Long.fromBuffer_toBuffer (n : BitVec 64) : Long.fromBuffer (Long.toBuffer n) = .ok n := by
  have hhigh := bytesAt_append [] (toBE 4 (VInt.getHighBits n).toNat) (toBE 4 (VInt.getLowBits n).toNat)
  have hlow := bytesAt_append (toBE 4 (VInt.getHighBits n).toNat) (toBE 4 (VInt.getLowBits n).toNat) []
  simp only [List.nil_append, List.append_nil, length_toBE, List.length_nil, Nat.cast_zero,
    Nat.cast_ofNat] at hhigh hlow
  have hint (x : BitVec 32) : BitVec.ofInt 32 (readInt (toBE 4 x.toNat)) = x := by
    have hlt : x.toNat < 256 ^ 4 := x.isLt
    rw [readInt, length_toBE, ofBE_toBE_of_lt hlt, wrap, ← BitVec.toInt_eq_toNat_bmod,
      BitVec.ofInt_toInt]
  have happend : VInt.getHighBits n ++ VInt.getLowBits n = n := by
    apply BitVec.eq_of_toNat_eq
    rw [BitVec.toNat_append, VInt.toNat_getHighBits, VInt.toNat_getLowBits,
      ← Nat.shiftLeft_add_eq_or_of_lt (Nat.mod_lt _ (by norm_num)), Nat.shiftLeft_eq]
    omega
  simp only [Long.fromBuffer, Long.toBuffer, hhigh, hlow, hint, happend]

@[simp] theorem Long.length_toBuffer (n : BitVec 64) : (Long.toBuffer n).length = 8 := by simp [Long.toBuffer]

theorem DateValue.fromBuffer_toBuffer (d : DateValue) : DateValue.fromBuffer d.toBuffer = .ok d := by
  obtain ⟨value, hfits⟩ := d
  have hrange : 0 ≤ value + center ∧ value + center < 4294967296 := by
    unfold Fits at hfits
    unfold center
    norm_num at hfits
    omega
  have htake : (toBE 4 (value + center).toNat).take 4 = toBE 4 (value + center).toNat :=
    List.take_of_length_le (by simp)
  have hlt : (value + center).toNat < 256 ^ 4 := by omega
  rw [fromBuffer, toBuffer]
  simp only [htake, length_toBE, dite_true, ofBE_toBE_of_lt hlt, Int.toNat_of_nonneg hrange.1,
    add_sub_cancel_right]

theorem LocalTime.fromBuffer_toBuffer (t : LocalTime) : LocalTime.fromBuffer t.toBuffer = .ok t := by
  obtain ⟨value, hvalid⟩ := t
  have hint : (BitVec.ofNat 64 value).toInt = value := by
    rw [BitVec.toInt_eq_toNat_bmod, BitVec.toNat_ofNat, Nat.mod_eq_of_lt (by omega),
      Int.bmod_eq_of_le (by omega) (by omega)]
  rw [fromBuffer, toBuffer, Long.fromBuffer_toBuffer]
  simp only [Except.bind, hint]
  rw [dif_pos (by omega)]
  simp

theorem Duration.fromBuffer_toBuffer (d : Duration) : Duration.fromBuffer d.toBuffer = d := by
  obtain ⟨months, days, nanoseconds, hm, hd⟩ := d
  have hwrap {x : ℤ} (h : Fits 32 x) : wrap 32 (BitVec.ofInt 64 x).toInt = x := by
    have h64 : Fits 64 x := by
      unfold Fits at h ⊢
      norm_num at h ⊢
      omega
    have hself := wrap_eq_self (w := 64) (by norm_num) h64
    rw [wrap] at hself
    rw [BitVec.toInt_ofInt, hself, wrap_eq_self (by norm_num) h]
  have h₁ := VInt.readVInt_writeVInt (BitVec.ofInt 64 months) []
    (VInt.writeVInt (BitVec.ofInt 64 days) ++ VInt.writeVInt nanoseconds)
  have h₂ := VInt.readVInt_writeVInt (BitVec.ofInt 64 days) (VInt.writeVInt (BitVec.ofInt 64 months))
    (VInt.writeVInt nanoseconds)
  have h₃ := VInt.readVInt_writeVInt nanoseconds
    (VInt.writeVInt (BitVec.ofInt 64 months) ++ VInt.writeVInt (BitVec.ofInt 64 days)) []
  simp only [List.nil_append, List.length_nil, Nat.zero_add, List.append_nil, List.length_append,
    ← List.append_assoc] at h₁ h₂ h₃
  simp only [fromBuffer, toBuffer, h₁, h₂, h₃, hwrap hm, hwrap hd]

/-- A vint takes one to nine bytes and is read back in front of any suffix, with the offset right behind
it; so the three vints of a duration give back its components, the minimum values included. -/
theorem Duration.readVInt_writeVInt_and_fromBuffer :
    (∀ n : BitVec 64, 1 ≤ (VInt.writeVInt n).length ∧ (VInt.writeVInt n).length ≤ 9 ∧
      ∀ pre suffix : List UInt8, VInt.readVInt (pre ++ VInt.writeVInt n ++ suffix) pre.length =
        (n, pre.length + (VInt.writeVInt n).length)) ∧
    ∀ d : Duration, Duration.fromBuffer d.toBuffer = d := by
  refine ⟨?_, Duration.fromBuffer_toBuffer⟩
  intro n
  obtain ⟨hpos, hle⟩ := VInt.length_writeVInt n
  exact ⟨hpos, hle, fun pre suffix => VInt.readVInt_writeVInt n pre suffix⟩

theorem Duration.toBuffer_ne_nil (d : Duration) : d.toBuffer ≠ [] := by
  obtain ⟨k, -, hk⟩ := VInt.writeUnsignedVInt_eq (VInt.encodeZigZag64 (BitVec.ofInt 64 d.months))
  rw [Duration.toBuffer, VInt.writeVInt, hk, VInt.pack]
  simp

namespace Encoder

/-- The values of a native type. -/
def WellTypedNative : NativeType → Value → Prop
  | .int, v => ∃ n, Fits 32 n ∧ v = .number n
  | .smallint, v => ∃ n, Fits 16 n ∧ v = .number n
  | .tinyint, v => ∃ n, Fits 8 n ∧ v = .number n
  | .bigint, v => ∃ n, v = .long n
  | .varint, v => ∃ n, v = .integer n
  | .boolean, v => ∃ b, v = .boolean b
  | .blob, v => ∃ bs, v = .buffer bs
  | .text, v => ∃ s, v = .string s
  | .uuid, v => ∃ u, v = .uuid u
  | .date, v => ∃ d, v = .localDate d
  | .time, v => ∃ t, v = .localTime t
  | .duration, v => ∃ d, v = .duration d
  | .inet, v => ∃ a, v = .inetAddress a

theorem writeIntBE_of_fits {w : ℕ} {n : ℤ} (h : Fits (8 * w) n) : writeIntBE w n = .ok (writeInt w n) :=
  if_pos h

theorem readIntBE_writeInt {w : ℕ} {n : ℤ} (hw : 0 < w) (h : Fits (8 * w) n) :
    readIntBE w (writeInt w n) = .ok (.number n) := by
  have hbytes := bytesAt_append [] (writeInt w n) []
  simp only [List.nil_append, List.append_nil, length_writeInt, List.length_nil, Nat.cast_zero] at hbytes
  simp only [readIntBE, hbytes, readInt_writeInt hw h]

/-- The bytes of a value of a native type. -/
theorem decodeNative_encodeNative (e : Encoder) {t : NativeType} {v : Value} (h : WellTypedNative t v) :
    ∃ bs, e.encode v (.native t) = .ok (.buffer bs) ∧ decodeNative t bs = .ok v ∧
      (bs = [] → zeroLengthTypesSupported (.native t) = true) := by
  have hne {w : ℕ} (n : ℤ) (hw : 0 < w) : writeInt w n ≠ [] := by
    rw [ne_eq, ← List.length_eq_zero_iff, length_writeInt]
    omega
  cases t with
  | int | smallint | tinyint =>
      obtain ⟨n, hn, rfl⟩ := h
      refine ⟨writeInt _ n, ?_, readIntBE_writeInt (by norm_num) hn, fun h0 => absurd h0 (hne n (by norm_num))⟩
      simp only [encode, encodeWith, encodeType, encodeNative]
      rw [writeIntBE, if_pos hn]
      rfl
  | bigint =>
      obtain ⟨n, rfl⟩ := h
      refine ⟨Long.toBuffer n, rfl, ?_, fun h0 => absurd h0 (by simp [Long.toBuffer, toBE])⟩
      rw [decodeNative, Long.fromBuffer_toBuffer]
      rfl
  | varint =>
      obtain ⟨n, rfl⟩ := h
      refine ⟨n.toBuffer, rfl, ?_, fun h0 => absurd h0 (Integer.readInt_toBuffer n).1⟩
      rw [decodeNative, Integer.fromBuffer_toBuffer]
  | boolean =>
      obtain ⟨b, rfl⟩ := h
      refine ⟨[if b then 1 else 0], rfl, ?_, fun h0 => absurd h0 (by simp)⟩
      cases b <;> rfl
  | blob =>
      obtain ⟨bs, rfl⟩ := h
      exact ⟨bs, rfl, rfl, fun _ => rfl⟩
  | text =>
      obtain ⟨s, rfl⟩ := h
      refine ⟨Utf8.encode s, rfl, ?_, fun _ => rfl⟩
      rw [decodeNative, Utf8.decode_encode]
  | uuid =>
      obtain ⟨⟨bs, hlen⟩, rfl⟩ := h
      refine ⟨bs, rfl, dif_pos hlen, fun h0 => ?_⟩
      rw [h0] at hlen
      exact absurd hlen (by norm_num)
  | date =>
      obtain ⟨d, rfl⟩ := h
      refine ⟨d.toBuffer, rfl, ?_, fun h0 => absurd h0 (by simp [DateValue.toBuffer, toBE])⟩
      rw [decodeNative, DateValue.fromBuffer_toBuffer]
      rfl
  | time =>
      obtain ⟨t, rfl⟩ := h
      refine ⟨t.toBuffer, rfl, ?_, fun h0 => absurd h0 (by simp [LocalTime.toBuffer, Long.toBuffer, toBE])⟩
      rw [decodeNative, LocalTime.fromBuffer_toBuffer]
      rfl
  | duration =>
      obtain ⟨d, rfl⟩ := h
      refine ⟨d.toBuffer, rfl, ?_, fun h0 => absurd h0 d.toBuffer_ne_nil⟩
      rw [decodeNative, Duration.fromBuffer_toBuffer]
  | inet =>
      obtain ⟨⟨bs, hlen⟩, rfl⟩ := h
      refine ⟨bs, rfl, ?_, fun h0 => ?_⟩
      · rw [decodeNative, InetAddress.new, dif_pos hlen]
      · rw [h0] at hlen
        exact absurd hlen (by norm_num)

theorem length_of_fixed_native (e : Encoder) {t : NativeType} {v : Value} {bs : List UInt8} {n : ℕ}
    (h : WellTypedNative t v) (henc : e.encode v (.native t) = .ok (.buffer bs))
    (hn : serializationSizeIfFixed (.native t) = some n) : bs.length = n := by
  cases t with
  | int =>
      obtain ⟨x, hx, rfl⟩ := h
      simp only [encode, encodeWith, encodeType, encodeNative] at henc
      rw [writeIntBE_of_fits (w := 4) hx] at henc
      cases henc
      cases hn
      exact length_writeInt 4 x
  | bigint =>
      obtain ⟨x, rfl⟩ := h
      cases henc
      cases hn
      exact Long.length_toBuffer x
  | boolean =>
      obtain ⟨b, rfl⟩ := h
      cases henc
      cases hn
      rfl
  | uuid =>
      obtain ⟨u, rfl⟩ := h
      cases henc
      cases hn
      exact u.valid
  | _ => cases hn

/-! ### Loops over items -/

section Loops

theorem ok_bind {α β : Type} (a : α) (f : α → Except EncoderError β) : (Except.ok a >>= f) = f a := rfl

theorem fits_length {n : ℕ} (h : n < 2 ^ 31) : Fits (8 * 4) (n : ℤ) := by
  unfold Fits
  norm_num
  omega

/-- Bytes behind their length. -/
def framed (bs : List UInt8) : List UInt8 := writeInt 4 bs.length ++ bs

@[simp] theorem length_framed (bs : List UInt8) : (framed bs).length = 4 + bs.length := by simp [framed]

theorem bytesAt_writeInt (n : ℤ) (pre post : List UInt8) :
    bytesAt 4 (pre ++ writeInt 4 n ++ post) pre.length = some (writeInt 4 n) := by
  have h := bytesAt_append pre (writeInt 4 n) post
  rwa [length_writeInt] at h

theorem slice_framed (bs pre post : List UInt8) :
    slice (pre ++ framed bs ++ post) (pre.length + 4) (pre.length + 4 + bs.length) = bs := by
  have h := slice_append (pre ++ writeInt 4 bs.length) bs post
  rw [List.length_append, length_writeInt] at h
  push_cast at h
  simpa only [framed, List.append_assoc] using h

theorem concat_buffer {parts : List Encoded} {bs : List UInt8} (as : List UInt8)
    (h : concat parts = .ok bs) : concat (.buffer as :: parts) = .ok (as ++ bs) := by
  rw [concat, h]
  rfl

variable {e : Encoder} (hv : 3 ≤ e.protocolVersion)

include hv in
theorem lengthBuffer_eq {n : ℕ} (h : n < 2 ^ 31) : e.lengthBuffer n = .ok (writeInt 4 n) := by
  rw [lengthBuffer, if_pos hv, writeIntBE_of_fits (fits_length h)]

include hv in
theorem collectionLengthSize_eq : e.collectionLengthSize = 4 := if_pos hv

include hv in
theorem collectionLength_writeInt {n : ℕ} (h : n < 2 ^ 31) (pre post : List UInt8) :
    e.collectionLength (pre ++ writeInt 4 n ++ post) pre.length = .ok (n : ℤ) := by
  rw [collectionLength, if_pos hv, bytesAt_writeInt]
  simp only [readInt_writeInt (w := 4) (by norm_num) (fits_length h)]

include hv in
theorem collectionLength_framed {bs : List UInt8} (h : bs.length < 2 ^ 31) (pre post : List UInt8) :
    e.collectionLength (pre ++ framed bs ++ post) pre.length = .ok (bs.length : ℤ) := by
  have hlen := collectionLength_writeInt hv h pre (bs ++ post)
  simpa only [framed, List.append_assoc] using hlen

variable {encoder : Value → Except EncoderError Encoded} {decoder : List UInt8 → Except EncoderError Value}
  {code : Value → List UInt8} {back : Value → Value}

include hv in
theorem listParts_eq {vs : List Value} (h : ∀ v ∈ vs, v.isNullish = false ∧
      e.encodeWith encoder v = .ok (.buffer (code v)) ∧ (code v).length < 2 ^ 31) :
    ∃ parts, e.listParts encoder vs = .ok parts ∧ concat parts = .ok (vs.flatMap fun v => framed (code v)) := by
  induction vs with
  | nil => exact ⟨[], rfl, rfl⟩
  | cons v vs ih =>
      obtain ⟨hnull, henc, hlt⟩ := h v (List.mem_cons_self ..)
      obtain ⟨parts, hparts, hconcat⟩ := ih fun w hw => h w (List.mem_cons_of_mem _ hw)
      refine ⟨.buffer (writeInt 4 (code v).length) :: .buffer (code v) :: parts, ?_, ?_⟩
      · simp only [listParts, hnull, henc, ok_bind, Encoded.length, lengthBuffer_eq hv hlt, hparts]
        rfl
      · rw [concat_buffer _ (concat_buffer _ hconcat), List.flatMap_cons, framed, List.append_assoc]

include hv in
theorem listItems_eq {vs : List Value}
    (h : ∀ v ∈ vs, decoder (code v) = .ok (back v) ∧ (code v).length < 2 ^ 31) (pre post : List UInt8) :
    e.listItems decoder (pre ++ vs.flatMap (fun v => framed (code v)) ++ post) vs.length pre.length =
      .ok (vs.map back) := by
  induction vs generalizing pre with
  | nil => rfl
  | cons v vs ih =>
      obtain ⟨hdec, hlt⟩ := h v (List.mem_cons_self ..)
      have hrest := ih (fun w hw => h w (List.mem_cons_of_mem _ hw)) (pre ++ framed (code v))
      have hbytes : pre ++ (v :: vs).flatMap (fun v => framed (code v)) ++ post =
          pre ++ framed (code v) ++ (vs.flatMap (fun v => framed (code v)) ++ post) := by
        simp
      rw [List.append_assoc (pre ++ framed (code v)), List.length_append, length_framed] at hrest
      push_cast [← add_assoc] at hrest
      rw [List.length_cons, listItems, hbytes, collectionLength_framed hv hlt]
      simp only [ok_bind, collectionLengthSize_eq hv, slice_framed, hdec, hrest, List.map_cons]

/-- The list behind the number of its items. -/
def framedList (code : Value → List UInt8) (vs : List Value) : List UInt8 :=
  writeInt 4 vs.length ++ vs.flatMap fun v => framed (code v)

include hv in
theorem encodeList_eq {vs : List Value} (hne : vs ≠ []) (hlen : vs.length < 2 ^ 31)
    (h : ∀ v ∈ vs, v.isNullish = false ∧ e.encodeWith encoder v = .ok (.buffer (code v)) ∧
      (code v).length < 2 ^ 31) :
    e.encodeList encoder (.array vs) = .ok (.buffer (framedList code vs)) := by
  obtain ⟨parts, hparts, hconcat⟩ := listParts_eq hv h
  cases vs with
  | nil => exact absurd rfl hne
  | cons v vs =>
      simp only [encodeList, lengthBuffer_eq hv hlen, ok_bind, hparts, concat_buffer _ hconcat]
      rfl

include hv in
theorem decodeList_eq {vs : List Value} (hlen : vs.length < 2 ^ 31)
    (h : ∀ v ∈ vs, decoder (code v) = .ok (back v) ∧ (code v).length < 2 ^ 31) :
    e.decodeList decoder (framedList code vs) = .ok (vs.map back) := by
  have hcount := collectionLength_writeInt hv hlen [] (vs.flatMap fun v => framed (code v))
  have hitems := listItems_eq hv h (writeInt 4 vs.length) []
  simp only [List.nil_append, List.length_nil, Nat.cast_zero, List.append_nil, length_writeInt,
    Nat.cast_ofNat] at hcount hitems
  simp only [decodeList, framedList, hcount, ok_bind, if_neg (Int.natCast_nonneg vs.length).not_gt,
    Int.toNat_natCast, collectionLengthSize_eq hv, hitems]

/-- A set keeps elements that are pairwise different. -/
theorem newSet_eq {vs : List Value} (h : vs.Pairwise fun a b => e.keyEq a b = false) : e.newSet vs = vs := by
  have hfold : ∀ (ws acc : List Value), (acc ++ ws).Pairwise (fun a b => e.keyEq a b = false) →
      ws.foldl (fun acc v => if acc.any (e.keyEq · v) then acc else acc ++ [v]) acc = acc ++ ws := by
    intro ws
    induction ws with
    | nil => simp
    | cons w ws ih =>
        intro acc hacc
        have hfresh : acc.any (e.keyEq · w) = false := by
          rw [List.any_eq_false]
          intro a ha
          rw [(List.pairwise_append.1 hacc).2.2 a ha w (List.mem_cons_self ..)]
          exact Bool.false_ne_true
        rw [List.foldl_cons, hfresh, if_neg Bool.false_ne_true, ih _ (by simpa using hacc)]
        simp
  exact hfold vs [] h

/-! ### Maps -/

variable {keyEncoder valueEncoder : Value → Except EncoderError Encoded}
  {keyDecoder valueDecoder : List UInt8 → Except EncoderError Value}
  {keyCode valueCode : Value → List UInt8} {keyBack valueBack : Value → Value}

/-- The bytes of an entry. -/
def framedEntry (keyCode valueCode : Value → List UInt8) (p : Value × Value) : List UInt8 :=
  framed (keyCode p.1) ++ framed (valueCode p.2)

include hv in
/-- A `null` for a value leaves the length alone. -/
theorem mapParts_eq {entries : List (Value × Value)}
    (hk : ∀ p ∈ entries, p.1.isNullish = false ∧
      e.encodeWith keyEncoder p.1 = .ok (.buffer (keyCode p.1)) ∧ (keyCode p.1).length < 2 ^ 31)
    (hval : ∀ p ∈ entries, p.2.isNullish = false ∧ (e.encodeWith valueEncoder p.2 = .ok (.buffer (valueCode p.2)) ∨
      e.encodeWith valueEncoder p.2 = .ok .null ∧ valueCode p.2 = []) ∧ (valueCode p.2).length < 2 ^ 31) :
    ∃ parts, e.mapParts keyEncoder valueEncoder entries = .ok parts ∧
      concat parts = .ok (entries.flatMap (framedEntry keyCode valueCode)) := by
  induction entries with
  | nil => exact ⟨[], rfl, rfl⟩
  | cons p entries ih =>
      obtain ⟨key, val⟩ := p
      obtain ⟨hkn, hke, hkl⟩ := hk _ (List.mem_cons_self ..)
      obtain ⟨hvn, hve, hvl⟩ := hval _ (List.mem_cons_self ..)
      obtain ⟨parts, hparts, hconcat⟩ := ih (fun q hq => hk q (List.mem_cons_of_mem _ hq))
        fun q hq => hval q (List.mem_cons_of_mem _ hq)
      have hentry : ((key, val) :: entries).flatMap (framedEntry keyCode valueCode) =
          writeInt 4 (keyCode key).length ++ (keyCode key ++ (writeInt 4 (valueCode val).length ++
            (valueCode val ++ entries.flatMap (framedEntry keyCode valueCode)))) := by
        simp only [List.flatMap_cons, framedEntry, framed, List.append_assoc]
      obtain hve | ⟨hve, hnil⟩ := hve
      · refine ⟨.buffer (writeInt 4 (keyCode key).length) :: .buffer (keyCode key) ::
          .buffer (writeInt 4 (valueCode val).length) :: .buffer (valueCode val) :: parts, ?_, ?_⟩
        · simp only [mapParts, hkn, hke, hvn, hve, ok_bind, Encoded.length, lengthBuffer_eq hv hkl,
            lengthBuffer_eq hv hvl, hparts]
          rfl
        · rw [hentry, concat_buffer _ (concat_buffer _ (concat_buffer _ (concat_buffer _ hconcat)))]
      · rw [hnil] at hvl hentry
        refine ⟨.buffer (writeInt 4 (keyCode key).length) :: .buffer (keyCode key) ::
          .buffer (writeInt 4 ([] : List UInt8).length) :: parts, ?_, ?_⟩
        · simp only [mapParts, hkn, hke, hvn, hve, ok_bind, Encoded.length, lengthBuffer_eq hv hkl,
            lengthBuffer_eq hv (by norm_num : 0 < 2 ^ 31), hparts]
          rfl
        · rw [hentry, concat_buffer _ (concat_buffer _ (concat_buffer _ hconcat)), List.nil_append]

theorem mapSet_of_fresh {entries : List (Value × Value)} {key : Value} (value : Value)
    (h : ∀ p ∈ entries, e.keyEq p.1 key = false) : e.mapSet entries key value = entries ++ [(key, value)] := by
  have hany : entries.any (fun p => e.keyEq p.1 key) = false := by
    rw [List.any_eq_false]
    intro p hp
    rw [h p hp]
    exact Bool.false_ne_true
  rw [mapSet, hany, if_neg Bool.false_ne_true]

include hv in
/-- The entries `done` are those of the earlier passes. -/
theorem mapItems_eq {entries : List (Value × Value)}
    (hk : ∀ p ∈ entries, keyDecoder (keyCode p.1) = .ok (keyBack p.1) ∧ (keyCode p.1).length < 2 ^ 31)
    (hval : ∀ p ∈ entries, valueDecoder (valueCode p.2) = .ok (valueBack p.2) ∧
      (valueCode p.2).length < 2 ^ 31) (pre post : List UInt8) (done : List (Value × Value))
    (hdistinct : (done ++ entries.map fun p => (keyBack p.1, valueBack p.2)).Pairwise
      fun p q => e.keyEq p.1 q.1 = false) :
    e.mapItems keyDecoder valueDecoder (pre ++ entries.flatMap (framedEntry keyCode valueCode) ++ post)
        entries.length pre.length done =
      .ok (done ++ entries.map fun p => (keyBack p.1, valueBack p.2)) := by
  induction entries generalizing pre done with
  | nil => simp [mapItems]
  | cons p entries ih =>
      obtain ⟨key, val⟩ := p
      obtain ⟨hkd, hkl⟩ := hk _ (List.mem_cons_self ..)
      obtain ⟨hvd, hvl⟩ := hval _ (List.mem_cons_self ..)
      have hrest := ih (fun q hq => hk q (List.mem_cons_of_mem _ hq))
        (fun q hq => hval q (List.mem_cons_of_mem _ hq))
        (pre ++ framed (keyCode key) ++ framed (valueCode val)) (done ++ [(keyBack key, valueBack val)])
        (by simpa using hdistinct)
      have hfresh : ∀ q ∈ done, e.keyEq q.1 (keyBack key) = false := fun q hq =>
        (List.pairwise_append.1 hdistinct).2.2 q hq _ (List.mem_cons_self ..)
      have hkey : pre ++ ((key, val) :: entries).flatMap (framedEntry keyCode valueCode) ++ post =
          pre ++ framed (keyCode key) ++ (framed (valueCode val) ++
            (entries.flatMap (framedEntry keyCode valueCode) ++ post)) := by
        simp [framedEntry]
      have hvalLength := collectionLength_framed hv hvl (pre ++ framed (keyCode key))
        (entries.flatMap (framedEntry keyCode valueCode) ++ post)
      have hvalSlice := slice_framed (valueCode val) (pre ++ framed (keyCode key))
        (entries.flatMap (framedEntry keyCode valueCode) ++ post)
      simp only [List.append_assoc, List.length_append, length_framed] at hrest hvalLength hvalSlice
      push_cast [← add_assoc] at hrest hvalLength hvalSlice
      rw [List.length_cons, mapItems, hkey, collectionLength_framed hv hkl]
      simp only [ok_bind, collectionLengthSize_eq hv, slice_framed, hkd]
      simp only [ok_bind, List.append_assoc, hvalLength, hvalSlice, hvd, mapSet_of_fresh _ hfresh, hrest,
        if_neg (Int.natCast_nonneg (valueCode val).length).not_gt]
      simp

/-- The entries behind their number. -/
def framedMap (keyCode valueCode : Value → List UInt8) (entries : List (Value × Value)) : List UInt8 :=
  writeInt 4 entries.length ++ entries.flatMap (framedEntry keyCode valueCode)

include hv in
theorem decodeMap_eq {entries : List (Value × Value)} (hlen : entries.length < 2 ^ 31)
    (hk : ∀ p ∈ entries, keyDecoder (keyCode p.1) = .ok (keyBack p.1) ∧ (keyCode p.1).length < 2 ^ 31)
    (hval : ∀ p ∈ entries, valueDecoder (valueCode p.2) = .ok (valueBack p.2) ∧
      (valueCode p.2).length < 2 ^ 31)
    (hdistinct : (entries.map Prod.fst).Pairwise fun a b => e.keyEq (keyBack a) (keyBack b) = false) :
    e.decodeMap keyDecoder valueDecoder (framedMap keyCode valueCode entries) =
      .ok (.map (entries.map fun p => (keyBack p.1, valueBack p.2))) := by
  have hcount := collectionLength_writeInt hv hlen [] (entries.flatMap (framedEntry keyCode valueCode))
  have hitems := mapItems_eq hv hk hval (writeInt 4 entries.length) [] []
    (by simpa [List.pairwise_map] using hdistinct)
  simp only [List.nil_append, List.length_nil, Nat.cast_zero, List.append_nil, length_writeInt,
    Nat.cast_ofNat] at hcount hitems
  simp only [decodeMap, framedMap, hcount, ok_bind, Int.toNat_natCast, collectionLengthSize_eq hv, hitems]
  rfl

/-! ### Tuple elements and fields -/

theorem decodeField_framed {bs : List UInt8} (h : bs.length < 2 ^ 31) (pre post : List UInt8) :
    decodeField decoder (pre ++ framed bs ++ post) pre.length =
      (decoder bs).map (·, ((pre ++ framed bs).length : ℤ)) := by
  have hbytes := bytesAt_writeInt bs.length pre (bs ++ post)
  rw [← List.append_assoc, List.append_assoc pre, ← framed] at hbytes
  simp only [decodeField, hbytes, readInt_writeInt (w := 4) (by norm_num) (fits_length h),
    if_neg (Int.natCast_nonneg bs.length).not_gt, slice_framed, List.length_append, length_framed]
  push_cast
  rw [add_assoc]

/-- `nullValueBuffer` -/
theorem decodeField_null (pre post : List UInt8) :
    decodeField decoder (pre ++ [255, 255, 255, 255] ++ post) pre.length =
      .ok (.null, ((pre ++ [255, 255, 255, 255]).length : ℤ)) := by
  have hwrite : writeInt 4 (-1) = [255, 255, 255, 255] := by decide
  have hread : readInt [255, 255, 255, 255] = -1 := by decide
  have hbytes := bytesAt_writeInt (-1) pre post
  rw [hwrite] at hbytes
  simp only [decodeField, hbytes, hread]
  simp

/-! ### Vectors -/

/-- An element of a vector, behind its size where the elements of the type have no fixed one. -/
def sized (size : Option ℕ) (bs : List UInt8) : List UInt8 :=
  match size with
  | some _ => bs
  | none => ((VInt.uvintPack bs.length).getD []) ++ bs

theorem vectorParts_eq (size : Option ℕ) {vs : List Value}
    (h : ∀ v ∈ vs, e.encodeWith encoder v = .ok (.buffer (code v)) ∧ (code v).length < 2 ^ 31) :
    ∃ parts, e.vectorParts size encoder vs = .ok parts ∧
      concat parts = .ok (vs.flatMap fun v => sized size (code v)) := by
  induction vs with
  | nil => exact ⟨[], rfl, rfl⟩
  | cons v vs ih =>
      obtain ⟨henc, hlt⟩ := h v (List.mem_cons_self ..)
      obtain ⟨parts, hparts, hconcat⟩ := ih fun w hw => h w (List.mem_cons_of_mem _ hw)
      cases size with
      | some n =>
          refine ⟨.buffer (code v) :: parts, ?_, ?_⟩
          · simp only [vectorParts, henc, ok_bind, hparts]
            rfl
          · rw [concat_buffer _ hconcat, List.flatMap_cons, sized]
      | none =>
          obtain ⟨k, -, -, hpack⟩ := VInt.uvintPack_eq hlt
          refine ⟨.buffer (VInt.pack k (code v).length) :: .buffer (code v) :: parts, ?_, ?_⟩
          · simp only [vectorParts, henc, ok_bind, hpack, hparts]
            rfl
          · rw [concat_buffer _ (concat_buffer _ hconcat), List.flatMap_cons, sized, hpack, Option.getD_some,
              List.append_assoc]

theorem subarray_append (pre bs post : List UInt8) :
    subarray (pre ++ bs ++ post) (some (pre.length : ℤ)) (some ((pre ++ bs).length : ℤ)) = bs := by
  have h := slice_append pre bs post
  rw [← Nat.cast_add, ← List.length_append] at h
  exact h

theorem elementBounds_sized {size : Option ℕ} {bs : List UInt8} (hlt : bs.length < 2 ^ 31)
    (hsize : ∀ n, size = some n → bs.length = n) (pre post : List UInt8) :
    ∃ front, pre ++ sized size bs = front ++ bs ∧
      elementBounds size (pre ++ sized size bs ++ post) (some (pre.length : ℤ)) =
        (some (front.length : ℤ), some ((front ++ bs).length : ℤ)) := by
  cases size with
  | some n =>
      refine ⟨pre, rfl, ?_⟩
      simp [elementBounds, addOffset, hsize n rfl]
  | none =>
      obtain ⟨k, hk, hpacks, hpack⟩ := VInt.uvintPack_eq hlt
      have hsized : sized none bs = VInt.pack k bs.length ++ bs := by simp [sized, hpack]
      refine ⟨pre ++ VInt.pack k bs.length, by rw [hsized, List.append_assoc], ?_⟩
      have hrest := subarray_append pre (VInt.pack k bs.length ++ (bs ++ post)) []
      rw [List.append_nil] at hrest
      have hbytes : pre ++ sized none bs ++ post = pre ++ (VInt.pack k bs.length ++ (bs ++ post)) := by
        rw [hsized]
        simp
      rw [hbytes]
      simp only [elementBounds, hrest, VInt.uvintUnpack_pack hk hpacks hlt, addOffset, Option.bind_some,
        Option.map_some]
      simp only [List.length_append, VInt.length_pack]
      push_cast
      rfl

theorem vectorItems_eq {size : Option ℕ} {vs : List Value}
    (h : ∀ v ∈ vs, decoder (code v) = .ok (back v) ∧ (code v).length < 2 ^ 31)
    (hsize : ∀ n, size = some n → ∀ v ∈ vs, (code v).length = n) (pre post : List UInt8) :
    vectorItems size decoder (pre ++ vs.flatMap (fun v => sized size (code v)) ++ post) vs.length
        (some (pre.length : ℤ)) =
      .ok (vs.map back, some ((pre ++ vs.flatMap fun v => sized size (code v)).length : ℤ)) := by
  induction vs generalizing pre with
  | nil => simp [vectorItems]
  | cons v vs ih =>
      obtain ⟨hdec, hlt⟩ := h v (List.mem_cons_self ..)
      have hrest := ih (fun w hw => h w (List.mem_cons_of_mem _ hw))
        (fun n hn w hw => hsize n hn w (List.mem_cons_of_mem _ hw)) (pre ++ sized size (code v))
      have hbytes : pre ++ (v :: vs).flatMap (fun v => sized size (code v)) ++ post =
          pre ++ sized size (code v) ++ (vs.flatMap (fun v => sized size (code v)) ++ post) := by
        simp
      obtain ⟨front, hfront, hbounds⟩ := elementBounds_sized hlt
        (fun n hn => hsize n hn v (List.mem_cons_self ..)) pre
        (vs.flatMap (fun v => sized size (code v)) ++ post)
      have helem := subarray_append front (code v) (vs.flatMap (fun v => sized size (code v)) ++ post)
      have hexceeds : exceeds (some ((front ++ code v).length : ℤ))
          (front ++ code v ++ (vs.flatMap (fun v => sized size (code v)) ++ post)) = false := by
        simp only [exceeds, decide_eq_false_iff_not, List.length_append]
        push_cast
        omega
      rw [List.append_assoc (pre ++ _)] at hrest
      rw [hfront] at hrest hbounds
      rw [List.length_cons, vectorItems, hbytes, hfront, hbounds]
      simp only [hexceeds, helem, hdec, ok_bind, hrest, List.map_cons, Bool.false_eq_true, if_false]
      rw [List.flatMap_cons, ← List.append_assoc, hfront]

theorem encodeVector_eq {size : Option ℕ} {vs : List Value} {dimension : ℕ} (hlen : vs.length = dimension)
    (hd : 1 ≤ dimension)
    (h : ∀ v ∈ vs, e.encodeWith encoder v = .ok (.buffer (code v)) ∧ (code v).length < 2 ^ 31) :
    e.encodeVector size encoder dimension (.vector vs) =
      .ok (.buffer (vs.flatMap fun v => sized size (code v))) := by
  obtain ⟨parts, hparts, hconcat⟩ := vectorParts_eq size h
  simp only [encodeVector, hlen, ne_eq, not_true_eq_false, if_false, if_neg (Nat.one_le_iff_ne_zero.1 hd),
    hparts, ok_bind, hconcat]
  rfl

theorem decodeVector_eq {size : Option ℕ} {vs : List Value} (hne : vs ≠ [])
    (h : ∀ v ∈ vs, decoder (code v) = .ok (back v) ∧ (code v).length < 2 ^ 31)
    (hsize : ∀ n, size = some n → ∀ v ∈ vs, (code v).length = n) :
    decodeVector size decoder vs.length (vs.flatMap fun v => sized size (code v)) =
      .ok (.vector (vs.map back)) := by
  have hitems := vectorItems_eq h hsize [] []
  simp only [List.nil_append, List.append_nil, List.length_nil, Nat.cast_zero] at hitems
  have hnonempty : (vs.map back).isEmpty = false := by simpa using hne
  simp only [decodeVector, hitems, ok_bind, ne_eq, not_true_eq_false, if_false, hnonempty, Bool.false_eq_true]

end Loops

end Encoder

/-! ### Well-typed values -/

namespace Value

/-- The elements of an array, set, tuple or vector. -/
def items : Value → List Value
  | array vs | set vs | tuple vs | vector vs => vs
  | _ => []

/-- The entries of a `Map`. -/
def entries : Value → List (Value × Value)
  | map entries => entries
  | _ => []

/-- The own properties of a plain object. -/
def props : Value → List (String × Value)
  | object props => props
  | _ => []

/-- A tuple element or a field without a value. -/
def isMissing : Value → Bool
  | null | undefined => true
  | _ => false

end Value

namespace Encoder

section WellTyped

variable (e : Encoder)

/-- The values are pairwise different as keys of a `Map` or as elements of a `Set`. -/
def Distinct (vs : List Value) : Prop := vs.Pairwise fun a b => e.keyEq a b = false

mutual

/-- The non-null values of a type, without empty lists and sets. -/
def WellTyped : CqlType → Value → Prop
  | .native t, v => WellTypedNative t v
  | .list t, v => ∃ vs, v = .array vs ∧ vs ≠ [] ∧ ∀ x ∈ vs, WellTyped t x
  | .set t, v => ∃ vs, (v = .array vs ∨ e.set = true ∧ v = .set vs) ∧ vs ≠ [] ∧
      (e.set = true → e.Distinct vs) ∧ ∀ x ∈ vs, WellTyped t x
  | .map k t, v => ∃ entries, v = .map entries ∧ e.Distinct (entries.map Prod.fst) ∧
      ∀ p ∈ entries, WellTyped k p.1 ∧ WellTyped t p.2
  | .tuple ts, v => ∃ vs, v = .tuple vs ∧ ts ≠ [] ∧ WellTypedTuple ts vs
  | .udt _ fields, v => ∃ props, v = .object props ∧ fields ≠ [] ∧ (fields.map Prod.fst).Nodup ∧
      "__proto__" ∉ fields.map Prod.fst ∧ (∀ p ∈ props, p.1 ∈ fields.map Prod.fst) ∧
      WellTypedFields fields props
  | .vector t dimension, v => ∃ vs, v = .vector vs ∧ 1 ≤ dimension ∧ vs.length = dimension ∧
      ∀ x ∈ vs, WellTyped t x

def WellTypedTuple : List CqlType → List Value → Prop
  | [], vs => vs = []
  | t :: ts, vs => ∃ v ws, vs = v :: ws ∧ (v.isMissing = true ∨ WellTyped t v) ∧ WellTypedTuple ts ws

def WellTypedFields : List (String × CqlType) → List (String × Value) → Prop
  | [], _ => True
  | (name, t) :: fields, props =>
      ((fieldValue props name).isMissing = true ∨ WellTyped t (fieldValue props name)) ∧
        WellTypedFields fields props

end

/-- The buffer `encode` returns. -/
def bytesOf (t : CqlType) (v : Value) : List UInt8 :=
  match e.encode v t with
  | .ok (.buffer bs) => bs
  | _ => []

mutual

/-- The numbers of items, and the lengths of the items in bytes, fit in an `int32`. -/
def LengthsFit : CqlType → Value → Prop
  | .native _, _ => True
  | .list t, v => v.items.length < 2 ^ 31 ∧ ∀ x ∈ v.items, (e.bytesOf t x).length < 2 ^ 31 ∧ LengthsFit t x
  | .set t, v => v.items.length < 2 ^ 31 ∧ ∀ x ∈ v.items, (e.bytesOf t x).length < 2 ^ 31 ∧ LengthsFit t x
  | .map k t, v => v.entries.length < 2 ^ 31 ∧ ∀ p ∈ v.entries,
      ((e.bytesOf k p.1).length < 2 ^ 31 ∧ LengthsFit k p.1) ∧
        ((e.bytesOf t p.2).length < 2 ^ 31 ∧ LengthsFit t p.2)
  | .tuple ts, v => LengthsFitTuple ts v.items
  | .udt _ fields, v => LengthsFitFields fields v.props
  | .vector t _, v => ∀ x ∈ v.items, (e.bytesOf t x).length < 2 ^ 31 ∧ LengthsFit t x

def LengthsFitTuple : List CqlType → List Value → Prop
  | t :: ts, v :: vs => ((e.bytesOf t v).length < 2 ^ 31 ∧ LengthsFit t v) ∧ LengthsFitTuple ts vs
  | _, _ => True

def LengthsFitFields : List (String × CqlType) → List (String × Value) → Prop
  | [], _ => True
  | (name, t) :: fields, props =>
      ((e.bytesOf t (fieldValue props name)).length < 2 ^ 31 ∧ LengthsFit t (fieldValue props name)) ∧
        LengthsFitFields fields props

end

mutual

/-- The value with `null` for the missing tuple elements and fields; the fields of an object stand in
the order of its type. -/
def comesBack : CqlType → Value → Value
  | .native _, v => v
  | .list t, v => .array (v.items.map (comesBack t))
  | .set t, v => if e.set then .set (v.items.map (comesBack t)) else .array (v.items.map (comesBack t))
  | .map k t, v => .map (v.entries.map fun p => (comesBack k p.1, comesBack t p.2))
  | .tuple ts, v => .tuple (tupleComesBack ts v.items)
  | .udt _ fields, v => .object (fieldsComeBack fields v.props)
  | .vector t _, v => .vector (v.items.map (comesBack t))

def tupleComesBack : List CqlType → List Value → List Value
  | t :: ts, v :: vs => (if v.isMissing then .null else comesBack t v) :: tupleComesBack ts vs
  | _, _ => []

def fieldsComeBack : List (String × CqlType) → List (String × Value) → List (String × Value)
  | [], _ => []
  | (name, t) :: fields, props =>
      let v := fieldValue props name
      (name, if v.isMissing then .null else comesBack t v) :: fieldsComeBack fields props

end

/-- The comparison of keys sees a key and the key that comes back alike. -/
def ComparesAlike : Prop := ∀ t a b, e.WellTyped t a → e.WellTyped t b → e.keyEq a b = false →
  e.keyEq (e.comesBack t a) (e.comesBack t b) = false

end WellTyped

end Encoder

/-! ### The round trip -/

namespace Encoder

/-- The value is encoded in bytes that decode to `w` and have the fixed size of the type, if any. -/
structure RoundTrips (e : Encoder) (t : CqlType) (v : Value) (bs : List UInt8) (w : Value) : Prop where
  encodes : e.encode v t = .ok (.buffer bs)
  decodes : e.decode bs t = .ok w
  size : ∀ n, serializationSizeIfFixed t = some n → bs.length = n

section RoundTrip

variable {e : Encoder}

theorem RoundTrips.bytesOf {t : CqlType} {v w : Value} {bs : List UInt8} (h : e.RoundTrips t v bs w) :
    e.RoundTrips t v (e.bytesOf t v) w := by
  have : e.bytesOf t v = bs := by rw [Encoder.bytesOf, h.encodes]
  rwa [this]

theorem isNullish_of_wellTyped {t : CqlType} {v : Value} (h : e.WellTyped t v) : v.isNullish = false := by
  cases t with
  | native t =>
      rw [WellTyped] at h
      cases t with
      | int | smallint | tinyint =>
          obtain ⟨n, -, rfl⟩ := h
          rfl
      | _ =>
          obtain ⟨x, rfl⟩ := h
          rfl
  | set t =>
      rw [WellTyped] at h
      obtain ⟨vs, rfl | ⟨-, rfl⟩, -⟩ := h
      · rfl
      · rfl
  | _ =>
      rw [WellTyped] at h
      obtain ⟨x, rfl, -⟩ := h
      rfl

theorem isMissing_of_isNullish {v : Value} (h : v.isNullish = false) : v.isMissing = false := by
  cases v with
  | null | undefined => cases h
  | _ => rfl

theorem decodeWith_of_ne_nil {t : CqlType} {decoder : List UInt8 → Except EncoderError Value} {bs : List UInt8}
    (h : bs = [] → zeroLengthTypesSupported t = true) : decodeWith t decoder bs = decoder bs := by
  rw [decodeWith, if_neg]
  rintro ⟨hempty, hsup⟩
  exact hsup (h (List.isEmpty_iff.1 hempty))

/-- Beside a `Buffer`, a value with items goes to the method of the type. -/
theorem encode_eq_encodeType (t : CqlType) {v : Value} (hn : v.isNullish = false)
    (hb : ∀ bs, v ≠ .buffer bs) : e.encode v t = e.encodeType t v := by
  cases v with
  | undefined | null | unset => cases hn
  | buffer bs => exact absurd rfl (hb bs)
  | _ => rfl

theorem decode_eq_decodeType (t : CqlType) {bs : List UInt8} (h : bs ≠ []) :
    e.decode bs t = e.decodeType t bs :=
  decodeWith_of_ne_nil fun h0 => absurd h0 h

theorem writeInt_append_ne_nil (n : ℤ) (bs : List UInt8) : writeInt 4 n ++ bs ≠ [] := by
  rw [ne_eq, ← List.length_eq_zero_iff, List.length_append, length_writeInt]
  omega

theorem framedList_ne_nil (code : Value → List UInt8) (vs : List Value) : framedList code vs ≠ [] :=
  writeInt_append_ne_nil _ _

theorem framedMap_ne_nil (keyCode valueCode : Value → List UInt8) (entries : List (Value × Value)) :
    framedMap keyCode valueCode entries ≠ [] :=
  writeInt_append_ne_nil _ _

/-- An item of a collection, and what is read back for it. -/
structure ItemFits (e : Encoder) (t : CqlType) (v w : Value) : Prop where
  isNullish : v.isNullish = false
  roundTrips : e.RoundTrips t v (e.bytesOf t v) w
  length_lt : (e.bytesOf t v).length < 2 ^ 31

theorem ItemFits.encodes {t : CqlType} {v w : Value} (h : e.ItemFits t v w) : v.isNullish = false ∧
    e.encodeWith (e.encodeType t) v = .ok (.buffer (e.bytesOf t v)) ∧ (e.bytesOf t v).length < 2 ^ 31 :=
  ⟨h.isNullish, h.roundTrips.encodes, h.length_lt⟩

theorem ItemFits.decodes {t : CqlType} {v w : Value} (h : e.ItemFits t v w) :
    decodeWith t (e.decodeType t) (e.bytesOf t v) = .ok w ∧ (e.bytesOf t v).length < 2 ^ 31 :=
  ⟨h.roundTrips.decodes, h.length_lt⟩

theorem roundTrips_native {t : NativeType} {v : Value} (ht : WellTypedNative t v) :
    e.RoundTrips (.native t) v (e.bytesOf (.native t) v) v := by
  obtain ⟨bs, henc, hdec, hne⟩ := decodeNative_encodeNative e ht
  have h : e.RoundTrips (.native t) v bs v := by
    refine ⟨henc, ?_, fun n hn => length_of_fixed_native e ht henc hn⟩
    rw [decode, decodeWith_of_ne_nil hne, decodeType, hdec]
  exact h.bytesOf

theorem roundTrips_list (hv : 3 ≤ e.protocolVersion) {t : CqlType} {back : Value → Value} {vs : List Value}
    (hne : vs ≠ []) (hlen : vs.length < 2 ^ 31) (h : ∀ x ∈ vs, e.ItemFits t x (back x)) :
    e.RoundTrips (.list t) (.array vs) (framedList (e.bytesOf t) vs) (.array (vs.map back)) where
  encodes := by
    rw [encode_eq_encodeType _ rfl (by simp), encodeType]
    exact encodeList_eq hv hne hlen fun x hx => (h x hx).encodes
  decodes := by
    rw [decode_eq_decodeType _ (framedList_ne_nil _ _), decodeType,
      decodeList_eq hv hlen fun x hx => (h x hx).decodes]
    rfl
  size n hn := by cases hn

theorem encodeSet_eq {encoder : Value → Except EncoderError Encoded} {v : Value} {vs : List Value}
    (hvs : v = .array vs ∨ e.set = true ∧ v = .set vs) :
    e.encodeSet encoder v = e.encodeList encoder (.array vs) := by
  obtain rfl | ⟨hset, rfl⟩ := hvs
  · unfold encodeSet
    split
    · rename_i heq
      cases heq
    · rfl
  · simp only [encodeSet, hset]

theorem roundTrips_set (hv : 3 ≤ e.protocolVersion) {t : CqlType} {back : Value → Value} {v : Value}
    {vs : List Value} (hvs : v = .array vs ∨ e.set = true ∧ v = .set vs) (hne : vs ≠ [])
    (hlen : vs.length < 2 ^ 31) (hdistinct : e.set = true → e.Distinct (vs.map back))
    (h : ∀ x ∈ vs, e.ItemFits t x (back x)) :
    e.RoundTrips (.set t) v (framedList (e.bytesOf t) vs)
      (if e.set then .set (vs.map back) else .array (vs.map back)) where
  encodes := by
    have hmethod : e.encode v (.set t) = e.encodeType (.set t) v := by
      obtain rfl | ⟨-, rfl⟩ := hvs
      · rfl
      · rfl
    rw [hmethod, encodeType, encodeSet_eq hvs]
    exact encodeList_eq hv hne hlen fun x hx => (h x hx).encodes
  decodes := by
    rw [decode_eq_decodeType _ (framedList_ne_nil _ _), decodeType,
      decodeList_eq hv hlen fun x hx => (h x hx).decodes]
    by_cases hset : e.set = true
    · rw [if_pos hset, Except.map, if_pos hset, newSet_eq (hdistinct hset)]
    · rw [if_neg hset, Except.map, if_neg hset]
  size n hn := by cases hn

/-- A value of a map is encoded as an item, or as the `null` that comes back. -/
def MapValueFits (e : Encoder) (t : CqlType) (v w : Value) : Prop :=
  e.ItemFits t v w ∨ v.isNullish = false ∧ zeroLengthTypesSupported t = false ∧ e.encode v t = .ok .null ∧ w = .null

theorem MapValueFits.encodes {t : CqlType} {v w : Value} (h : e.MapValueFits t v w) : v.isNullish = false ∧
    (e.encodeWith (e.encodeType t) v = .ok (.buffer (e.bytesOf t v)) ∨
      e.encodeWith (e.encodeType t) v = .ok .null ∧ e.bytesOf t v = []) ∧ (e.bytesOf t v).length < 2 ^ 31 := by
  obtain h | ⟨hnull, -, henc, -⟩ := h
  · exact ⟨h.isNullish, .inl h.encodes.2.1, h.length_lt⟩
  · have hnil : e.bytesOf t v = [] := by rw [bytesOf, henc]
    exact ⟨hnull, .inr ⟨henc, hnil⟩, by rw [hnil]; norm_num⟩

theorem MapValueFits.decodes {t : CqlType} {v w : Value} (h : e.MapValueFits t v w) :
    decodeWith t (e.decodeType t) (e.bytesOf t v) = .ok w ∧ (e.bytesOf t v).length < 2 ^ 31 := by
  obtain h | ⟨-, hzero, henc, rfl⟩ := h
  · exact h.decodes
  · have hnil : e.bytesOf t v = [] := by rw [bytesOf, henc]
    rw [hnil, decodeWith, hzero]
    exact ⟨rfl, by norm_num⟩

theorem roundTrips_map (hv : 3 ≤ e.protocolVersion) {k t : CqlType} {keyBack valueBack : Value → Value}
    {entries : List (Value × Value)} (hlen : entries.length < 2 ^ 31)
    (hdistinct : e.Distinct (entries.map fun p => keyBack p.1))
    (h : ∀ p ∈ entries, e.ItemFits k p.1 (keyBack p.1) ∧ e.MapValueFits t p.2 (valueBack p.2)) :
    e.RoundTrips (.map k t) (.map entries) (framedMap (e.bytesOf k) (e.bytesOf t) entries)
      (.map (entries.map fun p => (keyBack p.1, valueBack p.2))) where
  encodes := by
    obtain ⟨parts, hparts, hconcat⟩ := mapParts_eq hv (fun p hp => (h p hp).1.encodes)
      fun p hp => (h p hp).2.encodes
    rw [encode_eq_encodeType _ rfl (by simp), encodeType]
    simp only [hparts, ok_bind, lengthBuffer_eq hv hlen, concat_buffer _ hconcat]
    rfl
  decodes := by
    have hback : (entries.map Prod.fst).Pairwise fun a b => e.keyEq (keyBack a) (keyBack b) = false := by
      rw [Distinct, List.pairwise_map] at hdistinct
      rwa [List.pairwise_map]
    rw [decode_eq_decodeType _ (framedMap_ne_nil _ _ _), decodeType,
      decodeMap_eq hv hlen (fun p hp => (h p hp).1.decodes) (fun p hp => (h p hp).2.decodes) hback]
  size n hn := by cases hn

theorem roundTrips_vector {t : CqlType} {back : Value → Value} {vs : List Value} {dimension : ℕ}
    (hlen : vs.length = dimension) (hd : 1 ≤ dimension) (h : ∀ x ∈ vs, e.ItemFits t x (back x)) :
    e.RoundTrips (.vector t dimension) (.vector vs)
      (vs.flatMap fun v => sized (serializationSizeIfFixed t) (e.bytesOf t v)) (.vector (vs.map back)) where
  encodes := by
    rw [encode_eq_encodeType _ rfl (by simp), encodeType]
    exact encodeVector_eq hlen hd fun x hx => (h x hx).encodes.2
  decodes := by
    have hne : vs ≠ [] := by
      rintro rfl
      rw [List.length_nil] at hlen
      omega
    rw [decode, decodeWith_of_ne_nil (fun _ => rfl), decodeType, ← hlen,
      decodeVector_eq hne (fun x hx => (h x hx).decodes) fun n hn x hx => (h x hx).roundTrips.size n hn]
  size n hn := by
    rw [serializationSizeIfFixed, Option.map_eq_some_iff] at hn
    obtain ⟨m, hm, rfl⟩ := hn
    have hsum : ∀ v ∈ vs, (sized (some m) (e.bytesOf t v)).length = m := fun v hx =>
      (h v hx).roundTrips.size m hm
    rw [hm, List.length_flatMap, List.map_congr_left hsum, List.map_const', List.sum_replicate, hlen]
    simp [Nat.mul_comm]

/-- The part of a tuple element or of a field, which is read back as `w` in front of any other parts. -/
structure FieldTrips (e : Encoder) (t : CqlType) (v : Value) (part : List UInt8) (w : Value) : Prop where
  encodes : ∃ item, e.encodeWith (e.encodeType t) v = .ok item ∧ fieldPart item = .ok part
  ne_nil : part ≠ []
  decodes : ∀ pre post, decodeField (decodeWith t (e.decodeType t)) (pre ++ part ++ post) pre.length =
    .ok (w, ((pre ++ part).length : ℤ))

theorem fieldTrips_null {t : CqlType} {v : Value} {item : Encoded} (henc : e.encode v t = .ok item)
    (hitem : ∀ bs, item ≠ .buffer bs) : e.FieldTrips t v [255, 255, 255, 255] .null where
  encodes := by
    refine ⟨item, henc, ?_⟩
    cases item with
    | buffer bs => exact absurd rfl (hitem bs)
    | _ => rfl
  ne_nil := List.cons_ne_nil _ _
  decodes pre post := decodeField_null pre post

theorem fieldTrips_missing (t : CqlType) {v : Value} (h : v.isMissing = true) :
    e.FieldTrips t v [255, 255, 255, 255] .null := by
  cases v with
  | null => exact @fieldTrips_null e t .null .null rfl (by simp)
  | undefined =>
      by_cases hunset : e.useUndefinedAsUnset = true ∧ 4 ≤ e.protocolVersion
      · refine @fieldTrips_null e t .undefined .undefined ?_ (by simp)
        rw [encode, encodeWith, if_pos hunset, if_pos hunset.2]
      · exact @fieldTrips_null e t .undefined .null (if_neg hunset) (by simp)
  | _ => cases h

theorem fieldTrips_framed {t : CqlType} {v w : Value} (h : e.ItemFits t v w) :
    e.FieldTrips t v (framed (e.bytesOf t v)) w where
  encodes := by
    refine ⟨.buffer (e.bytesOf t v), h.roundTrips.encodes, ?_⟩
    rw [fieldPart, writeIntBE_of_fits (fits_length h.length_lt)]
    rfl
  ne_nil := writeInt_append_ne_nil _ _
  decodes pre post := by
    rw [decodeField_framed h.length_lt, h.decodes.1]
    rfl

theorem offset_lt {pre part post : List UInt8} (h : part ≠ []) :
    (pre.length : ℤ) < (pre ++ part ++ post).length := by
  have := List.length_pos_of_ne_nil h
  simp only [List.length_append]
  push_cast
  omega

/-- The elements of a tuple are encoded in bytes that are read back as `ws`. -/
structure TupleTrips (e : Encoder) (ts : List CqlType) (vs : List Value) (bs : List UInt8) (ws : List Value) :
    Prop where
  encodes : e.tupleParts ts vs = .ok bs
  ne_nil : ts ≠ [] → bs ≠ [] ∧ ws ≠ []
  decodes : ∀ pre post : List UInt8, e.tupleElements (pre ++ bs ++ post) ts pre.length = .ok ws

theorem tupleTrips_nil : e.TupleTrips [] [] [] [] where
  encodes := rfl
  ne_nil h := absurd rfl h
  decodes _ _ := rfl

theorem tupleTrips_cons {t : CqlType} {ts : List CqlType} {v w : Value} {vs ws : List Value}
    {part parts : List UInt8} (h : e.FieldTrips t v part w) (hs : e.TupleTrips ts vs parts ws) :
    e.TupleTrips (t :: ts) (v :: vs) (part ++ parts) (w :: ws) where
  encodes := by
    obtain ⟨item, hitem, hpart⟩ := h.encodes
    simp only [tupleParts, hitem, ok_bind, hpart, hs.encodes]
  ne_nil _ := ⟨fun hnil => h.ne_nil (List.append_eq_nil_iff.1 hnil).1, List.cons_ne_nil _ _⟩
  decodes pre post := by
    have hrest := hs.decodes (pre ++ part) post
    rw [List.append_assoc (pre ++ part)] at hrest
    rw [← List.append_assoc pre part, List.append_assoc (pre ++ part), tupleElements, if_pos (offset_lt h.ne_nil),
      h.decodes]
    simp only [ok_bind, hrest]

theorem roundTrips_tuple {ts : List CqlType} {vs ws : List Value} {bs : List UInt8} (hts : ts ≠ [])
    (h : e.TupleTrips ts vs bs ws) : e.RoundTrips (.tuple ts) (.tuple vs) bs (.tuple ws) where
  encodes := by
    rw [encode_eq_encodeType _ rfl (by simp), encodeType, h.encodes]
    rfl
  decodes := by
    have hdec := h.decodes [] []
    rw [List.nil_append, List.append_nil, List.length_nil, Nat.cast_zero] at hdec
    have hempty : ws.isEmpty = false := by simpa using (h.ne_nil hts).2
    rw [decode_eq_decodeType _ (h.ne_nil hts).1, decodeType, hdec, ok_bind, hempty]
    rfl
  size n hn := by cases hn

/-- The fields of an object are encoded in bytes that are read back as `qs`, behind the fields of `result`. -/
structure FieldsTrip (e : Encoder) (fields : List (String × CqlType)) (props : List (String × Value))
    (bs : List UInt8) (qs : List (String × Value)) : Prop where
  encodes : e.udtParts fields props = .ok bs
  ne_nil : fields ≠ [] → bs ≠ []
  decodes : ∀ (pre post : List UInt8) (result : List (String × Value)),
    (result.map Prod.fst ++ fields.map Prod.fst).Nodup → "__proto__" ∉ fields.map Prod.fst →
    e.udtFields (pre ++ bs ++ post) fields pre.length result = .ok (result ++ qs)

theorem fieldsTrip_nil (props : List (String × Value)) : e.FieldsTrip [] props [] [] where
  encodes := rfl
  ne_nil h := absurd rfl h
  decodes _ _ result _ _ := by rw [udtFields, List.append_nil]

theorem fieldsTrip_cons {name : String} {t : CqlType} {fields : List (String × CqlType)} {w : Value}
    {props qs : List (String × Value)} {part parts : List UInt8}
    (h : e.FieldTrips t (fieldValue props name) part w) (hs : e.FieldsTrip fields props parts qs) :
    e.FieldsTrip ((name, t) :: fields) props (part ++ parts) ((name, w) :: qs) where
  encodes := by
    obtain ⟨item, hitem, hpart⟩ := h.encodes
    simp only [udtParts, hitem, ok_bind, hpart, hs.encodes]
  ne_nil _ hnil := h.ne_nil (List.append_eq_nil_iff.1 hnil).1
  decodes pre post result hnodup hproto := by
    simp only [List.map_cons, List.mem_cons, not_or] at hproto
    have hfresh : name ∉ result.map Prod.fst := by
      intro hmem
      exact (List.nodup_append.1 hnodup).2.2 name hmem name (by simp) rfl
    have hrest := hs.decodes (pre ++ part) post (result ++ [(name, w)]) (by simpa using hnodup) hproto.2
    rw [← JsObject.set_of_not_mem _ hfresh (Ne.symm hproto.1), List.append_assoc (pre ++ part)] at hrest
    rw [← List.append_assoc pre part, List.append_assoc (pre ++ part), udtFields, if_pos (offset_lt h.ne_nil),
      h.decodes]
    simp only [ok_bind, hrest]
    rw [JsObject.set_of_not_mem _ hfresh (Ne.symm hproto.1), List.append_assoc, List.singleton_append]

theorem roundTrips_udt {name : String} {fields : List (String × CqlType)} {props qs : List (String × Value)}
    {bs : List UInt8} (hfields : fields ≠ []) (hnodup : (fields.map Prod.fst).Nodup)
    (hproto : "__proto__" ∉ fields.map Prod.fst) (h : e.FieldsTrip fields props bs qs) :
    e.RoundTrips (.udt name fields) (.object props) bs (.object qs) where
  encodes := by
    rw [encode_eq_encodeType _ rfl (by simp), encodeType, h.encodes]
    rfl
  decodes := by
    have hdec := h.decodes [] [] [] (by simpa using hnodup) hproto
    rw [List.nil_append, List.append_nil, List.length_nil, Nat.cast_zero] at hdec
    rw [decode_eq_decodeType _ (h.ne_nil hfields), decodeType, hdec]
    rfl
  size n hn := by cases hn

/-- The elements, read back, are still different. -/
theorem ComparesAlike.distinct_map (hk : e.ComparesAlike) {t : CqlType} {vs : List Value} (h : e.Distinct vs)
    (hitems : ∀ x ∈ vs, e.WellTyped t x) : e.Distinct (vs.map (e.comesBack t)) := by
  rw [Distinct, List.pairwise_map]
  apply h.imp_of_mem
  intro a b ha hb hab
  exact hk t a b (hitems a ha) (hitems b hb) hab

mutual

theorem roundTrips (hv : 3 ≤ e.protocolVersion) (hk : e.ComparesAlike) : ∀ (t : CqlType) (v : Value),
    e.WellTyped t v → e.LengthsFit t v → e.RoundTrips t v (e.bytesOf t v) (e.comesBack t v)
  | .native _, v, ht, _ => by
      rw [WellTyped] at ht
      rw [comesBack]
      exact roundTrips_native ht
  | .list t, v, ht, hl => by
      rw [WellTyped] at ht
      rw [LengthsFit] at hl
      rw [comesBack]
      obtain ⟨vs, rfl, hne, hitems⟩ := ht
      refine (roundTrips_list hv hne hl.1 fun x hx => ?_).bytesOf
      exact itemFits hv hk t x (hitems x hx) (hl.2 x hx)
  | .set t, v, ht, hl => by
      rw [WellTyped] at ht
      rw [LengthsFit] at hl
      obtain ⟨vs, hvs, hne, hdistinct, hitems⟩ := ht
      have hval : v.items = vs := by
        obtain rfl | ⟨-, rfl⟩ := hvs
        · rfl
        · rfl
      rw [hval] at hl
      rw [comesBack, hval]
      refine (roundTrips_set hv hvs hne hl.1 (fun hset => hk.distinct_map (hdistinct hset) hitems)
        fun x hx => ?_).bytesOf
      exact itemFits hv hk t x (hitems x hx) (hl.2 x hx)
  | .map k t, v, ht, hl => by
      rw [WellTyped] at ht
      rw [LengthsFit] at hl
      rw [comesBack]
      obtain ⟨entries, rfl, hdistinct, hentries⟩ := ht
      have hkeys : ∀ x ∈ entries.map Prod.fst, e.WellTyped k x := by
        intro x hx
        obtain ⟨p, hp, rfl⟩ := List.mem_map.1 hx
        exact (hentries p hp).1
      have hback := hk.distinct_map hdistinct hkeys
      rw [List.map_map] at hback
      refine (roundTrips_map hv hl.1 hback fun p hp => ⟨?_, .inl ?_⟩).bytesOf
      · exact itemFits hv hk k p.1 (hentries p hp).1 (hl.2 p hp).1
      · exact itemFits hv hk t p.2 (hentries p hp).2 (hl.2 p hp).2
  | .tuple ts, v, ht, hl => by
      rw [WellTyped] at ht
      rw [LengthsFit] at hl
      rw [comesBack]
      obtain ⟨vs, rfl, hts, htuple⟩ := ht
      obtain ⟨bs, hbs⟩ := tuple_roundTrips hv hk ts vs htuple hl
      exact (roundTrips_tuple hts hbs).bytesOf
  | .udt name fields, v, ht, hl => by
      rw [WellTyped] at ht
      rw [LengthsFit] at hl
      rw [comesBack]
      obtain ⟨props, rfl, hfields, hnodup, hproto, -, hudt⟩ := ht
      obtain ⟨bs, hbs⟩ := fields_roundTrip hv hk fields props hudt hl
      exact (roundTrips_udt hfields hnodup hproto hbs).bytesOf
  | .vector t dimension, v, ht, hl => by
      rw [WellTyped] at ht
      rw [LengthsFit] at hl
      rw [comesBack]
      obtain ⟨vs, rfl, hd, hlen, hitems⟩ := ht
      refine (roundTrips_vector hlen hd fun x hx => ?_).bytesOf
      exact itemFits hv hk t x (hitems x hx) (hl x hx)
termination_by t => (sizeOf t, 0)

theorem itemFits (hv : 3 ≤ e.protocolVersion) (hk : e.ComparesAlike) : ∀ (t : CqlType) (v : Value),
    e.WellTyped t v → (e.bytesOf t v).length < 2 ^ 31 ∧ e.LengthsFit t v → e.ItemFits t v (e.comesBack t v)
  | t, v, ht, hl => ⟨isNullish_of_wellTyped ht, roundTrips hv hk t v ht hl.2, hl.1⟩
termination_by t => (sizeOf t, 1)

theorem tuple_roundTrips (hv : 3 ≤ e.protocolVersion) (hk : e.ComparesAlike) :
    ∀ (ts : List CqlType) (vs : List Value), e.WellTypedTuple ts vs → e.LengthsFitTuple ts vs →
      ∃ bs, e.TupleTrips ts vs bs (e.tupleComesBack ts vs)
  | [], vs, ht, _ => by
      rw [WellTypedTuple] at ht
      subst ht
      exact ⟨[], tupleTrips_nil⟩
  | t :: ts, vs, ht, hl => by
      rw [WellTypedTuple] at ht
      obtain ⟨v, ws, rfl, hvt, htuple⟩ := ht
      rw [LengthsFitTuple] at hl
      obtain ⟨parts, hparts⟩ := tuple_roundTrips hv hk ts ws htuple hl.2
      obtain ⟨part, hpart⟩ := field_trips hv hk t v hvt hl.1
      exact ⟨part ++ parts, tupleTrips_cons hpart hparts⟩
termination_by ts => (sizeOf ts, 0)

theorem field_trips (hv : 3 ≤ e.protocolVersion) (hk : e.ComparesAlike) : ∀ (t : CqlType) (v : Value),
    v.isMissing = true ∨ e.WellTyped t v → (e.bytesOf t v).length < 2 ^ 31 ∧ e.LengthsFit t v →
      ∃ part, e.FieldTrips t v part (if v.isMissing then .null else e.comesBack t v)
  | t, v, hvt, hl => by
      obtain hmissing | hwell := hvt
      · rw [if_pos hmissing]
        exact ⟨_, fieldTrips_missing t hmissing⟩
      · rw [isMissing_of_isNullish (isNullish_of_wellTyped hwell)]
        exact ⟨_, fieldTrips_framed (itemFits hv hk t v hwell hl)⟩
termination_by t => (sizeOf t, 2)

theorem fields_roundTrip (hv : 3 ≤ e.protocolVersion) (hk : e.ComparesAlike) :
    ∀ (fields : List (String × CqlType)) (props : List (String × Value)),
      e.WellTypedFields fields props → e.LengthsFitFields fields props →
      ∃ bs, e.FieldsTrip fields props bs (e.fieldsComeBack fields props)
  | [], props, _, _ => by
      rw [fieldsComeBack]
      exact ⟨[], fieldsTrip_nil props⟩
  | (name, t) :: fields, props, ht, hl => by
      rw [WellTypedFields] at ht
      rw [LengthsFitFields] at hl
      obtain ⟨parts, hparts⟩ := fields_roundTrip hv hk fields props ht.2 hl.2
      obtain ⟨part, hpart⟩ := field_trips hv hk t _ ht.1 hl.1
      rw [fieldsComeBack]
      exact ⟨part ++ parts, fieldsTrip_cons hpart hparts⟩
termination_by fields => (sizeOf fields, 0)

end

/-- What `encode` writes for a well-typed value, `decode` reads back. -/
theorem decode_encode_wellTyped (hv : 3 ≤ e.protocolVersion) (hk : e.ComparesAlike) (t : CqlType) (v : Value)
    (ht : e.WellTyped t v) (hl : e.LengthsFit t v) :
    ∃ bs, e.encode v t = .ok (.buffer bs) ∧ e.decode bs t = .ok (e.comesBack t v) :=
  have h := roundTrips hv hk t v ht hl
  ⟨_, h.encodes, h.decodes⟩

end RoundTrip

/-! ### The comparison of a native `Map` -/

/-- The comparison of a native `Map` or `Set`.  Two keys that are objects are different objects. -/
def sameValueZero : Value → Value → Bool
  | .undefined, .undefined | .null, .null | .unset, .unset => true
  | .number a, .number b => a == b
  | .boolean a, .boolean b => a == b
  | .string a, .string b => a == b
  | _, _ => false

theorem comparesAlike_sameValueZero {e : Encoder} (h : e.keyEq = sameValueZero) : e.ComparesAlike := by
  intro t a b ha hb hab
  rw [h] at hab ⊢
  cases t with
  | native t => rwa [comesBack, comesBack]
  | set t =>
      rw [comesBack, comesBack]
      split_ifs
      · rfl
      · rfl
  | _ =>
      rw [comesBack, comesBack]
      rfl

/-- An encoder with the native `Map`. -/
def nativeEncoder : Encoder where
  protocolVersion := 4
  useUndefinedAsUnset := true
  set := false
  keyEq := sameValueZero
  other _ _ := .error .other

def nestedType : CqlType :=
  .map (.native .int) (.list (.tuple [.native .boolean, .udt "point" [("x", .native .varint)], .native .blob]))

def nestedValue : Value :=
  .map [(.number 7, .array [.tuple [.boolean true, .object [], .undefined]])]

theorem decode_encode_nestedValue : ∃ bs, nativeEncoder.encode nestedValue nestedType = .ok (.buffer bs) ∧
    nativeEncoder.decode bs nestedType =
      .ok (.map [(.number 7, .array [.tuple [.boolean true, .object [("x", .null)], .null]])]) := by
  have hwell : nativeEncoder.WellTyped nestedType nestedValue := by
    simp [nestedType, nestedValue, WellTyped, WellTypedTuple, WellTypedFields, WellTypedNative, Distinct,
      Value.isMissing, fieldValue, JsObject.get, JsObject.prototypeNames, Fits]
  have hfit : nativeEncoder.LengthsFit nestedType nestedValue := by
    simp only [nestedType, nestedValue, LengthsFit, LengthsFitTuple, LengthsFitFields, Value.entries,
      Value.items, Value.props, List.forall_mem_singleton, and_true]
    decide
  exact decode_encode_wellTyped (by decide) (comparesAlike_sameValueZero rfl) nestedType nestedValue hwell hfit

end Encoder
end CqlDriver
