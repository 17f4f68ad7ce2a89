import CqlDriver.EncoderRoundTrip
import CqlDriver.Lib.Fallible

/-! # Vectors of elements of a variable size

In front of each element stands its size, which `uvintUnpack` reads as a number of 32 bits.  `VectorRead` says
what `decodeVector` should make of a buffer, with `readUnsignedVInt` as the format of a size; `vectorRead_iff`
says of which buffers it does.  `CodeSplits` is how the loop cuts a buffer, `Splits` how the format does. -/

namespace CqlDriver.Encoder

open Bytes MachineInt VInt

/-! ### Buffers in elements -/

/-- The bytes of a size. -/
def IsSize (prefixBytes : List UInt8) (n : ℕ) : Prop :=
  ∃ x, readUnsignedVInt prefixBytes 0 = (x, prefixBytes.length) ∧ x.toNat = n

/-- The elements, each behind its size, make up the buffer. -/
def Splits : List (List UInt8) → List UInt8 → Prop
  | [], rest => rest = []
  | bs :: elements, rest =>
      ∃ prefixBytes rest', IsSize prefixBytes bs.length ∧ rest = prefixBytes ++ bs ++ rest' ∧ Splits elements rest'

/-- The elements as the sizes of `uvintUnpack` give them. -/
def CodeSplits : List (List UInt8) → List UInt8 → Prop
  | [], rest => rest = []
  | bs :: elements, rest =>
      ∃ s r : ℕ, uvintUnpack rest = (some (s : ℤ), r) ∧ r + s ≤ rest.length ∧ bs = (rest.drop r).take s ∧
        CodeSplits elements (rest.drop (r + s))

/-- In each pass the bytes of the size are inside the buffer, and the offset does not move back. -/
def StaysInside (decoder : List UInt8 → Except EncoderError Value) (bytes : List UInt8) : ℕ → Option ℤ → Prop
  | 0, _ => True
  | n + 1, offset =>
      ∃ o r s : ℕ, offset = some (o : ℤ) ∧
        uvintUnpack (subarray bytes offset (some bytes.length)) = (some (s : ℤ), r) ∧ o + r ≤ bytes.length ∧
        ∀ v, exceeds (some (o + r + s)) bytes = false →
          decoder (subarray bytes (some (o + r)) (some (o + r + s))) = .ok v →
          StaysInside decoder bytes n (some (o + r + s))

/-- A vector is read only from elements of the format, and nothing is read outside the buffer. -/
def VectorRead (e : Encoder) (n : ℕ) (bytes : List UInt8) : Prop :=
  ∀ t, serializationSizeIfFixed t = none →
    (∀ v, decodeVector none (e.decode · t) n bytes = .ok v → ∃ elements vs, elements.length = n ∧
      Splits elements bytes ∧ elements.mapM (e.decode · t) = .ok vs ∧ v = .vector vs) ∧
    StaysInside (e.decode · t) bytes n (some 0)

/-- The sizes that the loop comes to are inside the buffer and not negative. -/
def SizesInside : ℕ → List UInt8 → Prop
  | 0, _ => True
  | n + 1, rest =>
      ∃ s r : ℕ, uvintUnpack rest = (some (s : ℤ), r) ∧ r ≤ rest.length ∧
        (r + s ≤ rest.length → SizesInside n (rest.drop (r + s)))

/-- The two readers of a size agree in front of each element. -/
def Agree : ℕ → List UInt8 → Prop
  | 0, _ => True
  | n + 1, rest =>
      ∃ s r : ℕ, uvintUnpack rest = (some (s : ℤ), r) ∧ readUnsignedVInt rest 0 = (BitVec.ofNat 64 s, r) ∧
        Agree n (rest.drop (r + s))

/-! ### Sizes -/

theorem readUnsignedVInt_pack_start {k n : ℕ} (h : Packs k n) (post : List UInt8) :
    readUnsignedVInt (pack k n ++ post) 0 = (BitVec.ofNat 64 n, k + 1) := by
  have := readUnsignedVInt_pack h [] post
  simpa using this

theorem Packs.lt {k n : ℕ} (h : Packs k n) : n < 2 ^ 64 := by
  obtain ⟨hk, hlt⟩ := h
  rw [Nat.div_lt_iff_lt_mul (by positivity), show (256 : ℕ) = 2 ^ 8 from rfl, ← pow_mul, ← pow_add] at hlt
  exact hlt.trans_le (Nat.pow_le_pow_right (by norm_num) (by omega))

/-- A size, whole in its bytes, is a vint. -/
theorem IsSize.exists_pack {prefixBytes : List UInt8} {n : ℕ} (h : IsSize prefixBytes n) :
    ∃ k, Packs k n ∧ prefixBytes = pack k n := by
  obtain ⟨x, hread, hx⟩ := h
  cases prefixBytes with
  | nil =>
      have hone : (readUnsignedVInt [] 0).2 = 1 := rfl
      rw [hread] at hone
      cases hone
  | cons f fs =>
      obtain ⟨k, hk, b, hb, hpow, hf⟩ := exists_firstByte f
      have hlen := snd_readUnsignedVInt hk hb hpow hf fs
      rw [hread, List.length_cons, Nat.succ_inj] at hlen
      obtain ⟨m, hm, hpack⟩ := VInt.exists_pack hk hpow hf hlen.ge
      rw [List.drop_eq_nil_of_le hlen.le] at hpack
      rw [hpack, readUnsignedVInt_pack_start hm] at hread
      have hmx := congrArg BitVec.toNat (congrArg Prod.fst hread)
      rw [BitVec.toNat_ofNat, Nat.mod_eq_of_lt (Packs.lt hm), hx] at hmx
      subst hmx
      exact ⟨k, hm, by rw [hpack, List.append_nil]⟩

theorem isSize_pack {k n : ℕ} (h : Packs k n) : IsSize (pack k n) n := by
  have hread := readUnsignedVInt_pack_start h []
  rw [List.append_nil] at hread
  refine ⟨BitVec.ofNat 64 n, by rw [hread, length_pack], ?_⟩
  rw [BitVec.toNat_ofNat, Nat.mod_eq_of_lt (Packs.lt h)]

/-- Where the two readers agree there is a size of at most eight bytes. -/
theorem exists_pack_of_agree {rest : List UInt8} {s r : ℕ} (hunpack : uvintUnpack rest = (some (s : ℤ), r))
    (hread : readUnsignedVInt rest 0 = (BitVec.ofNat 64 s, r)) (hlen : r ≤ rest.length) :
    IsSize (rest.take r) s := by
  cases rest with
  | nil => cases hunpack
  | cons f fs =>
      obtain ⟨k, hk, b, hb, hpow, hf⟩ := exists_firstByte f
      have hr := snd_readUnsignedVInt hk hb hpow hf fs
      rw [hread] at hr
      rw [List.length_cons] at hlen
      dsimp only at hr
      have hfs : k ≤ fs.length := by omega
      obtain ⟨m, hm, hpack⟩ := VInt.exists_pack hk hpow hf hfs
      have hk7 : k ≤ 7 := by
        by_contra h8
        obtain rfl : k = 8 := by omega
        rw [hpack, uvintUnpack_pack_eight hm] at hunpack
        have := congrArg Prod.snd hunpack
        simp only at this
        omega
      rw [hpack, uvintUnpack_pack_wrap hk7 hm] at hunpack
      have hs : wrap 32 m = s := Option.some.inj (congrArg Prod.fst hunpack)
      have hslt : s < 2 ^ 64 := by
        have hhigh := Int.bmod_lt (x := (m : ℤ)) (m := 2 ^ 32) (by norm_num)
        change wrap 32 (m : ℤ) < _ at hhigh
        norm_num at hhigh ⊢
        omega
      rw [hpack, readUnsignedVInt_pack_start hm] at hread
      have hms := congrArg BitVec.toNat (congrArg Prod.fst hread)
      rw [BitVec.toNat_ofNat, BitVec.toNat_ofNat, Nat.mod_eq_of_lt (Packs.lt hm), Nat.mod_eq_of_lt hslt] at hms
      subst hms
      rw [hpack, hr, ← length_pack k m, List.take_left]
      exact isSize_pack hm

/-! ### The loop -/

section Loop

variable {decoder : List UInt8 → Except EncoderError Value} {pre rest : List UInt8} {s r : ℕ}

theorem subarray_rest (pre rest : List UInt8) :
    subarray (pre ++ rest) (some (pre.length : ℤ)) (some ((pre ++ rest).length : ℤ)) = rest := by
  have h := subarray_append pre rest []
  rwa [List.append_nil] at h

theorem subarray_element (h : r + s ≤ rest.length) :
    subarray (pre ++ rest) (some (pre.length + r : ℤ)) (some (pre.length + r + s : ℤ)) = (rest.drop r).take s := by
  have hsub := subarray_append (pre ++ rest.take r) ((rest.drop r).take s) (rest.drop (r + s))
  have hbytes : pre ++ rest.take r ++ (rest.drop r).take s ++ rest.drop (r + s) = pre ++ rest := by
    rw [List.append_assoc, List.append_assoc, ← List.drop_drop, List.take_append_drop, List.take_append_drop]
  have hr : (rest.take r).length = r := List.length_take_of_le (by omega)
  have hs : ((rest.drop r).take s).length = s := List.length_take_of_le (by rw [List.length_drop]; omega)
  rw [hbytes, List.length_append, List.length_append, List.length_append, hr, hs] at hsub
  push_cast at hsub
  exact hsub

theorem exceeds_eq_false_iff :
    exceeds (some (pre.length + r + s : ℤ)) (pre ++ rest) = false ↔ r + s ≤ rest.length := by
  rw [exceeds, decide_eq_false_iff_not, List.length_append]
  omega

theorem offset_eq (h : r + s ≤ rest.length) :
    (pre.length + r + s : ℤ) = ((pre ++ rest.take (r + s)).length : ℕ) := by
  rw [List.length_append, List.length_take_of_le h]
  push_cast
  ring

theorem vectorItems_step (hunpack : uvintUnpack rest = (some (s : ℤ), r)) (h : r + s ≤ rest.length) (n : ℕ) :
    vectorItems none decoder (pre ++ rest) (n + 1) (some (pre.length : ℤ)) = (do
      let v ← decoder ((rest.drop r).take s)
      let (vs, offset) ← vectorItems none decoder (pre ++ rest) n (some ((pre ++ rest.take (r + s)).length : ℤ))
      .ok (v :: vs, offset)) := by
  rw [vectorItems, elementBounds, subarray_rest, hunpack]
  simp only [addOffset, Option.bind_some, Option.map_some, exceeds_eq_false_iff.2 h, Bool.false_eq_true, if_false,
    subarray_element h]
  rw [offset_eq h]

theorem vectorItems_tooShort (hunpack : uvintUnpack rest = (some (s : ℤ), r)) (h : ¬ r + s ≤ rest.length) (n : ℕ) :
    vectorItems none decoder (pre ++ rest) (n + 1) (some (pre.length : ℤ)) = .error .vectorTooShort := by
  have hexceeds : exceeds (some (pre.length + r + s : ℤ)) (pre ++ rest) = true := by
    rw [← Bool.not_eq_false]
    exact fun hfalse => h (exceeds_eq_false_iff.1 hfalse)
  rw [vectorItems, elementBounds, subarray_rest, hunpack]
  simp only [addOffset, Option.bind_some, Option.map_some, hexceeds, if_true]

/-- A vector is read from the elements that the code cuts out. -/
theorem codeSplits_of_vectorItems {n : ℕ} (hin : SizesInside n rest) {vs : List Value}
    (h : vectorItems none decoder (pre ++ rest) n (some (pre.length : ℤ)) =
      .ok (vs, some ((pre ++ rest).length : ℤ))) :
    ∃ elements, elements.length = n ∧ CodeSplits elements rest ∧ elements.mapM decoder = .ok vs := by
  induction n generalizing pre rest vs with
  | zero =>
      rw [vectorItems, Except.ok.injEq, Prod.mk.injEq, Option.some.injEq, List.length_append] at h
      have hrest : rest = [] := List.length_eq_zero_iff.1 (by omega)
      rw [← h.1]
      exact ⟨[], rfl, hrest, rfl⟩
  | succ n ih =>
      obtain ⟨s, r, hunpack, -, hin⟩ := hin
      by_cases hle : r + s ≤ rest.length
      · rw [vectorItems_step hunpack hle] at h
        obtain ⟨v, hv, h⟩ := Fallible.bind_eq_ok h
        obtain ⟨⟨ws, offset⟩, hws, h⟩ := Fallible.bind_eq_ok h
        simp only [Except.ok.injEq, Prod.mk.injEq] at h
        obtain ⟨rfl, rfl⟩ := h
        have hbytes : pre ++ rest = pre ++ rest.take (r + s) ++ rest.drop (r + s) := by
          rw [List.append_assoc, List.take_append_drop]
        rw [hbytes] at hws
        obtain ⟨elements, hlen, hsplits, hmap⟩ := ih (hin hle) hws
        refine ⟨(rest.drop r).take s :: elements, by rw [List.length_cons, hlen],
          ⟨s, r, hunpack, hle, rfl, hsplits⟩, ?_⟩
        rw [List.mapM_cons, hv, hmap]
        rfl
      · rw [vectorItems_tooShort hunpack hle] at h
        cases h

theorem vectorItems_of_codeSplits {elements : List (List UInt8)} (h : CodeSplits elements rest) {vs : List Value}
    (hvs : elements.mapM decoder = .ok vs) :
    vectorItems none decoder (pre ++ rest) elements.length (some (pre.length : ℤ)) =
      .ok (vs, some ((pre ++ rest).length : ℤ)) := by
  induction elements generalizing pre rest vs with
  | nil =>
      rw [CodeSplits] at h
      cases hvs
      rw [h, List.append_nil]
      rfl
  | cons bs elements ih =>
      obtain ⟨s, r, hunpack, hle, rfl, hsplits⟩ := h
      rw [List.mapM_cons] at hvs
      obtain ⟨v, hv, hvs⟩ := Fallible.bind_eq_ok hvs
      obtain ⟨ws, hws, hvs⟩ := Fallible.bind_eq_ok hvs
      cases hvs
      have hbytes : pre ++ rest = pre ++ rest.take (r + s) ++ rest.drop (r + s) := by
        rw [List.append_assoc, List.take_append_drop]
      rw [List.length_cons, vectorItems_step hunpack hle, hv, ok_bind, hbytes, ih hsplits hws]
      rfl

theorem staysInside_of_sizesInside {n : ℕ} (h : SizesInside n rest) :
    StaysInside decoder (pre ++ rest) n (some (pre.length : ℤ)) := by
  induction n generalizing pre rest with
  | zero => trivial
  | succ n ih =>
      obtain ⟨s, r, hunpack, hr, h⟩ := h
      refine ⟨pre.length, r, s, rfl, by rw [subarray_rest, hunpack], by rw [List.length_append]; omega, ?_⟩
      intro v hexceeds _
      have hle := exceeds_eq_false_iff.1 hexceeds
      have hbytes : pre ++ rest = pre ++ rest.take (r + s) ++ rest.drop (r + s) := by
        rw [List.append_assoc, List.take_append_drop]
      rw [offset_eq hle, hbytes]
      exact ih (h hle)

/-- A decoder that never throws comes to every pass. -/
theorem sizesInside_of_staysInside (hdec : ∀ bs, ∃ v, decoder bs = .ok v) {n : ℕ}
    (h : StaysInside decoder (pre ++ rest) n (some (pre.length : ℤ))) : SizesInside n rest := by
  induction n generalizing pre rest with
  | zero => trivial
  | succ n ih =>
      obtain ⟨o, r, s, ho, hunpack, hr, h⟩ := h
      obtain rfl : pre.length = o := by exact_mod_cast Option.some.inj ho
      rw [subarray_rest] at hunpack
      rw [List.length_append] at hr
      refine ⟨s, r, hunpack, by omega, fun hle => ?_⟩
      obtain ⟨v, hv⟩ := hdec (subarray (pre ++ rest) (some (pre.length + r)) (some (pre.length + r + s)))
      have hnext := h v (exceeds_eq_false_iff.2 hle) hv
      have hbytes : pre ++ rest = pre ++ rest.take (r + s) ++ rest.drop (r + s) := by
        rw [List.append_assoc, List.take_append_drop]
      rw [offset_eq hle, hbytes] at hnext
      exact ih hnext

end Loop

/-! ### The two ways to cut a buffer -/

theorem splits_of_agree {elements : List (List UInt8)} {rest : List UInt8} (h : CodeSplits elements rest)
    (hagree : Agree elements.length rest) : Splits elements rest := by
  induction elements generalizing rest with
  | nil => exact h
  | cons bs elements ih =>
      obtain ⟨s, r, hunpack, hle, rfl, hsplits⟩ := h
      obtain ⟨s', r', hunpack', hread, hagree⟩ := hagree
      rw [hunpack, Prod.mk.injEq, Option.some.injEq, Nat.cast_inj] at hunpack'
      obtain ⟨rfl, rfl⟩ := hunpack'
      have hlen : ((rest.drop r).take s).length = s := List.length_take_of_le (by rw [List.length_drop]; omega)
      refine ⟨rest.take r, rest.drop (r + s), ?_, ?_, ih hsplits hagree⟩
      · rw [hlen]
        exact exists_pack_of_agree hunpack hread (by omega)
      · rw [List.append_assoc, ← List.drop_drop, List.take_append_drop, List.take_append_drop]

theorem pack_ne_nil (k n : ℕ) : pack k n ≠ [] := List.cons_ne_nil _ _

/-- Of the nine bytes of a size the ninth is taken for the size of another element. -/
theorem codeSplits_pack_eight {elements : List (List UInt8)} {rest : List UInt8}
    (hcode : CodeSplits elements (pack 8 0 ++ rest)) :
    ∃ elements', elements = [] :: [] :: elements' ∧ CodeSplits elements' rest := by
  have height : uvintUnpack (pack 8 0 ++ rest) = (some ((0 : ℕ) : ℤ), 8) :=
    uvintUnpack_pack_eight (.of_lt (by norm_num)) rest
  have hone : uvintUnpack (0 :: rest) = (some ((0 : ℕ) : ℤ), 1) := rfl
  cases elements with
  | nil => exact absurd (List.append_eq_nil_iff.1 hcode).1 (pack_ne_nil 8 0)
  | cons bs elements =>
      obtain ⟨s, r, hunpack, -, rfl, hcode⟩ := hcode
      rw [height, Prod.mk.injEq, Option.some.injEq, Nat.cast_inj] at hunpack
      obtain ⟨rfl, rfl⟩ := hunpack
      have hdrop : (pack 8 0 ++ rest).drop (8 + 0) = 0 :: rest := rfl
      rw [hdrop] at hcode
      cases elements with
      | nil => cases hcode
      | cons bs elements =>
          obtain ⟨s, r, hunpack, -, rfl, hcode⟩ := hcode
          rw [hone, Prod.mk.injEq, Option.some.injEq, Nat.cast_inj] at hunpack
          obtain ⟨rfl, rfl⟩ := hunpack
          exact ⟨elements, rfl, hcode⟩

/-- An empty element of the format is one or two empty elements of the code. -/
theorem codeSplits_pack_zero {k : ℕ} (h : Packs k 0) {elements : List (List UInt8)} {rest : List UInt8}
    (hcode : CodeSplits elements (pack k 0 ++ rest)) :
    ∃ elements', (elements = [] :: elements' ∨ elements = [] :: [] :: elements') ∧ CodeSplits elements' rest := by
  by_cases hk : k ≤ 7
  · have hzero : uvintUnpack (pack k 0 ++ rest) = (some ((0 : ℕ) : ℤ), k + 1) := uvintUnpack_pack_wrap hk h rest
    cases elements with
    | nil => exact absurd (List.append_eq_nil_iff.1 hcode).1 (pack_ne_nil k 0)
    | cons bs elements =>
        obtain ⟨s, r, hunpack, -, rfl, hcode⟩ := hcode
        rw [hzero, Prod.mk.injEq, Option.some.injEq, Nat.cast_inj] at hunpack
        obtain ⟨rfl, rfl⟩ := hunpack
        rw [Nat.add_zero, ← length_pack k 0, List.drop_left] at hcode
        exact ⟨elements, .inl rfl, hcode⟩
  · obtain rfl : k = 8 := by have := h.1; omega
    obtain ⟨elements', helements, hcode⟩ := codeSplits_pack_eight hcode
    exact ⟨elements', .inr helements, hcode⟩

/-- Once the code has found an empty element too many, it has one too many at the end. -/
theorem not_splits_replicate : ∀ (m j : ℕ) (elements : List (List UInt8)) (rest : List UInt8),
    elements.length ≤ m → CodeSplits elements rest → ¬ Splits (List.replicate (j + 1) [] ++ elements) rest
  | m, j, elements, rest, hm, hcode, hsplits => by
      rw [List.replicate_succ, List.cons_append] at hsplits
      obtain ⟨prefixBytes, rest', hsize, rfl, hsplits⟩ := hsplits
      obtain ⟨k, hpacks, rfl⟩ := hsize.exists_pack
      rw [List.length_nil] at hpacks hcode
      rw [List.append_nil] at hcode
      obtain ⟨elements', helements, hcode'⟩ := codeSplits_pack_zero hpacks hcode
      cases m with
      | zero =>
          rw [Nat.le_zero, List.length_eq_zero_iff] at hm
          simp [hm] at helements
      | succ m =>
          obtain rfl | rfl := helements
          · rw [List.length_cons] at hm
            apply not_splits_replicate m j elements' rest' (by omega) hcode'
            rwa [List.replicate_succ', List.append_assoc]
          · rw [List.length_cons, List.length_cons] at hm
            apply not_splits_replicate m (j + 1) elements' rest' (by omega) hcode'
            rwa [List.replicate_succ', List.replicate_succ', List.append_assoc, List.append_assoc]

theorem agree_of_splits {elements : List (List UInt8)} {rest : List UInt8} (hcode : CodeSplits elements rest)
    (hsplits : Splits elements rest) : Agree elements.length rest := by
  induction elements generalizing rest with
  | nil => trivial
  | cons bs elements ih =>
      obtain ⟨prefixBytes, rest', hsize, rfl, hsplits⟩ := hsplits
      obtain ⟨k, hpacks, rfl⟩ := hsize.exists_pack
      rw [List.append_assoc] at hcode ⊢
      have hcode' := hcode
      obtain ⟨s, r, hunpack, hle, hbs, hrest⟩ := hcode'
      have hlen : bs.length = s := by
        rw [hbs, List.length_take, List.length_drop]
        omega
      by_cases hk : k ≤ 7
      · rw [uvintUnpack_pack_wrap hk hpacks, Prod.mk.injEq] at hunpack
        obtain ⟨hs, rfl⟩ := hunpack
        refine ⟨s, k + 1, by rw [uvintUnpack_pack_wrap hk hpacks, hs], ?_, ?_⟩
        · rw [readUnsignedVInt_pack_start hpacks, hlen]
        · have hdrop : (pack k bs.length ++ (bs ++ rest')).drop (k + 1 + s) = rest' := by
            rw [← List.append_assoc, ← hlen, ← length_pack k bs.length, ← List.length_append, List.drop_left]
          rw [hdrop] at hrest ⊢
          exact ih hrest hsplits
      · obtain rfl : k = 8 := by have := hpacks.1; omega
        -- with the sizes of both readers the element is empty
        rw [uvintUnpack_pack_eight hpacks, Prod.mk.injEq, Option.some.injEq, hlen] at hunpack
        have hsmall : s < 2 ^ 31 := by
          have hhigh := Int.bmod_lt (x := ((s / 256 : ℕ) : ℤ)) (m := 2 ^ 32) (by norm_num)
          change wrap 32 ((s / 256 : ℕ) : ℤ) < _ at hhigh
          rw [hunpack.1] at hhigh
          norm_num at hhigh
          omega
        have hzero : s = 0 := by
          have hs := hunpack.1
          rw [wrap32_eq_self (by omega) (by omega), Nat.cast_inj] at hs
          omega
        obtain rfl : bs = [] := List.length_eq_zero_iff.1 (hlen.trans hzero)
        obtain ⟨elements', helements, hcode'⟩ := codeSplits_pack_eight hcode
        obtain rfl := List.tail_eq_of_cons_eq helements
        exact absurd hsplits (not_splits_replicate _ 0 elements' rest' le_rfl hcode')

/-! ### The exact condition -/

/-- Blobs are read whatever their bytes. -/
theorem decode_blob (e : Encoder) (bs : List UInt8) : e.decode bs (.native .blob) = .ok (.buffer bs) := by
  rw [decode, decodeWith_of_ne_nil fun _ => rfl, decodeType]
  rfl

/-- A vector is read as it should be exactly if all sizes are inside the buffer and not negative, and the
readers of sizes agree if these add up to the buffer. -/
theorem vectorRead_iff (e : Encoder) (n : ℕ) (bytes : List UInt8) : e.VectorRead n bytes ↔
    SizesInside n bytes ∧ ∀ elements, elements.length = n → CodeSplits elements bytes → Agree n bytes := by
  constructor
  · intro h
    have hblob := h (.native .blob) rfl
    have hin : SizesInside n bytes :=
      @sizesInside_of_staysInside _ [] bytes (fun bs => ⟨_, decode_blob e bs⟩) n hblob.2
    refine ⟨hin, fun elements hlen hcode => ?_⟩
    subst hlen
    by_cases hnil : elements = []
    · rw [hnil]
      trivial
    have hmap (xs : List (List UInt8)) : xs.mapM (e.decode · (.native .blob)) = .ok (xs.map .buffer) := by
      have := @Fallible.mapM_map_eq_ok _ _ _ _ (e.decode · (.native .blob)) id Value.buffer xs
      rw [List.map_id] at this
      exact this.2 fun bs _ => decode_blob e bs
    have hitems := @vectorItems_of_codeSplits _ [] _ _ hcode _ (hmap elements)
    rw [List.nil_append, List.length_nil, Nat.cast_zero] at hitems
    have hread : decodeVector none (e.decode · (.native .blob)) elements.length bytes =
        .ok (.vector (elements.map .buffer)) := by
      rw [decodeVector, hitems, ok_bind]
      simp [hnil]
    obtain ⟨elements', vs, -, hsplits, hvs, heq⟩ := hblob.1 _ hread
    rw [hmap] at hvs
    obtain rfl : elements = elements' := by
      cases hvs
      have hmaps := Value.vector.inj heq
      exact List.map_injective_iff.2 (fun a b hab => Value.buffer.inj hab) hmaps
    exact agree_of_splits hcode hsplits
  · rintro ⟨hin, hagree⟩ t -
    refine ⟨fun v hv => ?_, @staysInside_of_sizesInside _ [] _ _ hin⟩
    rw [decodeVector] at hv
    obtain ⟨⟨vs, offset⟩, hitems, hv⟩ := Fallible.bind_eq_ok hv
    dsimp only at hv
    split_ifs at hv with hoffset hempty
    cases hv
    rw [not_not] at hoffset
    rw [hoffset] at hitems
    obtain ⟨elements, hlen, hcode, hmap⟩ := @codeSplits_of_vectorItems _ [] _ _ hin _ hitems
    refine ⟨elements, vs, hlen, splits_of_agree hcode ?_, hmap, rfl⟩
    rw [hlen]
    exact hagree elements hlen hcode

/-- A size of 2^32 is read as zero. -/
theorem not_vectorRead_twoPow32 : ¬ ∀ (e : Encoder) (n : ℕ) (bytes : List UInt8), 1 ≤ n → e.VectorRead n bytes := by
  intro hall
  have hread : decodeVector none (nativeEncoder.decode · (.native .blob)) 1 [0xf8, 1, 0, 0, 0, 0] =
      .ok (.vector [.buffer []]) := rfl
  obtain ⟨elements, vs, hlen, hsplits, -⟩ :=
    (hall nativeEncoder 1 [0xf8, 1, 0, 0, 0, 0] le_rfl (.native .blob) rfl).1 _ hread
  obtain ⟨bs, rfl⟩ := List.length_eq_one_iff.1 hlen
  obtain ⟨prefixBytes, rest', hsize, hbytes, -⟩ := hsplits
  obtain ⟨k, hpacks, rfl⟩ := hsize.exists_pack
  have hshort := congrArg List.length hbytes
  simp only [List.length_append, List.length_cons, List.length_nil] at hshort
  have hvalue : (readUnsignedVInt [0xf8, 1, 0, 0, 0, 0] 0).1.toNat = 4294967296 := by decide
  rw [hbytes, List.append_assoc, readUnsignedVInt_pack_start hpacks, BitVec.toNat_ofNat,
    Nat.mod_eq_of_lt (Packs.lt hpacks)] at hvalue
  omega

end CqlDriver.Encoder
