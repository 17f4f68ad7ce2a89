import CqlDriver.Lib.Bytes
import Mathlib.Data.List.DropRight

/-! # Arbitrary-precision integers and the varint codec (`lib/types/integer.js`)

An `Integer` is a list of 32-bit words, least significant first, and a sign word, which is `0` or
`-1`; the constructor drops the top words that equal the sign.  `toBuffer` and `fromBuffer` are
related through the integer that is denoted: `readInt_toBuffer`, `value_fromBuffer`, and
`eq_of_value_eq`, by which the words are determined by the value. -/

namespace CqlDriver

open Bytes MachineInt

/-- The sign word, `0` or `-1`. -/
def signWord (negative : Bool) : BitVec 32 := if negative then BitVec.allOnes 32 else 0

structure Integer where
  bits : List (BitVec 32)
  negative : Bool
  canonical : bits.getLast? ≠ some (signWord negative)
deriving DecidableEq

namespace Integer

/-- The constructor: the words at the top that equal the sign are pruned. -/
def new (bits : List (BitVec 32)) (negative : Bool) : Integer where
  bits := bits.rdropWhile (· == signWord negative)
  negative := negative
  canonical := by
    intro hlast
    have hne : bits.rdropWhile (· == signWord negative) ≠ [] := by
      rintro he
      simp [he] at hlast
    have hnot := List.rdropWhile_last_not (· == signWord negative) bits hne
    rw [List.getLast?_eq_some_getLast hne] at hlast
    simp [Option.some.inj hlast] at hnot

/-- The bytes pushed for the high word, without those that are zero at the top. -/
def highBytes (highBits : BitVec 32) : List UInt8 :=
  (if highBits >>> 24 > 0 then [UInt8.ofNat (highBits >>> 24).toNat] else []) ++
  (if highBits >>> 16 > 0 then [UInt8.ofNat (highBits >>> 16).toNat] else []) ++
  (if highBits >>> 8 > 0 then [UInt8.ofNat (highBits >>> 8).toNat] else []) ++
  [UInt8.ofNat highBits.toNat]

/-- A zero byte is put in front when the sign bit got lost. -/
def padHigh (high : List UInt8) : List UInt8 := if (high.headD 0) >>> 7 ≠ 0 then 0 :: high else high

def toBuffer (value : Integer) : List UInt8 :=
  match value.bits.getLast? with
  | none => [if value.negative then 255 else 0]
  | some top =>
      let high := padHigh (highBytes (if value.negative then ~~~top else top))
      high.map (fun b => if value.negative then ~~~b else b) ++
        value.bits.dropLast.reverse.flatMap fun group => toBE 4 group.toNat

/-- The top word of a buffer whose length is not a multiple of 4, from its first `offset` bytes. -/
def partialWord (buf : List UInt8) (negative : Bool) (offset : ℕ) : BitVec 32 :=
  let value := (List.range offset).foldl (fun value j =>
    let byte := if negative then ~~~(buf.getD j 0) else buf.getD j 0
    value ||| (BitVec.ofNat 32 byte.toNat <<< ((offset - j - 1) * 8))) 0
  if negative then ~~~value else value

/-- The word `i`, counted from the end of the buffer. -/
def word (buf : List UInt8) (negative : Bool) (i : ℕ) : BitVec 32 :=
  if buf.length < (i + 1) * 4 then partialWord buf negative (buf.length + 4 - (i + 1) * 4)
  else BitVec.ofNat 32 (ofBE ((buf.drop (buf.length - (i + 1) * 4)).take 4))

def isNegative (buf : List UInt8) : Bool := (buf.headD 0) &&& 128 ≠ 0

def fromBuffer (buf : List UInt8) : Integer :=
  new ((List.range ((buf.length + 3) / 4)).map (word buf (isNegative buf))) (isNegative buf)

/-! ### Values -/

/-- The integer denoted by a list of words above which the sign is repeated. -/
def wordsValue (negative : Bool) : List (BitVec 32) → ℤ
  | [] => if negative then -1 else 0
  | w :: ws => w.toNat + 2 ^ 32 * wordsValue negative ws

def value (n : Integer) : ℤ := wordsValue n.negative n.bits

theorem wordsValue_append_sign (negative : Bool) (ws : List (BitVec 32)) :
    wordsValue negative (ws ++ [signWord negative]) = wordsValue negative ws := by
  induction ws with
  | nil => cases negative <;> rfl
  | cons w ws ih => rw [List.cons_append, wordsValue, ih, wordsValue]

theorem wordsValue_rdropWhile (negative : Bool) (ws : List (BitVec 32)) :
    wordsValue negative (ws.rdropWhile (· == signWord negative)) = wordsValue negative ws := by
  induction ws using List.reverseRecOn with
  | nil => rfl
  | append_singleton ws w ih =>
      by_cases hw : w = signWord negative
      · subst hw
        rw [List.rdropWhile_concat_pos _ _ _ (by simp), ih, wordsValue_append_sign]
      · rw [List.rdropWhile_concat_neg _ _ _ (by simpa using hw)]

theorem value_new (ws : List (BitVec 32)) (negative : Bool) :
    (new ws negative).value = wordsValue negative ws := wordsValue_rdropWhile negative ws

/-- A list of words with the value of a sign consists of sign words. -/
theorem eq_nil_of_wordsValue {negative : Bool} {ws : List (BitVec 32)} (sign : Bool)
    (hc : ws.getLast? ≠ some (signWord negative))
    (h : wordsValue negative ws = if sign then -1 else 0) : ws = [] ∧ negative = sign := by
  induction ws with
  | nil =>
      refine ⟨rfl, ?_⟩
      cases negative <;> cases sign <;> simp [wordsValue] at h ⊢
  | cons w ws ih =>
      exfalso
      have hlt := w.isLt
      rw [wordsValue] at h
      have hrest : wordsValue negative ws = if sign then -1 else 0 := by
        split_ifs at h ⊢ <;> omega
      have hword : w = signWord sign := by
        apply BitVec.eq_of_toNat_eq
        rw [signWord]
        split_ifs at h ⊢ with hs
        · rw [BitVec.toNat_allOnes]
          omega
        · rw [hrest, if_neg hs] at h
          simpa using h
      have hc' : ws.getLast? ≠ some (signWord negative) := by
        cases ws with
        | nil => simp
        | cons v ws => simpa [List.getLast?_cons_cons] using hc
      obtain ⟨rfl, rfl⟩ := ih hc' hrest
      exact hc (by simp [hword])

/-- The words and the sign are determined by the value. -/
theorem words_eq_of_value_eq {n m : Bool} {ws vs : List (BitVec 32)}
    (hn : ws.getLast? ≠ some (signWord n)) (hm : vs.getLast? ≠ some (signWord m))
    (h : wordsValue n ws = wordsValue m vs) : ws = vs ∧ n = m := by
  induction ws generalizing vs with
  | nil =>
      obtain ⟨rfl, rfl⟩ := eq_nil_of_wordsValue n hm h.symm
      exact ⟨rfl, rfl⟩
  | cons w ws ih =>
      cases vs with
      | nil =>
          obtain ⟨hnil, -⟩ := eq_nil_of_wordsValue m hn h
          cases hnil
      | cons v vs =>
          have hw := w.isLt
          have hv := v.isLt
          rw [wordsValue, wordsValue] at h
          have hword : w = v := BitVec.eq_of_toNat_eq (by omega)
          have hn' : ws.getLast? ≠ some (signWord n) := by
            cases ws with
            | nil => simp
            | cons u ws => simpa [List.getLast?_cons_cons] using hn
          have hm' : vs.getLast? ≠ some (signWord m) := by
            cases vs with
            | nil => simp
            | cons u vs => simpa [List.getLast?_cons_cons] using hm
          obtain ⟨rfl, rfl⟩ := ih hn' hm' (by omega)
          exact ⟨by rw [hword], rfl⟩

theorem eq_of_value_eq {a b : Integer} (h : a.value = b.value) : a = b := by
  obtain ⟨as, n, ha⟩ := a
  obtain ⟨bs, m, hb⟩ := b
  obtain ⟨rfl, rfl⟩ := words_eq_of_value_eq ha hb h
  rfl

/-! ### Reading -/

theorem isNegative_cons (b : UInt8) (bs : List UInt8) : isNegative (b :: bs) = decide (128 ≤ b.toNat) := by
  have hall : ∀ n < 256, decide (UInt8.ofNat n &&& 128 ≠ 0) = decide (128 ≤ n) := by decide +kernel
  have := hall b.toNat b.toNat_lt
  rwa [UInt8.ofNat_toNat] at this

theorem isNegative_append {bs : List UInt8} (h : bs ≠ []) (cs : List UInt8) :
    isNegative (bs ++ cs) = isNegative bs := by
  obtain ⟨b, bs, rfl⟩ := List.exists_cons_of_ne_nil h
  rfl

/-- The signed number of a buffer, by its sign. -/
theorem readInt_eq {bs : List UInt8} (h : bs ≠ []) :
    readInt bs = ofBE bs + 256 ^ bs.length * if isNegative bs then -1 else 0 := by
  obtain ⟨b, bs, rfl⟩ := List.exists_cons_of_ne_nil h
  rw [readInt_cons, isNegative_cons]
  by_cases hb : 128 ≤ b.toNat
  · simp [hb]
    ring
  · simp [hb]

theorem shiftLeft_or_byte {x y k : ℕ} (hy : y < 2 ^ k) : x <<< k ||| y = x * 2 ^ k + y := by
  rw [← Nat.shiftLeft_add_eq_or_of_lt hy, Nat.shiftLeft_eq]

/-- The bytes of a partial word, put together. -/
theorem foldl_bytes : ∀ bs : List UInt8, bs.length < 4 →
    ((List.range bs.length).foldl (fun value j =>
      value ||| (BitVec.ofNat 32 (bs.getD j 0).toNat <<< ((bs.length - j - 1) * 8))) (0 : BitVec 32)).toNat =
      ofBE bs
  | [], _ => rfl
  | [a], _ => by
      have ha := a.toNat_lt
      simp [ofBE, List.range_succ]
  | [a, b], _ => by
      have ha := a.toNat_lt
      have hb := b.toNat_lt
      have hor := shiftLeft_or_byte (x := a.toNat) (y := b.toNat) (k := 8) (by omega)
      have hshift : a.toNat <<< 8 % 4294967296 = a.toNat <<< 8 := by
        rw [Nat.shiftLeft_eq]
        omega
      simp [ofBE, List.range_succ, Nat.mod_eq_of_lt (show a.toNat < 4294967296 by omega),
        Nat.mod_eq_of_lt (show b.toNat < 4294967296 by omega), hshift, hor]
  | [a, b, c], _ => by
      have ha := a.toNat_lt
      have hb := b.toNat_lt
      have hc := c.toNat_lt
      have hor₁ : a.toNat <<< 16 ||| b.toNat <<< 8 = (a.toNat * 256 + b.toNat) <<< 8 := by
        have hor := shiftLeft_or_byte (x := a.toNat) (y := b.toNat) (k := 8) (by omega)
        rw [show (256 : ℕ) = 2 ^ 8 from rfl, ← hor, Nat.shiftLeft_or_distrib, ← Nat.shiftLeft_add]
      have hor₂ := shiftLeft_or_byte (x := a.toNat * 256 + b.toNat) (y := c.toNat) (k := 8) (by omega)
      have hshift₁ : a.toNat <<< 16 % 4294967296 = a.toNat <<< 16 := by
        rw [Nat.shiftLeft_eq]
        omega
      have hshift₂ : b.toNat <<< 8 % 4294967296 = b.toNat <<< 8 := by
        rw [Nat.shiftLeft_eq]
        omega
      simp [ofBE, List.range_succ, Nat.mod_eq_of_lt (show a.toNat < 4294967296 by omega),
        Nat.mod_eq_of_lt (show b.toNat < 4294967296 by omega),
        Nat.mod_eq_of_lt (show c.toNat < 4294967296 by omega), hshift₁, hshift₂, hor₁, hor₂]

theorem toNat_partialWord (buf : List UInt8) (negative : Bool) {p : ℕ} (hp : p < 4) (hlen : p ≤ buf.length) :
    ((partialWord buf negative p).toNat : ℤ) =
      ofBE (buf.take p) + (2 ^ 32 - 256 ^ p) * if negative then 1 else 0 := by
  have hbytes : ∀ f : UInt8 → UInt8, ((List.range p).foldl (fun value j =>
        value ||| (BitVec.ofNat 32 (f (buf.getD j 0)).toNat <<< ((p - j - 1) * 8))) (0 : BitVec 32)).toNat =
        ofBE ((buf.take p).map f) := by
    intro f
    have h := foldl_bytes ((buf.take p).map f) (by simp; omega)
    have hl : ((buf.take p).map f).length = p := by simp; omega
    rw [hl] at h
    rw [← h]
    congr 1
    apply List.foldl_ext
    intro value j hj
    have hjp : j < p := List.mem_range.1 hj
    have hjl : j < buf.length := by omega
    simp [List.getD_eq_getElem?_getD, hjp, hjl]
  cases negative with
  | false =>
      have := hbytes id
      simp only [id, List.map_id] at this
      simp only [partialWord, Bool.false_eq_true, if_false, this, mul_zero, add_zero]
  | true =>
      have := hbytes (~~~·)
      have hnot := ofBE_map_not (buf.take p)
      have hl : (buf.take p).length = p := by simp; omega
      rw [hl] at hnot
      have hpow : (256 : ℕ) ^ p ≤ 2 ^ 32 := by interval_cases p <;> norm_num
      simp only [partialWord, if_true, BitVec.toNat_not, this]
      zify at hnot hpow
      push_cast
      omega

theorem partialWord_append (pre tail : List UInt8) (negative : Bool) {p : ℕ} (hp : p ≤ pre.length) :
    partialWord (pre ++ tail) negative p = partialWord pre negative p := by
  unfold partialWord
  rw [List.foldl_ext]
  intro value j hj
  have hjl : j < pre.length := (List.mem_range.1 hj).trans_le hp
  simp [List.getElem?_append_left hjl]

/-- The word at the end of a buffer, and those before it. -/
theorem words_append (pre : List UInt8) (tail : List UInt8) (htail : tail.length = 4)
    (negative : Bool) :
    (List.range (((pre ++ tail).length + 3) / 4)).map (word (pre ++ tail) negative) =
      BitVec.ofNat 32 (ofBE tail) :: (List.range ((pre.length + 3) / 4)).map (word pre negative) := by
  have hcount : ((pre ++ tail).length + 3) / 4 = (pre.length + 3) / 4 + 1 := by
    rw [List.length_append, htail]
    omega
  rw [hcount, List.range_succ_eq_map, List.map_cons, List.map_map]
  congr 1
  · have hdrop : (pre ++ tail).length - (0 + 1) * 4 = pre.length := by simp [htail]
    rw [word, if_neg (by simp [htail]), hdrop, List.drop_left, List.take_of_length_le (by omega)]
  · apply List.map_congr_left
    intro i hi
    have hi' : i < (pre.length + 3) / 4 := List.mem_range.1 hi
    simp only [Function.comp, word, List.length_append, htail]
    have hoff : pre.length + 4 - (i.succ + 1) * 4 = pre.length - (i + 1) * 4 := by omega
    by_cases hlt : pre.length < (i + 1) * 4
    · rw [if_pos (by omega), if_pos hlt]
      have hoff' : pre.length + 4 + 4 - (i.succ + 1) * 4 = pre.length + 4 - (i + 1) * 4 := by omega
      rw [hoff', partialWord_append _ _ _ (by omega)]
    · rw [if_neg (by omega), if_neg hlt, hoff, List.drop_append_of_le_length (by omega),
        List.take_append_of_le_length (by simp; omega)]

theorem wordsValue_words (negative : Bool) : ∀ (buf : List UInt8), buf ≠ [] → isNegative buf = negative →
    wordsValue negative ((List.range ((buf.length + 3) / 4)).map (word buf negative)) = readInt buf := by
  intro buf
  induction hn : buf.length using Nat.strong_induction_on generalizing buf with
  | _ n ih =>
      intro hbuf hneg
      subst hn
      have hpos := List.length_pos_of_ne_nil hbuf
      by_cases hshort : buf.length ≤ 4
      · have hcount : (buf.length + 3) / 4 = 1 := by omega
        rw [hcount, readInt_eq hbuf, hneg]
        simp only [List.range_one, List.map_singleton, wordsValue]
        by_cases h4 : buf.length = 4
        · have hlt := ofBE_lt buf
          rw [h4] at hlt
          rw [word, if_neg (by omega), h4, Nat.sub_self, List.drop_zero, List.take_of_length_le (by omega),
            BitVec.toNat_ofNat, Nat.mod_eq_of_lt (by omega)]
          norm_num
        · rw [word, if_pos (by omega), toNat_partialWord buf negative (by omega) (by omega)]
          rw [show buf.length + 4 - (0 + 1) * 4 = buf.length by omega, List.take_length]
          split_ifs <;> ring
      · set pre := buf.take (buf.length - 4) with hpre
        set tail := buf.drop (buf.length - 4) with htail
        have hsplit : buf = pre ++ tail := (List.take_append_drop _ _).symm
        have hlpre : pre.length = buf.length - 4 := by simp [hpre]
        have hltail : tail.length = 4 := by simp [htail]; omega
        have hne : pre ≠ [] := List.ne_nil_of_length_pos (by omega)
        have hneg' : isNegative pre = negative := by rw [← hneg, hsplit, isNegative_append hne]
        have hlt := ofBE_lt tail
        rw [hltail] at hlt
        have hrec := ih pre.length (by omega) pre rfl hne hneg'
        rw [hsplit, words_append pre tail hltail, wordsValue, hrec, readInt_append hne, hltail,
          BitVec.toNat_ofNat, Nat.mod_eq_of_lt (by omega)]
        ring

/-- `fromBuffer` denotes the two's complement number of the buffer. -/
theorem value_fromBuffer {buf : List UInt8} (h : buf ≠ []) : (fromBuffer buf).value = readInt buf := by
  rw [fromBuffer, value_new]
  exact wordsValue_words _ buf h rfl

/-! ### Writing -/

/-- The bytes of the high word reach up to its highest nonzero byte. -/
theorem highBytes_eq (u : BitVec 32) :
    ∃ k, u.toNat < 256 ^ (k + 1) ∧ (u.toNat ≠ 0 → 256 ^ k ≤ u.toNat) ∧ highBytes u = toBE (k + 1) u.toNat := by
  have hlt := u.isLt
  have hshift : ∀ k : ℕ, u >>> k > 0 ↔ 2 ^ k ≤ u.toNat := by
    intro k
    rw [gt_iff_lt, BitVec.lt_def, BitVec.toNat_ushiftRight, Nat.shiftRight_eq_div_pow]
    exact Nat.div_pos_iff.trans ⟨fun h => h.2, fun h => ⟨by positivity, h⟩⟩
  have hbyte : ∀ k j : ℕ, k = 8 * j → (u >>> k).toNat = u.toNat / 256 ^ j := by
    rintro _ j rfl
    rw [BitVec.toNat_ushiftRight, Nat.shiftRight_eq_div_pow, pow_mul]
    rfl
  simp only [highBytes, hshift, hbyte 24 3 rfl, hbyte 16 2 rfl, hbyte 8 1 rfl]
  by_cases h24 : 2 ^ 24 ≤ u.toNat
  · refine ⟨3, by omega, by omega, ?_⟩
    rw [if_pos h24, if_pos (by omega), if_pos (by omega), toBE_succ, toBE_succ, toBE_succ, toBE_succ]
    simp [toBE]
  · by_cases h16 : 2 ^ 16 ≤ u.toNat
    · refine ⟨2, by omega, by omega, ?_⟩
      rw [if_neg h24, if_pos h16, if_pos (by omega), toBE_succ, toBE_succ, toBE_succ]
      simp [toBE]
    · by_cases h8 : 2 ^ 8 ≤ u.toNat
      · refine ⟨1, by omega, by omega, ?_⟩
        rw [if_neg h24, if_neg h16, if_pos h8, toBE_succ, toBE_succ]
        simp [toBE]
      · refine ⟨0, by omega, by omega, ?_⟩
        rw [if_neg h24, if_neg h16, if_neg h8]
        simp [toBE]

theorem shiftRight_seven (b : UInt8) : b >>> 7 ≠ 0 ↔ 128 ≤ b.toNat := by
  have hall : ∀ n < 256, UInt8.ofNat n >>> 7 ≠ 0 ↔ 128 ≤ n := by decide +kernel
  have := hall b.toNat b.toNat_lt
  rwa [UInt8.ofNat_toNat] at this

/-- The padded bytes of the high word: the number and a clear sign bit. -/
theorem padHigh_spec (u : BitVec 32) :
    ∃ b bs, padHigh (highBytes u) = b :: bs ∧ b.toNat < 128 ∧ ofBE (b :: bs) = u.toNat := by
  obtain ⟨j, hlt, -, he⟩ := highBytes_eq u
  have hval : ofBE (toBE (j + 1) u.toNat) = u.toNat := ofBE_toBE_of_lt hlt
  rw [toBE_succ] at he hval
  rw [he, padHigh]
  by_cases hsign : UInt8.ofNat (u.toNat / 256 ^ j) >>> 7 ≠ 0
  · refine ⟨0, _, if_pos hsign, by decide, ?_⟩
    rw [ofBE_cons, hval]
    simp
  · refine ⟨_, _, if_neg hsign, ?_, hval⟩
    rw [shiftRight_seven] at hsign
    omega

theorem readInt_high (u : BitVec 32) (negative : Bool) :
    let high := (padHigh (highBytes u)).map fun b => if negative then ~~~b else b
    high ≠ [] ∧ readInt high = if negative then -1 - (u.toNat : ℤ) else u.toNat := by
  obtain ⟨b, bs, he, hb, hval⟩ := padHigh_spec u
  rw [he]
  refine ⟨by simp, ?_⟩
  cases negative with
  | false =>
      simp only [Bool.false_eq_true, if_false, List.map_id']
      rw [readInt_cons, if_neg (by omega), hval, sub_zero]
  | true =>
      have hnot := ofBE_map_not (b :: bs)
      have hfirst : (~~~b).toNat = 255 - b.toNat := by
        rw [UInt8.toNat_not]
        rfl
      simp only [if_true, List.map_cons] at hnot ⊢
      rw [readInt_cons, if_pos (by omega), List.length_map]
      rw [hval, List.length_cons] at hnot
      zify at hnot
      omega

theorem ofBE_flatMap_words (ws : List (BitVec 32)) (top : ℤ) :
    top * 256 ^ (ws.reverse.flatMap fun w => toBE 4 w.toNat).length +
        ofBE (ws.reverse.flatMap fun w => toBE 4 w.toNat) =
      ws.foldr (fun w acc => (w.toNat : ℤ) + 2 ^ 32 * acc) top := by
  induction ws generalizing top with
  | nil => simp
  | cons w ws ih =>
      have hw : ofBE (toBE 4 w.toNat) = w.toNat := ofBE_toBE_of_lt w.isLt
      rw [List.foldr_cons, ← ih, List.reverse_cons, List.flatMap_append, List.flatMap_singleton, ofBE_append,
        List.length_append, length_toBE, hw, pow_add]
      push_cast
      ring

theorem wordsValue_eq_foldr (negative : Bool) (ws : List (BitVec 32)) (top : BitVec 32) :
    wordsValue negative (ws ++ [top]) = ws.foldr (fun w acc => (w.toNat : ℤ) + 2 ^ 32 * acc)
      (top.toNat + 2 ^ 32 * if negative then -1 else 0) := by
  induction ws with
  | nil => rfl
  | cons w ws ih => rw [List.cons_append, wordsValue, ih, List.foldr_cons]

/-- `toBuffer` writes the two's complement of the value. -/
theorem readInt_toBuffer (n : Integer) : n.toBuffer ≠ [] ∧ readInt n.toBuffer = n.value := by
  obtain ⟨bits, negative, hc⟩ := n
  rcases List.eq_nil_or_concat' bits with rfl | ⟨ws, top, rfl⟩
  · cases negative with
    | false => exact ⟨by simp [toBuffer], by simp [toBuffer, value, wordsValue, readInt_cons, ofBE]⟩
    | true => exact ⟨by simp [toBuffer], by simp [toBuffer, value, wordsValue, readInt_cons, ofBE]⟩
  · set u := if negative then ~~~top else top with hu
    obtain ⟨hne, hhigh⟩ := readInt_high u negative
    have hbuf : toBuffer ⟨ws ++ [top], negative, hc⟩ =
        ((padHigh (highBytes u)).map fun b => if negative then ~~~b else b) ++
          ws.reverse.flatMap fun w => toBE 4 w.toNat := by
      simp [toBuffer, hu]
    have htop : (if negative then -1 - (u.toNat : ℤ) else u.toNat) =
        top.toNat + 2 ^ 32 * if negative then -1 else 0 := by
      have hlt := top.isLt
      rw [hu]
      split_ifs
      · rw [BitVec.toNat_not]
        omega
      · simp
    rw [hbuf]
    refine ⟨by simp [hne], ?_⟩
    rw [readInt_append hne, hhigh, ofBE_flatMap_words, htop, value, wordsValue_eq_foldr]

theorem fromBuffer_toBuffer (n : Integer) : fromBuffer n.toBuffer = n := by
  obtain ⟨hne, hval⟩ := readInt_toBuffer n
  exact eq_of_value_eq ((value_fromBuffer hne).trans hval)

end Integer
end CqlDriver
