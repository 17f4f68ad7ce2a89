import CqlDriver.InetAddress
import CqlDriver.Lib.JsString

/-! # Texts that `fromString` reads

`fromString` fills an uninitialised buffer from its start.  `spell` is the sequence of bytes that the parts
of a text stand for, `parseParts_eq` says that the loop writes it over the buffer, and `length_spelled` that
a text with an empty part spells at least the 16 bytes of an address while one without spells two for each
part.  From these `wellRead_iff` says of which texts the address does not depend on the old contents of the
buffer, and the text is well formed. -/

namespace CqlDriver.InetAddress

open Bytes Digits

/-! ### The bytes that a text spells -/

/-- The number that `parseInt(item, 16)` reads; `NaN` is written as zero. -/
def groupValue (item : List Char) : ℕ := (parseHex item).getD 0

/-- The bytes that the parts stand for, with the variables `filling` and `applied` of the loop. -/
def spell (embeddedIp4 : Bool) : ℤ → Bool → List (List Char) → List UInt8
  | _, _, [] => []
  | filling, applied, item :: items =>
      if item.isEmpty then
        let filling := if applied then 1 else filling
        List.replicate (2 * filling.toNat) 0 ++ spell embeddedIp4 filling true items
      else if embeddedIp4 ∧ items = [] then octets (item.splitOn '.')
      else toBE 2 (groupValue item) ++ spell embeddedIp4 filling applied items

/-- Every group is a number of two bytes, and it and the embedded address end inside the buffer.  Zeros may
be written behind it. -/
def Fits (embeddedIp4 : Bool) : ℕ → ℤ → Bool → List (List Char) → Prop
  | _, _, _, [] => True
  | offset, filling, applied, item :: items =>
      if item.isEmpty then
        let filling := if applied then 1 else filling
        Fits embeddedIp4 (offset + 2 * filling.toNat) filling true items
      else if embeddedIp4 ∧ items = [] then offset + (octets (item.splitOn '.')).length ≤ 16
      else groupValue item ≤ 65535 ∧ offset + 2 ≤ 16 ∧ Fits embeddedIp4 (offset + 2) filling applied items

theorem fill_overlay (alloc done : List UInt8) (n : ℕ) :
    fill (overlay alloc done) done.length n =
      (overlay alloc (done ++ List.replicate (2 * n) 0), done.length + 2 * n) := by
  induction n generalizing done with
  | zero => simp [fill]
  | succ n ih =>
      have hset : setZero (setZero (overlay alloc done) done.length) (done.length + 1) =
          overlay alloc (done ++ [0, 0]) := by
        have hlen : done.length + 1 = (done ++ [(0 : UInt8)]).length := by simp
        rw [setZero, setZero, set_overlay, hlen, set_overlay, List.append_assoc]
        rfl
      have hlen : done.length + 2 = (done ++ [(0 : UInt8), 0]).length := by simp
      rw [fill, hset, hlen, ih, List.append_assoc, List.length_append]
      simp [Nat.mul_succ, List.replicate_succ, Nat.add_assoc, Nat.add_comm 2]

theorem writeItems_overlay (alloc done : List UInt8) {bs : List UInt8} (hbs : bs ≠ []) :
    writeItems (overlay alloc done) done.length bs =
      if done.length + bs.length ≤ alloc.length then .ok (overlay alloc (done ++ bs)) else .error .rangeError := by
  induction bs generalizing done with
  | nil => exact absurd rfl hbs
  | cons b bs ih =>
      rw [writeItems, length_overlay]
      by_cases hlt : done.length < alloc.length
      · have hlen : done.length + 1 = (done ++ [b]).length := by simp
        rw [if_pos hlt, write_overlay (by simpa using hlt), hlen]
        by_cases hnil : bs = []
        · subst hnil
          rw [writeItems, if_pos (by simpa using hlt)]
        · have hsum : (done ++ [b]).length + bs.length = done.length + (b :: bs).length := by
            simp only [List.length_append, List.length_cons, List.length_nil]
            omega
          rw [ih (done ++ [b]) hnil, hsum, List.append_assoc, List.singleton_append]
      · rw [if_neg hlt, if_neg (by rw [List.length_cons]; omega)]

theorem octets_ne_nil (item : List Char) : octets (item.splitOn '.') ≠ [] := by
  rw [octets, ne_eq, List.map_eq_nil_iff]
  exact List.splitOn_ne_nil '.' item

/-- The loop writes the bytes that the parts spell, unless a group or the embedded address does not fit. -/
theorem parseParts_eq {alloc : List UInt8} (halloc : alloc.length = 16) (embeddedIp4 : Bool)
    (parts : List (List Char)) (done : List UInt8) (filling : ℤ) (applied : Bool) :
    (Fits embeddedIp4 done.length filling applied parts →
      parseParts embeddedIp4 ⟨overlay alloc done, done.length, filling, applied⟩ parts =
        .ok (overlay alloc (done ++ spell embeddedIp4 filling applied parts))) ∧
    (¬ Fits embeddedIp4 done.length filling applied parts →
      parseParts embeddedIp4 ⟨overlay alloc done, done.length, filling, applied⟩ parts =
        .error .rangeError) := by
  induction parts generalizing done filling applied with
  | nil =>
      refine ⟨fun _ => ?_, fun h => absurd trivial h⟩
      rw [parseParts, spell, List.append_nil]
  | cons item items ih =>
      by_cases hempty : item.isEmpty = true
      · simp only [parseParts, Fits, spell, hempty, if_true, parseEmpty, fill_overlay]
        have hlen (n : ℕ) : done.length + 2 * n = (done ++ List.replicate (2 * n) (0 : UInt8)).length := by simp
        rw [hlen, ← List.append_assoc]
        exact ih _ _ _
      by_cases htail : embeddedIp4 = true ∧ items = []
      · simp only [parseParts, Fits, spell, hempty, htail, and_self, if_true, if_false, Bool.false_eq_true]
        rw [writeItems_overlay alloc done (octets_ne_nil item), halloc]
        exact ⟨fun hfits => if_pos hfits, fun hfits => if_neg hfits⟩
      · simp only [parseParts, Fits, spell, hempty, htail, if_false, Bool.false_eq_true, writeUInt16BE,
          length_overlay, halloc]
        by_cases hwrite : groupValue item ≤ 65535 ∧ done.length + 2 ≤ 16
        · have hlen : done.length + 2 = (done ++ toBE 2 (groupValue item)).length := by simp
          obtain ⟨hvalue, hroom⟩ := hwrite
          rw [← groupValue, if_pos ⟨hvalue, hroom⟩]
          simp only [hvalue, hroom, true_and]
          rw [write_overlay (by rw [length_toBE, halloc]; exact hroom), hlen, ← List.append_assoc]
          exact ih _ _ _
        · rw [← groupValue, if_neg hwrite]
          refine ⟨fun hfits => absurd ⟨hfits.1, hfits.2.1⟩ hwrite, fun _ => rfl⟩

/-! ### Lengths -/

/-- The last part is an embedded address if one is announced. -/
def TailSpec (embeddedIp4 : Bool) (parts : List (List Char)) : Prop :=
  embeddedIp4 = true → parts ≠ [] → ipv4Pattern (parts.getLastD []) = true

theorem TailSpec.tail {embeddedIp4 : Bool} {item : List Char} {items : List (List Char)}
    (h : TailSpec embeddedIp4 (item :: items)) : TailSpec embeddedIp4 items := by
  intro he hne
  have := h he (List.cons_ne_nil _ _)
  obtain ⟨x, xs, rfl⟩ := List.exists_cons_of_ne_nil hne
  simpa [List.getLastD_cons] using this

theorem length_octets {item : List Char} (h : ipv4Pattern item = true) :
    (octets (item.splitOn '.')).length = 4 := by
  rw [ipv4Pattern, Bool.and_eq_true, beq_iff_eq] at h
  rw [octets, List.length_map, h.1]

theorem ne_nil_of_ipv4Pattern {item : List Char} (h : ipv4Pattern item = true) : item ≠ [] := by
  rintro rfl
  exact absurd h (by decide)

/-- The zero groups for some empty parts. -/
def zeroGroups (filling : ℤ) (applied : Bool) (gaps : ℕ) : ℕ :=
  if gaps = 0 then 0 else (if applied then 1 else filling.toNat) + (gaps - 1)

theorem zeroGroups_succ (filling : ℤ) (applied : Bool) (gaps : ℕ) :
    zeroGroups filling applied (gaps + 1) = (if applied then 1 else filling).toNat + gaps := by
  cases applied with
  | false => simp [zeroGroups]
  | true => simp [zeroGroups]

theorem zeroGroups_applied (filling : ℤ) (gaps : ℕ) : zeroGroups filling true gaps = gaps := by
  cases gaps with
  | zero => rfl
  | succ gaps =>
      rw [zeroGroups_succ, if_pos rfl, Int.toNat_one]
      omega

/-- Two bytes for each group, four for an embedded address. -/
theorem length_spell {embeddedIp4 : Bool} {parts : List (List Char)} (htail : TailSpec embeddedIp4 parts)
    (filling : ℤ) (applied : Bool) :
    (spell embeddedIp4 filling applied parts).length + 2 * parts.count [] =
      2 * (parts.length + (if embeddedIp4 = true ∧ parts ≠ [] then 1 else 0) +
        zeroGroups filling applied (parts.count [])) := by
  induction parts generalizing filling applied with
  | nil => simp [spell, zeroGroups]
  | cons item items ih =>
      have ih := ih htail.tail
      have hcons : (embeddedIp4 = true ∧ item :: items ≠ []) ↔ embeddedIp4 = true := by simp
      rw [if_congr hcons rfl rfl]
      by_cases hempty : item = []
      · -- an empty part is not the last one when there is an embedded address
        subst hempty
        have hcond : (embeddedIp4 = true ∧ items ≠ []) ↔ embeddedIp4 = true := by
          rw [and_iff_left_iff_imp]
          rintro he rfl
          exact absurd (htail he (by simp)) (by decide)
        have := ih (if applied then 1 else filling) true
        rw [if_congr hcond rfl rfl, zeroGroups_applied] at this
        rw [List.count_cons_self, zeroGroups_succ, List.length_cons]
        simp only [spell, List.isEmpty_nil, if_true, List.length_append, List.length_replicate]
        omega
      have hne : item.isEmpty = false := by simpa using hempty
      have hcount : (item :: items).count [] = items.count [] := List.count_cons_of_ne hempty
      rw [hcount, List.length_cons]
      by_cases hlast : embeddedIp4 = true ∧ items = []
      · obtain ⟨he, rfl⟩ := hlast
        have hfour := length_octets (htail he (by simp))
        simp only [List.getLastD_cons, List.getLastD_nil] at hfour
        simp [spell, hne, he, hfour, zeroGroups]
      · have := ih filling applied
        have hcond : (embeddedIp4 = true ∧ items ≠ []) ↔ embeddedIp4 = true := by
          rw [and_iff_left_iff_imp]
          exact fun he hnil => hlast ⟨he, hnil⟩
        rw [if_congr hcond rfl rfl] at this
        simp only [spell, hne, hlast, Bool.false_eq_true, if_false, List.length_append, length_toBE]
        omega

/-! ### Groups -/

/-- The parts up to the last one that is not empty. -/
def upToLastGroup : List (List Char) → List (List Char)
  | [] => []
  | item :: items =>
      if item.isEmpty && (upToLastGroup items).isEmpty then [] else item :: upToLastGroup items

/-- The parts that are neither empty nor an embedded address. -/
def groupsIn (embeddedIp4 : Bool) : List (List Char) → List (List Char)
  | [] => []
  | item :: items =>
      if item.isEmpty ∨ embeddedIp4 = true ∧ items = [] then groupsIn embeddedIp4 items
      else item :: groupsIn embeddedIp4 items

theorem upToLastGroup_eq_self {embeddedIp4 : Bool} (he : embeddedIp4 = true) {parts : List (List Char)}
    (htail : TailSpec embeddedIp4 parts) : upToLastGroup parts = parts := by
  induction parts with
  | nil => rfl
  | cons item items ih =>
      rw [upToLastGroup, ih htail.tail, if_neg]
      intro hempty
      simp only [Bool.and_eq_true, List.isEmpty_iff] at hempty
      obtain ⟨rfl, rfl⟩ := hempty
      exact absurd (htail he (by simp)) (by decide)

/-- Everything fits if the numbers do, and the text up to the last group. -/
theorem fits_iff {embeddedIp4 : Bool} {parts : List (List Char)} (htail : TailSpec embeddedIp4 parts)
    (offset : ℕ) (filling : ℤ) (applied : Bool) :
    Fits embeddedIp4 offset filling applied parts ↔
      (∀ g ∈ groupsIn embeddedIp4 parts, groupValue g ≤ 65535) ∧
        (upToLastGroup parts = [] ∨
          offset + (spell embeddedIp4 filling applied (upToLastGroup parts)).length ≤ 16) := by
  induction parts generalizing offset filling applied with
  | nil => simp [Fits, groupsIn, upToLastGroup]
  | cons item items ih =>
      have ih := ih htail.tail
      by_cases hempty : item = []
      · subst hempty
        have hgroups : groupsIn embeddedIp4 ([] :: items) = groupsIn embeddedIp4 items := by
          simp [groupsIn]
        simp only [Fits, List.isEmpty_nil, if_true, ih, hgroups, upToLastGroup, Bool.true_and]
        by_cases hnil : upToLastGroup items = []
        · simp [hnil]
        · have hfalse : (upToLastGroup items).isEmpty = false := by simpa using hnil
          simp only [hnil, hfalse, Bool.false_eq_true, if_false, false_or, reduceCtorEq, spell, List.isEmpty_nil,
            if_true, List.length_append, List.length_replicate, Nat.add_assoc]
      have hne : item.isEmpty = false := by simpa using hempty
      have hcut : upToLastGroup (item :: items) = item :: upToLastGroup items := by
        simp [upToLastGroup, hne]
      by_cases hlast : embeddedIp4 = true ∧ items = []
      · obtain ⟨he, rfl⟩ := hlast
        simp [Fits, groupsIn, upToLastGroup, spell, hne, he]
      · have hlast' : ¬ (embeddedIp4 = true ∧ upToLastGroup items = []) := by
          rintro ⟨he, hnil⟩
          rw [upToLastGroup_eq_self he htail.tail] at hnil
          exact hlast ⟨he, hnil⟩
        have hgroups : groupsIn embeddedIp4 (item :: items) = item :: groupsIn embeddedIp4 items := by
          rw [groupsIn, if_neg]
          simpa [hne] using hlast
        rw [hcut, hgroups]
        simp only [Fits, spell, hne, hlast, hlast', Bool.false_eq_true, if_false, ih, List.forall_mem_cons,
          List.length_append, length_toBE, reduceCtorEq, false_or]
        constructor
        · rintro ⟨hvalue, hroom, hvalues, hfits⟩
          refine ⟨⟨hvalue, hvalues⟩, ?_⟩
          obtain hnil | hfits := hfits
          · rw [hnil, spell, List.length_nil]
            omega
          · omega
        · rintro ⟨⟨hvalue, hvalues⟩, hfits⟩
          exact ⟨hvalue, by omega, hvalues, .inr (by omega)⟩

/-! ### The parts of a text -/

/-- The parts between colons. -/
def partsOf (text : List Char) : List (List Char) := text.splitOn ':'

/-- The last part is an IPv4 address. -/
def embedded (text : List Char) : Bool := ipv4Pattern ((partsOf text).getLastD [])

/-- The number of parts; an embedded address counts for two. -/
def size (text : List Char) : ℕ := (partsOf text).length + if embedded text then 1 else 0

/-- The number of empty parts. -/
def gaps (text : List Char) : ℕ := (partsOf text).count []

/-- The bytes that a list of parts of the text spells; the first empty one stands for what is missing to
nine parts. -/
def spelled (text : List Char) (parts : List (List Char)) : List UInt8 :=
  spell (embedded text) (9 - size text) false parts

theorem partsOf_ne_nil (text : List Char) : partsOf text ≠ [] := List.splitOn_ne_nil ':' text

theorem tailSpec (text : List Char) : TailSpec (embedded text) (partsOf text) := fun h _ => h

theorem gaps_le (text : List Char) : gaps text ≤ (partsOf text).length := List.count_le_length

/-- A text without empty part spells two bytes for each part, one with an empty part at least 16. -/
theorem length_spelled (text : List Char) : (spelled text (partsOf text)).length =
    if gaps text = 0 then 2 * size text else 2 * max 8 (size text - 1) := by
  have hlen := length_spell (tailSpec text) (9 - size text) false
  have hle := gaps_le text
  have hcond : (embedded text = true ∧ partsOf text ≠ []) ↔ embedded text = true :=
    and_iff_left (partsOf_ne_nil text)
  have hsize : size text = (partsOf text).length + if embedded text = true then 1 else 0 := rfl
  have hpos : 0 < (partsOf text).length := List.length_pos_iff.2 (partsOf_ne_nil text)
  rw [if_congr hcond rfl rfl, ← hsize] at hlen
  change (spelled text (partsOf text)).length + 2 * gaps text = 2 * (size text + zeroGroups _ false (gaps text)) at hlen
  split_ifs with hgaps
  · rw [hgaps] at hlen
    simpa [zeroGroups] using hlen
  · obtain ⟨n, hn⟩ := Nat.exists_eq_succ_of_ne_zero hgaps
    rw [hn, zeroGroups_succ, if_neg (by decide)] at hlen
    omega

/-! ### Accepted texts -/

/-- The text gets to the loop over the parts. -/
def IsParsed (text : List Char) : Prop :=
  text.isEmpty = false ∧ ipv4Pattern text = false ∧ ipv6Pattern text = true ∧ 3 ≤ (partsOf text).length

/-- The start of an address with an embedded IPv4 address. -/
def mappedStart : List UInt8 := List.replicate 10 0 ++ [255, 255]

/-- No group is more than two bytes, and no group or embedded address ends behind the buffer. -/
structure InBounds (text : List Char) : Prop where
  values : ∀ g ∈ groupsIn (embedded text) (partsOf text), groupValue g ≤ 65535
  length : (spelled text (upToLastGroup (partsOf text))).length ≤ 16

/-- What the text spells before an embedded address is not something else than zeros and `ffff`. -/
structure Readable (text : List Char) : Prop extends InBounds text where
  mapped : embedded text = true →
    (spelled text (partsOf text)).take 12 = mappedStart.take (spelled text (partsOf text)).length

theorem take_twelve {buffer : List UInt8} (h : buffer.length = 16) :
    buffer.take 12 = buffer.take 10 ++ [byte buffer 10, byte buffer 11] := by
  have hsplit : buffer.take (10 + 2) = buffer.take 10 ++ (buffer.drop 10).take 2 := List.take_add ..
  have hdrop : buffer.drop 10 = byte buffer 10 :: byte buffer 11 :: buffer.drop 12 := by
    rw [byte_eq (by omega : 10 < buffer.length), byte_eq (by omega : 11 < buffer.length),
      ← List.drop_eq_getElem_cons, ← List.drop_eq_getElem_cons]
  rw [hsplit, hdrop]
  rfl

theorem isValidIPv4Mapped_iff {buffer : List UInt8} (h : buffer.length = 16) :
    isValidIPv4Mapped buffer = true ↔ buffer.take 12 = mappedStart := by
  have hlen : (buffer.take 10).length = 10 := by rw [List.length_take, h]; rfl
  have hzero : (buffer.take 10).all (· == 0) = true ↔ buffer.take 10 = List.replicate 10 0 := by
    rw [List.all_eq_true, List.eq_replicate_iff, hlen]
    simp
  have hten : buffer.length - 6 = 10 := by omega
  rw [isValidIPv4Mapped, hten, take_twelve h, mappedStart, Bool.and_eq_true, Bool.and_eq_true, hzero, beq_iff_eq,
    beq_iff_eq]
  constructor
  · rintro ⟨⟨hstart, hten⟩, heleven⟩
    rw [hstart, hten, heleven]
  · intro heq
    obtain ⟨hstart, hrest⟩ := List.append_inj heq (by rw [hlen]; rfl)
    simp only [List.cons.injEq, and_true] at hrest
    exact ⟨⟨hstart, hrest.1⟩, hrest.2⟩

/-- The message for an embedded address behind other bytes. -/
def onlyMapped : Error :=
  .typeError ("Only IPv4-Mapped IPv6 addresses are allowed as IPv6 address " ++
    "with embedded IPv4 address")

theorem filling_eq (text : List Char) :
    (8 : ℤ) - (partsOf text).length + 1 - (if embedded text = true then 1 else 0) = 9 - size text := by
  unfold size
  split_ifs <;> push_cast <;> ring

/-- The result for a text that gets to the loop. -/
theorem fromString_eq_of_isParsed {text : List Char} (h : IsParsed text) (alloc : Vector UInt8 16) :
    (InBounds text → fromString alloc text =
        if embedded text = true ∧ (overlay alloc.toList (spelled text (partsOf text))).take 12 ≠ mappedStart then
          .error onlyMapped
        else new (overlay alloc.toList (spelled text (partsOf text)))) ∧
    (¬ InBounds text → fromString alloc text = .error .rangeError) := by
  obtain ⟨hne, hipv4, hipv6, hlen⟩ := h
  have halloc : alloc.toList.length = 16 := by simp
  have hloop := parseParts_eq halloc (embedded text) (partsOf text) [] (9 - size text) false
  rw [overlay_nil, List.nil_append, List.length_nil, fits_iff (tailSpec text)] at hloop
  have hbounds : ((∀ g ∈ groupsIn (embedded text) (partsOf text), groupValue g ≤ 65535) ∧
      (upToLastGroup (partsOf text) = [] ∨
        0 + (spell (embedded text) (9 - size text) false (upToLastGroup (partsOf text))).length ≤ 16)) ↔
      InBounds text := by
    constructor
    · rintro ⟨hvalues, hnil | hle⟩
      · exact ⟨hvalues, by rw [spelled, hnil]; simp [spell]⟩
      · exact ⟨hvalues, by rw [spelled]; omega⟩
    · rintro ⟨hvalues, hle⟩
      exact ⟨hvalues, .inr (by rw [spelled] at hle; omega)⟩
  rw [hbounds] at hloop
  have hunfold : fromString alloc text = (do
      let buffer ← parseParts (embedded text) ⟨alloc.toList, 0, 9 - size text, false⟩ (partsOf text)
      if embedded text && !isValidIPv4Mapped buffer then .error onlyMapped else new buffer) := by
    rw [← filling_eq]
    unfold fromString
    rw [hne, hipv4, hipv6, if_neg (by decide), if_neg (by decide), if_neg (by decide)]
    dsimp only
    rw [← partsOf, if_neg (by omega)]
    rfl
  rw [hunfold]
  constructor
  · intro hin
    have hvalid := isValidIPv4Mapped_iff
      ((length_overlay alloc.toList (spelled text (partsOf text))).trans halloc)
    rw [hloop.1 hin, ← spelled]
    refine if_congr ?_ rfl rfl
    rw [Bool.and_eq_true, Bool.not_eq_true', ← Bool.not_eq_true, hvalid]
  · intro hin
    rw [hloop.2 hin]
    rfl

/-! ### The old contents of the buffer -/

/-- The text stops before the end of the address. -/
def Short (text : List Char) : Prop := gaps text = 0 ∧ size text < 8

theorem short_iff (text : List Char) : (spelled text (partsOf text)).length < 16 ↔ Short text := by
  rw [length_spelled, Short]
  split_ifs with hgaps
  · omega
  · omega

/-- Contents that suit an embedded address, with a last byte. -/
def mappedAlloc (b : UInt8) : Vector UInt8 16 := ⟨(mappedStart ++ [0, 0, 0, b]).toArray, by rfl⟩

/-- What is spelled agrees with the start of the contents, and so does the whole. -/
theorem take_overlay_mappedAlloc {sp : List UInt8} (h : sp.take 12 = mappedStart.take sp.length) (b : UInt8) :
    (overlay (mappedAlloc b).toList sp).take 12 = mappedStart := by
  have hstart : (mappedAlloc b).toList.take 12 = mappedStart := by rfl
  rw [take_overlay sp (by simp), hstart, h, List.take_append_drop]

/-- What is spelled is the start of what is written. -/
theorem take_eq_of_take_overlay {buf sp : List UInt8} (hbuf : buf.length = 16)
    (h : (overlay buf sp).take 12 = mappedStart) : sp.take 12 = mappedStart.take sp.length := by
  rw [take_overlay sp (by omega)] at h
  have hpre : sp.take 12 <+: mappedStart := by
    rw [← h]
    exact List.prefix_append _ _
  have heq := List.prefix_iff_eq_take.1 hpre
  have hlen : mappedStart.length = 12 := rfl
  rw [heq, List.length_take]
  by_cases hle : sp.length ≤ 12
  · rw [min_eq_right hle]
  · rw [min_eq_left (by omega), List.take_of_length_le (by omega), List.take_of_length_le (by omega)]

theorem Readable.fromString_mappedAlloc {text : List Char} (h : IsParsed text) (hr : Readable text) (b : UInt8) :
    fromString (mappedAlloc b) text = new (overlay (mappedAlloc b).toList (spelled text (partsOf text))) := by
  rw [(fromString_eq_of_isParsed h _).1 hr.toInBounds, if_neg]
  rintro ⟨he, hne⟩
  exact hne (take_overlay_mappedAlloc (hr.mapped he) b)

open Classical in
/-- A text that is not readable is refused, whatever the contents of the buffer. -/
theorem fromString_of_not_readable {text : List Char} (h : IsParsed text) (hr : ¬ Readable text)
    (alloc : Vector UInt8 16) :
    fromString alloc text = .error (if InBounds text then onlyMapped else .rangeError) := by
  obtain ⟨hin, hout⟩ := fromString_eq_of_isParsed h alloc
  by_cases hbounds : InBounds text
  · rw [if_pos hbounds, hin hbounds, if_pos]
    have hmapped := mt (fun hmapped => Readable.mk hbounds hmapped) hr
    rw [Classical.not_imp] at hmapped
    exact ⟨hmapped.1, fun htake => hmapped.2 (take_eq_of_take_overlay (by simp) htake)⟩
  · rw [if_neg hbounds, hout hbounds]

theorem new_ok {buffer : List UInt8} (h : buffer.length = 16) : new buffer = .ok ⟨buffer, .inr h⟩ :=
  dif_pos (.inr h)

/-- The result depends on the contents of the buffer exactly for the texts that are read and stop early. -/
theorem fromString_congr_iff {text : List Char} (h : IsParsed text) :
    (∀ alloc alloc', fromString alloc text = fromString alloc' text) ↔ ¬ (Readable text ∧ Short text) := by
  constructor
  · rintro hall ⟨hr, hshort⟩
    have heq := hall (mappedAlloc 0) (mappedAlloc 1)
    have hlt := (short_iff text).2 hshort
    rw [hr.fromString_mappedAlloc h, hr.fromString_mappedAlloc h, new_ok (by simp), new_ok (by simp)] at heq
    have hbuffers := congrArg buffer (Except.ok.inj heq)
    simp only at hbuffers
    rw [overlay_of_ge (by simp; omega), overlay_of_ge (by simp; omega)] at hbuffers
    -- the last byte is not written
    have hlast := congrArg List.getLast? (List.append_cancel_left hbuffers)
    rw [List.getLast?_drop, List.getLast?_drop, if_neg (by simpa using hlt), if_neg (by simpa using hlt)] at hlast
    exact absurd hlast (by decide)
  · intro hnot alloc alloc'
    by_cases hr : Readable text
    · have hlen : 16 ≤ (spelled text (partsOf text)).length := by
        by_contra hlt
        exact hnot ⟨hr, (short_iff text).1 (by omega)⟩
      rw [(fromString_eq_of_isParsed h alloc).1 hr.toInBounds,
        (fromString_eq_of_isParsed h alloc').1 hr.toInBounds, overlay_of_le (by simpa using hlen),
        overlay_of_le (by simpa using hlen)]
      simp only [Vector.length_toList]
    · rw [fromString_of_not_readable h hr, fromString_of_not_readable h hr]

/-! ### Well-formed texts -/

/-- A hexadecimal number below 65536. -/
def IsGroup (g : List Char) : Prop := g ≠ [] ∧ (∀ c ∈ g, (hexValue c).isSome = true) ∧ groupValue g < 65536

/-- Groups, of which the last one may be an IPv4 address. -/
def AreGroups (ps : List (List Char)) : Prop :=
  ∀ (i : ℕ) (p : List Char), ps[i]? = some p → IsGroup p ∨ i + 1 = ps.length ∧ ipv4Pattern p = true

/-- The number of groups; an IPv4 address counts for two. -/
def groupCount (ps : List (List Char)) : ℕ := ps.length + if ipv4Pattern (ps.getLastD []) then 1 else 0

/-- The parts on one side of `::`; without groups there is an empty one. -/
def side (ps : List (List Char)) : List (List Char) := if ps = [] then [[]] else ps

/-- Eight groups, or at most seven with one `::`. -/
def WellFormed (text : List Char) : Prop :=
  (AreGroups (partsOf text) ∧ groupCount (partsOf text) = 8) ∨
    ∃ left right, partsOf text = side left ++ [] :: side right ∧ (∀ g ∈ left, IsGroup g) ∧ AreGroups right ∧
      left.length + groupCount right ≤ 7

/-- The address does not depend on the old contents of the buffer, and an IPv6 text that is accepted is well
formed. -/
def WellRead (text : List Char) : Prop :=
  (∀ alloc alloc', fromString alloc text = fromString alloc' text) ∧
    (text ≠ [] → ipv4Pattern text = false → ∀ alloc a, fromString alloc text = .ok a → WellFormed text)

/-- A dot that is not in an embedded address. -/
def StrayDot (text : List Char) : Prop := ∃ g ∈ groupsIn (embedded text) (partsOf text), '.' ∈ g

/-- There are empty parts that no single `::` explains. -/
def StrayColon (text : List Char) : Prop :=
  0 < gaps text ∧ ¬ ∃ left right, partsOf text = side left ++ [] :: side right ∧ [] ∉ left ∧ [] ∉ right

/-- There is a `::` and no group is missing. -/
def Overfull (text : List Char) : Prop := 0 < gaps text ∧ 7 < size text - gaps text

/-- The parser reads a text that it should refuse. -/
structure Misread (text : List Char) : Prop where
  isParsed : IsParsed text
  readable : Readable text
  kind : Short text ∨ StrayDot text ∨ StrayColon text ∨ Overfull text

theorem IsGroup.dot_not_mem {g : List Char} (h : IsGroup g) : '.' ∉ g := by
  intro hdot
  exact absurd (h.2.1 '.' hdot) (by decide)

theorem mem_groupsIn_iff {embeddedIp4 : Bool} {parts : List (List Char)} {g : List Char} :
    g ∈ groupsIn embeddedIp4 parts ↔
      g ≠ [] ∧ ∃ i, parts[i]? = some g ∧ ¬ (embeddedIp4 = true ∧ i + 1 = parts.length) := by
  induction parts with
  | nil => simp [groupsIn]
  | cons item items ih =>
      have hcons : (∃ i, (item :: items)[i]? = some g ∧ ¬ (embeddedIp4 = true ∧ i + 1 = (item :: items).length)) ↔
          (item = g ∧ ¬ (embeddedIp4 = true ∧ items = [])) ∨
            ∃ i, items[i]? = some g ∧ ¬ (embeddedIp4 = true ∧ i + 1 = items.length) := by
        constructor
        · rintro ⟨i, hi, hnot⟩
          cases i with
          | zero =>
              refine .inl ⟨by simpa using hi, fun hlast => hnot ⟨hlast.1, ?_⟩⟩
              rw [hlast.2]
              rfl
          | succ i => exact .inr ⟨i, by simpa using hi, by simpa using hnot⟩
        · rintro (⟨rfl, hnot⟩ | ⟨i, hi, hnot⟩)
          · refine ⟨0, rfl, fun hlast => hnot ⟨hlast.1, ?_⟩⟩
            simpa using hlast.2
          · exact ⟨i + 1, by simpa using hi, by simpa using hnot⟩
      rw [hcons, groupsIn]
      split_ifs with hskip
      · rw [ih]
        apply and_congr_right
        intro hne
        rw [iff_or_self]
        rintro ⟨rfl, hnot⟩
        rcases hskip with hempty | hlast
        · exact absurd (List.isEmpty_iff.1 hempty) hne
        · exact absurd hlast hnot
      · rw [not_or] at hskip
        have hne : item ≠ [] := fun hnil => hskip.1 (List.isEmpty_iff.2 hnil)
        rw [List.mem_cons, ih]
        constructor
        · rintro (rfl | ⟨hg, hi⟩)
          · exact ⟨hne, .inl ⟨rfl, hskip.2⟩⟩
          · exact ⟨hg, .inr hi⟩
        · rintro ⟨hg, ⟨rfl, -⟩ | hi⟩
          · exact .inl rfl
          · exact .inr ⟨hg, hi⟩

/-- The last part. -/
theorem embedded_eq_of_getElem? {text p : List Char} {i : ℕ} (hi : (partsOf text)[i]? = some p)
    (hlast : i + 1 = (partsOf text).length) : embedded text = ipv4Pattern p := by
  have heq : (partsOf text).getLastD [] = p := by
    rw [List.getLastD_eq_getLast?, List.getLast?_eq_getElem?, ← hlast, Nat.add_sub_cancel, hi, Option.getD_some]
  rw [embedded, heq]

/-- A part that is not empty is a group of the text, or its embedded address. -/
theorem mem_groupsIn_or {text p : List Char} {i : ℕ} (hi : (partsOf text)[i]? = some p) (hne : p ≠ []) :
    p ∈ groupsIn (embedded text) (partsOf text) ∨ i + 1 = (partsOf text).length ∧ ipv4Pattern p = true := by
  by_cases hlast : embedded text = true ∧ i + 1 = (partsOf text).length
  · refine .inr ⟨hlast.2, ?_⟩
    rw [← embedded_eq_of_getElem? hi hlast.2]
    exact hlast.1
  · exact .inl (mem_groupsIn_iff.2 ⟨hne, i, hi, hlast⟩)

/-- The groups of a text that is read are numbers if they have no dot. -/
theorem Readable.isGroup {text : List Char} (hr : Readable text) (h : IsParsed text) (hdot : ¬ StrayDot text)
    {g : List Char} (hg : g ∈ groupsIn (embedded text) (partsOf text)) : IsGroup g := by
  obtain ⟨hne, i, hi, -⟩ := mem_groupsIn_iff.1 hg
  have hvalue := hr.values g hg
  refine ⟨hne, fun c hc => ?_, by omega⟩
  obtain ⟨htext, hcolon⟩ := JsString.of_mem_splitOn (List.mem_of_getElem? hi) hc
  have hpattern := h.2.2.1
  rw [ipv6Pattern, Bool.and_eq_true] at hpattern
  have hchar := List.all_eq_true.1 hpattern.2 c htext
  simp only [Bool.or_eq_true, beq_iff_eq] at hchar
  obtain (hhex | hcolon') | hdot' := hchar
  · exact hhex
  · exact absurd hcolon' hcolon
  · exact absurd ⟨g, hg, hdot' ▸ hc⟩ hdot

/-- A text whose parts are groups, empty or a last IPv4 address has no other dot. -/
theorem not_strayDot {text : List Char} (h : ∀ (i : ℕ) (p : List Char), (partsOf text)[i]? = some p → p ≠ [] →
    IsGroup p ∨ i + 1 = (partsOf text).length ∧ ipv4Pattern p = true) : ¬ StrayDot text := by
  rintro ⟨g, hg, hdot⟩
  obtain ⟨hne, i, hi, hnot⟩ := mem_groupsIn_iff.1 hg
  obtain hgroup | ⟨hlast, hipv4⟩ := h i g hi hne
  · exact hgroup.dot_not_mem hdot
  · exact hnot ⟨(embedded_eq_of_getElem? hi hlast).trans hipv4, hlast⟩

theorem upToLastGroup_of_nil_not_mem {parts : List (List Char)} (h : [] ∉ parts) : upToLastGroup parts = parts := by
  induction parts with
  | nil => rfl
  | cons item items ih =>
      obtain ⟨hne, hitems⟩ := List.ne_and_not_mem_of_not_mem_cons h
      rw [upToLastGroup, ih hitems, if_neg]
      intro hempty
      rw [Bool.and_eq_true, List.isEmpty_iff] at hempty
      exact hne hempty.1.symm

theorem AreGroups.nil_not_mem {ps : List (List Char)} (h : AreGroups ps) : [] ∉ ps := by
  intro hmem
  obtain ⟨i, hi⟩ := List.getElem?_of_mem hmem
  obtain hgroup | ⟨-, hipv4⟩ := h i [] hi
  · exact hgroup.1 rfl
  · exact ne_nil_of_ipv4Pattern hipv4 rfl

/-! ### One `::` -/

theorem count_side {ps : List (List Char)} (h : [] ∉ ps) : (side ps).length = ps.length + (side ps).count [] := by
  unfold side
  split_ifs with hnil
  · rw [hnil]
    rfl
  · rw [List.count_eq_zero.2 h, Nat.add_zero]

theorem getLastD_side (ps : List (List Char)) : (side ps).getLastD [] = ps.getLastD [] := by
  unfold side
  split_ifs with hnil
  · rw [hnil]
    rfl
  · rfl

section Sides

variable {text : List Char} {left right : List (List Char)}

theorem gaps_pos (h : partsOf text = side left ++ [] :: side right) : 0 < gaps text := by
  rw [gaps, h]
  exact List.count_pos_iff.2 (by simp)

/-- The number of groups on both sides. -/
theorem size_sub_gaps (h : partsOf text = side left ++ [] :: side right) (hleft : [] ∉ left)
    (hright : [] ∉ right) : size text - gaps text = left.length + groupCount right := by
  have hlast : embedded text = ipv4Pattern (right.getLastD []) := by
    have hne : side right ≠ [] := by
      unfold side
      split_ifs with hnil
      · simp
      · exact hnil
    rw [embedded, h, ← getLastD_side right]
    rw [List.getLastD_eq_getLast?, List.getLastD_eq_getLast?, List.getLast?_append_cons]
    obtain ⟨x, xs, hx⟩ := List.exists_cons_of_ne_nil hne
    rw [hx, List.getLast?_cons_cons]
  have hl := count_side hleft
  have hr := count_side hright
  rw [size, gaps, hlast, groupCount, h, List.length_append, List.length_cons, List.count_append,
    List.count_cons_self]
  omega

/-- A part on the left of `::` is not the last one. -/
theorem getElem?_of_mem_left (h : partsOf text = side left ++ [] :: side right) {g : List Char} (hg : g ∈ left) :
    ∃ i, (partsOf text)[i]? = some g ∧ i + 1 < (partsOf text).length := by
  have hside : side left = left := if_neg (List.ne_nil_of_mem hg)
  obtain ⟨i, hi⟩ := List.getElem?_of_mem hg
  have hlt := (List.getElem?_eq_some_iff.1 hi).1
  rw [h, hside]
  refine ⟨i, by rw [List.getElem?_append_left hlt, hi], ?_⟩
  rw [List.length_append, List.length_cons]
  omega

/-- The parts on the right of `::`. -/
theorem getElem?_right (h : partsOf text = side left ++ [] :: side right) {j : ℕ} {p : List Char}
    (hj : right[j]? = some p) : ∃ i, (partsOf text)[i]? = some p ∧
      (i + 1 = (partsOf text).length ↔ j + 1 = right.length) := by
  have hside : side right = right := if_neg (List.ne_nil_of_mem (List.mem_of_getElem? hj))
  refine ⟨(side left).length + (j + 1), ?_, ?_⟩
  · rw [h, hside, List.getElem?_append_right (by omega), Nat.add_sub_cancel_left, List.getElem?_cons_succ, hj]
  · rw [h, hside, List.length_append, List.length_cons]
    omega

/-- A part is empty, or it is on the left, or on the right. -/
theorem getElem?_cases (h : partsOf text = side left ++ [] :: side right) {i : ℕ} {p : List Char}
    (hi : (partsOf text)[i]? = some p) (hne : p ≠ []) :
    p ∈ left ∨ ∃ j, right[j]? = some p ∧ (j + 1 = right.length → i + 1 = (partsOf text).length) := by
  have hside {ps : List (List Char)} {k : ℕ} (hk : (side ps)[k]? = some p) : side ps = ps := by
    refine if_neg fun hnil => hne ?_
    rw [side, if_pos hnil] at hk
    simpa using (List.mem_of_getElem? hk)
  rw [h] at hi
  by_cases hlt : i < (side left).length
  · rw [List.getElem?_append_left hlt] at hi
    rw [hside hi] at hi
    exact .inl (List.mem_of_getElem? hi)
  · rw [List.getElem?_append_right (by omega)] at hi
    cases hk : i - (side left).length with
    | zero =>
        rw [hk] at hi
        exact absurd (by simpa using hi.symm) hne
    | succ j =>
        rw [hk, List.getElem?_cons_succ] at hi
        have heq := hside hi
        rw [heq] at hi
        refine .inr ⟨j, hi, fun hj => ?_⟩
        rw [h, heq, List.length_append, List.length_cons]
        omega

end Sides

/-- The kinds of texts that are read but not well formed. -/
theorem wellFormed_iff {text : List Char} (h : IsParsed text) (hr : Readable text) :
    WellFormed text ↔ ¬ (Short text ∨ StrayDot text ∨ StrayColon text ∨ Overfull text) := by
  constructor
  · rintro (⟨hgroups, hcount⟩ | ⟨left, right, hparts, hleft, hright, hcount⟩)
    · have hgaps : gaps text = 0 := List.count_eq_zero.2 hgroups.nil_not_mem
      have hsize : size text = 8 := hcount
      rintro (hshort | hdot | hcolon | hover)
      · exact absurd hshort.2 (by omega)
      · exact not_strayDot (fun i p hi _ => hgroups i p hi) hdot
      · exact absurd hcolon.1 (by omega)
      · exact absurd hover.1 (by omega)
    · have hgaps := gaps_pos hparts
      have hleft' : [] ∉ left := fun hmem => (hleft [] hmem).1 rfl
      have hsize := size_sub_gaps hparts hleft' hright.nil_not_mem
      rintro (hshort | hdot | hcolon | hover)
      · exact absurd hshort.1 (by omega)
      · refine not_strayDot (fun i p hi hne => ?_) hdot
        obtain hmem | ⟨j, hj, hlast⟩ := getElem?_cases hparts hi hne
        · exact .inl (hleft p hmem)
        · exact (hright j p hj).imp_right fun htail => ⟨hlast htail.1, htail.2⟩
      · exact hcolon.2 ⟨left, right, hparts, hleft', hright.nil_not_mem⟩
      · exact absurd hover.2 (by omega)
  · intro hnot
    simp only [not_or] at hnot
    obtain ⟨hshort, hdot, hcolon, hover⟩ := hnot
    by_cases hgaps : gaps text = 0
    · have hnil : [] ∉ partsOf text := List.count_eq_zero.1 hgaps
      have hlen := hr.length
      rw [upToLastGroup_of_nil_not_mem hnil, length_spelled, if_pos hgaps] at hlen
      have hge : ¬ size text < 8 := fun hlt => hshort ⟨hgaps, hlt⟩
      refine .inl ⟨fun i p hi => ?_, ?_⟩
      · have hne : p ≠ [] := fun hp => hnil (hp ▸ List.mem_of_getElem? hi)
        exact (mem_groupsIn_or hi hne).imp_left (hr.isGroup h hdot)
      · change size text = 8
        omega
    · have hone := not_not.1 fun hc => hcolon ⟨Nat.pos_of_ne_zero hgaps, hc⟩
      obtain ⟨left, right, hparts, hleft, hright⟩ := hone
      have hsize := size_sub_gaps hparts hleft hright
      refine .inr ⟨left, right, hparts, fun g hg => ?_, fun j p hj => ?_, ?_⟩
      · obtain ⟨i, hi, hlt⟩ := getElem?_of_mem_left hparts hg
        refine hr.isGroup h hdot ((mem_groupsIn_or hi fun hnil => hleft (hnil ▸ hg)).resolve_right ?_)
        rintro ⟨hlast, -⟩
        omega
      · obtain ⟨i, hi, hlast⟩ := getElem?_right hparts hj
        have hne : p ≠ [] := fun hnil => hright (hnil ▸ List.mem_of_getElem? hj)
        exact (mem_groupsIn_or hi hne).imp (hr.isGroup h hdot) fun htail => ⟨hlast.1 htail.1, htail.2⟩
      · by_contra hgt
        exact hover ⟨Nat.pos_of_ne_zero hgaps, by omega⟩

/-! ### All texts -/

/-- A text that does not get to the loop is read or refused before. -/
theorem fromString_of_not_isParsed {text : List Char} (h : ¬ IsParsed text) (alloc : Vector UInt8 16) :
    fromString alloc text =
      if text.isEmpty then new [0, 0, 0, 0]
      else if ipv4Pattern text then new (octets (text.splitOn '.'))
      else .error (notParsed text) := by
  unfold fromString
  by_cases hempty : text.isEmpty = true
  · rw [if_pos hempty, if_pos hempty]
  by_cases hipv4 : ipv4Pattern text = true
  · rw [if_neg hempty, if_neg hempty, if_pos hipv4, if_pos hipv4]
  rw [if_neg hempty, if_neg hempty, if_neg hipv4, if_neg hipv4]
  by_cases hipv6 : ipv6Pattern text = true
  · have hlen : (text.splitOn ':').length < 3 := by
      by_contra hge
      rw [Bool.not_eq_true] at hempty hipv4
      exact h ⟨hempty, hipv4, hipv6, Nat.le_of_not_lt hge⟩
    rw [if_neg (by simpa using hipv6)]
    exact if_pos hlen
  · rw [if_pos (by simpa using hipv6)]

/-- A text is read as the language of addresses asks exactly if it is not misread. -/
theorem wellRead_iff (text : List Char) : WellRead text ↔ ¬ Misread text := by
  by_cases h : IsParsed text
  · constructor
    · rintro ⟨hsame, hwell⟩ ⟨-, hr, hkind⟩
      have hok := hr.fromString_mappedAlloc h 0
      rw [new_ok (by simp)] at hok
      have hne : text ≠ [] := by simpa using h.1
      have hform := hwell hne h.2.1 _ _ hok
      exact (wellFormed_iff h hr).1 hform hkind
    · intro hnot
      refine ⟨(fromString_congr_iff h).2 fun hshort => hnot ⟨h, hshort.1, .inl hshort.2⟩, ?_⟩
      intro _ _ alloc a hok
      by_cases hr : Readable text
      · exact (wellFormed_iff h hr).2 fun hkind => hnot ⟨h, hr, hkind⟩
      · rw [fromString_of_not_readable h hr] at hok
        cases hok
  · refine ⟨fun _ hmis => h hmis.isParsed, fun _ => ⟨fun alloc alloc' => ?_, ?_⟩⟩
    · rw [fromString_of_not_isParsed h, fromString_of_not_isParsed h]
    · intro hne hipv4 alloc a hok
      rw [fromString_of_not_isParsed h, if_neg (by simpa using hne), if_neg (by simp [hipv4])] at hok
      cases hok

/-- Three groups are taken for an address; ten of its bytes are what was in memory. -/
theorem not_wellRead_threeGroups : ¬ ∀ text, WellRead text := by
  intro hall
  have hsame := (hall "1:2:3".toList).1 (Vector.replicate 16 0) (Vector.replicate 16 1)
  exact absurd hsame (by decide +kernel)

end CqlDriver.InetAddress
