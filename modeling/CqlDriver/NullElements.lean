import CqlDriver.EncoderRoundTrip
import CqlDriver.Lib.Fallible

/-! # Null elements of collections

An element of a collection stands behind its length, and a negative length without bytes is a `null`.
`decodeMap` (for the values), `decodeUdt` and `decodeTuple` test for it, see `mapItems_elements` and
`decodeField_element`.  `decodeList` does not: it decodes a slice that stops in front of its start, and moves the
offset back by the negative length.  `readsElements_iff` says which lists it reads all the same. -/

namespace CqlDriver.Encoder

open Bytes MachineInt

/-! ### Elements -/

/-- An element in a buffer: a negative length, or some bytes behind their length. -/
inductive Element where
  | null (length : ℤ) (neg : length < 0) (fits : Fits 32 length)
  | bytes (bs : List UInt8) (fits : bs.length < 2 ^ 31)

namespace Element

def toBytes : Element → List UInt8
  | null length _ _ => writeInt 4 length
  | bytes bs _ => framed bs

/-- The bytes of the element, without their length. -/
def content : Element → Option (List UInt8)
  | null .. => none
  | bytes bs _ => some bs

end Element

/-- The value of an element with the given bytes. -/
def elementValue (decoder : List UInt8 → Except EncoderError Value) : Option (List UInt8) → Except EncoderError Value
  | none => .ok .null
  | some bs => decoder bs

/-- The elements behind their number. -/
def listBuffer (elements : List Element) : List UInt8 :=
  writeInt 4 elements.length ++ elements.flatMap Element.toBytes

variable {e : Encoder} {decoder : List UInt8 → Except EncoderError Value}

theorem collectionLength_of_fits (hv : 3 ≤ e.protocolVersion) {n : ℤ} (h : Fits 32 n) (pre post : List UInt8) :
    e.collectionLength (pre ++ writeInt 4 n ++ post) pre.length = .ok n := by
  rw [collectionLength, if_pos hv, bytesAt_writeInt]
  simp only [readInt_writeInt (w := 4) (by norm_num) h]

theorem length_append_framed (pre bs : List UInt8) :
    ((pre ++ framed bs).length : ℤ) = pre.length + 4 + bs.length := by
  rw [List.length_append, length_framed]
  push_cast
  ring

theorem length_append_writeInt (pre : List UInt8) (n : ℤ) :
    ((pre ++ writeInt 4 n).length : ℤ) = pre.length + 4 := by
  rw [List.length_append, length_writeInt]
  rfl

/-! ### Loops that test for a negative length -/

/-- An element of a tuple or a field. -/
theorem decodeField_element (el : Element) (pre post : List UInt8) :
    decodeField decoder (pre ++ el.toBytes ++ post) pre.length =
      (elementValue decoder el.content).map (·, ((pre ++ el.toBytes).length : ℤ)) := by
  cases el with
  | null n hneg hfits =>
      have hbytes := bytesAt_writeInt n pre post
      simp only [Element.toBytes, decodeField, hbytes, readInt_writeInt (w := 4) (by norm_num) hfits, hneg,
        if_true, Element.content, elementValue, length_append_writeInt]
      rfl
  | bytes bs hfits => exact decodeField_framed hfits pre post

/-- The entries of a map, with the bytes of their keys. -/
theorem mapItems_elements (hv : 3 ≤ e.protocolVersion)
    {keyDecoder valueDecoder : List UInt8 → Except EncoderError Value} (key : List UInt8)
    (hkey : key.length < 2 ^ 31) (el : Element) (n : ℕ) (pre post : List UInt8) (entries : List (Value × Value)) :
    e.mapItems keyDecoder valueDecoder (pre ++ framed key ++ el.toBytes ++ post) (n + 1) pre.length entries = (do
      let k ← keyDecoder key
      let v ← elementValue valueDecoder el.content
      e.mapItems keyDecoder valueDecoder (pre ++ framed key ++ el.toBytes ++ post) n
        (pre ++ framed key ++ el.toBytes).length (e.mapSet entries k v)) := by
  have hkeyLength := collectionLength_framed hv hkey pre (el.toBytes ++ post)
  have hkeySlice := slice_framed key pre (el.toBytes ++ post)
  rw [← List.append_assoc] at hkeyLength hkeySlice
  rw [mapItems, hkeyLength]
  simp only [ok_bind, collectionLengthSize_eq hv, hkeySlice]
  rw [← length_append_framed]
  cases hk : keyDecoder key with
  | error err => rfl
  | ok k =>
      simp only [ok_bind]
      cases el with
      | null m hneg hfits =>
          rw [Element.toBytes, collectionLength_of_fits hv hfits, ok_bind, if_pos hneg, length_append_writeInt]
          rfl
      | bytes bs hfits =>
          rw [Element.toBytes, collectionLength_framed hv hfits, ok_bind,
            if_neg (Int.natCast_nonneg bs.length).not_gt, slice_framed, length_append_framed _ bs]
          rfl

/-! ### The loop of `decodeList` -/

theorem listItems_bytes (hv : 3 ≤ e.protocolVersion) {bs : List UInt8} (hfits : bs.length < 2 ^ 31) (n : ℕ)
    (pre post : List UInt8) :
    e.listItems decoder (pre ++ framed bs ++ post) (n + 1) pre.length = (do
      let v ← decoder bs
      let vs ← e.listItems decoder (pre ++ framed bs ++ post) n (pre ++ framed bs).length
      .ok (v :: vs)) := by
  rw [listItems, collectionLength_framed hv hfits, ok_bind]
  simp only [collectionLengthSize_eq hv, slice_framed]
  rw [length_append_framed]

/-- A negative length. -/
theorem listItems_null (hv : 3 ≤ e.protocolVersion) {m : ℤ} (hfits : Fits 32 m) (n : ℕ) (pre post : List UInt8) :
    e.listItems decoder (pre ++ writeInt 4 m ++ post) (n + 1) pre.length = (do
      let v ← decoder (slice (pre ++ writeInt 4 m ++ post) (pre.length + 4) (pre.length + 4 + m))
      let vs ← e.listItems decoder (pre ++ writeInt 4 m ++ post) n (pre.length + 4 + m)
      .ok (v :: vs)) := by
  rw [listItems, collectionLength_of_fits hv hfits, ok_bind, collectionLengthSize_eq hv]

/-- Elements with bytes at the start are read one after the other. -/
theorem listItems_append (hv : 3 ≤ e.protocolVersion) {elements : List Element}
    (hbytes : ∀ el ∈ elements, el.content ≠ none) (n : ℕ) (pre post : List UInt8) :
    e.listItems decoder (pre ++ elements.flatMap Element.toBytes ++ post) (elements.length + n) pre.length = (do
      let vs ← (elements.map Element.content).mapM (elementValue decoder)
      let ws ← e.listItems decoder (pre ++ elements.flatMap Element.toBytes ++ post) n
        (pre ++ elements.flatMap Element.toBytes).length
      .ok (vs ++ ws)) := by
  induction elements generalizing pre with
  | nil =>
      simp only [List.flatMap_nil, List.append_nil, List.length_nil, Nat.zero_add, List.map_nil, List.mapM_nil]
      cases e.listItems decoder (pre ++ post) n pre.length with
      | error err => rfl
      | ok ws => rfl
  | cons el elements ih =>
      obtain ⟨hel, hrest⟩ := List.forall_mem_cons.1 hbytes
      cases el with
      | null => exact absurd rfl hel
      | bytes bs hfits =>
          have ih := ih hrest (pre ++ framed bs)
          have hsplit : pre ++ (Element.bytes bs hfits :: elements).flatMap Element.toBytes =
              pre ++ framed bs ++ elements.flatMap Element.toBytes := by
            rw [List.flatMap_cons, Element.toBytes, List.append_assoc]
          rw [hsplit, List.length_cons, Nat.add_right_comm, List.append_assoc (pre ++ framed bs),
            listItems_bytes hv hfits, ← List.append_assoc, ih, List.map_cons, List.mapM_cons, Element.content,
            elementValue]
          cases decoder bs with
          | error err => rfl
          | ok v =>
              simp only [ok_bind]
              cases (elements.map Element.content).mapM (elementValue decoder) with
              | error err => rfl
              | ok vs =>
                  simp only [ok_bind]
                  cases e.listItems decoder (pre ++ framed bs ++ elements.flatMap Element.toBytes ++ post) n
                      (pre ++ framed bs ++ elements.flatMap Element.toBytes).length with
                  | error err => rfl
                  | ok ws => rfl

/-- Every item of a list that is read comes from the decoder. -/
theorem listItems_ok {bytes : List UInt8} {n : ℕ} {offset : ℤ} {vs : List Value}
    (h : e.listItems decoder bytes n offset = .ok vs) : ∀ v ∈ vs, ∃ bs, decoder bs = .ok v := by
  induction n generalizing offset vs with
  | zero =>
      cases h
      simp
  | succ n ih =>
      rw [listItems] at h
      obtain ⟨length, -, h⟩ := Fallible.bind_eq_ok h
      obtain ⟨v, hv, h⟩ := Fallible.bind_eq_ok h
      obtain ⟨ws, hws, h⟩ := Fallible.bind_eq_ok h
      cases h
      exact List.forall_mem_cons.2 ⟨⟨_, hv⟩, ih hws⟩

theorem decodeList_listBuffer (hv : 3 ≤ e.protocolVersion) {elements : List Element}
    (hlen : elements.length < 2 ^ 31) :
    e.decodeList decoder (listBuffer elements) = e.listItems decoder (listBuffer elements) elements.length 4 := by
  have hcount := collectionLength_writeInt hv hlen [] (elements.flatMap Element.toBytes)
  rw [List.nil_append, List.length_nil, Nat.cast_zero] at hcount
  rw [decodeList, listBuffer, hcount, ok_bind, if_neg (Int.natCast_nonneg elements.length).not_gt,
    Int.toNat_natCast, collectionLengthSize_eq hv]

/-- Behind the end of a buffer there is nothing to slice. -/
theorem slice_length (bytes : List UInt8) (stop : ℤ) : slice bytes bytes.length stop = [] := by
  have hstart : sliceIndex bytes.length bytes.length = bytes.length := by simp [sliceIndex]
  rw [slice, hstart, List.drop_eq_nil_iff]
  exact List.length_take_le' _ _

/-! ### Lists that are read -/

/-- The buffers with these elements, whatever the negative lengths, are read as a list and as a set. -/
def ReadsElements (e : Encoder) (t : CqlType) (xs : List (Option (List UInt8))) : Prop :=
  ∀ elements : List Element, elements.map Element.content = xs →
    e.decode (listBuffer elements) (.list t) = (xs.mapM (elementValue (e.decode · t))).map .array ∧
      e.decode (listBuffer elements) (.set t) =
        (xs.mapM (elementValue (e.decode · t))).map fun arr => if e.set then .set (e.newSet arr) else .array arr

/-- Only the last element is `null`, and only in a list of a type without values of no bytes. -/
def NullsReadable (t : CqlType) (xs : List (Option (List UInt8))) : Prop :=
  none ∉ xs.dropLast ∧ (zeroLengthTypesSupported t = true → none ∉ xs)

theorem decode_listBuffer (elements : List Element) (t : CqlType) :
    e.decode (listBuffer elements) (.list t) =
        (e.decodeList (e.decode · t) (listBuffer elements)).map .array ∧
      e.decode (listBuffer elements) (.set t) =
        (e.decodeList (e.decode · t) (listBuffer elements)).map fun arr =>
          if e.set then .set (e.newSet arr) else .array arr := by
  have hne : listBuffer elements ≠ [] := writeInt_append_ne_nil _ _
  rw [decode_eq_decodeType _ hne, decode_eq_decodeType _ hne, decodeType, decodeType]
  exact ⟨rfl, rfl⟩

/-- A type without values of no bytes reads none of them as `null`. -/
theorem decode_nil {t : CqlType} (h : zeroLengthTypesSupported t = false) : e.decode [] t = .ok .null := by
  rw [decode, decodeWith, h]
  rfl

theorem decode_ne_null {t : CqlType} (h : zeroLengthTypesSupported t = true) (bs : List UInt8) :
    e.decode bs t ≠ .ok .null := by
  rw [decode, decodeWith, if_neg (by simp [h])]
  cases t with
  | native t =>
      cases t with
      | blob | text =>
          rw [decodeType, decodeNative]
          simp
      | _ => cases h
  | vector t dimension =>
      rw [decodeType, decodeVector]
      intro hnull
      obtain ⟨⟨vs, offset⟩, -, hnull⟩ := Fallible.bind_eq_ok hnull
      dsimp only at hnull
      split_ifs at hnull
      cases hnull
  | _ => cases h

theorem decodeList_of_nullsReadable (hv : 3 ≤ e.protocolVersion) {t : CqlType} {elements : List Element}
    (hlen : elements.length < 2 ^ 31) (h : NullsReadable t (elements.map Element.content)) :
    e.decodeList (e.decode · t) (listBuffer elements) =
      (elements.map Element.content).mapM (elementValue (e.decode · t)) := by
  rw [decodeList_listBuffer hv hlen, listBuffer]
  obtain rfl | ⟨front, last, rfl⟩ := List.eq_nil_or_concat' elements
  · rfl
  rw [NullsReadable, List.map_append, List.map_singleton, List.dropLast_concat] at h
  have hfront : ∀ el ∈ front, el.content ≠ none := fun el hel hnone => h.1 (List.mem_map.2 ⟨el, hel, hnone⟩)
  have hread := @listItems_append e (e.decode · t) hv front hfront 1
    (writeInt 4 (front ++ [last]).length) last.toBytes
  have hbytes : writeInt 4 ((front ++ [last]).length : ℤ) ++ (front ++ [last]).flatMap Element.toBytes =
      writeInt 4 ((front ++ [last]).length : ℤ) ++ front.flatMap Element.toBytes ++ last.toBytes := by
    rw [List.flatMap_append, List.flatMap_singleton, List.append_assoc]
  have hitem : e.listItems (e.decode · t)
      (writeInt 4 ((front ++ [last]).length : ℤ) ++ front.flatMap Element.toBytes ++ last.toBytes) 1
      (writeInt 4 ((front ++ [last]).length : ℤ) ++ front.flatMap Element.toBytes).length =
      (elementValue (e.decode · t) last.content).map fun v => [v] := by
    generalize writeInt 4 ((front ++ [last]).length : ℤ) ++ front.flatMap Element.toBytes = pre
    cases last with
    | null n hneg hfits =>
        have hread := @listItems_null e (e.decode · t) hv n hfits 0 pre []
        have hzero : zeroLengthTypesSupported t = false := by
          rw [← Bool.not_eq_true]
          exact fun hsup => h.2 hsup (by simp [Element.content])
        rw [List.append_nil, ← length_append_writeInt pre n, slice_length] at hread
        rw [Element.toBytes, hread, decode_nil hzero]
        rfl
    | bytes bs hfits =>
        have hread := @listItems_bytes e (e.decode · t) hv bs hfits 0 pre []
        rw [List.append_nil] at hread
        rw [Element.toBytes, hread, Element.content, elementValue]
        cases e.decode bs t with
        | error err => rfl
        | ok v => rfl
  have hcount : (front ++ [last]).length = front.length + 1 := by simp
  rw [length_writeInt, hitem, hcount, Nat.cast_ofNat] at hread
  rw [hbytes, hcount, hread]
  rw [List.map_append, List.map_singleton, List.mapM_append, List.mapM_cons, List.mapM_nil]
  cases (front.map Element.content).mapM (elementValue (e.decode · t)) with
  | error err => rfl
  | ok vs =>
      simp only [ok_bind]
      cases elementValue (e.decode · t) last.content with
      | error err => rfl
      | ok v => rfl

/-! ### Lists that are not read -/

/-- A `null` with the least length. -/
def lowest : Element := .null (-2147483648) (by norm_num) (by unfold Fits; norm_num)

def elementOf : Option (List UInt8) → Element
  | none => lowest
  | some bs => if h : bs.length < 2 ^ 31 then .bytes bs h else lowest

theorem content_elementOf {x : Option (List UInt8)} (h : ∀ bs, x = some bs → bs.length < 2 ^ 31) :
    (elementOf x).content = x := by
  cases x with
  | none => rfl
  | some bs => rw [elementOf, dif_pos (h bs rfl), Element.content]

/-- The length of the buffers with these elements. -/
def bufferLength (xs : List (Option (List UInt8))) : ℕ := 4 + (xs.map fun x => 4 + (x.getD []).length).sum

theorem length_listBuffer (elements : List Element) :
    (listBuffer elements).length = bufferLength (elements.map Element.content) := by
  have hel (el : Element) : el.toBytes.length = 4 + (el.content.getD []).length := by
    cases el with
    | null => simp [Element.toBytes, Element.content]
    | bytes => simp [Element.toBytes, Element.content]
  rw [listBuffer, List.length_append, length_writeInt, List.length_flatMap, bufferLength, List.map_map]
  congr 2
  exact List.map_congr_left fun el _ => hel el

theorem length_lt_of_mem {xs : List (Option (List UInt8))} (hsize : bufferLength xs < 2 ^ 31) {bs : List UInt8}
    (h : some bs ∈ xs) : bs.length < 2 ^ 31 := by
  have hle := List.single_le_sum (l := xs.map fun x => 4 + (x.getD []).length) (by simp) _
    (List.mem_map.2 ⟨some bs, h, rfl⟩)
  rw [bufferLength] at hsize
  simp only [Option.getD_some] at hle
  omega

theorem length_lt_bufferLength (xs : List (Option (List UInt8))) : xs.length < bufferLength xs := by
  have hle : (xs.map fun _ => 1).sum ≤ (xs.map fun x => 4 + (x.getD []).length).sum :=
    List.sum_le_sum fun x _ => by omega
  rw [List.map_const', List.sum_replicate, smul_eq_mul, mul_one] at hle
  rw [bufferLength]
  omega

theorem map_content_elementOf {xs : List (Option (List UInt8))} (hsize : bufferLength xs < 2 ^ 31) :
    (xs.map elementOf).map Element.content = xs := by
  rw [List.map_map]
  refine (List.map_congr_left fun x hx => ?_).trans (List.map_id xs)
  exact content_elementOf fun bs hbs => length_lt_of_mem hsize (hbs ▸ hx)

/-- A length below all offsets, and the next length is read in front of the buffer. -/
theorem decodeList_ne_ok (hv : 3 ≤ e.protocolVersion) {front back : List Element}
    (hfront : ∀ el ∈ front, el.content ≠ none) (hback : back ≠ [])
    (hsize : (listBuffer (front ++ lowest :: back)).length < 2 ^ 31) (vs : List Value) :
    e.decodeList decoder (listBuffer (front ++ lowest :: back)) ≠ .ok vs := by
  intro h
  have hlen := length_lt_bufferLength ((front ++ lowest :: back).map Element.content)
  rw [← length_listBuffer, List.length_map] at hlen
  rw [decodeList_listBuffer hv (by omega)] at h
  obtain ⟨next, back, rfl⟩ := List.exists_cons_of_ne_nil hback
  have hnum : (front ++ lowest :: next :: back).length = front.length + (back.length + 1 + 1) := by simp
  have hbytes : listBuffer (front ++ lowest :: next :: back) =
      writeInt 4 ((front ++ lowest :: next :: back).length : ℤ) ++ front.flatMap Element.toBytes ++
        (writeInt 4 (-2147483648) ++ (next :: back).flatMap Element.toBytes) := by
    rw [listBuffer, List.flatMap_append, List.flatMap_cons, ← List.append_assoc, lowest, Element.toBytes]
  have hread := @listItems_append e decoder hv front hfront (back.length + 1 + 1)
    (writeInt 4 ((front ++ lowest :: next :: back).length : ℤ))
    (writeInt 4 (-2147483648) ++ (next :: back).flatMap Element.toBytes)
  rw [length_writeInt, Nat.cast_ofNat] at hread
  rw [hbytes] at hsize h
  rw [hnum] at h hsize hread
  rw [hread] at h
  obtain ⟨ws, -, h⟩ := Fallible.bind_eq_ok h
  obtain ⟨us, h, -⟩ := Fallible.bind_eq_ok h
  generalize writeInt 4 ((front.length + (back.length + 1 + 1) : ℕ) : ℤ) ++ front.flatMap Element.toBytes = pre
    at h hsize
  have hpre : pre.length + 4 < 2 ^ 31 := by
    rw [List.length_append, List.length_append, length_writeInt] at hsize
    omega
  have hfits : Fits 32 (-2147483648) := by
    unfold Fits
    norm_num
  rw [← List.append_assoc, listItems_null hv hfits] at h
  obtain ⟨v, -, h⟩ := Fallible.bind_eq_ok h
  obtain ⟨us', h, -⟩ := Fallible.bind_eq_ok h
  rw [listItems] at h
  obtain ⟨length, h, -⟩ := Fallible.bind_eq_ok h
  have hnone : bytesAt 4 (pre ++ writeInt 4 (-2147483648) ++ (next :: back).flatMap Element.toBytes)
      (pre.length + 4 + -2147483648) = none := if_neg (by omega)
  rw [collectionLength, if_pos hv, hnone] at h
  cases h

/-- The own values of a `null` and a five. -/
theorem mapM_elementValue_int :
    [none, some [0, 0, 0, 5]].mapM (elementValue (nativeEncoder.decode · (.native .int))) =
      .ok [.null, .number 5] := by
  have hfive : readInt [0, 0, 0, 5] = 5 := by decide
  have hdecode : nativeEncoder.decode [0, 0, 0, 5] (.native .int) = .ok (.number (readInt [0, 0, 0, 5])) := rfl
  rw [hfive] at hdecode
  exact Fallible.mapM_eq_ok.2 (.cons rfl (.cons hdecode .nil))

end CqlDriver.Encoder
