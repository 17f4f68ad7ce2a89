import CqlDriver.EncoderRoundTrip
import CqlDriver.UdtValues

/-! # Values through the native layer (`lib/encoder.js`, `src/result.rs`, `lib/types/results-wrapper.js`)

A value travels two ways.  The encoder writes it in the format of the protocol, and the bytes go to the
database as they are.  The Rust driver reads them as a `CqlValue`, which `CqlValueWrapper` hands over to
JavaScript, where `getCqlObject` converts it.  `serialized` is the format of the protocol; `cqlValue` is the
value that the bytes stand for, and `readBack` is what the application gets for the value it has written:
the two ways are different code, and not inverse to each other (`getCqlObject_written`). -/

namespace CqlDriver

open Bytes MachineInt

/-- A value of the Rust driver, of one of the types of the encoder.  `CqlValue::Empty`, for which
`to_napi_value` has no case yet, is not among them. -/
inductive CqlValue where
  | int (n : BitVec 32)
  | smallInt (n : BitVec 16)
  | tinyInt (n : BitVec 8)
  | bigInt (n : BitVec 64)
  /-- The bytes of an integer of any size, the highest one first. -/
  | varint (bytes : List UInt8)
  | boolean (b : Bool)
  | blob (bytes : List UInt8)
  | text (s : String)
  | uuid (u : Uuid)
  /-- The days, with the epoch at `2 ^ 31`. -/
  | date (days : BitVec 32)
  | time (t : LocalTime)
  | duration (d : Duration)
  | inet (a : InetAddress)
  | list (vs : List CqlValue)
  | set (vs : List CqlValue)
  | map (entries : List (CqlValue × CqlValue))
  | tuple (vs : List (Option CqlValue))
  | userDefinedType (name : String) (fields : List (String × Option CqlValue))
  | vector (vs : List CqlValue)

namespace NativeLayer

open Encoder ResultsWrapper

/-! ### The native layer -/

/-- `LocalDateWrapper::from_cql_date` -/
def fromCqlDate (days : BitVec 32) : DateValue :=
  ⟨wrap 32 ((days.toNat : ℤ) - 2 ^ 31), Duration.fits_wrap32 _⟩

mutual

/-- `CqlValueWrapper::to_napi_value` -/
def toNapiValue : CqlValue → Field
  | .int n => .scalar (.number n.toInt)
  | .smallInt n => .scalar (.number n.toInt)
  | .tinyInt n => .scalar (.number n.toInt)
  | .bigInt n => .scalar (.bigint n.toInt)
  | .varint bytes => .scalar (.bigint (readInt bytes))
  | .boolean b => .scalar (.boolean b)
  | .blob bytes => .scalar (.buffer bytes)
  | .text s => .scalar (.string s)
  | .uuid u => .scalar (.buffer u.buffer)
  | .date days => .localDate (fromCqlDate days)
  | .time t => .localTime t
  | .duration d => .duration d
  | .inet a => .inetAddress a
  | .list vs => .array (toNapiValues vs)
  | .set vs => .array (toNapiValues vs)
  | .map entries => .array (toNapiEntries entries)
  | .tuple vs => .array (toNapiElements vs)
  | .userDefinedType _ fields => udtField (toNapiFields fields)
  | .vector vs => .array (toNapiValues vs)

def toNapiValues : List CqlValue → List Field
  | [] => []
  | v :: vs => toNapiValue v :: toNapiValues vs

/-- An entry of a map is an array of its key and its value. -/
def toNapiEntries : List (CqlValue × CqlValue) → List Field
  | [] => []
  | (key, val) :: entries => .array [toNapiValue key, toNapiValue val] :: toNapiEntries entries

def toNapiElements : List (Option CqlValue) → List Field
  | [] => []
  | none :: vs => .null :: toNapiElements vs
  | some v :: vs => toNapiValue v :: toNapiElements vs

def toNapiFields : List (String × Option CqlValue) → List (String × Option Field)
  | [] => []
  | (name, none) :: fields => (name, none) :: toNapiFields fields
  | (name, some v) :: fields => (name, some (toNapiValue v)) :: toNapiFields fields

end

theorem toNapiValues_eq (vs : List CqlValue) : toNapiValues vs = vs.map toNapiValue := by
  induction vs with
  | nil => rw [toNapiValues, List.map_nil]
  | cons v vs ih => rw [toNapiValues, List.map_cons, ih]

theorem toNapiEntries_eq (entries : List (CqlValue × CqlValue)) :
    toNapiEntries entries = entries.map fun p => .array [toNapiValue p.1, toNapiValue p.2] := by
  induction entries with
  | nil => rw [toNapiEntries, List.map_nil]
  | cons p entries ih => rw [toNapiEntries, List.map_cons, ih]

/-- The Rust driver has one type for `text` and `varchar`. -/
def nativeCode : NativeType → NativeCode
  | .int => .int
  | .smallint => .smallint
  | .tinyint => .tinyint
  | .bigint => .bigint
  | .varint => .varint
  | .boolean => .boolean
  | .blob => .blob
  | .text => .varchar
  | .uuid => .uuid
  | .date => .date
  | .time => .time
  | .duration => .duration
  | .inet => .inet

mutual

/-- The type of a column: `ComplexType` of the native layer, after `convertComplexType`. -/
def columnType : CqlType → ColumnType
  | .native t => .native (nativeCode t)
  | .list t => .list (columnType t)
  | .set t => .set (columnType t)
  | .map k t => .map (columnType k) (columnType t)
  | .tuple ts => .tuple (columnTypes ts)
  | .udt name fields => .udt name (columnFields fields)
  | .vector t dimension => .vector (columnType t) dimension

def columnTypes : List CqlType → List ColumnType
  | [] => []
  | t :: ts => columnType t :: columnTypes ts

def columnFields : List (String × CqlType) → List (String × ColumnType)
  | [] => []
  | (name, t) :: fields => (name, columnType t) :: columnFields fields

end

/-! ### The format of the protocol -/

def serializedNative : CqlValue → List UInt8
  | .int n => writeInt 4 n.toInt
  | .smallInt n => writeInt 2 n.toInt
  | .tinyInt n => writeInt 1 n.toInt
  | .bigInt n => writeInt 8 n.toInt
  | .varint bytes | .blob bytes => bytes
  | .boolean b => [if b then 1 else 0]
  | .text s => Utf8.encode s
  | .uuid u => u.buffer
  | .date days => toBE 4 days.toNat
  | .time t => writeInt 8 t.value
  | .duration d => VInt.writeVInt (BitVec.ofInt 64 d.months) ++ VInt.writeVInt (BitVec.ofInt 64 d.days) ++
      VInt.writeVInt d.nanoseconds
  | .inet a => a.buffer
  | _ => []

mutual

/-- The bytes of a value: items stand behind their lengths, collections behind the numbers of their items, and
the length `-1` is for an element that is missing. -/
def serialized : CqlType → CqlValue → List UInt8
  | .native _, v => serializedNative v
  | .list t, .list vs => writeInt 4 vs.length ++ vs.flatMap fun v => framed (serialized t v)
  | .set t, .set vs => writeInt 4 vs.length ++ vs.flatMap fun v => framed (serialized t v)
  | .map k t, .map entries =>
      writeInt 4 entries.length ++ entries.flatMap fun p => framed (serialized k p.1) ++ framed (serialized t p.2)
  | .tuple ts, .tuple vs => serializedElements ts vs
  | .udt _ fields, .userDefinedType _ vs => serializedFields fields vs
  | .vector t _, .vector vs => vs.flatMap fun v => sized (serializationSizeIfFixed t) (serialized t v)
  | _, _ => []

def serializedElement : CqlType → Option CqlValue → List UInt8
  | t, some v => framed (serialized t v)
  | _, none => writeInt 4 (-1)

def serializedElements : List CqlType → List (Option CqlValue) → List UInt8
  | t :: ts, v :: vs => serializedElement t v ++ serializedElements ts vs
  | _, _ => []

def serializedFields : List (String × CqlType) → List (String × Option CqlValue) → List UInt8
  | (_, t) :: fields, (_, v) :: vs => serializedElement t v ++ serializedFields fields vs
  | _, _ => []

end

/-! ### What is written -/

def cqlNative : NativeType → Value → CqlValue
  | .int, .number n => .int (BitVec.ofInt 32 n)
  | .smallint, .number n => .smallInt (BitVec.ofInt 16 n)
  | .tinyint, .number n => .tinyInt (BitVec.ofInt 8 n)
  | .bigint, .long n => .bigInt n
  | .varint, .integer n => .varint n.toBuffer
  | .boolean, .boolean b => .boolean b
  | .blob, .buffer bs => .blob bs
  | .text, .string s => .text s
  | .uuid, .uuid u => .uuid u
  | .date, .localDate d => .date (BitVec.ofInt 32 (d.value + 2 ^ 31))
  | .time, .localTime t => .time t
  | .duration, .duration d => .duration d
  | .inet, .inetAddress a => .inet a
  | _, _ => .blob []

mutual

/-- The value that a JavaScript value of the type stands for. -/
def cqlValue : CqlType → Value → CqlValue
  | .native t, v => cqlNative t v
  | .list t, v => .list (v.items.map (cqlValue t))
  | .set t, v => .set (v.items.map (cqlValue t))
  | .map k t, v => .map (v.entries.map fun p => (cqlValue k p.1, cqlValue t p.2))
  | .tuple ts, v => .tuple (cqlElements ts v.items)
  | .udt name fields, v => .userDefinedType name (cqlFields fields v.props)
  | .vector t _, v => .vector (v.items.map (cqlValue t))

def cqlElement : CqlType → Value → Option CqlValue
  | t, v => if v.isMissing then none else some (cqlValue t v)

def cqlElements : List CqlType → List Value → List (Option CqlValue)
  | t :: ts, v :: vs => cqlElement t v :: cqlElements ts vs
  | _, _ => []

def cqlFields : List (String × CqlType) → List (String × Value) → List (String × Option CqlValue)
  | [], _ => []
  | (name, t) :: fields, props => (name, cqlElement t (fieldValue props name)) :: cqlFields fields props

end

section Written

variable {e : Encoder}

theorem toBuffer_eq_writeInt (n : BitVec 64) : Long.toBuffer n = writeInt 8 n.toInt := by
  have hnat : (n.toInt % 256 ^ 8).toNat = n.toNat := by
    have hlt := n.isLt
    rw [BitVec.toInt_eq_toNat_bmod, show (256 : ℤ) ^ 8 = (2 ^ 64 : ℕ) by norm_num, Int.bmod_emod]
    omega
  have hlow : toBE 4 (n.toNat % 2 ^ 32) = toBE 4 n.toNat := toBE_mod 4 n.toNat
  rw [Long.toBuffer, VInt.toNat_getHighBits, VInt.toNat_getLowBits, writeInt, hnat, hlow, toBE_add 4 4,
    show 256 ^ 4 = 2 ^ 32 from rfl]

theorem encode_native {t : NativeType} {v : Value} (h : WellTypedNative t v) :
    e.encode v (.native t) = .ok (.buffer (serializedNative (cqlNative t v))) := by
  have hint {w : ℕ} {n : ℤ} (hw : 0 < 8 * w) (hn : Fits (8 * w) n) :
      writeIntBE w n = .ok (writeInt w (BitVec.ofInt (8 * w) n).toInt) := by
    have hself : n.bmod (2 ^ (8 * w)) = n := wrap_eq_self hw hn
    rw [writeIntBE_of_fits hn, BitVec.toInt_ofInt, hself]
  cases t with
  | int =>
      obtain ⟨n, hn, rfl⟩ := h
      simp only [encode, encodeWith, encodeType, encodeNative, hint (w := 4) (by norm_num) hn]
      rfl
  | smallint =>
      obtain ⟨n, hn, rfl⟩ := h
      simp only [encode, encodeWith, encodeType, encodeNative, hint (w := 2) (by norm_num) hn]
      rfl
  | tinyint =>
      obtain ⟨n, hn, rfl⟩ := h
      simp only [encode, encodeWith, encodeType, encodeNative, hint (w := 1) (by norm_num) hn]
      rfl
  | bigint =>
      obtain ⟨n, rfl⟩ := h
      simp only [encode, encodeWith, encodeType, encodeNative, cqlNative, serializedNative, toBuffer_eq_writeInt]
  | date =>
      obtain ⟨⟨value, hfits⟩, rfl⟩ := h
      have hrange : 0 ≤ value + 2 ^ 31 ∧ value + 2 ^ 31 < 2 ^ 32 := by
        unfold Fits at hfits
        norm_num at hfits
        omega
      have hnat : (BitVec.ofInt 32 (value + 2 ^ 31)).toNat = (value + 2 ^ 31).toNat := by
        rw [BitVec.toNat_ofInt]
        norm_num at hrange ⊢
        omega
      simp only [encode, encodeWith, encodeType, encodeNative, cqlNative, serializedNative, hnat]
      rfl
  | time =>
      obtain ⟨⟨value, hvalid⟩, rfl⟩ := h
      have hint : (BitVec.ofNat 64 value).toInt = value := by
        rw [BitVec.toInt_eq_toNat_bmod, BitVec.toNat_ofNat, Nat.mod_eq_of_lt (by omega),
          Int.bmod_eq_of_le (by omega) (by omega)]
      simp only [encode, encodeWith, encodeType, encodeNative, cqlNative, serializedNative, LocalTime.toBuffer,
        toBuffer_eq_writeInt, hint]
  | _ =>
      obtain ⟨x, rfl⟩ := h
      rfl

/-- An item of a collection, with the bytes of the value it stands for. -/
structure ItemWritten (e : Encoder) (t : CqlType) (v : Value) : Prop where
  isNullish : v.isNullish = false
  encodes : e.encode v t = .ok (.buffer (serialized t (cqlValue t v)))
  length_lt : (serialized t (cqlValue t v)).length < 2 ^ 31

theorem ItemWritten.parts {t : CqlType} {v : Value} (h : ItemWritten e t v) : v.isNullish = false ∧
    e.encodeWith (e.encodeType t) v = .ok (.buffer (serialized t (cqlValue t v))) ∧
      (serialized t (cqlValue t v)).length < 2 ^ 31 :=
  ⟨h.isNullish, h.encodes, h.length_lt⟩

/-- For the value of an entry `mapParts` has a case more. -/
theorem ItemWritten.mapValue {t : CqlType} {v : Value} (h : ItemWritten e t v) : v.isNullish = false ∧
    (e.encodeWith (e.encodeType t) v = .ok (.buffer (serialized t (cqlValue t v))) ∨
      e.encodeWith (e.encodeType t) v = .ok .null ∧ serialized t (cqlValue t v) = []) ∧
      (serialized t (cqlValue t v)).length < 2 ^ 31 :=
  ⟨h.isNullish, .inl h.encodes, h.length_lt⟩

theorem encodeList_items (hv : 3 ≤ e.protocolVersion) {t : CqlType} {vs : List Value} (hne : vs ≠ [])
    (hlen : vs.length < 2 ^ 31) (h : ∀ x ∈ vs, ItemWritten e t x) :
    e.encodeList (e.encodeType t) (.array vs) = .ok (.buffer (writeInt 4 (vs.map (cqlValue t)).length ++
      (vs.map (cqlValue t)).flatMap fun v => framed (serialized t v))) := by
  rw [encodeList_eq hv hne hlen fun x hx => (h x hx).parts, framedList, List.length_map, List.flatMap_map]

theorem encode_map (hv : 3 ≤ e.protocolVersion) {k t : CqlType} {entries : List (Value × Value)}
    (hlen : entries.length < 2 ^ 31) (h : ∀ p ∈ entries, ItemWritten e k p.1 ∧ ItemWritten e t p.2) :
    e.encode (.map entries) (.map k t) =
      .ok (.buffer (serialized (.map k t) (.map (entries.map fun p => (cqlValue k p.1, cqlValue t p.2))))) := by
  obtain ⟨parts, hparts, hconcat⟩ : ∃ parts, e.mapParts (e.encodeType k) (e.encodeType t) entries = .ok parts ∧
      concat parts = .ok (entries.flatMap (framedEntry (fun v => serialized k (cqlValue k v))
        fun v => serialized t (cqlValue t v))) :=
    mapParts_eq hv (fun p hp => (h p hp).1.parts) fun p hp => (h p hp).2.mapValue
  rw [encode_eq_encodeType _ rfl (by simp), encodeType]
  simp only [hparts, ok_bind, lengthBuffer_eq hv hlen, concat_buffer _ hconcat]
  rw [serialized, List.length_map, List.flatMap_map]
  rfl

theorem encode_vector {t : CqlType} {vs : List Value} {dimension : ℕ} (hlen : vs.length = dimension)
    (hd : 1 ≤ dimension) (h : ∀ x ∈ vs, ItemWritten e t x) :
    e.encode (.vector vs) (.vector t dimension) =
      .ok (.buffer (serialized (.vector t dimension) (.vector (vs.map (cqlValue t))))) := by
  rw [encode_eq_encodeType _ rfl (by simp), encodeType, encodeVector_eq hlen hd fun x hx => (h x hx).parts.2,
    serialized, List.flatMap_map]

/-- The part of a tuple element or of a field. -/
def ElementWritten (e : Encoder) (t : CqlType) (v : Value) : Prop :=
  ∃ item, e.encodeWith (e.encodeType t) v = .ok item ∧ fieldPart item = .ok (serializedElement t (cqlElement t v))

theorem elementWritten_missing (t : CqlType) {v : Value} (h : v.isMissing = true) : ElementWritten e t v := by
  have hnull : serializedElement t (cqlElement t v) = [255, 255, 255, 255] := by
    rw [cqlElement, if_pos h, serializedElement]
    decide
  rw [ElementWritten, hnull]
  exact (fieldTrips_missing t h).encodes

theorem ItemWritten.element {t : CqlType} {v : Value} (h : ItemWritten e t v) : ElementWritten e t v := by
  refine ⟨_, h.encodes, ?_⟩
  rw [fieldPart, writeIntBE_of_fits (fits_length h.length_lt), cqlElement,
    isMissing_of_isNullish h.isNullish, if_neg Bool.false_ne_true, serializedElement]
  rfl

theorem tupleParts_cons {t : CqlType} {ts : List CqlType} {v : Value} {vs : List Value}
    (h : ElementWritten e t v)
    (hs : e.tupleParts ts vs = .ok (serializedElements ts (cqlElements ts vs))) :
    e.tupleParts (t :: ts) (v :: vs) = .ok (serializedElements (t :: ts) (cqlElements (t :: ts) (v :: vs))) := by
  obtain ⟨item, hitem, hpart⟩ := h
  simp only [tupleParts, hitem, ok_bind, hpart, hs, cqlElements, serializedElements]

theorem udtParts_cons {name : String} {t : CqlType} {fields : List (String × CqlType)}
    {props : List (String × Value)} (h : ElementWritten e t (fieldValue props name))
    (hs : e.udtParts fields props = .ok (serializedFields fields (cqlFields fields props))) :
    e.udtParts ((name, t) :: fields) props =
      .ok (serializedFields ((name, t) :: fields) (cqlFields ((name, t) :: fields) props)) := by
  obtain ⟨item, hitem, hpart⟩ := h
  simp only [udtParts, hitem, ok_bind, hpart, hs, cqlFields, serializedFields]

mutual

/-- What is written is the format of the protocol. -/
theorem encode_eq_serialized (hv : 3 ≤ e.protocolVersion) : ∀ (t : CqlType) (v : Value), e.WellTyped t v →
    e.LengthsFit t v → e.encode v t = .ok (.buffer (serialized t (cqlValue t v)))
  | .native t, v, ht, _ => by
      rw [WellTyped] at ht
      rw [cqlValue, serialized, encode_native ht]
  | .list t, v, ht, hl => by
      rw [WellTyped] at ht
      rw [LengthsFit] at hl
      obtain ⟨vs, rfl, hne, hitems⟩ := ht
      rw [encode_eq_encodeType _ rfl (by simp), encodeType, cqlValue, serialized]
      exact encodeList_items hv hne hl.1 fun x hx => itemWritten hv t x (hitems x hx) (hl.2 x hx)
  | .set t, v, ht, hl => by
      rw [WellTyped] at ht
      rw [LengthsFit] at hl
      obtain ⟨vs, hvs, hne, -, hitems⟩ := ht
      have hval : v.items = vs ∧ e.encode v (.set t) = e.encodeType (.set t) v := by
        obtain rfl | ⟨-, rfl⟩ := hvs
        · exact ⟨rfl, rfl⟩
        · exact ⟨rfl, rfl⟩
      rw [hval.1] at hl
      rw [hval.2, encodeType, encodeSet_eq hvs, cqlValue, hval.1, serialized]
      exact encodeList_items hv hne hl.1 fun x hx => itemWritten hv t x (hitems x hx) (hl.2 x hx)
  | .map k t, v, ht, hl => by
      rw [WellTyped] at ht
      rw [LengthsFit] at hl
      obtain ⟨entries, rfl, -, hentries⟩ := ht
      rw [cqlValue]
      refine encode_map hv hl.1 fun p hp => ⟨?_, ?_⟩
      · exact itemWritten hv k p.1 (hentries p hp).1 (hl.2 p hp).1
      · exact itemWritten hv t p.2 (hentries p hp).2 (hl.2 p hp).2
  | .tuple ts, v, ht, hl => by
      rw [WellTyped] at ht
      rw [LengthsFit] at hl
      obtain ⟨vs, rfl, -, htuple⟩ := ht
      rw [encode_eq_encodeType _ rfl (by simp), encodeType, cqlValue, serialized]
      simp only [tupleParts_eq hv ts vs htuple hl, Value.items]
      rfl
  | .udt name fields, v, ht, hl => by
      rw [WellTyped] at ht
      rw [LengthsFit] at hl
      obtain ⟨props, rfl, -, -, -, -, hudt⟩ := ht
      rw [encode_eq_encodeType _ rfl (by simp), encodeType, cqlValue, serialized]
      simp only [udtParts_eq hv fields props hudt hl, Value.props]
      rfl
  | .vector t dimension, v, ht, hl => by
      rw [WellTyped] at ht
      rw [LengthsFit] at hl
      obtain ⟨vs, rfl, hd, hlen, hitems⟩ := ht
      rw [cqlValue]
      exact encode_vector hlen hd fun x hx => itemWritten hv t x (hitems x hx) (hl x hx)
termination_by t => (sizeOf t, 0)

theorem itemWritten (hv : 3 ≤ e.protocolVersion) : ∀ (t : CqlType) (v : Value), e.WellTyped t v →
    (e.bytesOf t v).length < 2 ^ 31 ∧ e.LengthsFit t v → ItemWritten e t v
  | t, v, ht, hl => by
      have hencodes := encode_eq_serialized hv t v ht hl.2
      refine ⟨isNullish_of_wellTyped ht, hencodes, ?_⟩
      have hlt := hl.1
      rwa [bytesOf, hencodes] at hlt
termination_by t => (sizeOf t, 1)

theorem elementWritten (hv : 3 ≤ e.protocolVersion) : ∀ (t : CqlType) (v : Value),
    v.isMissing = true ∨ e.WellTyped t v → (e.bytesOf t v).length < 2 ^ 31 ∧ e.LengthsFit t v →
      ElementWritten e t v
  | t, v, hvt, hl => by
      obtain hmissing | hwell := hvt
      · exact elementWritten_missing t hmissing
      · exact (itemWritten hv t v hwell hl).element
termination_by t => (sizeOf t, 2)

theorem tupleParts_eq (hv : 3 ≤ e.protocolVersion) : ∀ (ts : List CqlType) (vs : List Value),
    e.WellTypedTuple ts vs → e.LengthsFitTuple ts vs →
      e.tupleParts ts vs = .ok (serializedElements ts (cqlElements ts vs))
  | [], vs, _, _ => by simp only [tupleParts, cqlElements, serializedElements]
  | t :: ts, vs, ht, hl => by
      rw [WellTypedTuple] at ht
      obtain ⟨v, ws, rfl, hvt, htuple⟩ := ht
      rw [LengthsFitTuple] at hl
      exact tupleParts_cons (elementWritten hv t v hvt hl.1) (tupleParts_eq hv ts ws htuple hl.2)
termination_by ts => (sizeOf ts, 0)

theorem udtParts_eq (hv : 3 ≤ e.protocolVersion) : ∀ (fields : List (String × CqlType))
    (props : List (String × Value)), e.WellTypedFields fields props → e.LengthsFitFields fields props →
      e.udtParts fields props = .ok (serializedFields fields (cqlFields fields props))
  | [], props, _, _ => by simp only [udtParts, cqlFields, serializedFields]
  | (name, t) :: fields, props, ht, hl => by
      rw [WellTypedFields] at ht
      rw [LengthsFitFields] at hl
      exact udtParts_cons (elementWritten hv t _ ht.1 hl.1) (udtParts_eq hv fields props ht.2 hl.2)
termination_by fields => (sizeOf fields, 0)

end

end Written

/-! ### What is read -/

/-- A value of a native type, in the class that the driver has for it. -/
def readNative : Value → Js
  | .number n => .scalar (.number n)
  | .long n => .inst (.long n)
  | .integer n => .scalar (.bigint n.value)
  | .boolean b => .scalar (.boolean b)
  | .buffer bs => .scalar (.buffer bs)
  | .string s => .scalar (.string s)
  | .uuid u => .inst (.uuid u)
  | .localDate d => .inst (.localDate d)
  | .localTime t => .inst (.localTime t)
  | .duration d => .inst (.duration d)
  | .inetAddress a => .inst (.inetAddress a)
  | _ => .undefined

section ReadBack

variable (host : Host)

/-- The property name for a key. -/
def keyText (key : Js) : String :=
  match text host key with
  | .ok name => name
  | .error _ => ""

mutual

/-- What the application reads for a value it has written: arrays for lists and sets, a plain object for a map,
`undefined` for an element of a tuple that is missing and `null` for a field. -/
def readBack : CqlType → Value → Js
  | .native _, v => readNative v
  | .list t, v => .array (v.items.map (readBack t))
  | .set t, v => .array (v.items.map (readBack t))
  | .map k t, v =>
      .object (v.entries.map fun p => (keyText host (readBack k p.1), readBack t p.2)) .objectPrototype
  | .tuple ts, v => .tuple (readElements ts v.items)
  | .udt _ fields, v => .object (readFields fields v.props) .objectPrototype
  | .vector t _, v => .vector (v.items.map (readBack t))

def readElements : List CqlType → List Value → List Js
  | t :: ts, v :: vs => (if v.isMissing then .undefined else readBack t v) :: readElements ts vs
  | _, _ => []

def readFields : List (String × CqlType) → List (String × Value) → List (String × Js)
  | [], _ => []
  | (name, t) :: fields, props =>
      let v := fieldValue props name
      (name, if v.isMissing then .null else readBack t v) :: readFields fields props

end

mutual

/-- The keys of every map have texts that tell them apart, and the names of every user-defined type are in the
order in which an object lists them. -/
def Readable : CqlType → Value → Prop
  | .native _, _ => True
  | .list t, v => ∀ x ∈ v.items, Readable t x
  | .set t, v => ∀ x ∈ v.items, Readable t x
  | .map k t, v => (∀ p ∈ v.entries, Readable k p.1 ∧ Readable t p.2 ∧
      ∃ name, text host (readBack host k p.1) = .ok name ∧ name ≠ "__proto__") ∧
      v.entries.Pairwise fun p q => keyText host (readBack host k p.1) ≠ keyText host (readBack host k q.1)
  | .tuple ts, v => ReadableElements ts v.items
  | .udt _ fields, v => JsObject.InEnumerationOrder (fields.map Prod.fst) ∧ ReadableFields fields v.props
  | .vector t _, v => ∀ x ∈ v.items, Readable t x

def ReadableElements : List CqlType → List Value → Prop
  | t :: ts, v :: vs => (v.isMissing = true ∨ Readable t v) ∧ ReadableElements ts vs
  | _, _ => True

def ReadableFields : List (String × CqlType) → List (String × Value) → Prop
  | [], _ => True
  | (name, t) :: fields, props =>
      ((fieldValue props name).isMissing = true ∨ Readable t (fieldValue props name)) ∧ ReadableFields fields props

end

end ReadBack

section Read

variable {host : Host} {e : Encoder}

theorem fromCqlDate_eq (d : DateValue) : fromCqlDate (BitVec.ofInt 32 (d.value + 2 ^ 31)) = d := by
  obtain ⟨value, hfits⟩ := d
  have hrange : 0 ≤ value + 2 ^ 31 ∧ value + 2 ^ 31 < 2 ^ 32 := by
    unfold Fits at hfits
    norm_num at hfits
    omega
  have hnat : ((BitVec.ofInt 32 (value + 2 ^ 31)).toNat : ℤ) = value + 2 ^ 31 := by
    rw [BitVec.toNat_ofInt]
    norm_num at hrange ⊢
    omega
  have hvalue : wrap 32 (((BitVec.ofInt 32 (value + 2 ^ 31)).toNat : ℤ) - 2 ^ 31) = value := by
    rw [hnat, add_sub_cancel_right, wrap_eq_self (by norm_num) hfits]
  simp only [fromCqlDate, hvalue]

theorem getCqlObject_scalar (code : NativeCode) (s : Scalar) :
    getCqlObject host (.scalar s) (.native code) = nativeValue code s := by
  simp only [getCqlObject, withWrappers, convert]

theorem read_native {t : NativeType} {v : Value} (h : WellTypedNative t v) :
    getCqlObject host (toNapiValue (cqlNative t v)) (.native (nativeCode t)) = .ok (readNative v) := by
  have hint {w : ℕ} {n : ℤ} (hw : 0 < w) (hn : Fits w n) : (BitVec.ofInt w n).toInt = n := by
    rw [BitVec.toInt_ofInt]
    exact wrap_eq_self hw hn
  cases t with
  | int | smallint | tinyint =>
      obtain ⟨n, hn, rfl⟩ := h
      rw [cqlNative, toNapiValue, hint (by norm_num) hn, getCqlObject_scalar]
      rfl
  | bigint =>
      obtain ⟨n, rfl⟩ := h
      rw [cqlNative, toNapiValue, nativeCode, getCqlObject_scalar, nativeValue, bigintToLong_eq, BitVec.ofInt_toInt]
      rfl
  | varint =>
      obtain ⟨n, rfl⟩ := h
      rw [cqlNative, toNapiValue, (Integer.readInt_toBuffer n).2, getCqlObject_scalar]
      rfl
  | uuid =>
      obtain ⟨u, rfl⟩ := h
      rw [cqlNative, toNapiValue, nativeCode, getCqlObject_scalar, nativeValue, newUuid, dif_pos u.valid]
      rfl
  | date =>
      obtain ⟨d, rfl⟩ := h
      rw [cqlNative, toNapiValue, fromCqlDate_eq]
      rfl
  | boolean | blob | text =>
      obtain ⟨x, rfl⟩ := h
      rw [cqlNative, toNapiValue, getCqlObject_scalar]
      rfl
  | time | duration | inet =>
      obtain ⟨x, rfl⟩ := h
      rw [cqlNative, toNapiValue]
      rfl

theorem mapArray_map {α : Type} {convert : Field → Except Error Js} {f : α → Field} {g : α → Js} {as : List α}
    (h : ∀ a ∈ as, convert (f a) = .ok (g a)) : mapArray convert (as.map f) = .ok (as.map g) := by
  induction as with
  | nil => rfl
  | cons a as ih =>
      rw [List.map_cons, mapArray, h a (List.mem_cons_self ..), ih fun b hb => h b (List.mem_cons_of_mem _ hb)]
      rfl

/-- Entries with different names are added one by one. -/
theorem assignMap_map {α : Type} {k t : ColumnType} {pair : α → Field × Field} {entry : α → String × Js}
    {as : List α} {own : List (String × Js)}
    (h : ∀ a ∈ as, propertyName host k (pair a).1 = .ok (entry a).1 ∧ (entry a).1 ≠ "__proto__" ∧
      getCqlObject host (pair a).2 t = .ok (entry a).2)
    (hfresh : ∀ a ∈ as, (entry a).1 ∉ own.map Prod.fst)
    (hdistinct : as.Pairwise fun a b => (entry a).1 ≠ (entry b).1) :
    assignMap host k t (as.map pair) own .objectPrototype = .ok (.object (own ++ as.map entry) .objectPrototype) := by
  induction as generalizing own with
  | nil => rw [List.map_nil, List.map_nil, List.append_nil, assignMap, List.map_nil, assignPairs]
  | cons a as ih =>
      obtain ⟨hname, hproto, hv⟩ := h a (List.mem_cons_self ..)
      obtain ⟨hnew, hdistinct⟩ := List.pairwise_cons.1 hdistinct
      have hassign : assign host own .objectPrototype (entry a).1 (entry a).2 =
          .ok (own ++ [entry a], .objectPrototype) := by
        rw [assign, if_neg fun hp => hproto hp.1, JsObject.define_of_not_mem _ (hfresh a (List.mem_cons_self ..))]
      have hfreshRest : ∀ b ∈ as, (entry b).1 ∉ (own ++ [entry a]).map Prod.fst := by
        intro b hb hmem
        rw [List.map_append, List.mem_append] at hmem
        obtain hmem | hmem := hmem
        · exact hfresh b (List.mem_cons_of_mem _ hb) hmem
        · exact hnew b hb (List.mem_singleton.1 hmem).symm
      have hrest := ih (fun b hb => h b (List.mem_cons_of_mem _ hb)) hfreshRest hdistinct
      rw [List.map_cons, assignMap_step _ hname hv hassign, hrest, List.map_cons, List.append_assoc,
        List.singleton_append]

theorem toNapiValue_ne_null (v : CqlValue) : toNapiValue v ≠ .null := by
  cases v <;> simp [toNapiValue, udtField]

theorem tupleElements_cons {t : ColumnType} {ts : List ColumnType} {field : Field} {fields : List Field} {x : Js}
    {elements : List Js} (hne : field ≠ .null) (hx : getCqlObject host field t = .ok x)
    (hs : ResultsWrapper.tupleElements host ts fields = .ok elements) :
    ResultsWrapper.tupleElements host (t :: ts) (field :: fields) = .ok (x :: elements) := by
  rw [getCqlObject] at hx
  cases field with
  | null => exact absurd rfl hne
  | _ =>
      simp only [ResultsWrapper.tupleElements, hx, hs]
      rfl

theorem map_fst_toNapiFields (fields : List (String × CqlType)) (props : List (String × Value)) :
    (toNapiFields (cqlFields fields props)).map Prod.fst = fields.map Prod.fst := by
  induction fields with
  | nil => simp only [cqlFields, toNapiFields, List.map_nil]
  | cons field fields ih =>
      obtain ⟨name, t⟩ := field
      rw [cqlFields, List.map_cons]
      cases cqlElement t (fieldValue props name) with
      | none => rw [toNapiFields, List.map_cons, ih]
      | some v => rw [toNapiFields, List.map_cons, ih]

theorem map_fst_readFields (fields : List (String × CqlType)) (props : List (String × Value)) :
    (readFields host fields props).map Prod.fst = fields.map Prod.fst := by
  induction fields with
  | nil => rw [readFields, List.map_nil, List.map_nil]
  | cons field fields ih =>
      obtain ⟨name, t⟩ := field
      rw [readFields, List.map_cons, ih, List.map_cons]

theorem read_items {t : CqlType} {vs : List Value}
    (h : ∀ x ∈ vs, getCqlObject host (toNapiValue (cqlValue t x)) (columnType t) = .ok (readBack host t x)) :
    mapArray (withWrappers (convert host (columnType t))) (toNapiValues (vs.map (cqlValue t))) =
      .ok (vs.map (readBack host t)) := by
  rw [toNapiValues_eq, List.map_map]
  exact mapArray_map h

theorem getCqlObject_array (t : ColumnType) (vs : List Field) :
    getCqlObject host (.array vs) t = convert host t (.array vs) := rfl

theorem read_map {k t : CqlType} {entries : List (Value × Value)}
    (hk : ∀ p ∈ entries, getCqlObject host (toNapiValue (cqlValue k p.1)) (columnType k) = .ok (readBack host k p.1))
    (ht : ∀ p ∈ entries, getCqlObject host (toNapiValue (cqlValue t p.2)) (columnType t) = .ok (readBack host t p.2))
    (hname : ∀ p ∈ entries, ∃ name, text host (readBack host k p.1) = .ok name ∧ name ≠ "__proto__")
    (hdistinct : entries.Pairwise fun p q =>
      keyText host (readBack host k p.1) ≠ keyText host (readBack host k q.1)) :
    getCqlObject host (.array (toNapiEntries (entries.map fun p => (cqlValue k p.1, cqlValue t p.2))))
        (.map (columnType k) (columnType t)) =
      .ok (.object (entries.map fun p => (keyText host (readBack host k p.1), readBack host t p.2))
        .objectPrototype) := by
  have hfield : Field.array (toNapiEntries (entries.map fun p => (cqlValue k p.1, cqlValue t p.2))) =
      mapField (entries.map fun p => (toNapiValue (cqlValue k p.1), toNapiValue (cqlValue t p.2))) := by
    rw [toNapiEntries_eq, mapField, List.map_map, List.map_map]
    rfl
  rw [hfield, getCqlObject_mapField, ← List.nil_append (entries.map fun p => (keyText host _, _))]
  refine assignMap_map (fun p hp => ?_) (by simp) hdistinct
  obtain ⟨name, htext, hproto⟩ := hname p hp
  have hkey : keyText host (readBack host k p.1) = name := by rw [keyText, htext]
  refine ⟨?_, by rwa [hkey], ht p hp⟩
  rw [propertyName, hk p hp, hkey]
  exact htext

theorem read_udt {name : String} {fields : List (String × CqlType)} {props : List (String × Value)}
    (hnodup : (fields.map Prod.fst).Nodup) (hproto : "__proto__" ∉ fields.map Prod.fst)
    (horder : JsObject.InEnumerationOrder (fields.map Prod.fst))
    (h : udtEntries host (columnFields fields)
      ((toNapiFields (cqlFields fields props)).map fun p => (p.1, p.2.getD .null)) =
        .ok (readFields host fields props)) :
    getCqlObject host (udtField (toNapiFields (cqlFields fields props))) (.udt name (columnFields fields)) =
      .ok (.object (readFields host fields props) .objectPrototype) := by
  have hnames := map_fst_toNapiFields fields props
  have hprops : ((toNapiFields (cqlFields fields props)).map fun p => (p.1, p.2.getD Field.null)).map Prod.fst =
      fields.map Prod.fst := by
    rw [List.map_map]
    exact hnames
  rw [udtField_eq (by rwa [hnames]) (by rwa [hnames]), getCqlObject_object,
    JsObject.entries_eq_self (by rwa [hprops]), h, Except.map,
    JsObject.foldl_define_eq (by rwa [map_fst_readFields]) (by simp), List.nil_append]

mutual

/-- What the native layer hands over for a value is read as the application finds it. -/
theorem read_cqlValue : ∀ (t : CqlType) (v : Value), e.WellTyped t v → Readable host t v →
    getCqlObject host (toNapiValue (cqlValue t v)) (columnType t) = .ok (readBack host t v)
  | .native t, v, ht, _ => by
      rw [WellTyped] at ht
      rw [cqlValue, columnType, readBack, read_native ht]
  | .list t, v, ht, hr => by
      rw [WellTyped] at ht
      rw [Readable] at hr
      obtain ⟨vs, rfl, -, hitems⟩ := ht
      rw [cqlValue, toNapiValue, columnType, getCqlObject_array, convert, readBack]
      simp only [Value.items, read_items fun x hx => read_cqlValue t x (hitems x hx) (hr x hx)]
      rfl
  | .set t, v, ht, hr => by
      rw [WellTyped] at ht
      rw [Readable] at hr
      obtain ⟨vs, hvs, -, -, hitems⟩ := ht
      have hval : v.items = vs := by
        obtain rfl | ⟨-, rfl⟩ := hvs
        · rfl
        · rfl
      rw [hval] at hr
      rw [cqlValue, toNapiValue, columnType, getCqlObject_array, convert, readBack, hval,
        read_items fun x hx => read_cqlValue t x (hitems x hx) (hr x hx)]
      rfl
  | .map k t, v, ht, hr => by
      rw [WellTyped] at ht
      rw [Readable] at hr
      obtain ⟨entries, rfl, -, hentries⟩ := ht
      obtain ⟨hreadable, hdistinct⟩ := hr
      rw [cqlValue, toNapiValue, columnType, readBack]
      refine read_map (fun p hp => ?_) (fun p hp => ?_) (fun p hp => (hreadable p hp).2.2) hdistinct
      · exact read_cqlValue k p.1 (hentries p hp).1 (hreadable p hp).1
      · exact read_cqlValue t p.2 (hentries p hp).2 (hreadable p hp).2.1
  | .tuple ts, v, ht, hr => by
      rw [WellTyped] at ht
      rw [Readable] at hr
      obtain ⟨vs, rfl, hts, htuple⟩ := ht
      rw [cqlValue, toNapiValue, columnType, getCqlObject_array, convert, readBack]
      simp only [Value.items] at hr ⊢
      have hempty : (readElements host ts vs).isEmpty = false := by
        cases ts with
        | nil => exact absurd rfl hts
        | cons t ts =>
            rw [WellTypedTuple] at htuple
            obtain ⟨v, ws, rfl, -⟩ := htuple
            rw [readElements, List.isEmpty_cons]
      rw [read_elements ts vs htuple hr]
      change (if (readElements host ts vs).isEmpty = true then _ else _) = _
      rw [hempty, if_neg Bool.false_ne_true]
  | .udt name fields, v, ht, hr => by
      rw [WellTyped] at ht
      rw [Readable] at hr
      obtain ⟨props, rfl, -, hnodup, hproto, -, hudt⟩ := ht
      rw [cqlValue, toNapiValue, columnType, readBack]
      exact read_udt hnodup hproto hr.1 (read_fields fields props hudt hr.2)
  | .vector t dimension, v, ht, hr => by
      rw [WellTyped] at ht
      rw [Readable] at hr
      obtain ⟨vs, rfl, hd, hlen, hitems⟩ := ht
      rw [cqlValue, toNapiValue, columnType, getCqlObject_array, convert, readBack]
      simp only [Value.items, read_items fun x hx => read_cqlValue t x (hitems x hx) (hr x hx)]
      have hempty : (vs.map (readBack host t)).isEmpty = false := by
        rw [List.isEmpty_eq_false_iff, ne_eq, List.map_eq_nil_iff]
        rintro rfl
        rw [List.length_nil] at hlen
        omega
      change (if (vs.map (readBack host t)).isEmpty = true then _ else _) = _
      rw [hempty, if_neg Bool.false_ne_true]
termination_by t => (sizeOf t, 0)

theorem read_elements : ∀ (ts : List CqlType) (vs : List Value), e.WellTypedTuple ts vs →
    ReadableElements host ts vs → ResultsWrapper.tupleElements host (columnTypes ts)
      (toNapiElements (cqlElements ts vs)) = .ok (readElements host ts vs)
  | [], vs, _, _ => by simp only [columnTypes, cqlElements, toNapiElements, readElements, ResultsWrapper.tupleElements]
  | t :: ts, vs, ht, hr => by
      rw [WellTypedTuple] at ht
      obtain ⟨v, ws, rfl, hvt, htuple⟩ := ht
      rw [ReadableElements] at hr
      have hrest := read_elements ts ws htuple hr.2
      rw [columnTypes, cqlElements, cqlElement, readElements]
      cases hmissing : v.isMissing with
      | true =>
          rw [if_pos rfl, if_pos rfl, toNapiElements]
          simp only [ResultsWrapper.tupleElements, hrest]
          rfl
      | false =>
          rw [if_neg Bool.false_ne_true, if_neg Bool.false_ne_true, toNapiElements]
          refine tupleElements_cons (toNapiValue_ne_null _) ?_ hrest
          exact read_cqlValue t v (hvt.resolve_left (by simp [hmissing])) (hr.1.resolve_left (by simp [hmissing]))
termination_by ts => (sizeOf ts, 0)

theorem read_fields : ∀ (fields : List (String × CqlType)) (props : List (String × Value)),
    e.WellTypedFields fields props → ReadableFields host fields props → udtEntries host (columnFields fields)
      ((toNapiFields (cqlFields fields props)).map fun p => (p.1, p.2.getD .null)) = .ok (readFields host fields props)
  | [], props, _, _ => by simp only [columnFields, cqlFields, toNapiFields, readFields, List.map_nil, udtEntries]
  | (name, t) :: fields, props, ht, hr => by
      rw [WellTypedFields] at ht
      rw [ReadableFields] at hr
      have hrest := read_fields fields props ht.2 hr.2
      rw [columnFields, cqlFields, cqlElement, readFields]
      cases hmissing : (fieldValue props name).isMissing with
      | true =>
          rw [if_pos rfl, toNapiFields, List.map_cons, udtEntries]
          simp only [hrest, if_true]
          rfl
      | false =>
          rw [if_neg Bool.false_ne_true, toNapiFields, List.map_cons, udtEntries]
          have hread := read_cqlValue t _ (ht.1.resolve_left (by simp [hmissing]))
            (hr.1.resolve_left (by simp [hmissing]))
          rw [getCqlObject] at hread
          simp only [Option.getD_some, hread, hrest, Bool.false_eq_true, if_false]
          rfl
termination_by fields => (sizeOf fields, 0)

end

end Read

end NativeLayer
end CqlDriver
