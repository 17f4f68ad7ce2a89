import CqlDriver.Lib.JsObject
import CqlDriver.Lib.Utf8
import CqlDriver.InetAddress
import CqlDriver.Integer
import CqlDriver.VInt

/-! # The encoder (`lib/encoder.js`)

`encode` turns a JavaScript value into the bytes of a CQL type, `decode` does the reverse.  Both are
recursive in the type; the loops over the items of a collection take the coding of an item as an
argument.  `encodingOptions.map` is set, with `keyEq` as the comparison of its keys.  What the encode
methods do with values of a JavaScript class other than the one of the type (numeric strings, plain
objects for a map) is the parameter `other`. -/

namespace CqlDriver

open Bytes MachineInt

/-! ### Types and values -/

inductive NativeType where
  | int | smallint | tinyint | bigint | varint | boolean | blob | text | uuid | date | time | duration | inet
deriving DecidableEq, Repr

inductive CqlType where
  | native (t : NativeType)
  | list (t : CqlType)
  | set (t : CqlType)
  | map (key value : CqlType)
  | tuple (ts : List CqlType)
  | udt (name : String) (fields : List (String × CqlType))
  | vector (t : CqlType) (dimension : ℕ)

structure Uuid where
  buffer : List UInt8
  valid : buffer.length = 16
deriving DecidableEq

/-- A `LocalDate`, by the days since the epoch that its comparison reads. -/
structure DateValue where
  value : ℤ
  fits : Fits 32 value
deriving DecidableEq

/-- A `LocalTime`, in nanoseconds. -/
structure LocalTime where
  value : ℕ
  valid : value ≤ 86399999999999
deriving DecidableEq

structure Duration where
  months : ℤ
  days : ℤ
  nanoseconds : BitVec 64
  fits : Fits 32 months ∧ Fits 32 days
deriving DecidableEq

inductive Value where
  | undefined
  | null
  | unset
  | number (n : ℤ)
  | boolean (b : Bool)
  | string (s : String)
  | buffer (bs : List UInt8)
  | long (n : BitVec 64)
  | integer (n : Integer)
  | uuid (u : Uuid)
  | localDate (d : DateValue)
  | localTime (t : LocalTime)
  | duration (d : Duration)
  | inetAddress (a : InetAddress)
  | array (vs : List Value)
  | set (vs : List Value)
  | map (entries : List (Value × Value))
  | tuple (vs : List Value)
  | object (props : List (String × Value))
  | vector (vs : List Value)
  /-- A member of `Object.prototype`, read from an object. -/
  | inherited (name : String)

inductive EncoderError where
  | unsetNotSupported (protocolVersion : ℕ)
  | notList (v : Value)
  | nullItem
  | nullKey
  | nullValue
  | notVector
  | vectorSize (dimension observed : ℕ)
  | emptyVector
  | emptyVectorValue
  | emptyTuple
  | vectorTooShort
  | vectorExtraBytes
  | uuidLength
  | timeRange
  | inet (e : InetAddress.Error)
  /-- `RangeError` of a `Buffer` method or of the `Array` constructor. -/
  | range
  /-- `TypeError` of the runtime: `Buffer.concat` of a `null`, or a property of a `null`. -/
  | type
  /-- An error of a method modelled by `other`. -/
  | other

def EncoderError.message (inspect : Value → String) : EncoderError → String
  | unsetNotSupported v =>
      "Unset value can not be used for this version of Cassandra, protocol version: " ++ toString v
  | notList v => "Not a valid list value, expected Array obtained " ++ inspect v
  | nullItem => "A collection can't contain null or unset values"
  | nullKey => "A map can't contain null or unset keys"
  | nullValue => "A map can't contain null or unset values"
  | notVector => "Driver only supports Vector type when encoding a vector"
  | vectorSize dimension observed =>
      "Expected vector with " ++ toString dimension ++ " dimensions, observed size of " ++ toString observed
  | emptyVector => "Cannot encode empty array as vector"
  | emptyVectorValue => "Vector must contain at least one value"
  | emptyTuple => "Tuple must contain at least one value"
  | vectorTooShort => "Not enough bytes to decode the vector"
  | vectorExtraBytes => "Extra bytes found after decoding the vector"
  | uuidLength => "You must provide a buffer containing 16 bytes"
  | timeRange => "Total nanoseconds out of range"
  | inet (.typeError m) => m
  | inet .rangeError | range => "RangeError"
  | type => "TypeError"
  | other => ""

/-- A result of `encode`: a buffer, `null`, or `undefined` for an unset value. -/
inductive Encoded where
  | buffer (bs : List UInt8)
  | null
  | undefined

structure Encoder where
  protocolVersion : ℕ
  useUndefinedAsUnset : Bool
  /-- Whether `encodingOptions.set` is given. -/
  set : Bool
  /-- The comparison of the keys of a `Map` and of the elements of a `Set`. -/
  keyEq : Value → Value → Bool
  other : CqlType → Value → Except EncoderError Encoded

/-! ### Native types -/

namespace Long

def toBuffer (value : BitVec 64) : List UInt8 :=
  toBE 4 (VInt.getHighBits value).toNat ++ toBE 4 (VInt.getLowBits value).toNat

/-- `new Long(value.readInt32BE(4), value.readInt32BE(0))` -/
def fromBuffer (bytes : List UInt8) : Except EncoderError (BitVec 64) :=
  match bytesAt 4 bytes 4, bytesAt 4 bytes 0 with
  | some low, some high => .ok (BitVec.ofInt 32 (readInt high) ++ BitVec.ofInt 32 (readInt low))
  | _, _ => .error .range

end Long

namespace DateValue

/-- `dateCenter` -/
def center : ℤ := 2147483648

def toBuffer (d : DateValue) : List UInt8 := toBE 4 (d.value + center).toNat

theorem fits_ofBE {bs : List UInt8} (h : bs.length = 4) : Fits 32 (ofBE bs - center) := by
  have hlt := ofBE_lt bs
  rw [h] at hlt
  unfold Fits center
  omega

def fromBuffer (bytes : List UInt8) : Except EncoderError DateValue :=
  if h : ((bytes.take 4).length = 4) then .ok ⟨ofBE (bytes.take 4) - center, fits_ofBE h⟩
  else .error .range

end DateValue

namespace LocalTime

def toBuffer (t : LocalTime) : List UInt8 := Long.toBuffer (BitVec.ofNat 64 t.value)

def fromBuffer (bytes : List UInt8) : Except EncoderError LocalTime :=
  (Long.fromBuffer bytes).bind fun n =>
    if h : 0 ≤ n.toInt ∧ n.toInt ≤ 86399999999999 then .ok ⟨n.toInt.toNat, by omega⟩
    else .error .timeRange

end LocalTime

namespace Duration

def toBuffer (d : Duration) : List UInt8 :=
  VInt.writeVInt (BitVec.ofInt 64 d.months) ++ VInt.writeVInt (BitVec.ofInt 64 d.days) ++
    VInt.writeVInt d.nanoseconds

theorem fits_wrap32 (x : ℤ) : Fits 32 (wrap 32 x) := by
  have h₁ := Int.le_bmod (x := x) (m := 2 ^ 32) (by norm_num)
  have h₂ := Int.bmod_lt (x := x) (m := 2 ^ 32) (by norm_num)
  unfold Fits wrap
  norm_num at h₁ h₂ ⊢
  omega

/-- The native constructor takes `months` and `days` as 32-bit integers. -/
def fromBuffer (buffer : List UInt8) : Duration :=
  let (months, offset) := VInt.readVInt buffer 0
  let (days, offset) := VInt.readVInt buffer offset
  let (nanoseconds, _) := VInt.readVInt buffer offset
  ⟨wrap 32 months.toInt, wrap 32 days.toInt, nanoseconds, fits_wrap32 _, fits_wrap32 _⟩

end Duration

/-- JavaScript's conversion to a boolean. -/
def Value.truthy : Value → Bool
  | .undefined | .null => false
  | .number n => n != 0
  | .boolean b => b
  | .string s => s != ""
  | _ => true

/-- The values a collection refuses. -/
def Value.isNullish : Value → Bool
  | .null | .undefined | .unset => true
  | _ => false

/-- `buf.writeInt32BE(value)` and its siblings for other widths. -/
def writeIntBE (w : ℕ) (n : ℤ) : Except EncoderError (List UInt8) :=
  if Fits (8 * w) n then .ok (writeInt w n) else .error .range

namespace Encoder

def encodeNative (e : Encoder) (t : NativeType) (v : Value) : Except EncoderError Encoded :=
  match t, v with
  | .int, .number n => (writeIntBE 4 n).map .buffer
  | .smallint, .number n => (writeIntBE 2 n).map .buffer
  | .tinyint, .number n => (writeIntBE 1 n).map .buffer
  | .bigint, .long n => .ok (.buffer (Long.toBuffer n))
  | .varint, .integer n => .ok (.buffer n.toBuffer)
  | .boolean, v => .ok (.buffer [if v.truthy then 1 else 0])
  | .text, .string s => .ok (.buffer (Utf8.encode s))
  | .uuid, .uuid u => .ok (.buffer u.buffer)
  | .date, .localDate d => .ok (.buffer d.toBuffer)
  | .time, .localTime t => .ok (.buffer t.toBuffer)
  | .duration, .duration d => .ok (.buffer d.toBuffer)
  | .inet, .inetAddress a => .ok (.buffer a.buffer)
  | t, v => e.other (.native t) v

/-- `bytes.readInt32BE(0)` and its siblings for other widths. -/
def readIntBE (w : ℕ) (bytes : List UInt8) : Except EncoderError Value :=
  match bytesAt w bytes 0 with
  | some bs => .ok (.number (readInt bs))
  | none => .error .range

def decodeNative (t : NativeType) (bytes : List UInt8) : Except EncoderError Value :=
  match t with
  | .int => readIntBE 4 bytes
  | .smallint => readIntBE 2 bytes
  | .tinyint => readIntBE 1 bytes
  | .bigint => (Long.fromBuffer bytes).map .long
  | .varint => .ok (.integer (Integer.fromBuffer bytes))
  | .boolean =>
      match bytes with
      | b :: _ => .ok (.boolean (b != 0))
      | [] => .error .range
  | .blob => .ok (.buffer bytes)
  | .text => .ok (.string (Utf8.decode bytes))
  | .uuid => if h : bytes.length = 16 then .ok (.uuid ⟨bytes, h⟩) else .error .uuidLength
  | .date => (DateValue.fromBuffer bytes).map .localDate
  | .time => (LocalTime.fromBuffer bytes).map .localTime
  | .duration => .ok (.duration (Duration.fromBuffer bytes))
  | .inet =>
      match InetAddress.new bytes with
      | .ok a => .ok (.inetAddress a)
      | .error err => .error (.inet err)

/-! ### Encoding -/

/-- The start of `encode`, in front of the method of the type. -/
def encodeWith (e : Encoder) (encoder : Value → Except EncoderError Encoded) (v : Value) :
    Except EncoderError Encoded :=
  let unset : Except EncoderError Encoded :=
    if 4 ≤ e.protocolVersion then .ok .undefined else .error (.unsetNotSupported e.protocolVersion)
  match v with
  | .undefined => if e.useUndefinedAsUnset ∧ 4 ≤ e.protocolVersion then unset else .ok .null
  | .unset => unset
  | .null => .ok .null
  | .buffer bs => .ok (.buffer bs)
  | v => encoder v

/-- `getLengthBuffer`, which protocol version 3 widened. -/
def lengthBuffer (e : Encoder) (n : ℕ) : Except EncoderError (List UInt8) :=
  if 3 ≤ e.protocolVersion then writeIntBE 4 n
  else if n < 65536 then .ok (toBE 2 n) else .error .range

end Encoder

namespace Encoded

/-- The length `getLengthBuffer` takes: nothing but a buffer has one. -/
def length : Encoded → ℕ
  | buffer bs => bs.length
  | _ => 0

end Encoded

namespace Encoder

/-- `Buffer.concat(parts)` -/
def concat : List Encoded → Except EncoderError (List UInt8)
  | [] => .ok []
  | .buffer bs :: parts => (concat parts).map (bs ++ ·)
  | _ :: _ => .error .type

/-- The loop of `encodeList`: the parts of the items. -/
def listParts (e : Encoder) (encoder : Value → Except EncoderError Encoded) :
    List Value → Except EncoderError (List Encoded)
  | [] => .ok []
  | v :: vs =>
      if v.isNullish then .error .nullItem
      else do
        let bytes ← e.encodeWith encoder v
        let length ← e.lengthBuffer bytes.length
        let parts ← listParts e encoder vs
        .ok (.buffer length :: bytes :: parts)

def encodeList (e : Encoder) (encoder : Value → Except EncoderError Encoded) (v : Value) :
    Except EncoderError Encoded :=
  match v with
  | .array [] => .ok .null
  | .array vs => do
      let length ← e.lengthBuffer vs.length
      let parts ← e.listParts encoder vs
      (concat (.buffer length :: parts)).map .buffer
  | v => .error (.notList v)

def encodeSet (e : Encoder) (encoder : Value → Except EncoderError Encoded) (v : Value) :
    Except EncoderError Encoded :=
  match e.set, v with
  | true, .set vs => e.encodeList encoder (.array vs)
  | _, v => e.encodeList encoder v

/-- `addItem` for every entry; a `null` from an empty collection as value is left out. -/
def mapParts (e : Encoder) (keyEncoder valueEncoder : Value → Except EncoderError Encoded) :
    List (Value × Value) → Except EncoderError (List Encoded)
  | [] => .ok []
  | (key, val) :: entries =>
      if key.isNullish then .error .nullKey
      else if val.isNullish then .error .nullValue
      else do
        let keyBuffer ← e.encodeWith keyEncoder key
        let keyLength ← e.lengthBuffer keyBuffer.length
        let valueBuffer ← e.encodeWith valueEncoder val
        let valueLength ← e.lengthBuffer valueBuffer.length
        let parts ← mapParts e keyEncoder valueEncoder entries
        match valueBuffer with
        | .null => .ok (.buffer keyLength :: keyBuffer :: .buffer valueLength :: parts)
        | _ => .ok (.buffer keyLength :: keyBuffer :: .buffer valueLength :: valueBuffer :: parts)

/-- `value[field.name]` -/
def fieldValue (props : List (String × Value)) (name : String) : Value :=
  match JsObject.get props name with
  | .own v => v
  | .inherited => .inherited name
  | .undefined => .undefined

/-- The part of a tuple element or of a field. -/
def fieldPart : Encoded → Except EncoderError (List UInt8)
  | .buffer bs => (writeIntBE 4 bs.length).map (· ++ bs)
  | _ => .ok [255, 255, 255, 255]

/-- `serializationSizeIfFixed`; `none` stands for `-1`. -/
def serializationSizeIfFixed : CqlType → Option ℕ
  | .native .bigint => some 8
  | .native .boolean => some 1
  | .native .int => some 4
  | .native .uuid => some 16
  | .vector t dimension => (serializationSizeIfFixed t).map (· * dimension)
  | _ => none

/-- The loop of `encodeVector`; the sizes of elements of a variable size stand before them. -/
def vectorParts (e : Encoder) (size : Option ℕ) (encoder : Value → Except EncoderError Encoded) :
    List Value → Except EncoderError (List Encoded)
  | [] => .ok []
  | v :: vs => do
      let elemBuffer ← e.encodeWith encoder v
      let sizeParts ← match size, elemBuffer with
        | some _, _ => .ok []
        | none, .buffer bs =>
            match VInt.uvintPack bs.length with
            | some packed => .ok [.buffer packed]
            | none => .error .range
        | none, _ => .error .type
      let parts ← vectorParts e size encoder vs
      .ok (sizeParts ++ elemBuffer :: parts)

def encodeVector (e : Encoder) (size : Option ℕ) (encoder : Value → Except EncoderError Encoded)
    (dimension : ℕ) (v : Value) : Except EncoderError Encoded :=
  match v with
  | .vector vs =>
      if vs.length ≠ dimension then .error (.vectorSize dimension vs.length)
      else if vs.length = 0 then .error .emptyVector
      else do
        let parts ← e.vectorParts size encoder vs
        (concat parts).map .buffer
  | _ => .error .notVector

mutual

/-- The encode method of a type. -/
def encodeType (e : Encoder) : CqlType → Value → Except EncoderError Encoded
  | .native t, v => e.encodeNative t v
  | .list t, v => e.encodeList (encodeType e t) v
  | .set t, v => e.encodeSet (encodeType e t) v
  | .map k t, v =>
      match v with
      | .map entries => do
          let parts ← e.mapParts (encodeType e k) (encodeType e t) entries
          let length ← e.lengthBuffer entries.length
          (concat (.buffer length :: parts)).map .buffer
      | v => e.other (.map k t) v
  | .tuple ts, v =>
      match v with
      | .tuple vs => (tupleParts e ts vs).map .buffer
      | v => e.other (.tuple ts) v
  | .udt name fields, v =>
      match v with
      | .object props => (udtParts e fields props).map .buffer
      | v => e.other (.udt name fields) v
  | .vector t dimension, v =>
      e.encodeVector (serializationSizeIfFixed t) (encodeType e t) dimension v

/-- The loop of `encodeTuple`, over the shorter of the type and the value. -/
def tupleParts (e : Encoder) : List CqlType → List Value → Except EncoderError (List UInt8)
  | t :: ts, v :: vs => do
      let item ← e.encodeWith (encodeType e t) v
      let part ← fieldPart item
      let parts ← tupleParts e ts vs
      .ok (part ++ parts)
  | _, _ => .ok []

/-- The loop of `encodeUdt`, which reads `value[field.name]`. -/
def udtParts (e : Encoder) : List (String × CqlType) → List (String × Value) → Except EncoderError (List UInt8)
  | [], _ => .ok []
  | (name, t) :: fields, props => do
      let item ← e.encodeWith (encodeType e t) (fieldValue props name)
      let part ← fieldPart item
      let parts ← udtParts e fields props
      .ok (part ++ parts)

end

def encode (e : Encoder) (v : Value) (t : CqlType) : Except EncoderError Encoded :=
  e.encodeWith (e.encodeType t) v

/-! ### Decoding -/

/-- `decodeCollectionLength` -/
def collectionLength (e : Encoder) (bytes : List UInt8) (offset : ℤ) : Except EncoderError ℤ :=
  if 3 ≤ e.protocolVersion then
    match bytesAt 4 bytes offset with
    | some bs => .ok (readInt bs)
    | none => .error .range
  else
    match bytesAt 2 bytes offset with
    | some bs => .ok (ofBE bs)
    | none => .error .range

def collectionLengthSize (e : Encoder) : ℤ := if 3 ≤ e.protocolVersion then 4 else 2

/-- The loop of `decodeList`, over the items that are left. -/
def listItems (e : Encoder) (decoder : List UInt8 → Except EncoderError Value) (bytes : List UInt8) :
    ℕ → ℤ → Except EncoderError (List Value)
  | 0, _ => .ok []
  | n + 1, offset => do
      let length ← e.collectionLength bytes offset
      let offset := offset + e.collectionLengthSize
      let v ← decoder (slice bytes offset (offset + length))
      let vs ← listItems e decoder bytes n (offset + length)
      .ok (v :: vs)

/-- `new Array(totalItems)` rejects a negative number of items. -/
def decodeList (e : Encoder) (decoder : List UInt8 → Except EncoderError Value) (bytes : List UInt8) :
    Except EncoderError (List Value) := do
  let totalItems ← e.collectionLength bytes 0
  if totalItems < 0 then .error .range
  else e.listItems decoder bytes totalItems.toNat e.collectionLengthSize

/-- `new Set(arr)` -/
def newSet (e : Encoder) (vs : List Value) : List Value :=
  vs.foldl (fun acc v => if acc.any (e.keyEq · v) then acc else acc ++ [v]) []

/-- `map.set(key, value)` -/
def mapSet (e : Encoder) (entries : List (Value × Value)) (key value : Value) : List (Value × Value) :=
  if entries.any (fun p => e.keyEq p.1 key) then
    entries.map fun p => if e.keyEq p.1 key then (p.1, value) else p
  else entries ++ [(key, value)]

/-- The loop of `decodeMap`. -/
def mapItems (e : Encoder) (keyDecoder valueDecoder : List UInt8 → Except EncoderError Value)
    (bytes : List UInt8) :
    ℕ → ℤ → List (Value × Value) → Except EncoderError (List (Value × Value))
  | 0, _, entries => .ok entries
  | n + 1, offset, entries => do
      let keyLength ← e.collectionLength bytes offset
      let offset := offset + e.collectionLengthSize
      let key ← keyDecoder (slice bytes offset (offset + keyLength))
      let offset := offset + keyLength
      let valueLength ← e.collectionLength bytes offset
      let offset := offset + e.collectionLengthSize
      if valueLength < 0 then
        mapItems e keyDecoder valueDecoder bytes n offset (e.mapSet entries key .null)
      else do
        let value ← valueDecoder (slice bytes offset (offset + valueLength))
        mapItems e keyDecoder valueDecoder bytes n (offset + valueLength) (e.mapSet entries key value)

def decodeMap (e : Encoder) (keyDecoder valueDecoder : List UInt8 → Except EncoderError Value)
    (bytes : List UInt8) : Except EncoderError Value := do
  let totalItems ← e.collectionLength bytes 0
  (e.mapItems keyDecoder valueDecoder bytes totalItems.toNat e.collectionLengthSize []).map .map

/-- `offset + x` where `none` is `NaN`. -/
def addOffset (offset x : Option ℤ) : Option ℤ := offset.bind fun a => x.map (a + ·)

/-- `bytes.subarray(start, stop)`, which takes `NaN` for zero. -/
def subarray (bytes : List UInt8) (start stop : Option ℤ) : List UInt8 :=
  slice bytes (start.getD 0) (stop.getD 0)

/-- `offset > bytes.length` -/
def exceeds (offset : Option ℤ) (bytes : List UInt8) : Bool :=
  match offset with
  | some o => decide (bytes.length < o)
  | none => false

/-- Where the next element of a vector starts and stops. -/
def elementBounds (size : Option ℕ) (bytes : List UInt8) (offset : Option ℤ) : Option ℤ × Option ℤ :=
  match size with
  | none =>
      let (size, bytesRead) := VInt.uvintUnpack (subarray bytes offset (some bytes.length))
      let start := addOffset offset (some bytesRead)
      (start, addOffset start size)
  | some elemLength => (offset, addOffset offset (some elemLength))

/-- The loop of `decodeVector`, with the offset behind the last element. -/
def vectorItems (size : Option ℕ) (decoder : List UInt8 → Except EncoderError Value)
    (bytes : List UInt8) : ℕ → Option ℤ → Except EncoderError (List Value × Option ℤ)
  | 0, offset => .ok ([], offset)
  | n + 1, offset => do
      let (start, stop) := elementBounds size bytes offset
      if exceeds stop bytes then .error .vectorTooShort
      else do
        let v ← decoder (subarray bytes start stop)
        let (vs, offset) ← vectorItems size decoder bytes n stop
        .ok (v :: vs, offset)

def decodeVector (size : Option ℕ) (decoder : List UInt8 → Except EncoderError Value) (dimension : ℕ)
    (bytes : List UInt8) : Except EncoderError Value := do
  let (vs, offset) ← vectorItems size decoder bytes dimension (some 0)
  if offset ≠ some (bytes.length : ℤ) then .error .vectorExtraBytes
  else if vs.isEmpty then .error .emptyVectorValue
  else .ok (.vector vs)

/-- The types that have values of no bytes; `custom` is the code of a vector. -/
def zeroLengthTypesSupported : CqlType → Bool
  | .native .text | .native .blob | .vector .. => true
  | _ => false

/-- The start of `decode`, in front of the method of the type. -/
def decodeWith (t : CqlType) (decoder : List UInt8 → Except EncoderError Value) (bytes : List UInt8) :
    Except EncoderError Value :=
  if bytes.isEmpty ∧ ¬ zeroLengthTypesSupported t then .ok .null else decoder bytes

/-- The next element of a tuple or of a UDT, with the offset behind it. -/
def decodeField (decoder : List UInt8 → Except EncoderError Value) (bytes : List UInt8) (offset : ℤ) :
    Except EncoderError (Value × ℤ) :=
  match bytesAt 4 bytes offset with
  | none => .error .range
  | some bs =>
      let length := readInt bs
      let offset := offset + 4
      if length < 0 then .ok (.null, offset)
      else (decoder (slice bytes offset (offset + length))).map (·, offset + length)

mutual

/-- The decode method of a type. -/
def decodeType (e : Encoder) : CqlType → List UInt8 → Except EncoderError Value
  | .native t, bytes => decodeNative t bytes
  | .list t, bytes => (e.decodeList (decodeWith t (decodeType e t)) bytes).map .array
  | .set t, bytes =>
      (e.decodeList (decodeWith t (decodeType e t)) bytes).map fun arr =>
        if e.set then .set (e.newSet arr) else .array arr
  | .map k t, bytes => e.decodeMap (decodeWith k (decodeType e k)) (decodeWith t (decodeType e t)) bytes
  | .tuple ts, bytes => do
      let elements ← tupleElements e bytes ts 0
      if elements.isEmpty then .error .emptyTuple else .ok (.tuple elements)
  | .udt _ fields, bytes => (udtFields e bytes fields 0 []).map .object
  | .vector t dimension, bytes =>
      decodeVector (serializationSizeIfFixed t) (decodeWith t (decodeType e t)) dimension bytes

/-- The loop of `decodeTuple`; the elements behind the last bytes stay `undefined`. -/
def tupleElements (e : Encoder) (bytes : List UInt8) :
    List CqlType → ℤ → Except EncoderError (List Value)
  | [], _ => .ok []
  | t :: ts, offset =>
      if offset < bytes.length then do
        let (v, offset) ← decodeField (decodeWith t (decodeType e t)) bytes offset
        let vs ← tupleElements e bytes ts offset
        .ok (v :: vs)
      else .ok (List.replicate (ts.length + 1) .undefined)

/-- The loop of `decodeUdt`; the fields behind the last bytes are not set. -/
def udtFields (e : Encoder) (bytes : List UInt8) :
    List (String × CqlType) → ℤ → List (String × Value) → Except EncoderError (List (String × Value))
  | [], _, result => .ok result
  | (name, t) :: fields, offset, result =>
      if offset < bytes.length then do
        let (v, offset) ← decodeField (decodeWith t (decodeType e t)) bytes offset
        udtFields e bytes fields offset (JsObject.set result name v)
      else .ok result

end

def decode (e : Encoder) (bytes : List UInt8) (t : CqlType) : Except EncoderError Value :=
  decodeWith t (e.decodeType t) bytes

end Encoder
end CqlDriver
