import CqlDriver.Encoder

/-! # Routing keys (`lib/encoder.js`)

`setRoutingKeyFromMeta` and `setRoutingKeyFromUser` encode the parameters of the partition key and leave
the routing key in the options; one with several components is put together by `concatRoutingKey` in an
uninitialised buffer, whose contents are the argument `alloc`.  What `encode` does behind its start is a
parameter, with the type information `τ` of a column or of a hint, which may be missing. -/

namespace CqlDriver.RoutingKey

open Bytes

variable {τ : Type}

/-! ### `concatRoutingKey` -/

/-- A routing key in the options. -/
inductive Key where
  | undefined
  | null
  | buffer (bs : List UInt8)
  /-- The parts given by the user; `none` is a falsy one. -/
  | parts (items : List (Option (List UInt8)))
  /-- A `Token` or a `TokenRange`. -/
  | token
  /-- Any other value that is not falsy. -/
  | other (inspected : String)
deriving DecidableEq

/-- A part of the user's array as the routing key. -/
def Key.ofPart : Option (List UInt8) → Key
  | some item => .buffer item
  | none => .undefined

inductive Error where
  /-- `RangeError` of `writeUInt16BE`. -/
  | range
  /-- `TypeError` of the runtime. -/
  | type
  | unexpectedRoutingKey (inspected : String)
deriving DecidableEq

def Error.message : Error → String
  | range => "RangeError"
  | type => "TypeError"
  | unexpectedRoutingKey inspected => "Unexpected routingKey '" ++ inspected ++ "' provided. " ++
      "Expected Buffer, Array<Buffer>, Token, or TokenRange."

/-- `buf.writeUInt16BE(value, offset)` -/
def writeUInt16BE (buf : List UInt8) (value offset : ℕ) : Except Error (List UInt8) :=
  if value ≤ 65535 ∧ offset + 2 ≤ buf.length then .ok (write buf offset (toBE 2 value)) else .error .range

/-- `item.copy(buf, offset)`: what does not fit is left out. -/
def copy (item buf : List UInt8) (offset : ℕ) : List UInt8 := write buf offset (item.take (buf.length - offset))

/-- The loop over the parts; a part that is missing has no length. -/
def concatLoop : List (Option (List UInt8)) → List UInt8 → ℕ → Except Error (List UInt8)
  | [], routingKey, _ => .ok routingKey
  | none :: _, _, _ => .error .type
  | some item :: parts, routingKey, offset => do
      let routingKey ← writeUInt16BE routingKey item.length offset
      let routingKey := copy item routingKey (offset + 2)
      concatLoop parts (routingKey.set (offset + 2 + item.length) 0) (offset + 2 + item.length + 1)

def concatRoutingKey (alloc : ℕ → List UInt8) (parts : List (Option (List UInt8))) (totalLength : ℕ) :
    Except Error Key :=
  if totalLength = 0 then .ok .null
  else
    match parts with
    | [part] => .ok (.ofPart part)
    | parts => (concatLoop parts (alloc totalLength) 0).map .buffer

/-! ### The components -/

/-- An entry of `routingIndexes`. -/
inductive RoutingIndex where
  | undefined
  | index (i : ℕ)
  /-- `null`, or another value that is no index of an array. -/
  | other
deriving DecidableEq

/-- `array[i]` -/
def RoutingIndex.at {β : Type} (array : List β) : RoutingIndex → Option β
  | .index i => array[i]?
  | _ => none

/-- `parts[i] = item` -/
def setPart (parts : List (Option (List UInt8))) (i : ℕ) (item : List UInt8) : List (Option (List UInt8)) :=
  if i < parts.length then parts.set i (some item)
  else parts ++ List.replicate (i - parts.length) none ++ [some item]

/-- The loop of `_encodeRoutingKeyParts` from an index on: the parts as they are left, and the total length or
the exception. -/
def encodeRoutingKeyParts (encodeParam : RoutingIndex → Except EncoderError Encoded) :
    List RoutingIndex → ℕ → List (Option (List UInt8)) → ℕ → List (Option (List UInt8)) × Except EncoderError ℕ
  | [], _, parts, totalLength => (parts, .ok totalLength)
  | .undefined :: _, _, parts, _ => (parts, .ok 0)
  | paramIndex :: routingIndexes, i, parts, totalLength =>
      match encodeParam paramIndex with
      | .error err => (parts, .error err)
      | .ok (.buffer item) =>
          encodeRoutingKeyParts encodeParam routingIndexes (i + 1) (setPart parts i item)
            (totalLength + (item.length + 3))
      | .ok _ => (parts, .ok 0)

/-- The part of the execution options that is read and written here. -/
structure ExecOptions (τ : Type) where
  routingKey : Key
  routingIndexes : Option (List RoutingIndex)
  routingNames : Option (List String)
  /-- `getHints()`; an entry may be missing. -/
  hints : Option (List (Option τ))

def ExecOptions.setRoutingKey (execOptions : ExecOptions τ) (key : Key) : ExecOptions τ :=
  { execOptions with routingKey := key }

/-- The parameters: their values, or objects with a property `value` and the positions of the names. -/
inductive Params where
  | none
  | values (params : List Value)
  | named (params : List Value) (keys : List (String × RoutingIndex))

def Params.length : Params → ℕ
  | none => 0
  | values params | named params _ => params.length

/-- The value that is encoded for an index. -/
def Params.value : Params → RoutingIndex → Value
  | none, _ => .undefined
  | values params, i | named params _, i => (i.at params).getD .undefined

/-- `names.map((k) => keys[k])` -/
def Params.indexesOf : Params → List String → Except Error (List RoutingIndex)
  | named _ keys, names => .ok (names.map fun k => (keys.lookup k).getD .undefined)
  | _, [] => .ok []
  | _, _ :: _ => .error .type

section

variable (e : Encoder) (encoder : Option τ → Value → Except EncoderError Encoded) (alloc : ℕ → List UInt8)

/-- `this.encode(value, typeInfo)` -/
def encode (value : Value) (typeInfo : Option τ) : Except EncoderError Encoded := e.encodeWith (encoder typeInfo) value

/-- The end of both methods: an exception of the loop is swallowed. -/
def setFromParts (execOptions : ExecOptions τ) (res : List (Option (List UInt8)) × Except EncoderError ℕ) :
    Except Error (ExecOptions τ) :=
  let totalLength := match res.2 with
    | .ok totalLength => totalLength
    | .error _ => 0
  if totalLength = 0 then .ok execOptions
  else (concatRoutingKey alloc res.1 totalLength).map execOptions.setRoutingKey

/-- The encoding of a component, with the type of its column; `columns` is `meta.columns`. -/
def metaParam (columns : List (Option τ)) (params : Params) (i : RoutingIndex) : Except EncoderError Encoded :=
  encode e encoder (params.value i) (i.at columns).join

def setRoutingKeyFromMeta (columns : List (Option τ)) (params : List Value) (execOptions : ExecOptions τ) :
    Except Error (ExecOptions τ) :=
  match execOptions.routingIndexes with
  | none => .ok execOptions
  | some routingIndexes =>
      setFromParts alloc execOptions (encodeRoutingKeyParts (metaParam e encoder columns (.values params))
        routingIndexes 0 (List.replicate routingIndexes.length none) 0)

/-- The encoding of a component, with the user's hint. -/
def userParam (hints : List (Option τ)) (params : Params) (i : RoutingIndex) : Except EncoderError Encoded :=
  match params with
  | .named objects _ =>
      match i.at objects with
      | some value => encode e encoder value (i.at hints).join
      | none => .error .type
  | params => encode e encoder (params.value i) (i.at hints).join

/-- The loop over the user's parts. -/
def userLength : List (Option (List UInt8)) → ℕ → Option ℕ
  | [], totalLength => some totalLength
  | none :: _, _ => none
  | some item :: items, totalLength => userLength items (totalLength + (item.length + 3))

/-- `setRoutingKeyFromUser`, behind the tests of the user's routing key. -/
def setRoutingKeyFromIndexes (params : Params) (execOptions : ExecOptions τ) : Except Error (ExecOptions τ) :=
  if params.length = 0 then .ok execOptions
  else do
    let routingIndexes ← match execOptions.routingNames with
      | some names => (params.indexesOf names).map some
      | none => .ok execOptions.routingIndexes
    match routingIndexes with
    | none => .ok execOptions
    | some routingIndexes =>
        setFromParts alloc execOptions
          (encodeRoutingKeyParts (userParam e encoder (execOptions.hints.getD []) params) routingIndexes 0 [] 0)

def setRoutingKeyFromUser (params : Params) (execOptions : ExecOptions τ) : Except Error (ExecOptions τ) :=
  match execOptions.routingKey with
  | .parts [item] => .ok (execOptions.setRoutingKey (.ofPart item))
  | .parts items =>
      match userLength items 0 with
      | none => .ok (execOptions.setRoutingKey .null)
      | some totalLength => (concatRoutingKey alloc items totalLength).map execOptions.setRoutingKey
  | .buffer _ | .token => .ok execOptions
  | .other inspected => .error (.unexpectedRoutingKey inspected)
  | .undefined | .null => setRoutingKeyFromIndexes e encoder alloc params execOptions

end

/-! ### The composite key -/

/-- A part in the key: its length, its bytes and a zero. -/
def framedPart (item : List UInt8) : List UInt8 := toBE 2 item.length ++ item ++ [0]

def compositeKey (items : List (List UInt8)) : List UInt8 := items.flatMap framedPart

def totalLength (items : List (List UInt8)) : ℕ := (items.map fun item => item.length + 3).sum

theorem length_framedPart (item : List UInt8) : (framedPart item).length = item.length + 3 := by
  rw [framedPart, List.length_append, List.length_append, length_toBE, List.length_singleton]
  omega

theorem length_compositeKey (items : List (List UInt8)) : (compositeKey items).length = totalLength items := by
  rw [compositeKey, List.length_flatMap, totalLength]
  simp only [length_framedPart]

theorem compositeKey_cons (item : List UInt8) (items : List (List UInt8)) :
    compositeKey (item :: items) = framedPart item ++ compositeKey items := List.flatMap_cons

/-- The lengths tell where a part ends. -/
theorem compositeKey_inj : ∀ {items items' : List (List UInt8)}, (∀ item ∈ items, item.length ≤ 65535) →
    (∀ item ∈ items', item.length ≤ 65535) → compositeKey items = compositeKey items' → items = items'
  | [], [], _, _, _ => rfl
  | [], item :: items, _, _, h => by
      have := congrArg List.length h
      rw [length_compositeKey, length_compositeKey, totalLength, totalLength, List.map_cons, List.sum_cons,
        List.map_nil, List.sum_nil] at this
      omega
  | item :: items, [], _, _, h => by
      have := congrArg List.length h
      rw [length_compositeKey, length_compositeKey, totalLength, totalLength, List.map_cons, List.sum_cons,
        List.map_nil, List.sum_nil] at this
      omega
  | item :: items, item' :: items', hle, hle', h => by
      rw [compositeKey_cons, compositeKey_cons, framedPart, framedPart, List.append_assoc, List.append_assoc, List.append_assoc, List.append_assoc] at h
      obtain ⟨hlen, htail⟩ := List.append_inj h (by rw [length_toBE, length_toBE])
      have hitem := hle item (List.mem_cons_self ..)
      have hitem' := hle' item' (List.mem_cons_self ..)
      have hlen' := congrArg ofBE hlen
      rw [ofBE_toBE_of_lt (by omega), ofBE_toBE_of_lt (by omega)] at hlen'
      obtain ⟨rfl, hend⟩ := List.append_inj htail hlen'
      have hrest := List.append_cancel_left hend
      rw [compositeKey_inj (fun x hx => hle x (List.mem_cons_of_mem item hx))
        (fun x hx => hle' x (List.mem_cons_of_mem item hx)) hrest]

/-- The loop fills the buffer from its start. -/
theorem concatLoop_eq (alloc : List UInt8) : ∀ (items : List (List UInt8)) (done : List UInt8),
    (∀ item ∈ items, item.length ≤ 65535) → done.length + totalLength items ≤ alloc.length →
    concatLoop (items.map some) (overlay alloc done) done.length = .ok (overlay alloc (done ++ compositeKey items))
  | [], done, _, _ => by
      rw [compositeKey, List.flatMap_nil, List.append_nil]
      rfl
  | item :: items, done, hle, hroom => by
      rw [totalLength, List.map_cons, List.sum_cons, ← totalLength] at hroom
      have hitem := hle item (List.mem_cons_self ..)
      have hwrite : writeUInt16BE (overlay alloc done) item.length done.length =
          .ok (overlay alloc (done ++ toBE 2 item.length)) := by
        rw [writeUInt16BE, if_pos ⟨hitem, by rw [length_overlay]; omega⟩, write_overlay]
        rw [length_toBE]
        omega
      have hcopy : copy item (overlay alloc (done ++ toBE 2 item.length)) (done.length + 2) =
          overlay alloc (done ++ toBE 2 item.length ++ item) := by
        have hoffset : done.length + 2 = (done ++ toBE 2 item.length).length := by
          rw [List.length_append, length_toBE]
        rw [copy, List.take_of_length_le (by rw [length_overlay]; omega), hoffset, write_overlay]
        rw [List.length_append, length_toBE]
        omega
      have hoffset : done.length + 2 + item.length = (done ++ toBE 2 item.length ++ item).length := by
        rw [List.length_append, List.length_append, length_toBE]
      have hdone : done.length + 2 + item.length + 1 = (done ++ framedPart item).length := by
        rw [List.length_append, length_framedPart]
        omega
      have hset : (overlay alloc (done ++ toBE 2 item.length ++ item)).set (done.length + 2 + item.length) 0 =
          overlay alloc (done ++ framedPart item) := by
        rw [hoffset, set_overlay, framedPart, List.append_assoc, List.append_assoc, List.append_assoc]
      rw [List.map_cons, concatLoop, hwrite]
      change concatLoop _ ((copy item (overlay alloc (done ++ toBE 2 item.length)) (done.length + 2)).set _ 0) _ = _
      rw [hcopy, hset, hdone, concatLoop_eq alloc items _ (fun x hx => hle x (List.mem_cons_of_mem item hx)),
        compositeKey_cons, List.append_assoc]
      · rw [List.length_append, length_framedPart]
        omega

/-- The key shows nothing of the uninitialised buffer. -/
theorem concatRoutingKey_eq {alloc : ℕ → List UInt8} (halloc : ∀ n, (alloc n).length = n) {items : List (List UInt8)}
    (hlen : 2 ≤ items.length) (hle : ∀ item ∈ items, item.length ≤ 65535) :
    concatRoutingKey alloc (items.map some) (totalLength items) = .ok (.buffer (compositeKey items)) := by
  obtain ⟨first, second, rest, rfl⟩ : ∃ first second rest, items = first :: second :: rest := by
    match items, hlen with
    | first :: second :: rest, _ => exact ⟨first, second, rest, rfl⟩
  have hpos : totalLength (first :: second :: rest) ≠ 0 := by
    rw [totalLength, List.map_cons, List.sum_cons]
    omega
  have hloop := concatLoop_eq (alloc (totalLength (first :: second :: rest))) (first :: second :: rest) [] hle
    (by rw [halloc, List.length_nil, Nat.zero_add])
  rw [overlay_nil, List.nil_append, List.length_nil, overlay_of_le (by rw [halloc, length_compositeKey]),
    List.take_of_length_le (by rw [halloc, length_compositeKey])] at hloop
  rw [concatRoutingKey, if_neg hpos]
  · change (concatLoop _ _ 0).map Key.buffer = _
    rw [hloop]
    rfl
  · simp

/-! ### The loop over the components -/

section

variable {encodeParam : RoutingIndex → Except EncoderError Encoded}

/-- Without a buffer for one of the components there is no total length. -/
theorem encodeRoutingKeyParts_of_lacking : ∀ {routingIndexes : List RoutingIndex} (i : ℕ)
    (parts : List (Option (List UInt8))) (total : ℕ),
    (∃ paramIndex ∈ routingIndexes, paramIndex = .undefined ∨ ∀ bs, encodeParam paramIndex ≠ .ok (.buffer bs)) →
    (encodeRoutingKeyParts encodeParam routingIndexes i parts total).2 = .ok 0 ∨
      ∃ err, (encodeRoutingKeyParts encodeParam routingIndexes i parts total).2 = .error err
  | [], _, _, _, ⟨_, hmem, _⟩ => absurd hmem (by simp)
  | paramIndex :: routingIndexes, i, parts, total, ⟨lacking, hmem, hlacking⟩ => by
      by_cases hundefined : paramIndex = .undefined
      · subst hundefined
        exact .inl (by rw [encodeRoutingKeyParts])
      · rw [encodeRoutingKeyParts]
        · cases hitem : encodeParam paramIndex with
          | error err => exact .inr ⟨err, rfl⟩
          | ok item =>
              cases item with
              | buffer bs =>
                  refine encodeRoutingKeyParts_of_lacking (i + 1) _ _ ⟨lacking, ?_, hlacking⟩
                  obtain rfl | hmem := List.mem_cons.1 hmem
                  · obtain h | h := hlacking
                    · exact absurd h hundefined
                    · exact absurd hitem (h bs)
                  · exact hmem
              | null => exact .inl rfl
              | undefined => exact .inl rfl
        · exact hundefined

theorem setPart_append (done : List (List UInt8)) (holes : ℕ) (item : List UInt8) :
    setPart (done.map some ++ List.replicate holes none) done.length item =
      (done ++ [item]).map some ++ List.replicate (holes - 1) none := by
  cases holes with
  | zero =>
      rw [setPart, if_neg (by simp)]
      simp
  | succ holes =>
      rw [setPart, if_pos (by simp), List.set_append_right _ _ (by simp)]
      simp [List.replicate_succ]

/-- With a buffer for each of them the parts are complete, and the total length is theirs. -/
theorem encodeRoutingKeyParts_of_buffers {routingIndexes : List RoutingIndex} {items : List (List UInt8)}
    (h : List.Forall₂ (fun paramIndex item => paramIndex ≠ .undefined ∧ encodeParam paramIndex = .ok (.buffer item))
      routingIndexes items) : ∀ (done : List (List UInt8)) (holes : ℕ), holes ≤ items.length →
    encodeRoutingKeyParts encodeParam routingIndexes done.length (done.map some ++ List.replicate holes none)
        (totalLength done) =
      ((done ++ items).map some, .ok (totalLength (done ++ items))) := by
  induction h with
  | nil =>
      intro done holes hholes
      obtain rfl : holes = 0 := by simpa using hholes
      rw [encodeRoutingKeyParts, List.replicate_zero, List.append_nil, List.append_nil]
  | @cons paramIndex item routingIndexes items hitem _ ih =>
      intro done holes hholes
      have hlen : done.length + 1 = (done ++ [item]).length := by rw [List.length_append, List.length_singleton]
      have htotal : totalLength done + (item.length + 3) = totalLength (done ++ [item]) := by
        rw [totalLength, totalLength, List.map_append, List.sum_append, List.map_singleton, List.sum_singleton]
      rw [List.length_cons] at hholes
      rw [encodeRoutingKeyParts, hitem.2]
      · dsimp only
        rw [setPart_append, hlen, htotal, ih (done ++ [item]) (holes - 1) (by omega), List.append_assoc,
          List.singleton_append]
      · exact hitem.1

variable {alloc : ℕ → List UInt8} {execOptions : ExecOptions τ}

theorem setFromParts_of_lacking {res : List (Option (List UInt8)) × Except EncoderError ℕ}
    (h : res.2 = .ok 0 ∨ ∃ err, res.2 = .error err) : setFromParts alloc execOptions res = .ok execOptions := by
  obtain h | ⟨err, h⟩ := h
  · rw [setFromParts, h]
    rfl
  · rw [setFromParts, h]
    rfl

theorem setFromParts_of_buffers (halloc : ∀ n, (alloc n).length = n) {items : List (List UInt8)}
    (hlen : 2 ≤ items.length) (hle : ∀ item ∈ items, item.length ≤ 65535) :
    setFromParts alloc execOptions (items.map some, .ok (totalLength items)) =
      .ok (execOptions.setRoutingKey (.buffer (compositeKey items))) := by
  have hpos : totalLength items ≠ 0 := by
    obtain ⟨item, rest, rfl⟩ := List.exists_cons_of_length_pos (by omega : 0 < items.length)
    rw [totalLength, List.map_cons, List.sum_cons]
    omega
  rw [setFromParts]
  dsimp only
  rw [if_neg hpos, concatRoutingKey_eq halloc hlen hle]
  rfl

end

/-! ### The routing key of the options -/

/-- The component is missing, null or unset, or `encode` has no buffer for it. -/
def Lacking (params : Params) (encodeParam : RoutingIndex → Except EncoderError Encoded) (paramIndex : RoutingIndex) :
    Prop :=
  paramIndex = .undefined ∨ params.value paramIndex = .undefined ∨ params.value paramIndex = .null ∨
    params.value paramIndex = .unset ∨ ∀ bs, encodeParam paramIndex ≠ .ok (.buffer bs)

/-- There is a buffer for every component. -/
def Encodes (encodeParam : RoutingIndex → Except EncoderError Encoded) (routingIndexes : List RoutingIndex)
    (items : List (List UInt8)) : Prop :=
  List.Forall₂ (fun paramIndex item => paramIndex ≠ .undefined ∧ encodeParam paramIndex = .ok (.buffer item))
    routingIndexes items

section

variable {e : Encoder} {encoder : Option τ → Value → Except EncoderError Encoded} {alloc : ℕ → List UInt8}
variable {execOptions : ExecOptions τ} {routingIndexes : List RoutingIndex} {items : List (List UInt8)}

theorem encode_ne_buffer {value : Value} (h : value = .undefined ∨ value = .null ∨ value = .unset)
    (typeInfo : Option τ) (bs : List UInt8) : encode e encoder value typeInfo ≠ .ok (.buffer bs) := by
  rw [encode]
  obtain rfl | rfl | rfl := h
  · rw [Encoder.encodeWith]
    split_ifs <;> simp
  · simp [Encoder.encodeWith]
  · rw [Encoder.encodeWith]
    split_ifs <;> simp

theorem metaParam_of_lacking {columns : List (Option τ)} {params : Params} {paramIndex : RoutingIndex}
    (h : Lacking params (metaParam e encoder columns params) paramIndex) :
    paramIndex = .undefined ∨ ∀ bs, metaParam e encoder columns params paramIndex ≠ .ok (.buffer bs) := by
  obtain h | h | h | h | h := h
  · exact .inl h
  · exact .inr (encode_ne_buffer (.inl h) _)
  · exact .inr (encode_ne_buffer (.inr (.inl h)) _)
  · exact .inr (encode_ne_buffer (.inr (.inr h)) _)
  · exact .inr h

theorem userParam_of_value {hints : List (Option τ)} {params : Params} {paramIndex : RoutingIndex}
    (h : params.value paramIndex = .undefined ∨ params.value paramIndex = .null ∨ params.value paramIndex = .unset)
    (bs : List UInt8) : userParam e encoder hints params paramIndex ≠ .ok (.buffer bs) := by
  cases params with
  | named objects keys =>
      rw [userParam]
      cases hvalue : paramIndex.at objects with
      | none => simp
      | some value =>
          rw [Params.value, hvalue] at h
          exact encode_ne_buffer h _ bs
  | _ => exact encode_ne_buffer h _ bs

theorem userParam_of_lacking {hints : List (Option τ)} {params : Params} {paramIndex : RoutingIndex}
    (h : Lacking params (userParam e encoder hints params) paramIndex) :
    paramIndex = .undefined ∨ ∀ bs, userParam e encoder hints params paramIndex ≠ .ok (.buffer bs) := by
  obtain h | h | h | h | h := h
  · exact .inl h
  · exact .inr (userParam_of_value (.inl h))
  · exact .inr (userParam_of_value (.inr (.inl h)))
  · exact .inr (userParam_of_value (.inr (.inr h)))
  · exact .inr h

theorem setRoutingKeyFromMeta_of_lacking {columns : List (Option τ)} {params : List Value}
    (hindexes : execOptions.routingIndexes = some routingIndexes)
    (h : ∃ i ∈ routingIndexes, Lacking (.values params) (metaParam e encoder columns (.values params)) i) :
    setRoutingKeyFromMeta e encoder alloc columns params execOptions = .ok execOptions := by
  obtain ⟨i, hi, hlacking⟩ := h
  rw [setRoutingKeyFromMeta, hindexes]
  exact setFromParts_of_lacking (encodeRoutingKeyParts_of_lacking _ _ _ ⟨i, hi, metaParam_of_lacking hlacking⟩)

theorem setRoutingKeyFromMeta_of_buffers (halloc : ∀ n, (alloc n).length = n) {columns : List (Option τ)}
    {params : List Value} (hindexes : execOptions.routingIndexes = some routingIndexes)
    (h : Encodes (metaParam e encoder columns (.values params)) routingIndexes items) (hlen : 2 ≤ items.length)
    (hle : ∀ item ∈ items, item.length ≤ 65535) :
    setRoutingKeyFromMeta e encoder alloc columns params execOptions =
      .ok (execOptions.setRoutingKey (.buffer (compositeKey items))) := by
  have hparts : encodeRoutingKeyParts (metaParam e encoder columns (.values params)) routingIndexes 0
      (List.replicate routingIndexes.length none) 0 = (items.map some, .ok (totalLength items)) :=
    encodeRoutingKeyParts_of_buffers h [] routingIndexes.length h.length_eq.le
  rw [setRoutingKeyFromMeta, hindexes]
  dsimp only
  rw [hparts]
  exact setFromParts_of_buffers halloc hlen hle

/-- The indexes count when the user gives no routing key and no names. -/
theorem setRoutingKeyFromUser_eq (hkey : execOptions.routingKey = .undefined ∨ execOptions.routingKey = .null)
    (hnames : execOptions.routingNames = none) (hindexes : execOptions.routingIndexes = some routingIndexes)
    (params : Params) : setRoutingKeyFromUser e encoder alloc params execOptions =
      if params.length = 0 then .ok execOptions
      else setFromParts alloc execOptions
        (encodeRoutingKeyParts (userParam e encoder (execOptions.hints.getD []) params) routingIndexes 0 [] 0) := by
  have hindexed : setRoutingKeyFromUser e encoder alloc params execOptions =
      setRoutingKeyFromIndexes e encoder alloc params execOptions := by
    obtain h | h := hkey <;> rw [setRoutingKeyFromUser, h]
  rw [hindexed, setRoutingKeyFromIndexes, hnames, hindexes]
  rfl

theorem setRoutingKeyFromUser_of_lacking
    (hkey : execOptions.routingKey = .undefined ∨ execOptions.routingKey = .null)
    (hnames : execOptions.routingNames = none) (hindexes : execOptions.routingIndexes = some routingIndexes)
    {params : Params}
    (h : ∃ i ∈ routingIndexes, Lacking params (userParam e encoder (execOptions.hints.getD []) params) i) :
    setRoutingKeyFromUser e encoder alloc params execOptions = .ok execOptions := by
  obtain ⟨i, hi, hlacking⟩ := h
  rw [setRoutingKeyFromUser_eq hkey hnames hindexes]
  split_ifs
  · rfl
  · exact setFromParts_of_lacking (encodeRoutingKeyParts_of_lacking _ _ _ ⟨i, hi, userParam_of_lacking hlacking⟩)

theorem setRoutingKeyFromUser_of_buffers (halloc : ∀ n, (alloc n).length = n)
    (hkey : execOptions.routingKey = .undefined ∨ execOptions.routingKey = .null)
    (hnames : execOptions.routingNames = none) (hindexes : execOptions.routingIndexes = some routingIndexes)
    {params : Params} (hparams : params.length ≠ 0)
    (h : Encodes (userParam e encoder (execOptions.hints.getD []) params) routingIndexes items)
    (hlen : 2 ≤ items.length) (hle : ∀ item ∈ items, item.length ≤ 65535) :
    setRoutingKeyFromUser e encoder alloc params execOptions =
      .ok (execOptions.setRoutingKey (.buffer (compositeKey items))) := by
  have hparts : encodeRoutingKeyParts (userParam e encoder (execOptions.hints.getD []) params) routingIndexes 0 [] 0 =
      (items.map some, .ok (totalLength items)) :=
    encodeRoutingKeyParts_of_buffers h [] 0 (Nat.zero_le _)
  rw [setRoutingKeyFromUser_eq hkey hnames hindexes, if_neg hparams, hparts]
  exact setFromParts_of_buffers halloc hlen hle

theorem userLength_eq : ∀ (items : List (List UInt8)) (total : ℕ),
    userLength (items.map some) total = some (total + totalLength items)
  | [], total => by
      rw [totalLength]
      rfl
  | item :: items, total => by
      rw [List.map_cons, userLength, userLength_eq items, totalLength, totalLength, List.map_cons, List.sum_cons,
        Nat.add_assoc]

theorem setRoutingKeyFromUser_of_parts (halloc : ∀ n, (alloc n).length = n)
    (hkey : execOptions.routingKey = .parts (items.map some)) (hlen : 2 ≤ items.length)
    (hle : ∀ item ∈ items, item.length ≤ 65535) (params : Params) :
    setRoutingKeyFromUser e encoder alloc params execOptions =
      .ok (execOptions.setRoutingKey (.buffer (compositeKey items))) := by
  have htotal := userLength_eq items 0
  have hconcat := concatRoutingKey_eq halloc hlen hle
  rw [Nat.zero_add] at htotal
  obtain ⟨first, second, rest, hitems⟩ : ∃ first second rest, items = first :: second :: rest := by
    match items, hlen with
    | first :: second :: rest, _ => exact ⟨first, second, rest, rfl⟩
  subst hitems
  rw [List.map_cons, List.map_cons] at hkey htotal hconcat
  rw [setRoutingKeyFromUser, hkey]
  dsimp only
  rw [htotal]
  dsimp only
  rw [hconcat]
  rfl

end

/-- A composite key has the length that was added up, shows nothing of the uninitialised buffer and tells its
components; the three ways to a total length lead to it.  When there is no buffer for one of the components
the options stay as they are. -/
theorem routingKey_exact (e : Encoder) (encoder : Option τ → Value → Except EncoderError Encoded)
    {alloc : ℕ → List UInt8} (halloc : ∀ n, (alloc n).length = n) :
    (∀ items : List (List UInt8), 2 ≤ items.length → (∀ item ∈ items, item.length ≤ 65535) →
      ∃ key, concatRoutingKey alloc (items.map some) (totalLength items) = .ok (.buffer key) ∧
        key.length = (items.map fun item => item.length + 3).sum ∧
        (∀ alloc' : ℕ → List UInt8, (∀ n, (alloc' n).length = n) →
          concatRoutingKey alloc' (items.map some) (totalLength items) = .ok (.buffer key)) ∧
        (∀ items' : List (List UInt8), 2 ≤ items'.length → (∀ item ∈ items', item.length ≤ 65535) →
          concatRoutingKey alloc (items'.map some) (totalLength items') = .ok (.buffer key) → items' = items) ∧
        (∀ (execOptions : ExecOptions τ) (params : Params), execOptions.routingKey = .parts (items.map some) →
          setRoutingKeyFromUser e encoder alloc params execOptions = .ok (execOptions.setRoutingKey (.buffer key))) ∧
        (∀ (execOptions : ExecOptions τ) (routingIndexes : List RoutingIndex),
          execOptions.routingIndexes = some routingIndexes →
          (∀ (columns : List (Option τ)) (params : List Value),
            Encodes (metaParam e encoder columns (.values params)) routingIndexes items →
            setRoutingKeyFromMeta e encoder alloc columns params execOptions =
              .ok (execOptions.setRoutingKey (.buffer key))) ∧
          (∀ params : Params, params.length ≠ 0 → execOptions.routingNames = none →
            (execOptions.routingKey = .undefined ∨ execOptions.routingKey = .null) →
            Encodes (userParam e encoder (execOptions.hints.getD []) params) routingIndexes items →
            setRoutingKeyFromUser e encoder alloc params execOptions =
              .ok (execOptions.setRoutingKey (.buffer key))))) ∧
    (∀ (execOptions : ExecOptions τ) (routingIndexes : List RoutingIndex),
      execOptions.routingIndexes = some routingIndexes →
      (∀ (columns : List (Option τ)) (params : List Value),
        (∃ i ∈ routingIndexes, Lacking (.values params) (metaParam e encoder columns (.values params)) i) →
        setRoutingKeyFromMeta e encoder alloc columns params execOptions = .ok execOptions) ∧
      (∀ params : Params, execOptions.routingNames = none →
        (execOptions.routingKey = .undefined ∨ execOptions.routingKey = .null) →
        (∃ i ∈ routingIndexes, Lacking params (userParam e encoder (execOptions.hints.getD []) params) i) →
        setRoutingKeyFromUser e encoder alloc params execOptions = .ok execOptions)) := by
  constructor
  · intro items hlen hle
    refine ⟨compositeKey items, concatRoutingKey_eq halloc hlen hle, length_compositeKey items,
      fun alloc' halloc' => concatRoutingKey_eq halloc' hlen hle, ?_, ?_, ?_⟩
    · intro items' hlen' hle' hkey
      rw [concatRoutingKey_eq halloc hlen' hle', Except.ok.injEq, Key.buffer.injEq] at hkey
      exact compositeKey_inj hle' hle hkey
    · intro execOptions params hkey
      exact setRoutingKeyFromUser_of_parts halloc hkey hlen hle params
    · intro execOptions routingIndexes hindexes
      constructor
      · intro columns params hencodes
        exact setRoutingKeyFromMeta_of_buffers halloc hindexes hencodes hlen hle
      · intro params hparams hnames hkey hencodes
        exact setRoutingKeyFromUser_of_buffers halloc hkey hnames hindexes hparams hencodes hlen hle
  · intro execOptions routingIndexes hindexes
    constructor
    · intro columns params hlacking
      exact setRoutingKeyFromMeta_of_lacking hindexes hlacking
    · intro params hnames hkey hlacking
      exact setRoutingKeyFromUser_of_lacking hkey hnames hindexes hlacking

/-- Protocol version 4; buffers are the only values that can be encoded. -/
def bufferEncoder : Encoder := ⟨4, false, false, fun _ _ => false, fun _ _ => .error .other⟩

theorem routingKey_exact_threeParts :
    (∃ key, concatRoutingKey (List.replicate · 0) [some [1], some [2], some [3, 3]] 13 = .ok (.buffer key) ∧
      key.length = 13) ∧
    setRoutingKeyFromMeta bufferEncoder (fun (_ : Option Unit) _ => .error .other) (List.replicate · 0) []
      [.buffer [1], .null] ⟨.undefined, some [.index 0, .index 1], none, none⟩ =
        .ok ⟨.undefined, some [.index 0, .index 1], none, none⟩ := by
  obtain ⟨hconcat, hlacking⟩ := routingKey_exact bufferEncoder (fun (_ : Option Unit) _ => .error .other)
    (show ∀ n, (List.replicate n (0 : UInt8)).length = n from fun _ => List.length_replicate)
  constructor
  · obtain ⟨key, hkey, hlength, -⟩ := hconcat [[1], [2], [3, 3]] (by decide) (by decide)
    exact ⟨key, hkey, hlength⟩
  · exact (hlacking ⟨.undefined, some [.index 0, .index 1], none, none⟩ _ rfl).1 [] [.buffer [1], .null]
      ⟨.index 1, by simp, .inr (.inr (.inl rfl))⟩

end CqlDriver.RoutingKey
