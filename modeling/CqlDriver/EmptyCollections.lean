import CqlDriver.EncoderRoundTrip
import CqlDriver.Lib.Fallible

/-! # Empty collections inside other values

`encodeList` and `encodeSet` return `null` for an empty value.  `encodeMap` (for the values), `encodeTuple`
and `encodeUdt` write such a `null`; `encodeList` and `encodeMap` (for the keys) hand it to `Buffer.concat`,
and `encodeVector` reads its length.  `survives_iff` says that a value is encoded and read back, with `null`
for its empty lists and sets, exactly if none of them is an item, a key or an element of a vector. -/

namespace CqlDriver

open Bytes MachineInt

/-- An array or a `Set` without elements. -/
def Value.isEmptyList : Value → Bool
  | array [] | set [] => true
  | _ => false

namespace Encoder

/-! ### Values with empty collections -/

section HasType

variable (e : Encoder)

mutual

/-- The non-null values of a type. -/
def HasType : CqlType → Value → Prop
  | .native t, v => WellTypedNative t v
  | .list t, v => ∃ vs, v = .array vs ∧ ∀ x ∈ vs, HasType t x
  | .set t, v => ∃ vs, (v = .array vs ∨ e.set = true ∧ v = .set vs) ∧ (e.set = true → e.Distinct vs) ∧
      ∀ x ∈ vs, HasType t x
  | .map k t, v => ∃ entries, v = .map entries ∧ e.Distinct (entries.map Prod.fst) ∧
      ∀ p ∈ entries, HasType k p.1 ∧ HasType t p.2
  | .tuple ts, v => ∃ vs, v = .tuple vs ∧ ts ≠ [] ∧ HasTypes ts vs
  | .udt _ fields, v => ∃ props, v = .object props ∧ fields ≠ [] ∧ (fields.map Prod.fst).Nodup ∧
      "__proto__" ∉ fields.map Prod.fst ∧ (∀ p ∈ props, p.1 ∈ fields.map Prod.fst) ∧ HasFields fields props
  | .vector t dimension, v => ∃ vs, v = .vector vs ∧ 1 ≤ dimension ∧ vs.length = dimension ∧
      ∀ x ∈ vs, HasType t x

def HasTypes : List CqlType → List Value → Prop
  | [], vs => vs = []
  | t :: ts, vs => ∃ v ws, vs = v :: ws ∧ (v.isMissing = true ∨ HasType t v) ∧ HasTypes ts ws

def HasFields : List (String × CqlType) → List (String × Value) → Prop
  | [], _ => True
  | (name, t) :: fields, props =>
      ((fieldValue props name).isMissing = true ∨ HasType t (fieldValue props name)) ∧ HasFields fields props

end

mutual

/-- The value with `null` for its empty lists and sets, and for the missing tuple elements and fields. -/
def readsBack : CqlType → Value → Value
  | .native _, v => v
  | .list t, v => if v.isEmptyList then .null else .array (v.items.map (readsBack t))
  | .set t, v =>
      if v.isEmptyList then .null
      else if e.set then .set (v.items.map (readsBack t)) else .array (v.items.map (readsBack t))
  | .map k t, v => .map (v.entries.map fun p => (readsBack k p.1, readsBack t p.2))
  | .tuple ts, v => .tuple (tupleReadsBack ts v.items)
  | .udt _ fields, v => .object (fieldsReadBack fields v.props)
  | .vector t _, v => .vector (v.items.map (readsBack t))

def tupleReadsBack : List CqlType → List Value → List Value
  | t :: ts, v :: vs => (if v.isMissing then .null else readsBack t v) :: tupleReadsBack ts vs
  | _, _ => []

def fieldsReadBack : List (String × CqlType) → List (String × Value) → List (String × Value)
  | [], _ => []
  | (name, t) :: fields, props =>
      let v := fieldValue props name
      (name, if v.isMissing then .null else readsBack t v) :: fieldsReadBack fields props

end

/-- The comparison of keys sees a key and the key that is read back alike. -/
def ReadsAlike : Prop := ∀ t a b, e.HasType t a → e.HasType t b → a.isEmptyList = false → b.isEmptyList = false →
  e.keyEq a b = false → e.keyEq (e.readsBack t a) (e.readsBack t b) = false

end HasType

mutual

/-- No empty list or set is an item of a list or a set, a key of a map or an element of a vector. -/
def NoEmptyItem : CqlType → Value → Prop
  | .native _, _ => True
  | .list t, v => ∀ x ∈ v.items, x.isEmptyList = false ∧ NoEmptyItem t x
  | .set t, v => ∀ x ∈ v.items, x.isEmptyList = false ∧ NoEmptyItem t x
  | .map k t, v => ∀ p ∈ v.entries, (p.1.isEmptyList = false ∧ NoEmptyItem k p.1) ∧ NoEmptyItem t p.2
  | .tuple ts, v => NoEmptyItemTuple ts v.items
  | .udt _ fields, v => NoEmptyItemFields fields v.props
  | .vector t _, v => ∀ x ∈ v.items, x.isEmptyList = false ∧ NoEmptyItem t x

def NoEmptyItemTuple : List CqlType → List Value → Prop
  | t :: ts, v :: vs => (v.isMissing = true ∨ NoEmptyItem t v) ∧ NoEmptyItemTuple ts vs
  | _, _ => True

def NoEmptyItemFields : List (String × CqlType) → List (String × Value) → Prop
  | [], _ => True
  | (name, t) :: fields, props =>
      ((fieldValue props name).isMissing = true ∨ NoEmptyItem t (fieldValue props name)) ∧
        NoEmptyItemFields fields props

end

variable {e : Encoder}

theorem isNullish_of_hasType {t : CqlType} {v : Value} (h : e.HasType t v) : v.isNullish = false := by
  cases t with
  | native t =>
      rw [HasType] at h
      apply isNullish_of_wellTyped (e := e) (t := .native t)
      rwa [WellTyped]
  | set t =>
      rw [HasType] at h
      obtain ⟨vs, rfl | ⟨-, rfl⟩, -⟩ := h
      · rfl
      · rfl
  | _ =>
      rw [HasType] at h
      obtain ⟨x, rfl, -⟩ := h
      rfl

/-- An empty list or set of a type. -/
theorem encode_of_isEmptyList {t : CqlType} {v : Value} (h : e.HasType t v) (hempty : v.isEmptyList = true) :
    e.encode v t = .ok .null ∧ e.readsBack t v = .null ∧ zeroLengthTypesSupported t = false := by
  cases t with
  | native t =>
      rw [HasType] at h
      cases t with
      | int | smallint | tinyint =>
          obtain ⟨n, -, rfl⟩ := h
          cases hempty
      | _ =>
          obtain ⟨x, rfl⟩ := h
          cases hempty
  | list t =>
      rw [readsBack, if_pos hempty]
      rw [HasType] at h
      obtain ⟨vs, rfl, -⟩ := h
      cases vs with
      | nil => exact ⟨rfl, rfl, rfl⟩
      | cons => cases hempty
  | set t =>
      rw [readsBack, if_pos hempty]
      rw [HasType] at h
      obtain ⟨vs, hvs, -⟩ := h
      have hnil : vs = [] := by
        obtain rfl | ⟨-, rfl⟩ := hvs
        all_goals
          cases vs with
          | nil => rfl
          | cons => cases hempty
      subst hnil
      have hmethod : e.encode v (.set t) = e.encodeSet (e.encodeType t) v := by
        obtain rfl | ⟨-, rfl⟩ := hvs
        · rfl
        · rfl
      refine ⟨?_, rfl, rfl⟩
      rw [hmethod, encodeSet_eq hvs]
      rfl
  | _ =>
      rw [HasType] at h
      obtain ⟨x, rfl, -⟩ := h
      cases hempty

/-! ### Values without empty items are read back -/

/-- The elements, read back, are still different. -/
theorem ReadsAlike.distinct_map (hk : e.ReadsAlike) {t : CqlType} {vs : List Value} (h : e.Distinct vs)
    (hitems : ∀ x ∈ vs, e.HasType t x ∧ x.isEmptyList = false) : e.Distinct (vs.map (e.readsBack t)) := by
  rw [Distinct, List.pairwise_map]
  apply h.imp_of_mem
  intro a b ha hb hab
  exact hk t a b (hitems a ha).1 (hitems b hb).1 (hitems a ha).2 (hitems b hb).2 hab

theorem isEmptyList_items {vs : List Value} (h : (Value.array vs).isEmptyList = false) : vs ≠ [] := by
  rintro rfl
  cases h

theorem isEmptyList_set {vs : List Value} (h : (Value.set vs).isEmptyList = false) : vs ≠ [] := by
  rintro rfl
  cases h

mutual

theorem roundTrips_of_noEmptyItem (hv : 3 ≤ e.protocolVersion) (hk : e.ReadsAlike) : ∀ (t : CqlType) (v : Value),
    e.HasType t v → e.LengthsFit t v → NoEmptyItem t v → v.isEmptyList = false →
      e.RoundTrips t v (e.bytesOf t v) (e.readsBack t v)
  | .native _, v, ht, _, _, _ => by
      rw [HasType] at ht
      rw [readsBack]
      exact roundTrips_native ht
  | .list t, v, ht, hl, hn, hne => by
      rw [HasType] at ht
      rw [LengthsFit] at hl
      rw [NoEmptyItem] at hn
      rw [readsBack, hne]
      obtain ⟨vs, rfl, hitems⟩ := ht
      refine (roundTrips_list hv (isEmptyList_items hne) hl.1 fun x hx => ?_).bytesOf
      exact itemFits_of_noEmptyItem hv hk t x (hitems x hx) (hl.2 x hx) (hn x hx)
  | .set t, v, ht, hl, hn, hne => by
      rw [HasType] at ht
      rw [LengthsFit] at hl
      rw [NoEmptyItem] at hn
      rw [readsBack, hne]
      obtain ⟨vs, hvs, hdistinct, hitems⟩ := ht
      obtain ⟨hval, hnil⟩ : v.items = vs ∧ vs ≠ [] := by
        obtain rfl | ⟨-, rfl⟩ := hvs
        · exact ⟨rfl, isEmptyList_items hne⟩
        · exact ⟨rfl, isEmptyList_set hne⟩
      rw [hval] at hl hn ⊢
      refine (roundTrips_set hv hvs hnil hl.1 (fun hset => hk.distinct_map (hdistinct hset) fun x hx =>
        ⟨hitems x hx, (hn x hx).1⟩) fun x hx => ?_).bytesOf
      exact itemFits_of_noEmptyItem hv hk t x (hitems x hx) (hl.2 x hx) (hn x hx)
  | .map k t, v, ht, hl, hn, _ => by
      rw [HasType] at ht
      rw [LengthsFit] at hl
      rw [NoEmptyItem] at hn
      rw [readsBack]
      obtain ⟨entries, rfl, hdistinct, hentries⟩ := ht
      have hkeys : ∀ x ∈ entries.map Prod.fst, e.HasType k x ∧ x.isEmptyList = false := by
        intro x hx
        obtain ⟨p, hp, rfl⟩ := List.mem_map.1 hx
        exact ⟨(hentries p hp).1, (hn p hp).1.1⟩
      have hback := hk.distinct_map hdistinct hkeys
      rw [List.map_map] at hback
      refine (roundTrips_map hv hl.1 hback fun p hp => ⟨?_, ?_⟩).bytesOf
      · exact itemFits_of_noEmptyItem hv hk k p.1 (hentries p hp).1 (hl.2 p hp).1 (hn p hp).1
      · exact mapValueFits_of_noEmptyItem hv hk t p.2 (hentries p hp).2 (hl.2 p hp).2 (hn p hp).2
  | .tuple ts, v, ht, hl, hn, _ => by
      rw [HasType] at ht
      rw [LengthsFit] at hl
      rw [NoEmptyItem] at hn
      rw [readsBack]
      obtain ⟨vs, rfl, hts, htuple⟩ := ht
      obtain ⟨bs, hbs⟩ := tupleTrips_of_noEmptyItem hv hk ts vs htuple hl hn
      exact (roundTrips_tuple hts hbs).bytesOf
  | .udt name fields, v, ht, hl, hn, _ => by
      rw [HasType] at ht
      rw [LengthsFit] at hl
      rw [NoEmptyItem] at hn
      rw [readsBack]
      obtain ⟨props, rfl, hfields, hnodup, hproto, -, hudt⟩ := ht
      obtain ⟨bs, hbs⟩ := fieldsTrip_of_noEmptyItem hv hk fields props hudt hl hn
      exact (roundTrips_udt hfields hnodup hproto hbs).bytesOf
  | .vector t dimension, v, ht, hl, hn, _ => by
      rw [HasType] at ht
      rw [LengthsFit] at hl
      rw [NoEmptyItem] at hn
      rw [readsBack]
      obtain ⟨vs, rfl, hd, hlen, hitems⟩ := ht
      refine (roundTrips_vector hlen hd fun x hx => ?_).bytesOf
      exact itemFits_of_noEmptyItem hv hk t x (hitems x hx) (hl x hx) (hn x hx)
termination_by t => (sizeOf t, 0)

theorem itemFits_of_noEmptyItem (hv : 3 ≤ e.protocolVersion) (hk : e.ReadsAlike) : ∀ (t : CqlType) (v : Value),
    e.HasType t v → (e.bytesOf t v).length < 2 ^ 31 ∧ e.LengthsFit t v →
      v.isEmptyList = false ∧ NoEmptyItem t v → e.ItemFits t v (e.readsBack t v)
  | t, v, ht, hl, hn =>
      ⟨isNullish_of_hasType ht, roundTrips_of_noEmptyItem hv hk t v ht hl.2 hn.2 hn.1, hl.1⟩
termination_by t => (sizeOf t, 1)

theorem mapValueFits_of_noEmptyItem (hv : 3 ≤ e.protocolVersion) (hk : e.ReadsAlike) :
    ∀ (t : CqlType) (v : Value), e.HasType t v → (e.bytesOf t v).length < 2 ^ 31 ∧ e.LengthsFit t v →
      NoEmptyItem t v → e.MapValueFits t v (e.readsBack t v)
  | t, v, ht, hl, hn => by
      by_cases hempty : v.isEmptyList = true
      · obtain ⟨henc, hback, hzero⟩ := encode_of_isEmptyList ht hempty
        exact .inr ⟨isNullish_of_hasType ht, hzero, henc, hback⟩
      · rw [Bool.not_eq_true] at hempty
        exact .inl (itemFits_of_noEmptyItem hv hk t v ht hl ⟨hempty, hn⟩)
termination_by t => (sizeOf t, 2)

theorem fieldTrips_of_noEmptyItem (hv : 3 ≤ e.protocolVersion) (hk : e.ReadsAlike) :
    ∀ (t : CqlType) (v : Value), v.isMissing = true ∨ e.HasType t v →
      (e.bytesOf t v).length < 2 ^ 31 ∧ e.LengthsFit t v → v.isMissing = true ∨ NoEmptyItem t v →
      ∃ part, e.FieldTrips t v part (if v.isMissing then .null else e.readsBack t v)
  | t, v, hvt, hl, hn => by
      by_cases hmissing : v.isMissing = true
      · rw [if_pos hmissing]
        exact ⟨_, fieldTrips_missing t hmissing⟩
      · rw [if_neg hmissing]
        have ht := hvt.resolve_left hmissing
        obtain hitem | ⟨-, -, henc, hback⟩ :=
          mapValueFits_of_noEmptyItem hv hk t v ht hl (hn.resolve_left hmissing)
        · exact ⟨_, fieldTrips_framed hitem⟩
        · rw [hback]
          exact ⟨_, fieldTrips_null henc (by simp)⟩
termination_by t => (sizeOf t, 3)

theorem tupleTrips_of_noEmptyItem (hv : 3 ≤ e.protocolVersion) (hk : e.ReadsAlike) :
    ∀ (ts : List CqlType) (vs : List Value), e.HasTypes ts vs → e.LengthsFitTuple ts vs →
      NoEmptyItemTuple ts vs → ∃ bs, e.TupleTrips ts vs bs (e.tupleReadsBack ts vs)
  | [], vs, ht, _, _ => by
      rw [HasTypes] at ht
      subst ht
      exact ⟨[], tupleTrips_nil⟩
  | t :: ts, vs, ht, hl, hn => by
      rw [HasTypes] at ht
      obtain ⟨v, ws, rfl, hvt, htuple⟩ := ht
      rw [LengthsFitTuple] at hl
      rw [NoEmptyItemTuple] at hn
      obtain ⟨parts, hparts⟩ := tupleTrips_of_noEmptyItem hv hk ts ws htuple hl.2 hn.2
      obtain ⟨part, hpart⟩ := fieldTrips_of_noEmptyItem hv hk t v hvt hl.1 hn.1
      exact ⟨part ++ parts, tupleTrips_cons hpart hparts⟩
termination_by ts => (sizeOf ts, 0)

theorem fieldsTrip_of_noEmptyItem (hv : 3 ≤ e.protocolVersion) (hk : e.ReadsAlike) :
    ∀ (fields : List (String × CqlType)) (props : List (String × Value)),
      e.HasFields fields props → e.LengthsFitFields fields props → NoEmptyItemFields fields props →
      ∃ bs, e.FieldsTrip fields props bs (e.fieldsReadBack fields props)
  | [], props, _, _, _ => by
      rw [fieldsReadBack]
      exact ⟨[], fieldsTrip_nil props⟩
  | (name, t) :: fields, props, ht, hl, hn => by
      rw [HasFields] at ht
      rw [LengthsFitFields] at hl
      rw [NoEmptyItemFields] at hn
      obtain ⟨parts, hparts⟩ := fieldsTrip_of_noEmptyItem hv hk fields props ht.2 hl.2 hn.2
      obtain ⟨part, hpart⟩ := fieldTrips_of_noEmptyItem hv hk t _ ht.1 hl.1 hn.1
      rw [fieldsReadBack]
      exact ⟨part ++ parts, fieldsTrip_cons hpart hparts⟩
termination_by fields => (sizeOf fields, 0)

end

/-! ### Values that are encoded have no empty items -/

theorem concat_ok {part : Encoded} {parts : List Encoded} {bs : List UInt8} (h : concat (part :: parts) = .ok bs) :
    (∃ as, part = .buffer as) ∧ ∃ rest, concat parts = .ok rest := by
  cases part with
  | buffer as =>
      obtain ⟨rest, hrest, -⟩ := Fallible.map_eq_ok h
      exact ⟨⟨as, rfl⟩, rest, hrest⟩
  | _ => cases h

section Loops

variable {encoder : Value → Except EncoderError Encoded}

theorem listParts_ok {vs : List Value} {parts : List Encoded} {bs : List UInt8}
    (h : e.listParts encoder vs = .ok parts) (hconcat : concat parts = .ok bs) :
    ∀ v ∈ vs, ∃ as, e.encodeWith encoder v = .ok (.buffer as) := by
  induction vs generalizing parts bs with
  | nil => simp
  | cons v vs ih =>
      rw [listParts] at h
      split_ifs at h
      obtain ⟨bytes, hbytes, h⟩ := Fallible.bind_eq_ok h
      obtain ⟨length, -, h⟩ := Fallible.bind_eq_ok h
      obtain ⟨rest, hrest, h⟩ := Fallible.bind_eq_ok h
      cases h
      obtain ⟨-, bs', hconcat⟩ := concat_ok hconcat
      obtain ⟨⟨as, rfl⟩, bs'', hconcat⟩ := concat_ok hconcat
      exact List.forall_mem_cons.2 ⟨⟨as, hbytes⟩, ih hrest hconcat⟩

theorem encodeList_ok {vs : List Value} {r : Encoded} (h : e.encodeList encoder (.array vs) = .ok r) :
    ∀ v ∈ vs, ∃ as, e.encodeWith encoder v = .ok (.buffer as) := by
  cases vs with
  | nil => simp
  | cons v vs =>
      rw [encodeList] at h
      obtain ⟨length, -, h⟩ := Fallible.bind_eq_ok h
      obtain ⟨parts, hparts, h⟩ := Fallible.bind_eq_ok h
      obtain ⟨bs, hconcat, -⟩ := Fallible.map_eq_ok h
      obtain ⟨-, rest, hconcat⟩ := concat_ok hconcat
      exact listParts_ok hparts hconcat
      simp

theorem mapParts_ok {keyEncoder valueEncoder : Value → Except EncoderError Encoded}
    {entries : List (Value × Value)} {parts : List Encoded} {bs : List UInt8}
    (h : e.mapParts keyEncoder valueEncoder entries = .ok parts) (hconcat : concat parts = .ok bs) :
    ∀ p ∈ entries, (∃ as, e.encodeWith keyEncoder p.1 = .ok (.buffer as)) ∧
      ∃ r, e.encodeWith valueEncoder p.2 = .ok r := by
  induction entries generalizing parts bs with
  | nil => simp
  | cons p entries ih =>
      obtain ⟨key, val⟩ := p
      rw [mapParts] at h
      split_ifs at h
      obtain ⟨keyBuffer, hkey, h⟩ := Fallible.bind_eq_ok h
      obtain ⟨keyLength, -, h⟩ := Fallible.bind_eq_ok h
      obtain ⟨valueBuffer, hvalue, h⟩ := Fallible.bind_eq_ok h
      obtain ⟨valueLength, -, h⟩ := Fallible.bind_eq_ok h
      obtain ⟨rest, hrest, h⟩ := Fallible.bind_eq_ok h
      have hsplit : ∃ tail, parts = .buffer keyLength :: keyBuffer :: .buffer valueLength :: tail ∧
          (tail = rest ∨ tail = valueBuffer :: rest) := by
        cases valueBuffer with
        | null => exact ⟨rest, (Except.ok.inj h).symm, .inl rfl⟩
        | _ => exact ⟨_, (Except.ok.inj h).symm, .inr rfl⟩
      obtain ⟨tail, rfl, htail⟩ := hsplit
      obtain ⟨-, bs₁, hconcat⟩ := concat_ok hconcat
      obtain ⟨⟨as, rfl⟩, bs₂, hconcat⟩ := concat_ok hconcat
      obtain ⟨-, bs', hconcat⟩ := concat_ok hconcat
      have hrestConcat : ∃ bs'', concat rest = .ok bs'' := by
        obtain rfl | rfl := htail
        · exact ⟨bs', hconcat⟩
        · exact (concat_ok hconcat).2
      obtain ⟨bs'', hrestConcat⟩ := hrestConcat
      exact List.forall_mem_cons.2 ⟨⟨⟨as, hkey⟩, valueBuffer, hvalue⟩, ih hrest hrestConcat⟩

theorem vectorParts_ok {size : Option ℕ} {vs : List Value} {parts : List Encoded} {bs : List UInt8}
    (h : e.vectorParts size encoder vs = .ok parts) (hconcat : concat parts = .ok bs) :
    ∀ v ∈ vs, ∃ as, e.encodeWith encoder v = .ok (.buffer as) := by
  induction vs generalizing parts bs with
  | nil => simp
  | cons v vs ih =>
      rw [vectorParts] at h
      obtain ⟨elemBuffer, helem, h⟩ := Fallible.bind_eq_ok h
      have hsplit : ∃ sizeParts rest, (sizeParts = [] ∨ ∃ packed, sizeParts = [packed]) ∧
          e.vectorParts size encoder vs = .ok rest ∧ parts = sizeParts ++ elemBuffer :: rest := by
        cases size with
        | some n =>
            obtain ⟨sizeParts, hsize, h⟩ := Fallible.bind_eq_ok h
            obtain ⟨rest, hrest, h⟩ := Fallible.bind_eq_ok h
            exact ⟨sizeParts, rest, .inl (Except.ok.inj hsize).symm, hrest, (Except.ok.inj h).symm⟩
        | none =>
            cases elemBuffer with
            | buffer bs =>
                cases hpack : VInt.uvintPack bs.length with
                | none =>
                    simp only [hpack] at h
                    cases h
                | some packed =>
                    simp only [hpack] at h
                    obtain ⟨sizeParts, hsize, h⟩ := Fallible.bind_eq_ok h
                    obtain ⟨rest, hrest, h⟩ := Fallible.bind_eq_ok h
                    exact ⟨sizeParts, rest, .inr ⟨_, (Except.ok.inj hsize).symm⟩, hrest, (Except.ok.inj h).symm⟩
            | _ => cases h
      obtain ⟨sizeParts, rest, hsizeParts, hrest, rfl⟩ := hsplit
      have htail : ∃ bs', concat (elemBuffer :: rest) = .ok bs' := by
        obtain rfl | ⟨packed, rfl⟩ := hsizeParts
        · exact ⟨bs, hconcat⟩
        · exact (concat_ok hconcat).2
      obtain ⟨bs', htail⟩ := htail
      obtain ⟨⟨as, rfl⟩, bs'', htail⟩ := concat_ok htail
      exact List.forall_mem_cons.2 ⟨⟨as, helem⟩, ih hrest htail⟩

end Loops

/-- An item that is encoded in a buffer is not empty. -/
theorem isEmptyList_of_encode {t : CqlType} {v : Value} {as : List UInt8} (ht : e.HasType t v)
    (h : e.encode v t = .ok (.buffer as)) : v.isEmptyList = false := by
  by_contra hempty
  rw [Bool.not_eq_false] at hempty
  rw [(encode_of_isEmptyList ht hempty).1] at h
  cases h

mutual

theorem noEmptyItem_of_encode : ∀ (t : CqlType) (v : Value) (r : Encoded), e.HasType t v →
    e.encode v t = .ok r → NoEmptyItem t v
  | .native _, _, _, _, _ => by
      rw [NoEmptyItem]
      trivial
  | .list t, v, r, ht, h => by
      rw [HasType] at ht
      rw [NoEmptyItem]
      obtain ⟨vs, rfl, hitems⟩ := ht
      rw [encode_eq_encodeType _ rfl (by simp), encodeType] at h
      exact fun x hx => noEmptyItem_item t x (hitems x hx) (encodeList_ok h x hx)
  | .set t, v, r, ht, h => by
      rw [HasType] at ht
      rw [NoEmptyItem]
      obtain ⟨vs, hvs, -, hitems⟩ := ht
      have hval : v.items = vs ∧ e.encode v (.set t) = e.encodeSet (e.encodeType t) v := by
        obtain rfl | ⟨-, rfl⟩ := hvs
        · exact ⟨rfl, rfl⟩
        · exact ⟨rfl, rfl⟩
      rw [hval.2, encodeSet_eq hvs] at h
      rw [hval.1]
      exact fun x hx => noEmptyItem_item t x (hitems x hx) (encodeList_ok h x hx)
  | .map k t, v, r, ht, h => by
      rw [HasType] at ht
      rw [NoEmptyItem]
      obtain ⟨entries, rfl, -, hentries⟩ := ht
      rw [encode_eq_encodeType _ rfl (by simp), encodeType] at h
      obtain ⟨parts, hparts, h⟩ := Fallible.bind_eq_ok h
      obtain ⟨length, -, h⟩ := Fallible.bind_eq_ok h
      obtain ⟨bs, hconcat, -⟩ := Fallible.map_eq_ok h
      obtain ⟨-, rest, hconcat⟩ := concat_ok hconcat
      intro p hp
      obtain ⟨hkey, r', hvalue⟩ := mapParts_ok hparts hconcat p hp
      exact ⟨noEmptyItem_item k p.1 (hentries p hp).1 hkey,
        noEmptyItem_of_encode t p.2 r' (hentries p hp).2 hvalue⟩
  | .tuple ts, v, r, ht, h => by
      rw [HasType] at ht
      rw [NoEmptyItem]
      obtain ⟨vs, rfl, -, htuple⟩ := ht
      rw [encode_eq_encodeType _ rfl (by simp), encodeType] at h
      obtain ⟨bs, hparts, -⟩ := Fallible.map_eq_ok h
      exact noEmptyItem_tuple ts vs bs htuple hparts
  | .udt name fields, v, r, ht, h => by
      rw [HasType] at ht
      rw [NoEmptyItem]
      obtain ⟨props, rfl, -, -, -, -, hudt⟩ := ht
      rw [encode_eq_encodeType _ rfl (by simp), encodeType] at h
      obtain ⟨bs, hparts, -⟩ := Fallible.map_eq_ok h
      exact noEmptyItem_fields fields props bs hudt hparts
  | .vector t dimension, v, r, ht, h => by
      rw [HasType] at ht
      rw [NoEmptyItem]
      obtain ⟨vs, rfl, -, -, hitems⟩ := ht
      rw [encode_eq_encodeType _ rfl (by simp), encodeType, encodeVector] at h
      split_ifs at h
      obtain ⟨parts, hparts, h⟩ := Fallible.bind_eq_ok h
      obtain ⟨bs, hconcat, -⟩ := Fallible.map_eq_ok h
      exact fun x hx => noEmptyItem_item t x (hitems x hx) (vectorParts_ok hparts hconcat x hx)
termination_by t => (sizeOf t, 0)

theorem noEmptyItem_item : ∀ (t : CqlType) (v : Value), e.HasType t v →
    (∃ as, e.encodeWith (e.encodeType t) v = .ok (.buffer as)) → v.isEmptyList = false ∧ NoEmptyItem t v
  | t, v, ht, ⟨_, h⟩ => ⟨isEmptyList_of_encode ht h, noEmptyItem_of_encode t v _ ht h⟩
termination_by t => (sizeOf t, 1)

theorem noEmptyItem_tuple : ∀ (ts : List CqlType) (vs : List Value) (bs : List UInt8), e.HasTypes ts vs →
    e.tupleParts ts vs = .ok bs → NoEmptyItemTuple ts vs
  | [], _, _, _, _ => by
      rw [NoEmptyItemTuple]
      · trivial
      · simp
  | t :: ts, vs, bs, ht, h => by
      rw [HasTypes] at ht
      obtain ⟨v, ws, rfl, hvt, htuple⟩ := ht
      rw [tupleParts] at h
      obtain ⟨item, hitem, h⟩ := Fallible.bind_eq_ok h
      obtain ⟨part, -, h⟩ := Fallible.bind_eq_ok h
      obtain ⟨parts, hparts, -⟩ := Fallible.bind_eq_ok h
      rw [NoEmptyItemTuple]
      exact ⟨hvt.imp_right fun hv => noEmptyItem_of_encode t v item hv hitem,
        noEmptyItem_tuple ts ws parts htuple hparts⟩
termination_by ts => (sizeOf ts, 0)

theorem noEmptyItem_fields : ∀ (fields : List (String × CqlType)) (props : List (String × Value))
    (bs : List UInt8), e.HasFields fields props → e.udtParts fields props = .ok bs →
      NoEmptyItemFields fields props
  | [], _, _, _, _ => by
      rw [NoEmptyItemFields]
      trivial
  | (name, t) :: fields, props, bs, ht, h => by
      rw [HasFields] at ht
      rw [udtParts] at h
      obtain ⟨item, hitem, h⟩ := Fallible.bind_eq_ok h
      obtain ⟨part, -, h⟩ := Fallible.bind_eq_ok h
      obtain ⟨parts, hparts, -⟩ := Fallible.bind_eq_ok h
      rw [NoEmptyItemFields]
      exact ⟨ht.1.imp_right fun hv => noEmptyItem_of_encode t _ item hv hitem,
        noEmptyItem_fields fields props parts ht.2 hparts⟩
termination_by fields => (sizeOf fields, 0)

end

/-! ### The exact condition -/

/-- The value is encoded in bytes that are read back, up to `null` for empty collections; an empty list or
set is `null` itself. -/
def Survives (e : Encoder) (t : CqlType) (v : Value) : Prop :=
  (∃ bs, e.encode v t = .ok (.buffer bs) ∧ e.decode bs t = .ok (e.readsBack t v)) ∨
    v.isEmptyList = true ∧ e.encode v t = .ok .null

/-- The native `Map` compares objects by reference. -/
theorem readsAlike_sameValueZero (h : e.keyEq = sameValueZero) : e.ReadsAlike := by
  intro t a b ha hb hae hbe hab
  rw [h] at hab ⊢
  cases t with
  | native t => rwa [readsBack, readsBack]
  | list t =>
      rw [readsBack, readsBack, hae, hbe]
      rfl
  | set t =>
      rw [readsBack, readsBack, hae, hbe]
      by_cases hset : e.set = true
      · rw [hset]
        rfl
      · rw [Bool.not_eq_true] at hset
        rw [hset]
        rfl
  | _ =>
      rw [readsBack, readsBack]
      rfl

def emptyType : CqlType :=
  .map (.native .int) (.list (.tuple [.set (.native .int), .udt "point" [("x", .list (.native .varint))]]))

/-- Empty collections as values of a map, in a tuple and in a field. -/
def emptyValue : Value :=
  .map [(.number 7, .array [.tuple [.array [], .object [("x", .array [])]]]), (.number 8, .array [])]

end Encoder
end CqlDriver
