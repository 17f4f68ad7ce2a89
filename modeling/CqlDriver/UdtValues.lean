import CqlDriver.Lib.Fallible
import CqlDriver.ResultsWrapper

/-! # Values of user-defined types (`lib/types/results-wrapper.js`, `src/result.rs`)

The native layer hands a value of a user-defined type over as an object with a property for each field.
`getCqlObject` pairs the properties, in the order in which the object lists them, with the types of the
definition.  `bindsFields_iff` says for which names every field is converted with its own type. -/

namespace JsObject

/-- The array indices are the decimal texts of the numbers below 2^32 - 1. -/
theorem isArrayIndex_iff {name : String} : isArrayIndex name = true ↔ ∃ n < 2 ^ 32 - 1, toString n = name := by
  constructor
  · intro h
    rw [isArrayIndex] at h
    split at h
    · rename_i n _
      rw [Bool.and_eq_true, beq_iff_eq, decide_eq_true_eq] at h
      exact ⟨n, h.2, h.1⟩
    · cases h
  · rintro ⟨n, hn, rfl⟩
    have hnat : (toString n).toNat? = some n := Nat.toNat?_repr n
    rw [isArrayIndex, hnat]
    dsimp only
    rw [Bool.and_eq_true, beq_iff_eq]
    exact ⟨rfl, decide_eq_true hn⟩

end JsObject

namespace CqlDriver.ResultsWrapper

/-- The object of the native layer: the fields are assigned in the order of the definition, and a field
without a value is `null`.  An assignment to `__proto__` makes no property; the prototype it sets
instead is not followed. -/
def udtField (fields : List (String × Option Field)) : Field :=
  .object (fields.foldl (fun obj p => JsObject.set obj p.1 (p.2.getD .null)) [])

section Udt

variable (host : Host)

/-- The values of the fields, each converted with the field's own type. -/
def ownValues (types : List ColumnType) (values : List (Option Field)) : Except Error (List Js) :=
  (values.zip types).mapM fun p => getCqlObject host (p.1.getD .null) p.2

/-- What is read has every name bound to the value of its own field, or is the exception of a field's
own conversion. -/
def BindsFields (udtName : String) (names : List String) (types : List ColumnType) (values : List (Option Field)) :
    Prop :=
  match ownValues host types values with
  | .ok vs => ∃ own proto,
      getCqlObject host (udtField (names.zip values)) (.udt udtName (names.zip types)) = .ok (.object own proto) ∧
        ∀ p ∈ names.zip vs, JsObject.get own p.1 = .own p.2
  | .error err =>
      getCqlObject host (udtField (names.zip values)) (.udt udtName (names.zip types)) = .error err

variable {host}

/-- The properties are converted one after the other, whatever their names are. -/
theorem udtEntries_eq : ∀ (fields : List (String × ColumnType)) (props : List (String × Field)),
    props.length ≤ fields.length → udtEntries host fields props =
      ((props.zip fields).mapM fun p => getCqlObject host p.1.2 p.2.2).map fun vs => (props.map Prod.fst).zip vs
  | fields, [], _ => by
      rw [udtEntries]
      rfl
  | [], _ :: _, hlen => absurd hlen (by simp)
  | (n, t) :: fields, (key, elem) :: props, hlen => by
      rw [udtEntries, udtEntries_eq fields props (by simpa using hlen), List.zip_cons_cons, List.mapM_cons]
      dsimp only
      rw [getCqlObject]
      cases withWrappers (convert host t) elem with
      | error err => rfl
      | ok x =>
          cases (props.zip fields).mapM fun p => getCqlObject host p.1.2 p.2.2 with
          | error err => rfl
          | ok xs => rfl

theorem udtField_eq_foldl (fields : List (String × Option Field)) :
    udtField fields = .object ((fields.map fun p => (p.1, p.2.getD Field.null)).foldl
      (fun obj p => JsObject.set obj p.1 p.2) []) := by
  rw [udtField, List.foldl_map]

theorem udtField_eq {fields : List (String × Option Field)} (hnodup : (fields.map Prod.fst).Nodup)
    (hproto : "__proto__" ∉ fields.map Prod.fst) :
    udtField fields = .object (fields.map fun p => (p.1, p.2.getD .null)) := by
  have hmap : (fields.map fun p => (p.1, p.2.getD Field.null)).map Prod.fst = fields.map Prod.fst := by
    rw [List.map_map]
    rfl
  have hfold := @JsObject.foldl_set_eq _ (fields.map fun p => (p.1, p.2.getD Field.null)) []
    (by rwa [hmap]) (by simp) (by rwa [hmap])
  rw [udtField_eq_foldl, hfold, List.nil_append]

theorem getCqlObject_object (props : List (String × Field)) (udtName : String)
    (fields : List (String × ColumnType)) :
    getCqlObject host (.object props) (.udt udtName fields) =
      (udtEntries host fields (JsObject.entries props)).map fun own =>
        .object (own.foldl (fun obj p => JsObject.define obj p.1 p.2) []) .objectPrototype := by
  rw [getCqlObject, withWrappers, convert]
  all_goals simp

theorem map_fst_udtEntries : ∀ {fields : List (String × ColumnType)} {props : List (String × Field)}
    {own : List (String × Js)}, udtEntries host fields props = .ok own → own.map Prod.fst = props.map Prod.fst
  | _, [], _, h => by
      rw [udtEntries] at h
      cases h
      rfl
  | [], _ :: _, _, h => by
      rw [udtEntries] at h
      cases h
  | _ :: fields, _ :: props, _, h => by
      rw [udtEntries] at h
      obtain ⟨x, -, h⟩ := Fallible.bind_eq_ok h
      obtain ⟨own, hown, h⟩ := Fallible.bind_eq_ok h
      cases h
      rw [List.map_cons, List.map_cons, map_fst_udtEntries hown]

/-- The properties of the result are among those of the native object. -/
theorem mem_of_getCqlObject_object {props : List (String × Field)} {udtName : String}
    {fields : List (String × ColumnType)} {own : List (String × Js)} {proto : Prototype Js}
    (h : getCqlObject host (.object props) (.udt udtName fields) = .ok (.object own proto)) {name : String}
    (hname : name ∈ own.map Prod.fst) : name ∈ props.map Prod.fst := by
  rw [getCqlObject_object] at h
  obtain ⟨entries, hentries, hown⟩ := Fallible.map_eq_ok h
  cases hown
  obtain hmem | hmem := JsObject.mem_of_mem_foldl_define hname
  · rw [map_fst_udtEntries hentries] at hmem
    exact ((JsObject.entries_perm props).map _).mem_iff.1 hmem
  · cases hmem

theorem mapM_entries : ∀ {names : List String} {types : List ColumnType} {values : List (Option Field)},
    types.length = names.length → values.length = names.length →
    ((((names.zip values).map fun p => (p.1, p.2.getD Field.null)).zip (names.zip types)).mapM fun p =>
      getCqlObject host p.1.2 p.2.2) = ownValues host types values
  | [], [], [], _, _ => rfl
  | n :: names, t :: types, v :: values, htypes, hvalues => by
      have ih := @mapM_entries names types values (by simpa using htypes) (by simpa using hvalues)
      rw [ownValues] at ih ⊢
      simp only [List.zip_cons_cons, List.map_cons, List.mapM_cons, ih]

theorem length_ownValues {types : List ColumnType} {values : List (Option Field)} {vs : List Js}
    (h : ownValues host types values = .ok vs) (hlen : types.length = values.length) : vs.length = values.length := by
  rw [← (Fallible.mapM_eq_ok.1 h).length_eq, List.length_zip, hlen, Nat.min_self]

/-- Names in the order of enumeration pair every value with its own type. -/
theorem bindsFields_of_inEnumerationOrder {names : List String} (hnodup : names.Nodup)
    (horder : JsObject.InEnumerationOrder names) (hproto : "__proto__" ∉ names) (udtName : String)
    {types : List ColumnType} {values : List (Option Field)} (htypes : types.length = names.length)
    (hvalues : values.length = names.length) : BindsFields host udtName names types values := by
  have hfst : (names.zip values).map Prod.fst = names := List.map_fst_zip hvalues.ge
  have hprops : ((names.zip values).map fun p => (p.1, p.2.getD Field.null)).map Prod.fst = names := by
    rw [List.map_map]
    exact hfst
  have hread : getCqlObject host (udtField (names.zip values)) (.udt udtName (names.zip types)) =
      ((ownValues host types values).map fun vs => names.zip vs).map fun own =>
        .object (own.foldl (fun obj p => JsObject.define obj p.1 p.2) []) .objectPrototype := by
    rw [udtField_eq (by rwa [hfst]) (by rwa [hfst]), getCqlObject_object,
      JsObject.entries_eq_self (by rwa [hprops]), udtEntries_eq, hprops, mapM_entries htypes hvalues]
    rw [List.length_map, List.length_zip, List.length_zip]
    omega
  rw [BindsFields, hread]
  cases hown : ownValues host types values with
  | error err => rfl
  | ok vs =>
      have hlen := length_ownValues hown (htypes.trans hvalues.symm)
      have hnames : ((names.zip vs).map Prod.fst).Nodup := by
        rwa [List.map_fst_zip (by omega)]
      refine ⟨_, _, rfl, fun p hp => ?_⟩
      rw [JsObject.foldl_define_eq hnames (by simp), List.nil_append]
      exact JsObject.get_of_mem hnames hp

theorem zip_map_self {α β : Type} (l : List α) (f : α → β) : l.zip (l.map f) = l.map fun a => (a, f a) := by
  have h := @List.zip_map' _ _ _ id f l
  rwa [List.map_id] at h

/-- A name `__proto__` is lost. -/
theorem not_bindsFields_of_proto {names : List String} (h : "__proto__" ∈ names) (udtName : String) :
    ¬ BindsFields host udtName names (names.map fun _ => .native .int) (names.map fun _ => none) := by
  intro hbinds
  have hown : ownValues host (names.map fun _ => .native .int) (names.map fun _ => none) =
      .ok (names.map fun _ => .null) := by
    rw [ownValues, List.zip_map', Fallible.mapM_map_eq_ok]
    intro n _
    rfl
  rw [BindsFields, hown] at hbinds
  obtain ⟨own, proto, hread, hget⟩ := hbinds
  have hmem : ("__proto__", Js.null) ∈ names.zip (names.map fun _ => Js.null) := by
    rw [zip_map_self, List.mem_map]
    exact ⟨_, h, rfl⟩
  have hkey := List.mem_map_of_mem (f := Prod.fst) (JsObject.mem_of_get (hget _ hmem))
  have hnil : "__proto__" ∉ ([] : List (String × Field)).map Prod.fst := by simp
  rw [udtField_eq_foldl] at hread
  exact JsObject.proto_not_mem_foldl_set _ hnil (mem_of_getCqlObject_object hread hkey)

/-- A value of the type `bigint` for one of the fields, and `null` for the others. -/
def probe (name other : String) : Option Field := if other = name then some (.scalar (.bigint 0)) else none

def probeType (name other : String) : ColumnType := .native (if other = name then .bigint else .int)

/-- The value of the one is read with the type of the other. -/
def probeResult (name : String) (value type : String) : Js :=
  if value = name then (if type = name then .inst (.long 0) else .scalar (.bigint 0)) else .null

theorem getCqlObject_probe (name value type : String) :
    getCqlObject host ((probe name value).getD .null) (probeType name type) = .ok (probeResult name value type) := by
  rw [probe, probeType, probeResult]
  split_ifs
  · simp only [Option.getD_some, getCqlObject, withWrappers, convert, nativeValue]
    rfl
  · simp only [Option.getD_some, getCqlObject, withWrappers, convert, nativeValue]
  · rfl
  · rfl

/-- The properties of the probe, each read with the type at its place. -/
theorem getCqlObject_udtField_probe {names entries : List String} (hnodup : names.Nodup)
    (hproto : "__proto__" ∉ names) (hentries : (JsObject.entries (names.map fun n => (n, ()))).map Prod.fst = entries)
    (hperm : entries.Perm names) (udtName name : String) :
    getCqlObject host (udtField (names.zip (names.map (probe name))))
        (.udt udtName (names.zip (names.map (probeType name)))) =
      .ok (.object (entries.zip ((entries.zip names).map fun p => probeResult name p.1 p.2)) .objectPrototype) := by
  have hfst {β : Type} (f : String → β) : (names.map fun n => (n, f n)).map Prod.fst = names := by
    rw [List.map_map]
    exact List.map_id names
  have hlist : JsObject.entries (names.map fun n => (n, (probe name n).getD Field.null)) =
      entries.map fun n => (n, (probe name n).getD Field.null) := by
    have h := JsObject.entries_map (names.map fun n => (n, ())) fun n _ => (probe name n).getD Field.null
    rw [List.map_map] at h
    rw [← hentries, List.map_map]
    exact h
  have hmapM : ((entries.map fun n => (n, (probe name n).getD Field.null)).zip
      (names.map fun n => (n, probeType name n))).mapM (fun p => getCqlObject host p.1.2 p.2.2) =
      .ok ((entries.zip names).map fun p => probeResult name p.1 p.2) := by
    rw [List.zip_map, Fallible.mapM_map_eq_ok]
    intro p _
    exact getCqlObject_probe name p.1 p.2
  have hkeys : (entries.map fun n => (n, (probe name n).getD Field.null)).map Prod.fst = entries := by
    rw [List.map_map]
    exact List.map_id entries
  have hnames : ((entries.zip ((entries.zip names).map fun p => probeResult name p.1 p.2)).map Prod.fst).Nodup := by
    rw [List.map_fst_zip (by rw [List.length_map, List.length_zip, hperm.length_eq, Nat.min_self])]
    exact hperm.nodup_iff.2 hnodup
  rw [zip_map_self, zip_map_self, udtField_eq (by rwa [hfst]) (by rwa [hfst]), List.map_map]
  simp only [Function.comp_def]
  rw [getCqlObject_object, hlist, udtEntries_eq _ _ (by rw [List.length_map, List.length_map, hperm.length_eq]),
    hmapM, hkeys]
  change Except.ok (Js.object (List.foldl _ [] _) _) = _
  rw [JsObject.foldl_define_eq hnames (by simp), List.nil_append]

/-- The field behind a name at another place of the enumeration is read as `int`. -/
theorem not_bindsFields_of_order {names : List String} (hnodup : names.Nodup) (hproto : "__proto__" ∉ names)
    (horder : ¬ JsObject.InEnumerationOrder names) (udtName : String) :
    ∃ name, ¬ BindsFields host udtName names (names.map (probeType name)) (names.map (probe name)) := by
  obtain ⟨entries, hentries⟩ : ∃ entries, (JsObject.entries (names.map fun n => (n, ()))).map Prod.fst = entries :=
    ⟨_, rfl⟩
  have hperm : entries.Perm names := by
    have h := (JsObject.entries_perm (names.map fun n => (n, ()))).map Prod.fst
    rwa [hentries, List.map_map, show Prod.fst ∘ (fun n : String => (n, ())) = id from rfl, List.map_id] at h
  have hne : entries ≠ names := by
    intro heq
    have h := JsObject.entries_inEnumerationOrder (names.map fun n => (n, ()))
    rw [hentries, heq] at h
    exact horder h
  obtain ⟨i, hi, hi', hname⟩ : ∃ i, ∃ (hi : i < entries.length) (hi' : i < names.length), entries[i] ≠ names[i] := by
    by_contra hall
    push Not at hall
    exact hne (List.ext_getElem hperm.length_eq fun i hi hi' => hall i hi hi')
  refine ⟨entries[i], fun hbinds => ?_⟩
  have hown : ownValues host (names.map (probeType entries[i])) (names.map (probe entries[i])) =
      .ok (names.map fun n => probeResult entries[i] n n) := by
    rw [ownValues, List.zip_map', Fallible.mapM_map_eq_ok]
    intro n _
    exact getCqlObject_probe _ n n
  rw [BindsFields, hown] at hbinds
  obtain ⟨own, proto, hread, hget⟩ := hbinds
  rw [getCqlObject_udtField_probe hnodup hproto hentries hperm] at hread
  cases hread
  have hmine : (entries[i], Js.inst (.long 0)) ∈ names.zip (names.map fun n => probeResult entries[i] n n) := by
    rw [zip_map_self, List.mem_map]
    exact ⟨entries[i], hperm.mem_iff.1 (List.getElem_mem hi), by rw [probeResult, if_pos rfl, if_pos rfl]⟩
  have hother : (entries[i], Js.scalar (.bigint 0)) ∈
      entries.zip ((entries.zip names).map fun p => probeResult entries[i] p.1 p.2) := by
    refine List.mem_iff_getElem.2 ⟨i, ?_, ?_⟩
    · rw [List.length_zip, List.length_map, List.length_zip]
      omega
    · rw [List.getElem_zip, List.getElem_map, List.getElem_zip, probeResult, if_pos rfl, if_neg (Ne.symm hname)]
  have hnames : ((entries.zip ((entries.zip names).map fun p => probeResult entries[i] p.1 p.2)).map Prod.fst).Nodup := by
    rw [List.map_fst_zip (by rw [List.length_map, List.length_zip, hperm.length_eq, Nat.min_self])]
    exact hperm.nodup_iff.2 hnodup
  have heq := (hget _ hmine).symm.trans (JsObject.get_of_mem hnames hother)
  cases heq

/-- All values of all types with these field names are read as they should be exactly if an object lists the
names in the order of the definition and none of them is `__proto__`. -/
theorem bindsFields_iff (host : Host) (udtName : String) (names : List String) (hnodup : names.Nodup) :
    (∀ (types : List ColumnType) (values : List (Option Field)), types.length = names.length →
      values.length = names.length → BindsFields host udtName names types values) ↔
    JsObject.InEnumerationOrder names ∧ "__proto__" ∉ names := by
  constructor
  · intro hall
    have hproto : "__proto__" ∉ names := fun hmem =>
      not_bindsFields_of_proto hmem udtName (hall _ _ (List.length_map _) (List.length_map _))
    refine ⟨?_, hproto⟩
    by_contra horder
    obtain ⟨name, hnot⟩ := not_bindsFields_of_order hnodup hproto horder udtName
    exact hnot (hall _ _ (List.length_map _) (List.length_map _))
  · rintro ⟨horder, hproto⟩ types values htypes hvalues
    exact bindsFields_of_inEnumerationOrder hnodup horder hproto udtName htypes hvalues

theorem bindsFields_iff_ab : ["a", "b"].Nodup ∧
    ((∀ (types : List ColumnType) (values : List (Option Field)), types.length = ["a", "b"].length →
      values.length = ["a", "b"].length → BindsFields emptyHost "pair" ["a", "b"] types values) ↔
    JsObject.InEnumerationOrder ["a", "b"] ∧ "__proto__" ∉ ["a", "b"]) :=
  ⟨by decide, bindsFields_iff emptyHost "pair" ["a", "b"] (by decide)⟩

end Udt

/-- The value of the field `1`, which is listed first, is read with the type of the field `b`. -/
theorem not_bindsFields_integerName : ¬ ∀ (host : Host) (udtName : String) (names : List String)
    (types : List ColumnType) (values : List (Option Field)), names.Nodup → types.length = names.length →
      values.length = names.length → BindsFields host udtName names types values := by
  intro hall
  have h := hall emptyHost "pair" ["b", "1"] [.native .varint, .native .bigint]
    [some (.scalar (.bigint 7)), some (.scalar (.bigint 5))] (by decide) rfl rfl
  have hown : ownValues emptyHost [.native .varint, .native .bigint]
      [some (.scalar (.bigint 7)), some (.scalar (.bigint 5))] = .ok [.scalar (.bigint 7), .inst (.long 5)] := by
    simp only [ownValues, List.zip_cons_cons, List.zip_nil_right, List.mapM_cons, List.mapM_nil, Option.getD_some,
      getCqlObject, withWrappers, convert, nativeValue]
    rfl
  rw [BindsFields, hown] at h
  obtain ⟨own, proto, hread, hget⟩ := h
  have hlisted : JsObject.entries [("b", Field.scalar (.bigint 7)), ("1", Field.scalar (.bigint 5))] =
      [("1", .scalar (.bigint 5)), ("b", .scalar (.bigint 7))] := by
    have hone : JsObject.isArrayIndex "1" = true := JsObject.isArrayIndex_iff.2 ⟨1, by norm_num, rfl⟩
    have hb : JsObject.isArrayIndex "b" = false := by
      rw [← Bool.not_eq_true, JsObject.isArrayIndex_iff]
      rintro ⟨n, -, htext⟩
      have hdigit : 'b' ∈ n.repr.toList := by
        rw [show n.repr = "b" from htext]
        decide
      rw [Nat.toList_repr] at hdigit
      exact absurd (JsString.isDigit_of_mem hdigit) (by decide)
    simp [JsObject.entries, hone, hb]
  rw [udtField_eq (by decide) (by decide)] at hread
  simp only [List.zip_cons_cons, List.zip_nil_right, List.map_cons, List.map_nil, Option.getD_some] at hread
  rw [getCqlObject_object, hlisted] at hread
  simp only [udtEntries, withWrappers, convert, nativeValue] at hread
  cases hread
  have hbound := hget ("1", .inst (.long 5)) (by simp)
  cases hbound

end CqlDriver.ResultsWrapper
