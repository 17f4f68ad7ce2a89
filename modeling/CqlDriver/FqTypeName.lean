import CqlDriver.TypeParams
import CqlDriver.Lib.Digits
import CqlDriver.Lib.Utf8

/-! # Fully-qualified type names (`lib/encoder.js`)

`parseFqTypeName` reads the class name of a type.  It works on one text with a start index and a length
that every constructor adjusts, except for vectors: `parseVectorTypeArgs` takes its arguments from the
start of the text.  `parses_iff` says for which types the name that is written by the server is read as
the type. -/

namespace CqlDriver.FqTypeName

open Brackets Digits Fallible JsString

/-- The package of the marshal classes. -/
def package : List Char := "org.apache.cassandra.db.marshal.".toList

def className (name : String) : List Char := package ++ name.toList

/-- `singleTypeNames`, without the package. -/
def singleTypes : List (String × ℕ) :=
  [("UTF8Type", 0xd), ("AsciiType", 0x1), ("UUIDType", 0xc), ("TimeUUIDType", 0xf), ("Int32Type", 0x9),
    ("BytesType", 0x3), ("FloatType", 0x8), ("DoubleType", 0x7), ("BooleanType", 0x4), ("InetAddressType", 0x10),
    ("SimpleDateType", 0x11), ("TimeType", 0x12), ("ShortType", 0x13), ("ByteType", 0x14), ("DateType", 0xb),
    ("TimestampType", 0xb), ("LongType", 0x2), ("DecimalType", 0x6), ("IntegerType", 0xe),
    ("CounterColumnType", 0x5)]

def singleTypeNames : List (List Char × ℕ) := singleTypes.map fun e => (className e.1, e.2)

/-- The length of the longest one. -/
def singleFqTypeNamesLength : ℕ :=
  singleTypeNames.foldl (fun previous current => if current.1.length > previous then current.1.length else previous) 0

structure Options where
  frozen : Bool
  reversed : Bool
deriving DecidableEq

/-- A `ColumnInfo`. -/
inductive ColumnInfo where
  | single (code : ℕ) (options : Options)
  | custom (info : List Char) (options : Options)
  | of (code : ℕ) (info : ColumnInfo) (options : Options)
  | ofAll (code : ℕ) (info : List ColumnInfo) (options : Options)
  | udt (keyspace : List Char) (name : String) (fields : List (String × ColumnInfo)) (options : Options)
  | vector (subtype : ColumnInfo) (dimension : Option ℤ) (options : Options)

/-- The text of a buffer that is given in hexadecimal. -/
def hexText (s : List Char) : String := Utf8.decode (fromHex s)

section
variable (parse : List Char → ℕ → ℕ → Except TypeNameError ColumnInfo)

/-- A field `hexname:type`; without a colon the whole parameter is the type and the name is empty. -/
def parseField (p : List Char) : Except TypeNameError (String × ColumnInfo) :=
  match p.idxOf? ':' with
  | some separatorIndex => do
      let fieldType ← parse p (separatorIndex + 1) (p.length - (separatorIndex + 1))
      return (hexText (substr p 0 separatorIndex), fieldType)
  | none => do
      let fieldType ← parse p 0 p.length
      return ("", fieldType)

def parseUdtName (typeName : List Char) (startIndex length : ℕ) (options : Options) : Except TypeNameError ColumnInfo :=
  match parseParams typeName startIndex length paren with
  | keyspace :: name :: fields => do
      let fields ← fields.mapM (parseField parse)
      return .udt keyspace (hexText name) fields options
  | _ => .error (notValid typeName)

/-- `parseFqTypeName` after the two wrappers. -/
def parseUnwrapped (typeName : List Char) (startIndex length : ℕ) (options : Options) :
    Except TypeNameError ColumnInfo :=
  -- the cursor moves across the name and bypasses the parentheses
  let params (name : String) :=
    parseParams typeName (startIndex + ((className name).length + 1)) (length - ((className name).length + 2)) paren
  if typeName = className "EmptyType" then .ok (.custom "empty".toList options)
  else if length ≤ singleFqTypeNamesLength then
    let typeName := if startIndex > 0 then substr typeName startIndex length else typeName
    match singleTypeNames.find? (·.1 == typeName) with
    | some entry => .ok (.single entry.2 options)
    | none =>
        if typeName = className "DurationType" then .ok (.single 0x15 options)
        else .error (notValidQuoted typeName)
  else if startsAt typeName (className "ListType") startIndex then
    match params "ListType" with
    | [t] => (parse t 0 0).map (.of 0x20 · options)
    | _ => .error (notValid typeName)
  else if startsAt typeName (className "SetType") startIndex then
    match params "SetType" with
    | [t] => (parse t 0 0).map (.of 0x22 · options)
    | _ => .error (notValid typeName)
  else if startsAt typeName (className "MapType") startIndex then
    match params "MapType" with
    | [k, v] => do
        let info1 ← parse k 0 0
        let info2 ← parse v 0 0
        return .ofAll 0x21 [info1, info2] options
    | _ => .error (notValid typeName)
  else if startsAt typeName (className "UserType") startIndex then
    parseUdtName parse typeName (startIndex + ((className "UserType").length + 1))
      (length - ((className "UserType").length + 2)) options
  else if startsAt typeName (className "TupleType") startIndex then
    if (params "TupleType").length < 1 then .error (notValid typeName)
    else ((params "TupleType").mapM fun x => parse x 0 0).map (.ofAll 0x31 · options)
  else if startsAt typeName (className "VectorType") startIndex then
    (parseVectorTypeArgs typeName (className "VectorType") fun x => parse x 0 0).map fun r => .vector r.1 r.2 options
  else .ok (.custom (substr typeName startIndex length) options)

/-- `parseFqTypeName` after the wrapper `ReversedType`. -/
def parseUnreversed (typeName : List Char) (startIndex length : ℕ) (reversed : Bool) :
    Except TypeNameError ColumnInfo :=
  if decide (length > (className "FrozenType").length) && startsAt typeName (className "FrozenType") startIndex then
    parseUnwrapped parse typeName (startIndex + ((className "FrozenType").length + 1))
      (length - ((className "FrozenType").length + 2)) ⟨true, reversed⟩
  else parseUnwrapped parse typeName startIndex length ⟨false, reversed⟩

end

/-- `fuel` bounds the depth of the recursion; a length of 0 stands for the whole text. -/
def parseFqTypeName : ℕ → List Char → ℕ → ℕ → Except TypeNameError ColumnInfo
  | 0, typeName, _, _ => .error (notValid typeName)
  | fuel + 1, typeName, startIndex, length =>
      let length := if length = 0 then typeName.length else length
      if decide (length > (className "ReversedType").length) &&
          decide (indexOf typeName (className "ReversedType") = some startIndex) then
        parseUnreversed (parseFqTypeName fuel) typeName (startIndex + ((className "ReversedType").length + 1))
          (length - ((className "ReversedType").length + 2)) true
      else parseUnreversed (parseFqTypeName fuel) typeName startIndex length false

/-! ### Types and their class names -/

/-- A class of `singleTypeNames`, or the one of the durations. -/
structure SingleType where
  name : String
  code : ℕ
  listed : (name, code) ∈ ("DurationType", 0x15) :: singleTypes

/-- The server accepts letters, digits and underscores in the name of a keyspace. -/
structure Keyspace where
  name : List Char
  plain : Plain paren name

/-- The types that have a class name, each with or without the wrapper `FrozenType`; a dimension is a
32-bit integer. -/
inductive FqType where
  | single (frozen : Bool) (t : SingleType)
  | list (frozen : Bool) (t : FqType)
  | set (frozen : Bool) (t : FqType)
  | map (frozen : Bool) (key value : FqType)
  | tuple (frozen : Bool) (ts : List FqType)
  | udt (frozen : Bool) (keyspace : Keyspace) (name : String) (fields : List (String × FqType))
  | vector (frozen : Bool) (t : FqType) (dimension : ℕ)

/-- A class with arguments. -/
def applied (name : String) (args : List (List Char)) : List Char :=
  className name ++ '(' :: [','].intercalate args ++ [')']

def hexName (name : String) : List Char := toHex (Utf8.encode name)

namespace FqType

def frozen : FqType → Bool
  | .single f _ => f
  | .list f _ => f
  | .set f _ => f
  | .map f _ _ => f
  | .tuple f _ => f
  | .udt f _ _ _ => f
  | .vector f _ _ => f

mutual

/-- The class name without the wrapper of the type itself. -/
def bare : FqType → List Char
  | .single _ t => className t.name
  | .list _ t => applied "ListType" [if t.frozen then applied "FrozenType" [t.bare] else t.bare]
  | .set _ t => applied "SetType" [if t.frozen then applied "FrozenType" [t.bare] else t.bare]
  | .map _ k v => applied "MapType"
      [if k.frozen then applied "FrozenType" [k.bare] else k.bare,
        if v.frozen then applied "FrozenType" [v.bare] else v.bare]
  | .tuple _ ts => applied "TupleType" (renders ts)
  | .udt _ ks name fields => applied "UserType" (ks.name :: hexName name :: fieldTexts fields)
  | .vector _ t n => applied "VectorType"
      [if t.frozen then applied "FrozenType" [t.bare] else t.bare, Nat.toDigits 10 n]

def renders : List FqType → List (List Char)
  | [] => []
  | t :: ts => (if t.frozen then applied "FrozenType" [t.bare] else t.bare) :: renders ts

def fieldTexts : List (String × FqType) → List (List Char)
  | [] => []
  | (name, t) :: fields =>
      (hexName name ++ ':' :: (if t.frozen then applied "FrozenType" [t.bare] else t.bare)) :: fieldTexts fields

end

/-- The class name of a type. -/
def render (t : FqType) : List Char := if t.frozen then applied "FrozenType" [t.bare] else t.bare

/-- The class name of the type of a column, which may be in reversed order. -/
def renderColumn (reversed : Bool) (t : FqType) : List Char :=
  if reversed then applied "ReversedType" [t.render] else t.render

mutual

/-- The column info of a type. -/
def info (reversed : Bool) : FqType → ColumnInfo
  | .single f t => .single t.code ⟨f, reversed⟩
  | .list f t => .of 0x20 (t.info false) ⟨f, reversed⟩
  | .set f t => .of 0x22 (t.info false) ⟨f, reversed⟩
  | .map f k v => .ofAll 0x21 [k.info false, v.info false] ⟨f, reversed⟩
  | .tuple f ts => .ofAll 0x31 (infos ts) ⟨f, reversed⟩
  | .udt f ks name fields => .udt ks.name name (fieldInfos fields) ⟨f, reversed⟩
  | .vector f t n => .vector (t.info false) (some n) ⟨f, reversed⟩

def infos : List FqType → List ColumnInfo
  | [] => []
  | t :: ts => t.info false :: infos ts

def fieldInfos : List (String × FqType) → List (String × ColumnInfo)
  | [] => []
  | (name, t) :: fields => (name, t.info false) :: fieldInfos fields

end

mutual

/-- No vector stands in a wrapper or as a field of a user type, no tuple is empty, and a user type without
fields has names that are long enough for it not to be taken for a single type.  `inside` tells that the
type itself is in a wrapper or is a field. -/
def parseable (inside : Bool) : FqType → Bool
  | .single _ _ => true
  | .list _ t => t.parseable t.frozen
  | .set _ t => t.parseable t.frozen
  | .map _ k v => k.parseable k.frozen && v.parseable v.frozen
  | .tuple _ ts => !ts.isEmpty && parseables ts
  | .udt _ ks name fields => (!fields.isEmpty || 6 < ks.name.length + (hexName name).length) && parseableFields fields
  | .vector _ t _ => !inside && t.parseable t.frozen

def parseables : List FqType → Bool
  | [] => true
  | t :: ts => t.parseable t.frozen && parseables ts

def parseableFields : List (String × FqType) → Bool
  | [] => true
  | (_, t) :: fields => t.parseable true && parseableFields fields

end

/-- Induction over a type; the parts of a tuple and of a user type are members of a list. -/
@[elab_as_elim]
theorem inductionOn {motive : FqType → Prop} (single : ∀ f t, motive (.single f t))
    (list : ∀ f t, motive t → motive (.list f t)) (set : ∀ f t, motive t → motive (.set f t))
    (map : ∀ f k v, motive k → motive v → motive (.map f k v))
    (tuple : ∀ f ts, (∀ t ∈ ts, motive t) → motive (.tuple f ts))
    (udt : ∀ f ks name fields, (∀ x ∈ fields, motive x.2) → motive (.udt f ks name fields))
    (vector : ∀ f t n, motive t → motive (.vector f t n)) (t : FqType) : motive t :=
  @FqType.rec motive (fun ts => ∀ t ∈ ts, motive t) (fun fields => ∀ x ∈ fields, motive x.2)
    (fun x => motive x.2) single list set map tuple udt vector
    (List.forall_mem_nil _) (fun _ _ ht hts => List.forall_mem_cons.2 ⟨ht, hts⟩)
    (List.forall_mem_nil _) (fun _ _ hx hfields => List.forall_mem_cons.2 ⟨hx, hfields⟩) (fun _ _ ht => ht) t

theorem renders_eq (ts : List FqType) : renders ts = ts.map render := by
  induction ts with
  | nil => rfl
  | cons t ts ih => rw [renders, ih, List.map_cons, render]

theorem fieldTexts_eq (fields : List (String × FqType)) :
    fieldTexts fields = fields.map fun x => hexName x.1 ++ ':' :: x.2.render := by
  induction fields with
  | nil => rfl
  | cons x fields ih => rw [fieldTexts, ih, List.map_cons, render]

theorem infos_eq (ts : List FqType) : infos ts = ts.map (info false) := by
  induction ts with
  | nil => rfl
  | cons t ts ih => rw [infos, ih, List.map_cons]

theorem fieldInfos_eq (fields : List (String × FqType)) :
    fieldInfos fields = fields.map fun x => (x.1, x.2.info false) := by
  induction fields with
  | nil => rfl
  | cons x fields ih => rw [fieldInfos, ih, List.map_cons]

theorem parseables_iff (ts : List FqType) : parseables ts = true ↔ ∀ t ∈ ts, t.parseable t.frozen = true := by
  induction ts with
  | nil => simp [parseables]
  | cons t ts ih => simp [parseables, ih]

theorem parseableFields_iff (fields : List (String × FqType)) :
    parseableFields fields = true ↔ ∀ x ∈ fields, x.2.parseable true = true := by
  induction fields with
  | nil => simp [parseableFields]
  | cons x fields ih => simp [parseableFields, ih]

end FqType

/-! ### The shape of a class name -/

/-- The names of the classes that are no wrappers. -/
def names : List String :=
  ["ListType", "SetType", "MapType", "UserType", "TupleType", "VectorType"] ++
    (("DurationType", 0x15) :: singleTypes).map Prod.fst

/-- None of the names that are tested for is the start of another name. -/
theorem names_apart : ∀ x ∈ ["ListType", "SetType", "MapType", "UserType", "TupleType", "VectorType", "FrozenType",
    "ReversedType"], ∀ y ∈ names, x ≠ y → x.toList.isPrefixOf y.toList = false ∧ y.toList.isPrefixOf x.toList = false := by
  decide +kernel

theorem names_spec : ∀ y ∈ names, Plain paren (className y) ∧ (className y).getLast? = some 'e' ∧
    className y ≠ className "EmptyType" := by
  decide +kernel

theorem find?_single : ∀ e ∈ ("DurationType", 0x15) :: singleTypes,
    (className e.1).length ≤ singleFqTypeNamesLength ∧
      singleTypeNames.find? (·.1 == className e.1) =
        if e.1 = "DurationType" then none else some (className e.1, e.2) := by
  decide +kernel

theorem SingleType.mem_names (t : SingleType) : t.name ∈ names := by
  apply List.mem_append_right _
  exact List.mem_map.2 ⟨_, t.listed, rfl⟩

/-- A class name starts like another one if it does so behind the package. -/
theorem startsAt_className (front rest : List Char) (x y : String) :
    startsAt (front ++ (className y ++ rest)) (className x) front.length = x.toList.isPrefixOf (y.toList ++ rest) := by
  rw [startsAt_append, className, className, List.append_assoc, Bool.eq_iff_iff, List.isPrefixOf_iff_prefix,
    List.isPrefixOf_iff_prefix, List.prefix_append_right_inj]

theorem startsAt_className_self (front rest : List Char) (x : String) :
    startsAt (front ++ (className x ++ rest)) (className x) front.length = true := by
  rw [startsAt_className, List.isPrefixOf_iff_prefix]
  exact List.prefix_append _ _

theorem startsAt_className_of_ne (front rest : List Char) {x y : String}
    (hx : x ∈ ["ListType", "SetType", "MapType", "UserType", "TupleType", "VectorType", "FrozenType", "ReversedType"])
    (hy : y ∈ names) (h : x ≠ y) : startsAt (front ++ (className y ++ rest)) (className x) front.length = false := by
  rw [startsAt_className]
  exact isPrefixOf_append_false (names_apart x hx y hy h).1 (names_apart x hx y hy h).2 rest

theorem argument_applied {name : String} (hname : Plain paren (className name)) {args : List (List Char)}
    (h : ∀ a ∈ args, Argument paren a) : Argument paren (applied name args) :=
  argument_bracketed hname (within_intercalate (within_comma [] (by decide)) h)

theorem applied_length (name : String) (args : List (List Char)) :
    (applied name args).length = (className name).length + ([','].intercalate args).length + 2 := by
  simp only [applied, List.length_append, List.length_cons, List.length_nil]
  omega

theorem getLast?_applied (name : String) (args : List (List Char)) : (applied name args).getLast? = some ')' := by
  rw [applied, List.getLast?_append_of_ne_nil _ (List.cons_ne_nil _ _)]
  rfl

theorem hexName_plain (name : String) : Plain paren (hexName name) ∧ ':' ∉ hexName name := by
  have h : ∀ c ∈ hexName name, (hexValue c).isSome = true := fun c hc => hexValue_of_mem_toHex hc
  refine ⟨⟨fun hc => ?_, fun hc => ?_, fun hc => ?_⟩, fun hc => ?_⟩
  all_goals exact absurd (h _ hc) (by decide)

theorem hexText_hexName (name : String) : hexText (hexName name) = name := by
  rw [hexText, hexName, fromHex_toHex, Utf8.decode_encode]

namespace FqType

theorem argument_render_of_bare {t : FqType} (h : Argument paren t.bare) : Argument paren t.render := by
  rw [render]
  split_ifs
  · exact argument_applied (by decide) (by simpa using h)
  · exact h

theorem argument_udt (ks : Keyspace) (name : String) {fields : List (String × FqType)}
    (h : ∀ x ∈ fields, Argument paren x.2.render) :
    ∀ a ∈ ks.name :: hexName name :: fieldTexts fields, Argument paren a := by
  intro a ha
  rw [fieldTexts_eq, List.mem_cons, List.mem_cons, List.mem_map] at ha
  rcases ha with rfl | rfl | ⟨x, hx, rfl⟩
  · exact ks.plain.argument
  · exact (hexName_plain name).1.argument
  · have hcolon : Plain paren [':'] := by decide
    rw [← List.singleton_append, ← List.append_assoc]
    exact ((hexName_plain x.1).1.append hcolon).append_argument (h x hx)

/-- Every class name is an argument of a list of classes. -/
theorem argument_bare (t : FqType) : Argument paren t.bare := by
  induction t using inductionOn with
  | single f t => exact (names_spec t.name t.mem_names).1.argument
  | list f t ih => exact argument_applied (by decide) (List.forall_mem_singleton.2 (argument_render_of_bare ih))
  | set f t ih => exact argument_applied (by decide) (List.forall_mem_singleton.2 (argument_render_of_bare ih))
  | map f k v ihk ihv =>
      refine argument_applied (by decide) (List.forall_mem_cons.2 ⟨argument_render_of_bare ihk, ?_⟩)
      exact List.forall_mem_singleton.2 (argument_render_of_bare ihv)
  | tuple f ts ih =>
      apply argument_applied (by decide)
      intro a ha
      rw [renders_eq, List.mem_map] at ha
      obtain ⟨t, ht, rfl⟩ := ha
      exact argument_render_of_bare (ih t ht)
  | udt f ks name fields ih =>
      exact argument_applied (by decide) (argument_udt ks name fun x hx => argument_render_of_bare (ih x hx))
  | vector f t n ih =>
      apply argument_applied (by decide)
      intro a ha
      rcases List.mem_pair.1 ha with rfl | rfl
      · exact argument_render_of_bare ih
      · exact (toDigits_plain n).argument

theorem argument_render (t : FqType) : Argument paren t.render := argument_render_of_bare t.argument_bare

/-- A class name is that of a single type or a class with arguments. -/
theorem bare_cases (t : FqType) : ∃ name ∈ names, t.bare = className name ∨ ∃ args, t.bare = applied name args := by
  cases t with
  | single f t => exact ⟨t.name, t.mem_names, Or.inl rfl⟩
  | list f t => exact ⟨"ListType", by simp [names], Or.inr ⟨_, rfl⟩⟩
  | set f t => exact ⟨"SetType", by simp [names], Or.inr ⟨_, rfl⟩⟩
  | map f k v => exact ⟨"MapType", by simp [names], Or.inr ⟨_, rfl⟩⟩
  | tuple f ts => exact ⟨"TupleType", by simp [names], Or.inr ⟨_, rfl⟩⟩
  | udt f ks name fields => exact ⟨"UserType", by simp [names], Or.inr ⟨_, rfl⟩⟩
  | vector f t n => exact ⟨"VectorType", by simp [names], Or.inr ⟨_, rfl⟩⟩

theorem bare_eq_append (t : FqType) : ∃ name ∈ names, ∃ rest, t.bare = className name ++ rest := by
  obtain ⟨name, hname, h | ⟨args, h⟩⟩ := t.bare_cases
  · exact ⟨name, hname, [], by rw [h, List.append_nil]⟩
  · exact ⟨name, hname, _, by rw [h, applied, List.append_assoc]⟩

theorem bare_length (t : FqType) : package.length ≤ t.bare.length := by
  obtain ⟨name, -, rest, h⟩ := t.bare_eq_append
  rw [h, className]
  simp only [List.length_append]
  omega

theorem bare_length_le (t : FqType) : t.bare.length ≤ t.render.length := by
  rw [render]
  split_ifs
  · rw [applied_length, List.intercalate_singleton]
    omega
  · exact le_rfl

theorem getLast?_bare (t : FqType) : t.bare.getLast? = some 'e' ∨ t.bare.getLast? = some ')' := by
  obtain ⟨name, hname, h | ⟨args, h⟩⟩ := t.bare_cases
  · rw [h]
    exact Or.inl (names_spec name hname).2.1
  · rw [h]
    exact Or.inr (getLast?_applied name args)

theorem render_eq_append (t : FqType) : ∃ rest, t.render = package ++ rest := by
  obtain ⟨name, -, rest, h⟩ := t.bare_eq_append
  rw [render]
  split_ifs
  · exact ⟨_, by rw [applied, className, List.append_assoc, List.append_assoc]⟩
  · exact ⟨_, by rw [h, className, List.append_assoc]⟩

theorem render_trimmed (t : FqType) : Trimmed t.render := by
  refine ⟨fun c hc => ?_, fun c hc => ?_⟩
  · obtain ⟨rest, h⟩ := t.render_eq_append
    rw [h, List.head?_append_of_ne_nil _ (by decide)] at hc
    exact Option.some.inj hc ▸ (by decide)
  · have hlast : t.render.getLast? = some 'e' ∨ t.render.getLast? = some ')' := by
      rw [render]
      split_ifs
      · exact Or.inr (getLast?_applied _ _)
      · exact t.getLast?_bare
    rcases hlast with h | h
    · exact Option.some.inj (h.symm.trans hc) ▸ (by decide)
    · exact Option.some.inj (h.symm.trans hc) ▸ (by decide)

end FqType

theorem singleFqTypeNamesLength_eq : singleFqTypeNamesLength = 49 := by
  decide +kernel

theorem package_length : package.length = 32 := by
  decide

/-! ### What stands around a class name -/

/-- The text around the class at which the cursor is: nothing, the name of a field, or wrappers. -/
structure Around (front back : List Char) : Prop where
  whole : front = [] → back = []
  marked : front ≠ [] → '(' ∈ front ∨ ':' ∈ front
  closing : ')' ∉ front
  comma : ',' ∉ front
  comma_back : ',' ∉ back

namespace Around

theorem nothing : Around [] [] :=
  ⟨fun _ => rfl, fun h => absurd rfl h, List.not_mem_nil, List.not_mem_nil, List.not_mem_nil⟩

theorem field (name : String) : Around (hexName name ++ [':']) [] := by
  have hclosing : ')' ∉ hexName name := (hexName_plain name).1.2.1
  have hcomma : ',' ∉ hexName name := (hexName_plain name).1.2.2
  constructor
  · simp
  · simp
  · simpa using hclosing
  · simpa using hcomma
  · simp

variable {front back : List Char}

theorem wrapper {name : String} (hname : Plain paren (className name)) (h : Around front back) :
    Around (front ++ className name ++ ['(']) (')' :: back) := by
  obtain ⟨-, hclosing, hcomma⟩ := hname
  constructor
  · simp
  · simp
  · simpa using ⟨h.closing, hclosing⟩
  · simpa using ⟨h.comma, hcomma⟩
  · simpa using h.comma_back

/-- The text is not the class that has a test of its own. -/
theorem ne_empty (h : Around front back) (t : FqType) : front ++ t.bare ++ back ≠ className "EmptyType" := by
  have hopening : '(' ∉ className "EmptyType" := by decide
  have hcolon : ':' ∉ className "EmptyType" := by decide
  intro he
  by_cases hf : front = []
  · rw [hf, h.whole hf, List.nil_append, List.append_nil] at he
    obtain ⟨name, hname, hb | ⟨args, hb⟩⟩ := t.bare_cases
    · exact (names_spec name hname).2.2 (hb.symm.trans he)
    · apply hopening
      rw [← he, hb, applied]
      simp
  · rw [← he] at hopening hcolon
    rcases h.marked hf with hm | hm
    · exact hopening (by simp [hm])
    · exact hcolon (by simp [hm])

end Around

theorem length_wrapper (front : List Char) (name : String) :
    (front ++ className name ++ ['(']).length = front.length + ((className name).length + 1) := by
  simp only [List.length_append, List.length_singleton]
  omega

theorem wrapper_eq (front back : List Char) (name : String) (s : List Char) :
    front ++ applied name [s] ++ back = front ++ className name ++ ['('] ++ s ++ ')' :: back := by
  simp [applied]

/-- Which class stands at the cursor. -/
theorem startsAt_applied (front back : List Char) (args : List (List Char)) {x y : String}
    (hx : x ∈ ["ListType", "SetType", "MapType", "UserType", "TupleType", "VectorType", "FrozenType", "ReversedType"])
    (hy : y ∈ names) :
    startsAt (front ++ applied y args ++ back) (className x) front.length = decide (x = y) := by
  rw [applied, List.append_assoc, List.append_assoc, List.append_assoc]
  by_cases h : x = y
  · rw [h, startsAt_className_self, decide_eq_true rfl]
  · rw [startsAt_className_of_ne front _ hx hy h, decide_eq_false h]

/-- The parameters of a class are the parts of what stands between its parentheses. -/
theorem parseParams_applied (front back : List Char) (name : String) (args : List (List Char)) :
    parseParams (front ++ applied name args ++ back) (front.length + ((className name).length + 1))
        ((applied name args).length - ((className name).length + 2)) paren =
      cuts paren 0 ([','].intercalate args) :=
  parseParams_between front (className name) ([','].intercalate args) back '(' ')' paren

/-- The text that is looked up in the table. -/
theorem Around.window {front back : List Char} (h : Around front back) (s : List Char) :
    (if front.length > 0 then substr (front ++ s ++ back) front.length s.length else front ++ s ++ back) = s := by
  by_cases hf : front = []
  · rw [hf, h.whole hf]
    simp
  · rw [if_pos (List.length_pos_iff.2 hf), substr_append]

section
variable (parse : List Char → ℕ → ℕ → Except TypeNameError ColumnInfo)

theorem parseUnwrapped_single {front back : List Char} (h : Around front back) (f : Bool) (t : SingleType)
    (options : Options) :
    parseUnwrapped parse (front ++ className t.name ++ back) front.length (className t.name).length options =
      .ok (.single t.code options) := by
  have hempty := h.ne_empty (.single f t)
  obtain ⟨hlength, hfind⟩ := find?_single _ t.listed
  have hduration : t.name = "DurationType" → t.code = 0x15 := by
    have hcode : ∀ e ∈ ("DurationType", 0x15) :: singleTypes, e.1 = "DurationType" → e.2 = 0x15 := by decide
    exact hcode _ t.listed
  rw [FqType.bare] at hempty
  rw [parseUnwrapped, if_neg hempty, if_pos hlength]
  simp only [h.window, hfind]
  by_cases hname : t.name = "DurationType"
  · rw [hname, hduration hname]
    rfl
  · rw [if_neg hname]

/-- A class with arguments that is too short is looked up in the table of the single types. -/
theorem parseUnwrapped_short {front back : List Char} (h : Around front back) {name : String} {args : List (List Char)}
    (options : Options) (hempty : front ++ applied name args ++ back ≠ className "EmptyType")
    (hshort : (applied name args).length ≤ 49) :
    parseUnwrapped parse (front ++ applied name args ++ back) front.length (applied name args).length options =
      .error (notValidQuoted (applied name args)) := by
  have hopening : '(' ∈ applied name args := by simp [applied]
  have hne : ∀ e ∈ singleTypeNames, e.1 ≠ applied name args := by
    intro e he happlied
    have hplain : ∀ e ∈ singleTypeNames, '(' ∉ e.1 := by decide +kernel
    exact hplain e he (happlied ▸ hopening)
  have hfind : singleTypeNames.find? (·.1 == applied name args) = none := by
    rw [List.find?_eq_none]
    intro e he
    simpa using hne e he
  have hduration : applied name args ≠ className "DurationType" := by
    intro happlied
    rw [happlied] at hopening
    exact absurd hopening (by decide)
  rw [parseUnwrapped, if_neg hempty, singleFqTypeNamesLength_eq, if_pos hshort]
  simp only [h.window, hfind]
  rw [if_neg hduration]

/-- The branch that is taken at a class with arguments that is not too short. -/
theorem parseUnwrapped_applied {front back : List Char} {name : String} {args : List (List Char)} (options : Options)
    (hempty : front ++ applied name args ++ back ≠ className "EmptyType") (hlong : 49 < (applied name args).length)
    (hname : name ∈ names) :
    parseUnwrapped parse (front ++ applied name args ++ back) front.length (applied name args).length options =
      if "ListType" = name then
        match cuts paren 0 ([','].intercalate args) with
        | [t] => (parse t 0 0).map (.of 0x20 · options)
        | _ => .error (notValid (front ++ applied name args ++ back))
      else if "SetType" = name then
        match cuts paren 0 ([','].intercalate args) with
        | [t] => (parse t 0 0).map (.of 0x22 · options)
        | _ => .error (notValid (front ++ applied name args ++ back))
      else if "MapType" = name then
        match cuts paren 0 ([','].intercalate args) with
        | [k, v] => do
            let info1 ← parse k 0 0
            let info2 ← parse v 0 0
            return .ofAll 0x21 [info1, info2] options
        | _ => .error (notValid (front ++ applied name args ++ back))
      else if "UserType" = name then
        match cuts paren 0 ([','].intercalate args) with
        | keyspace :: name :: fields => do
            let fields ← fields.mapM (parseField parse)
            return .udt keyspace (hexText name) fields options
        | _ => .error (notValid (front ++ applied name args ++ back))
      else if "TupleType" = name then
        if (cuts paren 0 ([','].intercalate args)).length < 1 then .error (notValid (front ++ applied name args ++ back))
        else ((cuts paren 0 ([','].intercalate args)).mapM fun x => parse x 0 0).map (.ofAll 0x31 · options)
      else if "VectorType" = name then
        (parseVectorTypeArgs (front ++ applied name args ++ back) (className "VectorType") fun x => parse x 0 0).map
          fun r => .vector r.1 r.2 options
      else .ok (.custom (substr (front ++ applied name args ++ back) front.length (applied name args).length) options) := by
  have hparams := parseParams_applied front back name args
  rw [parseUnwrapped, if_neg hempty, singleFqTypeNamesLength_eq, if_neg (by omega),
    startsAt_applied _ _ _ (by simp) hname, startsAt_applied _ _ _ (by simp) hname,
    startsAt_applied _ _ _ (by simp) hname, startsAt_applied _ _ _ (by simp) hname,
    startsAt_applied _ _ _ (by simp) hname, startsAt_applied _ _ _ (by simp) hname]
  simp only [decide_eq_true_eq]
  split_ifs with hl hs hm hu ht hlt hlt' hlt'' hv <;> subst_vars <;> simp_all [parseUdtName]

/-- The wrapper `FrozenType` is found exactly when the type has it. -/
theorem parseUnreversed_eq {front back : List Char} (h : Around front back) (t : FqType) (reversed : Bool) :
    ∃ front' back', Around front' back' ∧ (!front'.isEmpty) = (!front.isEmpty || t.frozen) ∧
      parseUnreversed parse (front ++ t.render ++ back) front.length t.render.length reversed =
        parseUnwrapped parse (front' ++ t.bare ++ back') front'.length t.bare.length ⟨t.frozen, reversed⟩ := by
  by_cases hfrozen : t.frozen = true
  · refine ⟨front ++ className "FrozenType" ++ ['('], ')' :: back, h.wrapper (by decide), by simp [hfrozen], ?_⟩
    have hrender : t.render = applied "FrozenType" [t.bare] := by rw [FqType.render, if_pos hfrozen]
    have hlength : t.render.length = (className "FrozenType").length + t.bare.length + 2 := by
      rw [hrender, applied_length, List.intercalate_singleton]
    have hstarts : startsAt (front ++ t.render ++ back) (className "FrozenType") front.length = true := by
      rw [hrender, applied, List.append_assoc, List.append_assoc, List.append_assoc]
      exact startsAt_className_self front _ _
    rw [parseUnreversed, hstarts, decide_eq_true (by omega), Bool.and_self, if_pos rfl, hlength,
      show (className "FrozenType").length + t.bare.length + 2 - ((className "FrozenType").length + 2) =
        t.bare.length by omega, ← length_wrapper, hfrozen, hrender, wrapper_eq]
  · have hrender : t.render = t.bare := by rw [FqType.render, if_neg hfrozen]
    refine ⟨front, back, h, by simp [hfrozen], ?_⟩
    obtain ⟨name, hname, rest, hbare⟩ := t.bare_eq_append
    have hstarts : startsAt (front ++ t.render ++ back) (className "FrozenType") front.length = false := by
      rw [hrender, hbare, List.append_assoc, List.append_assoc]
      apply startsAt_className_of_ne front _ (by simp) hname
      rintro rfl
      exact absurd hname (by decide)
    rw [parseUnreversed, hstarts, Bool.and_false, if_neg Bool.false_ne_true, hrender, Bool.eq_false_iff.2 hfrozen]

end

/-! ### Reading a class name -/

namespace FqType

/-- The parser at a class name, behind the wrappers, returns the type exactly when it is `parseable`. -/
def Reads (t : FqType) : Prop :=
  ∀ fuel front back reversed, Around front back → t.bare.length ≤ fuel →
    (parseUnwrapped (parseFqTypeName fuel) (front ++ t.bare ++ back) front.length t.bare.length ⟨t.frozen, reversed⟩ =
        .ok (t.info reversed) ↔ t.parseable (!front.isEmpty) = true)

variable {t : FqType} {fuel : ℕ} {front back : List Char}

theorem Reads.unreversed (h : t.Reads) (ha : Around front back) (hfuel : t.render.length ≤ fuel) (reversed : Bool) :
    parseUnreversed (parseFqTypeName fuel) (front ++ t.render ++ back) front.length t.render.length reversed =
        .ok (t.info reversed) ↔ t.parseable (!front.isEmpty || t.frozen) = true := by
  obtain ⟨front', back', ha', hinside, he⟩ := parseUnreversed_eq (parseFqTypeName fuel) ha t reversed
  rw [he, ← hinside]
  exact h fuel front' back' reversed ha' (t.bare_length_le.trans hfuel)

theorem render_length_ne_zero (t : FqType) : t.render.length ≠ 0 := by
  have h := t.bare_length
  have hle := t.bare_length_le
  rw [package_length] at h
  omega

/-- A class name that is not in reversed order. -/
theorem Reads.at (h : t.Reads) (ha : Around front back) (hfuel : t.render.length < fuel) :
    parseFqTypeName fuel (front ++ t.render ++ back) front.length t.render.length = .ok (t.info false) ↔
      t.parseable (!front.isEmpty || t.frozen) = true := by
  obtain ⟨fuel, rfl⟩ : ∃ f, fuel = f + 1 := ⟨fuel - 1, by omega⟩
  have hstarts : startsAt (front ++ t.render ++ back) (className "ReversedType") front.length = false := by
    rw [render]
    split_ifs
    · rw [applied, List.append_assoc, List.append_assoc, List.append_assoc, startsAt_className]
      exact isPrefixOf_append_false (by decide) (by decide) _
    · obtain ⟨name, hname, rest, hbare⟩ := t.bare_eq_append
      rw [hbare, List.append_assoc, List.append_assoc]
      apply startsAt_className_of_ne front _ (by simp) hname
      rintro rfl
      exact absurd hname (by decide)
  have hindex : indexOf (front ++ t.render ++ back) (className "ReversedType") ≠ some front.length := by
    intro hi
    rw [startsAt_of_indexOf hi] at hstarts
    cases hstarts
  rw [parseFqTypeName, if_neg t.render_length_ne_zero, decide_eq_false hindex, Bool.and_false,
    if_neg Bool.false_ne_true]
  exact h.unreversed ha (by omega) false

theorem parseFqTypeName_zero (fuel : ℕ) (s : List Char) :
    parseFqTypeName fuel s 0 0 = parseFqTypeName fuel s 0 s.length := by
  cases fuel with
  | zero => rw [parseFqTypeName, parseFqTypeName]
  | succ fuel =>
      rw [parseFqTypeName, parseFqTypeName]
      simp

theorem Reads.whole (h : t.Reads) (hfuel : t.render.length < fuel) :
    parseFqTypeName fuel t.render 0 0 = .ok (t.info false) ↔ t.parseable t.frozen = true := by
  have := h.at Around.nothing hfuel
  simp only [List.nil_append, List.append_nil, List.length_nil] at this
  rw [parseFqTypeName_zero, this]
  rfl

theorem Reads.field (h : t.Reads) (name : String) (hfuel : t.render.length < fuel) :
    parseField (parseFqTypeName fuel) (hexName name ++ ':' :: t.render) = .ok (name, t.info false) ↔
      t.parseable true = true := by
  have hat := h.at (Around.field name) hfuel
  have htext : hexName name ++ [':'] ++ t.render ++ [] = hexName name ++ ':' :: t.render := by simp
  have hname : substr (hexName name ++ ':' :: t.render) 0 (hexName name).length = hexName name := by
    rw [substr, List.drop_zero, List.take_left]
  have hlength : (hexName name ++ ':' :: t.render).length - ((hexName name).length + 1) = t.render.length := by
    simp only [List.length_append, List.length_cons]
    omega
  rw [htext, List.length_append, List.length_singleton] at hat
  rw [parseField, idxOf?_append_cons (hexName_plain name).2]
  simp only [hlength, hname, hexText_hexName]
  refine (map_eq_ok_iff (Prod.mk_right_injective name)).trans (hat.trans ?_)
  have hinside : (!(hexName name ++ [':']).isEmpty) = true := by simp
  rw [hinside, Bool.true_or]

/-- A class is longer than every one of its arguments. -/
theorem length_applied_of_mem (name : String) {args : List (List Char)} {a : List Char} (h : a ∈ args) :
    a.length + 34 ≤ (applied name args).length := by
  have hle := length_le_intercalate [','] h
  rw [applied_length, className, List.length_append, package_length]
  omega

theorem render_length (t : FqType) : 32 ≤ t.render.length := by
  have := t.bare_length.trans t.bare_length_le
  rwa [package_length] at this

theorem reads_list (f : Bool) (h : t.Reads) : (FqType.list f t).Reads := by
  intro fuel front back reversed ha hfuel
  have hempty := ha.ne_empty (.list f t)
  have hbare : (FqType.list f t).bare = applied "ListType" [t.render] := rfl
  have hlength := length_applied_of_mem "ListType" (List.mem_singleton_self t.render)
  have hrender := t.render_length
  rw [hbare] at hempty hfuel ⊢
  rw [parseUnwrapped_applied _ _ hempty (by omega) (by simp [names]), if_pos rfl,
    cuts_intercalate (List.cons_ne_nil _ _) (List.forall_mem_singleton.2 t.argument_render)]
  refine (map_eq_ok_iff ?_).trans (h.whole (by omega))
  intro i j hij
  injection hij

theorem reads_set (f : Bool) (h : t.Reads) : (FqType.set f t).Reads := by
  intro fuel front back reversed ha hfuel
  have hempty := ha.ne_empty (.set f t)
  have hbare : (FqType.set f t).bare = applied "SetType" [t.render] := rfl
  have hlength := length_applied_of_mem "SetType" (List.mem_singleton_self t.render)
  have hrender := t.render_length
  rw [hbare] at hempty hfuel ⊢
  rw [parseUnwrapped_applied _ _ hempty (by omega) (by simp [names]), if_neg (by decide), if_pos rfl,
    cuts_intercalate (List.cons_ne_nil _ _) (List.forall_mem_singleton.2 t.argument_render)]
  refine (map_eq_ok_iff ?_).trans (h.whole (by omega))
  intro i j hij
  injection hij

theorem reads_map (f : Bool) {k v : FqType} (hk : k.Reads) (hv : v.Reads) : (FqType.map f k v).Reads := by
  intro fuel front back reversed ha hfuel
  have hempty := ha.ne_empty (.map f k v)
  have hbare : (FqType.map f k v).bare = applied "MapType" [k.render, v.render] := rfl
  rw [hbare] at hempty hfuel ⊢
  have hlength : ∀ u ∈ [k, v], u.render.length + 34 ≤ (applied "MapType" [k.render, v.render]).length :=
    fun u hu => length_applied_of_mem _ (List.mem_map_of_mem hu)
  have hlk := hlength k (by simp)
  have hlv := hlength v (by simp)
  have hrender := k.render_length
  have hargs : ∀ a ∈ [k.render, v.render], Argument paren a :=
    List.forall_mem_cons.2 ⟨k.argument_render, List.forall_mem_singleton.2 v.argument_render⟩
  have hkey : parseFqTypeName fuel k.render 0 0 = _ ↔ _ := hk.whole (by omega)
  have hvalue : parseFqTypeName fuel v.render 0 0 = _ ↔ _ := hv.whole (by omega)
  rw [parseUnwrapped_applied _ _ hempty (by omega) (by simp [names]), if_neg (by decide), if_neg (by decide),
    if_pos rfl, cuts_intercalate (List.cons_ne_nil _ _) hargs, parseable, Bool.and_eq_true, ← hkey, ← hvalue]
  constructor
  · intro h
    obtain ⟨i, hi, h⟩ := bind_eq_ok h
    obtain ⟨j, hj, h⟩ := bind_eq_ok h
    injection Except.ok.inj h with _ hij
    simp only [List.cons.injEq, and_true] at hij
    exact ⟨hij.1 ▸ hi, hij.2 ▸ hj⟩
  · rintro ⟨hi, hj⟩
    simp only [hi, hj]
    rfl

theorem reads_tuple (f : Bool) {ts : List FqType} (h : ∀ t ∈ ts, t.Reads) : (FqType.tuple f ts).Reads := by
  intro fuel front back reversed ha hfuel
  have hempty := ha.ne_empty (.tuple f ts)
  have hbare : (FqType.tuple f ts).bare = applied "TupleType" (ts.map render) := by rw [bare, renders_eq]
  rw [hbare] at hempty hfuel ⊢
  cases ts with
  | nil =>
      rw [parseUnwrapped_short _ ha _ hempty (by decide)]
      simp [parseable]
  | cons t ts =>
      have hlength : ∀ u ∈ t :: ts, u.render.length + 34 ≤ (applied "TupleType" ((t :: ts).map render)).length :=
        fun u hu => length_applied_of_mem _ (List.mem_map_of_mem hu)
      have hlong := hlength t (by simp)
      have hrender := t.render_length
      have hargs : ∀ a ∈ (t :: ts).map render, Argument paren a := by
        intro a ha
        obtain ⟨u, -, rfl⟩ := List.mem_map.1 ha
        exact u.argument_render
      have hcuts : cuts paren 0 ([','].intercalate ((t :: ts).map render)) = (t :: ts).map render :=
        cuts_intercalate (List.cons_ne_nil _ _) hargs
      rw [parseUnwrapped_applied _ _ hempty (by omega) (by simp [names]), if_neg (by decide), if_neg (by decide),
        if_neg (by decide), if_neg (by decide), if_pos rfl, hcuts, if_neg (by simp), info, infos_eq]
      have hinjective : Function.Injective (ColumnInfo.ofAll 0x31 · ⟨f, reversed⟩) := by
        intro i j hij
        injection hij
      refine (map_eq_ok_iff hinjective).trans (mapM_map_eq_ok.trans ?_)
      rw [parseable, Bool.and_eq_true, parseables_iff]
      simp only [List.isEmpty_cons, Bool.not_false, true_and]
      exact forall₂_congr fun u hu => (h u hu).whole (by have := hlength u hu; omega)

theorem reads_udt (f : Bool) (ks : Keyspace) (name : String) {fields : List (String × FqType)}
    (h : ∀ x ∈ fields, x.2.Reads) : (FqType.udt f ks name fields).Reads := by
  intro fuel front back reversed ha hfuel
  have hempty := ha.ne_empty (.udt f ks name fields)
  have hbare : (FqType.udt f ks name fields).bare =
    applied "UserType" (ks.name :: hexName name :: fieldTexts fields) := rfl
  have hclass : (className "UserType").length = 40 := by decide
  have hnone : (applied "UserType" [ks.name, hexName name]).length = 43 + ks.name.length + (hexName name).length := by
    rw [applied_length, List.intercalate_cons_cons, List.intercalate_singleton, hclass]
    simp only [List.length_append, List.length_singleton]
    omega
  rw [hbare] at hempty hfuel ⊢
  by_cases hshort : fields = [] ∧ ks.name.length + (hexName name).length ≤ 6
  · obtain ⟨rfl, hle⟩ := hshort
    rw [fieldTexts] at hempty ⊢
    rw [parseUnwrapped_short _ ha _ hempty (by omega)]
    simp [parseable]
    omega
  · have hlength : ∀ x ∈ fields, x.2.render.length + 34 <
        (applied "UserType" (ks.name :: hexName name :: fieldTexts fields)).length := by
      intro x hx
      have hmem : hexName x.1 ++ ':' :: x.2.render ∈ ks.name :: hexName name :: fieldTexts fields := by
        rw [fieldTexts_eq]
        exact List.mem_cons_of_mem _ (List.mem_cons_of_mem _ (List.mem_map.2 ⟨x, hx, rfl⟩))
      have := length_applied_of_mem "UserType" hmem
      simp only [List.length_append, List.length_cons] at this
      omega
    have hlong : 49 < (applied "UserType" (ks.name :: hexName name :: fieldTexts fields)).length := by
      cases fields with
      | nil =>
          rw [fieldTexts, hnone]
          simp only [true_and] at hshort
          omega
      | cons x fields =>
          have := hlength x (by simp)
          have := x.2.render_length
          omega
    have hcuts : cuts paren 0 ([','].intercalate (ks.name :: hexName name :: fieldTexts fields)) =
        ks.name :: hexName name :: fieldTexts fields :=
      cuts_intercalate (List.cons_ne_nil _ _) (argument_udt ks name fun x _ => x.2.argument_render)
    have hinjective : Function.Injective (ColumnInfo.udt ks.name name · ⟨f, reversed⟩) := by
      intro i j hij
      injection hij
    have hparseable : (!fields.isEmpty || decide (6 < ks.name.length + (hexName name).length)) = true := by
      cases fields with
      | nil => simpa using hshort
      | cons x fields => rfl
    rw [parseUnwrapped_applied _ _ hempty hlong (by simp [names]), if_neg (by decide), if_neg (by decide),
      if_neg (by decide), if_pos rfl, hcuts, parseable, hparseable, Bool.true_and, parseableFields_iff]
    simp only [hexText_hexName]
    refine (map_eq_ok_iff hinjective).trans ?_
    rw [fieldTexts_eq, fieldInfos_eq, mapM_map_eq_ok]
    exact forall₂_congr fun x hx => (h x hx).field x.1 (by have := hlength x hx; omega)

theorem parseVectorTypeArgs_eq {α : Type} (resolve : List Char → Except TypeNameError α) (n : ℕ) :
    parseVectorTypeArgs (applied "VectorType" [t.render, Nat.toDigits 10 n]) (className "VectorType") resolve =
      (resolve t.render).map fun i => (i, some (n : ℤ)) := by
  have hargs : ∀ a ∈ [t.render, Nat.toDigits 10 n], Argument paren a :=
    List.forall_mem_cons.2 ⟨t.argument_render, List.forall_mem_singleton.2 (toDigits_plain n).argument⟩
  have hparams := parseParams_applied [] [] "VectorType" [t.render, Nat.toDigits 10 n]
  rw [List.nil_append, List.append_nil, List.length_nil, zero_add,
    cuts_intercalate (List.cons_ne_nil _ _) hargs] at hparams
  rw [parseVectorTypeArgs]
  simp only [hparams, trim_eq t.render_trimmed, trim_eq (toDigits_trimmed n), parseInt_toDigits]
  rfl

/-- Behind something else, the window for the arguments contains the opening parenthesis of the vector. -/
theorem parseVectorTypeArgs_error {α : Type} (resolve : List Char → Except TypeNameError α) (ha : Around front back)
    (hfront : front ≠ []) {args : List (List Char)} (hargs : ∀ a ∈ args, Argument paren a) :
    parseVectorTypeArgs (front ++ applied "VectorType" args ++ back) (className "VectorType") resolve =
      .error (notValid (front ++ applied "VectorType" args ++ back)) := by
  have hstart : (className "VectorType").length + 1 ≤ (front ++ className "VectorType").length := by
    have := List.length_pos_iff.2 hfront
    rw [List.length_append]
    omega
  have hlength := applied_length "VectorType" args
  have hwindow : (front ++ applied "VectorType" args ++ back).drop ((className "VectorType").length + 1) =
      (front ++ className "VectorType").drop ((className "VectorType").length + 1) ++
        '(' :: [','].intercalate args ++ (')' :: back) := by
    have htext : front ++ applied "VectorType" args ++ back =
        front ++ className "VectorType" ++ ('(' :: [','].intercalate args ++ (')' :: back)) := by simp [applied]
    rw [htext, List.drop_append_of_le_length hstart, List.append_assoc]
  have hnocut : NoCut paren 0 ((front ++ applied "VectorType" args ++ back).drop
      ((className "VectorType").length + 1)) := by
    have hclosing : ')' ∉ className "VectorType" := by decide
    have hcomma : ',' ∉ className "VectorType" := by decide
    rw [hwindow]
    refine noCut_of_opening ?_ ?_ (within_intercalate (within_comma [] (by decide)) hargs) ?_
    · exact fun h => (List.mem_append.1 (List.mem_of_mem_drop h)).elim ha.closing hclosing
    · exact fun h => (List.mem_append.1 (List.mem_of_mem_drop h)).elim ha.comma hcomma
    · simpa using ha.comma_back
  have hbound : (className "VectorType").length + 1 +
      ((front ++ applied "VectorType" args ++ back).length - ((className "VectorType").length + 2)) ≤
      (front ++ applied "VectorType" args ++ back).length := by
    simp only [List.length_append, hlength]
    omega
  rw [← List.take_append_drop ((front ++ applied "VectorType" args ++ back).length -
    ((className "VectorType").length + 2)) (List.drop _ _)] at hnocut
  rw [parseVectorTypeArgs]
  simp only [parseParams_eq hbound, substr, cuts_of_noCut hnocut.of_append]

theorem reads_vector (f : Bool) (n : ℕ) (h : t.Reads) : (FqType.vector f t n).Reads := by
  intro fuel front back reversed ha hfuel
  have hempty := ha.ne_empty (.vector f t n)
  have hbare : (FqType.vector f t n).bare = applied "VectorType" [t.render, Nat.toDigits 10 n] := rfl
  rw [hbare] at hempty hfuel ⊢
  have hlength : t.render.length + 34 ≤ (applied "VectorType" [t.render, Nat.toDigits 10 n]).length :=
    length_applied_of_mem _ (by simp)
  have hrender := t.render_length
  rw [parseUnwrapped_applied _ _ hempty (by omega) (by simp [names]), if_neg (by decide), if_neg (by decide),
    if_neg (by decide), if_neg (by decide), if_neg (by decide), if_pos rfl, parseable]
  by_cases hfront : front = []
  · have hback := ha.whole hfront
    subst hfront hback
    have hpair : Function.Injective fun i : ColumnInfo => (i, some (n : ℤ)) := fun i j hij => (Prod.mk.inj hij).1
    have hvector : Function.Injective fun r : ColumnInfo × Option ℤ => ColumnInfo.vector r.1 r.2 ⟨f, reversed⟩ := by
      intro r q hrq
      injection hrq with h1 h2
      exact Prod.ext h1 h2
    rw [List.nil_append, List.append_nil, parseVectorTypeArgs_eq]
    refine (map_eq_ok_iff (a := (t.info false, some (n : ℤ))) hvector).trans ((map_eq_ok_iff hpair).trans ?_)
    simpa using h.whole (by omega)
  · have hargs : ∀ a ∈ [t.render, Nat.toDigits 10 n], Argument paren a :=
      List.forall_mem_cons.2 ⟨t.argument_render, List.forall_mem_singleton.2 (toDigits_plain n).argument⟩
    rw [parseVectorTypeArgs_error _ ha hfront hargs]
    simp [hfront, Except.map]

/-- Every type is read exactly when it is parseable. -/
theorem reads (t : FqType) : t.Reads := by
  induction t using inductionOn with
  | single f t =>
      intro fuel front back reversed ha _
      have hbare : (FqType.single f t).bare = className t.name := rfl
      rw [hbare, parseUnwrapped_single _ ha f]
      simp [frozen, info, parseable]
  | list f t ih => exact reads_list f ih
  | set f t ih => exact reads_set f ih
  | map f k v ihk ihv => exact reads_map f ihk ihv
  | tuple f ts ih => exact reads_tuple f ih
  | udt f ks name fields ih => exact reads_udt f ks name ih
  | vector f t n ih => exact reads_vector f n ih

end FqType

theorem column_iff (t : FqType) :
    parseFqTypeName ((t.renderColumn false).length + 1) (t.renderColumn false) 0 0 = .ok (t.info false) ↔
      t.parseable t.frozen = true :=
  t.reads.whole (Nat.lt_succ_self _)

/-- The parser returns the type of a column, with its flags, exactly if no vector stands in a wrapper or as
a field of a user type, no tuple is empty and no user type without fields has a name of at most 49
characters. -/
theorem parses_iff (reversed : Bool) (t : FqType) :
    parseFqTypeName ((t.renderColumn reversed).length + 1) (t.renderColumn reversed) 0 0 = .ok (t.info reversed) ↔
      t.parseable (reversed || t.frozen) = true := by
  cases reversed with
  | false => exact column_iff t
  | true =>
      have hcolumn : t.renderColumn true = applied "ReversedType" [t.render] := rfl
      have hlength : (applied "ReversedType" [t.render]).length =
          (className "ReversedType").length + t.render.length + 2 := by
        rw [applied_length, List.intercalate_singleton]
      have hindex : indexOf (applied "ReversedType" [t.render]) (className "ReversedType") = some 0 := by
        refine indexOf_eq_zero (List.isPrefixOf_iff_prefix.2 ?_)
        rw [applied, List.append_assoc]
        exact List.prefix_append _ _
      have htext := wrapper_eq [] [] "ReversedType" t.render
      have hstart := length_wrapper [] "ReversedType"
      rw [List.nil_append, List.append_nil] at htext
      rw [List.length_nil, zero_add] at hstart
      rw [hcolumn, parseFqTypeName]
      simp only [if_true]
      rw [hindex, decide_eq_true (by omega), decide_eq_true rfl, Bool.and_self, if_pos rfl, zero_add, hlength,
        show (className "ReversedType").length + t.render.length + 2 - ((className "ReversedType").length + 2) =
          t.render.length by omega, ← hstart, htext]
      exact t.reads.unreversed (Around.nothing.wrapper (by decide)) (by omega) true

/-- `FrozenType(VectorType(FloatType,3))` -/
def frozenVector : FqType := .vector true (.single false ⟨"FloatType", 0x8, by decide⟩) 3

theorem not_parses_frozenVector :
    parseFqTypeName ((frozenVector.renderColumn false).length + 1) (frozenVector.renderColumn false) 0 0 ≠
      .ok (frozenVector.info false) := by
  intro h
  exact absurd ((column_iff frozenVector).1 h) (by decide)

end CqlDriver.FqTypeName
