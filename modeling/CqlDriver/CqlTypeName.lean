import Mathlib
import CqlDriver.DataTypes
import CqlDriver.TypeParams

/-! # Type names of CQL (`lib/encoder.js`)

`parseTypeName` reads a type as CQL writes it.  The constructors are found by how the text starts, so that
the name of a user type can be taken for one of them.  `Faithful` says that a type is returned from its
name and that the resolver is asked for its user types; the types for which this holds are those that are
`parseable`. -/

namespace CqlDriver.CqlTypeName

open Brackets JsString

/-- A `ColumnInfo`; `α` are the values that the resolver returns for the user types. -/
inductive ColumnInfo (α : Type) where
  | single (code : ℕ)
  | custom (info : List Char)
  | of (code : ℕ) (info : ColumnInfo α) (frozen : Bool)
  | ofAll (code : ℕ) (info : List (ColumnInfo α)) (frozen : Bool)
  | udt (info : α) (frozen : Bool)
  | vector (subtype : ColumnInfo α) (dimension : Option ℤ)

/-- `udtResolver`, a function of the keyspace and the name; it returns no value for a type that does not
exist, and it may fail. -/
abbrev Resolver (α : Type) := List Char → List Char → Except TypeNameError (Option α)

/-- What a promise is settled with, and the names that the resolver has been asked for. -/
structure Answer (α : Type) where
  result : Except TypeNameError α
  asked : List (List Char)

namespace Answer

variable {α β : Type}

def fail (e : TypeNameError) : Answer α := ⟨.error e, []⟩

def map (f : α → β) (a : Answer α) : Answer β := ⟨a.result.map f, a.asked⟩

/-- `Promise.all`.  All promises run, also when one of them is rejected; the names are listed promise by
promise. -/
def all (as : List (Answer α)) : Answer (List α) := ⟨as.mapM result, as.flatMap asked⟩

end Answer

section
variable {α : Type} (parse : List Char → Option (Resolver α) → Answer (ColumnInfo α)) (keyspace : List Char)

/-- A type that is only a name: a type of `dataTypes`, the empty type or a user type. -/
def parseName (typeName : List Char) (frozen : Bool) (udtResolver : Option (Resolver α)) : Answer (ColumnInfo α) :=
  match DataTypes.dataTypes.find? (·.1.toList == typeName) with
  | some entry => ⟨.ok (.single entry.2), []⟩
  | none =>
      if typeName = "duration".toList then
        ⟨.ok (.custom "org.apache.cassandra.db.marshal.DurationType".toList), []⟩
      else if typeName = "empty".toList then ⟨.ok (.custom "empty".toList), []⟩
      else
        match udtResolver with
        | none => .fail (.typeError "udtResolver is not a function".toList)
        | some resolve =>
            match resolve keyspace typeName with
            | .ok (some udtInfo) => ⟨.ok (.udt udtInfo frozen), [typeName]⟩
            | .ok none => ⟨.error (notValidQuoted typeName), [typeName]⟩
            | .error e => ⟨.error e, [typeName]⟩

/-- `_parseChildTypes` -/
def parseChildTypes (typeNames : List (List Char)) (udtResolver : Option (Resolver α)) :
    Answer (List (ColumnInfo α)) :=
  .all (typeNames.map fun name => parse (trim name) udtResolver)

/-- `parseTypeName` after the token `frozen`. -/
def parseUnfrozen (typeName : List Char) (startIndex length : ℕ) (frozen : Bool)
    (udtResolver : Option (Resolver α)) : Answer (ColumnInfo α) :=
  -- the cursor moves across the name and bypasses the angle brackets
  let params (name : String) :=
    parseParams typeName (startIndex + (name.toList.length + 1)) (length - (name.toList.length + 2)) angle
  if startsAt typeName "list".toList startIndex then
    match params "list" with
    | [t] => (parse t udtResolver).map (.of 0x20 · frozen)
    | _ => .fail (notValid typeName)
  else if startsAt typeName "set".toList startIndex then
    match params "set" with
    | [t] => (parse t udtResolver).map (.of 0x22 · frozen)
    | _ => .fail (notValid typeName)
  else if startsAt typeName "map".toList startIndex then
    if (params "map").length ≠ 2 then .fail (notValid typeName)
    else (parseChildTypes parse (params "map") udtResolver).map (.ofAll 0x21 · frozen)
  else if startsAt typeName "tuple".toList startIndex then
    if (params "tuple").length < 1 then .fail (notValid typeName)
    else (parseChildTypes parse (params "tuple") udtResolver).map (.ofAll 0x31 · frozen)
  else if startsAt typeName "vector".toList startIndex then
    match parseVectorTypeArgs typeName "vector".toList .ok with
    -- the subtype is parsed without a resolver
    | .ok (subtype, dimension) => (parse subtype none).map (.vector · dimension)
    | .error e => .fail e
  else if startsAt typeName "\"".toList startIndex then
    parseName keyspace (replace (substr typeName (startIndex + 1) (length - 2)) "\"\"".toList "\"".toList) frozen
      udtResolver
  else parseName keyspace (if startIndex > 0 then substr typeName startIndex length else typeName) frozen udtResolver

end

/-- `fuel` bounds the depth of the recursion; a length of 0 stands for the whole text. -/
def parseTypeName {α : Type} : ℕ → List Char → List Char → ℕ → ℕ → Option (Resolver α) → Answer (ColumnInfo α)
  | 0, _, typeName, _, _, _ => .fail (notValid typeName)
  | fuel + 1, keyspace, typeName, startIndex, length, udtResolver =>
      let length := if length = 0 then typeName.length else length
      let parse (name : List Char) := parseTypeName fuel keyspace name 0 0
      -- a text in quotes is a custom type
      if startsAt typeName "'".toList startIndex then ⟨.ok (.custom (substr typeName (startIndex + 1) (length - 2))), []⟩
      else if startsAt typeName "frozen".toList startIndex then
        parseUnfrozen parse keyspace typeName (startIndex + ("frozen".toList.length + 1))
          (length - ("frozen".toList.length + 2)) true udtResolver
      else parseUnfrozen parse keyspace typeName startIndex length false udtResolver

/-! ### Types and their names -/

/-- A type of CQL that is only a code, or the empty type. -/
structure Native where
  name : String
  code : ℕ
  listed : (name, code) ∈ ("empty", 0x0) :: DataTypes.nativeCodes

/-- `[a-z][a-z0-9_]*`, which needs no quotes. -/
def isIdentifier : List Char → Bool
  | [] => false
  | c :: cs => c.isLower && cs.all fun d => d.isLower || d.isDigit || d == '_'

/-- The name of a user type.  A name that is no plain identifier has to be quoted; any name can be. -/
structure UserTypeName where
  name : List Char
  quoted : Bool
  identifier : quoted = false → isIdentifier name = true

/-- A text with its quotes doubled. -/
def escape (s : List Char) : List Char := s.flatMap fun c => if c = '"' then ['"', '"'] else [c]

def UserTypeName.render (n : UserTypeName) : List Char := if n.quoted then '"' :: escape n.name ++ ['"'] else n.name

inductive CqlType where
  | native (t : Native)
  | udt (name : UserTypeName)
  | list (t : CqlType)
  | set (t : CqlType)
  | map (key value : CqlType)
  | tuple (ts : List CqlType)
  | vector (t : CqlType) (dimension : ℕ)
  | frozen (t : CqlType)

/-- A constructor with its arguments. -/
def applied (name : String) (args : List (List Char)) : List Char :=
  name.toList ++ '<' :: [',', ' '].intercalate args ++ ['>']

namespace CqlType

mutual

/-- The type as CQL writes it. -/
def render : CqlType → List Char
  | .native t => t.name.toList
  | .udt n => n.render
  | .list t => applied "list" [t.render]
  | .set t => applied "set" [t.render]
  | .map k v => applied "map" [k.render, v.render]
  | .tuple ts => applied "tuple" (renders ts)
  | .vector t n => applied "vector" [t.render, Nat.toDigits 10 n]
  | .frozen t => applied "frozen" [t.render]

def renders : List CqlType → List (List Char)
  | [] => []
  | t :: ts => t.render :: renders ts

end

section
variable {α : Type} (userType : List Char → α)

mutual

/-- The column info of a type, in a wrapper `frozen` or not. -/
def info (frozen : Bool) : CqlType → ColumnInfo α
  | .native t => if t.name = "empty" then .custom "empty".toList else .single t.code
  | .udt n => .udt (userType n.name) frozen
  | .list t => .of 0x20 (t.info false) frozen
  | .set t => .of 0x22 (t.info false) frozen
  | .map k v => .ofAll 0x21 [k.info false, v.info false] frozen
  | .tuple ts => .ofAll 0x31 (infos ts) frozen
  | .vector t n => .vector (t.info false) (some n)
  | .frozen t => t.info true

def infos : List CqlType → List (ColumnInfo α)
  | [] => []
  | t :: ts => t.info false :: infos ts

end

end

mutual

/-- The names of the user types. -/
def userTypes : CqlType → List (List Char)
  | .native _ => []
  | .udt n => [n.name]
  | .list t => t.userTypes
  | .set t => t.userTypes
  | .map k v => k.userTypes ++ v.userTypes
  | .tuple ts => userTypesOf ts
  | .vector t _ => t.userTypes
  | .frozen t => t.userTypes

def userTypesOf : List CqlType → List (List Char)
  | [] => []
  | t :: ts => t.userTypes ++ userTypesOf ts

end

end CqlType

/-- The names that are looked up before the resolver is asked. -/
def reserved (name : List Char) : Bool :=
  (DataTypes.dataTypes.any fun e => e.1.toList == name) || name == "empty".toList

/-- What the constructors start with. -/
def keywords : List String := ["list", "set", "map", "tuple", "vector"]

/-- The resolver is asked for the name: it is not reserved, an unquoted name does not start like a
constructor, and a quoted one has at most one quote.  `inside` tells that it stands in `frozen<...>`. -/
def UserTypeName.found (inside : Bool) (n : UserTypeName) : Bool :=
  !reserved n.name &&
    if n.quoted then decide (n.name.count '"' ≤ 1)
    else (!keywords.any fun k => k.toList.isPrefixOf n.name) && (inside || !"frozen".toList.isPrefixOf n.name)

namespace CqlType

mutual

/-- The names of the user types are found, the brackets and commas in them do not separate arguments in
the wrong place, no tuple is empty, the subtype of a vector has no user type and no comma, and no vector
and no frozen type is in a wrapper `frozen`. -/
def parseable (inside : Bool) : CqlType → Bool
  | .native _ => true
  | .udt n => n.found inside
  | .list t => decide (Separable angle [t.render]) && t.parseable false
  | .set t => decide (Separable angle [t.render]) && t.parseable false
  | .map k v => decide (Separable angle [k.render, v.render]) && (k.parseable false && v.parseable false)
  | .tuple ts => !ts.isEmpty && (decide (Separable angle (renders ts)) && parseables ts)
  | .vector t _ => !inside && (t.userTypes.isEmpty && decide (',' ∉ t.render)) && t.parseable false
  | .frozen t => !inside && t.parseable true

def parseables : List CqlType → Bool
  | [] => true
  | t :: ts => t.parseable false && parseables ts

end

/-- From its name, the type is returned, and the resolver is asked exactly for its user types; this for
every resolver that knows them. -/
def Faithful (t : CqlType) : Prop :=
  ∀ (α : Type) (keyspace : List Char) (udtResolver : Resolver α) (userType : List Char → α),
    (∀ n ∈ t.userTypes, udtResolver keyspace n = .ok (some (userType n))) →
      parseTypeName (t.render.length + 1) keyspace t.render 0 0 (some udtResolver) =
        ⟨.ok (t.info userType false), t.userTypes⟩

/-- Induction over a type; the parts of a tuple are the members of a list. -/
@[elab_as_elim]
theorem inductionOn {motive : CqlType → Prop} (native : ∀ t, motive (.native t)) (udt : ∀ n, motive (.udt n))
    (list : ∀ t, motive t → motive (.list t)) (set : ∀ t, motive t → motive (.set t))
    (map : ∀ k v, motive k → motive v → motive (.map k v))
    (tuple : ∀ ts, (∀ t ∈ ts, motive t) → motive (.tuple ts))
    (vector : ∀ t n, motive t → motive (.vector t n)) (frozen : ∀ t, motive t → motive (.frozen t)) (t : CqlType) :
    motive t :=
  @CqlType.rec motive (fun ts => ∀ t ∈ ts, motive t) native udt list set map tuple vector frozen
    (List.forall_mem_nil _) (fun _ _ ht hts => List.forall_mem_cons.2 ⟨ht, hts⟩) t

theorem renders_eq (ts : List CqlType) : renders ts = ts.map render := by
  induction ts with
  | nil => rfl
  | cons t ts ih => rw [renders, ih, List.map_cons]

theorem render_native (t : Native) : (native t).render = t.name.toList := rfl

theorem render_udt (n : UserTypeName) : (udt n).render = n.render := rfl

theorem render_list (t : CqlType) : (list t).render = applied "list" [t.render] := rfl

theorem render_set (t : CqlType) : (set t).render = applied "set" [t.render] := rfl

theorem render_map (k v : CqlType) : (map k v).render = applied "map" [k.render, v.render] := rfl

theorem render_tuple (ts : List CqlType) : (tuple ts).render = applied "tuple" (ts.map render) :=
  congrArg (applied "tuple") (renders_eq ts)

theorem render_vector (t : CqlType) (n : ℕ) :
    (vector t n).render = applied "vector" [t.render, Nat.toDigits 10 n] := rfl

theorem render_frozen (t : CqlType) : (frozen t).render = applied "frozen" [t.render] := rfl

theorem infos_eq {α : Type} (userType : List Char → α) (ts : List CqlType) :
    infos userType ts = ts.map (info userType false) := by
  induction ts with
  | nil => rfl
  | cons t ts ih => rw [infos, ih, List.map_cons]

theorem userTypesOf_eq (ts : List CqlType) : userTypesOf ts = ts.flatMap userTypes := by
  induction ts with
  | nil => rfl
  | cons t ts ih => rw [userTypesOf, ih, List.flatMap_cons]

theorem parseables_iff (ts : List CqlType) : parseables ts = true ↔ ∀ t ∈ ts, t.parseable false = true := by
  induction ts with
  | nil => simp [parseables]
  | cons t ts ih => simp [parseables, ih]

end CqlType

/-! ### Which branch is taken -/

/-- The texts that are tested for. -/
def tests : List String := keywords ++ ["frozen", "\"", "'"]

/-- What a type that is not a user type starts with. -/
def heads : List String :=
  ["list", "set", "map", "tuple", "vector", "frozen"] ++ (("empty", 0x0) :: DataTypes.nativeCodes).map Prod.fst

theorem heads_apart : ∀ x ∈ tests, ∀ y ∈ heads, x ≠ y →
    x.toList.isPrefixOf y.toList = false ∧ y.toList.isPrefixOf x.toList = false := by
  decide +kernel

theorem isPrefixOf_head {x y : String} (hx : x ∈ tests) (hy : y ∈ heads) (h : x ≠ y) (rest : List Char) :
    x.toList.isPrefixOf (y.toList ++ rest) = false :=
  isPrefixOf_append_false (heads_apart x hx y hy h).1 (heads_apart x hx y hy h).2 rest

theorem startsAt_head (front rest : List Char) {x y : String} (hx : x ∈ tests) (hy : y ∈ heads) :
    startsAt (front ++ (y.toList ++ rest)) x.toList front.length = decide (x = y) := by
  rw [startsAt_append]
  by_cases h : x = y
  · rw [h, decide_eq_true rfl, List.isPrefixOf_iff_prefix]
    exact List.prefix_append _ _
  · rw [decide_eq_false h]
    exact isPrefixOf_head hx hy h rest

theorem startsAt_applied (front back : List Char) (args : List (List Char)) {x y : String} (hx : x ∈ tests)
    (hy : y ∈ heads) : startsAt (front ++ applied y args ++ back) x.toList front.length = decide (x = y) := by
  rw [applied, List.append_assoc, List.append_assoc, List.append_assoc]
  exact startsAt_head front _ hx hy

section
variable {α : Type} (parse : List Char → Option (Resolver α) → Answer (ColumnInfo α)) (keyspace : List Char)
  (frozen : Bool) (udtResolver : Option (Resolver α)) (front back : List Char)

/-- The branch that is taken at a constructor. -/
theorem parseUnfrozen_applied {name : String} (args : List (List Char)) (hname : name ∈ heads) :
    parseUnfrozen parse keyspace (front ++ applied name args ++ back) front.length (applied name args).length frozen
        udtResolver =
      if "list" = name then
        match cuts angle 0 ([',', ' '].intercalate args) with
        | [t] => (parse t udtResolver).map (.of 0x20 · frozen)
        | _ => .fail (notValid (front ++ applied name args ++ back))
      else if "set" = name then
        match cuts angle 0 ([',', ' '].intercalate args) with
        | [t] => (parse t udtResolver).map (.of 0x22 · frozen)
        | _ => .fail (notValid (front ++ applied name args ++ back))
      else if "map" = name then
        if (cuts angle 0 ([',', ' '].intercalate args)).length ≠ 2 then
          .fail (notValid (front ++ applied name args ++ back))
        else (parseChildTypes parse (cuts angle 0 ([',', ' '].intercalate args)) udtResolver).map (.ofAll 0x21 · frozen)
      else if "tuple" = name then
        if (cuts angle 0 ([',', ' '].intercalate args)).length < 1 then
          .fail (notValid (front ++ applied name args ++ back))
        else (parseChildTypes parse (cuts angle 0 ([',', ' '].intercalate args)) udtResolver).map (.ofAll 0x31 · frozen)
      else if "vector" = name then
        match parseVectorTypeArgs (front ++ applied name args ++ back) "vector".toList .ok with
        | .ok (subtype, dimension) => (parse subtype none).map (.vector · dimension)
        | .error e => .fail e
      else
        parseName keyspace
          (if front.length > 0 then substr (front ++ applied name args ++ back) front.length (applied name args).length
            else front ++ applied name args ++ back) frozen udtResolver := by
  have hparams : parseParams (front ++ applied name args ++ back) (front.length + (name.toList.length + 1))
      ((applied name args).length - (name.toList.length + 2)) angle = cuts angle 0 ([',', ' '].intercalate args) :=
    parseParams_between front name.toList ([',', ' '].intercalate args) back '<' '>' angle
  have hquote : "\"" ≠ name := by
    rintro rfl
    exact absurd hname (by decide)
  rw [parseUnfrozen, startsAt_applied _ _ _ (by simp [tests, keywords]) hname,
    startsAt_applied _ _ _ (by simp [tests, keywords]) hname, startsAt_applied _ _ _ (by simp [tests, keywords]) hname,
    startsAt_applied _ _ _ (by simp [tests, keywords]) hname, startsAt_applied _ _ _ (by simp [tests, keywords]) hname,
    startsAt_applied _ _ _ (by simp [tests, keywords]) hname, decide_eq_false hquote]
  simp only [decide_eq_true_eq, Bool.false_eq_true, if_false]
  split_ifs with hl hs hm hlength ht hlength' hv <;> subst_vars <;> simp_all

theorem parseUnfrozen_name {s : List Char} (hback : front = [] → back = [])
    (h : ∀ x ∈ keywords ++ ["\""], startsAt (front ++ s ++ back) x.toList front.length = false) :
    parseUnfrozen parse keyspace (front ++ s ++ back) front.length s.length frozen udtResolver =
      parseName keyspace s frozen udtResolver := by
  have hname : (if front.length > 0 then substr (front ++ s ++ back) front.length s.length else front ++ s ++ back) =
      s := by
    by_cases hf : front = []
    · rw [hf, hback hf]
      simp
    · rw [if_pos (List.length_pos_iff.2 hf), substr_append]
  rw [parseUnfrozen, h "list" (by decide), h "set" (by decide), h "map" (by decide), h "tuple" (by decide),
    h "vector" (by decide), h "\"" (by decide), hname]
  simp

theorem parseUnfrozen_quoted (e : List Char) :
    parseUnfrozen parse keyspace (front ++ ('"' :: e ++ ['"']) ++ back) front.length ('"' :: e ++ ['"']).length frozen
        udtResolver =
      parseName keyspace (replace e "\"\"".toList "\"".toList) frozen udtResolver := by
  have hquote : startsAt (front ++ ('"' :: e ++ ['"']) ++ back) "\"".toList front.length = true := by
    rw [List.append_assoc, startsAt_append]
    rfl
  have hkeyword : ∀ x ∈ keywords, startsAt (front ++ ('"' :: e ++ ['"']) ++ back) x.toList front.length = false := by
    intro x hx
    have hapart : ∀ x ∈ keywords, x.toList.isPrefixOf ['"'] = false ∧ ['"'].isPrefixOf x.toList = false := by decide
    rw [List.append_assoc, startsAt_append]
    exact isPrefixOf_append_false (hapart x hx).1 (hapart x hx).2 (e ++ ['"'] ++ back)
  have hinner : substr (front ++ ('"' :: e ++ ['"']) ++ back) (front.length + 1) (('"' :: e ++ ['"']).length - 2) = e := by
    have htext : front ++ ('"' :: e ++ ['"']) ++ back = front ++ ['"'] ++ e ++ '"' :: back := by simp
    have hstart : front.length + 1 = (front ++ ['"']).length := by simp
    have hlength : ('"' :: e ++ ['"']).length - 2 = e.length := by simp
    rw [htext, hstart, hlength, substr_append]
  rw [parseUnfrozen, hkeyword "list" (by decide), hkeyword "set" (by decide), hkeyword "map" (by decide),
    hkeyword "tuple" (by decide), hkeyword "vector" (by decide), hquote, hinner]
  simp

end

/-- What stands before a type that may be in a wrapper. -/
def before (inside : Bool) : List Char := if inside then "frozen<".toList else []

def after (inside : Bool) : List Char := if inside then ['>'] else []

theorem after_eq_nil {inside : Bool} (h : before inside = []) : after inside = [] := by
  cases inside with
  | false => rfl
  | true => exact absurd h (by decide)

section
variable {α : Type} (fuel : ℕ) (keyspace : List Char) (udtResolver : Option (Resolver α))

/-- The token `frozen` is found. -/
theorem parseTypeName_frozen (s : List Char) :
    parseTypeName (fuel + 1) keyspace (applied "frozen" [s]) 0 0 udtResolver =
      parseUnfrozen (fun name => parseTypeName fuel keyspace name 0 0) keyspace (before true ++ s ++ after true)
        (before true).length s.length true udtResolver := by
  have htext : applied "frozen" [s] = before true ++ s ++ after true := by
    rw [applied, List.intercalate_singleton, List.append_assoc]
    rfl
  have hlength : (applied "frozen" [s]).length - ("frozen".toList.length + 2) = s.length := by
    simp [applied]
  have hcustom : startsAt ([] ++ applied "frozen" [s] ++ []) "'".toList 0 = false :=
    startsAt_applied [] [] [s] (by decide) (by decide)
  have hfrozen : startsAt ([] ++ applied "frozen" [s] ++ []) "frozen".toList 0 = true :=
    startsAt_applied [] [] [s] (by decide) (by decide)
  rw [List.nil_append, List.append_nil] at hcustom hfrozen
  rw [parseTypeName, hcustom, hfrozen]
  simp only [if_true, Bool.false_eq_true, if_false]
  rw [hlength, htext]
  rfl

/-- There is no token `frozen`. -/
theorem parseTypeName_unfrozen {s : List Char} (hcustom : "'".toList.isPrefixOf s = false)
    (hfrozen : "frozen".toList.isPrefixOf s = false) :
    parseTypeName (fuel + 1) keyspace s 0 0 udtResolver =
      parseUnfrozen (fun name => parseTypeName fuel keyspace name 0 0) keyspace (before false ++ s ++ after false)
        (before false).length s.length false udtResolver := by
  rw [parseTypeName, startsAt, startsAt, List.drop_zero, hcustom, hfrozen]
  simp [before, after]

end

/-! ### The shape of a name -/

theorem isLower_spec {c : Char} (h : c.isLower = true) : 97 ≤ c.toNat ∧ c.toNat ≤ 122 := by
  simpa [Char.isLower, UInt32.le_iff_toNat_le] using h

/-- The characters of an identifier. -/
theorem mem_identifier {s : List Char} (h : isIdentifier s = true) {c : Char} (hc : c ∈ s) :
    c.isLower = true ∨ c.isDigit = true ∨ c = '_' := by
  cases s with
  | nil => cases hc
  | cons d s =>
      obtain ⟨hd, hs⟩ := Bool.and_eq_true_iff.1 h
      rcases List.mem_cons.1 hc with rfl | hc
      · exact Or.inl hd
      · simpa [or_assoc] using List.all_eq_true.1 hs c hc

theorem isSpace_identifier {s : List Char} (h : isIdentifier s = true) {c : Char} (hc : c ∈ s) : isSpace c = false := by
  rcases mem_identifier h hc with hl | hd | rfl
  · have := isLower_spec hl
    rw [isSpace]
    simp
    omega
  · exact isSpace_of_isDigit hd
  · decide

theorem not_mem_identifier {s : List Char} (h : isIdentifier s = true) {c : Char}
    (hc : c.isLower = false ∧ c.isDigit = false ∧ c ≠ '_') : c ∉ s := by
  intro hmem
  rcases mem_identifier h hmem with hl | hd | hu
  · rw [hc.1] at hl
    cases hl
  · rw [hc.2.1] at hd
    cases hd
  · exact hc.2.2 hu

theorem Native.mem_heads (t : Native) : t.name ∈ heads :=
  List.mem_append_right _ (List.mem_map.2 ⟨_, t.listed, rfl⟩)

theorem heads_spec : ∀ y ∈ heads, y.toList ≠ [] ∧ Plain angle y.toList ∧ Plain paren y.toList ∧
    (y.toList.all fun c => !isSpace c) = true := by
  decide +kernel

theorem isSpace_head {y : String} (hy : y ∈ heads) {c : Char} (hc : c ∈ y.toList) : isSpace c = false := by
  simpa using List.all_eq_true.1 (heads_spec y hy).2.2.2 c hc

theorem trimmed_applied {name : String} (hname : name ∈ heads) (args : List (List Char)) :
    Trimmed (applied name args) := by
  have hne := (heads_spec name hname).1
  refine ⟨fun c hc => ?_, fun c hc => ?_⟩
  · rw [applied, List.append_assoc, List.head?_append_of_ne_nil _ hne] at hc
    exact isSpace_head hname (List.mem_of_head? hc)
  · rw [applied, List.getLast?_append_of_ne_nil _ (List.cons_ne_nil _ _)] at hc
    exact Option.some.inj hc ▸ (by decide)

theorem UserTypeName.trimmed (n : UserTypeName) : Trimmed n.render := by
  rw [UserTypeName.render]
  split_ifs with hq
  · refine ⟨fun c hc => ?_, fun c hc => ?_⟩
    · exact Option.some.inj hc ▸ (by decide)
    · rw [List.getLast?_append_of_ne_nil _ (List.cons_ne_nil _ _)] at hc
      exact Option.some.inj hc ▸ (by decide)
  · exact trimmed_of_forall fun c hc => isSpace_identifier (n.identifier (Bool.eq_false_iff.2 hq)) hc

theorem CqlType.trimmed_render (t : CqlType) : Trimmed t.render := by
  cases t with
  | native t => exact trimmed_of_forall fun _ hc => isSpace_head t.mem_heads hc
  | udt n => exact n.trimmed
  | list t => exact trimmed_applied (by decide) _
  | set t => exact trimmed_applied (by decide) _
  | map k v => exact trimmed_applied (by decide) _
  | tuple ts => exact trimmed_applied (by decide) _
  | vector t n => exact trimmed_applied (by decide) _
  | frozen t => exact trimmed_applied (by decide) _

/-! ### Names -/

theorem escape_cons (c : Char) (s : List Char) :
    escape (c :: s) = (if c = '"' then ['"', '"'] else [c]) ++ escape s :=
  List.flatMap_cons

theorem escape_eq_self {s : List Char} (h : '"' ∉ s) : escape s = s := by
  induction s with
  | nil => rfl
  | cons c s ih =>
      obtain ⟨hc, hs⟩ := not_or.1 (List.mem_cons.not.1 h)
      rw [escape_cons, if_neg (Ne.symm hc), ih hs, List.singleton_append]

theorem escape_length (s : List Char) : (escape s).length = s.length + s.count '"' := by
  induction s with
  | nil => rfl
  | cons c s ih =>
      rw [escape_cons, List.length_append, ih, List.length_cons]
      by_cases hc : c = '"'
      · rw [if_pos hc, hc, List.count_cons_self]
        simp only [List.length_cons, List.length_nil]
        omega
      · rw [if_neg hc, List.count_cons_of_ne hc]
        simp only [List.length_cons, List.length_nil]
        omega

/-- One doubled quote is replaced. -/
theorem replace_escape {s : List Char} (h : s.count '"' ≤ 1) :
    replace (escape s) "\"\"".toList "\"".toList = s := by
  induction s with
  | nil => rfl
  | cons c s ih =>
      rw [escape_cons]
      by_cases hc : c = '"'
      · have hs : '"' ∉ s := by
          rw [hc, List.count_cons_self] at h
          exact List.count_eq_zero.1 (by omega)
        rw [if_pos hc, escape_eq_self hs, hc]
        rfl
      · rw [List.count_cons_of_ne hc] at h
        have hstarts : "\"\"".toList.isPrefixOf (c :: escape s) = false := by
          simp [List.isPrefixOf, Ne.symm hc]
        rw [if_neg hc, List.singleton_append, replace, hstarts, ih h]
        simp

theorem length_replace_quotes (s : List Char) : s.length ≤ (replace s "\"\"".toList "\"".toList).length + 1 := by
  induction s with
  | nil => simp
  | cons c s ih =>
      rw [replace]
      split_ifs
      · simp
        omega
      · simp only [List.length_cons]
        omega

section
variable {α : Type} (keyspace : List Char) (frozen : Bool)

theorem parseName_native (t : Native) (userType : List Char → α) (udtResolver : Option (Resolver α)) :
    parseName keyspace t.name.toList frozen udtResolver = ⟨.ok (CqlType.info userType frozen (.native t)), []⟩ := by
  have hfind : ∀ e ∈ ("empty", 0x0) :: DataTypes.nativeCodes,
      DataTypes.dataTypes.find? (·.1.toList == e.1.toList) = if e.1 = "empty" then none else some e := by
    decide +kernel
  unfold parseName
  rw [hfind _ t.listed, CqlType.info]
  by_cases ht : t.name = "empty"
  · rw [if_pos ht, if_pos ht, ht]
    rfl
  · rw [if_neg ht, if_neg ht]

theorem find?_of_not_reserved {name : List Char} (h : reserved name = false) :
    DataTypes.dataTypes.find? (·.1.toList == name) = none ∧ name ≠ "duration".toList ∧ name ≠ "empty".toList := by
  obtain ⟨hany, hempty⟩ := Bool.or_eq_false_iff.1 h
  have hne : ∀ e ∈ DataTypes.dataTypes, e.1.toList ≠ name := by
    intro e he
    simpa using List.any_eq_false.1 hany e he
  refine ⟨List.find?_eq_none.2 fun e he => by simpa using hne e he, fun hd => ?_, by simpa using hempty⟩
  exact hne ("duration", 0x15) (by decide) hd.symm

/-- The resolver is asked for a name that is not reserved. -/
theorem parseName_udt {name : List Char} (h : reserved name = false) (resolve : Resolver α) {udtInfo : α}
    (hresolve : resolve keyspace name = .ok (some udtInfo)) :
    parseName keyspace name frozen (some resolve) = ⟨.ok (.udt udtInfo frozen), [name]⟩ := by
  obtain ⟨hfind, hduration, hempty⟩ := find?_of_not_reserved h
  rw [parseName, hfind]
  simp only [if_neg hduration, if_neg hempty, hresolve]

end

/-! ### The types that are returned -/

namespace CqlType

/-- A type that is not a user type starts with one of the heads. -/
theorem render_eq_append (t : CqlType) :
    (∃ n, t = .udt n) ∨ ∃ y ∈ heads, (y = "frozen" → ∃ u, t = .frozen u) ∧ ∃ rest, t.render = y.toList ++ rest := by
  have happlied : ∀ name args, ∃ rest, applied name args = name.toList ++ rest :=
    fun name args => ⟨_, by rw [applied, List.append_assoc]⟩
  cases t with
  | native t =>
      have hfrozen : ∀ e ∈ ("empty", 0x0) :: DataTypes.nativeCodes, e.1 ≠ "frozen" := by decide
      exact Or.inr ⟨t.name, t.mem_heads, fun h => absurd h (hfrozen _ t.listed), [], by rw [render_native, List.append_nil]⟩
  | udt n => exact Or.inl ⟨n, rfl⟩
  | list t => exact Or.inr ⟨"list", by decide, fun h => absurd h (by decide), happlied _ _⟩
  | set t => exact Or.inr ⟨"set", by decide, fun h => absurd h (by decide), happlied _ _⟩
  | map k v => exact Or.inr ⟨"map", by decide, fun h => absurd h (by decide), happlied _ _⟩
  | tuple ts => exact Or.inr ⟨"tuple", by decide, fun h => absurd h (by decide), happlied _ _⟩
  | vector t n => exact Or.inr ⟨"vector", by decide, fun h => absurd h (by decide), happlied _ _⟩
  | frozen t => exact Or.inr ⟨"frozen", by decide, fun _ => ⟨t, rfl⟩, happlied _ _⟩

end CqlType

theorem UserTypeName.render_of_quoted {n : UserTypeName} (h : n.quoted = true) :
    n.render = '"' :: escape n.name ++ ['"'] := by
  rw [UserTypeName.render, if_pos h]

theorem UserTypeName.render_of_unquoted {n : UserTypeName} (h : n.quoted = false) : n.render = n.name := by
  rw [UserTypeName.render, if_neg (by simp [h])]

namespace CqlType

/-- A type does not start like a custom type. -/
theorem not_custom (t : CqlType) : "'".toList.isPrefixOf t.render = false := by
  rcases t.render_eq_append with ⟨n, rfl⟩ | ⟨y, hy, -, rest, h⟩
  · rw [render_udt]
    cases hq : n.quoted with
    | true =>
        rw [n.render_of_quoted hq]
        rfl
    | false =>
        rw [n.render_of_unquoted hq, Bool.eq_false_iff, Ne, List.isPrefixOf_iff_prefix]
        intro h
        have hmem : Char.ofNat 39 ∈ n.name := h.subset (by decide)
        exact not_mem_identifier (n.identifier hq) (by decide) hmem
  · rw [h]
    refine isPrefixOf_head (by decide) hy ?_ rest
    rintro rfl
    exact absurd hy (by decide)

/-- Only a frozen type starts with the token, if the user types are found. -/
theorem not_frozen {t : CqlType} (hne : ∀ u, t ≠ .frozen u) (h : t.parseable false = true) :
    "frozen".toList.isPrefixOf t.render = false := by
  rcases t.render_eq_append with ⟨n, rfl⟩ | ⟨y, hy, hfrozen, rest, hrender⟩
  · rw [render_udt]
    cases hq : n.quoted with
    | true =>
        rw [n.render_of_quoted hq]
        rfl
    | false =>
        rw [parseable, UserTypeName.found, hq] at h
        rw [n.render_of_unquoted hq]
        simpa using (Bool.and_eq_true_iff.1 (Bool.and_eq_true_iff.1 h).2).2
  · rw [hrender]
    refine isPrefixOf_head (by decide) hy ?_ rest
    rintro rfl
    obtain ⟨u, rfl⟩ := hfrozen rfl
    exact hne u rfl

section
variable {α : Type} (keyspace : List Char) (userType : List Char → α)

/-- If the type has user types, there is a resolver that knows them. -/
def Knows (udtResolver : Option (Resolver α)) (t : CqlType) : Prop :=
  ∀ n ∈ t.userTypes, ∃ resolve, udtResolver = some resolve ∧ resolve keyspace n = .ok (some (userType n))

/-- The answer for a type. -/
def answer (inside : Bool) (t : CqlType) : Answer (ColumnInfo α) := ⟨.ok (t.info userType inside), t.userTypes⟩

/-- The parser returns the type behind the token `frozen`. -/
def ReadsUnfrozen (t : CqlType) : Prop :=
  ∀ fuel inside udtResolver, Knows keyspace userType udtResolver t → t.render.length ≤ fuel →
    (inside = true ∨ ∀ u, t ≠ .frozen u) → t.parseable inside = true →
      parseUnfrozen (fun name => parseTypeName fuel keyspace name 0 0) keyspace
        (before inside ++ t.render ++ after inside) (before inside).length t.render.length inside udtResolver =
          answer userType inside t

/-- The parser returns the type. -/
def Reads (t : CqlType) : Prop :=
  ∀ fuel udtResolver, Knows keyspace userType udtResolver t → t.render.length < fuel → t.parseable false = true →
    parseTypeName fuel keyspace t.render 0 0 udtResolver = answer userType false t

variable {keyspace userType} {t : CqlType}

theorem ReadsUnfrozen.reads (h : t.ReadsUnfrozen keyspace userType) (hne : ∀ u, t ≠ .frozen u) :
    t.Reads keyspace userType := by
  intro fuel udtResolver hknows hfuel hparseable
  obtain ⟨fuel, rfl⟩ : ∃ f, fuel = f + 1 := ⟨fuel - 1, by omega⟩
  rw [parseTypeName_unfrozen fuel keyspace udtResolver t.not_custom (not_frozen hne hparseable)]
  exact h fuel false udtResolver hknows (by omega) (Or.inr hne) hparseable

theorem length_applied_of_mem (name : String) {args : List (List Char)} {s : List Char} (h : s ∈ args) :
    s.length + 2 ≤ (applied name args).length := by
  have := length_le_intercalate [',', ' '] h
  simp only [applied, List.length_append, List.length_cons, List.length_nil]
  omega

theorem reads_frozen (h : t.ReadsUnfrozen keyspace userType) : (CqlType.frozen t).Reads keyspace userType := by
  intro fuel udtResolver hknows hfuel hparseable
  have hlength := length_applied_of_mem "frozen" (List.mem_singleton_self t.render)
  rw [render_frozen] at hfuel ⊢
  obtain ⟨fuel, rfl⟩ : ∃ f, fuel = f + 1 := ⟨fuel - 1, by omega⟩
  rw [parseTypeName_frozen]
  exact h fuel true udtResolver hknows (by omega) (Or.inl rfl) hparseable

theorem readsUnfrozen_list (h : t.Reads keyspace userType) : (CqlType.list t).ReadsUnfrozen keyspace userType := by
  intro fuel inside udtResolver hknows hfuel _ hparseable
  have hlength := length_applied_of_mem "list" (List.mem_singleton_self t.render)
  rw [parseable, Bool.and_eq_true, decide_eq_true_eq] at hparseable
  rw [render_list] at hfuel ⊢
  rw [parseUnfrozen_applied _ _ _ _ _ _ _ (by decide), if_pos rfl, List.intercalate_singleton,
    cuts_of_noCut hparseable.1]
  simp only
  rw [h fuel udtResolver hknows (by omega) hparseable.2]
  rfl

theorem readsUnfrozen_set (h : t.Reads keyspace userType) : (CqlType.set t).ReadsUnfrozen keyspace userType := by
  intro fuel inside udtResolver hknows hfuel _ hparseable
  have hlength := length_applied_of_mem "set" (List.mem_singleton_self t.render)
  rw [parseable, Bool.and_eq_true, decide_eq_true_eq] at hparseable
  rw [render_set] at hfuel ⊢
  rw [parseUnfrozen_applied _ _ _ _ _ _ _ (by decide), if_neg (by decide), if_pos rfl, List.intercalate_singleton,
    cuts_of_noCut hparseable.1]
  simp only
  rw [h fuel udtResolver hknows (by omega) hparseable.2]
  rfl

theorem trim_spaced {ss : List (List Char)} (h : ∀ s ∈ ss, Trimmed s) : (spaced ss).map trim = ss := by
  cases ss with
  | nil => rfl
  | cons s ss =>
      obtain ⟨hs, hss⟩ := List.forall_mem_cons.1 h
      rw [spaced, List.map_cons, List.map_map, trim_eq hs]
      have hrest : ss.map (trim ∘ (' ' :: ·)) = ss.map id :=
        List.map_congr_left fun u hu => trim_space_cons (hss u hu)
      rw [hrest, List.map_id]

theorem Knows.of_mem {udtResolver : Option (Resolver α)} {u : CqlType} (h : Knows keyspace userType udtResolver t)
    (hu : ∀ n ∈ u.userTypes, n ∈ t.userTypes) : Knows keyspace userType udtResolver u :=
  fun n hn => h n (hu n hn)

/-- The arguments are found exactly when they are separable. -/
theorem cuts_renders_iff {ts : List CqlType} (hts : ts ≠ []) :
    cuts angle 0 ([',', ' '].intercalate (ts.map render)) = spaced (ts.map render) ↔
      Separable angle (ts.map render) := by
  have hne : ts.map render ≠ [] := by simpa using hts
  rw [intercalate_spaced, cuts_intercalate_iff (spaced_ne_nil hne), separable_spaced (by decide) (by decide)]

theorem map_trim_spaced (ts : List CqlType) : (spaced (ts.map render)).map trim = ts.map render := by
  apply trim_spaced
  intro s hs
  obtain ⟨t, -, rfl⟩ := List.mem_map.1 hs
  exact t.trimmed_render

/-- The parser returns the types of a list of arguments. -/
theorem parseChildTypes_spaced {fuel : ℕ} {udtResolver : Option (Resolver α)} {ts : List CqlType}
    (h : ∀ t ∈ ts, parseTypeName fuel keyspace t.render 0 0 udtResolver = answer userType false t) :
    parseChildTypes (fun name => parseTypeName fuel keyspace name 0 0) (spaced (ts.map render)) udtResolver =
      ⟨.ok (ts.map (info userType false)), ts.flatMap userTypes⟩ := by
  have hanswers : (spaced (ts.map render)).map (fun name => parseTypeName fuel keyspace (trim name) 0 0 udtResolver) =
      ts.map (answer userType false) := by
    calc (spaced (ts.map render)).map (fun name => parseTypeName fuel keyspace (trim name) 0 0 udtResolver)
        = ((spaced (ts.map render)).map trim).map fun name => parseTypeName fuel keyspace name 0 0 udtResolver := by
          rw [List.map_map]
          rfl
      _ = ts.map fun t => parseTypeName fuel keyspace t.render 0 0 udtResolver := by
          rw [map_trim_spaced, List.map_map]
          rfl
      _ = ts.map (answer userType false) := List.map_congr_left h
  rw [parseChildTypes, hanswers, Answer.all]
  congr 1
  · rw [Fallible.mapM_map_eq_ok]
    exact fun t _ => rfl
  · rw [List.flatMap_map]
    rfl

theorem readsUnfrozen_map {k v : CqlType} (hk : k.Reads keyspace userType) (hv : v.Reads keyspace userType) :
    (CqlType.map k v).ReadsUnfrozen keyspace userType := by
  intro fuel inside udtResolver hknows hfuel _ hparseable
  have hlength : ∀ u ∈ [k, v], u.render.length + 2 ≤ (applied "map" [k.render, v.render]).length :=
    fun u hu => length_applied_of_mem _ (List.mem_map_of_mem hu)
  simp only [parseable, Bool.and_eq_true, decide_eq_true_eq] at hparseable
  obtain ⟨hseparable, hpk, hpv⟩ := hparseable
  rw [render_map] at hfuel ⊢
  have hlk := hlength k (by simp)
  have hlv := hlength v (by simp)
  have hread : ∀ t ∈ [k, v], parseTypeName fuel keyspace t.render 0 0 udtResolver = answer userType false t := by
    have hkey := hk fuel udtResolver (hknows.of_mem fun n hn => List.mem_append_left _ hn) (by omega) hpk
    have hvalue := hv fuel udtResolver (hknows.of_mem fun n hn => List.mem_append_right _ hn) (by omega) hpv
    exact List.forall_mem_cons.2 ⟨hkey, List.forall_mem_singleton.2 hvalue⟩
  have hcuts : cuts angle 0 ([',', ' '].intercalate [k.render, v.render]) = spaced ([k, v].map render) :=
    (cuts_renders_iff (List.cons_ne_nil k [v])).2 hseparable
  rw [parseUnfrozen_applied _ _ _ _ _ _ _ (by decide), if_neg (by decide), if_neg (by decide), if_pos rfl, hcuts,
    if_neg (by rw [length_spaced]; simp), parseChildTypes_spaced hread]
  simp [Answer.map, answer, Except.map, info, userTypes]

theorem readsUnfrozen_tuple {ts : List CqlType} (h : ∀ t ∈ ts, t.Reads keyspace userType) :
    (CqlType.tuple ts).ReadsUnfrozen keyspace userType := by
  intro fuel inside udtResolver hknows hfuel _ hparseable
  have hlength : ∀ u ∈ ts, u.render.length + 2 ≤ (applied "tuple" (ts.map render)).length :=
    fun u hu => length_applied_of_mem _ (List.mem_map_of_mem hu)
  simp only [parseable, renders_eq, Bool.and_eq_true, decide_eq_true_eq, parseables_iff] at hparseable
  obtain ⟨hne, hseparable, hall⟩ := hparseable
  have hts : ts ≠ [] := by simpa using hne
  rw [render_tuple] at hfuel ⊢
  have hread : ∀ t ∈ ts, parseTypeName fuel keyspace t.render 0 0 udtResolver = answer userType false t := by
    intro t ht
    have hmem : ∀ n ∈ t.userTypes, n ∈ (CqlType.tuple ts).userTypes := by
      rw [userTypes, userTypesOf_eq]
      exact fun n hn => List.mem_flatMap.2 ⟨t, ht, hn⟩
    have := hlength t ht
    exact h t ht fuel udtResolver (hknows.of_mem hmem) (by omega) (hall t ht)
  rw [parseUnfrozen_applied _ _ _ _ _ _ _ (by decide), if_neg (by decide), if_neg (by decide), if_neg (by decide),
    if_pos rfl, (cuts_renders_iff hts).2 hseparable, length_spaced, List.length_map,
    if_neg (by have := List.length_pos_iff.2 hts; omega), parseChildTypes_spaced hread, answer, info, infos_eq,
    userTypes, userTypesOf_eq]
  rfl

theorem not_mem_applied {c : Char} {name : String} {args : List (List Char)} (hc : c ∉ ['<', '>', ',', ' '])
    (hname : c ∉ name.toList) (h : ∀ s ∈ args, c ∉ s) : c ∉ applied name args := by
  intro hmem
  simp only [List.mem_cons, List.not_mem_nil, or_false, not_or] at hc
  simp only [applied, List.mem_append, List.mem_cons, List.not_mem_nil, or_false] at hmem
  rcases hmem with (hn | hopening | hinner) | hclosing
  · exact hname hn
  · exact hc.1 hopening
  · rcases mem_intercalate hinner with hsep | ⟨s, hs, hcs⟩
    · simp only [List.mem_cons, List.not_mem_nil, or_false] at hsep
      exact hsep.elim hc.2.2.1 hc.2.2.2
    · exact h s hs hcs
  · exact hc.2.1 hclosing

/-- Parentheses come only with the names of user types. -/
theorem paren_not_mem (c : Char) (hc : c = '(' ∨ c = ')') (t : CqlType) : t.userTypes = [] → c ∉ t.render := by
  have hheads : ∀ y ∈ heads, c ∉ y.toList := by
    intro y hy
    obtain ⟨-, -, ⟨hopening, hclosing, -⟩, -⟩ := heads_spec y hy
    rcases hc with rfl | rfl
    · exact hopening
    · exact hclosing
  have hsigns : c ∉ ['<', '>', ',', ' '] := by
    rcases hc with rfl | rfl <;> decide
  induction t using inductionOn with
  | native t => exact fun _ => hheads t.name t.mem_heads
  | udt n => exact fun h => absurd h (List.cons_ne_nil _ _)
  | list t ih =>
      exact fun h => not_mem_applied hsigns (hheads _ (by decide)) (List.forall_mem_singleton.2 (ih h))
  | set t ih =>
      exact fun h => not_mem_applied hsigns (hheads _ (by decide)) (List.forall_mem_singleton.2 (ih h))
  | map k v ihk ihv =>
      intro h
      obtain ⟨hk, hv⟩ := List.append_eq_nil_iff.1 h
      refine not_mem_applied hsigns (hheads _ (by decide)) (List.forall_mem_cons.2 ⟨ihk hk, ?_⟩)
      exact List.forall_mem_singleton.2 (ihv hv)
  | tuple ts ih =>
      intro h
      rw [userTypes, userTypesOf_eq, List.flatMap_eq_nil_iff] at h
      rw [render_tuple]
      apply not_mem_applied hsigns (hheads _ (by decide))
      intro s hs
      obtain ⟨t, ht, rfl⟩ := List.mem_map.1 hs
      exact ih t ht (h t ht)
  | vector t n ih =>
      intro h
      refine not_mem_applied hsigns (hheads _ (by decide)) (List.forall_mem_cons.2 ⟨ih h, ?_⟩)
      refine List.forall_mem_singleton.2 fun hdigit => ?_
      have := isDigit_of_mem hdigit
      rcases hc with rfl | rfl <;> exact absurd this (by decide)
  | frozen t ih =>
      exact fun h => not_mem_applied hsigns (hheads _ (by decide)) (List.forall_mem_singleton.2 (ih h))

/-- The arguments of a vector, if the subtype has no comma. -/
theorem parseVectorTypeArgs_eq (n : ℕ) (ht : t.userTypes = []) (hcomma : ',' ∉ t.render) :
    parseVectorTypeArgs (applied "vector" [t.render, Nat.toDigits 10 n]) "vector".toList .ok =
      .ok (t.render, some (n : ℤ)) := by
  have hplain : Plain paren t.render :=
    ⟨paren_not_mem '(' (Or.inl rfl) t ht, paren_not_mem ')' (Or.inr rfl) t ht, hcomma⟩
  have hspace : Plain paren (' ' :: Nat.toDigits 10 n) :=
    Plain.append (s := [' ']) (by decide) (toDigits_plain n)
  have hargs : ∀ a ∈ spaced [t.render, Nat.toDigits 10 n], Argument paren a :=
    List.forall_mem_cons.2 ⟨hplain.argument, List.forall_mem_singleton.2 hspace.argument⟩
  have hparams := parseParams_between [] "vector".toList ([',', ' '].intercalate [t.render, Nat.toDigits 10 n]) []
    '<' '>' paren
  have hcuts : cuts paren 0 ([',', ' '].intercalate [t.render, Nat.toDigits 10 n]) =
      [t.render, ' ' :: Nat.toDigits 10 n] := by
    rw [intercalate_spaced]
    exact cuts_intercalate (spaced_ne_nil (List.cons_ne_nil _ _)) hargs
  rw [List.nil_append, List.append_nil, List.length_nil, zero_add, hcuts] at hparams
  rw [parseVectorTypeArgs, applied]
  simp only [hparams, trim_eq t.trimmed_render, trim_space_cons (toDigits_trimmed n), parseInt_toDigits]
  rfl

theorem readsUnfrozen_vector (n : ℕ) (h : t.Reads keyspace userType) :
    (CqlType.vector t n).ReadsUnfrozen keyspace userType := by
  intro fuel inside udtResolver _ hfuel _ hparseable
  have hlength : t.render.length + 2 ≤ (applied "vector" [t.render, Nat.toDigits 10 n]).length :=
    length_applied_of_mem _ (by simp)
  simp only [parseable, Bool.and_eq_true, Bool.not_eq_true', List.isEmpty_iff, decide_eq_true_eq] at hparseable
  obtain ⟨⟨rfl, hnone, hcomma⟩, hpt⟩ := hparseable
  have hknows : Knows keyspace userType none t := by
    intro n hn
    rw [hnone] at hn
    cases hn
  rw [render_vector] at hfuel ⊢
  rw [parseUnfrozen_applied _ _ _ _ _ _ _ (by decide), if_neg (by decide), if_neg (by decide), if_neg (by decide),
    if_neg (by decide), if_pos rfl, before, after, if_neg (by decide), if_neg (by decide), List.nil_append,
    List.append_nil, parseVectorTypeArgs_eq n hnone hcomma]
  simp only
  rw [h fuel none hknows (by omega) hpt]
  rfl

/-- What is tested for has no closing bracket. -/
theorem isPrefixOf_after {x : List Char} (hx : '>' ∉ x) (s : List Char) (inside : Bool) :
    x.isPrefixOf (s ++ after inside) = x.isPrefixOf s := by
  cases inside with
  | false => rw [after, if_neg (by decide), List.append_nil]
  | true =>
      rw [after, if_pos rfl, Bool.eq_iff_iff, List.isPrefixOf_iff_prefix, List.isPrefixOf_iff_prefix,
        List.prefix_concat_iff]
      constructor
      · rintro (rfl | h)
        · exact absurd (by simp) hx
        · exact h
      · exact Or.inr

theorem startsAt_name {x : String} (hx : x ∈ keywords ++ ["\""]) (s : List Char) (inside : Bool) :
    startsAt (before inside ++ s ++ after inside) x.toList (before inside).length = x.toList.isPrefixOf s := by
  have hclosing : ∀ x ∈ keywords ++ ["\""], '>' ∉ x.toList := by decide
  rw [List.append_assoc, startsAt_append, isPrefixOf_after (hclosing x hx)]

theorem not_quoted {s : List Char} (h : isIdentifier s = true) : "\"".toList.isPrefixOf s = false := by
  rw [Bool.eq_false_iff, Ne, List.isPrefixOf_iff_prefix]
  intro hstarts
  have hmem : '"' ∈ s := hstarts.subset (by decide)
  exact not_mem_identifier h (by decide) hmem

theorem readsUnfrozen_udt (n : UserTypeName) : (CqlType.udt n).ReadsUnfrozen keyspace userType := by
  intro fuel inside udtResolver hknows _ _ hparseable
  obtain ⟨resolve, rfl, hresolve⟩ := hknows n.name (List.mem_singleton_self _)
  rw [parseable, UserTypeName.found, Bool.and_eq_true, Bool.not_eq_true'] at hparseable
  obtain ⟨hreserved, hname⟩ := hparseable
  rw [render_udt]
  cases hq : n.quoted with
  | true =>
      rw [hq, if_pos rfl, decide_eq_true_eq] at hname
      rw [n.render_of_quoted hq, parseUnfrozen_quoted, replace_escape hname]
      exact parseName_udt keyspace inside hreserved resolve hresolve
  | false =>
      rw [hq, if_neg (by decide), Bool.and_eq_true, Bool.not_eq_true', List.any_eq_false] at hname
      rw [n.render_of_unquoted hq, parseUnfrozen_name]
      · exact parseName_udt keyspace inside hreserved resolve hresolve
      · exact after_eq_nil
      · intro x hx
        rw [startsAt_name hx]
        rcases List.mem_append.1 hx with hx | hx
        · exact Bool.eq_false_iff.2 (hname.1 x hx)
        · rw [List.mem_singleton.1 hx]
          exact not_quoted (n.identifier hq)

/-- Every type that is parseable is returned. -/
theorem reads_and_readsUnfrozen (t : CqlType) : t.Reads keyspace userType ∧ t.ReadsUnfrozen keyspace userType := by
  induction t using inductionOn with
  | native t =>
      have h : (CqlType.native t).ReadsUnfrozen keyspace userType := by
        intro fuel inside udtResolver _ _ _ _
        rw [render_native, parseUnfrozen_name]
        · exact parseName_native keyspace inside t userType udtResolver
        · exact after_eq_nil
        · intro x hx
          have hne : ∀ e ∈ ("empty", 0x0) :: DataTypes.nativeCodes, ∀ x ∈ keywords ++ ["\""], x ≠ e.1 := by decide
          have htest : ∀ x ∈ keywords ++ ["\""], x ∈ tests := by decide
          rw [List.append_assoc, startsAt_head _ _ (htest x hx) t.mem_heads]
          exact decide_eq_false (hne _ t.listed x hx)
      exact ⟨h.reads nofun, h⟩
  | udt n => exact ⟨(readsUnfrozen_udt n).reads nofun, readsUnfrozen_udt n⟩
  | list t ih => exact ⟨(readsUnfrozen_list ih.1).reads nofun, readsUnfrozen_list ih.1⟩
  | set t ih => exact ⟨(readsUnfrozen_set ih.1).reads nofun, readsUnfrozen_set ih.1⟩
  | map k v ihk ihv => exact ⟨(readsUnfrozen_map ihk.1 ihv.1).reads nofun, readsUnfrozen_map ihk.1 ihv.1⟩
  | tuple ts ih =>
      have h := readsUnfrozen_tuple fun t ht => (ih t ht).1
      exact ⟨h.reads nofun, h⟩
  | vector t n ih => exact ⟨(readsUnfrozen_vector n ih.1).reads nofun, readsUnfrozen_vector n ih.1⟩
  | frozen t ih =>
      refine ⟨reads_frozen ih.2, ?_⟩
      -- a frozen type is not parseable in a wrapper
      intro fuel inside udtResolver _ _ hinside hparseable
      rcases hinside with rfl | hne
      · cases hparseable
      · exact absurd rfl (hne t)

end

end CqlType

end CqlDriver.CqlTypeName
