import CqlDriver.Lib.JsObject
import CqlDriver.Lib.SharedLoad

/-! # Tables, types, functions and views of a keyspace (`lib/metadata/schema-parser.js`)

`getTable`, `getUdt`, `getFunctions` and `getMaterializedView` load what the cache of a keyspace has under a name;
each is a loader whose object is `cache[name]`, made by the first call.  What `_parseTableOrView`, `_parseUdt` and the
parsers of functions make of the rows, and what else they ask for meanwhile, comes as an answer.  For the property
names of `Object.prototype` the cache finds something else, which has no events (`loads_iff`). -/

namespace CqlDriver.Metadata

open TransitionSystem SharedLoad

/-! ### Queries -/

/-- `%s` stands for the next argument. -/
def formatChars : List Char → List (List Char) → List Char
  | '%' :: 's' :: rest, arg :: args => arg ++ formatChars rest args
  | c :: rest, args => c :: formatChars rest args
  | [], _ => []

/-- `util.format` -/
def format (query keyspaceName name : String) : String :=
  String.ofList (formatChars query.toList [keyspaceName.toList, name.toList])

def selectVirtualTable : String :=
  "SELECT * FROM system_virtual_schema.tables where keyspace_name = '%s' and table_name='%s'"

def selectVirtualColumns : String :=
  "SELECT * FROM system_virtual_schema.columns where keyspace_name = '%s' and table_name='%s'"

def selectMaterializedViewV2 : String :=
  "SELECT * FROM system_schema.views WHERE keyspace_name = '%s' AND view_name = '%s'"

/-- The fields that a constructor sets. -/
structure SchemaParser where
  selectTable : String
  selectColumns : String
  selectIndexes : Option String
  selectUdt : String
  selectAggregates : String
  selectFunctions : String
  supportsVirtual : Bool

def schemaParserV1 : SchemaParser where
  selectTable := "SELECT * FROM system.schema_columnfamilies WHERE keyspace_name='%s' AND columnfamily_name='%s'"
  selectColumns := "SELECT * FROM system.schema_columns WHERE keyspace_name='%s' AND columnfamily_name='%s'"
  selectIndexes := none
  selectUdt := "SELECT * FROM system.schema_usertypes WHERE keyspace_name='%s' AND type_name='%s'"
  selectAggregates := "SELECT * FROM system.schema_aggregates WHERE keyspace_name = '%s' AND aggregate_name = '%s'"
  selectFunctions := "SELECT * FROM system.schema_functions WHERE keyspace_name = '%s' AND function_name = '%s'"
  supportsVirtual := false

def schemaParserV2 : SchemaParser where
  selectTable := "SELECT * FROM system_schema.tables WHERE keyspace_name='%s' AND table_name='%s'"
  selectColumns := "SELECT * FROM system_schema.columns WHERE keyspace_name='%s' AND table_name='%s'"
  selectIndexes := some "SELECT * FROM system_schema.indexes WHERE keyspace_name='%s' AND table_name='%s'"
  selectUdt := "SELECT * FROM system_schema.types WHERE keyspace_name='%s' AND type_name='%s'"
  selectAggregates := "SELECT * FROM system_schema.aggregates WHERE keyspace_name = '%s' AND aggregate_name = '%s'"
  selectFunctions := "SELECT * FROM system_schema.functions WHERE keyspace_name = '%s' AND function_name = '%s'"
  supportsVirtual := false

def schemaParserV3 : SchemaParser := { schemaParserV2 with supportsVirtual := true }

/-! ### The loads -/

variable {R T F ε : Type}

inductive LoadError (ε : Type) where
  | raised (err : ε)
  /-- The `TypeError` for a method that is missing. -/
  | notFunction (message : String)
deriving DecidableEq

/-- The `catch` block. -/
def fail {Q P D V : Type} (err : LoadError ε) : Body Q R D P (LoadError ε) V := .emit (some err) none (.raise err)

def getFirstRow {D P V : Type} (query : String)
    (next : Except (LoadError ε) (Option R) → Body String (List R) D P (LoadError ε) V) :
    Body String (List R) D P (LoadError ε) V :=
  .query query fun rows => next (rows.map List.head?)

/-- The arguments of `_parseTableOrView`; `virtual` may be `undefined`. -/
structure TableRows (R : Type) where
  tableRow : R
  columnRows : List R
  indexRows : Option (List R)
  virtual : Option Bool

abbrev TableBody (R T ε : Type) := Body String (List R) (TableRows R) T (LoadError ε) T

section getTable
variable (p : SchemaParser) (keyspaceName name : String)

/-- `_parseTableOrView` and what follows. -/
def parseTable (rows : TableRows R) : TableBody R T ε :=
  .parse rows fun
    | .error err => fail err
    | .ok tableInfo => .publish tableInfo (.emit none (some tableInfo) (.done (some tableInfo)))

def tableNotFound : TableBody R T ε := .stopLoading (.emit none none (.done none))

/-- The table was found. -/
def getTableColumns (tableRow : R) (virtualTable : Option Bool) : TableBody R T ε :=
  let selectColumns := if virtualTable = some true then selectVirtualColumns else p.selectColumns
  .query (format selectColumns keyspaceName name) fun
    | .error err => fail err
    | .ok columnRows =>
        match p.selectIndexes, decide (virtualTable = some true) with
        | some selectIndexes, false =>
            .query (format selectIndexes keyspaceName name) fun
              | .error err => fail err
              | .ok indexRows => parseTable ⟨tableRow, columnRows, some indexRows, virtualTable⟩
        | _, _ => parseTable ⟨tableRow, columnRows, none, virtualTable⟩

def getTable : Loader String (List R) (TableRows R) T (LoadError ε) T (Option Bool) where
  body virtual :=
    let selectTable := if virtual = some true then selectVirtualTable else p.selectTable
    getFirstRow (format selectTable keyspaceName name) fun
      | .error err => fail err
      | .ok (some tableRow) => getTableColumns p keyspaceName name tableRow virtual
      | .ok none =>
          if p.supportsVirtual ∧ virtual = none then
            getFirstRow (format selectVirtualTable keyspaceName name) fun
              | .ok (some tableRow) => getTableColumns p keyspaceName name tableRow (some true)
              -- an error counts as no matching table
              | _ => tableNotFound
          else tableNotFound
  emitError := .notFunction "tableInfo.emit is not a function"
  onceError := .notFunction "emitter.once is not a function"

end getTable

/-- `_parseUdt` sets the fields, and the code behind its `await` follows later. -/
def getUdt (p : SchemaParser) (keyspaceName name : String) : Loader String (List R) R T (LoadError ε) T Unit where
  body _ := getFirstRow (format p.selectUdt keyspaceName name) fun
    | .error err => fail err
    | .ok none => .stopLoading (.emit none none (.done none))
    | .ok (some row) => .parse row fun
        | .error err => fail err
        | .ok fields => .publish fields (.resume (.emit none (some fields) (.done (some fields))))
  emitError := .notFunction "udtInfo.emit is not a function"
  onceError := .notFunction "emitter.once is not a function"

/-- The field `values` of the object in the cache. -/
inductive FunctionValues (F : Type) where
  | map (entries : List (String × F))
  /-- `Object.values` -/
  | objectValues

/-- Only positive hits are cached. -/
def FunctionValues.found : FunctionValues F → Bool
  | .map entries => !entries.isEmpty
  | .objectValues => true

/-- The signature and the function. -/
def functionsMap (funcs : List (List String × F)) : FunctionValues F :=
  .map (funcs.foldl (fun result f => JsObject.define result (",".intercalate f.1) f.2) [])

/-- The parsers of all rows are awaited together. -/
def getFunctions (p : SchemaParser) (keyspaceName name : String) :
    Loader String (List R) (List R × Bool) (R → List String × F) (LoadError ε) (FunctionValues F) Bool where
  body aggregate :=
    let query := if aggregate then p.selectAggregates else p.selectFunctions
    .query (format query keyspaceName name) fun
      | .error err => fail err
      | .ok rows => .parse (rows, aggregate) fun
          | .error err => fail err
          | .ok parser =>
              let result := functionsMap (rows.map parser)
              if rows.length > 0 then .publish result (.emit none (some result) (.done (some result)))
              else .emit none (some result) (.done (some result))
  emitError := .notFunction "functionsInfo.emit is not a function"
  onceError := .notFunction "emitter.once is not a function"

/-- The one of `SchemaParserV2`. -/
def getMaterializedView (p : SchemaParser) (keyspaceName name : String) :
    Loader String (List R) (TableRows R) T (LoadError ε) T Unit where
  body _ := getFirstRow (format selectMaterializedViewV2 keyspaceName name) fun
    | .error err => fail err
    | .ok none => .emit none none (.stopLoading (.done none))
    | .ok (some tableRow) => .query (format p.selectColumns keyspaceName name) fun
        | .error err => fail err
        | .ok columnRows => parseTable ⟨tableRow, columnRows, none, some false⟩
  emitError := .notFunction "viewInfo.emit is not a function"
  onceError := .notFunction "emitter.once is not a function"

/-- `cache[name]` for the first call: it is made, or inherited, with the value that is found there. -/
def cached {Q D P V : Type} (name : String) (inherited : Option V) : State Q R D P ε V :=
  if name ∈ JsObject.prototypeNames then { fresh with emitter := false, loaded := inherited } else fresh

/-- What `values` is on an inherited object. -/
def inheritedValues (name : String) : Option (FunctionValues F) :=
  if name = "constructor" then some .objectValues else none

/-! ### Ordinary names -/

theorem proper_fail {Q P D V : Type} (found : V → Bool) (err : LoadError ε) :
    Proper found (fail err : Body Q R D P (LoadError ε) V) :=
  .ends (.emit (.raise err)) nofun

theorem proper_parseTable (rows : TableRows R) : Proper (fun _ => true) (parseTable rows : TableBody R T ε) := by
  refine .parse fun res => ?_
  cases res with
  | error err => exact proper_fail _ err
  | ok tableInfo => exact .publish (.emit (.done _)) rfl

theorem proper_tableNotFound : Proper (fun _ => true) (tableNotFound : TableBody R T ε) :=
  .ends (.stopLoading (.emit (.done none))) nofun

theorem proper_getTableColumns (p : SchemaParser) (keyspaceName name : String) (tableRow : R)
    (virtualTable : Option Bool) :
    Proper (fun _ => true) (getTableColumns p keyspaceName name tableRow virtualTable : TableBody R T ε) := by
  refine .query fun res => ?_
  cases res with
  | error err => exact proper_fail _ err
  | ok columnRows =>
      simp only
      split
      · refine .query fun res => ?_
        cases res with
        | error err => exact proper_fail _ err
        | ok indexRows => exact proper_parseTable _
      · exact proper_parseTable _

theorem proper_getTable (p : SchemaParser) (keyspaceName name : String) :
    (getTable p keyspaceName name : Loader String (List R) (TableRows R) T (LoadError ε) T _).Proper
      fun _ => true where
  starts _ := ⟨_, _, rfl⟩
  proper virtual := by
    refine .query fun res => ?_
    cases res with
    | error err => exact proper_fail _ err
    | ok rows =>
        cases rows with
        | cons tableRow rows => exact proper_getTableColumns p keyspaceName name tableRow virtual
        | nil =>
            change Proper _ (ite _ _ _)
            split_ifs
            · refine .query fun res => ?_
              cases res with
              | error err => exact proper_tableNotFound
              | ok rows =>
                  cases rows with
                  | nil => exact proper_tableNotFound
                  | cons tableRow rows => exact proper_getTableColumns p keyspaceName name tableRow (some true)
            · exact proper_tableNotFound

theorem proper_getUdt (p : SchemaParser) (keyspaceName name : String) :
    (getUdt p keyspaceName name : Loader String (List R) R T (LoadError ε) T Unit).Proper fun _ => true where
  starts _ := ⟨_, _, rfl⟩
  proper _ := by
    refine .query fun res => ?_
    cases res with
    | error err => exact proper_fail _ err
    | ok rows =>
        cases rows with
        | nil => exact .ends (.stopLoading (.emit (.done none))) nofun
        | cons row rows =>
            refine .parse fun res => ?_
            cases res with
            | error err => exact proper_fail _ err
            | ok fields => exact .publishResume (.emit (.done _)) rfl

/-- A map of at least one function is not empty. -/
theorem found_functionsMap {funcs : List (List String × F)} (h : funcs ≠ []) : (functionsMap funcs).found = true := by
  have hdefine : ∀ (result : List (String × F)) (name : String) (f : F), JsObject.define result name f ≠ [] := by
    intro result name f
    cases result with
    | nil => simp [JsObject.define]
    | cons p result =>
        rw [JsObject.define]
        split_ifs
        · simp
        · simp
  have hfold : ∀ (funcs : List (List String × F)) (result : List (String × F)), result ≠ [] →
      funcs.foldl (fun result f => JsObject.define result (",".intercalate f.1) f.2) result ≠ [] := by
    intro funcs
    induction funcs with
    | nil => exact fun _ hresult => hresult
    | cons f funcs ih => exact fun result _ => ih _ (hdefine _ _ _)
  cases funcs with
  | nil => exact absurd rfl h
  | cons f funcs => simpa [functionsMap, FunctionValues.found] using hfold funcs _ (hdefine [] _ _)

theorem proper_getFunctions (p : SchemaParser) (keyspaceName name : String) :
    (getFunctions p keyspaceName name :
      Loader String (List R) _ (R → List String × F) (LoadError ε) _ Bool).Proper FunctionValues.found where
  starts _ := ⟨_, _, rfl⟩
  proper aggregate := by
    refine .query fun res => ?_
    cases res with
    | error err => exact proper_fail _ err
    | ok rows =>
        refine .parse fun res => ?_
        cases res with
        | error err => exact proper_fail _ err
        | ok parser =>
            change Proper _ (ite _ _ _)
            split_ifs with hrows
            · refine .publish (.emit (.done _)) (found_functionsMap ?_)
              simpa using List.ne_nil_of_length_pos hrows
            · obtain rfl := List.eq_nil_of_length_eq_zero (Nat.le_zero.1 (not_lt.1 hrows))
              refine .ends (.emit (.done _)) fun value hvalue => ?_
              obtain rfl := Option.some.inj (Except.ok.inj hvalue)
              rfl

theorem proper_getMaterializedView (p : SchemaParser) (keyspaceName name : String) :
    (getMaterializedView p keyspaceName name :
      Loader String (List R) (TableRows R) T (LoadError ε) T Unit).Proper fun _ => true where
  starts _ := ⟨_, _, rfl⟩
  proper _ := by
    refine .query fun res => ?_
    cases res with
    | error err => exact proper_fail _ err
    | ok rows =>
        cases rows with
        | nil => exact .ends (.emit (.stopLoading (.done none))) nofun
        | cons tableRow rows =>
            refine .query fun res => ?_
            cases res with
            | error err => exact proper_fail _ err
            | ok columnRows => exact proper_parseTable _

/-- Loads of a kind are shared in all runs on what the cache has under the name. -/
def LoadsShared {Q P D V A : Type} (l : Loader Q R D P ε V A) (found : V → Bool) (name : String)
    (inherited : Option V) : Prop :=
  ∀ as s, Run (step l) (cached name inherited) as s → Loads l found s

theorem loadsShared_of_proper {Q P D V A : Type} {l : Loader Q R D P ε V A} {found : V → Bool} (hl : l.Proper found)
    {name : String} (hname : name ∉ JsObject.prototypeNames) (inherited : Option V) :
    LoadsShared l found name inherited := by
  intro as s h
  rw [cached, if_neg hname] at h
  exact run_loads hl h

/-- The calls of one load that failed in two ways. -/
theorem not_loads_of_mismatch {Q P D V A : Type} {l : Loader Q R D P ε V A} {found : V → Bool}
    {s : State Q R D P ε V} {err err' : ε} (hcalls : s.calls = [⟨.settled (.error err), some 0⟩,
      ⟨.settled (.error err'), some 0⟩]) (hne : err ≠ err') : ¬ Loads l found s := by
  intro h
  obtain ⟨d, hd, hsettled⟩ := h.joined ⟨.settled (.error err'), some 0⟩ (by simp [hcalls]) 0 rfl
  rw [hcalls] at hd
  obtain rfl := Option.some.inj hd
  exact hne (Except.error.inj (Status.settled.inj (hsettled _ rfl))).symm

/-- On an inherited object, calls for a table that is not there fail in two ways. -/
theorem not_loadsShared_getTable (p : SchemaParser) (keyspaceName : String) {name : String}
    (hname : name ∈ JsObject.prototypeNames) :
    ¬ LoadsShared (getTable p keyspaceName name : Loader String (List R) (TableRows R) T (LoadError ε) T _)
      (fun _ => true) name none := by
  intro h
  rw [LoadsShared, cached, if_pos hname] at h
  have hrun : Run (step (getTable p keyspaceName name : Loader String (List R) (TableRows R) T (LoadError ε) T _))
      { fresh with emitter := false, loaded := none } [.call (some true), .call (some true), .reply 0 (.ok [])] _ :=
    Run.of_exec rfl
  have hnot := h _ _ hrun
  obtain ⟨_, _, _, _, _, _, supportsVirtual⟩ := p
  cases supportsVirtual with
  | false => exact not_loads_of_mismatch rfl (by simp [getTable]) hnot
  | true => exact not_loads_of_mismatch rfl (by simp [getTable]) hnot

/-- What was loaded for a table called `constructor` is there, but the calls that came during the load fail. -/
theorem table_constructor_fails : ∃ s,
    Run (step (getTable schemaParserV2 "ks" "constructor" :
      Loader String (List ℕ) (TableRows ℕ) ℕ (LoadError String) ℕ _)) (cached "constructor" none)
      [.call none, .call none, .reply 0 (.ok [1]), .reply 0 (.ok [2, 3]), .reply 0 (.ok []), .parsed 0 (.ok 7)] s ∧
    s.loaded = some 7 ∧ ¬ Loads (getTable schemaParserV2 "ks" "constructor") (fun _ => true) s := by
  refine ⟨_, Run.of_exec rfl, rfl, not_loads_of_mismatch rfl ?_⟩
  simp [getTable]

/-- The loads of the four functions are shared, in every run, if and only if the name is no property name of
`Object.prototype`. -/
theorem loads_iff (p : SchemaParser) (keyspaceName name : String) :
    (LoadsShared (getTable p keyspaceName name : Loader String (List R) (TableRows R) T (LoadError ε) T _)
        (fun _ => true) name none ∧
      LoadsShared (getUdt p keyspaceName name : Loader String (List R) R T (LoadError ε) T Unit)
        (fun _ => true) name none ∧
      LoadsShared (getFunctions p keyspaceName name :
        Loader String (List R) _ (R → List String × F) (LoadError ε) _ Bool)
        FunctionValues.found name (inheritedValues name) ∧
      LoadsShared (getMaterializedView p keyspaceName name :
        Loader String (List R) (TableRows R) T (LoadError ε) T Unit) (fun _ => true) name none) ↔
      name ∉ JsObject.prototypeNames := by
  refine ⟨fun h hname => not_loadsShared_getTable p keyspaceName hname h.1, fun hname => ⟨?_, ?_, ?_, ?_⟩⟩
  · exact loadsShared_of_proper (proper_getTable p keyspaceName name) hname _
  · exact loadsShared_of_proper (proper_getUdt p keyspaceName name) hname _
  · exact loadsShared_of_proper (proper_getFunctions p keyspaceName name) hname _
  · exact loadsShared_of_proper (proper_getMaterializedView p keyspaceName name) hname _

end CqlDriver.Metadata
