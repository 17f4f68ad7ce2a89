import CqlDriver.Mapping.Document
import CqlDriver.Mapping.TableMappings

/-! # Mappings of models (`lib/mapping/model-mapping-info.js`)

`parse` makes a mapping from the options of each model.  A statement asks a mapping for the column of a property, a
result asks it for the property of a column.  Of two columns with one property name the statement takes the later one,
and a column without options goes by the names of the table mappings.  So a property comes back as itself when it is
named in the options, or when its column is not and the table mappings give the name back
(`getPropertyName_getColumnName_iff`). -/

namespace CqlDriver.Mapping

/-- The two directions of a `TableMappings`. -/
structure TableMappings where
  getColumnName : String → String
  getPropertyName : String → String

namespace TableMappings

/-- `DefaultTableMappings` -/
def default : TableMappings := ⟨id, id⟩

/-- `UnderscoreCqlToCamelCaseMappings` -/
def underscoreCqlToCamelCase : TableMappings where
  getColumnName propName := String.ofList (UnderscoreCqlToCamelCaseMappings.getColumnName propName.toList)
  getPropertyName columnName := String.ofList (UnderscoreCqlToCamelCaseMappings.getPropertyName columnName.toList)

end TableMappings

/-! ### Options -/

/-- An option that should be a function. -/
inductive FunctionOption where
  | missing
  | function
  /-- Something else, with its `typeof`. -/
  | other (type : String)
deriving DecidableEq

/-- The options of a column: nothing, the name of the property, or an object, whose name may be empty. -/
inductive ColumnOptions where
  | missing
  | text (name : String)
  | object (name : String) (toModel fromModel : FunctionOption)

inductive TableOption where
  | missing
  | text (name : String)
  | object (name : String) (isView : Bool)

inductive MappingsOption where
  | missing
  | mappings (mappings : TableMappings)
  | other

/-- The options of a model, the columns in the order of `Object.keys`. -/
structure ModelOptions where
  /-- Empty if it is not given. -/
  keyspace : String
  tables : List TableOption
  mappings : MappingsOption
  columns : List (String × ColumnOptions)
  nodup : (columns.map Prod.fst).Nodup

inductive OptionsError where
  | keyspace
  | tableName (modelName : String)
  | mappings
  | function (option propertyName type : String)
deriving DecidableEq

def OptionsError.message : OptionsError → String
  | keyspace => "You should specify the keyspace of the model in the MappingOptions when the Client is not using " ++
      "a keyspace"
  | tableName modelName => "Table name not specified for model '" ++ modelName ++ "'"
  | mappings => "mappings should be an instance of TableMappings"
  | function option propertyName type =>
      option ++ " type for property '" ++ propertyName ++ "' should be a function (obtained " ++ type ++ ")"

/-! ### Columns -/

/-- A `ModelColumnInfo`; `toModel` says whether it has that function. -/
structure ColumnMapping extends ModelColumnInfo where
  toModel : Bool

namespace ColumnMapping

/-- The constructor of `ModelColumnInfo`. -/
def new (columnName propertyName : String) : FunctionOption → FunctionOption → Except OptionsError ColumnMapping
  | .other type, _ => .error (.function "toModel" propertyName type)
  | _, .other type => .error (.function "fromModel" propertyName type)
  | toModel, fromModel => .ok {
      columnName
      propertyName
      fromModel := fromModel = .function
      toModel := toModel = .function }

/-- `name || columnName` -/
def nameOr (name columnName : String) : String := if name = "" then columnName else name

/-- `ModelColumnInfo.parse` -/
def parse (columnName : String) : ColumnOptions → Except OptionsError ColumnMapping
  | .missing => new columnName columnName .missing .missing
  | .text name => new columnName (nameOr name columnName) .missing .missing
  | .object name toModel fromModel => new columnName (nameOr name columnName) toModel fromModel

theorem columnName_new {columnName propertyName : String} {toModel fromModel : FunctionOption} {column : ColumnMapping}
    (h : new columnName propertyName toModel fromModel = .ok column) : column.columnName = columnName := by
  unfold new at h
  split at h
  · cases h
  · cases h
  · cases h
    rfl

theorem columnName_parse {columnName : String} {options : ColumnOptions} {column : ColumnMapping}
    (h : parse columnName options = .ok column) : column.columnName = columnName := by
  unfold parse at h
  split at h
  all_goals exact columnName_new h

/-- The columns of the options, in their order. -/
def parseAll : List (String × ColumnOptions) → Except OptionsError (List ColumnMapping)
  | [] => .ok []
  | (columnName, options) :: rest =>
      match parse columnName options with
      | .error error => .error error
      | .ok column => (parseAll rest).map (column :: ·)

theorem columnNames_parseAll {options : List (String × ColumnOptions)} {columns : List ColumnMapping}
    (h : parseAll options = .ok columns) : columns.map (·.columnName) = options.map Prod.fst := by
  induction options generalizing columns with
  | nil =>
      cases h
      rfl
  | cons p options ih =>
      rw [parseAll] at h
      split at h
      · cases h
      · next column hcolumn =>
          cases hrest : parseAll options with
          | error error =>
              rw [hrest] at h
              cases h
          | ok rest =>
              rw [hrest] at h
              cases h
              rw [List.map_cons, List.map_cons, ih hrest, columnName_parse hcolumn]

end ColumnMapping

/-! ### Mappings -/

/-- A `ModelMappingInfo`, with the functions for both directions. -/
structure ModelMapping where
  keyspace : String
  tables : List TableInfo
  mappings : TableMappings
  columns : List ColumnMapping
  nodup : (columns.map (·.columnName)).Nodup

namespace ModelMapping

/-- `ModelMappingInfo.createDefault` -/
def createDefault (modelName currentKeyspace : String) : ModelMapping where
  keyspace := currentKeyspace
  tables := [⟨modelName, false⟩]
  mappings := .default
  columns := []
  nodup := List.nodup_nil

/-- A table of the options; without a name it is an error. -/
def createTable (modelName : String) : TableOption → Except OptionsError TableInfo
  | .missing => .error (.tableName modelName)
  | .text name => if name = "" then .error (.tableName modelName) else .ok ⟨name, false⟩
  | .object name isView => if name = "" then .error (.tableName modelName) else .ok ⟨name, isView⟩

def createTables (modelName : String) (tables : List TableOption) : Except OptionsError (List TableInfo) :=
  if tables = [] then .ok [⟨modelName, false⟩] else tables.mapM (createTable modelName)

/-- `ModelMappingInfo._create`; the keyspace of the client is empty if it has none. -/
def create (modelName currentKeyspace : String) (modelOptions : Option ModelOptions) :
    Except OptionsError ModelMapping :=
  if currentKeyspace = "" ∧ modelOptions.all (·.keyspace = "") then .error .keyspace
  else match modelOptions with
    | none => .ok (createDefault modelName currentKeyspace)
    | some options =>
        match createTables modelName options.tables with
        | .error error => .error error
        | .ok tables =>
            if options.mappings matches .other then .error .mappings
            else match hcolumns : ColumnMapping.parseAll options.columns with
              | .error error => .error error
              | .ok columns => .ok {
                  keyspace := if options.keyspace = "" then currentKeyspace else options.keyspace
                  tables
                  mappings := if let .mappings mappings := options.mappings then mappings else .default
                  columns
                  nodup := ColumnMapping.columnNames_parseAll hcolumns ▸ options.nodup }

/-- `ModelMappingInfo.parse` -/
def parse (currentKeyspace : String) (models : List (String × Option ModelOptions)) :
    Except OptionsError (List (String × ModelMapping)) :=
  models.mapM fun p => (create p.1 currentKeyspace p.2).map (p.1, ·)

variable (m : ModelMapping)

/-- The mapping as statements use it. -/
def info : ModelMappingInfo where
  keyspace := m.keyspace
  tables := m.tables
  mappings := m.mappings.getColumnName
  columns := m.columns.map (·.toModelColumnInfo)

/-- `_columns.get(columnName)` -/
def column (columnName : String) : Option ColumnMapping := m.columns.find? (·.columnName = columnName)

def getColumnName (propName : String) : String := m.info.getColumnName propName

def getPropertyName (columnName : String) : String :=
  match m.column columnName with
  | some column => column.propertyName
  | none => m.mappings.getPropertyName columnName

/-- Whether `getToModelFn` gives a function. -/
def getToModelFn (columnName : String) : Bool :=
  match m.column columnName with
  | some column => column.toModel
  | none => false

/-! ### Names -/

variable {m : ModelMapping}

theorem column_eq_some {column : ColumnMapping} : m.column column.columnName = some column ↔ column ∈ m.columns := by
  constructor
  · exact List.mem_of_find?_eq_some
  · intro hmem
    cases hfound : m.column column.columnName with
    | none =>
        have hnone := List.find?_eq_none.1 hfound column hmem
        simp at hnone
    | some found =>
        have hname : found.columnName = column.columnName := by simpa using List.find?_some hfound
        rw [List.inj_on_of_nodup_map m.nodup (List.mem_of_find?_eq_some hfound) hmem hname]

theorem column_eq_none {columnName : String} :
    m.column columnName = none ↔ columnName ∉ m.columns.map (·.columnName) := by
  rw [column, List.find?_eq_none, List.mem_map]
  simp

/-- The columns that statements look at are those that results look at. -/
theorem exists_column {found : ModelColumnInfo} (h : found ∈ m.info.columns) :
    ∃ column ∈ m.columns, column.toModelColumnInfo = found := by
  obtain ⟨column, hcolumn, hfound⟩ := List.mem_map.1 h
  exact ⟨column, hcolumn, hfound⟩

theorem documentProperty_eq_some {propName : String} {found : ModelColumnInfo}
    (h : m.info.documentProperty propName = some found) :
    ∃ column ∈ m.columns, column.toModelColumnInfo = found ∧ column.propertyName = propName := by
  obtain ⟨column, hcolumn, rfl⟩ := exists_column (List.mem_reverse.1 (List.mem_of_find?_eq_some h))
  exact ⟨column, hcolumn, rfl, by simpa using List.find?_some h⟩

theorem documentProperty_eq_none {propName : String} :
    m.info.documentProperty propName = none ↔ propName ∉ m.columns.map (·.propertyName) := by
  rw [ModelMappingInfo.documentProperty, List.find?_eq_none, List.mem_map]
  simp [info]

/-- A property name comes back as itself when it is one of the options, or when its column has none and the table
mappings give it back. -/
theorem getPropertyName_getColumnName_iff (m : ModelMapping) (propName : String) :
    m.getPropertyName (m.getColumnName propName) = propName ↔
      propName ∈ m.columns.map (·.propertyName) ∨
        m.getColumnName propName ∉ m.columns.map (·.columnName) ∧
          m.mappings.getPropertyName (m.getColumnName propName) = propName := by
  cases hfound : m.info.documentProperty propName with
  | some found =>
      obtain ⟨column, hcolumn, rfl, hname⟩ := documentProperty_eq_some hfound
      have hget : m.getColumnName propName = column.columnName := by
        rw [getColumnName, ModelMappingInfo.getColumnName, hfound]
      rw [hget, getPropertyName, column_eq_some.2 hcolumn]
      exact iff_of_true hname (.inl (List.mem_map.2 ⟨column, hcolumn, hname⟩))
  | none =>
      have hget : m.getColumnName propName = m.mappings.getColumnName propName := by
        rw [getColumnName, ModelMappingInfo.getColumnName, hfound]
        rfl
      rw [hget, or_iff_right (documentProperty_eq_none.1 hfound)]
      unfold getPropertyName
      split
      · next column hcolumn =>
          -- The column is that of a property with another name.
          have hmem := List.mem_of_find?_eq_some hcolumn
          have hname : column.columnName = m.mappings.getColumnName propName := by simpa using List.find?_some hcolumn
          refine iff_of_false (fun heq => ?_) fun h => h.1 (List.mem_map.2 ⟨column, hmem, hname⟩)
          exact documentProperty_eq_none.1 hfound (List.mem_map.2 ⟨column, hmem, heq⟩)
      · next hcolumn => exact (and_iff_right (column_eq_none.1 hcolumn)).symm

end ModelMapping

end CqlDriver.Mapping
