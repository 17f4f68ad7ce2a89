import CqlDriver.Lib.JsObject

/-! # Documents, mappings and tables (`lib/mapping`)

The inputs of the mapper: documents whose properties hold plain values, query operators or
assignments (`q.js`), the `docInfo` of a call, the mapping of a model (`model-mapping-info.js`), and
the part of the table metadata that the mapper reads.  The values themselves have the type `V`; the
statements depend only on the operators and assignments around them. -/

namespace CqlDriver.Mapping

/-! ### Operators and assignments -/

/-- The operators without child values. -/
inductive Operator where
  | in_ | gt | gte | lt | lte | notEq
deriving DecidableEq

def Operator.key : Operator → String
  | in_ => "IN"
  | gt => ">"
  | gte => ">="
  | lt => "<"
  | lte => "<="
  | notEq => "!="

inductive Sign where
  | plus | minus
deriving DecidableEq

def Sign.text : Sign → String
  | plus => "+"
  | minus => "-"

/-- A value of a property: a plain one, a `QueryOperator` or a `QueryAssignment`. -/
inductive DocValue (V : Type) where
  | plain (v : V)
  | operator (op : Operator) (v : V)
  | and (condition1 condition2 : DocValue V)
  | assignment (sign : Sign) (inverted : Bool) (v : V)

/-- What `value instanceof QueryOperator` and the fields of the operator tell. -/
inductive Operators where
  | none
  | single (op : Operator)
  | and (value0 value1 : Operators)
deriving DecidableEq

namespace DocValue

variable {V : Type}

def operators : DocValue V → Operators
  | plain _ | assignment .. => .none
  | operator op _ => .single op
  | and condition1 condition2 => .and condition1.operators condition2.operators

/-- The sign and `inverted` of a `QueryAssignment`. -/
def assigned : DocValue V → Option (Sign × Bool)
  | assignment sign inverted _ => some (sign, inverted)
  | _ => Option.none

end DocValue

/-! ### Documents -/

/-- The own properties of a document, in the order of `Object.keys`. -/
structure Document (V : Type) where
  properties : List (String × DocValue V)
  nodup : (properties.map Prod.fst).Nodup

namespace Document

variable {V : Type}

def empty : Document V := ⟨[], List.nodup_nil⟩

/-- `Object.keys(doc)` -/
def keys (doc : Document V) : List String := doc.properties.map Prod.fst

/-- `doc[propertyName]`; what comes from the prototype is neither an operator nor an assignment. -/
def get (doc : Document V) (propertyName : String) : Option (DocValue V) :=
  match JsObject.get doc.properties propertyName with
  | .own v => some v
  | .inherited | .undefined => none

def operatorsAt (doc : Document V) (propertyName : String) : Operators :=
  ((doc.get propertyName).map DocValue.operators).getD .none

def assignedAt (doc : Document V) (propertyName : String) : Option (Sign × Bool) :=
  (doc.get propertyName).bind DocValue.assigned

end Document

/-- The options of a call.  An option that is not given has the value of a new object; `ttl` is given
when it is a number. -/
structure DocInfo (V : Type) where
  fields : List String := []
  ttl : Option ℤ := none
  ifExists : Bool := false
  ifNotExists : Bool := false
  deleteOnlyColumns : Bool := false
  when : Document V := .empty

/-- A call of a mapper method; `docInfo` may be left out. -/
structure Call (V : Type) where
  doc : Document V
  docInfo : Option (DocInfo V)

namespace Call

variable {V : Type}

def info (c : Call V) : DocInfo V := c.docInfo.getD {}

end Call

/-! ### Mappings -/

/-- The mapping of a column with options of its own; `fromModel` says whether it has that function. -/
structure ModelColumnInfo where
  columnName : String
  propertyName : String
  fromModel : Bool

structure TableInfo where
  name : String
  isView : Bool

structure ModelMappingInfo where
  keyspace : String
  tables : List TableInfo
  /-- `TableMappings.getColumnName` -/
  mappings : String → String
  columns : List ModelColumnInfo

namespace ModelMappingInfo

/-- `_documentProperties.get`: of two columns with one property name, the later one is kept. -/
def documentProperty (info : ModelMappingInfo) (propName : String) : Option ModelColumnInfo :=
  info.columns.reverse.find? (·.propertyName = propName)

def getColumnName (info : ModelMappingInfo) (propName : String) : String :=
  match info.documentProperty propName with
  | some modelColumnInfo => modelColumnInfo.columnName
  | none => info.mappings propName

/-- Whether `getFromModelFn` gives a function. -/
def getFromModelFn (info : ModelMappingInfo) (propName : String) : Bool :=
  match info.documentProperty propName with
  | some modelColumnInfo => modelColumnInfo.fromModel
  | none => false

end ModelMappingInfo

/-- What a statement takes from a property. -/
structure PropertyInfo where
  propertyName : String
  columnName : String
  operators : Operators
  assigned : Option (Sign × Bool)
  fromModel : Bool
deriving DecidableEq

/-- `DocInfoAdapter.getPropertiesInfo` -/
def getPropertiesInfo {V : Type} (docKeys fields : List String) (doc : Document V) (info : ModelMappingInfo) :
    List PropertyInfo :=
  (if fields = [] then docKeys else fields).map fun propertyName =>
    { propertyName
      columnName := info.getColumnName propertyName
      operators := doc.operatorsAt propertyName
      assigned := doc.assignedAt propertyName
      fromModel := info.getFromModelFn propertyName }

/-! ### Tables -/

inductive ColumnKind where
  | list | counter | other
deriving DecidableEq

structure ColumnInfo where
  name : String
  type : ColumnKind
  isStatic : Bool
deriving DecidableEq

structure TableMetadata where
  name : String
  /-- The names of the columns. -/
  partitionKeys : List String
  clusteringKeys : List String
  columns : List ColumnInfo
  /-- The own properties. -/
  columnsByName : List (String × ColumnInfo)

def staticColumnCount (table : TableMetadata) : ℕ := table.columns.countP (·.isStatic)

inductive Error where
  | expectedKeys
  | tableNotRetrieved (name : String)
  | noTableMatches (expected : String) (fields condition : List String)
  | whenAndIfExists
  | batchNotExists
  | batchConditions
  /-- A `TypeError` of the runtime. -/
  | type
  /-- The `SyntaxError` of a script. -/
  | script
deriving DecidableEq

def Error.message : Error → String
  | expectedKeys => "Expected object with keys"
  | tableNotRetrieved name => "Table \"" ++ name ++ "\" could not be retrieved"
  | noTableMatches expected fields condition =>
      "No table matches (" ++ expected ++ ") fields: [" ++ ",".intercalate fields ++ "]" ++
        if condition = [] then "" else "; condition: [" ++ ",".intercalate condition ++ "]"
  | whenAndIfExists => "Both when and ifExists conditions can not be applied to the same statement"
  | batchNotExists => "Batch with ifNotExists conditions cannot span multiple tables"
  | batchConditions => "Batch with when or ifExists conditions cannot span multiple tables"
  | type => "TypeError"
  | script => "SyntaxError"

/-! ### `ObjectSelector` -/

namespace ObjectSelector

inductive KeyMatches where
  | all | none | some
deriving DecidableEq

def keysAreIncluded (keys : List String) (propertiesInfo : List PropertyInfo) : KeyMatches :=
  if keys = [] then .all
  else
    let found := propertiesInfo.countP fun p => p.columnName ∈ keys
    if found = 0 then .none else if found = keys.length then .all else .some

/-- `table.columnsByName[columnName] !== undefined` -/
def hasColumn (table : TableMetadata) (columnName : String) : Bool :=
  match JsObject.get table.columnsByName columnName with
  | .own _ | .inherited => true
  | .undefined => false

/-- The tables of the model that are no views, in order, each with the name in the error for a missing
one: that of the table at the same place among all tables. -/
def candidates (getTable : String → String → Option TableMetadata) (info : ModelMappingInfo) :
    List (Option TableMetadata × String) :=
  ((info.tables.filter (!·.isView)).map fun t => getTable info.keyspace t.name).zip
    (info.tables.map TableInfo.name)

/-- The filter over the tables, which throws at the first one that is missing. -/
def filterTables (keep : TableMetadata → Bool) :
    List (Option TableMetadata × String) → Except Error (List TableMetadata)
  | [] => .ok []
  | (none, name) :: _ => .error (.tableNotRetrieved name)
  | (some table, _) :: tables =>
      (filterTables keep tables).map fun kept => if keep table then table :: kept else kept

def allPKs : String := "all PKs have to be specified"

def getForInsert (getTable : String → String → Option TableMetadata) (info : ModelMappingInfo)
    (propertiesInfo : List PropertyInfo) : Except Error (List TableMetadata) := do
  let keep (table : TableMetadata) : Bool :=
    if keysAreIncluded table.partitionKeys propertiesInfo ≠ .all then false
    else match keysAreIncluded table.clusteringKeys propertiesInfo with
      | .all => true
      | .some => false
      | .none => propertiesInfo.length = table.partitionKeys.length + staticColumnCount table ∧
          0 < staticColumnCount table
  let filteredTables ← filterTables keep (candidates getTable info)
  if filteredTables.isEmpty then .error (.noTableMatches allPKs (propertiesInfo.map (·.columnName)) [])
  else .ok filteredTables

def getForUpdate (getTable : String → String → Option TableMetadata) (info : ModelMappingInfo)
    (propertiesInfo when : List PropertyInfo) : Except Error (List TableMetadata) := do
  let keep (table : TableMetadata) : Bool :=
    let clusteringKeyMatches := keysAreIncluded table.clusteringKeys propertiesInfo
    let applicableColumns := propertiesInfo.countP fun p => hasColumn table p.columnName
    if keysAreIncluded table.partitionKeys propertiesInfo ≠ .all then false
    else if clusteringKeyMatches = .some then false
    else if clusteringKeyMatches = .none ∧ staticColumnCount table = 0 then false
    else if applicableColumns ≤ table.partitionKeys.length + table.clusteringKeys.length ∧
        (staticColumnCount table = 0 ∨ applicableColumns ≤ table.partitionKeys.length) then false
    else when.all fun p => hasColumn table p.columnName
  let filteredTables ← filterTables keep (candidates getTable info)
  if filteredTables.isEmpty then
    .error (.noTableMatches "all PKs and columns to set have to be specified"
      (propertiesInfo.map (·.columnName)) (when.map (·.columnName)))
  else .ok filteredTables

def getForDelete (getTable : String → String → Option TableMetadata) (info : ModelMappingInfo)
    (propertiesInfo when : List PropertyInfo) : Except Error (List TableMetadata) := do
  let keep (table : TableMetadata) : Bool :=
    (table.partitionKeys ++ table.clusteringKeys).all (fun k => k ∈ propertiesInfo.map (·.columnName)) &&
      when.all fun p => hasColumn table p.columnName
  let filteredTables ← filterTables keep (candidates getTable info)
  if filteredTables.isEmpty then
    .error (.noTableMatches allPKs (propertiesInfo.map (·.columnName)) (when.map (·.columnName)))
  else .ok filteredTables

end ObjectSelector
end CqlDriver.Mapping
