import CqlDriver.Mapping.Cache

/-! # Statements of the mapper (`lib/mapping/query-generator.js`)

The text of a statement and the script that takes its parameters from a document.  The runtime turns
the text of a script into a function; `runInThisContext` stands for it, and has no value for a text that
is no script.  A statement depends on the document only through its shape: the property names with the
operators and assignments of their values. -/

namespace CqlDriver.Mapping

variable {V P : Type}

/-- A statement with the function for its parameters, which is called with a document and a
`docInfo`.  Only updates have `isCounter`. -/
structure QueryInfo (V P : Type) where
  query : String
  paramsGetter : Call V → P
  isIdempotent : Bool
  isCounter : Option Bool

namespace QueryGenerator

/-! ### Parts of statements and scripts -/

/-- A column name in a statement. -/
def quoted (columnName : String) : String := "\"" ++ columnName ++ "\""

/-- `_getMappingFunctionCall` -/
def getMappingFunctionCall (propName valueGetter : String) : String :=
  "mappingInfo.getFromModelFn('" ++ propName ++ "')(" ++ valueGetter ++ ")"

/-- `_getSingleCondition` -/
def getSingleCondition (columnName : String) : Operators → String
  | .none => quoted columnName ++ " = ?"
  | .single op => quoted columnName ++ " " ++ op.key ++ " ?"
  | .and value0 value1 =>
      getSingleCondition columnName value0 ++ " AND " ++ getSingleCondition columnName value1

/-- `_getConditionWithOperators` -/
def getConditionWithOperators (propertiesInfo : List PropertyInfo) : String :=
  " AND ".intercalate (propertiesInfo.map fun p => getSingleCondition p.columnName p.operators)

/-- `_valueGetterSingle`, with the expression for the value. -/
def valueGetterSingle (valueGetter propName : String) (fromModelFn : Bool) : Operators → String
  | .none => if fromModelFn then getMappingFunctionCall propName valueGetter else valueGetter
  | .single op =>
      let valueGetter := valueGetter ++ ".value"
      if fromModelFn then
        if op = .in_ then valueGetter ++ ".map(v => " ++ getMappingFunctionCall propName "v" ++ ")"
        else getMappingFunctionCall propName valueGetter
      else valueGetter
  | .and value0 value1 =>
      valueGetterSingle (valueGetter ++ ".value[0]") propName fromModelFn value0 ++ ", " ++
        valueGetterSingle (valueGetter ++ ".value[1]") propName fromModelFn value1

/-- `_valueGetterExpression` -/
def valueGetterExpression (propertiesInfo : List PropertyInfo) (objectName : String) : String :=
  ", ".intercalate (propertiesInfo.map fun p =>
    valueGetterSingle (objectName ++ "['" ++ p.propertyName ++ "']") p.propertyName p.fromModel p.operators)

/-- `_assignmentGetterExpression` -/
def assignmentGetterExpression (propertiesInfo : List PropertyInfo) : String :=
  ", ".intercalate (propertiesInfo.map fun p =>
    let valueGetter := "doc['" ++ p.propertyName ++ "']" ++ if p.assigned.isSome then ".value" else ""
    if p.fromModel then getMappingFunctionCall p.propertyName valueGetter else valueGetter)

/-- The script around the expressions of the parameters. -/
def scriptText (name params : String) : String :=
  "(function " ++ name ++ "(doc, docInfo, mappingInfo) \x7b\n  return [" ++ params ++ "];\n\x7d)"

/-- The condition of a statement. -/
def condition (ifExists : Bool) (when : List PropertyInfo) : String :=
  if ifExists then " IF EXISTS" else if when = [] then "" else " IF " ++ getConditionWithOperators when

/-- The parameters of the condition. -/
def conditionParams (when : List PropertyInfo) : String :=
  if when = [] then "" else ", " ++ valueGetterExpression when "docInfo.when"

/-- The condition on the primary keys. -/
def whereClause (primaryKeys : List PropertyInfo) : String :=
  " AND ".intercalate (primaryKeys.map fun p => quoted p.columnName ++ " = ?")

def isPrimaryKey (table : TableMetadata) (p : PropertyInfo) : Bool :=
  p.columnName ∈ table.partitionKeys ++ table.clusteringKeys

/-- The properties with a column in the table. -/
def filteredPropertiesInfo (table : TableMetadata) (propertiesInfo : List PropertyInfo) : List PropertyInfo :=
  propertiesInfo.filter fun p => ObjectSelector.hasColumn table p.columnName

def primaryKeys (table : TableMetadata) (propertiesInfo : List PropertyInfo) : List PropertyInfo :=
  propertiesInfo.filter fun p => isPrimaryKey table p

def otherColumns (table : TableMetadata) (propertiesInfo : List PropertyInfo) : List PropertyInfo :=
  propertiesInfo.filter fun p => !isPrimaryKey table p

/-! ### Statements -/

section Statements

variable (runInThisContext : String → Option (Call V → P))

/-- `new vm.Script(scriptText).runInThisContext()` -/
def runScript (scriptText : String) : Except Error (Call V → P) :=
  match runInThisContext scriptText with
  | some paramsGetter => .ok paramsGetter
  | none => .error .script

/-- `_getInsertQuery` -/
def getInsertQuery (tableName keyspace : String) (propertiesInfo : List PropertyInfo) (ifNotExists ttl : Bool) :
    String :=
  "INSERT INTO " ++ keyspace ++ "." ++ tableName ++ " (" ++
    ", ".intercalate (propertiesInfo.map fun p => quoted p.columnName) ++ ") VALUES (" ++
    ", ".intercalate (propertiesInfo.map fun _ => "?") ++ ")" ++
    (if ifNotExists then " IF NOT EXISTS" else "") ++ if ttl then " USING TTL ?" else ""

/-- `_insertParamsGetter` -/
def insertParamsGetter (propertiesInfo : List PropertyInfo) (ttl : Bool) : String :=
  scriptText "getParametersInsert" (valueGetterExpression propertiesInfo "doc" ++
    if ttl then ", docInfo['ttl']" else "")

def getInsert (table : TableMetadata) (keyspace : String) (propertiesInfo : List PropertyInfo)
    (ttl ifNotExists : Bool) : Except Error (QueryInfo V P) := do
  let filtered := filteredPropertiesInfo table propertiesInfo
  let paramsGetter ← runScript runInThisContext (insertParamsGetter filtered ttl)
  return { query := getInsertQuery table.name keyspace filtered ifNotExists ttl
           paramsGetter
           isIdempotent := !ifNotExists
           isCounter := none }

/-- The assignment of a column in `_getUpdateQuery`. -/
def assignment (p : PropertyInfo) : String :=
  match p.assigned with
  | some (sign, true) => quoted p.columnName ++ " = ? " ++ sign.text ++ " " ++ quoted p.columnName
  | some (sign, false) => quoted p.columnName ++ " = " ++ quoted p.columnName ++ " " ++ sign.text ++ " ?"
  | none => quoted p.columnName ++ " = ?"

/-- `_getUpdateQuery` -/
def getUpdateQuery (table : TableMetadata) (keyspace : String) (propertiesInfo when : List PropertyInfo)
    (ifExists ttl : Bool) : String :=
  "UPDATE " ++ keyspace ++ "." ++ table.name ++ " " ++ (if ttl then "USING TTL ? " else "") ++ "SET " ++
    ", ".intercalate ((otherColumns table propertiesInfo).map assignment) ++ " WHERE " ++
    whereClause (primaryKeys table propertiesInfo) ++ condition ifExists when

/-- `_updateParamsGetter` -/
def updateParamsGetter (table : TableMetadata) (propertiesInfo when : List PropertyInfo) (ttl : Bool) : String :=
  scriptText "getParametersUpdate" ((if ttl then "docInfo['ttl'], " else "") ++
    assignmentGetterExpression (otherColumns table propertiesInfo) ++ ", " ++
    valueGetterExpression (primaryKeys table propertiesInfo) "doc" ++ conditionParams when)

/-- The column of a property in `getUpdate`. -/
def columnOf (table : TableMetadata) (p : PropertyInfo) : JsObject.Read ColumnInfo :=
  JsObject.get table.columnsByName p.columnName

def hasType (table : TableMetadata) (p : PropertyInfo) (type : ColumnKind) : Bool :=
  match columnOf table p with
  | .own column => column.type = type
  | .inherited | .undefined => false

/-- An assignment to a list cannot be repeated, nor can an update of a counter. -/
def isIdempotentColumn (table : TableMetadata) (p : PropertyInfo) : Bool :=
  !(hasType table p .list && p.assigned.isSome) && !hasType table p .counter

def getUpdate (table : TableMetadata) (keyspace : String) (propertiesInfo when : List PropertyInfo)
    (ttl ifExists : Bool) : Except Error (QueryInfo V P) := do
  -- What a name finds on the prototype has no `type`, so `column.type.code` throws.
  if propertiesInfo.any fun p => columnOf table p = .inherited then throw .type
  let filtered := filteredPropertiesInfo table propertiesInfo
  let paramsGetter ← runScript runInThisContext (updateParamsGetter table filtered when ttl)
  return { query := getUpdateQuery table keyspace filtered when ifExists ttl
           paramsGetter
           isIdempotent := propertiesInfo.all (isIdempotentColumn table) && decide (when = []) && !ifExists
           isCounter := some (propertiesInfo.any fun p => hasType table p .counter) }

/-- `_getDeleteQuery` -/
def getDeleteQuery (table : TableMetadata) (keyspace : String) (propertiesInfo when : List PropertyInfo)
    (ifExists deleteOnlyColumns : Bool) : String :=
  let columnsToDelete := ", ".intercalate ((otherColumns table propertiesInfo).map fun p => quoted p.columnName)
  "DELETE" ++ (if deleteOnlyColumns ∧ columnsToDelete ≠ "" then " " ++ columnsToDelete else "") ++
    " FROM " ++ keyspace ++ "." ++ table.name ++ " WHERE " ++
    whereClause (primaryKeys table propertiesInfo) ++ condition ifExists when

/-- `_deleteParamsGetter` -/
def deleteParamsGetter (table : TableMetadata) (propertiesInfo when : List PropertyInfo) : String :=
  scriptText "getParametersDelete" (valueGetterExpression (primaryKeys table propertiesInfo) "doc" ++
    conditionParams when)

def getDelete (table : TableMetadata) (keyspace : String) (propertiesInfo when : List PropertyInfo)
    (deleteOnlyColumns ifExists : Bool) : Except Error (QueryInfo V P) := do
  let filtered := filteredPropertiesInfo table propertiesInfo
  let paramsGetter ← runScript runInThisContext (deleteParamsGetter table filtered when)
  return { query := getDeleteQuery table keyspace filtered when ifExists deleteOnlyColumns
           paramsGetter
           isIdempotent := decide (when = []) && !ifExists
           isCounter := none }

end Statements

end QueryGenerator
end CqlDriver.Mapping
