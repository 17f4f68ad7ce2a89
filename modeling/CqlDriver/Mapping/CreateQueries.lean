import CqlDriver.Mapping.QueryGenerator

/-! # The statements of a call (`lib/mapping/mapping-handler.js`)

`createInsertQueries`, `createUpdateQueries` and `createDeleteQueries` choose the tables and generate a
statement for each.  What they give depends on the shape of the call only (`createQueries_eq_of_shape`),
and the key of an update or a remove fixes the shape as soon as the number of `when` conditions is known
(`shape_eq_of_key`). -/

namespace CqlDriver.Mapping

variable {V P : Type}

/-- The mutations of a mapper. -/
inductive Kind where
  | insert | update | remove
deriving DecidableEq

/-- A handler with the metadata of the client and the runtime. -/
structure MappingHandler (V P : Type) where
  info : ModelMappingInfo
  /-- `client.metadata.getTable` -/
  getTable : String → String → Option TableMetadata
  runInThisContext : String → Option (Call V → P)

/-- A statement for each table. -/
abbrev Queries (V P : Type) := List (QueryInfo V P)

namespace MappingHandler

open ObjectSelector QueryGenerator

variable (h : MappingHandler V P)

/-- The part of `createInsertQueries` behind `connect`. -/
def insertQueries (propertiesInfo : List PropertyInfo) (ttl ifNotExists : Bool) : Except Error (Queries V P) := do
  let tables ← getForInsert h.getTable h.info propertiesInfo
  if 1 < tables.length ∧ ifNotExists then throw .batchNotExists
  tables.mapM fun table => getInsert h.runInThisContext table h.info.keyspace propertiesInfo ttl ifNotExists

def updateQueries (propertiesInfo when : List PropertyInfo) (ttl ifExists : Bool) : Except Error (Queries V P) := do
  let tables ← getForUpdate h.getTable h.info propertiesInfo when
  if 1 < tables.length ∧ (when ≠ [] ∨ ifExists) then throw .batchConditions
  tables.mapM fun table => getUpdate h.runInThisContext table h.info.keyspace propertiesInfo when ttl ifExists

def deleteQueries (propertiesInfo when : List PropertyInfo) (deleteOnlyColumns ifExists : Bool) :
    Except Error (Queries V P) := do
  let tables ← getForDelete h.getTable h.info propertiesInfo when
  if 1 < tables.length ∧ (when ≠ [] ∨ ifExists) then throw .batchConditions
  tables.mapM fun table =>
    getDelete h.runInThisContext table h.info.keyspace propertiesInfo when deleteOnlyColumns ifExists

def propertiesInfo (c : Call V) : List PropertyInfo := getPropertiesInfo c.doc.keys c.info.fields c.doc h.info

def whenInfo (c : Call V) : List PropertyInfo := getPropertiesInfo c.info.when.keys [] c.info.when h.info

def createInsertQueries (c : Call V) : Except Error (Queries V P) :=
  h.insertQueries (h.propertiesInfo c) c.info.ttl.isSome c.info.ifNotExists

/-- An error of `createUpdateQueries` and `createDeleteQueries` that is thrown at once. -/
def checkConditions (when : List PropertyInfo) (ifExists : Bool) (queries : Except Error (Queries V P)) :
    Except Error (Except Error (Queries V P)) :=
  if when ≠ [] ∧ ifExists then .error .whenAndIfExists else .ok queries

def createUpdateQueries (c : Call V) : Except Error (Except Error (Queries V P)) :=
  checkConditions (h.whenInfo c) c.info.ifExists
    (h.updateQueries (h.propertiesInfo c) (h.whenInfo c) c.info.ttl.isSome c.info.ifExists)

def createDeleteQueries (c : Call V) : Except Error (Except Error (Queries V P)) :=
  checkConditions (h.whenInfo c) c.info.ifExists
    (h.deleteQueries (h.propertiesInfo c) (h.whenInfo c) c.info.deleteOnlyColumns c.info.ifExists)

/-- The error that is thrown, or what the promise settles with once the client is connected. -/
def createQueries : Kind → Call V → Except Error (Except Error (Queries V P))
  | .insert, c => .ok (h.createInsertQueries c)
  | .update, c => h.createUpdateQueries c
  | .remove, c => h.createDeleteQueries c

end MappingHandler

/-- The key of a call in the caches. -/
def Cache.getKey : Kind → Call V → List Token
  | .insert => getInsertKey
  | .update => getUpdateKey
  | .remove => getRemoveKey

/-! ### Shapes -/

/-- What the statements of a call depend on: the properties with the operators and assignments of their
values, the options that are given, and the properties of the conditions. -/
structure Shape where
  properties : List (String × Operators × Option (Sign × Bool))
  ttl : Bool
  ifExists : Bool
  ifNotExists : Bool
  deleteOnlyColumns : Bool
  when : List (String × Operators)
deriving DecidableEq

/-- The shape of a call; what a kind of mutation does not look at is left out. -/
def Call.shape (kind : Kind) (c : Call V) : Shape where
  properties := (if c.info.fields = [] then c.doc.keys else c.info.fields).map fun name =>
    (name, c.doc.operatorsAt name, if kind = .update then c.doc.assignedAt name else none)
  ttl := kind ≠ .remove ∧ c.info.ttl.isSome
  ifExists := kind ≠ .insert ∧ c.info.ifExists
  ifNotExists := kind = .insert ∧ c.info.ifNotExists
  deleteOnlyColumns := kind = .remove ∧ c.info.deleteOnlyColumns
  when := if kind = .insert then [] else c.info.when.keys.map fun name => (name, c.info.when.operatorsAt name)

/-! ### Statements that do not look at assignments -/

/-- A property without its assignment. -/
def PropertyInfo.forget (p : PropertyInfo) : PropertyInfo := { p with assigned := none }

section Forget

open PropertyInfo ObjectSelector QueryGenerator

theorem filter_forget (ps : List PropertyInfo) {f : PropertyInfo → Bool} (hf : ∀ p, f p.forget = f p) :
    (ps.map forget).filter f = (ps.filter f).map forget := by
  rw [List.filter_map]
  exact congrArg (List.map forget) (List.filter_congr fun p _ => hf p)

theorem map_forget {α : Type} (ps : List PropertyInfo) {f : PropertyInfo → α} (hf : ∀ p, f p.forget = f p) :
    (ps.map forget).map f = ps.map f := by
  rw [List.map_map]
  exact List.map_congr_left fun p _ => hf p

@[simp] theorem forget_eq_nil (ps : List PropertyInfo) : ps.map forget = [] ↔ ps = [] := List.map_eq_nil_iff

@[simp] theorem filteredPropertiesInfo_forget (table : TableMetadata) (ps : List PropertyInfo) :
    filteredPropertiesInfo table (ps.map forget) = (filteredPropertiesInfo table ps).map forget :=
  filter_forget ps fun _ => rfl

@[simp] theorem primaryKeys_forget (table : TableMetadata) (ps : List PropertyInfo) :
    primaryKeys table (ps.map forget) = (primaryKeys table ps).map forget :=
  filter_forget ps fun _ => rfl

@[simp] theorem otherColumns_forget (table : TableMetadata) (ps : List PropertyInfo) :
    otherColumns table (ps.map forget) = (otherColumns table ps).map forget :=
  filter_forget ps fun _ => rfl

@[simp] theorem valueGetterExpression_forget (ps : List PropertyInfo) (objectName : String) :
    valueGetterExpression (ps.map forget) objectName = valueGetterExpression ps objectName := by
  unfold valueGetterExpression
  rw [map_forget ps fun _ => rfl]

@[simp] theorem whereClause_forget (ps : List PropertyInfo) : whereClause (ps.map forget) = whereClause ps := by
  unfold whereClause
  rw [map_forget ps fun _ => rfl]

@[simp] theorem condition_forget (ifExists : Bool) (when : List PropertyInfo) :
    condition ifExists (when.map forget) = condition ifExists when := by
  unfold condition getConditionWithOperators
  rw [map_forget when fun _ => rfl]
  simp only [forget_eq_nil]

@[simp] theorem conditionParams_forget (when : List PropertyInfo) :
    conditionParams (when.map forget) = conditionParams when := by
  unfold conditionParams
  simp only [forget_eq_nil, valueGetterExpression_forget]

@[simp] theorem columnNames_forget (ps : List PropertyInfo) :
    (ps.map forget).map (fun p => p.columnName) = ps.map fun p => p.columnName :=
  map_forget ps fun _ => rfl

@[simp] theorem all_hasColumn_forget (table : TableMetadata) (ps : List PropertyInfo) :
    ((ps.map forget).all fun p => hasColumn table p.columnName) = ps.all fun p => hasColumn table p.columnName := by
  rw [List.all_map]
  rfl

@[simp] theorem keysAreIncluded_forget (keys : List String) (ps : List PropertyInfo) :
    keysAreIncluded keys (ps.map forget) = keysAreIncluded keys ps := by
  unfold keysAreIncluded
  rw [List.countP_map]
  rfl

variable (runInThisContext : String → Option (Call V → P))

theorem getInsert_forget (table : TableMetadata) (keyspace : String) (ps : List PropertyInfo)
    (ttl ifNotExists : Bool) :
    getInsert runInThisContext table keyspace (ps.map forget) ttl ifNotExists =
      getInsert runInThisContext table keyspace ps ttl ifNotExists := by
  unfold getInsert insertParamsGetter getInsertQuery
  simp only [filteredPropertiesInfo_forget, valueGetterExpression_forget]
  rw [map_forget (filteredPropertiesInfo table ps) fun _ => rfl,
    map_forget (filteredPropertiesInfo table ps) fun _ => rfl]

theorem getUpdate_forget (table : TableMetadata) (keyspace : String) (ps when : List PropertyInfo)
    (ttl ifExists : Bool) :
    getUpdate runInThisContext table keyspace ps (when.map forget) ttl ifExists =
      getUpdate runInThisContext table keyspace ps when ttl ifExists := by
  unfold getUpdate updateParamsGetter getUpdateQuery
  simp only [conditionParams_forget, condition_forget, forget_eq_nil]

theorem getDelete_forget (table : TableMetadata) (keyspace : String) (ps when : List PropertyInfo)
    (deleteOnlyColumns ifExists : Bool) :
    getDelete runInThisContext table keyspace (ps.map forget) (when.map forget) deleteOnlyColumns ifExists =
      getDelete runInThisContext table keyspace ps when deleteOnlyColumns ifExists := by
  unfold getDelete deleteParamsGetter getDeleteQuery
  simp only [filteredPropertiesInfo_forget, primaryKeys_forget, otherColumns_forget, valueGetterExpression_forget,
    whereClause_forget, conditionParams_forget, condition_forget, forget_eq_nil]
  rw [map_forget (otherColumns table (filteredPropertiesInfo table ps)) fun _ => rfl]

variable (h : MappingHandler V P)

theorem insertQueries_forget (ps : List PropertyInfo) (ttl ifNotExists : Bool) :
    h.insertQueries (ps.map forget) ttl ifNotExists = h.insertQueries ps ttl ifNotExists := by
  unfold MappingHandler.insertQueries getForInsert
  simp only [getInsert_forget, keysAreIncluded_forget, columnNames_forget, List.length_map]

theorem updateQueries_forget (ps when : List PropertyInfo) (ttl ifExists : Bool) :
    h.updateQueries ps (when.map forget) ttl ifExists = h.updateQueries ps when ttl ifExists := by
  unfold MappingHandler.updateQueries getForUpdate
  simp only [getUpdate_forget, all_hasColumn_forget, columnNames_forget, forget_eq_nil, ne_eq]

theorem deleteQueries_forget (ps when : List PropertyInfo) (deleteOnlyColumns ifExists : Bool) :
    h.deleteQueries (ps.map forget) (when.map forget) deleteOnlyColumns ifExists =
      h.deleteQueries ps when deleteOnlyColumns ifExists := by
  unfold MappingHandler.deleteQueries getForDelete
  simp only [getDelete_forget, all_hasColumn_forget, columnNames_forget, forget_eq_nil, ne_eq]

theorem checkConditions_forget (when : List PropertyInfo) (ifExists : Bool)
    (queries : Except Error (Queries V P)) :
    MappingHandler.checkConditions (when.map forget) ifExists queries =
      MappingHandler.checkConditions when ifExists queries := by
  unfold MappingHandler.checkConditions
  simp only [forget_eq_nil, ne_eq]

end Forget

/-! ### The shape decides -/

/-- The property that a part of a shape stands for. -/
def Shape.propertyInfo (info : ModelMappingInfo) (p : String × Operators × Option (Sign × Bool)) : PropertyInfo where
  propertyName := p.1
  columnName := info.getColumnName p.1
  operators := p.2.1
  assigned := p.2.2
  fromModel := info.getFromModelFn p.1

section

variable (h : MappingHandler V P)

theorem propertiesInfo_eq_of_shape {c c' : Call V} (hs : c.shape .update = c'.shape .update) :
    h.propertiesInfo c = h.propertiesInfo c' := by
  have heq (c : Call V) : h.propertiesInfo c = (c.shape .update).properties.map (Shape.propertyInfo h.info) := by
    simp only [Call.shape, List.map_map]
    rfl
  rw [heq, heq, hs]

theorem forget_propertiesInfo_eq_of_shape {kind : Kind} (hkind : kind ≠ .update) {c c' : Call V}
    (hs : c.shape kind = c'.shape kind) :
    (h.propertiesInfo c).map PropertyInfo.forget = (h.propertiesInfo c').map PropertyInfo.forget := by
  have heq (c : Call V) : (h.propertiesInfo c).map PropertyInfo.forget =
      (c.shape kind).properties.map (Shape.propertyInfo h.info) := by
    simp only [Call.shape, if_neg hkind, MappingHandler.propertiesInfo, getPropertiesInfo, List.map_map]
    rfl
  rw [heq, heq, hs]

theorem forget_whenInfo_eq_of_shape {kind : Kind} (hkind : kind ≠ .insert) {c c' : Call V}
    (hs : c.shape kind = c'.shape kind) :
    (h.whenInfo c).map PropertyInfo.forget = (h.whenInfo c').map PropertyInfo.forget := by
  have heq (c : Call V) : (h.whenInfo c).map PropertyInfo.forget =
      (c.shape kind).when.map fun p => Shape.propertyInfo h.info (p.1, p.2, none) := by
    simp only [Call.shape, if_neg hkind, MappingHandler.whenInfo, getPropertiesInfo, if_true, List.map_map]
    rfl
  rw [heq, heq, hs]

/-- Calls of one shape get the same statements. -/
theorem createQueries_eq_of_shape (kind : Kind) {c c' : Call V} (hs : c.shape kind = c'.shape kind) :
    h.createQueries kind c = h.createQueries kind c' := by
  cases kind with
  | insert =>
      have hprops := forget_propertiesInfo_eq_of_shape h (by decide) hs
      have httl : c.info.ttl.isSome = c'.info.ttl.isSome := by simpa [Call.shape] using congrArg Shape.ttl hs
      have hexists : c.info.ifNotExists = c'.info.ifNotExists := by
        simpa [Call.shape] using congrArg Shape.ifNotExists hs
      simp only [MappingHandler.createQueries, MappingHandler.createInsertQueries]
      rw [← insertQueries_forget h (h.propertiesInfo c), hprops, insertQueries_forget, httl, hexists]
  | update =>
      have hprops := propertiesInfo_eq_of_shape h hs
      have hwhen := forget_whenInfo_eq_of_shape h (by decide) hs
      have httl : c.info.ttl.isSome = c'.info.ttl.isSome := by simpa [Call.shape] using congrArg Shape.ttl hs
      have hexists : c.info.ifExists = c'.info.ifExists := by simpa [Call.shape] using congrArg Shape.ifExists hs
      simp only [MappingHandler.createQueries, MappingHandler.createUpdateQueries]
      rw [← checkConditions_forget (h.whenInfo c), ← updateQueries_forget h _ (h.whenInfo c), hwhen,
        checkConditions_forget, updateQueries_forget, hprops, httl, hexists]
  | remove =>
      have hprops := forget_propertiesInfo_eq_of_shape h (by decide) hs
      have hwhen := forget_whenInfo_eq_of_shape h (by decide) hs
      have honly : c.info.deleteOnlyColumns = c'.info.deleteOnlyColumns := by
        simpa [Call.shape] using congrArg Shape.deleteOnlyColumns hs
      have hexists : c.info.ifExists = c'.info.ifExists := by simpa [Call.shape] using congrArg Shape.ifExists hs
      simp only [MappingHandler.createQueries, MappingHandler.createDeleteQueries]
      rw [← checkConditions_forget (h.whenInfo c), ← deleteQueries_forget h _ (h.whenInfo c), hprops, hwhen,
        checkConditions_forget, deleteQueries_forget, honly, hexists]

end

/-! ### The key decides -/

namespace Document

theorem get_eq_lookup (doc : Document V) (name : String) : doc.get name = doc.properties.lookup name := by
  unfold get JsObject.get
  cases doc.properties.lookup name with
  | some v => rfl
  | none => split_ifs <;> rfl

end Document

namespace Cache

theorem lookup_map {α β : Type} (f : α → β) (items : List (String × α)) (name : String) :
    (items.map fun p => (p.1, f p.2)).lookup name = (items.lookup name).map f := by
  induction items with
  | nil => rfl
  | cons p items ih =>
      obtain ⟨n, v⟩ := p
      simp only [List.map_cons, List.lookup_cons, ih]
      split <;> rfl

theorem operatorsAt_eq_of_operatorItems {doc doc' : Document V} (h : operatorItems doc = operatorItems doc')
    (name : String) : doc.operatorsAt name = doc'.operatorsAt name := by
  have heq (doc : Document V) : doc.operatorsAt name = ((operatorItems doc).lookup name).getD .none := by
    rw [Document.operatorsAt, Document.get_eq_lookup, operatorItems, lookup_map]
  rw [heq, heq, h]

theorem keys_eq_of_operatorItems {doc doc' : Document V} (h : operatorItems doc = operatorItems doc') :
    doc.keys = doc'.keys := by
  rw [← map_fst_operatorItems, h, map_fst_operatorItems]

/-- What an item of an update tells about its value. -/
def Qs.view : Qs → Operators × Option (Sign × Bool)
  | operators o => (o, none)
  | assignment sign inverted => (.none, some (sign, inverted))

theorem view_qs (value : DocValue V) : (qs value).view = (value.operators, value.assigned) := by
  cases value <;> rfl

theorem at_eq_of_qsItems {doc doc' : Document V} (h : qsItems doc = qsItems doc') (name : String) :
    doc.operatorsAt name = doc'.operatorsAt name ∧ doc.assignedAt name = doc'.assignedAt name := by
  have hview : (doc.get name).map (fun v => (v.operators, v.assigned)) =
      (doc'.get name).map fun v => (v.operators, v.assigned) := by
    have heq (doc : Document V) : (doc.get name).map (fun v => (v.operators, v.assigned)) =
        ((qsItems doc).lookup name).map Qs.view := by
      rw [Document.get_eq_lookup, qsItems, lookup_map, Option.map_map]
      simp only [Function.comp_def, view_qs]
    rw [heq, heq, h]
  unfold Document.operatorsAt Document.assignedAt
  cases hd : doc.get name with
  | none =>
      rw [hd] at hview
      rw [Option.map_eq_none_iff.1 hview.symm]
      exact ⟨rfl, rfl⟩
  | some v =>
      rw [hd, Option.map_some, eq_comm, Option.map_eq_some_iff] at hview
      obtain ⟨w, hw, hvw⟩ := hview
      rw [hw]
      obtain ⟨hops, hassigned⟩ := Prod.mk.inj hvw
      exact ⟨hops.symm, hassigned.symm⟩

theorem keys_eq_of_qsItems {doc doc' : Document V} (h : qsItems doc = qsItems doc') : doc.keys = doc'.keys := by
  rw [← map_fst_qsItems, h, map_fst_qsItems]

/-- The number of `when` conditions. -/
def whenCount (c : Call V) : ℕ := c.info.when.keys.length

/-- The key of an update or a remove, together with the number of conditions, tells the shape. -/
theorem shape_eq_of_key {kind : Kind} (hkind : kind ≠ .insert) {c c' : Call V} (hc : Plain c) (hc' : Plain c')
    (hwhen : whenCount c = whenCount c') (hkey : getKey kind c = getKey kind c') :
    c.shape kind = c'.shape kind := by
  cases kind with
  | insert => exact absurd rfl hkind
  | update =>
      obtain ⟨hdoc, hfields, httl, hexists, hconds⟩ := updateKey_inj hc hc' hwhen hkey
      have hat := at_eq_of_qsItems hdoc
      simp only [Call.shape, keys_eq_of_qsItems hdoc, hfields, (hat _).1, (hat _).2, httl, hexists,
        keys_eq_of_operatorItems hconds, operatorsAt_eq_of_operatorItems hconds]
      rfl
  | remove =>
      obtain ⟨hdoc, hfields, hexists, honly, hconds⟩ := removeKey_inj hc hc' hwhen hkey
      simp only [Call.shape, keys_eq_of_operatorItems hdoc, operatorsAt_eq_of_operatorItems hdoc, hfields, hexists,
        honly, keys_eq_of_operatorItems hconds, operatorsAt_eq_of_operatorItems hconds]
      rfl

theorem keys_eq_of_key {kind : Kind} (hkind : kind ≠ .insert) {c c' : Call V} (hc : Plain c) (hc' : Plain c')
    (hwhen : whenCount c = whenCount c') (hkey : getKey kind c = getKey kind c') : c.doc.keys = c'.doc.keys := by
  cases kind with
  | insert => exact absurd rfl hkind
  | update => exact keys_eq_of_qsItems (updateKey_inj hc hc' hwhen hkey).1
  | remove => exact keys_eq_of_operatorItems (removeKey_inj hc hc' hwhen hkey).1

/-! ### The number of conditions is needed -/

theorem not_mem_yieldOperators (o : Operators) : Token.str "|e|" ∉ yieldOperators o := by
  induction o with
  | none => exact List.not_mem_nil
  | single op => cases op <;> decide
  | and a b iha ihb => simp [yieldOperators, iha, ihb]

theorem not_mem_tokens (q : Qs) : Token.str "|e|" ∉ q.tokens := by
  cases q with
  | operators o => exact not_mem_yieldOperators o
  | assignment sign inverted => cases sign <;> simp [Qs.tokens, Sign.text]

theorem not_mem_itemTokens {α : Type} {tokens : α → List Token} (htokens : ∀ a, Token.str "|e|" ∉ tokens a)
    {items : List (String × α)} (hplain : PlainNames (items.map Prod.fst)) :
    Token.str "|e|" ∉ itemTokens tokens items := by
  intro hmem
  obtain ⟨p, hp, hmem⟩ := List.mem_flatMap.1 hmem
  obtain heq | hmem := List.mem_cons.1 hmem
  · have hname := hplain p.1 (List.mem_map_of_mem hp)
    rw [← Token.str.inj heq] at hname
    exact hname (by decide)
  · exact htokens p.2 hmem

theorem not_mem_yieldFields {fields : List String} (hplain : PlainNames fields) :
    Token.str "|e|" ∉ yieldFields fields := by
  unfold yieldFields
  split_ifs
  · exact List.not_mem_nil
  · simp only [List.mem_cons, Token.str.injEq, List.mem_map, exists_eq_right, not_or]
    exact ⟨by decide, fun hmem => hplain _ hmem (by decide)⟩

/-- Behind the marker for `ifExists`, the conditions of two calls with one key are the same. -/
theorem whenCount_eq_of_ifExists {kind : Kind} (hkind : kind ≠ .insert) {c c' : Call V} (hc : Plain c)
    (hc' : Plain c') (hkey : getKey kind c = getKey kind c') (he : c.info.ifExists = true)
    (he' : c'.info.ifExists = true) : whenCount c = whenCount c' := by
  have hcount (c : Call V) (hc : Plain c) : (yieldKeyAndOperators c.info.when).countP isName = whenCount c := by
    rw [yieldKeyAndOperators_eq, countP_itemTokens countP_yieldOperators (plainNames_operatorItems hc.when)]
    simp [operatorItems, whenCount, Document.keys]
  have hwhen : Token.str "|e|" ∉ yieldKeyAndOperators c.info.when := by
    rw [yieldKeyAndOperators_eq]
    exact not_mem_itemTokens not_mem_yieldOperators (plainNames_operatorItems hc.when)
  cases kind with
  | insert => exact absurd rfl hkind
  | update =>
      have hfront : Token.str "|e|" ∉ yieldKeyAndAllQs c.doc ++
          (yieldFields c.info.fields ++ mark c.info.ttl.isSome "|t|") := by
        rw [yieldKeyAndAllQs_eq]
        have hdoc := not_mem_itemTokens not_mem_tokens (plainNames_qsItems hc.doc)
        simp only [List.mem_append, not_or]
        refine ⟨hdoc, not_mem_yieldFields hc.fields, ?_⟩
        cases c.info.ttl.isSome <;> decide
      have heq (c : Call V) (he : c.info.ifExists = true) : getKey .update c = (yieldKeyAndAllQs c.doc ++
          (yieldFields c.info.fields ++ mark c.info.ttl.isSome "|t|")) ++ .str "|e|" ::
            yieldKeyAndOperators c.info.when := by
        simp [getKey, getUpdateKey, mark, he]
      rw [heq c he, heq c' he'] at hkey
      obtain ⟨-, -, hconds⟩ := (List.append_cons_inj_of_notMem hfront hwhen).1 hkey
      rw [← hcount c hc, hconds, hcount c' hc']
  | remove =>
      have hfront : Token.str "|e|" ∉ yieldKeyAndOperators c.doc ++ yieldFields c.info.fields := by
        rw [yieldKeyAndOperators_eq]
        have hdoc := not_mem_itemTokens not_mem_yieldOperators (plainNames_operatorItems hc.doc)
        simp only [List.mem_append, not_or]
        exact ⟨hdoc, not_mem_yieldFields hc.fields⟩
      have heq (c : Call V) (he : c.info.ifExists = true) : getKey .remove c = (yieldKeyAndOperators c.doc ++
          yieldFields c.info.fields) ++ .str "|e|" :: (mark c.info.deleteOnlyColumns "|dc|" ++
            yieldKeyAndOperators c.info.when) := by
        simp [getKey, getRemoveKey, mark, he]
      have honly (b : Bool) : (mark b "|dc|").countP isName = 0 := by cases b <;> decide
      have hback : Token.str "|e|" ∉ mark c.info.deleteOnlyColumns "|dc|" ++ yieldKeyAndOperators c.info.when := by
        simp only [List.mem_append, not_or]
        refine ⟨?_, hwhen⟩
        cases c.info.deleteOnlyColumns <;> decide
      rw [heq c he, heq c' he'] at hkey
      obtain ⟨-, -, hconds⟩ := (List.append_cons_inj_of_notMem hfront hback).1 hkey
      have := congrArg (List.countP isName) hconds
      rwa [List.countP_append, List.countP_append, honly, honly, hcount c hc, hcount c' hc', Nat.zero_add,
        Nat.zero_add] at this

end Cache

/-- A model that is mapped to a view only: every mutation names the columns it was called with. -/
def MappingHandler.viewOnly : MappingHandler V P where
  info := { keyspace := "ks", tables := [⟨"v", true⟩], mappings := id, columns := [] }
  getTable _ _ := none
  runInThisContext _ := none

theorem length_whenInfo (h : MappingHandler V P) (c : Call V) :
    (h.whenInfo c).length = Cache.whenCount c := by
  simp [MappingHandler.whenInfo, getPropertiesInfo, Cache.whenCount]

theorem createQueries_viewOnly {kind : Kind} (hkind : kind ≠ .insert) (c : Call V) :
    (MappingHandler.viewOnly : MappingHandler V P).createQueries kind c =
        .error .whenAndIfExists ∧ c.info.ifExists = true ∨
      ∃ expected fields, (MappingHandler.viewOnly : MappingHandler V P).createQueries kind c =
        .ok (.error (.noTableMatches expected fields
          (((MappingHandler.viewOnly : MappingHandler V P).whenInfo c).map (·.columnName)))) := by
  cases kind with
  | insert => exact absurd rfl hkind
  | update =>
      simp only [MappingHandler.createQueries, MappingHandler.createUpdateQueries, MappingHandler.checkConditions]
      split_ifs with hboth
      · exact .inl ⟨rfl, hboth.2⟩
      · exact .inr ⟨_, _, rfl⟩
  | remove =>
      simp only [MappingHandler.createQueries, MappingHandler.createDeleteQueries, MappingHandler.checkConditions]
      split_ifs with hboth
      · exact .inl ⟨rfl, hboth.2⟩
      · exact .inr ⟨_, _, rfl⟩

/-- Two calls with one key get the same statements from every mapper exactly if they have the same
number of conditions. -/
theorem createQueries_eq_iff {kind : Kind} (hkind : kind ≠ .insert) {c c' : Call V} (hc : Cache.Plain c)
    (hc' : Cache.Plain c') (hkey : Cache.getKey kind c = Cache.getKey kind c') :
    (∀ h : MappingHandler V P, h.createQueries kind c = h.createQueries kind c') ↔
      Cache.whenCount c = Cache.whenCount c' := by
  constructor
  · intro hall
    have heq := hall .viewOnly
    obtain ⟨hthrown, he⟩ | ⟨_, _, hcols⟩ := createQueries_viewOnly (P := P) hkind c
    · obtain ⟨-, he'⟩ | ⟨_, _, hcols'⟩ := createQueries_viewOnly (P := P) hkind c'
      · exact Cache.whenCount_eq_of_ifExists hkind hc hc' hkey he he'
      · rw [hthrown, hcols'] at heq
        cases heq
    · obtain ⟨hthrown', -⟩ | ⟨_, _, hcols'⟩ := createQueries_viewOnly (P := P) hkind c'
      · rw [hcols, hthrown'] at heq
        cases heq
      · rw [hcols, hcols'] at heq
        simp only [Except.ok.injEq, Except.error.injEq, Error.noTableMatches.injEq] at heq
        have := congrArg List.length heq.2.2
        rwa [List.length_map, List.length_map, length_whenInfo, length_whenInfo] at this
  · intro hwhen h
    exact createQueries_eq_of_shape h kind (Cache.shape_eq_of_key hkind hc hc' hwhen hkey)

end CqlDriver.Mapping
