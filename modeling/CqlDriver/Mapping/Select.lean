import CqlDriver.Mapping.CreateQueries

/-! # Selects (`lib/mapping`)

The statement of a select, the table it is for and the key it is cached under.  The key of a select has no conditions
behind the options, and reads back from the left: the properties end at the first marker, and behind `|o|` names and
orders alternate (`selectKey_inj`).  So the key fixes the statement (`statement_eq_of_key`). -/

namespace CqlDriver.Mapping

variable {V P : Type}

/-- The options of a select.  `orderBy` has its own properties in order; `limit` is given when it is a number. -/
structure SelectInfo where
  fields : List String := []
  limit : Option ℤ := none
  orderBy : Option (List (String × String)) := none

/-- A call of `get` or `find`; `docInfo` may be left out. -/
structure SelectCall (V : Type) where
  doc : Document V
  docInfo : Option SelectInfo

namespace SelectCall

def info (c : SelectCall V) : SelectInfo := c.docInfo.getD {}

/-- `getPropertiesInfo(docKeys, null, doc, mappingInfo)` -/
def propertiesInfo (mappingInfo : ModelMappingInfo) (c : SelectCall V) : List PropertyInfo :=
  getPropertiesInfo c.doc.keys [] c.doc mappingInfo

/-- `getPropertiesInfo(utils.emptyArray, docInfo, doc, mappingInfo)` -/
def fieldsInfo (mappingInfo : ModelMappingInfo) (c : SelectCall V) : List PropertyInfo :=
  getPropertiesInfo [] c.info.fields c.doc mappingInfo

end SelectCall

inductive SelectError where
  | expectedKeys
  | order (value : String)
  | tableNotRetrieved (name : String)
  | noTableMatches (allPKsDefined : Bool) (filter fields orderBy : List String)
  /-- A `TypeError` of the runtime. -/
  | type
  /-- The `SyntaxError` of a script. -/
  | script
deriving DecidableEq

def SelectError.message : SelectError → String
  | expectedKeys => "Expected object with keys"
  | order value => "Order must be either \"ASC\" or \"DESC\", obtained: " ++ value
  | tableNotRetrieved name => "Table \"" ++ name ++ "\" could not be retrieved"
  | noTableMatches allPKsDefined filter fields orderBy =>
      "No table matches the filter (" ++ (if allPKsDefined then "all PKs have to be specified" else "PKs") ++ "): [" ++
        ",".intercalate filter ++ "]" ++
        (if fields = [] then "" else "; fields: [" ++ ",".intercalate fields ++ "]") ++
        if orderBy = [] then "" else "; orderBy: [" ++ ",".intercalate orderBy ++ "]"
  | type => "TypeError"
  | script => "SyntaxError"

/-! ### Orders -/

namespace DocInfoAdapter

/-- `toUpperCase`, as far as the capital letters of the orders go: `s` and `ſ` have the same one. -/
def toUpperCase (value : String) : String :=
  String.ofList (value.toList.map fun c => if c = 'ſ' then 'S' else c.toUpper)

def adaptOrder (mappingInfo : ModelMappingInfo) (order : String × String) : Except SelectError (String × String) :=
  let ordering := toUpperCase order.2
  if ordering ≠ "ASC" ∧ ordering ≠ "DESC" then .error (.order order.2)
  else .ok (mappingInfo.getColumnName order.1, ordering)

/-- The columns with their orders. -/
def adaptOrderBy (docInfo : SelectInfo) (mappingInfo : ModelMappingInfo) :
    Except SelectError (List (String × String)) :=
  (docInfo.orderBy.getD []).mapM (adaptOrder mappingInfo)

end DocInfoAdapter

/-! ### Tables -/

namespace ObjectSelector

/-- Whether the columns to order by are the first clustering keys. -/
def followsClusteringKeys (table : TableMetadata) (orderByColumns : List (String × String)) : Bool :=
  orderByColumns.zipIdx.all fun (order, index) => table.clusteringKeys[index]? = some order.1

/-- What `getForSelect` checks for a table. -/
def isForSelect (allPKsDefined : Bool) (propertiesInfo fieldsInfo : List PropertyInfo)
    (orderByColumns : List (String × String)) (table : TableMetadata) : Bool :=
  if keysAreIncluded table.partitionKeys propertiesInfo ≠ .all then false
  else if allPKsDefined ∧ keysAreIncluded table.clusteringKeys propertiesInfo ≠ .all then false
  else if table.partitionKeys.length < propertiesInfo.length ∧
      ¬ propertiesInfo.all fun p => p.columnName ∈ table.partitionKeys ∨ p.columnName ∈ table.clusteringKeys then false
  else (fieldsInfo.all fun p => hasColumn table p.columnName) && followsClusteringKeys table orderByColumns

/-- The loop over the tables, each with its name in the error for a missing one. -/
def firstTable (isFor : TableMetadata → Bool) (noTable : SelectError) :
    List (Option TableMetadata × String) → Except SelectError TableMetadata
  | [] => .error noTable
  | (none, name) :: _ => .error (.tableNotRetrieved name)
  | (some table, _) :: tables => if isFor table then .ok table else firstTable isFor noTable tables

/-- The tables and views of the model. -/
def tablesAndViews (getTable getMaterializedView : String → String → Option TableMetadata)
    (info : ModelMappingInfo) : List (Option TableMetadata × String) :=
  info.tables.map fun t =>
    (if t.isView then getMaterializedView info.keyspace t.name else getTable info.keyspace t.name, t.name)

/-- `getForSelect`; the name of the table is its result. -/
def getForSelect (getTable getMaterializedView : String → String → Option TableMetadata) (info : ModelMappingInfo)
    (allPKsDefined : Bool) (propertiesInfo fieldsInfo : List PropertyInfo) (orderByColumns : List (String × String)) :
    Except SelectError TableMetadata :=
  firstTable (isForSelect allPKsDefined propertiesInfo fieldsInfo orderByColumns)
    (.noTableMatches allPKsDefined (propertiesInfo.map (·.columnName)) (fieldsInfo.map (·.columnName))
      (orderByColumns.map (·.1)))
    (tablesAndViews getTable getMaterializedView info)

end ObjectSelector

/-! ### Statements -/

namespace QueryGenerator

def getSelect (tableName keyspace : String) (propertiesInfo fieldsInfo : List PropertyInfo)
    (orderByColumns : List (String × String)) (limit : Bool) : String :=
  "SELECT " ++ (if fieldsInfo = [] then "*" else ", ".intercalate (fieldsInfo.map fun p => quoted p.columnName)) ++
    " FROM " ++ keyspace ++ "." ++ tableName ++
    (if propertiesInfo = [] then "" else " WHERE " ++ getConditionWithOperators propertiesInfo) ++
    (if orderByColumns = [] then "" else
      " ORDER BY " ++ ", ".intercalate (orderByColumns.map fun order => quoted order.1 ++ " " ++ order.2)) ++
    if limit then " LIMIT ?" else ""

/-- The script of `selectParamsGetter`. -/
def selectParamsText (propertiesInfo : List PropertyInfo) (limit : Bool) : String :=
  scriptText "getParametersSelect" (valueGetterExpression propertiesInfo "doc" ++
    if limit then (if propertiesInfo = [] then "" else ", ") ++ "docInfo['limit']" else "")

def selectParamsGetter (runInThisContext : String → Option (SelectCall V → P)) (propertiesInfo : List PropertyInfo)
    (limit : Bool) : Except SelectError (SelectCall V → P) :=
  match runInThisContext (selectParamsText propertiesInfo limit) with
  | some paramsGetter => .ok paramsGetter
  | none => .error .script

end QueryGenerator

/-! ### Keys -/

namespace Cache

/-- The tokens of `docInfo.orderBy`. -/
def yieldOrderBy : Option (List (String × String)) → List Token
  | none => []
  | some orderBy => .str "|o|" :: orderBy.flatMap fun order => [.str order.1, .str order.2]

/-- `_getSelectDocInfo` -/
def getSelectDocInfo (docInfo : SelectInfo) : List Token :=
  yieldFields docInfo.fields ++ (mark docInfo.limit.isSome "|l|" ++ yieldOrderBy docInfo.orderBy)

def getSelectKey (c : SelectCall V) : List Token := yieldKeyAndOperators c.doc ++ getSelectDocInfo c.info

/-- The markers in the key of a select. -/
def selectMarkers : List String := ["|f|", "|l|", "|o|"]

/-- The tokens of a key of a select that are no property names. -/
def selectReserved : List String := reserved ++ selectMarkers

/-- The names of a select are none of the other tokens. -/
structure PlainSelect (c : SelectCall V) : Prop where
  doc : ∀ name ∈ c.doc.keys, name ∉ selectReserved
  fields : ∀ name ∈ c.info.fields, name ∉ selectReserved

/-! ### Reading a key -/

/-- Two parts can be told apart at the first element that is no part of the first one. -/
theorem append_inj_of_stop {α : Type} {stop : α → Prop} : ∀ {xs ys u v : List α}, (∀ a ∈ xs, ¬ stop a) →
    (∀ a ∈ ys, ¬ stop a) → (∀ a ∈ u.head?, stop a) → (∀ a ∈ v.head?, stop a) → xs ++ u = ys ++ v → xs = ys ∧ u = v
  | [], [], _, _, _, _, _, _, h => ⟨rfl, h⟩
  | [], y :: _, _, _, _, hy, hu, _, h => by
      rw [List.nil_append] at h
      rw [h] at hu
      exact absurd (hu y rfl) (hy y (List.mem_cons_self ..))
  | x :: _, [], _, _, hx, _, _, hv, h => by
      rw [List.nil_append] at h
      rw [← h] at hv
      exact absurd (hv x rfl) (hx x (List.mem_cons_self ..))
  | x :: xs, y :: ys, u, v, hx, hy, hu, hv, h => by
      obtain ⟨rfl, h'⟩ := List.cons.inj h
      obtain ⟨rfl, rfl⟩ := append_inj_of_stop (fun a ha => hx a (List.mem_cons_of_mem _ ha))
        (fun a ha => hy a (List.mem_cons_of_mem _ ha)) hu hv h'
      exact ⟨rfl, rfl⟩

/-- A marker of a select. -/
def IsSelectMarker (t : Token) : Prop := ∃ m ∈ selectMarkers, t = .str m

theorem not_isSelectMarker_name {name : String} (h : name ∉ selectReserved) : ¬ IsSelectMarker (.str name) := by
  rintro ⟨m, hm, heq⟩
  cases heq
  exact h (List.mem_append_right _ hm)

theorem not_isSelectMarker_yieldOperators (o : Operators) : ∀ t ∈ yieldOperators o, ¬ IsSelectMarker t := by
  have hkey {k : String} (hk : k ∉ selectMarkers) : ¬ IsSelectMarker (.str k) := by
    rintro ⟨m, hm, heq⟩
    cases heq
    exact hk hm
  induction o with
  | none => exact fun t ht => absurd ht (List.not_mem_nil)
  | single op =>
      intro t ht
      rw [List.mem_singleton.1 ht]
      cases op <;> exact hkey (by decide)
  | and a b iha ihb =>
      intro t ht
      simp only [yieldOperators, List.mem_cons, List.mem_append] at ht
      rcases ht with rfl | ht | rfl | ht
      · exact hkey (by decide)
      · exact iha t ht
      · exact hkey (by decide)
      · exact ihb t ht

theorem not_isSelectMarker_doc {doc : Document V} (h : ∀ name ∈ doc.keys, name ∉ selectReserved) :
    ∀ t ∈ yieldKeyAndOperators doc, ¬ IsSelectMarker t := by
  intro t ht
  obtain ⟨p, hp, ht⟩ := List.mem_flatMap.1 ht
  rcases List.mem_cons.1 ht with rfl | ht
  · exact not_isSelectMarker_name (h p.1 (List.mem_map_of_mem hp))
  · exact not_isSelectMarker_yieldOperators _ t ht

/-- What follows the fields begins with a marker. -/
theorem isSelectMarker_head (limit : Bool) (orderBy : Option (List (String × String))) :
    ∀ t ∈ (mark limit "|l|" ++ yieldOrderBy orderBy).head?, IsSelectMarker t := by
  cases limit with
  | true =>
      rintro t ⟨⟩
      exact ⟨"|l|", by decide, rfl⟩
  | false =>
      cases orderBy with
      | none => rintro t ⟨⟩
      | some orderBy =>
          rintro t ⟨⟩
          exact ⟨"|o|", by decide, rfl⟩

theorem isSelectMarker_head_docInfo (docInfo : SelectInfo) :
    ∀ t ∈ (getSelectDocInfo docInfo).head?, IsSelectMarker t := by
  rw [getSelectDocInfo, yieldFields]
  split_ifs
  · exact isSelectMarker_head _ _
  · rintro t ⟨⟩
    exact ⟨"|f|", by decide, rfl⟩

theorem orders_inj : ∀ {xs ys : List (String × String)},
    (xs.flatMap fun order => [Token.str order.1, .str order.2]) = ys.flatMap (fun order => [.str order.1, .str order.2]) →
      xs = ys
  | [], [], _ => rfl
  | [], _ :: _, h => by cases h
  | _ :: _, [], h => by cases h
  | (_, _) :: xs, (_, _) :: ys, h => by
      simp only [List.flatMap_cons, List.cons_append, List.nil_append, List.cons.injEq, Token.str.injEq] at h
      obtain ⟨rfl, rfl, h⟩ := h
      rw [orders_inj h]

theorem yieldOrderBy_inj {a b : Option (List (String × String))} (h : yieldOrderBy a = yieldOrderBy b) : a = b := by
  cases a <;> cases b
  · rfl
  · cases h
  · cases h
  · exact congrArg some (orders_inj (List.cons.inj h).2)

theorem fields_inj {xs ys : List String} (hx : ∀ name ∈ xs, name ∉ selectReserved)
    (hy : ∀ name ∈ ys, name ∉ selectReserved) {l l' : Bool} {o o' : Option (List (String × String))}
    (h : yieldFields xs ++ (mark l "|l|" ++ yieldOrderBy o) = yieldFields ys ++ (mark l' "|l|" ++ yieldOrderBy o')) :
    xs = ys ∧ mark l "|l|" ++ yieldOrderBy o = mark l' "|l|" ++ yieldOrderBy o' := by
  have hnames {names : List String} (hnames : ∀ name ∈ names, name ∉ selectReserved) :
      ∀ t ∈ names.map Token.str, ¬ IsSelectMarker t := by
    intro t ht
    obtain ⟨name, hname, rfl⟩ := List.mem_map.1 ht
    exact not_isSelectMarker_name (hnames name hname)
  have hnot (l : Bool) (o : Option (List (String × String))) (ts : List Token) :
      mark l "|l|" ++ yieldOrderBy o ≠ .str "|f|" :: ts := by
    cases l <;> cases o <;> simp [mark, yieldOrderBy]
  unfold yieldFields at h
  split_ifs at h with h₁ h₂ h₂
  · exact ⟨h₁.trans h₂.symm, h⟩
  · exact absurd h (hnot _ _ _)
  · exact absurd h.symm (hnot _ _ _)
  · obtain ⟨heq, hrest⟩ := append_inj_of_stop (hnames hx) (hnames hy) (isSelectMarker_head _ _)
      (isSelectMarker_head _ _) (List.cons.inj h).2
    exact ⟨List.map_injective_iff.2 (fun _ _ => Token.str.inj) heq, hrest⟩

/-- What the statement of a select depends on is the same. -/
structure SameShape (c c' : SelectCall V) : Prop where
  items : operatorItems c.doc = operatorItems c'.doc
  fields : c.info.fields = c'.info.fields
  limit : c.info.limit.isSome = c'.info.limit.isSome
  orderBy : c.info.orderBy = c'.info.orderBy

/-- A key of a select tells everything but the assignments. -/
theorem selectKey_inj {c c' : SelectCall V} (hc : PlainSelect c) (hc' : PlainSelect c')
    (h : getSelectKey c = getSelectKey c') : SameShape c c' := by
  have hplain {doc : Document V} (hdoc : ∀ name ∈ doc.keys, name ∉ selectReserved) :
      PlainNames ((operatorItems doc).map Prod.fst) :=
    plainNames_operatorItems fun name hname hmem => hdoc name hname (List.mem_append_left _ hmem)
  have hnil : AtMarker [] := trivial
  obtain ⟨hdoc, hinfo⟩ := append_inj_of_stop (not_isSelectMarker_doc hc.doc) (not_isSelectMarker_doc hc'.doc)
    (isSelectMarker_head_docInfo _) (isSelectMarker_head_docInfo _) h
  rw [yieldKeyAndOperators_eq, yieldKeyAndOperators_eq, ← List.append_nil (itemTokens _ _),
    ← List.append_nil (itemTokens _ (operatorItems c'.doc))] at hdoc
  obtain ⟨hitems, -⟩ := itemTokens_inj operators_inj (hplain hc.doc) (hplain hc'.doc) hnil hnil hdoc
  obtain ⟨hfields, hrest⟩ := fields_inj hc.fields hc'.fields hinfo
  have hnot (o : Option (List (String × String))) (ts : List Token) : yieldOrderBy o ≠ .str "|l|" :: ts := by
    cases o <;> simp [yieldOrderBy]
  obtain ⟨hlimit, horder⟩ := mark_inj (hnot _) (hnot _) hrest
  exact ⟨hitems, hfields, hlimit, yieldOrderBy_inj horder⟩

/-- A key of an insert tells the names and the options. -/
theorem insertKey_inj {c c' : Call V} (hc : PlainNames c.doc.keys) (hc' : PlainNames c'.doc.keys)
    (hf : PlainNames c.info.fields) (hf' : PlainNames c'.info.fields) (h : getInsertKey c = getInsertKey c') :
    c.doc.keys = c'.doc.keys ∧ c.info.fields = c'.info.fields ∧ c.info.ttl.isSome = c'.info.ttl.isSome ∧
      c.info.ifNotExists = c'.info.ifNotExists := by
  have ht (a b : Bool) : AtMarker (mark a "|t|" ++ mark b "|e|") :=
    atMarker_mark (by decide) (atMarker_mark_last (by decide))
  have hne (b : Bool) {m : String} (hm : m ≠ "|e|") : ∀ us, mark b "|e|" ≠ .str m :: us := mark_ne hm
  rw [getInsertKey, getInsertKey, List.append_assoc (yieldFields _), List.append_assoc (yieldFields _)] at h
  obtain ⟨hkeys, hrest⟩ := names_inj hc hc' (atMarker_yieldFields (ht _ _)) (atMarker_yieldFields (ht _ _)) h
  obtain ⟨hfields, hrest⟩ := yieldFields_inj hf hf' (ht _ _) (ht _ _)
    (ne_marker (by decide) (hne _ (by decide))) (ne_marker (by decide) (hne _ (by decide))) hrest
  obtain ⟨httl, hrest⟩ := mark_inj (hne _ (by decide)) (hne _ (by decide)) hrest
  exact ⟨hkeys, hfields, httl, mark_inj_last hrest⟩

end Cache

/-! ### The key decides -/

section Statements

open PropertyInfo ObjectSelector QueryGenerator

/-- The properties of a call but for the assignments, which a select and an insert do not look at. -/
theorem forget_getPropertiesInfo {doc doc' : Document V} (h : ∀ name, doc.operatorsAt name = doc'.operatorsAt name)
    (docKeys fields : List String) (info : ModelMappingInfo) :
    (getPropertiesInfo docKeys fields doc info).map forget = (getPropertiesInfo docKeys fields doc' info).map forget := by
  simp only [getPropertiesInfo, List.map_map, Function.comp_def, forget, h]

theorem getSelect_forget (tableName keyspace : String) (ps fields : List PropertyInfo)
    (orderByColumns : List (String × String)) (limit : Bool) :
    getSelect tableName keyspace (ps.map forget) (fields.map forget) orderByColumns limit =
      getSelect tableName keyspace ps fields orderByColumns limit := by
  unfold getSelect getConditionWithOperators
  rw [map_forget fields fun _ => rfl, map_forget ps fun _ => rfl]
  simp only [forget_eq_nil]

theorem isForSelect_forget (allPKsDefined : Bool) (ps fields : List PropertyInfo)
    (orderByColumns : List (String × String)) (table : TableMetadata) :
    isForSelect allPKsDefined (ps.map forget) (fields.map forget) orderByColumns table =
      isForSelect allPKsDefined ps fields orderByColumns table := by
  have hall : ((ps.map forget).all fun p => p.columnName ∈ table.partitionKeys ∨ p.columnName ∈ table.clusteringKeys) =
      ps.all fun p => p.columnName ∈ table.partitionKeys ∨ p.columnName ∈ table.clusteringKeys := by
    rw [List.all_map]
    rfl
  unfold isForSelect
  rw [hall]
  simp only [keysAreIncluded_forget, List.length_map, all_hasColumn_forget]

theorem getForSelect_forget (getTable getMaterializedView : String → String → Option TableMetadata)
    (info : ModelMappingInfo) (allPKsDefined : Bool) (ps fields : List PropertyInfo)
    (orderByColumns : List (String × String)) :
    getForSelect getTable getMaterializedView info allPKsDefined (ps.map forget) (fields.map forget) orderByColumns =
      getForSelect getTable getMaterializedView info allPKsDefined ps fields orderByColumns := by
  unfold getForSelect
  rw [columnNames_forget, columnNames_forget]
  exact congrArg (firstTable · _ _) (funext fun table => isForSelect_forget ..)

theorem selectParamsText_forget (ps : List PropertyInfo) (limit : Bool) :
    selectParamsText (ps.map forget) limit = selectParamsText ps limit := by
  unfold selectParamsText
  simp only [valueGetterExpression_forget, forget_eq_nil]

theorem selectParamsGetter_forget (runInThisContext : String → Option (SelectCall V → P)) (ps : List PropertyInfo)
    (limit : Bool) :
    selectParamsGetter runInThisContext (ps.map forget) limit = selectParamsGetter runInThisContext ps limit := by
  unfold selectParamsGetter
  rw [selectParamsText_forget]

namespace Cache.SameShape

variable {c c' : SelectCall V} (h : Cache.SameShape c c') (info : ModelMappingInfo)
include h

theorem propertiesInfo : (c.propertiesInfo info).map forget = (c'.propertiesInfo info).map forget := by
  rw [SelectCall.propertiesInfo, SelectCall.propertiesInfo, Cache.keys_eq_of_operatorItems h.items]
  exact forget_getPropertiesInfo (Cache.operatorsAt_eq_of_operatorItems h.items) _ _ _

theorem fieldsInfo : (c.fieldsInfo info).map forget = (c'.fieldsInfo info).map forget := by
  rw [SelectCall.fieldsInfo, SelectCall.fieldsInfo, h.fields]
  exact forget_getPropertiesInfo (Cache.operatorsAt_eq_of_operatorItems h.items) _ _ _

theorem adaptOrderBy : DocInfoAdapter.adaptOrderBy c.info info = DocInfoAdapter.adaptOrderBy c'.info info := by
  rw [DocInfoAdapter.adaptOrderBy, DocInfoAdapter.adaptOrderBy, h.orderBy]

theorem getSelect (tableName : String) (orderByColumns : List (String × String)) :
    QueryGenerator.getSelect tableName info.keyspace (c.propertiesInfo info) (c.fieldsInfo info) orderByColumns
        c.info.limit.isSome =
      QueryGenerator.getSelect tableName info.keyspace (c'.propertiesInfo info) (c'.fieldsInfo info) orderByColumns
        c'.info.limit.isSome := by
  rw [← getSelect_forget, h.propertiesInfo, h.fieldsInfo, h.limit, getSelect_forget]

theorem selectParamsGetter (runInThisContext : String → Option (SelectCall V → P)) :
    QueryGenerator.selectParamsGetter runInThisContext (c.propertiesInfo info) c.info.limit.isSome =
      QueryGenerator.selectParamsGetter runInThisContext (c'.propertiesInfo info) c'.info.limit.isSome := by
  rw [← selectParamsGetter_forget, h.propertiesInfo, h.limit, selectParamsGetter_forget]

end Cache.SameShape

/-- The document holds no query operators. -/
def NoOperators (doc : Document V) : Prop := ∀ p ∈ doc.properties, p.2.operators = .none

theorem NoOperators.at {doc : Document V} (h : NoOperators doc) (name : String) : doc.operatorsAt name = .none := by
  rw [Document.operatorsAt, Document.get_eq_lookup]
  cases hv : doc.properties.lookup name with
  | none => rfl
  | some v =>
      obtain ⟨before, after, hproperties, -⟩ := List.lookup_eq_some_iff.1 hv
      exact h (name, v) (by simp [hproperties])

/-- Selects and inserts with one key have the same statement for every table. -/
theorem statement_eq_of_key :
    (∀ (mappingInfo : ModelMappingInfo) (c c' : SelectCall V), Cache.PlainSelect c → Cache.PlainSelect c' →
      Cache.getSelectKey c = Cache.getSelectKey c' →
      DocInfoAdapter.adaptOrderBy c.info mappingInfo = DocInfoAdapter.adaptOrderBy c'.info mappingInfo ∧
      ∀ (tableName : String) (orderByColumns : List (String × String))
        (runInThisContext : String → Option (SelectCall V → P)),
        getSelect tableName mappingInfo.keyspace (c.propertiesInfo mappingInfo) (c.fieldsInfo mappingInfo)
            orderByColumns c.info.limit.isSome =
          getSelect tableName mappingInfo.keyspace (c'.propertiesInfo mappingInfo) (c'.fieldsInfo mappingInfo)
            orderByColumns c'.info.limit.isSome ∧
        selectParamsGetter runInThisContext (c.propertiesInfo mappingInfo) c.info.limit.isSome =
          selectParamsGetter runInThisContext (c'.propertiesInfo mappingInfo) c'.info.limit.isSome) ∧
    ∀ (h : MappingHandler V P) (c c' : Call V), Cache.PlainNames c.doc.keys → Cache.PlainNames c'.doc.keys →
      Cache.PlainNames c.info.fields → Cache.PlainNames c'.info.fields → NoOperators c.doc → NoOperators c'.doc →
      Cache.getInsertKey c = Cache.getInsertKey c' → ∀ table,
        getInsert h.runInThisContext table h.info.keyspace (h.propertiesInfo c) c.info.ttl.isSome c.info.ifNotExists =
          getInsert h.runInThisContext table h.info.keyspace (h.propertiesInfo c') c'.info.ttl.isSome
            c'.info.ifNotExists := by
  constructor
  · intro mappingInfo c c' hc hc' hkey
    have hshape := Cache.selectKey_inj hc hc' hkey
    exact ⟨hshape.adaptOrderBy mappingInfo, fun tableName orderByColumns runInThisContext =>
      ⟨hshape.getSelect mappingInfo tableName orderByColumns, hshape.selectParamsGetter mappingInfo runInThisContext⟩⟩
  · intro h c c' hc hc' hf hf' hno hno' hkey table
    obtain ⟨hkeys, hfields, httl, hexists⟩ := Cache.insertKey_inj hc hc' hf hf' hkey
    have hprops : (h.propertiesInfo c).map forget = (h.propertiesInfo c').map forget := by
      rw [MappingHandler.propertiesInfo, MappingHandler.propertiesInfo, hkeys, hfields]
      exact forget_getPropertiesInfo (fun name => by rw [hno.at, hno'.at]) _ _ _
    rw [← getInsert_forget, hprops, getInsert_forget, httl, hexists]

/-- The videos of a user that were added between two dates, the latest first. -/
def addedBetween (userId low high : ℕ) : SelectCall ℕ where
  doc := ⟨[("userId", .plain userId), ("addedDate", .and (.operator .gte low) (.operator .lt high))], by simp⟩
  docInfo := some { fields := ["name"], orderBy := some [("addedDate", "desc")] }

def addVideo (videoId userId : ℕ) : Call ℕ where
  doc := ⟨[("videoId", .plain videoId), ("userId", .plain userId)], by simp⟩
  docInfo := some { ifNotExists := true }

theorem plainSelect_addedBetween (userId low high : ℕ) : Cache.PlainSelect (addedBetween userId low high) where
  doc := (by decide : ∀ name ∈ ["userId", "addedDate"], name ∉ Cache.selectReserved)
  fields := (by decide : ∀ name ∈ ["name"], name ∉ Cache.selectReserved)

theorem noOperators_addVideo (videoId userId : ℕ) : NoOperators (addVideo videoId userId).doc := by
  simp [NoOperators, addVideo, DocValue.operators]

/-- A handler of videos that runs no script. -/
def videos : MappingHandler ℕ ℕ where
  info := { keyspace := "ks", tables := [⟨"videos", false⟩], mappings := id, columns := [] }
  getTable _ _ := none
  runInThisContext _ := none

/-- Dates and identifiers do not show in the statements. -/
theorem statement_eq_videos :
    getSelect "videos" "ks" ((addedBetween 1 2 3).propertiesInfo videos.info)
        ((addedBetween 1 2 3).fieldsInfo videos.info) [("addedDate", "DESC")] false =
      getSelect "videos" "ks" ((addedBetween 4 5 6).propertiesInfo videos.info)
        ((addedBetween 4 5 6).fieldsInfo videos.info) [("addedDate", "DESC")] false ∧
    ∀ table, getInsert videos.runInThisContext table "ks" (videos.propertiesInfo (addVideo 1 2)) false true =
      getInsert videos.runInThisContext table "ks" (videos.propertiesInfo (addVideo 3 4)) false true :=
  ⟨((statement_eq_of_key.1 videos.info (addedBetween 1 2 3) (addedBetween 4 5 6) (plainSelect_addedBetween 1 2 3)
      (plainSelect_addedBetween 4 5 6) rfl).2 "videos" [("addedDate", "DESC")]
      (fun _ => (none : Option (SelectCall ℕ → ℕ)))).1,
    statement_eq_of_key.2 videos (addVideo 1 2) (addVideo 3 4)
      (by decide : Cache.PlainNames ["videoId", "userId"]) (by decide : Cache.PlainNames ["videoId", "userId"])
      (by decide : Cache.PlainNames []) (by decide : Cache.PlainNames []) (noOperators_addVideo 1 2)
      (noOperators_addVideo 3 4) rfl⟩

end Statements

end CqlDriver.Mapping
