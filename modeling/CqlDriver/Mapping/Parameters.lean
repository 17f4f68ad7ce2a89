import CqlDriver.Lib.Fallible
import CqlDriver.Mapping.Bindings
import CqlDriver.Mapping.ValidStatements

/-! # Placeholders and parameters (`lib/mapping/query-generator.js`)

The text of a statement and the script for its parameters come from two recursions, each with filters and an order of
its own.  Both are told by the bindings of the statement: it has their placeholders, and its script returns their
values in the same order (`parameters_agree`). -/

namespace CqlDriver.Mapping

variable {V : Type}

open Placeholders (Target Yields yields_plain takes_plain)
open Script QueryGenerator

/-! ### Statements -/

/-- A statement and the parameters for it: as many placeholders as values, and for each placeholder the value that
belongs to it. -/
structure Binds (query : String) (params : Option (List (Value V))) (bindings : List (Binding V)) : Prop where
  count : ∃ values, params = some values ∧ Placeholders.count query = values.length
  targets : Placeholders.targets query = bindings.map Prod.fst
  values : params = some (bindings.map Prod.snd)

theorem Binds.of_targets {query : String} {params : Option (List (Value V))} {bindings : List (Binding V)}
    (htargets : Placeholders.targets query = bindings.map Prod.fst) (hvalues : params = some (bindings.map Prod.snd)) :
    Binds query params bindings := by
  refine ⟨⟨_, hvalues, ?_⟩, htargets, hvalues⟩
  rw [← Placeholders.length_targets, htargets, List.length_map, List.length_map]

/-- The arguments that a script of a select gets. -/
def SelectCall.arguments (info : ModelMappingInfo) (c : SelectCall V) : Arguments V where
  doc := c.doc
  docInfo := c.docInfo.map fun docInfo => ⟨none, docInfo.limit, .empty⟩
  mappingInfo := info

def Call.arguments (info : ModelMappingInfo) (c : Call V) : Arguments V where
  doc := c.doc
  docInfo := c.docInfo.map fun docInfo => ⟨docInfo.ttl, none, docInfo.when⟩
  mappingInfo := info

/-- The scripts that `Script.run` reads run as it says. -/
def Runs {C : Type} (runInThisContext : String → Option (C → Option (List (Value V)))) (arguments : C → Arguments V) :
    Prop :=
  ∀ text paramsGetter, Script.run arguments text = some paramsGetter → runInThisContext text = some paramsGetter

section Plain

variable {p : PropertyInfo} (hname : PlainName p.propertyName) {path : Path}
include hname

theorem plain_convertedExpr (hpath : path.Plain) : (convertedExpr p path).Plain := by
  unfold convertedExpr
  split_ifs
  · exact ⟨hname, hpath⟩
  · exact hpath

theorem plain_operandExpr (op : Operator) (hpath : path.Plain) : (operandExpr p op path).Plain := by
  unfold operandExpr
  split_ifs
  · exact ⟨hname, hpath⟩
  · exact ⟨hname, hpath⟩
  · exact hpath

theorem plain_conditionExprs (hpath : path.Plain) (operators : Operators) :
    ∀ e ∈ conditionExprs p path operators, e.Plain := by
  induction operators generalizing path with
  | none =>
      intro e he
      rw [List.mem_singleton.1 he]
      exact plain_convertedExpr hname hpath
  | single op =>
      intro e he
      rw [List.mem_singleton.1 he]
      exact plain_operandExpr hname op hpath
  | and value0 value1 ih₀ ih₁ =>
      intro e he
      rcases List.mem_append.1 he with he | he
      · have h₀ : (Path.item path false).Plain := hpath
        exact ih₀ h₀ e he
      · have h₁ : (Path.item path true).Plain := hpath
        exact ih₁ h₁ e he

theorem plain_assignmentExpr : (assignmentExpr p).Plain := by
  unfold assignmentExpr
  split_ifs
  · exact plain_convertedExpr hname hname
  · exact plain_convertedExpr hname hname

end Plain

/-- The names of the properties stand for themselves in a script. -/
def PlainProperties (ps : List PropertyInfo) : Prop := ∀ p ∈ ps, PlainName p.propertyName

instance (ps : List PropertyInfo) : Decidable (PlainProperties ps) :=
  inferInstanceAs (Decidable (∀ p ∈ ps, PlainName p.propertyName))

theorem plain_doc (name : String) (h : PlainName name) : (Path.doc name).Plain := h

theorem plain_when (name : String) (h : PlainName name) : (Path.when name).Plain := h

theorem PlainProperties.exprs {ps : List PropertyInfo} (h : PlainProperties ps) {source : String → Path}
    (hsource : ∀ name, PlainName name → (source name).Plain) : ∀ e ∈ ps.flatMap (exprsAt · source), e.Plain := by
  intro e he
  obtain ⟨p, hp, he⟩ := List.mem_flatMap.1 he
  exact plain_conditionExprs (h p hp) (hsource _ (h p hp)) _ e he

theorem PlainProperties.assignments {ps : List PropertyInfo} (h : PlainProperties ps) :
    ∀ e ∈ ps.map assignmentExpr, e.Plain := by
  intro e he
  obtain ⟨p, hp, rfl⟩ := List.mem_map.1 he
  exact plain_assignmentExpr (h p hp)

/-- The expression of an option, if it is given. -/
def optionExprs (o : NumberOption) (given : Bool) : List Expr := if given then [.path (.option o)] else []

theorem plain_optionExprs (o : NumberOption) (given : Bool) : ∀ e ∈ optionExprs o given, e.Plain := by
  cases given with
  | false => exact fun e he => by cases he
  | true =>
      intro e he
      rw [List.mem_singleton.1 he]
      trivial

theorem flatMap_exprsAt_ne_nil {ps : List PropertyInfo} (h : ps ≠ []) (source : String → Path) :
    ps.flatMap (exprsAt · source) ≠ [] := by
  obtain ⟨p, hp⟩ := List.exists_mem_of_ne_nil ps h
  exact fun hnil => conditionExprs_ne_nil p _ _ (List.flatMap_eq_nil_iff.1 hnil p hp)

theorem eval_exprs {args : Arguments V} {obj : Document V} {ps : List PropertyInfo}
    (hps : ∀ p ∈ ps, Describes obj args.mappingInfo p) {source : String → Path}
    (hsource : ∀ name, (source name).eval args = some (.ofRead name (JsObject.get obj.properties name))) :
    (ps.flatMap (exprsAt · source)).mapM (Expr.eval args) = some ((ps.flatMap (bindingsAt · obj)).map Prod.snd) := by
  rw [List.map_flatMap]
  exact mapM_flatMap fun p hp => eval_bindingsAt (hps p hp) hsource

theorem eval_optionExprs {args : Arguments V} {o : NumberOption} (target : Target) {option : Option ℤ}
    (h : ∀ n ∈ option, (Path.option o).eval args = some (.number n)) :
    (optionExprs o option.isSome).mapM (Expr.eval args) = some ((optionBinding (V := V) target option).map Prod.snd) := by
  cases option with
  | none => rfl
  | some n =>
      have hn : (Expr.path (.option o)).eval args = some (.number n) := h n rfl
      simp only [optionExprs, Option.isSome_some, if_true, List.mapM_cons, hn]
      rfl

theorem mapM_append_some {α β : Type} {f : α → Option β} {xs ys : List α} {us vs : List β} (hx : xs.mapM f = some us)
    (hy : ys.mapM f = some vs) : (xs ++ ys).mapM f = some (us ++ vs) := by
  rw [List.mapM_append, hx, hy]
  rfl

/-! ### Selects -/

section Select

variable (info : ModelMappingInfo) (c : SelectCall V)

def selectBindings : List (Binding V) :=
  (c.propertiesInfo info).flatMap (bindingsAt · c.doc) ++ optionBinding .limit c.info.limit

def selectExprs : List Expr :=
  (c.propertiesInfo info).flatMap (exprsAt · .doc) ++ optionExprs .limit c.info.limit.isSome

theorem selectParamsText_eq : selectParamsText (c.propertiesInfo info) c.info.limit.isSome =
    scriptText "getParametersSelect" (joined (selectExprs info c)) := by
  unfold selectParamsText selectExprs optionExprs
  rw [valueGetterExpression_doc]
  cases c.info.limit.isSome with
  | false => simp
  | true =>
      by_cases hnil : c.propertiesInfo info = []
      · rw [hnil]
        rfl
      · rw [if_pos rfl, if_pos rfl, if_neg hnil, joined_append (flatMap_exprsAt_ne_nil hnil .doc) (by simp),
          joined_singleton, String.append_assoc]
        rfl

theorem eval_selectExprs :
    (selectExprs info c).mapM (Expr.eval (c.arguments info)) = some ((selectBindings info c).map Prod.snd) := by
  have hprops : ((c.propertiesInfo info).flatMap (exprsAt · .doc)).mapM (Expr.eval (c.arguments info)) =
      some (((c.propertiesInfo info).flatMap (bindingsAt · c.doc)).map Prod.snd) :=
    eval_exprs (describes_getPropertiesInfo c.doc.keys [] c.doc info) fun _ => rfl
  rw [selectBindings, List.map_append]
  refine mapM_append_some hprops (eval_optionExprs .limit fun n hn => ?_)
  cases hdocInfo : c.docInfo with
  | none => simp [SelectCall.info, hdocInfo] at hn
  | some docInfo =>
      have hlimit : docInfo.limit = some n := by simpa [SelectCall.info, hdocInfo] using hn
      simp [Path.eval, SelectCall.arguments, hdocInfo, readOption, hlimit]

theorem yields_getSelect {tableName : String} {orderByColumns : List (String × String)}
    (htable : Placeholders.Plain tableName.toList) (hkeyspace : Placeholders.Plain info.keyspace.toList)
    (hprops : QuotableColumns (c.propertiesInfo info)) (hfields : QuotableColumns (c.fieldsInfo info))
    (horder : ∀ order ∈ orderByColumns, Quotable order.1 ∧ Placeholders.Plain order.2.toList) :
    Yields (getSelect tableName info.keyspace (c.propertiesInfo info) (c.fieldsInfo info) orderByColumns
      c.info.limit.isSome) ((selectBindings info c).map Prod.fst) := by
  have hcolumns : Yields (if c.fieldsInfo info = [] then "*" else
      ", ".intercalate ((c.fieldsInfo info).map fun p => quoted p.columnName)) [] := by
    split_ifs
    · exact yields_plain (by decide)
    · exact yields_columns hfields
  have hwhere : Yields (if c.propertiesInfo info = [] then "" else
      " WHERE " ++ getConditionWithOperators (c.propertiesInfo info))
      (((c.propertiesInfo info).flatMap (bindingsAt · c.doc)).map Prod.fst) := by
    split_ifs with hnil
    · rw [hnil]
      exact yields_plain (by decide)
    · exact (yields_plain (by decide)).append
        (yields_getConditionWithOperators (describes_getPropertiesInfo c.doc.keys [] c.doc info) hprops)
  have horders : Yields (if orderByColumns = [] then "" else
      " ORDER BY " ++ ", ".intercalate (orderByColumns.map fun order => quoted order.1 ++ " " ++ order.2)) [] := by
    split_ifs
    · exact yields_plain (by decide)
    · have hall := Placeholders.yields_intercalate plain_comma fun order horder' =>
        ((yields_quoted (horder order horder').1).append
          (yields_plain (by decide : Placeholders.Plain " ".toList))).append (yields_plain (horder order horder').2)
      have hnil : (orderByColumns.flatMap fun _ => ([] ++ [] ++ [] : List Target)) = [] :=
        List.flatMap_eq_nil_iff.2 fun _ _ => rfl
      rw [hnil] at hall
      exact (yields_plain (by decide)).append hall
  have hlimit : Yields (if c.info.limit.isSome then " LIMIT ?" else "")
      ((optionBinding (V := V) .limit c.info.limit).map Prod.fst) := by
    cases c.info.limit with
    | none => exact yields_plain (by decide)
    | some n =>
        have htext : " LIMIT ?" = " LIMIT " ++ "?" := by decide
        rw [Option.isSome_some, if_pos rfl, htext]
        exact Placeholders.yields_word (by decide) Placeholders.target_limit
  have hall := ((((((yields_plain (by decide : Placeholders.Plain "SELECT ".toList)).append hcolumns).append
    (yields_plain (by decide : Placeholders.Plain " FROM ".toList))).append (yields_plain hkeyspace)).append
    (yields_plain (by decide : Placeholders.Plain ".".toList))).append (yields_plain htable)).append hwhere
  have hall := (hall.append horders).append hlimit
  rw [selectBindings, List.map_append]
  unfold getSelect
  simpa using hall

end Select

/-! ### Inserts -/

theorem mem_of_forall_filter {ps : List PropertyInfo} {Q : PropertyInfo → Prop} (h : ∀ p ∈ ps, Q p)
    (f : PropertyInfo → Bool) : ∀ p ∈ ps.filter f, Q p := fun p hp => h p (List.mem_filter.1 hp).1

theorem map_snd_valueBindings (ps : List PropertyInfo) (obj : Document V) :
    (ps.flatMap (valueBindings · obj)).map Prod.snd = (ps.flatMap (bindingsAt · obj)).map Prod.snd := by
  rw [List.map_flatMap, List.map_flatMap]
  apply List.flatMap_congr
  intro p _
  rw [valueBindings, List.map_map]
  rfl

/-- Without `q.and`, a column has one binding. -/
theorem map_fst_valueBindings {p : PropertyInfo} {obj : Document V} {info : ModelMappingInfo}
    (hp : Describes obj info p) (hand : ∀ value0 value1, p.operators ≠ .and value0 value1) :
    (valueBindings p obj).map Prod.fst = [.column p.columnName "="] := by
  rw [hp.operators] at hand
  unfold valueBindings bindingsAt
  cases hget : JsObject.get obj.properties p.propertyName with
  | own value =>
      rw [(operatorsAt_own hget).1] at hand
      cases value with
      | plain v => rfl
      | operator op v => rfl
      | and condition1 condition2 => exact absurd rfl (hand condition1.operators condition2.operators)
      | assignment sign inverted v => rfl
  | inherited => rfl
  | undefined => rfl

/-- The option `ttl` of a call. -/
theorem eval_ttl (info : ModelMappingInfo) (c : Call V) :
    (optionExprs .ttl c.info.ttl.isSome).mapM (Expr.eval (c.arguments info)) =
      some ((optionBinding (V := V) .ttl c.info.ttl).map Prod.snd) := by
  apply eval_optionExprs .ttl
  intro n hn
  cases hdocInfo : c.docInfo with
  | none => simp [Call.info, hdocInfo] at hn
  | some docInfo =>
      have httl : docInfo.ttl = some n := by simpa [Call.info, hdocInfo] using hn
      simp [Path.eval, Call.arguments, hdocInfo, readOption, httl]

theorem eval_docExprs (info : ModelMappingInfo) (c : Call V) {ps : List PropertyInfo}
    (hps : ∀ p ∈ ps, Describes c.doc info p) : (ps.flatMap (exprsAt · .doc)).mapM (Expr.eval (c.arguments info)) =
      some ((ps.flatMap (bindingsAt · c.doc)).map Prod.snd) :=
  eval_exprs hps fun _ => rfl

theorem target_using (name before : List Char) : Placeholders.target name ("USING TTL ".toList.reverse ++ before) = .ttl := by
  have htext : "USING TTL ".toList.reverse ++ before = " TTL ".toList.reverse ++ ("USING".toList.reverse ++ before) := by
    simp
  rw [htext, Placeholders.target_ttl]

section Insert

variable (info : ModelMappingInfo) (table : TableMetadata) (c : Call V) (ps : List PropertyInfo)

def insertBindings : List (Binding V) :=
  (filteredPropertiesInfo table ps).flatMap (valueBindings · c.doc) ++ optionBinding .ttl c.info.ttl

def insertExprs : List Expr :=
  (filteredPropertiesInfo table ps).flatMap (exprsAt · .doc) ++ optionExprs .ttl c.info.ttl.isSome

theorem insertParamsGetter_eq (httl : c.info.ttl ≠ none → filteredPropertiesInfo table ps ≠ []) :
    insertParamsGetter (filteredPropertiesInfo table ps) c.info.ttl.isSome =
      scriptText "getParametersInsert" (joined (insertExprs table c ps)) := by
  unfold insertParamsGetter insertExprs optionExprs
  rw [valueGetterExpression_doc]
  cases hoption : c.info.ttl with
  | none => simp
  | some n =>
      have hne := flatMap_exprsAt_ne_nil (httl (by simp [hoption])) .doc
      rw [Option.isSome_some, if_pos rfl, if_pos rfl, joined_append hne (by simp), joined_singleton, String.append_assoc]
      rfl

theorem eval_insertExprs (hps : ∀ p ∈ ps, Describes c.doc info p) :
    (insertExprs table c ps).mapM (Expr.eval (c.arguments info)) =
      some ((insertBindings table c ps).map Prod.snd) := by
  rw [insertBindings, List.map_append, map_snd_valueBindings]
  exact mapM_append_some (eval_docExprs info c (mem_of_forall_filter hps _)) (eval_ttl info c)

theorem targets_getInsertQuery {ifNotExists : Bool} (htable : Placeholders.Plain table.name.toList)
    (hkeyspace : Placeholders.Plain info.keyspace.toList) (hps : ∀ p ∈ ps, Describes c.doc info p)
    (hcolumns : QuotableColumns ps) (hand : ∀ p ∈ ps, ∀ value0 value1, p.operators ≠ .and value0 value1) :
    Placeholders.targets (getInsertQuery table.name info.keyspace (filteredPropertiesInfo table ps) ifNotExists
      c.info.ttl.isSome) = (insertBindings table c ps).map Prod.fst := by
  have hnames : ∀ column ∈ (filteredPropertiesInfo table ps).map (·.columnName), '"' ∉ column.toList := by
    intro column hcolumn
    obtain ⟨p, hp, rfl⟩ := List.mem_map.1 hcolumn
    exact mem_of_forall_filter hcolumns _ p hp
  have hfound : ((filteredPropertiesInfo table ps).flatMap (valueBindings · c.doc)).map Prod.fst =
      ((filteredPropertiesInfo table ps).map (·.columnName)).map fun column => .column column "=" := by
    rw [List.map_flatMap, List.map_map, List.map_eq_flatMap]
    apply List.flatMap_congr
    intro p hp
    exact map_fst_valueBindings (mem_of_forall_filter hps _ p hp) (mem_of_forall_filter hand _ p hp)
  have hexists : Placeholders.Takes (if ifNotExists then " IF NOT EXISTS" else "") [] [] [] := by
    split_ifs
    · exact takes_plain (by decide) []
    · exact takes_plain (by decide) []
  have httl : Placeholders.Takes (if c.info.ttl.isSome then " USING TTL ?" else "") [] []
      ((optionBinding (V := V) .ttl c.info.ttl).map Prod.fst) := by
    cases c.info.ttl with
    | none => exact takes_plain (by decide) []
    | some n =>
        have htext : " USING TTL ?" = " " ++ ("USING TTL " ++ "?") := by decide
        rw [Option.isSome_some, if_pos rfl, htext]
        exact (takes_plain (by decide) []).append (Placeholders.takes_word (by decide) (target_using []))
  have hcols := Placeholders.takes_names plain_comma hnames []
  have hmarks := Placeholders.takes_placeholders plain_comma ((filteredPropertiesInfo table ps).map (·.columnName))
  have hall := (((((takes_plain (by decide : Placeholders.Plain "INSERT INTO ".toList) []).append
    (takes_plain hkeyspace [])).append
    (takes_plain (by decide : Placeholders.Plain ".".toList) [])).append (takes_plain htable [])).append
    (takes_plain (by decide : Placeholders.Plain " (".toList) [])).append hcols
  have hall := (((hall.append
    (takes_plain (by decide : Placeholders.Plain ") VALUES (".toList) _)).append hmarks).append
    (takes_plain (by decide : Placeholders.Plain ")".toList) [])).append hexists |>.append httl
  rw [List.map_map, List.map_map] at hall
  rw [insertBindings, List.map_append, hfound]
  have htargets := hall.targets (by simp only [String.toList_append, List.append_assoc]; rfl)
  simp only [List.nil_append, List.append_nil] at htargets
  exact htargets

end Insert

/-! ### Updates and deletes -/

/-- The expressions of the conditions of a call. -/
theorem eval_whenExprs (info : ModelMappingInfo) (c : Call V) :
    ((getPropertiesInfo c.info.when.keys [] c.info.when info).flatMap (exprsAt · .when)).mapM
        (Expr.eval (c.arguments info)) =
      some (((getPropertiesInfo c.info.when.keys [] c.info.when info).flatMap (bindingsAt · c.info.when)).map
        Prod.snd) := by
  cases hdocInfo : c.docInfo with
  | none =>
      have hwhen : c.info.when = .empty := by simp [Call.info, hdocInfo]
      rw [hwhen]
      rfl
  | some docInfo =>
      apply eval_exprs (describes_getPropertiesInfo _ _ _ info)
      intro name
      have hwhen : c.info.when = docInfo.when := by simp [Call.info, hdocInfo]
      rw [hwhen]
      simp [Path.eval, Call.arguments, hdocInfo]

theorem conditionParams_eq {when : List PropertyInfo} (h : when ≠ []) :
    conditionParams when = ", " ++ joined (when.flatMap (exprsAt · .when)) := by
  rw [conditionParams, if_neg h, valueGetterExpression_when]

/-- The WHERE part of an update or a delete. -/
theorem yields_keys {info : ModelMappingInfo} {obj : Document V} {table : TableMetadata} {ps : List PropertyInfo}
    (hps : ∀ p ∈ ps, Describes obj info p) (hcolumns : QuotableColumns ps)
    (hnone : ∀ p ∈ primaryKeys table (filteredPropertiesInfo table ps), p.operators = .none) :
    Yields (whereClause (primaryKeys table (filteredPropertiesInfo table ps)))
      (((primaryKeys table (filteredPropertiesInfo table ps)).flatMap (bindingsAt · obj)).map Prod.fst) := by
  have hmem : ∀ p ∈ primaryKeys table (filteredPropertiesInfo table ps), p ∈ ps := fun p hp =>
    List.mem_of_mem_filter (List.mem_of_mem_filter hp)
  exact yields_whereClause (fun p hp => hps p (hmem p hp)) hnone fun p hp => hcolumns p (hmem p hp)

section Update

variable (info : ModelMappingInfo) (table : TableMetadata) (c : Call V) (ps when : List PropertyInfo)

def updateBindings : List (Binding V) :=
  optionBinding .ttl c.info.ttl ++ (otherColumns table (filteredPropertiesInfo table ps)).map (assignmentBinding · c.doc) ++
    (primaryKeys table (filteredPropertiesInfo table ps)).flatMap (bindingsAt · c.doc) ++
    when.flatMap (bindingsAt · c.info.when)

def updateExprs : List Expr :=
  optionExprs .ttl c.info.ttl.isSome ++ (otherColumns table (filteredPropertiesInfo table ps)).map assignmentExpr ++
    (primaryKeys table (filteredPropertiesInfo table ps)).flatMap (exprsAt · .doc) ++ when.flatMap (exprsAt · .when)

/-- The columns to set, with the time to live in front of them. -/
theorem joined_assignments {others : List PropertyInfo} (hothers : others ≠ []) (ttl : Bool) :
    (if ttl then "docInfo['ttl'], " else "") ++ assignmentGetterExpression others =
      joined (optionExprs .ttl ttl ++ others.map assignmentExpr) := by
  rw [assignmentGetterExpression_eq]
  cases ttl with
  | false => simp [optionExprs]
  | true =>
      rw [optionExprs, if_pos rfl, if_pos rfl, joined_append (by simp) (by simpa using hothers), joined_singleton]
      rfl

theorem isAlpha_update : ∀ c ∈ "getParametersUpdate".toList, c.isAlpha := List.all_eq_true.1 (by decide)

/-- The script of an update returns its expressions: a comma may follow the last one. -/
theorem run_updateParamsGetter {C : Type} (arguments : C → Arguments V)
    (hothers : otherColumns table (filteredPropertiesInfo table ps) ≠ [])
    (hkeys : when ≠ [] → primaryKeys table (filteredPropertiesInfo table ps) ≠ [])
    (hplain : ∀ e ∈ updateExprs table c ps when, e.Plain) :
    Script.run arguments (updateParamsGetter table (filteredPropertiesInfo table ps) when c.info.ttl.isSome) =
      some fun c' => (updateExprs table c ps when).mapM (Expr.eval (arguments c')) := by
  have hne : optionExprs .ttl c.info.ttl.isSome ++
      (otherColumns table (filteredPropertiesInfo table ps)).map assignmentExpr ≠ [] :=
    List.append_ne_nil_of_right_ne_nil _ (by simpa using hothers)
  unfold updateParamsGetter
  rw [joined_assignments hothers, valueGetterExpression_doc]
  unfold updateExprs at hplain ⊢
  by_cases hnil : primaryKeys table (filteredPropertiesInfo table ps) = []
  · have hwhen : when = [] := by_contra fun hwhen => hkeys hwhen hnil
    have hparams : conditionParams [] = "" := rfl
    have hkeyParams : joined [] = "" := rfl
    rw [hnil, hwhen] at hplain ⊢
    simp only [List.flatMap_nil, List.append_nil] at hplain ⊢
    rw [hparams, hkeyParams, String.append_empty, String.append_empty]
    exact run_joined_comma arguments isAlpha_update hne hplain
  · have hkeyExprs := flatMap_exprsAt_ne_nil hnil .doc
    by_cases hwhen : when = []
    · have hparams : conditionParams [] = "" := rfl
      rw [hwhen] at hplain ⊢
      simp only [List.flatMap_nil, List.append_nil] at hplain ⊢
      rw [hparams, String.append_empty, ← joined_append hne hkeyExprs]
      exact run_joined arguments isAlpha_update hplain
    · rw [conditionParams_eq hwhen, ← joined_append hne hkeyExprs, ← String.append_assoc,
        ← joined_append (List.append_ne_nil_of_right_ne_nil _ hkeyExprs) (flatMap_exprsAt_ne_nil hwhen .when)]
      exact run_joined arguments isAlpha_update hplain

theorem eval_updateExprs (hps : ∀ p ∈ ps, Describes c.doc info p) :
    (updateExprs table c ps (getPropertiesInfo c.info.when.keys [] c.info.when info)).mapM
        (Expr.eval (c.arguments info)) =
      some ((updateBindings table c ps (getPropertiesInfo c.info.when.keys [] c.info.when info)).map Prod.snd) := by
  have hfiltered := mem_of_forall_filter hps fun p => ObjectSelector.hasColumn table p.columnName
  have hassignments : ((otherColumns table (filteredPropertiesInfo table ps)).map assignmentExpr).mapM
      (Expr.eval (c.arguments info)) =
        some (((otherColumns table (filteredPropertiesInfo table ps)).map (assignmentBinding · c.doc)).map Prod.snd) := by
    rw [List.map_map, List.map_eq_flatMap, List.map_eq_flatMap]
    apply mapM_flatMap
    intro p hp
    rw [List.mapM_cons, eval_assignmentExpr (mem_of_forall_filter hfiltered _ p hp)]
    rfl
  have hkeys := eval_docExprs info c (mem_of_forall_filter hfiltered (isPrimaryKey table))
  rw [updateBindings, List.map_append, List.map_append, List.map_append]
  exact mapM_append_some (mapM_append_some (mapM_append_some (eval_ttl info c) hassignments) hkeys)
    (eval_whenExprs info c)

theorem targets_getUpdateQuery {ifExists : Bool} (htable : Placeholders.Plain table.name.toList)
    (hkeyspace : Placeholders.Plain info.keyspace.toList) (hps : ∀ p ∈ ps, Describes c.doc info p)
    (hwhen : ∀ p ∈ when, Describes c.info.when info p) (hcolumns : QuotableColumns ps)
    (hconditions : QuotableColumns when)
    (hnone : ∀ p ∈ primaryKeys table (filteredPropertiesInfo table ps), p.operators = .none)
    (hexists : ifExists = true → when = []) :
    Placeholders.targets (getUpdateQuery table info.keyspace (filteredPropertiesInfo table ps) when ifExists
      c.info.ttl.isSome) = (updateBindings table c ps when).map Prod.fst := by
  have hfiltered := mem_of_forall_filter hps fun p => ObjectSelector.hasColumn table p.columnName
  have hfilteredColumns := mem_of_forall_filter hcolumns fun p => ObjectSelector.hasColumn table p.columnName
  have httl : Yields (if c.info.ttl.isSome then "USING TTL ? " else "")
      ((optionBinding (V := V) .ttl c.info.ttl).map Prod.fst) := by
    cases c.info.ttl with
    | none => exact yields_plain (by decide)
    | some n =>
        have htext : "USING TTL ? " = "USING TTL " ++ "?" ++ " " := by decide
        rw [Option.isSome_some, if_pos rfl, htext]
        exact (Placeholders.yields_word (by decide) target_using).append (yields_plain (by decide))
  have hset := yields_assignments (mem_of_forall_filter hfiltered fun p => !isPrimaryKey table p)
    (mem_of_forall_filter hfilteredColumns fun p => !isPrimaryKey table p)
  have hwhere := yields_keys hps hcolumns hnone
  have hall := ((((((yields_plain (by decide : Placeholders.Plain "UPDATE ".toList)).append
    (yields_plain hkeyspace)).append
    (yields_plain (by decide : Placeholders.Plain ".".toList))).append (yields_plain htable)).append
    (yields_plain (by decide : Placeholders.Plain " ".toList))).append httl).append
    (yields_plain (by decide : Placeholders.Plain "SET ".toList))
  have hall := (((hall.append hset).append (yields_plain (by decide : Placeholders.Plain " WHERE ".toList))).append
    hwhere).append (yields_condition hwhen hconditions hexists)
  have htargets := hall.targets (by simp only [String.toList_append, List.append_assoc]; rfl)
  rw [updateBindings, List.map_append, List.map_append, List.map_append]
  simp only [List.nil_append, List.append_nil] at htargets
  exact htargets

end Update

section Delete

variable (info : ModelMappingInfo) (table : TableMetadata) (c : Call V) (ps when : List PropertyInfo)

def deleteBindings : List (Binding V) :=
  (primaryKeys table (filteredPropertiesInfo table ps)).flatMap (bindingsAt · c.doc) ++
    when.flatMap (bindingsAt · c.info.when)

def deleteExprs : List Expr :=
  (primaryKeys table (filteredPropertiesInfo table ps)).flatMap (exprsAt · .doc) ++ when.flatMap (exprsAt · .when)

theorem deleteParamsGetter_eq (hkeys : when ≠ [] → primaryKeys table (filteredPropertiesInfo table ps) ≠ []) :
    deleteParamsGetter table (filteredPropertiesInfo table ps) when =
      scriptText "getParametersDelete" (joined (deleteExprs table ps when)) := by
  unfold deleteParamsGetter deleteExprs
  rw [valueGetterExpression_doc]
  by_cases hwhen : when = []
  · rw [hwhen, List.flatMap_nil, List.append_nil, conditionParams, if_pos rfl, String.append_empty]
  · rw [conditionParams_eq hwhen, joined_append (flatMap_exprsAt_ne_nil (hkeys hwhen) .doc)
      (flatMap_exprsAt_ne_nil hwhen .when), String.append_assoc]

theorem eval_deleteExprs (hps : ∀ p ∈ ps, Describes c.doc info p) :
    (deleteExprs table ps (getPropertiesInfo c.info.when.keys [] c.info.when info)).mapM
        (Expr.eval (c.arguments info)) =
      some ((deleteBindings table c ps (getPropertiesInfo c.info.when.keys [] c.info.when info)).map Prod.snd) := by
  have hfiltered := mem_of_forall_filter hps fun p => ObjectSelector.hasColumn table p.columnName
  rw [deleteBindings, List.map_append]
  exact mapM_append_some (eval_docExprs info c (mem_of_forall_filter hfiltered (isPrimaryKey table)))
    (eval_whenExprs info c)

theorem targets_getDeleteQuery {ifExists deleteOnlyColumns : Bool} (htable : Placeholders.Plain table.name.toList)
    (hkeyspace : Placeholders.Plain info.keyspace.toList) (hps : ∀ p ∈ ps, Describes c.doc info p)
    (hwhen : ∀ p ∈ when, Describes c.info.when info p) (hcolumns : QuotableColumns ps)
    (hconditions : QuotableColumns when)
    (hnone : ∀ p ∈ primaryKeys table (filteredPropertiesInfo table ps), p.operators = .none)
    (hexists : ifExists = true → when = []) :
    Placeholders.targets (getDeleteQuery table info.keyspace (filteredPropertiesInfo table ps) when ifExists
      deleteOnlyColumns) = (deleteBindings table c ps when).map Prod.fst := by
  have hfilteredColumns := mem_of_forall_filter hcolumns fun p => ObjectSelector.hasColumn table p.columnName
  have hothers := yields_columns (mem_of_forall_filter hfilteredColumns fun p => !isPrimaryKey table p)
  have hdeleted : Yields (if deleteOnlyColumns ∧ ", ".intercalate
        ((otherColumns table (filteredPropertiesInfo table ps)).map fun p => quoted p.columnName) ≠ "" then
      " " ++ ", ".intercalate
        ((otherColumns table (filteredPropertiesInfo table ps)).map fun p => quoted p.columnName) else "") [] := by
    split_ifs
    · exact (yields_plain (by decide)).append hothers
    · exact yields_plain (by decide)
  have hwhere := yields_keys hps hcolumns hnone
  have hall := (((((yields_plain (by decide : Placeholders.Plain "DELETE".toList)).append hdeleted).append
    (yields_plain (by decide : Placeholders.Plain " FROM ".toList))).append (yields_plain hkeyspace)).append
    (yields_plain (by decide : Placeholders.Plain ".".toList))).append (yields_plain htable)
  have hall := ((hall.append (yields_plain (by decide : Placeholders.Plain " WHERE ".toList))).append hwhere).append
    (yields_condition hwhen hconditions hexists)
  have htargets := hall.targets (by simp only [String.toList_append, List.append_assoc]; rfl)
  rw [deleteBindings, List.map_append]
  simp only [List.nil_append, List.append_nil] at htargets
  exact htargets

end Delete

/-! ### Agreement -/

/-- The names of properties fit into a script, and those of their columns into a statement. -/
structure Fits (ps : List PropertyInfo) : Prop where
  properties : PlainProperties ps
  columns : QuotableColumns ps

/-- The orders of a select are words. -/
theorem plain_orders {docInfo : SelectInfo} {info : ModelMappingInfo} {orderByColumns : List (String × String)}
    (h : DocInfoAdapter.adaptOrderBy docInfo info = .ok orderByColumns) :
    ∀ order ∈ orderByColumns, Placeholders.Plain order.2.toList := by
  intro order horder
  obtain ⟨given, -, hgiven⟩ := Fallible.exists_of_mem_mapM h order horder
  rw [DocInfoAdapter.adaptOrder] at hgiven
  split_ifs at hgiven with hordering
  cases hgiven
  rw [not_and_or, not_not, not_not] at hordering
  rcases hordering with hordering | hordering
  · rw [hordering]
    exact (by decide : Placeholders.Plain "ASC".toList)
  · rw [hordering]
    exact (by decide : Placeholders.Plain "DESC".toList)

theorem isAlpha_select : ∀ c ∈ "getParametersSelect".toList, c.isAlpha := List.all_eq_true.1 (by decide)

theorem isAlpha_insert : ∀ c ∈ "getParametersInsert".toList, c.isAlpha := List.all_eq_true.1 (by decide)

theorem isAlpha_delete : ∀ c ∈ "getParametersDelete".toList, c.isAlpha := List.all_eq_true.1 (by decide)

theorem runScript_eq {info : ModelMappingInfo} {runInThisContext : String → Option (Call V → Option (List (Value V)))}
    (hrun : Runs runInThisContext (Call.arguments info)) {text : String}
    {paramsGetter : Call V → Option (List (Value V))}
    (htext : Script.run (Call.arguments info) text = some paramsGetter) :
    runScript runInThisContext text = .ok paramsGetter := by
  rw [runScript, hrun text _ htext]

theorem binds_getSelect {info : ModelMappingInfo} {runSelect : String → Option (SelectCall V → Option (List (Value V)))}
    (hselect : Runs runSelect (SelectCall.arguments info)) (hkeyspace : Placeholders.Plain info.keyspace.toList)
    {c : SelectCall V} {tableName : String} {orderByColumns : List (String × String)}
    (htable : Placeholders.Plain tableName.toList) (hprops : Fits (c.propertiesInfo info))
    (hfields : QuotableColumns (c.fieldsInfo info)) (horder : DocInfoAdapter.adaptOrderBy c.info info = .ok orderByColumns)
    (hcolumns : ∀ order ∈ orderByColumns, Quotable order.1) :
    ∃ paramsGetter, selectParamsGetter runSelect (c.propertiesInfo info) c.info.limit.isSome = .ok paramsGetter ∧
      Binds (getSelect tableName info.keyspace (c.propertiesInfo info) (c.fieldsInfo info) orderByColumns
        c.info.limit.isSome) (paramsGetter c) (selectBindings info c) := by
  have hplain : ∀ e ∈ selectExprs info c, e.Plain := by
    intro e he
    rcases List.mem_append.1 he with he | he
    · exact hprops.properties.exprs plain_doc e he
    · exact plain_optionExprs _ _ e he
  have hgetter := run_joined (SelectCall.arguments (V := V) info) isAlpha_select hplain
  rw [← selectParamsText_eq] at hgetter
  refine ⟨_, by rw [selectParamsGetter, hselect _ _ hgetter], ?_⟩
  have hyields := yields_getSelect info c htable hkeyspace hprops.columns hfields fun order horder' =>
    ⟨hcolumns order horder', plain_orders horder order horder'⟩
  exact .of_targets (hyields.targets (by unfold getSelect; simp only [String.toList_append, List.append_assoc]; rfl))
    (eval_selectExprs info c)

section Handler

variable {h : MappingHandler V (Option (List (Value V)))} {c : Call V} {table : TableMetadata}
  (hrun : Runs h.runInThisContext (Call.arguments h.info)) (hkeyspace : Placeholders.Plain h.info.keyspace.toList)
  (htable : Placeholders.Plain table.name.toList) (hprops : Fits (h.propertiesInfo c))

theorem describes_propertiesInfo : ∀ p ∈ h.propertiesInfo c, Describes c.doc h.info p :=
  describes_getPropertiesInfo _ _ _ _

theorem describes_whenInfo : ∀ p ∈ h.whenInfo c, Describes c.info.when h.info p := describes_getPropertiesInfo _ _ _ _

include hprops in
theorem Fits.filtered : PlainProperties (filteredPropertiesInfo table (h.propertiesInfo c)) :=
  mem_of_forall_filter hprops.properties _

include hrun hkeyspace htable hprops

theorem binds_getInsert (hand : ∀ p ∈ h.propertiesInfo c, ∀ value0 value1, p.operators ≠ .and value0 value1)
    (httl : c.info.ttl ≠ none → filteredPropertiesInfo table (h.propertiesInfo c) ≠ []) :
    ∃ q, getInsert h.runInThisContext table h.info.keyspace (h.propertiesInfo c) c.info.ttl.isSome
        c.info.ifNotExists = .ok q ∧
      Binds q.query (q.paramsGetter c) (insertBindings table c (h.propertiesInfo c)) := by
  have hplain : ∀ e ∈ insertExprs table c (h.propertiesInfo c), e.Plain := by
    intro e he
    rcases List.mem_append.1 he with he | he
    · exact hprops.filtered.exprs plain_doc e he
    · exact plain_optionExprs _ _ e he
  have hgetter := run_joined (Call.arguments (V := V) h.info) isAlpha_insert hplain
  rw [← insertParamsGetter_eq table c _ httl] at hgetter
  refine ⟨_, by rw [getInsert, runScript_eq hrun hgetter]; rfl, ?_⟩
  exact .of_targets (targets_getInsertQuery h.info table c _ htable hkeyspace describes_propertiesInfo hprops.columns hand)
    (eval_insertExprs h.info table c _ describes_propertiesInfo)

omit hkeyspace htable in
/-- The function for the parameters of an update is compiled. -/
theorem runScript_getUpdate (hwhen : Fits (h.whenInfo c))
    (hkeys : h.whenInfo c ≠ [] → primaryKeys table (filteredPropertiesInfo table (h.propertiesInfo c)) ≠ [])
    (hothers : otherColumns table (filteredPropertiesInfo table (h.propertiesInfo c)) ≠ []) :
    runScript h.runInThisContext (updateParamsGetter table (filteredPropertiesInfo table (h.propertiesInfo c))
      (h.whenInfo c) c.info.ttl.isSome) =
      .ok fun c' => (updateExprs table c (h.propertiesInfo c) (h.whenInfo c)).mapM
        (Expr.eval (Call.arguments h.info c')) := by
  have hplain : ∀ e ∈ updateExprs table c (h.propertiesInfo c) (h.whenInfo c), e.Plain := by
    intro e he
    simp only [updateExprs, List.mem_append] at he
    rcases he with ((he | he) | he) | he
    · exact plain_optionExprs _ _ e he
    · exact PlainProperties.assignments (mem_of_forall_filter hprops.filtered _) e he
    · exact PlainProperties.exprs (mem_of_forall_filter hprops.filtered _) plain_doc e he
    · exact hwhen.properties.exprs plain_when e he
  exact runScript_eq hrun (run_updateParamsGetter table c _ _ (Call.arguments (V := V) h.info) hothers hkeys hplain)

omit hkeyspace htable in
/-- No update fails whose columns are none of the prototype. -/
theorem exists_getUpdate (hwhen : Fits (h.whenInfo c))
    (hkeys : h.whenInfo c ≠ [] → primaryKeys table (filteredPropertiesInfo table (h.propertiesInfo c)) ≠ [])
    (hothers : otherColumns table (filteredPropertiesInfo table (h.propertiesInfo c)) ≠ [])
    (hown : ((h.propertiesInfo c).any fun p => columnOf table p = .inherited) = false) :
    ∃ q, getUpdate h.runInThisContext table h.info.keyspace (h.propertiesInfo c) (h.whenInfo c) c.info.ttl.isSome
      c.info.ifExists = .ok q := by
  have hgetter := runScript_getUpdate hrun hprops hwhen hkeys hothers
  simp only [getUpdate, hown, Bool.false_eq_true, if_false, hgetter]
  exact ⟨_, rfl⟩

variable (hwhen : Fits (h.whenInfo c))
  (hnone : ∀ p ∈ primaryKeys table (filteredPropertiesInfo table (h.propertiesInfo c)), p.operators = .none)
  (hkeys : h.whenInfo c ≠ [] → primaryKeys table (filteredPropertiesInfo table (h.propertiesInfo c)) ≠ [])
  (hexists : c.info.ifExists = true → h.whenInfo c = [])
include hwhen hnone hkeys hexists

theorem binds_getUpdate (hothers : otherColumns table (filteredPropertiesInfo table (h.propertiesInfo c)) ≠ [])
    {q : QueryInfo V (Option (List (Value V)))}
    (hq : getUpdate h.runInThisContext table h.info.keyspace (h.propertiesInfo c) (h.whenInfo c) c.info.ttl.isSome
      c.info.ifExists = .ok q) :
    Binds q.query (q.paramsGetter c) (updateBindings table c (h.propertiesInfo c) (h.whenInfo c)) := by
  have hgetter := runScript_getUpdate hrun hprops hwhen hkeys hothers
  simp only [getUpdate] at hq
  split_ifs at hq
  · cases hq
  rw [hgetter] at hq
  cases hq
  exact .of_targets (targets_getUpdateQuery h.info table c _ _ htable hkeyspace describes_propertiesInfo
    describes_whenInfo hprops.columns hwhen.columns hnone hexists)
    (eval_updateExprs h.info table c _ describes_propertiesInfo)

theorem binds_getDelete :
    ∃ q, getDelete h.runInThisContext table h.info.keyspace (h.propertiesInfo c) (h.whenInfo c)
        c.info.deleteOnlyColumns c.info.ifExists = .ok q ∧
      Binds q.query (q.paramsGetter c) (deleteBindings table c (h.propertiesInfo c) (h.whenInfo c)) := by
  have hplain : ∀ e ∈ deleteExprs table (h.propertiesInfo c) (h.whenInfo c), e.Plain := by
    intro e he
    rcases List.mem_append.1 he with he | he
    · exact PlainProperties.exprs (mem_of_forall_filter hprops.filtered _) plain_doc e he
    · exact hwhen.properties.exprs plain_when e he
  have hgetter := run_joined (Call.arguments (V := V) h.info) isAlpha_delete hplain
  rw [← deleteParamsGetter_eq table _ _ hkeys] at hgetter
  refine ⟨_, by rw [getDelete, runScript_eq hrun hgetter]; rfl, ?_⟩
  exact .of_targets (targets_getDeleteQuery h.info table c _ _ htable hkeyspace describes_propertiesInfo
    describes_whenInfo hprops.columns hwhen.columns hnone hexists)
    (eval_deleteExprs h.info table c _ describes_propertiesInfo)

end Handler

/-- The statements and the functions for their parameters agree. -/
theorem parameters_agree (h : MappingHandler V (Option (List (Value V))))
    (runSelect : String → Option (SelectCall V → Option (List (Value V))))
    (hrun : Runs h.runInThisContext (Call.arguments h.info)) (hselect : Runs runSelect (SelectCall.arguments h.info))
    (hkeyspace : Placeholders.Plain h.info.keyspace.toList) :
    (∀ (c : SelectCall V) (tableName : String) (orderByColumns : List (String × String)),
      Placeholders.Plain tableName.toList → Fits (c.propertiesInfo h.info) → QuotableColumns (c.fieldsInfo h.info) →
      DocInfoAdapter.adaptOrderBy c.info h.info = .ok orderByColumns → (∀ order ∈ orderByColumns, Quotable order.1) →
      ∃ paramsGetter,
        selectParamsGetter runSelect (c.propertiesInfo h.info) c.info.limit.isSome = .ok paramsGetter ∧
        Binds (getSelect tableName h.info.keyspace (c.propertiesInfo h.info) (c.fieldsInfo h.info) orderByColumns
          c.info.limit.isSome) (paramsGetter c) (selectBindings h.info c)) ∧
    ∀ (c : Call V) (table : TableMetadata), Placeholders.Plain table.name.toList → Fits (h.propertiesInfo c) →
      ((∀ p ∈ h.propertiesInfo c, ∀ value0 value1, p.operators ≠ .and value0 value1) →
        (c.info.ttl ≠ none → filteredPropertiesInfo table (h.propertiesInfo c) ≠ []) →
        ∃ q, getInsert h.runInThisContext table h.info.keyspace (h.propertiesInfo c) c.info.ttl.isSome
            c.info.ifNotExists = .ok q ∧
          Binds q.query (q.paramsGetter c) (insertBindings table c (h.propertiesInfo c))) ∧
      (Fits (h.whenInfo c) →
        (∀ p ∈ primaryKeys table (filteredPropertiesInfo table (h.propertiesInfo c)), p.operators = .none) →
        (h.whenInfo c ≠ [] → primaryKeys table (filteredPropertiesInfo table (h.propertiesInfo c)) ≠ []) →
        (c.info.ifExists = true → h.whenInfo c = []) →
        (otherColumns table (filteredPropertiesInfo table (h.propertiesInfo c)) ≠ [] →
          ∀ q, getUpdate h.runInThisContext table h.info.keyspace (h.propertiesInfo c) (h.whenInfo c)
              c.info.ttl.isSome c.info.ifExists = .ok q →
            Binds q.query (q.paramsGetter c) (updateBindings table c (h.propertiesInfo c) (h.whenInfo c))) ∧
        ∃ q, getDelete h.runInThisContext table h.info.keyspace (h.propertiesInfo c) (h.whenInfo c)
            c.info.deleteOnlyColumns c.info.ifExists = .ok q ∧
          Binds q.query (q.paramsGetter c) (deleteBindings table c (h.propertiesInfo c) (h.whenInfo c))) := by
  constructor
  · intro c tableName orderByColumns htable hprops hfields horder hcolumns
    exact binds_getSelect hselect hkeyspace htable hprops hfields horder hcolumns
  · intro c table htable hprops
    refine ⟨fun hand httl => ?_, fun hwhen hnone hkeys hexists => ⟨fun hothers q hq => ?_, ?_⟩⟩
    · exact binds_getInsert hrun hkeyspace htable hprops hand httl
    · exact binds_getUpdate hrun hkeyspace htable hprops hwhen hnone hkeys hexists hothers hq
    · exact binds_getDelete hrun hkeyspace htable hprops hwhen hnone hkeys hexists

/-! ### Messages -/

/-- A handler of the table for messages. -/
def chat : MappingHandler ℕ (Option (List (Value ℕ))) where
  info := messagesInfo
  getTable _ _ := some messages
  runInThisContext := Script.run (Call.arguments messagesInfo)

/-- A message with a time to live, in a room whose topic is none of two. -/
def message : Call ℕ where
  doc := ⟨[("room", .plain 1), ("time", .plain 2), ("text", .plain 3)], by simp⟩
  docInfo := some { ttl := some 60, when := ⟨[("topic", .and (.operator .notEq 4) (.operator .notEq 5))], by simp⟩ }

/-- A message whose time is given by two conditions. -/
def messagesInsert : Call ℕ where
  doc := ⟨[("room", .plain 1), ("time", .and (.operator .gte 2) (.operator .lt 3))], by simp⟩
  docInfo := none

/-- The last messages of a room between two times. -/
def messagesBetween : SelectCall ℕ where
  doc := ⟨[("room", .plain 1), ("time", .and (.operator .gte 2) (.operator .lt 3))], by simp⟩
  docInfo := some { limit := some 10, orderBy := some [("time", "desc")] }

theorem fits_of_names (names : List String) (hnames : ∀ name ∈ names, PlainName name ∧ Quotable name)
    {ps : List PropertyInfo} (hprops : ps.map (·.propertyName) = names) (hcolumns : ps.map (·.columnName) = names) :
    Fits ps where
  properties _ hp := (hnames _ (hprops ▸ List.mem_map_of_mem hp)).1
  columns _ hp := (hnames _ (hcolumns ▸ List.mem_map_of_mem hp)).2

theorem parameters_agree_messages :
    (∃ paramsGetter, selectParamsGetter (Script.run (SelectCall.arguments messagesInfo))
        (messagesBetween.propertiesInfo messagesInfo) true = .ok paramsGetter ∧
      Binds (getSelect "messages" "chat" (messagesBetween.propertiesInfo messagesInfo)
        (messagesBetween.fieldsInfo messagesInfo) [("time", "DESC")] true) (paramsGetter messagesBetween)
        (selectBindings messagesInfo messagesBetween)) ∧
    ∃ q, getUpdate chat.runInThisContext messages "chat" (chat.propertiesInfo message) (chat.whenInfo message)
        true false = .ok q ∧
      Binds q.query (q.paramsGetter message)
        (updateBindings messages message (chat.propertiesInfo message) (chat.whenInfo message)) := by
  have hagree := parameters_agree chat (Script.run (SelectCall.arguments messagesInfo)) (fun _ _ h => h)
    (fun _ _ h => h) (by decide : Placeholders.Plain "chat".toList)
  have hname : Placeholders.Plain "messages".toList := by decide
  refine ⟨hagree.1 messagesBetween "messages" [("time", "DESC")] hname
    (fits_of_names ["room", "time"] (by decide) rfl rfl) (fun _ hp => by cases hp) (by rfl) (by decide), ?_⟩
  have hprops : Fits (chat.propertiesInfo message) := fits_of_names ["room", "time", "text"] (by decide) rfl rfl
  have hwhen : Fits (chat.whenInfo message) := fits_of_names ["topic"] (by decide) rfl rfl
  have hnone : ∀ p ∈ primaryKeys messages (filteredPropertiesInfo messages (chat.propertiesInfo message)),
      p.operators = .none := by decide +kernel
  have hkeys : chat.whenInfo message ≠ [] →
      primaryKeys messages (filteredPropertiesInfo messages (chat.propertiesInfo message)) ≠ [] :=
    fun _ => by decide +kernel
  have hexists : message.info.ifExists = true → chat.whenInfo message = [] := fun hexists => by cases hexists
  have hothers : otherColumns messages (filteredPropertiesInfo messages (chat.propertiesInfo message)) ≠ [] := by
    decide +kernel
  obtain ⟨q, hq⟩ := exists_getUpdate (h := chat) (c := message) (fun _ _ h => h) hprops hwhen hkeys hothers (by decide +kernel)
  exact ⟨q, hq, ((hagree.2 message messages hname hprops).2 hwhen hnone hkeys hexists).1 hothers q hq⟩

/-- The number of placeholders and that of the values. -/
def numbers (c : Call ℕ) (r : Except Error (QueryInfo ℕ (Option (List (Value ℕ))))) : Option (ℕ × Option ℕ) :=
  r.toOption.map fun q => (Placeholders.count q.query, (q.paramsGetter c).map List.length)

/-- An insert with `q.and`, one of a time to live only, an update with both kinds of conditions, and a delete with
conditions that names no key have one value more than placeholders, or more. -/
theorem not_parameters_agree :
    (numbers messagesInsert (getInsert chat.runInThisContext messages "chat" (chat.propertiesInfo messagesInsert)
      false false) = some (2, some 3)) ∧
    (numbers message (getInsert chat.runInThisContext messages "chat" [] true false) = some (1, some 2)) ∧
    (numbers message (getUpdate chat.runInThisContext messages "chat" (chat.propertiesInfo message)
      (chat.whenInfo message) true true) = some (4, some 6)) ∧
    numbers message (getDelete chat.runInThisContext messages "chat" [] (chat.whenInfo message) false false) =
      some (2, some 3) := by
  decide +kernel

end CqlDriver.Mapping
