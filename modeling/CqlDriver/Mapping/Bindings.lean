import CqlDriver.Lib.Placeholders
import CqlDriver.Mapping.Scripts

/-! # Placeholders and their values (`lib/mapping/query-generator.js`)

A binding is a placeholder with the value that belongs to it.  Every part of a statement yields the placeholders of its
bindings (`yields_bindingsAt`, `yields_assignmentBinding`), and the expressions that the script has for it yield their
values (`eval_bindingsAt`, `eval_assignmentExpr`). -/

namespace CqlDriver.Mapping

variable {V : Type}

open Placeholders (Target Yields yields_plain)
open Script QueryGenerator

/-! ### Bindings -/

/-- A placeholder with its value. -/
abbrev Binding (V : Type) := Target × Value V

section Bindings

variable (p : PropertyInfo)

/-- A value with the function of the model. -/
def converted (value : Value V) : Value V := if p.fromModel then .fromModel p.propertyName value else value

/-- The value in an operator, with the function of the model. -/
def operand (op : Operator) (v : V) : Value V :=
  if p.fromModel then
    if op = .in_ then .fromModelEach p.propertyName (.plain v) else .fromModel p.propertyName (.plain v)
  else .plain v

/-- The bindings of a condition on a column. -/
def conditionBindings : DocValue V → List (Binding V)
  | .plain v => [(.column p.columnName "=", converted p (.plain v))]
  | .operator op v => [(.column p.columnName op.key, operand p op v)]
  | .and condition1 condition2 => conditionBindings condition1 ++ conditionBindings condition2
  | .assignment sign inverted v => [(.column p.columnName "=", converted p (.query (.assignment sign inverted v)))]

/-- The bindings of the condition that a property of an object makes. -/
def bindingsAt (obj : Document V) : List (Binding V) :=
  match JsObject.get obj.properties p.propertyName with
  | .own value => conditionBindings p value
  | .inherited => [(.column p.columnName "=", converted p (.inherited p.propertyName))]
  | .undefined => [(.column p.columnName "=", converted p .undefined)]

/-- The binding of a column that is set to a property of an object. -/
def valueBindings (obj : Document V) : List (Binding V) :=
  (bindingsAt p obj).map fun binding => (.column p.columnName "=", binding.2)

/-- The binding of an assignment: the value in a `QueryAssignment`, or that of the property. -/
def assignmentBinding (obj : Document V) : Binding V :=
  match JsObject.get obj.properties p.propertyName with
  | .own (.assignment sign inverted v) =>
      (.column p.columnName (if inverted then "=" else sign.text), converted p (.plain v))
  | read => (.column p.columnName "=", converted p (.ofRead p.propertyName read))

end Bindings

/-- The binding of an option. -/
def optionBinding (target : Target) (option : Option ℤ) : List (Binding V) :=
  option.toList.map fun n => (target, .number n)

/-! ### Expressions -/

section Expressions

variable (p : PropertyInfo)

def convertedExpr (path : Path) : Expr := if p.fromModel then .call p.propertyName path else .path path

def operandExpr (op : Operator) (path : Path) : Expr :=
  if p.fromModel then if op = .in_ then .mapCall p.propertyName path else .call p.propertyName path
  else .path path

/-- The expressions of `_valueGetterSingle`. -/
def conditionExprs (path : Path) : Operators → List Expr
  | .none => [convertedExpr p path]
  | .single op => [operandExpr p op (.value path)]
  | .and value0 value1 => conditionExprs (.item path false) value0 ++ conditionExprs (.item path true) value1

/-- The expression of `_assignmentGetterExpression`. -/
def assignmentExpr : Expr :=
  convertedExpr p (if p.assigned.isSome then .value (.doc p.propertyName) else .doc p.propertyName)

theorem text_convertedExpr (path : Path) : (convertedExpr p path).text =
    if p.fromModel then getMappingFunctionCall p.propertyName path.text else path.text := by
  unfold convertedExpr
  split_ifs <;> rfl

theorem conditionExprs_ne_nil (path : Path) (operators : Operators) : conditionExprs p path operators ≠ [] := by
  cases operators with
  | none => exact List.cons_ne_nil _ _
  | single op => exact List.cons_ne_nil _ _
  | and value0 value1 =>
      exact List.append_ne_nil_of_left_ne_nil (conditionExprs_ne_nil (.item path false) value0) _

theorem valueGetterSingle_eq (path : Path) (operators : Operators) :
    valueGetterSingle path.text p.propertyName p.fromModel operators = joined (conditionExprs p path operators) := by
  induction operators generalizing path with
  | none =>
      rw [conditionExprs, joined, List.map_singleton, String.intercalate_singleton, text_convertedExpr]
      rfl
  | single op =>
      rw [conditionExprs, joined, List.map_singleton, String.intercalate_singleton, operandExpr, valueGetterSingle]
      split_ifs <;> rfl
  | and value0 value1 ih₀ ih₁ =>
      rw [conditionExprs, joined_append (conditionExprs_ne_nil p _ _) (conditionExprs_ne_nil p _ _), ← ih₀, ← ih₁]
      rfl

/-- The expressions of a property. -/
def exprsAt (source : String → Path) : List Expr := conditionExprs p (source p.propertyName) p.operators

end Expressions

theorem valueGetterExpression_eq {objectName : String} {source : String → Path}
    (hsource : ∀ name, (source name).text = objectName ++ "['" ++ name ++ "']") (ps : List PropertyInfo) :
    valueGetterExpression ps objectName = joined (ps.flatMap fun p => exprsAt p source) := by
  have hne : ∀ p ∈ ps, exprsAt p source ≠ [] := fun p _ => conditionExprs_ne_nil p _ _
  rw [← intercalate_joined hne, valueGetterExpression]
  refine congrArg (", ".intercalate ·) (List.map_congr_left fun p _ => ?_)
  rw [exprsAt, ← valueGetterSingle_eq, hsource]

theorem valueGetterExpression_doc (ps : List PropertyInfo) :
    valueGetterExpression ps "doc" = joined (ps.flatMap fun p => exprsAt p .doc) :=
  valueGetterExpression_eq (fun _ => rfl) ps

theorem valueGetterExpression_when (ps : List PropertyInfo) :
    valueGetterExpression ps "docInfo.when" = joined (ps.flatMap fun p => exprsAt p .when) :=
  valueGetterExpression_eq (fun _ => rfl) ps

theorem assignmentGetterExpression_eq (ps : List PropertyInfo) :
    assignmentGetterExpression ps = joined (ps.map assignmentExpr) := by
  rw [assignmentGetterExpression, joined, List.map_map]
  refine congrArg (", ".intercalate ·) (List.map_congr_left fun p _ => ?_)
  rw [Function.comp_apply, assignmentExpr, text_convertedExpr]
  cases p.assigned <;> simp [Path.text]

/-! ### Values of the expressions -/

/-- What the properties tell about an object holds of it. -/
structure Describes (obj : Document V) (info : ModelMappingInfo) (p : PropertyInfo) : Prop where
  operators : p.operators = obj.operatorsAt p.propertyName
  assigned : p.assigned = obj.assignedAt p.propertyName
  fromModel : p.fromModel = info.getFromModelFn p.propertyName

theorem describes_getPropertiesInfo (docKeys fields : List String) (doc : Document V) (info : ModelMappingInfo) :
    ∀ p ∈ getPropertiesInfo docKeys fields doc info, Describes doc info p := by
  intro p hp
  obtain ⟨name, -, rfl⟩ := List.mem_map.1 hp
  exact ⟨rfl, rfl, rfl⟩

section Evaluation

variable {args : Arguments V} {p : PropertyInfo}

theorem eval_convertedExpr (hp : p.fromModel = args.mappingInfo.getFromModelFn p.propertyName) {path : Path}
    {value : Value V} (hpath : path.eval args = some value) :
    (convertedExpr p path).eval args = some (converted p value) := by
  unfold convertedExpr converted
  split_ifs with hfrom
  · rw [hp] at hfrom
    simp [Expr.eval, hpath, applyFromModel, hfrom]
  · exact hpath

theorem eval_operandExpr (hp : p.fromModel = args.mappingInfo.getFromModelFn p.propertyName) {path : Path} {v : V}
    (op : Operator) (hpath : path.eval args = some (.plain v)) :
    (operandExpr p op path).eval args = some (operand p op v) := by
  unfold operandExpr operand
  split_ifs with hfrom
  · rw [hp] at hfrom
    simp [Expr.eval, hpath, applyFromModel, hfrom]
  · rw [hp] at hfrom
    simp [Expr.eval, hpath, applyFromModel, hfrom]
  · exact hpath

theorem eval_conditionExprs (hp : p.fromModel = args.mappingInfo.getFromModelFn p.propertyName) {path : Path}
    {value : DocValue V} (hpath : path.eval args = some (.ofDocValue value)) :
    (conditionExprs p path value.operators).mapM (Expr.eval args) =
      some ((conditionBindings p value).map Prod.snd) := by
  induction value generalizing path with
  | plain v =>
      simp only [DocValue.operators, conditionExprs, List.mapM_cons, eval_convertedExpr hp hpath]
      rfl
  | operator op v =>
      have hvalue : (Path.value path).eval args = some (.plain v) := by
        rw [Path.eval, hpath]
        rfl
      simp only [DocValue.operators, conditionExprs, List.mapM_cons, eval_operandExpr hp op hvalue]
      rfl
  | and condition1 condition2 ih₁ ih₂ =>
      have h₁ : (Path.item path false).eval args = some (.ofDocValue condition1) := by
        rw [Path.eval, hpath]
        rfl
      have h₂ : (Path.item path true).eval args = some (.ofDocValue condition2) := by
        rw [Path.eval, hpath]
        rfl
      simp only [DocValue.operators, conditionExprs, conditionBindings, List.mapM_append, ih₁ h₁, ih₂ h₂,
        List.map_append]
      rfl
  | assignment sign inverted v =>
      simp only [DocValue.operators, conditionExprs, List.mapM_cons, eval_convertedExpr hp hpath]
      rfl

theorem mapM_flatMap {α β γ : Type} {f : β → Option γ} {es : α → List β} {values : α → List γ} : ∀ {xs : List α},
    (∀ x ∈ xs, (es x).mapM f = some (values x)) → (xs.flatMap es).mapM f = some (xs.flatMap values)
  | [], _ => rfl
  | x :: xs, h => by
      have ih := mapM_flatMap fun y hy => h y (List.mem_cons_of_mem x hy)
      rw [List.flatMap_cons, List.flatMap_cons, List.mapM_append, h x (List.mem_cons_self ..), ih]
      rfl

theorem operatorsAt_own {obj : Document V} {name : String} {value : DocValue V}
    (h : JsObject.get obj.properties name = .own value) :
    obj.operatorsAt name = value.operators ∧ obj.assignedAt name = value.assigned := by
  simp [Document.operatorsAt, Document.assignedAt, Document.get, h]

theorem operatorsAt_of_ne_own {obj : Document V} {name : String}
    (h : ∀ value, JsObject.get obj.properties name ≠ .own value) :
    obj.operatorsAt name = .none ∧ obj.assignedAt name = none := by
  unfold Document.operatorsAt Document.assignedAt Document.get
  cases hget : JsObject.get obj.properties name with
  | own value => exact absurd hget (h value)
  | inherited => exact ⟨rfl, rfl⟩
  | undefined => exact ⟨rfl, rfl⟩

/-- The expressions of a property have the values of its bindings. -/
theorem eval_bindingsAt {obj : Document V} (hp : Describes obj args.mappingInfo p) {source : String → Path}
    (hsource : ∀ name, (source name).eval args = some (.ofRead name (JsObject.get obj.properties name))) :
    (exprsAt p source).mapM (Expr.eval args) = some ((bindingsAt p obj).map Prod.snd) := by
  have hpath := hsource p.propertyName
  unfold exprsAt bindingsAt
  cases hget : JsObject.get obj.properties p.propertyName with
  | own value =>
      rw [hget] at hpath
      rw [hp.operators, (operatorsAt_own hget).1]
      exact eval_conditionExprs hp.fromModel hpath
  | inherited =>
      rw [hget] at hpath
      rw [hp.operators, (operatorsAt_of_ne_own (by simp [hget])).1]
      simp only [conditionExprs, List.mapM_cons, eval_convertedExpr hp.fromModel hpath]
      rfl
  | undefined =>
      rw [hget] at hpath
      rw [hp.operators, (operatorsAt_of_ne_own (by simp [hget])).1]
      simp only [conditionExprs, List.mapM_cons, eval_convertedExpr hp.fromModel hpath]
      rfl

/-- The expression of an assignment has the value of its binding. -/
theorem eval_assignmentExpr (hp : Describes args.doc args.mappingInfo p) :
    (assignmentExpr p).eval args = some (assignmentBinding p args.doc).2 := by
  have hpath : (Path.doc p.propertyName).eval args =
      some (.ofRead p.propertyName (JsObject.get args.doc.properties p.propertyName)) := rfl
  unfold assignmentExpr assignmentBinding
  rw [hp.assigned]
  cases hget : JsObject.get args.doc.properties p.propertyName with
  | own value =>
      rw [hget] at hpath
      rw [(operatorsAt_own hget).2]
      cases value with
      | assignment sign inverted v =>
          have hvalue : (Path.value (.doc p.propertyName)).eval args = some (.plain v) := by
            rw [Path.eval, hpath]
            rfl
          exact eval_convertedExpr hp.fromModel hvalue
      | plain v => exact eval_convertedExpr hp.fromModel hpath
      | operator op v => exact eval_convertedExpr hp.fromModel hpath
      | and condition1 condition2 => exact eval_convertedExpr hp.fromModel hpath
  | inherited =>
      rw [hget] at hpath
      rw [(operatorsAt_of_ne_own (by simp [hget])).2]
      exact eval_convertedExpr hp.fromModel hpath
  | undefined =>
      rw [hget] at hpath
      rw [(operatorsAt_of_ne_own (by simp [hget])).2]
      exact eval_convertedExpr hp.fromModel hpath

end Evaluation

/-! ### Placeholders of the conditions -/

section Targets

variable {p : PropertyInfo}

/-- The name can be read back from its quotes. -/
def Quotable (name : String) : Prop := '"' ∉ name.toList

instance (name : String) : Decidable (Quotable name) := inferInstanceAs (Decidable ('"' ∉ name.toList))

theorem yields_quoted {name : String} (h : Quotable name) : Yields (quoted name) [] := Placeholders.yields_name h

/-- An operator is a word of its own. -/
structure IsWord (operator : String) : Prop where
  plain : Placeholders.Plain (" " ++ operator ++ " ").toList
  word : Placeholders.lastWord (" " ++ operator ++ " ").toList.reverse = operator
  ttl : operator ≠ "TTL"
  limit : operator ≠ "LIMIT"

theorem isWord_eq : IsWord "=" := ⟨by decide, by decide, by decide, by decide⟩

theorem isWord_key (op : Operator) : IsWord op.key := by
  cases op <;> exact ⟨by decide, by decide, by decide, by decide⟩

theorem isWord_sign (sign : Sign) : IsWord sign.text := by
  cases sign <;> exact ⟨by decide, by decide, by decide, by decide⟩

/-- A placeholder behind a column and an operator. -/
theorem yields_operator {name operator : String} (h : Quotable name) (ho : IsWord operator) :
    Yields (quoted name ++ " " ++ operator ++ " ?") [.column name operator] := by
  have htarget : Placeholders.target name.toList (" " ++ operator ++ " ").toList.reverse = .column name operator := by
    rw [Placeholders.target, ho.word, if_neg ho.ttl, if_neg ho.limit, String.ofList_toList]
  have hyields := Placeholders.yields_column h ho.plain
  rw [htarget] at hyields
  have htext : quoted name ++ " " ++ operator ++ " ?" =
      "\"" ++ name ++ "\"" ++ (" " ++ operator ++ " ") ++ "?" := by
    simp only [quoted, String.append_assoc]
    rfl
  rw [htext]
  exact hyields

theorem yields_equality {name : String} (h : Quotable name) : Yields (quoted name ++ " = ?") [.column name "="] := by
  have hyields := yields_operator h isWord_eq
  rw [String.append_assoc, String.append_assoc] at hyields
  exact hyields

theorem yields_conditionBindings (h : Quotable p.columnName) (value : DocValue V) :
    Yields (getSingleCondition p.columnName value.operators) ((conditionBindings p value).map Prod.fst) := by
  induction value with
  | plain v => exact yields_equality h
  | operator op v => exact yields_operator h (isWord_key op)
  | and condition1 condition2 ih₁ ih₂ =>
      have hand := (ih₁.append (yields_plain (by decide : Placeholders.Plain " AND ".toList))).append ih₂
      rw [List.append_nil, ← List.map_append] at hand
      exact hand
  | assignment sign inverted v => exact yields_equality h

/-- The condition on a property has the placeholders of its bindings. -/
theorem yields_bindingsAt {obj : Document V} {info : ModelMappingInfo} (hp : Describes obj info p)
    (h : Quotable p.columnName) :
    Yields (getSingleCondition p.columnName p.operators) ((bindingsAt p obj).map Prod.fst) := by
  unfold bindingsAt
  rw [hp.operators]
  cases hget : JsObject.get obj.properties p.propertyName with
  | own value =>
      rw [(operatorsAt_own hget).1]
      exact yields_conditionBindings h value
  | inherited =>
      rw [(operatorsAt_of_ne_own (by simp [hget])).1]
      exact yields_equality h
  | undefined =>
      rw [(operatorsAt_of_ne_own (by simp [hget])).1]
      exact yields_equality h

/-- The assignment of a column has the placeholder of its binding. -/
theorem yields_assignmentBinding {obj : Document V} {info : ModelMappingInfo} (hp : Describes obj info p)
    (h : Quotable p.columnName) : Yields (assignment p) [(assignmentBinding p obj).1] := by
  unfold assignment assignmentBinding
  rw [hp.assigned]
  cases hget : JsObject.get obj.properties p.propertyName with
  | own value =>
      rw [(operatorsAt_own hget).2]
      cases value with
      | assignment sign inverted v =>
          cases inverted with
          | true =>
              have hplain : Placeholders.Plain (" " ++ sign.text ++ " ").toList := (isWord_sign sign).plain
              have hall := ((yields_equality h).append (yields_plain hplain)).append (yields_quoted h)
              simp only [List.append_nil, String.append_assoc] at hall ⊢
              exact hall
          | false =>
              have hplain : Placeholders.Plain " = ".toList := by decide
              have hall := ((yields_quoted h).append (yields_plain hplain)).append
                (yields_operator h (isWord_sign sign))
              simp only [List.nil_append, String.append_assoc] at hall ⊢
              exact hall
      | plain v => exact yields_equality h
      | operator op v => exact yields_equality h
      | and condition1 condition2 => exact yields_equality h
  | inherited =>
      rw [(operatorsAt_of_ne_own (by simp [hget])).2]
      exact yields_equality h
  | undefined =>
      rw [(operatorsAt_of_ne_own (by simp [hget])).2]
      exact yields_equality h

end Targets

section Lists

variable {ps : List PropertyInfo} {obj : Document V} {info : ModelMappingInfo}

/-- The names of the columns can be read back from their quotes. -/
def QuotableColumns (ps : List PropertyInfo) : Prop := ∀ p ∈ ps, Quotable p.columnName

instance (ps : List PropertyInfo) : Decidable (QuotableColumns ps) :=
  inferInstanceAs (Decidable (∀ p ∈ ps, Quotable p.columnName))

theorem plain_and : Placeholders.Plain " AND ".toList := by decide

theorem plain_comma : Placeholders.Plain ", ".toList := by decide

theorem yields_getConditionWithOperators (hps : ∀ p ∈ ps, Describes obj info p) (h : QuotableColumns ps) :
    Yields (getConditionWithOperators ps) ((ps.flatMap (bindingsAt · obj)).map Prod.fst) := by
  rw [List.map_flatMap]
  exact Placeholders.yields_intercalate plain_and fun p hp => yields_bindingsAt (hps p hp) (h p hp)

/-- The bindings of a property without operators: one for its column. -/
theorem bindingsAt_of_none {p : PropertyInfo} (hp : Describes obj info p) (hnone : p.operators = .none) :
    (bindingsAt p obj).map Prod.fst = [.column p.columnName "="] := by
  unfold bindingsAt
  rw [hp.operators] at hnone
  cases hget : JsObject.get obj.properties p.propertyName with
  | own value =>
      rw [(operatorsAt_own hget).1] at hnone
      cases value with
      | plain v => rfl
      | assignment sign inverted v => rfl
      | operator op v => cases hnone
      | and condition1 condition2 => cases hnone
  | inherited => rfl
  | undefined => rfl

theorem yields_whereClause (hps : ∀ p ∈ ps, Describes obj info p) (hnone : ∀ p ∈ ps, p.operators = .none)
    (h : QuotableColumns ps) : Yields (whereClause ps) ((ps.flatMap (bindingsAt · obj)).map Prod.fst) := by
  rw [List.map_flatMap]
  apply Placeholders.yields_intercalate plain_and
  intro p hp
  rw [bindingsAt_of_none (hps p hp) (hnone p hp)]
  exact yields_equality (h p hp)

theorem yields_assignments (hps : ∀ p ∈ ps, Describes obj info p) (h : QuotableColumns ps) :
    Yields (", ".intercalate (ps.map assignment)) ((ps.map (assignmentBinding · obj)).map Prod.fst) := by
  have hyields := Placeholders.yields_intercalate plain_comma fun p hp =>
    yields_assignmentBinding (hps p hp) (h p hp)
  rw [← List.map_eq_flatMap] at hyields
  rw [List.map_map]
  exact hyields

theorem yields_columns (h : QuotableColumns ps) : Yields (", ".intercalate (ps.map fun p => quoted p.columnName)) [] := by
  have hyields := Placeholders.yields_intercalate plain_comma fun p hp => yields_quoted (h p hp)
  rwa [List.flatMap_eq_nil_iff.2 fun _ _ => rfl] at hyields

/-- The condition of a statement; one with `when` has none of the other kind. -/
theorem yields_condition {ifExists : Bool} (hps : ∀ p ∈ ps, Describes obj info p) (h : QuotableColumns ps)
    (hexists : ifExists = true → ps = []) :
    Yields (condition ifExists ps) ((ps.flatMap (bindingsAt · obj)).map Prod.fst) := by
  unfold condition
  split_ifs with hif hnil
  · rw [hexists hif]
    exact yields_plain (by decide)
  · rw [hnil]
    exact yields_plain (by decide)
  · have hplain : Placeholders.Plain " IF ".toList := by decide
    exact (yields_plain hplain).append (yields_getConditionWithOperators hps h)

end Lists

end CqlDriver.Mapping
