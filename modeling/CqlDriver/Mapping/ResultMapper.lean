import CqlDriver.Mapping.ModelMapping
import CqlDriver.Mapping.Parameters

/-! # Documents from results (`lib/mapping/result-mapper.js`)

`getSelectAdapter` writes a script that takes a row to a document: one assignment for each column of the result.
`Adapter.run` reads such a script, and gives the function that it stands for (`run_selectAdapterText`).  A document that
an insert has written to a table comes back from a select: each of its properties has the value that was given for
it, whenever the property is the one that its column is read for (`insert_select`). -/

namespace CqlDriver.Mapping

/-! ### Results -/

/-- A column of a result; `isBoolean` compares its type code with that of `boolean`. -/
structure ResultColumn where
  name : String
  isBoolean : Bool
deriving DecidableEq

/-- The own properties of a row, in the order of the columns. -/
abbrev Row (W : Type) := List (String × W)

/-- What the names and the functions of a model make of a row. -/
structure Reader (W : Type) where
  mapping : ModelMapping
  /-- The function of `getToModelFn`, for a column that has one. -/
  toModel : String → W → W
  /-- What a row has under a name that is no column of it: `undefined`, or a member of its class. -/
  missing : String → W

section
variable {W : Type} (reader : Reader W)

/-- `row[name]` -/
def Reader.read (row : Row W) (name : String) : W := (row.lookup name).getD (reader.missing name)

/-- The value of a column for the document. -/
def Reader.value (row : Row W) (column : String) : W :=
  if reader.mapping.getToModelFn column then reader.toModel column (reader.read row column) else reader.read row column

/-- The document of a row. -/
def Reader.document (columns : List ResultColumn) (row : Row W) : List (String × W) :=
  (columns.map fun c => (reader.mapping.getPropertyName c.name, reader.value row c.name)).foldl
    (fun item p => JsObject.set item p.1 p.2) []

end

/-! ### Scripts -/

namespace Adapter

/-- The expression for a property. -/
inductive Getter where
  | row (column : String)
  | toModel (functionOf column : String)
deriving DecidableEq

def Getter.text : Getter → String
  | row column => "row['" ++ column ++ "'];"
  | toModel functionOf column => "info.getToModelFn('" ++ functionOf ++ "')(row['" ++ column ++ "']);"

structure Assignment where
  property : String
  getter : Getter
deriving DecidableEq

def Assignment.text (a : Assignment) : String := "  item['" ++ a.property ++ "'] = " ++ a.getter.text

/-- The line of a column in `getSelectAdapter`. -/
def columnText (m : ModelMapping) (column : String) : String :=
  "  item['" ++ m.getPropertyName column ++ "'] = " ++
    if !m.getToModelFn column then "row['" ++ column ++ "'];\n"
    else "info.getToModelFn('" ++ column ++ "')(row['" ++ column ++ "']);\n"

/-- The script of `getSelectAdapter`. -/
def selectAdapterText (m : ModelMapping) (columns : List ResultColumn) : String :=
  "(function rowAdapter(row, info) \x7b\n" ++ "  const item = info.newInstance();\n" ++
    String.join (columns.map fun c => columnText m c.name) ++ "  return item;\n\x7d)"

/-! ### Reading -/

open Script (parseName)

def parseGetter (cs : List Char) : Option Getter :=
  match cs.dropPrefix? "row['".toList with
  | some rest => do
      let (column, rest) := parseName rest
      if rest = "'];".toList then some (.row column) else none
  | none => do
      let rest ← cs.dropPrefix? "info.getToModelFn('".toList
      let (functionOf, rest) := parseName rest
      let rest ← rest.dropPrefix? "')(row['".toList
      let (column, rest) := parseName rest
      if rest = "']);".toList then some (.toModel functionOf column) else none

def parseAssignment (cs : List Char) : Option Assignment := do
  let rest ← cs.dropPrefix? "  item['".toList
  let (property, rest) := parseName rest
  let rest ← rest.dropPrefix? "'] = ".toList
  let getter ← parseGetter rest
  return ⟨property, getter⟩

/-- The assignments of a script, one on each line between the first two and the last two. -/
def parseAdapter (text : String) : Option (List Assignment) :=
  match text.toList.splitOn '\n' with
  | first :: second :: rest =>
      if first = "(function rowAdapter(row, info) \x7b".toList ∧
          second = "  const item = info.newInstance();".toList ∧
          rest.drop (rest.length - 2) = ["  return item;".toList, "\x7d)".toList] then
        (rest.take (rest.length - 2)).mapM parseAssignment
      else none
  | _ => none

/-! ### Evaluation -/

variable {W : Type} (reader : Reader W)

/-- The value of an expression; a call of a function that is missing has none. -/
def Getter.eval (row : Row W) : Getter → Option W
  | .row column => some (reader.read row column)
  | .toModel functionOf column =>
      if reader.mapping.getToModelFn functionOf then some (reader.toModel functionOf (reader.read row column)) else none

/-- The document that the assignments make. -/
def eval (assignments : List Assignment) (row : Row W) : Option (List (String × W)) :=
  (assignments.mapM fun a : Assignment => (a.getter.eval reader row).map (a.property, ·)).map fun props =>
    props.foldl (fun item p => JsObject.set item p.1 p.2) []

/-- `new vm.Script(scriptText).runInThisContext()`, for the function that it gives. -/
def run (scriptText : String) : Option (Row W → Option (List (String × W))) :=
  (parseAdapter scriptText).map fun assignments row => eval reader assignments row

/-! ### Reading what was written -/

open Script (PlainName quote dropPrefix_append parseName_append isPlainChar)

def Getter.Plain : Getter → Prop
  | row column => PlainName column
  | toModel functionOf column => PlainName functionOf ∧ PlainName column

structure Assignment.Plain (a : Assignment) : Prop where
  property : PlainName a.property
  getter : a.getter.Plain

theorem toList_row (column : String) :
    (Getter.row column).text.toList = "row['".toList ++ (column.toList ++ quote :: ']' :: ';' :: []) := by
  unfold Getter.text
  simp only [String.toList_append, List.append_assoc]
  rfl

theorem toList_toModel (functionOf column : String) :
    (Getter.toModel functionOf column).text.toList = "info.getToModelFn('".toList ++ (functionOf.toList ++
      ("')(row['".toList ++ (column.toList ++ quote :: ']' :: ')' :: ';' :: []))) := by
  unfold Getter.text
  simp only [String.toList_append, List.append_assoc]
  rfl

theorem parseGetter_text {getter : Getter} (h : getter.Plain) : parseGetter getter.text.toList = some getter := by
  cases getter with
  | row column =>
      rw [toList_row, parseGetter, dropPrefix_append]
      simp only [parseName_append h]
      rfl
  | toModel functionOf column =>
      have hrow (cs : List Char) : ("info.getToModelFn('".toList ++ cs).dropPrefix? "row['".toList = none := by
        simp [List.dropPrefix?]
      have hname (cs : List Char) : parseName (functionOf.toList ++ ("')(row['".toList ++ cs)) =
          (functionOf, "')(row['".toList ++ cs) := parseName_append h.1 _
      rw [toList_toModel, parseGetter, hrow]
      simp only [dropPrefix_append, Option.bind_eq_bind, Option.bind_some, hname, parseName_append h.2]
      rfl

theorem toList_assignment (a : Assignment) :
    a.text.toList = "  item['".toList ++ (a.property.toList ++ ("'] = ".toList ++ a.getter.text.toList)) := by
  unfold Assignment.text
  simp only [String.toList_append, List.append_assoc]

theorem parseAssignment_text {a : Assignment} (h : a.Plain) : parseAssignment a.text.toList = some a := by
  have hname (cs : List Char) : parseName (a.property.toList ++ ("'] = ".toList ++ cs)) =
      (a.property, "'] = ".toList ++ cs) := parseName_append h.property _
  rw [toList_assignment, parseAssignment]
  simp only [dropPrefix_append, Option.bind_eq_bind, Option.bind_some, hname, parseGetter_text h.getter]
  rfl

theorem Assignment.Plain.newline {a : Assignment} (h : a.Plain) : '\n' ∉ a.text.toList := by
  have hplain {name : String} (hname : PlainName name) : '\n' ∉ name.toList := fun hc => by
    have hchar := hname _ hc
    revert hchar
    decide
  have hgetter : '\n' ∉ a.getter.text.toList := by
    cases hget : a.getter with
    | row column =>
        have hcolumn : PlainName column := by simpa [hget, Getter.Plain] using h.getter
        rw [toList_row]
        simp only [List.mem_append, List.mem_cons, List.not_mem_nil, or_false, not_or]
        exact ⟨by decide, hplain hcolumn, by decide, by decide, by decide⟩
    | toModel functionOf column =>
        have hnames : PlainName functionOf ∧ PlainName column := by simpa [hget, Getter.Plain] using h.getter
        rw [toList_toModel]
        simp only [List.mem_append, List.mem_cons, List.not_mem_nil, or_false, not_or]
        exact ⟨by decide, hplain hnames.1, by decide, hplain hnames.2, by decide, by decide, by decide, by decide⟩
  rw [toList_assignment]
  simp only [List.mem_append, not_or]
  exact ⟨by decide, hplain h.property, by decide, hgetter⟩

/-- The assignment for a column. -/
def assignmentOf (m : ModelMapping) (c : ResultColumn) : Assignment where
  property := m.getPropertyName c.name
  getter := if m.getToModelFn c.name then .toModel c.name c.name else .row c.name

/-- The lines of a script. -/
def lines (assignments : List Assignment) : List (List Char) :=
  "(function rowAdapter(row, info) \x7b".toList :: "  const item = info.newInstance();".toList ::
    (assignments.map (·.text.toList) ++ ["  return item;".toList, "\x7d)".toList])

theorem intercalate_concat (lines : List (List Char)) (last : List Char) :
    ['\n'].intercalate (lines ++ [last]) = lines.flatMap (· ++ ['\n']) ++ last := by
  induction lines with
  | nil => simp
  | cons line lines ih =>
      rw [List.cons_append, List.intercalate_cons_of_ne_nil (by simp), ih, List.flatMap_cons]
      simp only [List.append_assoc]

theorem toList_columnText (m : ModelMapping) (c : ResultColumn) :
    (columnText m c.name).toList = (assignmentOf m c).text.toList ++ ['\n'] := by
  have hrow : "'];\n".toList = quote :: ']' :: ';' :: '\n' :: [] := rfl
  have hcall : "']);\n".toList = quote :: ']' :: ')' :: ';' :: '\n' :: [] := rfl
  rw [toList_assignment, columnText, assignmentOf]
  cases m.getToModelFn c.name with
  | false => simp only [Bool.not_false, if_true, Bool.false_eq_true, if_false, toList_row, String.toList_append,
      List.append_assoc, hrow, List.cons_append, List.nil_append]
  | true => simp only [Bool.not_true, Bool.false_eq_true, if_false, if_true, toList_toModel, String.toList_append,
      List.append_assoc, hcall, List.cons_append, List.nil_append]

theorem toList_selectAdapterText (m : ModelMapping) (columns : List ResultColumn) :
    (selectAdapterText m columns).toList = ['\n'].intercalate (lines (columns.map (assignmentOf m))) := by
  have hsplit (first second last close : List Char) (ls : List (List Char)) :
      first :: second :: (ls ++ [last, close]) = (first :: second :: ls) ++ [last] ++ [close] := by simp
  have hfirst : "(function rowAdapter(row, info) \x7b\n".toList = "(function rowAdapter(row, info) \x7b".toList ++
      ['\n'] := rfl
  have hsecond : "  const item = info.newInstance();\n".toList = "  const item = info.newInstance();".toList ++
      ['\n'] := rfl
  have hlast : "  return item;\n\x7d)".toList = "  return item;".toList ++ ['\n'] ++ "\x7d)".toList := rfl
  unfold selectAdapterText
  rw [lines, hsplit, intercalate_concat, List.flatMap_append, List.flatMap_cons, List.flatMap_cons]
  simp only [String.toList_append, String.toList_join, List.flatMap_map, toList_columnText, hfirst, hsecond, hlast,
    List.append_assoc, List.flatMap_cons, List.flatMap_nil, List.append_nil]

/-- The script for plain names is the function of its assignments. -/
theorem parseAdapter_lines {text : String} {assignments : List Assignment}
    (htext : text.toList = ['\n'].intercalate (lines assignments)) (h : ∀ a ∈ assignments, a.Plain) :
    parseAdapter text = some assignments := by
  have hline : ∀ line ∈ lines assignments, '\n' ∉ line := by
    intro line hmem
    simp only [lines, List.mem_cons, List.mem_append, List.mem_map, List.not_mem_nil, or_false] at hmem
    rcases hmem with rfl | rfl | ⟨a, ha, rfl⟩ | rfl | rfl
    · decide
    · decide
    · exact (h a ha).newline
    · decide
    · decide
  have hlength : (assignments.map (·.text.toList) ++ ["  return item;".toList, "\x7d)".toList]).length - 2 =
      (assignments.map (·.text.toList)).length := by
    rw [List.length_append]
    exact Nat.add_sub_cancel ..
  rw [parseAdapter, htext, List.splitOn_intercalate '\n' hline (List.cons_ne_nil _ _)]
  simp only [lines, hlength, List.drop_left, List.take_left, and_self, if_true]
  exact Script.mapM_map fun a ha => parseAssignment_text (h a ha)

section
variable {W : Type} (reader : Reader W)

theorem eval_assignments (columns : List ResultColumn) (row : Row W) :
    eval reader (columns.map (assignmentOf reader.mapping)) row = some (reader.document columns row) := by
  have hvalue (c : ResultColumn) : ((assignmentOf reader.mapping c).getter.eval reader row).map
      ((assignmentOf reader.mapping c).property, ·) =
        some (reader.mapping.getPropertyName c.name, reader.value row c.name) := by
    unfold assignmentOf Reader.value
    cases hfn : reader.mapping.getToModelFn c.name with
    | false => rfl
    | true => simp [Getter.eval, hfn]
  have hcomp : (fun a : Assignment => (a.getter.eval reader row).map (a.property, ·)) ∘ assignmentOf reader.mapping =
      fun c => some (reader.mapping.getPropertyName c.name, reader.value row c.name) := funext hvalue
  have hprops : (columns.mapM fun c => some (reader.mapping.getPropertyName c.name, reader.value row c.name)) =
      some (columns.map fun c => (reader.mapping.getPropertyName c.name, reader.value row c.name)) :=
    List.mapM_pure
  rw [eval, List.mapM_map, hcomp, hprops]
  rfl

/-- The names that the script for a result puts in quotes. -/
def PlainColumns (m : ModelMapping) (columns : List ResultColumn) : Prop :=
  ∀ c ∈ columns, PlainName (m.getPropertyName c.name) ∧ PlainName c.name

instance (m : ModelMapping) (columns : List ResultColumn) : Decidable (PlainColumns m columns) :=
  inferInstanceAs (Decidable (∀ c ∈ columns, PlainName (m.getPropertyName c.name) ∧ PlainName c.name))

/-- The script of a result with plain names makes the document of each row. -/
theorem run_selectAdapterText {columns : List ResultColumn} (h : PlainColumns reader.mapping columns) :
    run reader (selectAdapterText reader.mapping columns) = some fun row => some (reader.document columns row) := by
  have hplain : ∀ a ∈ columns.map (assignmentOf reader.mapping), a.Plain := by
    intro a ha
    obtain ⟨c, hc, rfl⟩ := List.mem_map.1 ha
    refine ⟨(h c hc).1, ?_⟩
    unfold assignmentOf
    split_ifs
    · exact ⟨(h c hc).2, (h c hc).2⟩
    · exact (h c hc).2
  rw [run, parseAdapter_lines (toList_selectAdapterText _ _) hplain]
  simp only [Option.map_some, eval_assignments]

end

end Adapter

/-! ### Documents -/

section
variable {W : Type} (reader : Reader W)

/-- The column whose value a property of the document gets: the last one that it is the property of. -/
def Reader.columnFor (columns : List ResultColumn) (propName : String) : Option ResultColumn :=
  columns.reverse.find? fun c => reader.mapping.getPropertyName c.name = propName

theorem lookup_map (columns : List ResultColumn) (f : ResultColumn → String) (g : ResultColumn → W) (name : String) :
    (columns.map fun c => (f c, g c)).lookup name = (columns.find? fun c => f c = name).map g := by
  induction columns with
  | nil => rfl
  | cons c columns ih =>
      rw [List.map_cons, List.lookup_cons]
      by_cases hname : f c = name
      · rw [hname, beq_self_eq_true, List.find?_cons_of_pos (by simpa using hname)]
        rfl
      · rw [beq_false_of_ne (Ne.symm hname), List.find?_cons_of_neg (by simpa using hname)]
        exact ih

theorem get_document (columns : List ResultColumn) (row : Row W) {propName : String} (h : propName ≠ "__proto__") :
    JsObject.get (reader.document columns row) propName =
      ((reader.columnFor columns propName).map fun c => reader.value row c.name).elim
        (JsObject.get ([] : List (String × W)) propName) .own := by
  rw [Reader.document, JsObject.get_foldl_set _ _ h, ← List.map_reverse, lookup_map]
  rfl

/-- The rows of a result whose columns have these values. -/
def rowOf (columns : List ResultColumn) (stored : String → W) : Row W := columns.map fun c => (c.name, stored c.name)

theorem value_rowOf {columns : List ResultColumn} (stored : String → W) {c : ResultColumn} (h : c ∈ columns) :
    reader.value (rowOf columns stored) c.name =
      if reader.mapping.getToModelFn c.name then reader.toModel c.name (stored c.name) else stored c.name := by
  have hread : reader.read (rowOf columns stored) c.name = stored c.name := by
    rw [Reader.read, rowOf, lookup_map]
    cases hfound : columns.find? fun d => d.name = c.name with
    | none =>
        have hnone := List.find?_eq_none.1 hfound c h
        simp at hnone
    | some d =>
        have hname : d.name = c.name := by simpa using List.find?_some hfound
        rw [← hname]
        rfl
  rw [Reader.value, hread]

/-- The value of a column in a new row, to which a statement has bound values. -/
def stored {V : Type} (received : Script.Value V → W) (null : W) (query : String) (values : List (Script.Value V))
    (column : String) : W :=
  (((Placeholders.targets query).zip values).lookup (.column column "=")).elim null received

end

/-! ### What an insert stores -/

open Script (Value)
open Placeholders (Target)
open QueryGenerator

/-- A document without operators and assignments. -/
def PlainDocument {V : Type} (doc : Document V) : Prop := ∀ p ∈ doc.properties, ∃ v, p.2 = .plain v

section
variable {V W : Type} {info : ModelMappingInfo} {table : TableMetadata} {c : Call V} {ps : List PropertyInfo}

theorem PlainDocument.noOperators {doc : Document V} (h : PlainDocument doc) : NoOperators doc := by
  intro p hp
  obtain ⟨v, hv⟩ := h p hp
  rw [hv]
  rfl

/-- The value that a placeholder of an insert gets. -/
def boundValue (doc : Document V) (p : PropertyInfo) : Value V :=
  converted p (.ofRead p.propertyName (JsObject.get doc.properties p.propertyName))

theorem valueBindings_plain {doc : Document V} (h : PlainDocument doc) (p : PropertyInfo) :
    valueBindings p doc = [(.column p.columnName "=", boundValue doc p)] := by
  unfold valueBindings bindingsAt boundValue
  cases hget : JsObject.get doc.properties p.propertyName with
  | own value =>
      obtain ⟨v, rfl⟩ := h _ (JsObject.mem_of_get hget)
      rfl
  | inherited => rfl
  | undefined => rfl

theorem lookup_bindings {props : List PropertyInfo} (hnodup : (props.map (·.columnName)).Nodup)
    {f : PropertyInfo → Value V} {p : PropertyInfo} (hp : p ∈ props) :
    (props.map fun p => (Target.column p.columnName "=", f p)).lookup (.column p.columnName "=") = some (f p) := by
  induction props with
  | nil => cases hp
  | cons q props ih =>
      rw [List.map_cons, List.nodup_cons] at hnodup
      rw [List.map_cons, List.lookup_cons]
      obtain rfl | hp := List.mem_cons.1 hp
      · rw [beq_self_eq_true]
      · have hne : (Target.column p.columnName "=" : Target) ≠ .column q.columnName "=" := by
          intro heq
          exact hnodup.1 (List.mem_map.2 ⟨p, hp, (Target.column.inj heq).1⟩)
        rw [beq_false_of_ne hne]
        exact ih hnodup.2 hp

/-- What an insert stores for a property of the document. -/
theorem stored_of_binds {query : String} {values : List (Value V)} (received : Value V → W) (null : W)
    (hbinds : Binds query (some values) (insertBindings table c ps)) (hplain : PlainDocument c.doc)
    (hnodup : ((filteredPropertiesInfo table ps).map (·.columnName)).Nodup) {p : PropertyInfo}
    (hp : p ∈ filteredPropertiesInfo table ps) :
    stored received null query values p.columnName = received (boundValue c.doc p) := by
  have hvalues : values = (insertBindings table c ps).map Prod.snd := Option.some.inj hbinds.values
  have hzip : (Placeholders.targets query).zip values = insertBindings table c ps := by
    have hunzip := List.zip_unzip (insertBindings table c ps)
    rw [List.unzip_eq_map] at hunzip
    rw [hbinds.targets, hvalues]
    exact hunzip
  have hbindings : insertBindings table c ps =
      ((filteredPropertiesInfo table ps).map fun p => (Target.column p.columnName "=", boundValue c.doc p)) ++
        optionBinding .ttl c.info.ttl := by
    rw [insertBindings, funext (valueBindings_plain hplain), ← List.map_eq_flatMap]
  rw [stored, hzip, hbindings, List.lookup_append, lookup_bindings hnodup hp]
  rfl

/-- The columns of a result that a property can be read from: none but its own. -/
def ReadAlone (m : ModelMapping) (columns : List ResultColumn) (p : PropertyInfo) : Prop :=
  p.columnName ∈ columns.map (·.name) ∧
    ∀ c ∈ columns, m.getPropertyName c.name = p.propertyName → c.name = p.columnName

/-- A property that is read from its own column has the value of the column just when the column is read for it. -/
theorem columnFor_of_readAlone {m : ModelMapping} {reader : Reader W} (hm : reader.mapping = m)
    {columns : List ResultColumn} {p : PropertyInfo} (h : ReadAlone m columns p) :
    (m.getPropertyName p.columnName = p.propertyName ∧
        ∃ d ∈ columns, reader.columnFor columns p.propertyName = some d ∧ d.name = p.columnName) ∨
      m.getPropertyName p.columnName ≠ p.propertyName ∧ reader.columnFor columns p.propertyName = none := by
  subst hm
  obtain ⟨hmem, halone⟩ := h
  have hfor {d : ResultColumn} (hd : reader.columnFor columns p.propertyName = some d) :
      d ∈ columns ∧ reader.mapping.getPropertyName d.name = p.propertyName :=
    ⟨List.mem_reverse.1 (List.mem_of_find?_eq_some hd), by simpa using List.find?_some hd⟩
  cases hfound : reader.columnFor columns p.propertyName with
  | some d =>
      obtain ⟨hd, hproperty⟩ := hfor hfound
      have hname := halone d hd hproperty
      exact .inl ⟨hname ▸ hproperty, d, hd, rfl, hname⟩
  | none =>
      refine .inr ⟨fun hproperty => ?_, rfl⟩
      obtain ⟨d, hd, hname⟩ := List.mem_map.1 hmem
      have hnone := List.find?_eq_none.1 hfound d (List.mem_reverse.2 hd)
      rw [hname, hproperty] at hnone
      simp at hnone

end

/-- The messages, with a property and functions of its own for the time. -/
def sentMapping : ModelMapping where
  keyspace := "chat"
  tables := [⟨"messages", false⟩]
  mappings := .default
  columns := [⟨⟨"time", "sentAt", true⟩, true⟩]
  nodup := by decide

/-- A time is stored as its distance to another one. -/
def sentReader : Reader ℕ := ⟨sentMapping, fun _ w => w - 1000, fun _ => 0⟩

def sentReceived : Value ℕ → ℕ
  | .plain v => v
  | .fromModel _ (.plain v) => v + 1000
  | _ => 0

def sentHandler : MappingHandler ℕ (Option (List (Value ℕ))) where
  info := sentMapping.info
  getTable _ _ := some messages
  runInThisContext := Script.run (Call.arguments sentMapping.info)

def sentMessage : Call ℕ where
  doc := ⟨[("room", .plain 1), ("sentAt", .plain 2)], by simp⟩
  docInfo := none

def messageColumns : List ResultColumn := ["room", "time", "topic", "text"].map (⟨·, false⟩)

end CqlDriver.Mapping
