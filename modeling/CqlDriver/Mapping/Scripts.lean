import CqlDriver.Lib.Brackets
import CqlDriver.Mapping.Select

/-! # Scripts (`vm.Script`)

The scripts of the mapper return an array of expressions: properties of the document or of `docInfo`, the values in
them, and what the functions of the model make of these.  `run` reads such a script and gives the function that it
stands for; it is the runtime as far as the mapper uses it.  Reading takes a text back to the expressions that it was
written from (`parseElements_texts`). -/

namespace CqlDriver.Mapping

variable {V : Type}

namespace Script

/-! ### Values -/

/-- A value of the runtime. -/
inductive Value (V : Type) where
  | undefined
  /-- What a name finds on the prototype of a document. -/
  | inherited (name : String)
  | number (n : ℤ)
  | plain (v : V)
  /-- A `QueryOperator` or a `QueryAssignment`. -/
  | query (value : DocValue V)
  /-- The array in `q.and`. -/
  | conditions (condition1 condition2 : DocValue V)
  /-- What the function of a property makes of a value. -/
  | fromModel (propName : String) (value : Value V)
  /-- What it makes of the elements of an array. -/
  | fromModelEach (propName : String) (value : Value V)

namespace Value

def ofDocValue : DocValue V → Value V
  | .plain v => plain v
  | value => query value

/-- `obj[name]` -/
def ofRead (name : String) : JsObject.Read (DocValue V) → Value V
  | .own value => ofDocValue value
  | .inherited => inherited name
  | .undefined => undefined

/-- `x.value` -/
def value : Value V → Option (Value V)
  | query (.operator _ v) => some (plain v)
  | query (.and condition1 condition2) => some (conditions condition1 condition2)
  | query (.assignment _ _ v) => some (plain v)
  | _ => none

/-- `x[0]` or `x[1]` -/
def item (second : Bool) : Value V → Option (Value V)
  | conditions condition1 condition2 => some (ofDocValue (if second then condition2 else condition1))
  | _ => none

end Value

/-! ### Expressions -/

inductive NumberOption where
  | ttl | limit
deriving DecidableEq

def NumberOption.text : NumberOption → String
  | ttl => "ttl"
  | limit => "limit"

/-- A value of the document, or inside of one. -/
inductive Path where
  | doc (name : String)
  | when (name : String)
  | option (o : NumberOption)
  | value (path : Path)
  | item (path : Path) (second : Bool)
deriving DecidableEq

def Path.text : Path → String
  | doc name => "doc['" ++ name ++ "']"
  | when name => "docInfo.when['" ++ name ++ "']"
  | option o => "docInfo['" ++ o.text ++ "']"
  | value path => path.text ++ ".value"
  | item path false => path.text ++ ".value[0]"
  | item path true => path.text ++ ".value[1]"

inductive Expr where
  | path (p : Path)
  | call (propName : String) (p : Path)
  | mapCall (propName : String) (p : Path)
deriving DecidableEq

def Expr.text : Expr → String
  | path p => p.text
  | call propName p => QueryGenerator.getMappingFunctionCall propName p.text
  | mapCall propName p =>
      p.text ++ ".map(v => " ++ QueryGenerator.getMappingFunctionCall propName "v" ++ ")"

/-! ### Evaluation -/

/-- The `docInfo` that a script is called with. -/
structure DocInfoArgument (V : Type) where
  ttl : Option ℤ
  limit : Option ℤ
  when : Document V

structure Arguments (V : Type) where
  doc : Document V
  docInfo : Option (DocInfoArgument V)
  mappingInfo : ModelMappingInfo

variable (args : Arguments V)

def readOption (docInfo : DocInfoArgument V) : NumberOption → Value V
  | .ttl => docInfo.ttl.elim .undefined .number
  | .limit => docInfo.limit.elim .undefined .number

/-- The value of a path; an error of the runtime has none. -/
def Path.eval : Path → Option (Value V)
  | doc name => some (.ofRead name (JsObject.get args.doc.properties name))
  | when name => args.docInfo.map fun docInfo => .ofRead name (JsObject.get docInfo.when.properties name)
  | option o => args.docInfo.map fun docInfo => readOption docInfo o
  | value path => path.eval.bind Value.value
  | item path second => (path.eval.bind Value.value).bind (Value.item second)

/-- `mappingInfo.getFromModelFn(propName)(…)` -/
def applyFromModel (propName : String) (value : Value V) : Option (Value V) :=
  if args.mappingInfo.getFromModelFn propName then some value else none

def Expr.eval : Expr → Option (Value V)
  | path p => p.eval args
  | call propName p => (p.eval args).bind fun value => applyFromModel args propName (.fromModel propName value)
  | mapCall propName p =>
      (p.eval args).bind fun value => applyFromModel args propName (.fromModelEach propName value)

/-- The array of the script; a hole reads as `undefined`. -/
def evalElements (elements : List (Option Expr)) : Option (List (Value V)) :=
  elements.mapM fun element => element.elim (some .undefined) (Expr.eval args)

/-! ### Reading -/

/-- The quote of a property name. -/
def quote : Char := Char.ofNat 39

/-- A character that stands for itself in quotes, and does not separate elements. -/
def isPlainChar (c : Char) : Bool :=
  c ≠ quote ∧ c ≠ '\\' ∧ c ≠ ',' ∧ c ≠ '\n' ∧ c ≠ '\r' ∧ c ≠ Char.ofNat 0x2028 ∧ c ≠ Char.ofNat 0x2029

/-- The characters up to the closing quote. -/
def parseName (cs : List Char) : String × List Char :=
  (String.ofList (cs.takeWhile isPlainChar), cs.dropWhile isPlainChar)

def parseMembers (path : Path) : List Char → Path × List Char
  | '.' :: 'v' :: 'a' :: 'l' :: 'u' :: 'e' :: '[' :: '0' :: ']' :: rest => parseMembers (.item path false) rest
  | '.' :: 'v' :: 'a' :: 'l' :: 'u' :: 'e' :: '[' :: '1' :: ']' :: rest => parseMembers (.item path true) rest
  | '.' :: 'v' :: 'a' :: 'l' :: 'u' :: 'e' :: rest => parseMembers (.value path) rest
  | rest => (path, rest)

def parseOption (name : String) : Option NumberOption :=
  if name = "ttl" then some .ttl else if name = "limit" then some .limit else none

/-- A property behind the opening quote, with the members that follow. -/
def parseProperty (source : String → Option Path) (cs : List Char) : Option (Path × List Char) := do
  let (name, rest) := parseName cs
  let rest ← rest.dropPrefix? "']".toList
  let path ← source name
  return parseMembers path rest

def parsePath (cs : List Char) : Option (Path × List Char) :=
  match cs.dropPrefix? "doc['".toList with
  | some rest => parseProperty (fun name => some (.doc name)) rest
  | none =>
      match cs.dropPrefix? "docInfo.when['".toList with
      | some rest => parseProperty (fun name => some (.when name)) rest
      | none => do
          let rest ← cs.dropPrefix? "docInfo['".toList
          parseProperty (fun name => (parseOption name).map .option) rest

/-- `getFromModelFn` with the name, behind the opening quote. -/
def parseFunction (cs : List Char) : Option (String × List Char) := do
  let (name, rest) := parseName cs
  let rest ← rest.dropPrefix? "')(".toList
  return (name, rest)

def parseExpr (cs : List Char) : Option Expr :=
  match cs.dropPrefix? "mappingInfo.getFromModelFn('".toList with
  | some rest => do
      let (propName, rest) ← parseFunction rest
      let (path, rest) ← parsePath rest
      if rest = [')'] then some (.call propName path) else none
  | none => do
      let (path, rest) ← parsePath cs
      if rest = [] then some (.path path)
      else
        let rest ← rest.dropPrefix? ".map(v => ".toList
        let rest ← rest.dropPrefix? "mappingInfo.getFromModelFn('".toList
        let (propName, rest) ← parseFunction rest
        if rest = "v))".toList then some (.mapCall propName path) else none

/-- An element of the array; without an expression it is a hole. -/
def parseElement (cs : List Char) : Option (Option Expr) :=
  let cs := cs.dropWhile (· = ' ')
  if cs = [] then some none else (parseExpr cs).map some

/-- No element follows the last comma of an array. -/
def dropHole (elements : List (Option Expr)) : List (Option Expr) :=
  if elements.getLast? = some none then elements.dropLast else elements

def parseElements (cs : List Char) : Option (List (Option Expr)) :=
  ((cs.splitOn ',').mapM parseElement).map dropHole

/-- The elements of the array that the function of a script returns. -/
def parseScript (text : String) : Option (List (Option Expr)) := do
  let rest ← text.toList.dropPrefix? "(function ".toList
  let rest ← (rest.dropWhile Char.isAlpha).dropPrefix? "(doc, docInfo, mappingInfo) \x7b\n  return [".toList
  let rest ← rest.reverse.dropPrefix? "];\n\x7d)".toList.reverse
  parseElements rest.reverse

/-- `new vm.Script(scriptText).runInThisContext()`, for functions whose arguments come from a call. -/
def run {C : Type} (arguments : C → Arguments V) (scriptText : String) : Option (C → Option (List (Value V))) :=
  (parseScript scriptText).map fun elements c => evalElements (arguments c) elements

/-! ### Reading what was written -/

/-- A name that stands for itself in quotes. -/
def PlainName (name : String) : Prop := ∀ c ∈ name.toList, isPlainChar c = true

instance (name : String) : Decidable (PlainName name) :=
  List.decidableBAll (fun c => isPlainChar c = true) name.toList

def Path.Plain : Path → Prop
  | doc name | when name => PlainName name
  | option _ => True
  | value path | item path _ => path.Plain

def Expr.Plain : Expr → Prop
  | path p => p.Plain
  | call propName p | mapCall propName p => PlainName propName ∧ p.Plain

theorem parseName_append {name : String} (h : PlainName name) (rest : List Char) :
    parseName (name.toList ++ quote :: rest) = (name, quote :: rest) := by
  have hstop : ¬ isPlainChar quote = true := by decide
  rw [parseName, List.takeWhile_append_of_pos h, List.dropWhile_append_of_pos h, List.takeWhile_cons_of_neg hstop,
    List.dropWhile_cons_of_neg hstop, List.append_nil, String.ofList_toList]

theorem dropPrefix_append (pre rest : List Char) : (pre ++ rest).dropPrefix? pre = some rest :=
  List.dropPrefix?_append_of_beq rest (BEq.refl pre)

theorem parseProperty_append {source : String → Option Path} {name : String} (h : PlainName name) {path : Path}
    (hsource : source name = some path) (rest : List Char) :
    parseProperty source (name.toList ++ quote :: ']' :: rest) = some (parseMembers path rest) := by
  have hclose : (quote :: ']' :: rest).dropPrefix? "']".toList = some rest := dropPrefix_append "']".toList rest
  simp only [parseProperty, parseName_append h, hclose, hsource]
  rfl

theorem parseFunction_append {propName : String} (h : PlainName propName) (rest : List Char) :
    parseFunction (propName.toList ++ quote :: ')' :: '(' :: rest) = some (propName, rest) := by
  have hclose : (quote :: ')' :: '(' :: rest).dropPrefix? "')(".toList = some rest :=
    dropPrefix_append "')(".toList rest
  simp only [parseFunction, parseName_append h, hclose]
  rfl

/-- The members of a path end in front of this text, but for `.value`. -/
def NoItem (rest : List Char) : Prop := ∀ c ∈ rest.head?, c ≠ '['

theorem noItem_nil : NoItem [] := fun _ hc => by cases hc

theorem noItem_cons {c : Char} (h : c ≠ '[') (rest : List Char) : NoItem (c :: rest) := fun _ hd => by
  rwa [← Option.some.inj hd]

theorem parseMembers_value (path : Path) {rest : List Char} (h : NoItem rest) :
    parseMembers path (".value".toList ++ rest) = parseMembers (.value path) rest := by
  cases rest with
  | nil => rfl
  | cons c rest =>
      have hc : c ≠ '[' := h c rfl
      simp [parseMembers, hc]

theorem parsePath_text {path : Path} (h : path.Plain) : ∀ {rest : List Char}, NoItem rest →
    parsePath (path.text.toList ++ rest) = some (parseMembers path rest) := by
  induction path with
  | doc name =>
      intro rest _
      have htext : (Path.doc name).text.toList ++ rest = "doc['".toList ++ (name.toList ++ quote :: ']' :: rest) := by
        simp [Path.text, quote]
      rw [htext, parsePath, dropPrefix_append]
      exact parseProperty_append h rfl rest
  | when name =>
      intro rest _
      have htext : (Path.when name).text.toList ++ rest =
          "docInfo.when['".toList ++ (name.toList ++ quote :: ']' :: rest) := by
        simp [Path.text, quote]
      have hdoc (cs : List Char) : ("docInfo.when['".toList ++ cs).dropPrefix? "doc['".toList = none := rfl
      rw [htext, parsePath, hdoc, dropPrefix_append]
      exact parseProperty_append h rfl rest
  | option o =>
      intro rest _
      have htext : (Path.option o).text.toList ++ rest =
          "docInfo['".toList ++ (o.text.toList ++ quote :: ']' :: rest) := by
        simp [Path.text, quote]
      have hdoc (cs : List Char) : ("docInfo['".toList ++ cs).dropPrefix? "doc['".toList = none := rfl
      have hwhen (cs : List Char) : ("docInfo['".toList ++ cs).dropPrefix? "docInfo.when['".toList = none := rfl
      have hplain : PlainName o.text := by cases o <;> decide
      have hoption : (parseOption o.text).map Path.option = some (.option o) := by cases o <;> rfl
      rw [htext, parsePath, hdoc, hwhen, dropPrefix_append]
      exact @parseProperty_append (fun name => (parseOption name).map .option) _ hplain _ hoption rest
  | value path ih =>
      intro rest hrest
      have htext : (Path.value path).text.toList ++ rest = path.text.toList ++ (".value".toList ++ rest) := by
        simp [Path.text]
      have hhead : NoItem (".value".toList ++ rest) := noItem_cons (by decide) _
      rw [htext, ih h hhead, parseMembers_value path hrest]
  | item path second ih =>
      intro rest hrest
      have hhead (cs : List Char) : NoItem (".value".toList ++ cs) := noItem_cons (by decide) _
      cases second with
      | false =>
          have htext : (Path.item path false).text.toList ++ rest =
              path.text.toList ++ (".value".toList ++ ("[0]".toList ++ rest)) := by
            simp [Path.text]
          rw [htext, ih h (hhead _)]
          rfl
      | true =>
          have htext : (Path.item path true).text.toList ++ rest =
              path.text.toList ++ (".value".toList ++ ("[1]".toList ++ rest)) := by
            simp [Path.text]
          rw [htext, ih h (hhead _)]
          rfl

/-- A path begins with the name of its object. -/
theorem exists_text_path (path : Path) : ∃ rest, path.text.toList = 'd' :: rest := by
  induction path with
  | doc name => exact ⟨_, by simp [Path.text]; rfl⟩
  | when name => exact ⟨_, by simp [Path.text]; rfl⟩
  | option o => exact ⟨_, by simp [Path.text]; rfl⟩
  | value path ih =>
      obtain ⟨rest, hrest⟩ := ih
      exact ⟨rest ++ ".value".toList, by simp [Path.text, hrest]⟩
  | item path second ih =>
      obtain ⟨rest, hrest⟩ := ih
      cases second with
      | false => exact ⟨rest ++ ".value[0]".toList, by simp [Path.text, hrest]⟩
      | true => exact ⟨rest ++ ".value[1]".toList, by simp [Path.text, hrest]⟩

theorem parsePath_end {path : Path} (h : path.Plain) : parsePath path.text.toList = some (path, []) := by
  have hparse := parsePath_text h noItem_nil
  rwa [List.append_nil] at hparse

theorem toList_getMappingFunctionCall (propName valueGetter : String) :
    (QueryGenerator.getMappingFunctionCall propName valueGetter).toList = "mappingInfo.getFromModelFn('".toList ++
      (propName.toList ++ ("')(".toList ++ (valueGetter.toList ++ ")".toList))) := by
  unfold QueryGenerator.getMappingFunctionCall
  simp only [String.toList_append, List.append_assoc]

theorem toList_call (propName : String) (p : Path) :
    (Expr.call propName p).text.toList = "mappingInfo.getFromModelFn('".toList ++
      (propName.toList ++ quote :: ')' :: '(' :: (p.text.toList ++ [')'])) :=
  toList_getMappingFunctionCall propName p.text

theorem toList_mapCall (propName : String) (p : Path) :
    (Expr.mapCall propName p).text.toList = p.text.toList ++ (".map(v => ".toList ++
      ("mappingInfo.getFromModelFn('".toList ++ (propName.toList ++ quote :: ')' :: '(' :: "v))".toList))) := by
  have htext : (Expr.mapCall propName p).text =
      p.text ++ ".map(v => " ++ QueryGenerator.getMappingFunctionCall propName "v" ++ ")" := rfl
  rw [htext, String.toList_append, String.toList_append, String.toList_append, toList_getMappingFunctionCall]
  simp only [List.append_assoc]
  rfl

theorem parseExpr_text {e : Expr} (h : e.Plain) : parseExpr e.text.toList = some e := by
  cases e with
  | path p =>
      obtain ⟨rest, hrest⟩ := exists_text_path p
      have hcall : p.text.toList.dropPrefix? "mappingInfo.getFromModelFn('".toList = none := by
        rw [hrest]
        rfl
      simp only [Expr.text, parseExpr, hcall, parsePath_end h]
      rfl
  | call propName p =>
      obtain ⟨hname, hpath⟩ := h
      have hparse := parsePath_text hpath (noItem_cons (by decide : ')' ≠ '[') [])
      rw [toList_call, parseExpr, dropPrefix_append]
      simp only [parseFunction_append hname, Option.bind_eq_bind, Option.bind_some, hparse]
      rfl
  | mapCall propName p =>
      obtain ⟨hname, hpath⟩ := h
      obtain ⟨rest, hrest⟩ := exists_text_path p
      have hcall (cs : List Char) : (p.text.toList ++ cs).dropPrefix? "mappingInfo.getFromModelFn('".toList = none := by
        rw [hrest]
        rfl
      have hhead (cs : List Char) : NoItem (".map(v => ".toList ++ cs) := noItem_cons (by decide) _
      have hmembers (cs : List Char) : parseMembers p (".map(v => ".toList ++ cs) = (p, ".map(v => ".toList ++ cs) :=
        rfl
      have hne (cs : List Char) : ".map(v => ".toList ++ cs ≠ [] := List.cons_ne_nil _ _
      rw [toList_mapCall, parseExpr, hcall, parsePath_text hpath (hhead _), hmembers]
      simp only [Option.bind_eq_bind, Option.bind_some, if_neg (hne _), dropPrefix_append, parseFunction_append hname]
      rfl

/-! ### Arrays -/

theorem PlainName.comma {name : String} (h : PlainName name) : ',' ∉ name.toList := fun hc => by
  have hplain := h ',' hc
  revert hplain
  decide

theorem Path.Plain.comma {path : Path} (h : path.Plain) : ',' ∉ path.text.toList := by
  induction path with
  | doc name | when name => simp [Path.text, PlainName.comma h]
  | option o => cases o <;> decide
  | value path ih => simp [Path.text, ih h]
  | item path second ih => cases second <;> simp [Path.text, ih h]

theorem Expr.Plain.comma {e : Expr} (h : e.Plain) : ',' ∉ e.text.toList := by
  have hmap : ',' ∉ ".map(v => ".toList := by decide
  have hcall : ',' ∉ "mappingInfo.getFromModelFn('".toList := by decide
  have hquote : ',' ≠ quote := by decide
  cases e with
  | path p => exact Path.Plain.comma h
  | call propName p =>
      rw [toList_call]
      simp only [List.mem_append, List.mem_cons, List.not_mem_nil, or_false, not_or]
      exact ⟨hcall, h.1.comma, hquote, by decide, by decide, h.2.comma, by decide⟩
  | mapCall propName p =>
      rw [toList_mapCall]
      simp only [List.mem_append, List.mem_cons, not_or]
      exact ⟨h.2.comma, hmap, hcall, h.1.comma, hquote, by decide, by decide, by decide⟩

/-- The text of an element; that of a hole is empty. -/
def elementText (element : Option Expr) : String := element.elim "" Expr.text

theorem exists_text_expr (e : Expr) : ∃ c rest, e.text.toList = c :: rest ∧ c ≠ ' ' := by
  cases e with
  | path p =>
      obtain ⟨rest, hrest⟩ := exists_text_path p
      exact ⟨'d', rest, hrest, by decide⟩
  | call propName p => exact ⟨'m', _, (toList_call propName p).trans rfl, by decide⟩
  | mapCall propName p =>
      obtain ⟨rest, hrest⟩ := exists_text_path p
      exact ⟨'d', _, by rw [toList_mapCall, hrest]; rfl, by decide⟩

theorem parseElement_space (cs : List Char) : parseElement (' ' :: cs) = parseElement cs := by
  have hdrop : (' ' :: cs).dropWhile (· = ' ') = cs.dropWhile (· = ' ') := List.dropWhile_cons_of_pos (by decide)
  rw [parseElement, parseElement, hdrop]

theorem parseElement_text {element : Option Expr} (h : ∀ e ∈ element, e.Plain) :
    parseElement (elementText element).toList = some element := by
  cases element with
  | none => rfl
  | some e =>
      obtain ⟨c, rest, htext, hc⟩ := exists_text_expr e
      have hdrop : e.text.toList.dropWhile (· = ' ') = e.text.toList := by
        rw [htext]
        exact List.dropWhile_cons_of_neg (by simpa using hc)
      have hne : e.text.toList ≠ [] := by
        rw [htext]
        exact List.cons_ne_nil _ _
      have htext : elementText (some e) = e.text := rfl
      rw [htext, parseElement, hdrop, if_neg hne, parseExpr_text (h e rfl)]
      rfl

theorem mapM_map {α β : Type} {f : α → β} {g : β → Option α} {xs : List α} (h : ∀ x ∈ xs, g (f x) = some x) :
    (xs.map f).mapM g = some xs := by
  induction xs with
  | nil => rfl
  | cons x xs ih =>
      rw [List.map_cons, List.mapM_cons, h x (List.mem_cons_self ..), ih fun y hy => h y (List.mem_cons_of_mem x hy)]
      rfl

/-- The pieces between the commas give back the elements. -/
theorem mapM_spaced {elements : List (Option Expr)} (h : ∀ element ∈ elements, ∀ e ∈ element, e.Plain) :
    (Brackets.spaced (elements.map fun element => (elementText element).toList)).mapM parseElement = some elements := by
  cases elements with
  | nil => rfl
  | cons element elements =>
      have hrest : ((elements.map fun element => (elementText element).toList).map (' ' :: ·)).mapM parseElement =
          some elements := by
        rw [List.map_map]
        apply mapM_map
        intro element' hmem
        rw [Function.comp_apply, parseElement_space, parseElement_text (h element' (List.mem_cons_of_mem _ hmem))]
      rw [List.map_cons, Brackets.spaced, List.mapM_cons, parseElement_text (h element (List.mem_cons_self ..)), hrest]
      rfl

theorem parseElements_texts {elements : List (Option Expr)} (h : ∀ element ∈ elements, ∀ e ∈ element, e.Plain) :
    parseElements (", ".intercalate (elements.map elementText)).toList = some (dropHole elements) := by
  by_cases hnil : elements = []
  · rw [hnil]
    rfl
  · have htexts : (", ".intercalate (elements.map elementText)).toList =
        [','].intercalate (Brackets.spaced (elements.map fun element => (elementText element).toList)) := by
      rw [String.toList_intercalate, List.map_map]
      exact Brackets.intercalate_spaced _
    have hcomma : ∀ piece ∈ Brackets.spaced (elements.map fun element => (elementText element).toList), ',' ∉ piece := by
      intro piece hpiece hc
      obtain ⟨_, htext, hspaced⟩ := Brackets.of_mem_spaced hpiece
      obtain ⟨element, helement, rfl⟩ := List.mem_map.1 htext
      have hmem : ',' ∈ (elementText element).toList := by
        obtain rfl | rfl := hspaced
        · exact hc
        · exact (List.mem_cons.1 hc).resolve_left (by decide)
      cases element with
      | none => cases hmem
      | some e => exact (h _ helement e rfl).comma hmem
    rw [htexts, parseElements, List.splitOn_intercalate ',' hcomma
      (Brackets.spaced_ne_nil (mt List.map_eq_nil_iff.1 hnil)), mapM_spaced h]
    rfl

/-- Arrays without holes keep their elements. -/
theorem dropHole_some (es : List Expr) : dropHole (es.map some) = es.map some := by
  rw [dropHole, if_neg]
  rw [List.getLast?_map]
  cases es.getLast? <;> simp

/-- A comma behind the last element adds nothing. -/
theorem dropHole_append_none (es : List Expr) : dropHole (es.map some ++ [none]) = es.map some := by
  rw [dropHole, if_pos (by simp), List.dropLast_concat]

/-- The script around an array is a function that returns its elements. -/
theorem run_scriptText {C : Type} (arguments : C → Arguments V) {name : String} (hname : ∀ c ∈ name.toList, c.isAlpha)
    {elements : List (Option Expr)} (h : ∀ element ∈ elements, ∀ e ∈ element, e.Plain) :
    run arguments (QueryGenerator.scriptText name (", ".intercalate (elements.map elementText))) =
      some fun c => evalElements (arguments c) (dropHole elements) := by
  have hopen (cs : List Char) : (name.toList ++ ("(doc, docInfo, mappingInfo) \x7b\n  return [".toList ++ cs)).dropWhile
      Char.isAlpha = "(doc, docInfo, mappingInfo) \x7b\n  return [".toList ++ cs := by
    rw [List.dropWhile_append_of_pos hname]
    rfl
  have htext : (QueryGenerator.scriptText name (", ".intercalate (elements.map elementText))).toList =
      "(function ".toList ++ (name.toList ++ ("(doc, docInfo, mappingInfo) \x7b\n  return [".toList ++
        ((", ".intercalate (elements.map elementText)).toList ++ "];\n\x7d)".toList))) := by
    unfold QueryGenerator.scriptText
    simp only [String.toList_append, List.append_assoc]
  have hscript : parseScript (QueryGenerator.scriptText name (", ".intercalate (elements.map elementText))) =
      some (dropHole elements) := by
    rw [parseScript, htext, dropPrefix_append]
    simp only [Option.bind_eq_bind, Option.bind_some, hopen, dropPrefix_append, List.reverse_append,
      List.reverse_reverse]
    exact parseElements_texts h
  rw [run, hscript]
  rfl

/-- Expressions in an array. -/
def joined (es : List Expr) : String := ", ".intercalate (es.map Expr.text)

@[simp] theorem joined_singleton (e : Expr) : joined [e] = e.text := String.intercalate_singleton

theorem joined_append {es es' : List Expr} (h : es ≠ []) (h' : es' ≠ []) :
    joined (es ++ es') = joined es ++ ", " ++ joined es' := by
  rw [joined, List.map_append, String.intercalate_append_of_ne_nil (by simpa using h) (by simpa using h')]
  rfl

/-- Parts of an array make one array. -/
theorem intercalate_joined {α : Type} {f : α → List Expr} : ∀ {xs : List α}, (∀ x ∈ xs, f x ≠ []) →
    ", ".intercalate (xs.map fun x => joined (f x)) = joined (xs.flatMap f)
  | [], _ => rfl
  | [x], _ => by simp
  | x :: y :: xs, h => by
      have ih := intercalate_joined fun z hz => h z (List.mem_cons_of_mem x hz)
      have hne : (y :: xs).flatMap f ≠ [] := fun hnil =>
        h y (by simp) (List.flatMap_eq_nil_iff.1 hnil y (List.mem_cons_self ..))
      rw [List.flatMap_cons, joined_append (h x (List.mem_cons_self ..)) hne, ← ih, List.map_cons, List.map_cons,
        String.intercalate_cons_cons]

theorem elementTexts_some (es : List Expr) : (es.map some).map elementText = es.map Expr.text := by
  rw [List.map_map]
  rfl

theorem evalElements_some (es : List Expr) : evalElements args (es.map some) = es.mapM (Expr.eval args) := by
  rw [evalElements, List.mapM_map]
  rfl

theorem plain_elements {es : List Expr} (h : ∀ e ∈ es, e.Plain) : ∀ element ∈ es.map some, ∀ e ∈ element, e.Plain := by
  intro element helement e he
  obtain ⟨e', he', rfl⟩ := List.mem_map.1 helement
  cases he
  exact h e he'

theorem run_joined {C : Type} (arguments : C → Arguments V) {name : String} (hname : ∀ c ∈ name.toList, c.isAlpha)
    {es : List Expr} (h : ∀ e ∈ es, e.Plain) : run arguments (QueryGenerator.scriptText name (joined es)) =
      some fun c => es.mapM (Expr.eval (arguments c)) := by
  have hrun := run_scriptText arguments hname (plain_elements h)
  rw [elementTexts_some, dropHole_some] at hrun
  simp only [evalElements_some] at hrun
  exact hrun

/-- A comma behind the last expression changes nothing. -/
theorem run_joined_comma {C : Type} (arguments : C → Arguments V) {name : String}
    (hname : ∀ c ∈ name.toList, c.isAlpha) {es : List Expr} (hne : es ≠ []) (h : ∀ e ∈ es, e.Plain) :
    run arguments (QueryGenerator.scriptText name (joined es ++ ", ")) =
      some fun c => es.mapM (Expr.eval (arguments c)) := by
  have hplain : ∀ element ∈ es.map some ++ [none], ∀ e ∈ element, e.Plain := by
    intro element helement e he
    rcases List.mem_append.1 helement with helement | helement
    · exact plain_elements h element helement e he
    · rw [List.mem_singleton.1 helement] at he
      cases he
  have hrun := run_scriptText arguments hname hplain
  rw [List.map_append, elementTexts_some, String.intercalate_append_of_ne_nil (by simpa using hne) (by simp),
    dropHole_append_none] at hrun
  simp only [evalElements_some] at hrun
  have htext : joined es ++ ", " = ", ".intercalate (es.map Expr.text) ++ ", " ++
      ", ".intercalate ([none].map elementText) := by
    rw [List.map_singleton, String.intercalate_singleton]
    simp [joined, elementText]
  rw [htext]
  exact hrun

end Script
end CqlDriver.Mapping
