import CqlDriver.Lib.Brackets
import CqlDriver.Lib.Fallible
import CqlDriver.Lib.JsString
import CqlDriver.Lib.Pattern

/-! # Data type names (`lib/types/index.js`)

`getDataTypeNameByCode` prints a type definition and `dataTypes.getByName` reads a name with a cascade of
regular expressions.  The reader takes the last comma for the one between the key and the value of a map,
and every comma for one between the elements of a tuple; `readsBack_iff` says which types it returns from
their own names. -/

namespace CqlDriver.DataTypes

open Brackets Fallible JsString Pattern

/-- The types that are only a code. -/
def nativeCodes : List (String × ℕ) :=
  [("ascii", 0x1), ("bigint", 0x2), ("blob", 0x3), ("boolean", 0x4), ("counter", 0x5), ("decimal", 0x6),
    ("double", 0x7), ("float", 0x8), ("int", 0x9), ("text", 0xa), ("timestamp", 0xb), ("uuid", 0xc),
    ("varchar", 0xd), ("varint", 0xe), ("timeuuid", 0xf), ("inet", 0x10), ("date", 0x11), ("time", 0x12),
    ("smallint", 0x13), ("tinyint", 0x14), ("duration", 0x15)]

/-- The numbers among the properties of `dataTypes`. -/
def dataTypes : List (String × ℕ) :=
  ("custom", 0x0) :: nativeCodes ++ [("list", 0x20), ("map", 0x21), ("set", 0x22), ("udt", 0x30), ("tuple", 0x31)]

/-- A type definition `{ code, info, customTypeName }`. -/
inductive TypeInfo where
  | plain (code : ℕ)
  /-- `info` is a type. -/
  | of (code : ℕ) (info : TypeInfo)
  /-- `info` is an array of types. -/
  | ofAll (code : ℕ) (info : List TypeInfo)
  /-- A custom type with the name `vector`; `info` is the subtype and the dimension. -/
  | vector (subtype : TypeInfo) (dimension : ℕ)
  /-- A user type with the raw name as `info`. -/
  | udtName (info : List Char)

inductive Error where
  | argumentError (message : String)
  | typeError (message : String)

/-! ### The printer -/

/-- `_dataTypesByCode` -/
def dataTypesByCode (code : ℕ) : Except Error (List Char) :=
  match dataTypes.find? (·.2 == code) with
  | some entry => .ok entry.1.toList
  | none => .error (.argumentError ("Type with code " ++ toString code ++ " not found"))

mutual

def getDataTypeNameByCode : TypeInfo → Except Error (List Char)
  | .plain code => dataTypesByCode code
  | .of code info => do
      let typeName ← dataTypesByCode code
      let name ← getDataTypeNameByCode info
      return typeName ++ '<' :: name ++ ['>']
  | .ofAll code info => do
      let typeName ← dataTypesByCode code
      let names ← getDataTypeNames info
      return typeName ++ '<' :: [',', ' '].intercalate names ++ ['>']
  | .vector subtype dimension => do
      let name ← getDataTypeNameByCode subtype
      return "vector".toList ++ '<' :: (name ++ [',', ' '] ++ Nat.toDigits 10 dimension) ++ ['>']
  -- a text has no property `name`
  | .udtName _ => .ok "undefined".toList

def getDataTypeNames : List TypeInfo → Except Error (List (List Char))
  | [] => .ok []
  | t :: ts => do
      let name ← getDataTypeNameByCode t
      let names ← getDataTypeNames ts
      return name :: names

end

/-! ### The reader -/

/-- `String.prototype.toLowerCase` on ASCII. -/
def toLowerCase (s : List Char) : List Char := s.map Char.toLower

/-- `.`, which stands for all characters but the line terminators. -/
def isDot (c : Char) : Bool := !([10, 13, 0x2028, 0x2029].contains c.toNat)

/-- `/^(name)<(.+)>$/` -/
def bracketPattern (name : String) : List Piece := [.text (name.toList ++ ['<']), .group isDot, .text ['>']]

/-- `/^(map)< *(.+) *, *(.+)>$/` -/
def mapPattern : List Piece :=
  [.text "map<".toList, .skip (· == ' '), .group isDot, .skip (· == ' '), .text [','], .skip (· == ' '),
    .group isDot, .text ['>']]

/-- `/^vector<\s*(.+)\s*,\s*(\d+)\s*>$/` -/
def vectorPattern : List Piece :=
  [.text "vector<".toList, .skip isSpace, .group isDot, .skip isSpace, .text [','], .skip isSpace,
    .group Char.isDigit, .skip isSpace, .text ['>']]

/-- The property `name` of `dataTypes`, if it is a number. -/
def lookup (name : List Char) : Except Error TypeInfo :=
  match dataTypes.find? (·.1.toList == name) with
  | some entry => .ok (.plain entry.2)
  | none => .error (.typeError ("Data type with name " ++ String.ofList name ++ " not valid"))

/-- `getByName`; `fuel` bounds the depth of the recursion. -/
def getByNameLoop : ℕ → List Char → Except Error TypeInfo
  | 0, name => lookup name
  | fuel + 1, name =>
      let name := toLowerCase name
      if '<' ∈ name ∧ name.head? ≠ some '<' then
        match exec (bracketPattern "list") name with
        | some [t] => (getByNameLoop fuel t).map (.of 0x20)
        | _ =>
        match exec (bracketPattern "set") name with
        | some [t] => (getByNameLoop fuel t).map (.of 0x22)
        | _ =>
        match exec mapPattern name with
        | some [k, v] => do
            let key ← getByNameLoop fuel k
            let value ← getByNameLoop fuel v
            return .ofAll 0x21 [key, value]
        | _ =>
        match exec (bracketPattern "udt") name with
        | some [t] => .ok (.udtName t)
        | _ =>
        match exec (bracketPattern "tuple") name with
        | some [ts] => ((ts.splitOn ',').mapM fun x => getByNameLoop fuel (trim x)).map (.ofAll 0x31)
        | _ =>
        match exec vectorPattern name with
        | some [t, n] => (getByNameLoop fuel t).map fun subtype => .vector subtype (Nat.ofDigitChars 10 n 0)
        | _ => lookup name
      else lookup name

def getByName (name : List Char) : Except Error TypeInfo := getByNameLoop (name.length + 1) name

/-! ### Parts of a text -/

theorem length_trim_le {s piece : List Char} (h : piece ∈ s.splitOn ',') : (trim piece).length ≤ s.length := by
  have hs : [','].intercalate (s.splitOn ',') = s := List.intercalate_splitOn ','
  have hle := length_le_intercalate [','] h
  rw [hs] at hle
  exact (trim_sublist piece).length_le.trans hle

/-- A group of a pattern that has a text is shorter than the whole. -/
theorem length_lt_of_exec {ps : List Piece} {s g : List Char} {gs : List (List Char)} (h : exec ps s = some gs)
    (hps : Pattern.texts ps ≠ []) (hg : g ∈ gs) : g.length < s.length := by
  have hle := (exec_matches h).length_le
  have hpos := List.length_pos_iff.2 hps
  have hg' := (List.sublist_flatten_of_mem hg).length_le
  omega

theorem length_lt_of_bracketPattern {name : String} {s g : List Char} (h : exec (bracketPattern name) s = some [g]) :
    g.length < s.length := length_lt_of_exec h (by simp [bracketPattern, Pattern.texts]) (by simp)

/-- The recursion does not go deeper than the name is long. -/
theorem getByNameLoop_eq : ∀ {fuel fuel' : ℕ} {name : List Char}, name.length < fuel → name.length < fuel' →
    getByNameLoop fuel name = getByNameLoop fuel' name
  | 0, _, _, h, _ => by omega
  | _, 0, _, _, h => by omega
  | fuel + 1, fuel' + 1, name, h, h' => by
      have hlow : (toLowerCase name).length = name.length := List.length_map _
      have ih : ∀ x : List Char, x.length < (toLowerCase name).length →
          getByNameLoop fuel x = getByNameLoop fuel' x :=
        fun x hx => getByNameLoop_eq (by omega) (by omega)
      rw [getByNameLoop, getByNameLoop]
      generalize toLowerCase name = s at ih ⊢
      split_ifs
      · split
        · next x hexec => rw [ih x (length_lt_of_bracketPattern hexec)]
        split
        · next x hexec => rw [ih x (length_lt_of_bracketPattern hexec)]
        split
        · next x y hexec =>
            rw [ih x (length_lt_of_exec hexec (by decide) (by simp)),
              ih y (length_lt_of_exec hexec (by decide) (by simp))]
        split
        · rfl
        split
        · next x hexec =>
            have hlt := length_lt_of_bracketPattern hexec
            congr 1
            apply mapM_congr
            intro piece hpiece
            exact ih _ (lt_of_le_of_lt (length_trim_le hpiece) hlt)
        split
        · next x y hexec => rw [ih x (length_lt_of_exec hexec (by decide) (by simp))]
        · rfl
      · rfl

/-! ### Types and their names -/

/-- An entry of the table of the native types. -/
structure NativeType where
  name : String
  code : ℕ
  listed : (name, code) ∈ nativeCodes

/-- The types that are built of the native ones; a dimension is a 32-bit integer, so that it is printed
with all its digits. -/
inductive DataType where
  | native (t : NativeType)
  | list (t : DataType)
  | set (t : DataType)
  | map (key value : DataType)
  | tuple (ts : List DataType)
  | vector (t : DataType) (dimension : ℕ)

namespace DataType

mutual

/-- The definition of a type. -/
def info : DataType → TypeInfo
  | .native t => .plain t.code
  | .list t => .of 0x20 t.info
  | .set t => .of 0x22 t.info
  | .map k v => .ofAll 0x21 [k.info, v.info]
  | .tuple ts => .ofAll 0x31 (infos ts)
  | .vector t n => .vector t.info n

def infos : List DataType → List TypeInfo
  | [] => []
  | t :: ts => t.info :: infos ts

end

mutual

/-- The text that is printed. -/
def text : DataType → List Char
  | .native t => t.name.toList
  | .list t => "list".toList ++ '<' :: t.text ++ ['>']
  | .set t => "set".toList ++ '<' :: t.text ++ ['>']
  | .map k v => "map".toList ++ '<' :: (k.text ++ [',', ' '] ++ v.text) ++ ['>']
  | .tuple ts => "tuple".toList ++ '<' :: [',', ' '].intercalate (texts ts) ++ ['>']
  | .vector t n => "vector".toList ++ '<' :: (t.text ++ [',', ' '] ++ Nat.toDigits 10 n) ++ ['>']

def texts : List DataType → List (List Char)
  | [] => []
  | t :: ts => t.text :: texts ts

end

theorem text_native (t : NativeType) : (native t).text = t.name.toList := rfl

theorem text_list (t : DataType) : (list t).text = "list".toList ++ '<' :: t.text ++ ['>'] := rfl

theorem text_set (t : DataType) : (set t).text = "set".toList ++ '<' :: t.text ++ ['>'] := rfl

theorem text_map (k v : DataType) :
    (map k v).text = "map".toList ++ '<' :: (k.text ++ [',', ' '] ++ v.text) ++ ['>'] := rfl

theorem text_tuple (ts : List DataType) :
    (tuple ts).text = "tuple".toList ++ '<' :: [',', ' '].intercalate (texts ts) ++ ['>'] := rfl

theorem text_vector (t : DataType) (n : ℕ) :
    (vector t n).text = "vector".toList ++ '<' :: (t.text ++ [',', ' '] ++ Nat.toDigits 10 n) ++ ['>'] := rfl

mutual

/-- No map, no vector and no tuple of several elements occurs in the type. -/
def commaFree : DataType → Bool
  | .native _ => true
  | .list t => t.commaFree
  | .set t => t.commaFree
  | .map _ _ => false
  | .tuple ts => ts.length ≤ 1 && commaFrees ts
  | .vector _ _ => false

def commaFrees : List DataType → Bool
  | [] => true
  | t :: ts => t.commaFree && commaFrees ts

end

mutual

/-- The values of all maps and the elements of all tuples have no comma in their names, and no tuple is
empty. -/
def readable : DataType → Bool
  | .native _ => true
  | .list t => t.readable
  | .set t => t.readable
  | .map k v => k.readable && v.readable && v.commaFree
  | .tuple ts => !ts.isEmpty && readables ts && commaFrees ts
  | .vector t _ => t.readable

def readables : List DataType → Bool
  | [] => true
  | t :: ts => t.readable && readables ts

end

end DataType

theorem dataTypesByCode_native : ∀ e ∈ nativeCodes, dataTypes.find? (·.2 == e.2) = some e := by decide

theorem dataTypesByCode_eq (t : NativeType) : dataTypesByCode t.code = .ok t.name.toList := by
  rw [dataTypesByCode, dataTypesByCode_native (t.name, t.code) t.listed]

mutual

theorem getDataTypeNameByCode_info : ∀ t : DataType, getDataTypeNameByCode t.info = .ok t.text
  | .native t => dataTypesByCode_eq t
  | .list t => by
      rw [DataType.info, getDataTypeNameByCode, getDataTypeNameByCode_info t]
      rfl
  | .set t => by
      rw [DataType.info, getDataTypeNameByCode, getDataTypeNameByCode_info t]
      rfl
  | .map k v => by
      simp only [DataType.info, getDataTypeNameByCode, getDataTypeNames, getDataTypeNameByCode_info k,
        getDataTypeNameByCode_info v]
      change Except.ok ("map".toList ++ '<' :: [',', ' '].intercalate [k.text, v.text] ++ ['>']) = _
      rw [List.intercalate_cons_cons, List.intercalate_singleton, DataType.text_map]
  | .tuple ts => by
      rw [DataType.info, getDataTypeNameByCode, getDataTypeNames_infos ts]
      rfl
  | .vector t n => by
      rw [DataType.info, getDataTypeNameByCode, getDataTypeNameByCode_info t]
      rfl

theorem getDataTypeNames_infos : ∀ ts : List DataType, getDataTypeNames (DataType.infos ts) = .ok (DataType.texts ts)
  | [] => rfl
  | t :: ts => by
      rw [DataType.infos, getDataTypeNames, getDataTypeNameByCode_info t, getDataTypeNames_infos ts]
      rfl

end

/-! ### The characters of a name -/

/-- The characters that are printed. -/
def isNameChar (c : Char) : Bool := c.isLower || c.isDigit || "<>, ".toList.contains c

/-- What the reader uses of a name: its characters, and that no blank is at its ends. -/
structure Printed (s : List Char) : Prop where
  chars : ∀ c ∈ s, isNameChar c = true
  first : ∃ c r, s = c :: r ∧ c.isLower = true
  last : ∃ r c, s = r ++ [c] ∧ isSpace c = false

theorem toNat_lt_of_isLower {c : Char} (h : c.isLower = true) : c.toNat < 128 := by
  have hle : c.val ≤ 'z'.val := of_decide_eq_true (Bool.and_eq_true_iff.1 h).2
  exact lt_of_le_of_lt (UInt32.le_iff_toNat_le.1 hle) (by decide)

theorem toNat_lt_of_isDigit {c : Char} (h : c.isDigit = true) : c.toNat < 128 := by
  have hle : c.val ≤ '9'.val := of_decide_eq_true (Bool.and_eq_true_iff.1 h).2
  exact lt_of_le_of_lt (UInt32.le_iff_toNat_le.1 hle) (by decide)

theorem toNat_lt_of_isNameChar {c : Char} (h : isNameChar c = true) : c.toNat < 128 := by
  rw [isNameChar, Bool.or_eq_true, Bool.or_eq_true] at h
  rcases h with (h | h) | h
  · exact toNat_lt_of_isLower h
  · exact toNat_lt_of_isDigit h
  · have hall : ("<>, ".toList.all fun d => decide (d.toNat < 128)) = true := by decide
    exact of_decide_eq_true (List.all_eq_true.1 hall c (List.contains_iff_mem.1 h))

/-- What holds of the first 128 characters. -/
theorem of_ascii {P : Char → Prop} (h : ∀ n < 128, P (Char.ofNat n)) {c : Char} (hc : c.toNat < 128) : P c := by
  have hn := h c.toNat hc
  rwa [Char.ofNat_toNat] at hn

theorem nameChar_spec {c : Char} (h : isNameChar c = true) :
    c.toLower = c ∧ isDot c = true ∧ (isSpace c = true → c = ' ') := by
  have hall : ∀ n < 128, isNameChar (Char.ofNat n) = true → (Char.ofNat n).toLower = Char.ofNat n ∧
      isDot (Char.ofNat n) = true ∧ (isSpace (Char.ofNat n) = true → Char.ofNat n = ' ') := by decide +kernel
  exact of_ascii (P := fun c => isNameChar c = true → c.toLower = c ∧ isDot c = true ∧
    (isSpace c = true → c = ' ')) hall (toNat_lt_of_isNameChar h) h

theorem isLower_spec {c : Char} (h : c.isLower = true) : isNameChar c = true ∧ isSpace c = false ∧ c ≠ '<' := by
  have hall : ∀ n < 128, (Char.ofNat n).isLower = true → isNameChar (Char.ofNat n) = true ∧
      isSpace (Char.ofNat n) = false ∧ Char.ofNat n ≠ '<' := by decide +kernel
  exact of_ascii (P := fun c => c.isLower = true → isNameChar c = true ∧ isSpace c = false ∧ c ≠ '<')
    hall (toNat_lt_of_isLower h) h

theorem isDigit_spec {c : Char} (h : c.isDigit = true) :
    isNameChar c = true ∧ isSpace c = false ∧ c ≠ '<' ∧ c ≠ '>' ∧ c ≠ ',' := by
  have hall : ∀ n < 128, (Char.ofNat n).isDigit = true → isNameChar (Char.ofNat n) = true ∧
      isSpace (Char.ofNat n) = false ∧ Char.ofNat n ≠ '<' ∧ Char.ofNat n ≠ '>' ∧ Char.ofNat n ≠ ',' := by
    decide +kernel
  exact of_ascii (P := fun c => c.isDigit = true → isNameChar c = true ∧ isSpace c = false ∧ c ≠ '<' ∧
    c ≠ '>' ∧ c ≠ ',') hall (toNat_lt_of_isDigit h) h

theorem toLowerCase_eq {s : List Char} (h : ∀ c ∈ s, isNameChar c = true) : toLowerCase s = s := by
  rw [toLowerCase, List.map_congr_left fun c hc => (nameChar_spec (h c hc)).1, List.map_id']

/-- A constructor name followed by brackets. -/
theorem printed_bracketed (name : String) (hname : name ∈ ["list", "set", "map", "tuple", "vector"])
    {s : List Char} (hs : ∀ c ∈ s, isNameChar c = true) : Printed (name.toList ++ '<' :: s ++ ['>']) := by
  have hall : ∀ m ∈ ["list", "set", "map", "tuple", "vector"], m.toList.all isNameChar = true ∧
      m.toList.head?.any Char.isLower = true := by decide
  have hchars := List.all_eq_true.1 (hall name hname).1
  obtain ⟨c, hc, hlower⟩ := (Option.any_eq_true _ _).1 (hall name hname).2
  refine ⟨?_, ?_, ⟨name.toList ++ '<' :: s, '>', rfl, by decide⟩⟩
  · intro c hc
    simp only [List.mem_append, List.mem_cons, List.not_mem_nil, or_false] at hc
    rcases hc with (hc | rfl | hc) | rfl
    · exact hchars c hc
    · decide
    · exact hs c hc
    · decide
  · obtain ⟨r, hr⟩ := List.head?_eq_some_iff.1 hc
    exact ⟨c, r ++ '<' :: s ++ ['>'], by simp [hr], hlower⟩

theorem chars_intercalate {sep : List Char} (hsep : ∀ c ∈ sep, isNameChar c = true) :
    ∀ {ss : List (List Char)}, (∀ s ∈ ss, Printed s) → ∀ c ∈ sep.intercalate ss, isNameChar c = true
  | [], _, c, hc => by simp at hc
  | [s], h, c, hc => by
      rw [List.intercalate_singleton] at hc
      exact (h s (by simp)).chars c hc
  | s :: t :: ss, h, c, hc => by
      rw [List.intercalate_cons_cons, List.mem_append, List.mem_append] at hc
      rcases hc with (hc | hc) | hc
      · exact (h s (by simp)).chars c hc
      · exact hsep c hc
      · exact chars_intercalate hsep (fun u hu => h u (List.mem_cons_of_mem s hu)) c hc

theorem native_spec : ∀ e ∈ nativeCodes, Plain angle e.1.toList ∧ e.1.toList.all isNameChar = true ∧
    e.1.toList.head?.any Char.isLower = true ∧ e.1.toList.getLast?.any (fun c => !isSpace c) = true ∧
    dataTypes.find? (·.1.toList == e.1.toList) = some e := by decide +kernel

theorem printed_native (t : NativeType) : Printed t.name.toList := by
  obtain ⟨-, hchars, hfirst, hlast, -⟩ := native_spec _ t.listed
  obtain ⟨c, hc, hlower⟩ := (Option.any_eq_true _ _).1 hfirst
  obtain ⟨d, hd, hspace⟩ := (Option.any_eq_true _ _).1 hlast
  obtain ⟨r, hr⟩ := List.head?_eq_some_iff.1 hc
  obtain ⟨r', hr'⟩ := List.getLast?_eq_some_iff.1 hd
  exact ⟨List.all_eq_true.1 hchars, ⟨c, r, hr, hlower⟩, ⟨r', d, hr', by simpa using hspace⟩⟩

theorem chars_separator : ∀ c ∈ [',', ' '], isNameChar c = true := List.all_eq_true.1 (by decide)

mutual

theorem printed_text : ∀ t : DataType, Printed t.text
  | .native t => printed_native t
  | .list t => printed_bracketed "list" (by decide) (printed_text t).chars
  | .set t => printed_bracketed "set" (by decide) (printed_text t).chars
  | .map k v => by
      apply printed_bracketed "map" (by decide)
      intro c hc
      rw [List.mem_append, List.mem_append] at hc
      rcases hc with (hc | hc) | hc
      · exact (printed_text k).chars c hc
      · exact chars_separator c hc
      · exact (printed_text v).chars c hc
  | .tuple ts => printed_bracketed "tuple" (by decide) (chars_intercalate chars_separator (printed_texts ts))
  | .vector t n => by
      apply printed_bracketed "vector" (by decide)
      intro c hc
      rw [List.mem_append, List.mem_append] at hc
      rcases hc with (hc | hc) | hc
      · exact (printed_text t).chars c hc
      · exact chars_separator c hc
      · exact (isDigit_spec (isDigit_of_mem hc)).1

theorem printed_texts : ∀ ts : List DataType, ∀ s ∈ DataType.texts ts, Printed s
  | [], s, hs => by simp [DataType.texts] at hs
  | t :: ts, s, hs => by
      rcases List.mem_cons.1 hs with rfl | hs
      · exact printed_text t
      · exact printed_texts ts s hs

end

theorem within_separator : Within angle [',', ' '] := within_comma [' '] (by decide)

theorem plain_digits (n : ℕ) : Plain angle (Nat.toDigits 10 n) := by
  refine ⟨fun h => ?_, fun h => ?_, fun h => ?_⟩
  · exact absurd (isDigit_of_mem h) (by decide)
  · exact absurd (isDigit_of_mem h) (by decide)
  · exact absurd (isDigit_of_mem h) (by decide)

mutual

/-- The commas of a name are inside its brackets. -/
theorem argument_text : ∀ t : DataType, Argument angle t.text
  | .native t => (native_spec _ t.listed).1.argument
  | .list t => argument_bracketed (b := angle) (by decide) (argument_text t).within
  | .set t => argument_bracketed (b := angle) (by decide) (argument_text t).within
  | .map k v => argument_bracketed (b := angle) (by decide)
      (((argument_text k).within.append within_separator).append (argument_text v).within)
  | .tuple ts => argument_bracketed (b := angle) (by decide) (within_intercalate within_separator (argument_texts ts))
  | .vector t n => argument_bracketed (b := angle) (by decide)
      (((argument_text t).within.append within_separator).append (plain_digits n).argument.within)

theorem argument_texts : ∀ ts : List DataType, ∀ s ∈ DataType.texts ts, Argument angle s
  | [], s, hs => by simp [DataType.texts] at hs
  | t :: ts, s, hs => by
      rcases List.mem_cons.1 hs with rfl | hs
      · exact argument_text t
      · exact argument_texts ts s hs

end

theorem comma_mem_bracketed (name : String) (hname : ',' ∉ name.toList) (s : List Char) :
    ',' ∈ name.toList ++ '<' :: s ++ ['>'] ↔ ',' ∈ s := by
  simp [hname]

mutual

theorem comma_mem_text : ∀ t : DataType, ',' ∈ t.text ↔ t.commaFree = false
  | .native t => by
      have := (native_spec _ t.listed).1.2.2
      simpa [DataType.text_native, DataType.commaFree] using this
  | .list t => by rw [DataType.text_list, comma_mem_bracketed _ (by decide), comma_mem_text t, DataType.commaFree]
  | .set t => by rw [DataType.text_set, comma_mem_bracketed _ (by decide), comma_mem_text t, DataType.commaFree]
  | .map k v => by
      rw [DataType.text_map, comma_mem_bracketed _ (by decide)]
      simp [DataType.commaFree]
  | .tuple [] => by simp [DataType.text_tuple, DataType.texts, DataType.commaFree, DataType.commaFrees]
  | .tuple [t] => by
      rw [DataType.text_tuple, comma_mem_bracketed _ (by decide), DataType.texts, DataType.texts,
        List.intercalate_singleton, comma_mem_text t]
      simp [DataType.commaFree, DataType.commaFrees]
  | .tuple (t :: u :: ts) => by
      rw [DataType.text_tuple, comma_mem_bracketed _ (by decide), DataType.texts, DataType.texts,
        List.intercalate_cons_cons]
      simp [DataType.commaFree]
  | .vector t n => by
      rw [DataType.text_vector, comma_mem_bracketed _ (by decide)]
      simp [DataType.commaFree]

end

theorem commaFrees_iff (ts : List DataType) :
    DataType.commaFrees ts = true ↔ ∀ s ∈ DataType.texts ts, ',' ∉ s := by
  induction ts with
  | nil => simp [DataType.commaFrees, DataType.texts]
  | cons t ts ih => simp [DataType.commaFrees, DataType.texts, ih, comma_mem_text t]

/-! ### One level of a name -/

/-- A name in brackets goes to the regular expressions. -/
theorem bracketed_cond (name : String) (hname : name ∈ ["list", "set", "map", "tuple", "vector"])
    {s : List Char} (hs : ∀ c ∈ s, isNameChar c = true) :
    toLowerCase (name.toList ++ '<' :: s ++ ['>']) = name.toList ++ '<' :: s ++ ['>'] ∧
      ('<' ∈ name.toList ++ '<' :: s ++ ['>'] ∧ (name.toList ++ '<' :: s ++ ['>']).head? ≠ some '<') := by
  have hprinted := printed_bracketed name hname hs
  refine ⟨toLowerCase_eq hprinted.chars, by simp, ?_⟩
  obtain ⟨c, r, hr, hlower⟩ := hprinted.first
  rw [hr, List.head?_cons]
  intro he
  exact (isLower_spec hlower).2.2 (Option.some.inj he)

theorem exec_bracketPattern (name : String) {s : List Char} (hs : ∀ c ∈ s, isNameChar c = true) (hne : s ≠ []) :
    exec (bracketPattern name) (name.toList ++ '<' :: s ++ ['>']) = some [s] := by
  have hsplit : name.toList ++ '<' :: s ++ ['>'] = (name.toList ++ ['<']) ++ (s ++ ['>']) := by simp
  rw [hsplit, bracketPattern, exec_text]
  exact exec_group_end (fun c hc => (nameChar_spec (hs c hc)).2.1) hne

theorem exec_text_ne {t : List Char} {ps : List Piece} {cs : List Char} (h : t.isPrefixOf cs = false) :
    exec (.text t :: ps) cs = none := by
  rw [exec, if_neg (by simp [h])]

theorem getByNameLoop_list (fuel : ℕ) {s : List Char} (h : Printed s) :
    getByNameLoop (fuel + 1) ("list".toList ++ '<' :: s ++ ['>']) = (getByNameLoop fuel s).map (.of 0x20) := by
  obtain ⟨hlow, hcond⟩ := bracketed_cond "list" (by decide) h.chars
  obtain ⟨c, r, rfl, -⟩ := h.first
  rw [getByNameLoop]
  simp only [hlow]
  rw [if_pos hcond, exec_bracketPattern "list" h.chars (List.cons_ne_nil c r)]

theorem getByNameLoop_set (fuel : ℕ) {s : List Char} (h : Printed s) :
    getByNameLoop (fuel + 1) ("set".toList ++ '<' :: s ++ ['>']) = (getByNameLoop fuel s).map (.of 0x22) := by
  obtain ⟨hlow, hcond⟩ := bracketed_cond "set" (by decide) h.chars
  obtain ⟨c, r, rfl, -⟩ := h.first
  rw [getByNameLoop]
  simp only [hlow]
  rw [if_pos hcond, bracketPattern, exec_text_ne rfl, exec_bracketPattern "set" h.chars (List.cons_ne_nil c r)]

/-- The text of a map is cut at its last comma. -/
theorem getByNameLoop_map (fuel : ℕ) {x z : List Char} (hx : ∀ c ∈ x, isNameChar c = true)
    (hz : ∀ c ∈ z, isNameChar c = true) (hfirst : ∃ c r, x = c :: r ∧ c.isLower = true)
    (hne : z.dropWhile (· == ' ') ≠ []) (hcomma : ',' ∉ z) :
    getByNameLoop (fuel + 1) ("map".toList ++ '<' :: (x ++ ',' :: z) ++ ['>']) = do
      let key ← getByNameLoop fuel x
      let value ← getByNameLoop fuel (z.dropWhile (· == ' '))
      return .ofAll 0x21 [key, value] := by
  have hchars : ∀ c ∈ x ++ ',' :: z, isNameChar c = true := by
    intro c hc
    rw [List.mem_append, List.mem_cons] at hc
    rcases hc with hc | rfl | hc
    · exact hx c hc
    · decide
    · exact hz c hc
  obtain ⟨hlow, hcond⟩ := bracketed_cond "map" (by decide) hchars
  obtain ⟨c, r, hxr, hlower⟩ := hfirst
  have hexec : exec mapPattern ("map".toList ++ '<' :: (x ++ ',' :: z) ++ ['>']) =
      some [x, z.dropWhile (· == ' ')] := by
    have hsplit : "map".toList ++ '<' :: (x ++ ',' :: z) ++ ['>'] = "map<".toList ++ (x ++ ',' :: (z ++ ['>'])) := by
      rw [show "map<".toList = "map".toList ++ ['<'] by decide]
      simp
    have hend : exec [.skip (· == ' '), .group isDot, .text ['>']] (z ++ ['>']) =
        some [z.dropWhile (· == ' ')] := by
      have hparts : z ++ ['>'] = z.takeWhile (· == ' ') ++ (z.dropWhile (· == ' ') ++ ['>']) := by
        rw [← List.append_assoc, List.takeWhile_append_dropWhile]
      rw [hparts]
      refine exec_skip (fun e he => List.all_eq_true.1 List.all_takeWhile e he) (fun e he => ?_)
        (exec_group_end (fun e he => (nameChar_spec (hz e ((List.dropWhile_sublist _).subset he))).2.1) hne)
      have hhead := List.head?_dropWhile_not (· == ' ') z
      rw [List.head?_append_of_ne_nil _ hne] at he
      rw [he] at hhead
      exact hhead
    rw [hsplit, mapPattern, exec_text]
    refine exec_group_separator (fun e he => (nameChar_spec (hx e he)).2.1) (fun e he => ?_) (by simp [hxr])
      (by decide) (by simp [hcomma]) hend
    obtain rfl : c = e := by simpa [hxr] using he
    have hne : c ≠ ' ' := by
      rintro rfl
      exact absurd hlower (by decide)
    simpa using hne
  rw [getByNameLoop]
  simp only [hlow]
  rw [if_pos hcond, bracketPattern, exec_text_ne rfl, bracketPattern, exec_text_ne rfl, hexec]

theorem getByNameLoop_tuple (fuel : ℕ) {s : List Char} (hs : ∀ c ∈ s, isNameChar c = true) (hne : s ≠ []) :
    getByNameLoop (fuel + 1) ("tuple".toList ++ '<' :: s ++ ['>']) =
      ((s.splitOn ',').mapM fun x => getByNameLoop fuel (trim x)).map (.ofAll 0x31) := by
  obtain ⟨hlow, hcond⟩ := bracketed_cond "tuple" (by decide) hs
  have hmap : exec mapPattern ("tuple".toList ++ '<' :: s ++ ['>']) = none := exec_text_ne rfl
  rw [getByNameLoop]
  simp only [hlow]
  rw [if_pos hcond, hmap, exec_bracketPattern "tuple" hs hne, bracketPattern, exec_text_ne rfl, bracketPattern,
    exec_text_ne rfl, bracketPattern, exec_text_ne rfl]

theorem getByNameLoop_tuple_nil (fuel : ℕ) :
    ∃ e, getByNameLoop (fuel + 1) ("tuple".toList ++ '<' :: [] ++ ['>']) = .error e := ⟨_, rfl⟩

theorem getByNameLoop_vector (fuel : ℕ) {s : List Char} (h : Printed s) (n : ℕ) :
    getByNameLoop (fuel + 1) ("vector".toList ++ '<' :: (s ++ [',', ' '] ++ Nat.toDigits 10 n) ++ ['>']) =
      (getByNameLoop fuel s).map fun subtype => .vector subtype n := by
  have hdigits : ∀ c ∈ Nat.toDigits 10 n, c.isDigit = true := fun c hc => isDigit_of_mem hc
  have hchars : ∀ c ∈ s ++ [',', ' '] ++ Nat.toDigits 10 n, isNameChar c = true := by
    intro c hc
    rw [List.mem_append, List.mem_append] at hc
    rcases hc with (hc | hc) | hc
    · exact h.chars c hc
    · exact chars_separator c hc
    · exact (isDigit_spec (hdigits c hc)).1
  obtain ⟨hlow, hcond⟩ := bracketed_cond "vector" (by decide) hchars
  obtain ⟨c, r, hsr, hlower⟩ := h.first
  have hexec : exec vectorPattern ("vector".toList ++ '<' :: (s ++ [',', ' '] ++ Nat.toDigits 10 n) ++ ['>']) =
      some [s, Nat.toDigits 10 n] := by
    have hsplit : "vector".toList ++ '<' :: (s ++ [',', ' '] ++ Nat.toDigits 10 n) ++ ['>'] =
        "vector<".toList ++ (s ++ ',' :: ([' '] ++ (Nat.toDigits 10 n ++ ['>']))) := by
      rw [show "vector<".toList = "vector".toList ++ ['<'] by decide]
      simp
    have hdimension : exec [.group Char.isDigit, .skip isSpace, .text ['>']] (Nat.toDigits 10 n ++ ['>']) =
        some [Nat.toDigits 10 n] := by
      apply exec_group hdigits Nat.toDigits_ne_nil rfl
      intro k hk
      rw [List.drop_eq_nil_of_le (by rw [List.length_singleton]; omega)]
      rfl
    have hend : exec [.skip isSpace, .group Char.isDigit, .skip isSpace, .text ['>']]
        ([' '] ++ (Nat.toDigits 10 n ++ ['>'])) = some [Nat.toDigits 10 n] := by
      refine exec_skip (List.forall_mem_singleton.2 (by decide)) (fun e he => ?_) hdimension
      obtain ⟨d, ds, hd⟩ := List.exists_cons_of_ne_nil (Nat.toDigits_ne_nil (n := n) (b := 10))
      obtain rfl : d = e := by simpa [hd] using he
      exact (isDigit_spec (hdigits d (by simp [hd]))).2.1
    rw [hsplit, vectorPattern, exec_text]
    refine exec_group_separator (fun e he => (nameChar_spec (h.chars e he)).2.1) (fun e he => ?_) (by simp [hsr])
      (by decide) ?_ hend
    · obtain rfl : c = e := by simpa [hsr] using he
      exact (isLower_spec hlower).2.1
    · intro hmem
      simp only [List.mem_append, List.mem_singleton, Char.reduceEq, false_or, or_false] at hmem
      exact (isDigit_spec (hdigits _ hmem)).2.2.2.2 rfl
  have hmap : exec mapPattern ("vector".toList ++ '<' :: (s ++ [',', ' '] ++ Nat.toDigits 10 n) ++ ['>']) = none :=
    exec_text_ne rfl
  rw [getByNameLoop]
  simp only [hlow]
  rw [if_pos hcond, hmap, hexec, bracketPattern, exec_text_ne rfl, bracketPattern, exec_text_ne rfl, bracketPattern,
    exec_text_ne rfl, bracketPattern, exec_text_ne rfl]
  simp only [Nat.ofDigitChars_ten_toDigits]

theorem getByNameLoop_native (fuel : ℕ) (t : NativeType) : getByNameLoop fuel t.name.toList = .ok (.plain t.code) := by
  obtain ⟨hplain, hchars, -, -, hfind⟩ := native_spec _ t.listed
  have hlookup : lookup t.name.toList = .ok (.plain t.code) := by rw [lookup, hfind]
  cases fuel with
  | zero => exact hlookup
  | succ fuel =>
      rw [getByNameLoop]
      simp only [toLowerCase_eq (List.all_eq_true.1 hchars)]
      rw [if_neg fun h => hplain.1 h.1, hlookup]

/-! ### What is read is balanced -/

theorem depth_of_spaces {s : List Char} (h : ∀ c ∈ s, isSpace c = true) : depth angle s = 0 :=
  depth_of_not_mem (fun hm => absurd (h _ hm) (by decide)) fun hm => absurd (h _ hm) (by decide)

theorem depth_trim (s : List Char) : depth angle (trim s) = depth angle s := by
  have hfront := List.takeWhile_append_dropWhile (p := isSpace) (l := s)
  have hback := List.rdropWhile_append_rtakeWhile (p := isSpace) (l := s.dropWhile isSpace)
  have hspaces : depth angle (s.takeWhile isSpace) = 0 :=
    depth_of_spaces fun c hc => List.all_eq_true.1 List.all_takeWhile c hc
  have hspaces' : depth angle ((s.dropWhile isSpace).rtakeWhile isSpace) = 0 :=
    depth_of_spaces fun c hc => List.mem_rtakeWhile_imp hc
  rw [trim]
  nth_rewrite 2 [← hfront]
  nth_rewrite 2 [← hback]
  rw [depth_append, depth_append, hspaces, hspaces']
  ring

theorem depth_intercalate : ∀ {ss : List (List Char)}, (∀ s ∈ ss, depth angle s = 0) →
    depth angle ([','].intercalate ss) = 0
  | [], _ => by simp
  | [s], h => by
      rw [List.intercalate_singleton]
      exact h s (by simp)
  | s :: t :: ss, h => by
      rw [List.intercalate_cons_cons, depth_append, depth_append, h s (by simp), depth_comma,
        depth_intercalate fun u hu => h u (List.mem_cons_of_mem s hu)]
      norm_num

theorem depth_lookup {s : List Char} {r : TypeInfo} (h : lookup s = .ok r) : depth angle s = 0 := by
  have hall : ∀ e ∈ dataTypes, depth angle e.1.toList = 0 := by decide
  rw [lookup] at h
  split at h
  · next e he =>
      have heq : (e.1.toList == s) = true := List.find?_some (p := fun e : String × ℕ => e.1.toList == s) he
      rw [← eq_of_beq heq]
      exact hall e (List.mem_of_find?_eq_some he)
  · cases h

/-- The depth of a text that a pattern matches comes from its texts and its groups. -/
theorem depth_of_exec {ps : List Piece} {s : List Char} {gs : List (List Char)} (h : exec ps s = some gs)
    (hskip : ∀ p, .skip p ∈ ps → p '<' = false ∧ p '>' = false) :
    depth angle s = depth angle (Pattern.texts ps) + depth angle gs.flatten := by
  have hopen := (exec_matches h).count (x := '<') fun p hp => (hskip p hp).1
  have hclose := (exec_matches h).count (x := '>') fun p hp => (hskip p hp).2
  simp only [depth, angle, hopen, hclose]
  push_cast
  ring

theorem depth_bracketPattern {name : String} (hname : Plain angle name.toList) {s x : List Char}
    (h : exec (bracketPattern name) s = some [x]) : depth angle s = depth angle x := by
  rw [depth_of_exec h (by simp [bracketPattern])]
  simp only [bracketPattern, Pattern.texts, List.flatten_cons, List.flatten_nil, List.append_nil, depth_append,
    hname.argument.balanced]
  rw [show depth angle ['<'] = 1 from depth_opening, show depth angle ['>'] = -1 from depth_closing]
  ring

theorem depth_mapPattern {s x y : List Char} (h : exec mapPattern s = some [x, y]) :
    depth angle s = depth angle x + depth angle y := by
  have htexts : depth angle (Pattern.texts mapPattern) = 0 := by decide
  rw [depth_of_exec h (by simp [mapPattern]), htexts]
  simp

theorem depth_vectorPattern {s x y : List Char} (h : exec vectorPattern s = some [x, y]) :
    depth angle s = depth angle x := by
  have htexts : depth angle (Pattern.texts vectorPattern) = 0 := by decide
  have hdigits : ∀ c ∈ y, c.isDigit = true := by
    have hkinds : List.Forall₂ _ [isDot, Char.isDigit] [x, y] := (exec_matches h).kinds
    exact (List.forall₂_cons.1 (List.forall₂_cons.1 hkinds).2).1
  have hy : depth angle y = 0 :=
    depth_of_not_mem (fun hm => (isDigit_spec (hdigits _ hm)).2.2.1 rfl)
      fun hm => (isDigit_spec (hdigits _ hm)).2.2.2.1 rfl
  rw [depth_of_exec h (by simp [vectorPattern, isSpace]), htexts]
  simp [hy]

theorem of_eq_info {code : ℕ} {r : TypeInfo} {t : DataType} (h : TypeInfo.of code r = t.info) :
    ∃ t' : DataType, r = t'.info := by
  cases t <;> simp only [DataType.info, TypeInfo.of.injEq, reduceCtorEq] at h
  · exact ⟨_, h.2⟩
  · exact ⟨_, h.2⟩

theorem ofAll_eq_info {code : ℕ} {rs : List TypeInfo} {t : DataType} (h : TypeInfo.ofAll code rs = t.info) :
    ∃ ts : List DataType, rs = DataType.infos ts := by
  cases t <;> simp only [DataType.info, TypeInfo.ofAll.injEq, reduceCtorEq] at h
  · next k v => exact ⟨[k, v], h.2⟩
  · exact ⟨_, h.2⟩

theorem vector_eq_info {r : TypeInfo} {n : ℕ} {t : DataType} (h : TypeInfo.vector r n = t.info) :
    ∃ t' : DataType, r = t'.info := by
  cases t <;> simp only [DataType.info, TypeInfo.vector.injEq, reduceCtorEq] at h
  exact ⟨_, h.1⟩

theorem udtName_ne_info {s : List Char} {t : DataType} : TypeInfo.udtName s ≠ t.info := by
  cases t <;> simp [DataType.info]

theorem mem_infos {r : TypeInfo} : ∀ {ts : List DataType}, r ∈ DataType.infos ts → ∃ t : DataType, r = t.info
  | t :: ts, h => by
      rcases List.mem_cons.1 h with rfl | h
      · exact ⟨t, rfl⟩
      · exact mem_infos h

/-- A name that is read as a type without user types has as many opening as closing brackets. -/
theorem depth_of_read : ∀ (fuel : ℕ) (s : List Char) (t : DataType), (∀ c ∈ s, isNameChar c = true) →
    getByNameLoop fuel s = .ok t.info → depth angle s = 0
  | 0, s, t, _, h => depth_lookup h
  | fuel + 1, s, t, hs, h => by
      have hgroup : ∀ {ps : List Piece} {gs : List (List Char)}, exec ps s = some gs →
          ∀ g ∈ gs, ∀ c ∈ g, isNameChar c = true :=
        fun hexec g hg c hc => hs c ((exec_matches hexec).mem_of_group g hg c hc)
      rw [getByNameLoop] at h
      simp only [toLowerCase_eq hs] at h
      split_ifs at h with hcond
      · split at h
        · next x hexec =>
            obtain ⟨r, hr, hinfo⟩ := map_eq_ok h
            obtain ⟨t', rfl⟩ := of_eq_info hinfo
            rw [depth_bracketPattern (by decide) hexec]
            exact depth_of_read fuel x t' (hgroup hexec x (by simp)) hr
        split at h
        · next x hexec =>
            obtain ⟨r, hr, hinfo⟩ := map_eq_ok h
            obtain ⟨t', rfl⟩ := of_eq_info hinfo
            rw [depth_bracketPattern (by decide) hexec]
            exact depth_of_read fuel x t' (hgroup hexec x (by simp)) hr
        split at h
        · next x y hexec =>
            obtain ⟨key, hkey, h⟩ := bind_eq_ok h
            obtain ⟨value, hvalue, h⟩ := bind_eq_ok h
            obtain ⟨ts, hts⟩ := ofAll_eq_info (Except.ok.inj h)
            have hmem : ∀ r ∈ [key, value], ∃ t : DataType, r = t.info := fun r hr => mem_infos (hts ▸ hr)
            obtain ⟨k, rfl⟩ := hmem key (by simp)
            obtain ⟨v, rfl⟩ := hmem value (by simp)
            rw [depth_mapPattern hexec, depth_of_read fuel x k (hgroup hexec x (by simp)) hkey,
              depth_of_read fuel y v (hgroup hexec y (by simp)) hvalue]
            rfl
        split at h
        · exact absurd (Except.ok.inj h) udtName_ne_info
        split at h
        · next x hexec =>
            obtain ⟨rs, hrs, hinfo⟩ := map_eq_ok h
            obtain ⟨ts, rfl⟩ := ofAll_eq_info hinfo
            have hsplit : [','].intercalate (x.splitOn ',') = x := List.intercalate_splitOn ','
            rw [depth_bracketPattern (by decide) hexec, ← hsplit]
            apply depth_intercalate
            intro piece hpiece
            obtain ⟨r, hr, hread⟩ := exists_of_mapM hrs piece hpiece
            obtain ⟨t', rfl⟩ := mem_infos hr
            rw [← depth_trim]
            refine depth_of_read fuel (trim piece) t' (fun c hc => ?_) hread
            exact hgroup hexec x (by simp) c (of_mem_splitOn hpiece ((trim_sublist _).subset hc)).1
        split at h
        · next x y hexec =>
            obtain ⟨r, hr, hinfo⟩ := map_eq_ok h
            obtain ⟨t', rfl⟩ := vector_eq_info hinfo
            rw [depth_vectorPattern hexec]
            exact depth_of_read fuel x t' (hgroup hexec x (by simp)) hr
        · exact depth_lookup h
      · exact depth_lookup h

/-! ### Reading a name back -/

theorem Printed.trimmed {s : List Char} (h : Printed s) : Trimmed s := by
  obtain ⟨c, r, hs, hlower⟩ := h.first
  obtain ⟨r', d, hs', hspace⟩ := h.last
  constructor
  · intro e he
    obtain rfl : c = e := by simpa [hs] using he
    exact (isLower_spec hlower).2.1
  · intro e he
    obtain rfl : d = e := by simpa [hs'] using he
    exact hspace

theorem splitOn_intercalate_texts : ∀ {s : List Char} {ss : List (List Char)}, (∀ t ∈ s :: ss, ',' ∉ t) →
    ([',', ' '].intercalate (s :: ss)).splitOn ',' = s :: ss.map (' ' :: ·)
  | s, [], h => by
      rw [List.intercalate_singleton, List.splitOn_eq_singleton (h s (by simp))]
      rfl
  | s, t :: ss, h => by
      have hrest := splitOn_intercalate_texts (s := t) fun u hu => h u (List.mem_cons_of_mem s hu)
      rw [List.intercalate_cons_cons, List.append_assoc, List.cons_append,
        List.splitOn_append_cons_self_of_not_mem (h s (by simp)), List.cons_append, List.nil_append,
        List.splitOn_cons_eq_if_modifyHead, if_neg (by decide), hrest]
      rfl

/-- A comma of an argument is inside its brackets, also when the argument stands in a list. -/
theorem exists_comma_inside : ∀ {ss : List (List Char)}, (∀ s ∈ ss, Argument angle s) → (∃ s ∈ ss, ',' ∈ s) →
    ∃ p q, [',', ' '].intercalate ss = p ++ ',' :: q ∧ 0 < depth angle p
  | [], _, h => by simp at h
  | [s], hss, h => by
      obtain ⟨p, q, hpq⟩ := List.append_of_mem (by simpa using h)
      rw [List.intercalate_singleton]
      exact ⟨p, q, hpq, (hss s (by simp)).comma p q hpq⟩
  | s :: t :: ss, hss, h => by
      rw [List.intercalate_cons_cons]
      by_cases hs : ',' ∈ s
      · obtain ⟨p, q, rfl⟩ := List.append_of_mem hs
        exact ⟨p, q ++ ([',', ' '] ++ [',', ' '].intercalate (t :: ss)), by simp,
          (hss _ (by simp)).comma p q rfl⟩
      · have hrest : ∃ u ∈ t :: ss, ',' ∈ u := by simpa [hs] using h
        obtain ⟨p, q, hpq, hdepth⟩ := exists_comma_inside (fun u hu => hss u (List.mem_cons_of_mem s hu)) hrest
        refine ⟨s ++ [',', ' '] ++ p, q, by rw [hpq]; simp, ?_⟩
        rw [depth_append, depth_append, (hss s (by simp)).balanced, within_separator.balanced]
        simpa using hdepth

theorem exists_last_comma {s : List Char} (h : ',' ∈ s) : ∃ p z, s = p ++ ',' :: z ∧ ',' ∉ z := by
  obtain ⟨as, bs, hs, has⟩ := List.eq_append_cons_of_mem (List.mem_reverse.2 h)
  refine ⟨bs.reverse, as.reverse, ?_, by simpa using has⟩
  rw [← List.reverse_reverse s, hs]
  simp

theorem dropWhile_ne_nil {z : List Char} (h : depth angle z ≠ 0) : z.dropWhile (· == ' ') ≠ [] := by
  intro hnil
  have hall : ∀ c ∈ z, c = ' ' := by simpa [List.dropWhile_eq_nil_iff] using hnil
  exact h (depth_of_spaces fun c hc => by rw [hall c hc]; decide)

/-- A comma in the value of a map is taken for the one between the key and the value. -/
theorem not_read_map (fuel : ℕ) (k v : DataType) (hcomma : ',' ∈ v.text) :
    getByNameLoop (fuel + 1) (DataType.map k v).text ≠ .ok (DataType.map k v).info := by
  have hk := printed_text k
  have hv := printed_text v
  obtain ⟨p, z, hpz, hz⟩ := exists_last_comma hcomma
  have hdepth := (argument_text v).comma p z hpz
  have hzdepth : depth angle z ≠ 0 := by
    have hbalanced := (argument_text v).balanced
    rw [hpz, depth_append, depth_cons, depth_comma] at hbalanced
    omega
  have htext : (DataType.map k v).text = "map".toList ++ '<' :: (k.text ++ [',', ' '] ++ p ++ ',' :: z) ++ ['>'] := by
    rw [DataType.text_map, hpz]
    simp
  have hchars : ∀ c ∈ k.text ++ [',', ' '] ++ p, isNameChar c = true := by
    intro c hc
    rw [List.mem_append, List.mem_append] at hc
    rcases hc with (hc | hc) | hc
    · exact hk.chars c hc
    · exact chars_separator c hc
    · exact hv.chars c (by simp [hpz, hc])
  have hfirst : ∃ c r, k.text ++ [',', ' '] ++ p = c :: r ∧ c.isLower = true := by
    obtain ⟨c, r, hr, hlower⟩ := hk.first
    exact ⟨c, r ++ [',', ' '] ++ p, by simp [hr], hlower⟩
  intro h
  rw [htext, getByNameLoop_map fuel hchars (fun c hc => hv.chars c (by simp [hpz, hc])) hfirst
    (dropWhile_ne_nil hzdepth) hz] at h
  obtain ⟨key, hkey, h⟩ := bind_eq_ok h
  obtain ⟨value, -, h⟩ := bind_eq_ok h
  have hinfo : TypeInfo.ofAll 0x21 [key, value] = .ofAll 0x21 [k.info, v.info] := Except.ok.inj h
  obtain ⟨rfl, -⟩ : key = k.info ∧ value = v.info := by simpa using hinfo
  have hread := depth_of_read fuel _ k hchars hkey
  rw [depth_append, depth_append, (argument_text k).balanced, within_separator.balanced] at hread
  omega

theorem read_map_iff (fuel : ℕ) (k v : DataType) :
    getByNameLoop (fuel + 1) (DataType.map k v).text = .ok (DataType.map k v).info ↔
      (getByNameLoop fuel k.text = .ok k.info ∧ getByNameLoop fuel v.text = .ok v.info) ∧ ',' ∉ v.text := by
  by_cases hcomma : ',' ∈ v.text
  · simp [not_read_map fuel k v hcomma, hcomma]
  · have hk := printed_text k
    have hv := printed_text v
    have hz : (' ' :: v.text).dropWhile (· == ' ') = v.text := by
      obtain ⟨c, r, hr, hlower⟩ := hv.first
      have hc : c ≠ ' ' := by
        rintro rfl
        exact absurd hlower (by decide)
      rw [List.dropWhile_cons_of_pos (by decide), hr, List.dropWhile_cons_of_neg (by simpa using hc)]
    have htext : (DataType.map k v).text = "map".toList ++ '<' :: (k.text ++ ',' :: ' ' :: v.text) ++ ['>'] := by
      simp [DataType.text_map]
    have hloop := getByNameLoop_map fuel (z := ' ' :: v.text) hk.chars
      (fun c hc => by rcases List.mem_cons.1 hc with rfl | hc; exacts [by decide, hv.chars c hc]) hk.first
      (by rw [hz]; obtain ⟨c, r, hr, -⟩ := hv.first; simp [hr]) (by simp [hcomma])
    rw [htext, hloop, hz]
    simp only [hcomma, not_false_eq_true, and_true]
    constructor
    · intro h
      obtain ⟨key, hkey, h⟩ := bind_eq_ok h
      obtain ⟨value, hvalue, h⟩ := bind_eq_ok h
      have hinfo : TypeInfo.ofAll 0x21 [key, value] = .ofAll 0x21 [k.info, v.info] := Except.ok.inj h
      obtain ⟨rfl, rfl⟩ : key = k.info ∧ value = v.info := by simpa using hinfo
      exact ⟨hkey, hvalue⟩
    · rintro ⟨hkey, hvalue⟩
      rw [hkey, hvalue]
      rfl

/-- A comma in an element of a tuple is taken for one between elements. -/
theorem not_read_pieces (fuel : ℕ) {ss : List (List Char)} (hss : ∀ s ∈ ss, Printed s)
    (hargs : ∀ s ∈ ss, Argument angle s) (hcomma : ∃ s ∈ ss, ',' ∈ s) (ts : List DataType) :
    (([',', ' '].intercalate ss).splitOn ',').mapM (fun x => getByNameLoop fuel (trim x)) ≠
      .ok (DataType.infos ts) := by
  intro h
  obtain ⟨p, q, hpq, hdepth⟩ := exists_comma_inside hargs hcomma
  have hzero : ∀ piece ∈ p.splitOn ',', depth angle piece = 0 := by
    intro piece hpiece
    have hmem : piece ∈ ([',', ' '].intercalate ss).splitOn ',' := by
      rw [hpq, List.splitOn_append_cons_self]
      exact List.mem_append_left _ hpiece
    obtain ⟨r, hr, hread⟩ := exists_of_mapM h piece hmem
    obtain ⟨t, rfl⟩ := mem_infos hr
    rw [← depth_trim]
    refine depth_of_read fuel (trim piece) t (fun c hc => ?_) hread
    exact chars_intercalate chars_separator hss c (of_mem_splitOn hmem ((trim_sublist _).subset hc)).1
  have hp : depth angle p = 0 := by
    have hsplit : p = [','].intercalate (p.splitOn ',') := (List.intercalate_splitOn ',').symm
    rw [hsplit]
    exact depth_intercalate hzero
  omega

theorem read_tuple_iff (fuel : ℕ) (t : DataType) (ts : List DataType) :
    getByNameLoop (fuel + 1) (DataType.tuple (t :: ts)).text = .ok (DataType.tuple (t :: ts)).info ↔
      List.Forall₂ (fun s r => getByNameLoop fuel s = .ok r) (DataType.texts (t :: ts)) (DataType.infos (t :: ts)) ∧
        ∀ s ∈ DataType.texts (t :: ts), ',' ∉ s := by
  have hprinted := printed_texts (t :: ts)
  have hne : [',', ' '].intercalate (DataType.texts (t :: ts)) ≠ [] := by
    obtain ⟨c, r, hr, -⟩ := (printed_text t).first
    apply List.ne_nil_of_mem (a := c)
    exact mem_intercalate_of_mem [',', ' '] (s := t.text) (by simp [DataType.texts]) (by simp [hr])
  rw [DataType.text_tuple, getByNameLoop_tuple fuel (chars_intercalate chars_separator hprinted) hne, DataType.info]
  by_cases hcomma : ∀ s ∈ DataType.texts (t :: ts), ',' ∉ s
  · have htrim : (([',', ' '].intercalate (DataType.texts (t :: ts))).splitOn ',').map trim =
        DataType.texts (t :: ts) := by
      rw [DataType.texts] at hcomma hprinted ⊢
      rw [splitOn_intercalate_texts hcomma, List.map_cons, List.map_map, trim_eq (hprinted _ (by simp)).trimmed]
      congr 1
      refine (List.map_congr_left fun s hs => ?_).trans (List.map_id _)
      exact trim_space_cons (hprinted s (List.mem_cons_of_mem _ hs)).trimmed
    have hmapM := List.mapM_map (f := trim) (g := getByNameLoop fuel)
      (l := ([',', ' '].intercalate (DataType.texts (t :: ts))).splitOn ',')
    rw [htrim] at hmapM
    rw [and_iff_left hcomma, ← mapM_eq_ok, hmapM]
    constructor
    · intro h
      obtain ⟨rs, hrs, hinfo⟩ := map_eq_ok h
      rw [← (TypeInfo.ofAll.inj hinfo).2]
      exact hrs
    · intro h
      change Except.map _ (List.mapM (getByNameLoop fuel ∘ trim) _) = _
      rw [h]
      rfl
  · have hexists : ∃ s ∈ DataType.texts (t :: ts), ',' ∈ s := by simpa using hcomma
    simp only [hcomma, and_false, iff_false]
    intro h
    obtain ⟨rs, hrs, hinfo⟩ := map_eq_ok h
    rw [(TypeInfo.ofAll.inj hinfo).2] at hrs
    exact not_read_pieces fuel hprinted (argument_texts (t :: ts)) hexists _ hrs

mutual

/-- With enough fuel a name is read back as its type exactly when the type is readable. -/
theorem read_iff : ∀ (t : DataType) (fuel : ℕ), t.text.length < fuel →
    (getByNameLoop fuel t.text = .ok t.info ↔ t.readable = true)
  | t, 0, h => by omega
  | .native t, fuel + 1, _ => iff_of_true (getByNameLoop_native _ t) rfl
  | .list t, fuel + 1, h => by
      rw [DataType.text_list, List.length_append, List.length_append] at h
      rw [DataType.text_list, getByNameLoop_list fuel (printed_text t), DataType.info,
        map_eq_ok_iff (fun _ _ => (TypeInfo.of.inj · |>.2)), DataType.readable]
      exact read_iff t fuel (by simp at h; omega)
  | .set t, fuel + 1, h => by
      rw [DataType.text_set, List.length_append, List.length_append] at h
      rw [DataType.text_set, getByNameLoop_set fuel (printed_text t), DataType.info,
        map_eq_ok_iff (fun _ _ => (TypeInfo.of.inj · |>.2)), DataType.readable]
      exact read_iff t fuel (by simp at h; omega)
  | .map k v, fuel + 1, h => by
      have hlen : k.text.length < fuel ∧ v.text.length < fuel := by
        simp only [DataType.text_map, List.length_append, List.length_cons] at h
        omega
      rw [read_map_iff, read_iff k fuel hlen.1, read_iff v fuel hlen.2, DataType.readable, comma_mem_text]
      simp
  | .tuple [], fuel + 1, _ => by
      obtain ⟨e, he⟩ := getByNameLoop_tuple_nil fuel
      refine iff_of_false (fun h => ?_) (by simp [DataType.readable])
      cases he.symm.trans h
  | .tuple (t :: ts), fuel + 1, h => by
      have hlen : ∀ s ∈ DataType.texts (t :: ts), s.length < fuel := by
        intro s hs
        have := length_le_intercalate [',', ' '] hs
        rw [DataType.text_tuple] at h
        simp only [List.length_append, List.length_cons] at h
        omega
      rw [read_tuple_iff, read_all_iff (t :: ts) fuel hlen, ← commaFrees_iff, DataType.readable]
      simp
  | .vector t n, fuel + 1, h => by
      have hlen : t.text.length < fuel := by
        simp only [DataType.text_vector, List.length_append, List.length_cons] at h
        omega
      rw [DataType.text_vector, getByNameLoop_vector fuel (printed_text t), DataType.info,
        map_eq_ok_iff (f := fun r => TypeInfo.vector r n) (fun _ _ => (TypeInfo.vector.inj · |>.1)), DataType.readable]
      exact read_iff t fuel hlen

theorem read_all_iff : ∀ (ts : List DataType) (fuel : ℕ), (∀ s ∈ DataType.texts ts, s.length < fuel) →
    (List.Forall₂ (fun s r => getByNameLoop fuel s = .ok r) (DataType.texts ts) (DataType.infos ts) ↔
      DataType.readables ts = true)
  | [], _, _ => by simp [DataType.texts, DataType.infos, DataType.readables]
  | t :: ts, fuel, h => by
      rw [DataType.texts] at h
      rw [DataType.texts, DataType.infos, List.forall₂_cons, read_iff t fuel (h _ (by simp)),
        read_all_iff ts fuel fun s hs => h s (List.mem_cons_of_mem _ hs), DataType.readables, Bool.and_eq_true]

end

/-! ### Vectors -/

/-- The type that `guessDataType` finds for a vector: the subtype is read from its name, and guessed from
the first element when the name is not a valid one. -/
def guessVectorType (subtype : List Char) (first : Option TypeInfo) (length : ℕ) : Except Error TypeInfo :=
  let subtypeColumnInfo := if subtype = [] then none else (getByName subtype).toOption
  match subtypeColumnInfo.or first with
  | some t => .ok (.vector t length)
  | none => .error (.typeError "Cannot guess subtype from element")

/-- The name of the type is read as the type, and a vector that was decoded with it as subtype, so that it
carries the name, is encoded with it again. -/
structure ReadsBack (t : DataType) (name : List Char) : Prop where
  printed : getDataTypeNameByCode t.info = .ok name
  read : getByName name = .ok t.info
  vector : ∀ first length, guessVectorType name first length = .ok (.vector t.info length)

theorem ReadsBack.readable {t : DataType} {name : List Char} (h : ReadsBack t name) : t.readable = true := by
  have hname : name = t.text := Except.ok.inj (h.printed.symm.trans (getDataTypeNameByCode_info t))
  rw [← read_iff t (t.text.length + 1) (by omega), ← hname]
  exact h.read

theorem readsBack_text {t : DataType} (h : t.readable = true) : ReadsBack t t.text := by
  have hread : getByName t.text = .ok t.info := (read_iff t (t.text.length + 1) (by omega)).2 h
  refine ⟨getDataTypeNameByCode_info t, hread, fun first length => ?_⟩
  obtain ⟨c, r, hr, -⟩ := (printed_text t).first
  rw [guessVectorType, if_neg (by simp [hr]), hread]
  rfl

/-- The names of the readable types, and only these, are read as the types they were printed for. -/
theorem readsBack_iff (t : DataType) : (∃ name, ReadsBack t name) ↔ t.readable = true := by
  constructor
  · rintro ⟨name, h⟩
    exact h.readable
  · intro h
    exact ⟨t.text, readsBack_text h⟩

/-- A map from vectors of lists to sets. -/
theorem readsBack_vectorKeys : ∃ name, ReadsBack
    (.map (.vector (.list (.native ⟨"float", 0x8, by decide⟩)) 3) (.set (.native ⟨"int", 0x9, by decide⟩))) name :=
  (readsBack_iff _).2 rfl

/-- `map<text, map<text, int>>` is cut at the comma of the inner map. -/
theorem not_readsBack_nestedMap : ¬ ∃ name, ReadsBack
    (.map (.native ⟨"text", 0xa, by decide⟩)
      (.map (.native ⟨"text", 0xa, by decide⟩) (.native ⟨"int", 0x9, by decide⟩))) name := by
  rintro ⟨name, h⟩
  exact absurd h.readable (by decide)

end CqlDriver.DataTypes
