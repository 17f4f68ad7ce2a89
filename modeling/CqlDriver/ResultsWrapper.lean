import Mathlib
import CqlDriver.Encoder
import CqlDriver.Lib.Fallible

/-! # Values of result rows (`lib/types/results-wrapper.js`)

`getCqlObject` turns the values that the native layer hands over into JavaScript values.  A CQL map
becomes a plain object: every key is turned into a property name by its string conversion, and the
value is assigned to that name.  `oneEntryPerPair_iff` says for which maps every pair has its own
property afterwards. -/

namespace CqlDriver.ResultsWrapper

open Bytes

/-! ### Values -/

/-- A primitive value or a `Buffer`; a floating-point number is given by its bits. -/
inductive Scalar where
  | string (s : String)
  | number (n : ℤ)
  | double (bits : BitVec 64)
  | boolean (b : Bool)
  | bigint (n : ℤ)
  | buffer (bs : List UInt8)
deriving DecidableEq

/-- A value of the native layer (`CqlValueWrapper`). -/
inductive Field where
  | null
  | scalar (s : Scalar)
  | localDate (d : DateValue)
  | duration (d : Duration)
  | inetAddress (a : InetAddress)
  | localTime (t : LocalTime)
  | array (vs : List Field)
  | object (props : List (String × Field))

inductive NativeCode where
  | int | smallint | tinyint | text | varchar | blob | boolean | ascii | double | float | bigint | counter
  | decimal | timestamp | timeuuid | uuid | varint | date | duration | inet | time
deriving DecidableEq

/-- A column type as `convertComplexType` gives it. -/
inductive ColumnType where
  | native (code : NativeCode)
  | list (t : ColumnType)
  | set (t : ColumnType)
  | map (key value : ColumnType)
  | tuple (ts : List ColumnType)
  | udt (name : String) (fields : List (String × ColumnType))
  | vector (t : ColumnType) (dimension : ℕ)

/-- An instance of a class without elements. -/
inductive Instance where
  | localDate (d : DateValue)
  | duration (d : Duration)
  | inetAddress (a : InetAddress)
  | localTime (t : LocalTime)
  | long (n : BitVec 64)
  | bigDecimal (unscaledValue : Integer) (scale : ℤ)
  /-- A `Date` by its milliseconds; there are none for an invalid one. -/
  | date (ms : Option ℤ)
  | timeUuid (u : Uuid)
  | uuid (u : Uuid)
deriving DecidableEq

/-- The prototype of a plain object; an assignment to `__proto__` replaces it. -/
inductive Prototype (α : Type) where
  | objectPrototype
  | null
  | foreign (v : α)

/-- A converted value. -/
inductive Js where
  | null
  | undefined
  | scalar (s : Scalar)
  | inst (i : Instance)
  | array (vs : List Js)
  | tuple (vs : List Js)
  | vector (vs : List Js)
  | object (own : List (String × Js)) (proto : Prototype Js)

inductive Error where
  /-- A `TypeError` of the runtime. -/
  | type
  | range
  | unexpectedType
  | emptyTuple
  | emptyVector
  | uuidLength
deriving DecidableEq

def Error.message : Error → String
  | type => "TypeError"
  | range => "RangeError"
  | unexpectedType => "Unexpected type ([object Object])"
  | emptyTuple => "Tuple must contain at least one value"
  | emptyVector => "Vector must contain at least one value"
  | uuidLength => "You must provide a buffer containing 16 bytes"

/-- What the model takes from the runtime: the texts of numbers and of instances, and the behaviour of
an object whose prototype was replaced.  One assignment adds at most one property of its own to it. -/
structure Host where
  doubleText : BitVec 64 → String
  instanceText : Instance → String
  foreignText : List (String × Js) → Js → Except Error String
  foreignAssign : List (String × Js) → Js → String → Js → Except Error (List (String × Js) × Prototype Js)
  foreignAssign_length : ∀ {own proto name v own' proto'}, foreignAssign own proto name v = .ok (own', proto') →
    own'.length ≤ own.length + 1

/-! ### String conversion -/

section Text

variable (host : Host)

def scalarText : Scalar → String
  | .string s => s
  | .number n => toString n
  | .double bits => host.doubleText bits
  | .boolean b => toString b
  | .bigint n => toString n
  | .buffer bs => Utf8.decode bs

def instanceText : Instance → String
  | .inetAddress a => String.ofList a.toString
  | .long n => toString n.toInt
  | i => host.instanceText i

/-- The text of a plain object.  A property `toString` of its own is data, and hides the method. -/
def objectText (own : List (String × Js)) : Prototype Js → Except Error String
  | .objectPrototype => if "toString" ∈ own.map Prod.fst then .error .type else .ok "[object Object]"
  | .null => .error .type
  | .foreign proto => host.foreignText own proto

mutual

/-- `String(value)` -/
def text : Js → Except Error String
  | .null => .ok "null"
  | .undefined => .ok "undefined"
  | .scalar s => .ok (scalarText host s)
  | .inst i => .ok (instanceText host i)
  | .array vs => (elementTexts vs).map (",".intercalate ·)
  | .tuple vs => (memberTexts vs).map fun texts => "(" ++ ",".intercalate texts ++ ")"
  | .vector vs => (elementTexts vs).map fun texts => "[" ++ ",".intercalate texts ++ "]"
  | .object own proto => objectText host own proto

/-- The texts `Array.prototype.toString` joins. -/
def elementTexts : List Js → Except Error (List String)
  | [] => .ok []
  | v :: vs => do
      let s ← match v with
        | .null | .undefined => .ok ""
        | v => text v
      let texts ← elementTexts vs
      .ok (s :: texts)

/-- The texts `Tuple.toString` joins: it calls a method of every element. -/
def memberTexts : List Js → Except Error (List String)
  | [] => .ok []
  | v :: vs => do
      let s ← match v with
        | .null | .undefined => .error .type
        | v => text v
      let texts ← memberTexts vs
      .ok (s :: texts)

end

end Text

/-! ### `getCqlObject` -/

/-- `bigintToLong` of `lib/new-utils.js`. -/
def bigintToLong (n : ℤ) : BitVec 64 :=
  let lo := n.tmod (2 ^ 32)
  let hi := n.tdiv (2 ^ 32)
  let hi := if lo < 0 then hi + -1 else hi
  BitVec.ofInt 32 hi ++ BitVec.ofInt 32 lo

/-- `new Date(Number(value))`: beyond 8.64e15 milliseconds a `Date` is invalid. -/
def newDate (value : ℤ) : Instance :=
  .date (if -8640000000000000 ≤ value ∧ value ≤ 8640000000000000 then some value else none)

def newUuid (bs : List UInt8) : Except Error Uuid :=
  if h : bs.length = 16 then .ok ⟨bs, h⟩ else .error .uuidLength

/-- `BigDecimal.fromBuffer` -/
def bigDecimalFromBuffer (bs : List UInt8) : Except Error Instance :=
  match bytesAt 4 bs 0 with
  | some scale => .ok (.bigDecimal (Integer.fromBuffer (slice bs 4 bs.length)) (readInt scale))
  | none => .error .range

/-- The values of the native types.  The types with a class in the native layer have none that is
converted here. -/
def nativeValue : NativeCode → Scalar → Except Error Js
  | .int, v | .smallint, v | .tinyint, v | .text, v | .varchar, v | .blob, v | .boolean, v | .ascii, v
  | .double, v | .float, v | .counter, v | .varint, v => .ok (.scalar v)
  | .bigint, .bigint n => .ok (.inst (.long (bigintToLong n)))
  | .decimal, .buffer bs => (bigDecimalFromBuffer bs).map .inst
  | .timestamp, .bigint n => .ok (.inst (newDate n))
  | .timeuuid, .buffer bs => (newUuid bs).map fun u => .inst (.timeUuid u)
  | .uuid, .buffer bs => (newUuid bs).map fun u => .inst (.uuid u)
  | .date, _ | .duration, _ | .inet, _ | .time, _ => .error .unexpectedType
  | _, _ => .error .type

/-- The first switch of `getCqlObject`, in front of the one on the type. -/
def withWrappers (convert : Field → Except Error Js) : Field → Except Error Js
  | .null => .ok .null
  | .localDate d => .ok (.inst (.localDate d))
  | .duration d => .ok (.inst (.duration d))
  | .inetAddress a => .ok (.inst (.inetAddress a))
  | .localTime t => .ok (.inst (.localTime t))
  | field => convert field

/-- `value.map((v) => convert(v))` -/
def mapArray (convert : Field → Except Error Js) : List Field → Except Error (List Js)
  | [] => .ok []
  | v :: vs => do
      let x ← convert v
      let xs ← mapArray convert vs
      .ok (x :: xs)

/-- The prototype after `obj.__proto__ = v`: a primitive value is ignored. -/
def setPrototype : Js → Prototype Js
  | .null => .null
  | .undefined | .scalar (.string _) | .scalar (.number _) | .scalar (.double _) | .scalar (.boolean _)
  | .scalar (.bigint _) => .objectPrototype
  | v => .foreign v

section Convert

variable (host : Host)

/-- `res[name] = v` -/
def assign (own : List (String × Js)) (proto : Prototype Js) (name : String) (v : Js) :
    Except Error (List (String × Js) × Prototype Js) :=
  match proto with
  | .objectPrototype =>
      if name = "__proto__" ∧ name ∉ own.map Prod.fst then .ok (own, setPrototype v)
      else .ok (JsObject.define own name v, .objectPrototype)
  | .null => .ok (JsObject.define own name v, .null)
  | .foreign w => host.foreignAssign own w name v

/-- The loop over the pairs of a map. -/
def assignPairs (keyObject valueObject : Field → Except Error Js) :
    List Field → List (String × Js) → Prototype Js → Except Error Js
  | [], own, proto => .ok (.object own proto)
  | .array [k, v] :: pairs, own, proto => do
      let key ← keyObject k
      let value ← valueObject v
      let name ← text host key
      let (own, proto) ← assign host own proto name value
      assignPairs keyObject valueObject pairs own proto
  | _ :: _, _, _ => .error .type

mutual

/-- The switch on the type. -/
def convert : ColumnType → Field → Except Error Js
  | .native code, .scalar v => nativeValue code v
  | .list t, .array vs => (mapArray (withWrappers (convert t)) vs).map .array
  | .set t, .array vs => (mapArray (withWrappers (convert t)) vs).map .array
  | .map k t, .array pairs =>
      assignPairs host (withWrappers (convert k)) (withWrappers (convert t)) pairs [] .objectPrototype
  | .tuple ts, .array vs => do
      let elements ← tupleElements ts vs
      if elements.isEmpty then .error .emptyTuple else .ok (.tuple elements)
  | .udt _ fields, .object props =>
      (udtEntries fields (JsObject.entries props)).map fun own =>
        .object (own.foldl (fun obj p => JsObject.define obj p.1 p.2) []) .objectPrototype
  | .vector t _, .array vs => do
      let elements ← mapArray (withWrappers (convert t)) vs
      if elements.isEmpty then .error .emptyVector else .ok (.vector elements)
  | _, _ => .error .type

/-- The elements of a tuple; a `null` element is `undefined`. -/
def tupleElements : List ColumnType → List Field → Except Error (List Js)
  | _, [] => .ok []
  | [], .null :: vs => do
      let elements ← tupleElements [] vs
      .ok (.undefined :: elements)
  | [], _ :: _ => .error .type
  | t :: ts, v :: vs => do
      let x ← match v with
        | .null => .ok .undefined
        | v => withWrappers (convert t) v
      let elements ← tupleElements ts vs
      .ok (x :: elements)

/-- The properties of a user-defined type, each converted by the type at its own place. -/
def udtEntries : List (String × ColumnType) → List (String × Field) → Except Error (List (String × Js))
  | _, [] => .ok []
  | [], _ :: _ => .error .type
  | (_, t) :: fields, (key, elem) :: props => do
      let x ← withWrappers (convert t) elem
      let own ← udtEntries fields props
      .ok ((key, x) :: own)

end

def getCqlObject (field : Field) (typ : ColumnType) : Except Error Js := withWrappers (convert host typ) field

end Convert

/-! ### The properties of a map -/

section Map

variable (host : Host)

/-- The property name of a key. -/
def propertyName (typ : ColumnType) (key : Field) : Except Error String :=
  (getCqlObject host key typ).bind (text host)

/-- The native value of a map with the given pairs. -/
def mapField (pairs : List (Field × Field)) : Field := .array (pairs.map fun p => .array [p.1, p.2])

/-- The object for a map has exactly one own property for each pair, under the name of its key and with
the converted value of the pair. -/
def OneEntryPerPair (k t : ColumnType) (pairs : List (Field × Field)) : Prop :=
  ∃ own proto, getCqlObject host (mapField pairs) (.map k t) = .ok (.object own proto) ∧
    own.length = pairs.length ∧ (own.map Prod.fst).Nodup ∧
    ∀ p ∈ pairs, ∃ name v, propertyName host k p.1 = .ok name ∧ getCqlObject host p.2 t = .ok v ∧
      (name, v) ∈ own

/-- Every key has a name, which is not `__proto__`, every value is converted, and the names are pairwise
different. -/
def Distinguished (k t : ColumnType) (pairs : List (Field × Field)) : Prop :=
  (∀ p ∈ pairs, (∃ name, propertyName host k p.1 = .ok name ∧ name ≠ "__proto__") ∧
    ∃ v, getCqlObject host p.2 t = .ok v) ∧
  pairs.Pairwise fun p q => propertyName host k p.1 ≠ propertyName host k q.1

variable {host}

theorem length_assign_le {own own' : List (String × Js)} {proto proto' : Prototype Js} {name : String} {v : Js}
    (h : assign host own proto name v = .ok (own', proto')) : own'.length ≤ own.length + 1 := by
  cases proto with
  | objectPrototype =>
      rw [assign] at h
      split_ifs at h
      · cases h
        omega
      · cases h
        exact JsObject.length_define_le own name v
  | null =>
      cases h
      exact JsObject.length_define_le own name v
  | foreign w => exact host.foreignAssign_length h

variable {k t : ColumnType}

/-- The loop over the pairs of a map of the given types. -/
def assignMap (host : Host) (k t : ColumnType) (pairs : List (Field × Field)) (own : List (String × Js))
    (proto : Prototype Js) : Except Error Js :=
  assignPairs host (getCqlObject host · k) (getCqlObject host · t) (pairs.map fun p => .array [p.1, p.2]) own proto

theorem getCqlObject_mapField (pairs : List (Field × Field)) :
    getCqlObject host (mapField pairs) (.map k t) = assignMap host k t pairs [] .objectPrototype := by
  simp only [getCqlObject, mapField, withWrappers, convert]
  rfl

/-- A pass of the loop. -/
theorem assignMap_cons {p : Field × Field} {pairs : List (Field × Field)} {own : List (String × Js)}
    {proto : Prototype Js} {res : Js} (h : assignMap host k t (p :: pairs) own proto = .ok res) :
    ∃ name v own' proto', propertyName host k p.1 = .ok name ∧ getCqlObject host p.2 t = .ok v ∧
      assign host own proto name v = .ok (own', proto') ∧ assignMap host k t pairs own' proto' = .ok res := by
  obtain ⟨key, hkey, h⟩ := Fallible.bind_eq_ok h
  obtain ⟨v, hv, h⟩ := Fallible.bind_eq_ok h
  obtain ⟨name, hname, h⟩ := Fallible.bind_eq_ok h
  obtain ⟨⟨own', proto'⟩, hassign, h⟩ := Fallible.bind_eq_ok h
  refine ⟨name, v, own', proto', ?_, hv, hassign, h⟩
  change (getCqlObject host p.1 k).bind (text host) = .ok name
  change getCqlObject host p.1 k = .ok key at hkey
  rw [hkey]
  exact hname

theorem assignMap_step {p : Field × Field} (pairs : List (Field × Field)) {own own' : List (String × Js)}
    {proto proto' : Prototype Js} {name : String} {v : Js} (hname : propertyName host k p.1 = .ok name)
    (hv : getCqlObject host p.2 t = .ok v) (hassign : assign host own proto name v = .ok (own', proto')) :
    assignMap host k t (p :: pairs) own proto = assignMap host k t pairs own' proto' := by
  obtain ⟨key, hkey, htext⟩ := Fallible.bind_eq_ok hname
  simp only [assignMap, List.map_cons, assignPairs, hkey, hv]
  change (text host key).bind _ = _
  rw [htext]
  change (assign host own proto name v).bind _ = _
  rw [hassign]
  rfl

theorem length_assignMap_le (pairs : List (Field × Field)) {own own' : List (String × Js)}
    {proto proto' : Prototype Js} (h : assignMap host k t pairs own proto = .ok (.object own' proto')) :
    own'.length ≤ own.length + pairs.length := by
  induction pairs generalizing own proto with
  | nil =>
      cases h
      rfl
  | cons p pairs ih =>
      obtain ⟨name, v, own₁, proto₁, -, -, hassign, hrest⟩ := assignMap_cons h
      have h₁ := length_assign_le hassign
      have h₂ := ih hrest
      rw [List.length_cons]
      omega

/-- The loop adds a property at every pass exactly when the pairs are distinguished, also from the
names there already; the prototype is then never replaced. -/
theorem distinguished_of_length (pairs : List (Field × Field)) {own own' : List (String × Js)}
    {proto' : Prototype Js} (h : assignMap host k t pairs own .objectPrototype = .ok (.object own' proto'))
    (hlen : own'.length = own.length + pairs.length) :
    Distinguished host k t pairs ∧ ∀ p ∈ pairs, ∀ q ∈ own, propertyName host k p.1 ≠ .ok q.1 := by
  induction pairs generalizing own with
  | nil => exact ⟨⟨by simp, List.Pairwise.nil⟩, by simp⟩
  | cons p pairs ih =>
      obtain ⟨name, v, own₁, proto₁, hname, hv, hassign, hrest⟩ := assignMap_cons h
      have hgrow : own.length + 1 ≤ own₁.length := by
        have := length_assignMap_le pairs hrest
        rw [List.length_cons] at hlen
        omega
      have hfresh : name ∉ own.map Prod.fst := by
        intro hmem
        rw [assign, if_neg (fun hp => hp.2 hmem)] at hassign
        cases hassign
        rw [JsObject.length_define_of_mem v hmem] at hgrow
        omega
      have hproto : name ≠ "__proto__" := by
        intro hp
        rw [assign, if_pos ⟨hp, hfresh⟩] at hassign
        cases hassign
        omega
      rw [assign, if_neg (fun hp => hproto hp.1), JsObject.define_of_not_mem v hfresh] at hassign
      cases hassign
      obtain ⟨⟨hall, hpair⟩, hother⟩ := ih hrest (by simp at hlen ⊢; omega)
      have hnew : ∀ q ∈ pairs, propertyName host k p.1 ≠ propertyName host k q.1 := fun q hq heq =>
        hother q hq (name, v) (by simp) (heq.symm.trans hname)
      refine ⟨⟨?_, List.pairwise_cons.2 ⟨hnew, hpair⟩⟩, ?_⟩
      · intro q hq
        obtain rfl | hq := List.mem_cons.1 hq
        · exact ⟨⟨name, hname, hproto⟩, v, hv⟩
        · exact hall q hq
      · intro q hq r hr heq
        obtain rfl | hq := List.mem_cons.1 hq
        · rw [hname] at heq
          cases heq
          exact hfresh (List.mem_map_of_mem hr)
        · exact hother q hq r (List.mem_append_left _ hr) heq

theorem assignMap_of_distinguished (pairs : List (Field × Field)) (own : List (String × Js))
    (hd : Distinguished host k t pairs)
    (hother : ∀ p ∈ pairs, ∀ q ∈ own, propertyName host k p.1 ≠ .ok q.1)
    (hnodup : (own.map Prod.fst).Nodup) :
    ∃ added, assignMap host k t pairs own .objectPrototype = .ok (.object (own ++ added) .objectPrototype) ∧
      added.length = pairs.length ∧ ((own ++ added).map Prod.fst).Nodup ∧
      ∀ p ∈ pairs, ∃ name v, propertyName host k p.1 = .ok name ∧ getCqlObject host p.2 t = .ok v ∧
        (name, v) ∈ added := by
  induction pairs generalizing own with
  | nil => exact ⟨[], by simp [assignMap, assignPairs], rfl, by simpa using hnodup, by simp⟩
  | cons p pairs ih =>
      obtain ⟨hall, hpair⟩ := hd
      obtain ⟨⟨name, hname, hproto⟩, v, hv⟩ := hall p (List.mem_cons_self ..)
      obtain ⟨hnew, hpair⟩ := List.pairwise_cons.1 hpair
      have hfresh : name ∉ own.map Prod.fst := by
        intro hmem
        obtain ⟨q, hq, rfl⟩ := List.mem_map.1 hmem
        exact hother p (List.mem_cons_self ..) q hq hname
      have hassign : assign host own .objectPrototype name v = .ok (own ++ [(name, v)], .objectPrototype) := by
        rw [assign, if_neg (fun hp => hproto hp.1), JsObject.define_of_not_mem v hfresh]
      obtain ⟨added, hrun, hlen, hnames, hmem⟩ := ih (own ++ [(name, v)])
        ⟨fun q hq => hall q (List.mem_cons_of_mem _ hq), hpair⟩
        (by
          intro q hq r hr heq
          obtain hr | hr := List.mem_append.1 hr
          · exact hother q (List.mem_cons_of_mem _ hq) r hr heq
          · rw [List.mem_singleton.1 hr] at heq
            exact hnew q hq (hname.trans heq.symm))
        (by
          rw [List.map_append, List.nodup_append]
          refine ⟨hnodup, by simp, ?_⟩
          intro a ha b hb hab
          simp only [List.map_cons, List.map_nil, List.mem_singleton] at hb
          exact hfresh (by rwa [← hb, ← hab]))
      rw [List.append_assoc] at hrun hnames
      refine ⟨(name, v) :: added, ?_, by simp [hlen], hnames, ?_⟩
      · rw [assignMap_step pairs hname hv hassign]
        exact hrun
      · intro q hq
        obtain rfl | hq := List.mem_cons.1 hq
        · exact ⟨name, v, hname, hv, List.mem_cons_self ..⟩
        · obtain ⟨name', v', hname', hv', hm⟩ := hmem q hq
          exact ⟨name', v', hname', hv', List.mem_cons_of_mem _ hm⟩

theorem OneEntryPerPair.distinguished {pairs : List (Field × Field)} (h : OneEntryPerPair host k t pairs) :
    Distinguished host k t pairs := by
  obtain ⟨own, proto, hobj, hlen, -, -⟩ := h
  rw [getCqlObject_mapField] at hobj
  exact (distinguished_of_length pairs hobj (by simpa using hlen)).1

theorem Distinguished.oneEntryPerPair {pairs : List (Field × Field)} (h : Distinguished host k t pairs) :
    OneEntryPerPair host k t pairs := by
  obtain ⟨added, hrun, hlen, hnodup, hmem⟩ := assignMap_of_distinguished pairs [] h (by simp) List.nodup_nil
  rw [List.nil_append] at hrun hnodup
  exact ⟨added, .objectPrototype, (getCqlObject_mapField pairs).trans hrun, hlen, hnodup, hmem⟩

end Map

/-- A runtime whose texts are all empty. -/
def emptyHost : Host where
  doubleText _ := ""
  instanceText _ := ""
  foreignText _ _ := .ok ""
  foreignAssign own _ _ _ := .ok (own, .null)
  foreignAssign_length h := by
    cases h
    omega

def textPair (a b : String) : Field := .array [.scalar (.string a), .scalar (.string b)]

section ScalarKeys

/-- The keys of the types whose values are told apart by their digits, or are names themselves. -/
def PlainKey : NativeCode → Scalar → Prop
  | .int, .number _ | .smallint, .number _ | .tinyint, .number _ => True
  | .text, .string _ | .varchar, .string _ | .ascii, .string _ => True
  | .boolean, .boolean _ => True
  | .counter, .bigint _ | .varint, .bigint _ => True
  | .bigint, .bigint n => MachineInt.Fits 64 n
  | _, _ => False

theorem bigintToLong_eq (n : ℤ) : bigintToLong n = BitVec.ofInt 64 n := by
  have hdiv := Int.mul_tdiv_add_tmod n (2 ^ 32)
  have hlt := Int.tmod_lt_of_pos n (show (0 : ℤ) < 2 ^ 32 by norm_num)
  have hgt := Int.lt_tmod_of_pos n (show (0 : ℤ) < 2 ^ 32 by norm_num)
  have hhi : (if n.tmod (2 ^ 32) < 0 then n.tdiv (2 ^ 32) + -1 else n.tdiv (2 ^ 32)) = n / 2 ^ 32 := by
    split_ifs
    · omega
    · omega
  have hlo : n.tmod (2 ^ 32) % 2 ^ 32 = n % 2 ^ 32 := by omega
  apply BitVec.eq_of_toNat_eq
  simp only [bigintToLong, hhi]
  rw [BitVec.toNat_append, BitVec.toNat_ofInt, BitVec.toNat_ofInt, BitVec.toNat_ofInt]
  norm_num at hlo ⊢
  rw [hlo, ← Nat.shiftLeft_add_eq_or_of_lt (by omega), Nat.shiftLeft_eq]
  omega

theorem propertyName_scalar (host : Host) {code : NativeCode} {s : Scalar} (h : PlainKey code s) :
    propertyName host (.native code) (.scalar s) = .ok (scalarText host s) := by
  have hlong {n : ℤ} (hn : MachineInt.Fits 64 n) : (bigintToLong n).toInt = n := by
    rw [bigintToLong_eq, BitVec.toInt_ofInt]
    exact MachineInt.wrap_eq_self (by norm_num) hn
  cases code <;> cases s <;> first | exact h.elim | skip
  all_goals
    simp only [propertyName, getCqlObject, withWrappers, convert, nativeValue, Except.bind, text]
  rw [instanceText, hlong h, scalarText]

theorem scalarText_injective {host : Host} {code : NativeCode} {s s' : Scalar} (h : PlainKey code s)
    (h' : PlainKey code s') (heq : scalarText host s = scalarText host s') : s = s' := by
  cases s with
  | number n =>
      cases s' with
      | number m => rw [Int.repr_injective heq]
      | _ => cases code <;> first | exact h.elim | exact h'.elim
  | bigint n =>
      cases s' with
      | bigint m => rw [Int.repr_injective heq]
      | _ => cases code <;> first | exact h.elim | exact h'.elim
  | boolean b =>
      cases s' with
      | boolean c =>
          have htext : toString b = toString c := heq
          revert htext
          cases b <;> cases c <;> decide
      | _ => cases code <;> first | exact h.elim | exact h'.elim
  | string a =>
      cases s' with
      | string b => rw [show a = b from heq]
      | _ => cases code <;> first | exact h.elim | exact h'.elim
  | _ => cases code <;> exact h.elim

theorem toString_ne_proto (n : ℤ) : toString n ≠ "__proto__" := by
  intro h
  -- The digits of the absolute value are no letters.
  have hdigit : ∀ m : ℕ, 'p' ∉ m.repr.toList := by
    intro m hm
    rw [Nat.toList_repr] at hm
    exact absurd (JsString.isDigit_of_mem hm) (by decide)
  have hmem : 'p' ∈ n.repr.toList := by
    rw [show n.repr = "__proto__" from h]
    decide
  rw [Int.repr_eq_if] at hmem
  split_ifs at hmem
  · exact hdigit _ hmem
  · rw [String.toList_append, List.mem_append] at hmem
    obtain hmem | hmem := hmem
    · exact absurd hmem (by decide)
    · exact hdigit _ hmem

theorem eq_proto_of_scalarText {host : Host} {code : NativeCode} {s : Scalar} (h : PlainKey code s)
    (htext : scalarText host s = "__proto__") : s = .string "__proto__" := by
  cases s with
  | string a => rw [show a = "__proto__" from htext]
  | number n => exact absurd htext (toString_ne_proto n)
  | bigint n => exact absurd htext (toString_ne_proto n)
  | boolean b =>
      have hne : toString b ≠ "__proto__" := by cases b <;> decide
      exact absurd htext hne
  | _ => cases code <;> exact h.elim

/-- With keys of such a type, only the text `__proto__` is lost. -/
theorem oneEntryPerPair_of_plainKeys (host : Host) {code : NativeCode} {t : ColumnType}
    {pairs : List (Field × Field)} (hkeys : ∀ p ∈ pairs, ∃ s, p.1 = .scalar s ∧ PlainKey code s)
    (hdistinct : pairs.Pairwise fun p q => p.1 ≠ q.1)
    (hvalues : ∀ p ∈ pairs, ∃ v, getCqlObject host p.2 t = .ok v)
    (hproto : ∀ p ∈ pairs, p.1 ≠ .scalar (.string "__proto__")) :
    OneEntryPerPair host (.native code) t pairs := by
  refine Distinguished.oneEntryPerPair ⟨fun p hp => ⟨?_, hvalues p hp⟩, ?_⟩
  · obtain ⟨s, hs, hplain⟩ := hkeys p hp
    refine ⟨scalarText host s, by rw [hs, propertyName_scalar host hplain], fun htext => hproto p hp ?_⟩
    rw [hs, eq_proto_of_scalarText hplain htext]
  · apply hdistinct.imp_of_mem
    intro p q hp hq hne heq
    apply hne
    obtain ⟨s, hs, hplain⟩ := hkeys p hp
    obtain ⟨s', hs', hplain'⟩ := hkeys q hq
    rw [hs, hs', propertyName_scalar host hplain, propertyName_scalar host hplain'] at heq
    rw [hs, hs', scalarText_injective hplain hplain' (Except.ok.inj heq)]

end ScalarKeys

end CqlDriver.ResultsWrapper
