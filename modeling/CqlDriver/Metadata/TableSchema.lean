import Mathlib
import CqlDriver.CqlTypeName
import CqlDriver.Lib.JsObject
import CqlDriver.Lib.TransitionSystem

/-! # The columns of a table (`lib/metadata/schema-parser.js`)

`_parseTableOrView` of the second version of the schema parser makes a table from the rows that describe its columns.
The type of each column is awaited, and the code behind that `await` adds the column to those found so far, so the
columns come in the order in which the types are known.  Then the keys are sorted by their positions, and the columns
that only Thrift needs are removed.  For every table, with its rows and its types in any order, what is made is the
table (`parseTableOrView_rows`). -/

namespace CqlDriver.Metadata.TableSchema

open TransitionSystem CqlTypeName

variable {α : Type}

/-- A row of `system_schema.columns`. -/
structure ColumnRow where
  columnName : String
  type : List Char
  kind : String
  position : Option ℤ
  clusteringOrder : Option String

/-- A column is an object that several lists share. -/
structure Column (α : Type) where
  name : String
  type : ColumnInfo α
  isStatic : Bool

/-! ### Rows -/

/-- The state of the calls that `Promise.all` awaits.  The object that a call makes is named by the place of its
row. -/
structure Parsing (α : Type) where
  objects : ℕ → Option (Column α)
  columnsKeyed : List (String × ℕ)
  partitionKeys : List (ℕ × ℤ)
  /-- with the order -/
  clusteringKeys : List ((ℕ × String) × ℤ)
  settled : List ℕ
  /-- The first error. -/
  rejected : Option TypeNameError

def Parsing.start : Parsing α := ⟨fun _ => none, [], [], [], [], none⟩

def isPartitionKey (row : ColumnRow) : Bool := row.kind == "partition_key"

def isClusteringKey (row : ColumnRow) : Bool := row.kind == "clustering"

def order (row : ColumnRow) : String := if row.clusteringOrder = some "desc" then "DESC" else "ASC"

/-- What follows the `await`. -/
def addColumn (s : Parsing α) (i : ℕ) (row : ColumnRow) (type : ColumnInfo α) : Parsing α :=
  { s with
    objects := Function.update s.objects i (some ⟨row.columnName, type, row.kind == "static"⟩)
    columnsKeyed := JsObject.set s.columnsKeyed row.columnName i
    partitionKeys :=
      if isPartitionKey row then s.partitionKeys ++ [(i, row.position.getD 0)] else s.partitionKeys
    clusteringKeys :=
      if isClusteringKey row then s.clusteringKeys ++ [((i, order row), row.position.getD 0)] else s.clusteringKeys }

/-- The type of a row is known, or could not be found out, with what the resolver has answered. -/
def step (keyspace : List Char) (rows : List ColumnRow) (s : Parsing α) : ℕ × Resolver α → Option (Parsing α)
  | (i, udtResolver) =>
      match rows[i]? with
      | none => none
      | some row =>
          if i ∈ s.settled then none
          else
            let s := { s with settled := s.settled ++ [i] }
            match (parseTypeName (row.type.length + 1) keyspace row.type 0 0 (some udtResolver)).result with
            | .ok type => some (addColumn s i row type)
            | .error err => some { s with rejected := s.rejected <|> some err }

/-! ### Tables -/

/-- Of the fields of a `DataCollection`, those that are made of the columns. -/
structure Table (α : Type) where
  objects : ℕ → Option (Column α)
  columns : List ℕ
  columnsByName : List (String × ℕ)
  partitionKeys : List ℕ
  clusteringKeys : List ℕ
  clusteringOrder : List String
  isCompact : Bool
  virtual : Bool

/-- `utils.propCompare("index")` -/
def sortByIndex {β : Type} (items : List (β × ℤ)) : List (β × ℤ) := items.mergeSort fun a b => a.2 ≤ b.2

/-- `delete tableInfo.columnsByName[c.name]` -/
def Table.deleteName (t : Table α) (name : String) : Table α :=
  { t with columnsByName := t.columnsByName.filter fun p => p.1 ≠ name }

def Table.setStatic (t : Table α) (c : ℕ) (isStatic : Bool) : Table α :=
  { t with objects := Function.update t.objects c ((t.objects c).map fun column => { column with isStatic }) }

/-- `columns.splice(columns.indexOf(c), 1)`, where the index may be `-1`. -/
def spliceColumn (columns : List ℕ) (c : ℕ) : List ℕ :=
  match columns.idxOf? c with
  | some index => columns.eraseIdx index
  | none => columns.dropLast

/-- The loop `while (i--)` over the columns: some are removed, the others are no longer static. -/
def pruneColumns (surplus : ℕ → Column α → Bool) : List ℕ → Table α → List ℕ × Table α
  | [], t => ([], t)
  | c :: columns, t =>
      let (kept, t) := pruneColumns surplus columns t
      match t.objects c with
      | none => (c :: kept, t)
      | some column =>
          if surplus c column then (kept, t.deleteName column.name) else (c :: kept, t.setStatic c false)

def removeColumn (t : Table α) (c : ℕ) : Table α :=
  let t := { t with columns := spliceColumn t.columns c }
  match t.objects c with
  | none => t
  | some column => t.deleteName column.name

def pruneStaticCompactTableColumns (t : Table α) : Table α :=
  -- remove "column1 text" clustering column
  let t := t.clusteringKeys.foldl removeColumn t
  let t := { t with clusteringKeys := [], clusteringOrder := [] }
  -- remove "value blob" regular column
  let (columns, t) := pruneColumns (fun c column => !column.isStatic && !t.partitionKeys.contains c) t.columns t
  { t with columns }

/-- `c.type.code === types.dataTypes.custom && c.type.info === "empty"` -/
def isEmptyType : ColumnInfo α → Bool
  | .custom info => info == "empty".toList
  | _ => false

def pruneDenseTableColumns (t : Table α) : Table α :=
  -- remove "value blob" regular column
  let (columns, t) := pruneColumns (fun _ column => !column.isStatic && isEmptyType column.type) t.columns t
  { t with columns }

/-- What the row of the table says. -/
inductive TableRow where
  | virtual
  /-- a materialized view -/
  | view
  | table (flags : List String)

/-- The columns and keys, behind `Promise.all`. -/
def newTable (n : ℕ) (s : Parsing α) : Table α where
  objects := s.objects
  columns := List.range n
  columnsByName := s.columnsKeyed
  partitionKeys := (sortByIndex s.partitionKeys).map fun item => item.1
  clusteringKeys := (sortByIndex s.clusteringKeys).map fun item => item.1.1
  clusteringOrder := (sortByIndex s.clusteringKeys).map fun item => item.1.2
  isCompact := false
  virtual := false

def makeTable (n : ℕ) (s : Parsing α) (tableRow : TableRow) : Table α :=
  let t := newTable n s
  match tableRow with
  | .virtual => { t with virtual := true }
  | .view => t
  | .table flags =>
      let isDense := flags.contains "dense"
      let isSuper := flags.contains "super"
      let isCompound := flags.contains "compound"
      let t := { t with isCompact := isSuper || isDense || !isCompound }
      if !isSuper && !isDense && !isCompound then pruneStaticCompactTableColumns t
      else if isDense then pruneDenseTableColumns t
      else t

/-- The outcome of the call, if there is one. -/
def parseTableOrView (rows : List ColumnRow) (tableRow : TableRow) (s : Parsing α) :
    Option (Except TypeNameError (Table α)) :=
  match s.rejected with
  | some err => some (.error err)
  | none =>
      if s.settled.length = rows.length then some (.ok (makeTable rows.length s tableRow)) else none

/-! ### Sorting by positions -/

theorem mem_sortByIndex {β : Type} {items : List (β × ℤ)} {item : β × ℤ} :
    item ∈ sortByIndex items ↔ item ∈ items := List.mem_mergeSort

/-- Items whose indexes are the places of a list are sorted into that list. -/
theorem sortByIndex_map {β γ : Type} (f : β → γ) {items : List (β × ℤ)} {target : List γ}
    (h : (items.map fun item => (f item.1, item.2)).Perm (target.zipIdx.map fun p => (p.1, (p.2 : ℤ)))) :
    (sortByIndex items).map (fun item => f item.1) = target := by
  have hplaces : ∀ (l : List γ) (n : ℕ), (l.zipIdx n).Pairwise fun a b => a.2 < b.2 := by
    intro l
    induction l with
    | nil => exact fun _ => List.Pairwise.nil
    | cons x l ih =>
        intro n
        rw [List.zipIdx_cons]
        refine List.Pairwise.cons (fun b hb => ?_) (ih (n + 1))
        exact Nat.lt_of_succ_le (List.le_snd_of_mem_zipIdx hb)
  have hsorted : ((sortByIndex items).map fun item => (f item.1, item.2)).Pairwise fun a b => a.2 ≤ b.2 := by
    refine List.pairwise_map.2 ?_
    have hmerge : (sortByIndex items).Pairwise fun a b => decide (a.2 ≤ b.2) = true :=
      List.pairwise_mergeSort (fun a b c hab hbc => by simp only [decide_eq_true_eq] at *; omega)
        (fun a b => by simp only [Bool.or_eq_true, decide_eq_true_eq]; omega) items
    exact hmerge.imp fun hab => of_decide_eq_true hab
  have hstrict : (target.zipIdx.map fun p => (p.1, (p.2 : ℤ))).Pairwise fun a b => a.2 < b.2 :=
    List.pairwise_map.2 ((hplaces target 0).imp fun hab => Int.ofNat_lt.2 hab)
  have hperm :=
    ((List.mergeSort_perm items fun a b => decide (a.2 ≤ b.2)).map fun item => (f item.1, item.2)).trans h
  have heq : (sortByIndex items).map (fun item => (f item.1, item.2)) =
      target.zipIdx.map fun p => (p.1, (p.2 : ℤ)) := by
    refine List.Perm.eq_of_pairwise (fun a b ha hb hab hba => ?_) hsorted (hstrict.imp le_of_lt) hperm
    have hnodup : ((target.zipIdx.map fun p => (p.1, (p.2 : ℤ))).map Prod.snd).Nodup :=
      List.pairwise_map.2 (hstrict.imp ne_of_lt)
    exact List.inj_on_of_nodup_map hnodup (hperm.subset ha) hb (le_antisymm hab hba)
  have hfst := congrArg (List.map Prod.fst) heq
  simpa [List.map_map, Function.comp_def, List.zipIdx_map_fst] using hfst

/-! ### Places -/

/-- A list by its places. -/
theorem filterMap_range_getElem? {β γ : Type} (l : List β) (f : β → Option γ) :
    (List.range l.length).filterMap (fun i => l[i]?.bind f) = l.filterMap f := by
  induction l using List.reverseRecOn with
  | nil => rfl
  | append_singleton l x ih =>
      have hleft : (List.range l.length).filterMap (fun i => (l ++ [x])[i]?.bind f) =
          (List.range l.length).filterMap fun i => l[i]?.bind f :=
        List.filterMap_congr fun i hi => by rw [List.getElem?_append_left (List.mem_range.1 hi)]
      rw [List.length_append, List.length_singleton, List.range_succ, List.filterMap_append, List.filterMap_append,
        hleft, ih, List.filterMap_cons, List.getElem?_concat_length]
      rfl

/-- Different values have different places. -/
theorem eq_of_getElem?_of_map {β γ : Type} (f : β → γ) {l : List β} (hnodup : (l.map f).Nodup) {i j : ℕ} {x y : β}
    (hx : l[i]? = some x) (hy : l[j]? = some y) (h : f x = f y) : i = j := by
  refine (List.getElem?_inj ?_ hnodup).1 ?_
  · rw [List.length_map]
    exact (List.getElem?_eq_some_iff.1 hx).1
  · rw [List.getElem?_map, List.getElem?_map, hx, hy, Option.map_some, Option.map_some, h]

/-! ### The rows so far -/

section Rows

variable {keyspace : List Char} {rows : List ColumnRow} {type : ℕ → ColumnInfo α}

def columnOf (type : ℕ → ColumnInfo α) (i : ℕ) (row : ColumnRow) : Column α :=
  ⟨row.columnName, type i, row.kind == "static"⟩

def partitionItem (i : ℕ) (row : ColumnRow) : Option (ℕ × ℤ) :=
  if isPartitionKey row then some (i, row.position.getD 0) else none

def clusteringItem (i : ℕ) (row : ColumnRow) : Option ((ℕ × String) × ℤ) :=
  if isClusteringKey row then some ((i, order row), row.position.getD 0) else none

/-- What the settled rows have made, in any order. -/
structure Parsed (rows : List ColumnRow) (type : ℕ → ColumnInfo α) (s : Parsing α) : Prop where
  rejected : s.rejected = none
  nodup : s.settled.Nodup
  inRows : ∀ i ∈ s.settled, i < rows.length
  objects : ∀ i ∈ s.settled, ∀ row, rows[i]? = some row → s.objects i = some (columnOf type i row)
  own : ∀ i ∈ s.settled, ∀ row, rows[i]? = some row → row.columnName ≠ "__proto__" →
    JsObject.get s.columnsKeyed row.columnName = .own i
  settled : ∀ name i, JsObject.get s.columnsKeyed name = .own i →
    i ∈ s.settled ∧ rows[i]?.map ColumnRow.columnName = some name
  proto : "__proto__" ∉ s.columnsKeyed.map Prod.fst
  partitionKeys : s.partitionKeys = s.settled.filterMap fun i => rows[i]?.bind (partitionItem i)
  clusteringKeys : s.clusteringKeys = s.settled.filterMap fun i => rows[i]?.bind (clusteringItem i)

/-- The resolver knows the type of the row. -/
def Knows (keyspace : List Char) (rows : List ColumnRow) (type : ℕ → ColumnInfo α) (a : ℕ × Resolver α) : Prop :=
  ∀ row, rows[a.1]? = some row →
    (parseTypeName (row.type.length + 1) keyspace row.type 0 0 (some a.2)).result = .ok (type a.1)

theorem parsed_start : Parsed rows type Parsing.start where
  rejected := rfl
  nodup := List.nodup_nil
  inRows _ h := absurd h List.not_mem_nil
  objects _ h := absurd h List.not_mem_nil
  own _ h := absurd h List.not_mem_nil
  settled name i h := by
    rw [Parsing.start, JsObject.get] at h
    simp only [List.lookup_nil] at h
    split_ifs at h
  proto := List.not_mem_nil
  partitionKeys := rfl
  clusteringKeys := rfl

theorem step_eq {s s' : Parsing α} {a : ℕ × Resolver α} (hknows : Knows keyspace rows type a)
    (h : step keyspace rows s a = some s') :
    ∃ row, rows[a.1]? = some row ∧ a.1 ∉ s.settled ∧
      s' = addColumn { s with settled := s.settled ++ [a.1] } a.1 row (type a.1) := by
  obtain ⟨i, udtResolver⟩ := a
  simp only [step] at h
  cases hrow : rows[i]? with
  | none => rw [hrow] at h; cases h
  | some row =>
      rw [hrow] at h
      simp only at h
      split_ifs at h with hsettled
      have hresult := hknows row hrow
      simp only at hresult
      rw [hresult] at h
      exact ⟨row, rfl, hsettled, (Option.some.inj h).symm⟩

/-- Different rows have different names. -/
theorem columnName_ne (hnames : (rows.map ColumnRow.columnName).Nodup) {s : Parsing α} {i j : ℕ}
    {row row' : ColumnRow} (hrow : rows[i]? = some row) (hnew : i ∉ s.settled) (hj : j ∈ s.settled)
    (hrow' : rows[j]? = some row') : row'.columnName ≠ row.columnName := by
  intro heq
  have hji : j = i := eq_of_getElem?_of_map ColumnRow.columnName hnames hrow' hrow heq
  exact hnew (hji ▸ hj)

section Added

variable {s : Parsing α} {i : ℕ} {row : ColumnRow} (hp : Parsed rows type s) (hrow : rows[i]? = some row)

include hp hrow

theorem Parsed.objects_update :
    ∀ j ∈ s.settled ++ [i], ∀ row', rows[j]? = some row' →
      Function.update s.objects i (some ⟨row.columnName, type i, row.kind == "static"⟩) j =
        some (columnOf type j row') := by
  intro j hj row' hrow'
  by_cases hji : j = i
  · subst hji
    rw [hrow, Option.some.injEq] at hrow'
    rw [Function.update_self, ← hrow', columnOf]
  · rw [Function.update_of_ne hji]
    obtain hj | hj := List.mem_append.1 hj
    · exact hp.objects j hj row' hrow'
    · exact absurd (List.mem_singleton.1 hj) hji

theorem Parsed.own_set (hnames : (rows.map ColumnRow.columnName).Nodup) (hnew : i ∉ s.settled) :
    ∀ j ∈ s.settled ++ [i], ∀ row', rows[j]? = some row' → row'.columnName ≠ "__proto__" →
      JsObject.get (JsObject.set s.columnsKeyed row.columnName i) row'.columnName = .own j := by
  intro j hj row' hrow' hproto
  obtain hj | hj := List.mem_append.1 hj
  · rw [JsObject.get_set_of_ne _ _ (columnName_ne hnames hrow hnew hj hrow')]
    exact hp.own j hj row' hrow' hproto
  · obtain rfl := List.mem_singleton.1 hj
    rw [hrow, Option.some.injEq] at hrow'
    subst hrow'
    exact JsObject.get_set_self _ _ hproto

theorem Parsed.settled_of_get_set :
    ∀ name j, JsObject.get (JsObject.set s.columnsKeyed row.columnName i) name = .own j →
      j ∈ s.settled ++ [i] ∧ rows[j]?.map ColumnRow.columnName = some name := by
  intro name j hget
  by_cases hname : name = row.columnName
  · subst hname
    have hne : row.columnName ≠ "__proto__" := fun heq =>
      JsObject.proto_not_mem_set hp.proto _ _ (heq ▸ List.mem_map_of_mem (JsObject.mem_of_get hget))
    rw [JsObject.get_set_self _ _ hne, JsObject.Read.own.injEq] at hget
    subst hget
    exact ⟨by simp, by rw [hrow]; rfl⟩
  · rw [JsObject.get_set_of_ne _ _ hname] at hget
    obtain ⟨hj, hjname⟩ := hp.settled name j hget
    exact ⟨List.mem_append_left _ hj, hjname⟩

end Added

theorem Parsed.step (hnames : (rows.map ColumnRow.columnName).Nodup) {s s' : Parsing α} {a : ℕ × Resolver α}
    (hp : Parsed rows type s) (hknows : Knows keyspace rows type a) (h : step keyspace rows s a = some s') :
    Parsed rows type s' := by
  obtain ⟨row, hrow, hnew, rfl⟩ := step_eq hknows h
  obtain ⟨i, udtResolver⟩ := a
  simp only at hrow hnew
  refine ⟨hp.rejected, ?_, ?_, hp.objects_update hrow, hp.own_set hrow hnames hnew, hp.settled_of_get_set hrow,
    JsObject.proto_not_mem_set hp.proto _ _, ?_, ?_⟩
  · exact List.nodup_append.2 ⟨hp.nodup, List.nodup_singleton _, by
      rintro j hj k hk rfl
      obtain rfl := List.mem_singleton.1 hk
      exact hnew hj⟩
  · intro j hj
    obtain hj | hj := List.mem_append.1 hj
    · exact hp.inRows j hj
    · exact List.mem_singleton.1 hj ▸ (List.getElem?_eq_some_iff.1 hrow).1
  · simp only [addColumn]
    rw [List.filterMap_append, ← hp.partitionKeys, List.filterMap_cons, List.filterMap_nil, hrow, Option.bind_some,
      partitionItem]
    split_ifs <;> simp
  · simp only [addColumn]
    rw [List.filterMap_append, ← hp.clusteringKeys, List.filterMap_cons, List.filterMap_nil, hrow, Option.bind_some,
      clusteringItem]
    split_ifs <;> simp

theorem Parsed.run (hnames : (rows.map ColumnRow.columnName).Nodup) {s : Parsing α} {as : List (ℕ × Resolver α)}
    (hrun : Run (TableSchema.step keyspace rows) Parsing.start as s) (hknows : ∀ a ∈ as, Knows keyspace rows type a) :
    Parsed rows type s :=
  hrun.invariant_of hknows parsed_start fun _ _ _ hk hp hs => hp.step hnames hk hs

theorem step_of_knows {s : Parsing α} {a : ℕ × Resolver α} (hknows : Knows keyspace rows type a)
    (hlt : a.1 < rows.length) (hnew : a.1 ∉ s.settled) :
    ∃ s', step keyspace rows s a = some s' ∧ s'.settled = s.settled ++ [a.1] := by
  obtain ⟨i, udtResolver⟩ := a
  have hrow : rows[i]? = some rows[i] := List.getElem?_eq_getElem hlt
  have hresult := hknows _ hrow
  simp only at hresult hnew
  exact ⟨_, by simp only [step, hrow, if_neg hnew, hresult]; rfl, rfl⟩

/-- The types may become known in every order. -/
theorem exec_of_knows {as : List (ℕ × Resolver α)} {s : Parsing α} (hknows : ∀ a ∈ as, Knows keyspace rows type a)
    (hlt : ∀ a ∈ as, a.1 < rows.length) (hnodup : (s.settled ++ as.map Prod.fst).Nodup) :
    ∃ s', exec (step keyspace rows) s as = some s' ∧ s'.settled = s.settled ++ as.map Prod.fst := by
  induction as generalizing s with
  | nil => exact ⟨s, rfl, (List.append_nil _).symm⟩
  | cons a as ih =>
      have hnew : a.1 ∉ s.settled := fun hmem =>
        (List.nodup_append.1 hnodup).2.2 a.1 hmem a.1 (List.mem_cons_self ..) rfl
      obtain ⟨s₁, hstep, hsettled⟩ :=
        step_of_knows (hknows a (List.mem_cons_self ..)) (hlt a (List.mem_cons_self ..)) hnew
      have hsnoc : s.settled ++ (a :: as).map Prod.fst = s₁.settled ++ as.map Prod.fst := by
        rw [hsettled, List.map_cons, List.append_assoc, List.singleton_append]
      rw [hsnoc] at hnodup ⊢
      obtain ⟨s', hexec, hsettled'⟩ := ih (fun b hb => hknows b (List.mem_cons_of_mem a hb))
        (fun b hb => hlt b (List.mem_cons_of_mem a hb)) hnodup
      exact ⟨s', by rw [exec, hstep]; exact hexec, hsettled'⟩

end Rows

/-! ### Removed columns -/

theorem get_filter {β : Type} (obj : List (String × β)) (removed : List String) (name : String) (v : β) :
    JsObject.get (obj.filter fun p => p.1 ∉ removed) name = .own v ↔
      JsObject.get obj name = .own v ∧ name ∉ removed := by
  have hlookup : (obj.filter fun p => p.1 ∉ removed).lookup name =
      if name ∈ removed then none else obj.lookup name := by
    induction obj with
    | nil => simp
    | cons p obj ih =>
        obtain ⟨n, w⟩ := p
        rw [List.filter_cons, List.lookup_cons]
        by_cases hn : n ∈ removed
        · rw [if_neg (by simpa using hn), ih]
          by_cases hname : name ∈ removed
          · rw [if_pos hname, if_pos hname]
          · have hne : name ≠ n := fun heq => hname (heq ▸ hn)
            rw [if_neg hname, if_neg hname, beq_false_of_ne hne]
        · rw [if_pos (by simpa using hn), List.lookup_cons, ih]
          cases hbeq : name == n with
          | true =>
              have hname : name ∉ removed := (beq_iff_eq.1 hbeq) ▸ hn
              exact (if_neg hname).symm
          | false => rfl
  rw [JsObject.get, JsObject.get, hlookup]
  by_cases hname : name ∈ removed
  · rw [if_pos hname]
    simp only [hname, not_true_eq_false, and_false, iff_false]
    split_ifs <;> simp
  · rw [if_neg hname]
    simp [hname]

/-- The names of the columns of a list that the test holds for. -/
def namesOf (objects : ℕ → Option (Column α)) (columns : List ℕ) (test : ℕ → Column α → Bool) : List String :=
  columns.filterMap fun c => (objects c).bind fun column => if test c column then some column.name else none

theorem namesOf_cons {objects : ℕ → Option (Column α)} {c : ℕ} {column : Column α} (hc : objects c = some column)
    (columns : List ℕ) (test : ℕ → Column α → Bool) : namesOf objects (c :: columns) test =
      if test c column then column.name :: namesOf objects columns test else namesOf objects columns test := by
  rw [namesOf, List.filterMap_cons, hc, Option.bind_some]
  cases test c column <;> rfl

theorem filter_not_mem_cons {β : Type} (obj : List (String × β)) (name : String) (names : List String) :
    (obj.filter fun p => p.1 ∉ names).filter (fun p => p.1 ≠ name) = obj.filter fun p => p.1 ∉ name :: names := by
  rw [List.filter_filter]
  refine List.filter_congr fun p _ => ?_
  by_cases hp : p.1 = name <;> simp [hp]

/-- The test holds for the column. -/
def holdsAt (objects : ℕ → Option (Column α)) (test : ℕ → Column α → Bool) (c : ℕ) : Bool := (objects c).any (test c)

/-- One pass of the loop treats every column alone. -/
theorem pruneColumns_eq (surplus : ℕ → Column α → Bool) {columns : List ℕ} (hnodup : columns.Nodup) (t : Table α) :
    pruneColumns surplus columns t = (columns.filter fun c => !holdsAt t.objects surplus c,
      { t with
        objects := fun c => if c ∈ columns.filter fun c => !holdsAt t.objects surplus c
          then (t.objects c).map fun column => { column with isStatic := false } else t.objects c
        columnsByName := t.columnsByName.filter fun p => p.1 ∉ namesOf t.objects columns surplus }) := by
  induction columns with
  | nil => simp [pruneColumns, namesOf]
  | cons c columns ih =>
      obtain ⟨hc, hnodup⟩ := List.nodup_cons.1 hnodup
      have hkept : c ∉ columns.filter fun c => !holdsAt t.objects surplus c :=
        fun hmem => hc (List.mem_of_mem_filter hmem)
      rw [pruneColumns, ih hnodup]
      dsimp only
      rw [if_neg hkept]
      cases hobject : t.objects c with
      | none =>
          have hholds : holdsAt t.objects surplus c = false := by rw [holdsAt, hobject]; rfl
          have hnames : namesOf t.objects (c :: columns) surplus = namesOf t.objects columns surplus := by
            simp [namesOf, hobject]
          simp only [List.filter_cons, hholds, Bool.not_false, if_true, hnames, Prod.mk.injEq, true_and]
          congr 1
          funext d
          by_cases hd : d = c
          · subst hd
            simp [hobject]
          · simp [hd]
      | some column =>
          cases hsurplus : surplus c column with
          | true =>
              have hholds : holdsAt t.objects surplus c = true := by rw [holdsAt, hobject]; exact hsurplus
              simp only [List.filter_cons, hholds, Bool.not_true, Bool.false_eq_true, if_false, if_true,
                namesOf_cons hobject, Table.deleteName, filter_not_mem_cons, hsurplus]
          | false =>
              have hholds : holdsAt t.objects surplus c = false := by rw [holdsAt, hobject]; exact hsurplus
              simp only [List.filter_cons, hholds, Bool.not_false, if_true, Bool.false_eq_true, if_false,
                namesOf_cons hobject, Table.setStatic, hsurplus, Prod.mk.injEq, true_and]
              congr 1
              funext d
              by_cases hd : d = c
              · subst hd
                simp [hkept, hobject]
              · simp [hd]

theorem spliceColumn_eq {columns : List ℕ} (hnodup : columns.Nodup) {c : ℕ} (hc : c ∈ columns) :
    spliceColumn columns c = columns.filter fun d => d ≠ c := by
  unfold spliceColumn
  cases hindex : columns.idxOf? c with
  | none => exact absurd hc (List.idxOf?_eq_none_iff.1 hindex)
  | some index =>
      have herase : columns.eraseIdx index = columns.erase c := by
        rw [List.erase_eq_eraseIdx, hindex]
      refine herase.trans ((hnodup.erase_eq_filter c).trans ?_)
      exact List.filter_congr fun d _ => by by_cases hd : d = c <;> simp [hd]

theorem removeColumns_eq {keys : List ℕ} (hkeys : keys.Nodup) {t : Table α} (hnodup : t.columns.Nodup)
    (hsub : ∀ c ∈ keys, c ∈ t.columns) :
    keys.foldl removeColumn t = { t with
      columns := t.columns.filter fun c => c ∉ keys
      columnsByName := t.columnsByName.filter fun p => p.1 ∉ namesOf t.objects keys fun _ _ => true } := by
  induction keys generalizing t with
  | nil => simp [namesOf]
  | cons c keys ih =>
      obtain ⟨hc, hkeys⟩ := List.nodup_cons.1 hkeys
      have hsplice := spliceColumn_eq hnodup (hsub c (List.mem_cons_self ..))
      have hcolumns : (removeColumn t c).columns = t.columns.filter fun d => d ≠ c := by
        rw [removeColumn]
        cases t.objects c <;> exact hsplice
      have hsub' : ∀ d ∈ keys, d ∈ (removeColumn t c).columns := by
        intro d hd
        rw [hcolumns]
        exact List.mem_filter.2 ⟨hsub d (List.mem_cons_of_mem c hd), decide_eq_true fun heq => hc (heq ▸ hd)⟩
      have hnodup' : (removeColumn t c).columns.Nodup := hcolumns ▸ hnodup.filter _
      have hfilter : (t.columns.filter fun d => d ≠ c).filter (fun d => d ∉ keys) =
          t.columns.filter fun d => d ∉ c :: keys := by
        rw [List.filter_filter]
        exact List.filter_congr fun d _ => by by_cases hd : d = c <;> simp [hd]
      rw [List.foldl_cons, ih hkeys hnodup' hsub', hcolumns, hfilter]
      rw [removeColumn]
      cases hobject : t.objects c with
      | none => simp [namesOf, hobject]
      | some column =>
          simp only [Table.deleteName, namesOf_cons hobject, if_true]
          congr 1
          exact (List.filter_comm ..).trans (filter_not_mem_cons ..)

/-- When the columns have different names, a name is removed with its column. -/
theorem mem_namesOf {objects : ℕ → Option (Column α)} {columns : List ℕ} {test : ℕ → Column α → Bool} {c : ℕ}
    {column : Column α} (hc : objects c = some column)
    (hunique : ∀ d ∈ columns, ∀ other, objects d = some other → other.name = column.name → d = c) :
    column.name ∈ namesOf objects columns test ↔ c ∈ columns ∧ holdsAt objects test c = true := by
  rw [namesOf, List.mem_filterMap, holdsAt, hc]
  constructor
  · rintro ⟨d, hd, hname⟩
    obtain ⟨other, hother, hname⟩ := Option.bind_eq_some_iff.1 hname
    split_ifs at hname with htest
    obtain rfl := hunique d hd other hother (Option.some.inj hname)
    rw [hc, Option.some.injEq] at hother
    exact ⟨hd, by rw [hother]; exact htest⟩
  · rintro ⟨hmem, htest⟩
    have htest : test c column = true := htest
    exact ⟨c, hmem, by rw [hc, Option.bind_some, if_pos htest]⟩

/-! ### Tables as they are described -/

structure SchemaColumn where
  name : String
  type : CqlType

/-- A table, with all its columns. -/
structure Description where
  partitionKeys : List SchemaColumn
  /-- with whether the order is descending -/
  clusteringKeys : List (SchemaColumn × Bool)
  statics : List SchemaColumn
  regulars : List SchemaColumn

inductive Entry where
  | partitionKey (position : ℕ) (c : SchemaColumn)
  | clusteringKey (position : ℕ) (descending : Bool) (c : SchemaColumn)
  | static (c : SchemaColumn)
  | regular (c : SchemaColumn)

namespace Entry

def schemaColumn : Entry → SchemaColumn
  | .partitionKey _ c | .clusteringKey _ _ c | .static c | .regular c => c

def isStatic : Entry → Bool
  | .static _ => true
  | _ => false

def isPartitionKey : Entry → Bool
  | .partitionKey _ _ => true
  | _ => false

def isClusteringKey : Entry → Bool
  | .clusteringKey _ _ _ => true
  | _ => false

def columnOrder (descending : Bool) : String := if descending then "DESC" else "ASC"

/-- The row that the server has for the column. -/
def row (e : Entry) : ColumnRow :=
  let c := e.schemaColumn
  match e with
  | .partitionKey position _ => ⟨c.name, c.type.render, "partition_key", some position, some "none"⟩
  | .clusteringKey position descending _ =>
      ⟨c.name, c.type.render, "clustering", some position, some (if descending then "desc" else "asc")⟩
  | .static _ => ⟨c.name, c.type.render, "static", some (-1), some "none"⟩
  | .regular _ => ⟨c.name, c.type.render, "regular", some (-1), some "none"⟩

variable (userType : List Char → α)

def column (e : Entry) : Column α := ⟨e.schemaColumn.name, e.schemaColumn.type.info userType false, e.isStatic⟩

end Entry

def Description.entries (schema : Description) : List Entry :=
  (schema.partitionKeys.zipIdx.map fun p => Entry.partitionKey p.2 p.1) ++
    (schema.clusteringKeys.zipIdx.map fun p => Entry.clusteringKey p.2 p.1.2 p.1.1) ++
    schema.statics.map .static ++ schema.regulars.map .regular

/-- Which columns are shown. -/
inductive Form where
  | all
  | staticCompact
  | dense

def TableRow.form : TableRow → Form
  | .virtual | .view => .all
  | .table flags =>
      if flags.contains "super" then if flags.contains "dense" then .dense else .all
      else if flags.contains "dense" then .dense
      else if flags.contains "compound" then .all
      else .staticCompact

namespace Form

variable (userType : List Char → α)

def shows : Form → Entry → Bool
  | .all, _ => true
  | .staticCompact, e => e.isPartitionKey || e.isStatic
  | .dense, e => e.isStatic || !isEmptyType (e.schemaColumn.type.info userType false)

/-- Only in a table that is shown as it is, columns are static. -/
def column : Form → Entry → Column α
  | .all, e => e.column userType
  | _, e => { e.column userType with isStatic := false }

def clusteringKeys : Form → Description → List (SchemaColumn × Bool)
  | .staticCompact, _ => []
  | _, schema => schema.clusteringKeys

end Form

/-- The table is the one that is described; its columns come in the order of the rows. -/
structure Describes (userType : List Char → α) (schema : Description) (form : Form) (entries : List Entry)
    (t : Table α) : Prop where
  partitionKeys : t.partitionKeys.map t.objects =
    schema.partitionKeys.map fun c => some ⟨c.name, c.type.info userType false, false⟩
  clusteringKeys : t.clusteringKeys.map t.objects =
    (form.clusteringKeys schema).map fun c => some ⟨c.1.name, c.1.type.info userType false, false⟩
  clusteringOrder : t.clusteringOrder = (form.clusteringKeys schema).map fun c => Entry.columnOrder c.2
  columns : t.columns.map t.objects =
    (entries.filter (form.shows userType)).map fun e => some (form.column userType e)
  columnsByName : ∀ name c, JsObject.get t.columnsByName name = .own c ↔
    name ≠ "__proto__" ∧ c ∈ t.columns ∧ (t.objects c).map Column.name = some name

/-! ### All rows settled -/

section Settled

variable {userType : List Char → α} {schema : Description} {entries : List Entry} {s : Parsing α}

/-- The type of a row. -/
def entryType (userType : List Char → α) (entries : List Entry) (i : ℕ) : ColumnInfo α :=
  (entries[i]?.map fun e => e.schemaColumn.type.info userType false).getD (.single 0)

theorem row_columnName (e : Entry) : e.row.columnName = e.schemaColumn.name := by cases e <;> rfl

theorem row_isStatic (e : Entry) : (e.row.kind == "static") = e.isStatic := by cases e <;> rfl

theorem row_isPartitionKey (e : Entry) : isPartitionKey e.row = e.isPartitionKey := by cases e <;> rfl

theorem row_isClusteringKey (e : Entry) : isClusteringKey e.row = e.isClusteringKey := by cases e <;> rfl

theorem getElem?_rows (entries : List Entry) (i : ℕ) : (entries.map Entry.row)[i]? = entries[i]?.map Entry.row :=
  List.getElem?_map ..

theorem getElem?_rows_of {i : ℕ} {e : Entry} (he : entries[i]? = some e) :
    (entries.map Entry.row)[i]? = some e.row := by
  rw [getElem?_rows, he, Option.map_some]

/-- Every row has been parsed. -/
structure Complete (userType : List Char → α) (entries : List Entry) (s : Parsing α) : Prop where
  parsed : Parsed (entries.map Entry.row) (entryType userType entries) s
  settled : s.settled.Perm (List.range entries.length)

variable (hs : Complete userType entries s)

include hs

theorem Complete.mem_settled {i : ℕ} {e : Entry} (he : entries[i]? = some e) : i ∈ s.settled :=
  hs.settled.mem_iff.2 (List.mem_range.2 (List.getElem?_eq_some_iff.1 he).1)

theorem Complete.objects {i : ℕ} {e : Entry} (he : entries[i]? = some e) : s.objects i = some (e.column userType) := by
  rw [hs.parsed.objects i (hs.mem_settled he) e.row (getElem?_rows_of he), columnOf, entryType, he, row_columnName,
    row_isStatic]
  rfl

/-- The items that the rows have pushed, by the rows in their order. -/
theorem Complete.items_perm {β γ : Type} (item : ℕ → ColumnRow → Option β) (g : β → γ) (h : Entry → Option γ)
    (hitem : ∀ i e, entries[i]? = some e → (item i e.row).map g = h e) :
    ((s.settled.filterMap fun i => (entries.map Entry.row)[i]?.bind (item i)).map g).Perm (entries.filterMap h) := by
  rw [List.map_filterMap]
  refine (hs.settled.filterMap _).trans (List.Perm.of_eq ?_)
  rw [← filterMap_range_getElem? entries h]
  refine List.filterMap_congr fun i hi => ?_
  obtain ⟨e, he⟩ : ∃ e, entries[i]? = some e := ⟨_, List.getElem?_eq_getElem (List.mem_range.1 hi)⟩
  rw [getElem?_rows_of he, he, Option.bind_some, Option.bind_some, hitem i e he]

theorem Complete.partitionKeys (hperm : entries.Perm schema.entries) :
    (newTable entries.length s).partitionKeys.map s.objects =
      schema.partitionKeys.map fun c => some ⟨c.name, c.type.info userType false, false⟩ := by
  let h : Entry → Option (Option (Column α) × ℤ)
    | .partitionKey position c => some (some ⟨c.name, c.type.info userType false, false⟩, position)
    | _ => none
  have hentries := hs.items_perm partitionItem (fun item => (s.objects item.1, item.2)) h fun i e he => by
    cases e with
    | partitionKey position c =>
        rw [partitionItem, row_isPartitionKey]
        simp [h, hs.objects he, Entry.isPartitionKey, Entry.row, Entry.column, Entry.schemaColumn, Entry.isStatic]
    | _ =>
        rw [partitionItem, row_isPartitionKey]
        simp [h, Entry.isPartitionKey]
  rw [← hs.parsed.partitionKeys] at hentries
  rw [newTable, List.map_map]
  refine sortByIndex_map s.objects (hentries.trans ((hperm.filterMap h).trans (List.Perm.of_eq ?_)))
  simp [Description.entries, List.filterMap_append, List.filterMap_map, List.zipIdx_map, h, Function.comp_def]

theorem Complete.clustering (hperm : entries.Perm schema.entries) :
    (sortByIndex s.clusteringKeys).map (fun item => (s.objects item.1.1, item.1.2)) =
      schema.clusteringKeys.map fun c =>
        (some ⟨c.1.name, c.1.type.info userType false, false⟩, Entry.columnOrder c.2) := by
  let h : Entry → Option ((Option (Column α) × String) × ℤ)
    | .clusteringKey position descending c =>
        some ((some ⟨c.name, c.type.info userType false, false⟩, Entry.columnOrder descending), position)
    | _ => none
  have hentries := hs.items_perm clusteringItem (fun item => ((s.objects item.1.1, item.1.2), item.2)) h
    fun i e he => by
      cases e with
      | clusteringKey position descending c =>
          rw [clusteringItem, row_isClusteringKey]
          cases descending <;>
            simp [h, hs.objects he, Entry.isClusteringKey, Entry.row, Entry.column, Entry.schemaColumn, Entry.isStatic,
              order, Entry.columnOrder]
      | _ =>
          rw [clusteringItem, row_isClusteringKey]
          simp [h, Entry.isClusteringKey]
  rw [← hs.parsed.clusteringKeys] at hentries
  refine sortByIndex_map (fun item : ℕ × String => (s.objects item.1, item.2))
    (hentries.trans ((hperm.filterMap h).trans (List.Perm.of_eq ?_)))
  simp [Description.entries, List.filterMap_append, List.filterMap_map, List.zipIdx_map, h, Function.comp_def]

theorem Complete.mem_partitionKeys {i : ℕ} {e : Entry} (he : entries[i]? = some e) :
    i ∈ (newTable entries.length s).partitionKeys ↔ e.isPartitionKey = true := by
  have hrow := getElem?_rows_of he
  simp only [newTable, List.mem_map, mem_sortByIndex, hs.parsed.partitionKeys, List.mem_filterMap]
  constructor
  · rintro ⟨item, ⟨j, -, hitem⟩, rfl⟩
    obtain ⟨row, hrow', hitem⟩ := Option.bind_eq_some_iff.1 hitem
    rw [partitionItem] at hitem
    split_ifs at hitem with hkey
    obtain rfl := Option.some.inj hitem
    rw [hrow, Option.some.injEq] at hrow'
    rwa [← hrow', row_isPartitionKey] at hkey
  · intro hkey
    refine ⟨(i, e.row.position.getD 0), ⟨i, hs.mem_settled he, ?_⟩, rfl⟩
    rw [hrow, Option.bind_some, partitionItem, row_isPartitionKey, if_pos hkey]

theorem Complete.clusteringKeys_perm : (newTable entries.length s).clusteringKeys.Perm
    ((List.range entries.length).filter fun i => entries[i]?.any Entry.isClusteringKey) := by
  have hitems : s.clusteringKeys.map (fun item => item.1.1) =
      s.settled.filter fun i => entries[i]?.any Entry.isClusteringKey := by
    rw [hs.parsed.clusteringKeys, List.map_filterMap, ← List.filterMap_eq_filter]
    refine List.filterMap_congr fun i hi => ?_
    obtain ⟨e, he⟩ : ∃ e, entries[i]? = some e :=
      ⟨_, List.getElem?_eq_getElem (List.mem_range.1 (hs.settled.subset hi))⟩
    rw [getElem?_rows_of he, Option.bind_some, clusteringItem, row_isClusteringKey, Option.guard]
    cases hkey : e.isClusteringKey <;> simp [hkey, he]
  have hsorted : (newTable entries.length s).clusteringKeys.Perm (s.clusteringKeys.map fun item => item.1.1) :=
    (List.mergeSort_perm _ _).map _
  exact hsorted.trans ((List.Perm.of_eq hitems).trans (hs.settled.filter _))

theorem Complete.mem_clusteringKeys {i : ℕ} {e : Entry} (he : entries[i]? = some e) :
    i ∈ (newTable entries.length s).clusteringKeys ↔ e.isClusteringKey = true := by
  rw [hs.clusteringKeys_perm.mem_iff, List.mem_filter, he, List.mem_range]
  exact and_iff_right (List.getElem?_eq_some_iff.1 he).1

/-- Names belong to one row. -/
theorem Complete.get_iff (name : String) (c : ℕ) :
    JsObject.get s.columnsKeyed name = .own c ↔
      name ≠ "__proto__" ∧ ∃ e, entries[c]? = some e ∧ e.schemaColumn.name = name := by
  constructor
  · intro hget
    obtain ⟨hc, hname⟩ := hs.parsed.settled name c hget
    rw [getElem?_rows, Option.map_map] at hname
    obtain ⟨e, he, hname⟩ := Option.map_eq_some_iff.1 hname
    refine ⟨fun heq => hs.parsed.proto (heq ▸ List.mem_map_of_mem (JsObject.mem_of_get hget)), e, he, ?_⟩
    rw [← hname, Function.comp_apply, row_columnName]
  · rintro ⟨hproto, e, he, rfl⟩
    have hown := hs.parsed.own c (hs.mem_settled he) e.row (getElem?_rows_of he)
    rw [row_columnName] at hown
    exact hown hproto

omit hs in
theorem map_filter_range (shown : ℕ → Bool) (objects : ℕ → Option (Column α)) (shows : Entry → Bool)
    (column : Entry → Option (Column α))
    (h : ∀ i e, entries[i]? = some e → shown i = shows e ∧ (shows e = true → objects i = column e)) :
    ((List.range entries.length).filter shown).map objects = (entries.filter shows).map column := by
  have hfilter : ∀ {β γ : Type} (l : List β) (p : β → Bool) (f : β → γ),
      (l.filter p).map f = l.filterMap fun x => if p x then some (f x) else none := by
    intro β γ l p f
    induction l with
    | nil => rfl
    | cons x l ih => cases hx : p x <;> simp [hx, ih]
  rw [hfilter, hfilter, ← filterMap_range_getElem? entries]
  refine List.filterMap_congr fun i hi => ?_
  obtain ⟨e, he⟩ : ∃ e, entries[i]? = some e := ⟨_, List.getElem?_eq_getElem (List.mem_range.1 hi)⟩
  obtain ⟨hshown, hobject⟩ := h i e he
  rw [he, Option.bind_some, hshown]
  cases hshows : shows e with
  | true => rw [if_pos rfl, if_pos rfl, hobject hshows]
  | false => rfl

/-- The names that are left are those of the columns that are left. -/
theorem Complete.names_iff {t : Table α} (shown : ℕ → Bool) (removed : List String)
    (hcolumns : t.columns = (List.range entries.length).filter shown)
    (hget : ∀ name c, JsObject.get t.columnsByName name = .own c ↔
      JsObject.get s.columnsKeyed name = .own c ∧ name ∉ removed)
    (hremoved : ∀ i e, entries[i]? = some e → (e.schemaColumn.name ∈ removed ↔ shown i = false))
    (hobjects : ∀ i e, entries[i]? = some e → (t.objects i).map Column.name = some e.schemaColumn.name)
    (name : String) (c : ℕ) : JsObject.get t.columnsByName name = .own c ↔
      name ≠ "__proto__" ∧ c ∈ t.columns ∧ (t.objects c).map Column.name = some name := by
  rw [hget, hs.get_iff, hcolumns, List.mem_filter]
  constructor
  · rintro ⟨⟨hproto, e, he, rfl⟩, hnot⟩
    have hshown : shown c = true := by
      rw [hremoved c e he, Bool.not_eq_false] at hnot
      exact hnot
    exact ⟨hproto, ⟨List.mem_range.2 (List.getElem?_eq_some_iff.1 he).1, hshown⟩, hobjects c e he⟩
  · rintro ⟨hproto, ⟨hc, hshown⟩, hname⟩
    obtain ⟨e, he⟩ : ∃ e, entries[c]? = some e := ⟨_, List.getElem?_eq_getElem (List.mem_range.1 hc)⟩
    rw [hobjects c e he, Option.some.injEq] at hname
    subst hname
    refine ⟨⟨hproto, e, he, rfl⟩, fun hmem => ?_⟩
    rw [(hremoved c e he).1 hmem] at hshown
    cases hshown

omit hs in
/-- Keys are not static, so that a loop leaves them as they are. -/
theorem keys_map {objects objects' : ℕ → Option (Column α)} {keys : List ℕ} {columns : List (Option (Column α))}
    (h : keys.map objects = columns) (hstatic : ∀ column ∈ columns, ∃ name type, column = some ⟨name, type, false⟩)
    (hsame : ∀ c name type, objects c = some ⟨name, type, false⟩ → objects' c = objects c) :
    keys.map objects' = columns := by
  rw [← h]
  refine List.map_congr_left fun c hc => ?_
  obtain ⟨name, type, hcolumn⟩ := hstatic (objects c) (h ▸ List.mem_map_of_mem hc)
  exact hsame c name type hcolumn

theorem Complete.describes_all (hperm : entries.Perm schema.entries) :
    Describes userType schema .all entries (newTable entries.length s) where
  partitionKeys := hs.partitionKeys hperm
  clusteringKeys := by
    have hkeys := congrArg (List.map Prod.fst) (hs.clustering hperm)
    rw [List.map_map, List.map_map] at hkeys
    rw [newTable, List.map_map]
    exact hkeys
  clusteringOrder := by
    have hkeys := congrArg (List.map Prod.snd) (hs.clustering hperm)
    rw [List.map_map, List.map_map] at hkeys
    exact hkeys
  columns := by
    have hall : ((List.range entries.length).filter fun _ => true).map s.objects =
        (entries.filter (Form.all.shows userType)).map fun e => some (Form.all.column userType e) :=
      map_filter_range _ _ _ _ fun i e he => ⟨rfl, fun _ => hs.objects he⟩
    rw [List.filter_true] at hall
    exact hall
  columnsByName := by
    refine hs.names_iff (fun _ => true) [] ?_ ?_ ?_ ?_
    · rw [List.filter_true]
      rfl
    · exact fun name c => ⟨fun h => ⟨h, List.not_mem_nil⟩, And.left⟩
    · exact fun i e _ => ⟨fun h => absurd h List.not_mem_nil, fun h => Bool.noConfusion h⟩
    · exact fun i e he => congrArg (Option.map Column.name) (hs.objects he)

/-- What a loop leaves of the rows, and what it makes of the objects. -/
theorem Complete.describes_pruned {form : Form}
    (hform : ∀ e, form.column userType e = { e.column userType with isStatic := false })
    {t : Table α} (shown : ℕ → Bool) (removed : List String) (hperm : entries.Perm schema.entries)
    (hshown : ∀ i e, entries[i]? = some e → shown i = form.shows userType e)
    (hpartitionKeys : t.partitionKeys = (newTable entries.length s).partitionKeys)
    (hclusteringKeys : t.clusteringKeys.map s.objects =
      (form.clusteringKeys schema).map fun c => some ⟨c.1.name, c.1.type.info userType false, false⟩)
    (hclusteringOrder : t.clusteringOrder = (form.clusteringKeys schema).map fun c => Entry.columnOrder c.2)
    (hcolumns : t.columns = (List.range entries.length).filter shown)
    (hobjects : ∀ c, t.objects c = if c ∈ (List.range entries.length).filter shown
      then (s.objects c).map fun column => { column with isStatic := false } else s.objects c)
    (hget : ∀ name c, JsObject.get t.columnsByName name = .own c ↔
      JsObject.get s.columnsKeyed name = .own c ∧ name ∉ removed)
    (hremoved : ∀ i e, entries[i]? = some e → (e.schemaColumn.name ∈ removed ↔ shown i = false)) :
    Describes userType schema form entries t := by
  have hsame : ∀ c name type, s.objects c = some ⟨name, type, false⟩ → t.objects c = s.objects c := by
    intro c name type hcolumn
    rw [hobjects, hcolumn]
    split_ifs <;> rfl
  refine ⟨?_, ?_, hclusteringOrder, ?_, hs.names_iff shown removed hcolumns hget hremoved fun i e he => ?_⟩
  · rw [hpartitionKeys]
    refine keys_map (hs.partitionKeys hperm) (fun column hcolumn => ?_) hsame
    obtain ⟨c, -, rfl⟩ := List.mem_map.1 hcolumn
    exact ⟨_, _, rfl⟩
  · refine keys_map hclusteringKeys (fun column hcolumn => ?_) hsame
    obtain ⟨c, -, rfl⟩ := List.mem_map.1 hcolumn
    exact ⟨_, _, rfl⟩
  · rw [hcolumns]
    refine map_filter_range shown t.objects (form.shows userType) _ fun i e he => ⟨hshown i e he, fun hshows => ?_⟩
    have hmem : i ∈ (List.range entries.length).filter shown :=
      List.mem_filter.2 ⟨List.mem_range.2 (List.getElem?_eq_some_iff.1 he).1, (hshown i e he).trans hshows⟩
    rw [hobjects, if_pos hmem, hs.objects he, hform]
    rfl
  · rw [hobjects, hs.objects he]
    split_ifs <;> rfl

theorem Complete.unique_object (hnames : (entries.map fun e => e.schemaColumn.name).Nodup) {c : ℕ} {e : Entry}
    (he : entries[c]? = some e) {d : ℕ} (hd : d < entries.length) (other : Column α)
    (hother : s.objects d = some other) (hname : other.name = e.schemaColumn.name) : d = c := by
  have hf : entries[d]? = some entries[d] := List.getElem?_eq_getElem hd
  rw [hs.objects hf, Option.some.injEq] at hother
  subst hother
  exact eq_of_getElem?_of_map (fun e => e.schemaColumn.name) hnames hf he hname

theorem Complete.holdsAt_eq {i : ℕ} {e : Entry} (he : entries[i]? = some e) (test : ℕ → Column α → Bool) :
    holdsAt s.objects test i = test i (e.column userType) := by
  rw [holdsAt, hs.objects he]
  rfl

theorem Complete.mem_names (hnames : (entries.map fun e => e.schemaColumn.name).Nodup) {i : ℕ} {e : Entry}
    (he : entries[i]? = some e) {columns : List ℕ} (hcolumns : ∀ c ∈ columns, c < entries.length)
    (test : ℕ → Column α → Bool) :
    e.schemaColumn.name ∈ namesOf s.objects columns test ↔ i ∈ columns ∧ test i (e.column userType) = true := by
  refine (mem_namesOf (hs.objects he) fun d hd => hs.unique_object hnames he (hcolumns d hd)).trans ?_
  rw [hs.holdsAt_eq he]

theorem Complete.describes_dense (hnames : (entries.map fun e => e.schemaColumn.name).Nodup)
    (hperm : entries.Perm schema.entries) (isCompact : Bool) : Describes userType schema .dense entries
      (pruneDenseTableColumns { newTable entries.length s with isCompact }) := by
  have hall := hs.describes_all hperm
  unfold pruneDenseTableColumns
  dsimp only
  rw [pruneColumns_eq _ (by exact List.nodup_range)]
  dsimp only
  refine hs.describes_pruned (fun e => rfl) _ _ hperm (fun i e he => ?_) rfl hall.clusteringKeys
    hall.clusteringOrder rfl (fun c => rfl) (fun name c => get_filter _ _ _ _) fun i e he => ?_
  · refine (congrArg not (hs.holdsAt_eq he _)).trans ?_
    simp only [Form.shows, Entry.column, Bool.not_and, Bool.not_not]
  · refine (hs.mem_names hnames he (fun c hc => List.mem_range.1 hc) _).trans ?_
    rw [and_iff_right (List.mem_range.2 (List.getElem?_eq_some_iff.1 he).1), Bool.not_eq_false']
    exact (Bool.eq_iff_iff.1 (hs.holdsAt_eq he fun _ column => !column.isStatic && isEmptyType column.type)).symm

theorem Complete.describes_staticCompact (hnames : (entries.map fun e => e.schemaColumn.name).Nodup)
    (hperm : entries.Perm schema.entries) (isCompact : Bool) : Describes userType schema .staticCompact entries
      (pruneStaticCompactTableColumns { newTable entries.length s with isCompact }) := by
  have hkeys := hs.clusteringKeys_perm
  have hpartition : ∀ {i : ℕ} {e : Entry}, entries[i]? = some e →
      (newTable entries.length s).partitionKeys.contains i = e.isPartitionKey := fun he => by
    rw [Bool.eq_iff_iff, List.contains_iff_mem, hs.mem_partitionKeys he]
  have hclustering : ∀ {i : ℕ} {e : Entry}, entries[i]? = some e →
      (i ∈ (newTable entries.length s).clusteringKeys ↔ e.isClusteringKey = true) := hs.mem_clusteringKeys
  have hlt : ∀ c ∈ (newTable entries.length s).clusteringKeys, c < entries.length := fun c hc =>
    List.mem_range.1 (List.mem_of_mem_filter (hkeys.subset hc))
  unfold pruneStaticCompactTableColumns
  dsimp only
  rw [removeColumns_eq (hkeys.nodup_iff.2 (List.nodup_range.filter _)) (by exact List.nodup_range)
    fun c hc => List.mem_range.2 (hlt c hc)]
  dsimp only
  rw [pruneColumns_eq _ (by exact List.nodup_range.filter _)]
  dsimp only
  generalize (newTable entries.length s).clusteringKeys = keys at hclustering hlt ⊢
  let surplus (c : ℕ) (column : Column α) : Bool :=
    !column.isStatic && !(newTable entries.length s).partitionKeys.contains c
  let shown (c : ℕ) : Bool := !holdsAt s.objects surplus c && decide (c ∉ keys)
  let removed : List String := namesOf s.objects keys (fun _ _ => true) ++
    namesOf s.objects ((List.range entries.length).filter fun c => c ∉ keys) surplus
  have hcolumns : ((List.range entries.length).filter fun c => c ∉ keys).filter
      (fun c => !holdsAt s.objects surplus c) = (List.range entries.length).filter shown := List.filter_filter ..
  have hsurplus : ∀ {i : ℕ} {e : Entry}, entries[i]? = some e →
      surplus i (e.column userType) = (!e.isStatic && !e.isPartitionKey) := fun he => by
    simp only [surplus, hpartition he]
    rfl
  refine hs.describes_pruned (fun e => rfl) shown removed hperm (fun i e he => ?_) rfl rfl rfl hcolumns (fun c => ?_)
    (fun name c => ?_) fun i e he => ?_
  · simp only [shown, hs.holdsAt_eq he, hsurplus he, hclustering he]
    cases e <;> rfl
  · rw [← hcolumns]
    rfl
  · refine (get_filter _ _ _ _).trans ((and_congr_left fun _ => get_filter _ _ _ _).trans ?_)
    rw [List.mem_append, not_or, and_assoc]
    rfl
  · rw [List.mem_append, hs.mem_names hnames he hlt, hs.mem_names hnames he fun c hc =>
      List.mem_range.1 (List.mem_of_mem_filter hc)]
    simp only [shown, hs.holdsAt_eq he, hsurplus he, hclustering he, List.mem_filter, List.mem_range]
    have hlength := (List.getElem?_eq_some_iff.1 he).1
    cases e <;> simp [Entry.isClusteringKey, Entry.isPartitionKey, Entry.isStatic, hlength]

omit hs in
theorem Describes.with_flags {form : Form} {t : Table α} (h : Describes userType schema form entries t)
    (isCompact virtual : Bool) : Describes userType schema form entries { t with isCompact, virtual } :=
  ⟨h.partitionKeys, h.clusteringKeys, h.clusteringOrder, h.columns, h.columnsByName⟩

theorem Complete.describes (hnames : (entries.map fun e => e.schemaColumn.name).Nodup)
    (hperm : entries.Perm schema.entries) (tableRow : TableRow) :
    Describes userType schema tableRow.form entries (makeTable entries.length s tableRow) := by
  have hall := hs.describes_all hperm
  cases tableRow with
  | virtual => exact hall.with_flags false true
  | view => exact hall
  | table flags =>
      unfold makeTable TableRow.form
      dsimp only
      cases flags.contains "dense" with
      | true =>
          have hdense := hs.describes_dense hnames hperm true
          cases flags.contains "super" <;> exact hdense
      | false =>
          cases flags.contains "super" with
          | true => exact hall.with_flags true false
          | false =>
              cases flags.contains "compound" with
              | true => exact hall.with_flags false false
              | false => exact hs.describes_staticCompact hnames hperm true

end Settled

/-! ### All tables -/

theorem knows_row {keyspace : List Char} {userType : List Char → α} {entries : List Entry} {a : ℕ × Resolver α}
    (htypes : ∀ e ∈ entries, e.schemaColumn.type.parseable false = true)
    (hresolver : ∀ e ∈ entries, ∀ n ∈ e.schemaColumn.type.userTypes, a.2 keyspace n = .ok (some (userType n))) :
    Knows keyspace (entries.map Entry.row) (entryType userType entries) a := by
  intro row hrow
  rw [getElem?_rows] at hrow
  obtain ⟨e, he, rfl⟩ := Option.map_eq_some_iff.1 hrow
  have hmem := List.mem_of_getElem? he
  have htype : e.row.type = e.schemaColumn.type.render := by cases e <;> rfl
  have hreads : e.schemaColumn.type.Reads keyspace userType := (CqlType.reads_and_readsUnfrozen _).1
  rw [htype, entryType, he, hreads _ (some a.2) (fun n hn => ⟨a.2, rfl, hresolver e hmem n hn⟩) (Nat.lt_succ_self _)
    (htypes e hmem)]
  rfl

/-- A table that was made with Thrift, with one of its columns static. -/
def sensors : Description where
  partitionKeys := [⟨"key", .udt ⟨"sensor".toList, false, fun _ => by decide⟩⟩]
  clusteringKeys := [(⟨"column1", .native ⟨"text", 0xa, by decide⟩⟩, false)]
  statics := [⟨"level", .list (.native ⟨"int", 0x9, by decide⟩)⟩]
  regulars := [⟨"value", .native ⟨"blob", 0x3, by decide⟩⟩]

end CqlDriver.Metadata.TableSchema
