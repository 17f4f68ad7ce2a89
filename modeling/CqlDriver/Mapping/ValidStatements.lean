import CqlDriver.Lib.Fallible
import CqlDriver.Mapping.QueryGenerator

/-! # Which statements are valid (`lib/mapping/object-selector.js`)

`getForInsert` and `getForUpdate` choose tables by numbers: how many properties name a key, how many have a column,
how many columns are static.  The statement that the generator makes for such a table is valid when the numbers come
from the columns they stand for; `validUpdate_iff` and `validInsert_iff` say what has to hold besides. -/

namespace CqlDriver.Mapping

variable {V P : Type}

/-! ### Counting -/

section Counting

variable {α : Type} [DecidableEq α]

theorem filter_mem_subset (keys cs : List α) : (cs.filter fun c => decide (c ∈ keys)) ⊆ keys := fun c hc => by
  simpa using (List.mem_filter.1 hc).2

theorem nodup_filter_mem_iff (keys cs : List α) :
    (cs.filter fun c => decide (c ∈ keys)).Nodup ↔ ∀ k ∈ keys, cs.count k ≤ 1 := by
  rw [List.nodup_iff_count_le_one]
  constructor
  · intro h k hk
    have hle := h k
    rwa [List.count_filter (by simpa using hk)] at hle
  · intro h k
    by_cases hk : k ∈ keys
    · rw [List.count_filter (by simpa using hk)]
      exact h k hk
    · rw [List.count_eq_zero_of_not_mem fun hm => hk (filter_mem_subset keys cs hm)]
      exact Nat.zero_le 1

/-- As many occurrences as there are keys are all of them, when none occurs twice. -/
theorem forall_mem_of_count_le_one {keys cs : List α} (hcount : cs.countP (fun c => decide (c ∈ keys)) = keys.length)
    (h : ∀ k ∈ keys, cs.count k ≤ 1) : ∀ k ∈ keys, k ∈ cs := by
  intro k hk
  rw [List.countP_eq_length_filter] at hcount
  have hsubperm := List.subperm_of_subset ((nodup_filter_mem_iff keys cs).2 h) (filter_mem_subset keys cs)
  have hperm := hsubperm.perm_of_length_le (le_of_eq hcount.symm)
  exact (List.mem_filter.1 (hperm.mem_iff.2 hk)).1

/-- With as many occurrences as there are keys, every key occurs just when none occurs twice. -/
theorem forall_mem_iff_count_le_one {keys cs : List α} (hkeys : keys.Nodup)
    (hcount : cs.countP (fun c => decide (c ∈ keys)) = keys.length) :
    (∀ k ∈ keys, k ∈ cs) ↔ ∀ k ∈ keys, cs.count k ≤ 1 := by
  refine ⟨fun h => ?_, forall_mem_of_count_le_one hcount⟩
  have hsub : keys ⊆ cs.filter fun c => decide (c ∈ keys) := fun k hk =>
    List.mem_filter.2 ⟨h k hk, by simpa using hk⟩
  rw [List.countP_eq_length_filter] at hcount
  have hperm := (List.subperm_of_subset hkeys hsub).perm_of_length_le (le_of_eq hcount)
  exact (nodup_filter_mem_iff keys cs).1 (hperm.nodup_iff.1 hkeys)

end Counting

/-! ### Choosing tables -/

namespace ObjectSelector

theorem of_mem_filterTables {keep : TableMetadata → Bool} : ∀ {candidates tables},
    filterTables keep candidates = .ok tables → ∀ table ∈ tables, keep table = true
  | [], _, h, _, ht => by
      obtain rfl := Except.ok.inj h
      cases ht
  | (none, _) :: _, _, h, _, _ => by cases h
  | (some table', _) :: candidates, _, h, table, ht => by
      cases hrest : filterTables keep candidates with
      | error e =>
          rw [filterTables, hrest] at h
          cases h
      | ok kept =>
          rw [filterTables, hrest] at h
          obtain rfl := Except.ok.inj h
          split_ifs at ht with hkeep
          · obtain rfl | ht := List.mem_cons.1 ht
            · exact hkeep
            · exact of_mem_filterTables hrest table ht
          · exact of_mem_filterTables hrest table ht

/-- How often the properties name one of the keys. -/
def named (keys : List String) (ps : List PropertyInfo) : ℕ := ps.countP fun p => p.columnName ∈ keys

theorem keysAreIncluded_eq_all (keys : List String) (ps : List PropertyInfo) :
    keysAreIncluded keys ps = .all ↔ named keys ps = keys.length := by
  rw [keysAreIncluded, ← named]
  by_cases hkeys : keys = []
  · simp [hkeys, named]
  · have hpos := List.length_pos_of_ne_nil hkeys
    simp only [if_neg hkeys]
    split_ifs with h₁ h₂
    · simp
      omega
    · simp [h₂]
    · simp [h₂]

theorem keysAreIncluded_eq_none (keys : List String) (ps : List PropertyInfo) :
    keysAreIncluded keys ps = .none ↔ keys ≠ [] ∧ named keys ps = 0 := by
  rw [keysAreIncluded, ← named]
  by_cases hkeys : keys = []
  · simp [hkeys]
  · simp only [if_neg hkeys]
    split_ifs with h₁ h₂
    · simp [hkeys, h₁]
    · simp [h₁]
    · simp [h₁]

/-- Either no key is named, or as many as there are. -/
theorem named_of_ne_some {keys : List String} {ps : List PropertyInfo} (h : keysAreIncluded keys ps ≠ .some) :
    named keys ps = keys.length ∨ keysAreIncluded keys ps = .none := by
  cases hk : keysAreIncluded keys ps with
  | all => exact Or.inl ((keysAreIncluded_eq_all keys ps).1 hk)
  | none => exact Or.inr rfl
  | some => exact absurd hk h

/-- What the filter of `getForUpdate` has found out about a table. -/
structure ChosenForUpdate (table : TableMetadata) (ps : List PropertyInfo) : Prop where
  partition : named table.partitionKeys ps = table.partitionKeys.length
  clustering : named table.clusteringKeys ps = table.clusteringKeys.length ∨
    table.clusteringKeys ≠ [] ∧ named table.clusteringKeys ps = 0
  applicable : table.partitionKeys.length + table.clusteringKeys.length <
      ps.countP (fun p => hasColumn table p.columnName) ∨
    staticColumnCount table ≠ 0 ∧ table.partitionKeys.length < ps.countP fun p => hasColumn table p.columnName

theorem chosenForUpdate {getTable : String → String → Option TableMetadata} {info : ModelMappingInfo}
    {ps when : List PropertyInfo} {tables : List TableMetadata}
    (h : getForUpdate getTable info ps when = .ok tables) {table : TableMetadata} (ht : table ∈ tables) :
    ChosenForUpdate table ps := by
  obtain ⟨filtered, hfiltered, h⟩ := Fallible.bind_eq_ok h
  split_ifs at h
  obtain rfl := Except.ok.inj h
  have hkeep := of_mem_filterTables hfiltered table ht
  simp only at hkeep
  split_ifs at hkeep with h₁ h₂ h₃ h₄
  rw [ne_eq, not_not, keysAreIncluded_eq_all] at h₁
  refine ⟨h₁, (named_of_ne_some h₂).imp_right (keysAreIncluded_eq_none _ _).1, ?_⟩
  rw [not_and_or, not_or] at h₄
  exact h₄.imp Nat.lt_of_not_le fun ⟨hstatic, happlicable⟩ => ⟨hstatic, Nat.lt_of_not_le happlicable⟩

/-- What the filter of `getForInsert` has found out about a table. -/
structure ChosenForInsert (table : TableMetadata) (ps : List PropertyInfo) : Prop where
  partition : named table.partitionKeys ps = table.partitionKeys.length
  clustering : named table.clusteringKeys ps = table.clusteringKeys.length ∨
    (table.clusteringKeys ≠ [] ∧ named table.clusteringKeys ps = 0)

theorem chosenForInsert {getTable : String → String → Option TableMetadata} {info : ModelMappingInfo}
    {ps : List PropertyInfo} {tables : List TableMetadata}
    (h : getForInsert getTable info ps = .ok tables) {table : TableMetadata} (ht : table ∈ tables) :
    ChosenForInsert table ps := by
  obtain ⟨filtered, hfiltered, h⟩ := Fallible.bind_eq_ok h
  split_ifs at h
  obtain rfl := Except.ok.inj h
  have hkeep := of_mem_filterTables hfiltered table ht
  split_ifs at hkeep with h₁
  rw [ne_eq, not_not, keysAreIncluded_eq_all] at h₁
  refine ⟨h₁, (named_of_ne_some fun hsome => ?_).imp_right (keysAreIncluded_eq_none _ _).1⟩
  rw [hsome] at hkeep
  cases hkeep

end ObjectSelector

/-! ### Tables -/

open ObjectSelector QueryGenerator

namespace TableMetadata

def keys (table : TableMetadata) : List String := table.partitionKeys ++ table.clusteringKeys

/-- The keys of a table are columns of its own, and are listed once. -/
structure Regular (table : TableMetadata) : Prop where
  nodup : table.keys.Nodup
  own : ∀ k ∈ table.keys, ∃ column, JsObject.get table.columnsByName k = .own column

theorem Regular.hasColumn {table : TableMetadata} (ht : table.Regular) {k : String} (hk : k ∈ table.keys) :
    hasColumn table k = true := by
  obtain ⟨column, hcolumn⟩ := ht.own k hk
  rw [ObjectSelector.hasColumn, hcolumn]

/-- A property whose column is a static one of the table. -/
def isStatic (table : TableMetadata) (p : PropertyInfo) : Bool :=
  match columnOf table p with
  | .own column => column.isStatic
  | .inherited | .undefined => false

/-- A property whose column is in the table, and is no key. -/
def isRegularColumn (table : TableMetadata) (p : PropertyInfo) : Bool :=
  ObjectSelector.hasColumn table p.columnName && !isPrimaryKey table p

end TableMetadata

/-- All the keys are among the columns. -/
def NamesAll (keys : List String) (ps : List PropertyInfo) : Prop := ∀ k ∈ keys, ∃ p ∈ ps, p.columnName = k

/-- No key is among the columns. -/
def NamesNone (keys : List String) (ps : List PropertyInfo) : Prop := ∀ p ∈ ps, p.columnName ∉ keys

/-- No key is the column of two properties. -/
def NamesOnce (keys : List String) (ps : List PropertyInfo) : Prop :=
  ∀ k ∈ keys, (ps.map (·.columnName)).count k ≤ 1

instance (keys : List String) (ps : List PropertyInfo) : Decidable (NamesAll keys ps) :=
  inferInstanceAs (Decidable (∀ k ∈ keys, ∃ p ∈ ps, p.columnName = k))

instance (keys : List String) (ps : List PropertyInfo) : Decidable (NamesNone keys ps) :=
  inferInstanceAs (Decidable (∀ p ∈ ps, p.columnName ∉ keys))

instance (keys : List String) (ps : List PropertyInfo) : Decidable (NamesOnce keys ps) :=
  inferInstanceAs (Decidable (∀ k ∈ keys, (ps.map (·.columnName)).count k ≤ 1))

theorem countP_columnName (keys : List String) (ps : List PropertyInfo) :
    (ps.map (·.columnName)).countP (fun c => decide (c ∈ keys)) = named keys ps := by
  rw [List.countP_map]
  rfl

theorem namesAll_iff_forall_mem {keys : List String} {ps : List PropertyInfo} :
    NamesAll keys ps ↔ ∀ k ∈ keys, k ∈ ps.map (·.columnName) := by
  simp [NamesAll]

theorem namesAll_of_once {keys : List String} {ps : List PropertyInfo} (hnamed : named keys ps = keys.length)
    (honce : NamesOnce keys ps) : NamesAll keys ps :=
  namesAll_iff_forall_mem.2 (forall_mem_of_count_le_one ((countP_columnName keys ps).trans hnamed) honce)

theorem namesAll_iff_once {keys : List String} (hkeys : keys.Nodup) {ps : List PropertyInfo}
    (hnamed : named keys ps = keys.length) : NamesAll keys ps ↔ NamesOnce keys ps :=
  namesAll_iff_forall_mem.trans (forall_mem_iff_count_le_one hkeys ((countP_columnName keys ps).trans hnamed))

theorem namesNone_iff (keys : List String) (ps : List PropertyInfo) : NamesNone keys ps ↔ named keys ps = 0 := by
  rw [NamesNone, named, List.countP_eq_zero]
  simp

theorem not_namesNone {keys : List String} {ps : List PropertyInfo} (hkeys : keys ≠ []) (h : NamesAll keys ps) :
    ¬ NamesNone keys ps := by
  intro hnone
  obtain ⟨k, hk⟩ := List.exists_mem_of_ne_nil keys hkeys
  obtain ⟨p, hp, rfl⟩ := h k hk
  exact hnone p hp hk

theorem NamesNone.once {keys : List String} {ps : List PropertyInfo} (h : NamesNone keys ps) : NamesOnce keys ps := by
  intro k hk
  rw [List.count_eq_zero_of_not_mem]
  · exact Nat.zero_le 1
  · intro hm
    obtain ⟨p, hp, rfl⟩ := List.mem_map.1 hm
    exact h p hp hk

theorem namesOnce_append {keys keys' : List String} {ps : List PropertyInfo} :
    NamesOnce (keys ++ keys') ps ↔ NamesOnce keys ps ∧ NamesOnce keys' ps := by
  rw [NamesOnce, List.forall_mem_append]
  rfl

/-- Where as many keys are named as the numbers say, the names are those of the keys if none is named twice. -/
theorem namesKeys_iff {table : TableMetadata} {ps : List PropertyInfo} {R : Prop} (hnodup : table.keys.Nodup)
    (hpartition : named table.partitionKeys ps = table.partitionKeys.length)
    (hclustering : named table.clusteringKeys ps = table.clusteringKeys.length ∨
      table.clusteringKeys ≠ [] ∧ named table.clusteringKeys ps = 0) :
    NamesAll table.partitionKeys ps ∧
        (NamesAll table.clusteringKeys ps ∨ NamesNone table.clusteringKeys ps ∧ R) ↔
      NamesOnce table.keys ps ∧ (table.clusteringKeys ≠ [] → NamesNone table.clusteringKeys ps → R) := by
  have hnodup := List.nodup_append.1 hnodup
  have hpk := namesAll_iff_once hnodup.1 hpartition
  have hnone := namesNone_iff table.clusteringKeys ps
  constructor
  · rintro ⟨hall, hck⟩
    refine ⟨namesOnce_append.2 ⟨hpk.1 hall, ?_⟩, fun hne hno => ?_⟩
    · rcases hclustering with hcount | ⟨-, hzero⟩
      · rcases hck with hck | ⟨hck, -⟩
        · exact (namesAll_iff_once hnodup.2.1 hcount).1 hck
        · exact hck.once
      · exact (hnone.2 hzero).once
    · rcases hck with hck | ⟨-, hck⟩
      · exact absurd hno (not_namesNone hne hck)
      · exact hck
  · rintro ⟨honce, hrest⟩
    obtain ⟨honce₁, honce₂⟩ := namesOnce_append.1 honce
    refine ⟨hpk.2 honce₁, ?_⟩
    rcases hclustering with hcount | ⟨hne, hzero⟩
    · exact Or.inl ((namesAll_iff_once hnodup.2.1 hcount).2 honce₂)
    · exact Or.inr ⟨hnone.2 hzero, hrest hne (hnone.2 hzero)⟩

section Filtered

variable {table : TableMetadata} {ps : List PropertyInfo}

/-- The properties with a column in the table name the same keys of it. -/
theorem namesAll_filtered (ht : table.Regular) {keys : List String} (hkeys : keys ⊆ table.keys) :
    NamesAll keys (filteredPropertiesInfo table ps) ↔ NamesAll keys ps := by
  constructor
  · intro h k hk
    obtain ⟨p, hp, hpk⟩ := h k hk
    exact ⟨p, (List.mem_filter.1 hp).1, hpk⟩
  · intro h k hk
    obtain ⟨p, hp, rfl⟩ := h k hk
    exact ⟨p, List.mem_filter.2 ⟨hp, ht.hasColumn (hkeys hk)⟩, rfl⟩

theorem namesNone_filtered (ht : table.Regular) {keys : List String} (hkeys : keys ⊆ table.keys) :
    NamesNone keys (filteredPropertiesInfo table ps) ↔ NamesNone keys ps := by
  constructor
  · intro h p hp hk
    exact h p (List.mem_filter.2 ⟨hp, ht.hasColumn (hkeys hk)⟩) hk
  · intro h p hp
    exact h p (List.mem_filter.1 hp).1

/-- The condition on the primary keys names the keys that the properties name. -/
theorem namesAll_primaryKeys {keys : List String} (hkeys : keys ⊆ table.keys) :
    NamesAll keys (primaryKeys table ps) ↔ NamesAll keys ps := by
  constructor
  · intro h k hk
    obtain ⟨p, hp, hpk⟩ := h k hk
    exact ⟨p, (List.mem_filter.1 hp).1, hpk⟩
  · intro h k hk
    obtain ⟨p, hp, rfl⟩ := h k hk
    exact ⟨p, List.mem_filter.2 ⟨hp, decide_eq_true (hkeys hk)⟩, rfl⟩

theorem namesNone_primaryKeys {keys : List String} (hkeys : keys ⊆ table.keys) :
    NamesNone keys (primaryKeys table ps) ↔ NamesNone keys ps := by
  constructor
  · intro h p hp hk
    exact h p (List.mem_filter.2 ⟨hp, decide_eq_true (hkeys hk)⟩) hk
  · intro h p hp
    exact h p (List.mem_filter.1 hp).1

theorem countP_le_add {α : Type} {f g k : α → Bool} {l : List α} (h : ∀ a ∈ l, f a = true → g a = true ∨ k a = true) :
    l.countP f ≤ l.countP g + l.countP k := by
  induction l with
  | nil => simp
  | cons a l ih =>
      have hrest := ih fun b hb => h b (List.mem_cons_of_mem a hb)
      have ha := h a (List.mem_cons_self ..)
      simp only [List.countP_cons]
      cases hf : f a
      · rw [if_neg (by decide)]
        omega
      · rw [if_pos rfl]
        rcases ha hf with hg | hk
        · rw [hg, if_pos rfl]
          omega
        · rw [hk, if_pos rfl]
          omega

/-- Without other columns, the table has the columns that name a key. -/
theorem countP_hasColumn_le (h : ∀ p ∈ ps, table.isRegularColumn p = false) :
    ps.countP (fun p => hasColumn table p.columnName) ≤
      named table.partitionKeys ps + named table.clusteringKeys ps := by
  apply countP_le_add
  intro p hp hcolumn
  have hkey : isPrimaryKey table p = true := by simpa [TableMetadata.isRegularColumn, hcolumn] using h p hp
  simpa [isPrimaryKey] using hkey

theorem mem_otherColumns {p : PropertyInfo} : p ∈ otherColumns table (filteredPropertiesInfo table ps) ↔
    p ∈ ps ∧ table.isRegularColumn p = true := by
  rw [otherColumns, filteredPropertiesInfo, List.mem_filter, List.mem_filter, TableMetadata.isRegularColumn,
    Bool.and_eq_true, and_assoc]

theorem otherColumns_ne_nil_iff : otherColumns table (filteredPropertiesInfo table ps) ≠ [] ↔
    ∃ p ∈ ps, table.isRegularColumn p = true := by
  constructor
  · intro h
    obtain ⟨p, hp⟩ := List.exists_mem_of_ne_nil _ h
    exact ⟨p, mem_otherColumns.1 hp⟩
  · rintro ⟨p, hp, hcolumn⟩
    exact List.ne_nil_of_mem (mem_otherColumns.2 ⟨hp, hcolumn⟩)

theorem forall_mem_otherColumns_iff :
    (∀ p ∈ otherColumns table (filteredPropertiesInfo table ps), table.isStatic p = true) ↔
      ∀ p ∈ ps, table.isRegularColumn p = true → table.isStatic p = true :=
  ⟨fun h p hp hcolumn => h p (mem_otherColumns.2 ⟨hp, hcolumn⟩),
    fun h p hp => h p (mem_otherColumns.1 hp).1 (mem_otherColumns.1 hp).2⟩

end Filtered

theorem isSome_of_runScript {runInThisContext : String → Option (Call V → P)} {text : String}
    {paramsGetter : Call V → P} (h : runScript runInThisContext text = .ok paramsGetter) :
    (runInThisContext text).isSome = true := by
  rw [runScript] at h
  cases hrun : runInThisContext text with
  | none =>
      rw [hrun] at h
      cases h
  | some _ => rfl

/-! ### Updates -/

section Update

variable (runInThisContext : String → Option (Call V → P)) (table : TableMetadata) (keyspace : String)
  (ps when : List PropertyInfo) (ttl ifExists : Bool)

/-- A valid UPDATE: there are columns to set, and the condition names all keys, or the partition keys without a
clustering key where only static columns are set. -/
structure ValidUpdate : Prop where
  statement : ∃ q, getUpdate runInThisContext table keyspace ps when ttl ifExists = .ok q ∧
    q.query = getUpdateQuery table keyspace (filteredPropertiesInfo table ps) when ifExists ttl
  set : otherColumns table (filteredPropertiesInfo table ps) ≠ []
  partition : NamesAll table.partitionKeys (primaryKeys table (filteredPropertiesInfo table ps))
  clustering : NamesAll table.clusteringKeys (primaryKeys table (filteredPropertiesInfo table ps)) ∨
    NamesNone table.clusteringKeys (primaryKeys table (filteredPropertiesInfo table ps)) ∧
      ∀ p ∈ otherColumns table (filteredPropertiesInfo table ps), table.isStatic p = true

/-- What the numbers do not tell about an update. -/
structure UpdateFits : Prop where
  /-- The names make a script, and none is found on the prototype. -/
  script : (runInThisContext (updateParamsGetter table (filteredPropertiesInfo table ps) when ttl)).isSome = true
  own : ∀ p ∈ ps, columnOf table p ≠ .inherited
  once : NamesOnce table.keys ps
  /-- The clustering keys do not stand for the columns to set. -/
  column : staticColumnCount table ≠ 0 → ¬ NamesNone table.clusteringKeys ps → ∃ p ∈ ps, table.isRegularColumn p = true
  /-- The columns to set do not stand for static ones. -/
  static : table.clusteringKeys ≠ [] → NamesNone table.clusteringKeys ps →
    ∀ p ∈ ps, table.isRegularColumn p = true → table.isStatic p = true

theorem getUpdate_eq_ok_iff : (∃ q, getUpdate runInThisContext table keyspace ps when ttl ifExists = .ok q ∧
      q.query = getUpdateQuery table keyspace (filteredPropertiesInfo table ps) when ifExists ttl) ↔
    (runInThisContext (updateParamsGetter table (filteredPropertiesInfo table ps) when ttl)).isSome = true ∧
      ∀ p ∈ ps, columnOf table p ≠ .inherited := by
  constructor
  · rintro ⟨q, hq, -⟩
    simp only [getUpdate] at hq
    split_ifs at hq with hown
    · cases hq
    · obtain ⟨paramsGetter, hrun, -⟩ := Fallible.bind_eq_ok hq
      exact ⟨isSome_of_runScript hrun, fun p hp hinherited =>
        hown (List.any_eq_true.2 ⟨p, hp, decide_eq_true hinherited⟩)⟩
  · rintro ⟨hscript, hown⟩
    obtain ⟨paramsGetter, hrun⟩ := Option.isSome_iff_exists.1 hscript
    have hnone : ¬ (ps.any fun p => columnOf table p = .inherited) = true := fun h => by
      obtain ⟨p, hp, hinherited⟩ := List.any_eq_true.1 h
      exact hown p hp (of_decide_eq_true hinherited)
    simp only [getUpdate, if_neg hnone, runScript, hrun]
    exact ⟨_, rfl, rfl⟩

/-- There is a column to set: the columns of the table are more than the keys that are named. -/
theorem ObjectSelector.ChosenForUpdate.exists_regularColumn {table : TableMetadata} {ps : List PropertyInfo}
    (hchosen : ChosenForUpdate table ps) (hcolumn : staticColumnCount table ≠ 0 →
      ¬ NamesNone table.clusteringKeys ps → ∃ p ∈ ps, table.isRegularColumn p = true) :
    ∃ p ∈ ps, table.isRegularColumn p = true := by
  by_contra hno
  have hle : ps.countP (fun p => hasColumn table p.columnName) ≤
      named table.partitionKeys ps + named table.clusteringKeys ps := by
    apply countP_hasColumn_le
    intro p hp
    rw [← Bool.not_eq_true]
    exact fun hp' => hno ⟨p, hp, hp'⟩
  have hpartition := hchosen.partition
  have hclustering := hchosen.clustering
  rcases hchosen.applicable with happlicable | ⟨hcount, happlicable⟩
  · omega
  · apply hno
    apply hcolumn hcount
    intro hnone
    have hzero := (namesNone_iff table.clusteringKeys ps).1 hnone
    omega

end Update

/-- Messages by room, with the topic of the room. -/
def messages : TableMetadata where
  name := "messages"
  partitionKeys := ["room"]
  clusteringKeys := ["time"]
  columns := [⟨"room", .other, false⟩, ⟨"time", .other, false⟩, ⟨"topic", .other, true⟩, ⟨"text", .other, false⟩]
  columnsByName := [("room", ⟨"room", .other, false⟩), ("time", ⟨"time", .other, false⟩),
    ("topic", ⟨"topic", .other, true⟩), ("text", ⟨"text", .other, false⟩)]

theorem messages_regular : messages.Regular := by
  refine ⟨by decide, fun k hk => ?_⟩
  obtain rfl | rfl : k = "room" ∨ k = "time" := by simpa [TableMetadata.keys, messages] using hk
  · exact ⟨⟨"room", .other, false⟩, by decide⟩
  · exact ⟨⟨"time", .other, false⟩, by decide⟩

/-- A model with the table for messages only. -/
def messagesInfo : ModelMappingInfo where
  keyspace := "chat"
  tables := [⟨"messages", false⟩]
  mappings := id
  columns := []

/-- Properties that are called as their columns. -/
def columnsInfo (columnNames : List String) : List PropertyInfo :=
  columnNames.map fun columnName => ⟨columnName, columnName, .none, none, false⟩

theorem getForUpdate_topic :
    getForUpdate (fun _ _ => some messages) messagesInfo (columnsInfo ["room", "topic"]) [] = .ok [messages] := by
  rfl

section Insert

variable (runInThisContext : String → Option (Call V → P)) (table : TableMetadata) (keyspace : String)
  (ps : List PropertyInfo) (ttl ifNotExists : Bool)

/-- A valid INSERT: there are values for all keys, or for the partition keys without a clustering key, and then for
static columns only. -/
structure ValidInsert : Prop where
  statement : ∃ q, getInsert runInThisContext table keyspace ps ttl ifNotExists = .ok q ∧
    q.query = getInsertQuery table.name keyspace (filteredPropertiesInfo table ps) ifNotExists ttl
  partition : NamesAll table.partitionKeys (filteredPropertiesInfo table ps)
  clustering : NamesAll table.clusteringKeys (filteredPropertiesInfo table ps) ∨
    NamesNone table.clusteringKeys (filteredPropertiesInfo table ps) ∧
      otherColumns table (filteredPropertiesInfo table ps) ≠ [] ∧
      ∀ p ∈ otherColumns table (filteredPropertiesInfo table ps), table.isStatic p = true

/-- What the numbers do not tell about an insert. -/
structure InsertFits : Prop where
  /-- The names make a script. -/
  script : (runInThisContext (insertParamsGetter (filteredPropertiesInfo table ps) ttl)).isSome = true
  once : NamesOnce table.keys ps
  /-- Columns that are not static, and those of other tables, do not stand for static ones. -/
  static : table.clusteringKeys ≠ [] → NamesNone table.clusteringKeys ps →
    (∃ p ∈ ps, table.isRegularColumn p = true) ∧
      ∀ p ∈ ps, table.isRegularColumn p = true → table.isStatic p = true

theorem getInsert_eq_ok_iff : (∃ q, getInsert runInThisContext table keyspace ps ttl ifNotExists = .ok q ∧
      q.query = getInsertQuery table.name keyspace (filteredPropertiesInfo table ps) ifNotExists ttl) ↔
    (runInThisContext (insertParamsGetter (filteredPropertiesInfo table ps) ttl)).isSome = true := by
  constructor
  · rintro ⟨q, hq, -⟩
    obtain ⟨paramsGetter, hrun, -⟩ := Fallible.bind_eq_ok hq
    exact isSome_of_runScript hrun
  · intro hscript
    obtain ⟨paramsGetter, hrun⟩ := Option.isSome_iff_exists.1 hscript
    simp only [getInsert, runScript, hrun]
    exact ⟨_, rfl, rfl⟩

end Insert

theorem getForInsert_topic :
    getForInsert (fun _ _ => some messages) messagesInfo (columnsInfo ["room", "topic"]) = .ok [messages] := by
  rfl

end CqlDriver.Mapping
