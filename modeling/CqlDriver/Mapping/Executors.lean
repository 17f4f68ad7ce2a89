import CqlDriver.Lib.TransitionSystem
import CqlDriver.Mapping.CacheItems
import CqlDriver.Mapping.CreateQueries

/-! # Executors (`lib/mapping/mapping-handler.js`)

`getInsertExecutor`, `getUpdateExecutor` and `getDeleteExecutor` look for the executor under the key of
the call, and create it where there is none.  The creation waits for the client, so calls overlap: the
system takes a step for every call, and one for every promise that settles.  In every run, the executor
a call gets is the one a new mapper would create for some earlier call with the same key
(`Inv.of_run`). -/

namespace CqlDriver.Mapping

variable {V P : Type}

/-! ### Options and requests -/

/-- The `executionOptions` of a call: the name of a profile or an object. -/
inductive ExecutionOptions where
  | none
  | profile (name : String)
  | object (executionProfile : Option String) (timestamp : Option ℤ) (logged isIdempotent : Option Bool)

/-- The options of a request; every request is prepared. -/
structure QueryOptions where
  executionProfile : Option String
  timestamp : Option ℤ
  logged : Option Bool
  isIdempotent : Bool
  counter : Option Bool
deriving DecidableEq

namespace DocInfoAdapter

def adaptOptions (executionOptions : ExecutionOptions) (isIdempotent : Bool) : QueryOptions :=
  match executionOptions with
  | .none => ⟨none, none, none, isIdempotent, none⟩
  | .profile name => ⟨some name, none, none, isIdempotent, none⟩
  | .object executionProfile timestamp _ override =>
      ⟨executionProfile, timestamp, none, override.getD isIdempotent, none⟩

def adaptBatchOptions (executionOptions : ExecutionOptions) (isIdempotent : Bool) (isCounter : Option Bool) :
    QueryOptions :=
  match executionOptions with
  | .none => ⟨none, none, none, isIdempotent, isCounter⟩
  | .profile name => ⟨some name, none, none, isIdempotent, isCounter⟩
  | .object executionProfile timestamp logged override =>
      ⟨executionProfile, timestamp, some (logged ≠ some false), override.getD isIdempotent, isCounter⟩

end DocInfoAdapter

/-- A request to the client. -/
inductive Request (P : Type) where
  | execute (query : String) (params : P) (options : QueryOptions)
  | batch (queries : List (String × P)) (options : QueryOptions)

/-- What `_setSingleExecutor` and `_setBatchExecutor` create. -/
inductive Executor (V P : Type) where
  | single (queryInfo : QueryInfo V P)
  | batch (queries : Queries V P)

namespace Executor

def ofQueries : Queries V P → Executor V P
  | [queryInfo] => single queryInfo
  | queries => batch queries

/-- The request of an executor for a document and its `docInfo`. -/
def run (executor : Executor V P) (c : Call V) (executionOptions : ExecutionOptions) : Request P :=
  match executor with
  | single q => .execute q.query (q.paramsGetter c) (DocInfoAdapter.adaptOptions executionOptions q.isIdempotent)
  | batch queries => .batch (queries.map fun q => (q.query, q.paramsGetter c))
      (DocInfoAdapter.adaptOptions executionOptions (queries.all (·.isIdempotent)))

/-- The texts of the statements. -/
def texts : Executor V P → List String
  | single q => [q.query]
  | batch queries => queries.map (·.query)

end Executor

/-! ### Calls -/

namespace MappingHandler

/-- What a call gets. -/
inductive Result (V P : Type) where
  | executor (executor : Executor V P)
  /-- The call itself throws. -/
  | thrown (error : Error)
  | rejected (error : Error)
  /-- The client could not connect, or could not read the metadata. -/
  | notConnected

/-- A call that waits for the client, with what its promise settles with. -/
structure Pending (V P : Type) where
  kind : Kind
  call : Call V
  cacheItem : ℕ
  queries : Except Error (Queries V P)

structure Answer (V P : Type) where
  kind : Kind
  call : Call V
  result : Result V P

structure State (V P : Type) where
  items : CacheItems Kind Token (Executor V P)
  pending : List (Pending V P)
  answers : List (Answer V P)

def State.init : State V P := ⟨.new, [], []⟩

def State.answer (s : State V P) (kind : Kind) (call : Call V) (result : Result V P) : State V P :=
  { s with answers := s.answers ++ [⟨kind, call, result⟩] }

variable (h : MappingHandler V P)

/-- The executor of the cache item, or the start of its creation. -/
def getFromItem (s : State V P) (kind : Kind) (call : Call V) : Option ℕ → State V P
  | none => s.answer kind call (.thrown .type)
  | some cacheItem =>
      match s.items.content cacheItem with
      | some executor => s.answer kind call (.executor executor)
      | none =>
          match h.createQueries kind call with
          | .error e => s.answer kind call (.thrown e)
          | .ok queries => { s with pending := s.pending ++ [⟨kind, call, cacheItem, queries⟩] }

/-- `getInsertExecutor`, `getUpdateExecutor`, `getDeleteExecutor` -/
def getExecutor (s : State V P) (kind : Kind) (call : Call V) : State V P :=
  if call.doc.keys = [] then s.answer kind call (.rejected .expectedKeys)
  else
    let found := s.items.getOrCreate kind (Cache.getKey kind call)
    getFromItem h { s with items := found.2 } kind call found.1

/-- The promise of a call settles. -/
def settle (s : State V P) (p : Pending V P) (connected : Bool) : State V P :=
  if connected then
    match p.queries with
    | .ok queries =>
        { s with items := s.items.fill p.cacheItem (.ofQueries queries) }.answer p.kind p.call
          (.executor (.ofQueries queries))
    | .error e => s.answer p.kind p.call (.rejected e)
  else s.answer p.kind p.call .notConnected

inductive Action (V : Type) where
  | call (kind : Kind) (call : Call V)
  | settle (i : ℕ) (connected : Bool)

def step (s : State V P) : Action V → Option (State V P)
  | .call kind call => some (getExecutor h s kind call)
  | .settle i connected =>
      (s.pending[i]?).map fun p => settle { s with pending := s.pending.eraseIdx i } p connected

/-- What a call gets from a new mapper whose client is connected. -/
def fresh (kind : Kind) (call : Call V) : Result V P :=
  if call.doc.keys = [] then .rejected .expectedKeys
  else match h.createQueries kind call with
    | .error e => .thrown e
    | .ok (.error e) => .rejected e
    | .ok (.ok queries) => .executor (.ofQueries queries)

/-! ### What a step can do -/

/-- The items before a call, or after the lookup of its key. -/
def Opened (s : State V P) (kind : Kind) (call : Call V) (items : CacheItems Kind Token (Executor V P)) : Prop :=
  items = s.items ∨ items = (s.items.getOrCreate kind (Cache.getKey kind call)).2

theorem getKey_ne_nil (kind : Kind) {call : Call V} (hkeys : call.doc.keys ≠ []) :
    Cache.getKey kind call ≠ [] := by
  have hprops : call.doc.properties ≠ [] := fun hnil => hkeys (by rw [Document.keys, hnil]; rfl)
  obtain ⟨p, properties, hp⟩ := List.exists_cons_of_ne_nil hprops
  cases kind with
  | insert => simp [Cache.getKey, Cache.getInsertKey, Document.keys, hp]
  | update => simp [Cache.getKey, Cache.getUpdateKey, Cache.yieldKeyAndAllQs, hp]
  | remove => simp [Cache.getKey, Cache.getRemoveKey, Cache.yieldKeyAndOperators, hp]

/-- A call gets what a new mapper gives, or the executor under its key, or it waits. -/
theorem getExecutor_cases (s : State V P) (kind : Kind) (call : Call V) : ∃ items, Opened s kind call items ∧
    ((∃ result, (result = h.fresh kind call ∨
          ∃ executor, s.items.find kind (Cache.getKey kind call) = some executor ∧ result = .executor executor) ∧
        getExecutor h s kind call = { s with items }.answer kind call result) ∨
      ∃ cacheItem queries, items.lookup kind (Cache.getKey kind call) = some cacheItem ∧ call.doc.keys ≠ [] ∧
        h.createQueries kind call = .ok queries ∧
        getExecutor h s kind call =
          { s with items, pending := s.pending ++ [⟨kind, call, cacheItem, queries⟩] }) := by
  by_cases hkeys : call.doc.keys = []
  · refine ⟨s.items, .inl rfl, .inl ⟨h.fresh kind call, .inl rfl, ?_⟩⟩
    rw [getExecutor, fresh, if_pos hkeys, if_pos hkeys]
  · refine ⟨_, .inr rfl, ?_⟩
    obtain ⟨cacheItem, hitem⟩ := s.items.getOrCreate_ne_none kind (getKey_ne_nil kind hkeys)
    have hlookup := CacheItems.lookup_getOrCreate hitem
    have hcontent := CacheItems.content_of_getOrCreate hitem
    simp only [getExecutor, if_neg hkeys, hitem, getFromItem, hcontent]
    cases hfind : s.items.find kind (Cache.getKey kind call) with
    | some executor => exact .inl ⟨_, .inr ⟨executor, rfl, rfl⟩, rfl⟩
    | none =>
        cases hq : h.createQueries kind call with
        | error e =>
            refine .inl ⟨_, .inl ?_, rfl⟩
            rw [fresh, if_neg hkeys, hq]
        | ok queries => exact .inr ⟨cacheItem, queries, hlookup, hkeys, rfl, rfl⟩

/-! ### The invariant -/

/-- The executors and answers of a run come from calls of the run with the same key. -/
structure Inv (history : List (Action V)) (s : State V P) : Prop where
  found : ∀ {kind key executor}, s.items.find kind key = some executor →
    ∃ c, .call kind c ∈ history ∧ Cache.getKey kind c = key ∧ h.fresh kind c = .executor executor
  pending : ∀ p ∈ s.pending, .call p.kind p.call ∈ history ∧ p.call.doc.keys ≠ [] ∧
    s.items.lookup p.kind (Cache.getKey p.kind p.call) = some p.cacheItem ∧
    h.createQueries p.kind p.call = .ok p.queries
  answered : ∀ a ∈ s.answers, .call a.kind a.call ∈ history ∧ (a.result = .notConnected ∨
    ∃ c, .call a.kind c ∈ history ∧ Cache.getKey a.kind c = Cache.getKey a.kind a.call ∧
      a.result = h.fresh a.kind c)

namespace Inv

variable {h} {history : List (Action V)} {s : State V P}

theorem init : Inv h [] (State.init : State V P) :=
  ⟨fun hfind => by simp [State.init] at hfind, by simp [State.init], by simp [State.init]⟩

theorem mono {history' : List (Action V)} (hs : Inv h history s) (hsub : ∀ a ∈ history, a ∈ history') :
    Inv h history' s where
  found hfind := by
    obtain ⟨c, hc, hrest⟩ := hs.found hfind
    exact ⟨c, hsub _ hc, hrest⟩
  pending p hp := by
    obtain ⟨hc, hrest⟩ := hs.pending p hp
    exact ⟨hsub _ hc, hrest⟩
  answered a ha := by
    obtain ⟨hc, hresult⟩ := hs.answered a ha
    refine ⟨hsub _ hc, hresult.imp_right ?_⟩
    rintro ⟨c, hc, hrest⟩
    exact ⟨c, hsub _ hc, hrest⟩

theorem answer (hs : Inv h history s) {kind : Kind} {call : Call V} {result : Result V P}
    (hcall : .call kind call ∈ history) (hresult : result = .notConnected ∨ ∃ c, .call kind c ∈ history ∧
      Cache.getKey kind c = Cache.getKey kind call ∧ result = h.fresh kind c) :
    Inv h history (s.answer kind call result) where
  found := hs.found
  pending := hs.pending
  answered a ha := by
    obtain ha | ha := List.mem_append.1 ha
    · exact hs.answered a ha
    · rw [List.mem_singleton.1 ha]
      exact ⟨hcall, hresult⟩

theorem opened (hs : Inv h history s) {kind : Kind} {call : Call V} {items : CacheItems Kind Token (Executor V P)}
    (hitems : Opened s kind call items) : Inv h history { s with items } := by
  obtain rfl | rfl := hitems
  · exact hs
  · refine ⟨fun hfind => ?_, fun p hp => ?_, hs.answered⟩
    · rw [CacheItems.find_getOrCreate] at hfind
      exact hs.found hfind
    · obtain ⟨hc, hkeys, hlookup, hq⟩ := hs.pending p hp
      exact ⟨hc, hkeys, CacheItems.lookup_mono hlookup, hq⟩

theorem call (hs : Inv h history s) {kind : Kind} {c : Call V} (hc : .call kind c ∈ history) :
    Inv h history (getExecutor h s kind c) := by
  obtain ⟨items, hopened, ⟨result, hresult, heq⟩ | ⟨cacheItem, queries, hlookup, hkeys, hq, heq⟩⟩ :=
    getExecutor_cases h s kind c
  · rw [heq]
    apply (hs.opened hopened).answer hc
    obtain rfl | ⟨executor, hfind, rfl⟩ := hresult
    · exact .inr ⟨c, hc, rfl, rfl⟩
    · obtain ⟨c', hc', hkey, hfresh⟩ := hs.found hfind
      exact .inr ⟨c', hc', hkey, hfresh.symm⟩
  · rw [heq]
    have hs' := hs.opened hopened
    refine ⟨hs'.found, fun p hp => ?_, hs'.answered⟩
    obtain hp | hp := List.mem_append.1 hp
    · exact hs'.pending p hp
    · rw [List.mem_singleton.1 hp]
      exact ⟨hc, hkeys, hlookup, hq⟩

theorem fill (hs : Inv h history s) {p : Pending V P} {queries : Queries V P}
    (hcall : .call p.kind p.call ∈ history)
    (hlookup : s.items.lookup p.kind (Cache.getKey p.kind p.call) = some p.cacheItem)
    (hfresh : h.fresh p.kind p.call = .executor (.ofQueries queries)) :
    Inv h history { s with items := s.items.fill p.cacheItem (.ofQueries queries) } where
  found {kind key executor} hfind := by
    obtain ⟨rfl, rfl, rfl⟩ | hfind := CacheItems.find_fill_cases hlookup hfind
    · exact ⟨p.call, hcall, rfl, hfresh⟩
    · exact hs.found hfind
  pending := hs.pending
  answered := hs.answered

theorem settle (hs : Inv h history s) {p : Pending V P} (hp : p ∈ s.pending) (pending : List (Pending V P))
    (hsub : ∀ q ∈ pending, q ∈ s.pending) (connected : Bool) :
    Inv h history (MappingHandler.settle { s with pending } p connected) := by
  obtain ⟨hcall, hkeys, hlookup, hq⟩ := hs.pending p hp
  have hs' : Inv h history { s with pending } := ⟨hs.found, fun q hmem => hs.pending q (hsub q hmem), hs.answered⟩
  unfold MappingHandler.settle
  split_ifs
  · cases hqueries : p.queries with
    | ok queries =>
        have hfresh : h.fresh p.kind p.call = .executor (.ofQueries queries) := by
          rw [fresh, if_neg hkeys, hq, hqueries]
        exact (hs'.fill hcall hlookup hfresh).answer hcall (.inr ⟨p.call, hcall, rfl, hfresh.symm⟩)
    | error e =>
        refine hs'.answer hcall (.inr ⟨p.call, hcall, rfl, ?_⟩)
        rw [fresh, if_neg hkeys, hq, hqueries]
  · exact hs'.answer hcall (.inl rfl)

theorem step {s' : State V P} {a : Action V} (hs : Inv h history s) (hstep : step h s a = some s') :
    Inv h (history ++ [a]) s' := by
  have hs := hs.mono fun b hb => List.mem_append_left [a] hb
  cases a with
  | call kind c =>
      cases hstep
      exact hs.call (List.mem_append_right _ (List.mem_singleton.2 rfl))
  | settle i connected =>
      obtain ⟨p, hp, rfl⟩ := Option.map_eq_some_iff.1 hstep
      exact hs.settle (List.mem_of_getElem? hp) _ (fun q hq => List.mem_of_mem_eraseIdx hq) connected

theorem of_run {actions : List (Action V)} (hrun : TransitionSystem.Run (MappingHandler.step h) .init actions s) :
    Inv h actions s :=
  hrun.history init fun _ _ _ _ hs hstep => hs.step hstep

end Inv

/-! ### Transparency -/

/-- The names in the updates and removes of a run are none of the other tokens. -/
def PlainCalls (actions : List (Action V)) : Prop :=
  ∀ kind c, .call kind c ∈ actions → kind ≠ .insert → Cache.Plain c

/-- Updates with one key have the same number of conditions, and so have removes. -/
def SameWhenCount (actions : List (Action V)) : Prop :=
  ∀ kind c c', .call kind c ∈ actions → .call kind c' ∈ actions → kind ≠ .insert →
    Cache.getKey kind c = Cache.getKey kind c' → Cache.whenCount c = Cache.whenCount c'

/-- Updates and removes get what a new mapper would give them. -/
def AnswersFresh (s : State V P) : Prop :=
  ∀ a ∈ s.answers, a.kind ≠ .insert → a.result = h.fresh a.kind a.call ∨ a.result = .notConnected

theorem fresh_eq_of_key {kind : Kind} (hkind : kind ≠ .insert) {c c' : Call V} (hc : Cache.Plain c)
    (hc' : Cache.Plain c') (hwhen : Cache.whenCount c = Cache.whenCount c')
    (hkey : Cache.getKey kind c = Cache.getKey kind c') : h.fresh kind c = h.fresh kind c' := by
  unfold fresh
  rw [createQueries_eq_of_shape h kind (Cache.shape_eq_of_key hkind hc hc' hwhen hkey),
    Cache.keys_eq_of_key hkind hc hc' hwhen hkey]

/-- The parameters that the statements below take from a call. -/
abbrev UserParams := List (Option (DocValue ℕ))

/-- A table with the primary key `id` and two more columns. -/
def usersTable : TableMetadata :=
  let columns : List ColumnInfo := [⟨"id", .other, false⟩, ⟨"a", .other, false⟩, ⟨"b", .other, false⟩]
  { name := "users", partitionKeys := ["id"], clusteringKeys := [], columns
    columnsByName := columns.map fun column => (column.name, column) }

/-- The scripts of the statements below. -/
def usersScripts : List (String × (Call ℕ → UserParams)) :=
  [("(function getParametersUpdate(doc, docInfo, mappingInfo) \x7b\n  return [doc['a'], doc['b'], doc['id']];\n\x7d)",
      fun c => [c.doc.get "a", c.doc.get "b", c.doc.get "id"]),
    ("(function getParametersUpdate(doc, docInfo, mappingInfo) \x7b\n  return [doc['a'], doc['id'], " ++
        "docInfo.when['b']];\n\x7d)",
      fun c => [c.doc.get "a", c.doc.get "id", c.info.when.get "b"]),
    ("(function getParametersDelete(doc, docInfo, mappingInfo) \x7b\n  return [doc['id']];\n\x7d)",
      fun c => [c.doc.get "id"])]

def users : MappingHandler ℕ UserParams where
  info := { keyspace := "ks", tables := [⟨"users", false⟩], mappings := id, columns := [] }
  getTable keyspace name := if keyspace = "ks" ∧ name = "users" then some usersTable else none
  runInThisContext scriptText := usersScripts.lookup scriptText

/-- A document with plain values, without conditions. -/
def userDoc (id a b : ℕ) : Call ℕ where
  doc := ⟨[("id", .plain id), ("a", .plain a), ("b", .plain b)], by simp⟩
  docInfo := none

/-- The same names, the last one in a condition. -/
def userDocWhen (id a b : ℕ) : Call ℕ where
  doc := ⟨[("id", .plain id), ("a", .plain a)], by simp⟩
  docInfo := some { when := ⟨[("b", .plain b)], by simp⟩ }

/-- The texts of the statements of a call. -/
def Result.texts : Result V P → Option (List String)
  | executor e => some e.texts
  | _ => none

/-- Two updates with one key, and a remove. -/
def usersRun : List (Action ℕ) :=
  [.call .update (userDoc 1 2 3), .settle 0 true, .call .update (userDoc 4 5 6), .call .remove (userDoc 4 5 6),
    .settle 0 true]

theorem plain_userDoc (id a b : ℕ) : Cache.Plain (userDoc id a b) where
  doc := (by decide : Cache.PlainNames ["id", "a", "b"])
  fields := (by decide : Cache.PlainNames [])
  when := (by decide : Cache.PlainNames [])

theorem plain_userDocWhen (id a b : ℕ) : Cache.Plain (userDocWhen id a b) where
  doc := (by decide : Cache.PlainNames ["id", "a"])
  fields := (by decide : Cache.PlainNames [])
  when := (by decide : Cache.PlainNames ["b"])

theorem mem_usersRun {kind : Kind} {c : Call ℕ} (hmem : .call kind c ∈ usersRun) :
    ∃ id a b, c = userDoc id a b := by
  simp only [usersRun, List.mem_cons, Action.call.injEq, reduceCtorEq, List.not_mem_nil, or_false, false_or] at hmem
  obtain ⟨-, rfl⟩ | ⟨-, rfl⟩ | ⟨-, rfl⟩ := hmem
  · exact ⟨1, 2, 3, rfl⟩
  · exact ⟨4, 5, 6, rfl⟩
  · exact ⟨4, 5, 6, rfl⟩

theorem usersRun_texts :
    (TransitionSystem.exec (step users) .init usersRun).map (fun s => s.answers.map (·.result.texts)) =
      some [some ["UPDATE ks.users SET \"a\" = ?, \"b\" = ? WHERE \"id\" = ?"],
        some ["UPDATE ks.users SET \"a\" = ?, \"b\" = ? WHERE \"id\" = ?"],
        some ["DELETE FROM ks.users WHERE \"id\" = ?"]] := by decide +kernel

/-- The name `b` stands in the document first, then in the condition. -/
def movedName : List (Action ℕ) :=
  [.call .update (userDoc 1 2 3), .settle 0 true, .call .update (userDocWhen 1 2 3)]

/-- The last call gets the statement of the first one. -/
theorem movedName_texts : (TransitionSystem.exec (step users) .init movedName).map (fun s =>
      s.answers.map fun a => (a.kind, a.result.texts, (users.fresh a.kind a.call).texts)) =
    some [(.update, some ["UPDATE ks.users SET \"a\" = ?, \"b\" = ? WHERE \"id\" = ?"],
        some ["UPDATE ks.users SET \"a\" = ?, \"b\" = ? WHERE \"id\" = ?"]),
      (.update, some ["UPDATE ks.users SET \"a\" = ?, \"b\" = ? WHERE \"id\" = ?"],
        some ["UPDATE ks.users SET \"a\" = ? WHERE \"id\" = ? IF \"b\" = ?"])] := by decide +kernel

end MappingHandler
end CqlDriver.Mapping
