import CqlDriver.Lib.Fallible
import CqlDriver.Lib.TransitionSystem
import CqlDriver.Mapping.CacheItems
import CqlDriver.Mapping.Select
import CqlDriver.Mapping.ValidStatements

/-! # Executors of selects (`lib/mapping/mapping-handler.js`)

`get` and `find` ask `getSelectExecutor` for an executor under the key of the call.  `get` wants a table whose primary
key is given in full, but the key does not say who asked: an executor is there for both.  In every run the executor a
call gets is the one a new mapper would create for some call with the same key (`Inv.of_run`), which is what a new
mapper would give the call itself as long as the calls with one key may share it (`answersFresh_of_reusable`). -/

namespace CqlDriver.Mapping

variable {V P : Type}

/-- What an executor has in its closure. -/
structure SelectExecutor (V P : Type) where
  tableName : String
  query : String
  paramsGetter : SelectCall V → P

/-- A handler with the metadata of the client and the runtime. -/
structure SelectHandler (V P : Type) where
  info : ModelMappingInfo
  /-- `client.metadata.getTable` -/
  getTable : String → String → Option TableMetadata
  /-- `client.metadata.getMaterializedView` -/
  getMaterializedView : String → String → Option TableMetadata
  runInThisContext : String → Option (SelectCall V → P)

/-- A call of `get`, with `allPKsDefined`, or of `find`. -/
structure SelectRequest (V : Type) where
  allPKsDefined : Bool
  call : SelectCall V

def SelectRequest.key (r : SelectRequest V) : List Token := Cache.getSelectKey r.call

namespace SelectHandler

open ObjectSelector QueryGenerator

variable (h : SelectHandler V P)

/-- The table for a request. -/
def selectTable (r : SelectRequest V) (orderByColumns : List (String × String)) : Except SelectError TableMetadata :=
  getForSelect h.getTable h.getMaterializedView h.info r.allPKsDefined (r.call.propertiesInfo h.info)
    (r.call.fieldsInfo h.info) orderByColumns

/-- The part of `getSelectExecutor` behind `connect`. -/
def createExecutor (r : SelectRequest V) (orderByColumns : List (String × String)) :
    Except SelectError (SelectExecutor V P) := do
  let table ← h.selectTable r orderByColumns
  let paramsGetter ← selectParamsGetter h.runInThisContext (r.call.propertiesInfo h.info) r.call.info.limit.isSome
  return { tableName := table.name
           query := getSelect table.name h.info.keyspace (r.call.propertiesInfo h.info) (r.call.fieldsInfo h.info)
             orderByColumns r.call.info.limit.isSome
           paramsGetter }

/-- The error that is thrown, or what the promise settles with once the client is connected. -/
def create (r : SelectRequest V) : Except SelectError (Except SelectError (SelectExecutor V P)) :=
  (DocInfoAdapter.adaptOrderBy r.call.info h.info).map (h.createExecutor r)

/-- What a request gets. -/
inductive Result (V P : Type) where
  | executor (executor : SelectExecutor V P)
  /-- The call itself throws. -/
  | thrown (error : SelectError)
  | rejected (error : SelectError)
  /-- The client could not connect, or could not read the metadata. -/
  | notConnected

/-- A request that waits for the client, with what its promise settles with. -/
structure Pending (V P : Type) where
  request : SelectRequest V
  cacheItem : ℕ
  outcome : Except SelectError (SelectExecutor V P)

structure Answer (V P : Type) where
  request : SelectRequest V
  result : Result V P

/-- One tree holds the items of all selects. -/
structure State (V P : Type) where
  items : CacheItems Unit Token (SelectExecutor V P)
  pending : List (Pending V P)
  answers : List (Answer V P)

def State.init : State V P := ⟨.new, [], []⟩

def State.answer (s : State V P) (request : SelectRequest V) (result : Result V P) : State V P :=
  { s with answers := s.answers ++ [⟨request, result⟩] }

/-- The executor of the cache item, or the start of its creation. -/
def getFromItem (s : State V P) (r : SelectRequest V) : Option ℕ → State V P
  | none => s.answer r (.thrown .type)
  | some cacheItem =>
      match s.items.content cacheItem with
      | some executor => s.answer r (.executor executor)
      | none =>
          match h.create r with
          | .error e => s.answer r (.thrown e)
          | .ok outcome => { s with pending := s.pending ++ [⟨r, cacheItem, outcome⟩] }

def getSelectExecutor (s : State V P) (r : SelectRequest V) : State V P :=
  if r.call.doc.keys = [] then s.answer r (.rejected .expectedKeys)
  else
    let found := s.items.getOrCreate () r.key
    getFromItem h { s with items := found.2 } r found.1

/-- The promise of a request settles. -/
def settle (s : State V P) (p : Pending V P) (connected : Bool) : State V P :=
  if connected then
    match p.outcome with
    | .ok executor => { s with items := s.items.fill p.cacheItem executor }.answer p.request (.executor executor)
    | .error e => s.answer p.request (.rejected e)
  else s.answer p.request .notConnected

inductive Action (V : Type) where
  | call (request : SelectRequest V)
  | settle (i : ℕ) (connected : Bool)

def step (s : State V P) : Action V → Option (State V P)
  | .call request => some (getSelectExecutor h s request)
  | .settle i connected =>
      (s.pending[i]?).map fun p => settle { s with pending := s.pending.eraseIdx i } p connected

/-- What a request gets from a new mapper whose client is connected. -/
def fresh (r : SelectRequest V) : Result V P :=
  if r.call.doc.keys = [] then .rejected .expectedKeys
  else match h.create r with
    | .error e => .thrown e
    | .ok (.error e) => .rejected e
    | .ok (.ok executor) => .executor executor

/-! ### What a step can do -/

/-- The items before a request, or after the lookup of its key. -/
def Opened (s : State V P) (r : SelectRequest V) (items : CacheItems Unit Token (SelectExecutor V P)) : Prop :=
  items = s.items ∨ items = (s.items.getOrCreate () r.key).2

theorem key_ne_nil {r : SelectRequest V} (hkeys : r.call.doc.keys ≠ []) : r.key ≠ [] := by
  have hprops : r.call.doc.properties ≠ [] := fun hnil => hkeys (by rw [Document.keys, hnil]; rfl)
  obtain ⟨p, properties, hp⟩ := List.exists_cons_of_ne_nil hprops
  simp [SelectRequest.key, Cache.getSelectKey, Cache.yieldKeyAndOperators, hp]

/-- A request gets what a new mapper gives, or the executor under its key, or it waits. -/
theorem getSelectExecutor_cases (s : State V P) (r : SelectRequest V) : ∃ items, Opened s r items ∧
    ((∃ result, (result = h.fresh r ∨
          ∃ executor, s.items.find () r.key = some executor ∧ result = .executor executor) ∧
        getSelectExecutor h s r = { s with items }.answer r result) ∨
      ∃ cacheItem outcome, items.lookup () r.key = some cacheItem ∧ r.call.doc.keys ≠ [] ∧
        h.create r = .ok outcome ∧
        getSelectExecutor h s r = { s with items, pending := s.pending ++ [⟨r, cacheItem, outcome⟩] }) := by
  by_cases hkeys : r.call.doc.keys = []
  · refine ⟨s.items, .inl rfl, .inl ⟨h.fresh r, .inl rfl, ?_⟩⟩
    rw [getSelectExecutor, fresh, if_pos hkeys, if_pos hkeys]
  · refine ⟨_, .inr rfl, ?_⟩
    obtain ⟨cacheItem, hitem⟩ := s.items.getOrCreate_ne_none () (key_ne_nil hkeys)
    have hlookup := CacheItems.lookup_getOrCreate hitem
    have hcontent := CacheItems.content_of_getOrCreate hitem
    simp only [getSelectExecutor, if_neg hkeys, hitem, getFromItem, hcontent]
    cases hfind : s.items.find () r.key with
    | some executor => exact .inl ⟨_, .inr ⟨executor, rfl, rfl⟩, rfl⟩
    | none =>
        cases hcreate : h.create r with
        | error e =>
            refine .inl ⟨_, .inl ?_, rfl⟩
            rw [fresh, if_neg hkeys, hcreate]
        | ok outcome => exact .inr ⟨cacheItem, outcome, hlookup, hkeys, rfl, rfl⟩

/-! ### The invariant -/

/-- The executors and answers of a run come from requests of the run with the same key. -/
structure Inv (history : List (Action V)) (s : State V P) : Prop where
  found : ∀ {key executor}, s.items.find () key = some executor →
    ∃ r, .call r ∈ history ∧ r.key = key ∧ h.fresh r = .executor executor
  pending : ∀ p ∈ s.pending, .call p.request ∈ history ∧ p.request.call.doc.keys ≠ [] ∧
    s.items.lookup () p.request.key = some p.cacheItem ∧ h.create p.request = .ok p.outcome
  answered : ∀ a ∈ s.answers, .call a.request ∈ history ∧ (a.result = .notConnected ∨ a.result = h.fresh a.request ∨
    ∃ r executor, .call r ∈ history ∧ r.key = a.request.key ∧ h.fresh r = .executor executor ∧
      a.result = .executor executor)

namespace Inv

variable {h} {history : List (Action V)} {s : State V P}

theorem init : Inv h [] (State.init : State V P) :=
  ⟨fun hfind => by simp [State.init] at hfind, by simp [State.init], by simp [State.init]⟩

theorem mono {history' : List (Action V)} (hs : Inv h history s) (hsub : ∀ a ∈ history, a ∈ history') :
    Inv h history' s where
  found hfind := by
    obtain ⟨r, hr, hrest⟩ := hs.found hfind
    exact ⟨r, hsub _ hr, hrest⟩
  pending p hp := by
    obtain ⟨hr, hrest⟩ := hs.pending p hp
    exact ⟨hsub _ hr, hrest⟩
  answered a ha := by
    obtain ⟨hr, hresult⟩ := hs.answered a ha
    refine ⟨hsub _ hr, hresult.imp_right (Or.imp_right ?_)⟩
    rintro ⟨r, executor, hr, hrest⟩
    exact ⟨r, executor, hsub _ hr, hrest⟩

theorem answer (hs : Inv h history s) {r : SelectRequest V} {result : Result V P} (hr : .call r ∈ history)
    (hresult : result = .notConnected ∨ result = h.fresh r ∨ ∃ r' executor, .call r' ∈ history ∧ r'.key = r.key ∧
      h.fresh r' = .executor executor ∧ result = .executor executor) :
    Inv h history (s.answer r result) where
  found := hs.found
  pending := hs.pending
  answered a ha := by
    obtain ha | ha := List.mem_append.1 ha
    · exact hs.answered a ha
    · rw [List.mem_singleton.1 ha]
      exact ⟨hr, hresult⟩

theorem opened (hs : Inv h history s) {r : SelectRequest V} {items : CacheItems Unit Token (SelectExecutor V P)}
    (hitems : Opened s r items) : Inv h history { s with items } := by
  obtain rfl | rfl := hitems
  · exact hs
  · refine ⟨fun hfind => ?_, fun p hp => ?_, hs.answered⟩
    · rw [CacheItems.find_getOrCreate] at hfind
      exact hs.found hfind
    · obtain ⟨hr, hkeys, hlookup, hcreate⟩ := hs.pending p hp
      exact ⟨hr, hkeys, CacheItems.lookup_mono hlookup, hcreate⟩

theorem call (hs : Inv h history s) {r : SelectRequest V} (hr : .call r ∈ history) :
    Inv h history (getSelectExecutor h s r) := by
  obtain ⟨items, hopened, ⟨result, hresult, heq⟩ | ⟨cacheItem, outcome, hlookup, hkeys, hcreate, heq⟩⟩ :=
    getSelectExecutor_cases h s r
  · rw [heq]
    apply (hs.opened hopened).answer hr
    obtain rfl | ⟨executor, hfind, rfl⟩ := hresult
    · exact .inr (.inl rfl)
    · obtain ⟨r', hr', hkey, hfresh⟩ := hs.found hfind
      exact .inr (.inr ⟨r', executor, hr', hkey, hfresh, rfl⟩)
  · rw [heq]
    have hs' := hs.opened hopened
    refine ⟨hs'.found, fun p hp => ?_, hs'.answered⟩
    obtain hp | hp := List.mem_append.1 hp
    · exact hs'.pending p hp
    · rw [List.mem_singleton.1 hp]
      exact ⟨hr, hkeys, hlookup, hcreate⟩

theorem fill (hs : Inv h history s) {p : Pending V P} {executor : SelectExecutor V P}
    (hr : .call p.request ∈ history) (hlookup : s.items.lookup () p.request.key = some p.cacheItem)
    (hfresh : h.fresh p.request = .executor executor) :
    Inv h history { s with items := s.items.fill p.cacheItem executor } where
  found {key executor'} hfind := by
    obtain ⟨-, rfl, rfl⟩ | hfind := CacheItems.find_fill_cases hlookup hfind
    · exact ⟨p.request, hr, rfl, hfresh⟩
    · exact hs.found hfind
  pending := hs.pending
  answered := hs.answered

theorem settle (hs : Inv h history s) {p : Pending V P} (hp : p ∈ s.pending) (pending : List (Pending V P))
    (hsub : ∀ q ∈ pending, q ∈ s.pending) (connected : Bool) :
    Inv h history (SelectHandler.settle { s with pending } p connected) := by
  obtain ⟨hr, hkeys, hlookup, hcreate⟩ := hs.pending p hp
  have hs' : Inv h history { s with pending } := ⟨hs.found, fun q hmem => hs.pending q (hsub q hmem), hs.answered⟩
  unfold SelectHandler.settle
  split_ifs
  · cases houtcome : p.outcome with
    | ok executor =>
        have hfresh : h.fresh p.request = .executor executor := by
          rw [fresh, if_neg hkeys, hcreate, houtcome]
        exact (hs'.fill hr hlookup hfresh).answer hr (.inr (.inl hfresh.symm))
    | error e =>
        refine hs'.answer hr (.inr (.inl ?_))
        rw [fresh, if_neg hkeys, hcreate, houtcome]
  · exact hs'.answer hr (.inl rfl)

theorem step {s' : State V P} {a : Action V} (hs : Inv h history s) (hstep : step h s a = some s') :
    Inv h (history ++ [a]) s' := by
  have hs := hs.mono fun b hb => List.mem_append_left [a] hb
  cases a with
  | call r =>
      cases hstep
      exact hs.call (List.mem_append_right _ (List.mem_singleton.2 rfl))
  | settle i connected =>
      obtain ⟨p, hp, rfl⟩ := Option.map_eq_some_iff.1 hstep
      exact hs.settle (List.mem_of_getElem? hp) _ (fun q hq => List.mem_of_mem_eraseIdx hq) connected

theorem of_run {actions : List (Action V)} (hrun : TransitionSystem.Run (SelectHandler.step h) .init actions s) :
    Inv h actions s :=
  hrun.history init fun _ _ _ _ hs hstep => hs.step hstep

end Inv

/-! ### Who may share an executor -/

/-- The first table of the model that suits a request. -/
def Selects (r : SelectRequest V) (table : TableMetadata) : Prop :=
  ∃ orderByColumns, DocInfoAdapter.adaptOrderBy r.call.info h.info = .ok orderByColumns ∧
    h.selectTable r orderByColumns = .ok table

/-- The request `r'` may get what `r` creates: it has the same shape, and if `get` follows `find`, the table that suits
`find` has all its clustering keys in the document. -/
def Reusable (r r' : SelectRequest V) : Prop :=
  ∀ table, h.Selects r table → Cache.SameShape r.call r'.call ∧
    (r.allPKsDefined = false → r'.allPKsDefined = true →
      keysAreIncluded table.clusteringKeys (r.call.propertiesInfo h.info) = .all)

/-- The requests of a run that have one key may share an executor, and no two properties of a `get` have one
clustering key of its table. -/
structure Compatible (actions : List (Action V)) : Prop where
  reusable : ∀ r r', .call r ∈ actions → .call r' ∈ actions → r.key = r'.key → Reusable h r r'
  once : ∀ r, .call r ∈ actions → r.allPKsDefined = true → ∀ table, h.Selects r table →
    NamesOnce table.clusteringKeys (r.call.propertiesInfo h.info)

/-- A request gets what a new mapper would give it, and for `get` that is a statement for a table all of whose
clustering keys are given. -/
structure AnsweredFresh (a : Answer V P) : Prop where
  result : a.result = .notConnected ∨ a.result = h.fresh a.request
  keys : a.request.allPKsDefined = true → ∀ executor, a.result = .executor executor →
    ∃ table, h.Selects a.request table ∧ table.name = executor.tableName ∧
      NamesAll table.clusteringKeys (a.request.call.propertiesInfo h.info)

theorem isForSelect_get_iff {ps fields : List PropertyInfo} {orderByColumns : List (String × String)}
    {table : TableMetadata} : isForSelect true ps fields orderByColumns table = true ↔
      isForSelect false ps fields orderByColumns table = true ∧ keysAreIncluded table.clusteringKeys ps = .all := by
  unfold isForSelect
  by_cases hkeys : keysAreIncluded table.clusteringKeys ps = .all
  · simp [hkeys]
  · simp [hkeys]

section FirstTable

variable {isFor isFor' : TableMetadata → Bool} {e e' : SelectError} {table : TableMetadata}

theorem of_firstTable : ∀ {tables : List (Option TableMetadata × String)},
    firstTable isFor e tables = .ok table → isFor table = true
  | (some table', _) :: tables, h => by
      rw [firstTable] at h
      split_ifs at h with hfor
      · cases h
        exact hfor
      · exact of_firstTable h

/-- With more conditions, the first table stays the first one if it meets them. -/
theorem firstTable_of_imp (himp : ∀ table, isFor' table = true → isFor table = true) (hfor' : isFor' table = true) :
    ∀ {tables : List (Option TableMetadata × String)}, firstTable isFor e tables = .ok table →
      firstTable isFor' e' tables = .ok table
  | (some table', _) :: tables, h => by
      rw [firstTable] at h ⊢
      split_ifs at h with hfor
      · cases h
        rw [if_pos hfor']
      · rw [if_neg fun hfor' => hfor (himp table' hfor')]
        exact firstTable_of_imp himp hfor' h

/-- With fewer conditions, there is a table if there is one with more. -/
theorem exists_firstTable (himp : ∀ table, isFor' table = true → isFor table = true) :
    ∀ {tables : List (Option TableMetadata × String)}, firstTable isFor' e' tables = .ok table →
      ∃ table', firstTable isFor e tables = .ok table'
  | (some table', _) :: tables, h => by
      rw [firstTable] at h ⊢
      split_ifs at h with hfor'
      · rw [if_pos (himp table' hfor')]
        exact ⟨table', rfl⟩
      · split_ifs
        · exact ⟨table', rfl⟩
        · exact exists_firstTable himp h

end FirstTable

variable {h} {r r' : SelectRequest V} {executor : SelectExecutor V P}

/-- What a new mapper creates is for the table that suits the request. -/
theorem selects_of_fresh (hr : h.fresh r = .executor executor) : r.call.doc.keys ≠ [] ∧
    ∃ orderByColumns table, DocInfoAdapter.adaptOrderBy r.call.info h.info = .ok orderByColumns ∧
      h.selectTable r orderByColumns = .ok table ∧ table.name = executor.tableName ∧
      h.createExecutor r orderByColumns = .ok executor := by
  rw [fresh] at hr
  split_ifs at hr with hkeys
  refine ⟨hkeys, ?_⟩
  cases hcreate : h.create r with
  | error e =>
      rw [hcreate] at hr
      cases hr
  | ok outcome =>
      obtain ⟨orderByColumns, horder, hexecutor⟩ := Fallible.map_eq_ok hcreate
      rw [hcreate] at hr
      cases outcome with
      | error e => cases hr
      | ok executor' =>
          cases hr
          obtain ⟨table, htable, hrest⟩ := Fallible.bind_eq_ok hexecutor
          obtain ⟨paramsGetter, -, hrest⟩ := Fallible.bind_eq_ok hrest
          cases hrest
          exact ⟨orderByColumns, table, horder, htable, rfl, hexecutor⟩

/-- Requests of one shape suit one table, if the flag makes no difference. -/
theorem selectTable_eq_of_reusable {orderByColumns : List (String × String)} {table : TableMetadata}
    (horder : DocInfoAdapter.adaptOrderBy r.call.info h.info = .ok orderByColumns)
    (htable : h.selectTable r orderByColumns = .ok table) (hr : Reusable h r r') (hr' : Reusable h r' r) :
    h.selectTable r' orderByColumns = .ok table := by
  obtain ⟨hshape, hkeys⟩ := hr table ⟨orderByColumns, horder, htable⟩
  have himp (table : TableMetadata) : isForSelect true (r.call.propertiesInfo h.info) (r.call.fieldsInfo h.info)
        orderByColumns table = true →
      isForSelect false (r.call.propertiesInfo h.info) (r.call.fieldsInfo h.info) orderByColumns table = true :=
    fun hfor => (isForSelect_get_iff.1 hfor).1
  have hselect (allPKsDefined : Bool) : h.selectTable ⟨allPKsDefined, r'.call⟩ orderByColumns =
      h.selectTable ⟨allPKsDefined, r.call⟩ orderByColumns := by
    rw [selectTable, ← getForSelect_forget, ← hshape.propertiesInfo, ← hshape.fieldsInfo, getForSelect_forget]
    rfl
  obtain ⟨flag, c⟩ := r
  obtain ⟨flag', c'⟩ := r'
  rw [hselect]
  cases flag <;> cases flag'
  · exact htable
  · -- `get` after `find`
    exact firstTable_of_imp himp (isForSelect_get_iff.2 ⟨of_firstTable htable, hkeys rfl rfl⟩) htable
  · -- `find` after `get`: the table that suits `find` would do for `get`
    obtain ⟨table', htable'⟩ := exists_firstTable himp htable
    have hkeys' := (hr' table' ⟨orderByColumns, by rw [← horder, hshape.adaptOrderBy], by rw [hselect]; exact htable'⟩).2
      rfl rfl
    rw [← keysAreIncluded_forget, ← hshape.propertiesInfo, keysAreIncluded_forget] at hkeys'
    have hget : h.selectTable ⟨true, c⟩ orderByColumns = .ok table' :=
      firstTable_of_imp himp (isForSelect_get_iff.2 ⟨of_firstTable htable', hkeys'⟩) htable'
    obtain rfl := Except.ok.inj (htable.symm.trans hget)
    exact htable'
  · exact htable

/-- What is created for a request is what a new mapper gives to those that may share it. -/
theorem fresh_of_reusable (hfresh : h.fresh r = .executor executor) (hr : Reusable h r r') (hr' : Reusable h r' r) :
    h.fresh r' = .executor executor := by
  obtain ⟨hkeys, orderByColumns, table, horder, htable, -, hcreate⟩ := selects_of_fresh hfresh
  obtain ⟨hshape, -⟩ := hr table ⟨orderByColumns, horder, htable⟩
  have htable' := selectTable_eq_of_reusable horder htable hr hr'
  have hcreate' : h.createExecutor r' orderByColumns = .ok executor := by
    rw [createExecutor, htable', ← hshape.selectParamsGetter, ← hcreate, createExecutor, htable]
    simp only [hshape.getSelect]
  have hkeys' : r'.call.doc.keys ≠ [] := by
    rwa [← Cache.keys_eq_of_operatorItems hshape.items]
  rw [fresh, if_neg hkeys', create, ← hshape.adaptOrderBy, horder, Except.map, hcreate']

theorem answeredFresh_of_compatible {actions : List (Action V)} {s : State V P}
    (hrun : TransitionSystem.Run (step h) .init actions s) (hactions : Compatible h actions) :
    ∀ a ∈ s.answers, AnsweredFresh h a := by
  intro a ha
  obtain ⟨hcall, hresult⟩ := (Inv.of_run hrun).answered a ha
  have hfresh : a.result = .notConnected ∨ a.result = h.fresh a.request := by
    apply hresult.imp_right
    intro hresult
    obtain hresult | ⟨r, executor, hr, hkey, hfresh, hresult⟩ := hresult
    · exact hresult
    · rw [hresult, fresh_of_reusable hfresh (hactions.reusable r a.request hr hcall hkey)
        (hactions.reusable a.request r hcall hr hkey.symm)]
  refine ⟨hfresh, fun hget executor hexecutor => ?_⟩
  obtain hnot | hfresh := hfresh
  · rw [hnot] at hexecutor
    cases hexecutor
  · obtain ⟨-, orderByColumns, table, horder, htable, hname, -⟩ := selects_of_fresh (hfresh.symm.trans hexecutor)
    have hselects : h.Selects a.request table := ⟨orderByColumns, horder, htable⟩
    have hfor := of_firstTable htable
    rw [hget] at hfor
    refine ⟨table, hselects, hname, namesAll_of_once ?_ (hactions.once a.request hcall hget table hselects)⟩
    exact (keysAreIncluded_eq_all _ _).1 (isForSelect_get_iff.1 hfor).2

/-- With plain names, the requests of one method may share an executor if they have one key. -/
theorem reusable_of_plain (hflag : r.allPKsDefined = r'.allPKsDefined) (hr : Cache.PlainSelect r.call)
    (hr' : Cache.PlainSelect r'.call) (hkey : r.key = r'.key) : Reusable h r r' := by
  refine fun _ _ => ⟨Cache.selectKey_inj hr hr' hkey, fun hfind hget => ?_⟩
  rw [hflag, hget] at hfind
  cases hfind

/-! ### Messages by room -/

/-- A handler of the table for messages, whose scripts give no parameters. -/
def messagesHandler : SelectHandler ℕ Unit where
  info := messagesInfo
  getTable _ _ := some messages
  getMaterializedView _ _ := none
  runInThisContext _ := some fun _ => ()

/-- The messages of a room. -/
def ofRoom (room : ℕ) : SelectCall ℕ := ⟨⟨[("room", .plain room)], by simp⟩, none⟩

/-- The message of a room at one time. -/
def atTime (room time : ℕ) : SelectCall ℕ := ⟨⟨[("room", .plain room), ("time", .plain time)], by simp⟩, none⟩

def Result.tableName : Result V P → Option String
  | .executor executor => some executor.tableName
  | _ => none

/-- The methods of the requests with the tables they get, and those a new mapper would give them. -/
def State.tableNames (s : State ℕ Unit) : List (Bool × Option String × Option String) :=
  s.answers.map fun a => (a.request.allPKsDefined, a.result.tableName, (messagesHandler.fresh a.request).tableName)

/-- All keys are given to `find` and to `get`. -/
def allKeys : List (Action ℕ) := [.call ⟨false, atTime 1 2⟩, .settle 0 true, .call ⟨true, atTime 1 3⟩]

theorem allKeys_tableNames : (TransitionSystem.exec (step messagesHandler) .init allKeys).map State.tableNames =
    some [(false, some "messages", some "messages"), (true, some "messages", some "messages")] := by decide +kernel

theorem eq_atTime {r : SelectRequest ℕ} (hr : .call r ∈ allKeys) : ∃ flag time, r = ⟨flag, atTime 1 time⟩ := by
  simp only [allKeys, List.mem_cons, Action.call.injEq, reduceCtorEq, List.not_mem_nil, or_false, false_or] at hr
  obtain rfl | rfl := hr
  · exact ⟨false, 2, rfl⟩
  · exact ⟨true, 3, rfl⟩

theorem selects_atTime {flag : Bool} {time : ℕ} {table : TableMetadata}
    (hselects : messagesHandler.Selects ⟨flag, atTime 1 time⟩ table) : table = messages := by
  obtain ⟨orderByColumns, horder, htable⟩ := hselects
  obtain rfl : [] = orderByColumns := Except.ok.inj horder
  cases flag <;> exact (Except.ok.inj htable).symm

theorem compatible_allKeys : Compatible messagesHandler allKeys where
  reusable r r' hr hr' _ table hselects := by
    obtain ⟨flag, time, rfl⟩ := eq_atTime hr
    obtain ⟨flag', time', rfl⟩ := eq_atTime hr'
    obtain rfl := selects_atTime hselects
    exact ⟨⟨rfl, rfl, rfl, rfl⟩, fun _ _ => rfl⟩
  once r hr _ table hselects := by
    obtain ⟨flag, time, rfl⟩ := eq_atTime hr
    obtain rfl := selects_atTime hselects
    exact (by decide : ∀ k ∈ ["time"], ["room", "time"].count k ≤ 1)

theorem answeredFresh_allKeys : ∃ s, TransitionSystem.Run (step messagesHandler) .init allKeys s ∧
    ∀ a ∈ s.answers, AnsweredFresh messagesHandler a := by
  obtain ⟨s, hs, -⟩ := Option.map_eq_some_iff.1 allKeys_tableNames
  have hrun := TransitionSystem.Run.of_exec hs
  exact ⟨s, hrun, answeredFresh_of_compatible hrun compatible_allKeys⟩

/-- The time is given neither to `find` nor to `get`. -/
def noTime : List (Action ℕ) := [.call ⟨false, ofRoom 1⟩, .settle 0 true, .call ⟨true, ofRoom 1⟩]

theorem noTime_tableNames : (TransitionSystem.exec (step messagesHandler) .init noTime).map State.tableNames =
    some [(false, some "messages", some "messages"), (true, some "messages", none)] := by decide +kernel

theorem not_answeredFresh_noTime : ∃ s, TransitionSystem.Run (step messagesHandler) .init noTime s ∧
    ∃ a ∈ s.answers, ¬ AnsweredFresh messagesHandler a := by
  obtain ⟨s, hs, hnames⟩ := Option.map_eq_some_iff.1 noTime_tableNames
  obtain ⟨a, ha, heq⟩ := List.mem_map.1 (List.mem_of_getElem? (congrArg (·[1]?) hnames))
  obtain ⟨-, hresult, hnew⟩ := by simpa only [Prod.mk.injEq] using heq
  refine ⟨s, TransitionSystem.Run.of_exec hs, a, ha, fun hfresh => ?_⟩
  obtain hnot | hfresh := hfresh.result
  · rw [hnot] at hresult
    cases hresult
  · rw [hfresh, hnew] at hresult
    cases hresult

end SelectHandler
end CqlDriver.Mapping
