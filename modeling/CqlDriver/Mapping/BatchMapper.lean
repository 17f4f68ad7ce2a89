import CqlDriver.Mapping.Executors

/-! # Batches (`lib/mapping/model-batch-mapper.js`, `lib/mapping/model-batch-item.js`, `Mapper.batch`)

The items of a batch get their statements from a promise that is cached under the key of the item.
`ModelBatchMapper.remove` hands the tree of the updates to its items, so an update and a remove can meet
under one key.  In every run, an item contributes the statements of some item that shares its tree and
its key (`Inv.of_run`). -/

namespace CqlDriver.Mapping

variable {V P : Type}

/-- A `ModelBatchItem`: what `insert`, `update` and `remove` of `ModelBatchMapper` return. -/
structure BatchItem (V : Type) where
  kind : Kind
  call : Call V

namespace BatchItem

/-- The tree an item is created with; `_cache.remove` is not used. -/
def cache : Kind → Kind
  | .insert => .insert
  | .update => .update
  | .remove => .update

/-- `getCacheKey` -/
def getCacheKey (item : BatchItem V) : List Token := Cache.getKey item.kind item.call

/-- Two items that look for their statements in one place. -/
def Shares (item item' : BatchItem V) : Prop :=
  cache item.kind = cache item'.kind ∧ item.getCacheKey = item'.getCacheKey

/-- What an item pushes to a batch, given the statements. -/
def entries (item : BatchItem V) (queries : Queries V P) : List (String × P) :=
  queries.map fun q => (q.query, q.paramsGetter item.call)

end BatchItem

namespace BatchMapper

variable (h : MappingHandler V P)

def createQueries (item : BatchItem V) : Except Error (Except Error (Queries V P)) :=
  h.createQueries item.kind item.call

/-! ### Statements of an item -/

/-- A promise for statements, with the item that created it and what it settles with once the client
is connected. -/
structure Promise (V P : Type) where
  item : BatchItem V
  queries : Except Error (Queries V P)

/-- The cache items hold numbers of promises. -/
structure Store (V P : Type) where
  items : CacheItems Kind Token ℕ
  promises : List (Promise V P)

def Store.new : Store V P := ⟨.new, []⟩

/-- The promise of the cache item, which is created where there is none; an error of the creation is
thrown. -/
def getFromItem (s : Store V P) (item : BatchItem V) : Option ℕ → Option ℕ × Store V P
  | none => (none, s)
  | some cacheItem =>
      match s.items.content cacheItem with
      | some promise => (some promise, s)
      | none =>
          match createQueries h item with
          | .error _ => (none, s)
          | .ok queries =>
              (some s.promises.length,
                ⟨s.items.fill cacheItem s.promises.length, s.promises ++ [⟨item, queries⟩]⟩)

/-- `getQueries`: the number of the promise, unless an error is thrown. -/
def getQueries (s : Store V P) (item : BatchItem V) : Option ℕ × Store V P :=
  let found := s.items.getOrCreate (BatchItem.cache item.kind) item.getCacheKey
  getFromItem h { s with items := found.2 } item found.1

/-! ### Batches -/

/-- A call of `Mapper.batch`.  The entries that an item pushes to `queries` are kept together. -/
structure Batch (V P : Type) where
  items : List (BatchItem V)
  executionOptions : ExecutionOptions
  /-- The items that wait for a promise. -/
  waiting : List (BatchItem V × ℕ)
  queries : List (BatchItem V × List (String × P))
  isIdempotent : Bool
  isCounter : Option Bool
  /-- The call has thrown, or a promise was rejected. -/
  failed : Bool

/-- The request that is sent once every item has pushed its entries. -/
def Batch.request (b : Batch V P) : Option (Request P) :=
  if b.failed = false ∧ b.waiting = [] then
    some (.batch (b.queries.flatMap Prod.snd)
      (DocInfoAdapter.adaptBatchOptions b.executionOptions b.isIdempotent b.isCounter))
  else none

structure State (V P : Type) where
  store : Store V P
  /-- Whether the client connected for a promise, once that is known. -/
  connected : ℕ → Option Bool
  batches : List (Batch V P)

def State.init : State V P := ⟨.new, fun _ => none, []⟩

/-- What the items of a batch wait for, whether one of them threw, and the promises afterwards. -/
structure Pushed (V P : Type) where
  waiting : List (BatchItem V × ℕ)
  threw : Bool
  store : Store V P

/-- `pushQueries` of the items in turn, up to the first one that throws. -/
def pushAll : Store V P → List (BatchItem V) → Pushed V P
  | s, [] => ⟨[], false, s⟩
  | s, item :: items =>
      let found := getQueries h s item
      match found.1 with
      | none => ⟨[], true, found.2⟩
      | some promise =>
          let rest := pushAll found.2 items
          { rest with waiting := (item, promise) :: rest.waiting }

/-- `Mapper.batch` -/
def batch (s : State V P) (items : List (BatchItem V)) (executionOptions : ExecutionOptions) : State V P :=
  let pushed := pushAll h s.store items
  { s with
    store := pushed.store
    batches := s.batches ++
      [⟨items, executionOptions, pushed.waiting, [], true, none, pushed.threw || items.isEmpty⟩] }

/-- The statements a promise has given, or its rejection. -/
def State.outcome (s : State V P) (promise : ℕ) : Option (Option (Queries V P)) :=
  (s.store.promises[promise]?).bind fun p =>
    (s.connected promise).map fun connected => if connected then p.queries.toOption else none

/-- An item of a batch whose promise has settled. -/
def Batch.push (b : Batch V P) (item : BatchItem V) : Option (Queries V P) → Batch V P
  | some queries =>
      { b with
        queries := b.queries ++ [(item, item.entries queries)]
        isIdempotent := b.isIdempotent && queries.all (·.isIdempotent)
        isCounter := queries.getLast?.bind (·.isCounter) }
  | none => { b with failed := true }

inductive Action (V : Type) where
  | batch (items : List (BatchItem V)) (executionOptions : ExecutionOptions)
  | settle (promise : ℕ) (connected : Bool)
  | push (i j : ℕ)

def step (s : State V P) : Action V → Option (State V P)
  | .batch items executionOptions => some (batch h s items executionOptions)
  | .settle promise connected =>
      if promise < s.store.promises.length ∧ s.connected promise = none then
        some { s with connected := Function.update s.connected promise (some connected) }
      else none
  | .push i j => do
      let b ← s.batches[i]?
      let (item, promise) ← b.waiting[j]?
      let outcome ← s.outcome promise
      return { s with batches := s.batches.set i ({ b with waiting := b.waiting.eraseIdx j }.push item outcome) }

/-! ### Promises -/

/-- Every promise was created by an item, and stands under the key of that item. -/
structure Store.Inv (known : List (BatchItem V)) (s : Store V P) : Prop where
  found : ∀ {tree key n}, s.items.find tree key = some n → ∃ p, s.promises[n]? = some p ∧
    BatchItem.cache p.item.kind = tree ∧ p.item.getCacheKey = key
  created : ∀ p ∈ s.promises, p.item ∈ known ∧ createQueries h p.item = .ok p.queries

/-- A promise that the item may wait for. -/
def Awaits (promises : List (Promise V P)) (item : BatchItem V) (n : ℕ) : Prop :=
  ∃ p, promises[n]? = some p ∧ p.item.Shares item

section Promises

variable {h} {known : List (BatchItem V)} {s : Store V P}

theorem Awaits.mono {promises promises' : List (Promise V P)} {item : BatchItem V} {n : ℕ}
    (hsub : promises <+: promises') (hn : Awaits promises item n) : Awaits promises' item n := by
  obtain ⟨p, hp, hshares⟩ := hn
  obtain ⟨tail, rfl⟩ := hsub
  obtain ⟨hlt, -⟩ := List.getElem?_eq_some_iff.1 hp
  exact ⟨p, by rw [List.getElem?_append_left hlt, hp], hshares⟩

theorem Store.Inv.getFromItem (hs : s.Inv h known) {item : BatchItem V} (hitem : item ∈ known)
    {cacheItem : Option ℕ}
    (hlookup : ∀ n, cacheItem = some n → s.items.lookup (BatchItem.cache item.kind) item.getCacheKey = some n) :
    (getFromItem h s item cacheItem).2.Inv h known ∧
      s.promises <+: (BatchMapper.getFromItem h s item cacheItem).2.promises ∧
      ∀ n, (BatchMapper.getFromItem h s item cacheItem).1 = some n →
        Awaits (BatchMapper.getFromItem h s item cacheItem).2.promises item n := by
  cases cacheItem with
  | none => exact ⟨hs, List.prefix_refl _, fun n hn => by cases hn⟩
  | some cacheItem =>
      have hlookup := hlookup cacheItem rfl
      have hfind := CacheItems.find_of_lookup hlookup
      simp only [BatchMapper.getFromItem]
      cases hcontent : s.items.content cacheItem with
      | some promise =>
          rw [hcontent] at hfind
          obtain ⟨p, hp, hcache, hkey⟩ := hs.found hfind
          refine ⟨hs, List.prefix_refl _, fun n hn => ?_⟩
          cases hn
          exact ⟨p, hp, hcache, hkey⟩
      | none =>
          cases hq : createQueries h item with
          | error e => exact ⟨hs, List.prefix_refl _, fun n hn => by cases hn⟩
          | ok queries =>
              have hnew : (s.promises ++ [⟨item, queries⟩])[s.promises.length]? = some ⟨item, queries⟩ := by simp
              refine ⟨⟨fun {tree key n} hn => ?_, fun p hp => ?_⟩, List.prefix_append _ _, fun n hn => ?_⟩
              · obtain ⟨rfl, rfl, rfl⟩ | hn := CacheItems.find_fill_cases hlookup hn
                · exact ⟨_, hnew, rfl, rfl⟩
                · obtain ⟨p, hp, hrest⟩ := hs.found hn
                  obtain ⟨hlt, -⟩ := List.getElem?_eq_some_iff.1 hp
                  exact ⟨p, by rw [List.getElem?_append_left hlt, hp], hrest⟩
              · obtain hp | hp := List.mem_append.1 hp
                · exact hs.created p hp
                · rw [List.mem_singleton.1 hp]
                  exact ⟨hitem, hq⟩
              · cases hn
                exact ⟨_, hnew, rfl, rfl⟩

theorem Store.Inv.getQueries (hs : s.Inv h known) {item : BatchItem V} (hitem : item ∈ known) :
    (getQueries h s item).2.Inv h known ∧ s.promises <+: (BatchMapper.getQueries h s item).2.promises ∧
      ∀ n, (BatchMapper.getQueries h s item).1 = some n →
        Awaits (BatchMapper.getQueries h s item).2.promises item n := by
  have hopened : Store.Inv h known
      { s with items := (s.items.getOrCreate (BatchItem.cache item.kind) item.getCacheKey).2 } := by
    refine ⟨fun hfind => ?_, hs.created⟩
    rw [CacheItems.find_getOrCreate] at hfind
    exact hs.found hfind
  exact hopened.getFromItem hitem fun n hn => CacheItems.lookup_getOrCreate hn

theorem Store.Inv.pushAll {items : List (BatchItem V)} (hs : s.Inv h known) (hitems : ∀ item ∈ items, item ∈ known) :
    (pushAll h s items).store.Inv h known ∧ s.promises <+: (BatchMapper.pushAll h s items).store.promises ∧
      (∀ w ∈ (BatchMapper.pushAll h s items).waiting, w.1 ∈ known ∧
        Awaits (BatchMapper.pushAll h s items).store.promises w.1 w.2) ∧
      ((BatchMapper.pushAll h s items).threw = false →
        (BatchMapper.pushAll h s items).waiting.map Prod.fst = items) := by
  induction items generalizing s with
  | nil => exact ⟨hs, List.prefix_refl _, by simp [BatchMapper.pushAll], fun _ => rfl⟩
  | cons item items ih =>
      have hitem := hitems item (List.mem_cons_self ..)
      obtain ⟨hs', hsub, hawaits⟩ := hs.getQueries hitem
      simp only [BatchMapper.pushAll]
      cases hfound : (BatchMapper.getQueries h s item).1 with
      | none => exact ⟨hs', hsub, by simp, by simp⟩
      | some promise =>
          obtain ⟨hrest, hsub', hwaiting, hall⟩ := ih hs' fun i hi => hitems i (List.mem_cons_of_mem _ hi)
          refine ⟨hrest, hsub.trans hsub', fun w hw => ?_, fun hthrew => ?_⟩
          · obtain rfl | hw := List.mem_cons.1 hw
            · exact ⟨hitem, (hawaits promise hfound).mono hsub'⟩
            · exact hwaiting w hw
          · rw [List.map_cons, hall hthrew]

theorem Store.Inv.mono {known' : List (BatchItem V)} (hs : s.Inv h known) (hsub : ∀ item ∈ known, item ∈ known') :
    s.Inv h known' :=
  ⟨hs.found, fun p hp => ⟨hsub _ (hs.created p hp).1, (hs.created p hp).2⟩⟩

end Promises

/-! ### The invariant of a batch -/

/-- The entries of an item, and the promises that items wait for, belong to items with the same key;
unless the batch has failed, every item either waits or has pushed its entries. -/
structure Batch.Inv (known : List (BatchItem V)) (promises : List (Promise V P)) (b : Batch V P) : Prop where
  waiting : ∀ w ∈ b.waiting, w.1 ∈ known ∧ Awaits promises w.1 w.2
  pushed : ∀ q ∈ b.queries, q.1 ∈ known ∧ ∃ item ∈ known, item.Shares q.1 ∧
    ∃ queries, createQueries h item = .ok (.ok queries) ∧ q.2 = q.1.entries queries
  complete : b.failed = false → (b.queries.map Prod.fst ++ b.waiting.map Prod.fst).Perm b.items

section Batches

variable {h} {known : List (BatchItem V)} {promises : List (Promise V P)} {b : Batch V P}

theorem Batch.Inv.mono {known' : List (BatchItem V)} {promises' : List (Promise V P)} (hb : b.Inv h known promises)
    (hknown : ∀ item ∈ known, item ∈ known') (hsub : promises <+: promises') : b.Inv h known' promises' where
  waiting w hw := ⟨hknown _ (hb.waiting w hw).1, (hb.waiting w hw).2.mono hsub⟩
  pushed q hq := by
    obtain ⟨hmem, item, hitem, hrest⟩ := hb.pushed q hq
    exact ⟨hknown _ hmem, item, hknown _ hitem, hrest⟩
  complete := hb.complete

/-- An item pushes its entries, or fails the batch. -/
theorem Batch.Inv.push (hb : b.Inv h known promises) {j : ℕ} {item : BatchItem V} {n : ℕ}
    (hj : b.waiting[j]? = some (item, n)) {outcome : Option (Queries V P)}
    (houtcome : ∀ queries, outcome = some queries →
      ∃ item' ∈ known, item'.Shares item ∧ createQueries h item' = .ok (.ok queries)) :
    ({ b with waiting := b.waiting.eraseIdx j }.push item outcome).Inv h known promises := by
  have hmem := List.mem_of_getElem? hj
  have hwaiting : ∀ w ∈ b.waiting.eraseIdx j, w.1 ∈ known ∧ Awaits promises w.1 w.2 := fun w hw =>
    hb.waiting w (List.mem_of_mem_eraseIdx hw)
  cases outcome with
  | none => exact ⟨hwaiting, hb.pushed, fun hfailed => by cases hfailed⟩
  | some queries =>
      refine ⟨hwaiting, fun q hq => ?_, fun hfailed => ?_⟩
      · obtain hq | hq := List.mem_append.1 hq
        · exact hb.pushed q hq
        · rw [List.mem_singleton.1 hq]
          obtain ⟨item', hitem', hshares, hcreate⟩ := houtcome queries rfl
          exact ⟨(hb.waiting _ hmem).1, item', hitem', hshares, queries, hcreate, rfl⟩
      · have hperm : b.waiting.Perm ((item, n) :: b.waiting.eraseIdx j) := by
          obtain ⟨hlt, hget⟩ := List.getElem?_eq_some_iff.1 hj
          rw [← hget]
          exact (List.getElem_cons_eraseIdx_perm hlt).symm
        refine List.Perm.trans ?_ (hb.complete hfailed)
        rw [Batch.push, List.map_append, List.append_assoc]
        exact (hperm.map Prod.fst).symm.append_left _

end Batches

/-! ### Runs -/

/-- The items that an action uses. -/
def Action.items : Action V → List (BatchItem V)
  | batch items _ => items
  | settle .. | push .. => []

/-- The items of a run. -/
def itemsOf (actions : List (Action V)) : List (BatchItem V) := actions.flatMap Action.items

structure Inv (known : List (BatchItem V)) (s : State V P) : Prop where
  store : s.store.Inv h known
  batches : ∀ b ∈ s.batches, b.Inv h known s.store.promises

namespace Inv

variable {h} {known : List (BatchItem V)} {s s' : State V P}

theorem init : Inv h [] (State.init : State V P) :=
  ⟨⟨fun hfind => by simp [State.init, Store.new] at hfind, by simp [State.init, Store.new]⟩, by simp [State.init]⟩

theorem batch (hs : Inv h known s) {items : List (BatchItem V)} (executionOptions : ExecutionOptions) :
    Inv h (known ++ items) (batch h s items executionOptions) := by
  have hknown : ∀ item ∈ known, item ∈ known ++ items := fun item => List.mem_append_left _
  obtain ⟨hstore, hsub, hwaiting, hall⟩ := (hs.store.mono hknown).pushAll fun item => List.mem_append_right _
  refine ⟨hstore, fun b hb => ?_⟩
  obtain hb | hb := List.mem_append.1 hb
  · exact (hs.batches b hb).mono hknown hsub
  · rw [List.mem_singleton.1 hb]
    refine ⟨hwaiting, by simp, fun hfailed => ?_⟩
    have hthrew : (pushAll h s.store items).threw = false := (Bool.or_eq_false_iff.1 hfailed).1
    rw [List.map_nil, List.nil_append, hall hthrew]

/-- The statements of a promise that has settled are those of the item that created it. -/
theorem outcome (hs : Inv h known s) {item : BatchItem V} {n : ℕ} (hawaits : Awaits s.store.promises item n)
    {queries : Queries V P} (houtcome : s.outcome n = some (some queries)) :
    ∃ item' ∈ known, item'.Shares item ∧ createQueries h item' = .ok (.ok queries) := by
  obtain ⟨p, hp, hshares⟩ := hawaits
  obtain ⟨hitem, hcreate⟩ := hs.store.created p (List.mem_of_getElem? hp)
  refine ⟨p.item, hitem, hshares, ?_⟩
  rw [State.outcome, hp, Option.bind_some, Option.map_eq_some_iff] at houtcome
  obtain ⟨connected, -, hqueries⟩ := houtcome
  split_ifs at hqueries
  rw [hcreate]
  cases hq : p.queries with
  | error e =>
      rw [hq] at hqueries
      cases hqueries
  | ok qs =>
      rw [hq] at hqueries
      cases hqueries
      rfl

theorem step {a : Action V} (hs : Inv h known s) (hstep : step h s a = some s') :
    Inv h (known ++ a.items) s' := by
  cases a with
  | batch items executionOptions =>
      cases hstep
      exact hs.batch executionOptions
  | settle promise connected =>
      simp only [BatchMapper.step] at hstep
      split_ifs at hstep
      cases hstep
      rw [Action.items, List.append_nil]
      exact ⟨hs.store, hs.batches⟩
  | push i j =>
      simp only [BatchMapper.step, Option.bind_eq_bind, Option.bind_eq_some_iff] at hstep
      obtain ⟨b, hb, ⟨item, n⟩, hj, outcome, houtcome, hstep⟩ := hstep
      cases hstep
      rw [Action.items, List.append_nil]
      have hinv := hs.batches b (List.mem_of_getElem? hb)
      refine ⟨hs.store, fun b' hb' => ?_⟩
      obtain hb' | rfl := List.mem_or_eq_of_mem_set hb'
      · exact hs.batches b' hb'
      · apply hinv.push hj
        intro queries hqueries
        subst hqueries
        exact hs.outcome (hinv.waiting _ (List.mem_of_getElem? hj)).2 houtcome

theorem of_run {actions : List (Action V)} (hrun : TransitionSystem.Run (BatchMapper.step h) .init actions s) :
    Inv h (itemsOf actions) s := by
  refine hrun.history (P := fun actions s => Inv h (itemsOf actions) s) init fun actions s₁ a s₂ hs hstep => ?_
  have := hs.step hstep
  rwa [itemsOf, List.flatMap_append, List.flatMap_singleton]

end Inv

/-! ### What items contribute -/

/-- The entries of an item on a mapper of its own. -/
def freshEntries (item : BatchItem V) : Option (List (String × P)) :=
  match createQueries h item with
  | .ok (.ok queries) => some (item.entries queries)
  | _ => none

/-- Every item pushes its own entries, and a batch that is sent consists of the entries of its items, in
the order in which their promises were taken up. -/
def ContributesOwn (s : State V P) : Prop :=
  ∀ b ∈ s.batches, (∀ q ∈ b.queries, freshEntries h q.1 = some q.2) ∧
    ∀ request, b.request = some request → ∃ (items : List (BatchItem V)) (options : QueryOptions),
      items.Perm b.items ∧ request = .batch (items.flatMap fun item => (freshEntries h item).getD []) options

/-- Items of a run that share a tree and a key are of one kind and shape. -/
def Compatible (actions : List (Action V)) : Prop :=
  ∀ item ∈ itemsOf actions, ∀ item' ∈ itemsOf actions, item.Shares item' →
    item.kind = item'.kind ∧ item.call.shape item.kind = item'.call.shape item'.kind

theorem createQueries_eq_of_shape {item item' : BatchItem V} (hkind : item.kind = item'.kind)
    (hshape : item.call.shape item.kind = item'.call.shape item'.kind) :
    createQueries h item = createQueries h item' := by
  obtain ⟨kind, call⟩ := item
  obtain ⟨kind', call'⟩ := item'
  cases hkind
  exact Mapping.createQueries_eq_of_shape h kind hshape

/-- In a run whose items are compatible, every item contributes its own statements and parameters. -/
theorem contributesOwn_of_compatible {actions : List (Action V)} {s : State V P}
    (hrun : TransitionSystem.Run (step h) .init actions s) (hcompatible : Compatible actions) :
    ContributesOwn h s := by
  intro b hb
  have hinv := (Inv.of_run hrun).batches b hb
  have hfresh : ∀ q ∈ b.queries, freshEntries h q.1 = some q.2 := by
    intro q hq
    obtain ⟨hmem, item, hitem, hshares, queries, hcreate, hentries⟩ := hinv.pushed q hq
    obtain ⟨hkind, hshape⟩ := hcompatible item hitem q.1 hmem hshares
    rw [createQueries_eq_of_shape h hkind hshape] at hcreate
    rw [freshEntries, hcreate, hentries]
  refine ⟨hfresh, fun request hrequest => ?_⟩
  unfold Batch.request at hrequest
  split_ifs at hrequest with hdone
  have hperm := hinv.complete hdone.1
  rw [hdone.2, List.map_nil, List.append_nil] at hperm
  refine ⟨b.queries.map Prod.fst, DocInfoAdapter.adaptBatchOptions b.executionOptions b.isIdempotent b.isCounter,
    hperm, ?_⟩
  rw [← Option.some.inj hrequest, List.flatMap_map]
  congr 1
  apply List.flatMap_congr
  intro q hq
  rw [hfresh q hq]
  rfl

/-! ### Batches of users -/

section Users

open MappingHandler (users userDoc UserParams)

/-- The primary key only. -/
def userKey (id : ℕ) : Call ℕ where
  doc := ⟨[("id", .plain id)], by simp⟩
  docInfo := none

/-- The texts that each item of a batch contributed, with those of its own statements. -/
def texts (b : Batch ℕ UserParams) : List (Kind × List String × List String) :=
  b.queries.map fun q => (q.1.kind, q.2.map Prod.fst, ((freshEntries users q.1).getD []).map Prod.fst)

/-- Two updates of one shape and a remove, which has another key. -/
def mixedBatch : List (Action ℕ) :=
  [.batch [⟨.update, userDoc 1 2 3⟩, ⟨.remove, userKey 4⟩, ⟨.update, userDoc 5 6 7⟩] .none, .settle 0 true,
    .settle 1 true, .push 0 0, .push 0 0, .push 0 0]

theorem mixedBatch_texts :
    (TransitionSystem.exec (step users) .init mixedBatch).map (fun s => s.batches.map texts) =
      some [[(.update, ["UPDATE ks.users SET \"a\" = ?, \"b\" = ? WHERE \"id\" = ?"],
          ["UPDATE ks.users SET \"a\" = ?, \"b\" = ? WHERE \"id\" = ?"]),
        (.remove, ["DELETE FROM ks.users WHERE \"id\" = ?"], ["DELETE FROM ks.users WHERE \"id\" = ?"]),
        (.update, ["UPDATE ks.users SET \"a\" = ?, \"b\" = ? WHERE \"id\" = ?"],
          ["UPDATE ks.users SET \"a\" = ?, \"b\" = ? WHERE \"id\" = ?"])]] := by decide +kernel

theorem contributesOwn_mixedBatch :
    ∃ s, TransitionSystem.Run (step users) .init mixedBatch s ∧ ContributesOwn users s := by
  obtain ⟨s, hs, -⟩ := Option.map_eq_some_iff.1 mixedBatch_texts
  have hrun := TransitionSystem.Run.of_exec hs
  refine ⟨s, hrun, contributesOwn_of_compatible users hrun ?_⟩
  intro item hitem item' hitem' hshares
  simp only [mixedBatch, itemsOf, Action.items, List.flatMap_cons, List.flatMap_nil, List.append_nil, List.mem_cons,
    List.not_mem_nil, or_false] at hitem hitem'
  obtain ⟨-, hkey⟩ := hshares
  -- The key of the remove is shorter than the others.
  obtain rfl | rfl | rfl := hitem <;> obtain rfl | rfl | rfl := hitem' <;>
    first
      | exact ⟨rfl, by decide⟩
      | exact absurd hkey (by decide)

/-- A batch with an update, then one with a remove of the same document. -/
def updateThenRemove : List (Action ℕ) :=
  [.batch [⟨.update, userDoc 1 2 3⟩] .none, .settle 0 true, .push 0 0,
    .batch [⟨.remove, userDoc 1 2 3⟩] .none, .push 1 0]

/-- The remove contributes the statement of the update. -/
theorem updateThenRemove_texts :
    (TransitionSystem.exec (step users) .init updateThenRemove).map (fun s => s.batches.map texts) =
      some [[(.update, ["UPDATE ks.users SET \"a\" = ?, \"b\" = ? WHERE \"id\" = ?"],
          ["UPDATE ks.users SET \"a\" = ?, \"b\" = ? WHERE \"id\" = ?"])],
        [(.remove, ["UPDATE ks.users SET \"a\" = ?, \"b\" = ? WHERE \"id\" = ?"],
          ["DELETE FROM ks.users WHERE \"id\" = ?"])]] := by decide +kernel

theorem not_contributesOwn_updateThenRemove :
    ∃ s, TransitionSystem.Run (step users) .init updateThenRemove s ∧ ¬ ContributesOwn users s := by
  obtain ⟨s, hs, htexts⟩ := Option.map_eq_some_iff.1 updateThenRemove_texts
  refine ⟨s, TransitionSystem.Run.of_exec hs, fun hown => ?_⟩
  have hmem := List.mem_of_getElem? (congrArg (·[1]?) htexts)
  obtain ⟨b, hb, hqueries⟩ := List.mem_map.1 hmem
  have hmem := List.mem_of_getElem? (congrArg (·[0]?) hqueries)
  obtain ⟨q, hq, heq⟩ := List.mem_map.1 hmem
  obtain ⟨-, hpushed, hfresh⟩ := by simpa only [Prod.mk.injEq] using heq
  rw [(hown b hb).1 q hq, Option.getD_some, hpushed] at hfresh
  revert hfresh
  decide

end Users

end BatchMapper
end CqlDriver.Mapping
