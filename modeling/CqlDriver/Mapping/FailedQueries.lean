import CqlDriver.Mapping.BatchMapper

/-! # Failed statements of batch items (`lib/mapping/model-batch-item.js`)

`getQueries` keeps the promise of `createQueries` in the cache item before it is known how it settles.  Nothing takes
a rejected promise out again, so once it is rejected the items with its key get it for good
(`retries_iff`).  The executors of `mapping-handler.js` are kept when the promise has been fulfilled only. -/

namespace CqlDriver.Mapping

variable {V P : Type}

namespace BatchMapper

open TransitionSystem

variable (h : MappingHandler V P)

/-- Whether `getQueries` calls `createQueries`: `cacheItem.queries === null`. -/
def invokes (s : State V P) (item : BatchItem V) : Bool :=
  let found := s.store.items.getOrCreate (BatchItem.cache item.kind) item.getCacheKey
  match found.1 with
  | none => false
  | some cacheItem => (found.2.content cacheItem).isNone

/-- A call of `getQueries`, or the settlement of a promise of `createQueries`. -/
inductive QueriesAction (V : Type) where
  | getQueries (item : BatchItem V)
  | settle (promise : ℕ) (connected : Bool)

def queriesStep (s : State V P) : QueriesAction V → Option (State V P)
  | .getQueries item => some { s with store := (getQueries h s.store item).2 }
  | .settle promise connected => step h s (.settle promise connected)

/-- The last promise that `createQueries` has given for the key of an item is rejected. -/
def Failed (s : State V P) (item : BatchItem V) : Prop :=
  ∃ n p, s.store.promises[n]? = some p ∧ p.item.Shares item ∧ s.outcome n = some none ∧
    ∀ m p', n < m → s.store.promises[m]? = some p' → ¬ p'.item.Shares item

/-- Every promise stays under the key of its item. -/
def Stored (s : Store V P) : Prop :=
  ∀ n p, s.promises[n]? = some p → s.items.find (BatchItem.cache p.item.kind) p.item.getCacheKey = some n

/-! ### What a call does -/

/-- The item under a key that is there is the one that a lookup gives. -/
theorem getOrCreate_of_lookup {s : Store V P} {i : Kind} {key : List Token} {cacheItem : ℕ}
    (hlookup : s.items.lookup i key = some cacheItem) : (s.items.getOrCreate i key).1 = some cacheItem := by
  obtain hvalue | ⟨hnone, -⟩ := (s.items.trees i).getOrCreate_cases key s.items.contents.length
  · rw [CacheItems.getOrCreate, hvalue]
    exact congrArg (fun o : Option ℕ => some (o.getD _)) hlookup
  · rw [CacheItems.lookup, hnone] at hlookup
    cases hlookup

/-- The promise under the key is given, and `createQueries` is not called. -/
theorem invokes_eq_false {s : State V P} {item : BatchItem V} {n : ℕ}
    (hfind : s.store.items.find (BatchItem.cache item.kind) item.getCacheKey = some n) :
    invokes s item = false := by
  obtain ⟨cacheItem, hlookup, hcontent⟩ := Option.bind_eq_some_iff.1 hfind
  rw [invokes]
  simp only [getOrCreate_of_lookup hlookup, CacheItems.content_getOrCreate, hcontent]
  rfl

variable {h}

theorem Stored.getQueries {s : Store V P} (hs : Stored s) (item : BatchItem V) :
    Stored (getQueries h s item).2 := by
  have hopened : Stored { s with items := (s.items.getOrCreate (BatchItem.cache item.kind) item.getCacheKey).2 } := by
    intro n p hp
    rw [CacheItems.find_getOrCreate]
    exact hs n p hp
  rw [BatchMapper.getQueries]
  cases hfound : (s.items.getOrCreate (BatchItem.cache item.kind) item.getCacheKey).1 with
  | none => exact hopened
  | some cacheItem =>
      have hlookup := CacheItems.lookup_getOrCreate hfound
      simp only [getFromItem]
      cases hcontent : (s.items.getOrCreate (BatchItem.cache item.kind) item.getCacheKey).2.content cacheItem with
      | some promise => exact hopened
      | none =>
          cases createQueries h item with
          | error e => exact hopened
          | ok queries =>
              intro n p hp
              -- the key of the item has no promise before
              have hfree := (CacheItems.find_of_lookup hlookup).trans hcontent
              rw [CacheItems.find_fill hlookup]
              rcases lt_or_ge n s.promises.length with hn | hn
              · rw [List.getElem?_append_left hn] at hp
                have hp' := hopened n p hp
                rw [if_neg, hp']
                rintro ⟨hcache, hkey⟩
                rw [hcache, hkey, hfree] at hp'
                cases hp'
              · rw [List.getElem?_append_right hn, List.getElem?_singleton] at hp
                split_ifs at hp with hzero
                obtain rfl := Option.some.inj hp
                rw [if_pos ⟨rfl, rfl⟩, show n = s.promises.length by omega]

theorem stored_queriesStep {s s' : State V P} {a : QueriesAction V} (hs : Stored s.store)
    (hstep : queriesStep h s a = some s') : Stored s'.store := by
  cases a with
  | getQueries item =>
      obtain rfl := Option.some.inj hstep
      exact hs.getQueries item
  | settle promise connected =>
      rw [queriesStep, step] at hstep
      split_ifs at hstep
      obtain rfl := Option.some.inj hstep
      exact hs

theorem Failed.invokes_eq_false {s : State V P} (hs : Stored s.store) {item : BatchItem V} (hfailed : Failed s item) :
    invokes s item = false := by
  obtain ⟨n, p, hp, ⟨hcache, hkey⟩, -, -⟩ := hfailed
  have hfind := hs n p hp
  rw [hcache, hkey] at hfind
  exact BatchMapper.invokes_eq_false hfind

/-! ### Runs -/

/-- The calls of `getQueries` in a run, each with the state it finds. -/
def CallIn (h : MappingHandler V P) (actions : List (QueriesAction V)) (s : State V P) (item : BatchItem V) : Prop :=
  ∃ before after, actions = before ++ .getQueries item :: after ∧ Run (queriesStep h) State.init before s

/-- A call for a key with a rejected promise calls `createQueries` again. -/
def Retries (h : MappingHandler V P) (actions : List (QueriesAction V)) : Prop :=
  ∀ s item, CallIn h actions s item → Failed s item → invokes s item = true

theorem CallIn.stored {actions : List (QueriesAction V)} {s : State V P} {item : BatchItem V}
    (hcall : CallIn h actions s item) : Stored s.store := by
  obtain ⟨before, -, -, hrun⟩ := hcall
  refine hrun.invariant (P := fun s => Stored s.store) ?_ fun s₁ a s₂ hs hstep => stored_queriesStep hs hstep
  intro n p hp
  cases hp

/-- The rejected promises are never replaced: a run keeps to the law only when it does not come to ask for a key whose
promise is rejected. -/
theorem retries_iff (h : MappingHandler V P) (actions : List (QueriesAction V)) :
    Retries h actions ↔ ∀ s item, CallIn h actions s item → ¬ Failed s item := by
  constructor
  · intro hretries s item hcall hfailed
    have hinvokes := hretries s item hcall hfailed
    rw [hfailed.invokes_eq_false hcall.stored] at hinvokes
    cases hinvokes
  · intro hnever s item hcall hfailed
    exact absurd hfailed (hnever s item hcall)

/-- A document with one property. -/
def sampleItem : BatchItem Unit := ⟨.insert, ⟨⟨[("id", .plain ())], by decide⟩, none⟩⟩

/-- A model with one table, whose key is that property. -/
def sampleHandler : MappingHandler Unit Unit where
  info := ⟨"ks", [⟨"t", false⟩], id, []⟩
  getTable _ _ := some ⟨"t", ["id"], [], [⟨"id", .other, false⟩], [("id", ⟨"id", .other, false⟩)]⟩
  runInThisContext _ := some fun _ => ()

/-- The statements have been asked for, and the client could not connect. -/
def notConnected : State Unit Unit where
  store := (getQueries sampleHandler .new sampleItem).2
  connected := Function.update (fun _ => none) 0 (some false)
  batches := []

theorem failed_notConnected : Failed notConnected sampleItem := by
  refine ⟨0, ⟨sampleItem, sampleHandler.createInsertQueries sampleItem.call⟩, rfl, ⟨rfl, rfl⟩, rfl, ?_⟩
  intro m p hm hp
  have hlength : notConnected.store.promises.length = 1 := rfl
  rw [List.getElem?_eq_none (by omega)] at hp
  cases hp

/-- The second item with the key gets the rejected promise, although the client may connect by then. -/
theorem not_retries_notConnected : ¬ ∀ actions, Retries sampleHandler actions := by
  intro hretries
  have hlaw := (hretries [.getQueries sampleItem, .settle 0 false, .getQueries sampleItem]) notConnected sampleItem
    ⟨[.getQueries sampleItem, .settle 0 false], [], rfl, Run.of_exec rfl⟩ failed_notConnected
  exact absurd hlaw (by decide)

end BatchMapper
end CqlDriver.Mapping
