import CqlDriver.Lib.TransitionSystem
import CqlDriver.Lib.JsObject

/-! # Concurrent execution of a parameter list (`lib/concurrent/index.js`)

`ArrayBasedExecutor` starts `min (concurrencyLevel, length)` self-recursive promise chains; the
chain `i` executes the parameters `i`, `i + level`, `i + 2 * level`, …, one at a time.  The model
is a transition system whose actions are the settlements of promises and the promise jobs that
follow them:

* `run i`: the call `_executeOneAtATime(i, iteration)` of chain `i`;
* `prepareResolve i`, `prepareReject i e`: the promise of `prepareQuery` settles;
* `resume i`: the code after `await`, which stores the statement and dispatches the request;
* `executeSettle i o`: the promise of `rustyExecute` settles with the result or error `o`;
* `record i`: the `then`/`catch` handlers that record the outcome;
* `reject i`: an exception thrown in chain `i` reaches the promise of the chain.

Any enabled action may come next, which covers every order of settlements and of promise jobs.
The lists `dispatched`, `answers` and `recorded` of the state are histories: what was handed to
`rustyExecute`, how it answered, and the calls of `setResultItem` and `setError`. -/

namespace CqlDriver.Concurrent

open TransitionSystem

variable {P R E : Type}

/-- `PreparedCache` (`lib/cache.js`): the keys stored in a plain object. -/
structure PreparedCache where
  stored : List String

/-- Whether `getElement` finds something for the key, be it inherited. -/
def PreparedCache.getElement (c : PreparedCache) (key : String) : Bool :=
  decide (key ∈ c.stored) || decide (key ∈ JsObject.prototypeNames)

def PreparedCache.storeElement (c : PreparedCache) (key : String) : PreparedCache :=
  ⟨key :: c.stored⟩

/-- The options read by the executor; an absent property is `none`. -/
structure Options where
  concurrencyLevel : Option ℕ
  raiseOnFirstError : Option Bool
  collectResults : Bool
  maxErrors : Option ℕ

/-- `ResultSetGroup`; `resultItems` is only written when results are collected. -/
structure ResultSetGroup (R E : Type) where
  collectResults : Bool
  maxErrors : ℕ
  totalExecuted : ℕ
  errors : List E
  resultItems : ℕ → Option (Except E R)

namespace ResultSetGroup

/-- `options.maxErrors || 100` -/
def new (options : Options) : ResultSetGroup R E :=
  ⟨options.collectResults,
    match options.maxErrors with
    | some (k + 1) => k + 1
    | _ => 100,
    0, [], fun _ => none⟩

def setItem (g : ResultSetGroup R E) (index : ℕ) (o : Except E R) : ℕ → Option (Except E R) :=
  if g.collectResults then Function.update g.resultItems index (some o) else g.resultItems

def setResultItem (g : ResultSetGroup R E) (index : ℕ) (rs : R) : ResultSetGroup R E :=
  { g with totalExecuted := g.totalExecuted + 1, resultItems := g.setItem index (.ok rs) }

def setError (g : ResultSetGroup R E) (index : ℕ) (err : E) : ResultSetGroup R E :=
  { g with
    totalExecuted := g.totalExecuted + 1
    errors := if g.errors.length < g.maxErrors then g.errors ++ [err] else g.errors
    resultItems := g.setItem index (.error err) }

end ResultSetGroup

/-- The `parameters` argument: parameter arrays for one query, or queries with parameters. -/
inductive Parameters (P : Type) where
  | shared (query : String) (items : List P)
  | own (items : List (String × P))

namespace Parameters

def length : Parameters P → ℕ
  | shared _ items => items.length
  | own items => items.length

/-- The query and the parameters at an index. -/
def item : Parameters P → ℕ → Option (String × P)
  | shared query items, index => items[index]?.map fun p => (query, p)
  | own items, index => items[index]?

theorem item_eq_none_iff (ps : Parameters P) (index : ℕ) :
    ps.item index = none ↔ ps.length ≤ index := by
  cases ps <;> simp [item, length]

theorem lt_of_item {ps : Parameters P} {index : ℕ} {q : String × P} (h : ps.item index = some q) :
    index < ps.length := by
  by_contra hge
  rw [(item_eq_none_iff _ _).2 (Nat.le_of_not_lt hge)] at h
  cases h

end Parameters

structure ArrayBasedExecutor (P : Type) where
  parameters : Parameters P
  options : Options

namespace ArrayBasedExecutor

/-- `options.concurrencyLevel || 100` -/
def concurrencyLevel (x : ArrayBasedExecutor P) : ℕ :=
  match x.options.concurrencyLevel with
  | some (k + 1) => k + 1
  | _ => 100

/-- `this._concurrencyLevel`, the number of chains. -/
def level (x : ArrayBasedExecutor P) : ℕ := min x.concurrencyLevel x.parameters.length

theorem concurrencyLevel_pos (x : ArrayBasedExecutor P) : 0 < x.concurrencyLevel := by
  unfold concurrencyLevel
  split <;> omega

theorem level_pos (x : ArrayBasedExecutor P) (h : 0 < x.parameters.length) : 0 < x.level :=
  lt_min x.concurrencyLevel_pos h

/-- `options.raiseOnFirstError !== false` -/
def raiseOnFirstError (x : ArrayBasedExecutor P) : Bool := x.options.raiseOnFirstError != some false

end ArrayBasedExecutor

/-- Where a chain stands; `iteration` is the argument of the running call. -/
inductive Phase (R E : Type) where
  | ready (iteration : ℕ)
  | preparing (iteration : ℕ)
  | prepared (iteration : ℕ)
  | executing (iteration : ℕ)
  | executed (iteration : ℕ) (o : Except E R)
  /-- The chain's promise is resolved: the last call found nothing to do. -/
  | done (iteration : ℕ)
  /-- An exception was thrown after `dispatches` requests. -/
  | failing (dispatches : ℕ) (e : E)
  /-- The chain's promise is rejected. -/
  | failed (dispatches : ℕ)

/-- A call `rustyExecute(prepared, params, …)`. -/
structure Dispatch (P : Type) where
  index : ℕ
  query : String
  params : P

structure State (P R E : Type) where
  chains : ℕ → Phase R E
  cache : PreparedCache
  stop : Bool
  result : ResultSetGroup R E
  /-- The first rejection among the chains, with which `Promise.all` rejects. -/
  rejection : Option E
  dispatched : List (Dispatch P)
  answers : List (ℕ × Except E R)
  recorded : List (ℕ × Except E R)

inductive Action (R E : Type) where
  | run (i : ℕ)
  | prepareResolve (i : ℕ)
  | prepareReject (i : ℕ) (e : E)
  | resume (i : ℕ)
  | executeSettle (i : ℕ) (o : Except E R)
  | record (i : ℕ)
  | reject (i : ℕ)

/-- The action is the failure of a promise. -/
def Action.fails : Action R E → Bool
  | .prepareReject _ _ | .executeSettle _ (.error _) => true
  | _ => false

def State.setChain (s : State P R E) (i : ℕ) (p : Phase R E) : State P R E :=
  { s with chains := Function.update s.chains i p }

namespace ArrayBasedExecutor

variable (x : ArrayBasedExecutor P)

/-- The parameter index of a call. -/
def index (i iteration : ℕ) : ℕ := i + x.level * iteration

/-- The constructor, and the loop of `execute()` that starts the chains. -/
def init : State P R E where
  chains i := if i < x.level then .ready 0 else .done 0
  cache := ⟨[]⟩
  stop := false
  result := .new x.options
  rejection := none
  dispatched := []
  answers := []
  recorded := []

def dispatch (s : State P R E) (i iteration : ℕ) (query : String) (params : P) : State P R E :=
  { s.setChain i (.executing iteration) with
    dispatched := s.dispatched ++ [⟨x.index i iteration, query, params⟩] }

/-- `_executeOneAtATime` up to its first suspension. -/
def executeOneAtATime (s : State P R E) (i iteration : ℕ) : State P R E :=
  match x.parameters.item (x.index i iteration) with
  | none => s.setChain i (.done iteration)
  | some (query, params) =>
      if s.stop then s.setChain i (.done iteration)
      else if s.cache.getElement query then x.dispatch s i iteration query params
      else s.setChain i (.preparing iteration)

/-- The handlers behind `rustyExecute`. -/
def recordOutcome (s : State P R E) (i iteration : ℕ) (o : Except E R) : State P R E :=
  let s := { s with recorded := s.recorded ++ [(x.index i iteration, o)] }
  match o with
  | .ok rs =>
      { s.setChain i (.ready (iteration + 1)) with
        result := s.result.setResultItem (x.index i iteration) rs }
  | .error err =>
      let s := { s with result := s.result.setError (x.index i iteration) err }
      if x.raiseOnFirstError then { s.setChain i (.failing (iteration + 1) err) with stop := true }
      else s.setChain i (.ready (iteration + 1))

def step (s : State P R E) : Action R E → Option (State P R E)
  | .run i =>
      match s.chains i with
      | .ready iteration => some (x.executeOneAtATime s i iteration)
      | _ => none
  | .prepareResolve i =>
      match s.chains i with
      | .preparing iteration => some (s.setChain i (.prepared iteration))
      | _ => none
  | .prepareReject i e =>
      match s.chains i with
      | .preparing iteration => some (s.setChain i (.failing iteration e))
      | _ => none
  | .resume i =>
      match s.chains i with
      | .prepared iteration =>
          (x.parameters.item (x.index i iteration)).map fun (query, params) =>
            x.dispatch { s with cache := s.cache.storeElement query } i iteration query params
      | _ => none
  | .executeSettle i o =>
      match s.chains i with
      | .executing iteration =>
          some { s.setChain i (.executed iteration o) with
            answers := s.answers ++ [(x.index i iteration, o)] }
      | _ => none
  | .record i =>
      match s.chains i with
      | .executed iteration o => some (x.recordOutcome s i iteration o)
      | _ => none
  | .reject i =>
      match s.chains i with
      | .failing dispatches e =>
          some { s.setChain i (.failed dispatches) with rejection := s.rejection <|> some e }
      | _ => none

end ArrayBasedExecutor

/-- The promise returned by `execute()`, that is `Promise.all` of the chains. -/
inductive Status (E : Type) where
  | pending
  | resolved
  | rejected (e : E)

def Phase.isDone : Phase R E → Bool
  | .done _ => true
  | _ => false

/-- The promise of the chain is resolved or rejected. -/
def Phase.isSettled : Phase R E → Bool
  | .done _ | .failed _ => true
  | _ => false

namespace ArrayBasedExecutor

variable (x : ArrayBasedExecutor P)

def status (s : State P R E) : Status E :=
  match s.rejection with
  | some e => .rejected e
  | none => if (List.range x.level).all (fun i => (s.chains i).isDone) then .resolved else .pending

/-- No promise is outstanding and no promise job is queued. -/
def Settled (s : State P R E) : Prop := ∀ i < x.level, (s.chains i).isSettled = true

instance (s : State P R E) : Decidable (x.Settled s) :=
  inferInstanceAs (Decidable (∀ i < x.level, (s.chains i).isSettled = true))

end ArrayBasedExecutor

/-! ### What a step does -/

namespace ArrayBasedExecutor

variable {x : ArrayBasedExecutor P}

/-- The steps, one constructor for each way the state can change. -/
inductive Moves (x : ArrayBasedExecutor P) (s : State P R E) : Action R E → State P R E → Prop
  | finish {i it} : s.chains i = .ready it → x.parameters.length ≤ x.index i it ∨ s.stop = true →
      Moves x s (.run i) (s.setChain i (.done it))
  | prepare {i it} : s.chains i = .ready it → x.index i it < x.parameters.length →
      s.stop = false →
      Moves x s (.run i) (s.setChain i (.preparing it))
  | send {i it query params} : s.chains i = .ready it →
      x.parameters.item (x.index i it) = some (query, params) → s.stop = false →
      Moves x s (.run i) (x.dispatch s i it query params)
  | prepareResolve {i it} : s.chains i = .preparing it →
      Moves x s (.prepareResolve i) (s.setChain i (.prepared it))
  | prepareReject {i it e} : s.chains i = .preparing it →
      Moves x s (.prepareReject i e) (s.setChain i (.failing it e))
  | resume {i it query params} : s.chains i = .prepared it →
      x.parameters.item (x.index i it) = some (query, params) →
      Moves x s (.resume i)
        (x.dispatch { s with cache := s.cache.storeElement query } i it query params)
  | executeSettle {i it o} : s.chains i = .executing it →
      Moves x s (.executeSettle i o)
        { s.setChain i (.executed it o) with answers := s.answers ++ [(x.index i it, o)] }
  | record {i it o} : s.chains i = .executed it o →
      Moves x s (.record i) (x.recordOutcome s i it o)
  | reject {i d e} : s.chains i = .failing d e →
      Moves x s (.reject i)
        { s.setChain i (.failed d) with rejection := s.rejection <|> some e }

theorem moves_of_step {s s' : State P R E} {a : Action R E} (h : x.step s a = some s') :
    Moves x s a s' := by
  cases a with
  | run i =>
      simp only [step] at h
      split at h
      · rename_i it hc
        obtain rfl := Option.some.inj h
        unfold executeOneAtATime
        split
        · rename_i hitem
          exact .finish hc (Or.inl ((Parameters.item_eq_none_iff _ _).1 hitem))
        · rename_i query params hitem
          split_ifs with hstop hcache
          · exact .finish hc (Or.inr hstop)
          · exact .send hc hitem (by simpa using hstop)
          · exact .prepare hc (Parameters.lt_of_item hitem) (by simpa using hstop)
      · cases h
  | prepareResolve i =>
      simp only [step] at h
      split at h
      · obtain rfl := Option.some.inj h
        exact .prepareResolve ‹_›
      · cases h
  | prepareReject i e =>
      simp only [step] at h
      split at h
      · obtain rfl := Option.some.inj h
        exact .prepareReject ‹_›
      · cases h
  | resume i =>
      simp only [step] at h
      split at h
      · obtain ⟨⟨query, params⟩, hitem, rfl⟩ := Option.map_eq_some_iff.1 h
        exact .resume ‹_› hitem
      · cases h
  | executeSettle i o =>
      simp only [step] at h
      split at h
      · obtain rfl := Option.some.inj h
        exact .executeSettle ‹_›
      · cases h
  | record i =>
      simp only [step] at h
      split at h
      · obtain rfl := Option.some.inj h
        exact .record ‹_›
      · cases h
  | reject i =>
      simp only [step] at h
      split at h
      · obtain rfl := Option.some.inj h
        exact .reject ‹_›
      · cases h

end ArrayBasedExecutor

/-! ### Tallies

The chains partition the indices by their residue modulo the level.  A tally says that a list of
indices holds, for every chain `i`, the first `f i` indices of that chain, each once. -/

/-- Every index occurs once if it belongs to the first `f i` calls of its chain, else never. -/
def Tally (x : ArrayBasedExecutor P) (f : ℕ → ℕ) (indices : List ℕ) : Prop :=
  ∀ index, indices.count index =
    if index < x.parameters.length ∧ index / x.level < f (index % x.level) then 1 else 0

namespace Tally

variable {x : ArrayBasedExecutor P} {f : ℕ → ℕ} {indices : List ℕ}

theorem nil : Tally x (fun _ => 0) [] := by
  intro index
  simp

/-- The next index of a chain is appended. -/
theorem snoc {i it : ℕ} (h : Tally x f indices) (hi : i < x.level) (hf : f i = it)
    (hlt : x.index i it < x.parameters.length) :
    Tally x (Function.update f i (it + 1)) (indices ++ [x.index i it]) := by
  intro index
  have hmod : x.index i it % x.level = i := by
    rw [ArrayBasedExecutor.index, Nat.add_mul_mod_self_left, Nat.mod_eq_of_lt hi]
  have hdiv : x.index i it / x.level = it := by
    rw [ArrayBasedExecutor.index, Nat.add_mul_div_left _ _ (by omega), Nat.div_eq_of_lt hi,
      Nat.zero_add]
  rw [List.count_append, h index, List.count_singleton]
  by_cases he : index = x.index i it
  · subst he
    simp [hmod, hdiv, hlt, hf]
  · have hne : ¬ (x.index i it = index) := fun e => he e.symm
    by_cases hr : index % x.level = i
    · have hq : index / x.level ≠ it := by
        intro hq
        apply he
        rw [ArrayBasedExecutor.index, ← hr, ← hq, Nat.mod_add_div]
      have : index / x.level < it + 1 ↔ index / x.level < it := by omega
      simp [hr, hf, hne, this]
    · simp [Function.update_of_ne hr, hne]

theorem count_le_one (h : Tally x f indices) (index : ℕ) : indices.count index ≤ 1 := by
  rw [h index]
  split_ifs <;> omega

theorem nodup (h : Tally x f indices) : indices.Nodup :=
  List.nodup_iff_count_le_one.2 h.count_le_one

theorem mem_iff (h : Tally x f indices) (index : ℕ) :
    index ∈ indices ↔ index < x.parameters.length ∧ index / x.level < f (index % x.level) := by
  rw [← List.one_le_count_iff, h index]
  split_ifs with hc <;> simp [hc]

/-- A tally that covers the whole of every chain holds every index once. -/
theorem count_eq_one (h : Tally x f indices)
    (hall : ∀ i < x.level, x.parameters.length ≤ x.index i (f i)) {index : ℕ}
    (hlt : index < x.parameters.length) : indices.count index = 1 := by
  rw [h index, if_pos]
  refine ⟨hlt, ?_⟩
  have hend := hall _ (Nat.mod_lt index (x.level_pos (by omega)))
  by_contra hge
  have : x.level * f (index % x.level) ≤ x.level * (index / x.level) :=
    Nat.mul_le_mul_left _ (Nat.le_of_not_lt hge)
  have hsplit := Nat.mod_add_div index x.level
  unfold ArrayBasedExecutor.index at hend
  omega

/-- Its length is the number of parameters then. -/
theorem length_eq (h : Tally x f indices)
    (hall : ∀ i < x.level, x.parameters.length ≤ x.index i (f i)) :
    indices.length = x.parameters.length := by
  have hperm : indices.Perm (List.range x.parameters.length) := by
    rw [List.perm_iff_count]
    intro index
    by_cases hlt : index < x.parameters.length
    · rw [h.count_eq_one hall hlt, List.count_eq_one_of_mem (List.nodup_range) (by simpa using hlt)]
    · rw [h index, if_neg (fun hc => hlt hc.1), List.count_eq_zero_of_not_mem (by simpa using hlt)]
  simpa using hperm.length_eq

end Tally

/-! ### The invariant of the chains -/

namespace Phase

/-- The iteration of a call that has passed the test at the top of `_executeOneAtATime`. -/
def calling : Phase R E → Option ℕ
  | preparing it | prepared it | executing it | executed it _ => some it
  | ready _ | done _ | failing _ _ | failed _ => none

/-- The number of requests the chain has dispatched. -/
def dispatches : Phase R E → ℕ
  | ready it | preparing it | prepared it | done it => it
  | executing it | executed it _ => it + 1
  | failing d _ | failed d => d

/-- The number of its requests that have been answered. -/
def answered : Phase R E → ℕ
  | ready it | preparing it | prepared it | executing it | done it => it
  | executed it _ => it + 1
  | failing d _ | failed d => d

/-- The number of its outcomes that have been recorded. -/
def outcomes : Phase R E → ℕ
  | ready it | preparing it | prepared it | executing it | executed it _ | done it => it
  | failing d _ | failed d => d

end Phase

namespace Tally

variable {x : ArrayBasedExecutor P} {chains : ℕ → Phase R E} {i : ℕ} {p : Phase R E}
variable {g : Phase R E → ℕ} {indices : List ℕ}

theorem start (hready : g (.ready 0) = 0) (hdone : g (.done 0) = 0) :
    Tally x (g ∘ (x.init : State P R E).chains) [] := by
  have hg : g ∘ (x.init : State P R E).chains = fun _ => 0 := by
    funext i
    simp only [ArrayBasedExecutor.init, Function.comp]
    split_ifs
    · exact hready
    · exact hdone
  rw [hg]
  exact nil

theorem keep (h : Tally x (g ∘ chains) indices) (hp : g p = g (chains i)) :
    Tally x (g ∘ Function.update chains i p) indices := by
  rw [Function.comp_update, hp, ← Function.comp_apply (f := g), Function.update_eq_self]
  exact h

theorem advance {it : ℕ} (h : Tally x (g ∘ chains) indices) (hi : i < x.level)
    (hg : g (chains i) = it) (hp : g p = it + 1) (hlt : x.index i it < x.parameters.length) :
    Tally x (g ∘ Function.update chains i p) (indices ++ [x.index i it]) := by
  rw [Function.comp_update, hp]
  exact h.snoc hi hg hlt

end Tally

/-- Only the chains started by `execute()` do anything, and they stay within the list. -/
structure InRange (x : ArrayBasedExecutor P) (chains : ℕ → Phase R E) : Prop where
  idle : ∀ i, x.level ≤ i → chains i = .done 0
  calling : ∀ i it, (chains i).calling = some it → x.index i it < x.parameters.length

namespace InRange

variable {x : ArrayBasedExecutor P} {chains : ℕ → Phase R E} {i : ℕ} {p : Phase R E}

theorem init (x : ArrayBasedExecutor P) : InRange x (x.init : State P R E).chains where
  idle i hi := by simp [ArrayBasedExecutor.init, Nat.not_lt.2 hi]
  calling i it h := by
    simp only [ArrayBasedExecutor.init] at h
    split_ifs at h <;> cases h

theorem lt_level (h : InRange x chains) (hc : chains i ≠ .done 0) : i < x.level := by
  by_contra hge
  exact hc (h.idle i (Nat.le_of_not_lt hge))

theorem update (h : InRange x chains) (hi : i < x.level)
    (hcall : ∀ it, p.calling = some it → x.index i it < x.parameters.length) :
    InRange x (Function.update chains i p) where
  idle j hj := by
    rw [Function.update_of_ne (by omega)]
    exact h.idle j hj
  calling j it hc := by
    rcases eq_or_ne j i with rfl | hj
    · rw [Function.update_self] at hc
      exact hcall it hc
    · rw [Function.update_of_ne hj] at hc
      exact h.calling j it hc

end InRange

/-- The histories agree with the chains, and the result group with the recorded outcomes. -/
structure Inv (x : ArrayBasedExecutor P) (s : State P R E) : Prop where
  inRange : InRange x s.chains
  dispatched : Tally x (Phase.dispatches ∘ s.chains) (s.dispatched.map Dispatch.index)
  answers : Tally x (Phase.answered ∘ s.chains) (s.answers.map Prod.fst)
  recorded : Tally x (Phase.outcomes ∘ s.chains) (s.recorded.map Prod.fst)
  items : ∀ d ∈ s.dispatched, x.parameters.item d.index = some (d.query, d.params)
  executed : ∀ i it o, s.chains i = .executed it o → (x.index i it, o) ∈ s.answers
  outcomes : ∀ q ∈ s.recorded, q ∈ s.answers
  totalExecuted : s.result.totalExecuted = s.recorded.length
  collectResults : s.result.collectResults = x.options.collectResults
  resultItems : ∀ index o, s.result.resultItems index = some o ↔
    x.options.collectResults = true ∧ (index, o) ∈ s.recorded

namespace Inv

variable {x : ArrayBasedExecutor P} {s : State P R E} {i it : ℕ} {p : Phase R E}

theorem init (x : ArrayBasedExecutor P) : Inv x (x.init : State P R E) where
  inRange := .init x
  dispatched := .start rfl rfl
  answers := .start rfl rfl
  recorded := .start rfl rfl
  items := by simp [ArrayBasedExecutor.init]
  executed i it o h := by
    simp only [ArrayBasedExecutor.init] at h
    split_ifs at h
  outcomes := by simp [ArrayBasedExecutor.init]
  totalExecuted := rfl
  collectResults := rfl
  resultItems := by simp [ArrayBasedExecutor.init, ResultSetGroup.new]

theorem executed_update (h : Inv x s) (hp : ∀ it o, p ≠ .executed it o) :
    ∀ j it o, Function.update s.chains i p j = .executed it o → (x.index j it, o) ∈ s.answers := by
  intro j it o hj
  rcases eq_or_ne j i with rfl | hne
  · rw [Function.update_self] at hj
    exact absurd hj (hp it o)
  · rw [Function.update_of_ne hne] at hj
    exact h.executed j it o hj

/-- A chain moves on without dispatching, receiving or recording anything. -/
theorem setChain {q : Phase R E} (h : Inv x s) (hc : s.chains i = q) (hq : q ≠ .done 0)
    (hcall : ∀ it, p.calling = some it → x.index i it < x.parameters.length)
    (hsame : p.dispatches = q.dispatches ∧ p.answered = q.answered ∧ p.outcomes = q.outcomes)
    (hp : ∀ it o, p ≠ .executed it o) : Inv x (s.setChain i p) := by
  subst hc
  obtain ⟨hd, ha, ho⟩ := hsame
  exact { h with
    inRange := h.inRange.update (h.inRange.lt_level hq) hcall
    dispatched := h.dispatched.keep hd
    answers := h.answers.keep ha
    recorded := h.recorded.keep ho
    executed := h.executed_update hp }

/-- A chain about to send its request sends it. -/
theorem dispatch (h : Inv x s) {query : String} {params : P}
    (hc : s.chains i = .ready it ∨ s.chains i = .prepared it)
    (hitem : x.parameters.item (x.index i it) = some (query, params)) :
    Inv x (x.dispatch s i it query params) := by
  have hlt := Parameters.lt_of_item hitem
  have hi : i < x.level := h.inRange.lt_level (by rcases hc with hc | hc <;> simp [hc])
  refine { h with
    inRange := h.inRange.update hi ?_
    dispatched := ?_
    answers := h.answers.keep (by rcases hc with hc | hc <;> rw [hc] <;> rfl)
    recorded := h.recorded.keep (by rcases hc with hc | hc <;> rw [hc] <;> rfl)
    items := ?_
    executed := h.executed_update (by simp) }
  · intro it' hit
    obtain rfl : it = it' := by simpa [Phase.calling] using hit
    exact hlt
  · simp only [ArrayBasedExecutor.dispatch, State.setChain, List.map_append, List.map_singleton]
    exact h.dispatched.advance hi (by rcases hc with hc | hc <;> rw [hc] <;> rfl) rfl hlt
  · intro d hd
    simp only [ArrayBasedExecutor.dispatch, List.mem_append, List.mem_singleton] at hd
    rcases hd with hd | rfl
    · exact h.items d hd
    · exact hitem

theorem executeSettle (h : Inv x s) (hc : s.chains i = .executing it) (o : Except E R) :
    Inv x { s.setChain i (.executed it o) with answers := s.answers ++ [(x.index i it, o)] } := by
  have hi : i < x.level := h.inRange.lt_level (by simp [hc])
  have hlt : x.index i it < x.parameters.length := h.inRange.calling i it (by simp [hc, Phase.calling])
  refine { h with
    inRange := h.inRange.update hi ?_
    dispatched := h.dispatched.keep (by simp [hc, Phase.dispatches])
    answers := ?_
    recorded := h.recorded.keep (by simp [hc, Phase.outcomes])
    executed := ?_
    outcomes := fun q hq => List.mem_append_left _ (h.outcomes q hq) }
  · intro it' hit
    obtain rfl : it = it' := by simpa [Phase.calling] using hit
    exact hlt
  · simp only [State.setChain, List.map_append, List.map_singleton]
    exact h.answers.advance hi (by simp [hc, Phase.answered]) rfl hlt
  · intro j it' o' hj
    simp only [State.setChain] at hj
    rcases eq_or_ne j i with rfl | hne
    · rw [Function.update_self] at hj
      obtain ⟨rfl, rfl⟩ := Phase.executed.inj hj
      simp
    · rw [Function.update_of_ne hne] at hj
      exact List.mem_append_left _ (h.executed j it' o' hj)

end Inv

namespace ArrayBasedExecutor

variable (x : ArrayBasedExecutor P) (s : State P R E) (i it : ℕ) (o : Except E R)

/-- The phase of a chain behind the handlers of its request. -/
def afterOutcome (it : ℕ) : Except E R → Phase R E
  | .ok _ => .ready (it + 1)
  | .error err => if x.raiseOnFirstError then .failing (it + 1) err else .ready (it + 1)

theorem afterOutcome_cases :
    x.afterOutcome it o = .ready (it + 1) ∨ ∃ err, x.afterOutcome it o = .failing (it + 1) err := by
  cases o with
  | ok rs => exact Or.inl rfl
  | error err =>
      unfold afterOutcome
      split_ifs
      · exact Or.inr ⟨err, rfl⟩
      · exact Or.inl rfl

@[simp] theorem recordOutcome_chains :
    (x.recordOutcome s i it o).chains = Function.update s.chains i (x.afterOutcome it o) := by
  cases o with
  | ok rs => rfl
  | error err =>
      simp only [recordOutcome, afterOutcome]
      split_ifs <;> rfl

@[simp] theorem recordOutcome_dispatched : (x.recordOutcome s i it o).dispatched = s.dispatched := by
  cases o with
  | ok rs => rfl
  | error err =>
      simp only [recordOutcome]
      split_ifs <;> rfl

@[simp] theorem recordOutcome_answers : (x.recordOutcome s i it o).answers = s.answers := by
  cases o with
  | ok rs => rfl
  | error err =>
      simp only [recordOutcome]
      split_ifs <;> rfl

@[simp] theorem recordOutcome_rejection : (x.recordOutcome s i it o).rejection = s.rejection := by
  cases o with
  | ok rs => rfl
  | error err =>
      simp only [recordOutcome]
      split_ifs <;> rfl

@[simp] theorem recordOutcome_recorded :
    (x.recordOutcome s i it o).recorded = s.recorded ++ [(x.index i it, o)] := by
  cases o with
  | ok rs => rfl
  | error err =>
      simp only [recordOutcome]
      split_ifs <;> rfl

theorem recordOutcome_result :
    (x.recordOutcome s i it o).result.totalExecuted = s.result.totalExecuted + 1 ∧
    (x.recordOutcome s i it o).result.collectResults = s.result.collectResults ∧
    (x.recordOutcome s i it o).result.resultItems = s.result.setItem (x.index i it) o := by
  cases o with
  | ok rs => exact ⟨rfl, rfl, rfl⟩
  | error err =>
      simp only [recordOutcome]
      split_ifs <;> exact ⟨rfl, rfl, rfl⟩

end ArrayBasedExecutor

namespace Inv

variable {x : ArrayBasedExecutor P} {s s' : State P R E} {i it : ℕ} {o : Except E R}

theorem resultItems_setItem (h : Inv x s) (hc : s.chains i = .executed it o) :
    ∀ index o', s.result.setItem (x.index i it) o index = some o' ↔
      x.options.collectResults = true ∧ (index, o') ∈ s.recorded ++ [(x.index i it, o)] := by
  intro index o'
  rw [ResultSetGroup.setItem, h.collectResults]
  split_ifs with hcol
  · rcases eq_or_ne index (x.index i it) with rfl | hne
    · have hi : i < x.level := h.inRange.lt_level (by simp [hc])
      have hfresh : (x.index i it, o') ∉ s.recorded := by
        intro hmem
        have hlt := ((h.recorded.mem_iff _).1 (List.mem_map_of_mem (f := Prod.fst) hmem)).2
        rw [ArrayBasedExecutor.index, Nat.add_mul_div_left _ _ (by omega), Nat.div_eq_of_lt hi,
          Nat.add_mul_mod_self_left, Nat.mod_eq_of_lt hi, Function.comp_apply, hc] at hlt
        simp [Phase.outcomes] at hlt
      simp [hcol, hfresh, eq_comm]
    · rw [Function.update_of_ne hne, h.resultItems]
      simp [hne]
  · simp [h.resultItems, hcol]

theorem record (h : Inv x s) (hc : s.chains i = .executed it o) :
    Inv x (x.recordOutcome s i it o) := by
  have hi : i < x.level := h.inRange.lt_level (by simp [hc])
  have hlt : x.index i it < x.parameters.length := h.inRange.calling i it (by simp [hc, Phase.calling])
  obtain ⟨htotal, hcol, hitems⟩ := x.recordOutcome_result s i it o
  have hnext := x.afterOutcome_cases it o
  refine ⟨?_, ?_, ?_, ?_, ?_, ?_, ?_, ?_, ?_, ?_⟩
  · rw [x.recordOutcome_chains]
    apply h.inRange.update hi
    intro it' hit
    rcases hnext with e | ⟨err, e⟩ <;> rw [e] at hit <;> cases hit
  · rw [x.recordOutcome_chains, x.recordOutcome_dispatched]
    apply h.dispatched.keep
    rcases hnext with e | ⟨err, e⟩ <;> rw [e, hc] <;> rfl
  · rw [x.recordOutcome_chains, x.recordOutcome_answers]
    apply h.answers.keep
    rcases hnext with e | ⟨err, e⟩ <;> rw [e, hc] <;> rfl
  · rw [x.recordOutcome_chains, x.recordOutcome_recorded, List.map_append, List.map_singleton]
    refine h.recorded.advance hi (by simp [hc, Phase.outcomes]) ?_ hlt
    rcases hnext with e | ⟨err, e⟩ <;> rw [e] <;> rfl
  · rw [x.recordOutcome_dispatched]
    exact h.items
  · rw [x.recordOutcome_chains, x.recordOutcome_answers]
    apply h.executed_update
    intro it' o'
    rcases hnext with e | ⟨err, e⟩ <;> rw [e] <;> simp
  · rw [x.recordOutcome_recorded, x.recordOutcome_answers]
    intro q hq
    rcases List.mem_append.1 hq with hq | hq
    · exact h.outcomes q hq
    · rw [List.mem_singleton.1 hq]
      exact h.executed i it o hc
  · rw [htotal, h.totalExecuted, x.recordOutcome_recorded, List.length_append, List.length_singleton]
  · rw [hcol, h.collectResults]
  · rw [hitems, x.recordOutcome_recorded]
    exact h.resultItems_setItem hc

theorem moves (h : Inv x s) {a : Action R E} (hm : ArrayBasedExecutor.Moves x s a s') : Inv x s' := by
  cases hm with
  | finish hc _ =>
      exact h.setChain hc (by simp) (by simp [Phase.calling]) ⟨rfl, rfl, rfl⟩ (by simp)
  | prepare hc hlt _ =>
      exact h.setChain hc (by simp) (by simpa [Phase.calling] using hlt) ⟨rfl, rfl, rfl⟩ (by simp)
  | send hc hitem _ => exact h.dispatch (Or.inl hc) hitem
  | prepareResolve hc =>
      have hlt := h.inRange.calling _ _ (by rw [hc]; rfl)
      exact h.setChain hc (by simp) (by simpa [Phase.calling] using hlt) ⟨rfl, rfl, rfl⟩ (by simp)
  | prepareReject hc =>
      exact h.setChain hc (by simp) (by simp [Phase.calling]) ⟨rfl, rfl, rfl⟩ (by simp)
  | @resume _ _ query _ hc hitem =>
      have hs : Inv x { s with cache := s.cache.storeElement query } := { h with }
      exact hs.dispatch (Or.inr hc) hitem
  | executeSettle hc => exact h.executeSettle hc _
  | record hc => exact h.record hc
  | @reject i d e hc =>
      have hs : Inv x (s.setChain i (.failed d)) :=
        h.setChain hc (by simp) (by simp [Phase.calling]) ⟨rfl, rfl, rfl⟩ (by simp)
      exact { hs with }

theorem of_run {as : List (Action R E)} (h : Run x.step x.init as s) : Inv x s :=
  h.invariant (.init x) fun _ _ _ hs hstep => hs.moves (ArrayBasedExecutor.moves_of_step hstep)

end Inv

/-! ### Every run ends -/

/-- A bound on the number of actions the chain may still take in a list of `n` parameters. -/
def Phase.remaining (n : ℕ) : Phase R E → ℕ
  | ready it => 5 * (n + 1 - it) + 1
  | preparing it => 5 * (n + 1 - it)
  | prepared it => 5 * (n + 1 - it) - 1
  | executing it => 5 * (n + 1 - it) - 2
  | executed it _ => 5 * (n + 1 - it) - 3
  | failing _ _ => 1
  | done _ | failed _ => 0

namespace ArrayBasedExecutor

variable {x : ArrayBasedExecutor P} {s s' : State P R E} {a : Action R E}

theorem iteration_lt {i it : ℕ} (hi : i < x.level) (h : x.index i it < x.parameters.length) :
    it < x.parameters.length := by
  have : it ≤ x.level * it := Nat.le_mul_of_pos_left it (by omega)
  unfold index at h
  omega

theorem Moves.remaining_lt (hm : Moves x s a s') (h : Inv x s) :
    ∃ i p, i < x.level ∧ s'.chains = Function.update s.chains i p ∧
      p.remaining x.parameters.length < (s.chains i).remaining x.parameters.length := by
  have lt_level : ∀ i, s.chains i ≠ .done 0 → i < x.level := fun i => h.inRange.lt_level
  have lt_length : ∀ i it, (s.chains i).calling = some it → it < x.parameters.length := fun i it hc =>
    iteration_lt (lt_level i (by intro hd; rw [hd] at hc; cases hc)) (h.inRange.calling i it hc)
  cases hm with
  | @finish i it hc _ =>
      exact ⟨i, _, lt_level i (by simp [hc]), rfl, by rw [hc]; simp [Phase.remaining]⟩
  | @prepare i it hc hlt _ =>
      exact ⟨i, _, lt_level i (by simp [hc]), rfl, by rw [hc]; simp [Phase.remaining]⟩
  | @send i it query params hc hitem _ =>
      refine ⟨i, _, lt_level i (by simp [hc]), rfl, ?_⟩
      rw [hc]
      simp only [Phase.remaining]
      omega
  | @prepareResolve i it hc =>
      have := lt_length i it (by rw [hc]; rfl)
      refine ⟨i, _, lt_level i (by simp [hc]), rfl, ?_⟩
      rw [hc]
      simp only [Phase.remaining]
      omega
  | @prepareReject i it e hc =>
      have := lt_length i it (by rw [hc]; rfl)
      refine ⟨i, _, lt_level i (by simp [hc]), rfl, ?_⟩
      rw [hc]
      simp only [Phase.remaining]
      omega
  | @resume i it query params hc hitem =>
      have := lt_length i it (by rw [hc]; rfl)
      refine ⟨i, _, lt_level i (by simp [hc]), rfl, ?_⟩
      rw [hc]
      simp only [Phase.remaining]
      omega
  | @executeSettle i it o hc =>
      have := lt_length i it (by rw [hc]; rfl)
      refine ⟨i, _, lt_level i (by simp [hc]), rfl, ?_⟩
      rw [hc]
      simp only [Phase.remaining]
      omega
  | @record i it o hc =>
      have := lt_length i it (by rw [hc]; rfl)
      refine ⟨i, _, lt_level i (by simp [hc]), x.recordOutcome_chains s i it o, ?_⟩
      rw [hc]
      rcases x.afterOutcome_cases it o with e | ⟨err, e⟩ <;> rw [e] <;> simp only [Phase.remaining] <;>
        omega
  | @reject i d e hc =>
      exact ⟨i, _, lt_level i (by simp [hc]), rfl, by rw [hc]; simp [Phase.remaining]⟩

/-- The actions all chains together may still take. -/
def remaining (x : ArrayBasedExecutor P) (s : State P R E) : ℕ :=
  ∑ i ∈ Finset.range x.level, (s.chains i).remaining x.parameters.length

theorem Moves.sum_remaining_lt (hm : Moves x s a s') (h : Inv x s) : x.remaining s' < x.remaining s := by
  obtain ⟨i, p, hi, hchains, hlt⟩ := hm.remaining_lt h
  unfold remaining
  rw [hchains]
  refine Finset.sum_lt_sum (fun j _ => ?_) ⟨i, Finset.mem_range.2 hi, ?_⟩
  · rcases eq_or_ne j i with rfl | hne
    · rw [Function.update_self]
      exact hlt.le
    · rw [Function.update_of_ne hne]
  · rw [Function.update_self]
    exact hlt

/-- A run takes a bounded number of actions. -/
theorem run_length_le {as : List (Action R E)} (h : Run x.step x.init as s) :
    as.length ≤ x.level * (5 * (x.parameters.length + 1) + 1) := by
  have hinit : x.remaining (x.init : State P R E) = x.level * (5 * (x.parameters.length + 1) + 1) := by
    unfold remaining
    rw [Finset.sum_congr rfl (g := fun _ => 5 * (x.parameters.length + 1) + 1), Finset.sum_const,
      Finset.card_range, smul_eq_mul]
    intro i hi
    simp [init, Finset.mem_range.1 hi, Phase.remaining]
  have hsum : Inv x s ∧ as.length + x.remaining s ≤ x.remaining (x.init : State P R E) := by
    refine h.history (P := fun as s => Inv x s ∧ as.length + x.remaining s ≤ _) ⟨.init x, by simp⟩ ?_
    intro as s₁ a s₂ ⟨hinv, hle⟩ hstep
    have hm := moves_of_step hstep
    refine ⟨hinv.moves hm, ?_⟩
    have := hm.sum_remaining_lt hinv
    rw [List.length_append, List.length_singleton]
    omega
  omega

/-- Unless everything has settled, some promise can resolve or some promise job can run. -/
theorem settled_or_enabled [Inhabited R] (h : Inv x s) :
    x.Settled s ∨ ∃ a s', a.fails = false ∧ x.step s a = some s' := by
  by_cases hs : x.Settled s
  · exact Or.inl hs
  · right
    simp only [Settled, not_forall] at hs
    obtain ⟨i, _, hi⟩ := hs
    cases hc : s.chains i with
    | ready it => exact ⟨.run i, _, rfl, by rw [step, hc]⟩
    | preparing it => exact ⟨.prepareResolve i, _, rfl, by rw [step, hc]⟩
    | prepared it =>
        have hlt := h.inRange.calling i it (by rw [hc]; rfl)
        cases hitem : x.parameters.item (x.index i it) with
        | none => exact absurd ((Parameters.item_eq_none_iff _ _).1 hitem) (by omega)
        | some q => exact ⟨.resume i, _, rfl, by simp [step, hc, hitem]; rfl⟩
    | executing it => exact ⟨.executeSettle i (.ok default), _, rfl, by rw [step, hc]⟩
    | executed it o => exact ⟨.record i, _, rfl, by rw [step, hc]⟩
    | done it => simp [hc, Phase.isSettled] at hi
    | failing d e => exact ⟨.reject i, _, rfl, by rw [step, hc]⟩
    | failed d => simp [hc, Phase.isSettled] at hi

end ArrayBasedExecutor

/-! ### Runs without exceptions -/

/-- The action makes no chain throw. -/
def Harmless (x : ArrayBasedExecutor P) : Action R E → Prop
  | .prepareReject _ _ => False
  | .executeSettle _ (.error _) => x.raiseOnFirstError = false
  | _ => True

/-- No chain has thrown or is about to, so that every chain went through its whole share. -/
structure Undisturbed (x : ArrayBasedExecutor P) (s : State P R E) : Prop where
  failing : ∀ i d e, s.chains i ≠ .failing d e
  failed : ∀ i d, s.chains i ≠ .failed d
  executed : ∀ i it o, s.chains i = .executed it o → x.afterOutcome it o = .ready (it + 1)
  done : ∀ i it, s.chains i = .done it → i < x.level → x.parameters.length ≤ x.index i it
  stop : s.stop = false
  rejection : s.rejection = none

namespace Undisturbed

variable {x : ArrayBasedExecutor P} {s s' : State P R E} {i : ℕ} {p : Phase R E}

theorem init (x : ArrayBasedExecutor P) : Undisturbed x (x.init : State P R E) where
  failing i d e := by
    simp only [ArrayBasedExecutor.init]
    split_ifs <;> simp
  failed i d := by
    simp only [ArrayBasedExecutor.init]
    split_ifs <;> simp
  executed i it o h := by
    simp only [ArrayBasedExecutor.init] at h
    split_ifs at h
  done i it h hi := by simp [ArrayBasedExecutor.init, hi] at h
  stop := rfl
  rejection := rfl

/-- A chain moves to a phase that is itself undisturbed. -/
theorem update (h : Undisturbed x s) (hchains : s'.chains = Function.update s.chains i p)
    (hstop : s'.stop = s.stop) (hrej : s'.rejection = s.rejection)
    (hfailing : ∀ d e, p ≠ .failing d e) (hfailed : ∀ d, p ≠ .failed d)
    (hexec : ∀ it o, p = .executed it o → x.afterOutcome it o = .ready (it + 1))
    (hdone : ∀ it, p = .done it → x.parameters.length ≤ x.index i it) : Undisturbed x s' := by
  have hcases : ∀ j, s'.chains j = s.chains j ∨ j = i ∧ s'.chains j = p := by
    intro j
    rw [hchains]
    rcases eq_or_ne j i with rfl | hne
    · exact Or.inr ⟨rfl, Function.update_self _ _ _⟩
    · exact Or.inl (Function.update_of_ne hne _ _)
  refine ⟨?_, ?_, ?_, ?_, hstop.trans h.stop, hrej.trans h.rejection⟩
  · intro j d e
    rcases hcases j with hj | ⟨-, hj⟩ <;> rw [hj]
    · exact h.failing j d e
    · exact hfailing d e
  · intro j d
    rcases hcases j with hj | ⟨-, hj⟩ <;> rw [hj]
    · exact h.failed j d
    · exact hfailed d
  · intro j it o hjo
    rcases hcases j with hj | ⟨-, hj⟩ <;> rw [hj] at hjo
    · exact h.executed j it o hjo
    · exact hexec it o hjo
  · intro j it hjd hlt
    rcases hcases j with hj | ⟨rfl, hj⟩ <;> rw [hj] at hjd
    · exact h.done j it hjd hlt
    · exact hdone it hjd

theorem moves {a : Action R E} (h : Undisturbed x s) (ha : Harmless x a)
    (hm : ArrayBasedExecutor.Moves x s a s') : Undisturbed x s' := by
  cases hm with
  | finish hc hend =>
      refine h.update rfl rfl rfl (by simp) (by simp) (by simp) ?_
      rintro it ⟨⟩
      simpa [h.stop] using hend
  | prepare hc hlt _ => exact h.update rfl rfl rfl (by simp) (by simp) (by simp) (by simp)
  | send hc hitem _ => exact h.update rfl rfl rfl (by simp) (by simp) (by simp) (by simp)
  | prepareResolve hc => exact h.update rfl rfl rfl (by simp) (by simp) (by simp) (by simp)
  | prepareReject hc => exact ha.elim
  | resume hc hitem => exact h.update rfl rfl rfl (by simp) (by simp) (by simp) (by simp)
  | @executeSettle i it o hc =>
      refine h.update rfl rfl rfl (by simp) (by simp) ?_ (by simp)
      rintro it' o' ⟨⟩
      cases o with
      | ok rs => rfl
      | error err =>
          have hraise : x.raiseOnFirstError = false := ha
          simp [ArrayBasedExecutor.afterOutcome, hraise]
  | @record i it o hc =>
      have hnext := h.executed i it o hc
      refine h.update (i := i) (p := .ready (it + 1)) ?_ ?_ (x.recordOutcome_rejection s i it o) (by simp)
        (by simp) (by simp) (by simp)
      · rw [x.recordOutcome_chains, hnext]
      · cases o with
        | ok rs => rfl
        | error err =>
            simp only [ArrayBasedExecutor.recordOutcome]
            split_ifs with hraise
            · simp [ArrayBasedExecutor.afterOutcome, hraise] at hnext
            · rfl
  | reject hc => exact absurd hc (h.failing _ _ _)

theorem of_run {as : List (Action R E)} (h : Run x.step x.init as s) (ha : ∀ a ∈ as, Harmless x a) :
    Undisturbed x s :=
  h.invariant_of ha (.init x) fun _ _ _ ha hs hstep =>
    hs.moves ha (ArrayBasedExecutor.moves_of_step hstep)

theorem status_eq_resolved_iff (h : Undisturbed x s) :
    x.status s = .resolved ↔ ∀ i < x.level, ∃ it, s.chains i = .done it := by
  have hdone : ∀ p : Phase R E, p.isDone = true ↔ ∃ it, p = .done it := by
    intro p
    cases p <;> simp [Phase.isDone]
  simp only [ArrayBasedExecutor.status, h.rejection, ← hdone]
  rw [ite_eq_left_iff]
  simp

theorem resolved_of_settled (h : Undisturbed x s) (hs : x.Settled s) : x.status s = .resolved := by
  rw [h.status_eq_resolved_iff]
  intro i hi
  have := hs i hi
  cases hc : s.chains i with
  | done it => exact ⟨it, rfl⟩
  | failed d => exact absurd hc (h.failed i d)
  | _ => simp [hc, Phase.isSettled] at this

/-- Once `execute()` has resolved, every chain has gone through its whole share. -/
theorem share_done (h : Undisturbed x s) (hs : x.status s = .resolved) {g : Phase R E → ℕ}
    (hg : ∀ it, g (.done it) = it) :
    ∀ i < x.level, x.parameters.length ≤ x.index i ((g ∘ s.chains) i) := by
  intro i hi
  obtain ⟨it, hc⟩ := h.status_eq_resolved_iff.1 hs i hi
  rw [Function.comp_apply, hc, hg]
  exact h.done i it hc hi

end Undisturbed

/-! ### Runs with exceptions -/

def Phase.isThrown : Phase R E → Bool
  | .failing _ _ | .failed _ => true
  | _ => false

section

variable {x : ArrayBasedExecutor P} {s s' : State P R E} {a : Action R E} {as : List (Action R E)}

/-- An exception in a chain never goes away. -/
theorem ArrayBasedExecutor.Moves.isThrown (hm : Moves x s a s') {j : ℕ}
    (hj : (s.chains j).isThrown = true) : (s'.chains j).isThrown = true := by
  have keep : ∀ i p, (s.chains i).isThrown = false →
      (Function.update s.chains i p j).isThrown = true := by
    intro i p hi
    rw [Function.update_of_ne]
    · exact hj
    · rintro rfl
      rw [hj] at hi
      cases hi
  cases hm with
  | finish hc _ => exact keep _ _ (by rw [hc]; rfl)
  | prepare hc _ _ => exact keep _ _ (by rw [hc]; rfl)
  | send hc _ _ => exact keep _ _ (by rw [hc]; rfl)
  | prepareResolve hc => exact keep _ _ (by rw [hc]; rfl)
  | prepareReject hc => exact keep _ _ (by rw [hc]; rfl)
  | resume hc _ => exact keep _ _ (by rw [hc]; rfl)
  | executeSettle hc => exact keep _ _ (by rw [hc]; rfl)
  | record hc =>
      rw [x.recordOutcome_chains]
      exact keep _ _ (by rw [hc]; rfl)
  | @reject i d e hc =>
      simp only [State.setChain]
      rcases eq_or_ne j i with rfl | hne
      · rw [Function.update_self]
        rfl
      · rw [Function.update_of_ne hne]
        exact hj

theorem isThrown_of_prepareReject (h : Run x.step x.init as s) {i : ℕ} {e : E}
    (hmem : Action.prepareReject i e ∈ as) : (s.chains i).isThrown = true := by
  refine h.history (P := fun as s => Action.prepareReject i e ∈ as → (s.chains i).isThrown = true)
    (by simp) ?_ hmem
  intro as s₁ a s₂ ih hstep hmem
  have hm := ArrayBasedExecutor.moves_of_step hstep
  rcases List.mem_append.1 hmem with hmem | hmem
  · exact hm.isThrown (ih hmem)
  · obtain rfl := List.mem_singleton.1 hmem
    cases hm with
    | prepareReject hc =>
        simp [State.setChain, Phase.isThrown]

/-- A rejected chain has rejected the promise of `execute()`. -/
theorem rejection_of_failed (h : Run x.step x.init as s) :
    ∀ i d, s.chains i = .failed d → s.rejection ≠ none := by
  refine h.invariant (P := fun s => ∀ i d, s.chains i = .failed d → s.rejection ≠ none) ?_ ?_
  · intro i d hc
    simp only [ArrayBasedExecutor.init] at hc
    split_ifs at hc
  · intro s₁ a s₂ ih hstep j d hj
    have keep : ∀ i p, Function.update s₁.chains i p j = .failed d → (∀ d, p ≠ .failed d) →
        s₁.rejection ≠ none := by
      intro i p hup hp
      rcases eq_or_ne j i with rfl | hne
      · rw [Function.update_self] at hup
        exact absurd hup (hp d)
      · rw [Function.update_of_ne hne] at hup
        exact ih j d hup
    cases ArrayBasedExecutor.moves_of_step hstep with
    | finish hc _ => exact keep _ _ hj (by simp)
    | prepare hc _ _ => exact keep _ _ hj (by simp)
    | send hc _ _ => exact keep _ _ hj (by simp)
    | prepareResolve hc => exact keep _ _ hj (by simp)
    | prepareReject hc => exact keep _ _ hj (by simp)
    | resume hc _ => exact keep _ _ hj (by simp)
    | executeSettle hc => exact keep _ _ hj (by simp)
    | @record i it o hc =>
        rw [x.recordOutcome_chains] at hj
        rw [x.recordOutcome_rejection]
        apply keep _ _ hj
        intro d
        rcases x.afterOutcome_cases it o with e | ⟨err, e⟩ <;> rw [e] <;> simp
    | reject hc => simp

/-- An exception thrown in some chain rejects the promise of `execute()`. -/
theorem not_resolved_of_thrown (h : Run x.step x.init as s) (hs : x.Settled s) {i : ℕ}
    (hi : (s.chains i).isThrown = true) : x.status s ≠ .resolved := by
  have hlt : i < x.level := (Inv.of_run h).inRange.lt_level (by
    intro hd
    rw [hd] at hi
    cases hi)
  have hsettled := hs i hlt
  cases hc : s.chains i with
  | failed d =>
      obtain ⟨e, he⟩ := Option.ne_none_iff_exists'.1 (rejection_of_failed h i d hc)
      simp [ArrayBasedExecutor.status, he]
  | failing d e => simp [hc, Phase.isSettled] at hsettled
  | _ => simp [hc, Phase.isThrown] at hi

/-- Every answer is the settlement of some `rustyExecute` promise of the run. -/
theorem settled_of_answer (h : Run x.step x.init as s) :
    ∀ q ∈ s.answers, ∃ i, Action.executeSettle i q.2 ∈ as := by
  refine h.history (P := fun as s => ∀ q ∈ s.answers, ∃ i, Action.executeSettle i q.2 ∈ as)
    (by simp [ArrayBasedExecutor.init]) ?_
  intro as s₁ a s₂ ih hstep q hq
  have earlier : q ∈ s₁.answers → ∃ i, Action.executeSettle i q.2 ∈ as ++ [a] := by
    intro hq
    obtain ⟨i, hi⟩ := ih q hq
    exact ⟨i, List.mem_append_left _ hi⟩
  cases ArrayBasedExecutor.moves_of_step hstep with
  | @executeSettle i it o hc =>
      rcases List.mem_append.1 hq with hq | hq
      · exact earlier hq
      · obtain rfl := List.mem_singleton.1 hq
        exact ⟨i, by simp⟩
  | record hc =>
      rw [x.recordOutcome_answers] at hq
      exact earlier hq
  | _ => exact earlier hq

end

/-! ### With `raiseOnFirstError = false` -/

/-- `execute()` has resolved with a group in which every index has one outcome, its own. -/
structure Complete (x : ArrayBasedExecutor P) (s : State P R E) : Prop where
  resolved : x.status s = .resolved
  totalExecuted : s.result.totalExecuted = x.parameters.length
  recorded : ∀ index < x.parameters.length, (s.recorded.map Prod.fst).count index = 1
  outcomes : ∀ q ∈ s.recorded, q ∈ s.answers
  resultItems : x.options.collectResults = true → ∀ index < x.parameters.length,
    ∃ o, (index, o) ∈ s.recorded ∧ s.result.resultItems index = some o

theorem Undisturbed.complete {x : ArrayBasedExecutor P} {s : State P R E} (h : Undisturbed x s)
    (hinv : Inv x s) (hs : x.status s = .resolved) : Complete x s := by
  have hshare := h.share_done hs (g := Phase.outcomes) (fun _ => rfl)
  have hone : ∀ index < x.parameters.length, (s.recorded.map Prod.fst).count index = 1 :=
    fun index hlt => hinv.recorded.count_eq_one hshare hlt
  refine ⟨hs, ?_, hone, hinv.outcomes, ?_⟩
  · rw [hinv.totalExecuted, ← hinv.recorded.length_eq hshare, List.length_map]
  · intro hcol index hlt
    have hmem : index ∈ s.recorded.map Prod.fst := List.one_le_count_iff.1 (hone index hlt).ge
    obtain ⟨⟨_, o⟩, hq, rfl⟩ := List.mem_map.1 hmem
    exact ⟨o, hq, (hinv.resultItems _ _).2 ⟨hcol, hq⟩⟩

/-- Every run ends; when everything has settled, `execute()` has resolved with a complete group
unless the preparation of some query was rejected. -/
theorem complete_iff [Inhabited R] (x : ArrayBasedExecutor P)
    (hraise : x.options.raiseOnFirstError = some false) {as : List (Action R E)} {s : State P R E}
    (h : Run x.step x.init as s) :
    as.length ≤ x.level * (5 * (x.parameters.length + 1) + 1) ∧
    (x.Settled s ∨ ∃ a s', a.fails = false ∧ x.step s a = some s') ∧
    (x.Settled s → (Complete x s ↔ ∀ i e, Action.prepareReject i e ∉ as)) := by
  have hinv := Inv.of_run h
  refine ⟨ArrayBasedExecutor.run_length_le h, ArrayBasedExecutor.settled_or_enabled hinv, fun hs => ?_⟩
  constructor
  · intro hc i e hmem
    exact not_resolved_of_thrown h hs (isThrown_of_prepareReject h hmem) hc.resolved
  · intro hno
    have hraise' : x.raiseOnFirstError = false := by simp [ArrayBasedExecutor.raiseOnFirstError, hraise]
    have hund : Undisturbed x s := by
      apply Undisturbed.of_run h
      intro a ha
      cases a with
      | prepareReject i e => exact absurd ha (hno i e)
      | executeSettle i o =>
          cases o with
          | ok rs => trivial
          | error err => exact hraise'
      | _ => trivial
    exact hund.complete hinv (hund.resolved_of_settled hs)

/-- Three rows of one query over two chains. -/
def threeRows : ArrayBasedExecutor ℕ :=
  ⟨.shared "insert" [10, 11, 12], ⟨some 2, some false, true, none⟩⟩

/-- The second row fails, and the first chain overtakes the second. -/
def threeRowsActions : List (Action ℕ ℕ) :=
  [.run 0, .run 1, .prepareResolve 0, .prepareResolve 1, .resume 0, .resume 1,
    .executeSettle 0 (.ok 5), .record 0, .run 0, .executeSettle 0 (.ok 7), .executeSettle 1 (.error 6),
    .record 0, .run 0, .record 1, .run 1]

theorem threeRows_exec : (exec threeRows.step threeRows.init threeRowsActions).isSome = true := by
  decide

def threeRowsEnd : State ℕ ℕ ℕ := (exec threeRows.step threeRows.init threeRowsActions).get threeRows_exec

theorem threeRows_run : Run threeRows.step threeRows.init threeRowsActions threeRowsEnd :=
  Run.of_exec (Option.some_get _).symm

theorem complete_iff_threeRows :
    Run threeRows.step threeRows.init threeRowsActions threeRowsEnd ∧
      threeRows.Settled threeRowsEnd ∧ Complete threeRows threeRowsEnd := by
  have hsettled : threeRows.Settled threeRowsEnd := by decide
  refine ⟨threeRows_run, hsettled, ((complete_iff threeRows rfl threeRows_run).2.2 hsettled).2 ?_⟩
  simp [threeRowsActions]

/-- One row whose query cannot be prepared. -/
def oneRow : ArrayBasedExecutor ℕ := ⟨.shared "insert" [10], ⟨some 1, some false, true, none⟩⟩

def oneRowActions : List (Action ℕ ℕ) := [.run 0, .prepareReject 0 6, .reject 0]

theorem oneRow_exec : (exec oneRow.step oneRow.init oneRowActions).isSome = true := by
  decide

def oneRowEnd : State ℕ ℕ ℕ := (exec oneRow.step oneRow.init oneRowActions).get oneRow_exec

/-- The rejection of `prepareQuery` rejects `execute()`, and nothing is recorded. -/
theorem not_complete_oneRow :
    oneRow.options.raiseOnFirstError = some false ∧
      Run oneRow.step oneRow.init oneRowActions oneRowEnd ∧ oneRow.Settled oneRowEnd ∧
      oneRow.status oneRowEnd = .rejected 6 ∧ oneRowEnd.result.totalExecuted = 0 ∧
      ¬ Complete oneRow oneRowEnd := by
  have hstatus : oneRow.status oneRowEnd = .rejected 6 := by rfl
  refine ⟨rfl, Run.of_exec (Option.some_get _).symm, by decide, hstatus, by decide, fun hc => ?_⟩
  rw [hc.resolved] at hstatus
  cases hstatus

/-! ### Requests -/

/-- The requests that were dispatched and not answered. -/
def State.outstanding (s : State P R E) : List (Dispatch P) :=
  s.dispatched.filter fun d => decide (d.index ∉ s.answers.map Prod.fst)

theorem harmless_of_not_fails {x : ArrayBasedExecutor P} {a : Action R E} (h : a.fails = false) :
    Harmless x a := by
  cases a with
  | prepareReject i e => cases h
  | executeSettle i o =>
      cases o with
      | ok rs => trivial
      | error err => cases h
  | _ => trivial

namespace Inv

variable {x : ArrayBasedExecutor P} {s : State P R E}

/-- At most one request of each chain is outstanding. -/
theorem outstanding_length_le (h : Inv x s) : s.outstanding.length ≤ x.level := by
  have hnodup : (s.outstanding.map Dispatch.index).Nodup :=
    h.dispatched.nodup.sublist (List.filter_sublist.map _)
  have hsub : (s.outstanding.map Dispatch.index).toFinset ⊆
      (Finset.range x.level).image fun i => x.index i (s.chains i).answered := by
    intro index hmem
    simp only [State.outstanding, List.mem_toFinset, List.mem_map, List.mem_filter,
      decide_eq_true_eq] at hmem
    obtain ⟨d, ⟨hd, hna⟩, rfl⟩ := hmem
    obtain ⟨hlt, hsent⟩ := (h.dispatched.mem_iff _).1 (List.mem_map_of_mem hd)
    have hpending := mt (h.answers.mem_iff d.index).2 (by simpa using hna)
    have hgap : ∀ p : Phase R E, p.dispatches ≤ p.answered + 1 := by
      intro p
      cases p <;> simp [Phase.dispatches, Phase.answered]
    have hle := hgap (s.chains (d.index % x.level))
    simp only [Function.comp_apply] at hsent hpending
    have hq : (s.chains (d.index % x.level)).answered = d.index / x.level := by omega
    refine Finset.mem_image.2 ⟨d.index % x.level, ?_, ?_⟩
    · exact Finset.mem_range.2 (Nat.mod_lt _ (x.level_pos (by omega)))
    · rw [hq, ArrayBasedExecutor.index, Nat.mod_add_div]
  calc s.outstanding.length = (s.outstanding.map Dispatch.index).toFinset.card := by
        rw [List.toFinset_card_of_nodup hnodup, List.length_map]
    _ ≤ ((Finset.range x.level).image fun i => x.index i (s.chains i).answered).card :=
        Finset.card_le_card hsub
    _ ≤ x.level := by simpa using Finset.card_image_le (s := Finset.range x.level)

theorem answer_unique (h : Inv x s) {index : ℕ} {o o' : Except E R} (ho : (index, o) ∈ s.answers)
    (ho' : (index, o') ∈ s.answers) : o = o' :=
  congrArg Prod.snd (List.inj_on_of_nodup_map h.answers.nodup ho ho' rfl)

/-- A collected item is the answer to the request for its own parameters. -/
theorem resultItems_answer (h : Inv x s) {index : ℕ} {o : Except E R}
    (hitem : s.result.resultItems index = some o) :
    ∃ query params, x.parameters.item index = some (query, params) ∧
      ⟨index, query, params⟩ ∈ s.dispatched ∧ ∀ o', (index, o') ∈ s.answers ↔ o' = o := by
  have hans := h.outcomes _ ((h.resultItems index o).1 hitem).2
  have hmem : index ∈ s.answers.map Prod.fst := List.mem_map_of_mem (f := Prod.fst) hans
  obtain ⟨hlt, hcount⟩ := (h.answers.mem_iff index).1 hmem
  have hgap : ∀ p : Phase R E, p.answered ≤ p.dispatches := by
    intro p
    cases p <;> simp [Phase.dispatches, Phase.answered]
  have hsent : index ∈ s.dispatched.map Dispatch.index :=
    (h.dispatched.mem_iff index).2 ⟨hlt, hcount.trans_le (hgap _)⟩
  obtain ⟨⟨_, query, params⟩, hd, rfl⟩ := List.mem_map.1 hsent
  refine ⟨query, params, h.items _ hd, hd, fun o' => ⟨fun ho' => ?_, ?_⟩⟩
  · exact h.answer_unique ho' hans
  · rintro rfl
    exact hans

end Inv

/-- In every run each index is dispatched at most once, with its own query and parameters, no more
than `concurrencyLevel` requests are outstanding, and the collected items are the answers to the
requests at their index.  When nothing fails, the run ends with `execute()` resolved, and not before
every index has been dispatched once and answered. -/
theorem requests_once [Inhabited R] (x : ArrayBasedExecutor P) {as : List (Action R E)}
    {s : State P R E} (h : Run x.step x.init as s) :
    (∀ index, (s.dispatched.map Dispatch.index).count index ≤ 1) ∧
    (∀ d ∈ s.dispatched, x.parameters.item d.index = some (d.query, d.params)) ∧
    s.outstanding.length ≤ x.concurrencyLevel ∧
    (∀ index o, s.result.resultItems index = some o →
      ∃ query params, x.parameters.item index = some (query, params) ∧
        ⟨index, query, params⟩ ∈ s.dispatched ∧ ∀ o', (index, o') ∈ s.answers ↔ o' = o) ∧
    as.length ≤ x.level * (5 * (x.parameters.length + 1) + 1) ∧
    (x.Settled s ∨ ∃ a s', a.fails = false ∧ x.step s a = some s') ∧
    ((∀ a ∈ as, a.fails = false) →
      (x.Settled s → x.status s = .resolved) ∧
      (x.status s = .resolved → s.outstanding = [] ∧ ∀ index < x.parameters.length,
        (s.dispatched.map Dispatch.index).count index = 1 ∧
        ∃ rs, (index, .ok rs) ∈ s.answers ∧
          (x.options.collectResults = true → s.result.resultItems index = some (.ok rs)))) := by
  have hinv := Inv.of_run h
  refine ⟨hinv.dispatched.count_le_one, hinv.items,
    hinv.outstanding_length_le.trans (min_le_left _ _), fun _ _ => hinv.resultItems_answer,
    ArrayBasedExecutor.run_length_le h, ArrayBasedExecutor.settled_or_enabled hinv, fun hok => ?_⟩
  have hund : Undisturbed x s := .of_run h fun a ha => harmless_of_not_fails (hok a ha)
  refine ⟨hund.resolved_of_settled, fun hs => ?_⟩
  have hanswered : ∀ index < x.parameters.length, index ∈ s.answers.map Prod.fst := fun index hlt =>
    List.one_le_count_iff.1
      (hinv.answers.count_eq_one (hund.share_done hs (g := Phase.answered) (fun _ => rfl)) hlt).ge
  constructor
  · rw [State.outstanding, List.filter_eq_nil_iff]
    intro d hd
    have := hanswered d.index (Parameters.lt_of_item (hinv.items d hd))
    simpa using this
  · intro index hlt
    refine ⟨hinv.dispatched.count_eq_one
      (hund.share_done hs (g := Phase.dispatches) (fun _ => rfl)) hlt, ?_⟩
    obtain ⟨⟨_, o⟩, hq, rfl⟩ := List.mem_map.1 (hanswered index hlt)
    obtain ⟨i, hi⟩ := settled_of_answer h _ hq
    cases o with
    | error err => exact absurd (hok _ hi) (by simp [Action.fails])
    | ok rs =>
        refine ⟨rs, hq, fun hcol => ?_⟩
        obtain ⟨o, hrec, hitem⟩ := (hund.complete hinv hs).resultItems hcol _ hlt
        rw [hitem, hinv.answer_unique (hinv.outcomes _ hrec) hq]

/-- The same rows, all of them inserted. -/
def threeRowsInserted : List (Action ℕ ℕ) :=
  [.run 0, .run 1, .prepareResolve 1, .prepareResolve 0, .resume 1, .resume 0,
    .executeSettle 0 (.ok 5), .record 0, .run 0, .executeSettle 0 (.ok 7), .executeSettle 1 (.ok 6),
    .record 0, .run 0, .record 1, .run 1]

theorem threeRowsInserted_exec :
    (exec threeRows.step threeRows.init threeRowsInserted).isSome = true := by
  decide

theorem requests_once_threeRows :
    ∃ s : State ℕ ℕ ℕ, Run threeRows.step threeRows.init threeRowsInserted s ∧
      threeRows.status s = .resolved ∧ s.outstanding = [] ∧
      (s.dispatched.map Dispatch.index).count 2 = 1 ∧ ∃ rs, s.result.resultItems 2 = some (.ok rs) := by
  have hrun := Run.of_exec (Option.some_get threeRowsInserted_exec).symm
  obtain ⟨hsettled, hresolved⟩ := (requests_once threeRows hrun).2.2.2.2.2.2 (by decide)
  have hs := hsettled (by decide)
  obtain ⟨hout, hall⟩ := hresolved hs
  obtain ⟨hcount, rs, _, hitem⟩ := hall 2 (by decide)
  exact ⟨_, hrun, hs, hout, hcount, rs, hitem rfl⟩

/-! ### Stopping at the first error -/

/-- The chain has asked for the statement and will send its request when it has it. -/
def Phase.awaitsPrepare : Phase R E → Bool
  | .preparing _ | .prepared _ => true
  | _ => false

/-- No run from here starts a request. -/
def NoFurtherRequest (x : ArrayBasedExecutor P) (s : State P R E) : Prop :=
  ∀ as s', Run x.step s as s' → s'.dispatched = s.dispatched

/-- The flag is set, and every chain will test it before its next request. -/
structure Stopped (s : State P R E) : Prop where
  stop : s.stop = true
  waiting : ∀ i, (s.chains i).awaitsPrepare = false

section

variable {x : ArrayBasedExecutor P} {s s' : State P R E} {i it : ℕ}

theorem Stopped.update (h : Stopped s) {p : Phase R E} (hp : p.awaitsPrepare = false) (j : ℕ) :
    (Function.update s.chains i p j).awaitsPrepare = false := by
  rcases eq_or_ne j i with rfl | hne
  · rw [Function.update_self, hp]
  · rw [Function.update_of_ne hne, h.waiting j]

theorem recordOutcome_stop (x : ArrayBasedExecutor P) (hstop : s.stop = true) (o : Except E R) :
    (x.recordOutcome s i it o).stop = true := by
  cases o with
  | ok rs => exact hstop
  | error err =>
      simp only [ArrayBasedExecutor.recordOutcome]
      split_ifs
      · rfl
      · exact hstop

theorem Stopped.moves (h : Stopped s) {a : Action R E} (hm : ArrayBasedExecutor.Moves x s a s') :
    Stopped s' ∧ s'.dispatched = s.dispatched := by
  cases hm with
  | finish _ _ => exact ⟨⟨h.stop, h.update rfl⟩, rfl⟩
  | prepare _ _ hstop =>
      rw [h.stop] at hstop
      cases hstop
  | send _ _ hstop =>
      rw [h.stop] at hstop
      cases hstop
  | @prepareResolve j _ hc =>
      have := h.waiting j
      rw [hc] at this
      cases this
  | prepareReject _ => exact ⟨⟨h.stop, h.update rfl⟩, rfl⟩
  | @resume j _ _ _ hc _ =>
      have := h.waiting j
      rw [hc] at this
      cases this
  | executeSettle _ => exact ⟨⟨h.stop, h.update rfl⟩, rfl⟩
  | @record j n o _ =>
      refine ⟨⟨recordOutcome_stop x h.stop o, ?_⟩, x.recordOutcome_dispatched s j n o⟩
      rw [x.recordOutcome_chains]
      apply h.update
      obtain hready | ⟨err, hfailing⟩ := x.afterOutcome_cases n o
      · rw [hready]
        rfl
      · rw [hfailing]
        rfl
  | reject _ => exact ⟨⟨h.stop, h.update rfl⟩, rfl⟩

theorem Stopped.noFurtherRequest (h : Stopped s) : NoFurtherRequest x s := by
  intro as s' hrun
  have hinv := hrun.invariant (P := fun s₁ => Stopped s₁ ∧ s₁.dispatched = s.dispatched) ⟨h, rfl⟩ ?_
  · exact hinv.2
  · intro s₁ a s₂ hs₁ hstep
    obtain ⟨hstopped, hsame⟩ := hs₁.1.moves (ArrayBasedExecutor.moves_of_step hstep)
    exact ⟨hstopped, hsame.trans hs₁.2⟩

/-- A chain that has its statement sends its request, whatever the flag says. -/
theorem not_noFurtherRequest_of_prepared (h : InRange x s.chains) (hc : s.chains i = .prepared it) :
    ¬ NoFurtherRequest x s := by
  intro hno
  have hlt := h.calling i it (by rw [hc]; rfl)
  cases hitem : x.parameters.item (x.index i it) with
  | none => exact absurd ((Parameters.item_eq_none_iff _ _).1 hitem) (by omega)
  | some q =>
      obtain ⟨query, params⟩ := q
      have hstep : x.step s (.resume i) =
          some (x.dispatch { s with cache := s.cache.storeElement query } i it query params) := by
        simp [ArrayBasedExecutor.step, hc, hitem]
      have hsame := hno _ _ ((Run.nil s).snoc hstep)
      exact absurd (congrArg List.length hsame) (by simp [ArrayBasedExecutor.dispatch, State.setChain])

theorem not_noFurtherRequest_of_awaitsPrepare (h : InRange x s.chains)
    (hc : (s.chains i).awaitsPrepare = true) : ¬ NoFurtherRequest x s := by
  cases hphase : s.chains i with
  | prepared it => exact not_noFurtherRequest_of_prepared h hphase
  | preparing it =>
      have hstep : x.step s (.prepareResolve i) = some (s.setChain i (.prepared it)) := by
        rw [ArrayBasedExecutor.step, hphase]
      have hi : i < x.level := h.lt_level (by rw [hphase]; simp)
      have hrange : InRange x (s.setChain i (.prepared it)).chains :=
        h.update hi fun n hn => h.calling i n (by rw [hphase]; exact hn)
      intro hno
      have hprepared : (s.setChain i (.prepared it)).chains i = .prepared it := Function.update_self _ _ _
      apply not_noFurtherRequest_of_prepared hrange hprepared
      exact fun as s' hrun => hno _ s' (hrun.cons hstep)
  | _ => rw [hphase] at hc; cases hc

/-- When an error has been recorded, no request is started any more exactly if no chain was waiting for a
statement. -/
theorem noFurtherRequest_iff (x : ArrayBasedExecutor P) (hraise : x.raiseOnFirstError = true)
    {as : List (Action R E)} {s s' : State P R E} (hrun : Run x.step x.init as s) {i it : ℕ} {err : E}
    (hc : s.chains i = .executed it (.error err)) (hstep : x.step s (.record i) = some s') :
    NoFurtherRequest x s' ↔ ∀ j, (s.chains j).awaitsPrepare = false := by
  rw [ArrayBasedExecutor.step, hc, Option.some.injEq] at hstep
  subst hstep
  have hchains := x.recordOutcome_chains s i it (.error err)
  have hafter : x.afterOutcome it (.error err : Except E R) = .failing (it + 1) err := if_pos hraise
  have hstop : (x.recordOutcome s i it (.error err)).stop = true := by
    simp only [ArrayBasedExecutor.recordOutcome]
    rw [if_pos hraise]
  rw [hafter] at hchains
  have hrange := (Inv.of_run (hrun.snoc (a := .record i) (by rw [ArrayBasedExecutor.step, hc]))).inRange
  constructor
  · intro hno j
    by_contra hwaiting
    rw [Bool.not_eq_false] at hwaiting
    have hne : j ≠ i := by
      rintro rfl
      rw [hc] at hwaiting
      cases hwaiting
    refine not_noFurtherRequest_of_awaitsPrepare (i := j) hrange ?_ hno
    rw [hchains, Function.update_of_ne hne, hwaiting]
  · intro hnone
    refine Stopped.noFurtherRequest ⟨hstop, fun j => ?_⟩
    rw [hchains]
    rcases eq_or_ne j i with rfl | hne
    · rw [Function.update_self]
      rfl
    · rw [Function.update_of_ne hne, hnone j]

end

/-- Two rows, inserted at the same time. -/
def twoRows : ArrayBasedExecutor ℕ := ⟨.shared "insert" [10, 11], ⟨some 2, none, false, none⟩⟩

/-- The request of the first chain fails while the second waits for the statement. -/
def twoRowsFailing : List (Action ℕ ℕ) :=
  [.run 0, .run 1, .prepareResolve 0, .resume 0, .executeSettle 0 (.error 6)]

theorem twoRowsFailing_exec : (exec twoRows.step twoRows.init twoRowsFailing).isSome = true := by
  decide

def twoRowsFailed : State ℕ ℕ ℕ := (exec twoRows.step twoRows.init twoRowsFailing).get twoRowsFailing_exec

theorem twoRowsFailed_run : Run twoRows.step twoRows.init twoRowsFailing twoRowsFailed :=
  .of_exec (Option.some_get _).symm

theorem noFurtherRequest_iff_twoRows :
    NoFurtherRequest twoRows (twoRows.recordOutcome twoRowsFailed 0 0 (.error 6)) ↔
      ∀ j, (twoRowsFailed.chains j).awaitsPrepare = false := by
  have hfailed : twoRowsFailed.chains 0 = .executed 0 (.error 6) := rfl
  exact noFurtherRequest_iff twoRows rfl twoRowsFailed_run hfailed rfl

theorem not_noFurtherRequest_twoRows : ¬ ∀ (x : ArrayBasedExecutor ℕ) (as : List (Action ℕ ℕ))
    (s s' : State ℕ ℕ ℕ) (i it err : ℕ), x.raiseOnFirstError = true → Run x.step x.init as s →
      s.chains i = .executed it (.error err) → x.step s (.record i) = some s' → NoFurtherRequest x s' := by
  intro hall
  have hno := hall twoRows twoRowsFailing twoRowsFailed _ 0 0 6 rfl twoRowsFailed_run rfl rfl
  have hexec : (exec twoRows.step (twoRows.recordOutcome twoRowsFailed 0 0 (.error 6))
      [.prepareResolve 1, .resume 1]).isSome = true := by decide
  obtain ⟨s, hs⟩ := Option.isSome_iff_exists.1 hexec
  have hsame := congrArg List.length (hno _ _ (Run.of_exec hs))
  cases hs
  exact absurd hsame (by decide)

end CqlDriver.Concurrent
