import CqlDriver.Concurrent

/-! # Concurrent execution of a parameter stream (`lib/concurrent/index.js`)

`StreamBasedExecutor` dispatches a request for each array that the stream emits and pauses the stream while
`concurrencyLevel` requests are in flight.  The actions are the events of the stream, the settlement of a
request, and its two promise jobs: `record` runs the `then` or the `catch` handler and `finish` the last
`then`.  The stream emits data only while it is not paused, and not behind its end or an error; an event of the
stream comes when no promise job of a settled request is queued.  Jobs of different requests come in any order.

The errors are objects, as streams and the client emit them, so that `if (err)` holds.  Of the state, `ended`,
`failed`, `resolveCalled`, `raised` and `requests` are histories. -/

namespace CqlDriver.Concurrent

open TransitionSystem

variable {P R E : Type}

structure StreamBasedExecutor (E : Type) where
  options : Options
  /-- "Stream should be in objectMode and should emit Array instances" -/
  typeError : E

namespace StreamBasedExecutor

/-- `options.raiseOnFirstError !== false` -/
def raiseOnFirstError (x : StreamBasedExecutor E) : Bool := x.options.raiseOnFirstError != some false

/-- `options.concurrencyLevel || 100` -/
def concurrencyLevel (x : StreamBasedExecutor E) : ℕ :=
  match x.options.concurrencyLevel with
  | some (k + 1) => k + 1
  | _ => 100

theorem concurrencyLevel_pos (x : StreamBasedExecutor E) : 0 < x.concurrencyLevel := by
  unfold concurrencyLevel
  split <;> omega

inductive Phase (R E : Type) where
  | executing
  /-- The promise of `client.execute` has settled. -/
  | settled (o : Except E R)
  /-- The first handler has run. -/
  | recorded (o : Except E R)
  | finished (o : Except E R)

structure Request (P R E : Type) where
  index : ℕ
  params : P
  phase : Phase R E

/-- The outcome once it is recorded. -/
def Request.outcome (r : Request P R E) : Option (Except E R) :=
  match r.phase with
  | .recorded o | .finished o => some o
  | _ => none

/-- A promise job of the request is queued. -/
def Request.queued (r : Request P R E) : Bool :=
  match r.phase with
  | .settled _ | .recorded _ => true
  | _ => false

/-- The promise returned by `execute()`. -/
inductive Promise (E : Type) where
  | pending
  | resolved
  | rejected (e : E)

structure State (P R E : Type) where
  inFlight : ℤ
  index : ℕ
  readEnded : Bool
  result : ResultSetGroup R E
  paused : Bool
  promise : Promise E
  resolveCalled : Bool
  raised : Bool
  ended : Bool
  failed : Bool
  requests : List (Request P R E)

namespace State

/-- No promise job of a settled request is queued. -/
def drained (s : State P R E) : Bool := s.requests.all fun r => !r.queued

def resolveCallback (s : State P R E) : State P R E :=
  { s with
    promise := match s.promise with | .pending => .resolved | promise => promise
    resolveCalled := true }

def rejectCallback (s : State P R E) (e : E) : State P R E :=
  { s with
    promise := match s.promise with | .pending => .rejected e | promise => promise
    raised := true }

/-- `_setReadEnded` -/
def setReadEnded (s : State P R E) (err : Option E) : State P R E :=
  if s.readEnded then s
  else
    let s := { s with readEnded := true }
    match err with
    | some e => s.rejectCallback e
    | none => if s.inFlight = 0 then s.resolveCallback else s

def setPhase (s : State P R E) (i : ℕ) (phase : Phase R E) : State P R E :=
  { s with requests := s.requests.modify i fun r => { r with phase } }

end State

variable (x : StreamBasedExecutor E)

def init : State P R E where
  inFlight := 0
  index := 0
  readEnded := false
  result := .new x.options
  paused := false
  promise := .pending
  resolveCalled := false
  raised := false
  ended := false
  failed := false
  requests := []

/-- `_executeOne`, up to the call of `client.execute` and the test behind it; `none` is a datum that is no
array. -/
def executeOne (s : State P R E) : Option P → State P R E
  | none => s.setReadEnded (some x.typeError)
  | some params =>
      if s.readEnded then s
      else
        let s := { s with
          inFlight := s.inFlight + 1
          index := s.index + 1
          requests := s.requests ++ [⟨s.index, params, .executing⟩] }
        if (x.concurrencyLevel : ℤ) ≤ s.inFlight then { s with paused := true } else s

/-- `_setError` -/
def setError (s : State P R E) (index : ℕ) (err : E) : State P R E :=
  let s := { s with result := s.result.setError index err }
  if x.raiseOnFirstError then { s with readEnded := true }.rejectCallback err else s

/-- The handlers of `then` and `catch`. -/
def recordOutcome (s : State P R E) (index : ℕ) : Except E R → State P R E
  | .ok rs => { s with result := s.result.setResultItem index rs, inFlight := s.inFlight - 1 }
  | .error err => x.setError { s with inFlight := s.inFlight - 1 } index err

/-- The last `then`: the stream is resumed if it is paused. -/
def finish (s : State P R E) : State P R E :=
  let s := { s with paused := false }
  if s.readEnded && s.inFlight = 0 then s.resolveCallback else s

inductive Action (P R E : Type) where
  | data (params : Option P)
  | ended
  | error (e : E)
  | settle (i : ℕ) (o : Except E R)
  | record (i : ℕ)
  | finish (i : ℕ)

def step (s : State P R E) : Action P R E → Option (State P R E)
  | .data params =>
      if s.drained && !s.paused && !s.ended && !s.failed then some (x.executeOne s params) else none
  | .ended => if s.drained then some ({ s with ended := true }.setReadEnded none) else none
  | .error e => if s.drained then some ({ s with failed := true }.setReadEnded (some e)) else none
  | .settle i o =>
      match s.requests[i]? with
      | some ⟨_, _, .executing⟩ => some (s.setPhase i (.settled o))
      | _ => none
  | .record i =>
      match s.requests[i]? with
      | some ⟨index, _, .settled o⟩ => some (x.recordOutcome (s.setPhase i (.recorded o)) index o)
      | _ => none
  | .finish i =>
      match s.requests[i]? with
      | some ⟨_, _, .recorded o⟩ => some (finish (s.setPhase i (.finished o)))
      | _ => none

/-! ### The invariant -/

/-- The number of requests whose outcome is recorded. -/
def State.completed (s : State P R E) : ℕ := s.requests.countP fun r => r.outcome.isSome

/-- What holds at every point of the code between two reads of the flags. -/
structure Core (s : State P R E) : Prop where
  index : s.index = s.requests.length
  indices : ∀ (k : ℕ) (r : Request P R E), s.requests[k]? = some r → r.index = k
  counter : s.inFlight = s.requests.length - s.completed
  bound : s.inFlight ≤ x.concurrencyLevel
  flowing : s.paused = false → s.inFlight < x.concurrencyLevel
  /-- a request that is recorded has made room before it resumes the stream -/
  resuming : ∀ r ∈ s.requests, ∀ o, r.phase = .recorded o → s.inFlight < x.concurrencyLevel
  read : s.readEnded = true ↔ s.ended = true ∨ s.raised = true
  rejected : s.raised = true ↔ ∃ e, s.promise = .rejected e
  resolved : s.promise = .resolved →
    s.resolveCalled = true ∧ s.ended = true ∧ ∀ r ∈ s.requests, r.outcome ≠ none
  items : ∀ k, s.result.resultItems k =
    if x.options.collectResults then s.requests[k]?.bind Request.outcome else none
  collectResults : s.result.collectResults = x.options.collectResults
  total : s.result.totalExecuted = s.completed

/-- No wake-up is lost: when the stream has ended and nothing is in flight, the promise is resolved, or the last
job of a request will resolve it. -/
structure Inv (s : State P R E) : Prop extends Core x s where
  wakeUp : s.ended = true → s.raised = false → s.inFlight = 0 →
    s.promise = .resolved ∨ ∃ r ∈ s.requests, ∃ o, r.phase = .recorded o

variable {x}

theorem Inv.init : Inv x (x.init : State P R E) where
  index := rfl
  indices := by simp [StreamBasedExecutor.init]
  counter := by simp [StreamBasedExecutor.init, State.completed]
  bound := by simp [StreamBasedExecutor.init]
  flowing := by simpa [StreamBasedExecutor.init] using x.concurrencyLevel_pos
  resuming := by simp [StreamBasedExecutor.init]
  read := by simp [StreamBasedExecutor.init]
  rejected := by simp [StreamBasedExecutor.init]
  resolved := by simp [StreamBasedExecutor.init]
  wakeUp := by simp [StreamBasedExecutor.init]
  items := by simp [StreamBasedExecutor.init, ResultSetGroup.new]
  collectResults := rfl
  total := rfl

namespace Core

variable {s : State P R E}

theorem completed_le (s : State P R E) : s.completed ≤ s.requests.length := List.countP_le_length

/-- Nothing is in flight when every request is recorded. -/
theorem all_recorded (h : Core x s) (hzero : s.inFlight = 0) : ∀ r ∈ s.requests, r.outcome ≠ none := by
  have hcount : s.completed = s.requests.length := by
    have := h.counter
    omega
  intro r hr
  have := List.countP_eq_length.1 hcount r hr
  exact Option.isSome_iff_ne_none.1 this

/-- While a request is not recorded the promise is not resolved. -/
theorem not_resolved (h : Core x s) {r : Request P R E} (hr : r ∈ s.requests) (hout : r.outcome = none) :
    s.promise ≠ .resolved := fun hres => (h.resolved hres).2.2 r hr hout

/-! ### The events of the stream -/

theorem rejectCallback (h : Core x s) (hpending : s.promise ≠ .resolved) (e : E) :
    Inv x ({ s with readEnded := true }.rejectCallback e) :=
  { h with
    read := by simp [State.rejectCallback]
    rejected := by
      simp only [State.rejectCallback, true_iff]
      split
      · exact ⟨e, rfl⟩
      · cases hp : s.promise with
        | pending => contradiction
        | resolved => exact absurd hp hpending
        | rejected e' => exact ⟨e', rfl⟩
    resolved := by
      simp only [State.rejectCallback]
      split
      · simp
      · exact h.resolved
    wakeUp := by simp [State.rejectCallback] }

theorem not_resolved_of_reading (h : Core x s) (hread : s.readEnded = false) : s.promise ≠ .resolved := by
  intro hres
  have := h.read.2 (Or.inl (h.resolved hres).2.1)
  simp [hread] at this

/-- The promise is resolved when the stream has ended and nothing is in flight. -/
theorem resolveCallback (h : Core x s) (hzero : s.inFlight = 0) :
    Inv x ({ s with ended := true, readEnded := true }.resolveCallback) :=
  { h with
    read := by simp [State.resolveCallback]
    rejected := by
      simp only [State.resolveCallback]
      rw [h.rejected]
      cases hp : s.promise <;> simp
    resolved := fun _ => ⟨rfl, rfl, h.all_recorded hzero⟩
    wakeUp := by
      intro _ hraised _
      left
      cases hp : s.promise with
      | pending => simp [State.resolveCallback]
      | resolved => simp [State.resolveCallback]
      | rejected e =>
          have := h.rejected.2 ⟨e, hp⟩
          simp [show s.raised = false from hraised] at this }

/-- Behind a rejection the call has no effect. -/
theorem resolveCallback_of_raised (h : Core x s) (hraised : s.raised = true) : Inv x s.resolveCallback := by
  obtain ⟨e, he⟩ := h.rejected.1 hraised
  have hsame : s.resolveCallback = { s with resolveCalled := true } := by simp [State.resolveCallback, he]
  rw [hsame]
  exact { h with
    resolved := by simp [he]
    wakeUp := by simp [hraised] }

end Core

namespace Inv

variable {s : State P R E}

theorem setReadEnded_error (h : Inv x s) (e : E) : Inv x (s.setReadEnded (some e)) := by
  unfold State.setReadEnded
  split_ifs with hread
  · exact h
  · exact h.toCore.rejectCallback (h.not_resolved_of_reading (by simpa using hread)) e

/-- The end of the stream; a request in flight has its `finish` to come. -/
theorem ended (h : Inv x s) : Inv x ({ s with ended := true }.setReadEnded none) := by
  unfold State.setReadEnded
  by_cases hread : s.readEnded = true
  · rw [if_pos hread]
    exact { h with
      read := by simp [hread]
      resolved := fun hres => ⟨(h.resolved hres).1, rfl, (h.resolved hres).2.2⟩
      wakeUp := by
        intro _ hraised hzero
        have hended : s.ended = true := by simpa [show s.raised = false from hraised] using h.read.1 hread
        exact h.wakeUp hended hraised hzero }
  · rw [if_neg hread]
    by_cases hzero : s.inFlight = 0
    · refine Eq.mpr (congrArg (Inv x) ?_) (h.toCore.resolveCallback hzero)
      exact if_pos hzero
    · simp only [hzero, if_false]
      exact { h with
        read := by simp
        resolved := fun hres => absurd hres (h.not_resolved_of_reading (by simpa using hread))
        wakeUp := fun _ _ hz => absurd hz hzero }

theorem not_queued (hdrained : s.drained = true) {r : Request P R E} (hr : r ∈ s.requests) :
    r.queued = false := by
  simpa using List.all_eq_true.1 hdrained r hr

/-- A request is dispatched, with the next index. -/
theorem dispatch (h : Inv x s) (hdrained : s.drained = true) (hpaused : s.paused = false)
    (hread : s.readEnded = false) (params : P) (paused : Bool)
    (hlevel : paused = false → s.inFlight + 1 < x.concurrencyLevel) :
    Inv x { s with
      inFlight := s.inFlight + 1
      index := s.index + 1
      requests := s.requests ++ [⟨s.index, params, .executing⟩]
      paused } := by
  have hfree := h.flowing hpaused
  have hout : (⟨s.index, params, .executing⟩ : Request P R E).outcome = none := rfl
  have hcompleted : (s.requests ++ [(⟨s.index, params, .executing⟩ : Request P R E)]).countP
      (fun r => r.outcome.isSome) = s.completed := by
    simp [State.completed, hout]
  have hended : s.ended = false := by
    by_contra hne
    have := h.read.2 (Or.inl (by simpa using hne))
    simp [hread] at this
  exact { h with
    index := by simp [h.index]
    indices := by
      intro k r hr
      simp only [List.getElem?_append] at hr
      split_ifs at hr with hk
      · exact h.indices k r hr
      · obtain ⟨hk', rfl⟩ := List.getElem?_eq_some_iff.1 hr
        have := h.index
        simp only [List.length_singleton] at hk'
        simp only [List.getElem_singleton]
        omega
    counter := by
      have := h.counter
      rw [State.completed, hcompleted, List.length_append, List.length_singleton]
      push_cast
      omega
    bound := hfree
    flowing := hlevel
    resuming := by
      intro r hr o ho
      rcases List.mem_append.1 hr with hr | hr
      · have := not_queued hdrained hr
        simp [Request.queued, ho] at this
      · obtain rfl := List.mem_singleton.1 hr
        cases ho
    resolved := fun hres => absurd hres (h.not_resolved_of_reading hread)
    wakeUp := by simp [hended]
    items := by
      intro k
      rw [h.items k]
      split_ifs with hcollect
      · rw [List.getElem?_append]
        split_ifs with hk
        · rfl
        · rw [List.getElem?_eq_none (by omega)]
          cases hj : k - s.requests.length <;> simp [hout]
      · rfl
    total := by
      rw [State.completed, hcompleted]
      exact h.total }

theorem executeOne (h : Inv x s) (hdrained : s.drained = true) (hpaused : s.paused = false)
    (params : Option P) : Inv x (x.executeOne s params) := by
  cases params with
  | none => exact h.setReadEnded_error x.typeError
  | some params =>
      rw [StreamBasedExecutor.executeOne]
      split_ifs with hread
      · exact h
      · have hread : s.readEnded = false := by simpa using hread
        by_cases hfull : (x.concurrencyLevel : ℤ) ≤ s.inFlight + 1
        · simp only [hfull, if_true]
          exact h.dispatch hdrained hpaused hread params true (by simp)
        · simp only [hfull, if_false]
          exact h.dispatch hdrained hpaused hread params s.paused (fun _ => by omega)

end Inv

/-! ### The requests -/

namespace Core

variable {s : State P R E}

theorem getElem?_setPhase (s : State P R E) (i k : ℕ) (phase : Phase R E) :
    (s.setPhase i phase).requests[k]? =
      if i = k then s.requests[k]?.map fun r => { r with phase } else s.requests[k]? := by
  rw [State.setPhase, List.getElem?_modify]
  split_ifs
  · simp
  · simp

theorem countP_modify {α : Type} (p : α → Bool) (f : α → α) : ∀ (xs : List α) (i : ℕ) (a : α),
    xs[i]? = some a → (xs.modify i f).countP p + (if p a then 1 else 0) = xs.countP p + if p (f a) then 1 else 0
  | [], _, _, h => by simp at h
  | y :: ys, 0, a, h => by
      obtain rfl : y = a := by simpa using h
      simp only [List.modify_zero_cons, List.countP_cons]
      omega
  | y :: ys, i + 1, a, h => by
      have := countP_modify p f ys i a (by simpa using h)
      simp only [List.modify_succ_cons, List.countP_cons]
      omega

theorem mem_setPhase {i : ℕ} {phase : Phase R E} {r : Request P R E}
    (h : r ∈ (s.setPhase i phase).requests) : r ∈ s.requests ∨ r.phase = phase := by
  obtain ⟨k, hk⟩ := List.getElem?_of_mem h
  rw [getElem?_setPhase] at hk
  split_ifs at hk
  · obtain ⟨r₀, -, rfl⟩ := Option.map_eq_some_iff.1 hk
    exact Or.inr rfl
  · exact Or.inl (List.mem_of_getElem? hk)

theorem exists_mem_setPhase {i : ℕ} {phase : Phase R E} {r : Request P R E} (hr : s.requests[i]? = some r) :
    { r with phase } ∈ (s.setPhase i phase).requests := by
  apply List.mem_of_getElem? (i := i)
  rw [getElem?_setPhase, if_pos rfl, hr]
  rfl

/-- A request that is recorded stays, or is the one that moves. -/
theorem recorded_setPhase {i : ℕ} {phase : Phase R E} {r : Request P R E} (hr : s.requests[i]? = some r)
    (hphase : ∀ o, r.phase ≠ .recorded o) {q : Request P R E} {o : Except E R} (hq : q ∈ s.requests)
    (ho : q.phase = .recorded o) : q ∈ (s.setPhase i phase).requests := by
  obtain ⟨k, hk⟩ := List.getElem?_of_mem hq
  have hik : i ≠ k := by
    rintro rfl
    rw [hr] at hk
    cases hk
    exact hphase o ho
  apply List.mem_of_getElem? (i := k)
  rw [getElem?_setPhase, if_neg hik, hk]

theorem index_setPhase (h : Core x s) {i : ℕ} {phase : Phase R E} :
    ∀ (k : ℕ) (r : Request P R E), (s.setPhase i phase).requests[k]? = some r → r.index = k := by
  intro k r hr
  rw [getElem?_setPhase] at hr
  split_ifs at hr
  · obtain ⟨r₀, hr₀, rfl⟩ := Option.map_eq_some_iff.1 hr
    exact h.indices k r₀ hr₀
  · exact h.indices k r hr

theorem completed_setPhase {i : ℕ} {r : Request P R E} (hr : s.requests[i]? = some r) (phase : Phase R E) :
    (s.setPhase i phase).completed + (if r.outcome.isSome then 1 else 0) =
      s.completed + if ({ r with phase } : Request P R E).outcome.isSome then 1 else 0 :=
  countP_modify (fun r : Request P R E => r.outcome.isSome) (fun r => { r with phase }) s.requests i r hr

theorem outcome_setPhase {i : ℕ} {phase : Phase R E} {r : Request P R E} (hr : s.requests[i]? = some r) (k : ℕ) :
    (s.setPhase i phase).requests[k]?.bind Request.outcome =
      if i = k then ({ r with phase } : Request P R E).outcome else s.requests[k]?.bind Request.outcome := by
  rw [getElem?_setPhase]
  split_ifs with hik
  · subst hik
    rw [hr]
    rfl
  · rfl

/-- A step of a request that keeps its outcome. -/
theorem setPhase (h : Core x s) {i : ℕ} {phase : Phase R E} {r : Request P R E} (hr : s.requests[i]? = some r)
    (hout : ({ r with phase } : Request P R E).outcome = r.outcome) (hphase : ∀ o, phase ≠ .recorded o) :
    Core x (s.setPhase i phase) := by
  have hcompleted : (s.setPhase i phase).completed = s.completed := by
    have := completed_setPhase hr phase
    rw [hout] at this
    omega
  exact { h with
    index := by simpa [State.setPhase] using h.index
    indices := h.index_setPhase
    counter := by
      rw [hcompleted, State.setPhase, List.length_modify]
      exact h.counter
    resuming := by
      intro q hq o ho
      obtain hq | hq := mem_setPhase hq
      · exact h.resuming q hq o ho
      · exact absurd (hq.symm.trans ho) (hphase o)
    resolved := by
      intro hres
      obtain ⟨hcalled, hended, hall⟩ := h.resolved hres
      refine ⟨hcalled, hended, fun q hq => ?_⟩
      obtain hmem | hnew := mem_setPhase hq
      · exact hall q hmem
      · have hr' := hall r (List.mem_of_getElem? hr)
        rw [← hout] at hr'
        simpa [Request.outcome, hnew] using hr'
    items := by
      intro k
      change s.result.resultItems k = _
      rw [outcome_setPhase hr, hout]
      have := h.items k
      split_ifs with hc hik
      · subst hik
        simpa [hc, hr] using this
      · simpa [hc] using this
      · simpa [hc] using this
    total := by rw [hcompleted]; exact h.total }

end Core

namespace Inv

variable {s : State P R E}

/-- The promise of a request settles. -/
theorem settle (h : Inv x s) {i : ℕ} {r : Request P R E} (hi : s.requests[i]? = some r)
    (hphase : r.phase = .executing) (o : Except E R) : Inv x (s.setPhase i (.settled o)) :=
  { h.toCore.setPhase hi (by simp [Request.outcome, hphase]) (by simp) with
    wakeUp := by
      intro hended hraised hzero
      refine (h.wakeUp hended hraised hzero).imp id ?_
      rintro ⟨q, hq, o', ho'⟩
      exact ⟨q, Core.recorded_setPhase hi (by simp [hphase]) hq ho', o', ho'⟩ }

/-- The first handler of a request runs; `result` has got the outcome. -/
theorem recorded (h : Inv x s) {i : ℕ} {r : Request P R E} {o : Except E R} (hi : s.requests[i]? = some r)
    (hphase : r.phase = .settled o) (result : ResultSetGroup R E)
    (hitems : result.resultItems = s.result.setItem r.index o)
    (hcollect : result.collectResults = s.result.collectResults)
    (htotal : result.totalExecuted = s.result.totalExecuted + 1) :
    Inv x { s.setPhase i (.recorded o) with result, inFlight := s.inFlight - 1 } := by
  have hnone : r.outcome = none := by simp [Request.outcome, hphase]
  have hcompleted : (s.setPhase i (.recorded o)).completed = s.completed + 1 := by
    have := Core.completed_setPhase hi (.recorded o)
    simp only [hnone, Option.isSome_none, Bool.false_eq_true, if_false, add_zero] at this
    exact this
  have hbound := h.bound
  exact { h with
    index := by simpa [State.setPhase] using h.index
    indices := h.index_setPhase
    counter := by
      have := h.counter
      change s.inFlight - 1 =
        ((s.setPhase i (.recorded o)).requests.length : ℤ) - (s.setPhase i (.recorded o)).completed
      rw [hcompleted, State.setPhase, List.length_modify]
      push_cast
      omega
    bound := by simp only; omega
    flowing := fun _ => by simp only; omega
    resuming := fun _ _ _ _ => by simp only; omega
    resolved := fun hres => absurd hres (h.not_resolved (List.mem_of_getElem? hi) hnone)
    wakeUp := fun _ _ _ => Or.inr ⟨_, Core.exists_mem_setPhase hi, o, rfl⟩
    items := by
      intro k
      rw [hitems, ResultSetGroup.setItem, Core.outcome_setPhase hi, h.collectResults, h.indices i r hi]
      split_ifs with hc hik
      · subst hik
        simp [Request.outcome]
      · rw [Function.update_of_ne (Ne.symm hik), h.items k, if_pos hc]
      · rw [h.items k, if_neg hc]
    collectResults := hcollect.trans h.collectResults
    total := by
      rw [htotal, h.total]
      exact hcompleted.symm }

theorem recordOutcome (h : Inv x s) {i : ℕ} {r : Request P R E} {o : Except E R} (hi : s.requests[i]? = some r)
    (hphase : r.phase = .settled o) : Inv x (x.recordOutcome (s.setPhase i (.recorded o)) r.index o) := by
  cases o with
  | ok rs => exact h.recorded hi hphase _ rfl rfl rfl
  | error err =>
      have hbase := h.recorded hi hphase (s.result.setError r.index err) rfl rfl rfl
      have hnone : r.outcome = none := by simp [Request.outcome, hphase]
      rw [StreamBasedExecutor.recordOutcome, setError]
      split_ifs with hraise
      · exact hbase.toCore.rejectCallback (h.not_resolved (List.mem_of_getElem? hi) hnone) err
      · exact hbase

/-- The last handler of a request resumes the stream and resolves the promise if it is the last one. -/
theorem finish (h : Inv x s) {i : ℕ} {r : Request P R E} {o : Except E R} (hi : s.requests[i]? = some r)
    (hphase : r.phase = .recorded o) : Inv x (StreamBasedExecutor.finish (s.setPhase i (.finished o))) := by
  have hroom := h.resuming r (List.mem_of_getElem? hi) o hphase
  have hcore : Core x (s.setPhase i (.finished o)) :=
    h.toCore.setPhase hi (by simp [Request.outcome, hphase]) (by simp)
  have hbase : Core x { s.setPhase i (.finished o) with paused := false } :=
    { hcore with flowing := fun _ => hroom }
  unfold StreamBasedExecutor.finish
  by_cases hlast : s.readEnded = true ∧ s.inFlight = 0
  · obtain ⟨hread, hzero⟩ := hlast
    rw [if_pos (by simp [State.setPhase, hread, hzero])]
    rcases h.read.1 hread with hended | hraised
    · have := hbase.resolveCallback hzero
      simpa [State.setPhase, hended, hread] using this
    · exact hbase.resolveCallback_of_raised hraised
  · have hcond : ¬ (s.readEnded && decide (s.inFlight = 0)) = true := by simpa using hlast
    change Inv x (if (s.readEnded && decide (s.inFlight = 0)) = true then _ else _)
    rw [if_neg hcond]
    exact { hbase with
      wakeUp := fun hended _ hzero => absurd ⟨h.read.2 (Or.inl hended), hzero⟩ hlast }

/-- One lemma for each action. -/
theorem step {s' : State P R E} {a : Action P R E} (h : Inv x s) (hs : x.step s a = some s') : Inv x s' := by
  cases a with
  | data params =>
      simp only [StreamBasedExecutor.step, Bool.and_eq_true, Bool.not_eq_true', Option.ite_none_right_eq_some,
        Option.some.injEq] at hs
      obtain ⟨⟨⟨⟨hdrained, hpaused⟩, -⟩, -⟩, rfl⟩ := hs
      exact h.executeOne hdrained hpaused params
  | ended =>
      simp only [StreamBasedExecutor.step, Option.ite_none_right_eq_some, Option.some.injEq] at hs
      obtain ⟨-, rfl⟩ := hs
      exact h.ended
  | error e =>
      simp only [StreamBasedExecutor.step, Option.ite_none_right_eq_some, Option.some.injEq] at hs
      obtain ⟨-, rfl⟩ := hs
      have hfailed : Inv x { s with failed := true } := { h with }
      exact hfailed.setReadEnded_error e
  | settle i o =>
      simp only [StreamBasedExecutor.step] at hs
      split at hs
      · next hi =>
          obtain rfl := Option.some.inj hs
          exact h.settle hi rfl o
      · cases hs
  | record i =>
      simp only [StreamBasedExecutor.step] at hs
      split at hs
      · next hi =>
          obtain rfl := Option.some.inj hs
          exact h.recordOutcome hi rfl
      · cases hs
  | finish i =>
      simp only [StreamBasedExecutor.step] at hs
      split at hs
      · next hi =>
          obtain rfl := Option.some.inj hs
          exact h.finish hi rfl
      · cases hs

theorem of_run {as : List (Action P R E)} (h : Run x.step x.init as s) : Inv x s :=
  h.invariant Inv.init fun _ _ _ hi hs => hi.step hs

end Inv

/-! ### Arrival order -/

/-- The arrays that the stream emitted. -/
def arrivals (as : List (Action P R E)) : List P :=
  as.filterMap fun a => match a with
    | .data params => params
    | _ => none

theorem requests_setReadEnded (s : State P R E) (err : Option E) :
    (s.setReadEnded err).requests = s.requests ∧ (s.setReadEnded err).readEnded = true := by
  unfold State.setReadEnded
  split_ifs with hread
  · exact ⟨rfl, hread⟩
  · cases err with
    | some e => exact ⟨rfl, rfl⟩
    | none =>
        simp only
        split_ifs
        · exact ⟨rfl, rfl⟩
        · exact ⟨rfl, rfl⟩

theorem params_setPhase (s : State P R E) (i : ℕ) (phase : Phase R E) :
    (s.setPhase i phase).requests.map Request.params = s.requests.map Request.params := by
  apply List.ext_getElem?
  intro k
  rw [List.getElem?_map, List.getElem?_map, Core.getElem?_setPhase]
  split_ifs
  · rw [Option.map_map]
    rfl
  · rfl

theorem requests_recordOutcome (s : State P R E) (index : ℕ) (o : Except E R) :
    (x.recordOutcome s index o).requests = s.requests ∧
      (s.readEnded = true → (x.recordOutcome s index o).readEnded = true) := by
  cases o with
  | ok rs => exact ⟨rfl, id⟩
  | error err =>
      simp only [recordOutcome, setError]
      split_ifs
      · exact ⟨rfl, fun _ => rfl⟩
      · exact ⟨rfl, id⟩

theorem requests_finish (s : State P R E) :
    (finish s).requests = s.requests ∧ (finish s).readEnded = s.readEnded := by
  simp only [finish]
  split_ifs
  · exact ⟨rfl, rfl⟩
  · exact ⟨rfl, rfl⟩

/-- A step appends the array that arrives, as long as the reading has not ended. -/
theorem params_step {s s' : State P R E} {a : Action P R E} (hs : x.step s a = some s') :
    (∃ params, a = .data (some params) ∧ s.readEnded = false ∧
      s'.requests.map Request.params = s.requests.map Request.params ++ [params]) ∨
    s'.requests.map Request.params = s.requests.map Request.params ∧
      (s.readEnded = true → s'.readEnded = true) ∧ (arrivals [a] ≠ [] → s'.readEnded = true) := by
  cases a with
  | data params =>
      simp only [step, Option.ite_none_right_eq_some, Option.some.injEq] at hs
      obtain ⟨-, rfl⟩ := hs
      cases params with
      | none =>
          right
          obtain ⟨hreq, hread⟩ := requests_setReadEnded s (some x.typeError)
          exact ⟨congrArg _ hreq, fun _ => hread, fun _ => hread⟩
      | some params =>
          rw [executeOne]
          split_ifs with hread
          · exact Or.inr ⟨rfl, id, fun _ => hread⟩
          · refine Or.inl ⟨params, rfl, by simpa using hread, ?_⟩
            simp only
            split_ifs <;> simp
  | ended =>
      simp only [step, Option.ite_none_right_eq_some, Option.some.injEq] at hs
      obtain ⟨-, rfl⟩ := hs
      obtain ⟨hreq, hread⟩ := requests_setReadEnded { s with ended := true } none
      exact Or.inr ⟨congrArg _ hreq, fun _ => hread, fun _ => hread⟩
  | error e =>
      simp only [step, Option.ite_none_right_eq_some, Option.some.injEq] at hs
      obtain ⟨-, rfl⟩ := hs
      obtain ⟨hreq, hread⟩ := requests_setReadEnded { s with failed := true } (some e)
      exact Or.inr ⟨congrArg _ hreq, fun _ => hread, fun _ => hread⟩
  | settle i o =>
      simp only [step] at hs
      split at hs
      · obtain rfl := Option.some.inj hs
        exact Or.inr ⟨params_setPhase s i _, id, by simp [arrivals]⟩
      · cases hs
  | record i =>
      simp only [step] at hs
      split at hs
      · next index _ o _ =>
          obtain rfl := Option.some.inj hs
          obtain ⟨hreq, hread⟩ := requests_recordOutcome (x := x) (s.setPhase i (.recorded o)) index o
          exact Or.inr ⟨by rw [hreq, params_setPhase], hread, by simp [arrivals]⟩
      · cases hs
  | finish i =>
      simp only [step] at hs
      split at hs
      · next o _ =>
          obtain rfl := Option.some.inj hs
          obtain ⟨hreq, hread⟩ := requests_finish (s.setPhase i (.finished o))
          exact Or.inr ⟨by rw [hreq, params_setPhase], fun h => by rw [hread]; exact h, by simp [arrivals]⟩
      · cases hs

/-- The requests are the first arrays that arrived, and all of them while the reading goes on. -/
theorem params_of_run {s : State P R E} {as : List (Action P R E)} (h : Run x.step x.init as s) :
    ∃ ignored, arrivals as = s.requests.map Request.params ++ ignored ∧
      (s.readEnded = false → ignored = []) := by
  refine h.history (P := fun as s => ∃ ignored, arrivals as = s.requests.map Request.params ++ ignored ∧
      (s.readEnded = false → ignored = [])) ⟨[], rfl, fun _ => rfl⟩ ?_
  rintro as s₁ a s₂ ⟨ignored, harr, hread⟩ hs
  have happend : arrivals (as ++ [a]) = arrivals as ++ arrivals [a] := List.filterMap_append
  obtain ⟨params, rfl, hreading, hparams⟩ | ⟨hparams, hkeep, hdata⟩ := params_step hs
  · refine ⟨[], ?_, fun _ => rfl⟩
    rw [happend, harr, hread hreading, hparams]
    simp [arrivals]
  · refine ⟨ignored ++ arrivals [a], by rw [happend, harr, hparams, List.append_assoc], ?_⟩
    intro hreading
    have hold : s₁.readEnded = false := by
      by_contra hne
      simp [hkeep (by simpa using hne)] at hreading
    have hnone : arrivals [a] = [] := by
      by_contra hne
      simp [hdata hne] at hreading
    rw [hread hold, hnone]
    rfl

/-! ### Whole runs -/

/-- The last job of a request, with the stream ended and nothing in flight, resolves the promise. -/
theorem Inv.finish_resolves {s : State P R E} (h : Inv x s) (hended : s.ended = true) (hzero : s.inFlight = 0)
    (hraised : s.raised = false) {i : ℕ} {r : Request P R E} {o : Except E R} (hi : s.requests[i]? = some r)
    (hphase : r.phase = .recorded o) : ∃ s', x.step s (.finish i) = some s' ∧ s'.promise = .resolved := by
  obtain ⟨index, params, phase⟩ := r
  obtain rfl : phase = .recorded o := hphase
  have hstep : x.step s (.finish i) = some (StreamBasedExecutor.finish (s.setPhase i (.finished o))) := by
    simp [StreamBasedExecutor.step, hi]
  refine ⟨_, hstep, ?_⟩
  have hread := h.read.2 (Or.inl hended)
  rw [StreamBasedExecutor.finish, if_pos (by simp [State.setPhase, hread, hzero])]
  cases hp : s.promise with
  | pending => simp [State.resolveCallback, State.setPhase, hp]
  | resolved => simp [State.resolveCallback, State.setPhase, hp]
  | rejected e =>
      have := h.rejected.2 ⟨e, hp⟩
      simp [hraised] at this

/-- In every reachable state: `inFlight` counts the requests that are dispatched and not completed, within the
concurrency level; the promise is resolved only behind the end of the stream, with every request recorded; the
requests are the first arrays that arrived, each recorded under its position; and with the stream ended, nothing
in flight and no error raised, the promise is resolved as soon as no job is queued, by the job that is queued. -/
theorem stream_run {s : State P R E} {as : List (Action P R E)} (h : Run x.step x.init as s) :
    (s.inFlight = s.requests.length - s.completed ∧ 0 ≤ s.inFlight ∧ s.inFlight ≤ x.concurrencyLevel) ∧
    (s.promise = .resolved → s.ended = true ∧ ∀ r ∈ s.requests, r.outcome ≠ none) ∧
    ((∃ ignored, arrivals as = s.requests.map Request.params ++ ignored ∧
        (s.readEnded = false → ignored = [])) ∧
      (∀ (k : ℕ) (r : Request P R E), s.requests[k]? = some r → r.index = k) ∧
      ∀ k, s.result.resultItems k =
        if x.options.collectResults then s.requests[k]?.bind Request.outcome else none) ∧
    (s.ended = true → s.inFlight = 0 → s.raised = false →
      (s.drained = true → s.resolveCalled = true ∧ s.promise = .resolved) ∧
      (s.promise = .resolved ∨ ∃ i s', x.step s (.finish i) = some s' ∧ s'.promise = .resolved)) := by
  have hinv := Inv.of_run h
  have hcount := Core.completed_le s
  refine ⟨⟨hinv.counter, ?_, hinv.bound⟩, fun hres => (hinv.resolved hres).2,
    ⟨params_of_run h, hinv.indices, hinv.items⟩, ?_⟩
  · rw [hinv.counter]
    omega
  · intro hended hzero hraised
    refine ⟨fun hdrained => ?_, ?_⟩
    · obtain hres | ⟨r, hr, o, ho⟩ := hinv.wakeUp hended hraised hzero
      · exact ⟨(hinv.resolved hres).1, hres⟩
      · have := Inv.not_queued hdrained hr
        simp [Request.queued, ho] at this
    · obtain hres | ⟨r, hr, o, ho⟩ := hinv.wakeUp hended hraised hzero
      · exact Or.inl hres
      · obtain ⟨i, hi⟩ := List.getElem?_of_mem hr
        obtain ⟨s', hs', hres⟩ := hinv.finish_resolves hended hzero hraised hi ho
        exact Or.inr ⟨i, s', hs', hres⟩

/-- Two requests at once at most; the second fails behind the end of the stream, without raising. -/
def twoAtOnce : StreamBasedExecutor ℕ := ⟨⟨some 2, some false, true, none⟩, 0⟩

def pausedStream : List (Action ℕ ℕ ℕ) :=
  [.data (some 10), .data (some 11), .settle 1 (.ok 5), .record 1, .finish 1, .data (some 12), .settle 0 (.ok 6),
    .record 0, .finish 0, .ended, .settle 2 (.error 7), .record 2, .finish 2]

theorem stream_run_pausedStream : ∃ s : State ℕ ℕ ℕ, Run twoAtOnce.step twoAtOnce.init pausedStream s ∧
    s.ended = true ∧ s.inFlight = 0 ∧ s.raised = false ∧ s.drained = true ∧
    s.requests.map Request.params = [10, 11, 12] ∧ s.resolveCalled = true ∧ s.promise = .resolved := by
  have hexec : (exec twoAtOnce.step twoAtOnce.init pausedStream).map (fun s : State ℕ ℕ ℕ =>
      (s.ended, s.inFlight, s.raised, s.drained, s.requests.map Request.params)) =
      some (true, 0, false, true, [10, 11, 12]) := by decide +kernel
  obtain ⟨s, hs, hobs⟩ := Option.map_eq_some_iff.1 hexec
  simp only [Prod.mk.injEq] at hobs
  obtain ⟨hended, hzero, hraised, hdrained, hparams⟩ := hobs
  have hrun := Run.of_exec hs
  obtain ⟨hcalled, hres⟩ := ((stream_run hrun).2.2.2 hended hzero hraised).1 hdrained
  exact ⟨s, hrun, hended, hzero, hraised, hdrained, hparams, hcalled, hres⟩

end StreamBasedExecutor
end CqlDriver.Concurrent
