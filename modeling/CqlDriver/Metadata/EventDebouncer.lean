import CqlDriver.Lib.JsObject
import CqlDriver.Lib.TransitionSystem

/-! # The event debouncer (`lib/metadata/event-debouncer.js`)

`eventReceived` puts an event into a queue and slides the timer; when the timer expires, or at once, the queue is
processed: one handler for all events, one for a keyspace, or one for each event of an object.  Handlers are code of
the driver, which may receive events itself while it is called, so that the processing of queues nests: what runs is a
stack of frames, and events arrive from the outside or within a call of a handler.  The promises that handlers return
settle in any order.

The handler of an object is called as a synchronous one: its event is called back as soon as it returns
(`called_back_before_settled`); the other parts of what the debouncer promises hold in every run (`run_correct`). -/

namespace CqlDriver.EventDebouncer

open TransitionSystem

/-- An event object; each call of `eventReceived` has its own. -/
structure Event where
  id : ℕ
  all : Bool
  keyspace : String
  /-- `none` is `undefined`, `some none` is `null`. -/
  cqlObject : Option (Option String)
deriving DecidableEq

structure KeyspaceEvents where
  mainEvent : Option Event
  events : List Event

/-- A queue; an entry of `callbacks` is the event whose callback it is. -/
structure Queue where
  callbacks : List Event
  keyspaces : List (String × KeyspaceEvents)
  mainEvent : Option Event

/-- A handler that is to be called, with the events that are called back after it. -/
inductive Work where
  | all (event : Event) (callbacks : List Event)
  | keyspace (event : Event) (events : List Event)
  | object (event : Event)

/-- The event whose handler is called. -/
def Work.event : Work → Event
  | .all event _ => event
  | .keyspace event _ => event
  | .object event => event

/-- The events that are called back after the handler. -/
def Work.waiting : Work → List Event
  | .all _ callbacks => callbacks
  | .keyspace _ events => events
  | .object event => [event]

/-- The pass of `eachKeyspace`. -/
def KeyspaceEvents.works (ks : KeyspaceEvents) : List Work :=
  match ks.mainEvent with
  | some event => [.keyspace event ks.events]
  | none => ks.events.map .object

/-- The handlers that `processQueue` calls. -/
def Queue.works (q : Queue) : List Work :=
  match q.mainEvent with
  | some event => [.all event q.callbacks]
  | none => (JsObject.entries q.keyspaces).flatMap fun p => p.2.works

/-- A call of `processQueue` that goes on: the handler that is being called, and those that follow. -/
structure Frame where
  queue : ℕ
  current : Option Work
  rest : List Work

/-- A handler that returned its promise, and the outcome once that settled: the error, or none. -/
structure Job where
  work : Work
  outcome : Option (Option String)

/-- Why an event was called back. -/
inductive Cause where
  | shutdown
  /-- The handler of the event returned. -/
  | returned
  /-- The promise of the handler of `event` settled. -/
  | settled (event : Event) (outcome : Option String)
deriving DecidableEq

/-- The fields of the debouncer, what runs, and the history of the run. -/
structure State where
  queue : Option Queue
  timeout : Option ℕ
  /-- The timers that have neither expired nor been cleared. -/
  timers : List ℕ
  timerCount : ℕ
  stack : List Frame
  jobs : List Job
  received : List Event
  /-- The queues that were processed, in the order of their numbers. -/
  processed : List Queue
  calls : List (ℕ × Work)
  settled : List (Event × Option String)
  invoked : List (Event × Cause)
  rejected : List Event
  log : List String

def State.init : State := ⟨none, none, [], 0, [], [], [], [], [], [], [], [], []⟩

inductive Action where
  | eventReceived (all : Bool) (keyspace : String) (cqlObject : Option (Option String)) (processNow : Bool)
  | expire (timer : ℕ)
  | shutdown
  /-- The frame on top calls its next handler. -/
  | call
  /-- The handler that the frame on top called returns. -/
  | returned
  /-- The frame on top has called all handlers. -/
  | finish
  | settle (job : ℕ) (outcome : Option String)
  /-- `process.nextTick` after a promise that `toCallback` waits for settled. -/
  | tick (job : ℕ)

def queueOverflowThreshold : ℕ := 1000

/-- The event in the list of its keyspace; a full refresh of the keyspace supersedes the others. -/
def KeyspaceEvents.insert (ks : KeyspaceEvents) (event : Event) : KeyspaceEvents :=
  ⟨if event.cqlObject = none then some event else ks.mainEvent, ks.events ++ [event]⟩

/-- The callback of the event, which may supersede all others. -/
def Queue.push (q : Queue) (event : Event) : Queue :=
  { q with mainEvent := if event.all then some event else q.mainEvent, callbacks := q.callbacks ++ [event] }

/-- The event at the level of its keyspace, unless all are refreshed; `none` for an inherited property. -/
def Queue.insert (q : Queue) (event : Event) : Option Queue :=
  if q.mainEvent.isSome then some q
  else
    match JsObject.get q.keyspaces event.keyspace with
    | .own ks => some { q with keyspaces := JsObject.set q.keyspaces event.keyspace (ks.insert event) }
    | .undefined => some { q with
        keyspaces := JsObject.set q.keyspaces event.keyspace (KeyspaceEvents.insert ⟨none, []⟩ event) }
    | .inherited => none

namespace State

/-- `process` of `_slideDelay`; without a queue `processQueue` would throw. -/
def process (s : State) : State :=
  match s.queue with
  | none => { s with queue := none, timeout := none }
  | some q => { s with
      queue := none
      timeout := none
      stack := ⟨s.processed.length, none, q.works⟩ :: s.stack
      processed := s.processed ++ [q] }

def clearTimeout (s : State) (timeout : Option ℕ) : State :=
  match timeout with
  | none => s
  | some t => { s with timers := s.timers.erase t }

def slideDelay (s : State) (delay : ℕ) : State :=
  if delay = 0 then (s.clearTimeout s.timeout).process
  else
    let previousTimeout := s.timeout
    let s := { s with
      timeout := some s.timerCount
      timers := s.timers ++ [s.timerCount]
      timerCount := s.timerCount + 1 }
    s.clearTimeout previousTimeout

/-- The executor of the promise of `eventReceived`. -/
def receive (s : State) (delay : ℕ) (event : Event) : State :=
  let q := s.queue.getD ⟨[], [], none⟩
  let log := if q.callbacks.length = queueOverflowThreshold then
    s.log ++ ["Event debouncer queue exceeded " ++ toString queueOverflowThreshold ++ " events"] else s.log
  let q := q.push event
  let s := { s with received := s.received ++ [event], log := log, queue := some q }
  match q.insert event with
  | some q => { s with queue := some q }.slideDelay delay
  -- the list of events is missing in what was read: the error rejects the promise
  | none => { s with rejected := s.rejected ++ [event] }

def shutdown (s : State) : State :=
  match s.queue with
  | none => s
  | some q =>
      { ({ s with invoked := s.invoked ++ q.callbacks.map fun e => (e, Cause.shutdown), queue := none }.clearTimeout
        s.timeout) with timeout := none }

/-- Code from outside, or of a handler that is being called, may run. -/
def entered (s : State) : Bool :=
  match s.stack with
  | [] => true
  | f :: _ => f.current.isSome

end State

/-- What follows the return of a handler; the promise of the handler of an object is dropped. -/
def Work.after (w : Work) (s : State) : State :=
  let s := { s with jobs := s.jobs ++ [⟨w, none⟩] }
  match w with
  | .object event => { s with invoked := s.invoked ++ [(event, .returned)] }
  | _ => s

/-- The steps of a debouncer with the given `_delay`.  Timers, promises and ticks wait for the code that runs. -/
def step (delay : ℕ) (s : State) : Action → Option State
  | .eventReceived all keyspace cqlObject processNow =>
      let event : Event := ⟨s.received.length, all, keyspace, cqlObject⟩
      if s.entered then some (s.receive (if processNow then 0 else delay) event) else none
  | .expire timer =>
      if s.stack.isEmpty ∧ timer ∈ s.timers then some ({ s with timers := s.timers.erase timer }.process) else none
  | .shutdown => if s.entered then some s.shutdown else none
  | .call => match s.stack with
      | ⟨k, none, w :: rest⟩ :: stack => some { s with
          stack := ⟨k, some w, rest⟩ :: stack
          calls := s.calls ++ [(k, w)] }
      | _ => none
  | .returned => match s.stack with
      | ⟨k, some w, rest⟩ :: stack => some (w.after { s with stack := ⟨k, none, rest⟩ :: stack })
      | _ => none
  | .finish => match s.stack with
      | ⟨_, none, []⟩ :: stack => some { s with stack := stack }
      | _ => none
  | .settle job outcome =>
      match s.stack, s.jobs[job]? with
      | [], some ⟨w, none⟩ => some { s with
          jobs := s.jobs.set job ⟨w, some outcome⟩
          settled := s.settled ++ [(w.event, outcome)] }
      | _, _ => none
  | .tick job =>
      match s.stack, s.jobs[job]? with
      | [], some ⟨.object _, _⟩ => none
      | [], some ⟨w, some outcome⟩ => some { s with
          jobs := s.jobs.eraseIdx job
          invoked := s.invoked ++ w.waiting.map fun e => (e, .settled w.event outcome) }
      | _, _ => none

/-! ### Queues -/

/-- The events of a keyspace, with the last one that is not about an object as the main event. -/
structure KeyspaceEvents.WellFormed (name : String) (ks : KeyspaceEvents) : Prop where
  keyspace : ∀ e ∈ ks.events, e.keyspace = name
  whole : ∀ e ∈ ks.events, e.cqlObject = none → ks.mainEvent.isSome = true
  main : ∀ e ∈ ks.mainEvent, e ∈ ks.events ∧ e.cqlObject = none

/-- What the superseding rules keep of a queue. -/
structure Queue.WellFormed (q : Queue) : Prop where
  all : ∀ e ∈ q.callbacks, e.all = true → q.mainEvent.isSome = true
  main : ∀ e ∈ q.mainEvent, e ∈ q.callbacks ∧ e.all = true
  names : (q.keyspaces.map Prod.fst).Nodup
  keyspaces : ∀ p ∈ q.keyspaces, p.2.WellFormed p.1
  callbacks : q.mainEvent = none → q.callbacks.Perm (q.keyspaces.flatMap fun p => p.2.events)

theorem waiting_works (ks : KeyspaceEvents) : ks.works.flatMap Work.waiting = ks.events := by
  unfold KeyspaceEvents.works
  cases ks.mainEvent with
  | some event => simp [Work.waiting]
  | none =>
      simp only
      induction ks.events with
      | nil => rfl
      | cons e es ih => simpa [Work.waiting] using ih

/-- Each callback of a queue is called after one of its handlers. -/
theorem Queue.WellFormed.waiting {q : Queue} (h : q.WellFormed) :
    (q.works.flatMap Work.waiting).Perm q.callbacks := by
  unfold Queue.works
  cases hmain : q.mainEvent with
  | some event => simp [Work.waiting]
  | none =>
      refine List.Perm.trans ?_ (h.callbacks hmain).symm
      simp only [List.flatMap_assoc, waiting_works]
      exact (JsObject.entries_perm q.keyspaces).flatMap_right _

/-- One handler is called for a queue that holds an event for all. -/
theorem Queue.WellFormed.works_of_all {q : Queue} (h : q.WellFormed) {e : Event} (he : e ∈ q.callbacks)
    (hall : e.all = true) : ∃ event ∈ q.callbacks, event.all = true ∧ q.works = [.all event q.callbacks] := by
  obtain ⟨event, hevent⟩ := Option.isSome_iff_exists.1 (h.all e he hall)
  refine ⟨event, (h.main event hevent).1, (h.main event hevent).2, ?_⟩
  rw [Queue.works, hevent]

theorem keyspace_of_mem_works {name : String} {ks : KeyspaceEvents} (h : ks.WellFormed name) {w : Work}
    (hw : w ∈ ks.works) : w.event.keyspace = name := by
  unfold KeyspaceEvents.works at hw
  cases hmain : ks.mainEvent with
  | some event =>
      rw [hmain, List.mem_singleton] at hw
      rw [hw]
      exact h.keyspace event (h.main event hmain).1
  | none =>
      rw [hmain] at hw
      obtain ⟨e, he, rfl⟩ := List.mem_map.1 hw
      exact h.keyspace e he

/-- The works of one keyspace among those of all. -/
theorem filter_works {name : String} {ks : KeyspaceEvents} {keyspaces : List (String × KeyspaceEvents)}
    (hnames : (keyspaces.map Prod.fst).Nodup) (hwf : ∀ p ∈ keyspaces, p.2.WellFormed p.1)
    (hmem : (name, ks) ∈ keyspaces) :
    (keyspaces.flatMap fun p => p.2.works).filter (fun w => w.event.keyspace == name) = ks.works := by
  have hself : ∀ p ∈ keyspaces, p.2.works.filter (fun w => w.event.keyspace == name) =
      if p.1 = name then p.2.works else [] := by
    intro p hp
    split_ifs with hname
    · exact List.filter_eq_self.2 fun w hw => by rw [keyspace_of_mem_works (hwf p hp) hw, hname, beq_self_eq_true]
    · exact List.filter_eq_nil_iff.2 fun w hw => by simpa [keyspace_of_mem_works (hwf p hp) hw] using hname
  rw [List.filter_flatMap, List.flatMap_congr hself]
  clear hself hwf
  induction keyspaces with
  | nil => cases hmem
  | cons p keyspaces ih =>
      rw [List.map_cons, List.nodup_cons] at hnames
      rw [List.flatMap_cons]
      rcases List.mem_cons.1 hmem with rfl | hmem
      · have hrest : (keyspaces.flatMap fun p => if p.1 = name then p.2.works else []) = [] := by
          rw [List.flatMap_eq_nil_iff]
          intro p hp
          have hne : p.1 ≠ name := fun heq => hnames.1 (heq ▸ List.mem_map.2 ⟨p, hp, rfl⟩)
          exact if_neg hne
        rw [if_pos rfl, hrest, List.append_nil]
      · have hne : p.1 ≠ name := fun heq => hnames.1 (heq ▸ List.mem_map_of_mem hmem)
        rw [if_neg hne, List.nil_append, ih hnames.2 hmem]

/-- One handler is called for a keyspace that has an event of its own. -/
theorem Queue.WellFormed.works_of_keyspace {q : Queue} (h : q.WellFormed) (hmain : q.mainEvent = none) {e : Event}
    (he : e ∈ q.callbacks) (hwhole : e.cqlObject = none) :
    ∃ event events, e ∈ events ∧ event ∈ events ∧ event.cqlObject = none ∧
      q.works.filter (fun w => w.event.keyspace == e.keyspace) = [.keyspace event events] := by
  obtain ⟨⟨name, ks⟩, hp, hek⟩ := List.mem_flatMap.1 ((h.callbacks hmain).mem_iff.1 he)
  have hks := h.keyspaces _ hp
  obtain ⟨event, hevent⟩ := Option.isSome_iff_exists.1 (hks.whole e hek hwhole)
  obtain ⟨hin, hnone⟩ := hks.main event hevent
  have hperm := JsObject.entries_perm q.keyspaces
  refine ⟨event, ks.events, hek, hin, hnone, ?_⟩
  rw [Queue.works, hmain, hks.keyspace e hek, filter_works ((hperm.map Prod.fst).nodup_iff.2 h.names)
    (fun p hp => h.keyspaces p (hperm.mem_iff.1 hp)) (hperm.mem_iff.2 hp), KeyspaceEvents.works, hevent]

theorem KeyspaceEvents.WellFormed.insert {name : String} {ks : KeyspaceEvents} (h : ks.WellFormed name)
    {event : Event} (hname : event.keyspace = name) : (ks.insert event).WellFormed name := by
  refine ⟨fun e he => ?_, fun e he hwhole => ?_, fun e he => ?_⟩
  · rcases List.mem_append.1 he with he | he
    · exact h.keyspace e he
    · rwa [List.mem_singleton.1 he]
  · rw [KeyspaceEvents.insert]
    split_ifs with hevent
    · rfl
    · rcases List.mem_append.1 he with he | he
      · exact h.whole e he hwhole
      · exact absurd (List.mem_singleton.1 he ▸ hwhole) hevent
  · rw [KeyspaceEvents.insert] at he ⊢
    split_ifs at he with hevent
    · obtain rfl := Option.some.inj he
      exact ⟨by simp, hevent⟩
    · exact ⟨List.mem_append_left _ (h.main e he).1, (h.main e he).2⟩

theorem wellFormed_nil (name : String) : KeyspaceEvents.WellFormed name ⟨none, []⟩ :=
  ⟨by simp, by simp, by simp⟩

theorem wellFormed_empty : Queue.WellFormed ⟨[], [], none⟩ :=
  ⟨by simp, by simp, by simp, by simp, by simp⟩

/-- A queue keeps the rules when an event is received. -/
theorem Queue.WellFormed.receive {q q' : Queue} {event : Event} (h : q.WellFormed)
    (hname : event.keyspace ∉ JsObject.prototypeNames) (hq' : (q.push event).insert event = some q') :
    q'.WellFormed ∧ q'.callbacks = q.callbacks ++ [event] := by
  have hall : ∀ e ∈ q.callbacks ++ [event], e.all = true → (q.push event).mainEvent.isSome = true := by
    intro e he hall
    rw [Queue.push]
    split_ifs with hevent
    · rfl
    · rcases List.mem_append.1 he with he | he
      · exact h.all e he hall
      · exact absurd (List.mem_singleton.1 he ▸ hall) hevent
  have hmain : ∀ e ∈ (q.push event).mainEvent, e ∈ q.callbacks ++ [event] ∧ e.all = true := by
    intro e he
    rw [Queue.push] at he
    split_ifs at he with hevent
    · obtain rfl := Option.some.inj he
      exact ⟨by simp, hevent⟩
    · exact ⟨List.mem_append_left _ (h.main e he).1, (h.main e he).2⟩
  rw [Queue.insert] at hq'
  split_ifs at hq' with hsome
  · obtain rfl := Option.some.inj hq'
    refine ⟨⟨hall, hmain, h.names, h.keyspaces, fun hnone => ?_⟩, rfl⟩
    rw [hnone] at hsome
    cases hsome
  · have hnone : q.mainEvent = none := by
      cases hq : q.mainEvent with
      | none => rfl
      | some e =>
          rw [Queue.push] at hsome
          split_ifs at hsome with hevent
          · exact absurd rfl hsome
          · rw [hq] at hsome
            exact absurd rfl hsome
    have hcallbacks := h.callbacks hnone
    split at hq'
    · next ks hget =>
        obtain rfl := Option.some.inj hq'
        obtain ⟨front, back, hsplit, hset⟩ := JsObject.set_of_get hget
        simp only [Queue.push] at hsplit hset ⊢
        rw [hset]
        have hks := h.keyspaces (event.keyspace, ks) (by rw [hsplit]; simp)
        refine ⟨⟨hall, hmain, ?_, fun p hp => ?_, fun _ => ?_⟩, trivial⟩
        · have hnames := h.names
          rw [hsplit] at hnames
          simpa using hnames
        · rcases List.mem_append.1 hp with hp | hp
          · exact h.keyspaces p (by rw [hsplit]; exact List.mem_append_left _ hp)
          · rcases List.mem_cons.1 hp with rfl | hp
            · exact hks.insert rfl
            · exact h.keyspaces p (by rw [hsplit]; simp [hp])
        · rw [hsplit] at hcallbacks
          refine (hcallbacks.append_right [event]).trans ?_
          simp only [List.flatMap_append, List.flatMap_cons, KeyspaceEvents.insert, List.append_assoc]
          exact ((List.perm_append_comm).append_left _).append_left _
    · next hget =>
        obtain rfl := Option.some.inj hq'
        have hfresh := JsObject.not_mem_of_get hget
        have hproto : event.keyspace ≠ "__proto__" := by
          rintro heq
          exact hname (by rw [heq]; decide)
        simp only [Queue.push] at hfresh ⊢
        rw [JsObject.set_of_not_mem _ hfresh hproto]
        refine ⟨⟨hall, hmain, ?_, fun p hp => ?_, fun _ => ?_⟩, trivial⟩
        · rw [List.map_append, List.map_singleton]
          refine List.nodup_append.2 ⟨h.names, List.nodup_singleton _, fun n hn m hm heq => hfresh ?_⟩
          rwa [heq, List.mem_singleton.1 hm] at hn
        · rcases List.mem_append.1 hp with hp | hp
          · exact h.keyspaces p hp
          · rw [List.mem_singleton.1 hp]
            exact (wellFormed_nil _).insert rfl
        · rw [List.flatMap_append, List.flatMap_singleton]
          exact hcallbacks.append_right [event]
    · cases hq'

/-! ### Runs -/

/-- The events that wait for the promise of a handler. -/
def Job.waiting (j : Job) : List Event :=
  match j.work with
  | .object _ => []
  | w => w.waiting

/-- The events that wait for the handlers of a frame. -/
def Frame.waiting (f : Frame) : List Event := f.current.toList.flatMap Work.waiting ++ f.rest.flatMap Work.waiting

namespace State

/-- The events of the pending queue. -/
def queueEvents (s : State) : List Event := (s.queue.getD ⟨[], [], none⟩).callbacks

/-- The handlers of a processed queue that were called, and those that are still to be called. -/
def handlers (s : State) (k : ℕ) : List Work :=
  s.calls.filterMap (fun c => if c.1 = k then some c.2 else none) ++
    (s.stack.filter fun f => f.queue = k).flatMap Frame.rest

/-- What happened before an event was called back. -/
def Justified (s : State) (e : Event) : Cause → Prop
  | .shutdown => ∀ q ∈ s.processed, e ∉ q.callbacks
  | .returned => ∃ k, (k, .object e) ∈ s.calls
  | .settled event outcome => (event, outcome) ∈ s.settled ∧
      ∃ c ∈ s.calls, c.2.event = event ∧ e ∈ c.2.waiting ∧ c.2 ≠ .object event

/-- Each event is called back, in the queue, or waits for a handler of a processed queue. -/
structure Accounted (s : State) : Prop where
  ids : s.received.map Event.id = List.range s.received.length
  events : s.received.Perm
    (s.invoked.map Prod.fst ++ s.queueEvents ++ s.stack.flatMap Frame.waiting ++ s.jobs.flatMap Job.waiting)
  queue : (s.queue.getD ⟨[], [], none⟩).WellFormed
  processed : ∀ q ∈ s.processed, q.WellFormed ∧ ∀ e ∈ q.callbacks, e ∈ s.received ∧ e ∉ s.queueEvents
  handlers : ∀ k q, s.processed[k]? = some q → s.handlers k = q.works
  frames : ∀ f ∈ s.stack, f.queue < s.processed.length ∧ ∀ w ∈ f.current, (f.queue, w) ∈ s.calls
  calls : ∀ c ∈ s.calls, c.1 < s.processed.length
  jobs : ∀ j ∈ s.jobs, (∃ k, (k, j.work) ∈ s.calls) ∧ ∀ o ∈ j.outcome, (j.work.event, o) ∈ s.settled
  causes : ∀ p ∈ s.invoked, s.Justified p.1 p.2
  rejected : s.rejected = []

/-- A live timer for the queue, and no other. -/
structure Timed (s : State) : Prop where
  timers : s.timers = s.timeout.toList
  scheduled : s.queue.isSome = s.timeout.isSome

variable {s s' : State}

theorem Justified.mono {e : Event} {c : Cause} (h : s.Justified e c) (hcalls : s.calls ⊆ s'.calls)
    (hsettled : s.settled ⊆ s'.settled) (hprocessed : ∀ q ∈ s'.processed, e ∈ q.callbacks → q ∈ s.processed) :
    s'.Justified e c := by
  cases c with
  | shutdown => exact fun q hq he => h q (hprocessed q hq he) he
  | returned =>
      obtain ⟨k, hk⟩ := h
      exact ⟨k, hcalls hk⟩
  | settled event outcome =>
      obtain ⟨hout, c, hc, hevent⟩ := h
      exact ⟨hsettled hout, c, hcalls hc, hevent⟩

theorem Accounted.nodup (h : s.Accounted) : s.received.Nodup := by
  refine List.Nodup.of_map Event.id ?_
  rw [h.ids]
  exact List.nodup_range

/-- An event that was called back waits for nothing. -/
theorem Accounted.disjoint (h : s.Accounted) {e : Event} (he : e ∈ s.invoked.map Prod.fst) :
    e ∉ s.queueEvents ∧ (∀ f ∈ s.stack, e ∉ f.waiting) ∧ ∀ j ∈ s.jobs, e ∉ j.waiting := by
  have hnodup := h.events.nodup_iff.1 h.nodup
  simp only [List.append_assoc] at hnodup
  have hnot := (List.nodup_append.1 hnodup).2.2 e he
  refine ⟨fun hq => ?_, fun f hf hw => ?_, fun j hj hw => ?_⟩
  · exact hnot e (List.mem_append_left _ hq) rfl
  · exact hnot e (List.mem_append_right _ (List.mem_append_left _ (List.mem_flatMap.2 ⟨f, hf, hw⟩))) rfl
  · exact hnot e (List.mem_append_right _ (List.mem_append_right _ (List.mem_flatMap.2 ⟨j, hj, hw⟩))) rfl

theorem Accounted.timers (h : s.Accounted) (timers : List ℕ) (timeout : Option ℕ) (timerCount : ℕ) :
    Accounted { s with timers := timers, timeout := timeout, timerCount := timerCount } :=
  ⟨h.ids, h.events, h.queue, h.processed, h.handlers, h.frames, h.calls, h.jobs, h.causes, h.rejected⟩

theorem Accounted.clearTimeout (h : s.Accounted) (timeout : Option ℕ) : (s.clearTimeout timeout).Accounted := by
  cases timeout with
  | none => exact h
  | some t => exact h.timers _ _ _

/-- What the frame on top is to call. -/
theorem handlers_cons {f : Frame} {stack : List Frame} (hstack : s.stack = f :: stack) (k : ℕ) :
    s.handlers k = s.calls.filterMap (fun c => if c.1 = k then some c.2 else none) ++
      ((if f.queue = k then f.rest else []) ++ (stack.filter fun f => f.queue = k).flatMap Frame.rest) := by
  rw [State.handlers, hstack]
  by_cases hf : f.queue = k
  · rw [List.filter_cons_of_pos (by simpa using hf), List.flatMap_cons, if_pos hf]
  · rw [List.filter_cons_of_neg (by simpa using hf), if_neg hf, List.nil_append]

/-- The handlers of a queue of which nothing was called yet. -/
theorem Accounted.handlers_length (h : s.Accounted) : s.handlers s.processed.length = [] := by
  have hcalls : s.calls.filterMap (fun c => if c.1 = s.processed.length then some c.2 else none) = [] := by
    rw [List.filterMap_eq_nil_iff]
    intro c hc
    exact if_neg (Nat.ne_of_lt (h.calls c hc))
  have hframes : s.stack.filter (fun f => f.queue = s.processed.length) = [] := by
    rw [List.filter_eq_nil_iff]
    intro f hf
    simpa using Nat.ne_of_lt (h.frames f hf).1
  rw [State.handlers, hcalls, hframes, List.flatMap_nil, List.append_nil]

theorem process_of_some {q : Queue} (hq : s.queue = some q) : s.process = { s with
    queue := none
    timeout := none
    stack := ⟨s.processed.length, none, q.works⟩ :: s.stack
    processed := s.processed ++ [q] } := by
  rw [State.process, hq]

/-- The queue becomes the last of the processed ones, and the frame on top is to call its handlers. -/
theorem Accounted.process {q : Queue} (h : s.Accounted) (hq : s.queue = some q) : s.process.Accounted := by
  have hwf : q.WellFormed := by simpa [hq] using h.queue
  have hqueue : s.queueEvents = q.callbacks := by rw [queueEvents, hq, Option.getD_some]
  rw [process_of_some hq]
  refine ⟨h.ids, ?_, wellFormed_empty, fun q' hq' => ?_, fun k q' hq' => ?_, fun f hf => ?_, fun c hc => ?_, h.jobs,
    fun p hp => ?_, h.rejected⟩
  · rw [List.perm_iff_count]
    intro e
    have hevents := h.events.count_eq e
    have hworks := hwf.waiting.count_eq e
    simp only [hqueue, List.count_append] at hevents
    simp only [queueEvents, List.flatMap_cons, Frame.waiting, List.count_append, Option.getD_none, Option.toList_none,
      List.flatMap_nil, List.count_nil]
    omega
  · rcases List.mem_append.1 hq' with hq' | hq'
    · exact ⟨(h.processed q' hq').1, fun e he => ⟨((h.processed q' hq').2 e he).1, List.not_mem_nil⟩⟩
    · rw [List.mem_singleton.1 hq']
      refine ⟨hwf, fun e he => ⟨h.events.mem_iff.2 ?_, List.not_mem_nil⟩⟩
      simp [hqueue, he]
  · rcases Nat.lt_trichotomy k s.processed.length with hk | rfl | hk
    · rw [List.getElem?_append_left hk] at hq'
      rw [← h.handlers k q' hq', handlers_cons rfl, if_neg (Nat.ne_of_gt hk), List.nil_append]
      rfl
    · rw [List.getElem?_concat_length, Option.some.injEq] at hq'
      subst hq'
      have hnil := h.handlers_length
      rw [State.handlers, List.append_eq_nil_iff] at hnil
      rw [handlers_cons rfl, if_pos rfl, hnil.1, hnil.2, List.nil_append, List.append_nil]
    · rw [List.getElem?_eq_none (by simp; omega)] at hq'
      cases hq'
  · rw [List.length_append, List.length_singleton]
    rcases List.mem_cons.1 hf with rfl | hf
    · exact ⟨Nat.lt_succ_self _, by simp⟩
    · exact ⟨Nat.lt_succ_of_lt (h.frames f hf).1, (h.frames f hf).2⟩
  · rw [List.length_append, List.length_singleton]
    exact Nat.lt_succ_of_lt (h.calls c hc)
  · refine (h.causes p hp).mono (List.Subset.refl _) (List.Subset.refl _) fun q' hq' he => ?_
    rcases List.mem_append.1 hq' with hq' | hq'
    · exact hq'
    · rw [List.mem_singleton.1 hq', ← hqueue] at he
      exact absurd he (h.disjoint (List.mem_map_of_mem hp)).1

theorem Timed.process (h : s.timers = []) : s.process.Timed := by
  rw [State.process]
  split
  · exact ⟨h, rfl⟩
  · exact ⟨h, rfl⟩

/-- The timer that was there is replaced, or the queue is processed. -/
theorem Accounted.slideDelay {q : Queue} (h : s.Accounted) (hq : s.queue = some q) (delay : ℕ) :
    (s.slideDelay delay).Accounted := by
  have hcleared : ∀ t, (s.clearTimeout t).queue = s.queue := by
    rintro (_ | t)
    · rfl
    · rfl
  rw [State.slideDelay]
  split_ifs
  · exact (h.clearTimeout _).process ((hcleared _).trans hq)
  · exact (h.timers _ _ _).clearTimeout _

theorem Timed.slideDelay {q : Queue} (htimers : s.timers = s.timeout.toList) (hq : s.queue = some q) (delay : ℕ) :
    (s.slideDelay delay).Timed := by
  rw [State.slideDelay]
  split_ifs
  · apply Timed.process
    cases ht : s.timeout with
    | none => simpa [State.clearTimeout, ht] using htimers
    | some t => simp [State.clearTimeout, htimers, ht]
  · cases ht : s.timeout with
    | none => exact ⟨by simp [State.clearTimeout, htimers, ht], by simp [State.clearTimeout, hq]⟩
    | some t => exact ⟨by simp [State.clearTimeout, htimers, ht], by simp [State.clearTimeout, hq]⟩

theorem Timed.shutdown (h : s.Timed) : s.shutdown.Timed := by
  rw [State.shutdown]
  split
  · exact h
  · cases ht : s.timeout with
    | none => exact ⟨by simp [State.clearTimeout, h.timers, ht], rfl⟩
    | some t => exact ⟨by simp [State.clearTimeout, h.timers, ht], rfl⟩

/-- The event joins the queue. -/
theorem Accounted.receive {q : Queue} {event : Event} (h : s.Accounted) (hid : event.id = s.received.length)
    (hwf : q.WellFormed) (hcallbacks : q.callbacks = s.queueEvents ++ [event]) (log : List String) :
    Accounted { s with received := s.received ++ [event], log := log, queue := some q } := by
  have hfresh : event ∉ s.received := by
    intro hmem
    have hlt := List.mem_map_of_mem (f := Event.id) hmem
    rw [h.ids, List.mem_range, hid] at hlt
    exact Nat.lt_irrefl _ hlt
  refine ⟨?_, ?_, hwf, fun q' hq' => ⟨(h.processed q' hq').1, fun e he => ?_⟩, h.handlers, h.frames, h.calls, h.jobs,
    h.causes, h.rejected⟩
  · rw [List.map_append, h.ids, List.length_append, List.map_singleton, List.length_singleton, List.range_succ, hid]
  · rw [List.perm_iff_count]
    intro e
    have hevents := h.events.count_eq e
    simp only [List.count_append] at hevents
    simp only [queueEvents, Option.getD_some, hcallbacks, List.count_append] at hevents ⊢
    omega
  · obtain ⟨hreceived, hqueue⟩ := (h.processed q' hq').2 e he
    refine ⟨List.mem_append_left _ hreceived, ?_⟩
    rw [queueEvents, Option.getD_some, hcallbacks, List.mem_append, List.mem_singleton]
    rintro (hmem | rfl)
    · exact hqueue hmem
    · exact hfresh hreceived

/-- `eventReceived` with a name that is not inherited. -/
theorem receive_of_ordinary (h : s.Accounted) (event : Event) (hid : event.id = s.received.length)
    (hname : event.keyspace ∉ JsObject.prototypeNames) (delay : ℕ) :
    ∃ q log, s.receive delay event =
        { s with received := s.received ++ [event], log := log, queue := some q }.slideDelay delay ∧
      Accounted { s with received := s.received ++ [event], log := log, queue := some q } := by
  obtain ⟨q, hq⟩ : ∃ q, ((s.queue.getD ⟨[], [], none⟩).push event).insert event = some q := by
    rw [Queue.insert]
    split_ifs
    · exact ⟨_, rfl⟩
    · split
      · exact ⟨_, rfl⟩
      · exact ⟨_, rfl⟩
      · next hget =>
          rw [JsObject.get] at hget
          split at hget
          · cases hget
          · rw [if_neg hname] at hget
            cases hget
  obtain ⟨hwf, hcallbacks⟩ := h.queue.receive hname hq
  rw [State.receive]
  simp only [hq]
  exact ⟨q, _, rfl, h.receive hid hwf hcallbacks _⟩

theorem Accounted.shutdown (h : s.Accounted) : s.shutdown.Accounted := by
  rw [State.shutdown]
  split
  · exact h
  · next q hq =>
      have hqueue : s.queueEvents = q.callbacks := by rw [queueEvents, hq, Option.getD_some]
      refine Accounted.timers (Accounted.clearTimeout ?_ _) _ _ _
      refine ⟨h.ids, ?_, wellFormed_empty, fun q' hq' => ?_, h.handlers, h.frames, h.calls, h.jobs, fun p hp => ?_,
        h.rejected⟩
      · have hevents := h.events
        rw [hqueue] at hevents
        simpa [queueEvents, Function.comp_def] using hevents
      · exact ⟨(h.processed q' hq').1, fun e he => ⟨((h.processed q' hq').2 e he).1, List.not_mem_nil⟩⟩
      · rcases List.mem_append.1 hp with hp | hp
        · exact h.causes p hp
        · obtain ⟨e, he, rfl⟩ := List.mem_map.1 hp
          exact fun q' hq' hmem => ((h.processed q' hq').2 e hmem).2 (hqueue ▸ he)

/-- A handler that was to be called is called. -/
theorem Accounted.call (h : s.Accounted) {k : ℕ} {w : Work} {rest : List Work} {stack : List Frame}
    (hstack : s.stack = ⟨k, none, w :: rest⟩ :: stack) :
    Accounted { s with stack := ⟨k, some w, rest⟩ :: stack, calls := s.calls ++ [(k, w)] } := by
  have hframes := h.frames
  rw [hstack] at hframes
  have hk := (hframes _ List.mem_cons_self).1
  refine ⟨h.ids, ?_, h.queue, h.processed, fun j q hq => ?_, fun f hf => ?_, fun c hc => ?_, fun j hj => ?_,
    fun p hp => ?_, h.rejected⟩
  · have hevents := h.events
    rw [hstack] at hevents
    simpa [Frame.waiting, queueEvents] using hevents
  · rw [← h.handlers j q hq, handlers_cons hstack, handlers_cons rfl, List.filterMap_append, List.append_assoc]
    by_cases hj : k = j
    · simp [hj]
    · simp [hj]
  · rcases List.mem_cons.1 hf with rfl | hf
    · refine ⟨hk, fun w' hw' => ?_⟩
      obtain rfl : w = w' := Option.some.inj hw'
      exact List.mem_append_right _ (List.mem_singleton_self _)
    · obtain ⟨hlt, hcalls⟩ := hframes f (List.mem_cons_of_mem _ hf)
      exact ⟨hlt, fun w' hw' => List.mem_append_left _ (hcalls w' hw')⟩
  · rcases List.mem_append.1 hc with hc | hc
    · exact h.calls c hc
    · rw [List.mem_singleton.1 hc]
      exact hk
  · obtain ⟨⟨j', hj'⟩, hout⟩ := h.jobs j hj
    exact ⟨⟨j', List.mem_append_left _ hj'⟩, hout⟩
  · exact (h.causes p hp).mono (List.subset_append_left _ _) (List.Subset.refl _) fun q hq _ => hq

/-- The handler of the frame on top returned: it is a job now, and the events `es` are called back at once. -/
theorem Accounted.returned (h : s.Accounted) {k : ℕ} {w : Work} {rest : List Work} {stack : List Frame}
    (es : List Event) (hstack : s.stack = ⟨k, some w, rest⟩ :: stack) (hes : es ++ Job.waiting ⟨w, none⟩ = w.waiting)
    (hobject : ∀ e ∈ es, w = .object e) :
    Accounted { s with
      stack := ⟨k, none, rest⟩ :: stack
      jobs := s.jobs ++ [⟨w, none⟩]
      invoked := s.invoked ++ es.map fun e => (e, .returned) } := by
  have hframes := h.frames
  rw [hstack] at hframes
  have hcall := (hframes _ List.mem_cons_self).2 w rfl
  refine ⟨h.ids, ?_, h.queue, h.processed, fun j q hq => ?_, fun f hf => ?_, h.calls, fun j hj => ?_,
    fun p hp => ?_, h.rejected⟩
  · rw [List.perm_iff_count]
    intro e
    have hevents := h.events.count_eq e
    rw [hstack] at hevents
    simp only [Frame.waiting, ← hes, List.flatMap_cons, Option.toList_some, List.flatMap_nil, List.append_nil,
      List.count_append] at hevents
    simp only [queueEvents, Frame.waiting, List.map_append, List.map_map, Function.comp_def, List.map_id',
      List.flatMap_append, List.flatMap_cons, Option.toList_none, List.flatMap_nil, List.append_nil, List.nil_append,
      List.count_append] at hevents ⊢
    omega
  · rw [← h.handlers j q hq, handlers_cons hstack, handlers_cons rfl]
  · rcases List.mem_cons.1 hf with rfl | hf
    · exact ⟨(hframes _ List.mem_cons_self).1, by simp⟩
    · exact hframes f (List.mem_cons_of_mem _ hf)
  · rcases List.mem_append.1 hj with hj | hj
    · exact h.jobs j hj
    · rw [List.mem_singleton.1 hj]
      exact ⟨⟨k, hcall⟩, by simp⟩
  · rcases List.mem_append.1 hp with hp | hp
    · exact h.causes p hp
    · obtain ⟨e, he, rfl⟩ := List.mem_map.1 hp
      exact ⟨k, hobject e he ▸ hcall⟩

theorem Accounted.after (h : s.Accounted) {k : ℕ} {w : Work} {rest : List Work} {stack : List Frame}
    (hstack : s.stack = ⟨k, some w, rest⟩ :: stack) :
    (w.after { s with stack := ⟨k, none, rest⟩ :: stack }).Accounted := by
  cases w with
  | all event callbacks => simpa [Work.after] using h.returned [] hstack rfl (by simp)
  | keyspace event events => simpa [Work.after] using h.returned [] hstack rfl (by simp)
  | object event => exact h.returned [event] hstack rfl (by simp)

theorem Accounted.finish (h : s.Accounted) {k : ℕ} {stack : List Frame} (hstack : s.stack = ⟨k, none, []⟩ :: stack) :
    Accounted { s with stack := stack } := by
  refine ⟨h.ids, ?_, h.queue, h.processed, fun j q hq => ?_, fun f hf => ?_, h.calls, h.jobs, h.causes, h.rejected⟩
  · have hevents := h.events
    rw [hstack] at hevents
    simpa [Frame.waiting, queueEvents] using hevents
  · rw [← h.handlers j q hq, handlers_cons hstack, ite_self, List.nil_append]
    rfl
  · exact h.frames f (by rw [hstack]; exact List.mem_cons_of_mem _ hf)

/-- The promise of a handler settles; its events wait for the tick. -/
theorem Accounted.settle (h : s.Accounted) {i : ℕ} {w : Work} (hi : s.jobs[i]? = some ⟨w, none⟩)
    (outcome : Option String) :
    Accounted { s with
      jobs := s.jobs.set i ⟨w, some outcome⟩
      settled := s.settled ++ [(w.event, outcome)] } := by
  obtain ⟨hlt, hget⟩ := List.getElem?_eq_some_iff.1 hi
  refine ⟨h.ids, ?_, h.queue, h.processed, h.handlers, h.frames, h.calls, fun j hj => ?_, fun p hp => ?_, h.rejected⟩
  · have hsame : (s.jobs.set i ⟨w, some outcome⟩).flatMap Job.waiting = s.jobs.flatMap Job.waiting := by
      have hlt' : i < (s.jobs.map Job.waiting).length := by simpa using hlt
      have hw : Job.waiting ⟨w, some outcome⟩ = (s.jobs.map Job.waiting)[i] := by
        rw [List.getElem_map, hget]
        rfl
      rw [List.flatMap_def, List.flatMap_def, List.map_set, hw, List.set_getElem_self]
    rw [hsame]
    exact h.events
  · rcases List.mem_or_eq_of_mem_set hj with hj | rfl
    · obtain ⟨hcall, hout⟩ := h.jobs j hj
      exact ⟨hcall, fun o ho => List.mem_append_left _ (hout o ho)⟩
    · obtain ⟨hcall, -⟩ := h.jobs _ (List.mem_of_getElem? hi)
      refine ⟨hcall, fun o ho => ?_⟩
      obtain rfl : outcome = o := Option.some.inj ho
      exact List.mem_append_right _ (List.mem_singleton_self _)
  · exact (h.causes p hp).mono (List.Subset.refl _) (List.subset_append_left _ _) fun q hq _ => hq

/-- The events of a handler are called back after its promise settled. -/
theorem Accounted.tick (h : s.Accounted) {i : ℕ} {w : Work} {outcome : Option String}
    (hi : s.jobs[i]? = some ⟨w, some outcome⟩) (hw : w ≠ .object w.event) :
    Accounted { s with
      jobs := s.jobs.eraseIdx i
      invoked := s.invoked ++ w.waiting.map fun e => (e, .settled w.event outcome) } := by
  obtain ⟨⟨k, hcall⟩, hout⟩ := h.jobs _ (List.mem_of_getElem? hi)
  obtain ⟨hlt, hget⟩ := List.getElem?_eq_some_iff.1 hi
  have hwaiting : Job.waiting ⟨w, some outcome⟩ = w.waiting := by
    cases w with
    | all => rfl
    | keyspace => rfl
    | object => exact absurd rfl hw
  refine ⟨h.ids, ?_, h.queue, h.processed, h.handlers, h.frames, h.calls,
    fun j hj => h.jobs j (List.mem_of_mem_eraseIdx hj), fun p hp => ?_, h.rejected⟩
  · rw [List.perm_iff_count]
    intro e
    have hevents := h.events.count_eq e
    have hjobs := ((List.getElem_cons_eraseIdx_perm hlt).flatMap_right Job.waiting).count_eq e
    rw [hget, List.flatMap_cons, hwaiting, List.count_append] at hjobs
    simp only [queueEvents, List.map_append, List.map_map, Function.comp_def, List.map_id',
      List.count_append] at hevents ⊢
    omega
  · rcases List.mem_append.1 hp with hp | hp
    · exact h.causes p hp
    · obtain ⟨e, he, rfl⟩ := List.mem_map.1 hp
      exact ⟨hout outcome rfl, (k, w), hcall, rfl, he, hw⟩

/-- The event is in the pending queue, which has a live timer. -/
def Pending (s : State) (e : Event) : Prop :=
  ∃ q t, s.queue = some q ∧ e ∈ q.callbacks ∧ s.timeout = some t ∧ t ∈ s.timers

/-- The event waits for a handler of its queue that is being called or still to be called, or for the callback after
the promise of one. -/
def InProgress (s : State) (e : Event) : Prop :=
  ∃ q ∈ s.processed, e ∈ q.callbacks ∧ ∃ w ∈ q.works, e ∈ w.waiting ∧
    ((∃ f ∈ s.stack, f.current = some w ∨ w ∈ f.rest) ∨ ∃ j ∈ s.jobs, j.work = w ∧ w ≠ .object e)

/-- A handler that was called or is to be called is one of a processed queue. -/
theorem Accounted.processed_of_handler (h : s.Accounted) {k : ℕ} {w : Work} (hk : k < s.processed.length)
    (hw : w ∈ s.handlers k) : ∃ q ∈ s.processed, w ∈ q.works ∧ ∀ e ∈ w.waiting, e ∈ q.callbacks := by
  have hget := List.getElem?_eq_getElem hk
  rw [h.handlers k _ hget] at hw
  have hwf := (h.processed _ (List.getElem_mem hk)).1
  exact ⟨_, List.getElem_mem hk, hw, fun e he => hwf.waiting.mem_iff.1 (List.mem_flatMap.2 ⟨w, hw, he⟩)⟩

theorem Accounted.processed_of_call (h : s.Accounted) {k : ℕ} {w : Work} (hcall : (k, w) ∈ s.calls) :
    ∃ q ∈ s.processed, w ∈ q.works ∧ ∀ e ∈ w.waiting, e ∈ q.callbacks := by
  refine h.processed_of_handler (h.calls _ hcall) (List.mem_append_left _ ?_)
  exact List.mem_filterMap.2 ⟨_, hcall, if_pos rfl⟩

theorem Accounted.pending_or_inProgress (h : s.Accounted) (ht : s.Timed) {e : Event} (he : e ∈ s.received)
    (hnot : e ∉ s.invoked.map Prod.fst) : s.Pending e ∨ s.InProgress e := by
  have hmem := h.events.mem_iff.1 he
  rw [List.append_assoc, List.append_assoc, List.mem_append, List.mem_append, List.mem_append] at hmem
  rcases hmem with hmem | hmem | hmem | hmem
  · exact absurd hmem hnot
  · cases hq : s.queue with
    | none =>
        rw [queueEvents, hq] at hmem
        cases hmem
    | some q =>
        rw [queueEvents, hq] at hmem
        have hscheduled := ht.scheduled
        rw [hq, Option.isSome_some] at hscheduled
        obtain ⟨t, htimeout⟩ := Option.isSome_iff_exists.1 hscheduled.symm
        exact .inl ⟨q, t, hq, hmem, htimeout, by rw [ht.timers, htimeout]; exact List.mem_singleton_self t⟩
  · obtain ⟨f, hf, hwaiting⟩ := List.mem_flatMap.1 hmem
    rcases List.mem_append.1 hwaiting with hwaiting | hwaiting
    · obtain ⟨w, hw, hwaiting⟩ := List.mem_flatMap.1 hwaiting
      have hcurrent := Option.mem_toList.1 hw
      obtain ⟨q, hq, hwork, hcallbacks⟩ := h.processed_of_call ((h.frames f hf).2 w hcurrent)
      exact .inr ⟨q, hq, hcallbacks e hwaiting, w, hwork, hwaiting, .inl ⟨f, hf, .inl hcurrent⟩⟩
    · obtain ⟨w, hw, hwaiting⟩ := List.mem_flatMap.1 hwaiting
      obtain ⟨q, hq, hwork, hcallbacks⟩ := h.processed_of_handler (w := w) (h.frames f hf).1
        (List.mem_append_right _ (List.mem_flatMap.2 ⟨f, by simp [hf], hw⟩))
      exact .inr ⟨q, hq, hcallbacks e hwaiting, w, hwork, hwaiting, .inl ⟨f, hf, .inr hw⟩⟩
  · obtain ⟨⟨w, o⟩, hj, hwaiting⟩ := List.mem_flatMap.1 hmem
    obtain ⟨⟨k, hcall⟩, -⟩ := h.jobs _ hj
    obtain ⟨q, hq, hwork, hcallbacks⟩ := h.processed_of_call hcall
    have hw : e ∈ w.waiting ∧ w ≠ .object e := by
      cases w with
      | all => exact ⟨hwaiting, nofun⟩
      | keyspace => exact ⟨hwaiting, nofun⟩
      | object => cases hwaiting
    exact .inr ⟨q, hq, hcallbacks e hw.1, w, hwork, hw.1, .inr ⟨_, hj, rfl, hw.2⟩⟩

/-- What was called back waits for nothing. -/
theorem Accounted.not_waiting (h : s.Accounted) {e : Event} (he : e ∈ s.invoked.map Prod.fst) :
    ¬ s.Pending e ∧ ¬ s.InProgress e := by
  obtain ⟨hqueue, hstack, hjobs⟩ := h.disjoint he
  refine ⟨?_, ?_⟩
  · rintro ⟨q, t, hq, hmem, -⟩
    rw [queueEvents, hq] at hqueue
    exact hqueue hmem
  · rintro ⟨q, -, -, w, -, hwaiting, ⟨f, hf, hcurrent | hrest⟩ | ⟨j, hj, rfl, hobject⟩⟩
    · refine hstack f hf (List.mem_append_left _ (List.mem_flatMap.2 ⟨w, ?_, hwaiting⟩))
      exact Option.mem_toList.2 hcurrent
    · exact hstack f hf (List.mem_append_right _ (List.mem_flatMap.2 ⟨w, hrest, hwaiting⟩))
    · refine hjobs j hj ?_
      unfold Job.waiting
      split
      · next event heq =>
          rw [heq, Work.waiting, List.mem_singleton] at hwaiting
          rw [heq, hwaiting] at hobject
          exact absurd rfl hobject
      · exact hwaiting

end State

/-- The keyspace of the event is no property name of `Object.prototype`. -/
def Action.Ordinary : Action → Prop
  | .eventReceived _ keyspace _ _ => keyspace ∉ JsObject.prototypeNames
  | _ => True

/-- What every step keeps. -/
theorem step_accounted {delay : ℕ} {s s' : State} {a : Action} (ha : a.Ordinary) (h : s.Accounted ∧ s.Timed)
    (hs : step delay s a = some s') : s'.Accounted ∧ s'.Timed := by
  obtain ⟨h, ht⟩ := h
  cases a with
  | eventReceived all keyspace cqlObject processNow =>
      simp only [step, Option.ite_none_right_eq_some, Option.some.injEq] at hs
      obtain ⟨-, rfl⟩ := hs
      obtain ⟨q, log, hreceive, hq⟩ := State.receive_of_ordinary h ⟨_, all, keyspace, cqlObject⟩ rfl ha _
      rw [hreceive]
      refine ⟨hq.slideDelay rfl _, State.Timed.slideDelay ?_ rfl _⟩
      exact ht.timers
  | expire timer =>
      simp only [step, Option.ite_none_right_eq_some, Option.some.injEq] at hs
      obtain ⟨⟨-, hmem⟩, rfl⟩ := hs
      obtain ⟨t, htimeout⟩ : ∃ t, s.timeout = some t := by
        cases htimeout : s.timeout with
        | none =>
            rw [ht.timers, htimeout] at hmem
            cases hmem
        | some t => exact ⟨t, rfl⟩
      have hscheduled := ht.scheduled
      rw [htimeout, Option.isSome_some] at hscheduled
      obtain ⟨q, hq⟩ := Option.isSome_iff_exists.1 hscheduled
      rw [ht.timers, htimeout, Option.toList_some, List.mem_singleton] at hmem
      refine ⟨(h.timers _ _ _).process hq, State.Timed.process ?_⟩
      simp [ht.timers, htimeout, hmem]
  | shutdown =>
      simp only [step, Option.ite_none_right_eq_some, Option.some.injEq] at hs
      obtain ⟨-, rfl⟩ := hs
      exact ⟨h.shutdown, ht.shutdown⟩
  | call =>
      rw [step] at hs
      split at hs
      · next hstack =>
          obtain rfl := Option.some.inj hs
          exact ⟨h.call hstack, ht.timers, ht.scheduled⟩
      · cases hs
  | returned =>
      rw [step] at hs
      split at hs
      · next k w rest stack hstack =>
          obtain rfl := Option.some.inj hs
          refine ⟨h.after hstack, ?_⟩
          cases w with
          | all => exact ⟨ht.timers, ht.scheduled⟩
          | keyspace => exact ⟨ht.timers, ht.scheduled⟩
          | object => exact ⟨ht.timers, ht.scheduled⟩
      · cases hs
  | finish =>
      rw [step] at hs
      split at hs
      · next hstack =>
          obtain rfl := Option.some.inj hs
          exact ⟨h.finish hstack, ht.timers, ht.scheduled⟩
      · cases hs
  | settle job outcome =>
      rw [step] at hs
      split at hs
      · next hjob =>
          obtain rfl := Option.some.inj hs
          exact ⟨h.settle hjob outcome, ht.timers, ht.scheduled⟩
      · cases hs
  | tick job =>
      rw [step] at hs
      split at hs
      · cases hs
      · next w outcome hobject hstack hjob =>
          obtain rfl := Option.some.inj hs
          exact ⟨h.tick hjob fun heq => hobject _ heq, ht.timers, ht.scheduled⟩
      · cases hs

theorem run_accounted {delay : ℕ} {as : List Action} {s : State} (h : Run (step delay) State.init as s)
    (hnames : ∀ a ∈ as, a.Ordinary) : s.Accounted ∧ s.Timed := by
  refine h.invariant_of (P := fun s => s.Accounted ∧ s.Timed) hnames ⟨?_, rfl, rfl⟩ fun s₁ a s₂ ha hP hs =>
    step_accounted ha hP hs
  exact ⟨rfl, List.Perm.refl _, wellFormed_empty, nofun, nofun, nofun, nofun, nofun, nofun, rfl⟩

theorem works_singleton (callbacks : List Event) (name : String) (ks : KeyspaceEvents) :
    Queue.works ⟨callbacks, [(name, ks)], none⟩ = ks.works := by
  rw [Queue.works, (JsObject.entries_perm [(name, ks)]).eq_singleton, List.flatMap_singleton]

/-- An event of a table. -/
def tableEvent : Event := ⟨0, false, "ks", some (some "table")⟩

/-- The handler of the event returned, and its promise is pending. -/
theorem run_tableEvent (delay : ℕ) : Run (step delay) State.init
    [.eventReceived false "ks" (some (some "table")) true, .call, .returned]
    ⟨none, none, [], 0, [⟨0, none, []⟩], [⟨.object tableEvent, none⟩], [tableEvent],
      [⟨[tableEvent], [("ks", ⟨none, [tableEvent]⟩)], none⟩], [(0, .object tableEvent)], [],
      [(tableEvent, .returned)], [], []⟩ := by
  have hreceived : step delay State.init (.eventReceived false "ks" (some (some "table")) true) = some
      ⟨none, none, [], 0, [⟨0, none, [.object tableEvent]⟩], [], [tableEvent],
        [⟨[tableEvent], [("ks", ⟨none, [tableEvent]⟩)], none⟩], [], [], [], [], []⟩ := by
    have hworks : Queue.works ⟨[tableEvent], [("ks", ⟨none, [tableEvent]⟩)], none⟩ = [Work.object tableEvent] :=
      works_singleton [tableEvent] "ks" ⟨none, [tableEvent]⟩
    rw [← hworks]
    rfl
  exact Run.cons hreceived (Run.of_exec rfl)

/-- An event that is not called back at the shutdown may be called back before the promise of its handler settled. -/
theorem called_back_before_settled : ¬ ∀ (delay : ℕ) (as : List Action) (s : State),
    Run (step delay) State.init as s → (∀ a ∈ as, a.Ordinary) →
      ∀ p ∈ s.invoked, p.2 = .shutdown ∨
        ∃ c ∈ s.calls, p.1 ∈ c.2.waiting ∧ ∃ outcome, (c.2.event, outcome) ∈ s.settled := by
  intro h
  have hname : ("ks" : String) ∉ JsObject.prototypeNames := by decide
  rcases h 1000 _ _ (run_tableEvent 1000) (by simp [Action.Ordinary, hname]) _ List.mem_cons_self with hcause |
    ⟨c, -, -, outcome, hsettled⟩
  · cases hcause
  · cases hsettled

/-- In every run with ordinary names of keyspaces, an event that was not called back is in the pending queue with its
timer or waits for a handler; each event is called back at most once, for a reason that the history shows; and one
handler is called for a queue that holds an event for all, and for a keyspace with an event of its own. -/
theorem run_correct {delay : ℕ} {as : List Action} {s : State} (h : Run (step delay) State.init as s)
    (hnames : ∀ a ∈ as, a.Ordinary) :
    s.received.map Event.id = List.range s.received.length ∧ s.rejected = [] ∧
      (∀ e ∈ s.received, e ∉ s.invoked.map Prod.fst → s.Pending e ∨ s.InProgress e) ∧
      (s.invoked.map Prod.fst).Nodup ∧
      (∀ p ∈ s.invoked, p.1 ∈ s.received ∧ s.Justified p.1 p.2 ∧ ¬ s.Pending p.1 ∧ ¬ s.InProgress p.1) ∧
      ∀ k q, s.processed[k]? = some q →
        (∀ e ∈ q.callbacks, e.all = true →
          ∃ event ∈ q.callbacks, event.all = true ∧ s.handlers k = [.all event q.callbacks]) ∧
        ((∀ e ∈ q.callbacks, e.all = false) → ∀ e ∈ q.callbacks, e.cqlObject = none →
          ∃ event events, e ∈ events ∧ event ∈ events ∧ event.cqlObject = none ∧
            (s.handlers k).filter (fun w => w.event.keyspace == e.keyspace) = [.keyspace event events]) := by
  obtain ⟨h, ht⟩ := run_accounted h hnames
  refine ⟨h.ids, h.rejected, fun e he hnot => h.pending_or_inProgress ht he hnot, ?_, fun p hp => ?_,
    fun k q hq => ?_⟩
  · have hnodup := h.events.nodup_iff.1 h.nodup
    simp only [List.append_assoc] at hnodup
    exact (List.nodup_append.1 hnodup).1
  · have hmem := List.mem_map_of_mem (f := Prod.fst) hp
    refine ⟨h.events.mem_iff.2 ?_, h.causes p hp, h.not_waiting hmem⟩
    simp only [List.append_assoc]
    exact List.mem_append_left _ hmem
  · obtain ⟨hwf, -⟩ := h.processed q (List.mem_of_getElem? hq)
    rw [h.handlers k q hq]
    refine ⟨fun e he hall => hwf.works_of_all he hall, fun hnone e he hwhole => hwf.works_of_keyspace ?_ he hwhole⟩
    cases hmain : q.mainEvent with
    | none => rfl
    | some event =>
        obtain ⟨hmem, hall⟩ := hwf.main event hmain
        rw [hnone event hmem] at hall
        cases hall

/-- An event for all joins the event of a table. -/
theorem run_correct_all : ∃ s, Run (step 1000) State.init
    [.eventReceived false "ks" (some (some "table")) false, .eventReceived true "ks" none false, .expire 1, .call,
      .returned, .finish, .settle 0 none, .tick 0] s ∧
    s.invoked.length = 2 ∧ (s.invoked.map Prod.fst).Nodup := by
  have hname : ("ks" : String) ∉ JsObject.prototypeNames := by decide
  have hrun : Run (step 1000) State.init
      [.eventReceived false "ks" (some (some "table")) false, .eventReceived true "ks" none false, .expire 1, .call,
        .returned, .finish, .settle 0 none, .tick 0] _ := Run.of_exec rfl
  exact ⟨_, hrun, rfl, (run_correct hrun (by simp [Action.Ordinary, hname])).2.2.2.1⟩

end CqlDriver.EventDebouncer
