import CqlDriver.Lib.TransitionSystem

/-! # Rows and pages of a query (`lib/client.js`)

`eachRow` fetches a page with `#rustyPaged`, hands its rows to `rowCallback`, and either fetches the page
behind it or calls the final callback.  The callbacks share the variables `rowLength` and `pagingState`.
The actions are the settlements of what `#rustyPaged` awaits (`#connect`, `prepareStatement` and the
request for a page), the `nextTick` that calls `pageCallback`, and the caller's `nextPage`.  A reply is an
error also when a value of the page cannot be converted.  The callbacks do not throw, and errors are
objects, so that `if (err)` holds.

Of the state, `fetches` and `trace` are histories: the calls of `#rustyPaged`, and the requests and calls
of the callbacks in their order. -/

namespace CqlDriver

open TransitionSystem

variable {α σ ε τ X Ω : Type}

/-- The argument `query`: a text, or what `prepareQuery` returns for it. -/
inductive Query (τ : Type) where
  | text (query : String)
  | prepared (expectedTypes : List τ) (statement : String)

inductive PagedError (ε : Type) where
  | raised (err : ε)
  /-- "TODO: Implement any support for named parameters" -/
  | namedParameters
  /-- "Expected to obtain a string query" -/
  | notString
deriving DecidableEq

/-- What `eachRow` is called with; `pageState` is the one of the options, a `Buffer`. -/
structure EachRow (σ ε τ X Ω : Type) where
  query : Query τ
  /-- the parameters are no array -/
  named : Bool
  isPrepared : Bool
  isAutoPage : Bool
  hints : List τ
  pageState : Option (List UInt8)
  /-- `PagingStateWrapper.fromBuffer` -/
  fromBuffer : List UInt8 → σ
  /-- `encodeParams` for the parameters of the call -/
  encodeParams : List τ → Except ε X
  getRustOptions : Except ε Ω

namespace EachRow

/-- A page: the rows are undefined for a write, and `next` is the paging state of the page behind it. -/
structure Page (α σ : Type) where
  rows : Option (List α)
  next : Option σ

def Page.rowLength (p : Page α σ) : ℕ :=
  match p.rows with
  | some rows => rows.length
  | none => 0

/-- What the final callback gets. -/
structure Result (α : Type) where
  rows : Option (List α)
  rowLength : ℕ
  nextPage : Bool

inductive Event (α σ ε X Ω : Type) where
  | executeSinglePageEncoded (statement : String) (encoded : X) (options : Ω) (pageState : Option σ)
  | querySinglePageEncoded (query : String) (encoded : X) (options : Ω) (pageState : Option σ)
  | rowCallback (n : ℕ) (row : α)
  | callback (res : Except (PagedError ε) (Result α))

/-- How far a call of `#rustyPaged` is. -/
inductive Fetch (α σ ε Ω : Type) where
  | connecting (pageState : Option σ)
  | preparing (query : String) (options : Ω) (pageState : Option σ)
  | requesting
  /-- `pageCallback` is queued -/
  | settled (res : Except (PagedError ε) (Page α σ))
  /-- `pageCallback` has run -/
  | finished (res : Except (PagedError ε) (Page α σ))

structure State (α σ ε X Ω : Type) where
  rowLength : ℕ
  pagingState : Option σ
  /-- the caller has got `nextPage` -/
  nextPage : Bool
  fetches : List (Fetch α σ ε Ω)
  trace : List (Event α σ ε X Ω)

namespace State

def emit (s : State α σ ε X Ω) (events : List (Event α σ ε X Ω)) : State α σ ε X Ω :=
  { s with trace := s.trace ++ events }

/-- The fetch goes on to its next `await`, or settles. -/
def advance (s : State α σ ε X Ω) (i : ℕ) (next : List (Event α σ ε X Ω) × Fetch α σ ε Ω) : State α σ ε X Ω :=
  { s.emit next.1 with fetches := s.fetches.set i next.2 }

end State

variable (c : EachRow σ ε τ X Ω)

/-! ### `#rustyPaged` -/

/-- The paging state of the request: the one of the options counts for the first page only. -/
def requestState : Option σ → Option σ
  | some pageState => some pageState
  | none => c.pageState.map c.fromBuffer

def raise (err : PagedError ε) : List (Event α σ ε X Ω) × Fetch α σ ε Ω := ([], .settled (.error err))

/-- The request for a page of a prepared statement; also behind `await this.prepareQuery(query)`. -/
def execute (expectedTypes : List τ) (statement : String) (options : Ω) (pageState : Option σ) :
    List (Event α σ ε X Ω) × Fetch α σ ε Ω :=
  match c.encodeParams expectedTypes with
  | .error err => raise (.raised err)
  | .ok encoded => ([.executeSinglePageEncoded statement encoded options pageState], .requesting)

/-- Behind `await this.#connect()`. -/
def request (pageState : Option σ) : List (Event α σ ε X Ω) × Fetch α σ ε Ω :=
  let pageState := c.requestState pageState
  match c.getRustOptions with
  | .error err => raise (.raised err)
  | .ok options =>
      match c.isPrepared, c.query with
      | true, .text query => ([], .preparing query options pageState)
      | true, .prepared expectedTypes statement => c.execute expectedTypes statement options pageState
      | false, .prepared _ _ => raise .notString
      | false, .text query =>
          match c.encodeParams c.hints with
          | .error err => raise (.raised err)
          | .ok encoded => ([.querySinglePageEncoded query encoded options pageState], .requesting)

/-- `#rustyPaged`, up to its first `await`. -/
def rustyPaged (connected : Bool) (pageState : Option σ) : List (Event α σ ε X Ω) × Fetch α σ ε Ω :=
  if !c.isPrepared && c.named then raise .namedParameters
  else if connected then c.request pageState
  else ([], .connecting pageState)

/-! ### `eachRow` -/

/-- `nextPage` -/
def fetch (s : State α σ ε X Ω) (connected : Bool) : State α σ ε X Ω :=
  let first := c.rustyPaged connected s.pagingState
  { s.emit first.1 with fetches := s.fetches ++ [first.2] }

def start (connected : Bool) : State α σ ε X Ω := c.fetch ⟨0, none, false, [], []⟩ connected

/-- `queryResult.rows.forEach` -/
def rowCallbacks (p : Page α σ) : List (Event α σ ε X Ω) :=
  match p.rows with
  | some rows => rows.zipIdx.map fun row => .rowCallback row.2 row.1
  | none => []

def pageCallback (s : State α σ ε X Ω) (connected : Bool) : Except (PagedError ε) (Page α σ) → State α σ ε X Ω
  | .error err => s.emit [.callback (.error err)]
  | .ok p =>
      let s := { s.emit (rowCallbacks p) with rowLength := s.rowLength + p.rowLength }
      match p.next with
      | some pageState =>
          let s := { s with pagingState := some pageState }
          if c.isAutoPage then c.fetch s connected
          else { s.emit [.callback (.ok ⟨p.rows, s.rowLength, true⟩)] with nextPage := true }
      | none => s.emit [.callback (.ok ⟨p.rows, s.rowLength, false⟩)]

/-- The client may be connected or not when a fetch starts. -/
inductive Action (α σ ε τ : Type) where
  | connect (i : ℕ) (err : Option ε)
  | prepareStatement (i : ℕ) (res : Except ε (List τ))
  | reply (i : ℕ) (res : Except ε (Page α σ))
  | tick (i : ℕ) (connected : Bool)
  | nextPage (connected : Bool)

def step (s : State α σ ε X Ω) : Action α σ ε τ → Option (State α σ ε X Ω)
  | .connect i err =>
      match s.fetches[i]?, err with
      | some (.connecting pageState), none => some (s.advance i (c.request pageState))
      | some (.connecting _), some err => some (s.advance i (raise (.raised err)))
      | _, _ => none
  | .prepareStatement i res =>
      match s.fetches[i]?, res with
      | some (.preparing query options pageState), .ok expectedTypes =>
          some (s.advance i (c.execute expectedTypes query options pageState))
      | some (.preparing _ _ _), .error err => some (s.advance i (raise (.raised err)))
      | _, _ => none
  | .reply i res =>
      match s.fetches[i]? with
      | some .requesting => some (s.advance i ([], .settled (res.mapError .raised)))
      | _ => none
  | .tick i connected =>
      match s.fetches[i]? with
      | some (.settled res) => some (c.pageCallback (s.advance i ([], .finished res)) connected res)
      | _ => none
  | .nextPage connected => if s.nextPage then some (c.fetch s connected) else none

/-! ### What has been delivered -/

def Page.indexedRows (p : Page α σ) : List (ℕ × α) := (p.rows.getD []).zipIdx.map Prod.swap

def Event.row? : Event α σ ε X Ω → Option (ℕ × α)
  | .rowCallback n row => some (n, row)
  | _ => none

def Event.pageState? : Event α σ ε X Ω → Option (Option σ)
  | .executeSinglePageEncoded _ _ _ pageState => some pageState
  | .querySinglePageEncoded _ _ _ pageState => some pageState
  | _ => none

def Event.isCallback : Event α σ ε X Ω → Bool
  | .callback _ => true
  | _ => false

def Fetch.page? : Fetch α σ ε Ω → Option (Page α σ)
  | .settled (.ok p) => some p
  | .finished (.ok p) => some p
  | _ => none

def Fetch.error? : Fetch α σ ε Ω → Option (PagedError ε)
  | .settled (.error err) => some err
  | .finished (.error err) => some err
  | _ => none

namespace State

/-- The calls of `rowCallback`. -/
def rows (s : State α σ ε X Ω) : List (ℕ × α) := s.trace.filterMap Event.row?

/-- The paging states of the requests. -/
def requests (s : State α σ ε X Ω) : List (Option σ) := s.trace.filterMap Event.pageState?

/-- The pages fetched successfully. -/
def pages (s : State α σ ε X Ω) : List (Page α σ) := s.fetches.filterMap Fetch.page?

/-- The errors of the fetches that failed. -/
def failures (s : State α σ ε X Ω) : List (PagedError ε) := s.fetches.filterMap Fetch.error?

end State

/-- All rows and pages are there: every row with its index, every page by one request with the paging state
of the page before it, and the only call of the final callback comes last. -/
structure Delivered (s : State α σ ε X Ω) : Prop where
  rows : s.rows = s.pages.flatMap Page.indexedRows
  /-- the fetch that failed may have got as far as its request -/
  requests : s.requests = (c.requestState none :: s.pages.map Page.next).take s.pages.length ∨
    s.failures ≠ [] ∧ s.requests = c.requestState none :: s.pages.map Page.next
  callback : ∃ before res, s.trace = before ++ [.callback res] ∧ (∀ event ∈ before, event.isCallback = false) ∧
    match res with
    | .error err => s.failures = [err]
    | .ok result => s.failures = [] ∧ (∃ p, s.pages.getLast? = some p ∧ p.next = none) ∧
        result.rowLength = (s.pages.map Page.rowLength).sum

/-- The steps a fetch may have taken. -/
def Fetch.steps : Fetch α σ ε Ω → ℕ
  | .connecting _ => 0
  | .preparing _ _ _ => 1
  | .requesting => 2
  | .settled _ => 3
  | .finished _ => 4

variable {c}

/-! ### One fetch -/

/-- Where a part of `#rustyPaged` may leave the fetch of a page. -/
inductive Continues (c : EachRow σ ε τ X Ω) (pageState : Option σ) :
    List (Event α σ ε X Ω) × Fetch α σ ε Ω → Prop
  | raise (err : PagedError ε) : Continues c pageState (raise err)
  | connecting : Continues c pageState ([], .connecting pageState)
  | preparing (query : String) (options : Ω) :
      Continues c pageState ([], .preparing query options (c.requestState pageState))
  | requesting {event : Event α σ ε X Ω} (hstate : event.pageState? = some (c.requestState pageState))
      (hrow : event.row? = none) (hcallback : event.isCallback = false) :
      Continues c pageState ([event], .requesting)

theorem continues_execute (expectedTypes : List τ) (statement : String) (options : Ω) (pageState : Option σ) :
    Continues c pageState (c.execute expectedTypes statement options (c.requestState pageState) :
      List (Event α σ ε X Ω) × Fetch α σ ε Ω) := by
  unfold execute
  split
  · exact .raise _
  · exact .requesting rfl rfl rfl

theorem continues_request (pageState : Option σ) :
    Continues c pageState (c.request pageState : List (Event α σ ε X Ω) × Fetch α σ ε Ω) := by
  unfold request
  dsimp only
  split
  · exact .raise _
  · split
    · exact .preparing _ _
    · exact continues_execute _ _ _ _
    · exact .raise _
    · split
      · exact .raise _
      · exact .requesting rfl rfl rfl

theorem continues_rustyPaged (connected : Bool) (pageState : Option σ) :
    Continues c pageState (c.rustyPaged connected pageState : List (Event α σ ε X Ω) × Fetch α σ ε Ω) := by
  unfold rustyPaged
  split_ifs
  · exact .raise _
  · exact continues_request pageState
  · exact .connecting

theorem lt_steps_execute (expectedTypes : List τ) (statement : String) (options : Ω) (pageState : Option σ) :
    1 < (c.execute expectedTypes statement options pageState : List (Event α σ ε X Ω) × Fetch α σ ε Ω).2.steps := by
  unfold execute
  split <;> simp [raise, Fetch.steps]

theorem lt_steps_request (pageState : Option σ) :
    0 < (c.request pageState : List (Event α σ ε X Ω) × Fetch α σ ε Ω).2.steps := by
  unfold request
  dsimp only
  split
  · simp [raise, Fetch.steps]
  · split
    · simp [Fetch.steps]
    · exact Nat.lt_of_succ_lt (lt_steps_execute _ _ _ _)
    · simp [raise, Fetch.steps]
    · split <;> simp [raise, Fetch.steps]

/-! ### The invariant -/

/-- The paging states to ask with, up to the one of the page behind the given ones. -/
def pageStates (c : EachRow σ ε τ X Ω) (pages : List (Page α σ)) : List (Option σ) :=
  c.requestState none :: pages.map Page.next

/-- How far the fetch is, and whether its request has been made. -/
def Fetch.Consistent (c : EachRow σ ε τ X Ω) (pages : List (Page α σ)) (s : State α σ ε X Ω) :
    Fetch α σ ε Ω → Prop
  | .connecting pageState => pageState = s.pagingState ∧ s.requests = (c.pageStates pages).dropLast
  | .preparing _ _ pageState =>
      pageState = c.requestState s.pagingState ∧ s.requests = (c.pageStates pages).dropLast
  | .requesting => s.requests = c.pageStates pages
  | .settled (.ok _) => s.requests = c.pageStates pages
  | .settled (.error _) => s.requests = (c.pageStates pages).dropLast ∨ s.requests = c.pageStates pages
  | .finished _ => False

/-- The rows of the given pages have been handed out. -/
structure RowsOut (pages : List (Page α σ)) (s : State α σ ε X Ω) : Prop where
  rowLength : s.rowLength = (pages.map Page.rowLength).sum
  rows : s.rows = pages.flatMap Page.indexedRows
  quiet : ∀ event ∈ s.trace, event.isCallback = false
  nextPage : s.nextPage = false

/-- There is another page to fetch. -/
structure HandedOut (c : EachRow σ ε τ X Ω) (pages : List (Page α σ)) (s : State α σ ε X Ω) : Prop
    extends RowsOut pages s where
  pagingState : (c.pageStates pages).getLast? = some (c.requestState s.pagingState)

structure Waiting (c : EachRow σ ε τ X Ω) (pages : List (Page α σ)) (current : Fetch α σ ε Ω)
    (s : State α σ ε X Ω) : Prop extends HandedOut c pages s where
  fetches : s.fetches = pages.map (fun p => .finished (.ok p)) ++ [current]
  consistent : current.Consistent c pages s

/-- Nothing will happen any more. -/
structure Over (s : State α σ ε X Ω) : Prop where
  fetches : ∀ f ∈ s.fetches, ∃ res, f = .finished res
  nextPage : s.nextPage = false

variable {pages : List (Page α σ)} {current : Fetch α σ ε Ω} {s s' : State α σ ε X Ω}

theorem rows_emit (s : State α σ ε X Ω) (events : List (Event α σ ε X Ω)) :
    (s.emit events).rows = s.rows ++ events.filterMap Event.row? := List.filterMap_append

theorem requests_emit (s : State α σ ε X Ω) (events : List (Event α σ ε X Ω)) :
    (s.emit events).requests = s.requests ++ events.filterMap Event.pageState? := List.filterMap_append

theorem dropLast_pageStates (h : HandedOut c pages s) :
    c.pageStates pages = (c.pageStates pages).dropLast ++ [c.requestState s.pagingState] := by
  obtain ⟨earlier, hearlier⟩ := List.getLast?_eq_some_iff.1 h.pagingState
  rw [hearlier, List.dropLast_concat]

/-- Requests do not disturb what has been handed out. -/
theorem HandedOut.emit (h : HandedOut c pages s) {events : List (Event α σ ε X Ω)}
    (hrows : events.filterMap Event.row? = []) (hquiet : ∀ event ∈ events, event.isCallback = false)
    (fetches : List (Fetch α σ ε Ω)) : HandedOut c pages { s.emit events with fetches := fetches } where
  rowLength := h.rowLength
  rows := by
    change (s.emit events).rows = _
    rw [rows_emit, hrows, List.append_nil, h.rows]
  pagingState := h.pagingState
  quiet event hevent := by
    obtain hevent | hevent := List.mem_append.1 hevent
    · exact h.quiet event hevent
    · exact hquiet event hevent
  nextPage := h.nextPage

/-- A fetch goes on by what a part of `#rustyPaged` does. -/
theorem HandedOut.waiting (h : HandedOut c pages s) (hrequests : s.requests = (c.pageStates pages).dropLast)
    {next : List (Event α σ ε X Ω) × Fetch α σ ε Ω} (hnext : Continues c s.pagingState next) :
    Waiting c pages next.2
      { s.emit next.1 with fetches := pages.map (fun p => .finished (.ok p)) ++ [next.2] } := by
  have hsilent : (s.emit []).requests = (c.pageStates pages).dropLast := by
    rw [requests_emit, List.filterMap_nil, List.append_nil, hrequests]
  cases hnext with
  | raise err => exact { h.emit rfl (by simp [raise]) _ with fetches := rfl, consistent := .inl hsilent }
  | connecting => exact { h.emit rfl (by simp) _ with fetches := rfl, consistent := ⟨rfl, hsilent⟩ }
  | preparing query options => exact { h.emit rfl (by simp) _ with fetches := rfl, consistent := ⟨rfl, hsilent⟩ }
  | @requesting event hstate hrow hcallback =>
      have hasked : (s.emit [event]).requests = c.pageStates pages := by
        rw [requests_emit, List.filterMap_cons_some hstate, List.filterMap_nil, hrequests, ← dropLast_pageStates h]
      have hrows : [event].filterMap Event.row? = [] := by rw [List.filterMap_cons_none hrow, List.filterMap_nil]
      exact { h.emit hrows (by simpa using hcallback) _ with fetches := rfl, consistent := hasked }

/-- The next fetch starts. -/
theorem HandedOut.fetch (h : HandedOut c pages s) (hrequests : s.requests = (c.pageStates pages).dropLast)
    (hfetches : s.fetches = pages.map fun p => .finished (.ok p)) (connected : Bool) :
    ∃ next, Waiting c pages next (c.fetch s connected) := by
  have hwaiting := h.waiting hrequests (continues_rustyPaged connected s.pagingState)
  rw [← hfetches] at hwaiting
  exact ⟨_, hwaiting⟩

theorem start_waiting (c : EachRow σ ε τ X Ω) (connected : Bool) :
    ∃ next, Waiting c [] next (c.start connected : State α σ ε X Ω) := by
  refine HandedOut.fetch (s := ⟨0, none, false, [], []⟩) ?_ rfl rfl connected
  exact { rowLength := rfl, rows := rfl, pagingState := rfl, quiet := by simp, nextPage := rfl }

namespace Waiting

/-- Only the last fetch is not over. -/
theorem current_of_getElem? (h : Waiting c pages current s) {i : ℕ} {f : Fetch α σ ε Ω} (hf : s.fetches[i]? = some f)
    (hrunning : ∀ res, f ≠ .finished res) : i = pages.length ∧ f = current := by
  rw [h.fetches] at hf
  rcases Nat.lt_or_ge i pages.length with hi | hi
  · rw [List.getElem?_append_left (by simpa using hi), List.getElem?_map, Option.map_eq_some_iff] at hf
    obtain ⟨p, -, hp⟩ := hf
    exact absurd hp.symm (hrunning _)
  · rw [List.getElem?_append_right (by simpa using hi), List.length_map] at hf
    obtain ⟨hlt, hget⟩ := List.getElem?_eq_some_iff.1 hf
    rw [List.length_singleton] at hlt
    have hi' : i = pages.length := by omega
    subst hi'
    simp only [Nat.sub_self, List.getElem_cons_zero] at hget
    exact ⟨rfl, hget.symm⟩

theorem set_fetches (h : Waiting c pages current s) (next : Fetch α σ ε Ω) :
    s.fetches.set pages.length next = pages.map (fun p => .finished (.ok p)) ++ [next] := by
  rw [h.fetches, List.set_append_right _ _ (by simp), List.length_map, Nat.sub_self, List.set_cons_zero]

theorem advance (h : Waiting c pages current s) (hrequests : s.requests = (c.pageStates pages).dropLast)
    {next : List (Event α σ ε X Ω) × Fetch α σ ε Ω} (hnext : Continues c s.pagingState next) :
    Waiting c pages next.2 (s.advance pages.length next) := by
  rw [State.advance, h.set_fetches]
  exact h.toHandedOut.waiting hrequests hnext

/-- The promise of the fetch settles. -/
theorem settle (h : Waiting c pages current s) {res : Except (PagedError ε) (Page α σ)}
    (hconsistent : (Fetch.settled res : Fetch α σ ε Ω).Consistent c pages s) :
    Waiting c pages (.settled res) (s.advance pages.length ([], .settled res)) := by
  have hsame : s.advance pages.length ([], .settled res) =
      { s with fetches := pages.map (fun p => .finished (.ok p)) ++ [.settled res] } := by
    rw [State.advance, h.set_fetches, State.emit, List.append_nil]
  rw [hsame]
  refine { h with fetches := rfl, consistent := ?_ }
  cases res with
  | error err => exact hconsistent
  | ok p => exact hconsistent

end Waiting

/-! ### `pageCallback` -/

theorem filterMap_rowCallbacks (p : Page α σ) :
    (rowCallbacks p : List (Event α σ ε X Ω)).filterMap Event.row? = p.indexedRows := by
  unfold rowCallbacks Page.indexedRows
  split
  · rename_i rows hrows
    rw [hrows, List.filterMap_map, Option.getD_some]
    exact congrFun (List.filterMap_eq_map (f := Prod.swap)) rows.zipIdx
  · rename_i hrows
    rw [hrows]
    rfl

theorem silent_rowCallbacks (p : Page α σ) : ∀ event ∈ (rowCallbacks p : List (Event α σ ε X Ω)),
    event.pageState? = none ∧ event.isCallback = false := by
  unfold rowCallbacks
  split
  · intro event hevent
    obtain ⟨row, -, rfl⟩ := List.mem_map.1 hevent
    exact ⟨rfl, rfl⟩
  · simp

theorem pageStates_concat (c : EachRow σ ε τ X Ω) (pages : List (Page α σ)) (p : Page α σ) :
    c.pageStates (pages ++ [p]) = c.pageStates pages ++ [p.next] := by
  rw [pageStates, pageStates, List.map_append, List.map_singleton, List.cons_append]

theorem length_pageStates (c : EachRow σ ε τ X Ω) (pages : List (Page α σ)) :
    (c.pageStates pages).length = pages.length + 1 := by
  rw [pageStates, List.length_cons, List.length_map]

theorem pages_of_fetches {f : Fetch α σ ε Ω} (h : s.fetches = pages.map (fun p => .finished (.ok p)) ++ [f]) :
    s.pages = pages ++ f.page?.toList := by
  have hmap : (pages.map fun p => (.finished (.ok p) : Fetch α σ ε Ω)).filterMap Fetch.page? = pages := by
    rw [List.filterMap_map]
    exact List.filterMap_some
  rw [State.pages, h, List.filterMap_append, hmap]
  cases hp : f.page? with
  | none => rw [List.filterMap_cons_none hp]; rfl
  | some p => rw [List.filterMap_cons_some hp]; rfl

theorem failures_of_fetches {f : Fetch α σ ε Ω} (h : s.fetches = pages.map (fun p => .finished (.ok p)) ++ [f]) :
    s.failures = f.error?.toList := by
  have hmap : (pages.map fun p => (.finished (.ok p) : Fetch α σ ε Ω)).filterMap Fetch.error? = [] := by
    rw [List.filterMap_map, List.filterMap_eq_nil_iff]
    intro p _
    rfl
  rw [State.failures, h, List.filterMap_append, hmap]
  cases he : f.error? with
  | none => rw [List.filterMap_cons_none he]; rfl
  | some err => rw [List.filterMap_cons_some he]; rfl

/-- The state behind the loop over the rows. -/
def State.handOut (s : State α σ ε X Ω) (i : ℕ) (p : Page α σ) : State α σ ε X Ω :=
  { (s.advance i ([], .finished (.ok p))).emit (rowCallbacks p) with rowLength := s.rowLength + p.rowLength }

namespace Waiting

variable {p : Page α σ}

theorem rowsOut (h : Waiting c pages (.settled (.ok p)) s) : RowsOut (pages ++ [p]) (s.handOut pages.length p) where
  rowLength := by
    rw [List.map_append, List.sum_append, ← h.rowLength, List.map_singleton, List.sum_singleton]
    rfl
  rows := by
    change ((s.emit []).emit (rowCallbacks p)).rows = _
    rw [rows_emit, rows_emit, filterMap_rowCallbacks, List.filterMap_nil, List.append_nil, h.rows,
      List.flatMap_append, List.flatMap_singleton]
  quiet event hevent := by
    change event ∈ (s.trace ++ []) ++ rowCallbacks p at hevent
    rw [List.append_nil] at hevent
    obtain hevent | hevent := List.mem_append.1 hevent
    · exact h.quiet event hevent
    · exact (silent_rowCallbacks p event hevent).2
  nextPage := h.nextPage

theorem requests_handOut (h : Waiting c pages (.settled (.ok p)) s) :
    (s.handOut pages.length p).requests = c.pageStates pages := by
  have hrows : (rowCallbacks p : List (Event α σ ε X Ω)).filterMap Event.pageState? = [] := by
    rw [List.filterMap_eq_nil_iff]
    exact fun event hevent => (silent_rowCallbacks p event hevent).1
  change ((s.emit []).emit (rowCallbacks p)).requests = _
  rw [requests_emit, requests_emit, hrows, List.append_nil, List.filterMap_nil, List.append_nil]
  exact h.consistent

theorem fetches_handOut (h : Waiting c pages (.settled (.ok p)) s) :
    (s.handOut pages.length p).fetches = pages.map (fun p => .finished (.ok p)) ++ [.finished (.ok p)] :=
  h.set_fetches (.finished (.ok p))

/-- With another page behind it, the page is followed by the next fetch. -/
theorem tick_more (h : Waiting c pages (.settled (.ok p)) s) (hauto : c.isAutoPage = true) {pageState : σ}
    (hnext : p.next = some pageState) (connected : Bool) :
    ∃ current', Waiting c (pages ++ [p]) current'
      (c.pageCallback (s.advance pages.length ([], .finished (.ok p))) connected (.ok p)) := by
  have hcallback : c.pageCallback (s.advance pages.length ([], .finished (.ok p))) connected (.ok p) =
      c.fetch { s.handOut pages.length p with pagingState := some pageState } connected := by
    simp only [pageCallback, hnext, hauto, if_true]
    rfl
  have hout : HandedOut c (pages ++ [p]) { s.handOut pages.length p with pagingState := some pageState } :=
    { h.rowsOut with
      pagingState := by
        rw [pageStates_concat, List.getLast?_concat, hnext]
        rfl }
  rw [hcallback]
  apply hout.fetch
  · rw [pageStates_concat, List.dropLast_concat]
    exact h.requests_handOut
  · rw [List.map_append, List.map_singleton]
    exact h.fetches_handOut

theorem over_finished {t : State α σ ε X Ω} {res : Except (PagedError ε) (Page α σ)}
    (hfetches : t.fetches = pages.map (fun p => .finished (.ok p)) ++ [.finished res]) (hnext : t.nextPage = false) :
    Over t where
  fetches f hf := by
    rw [hfetches] at hf
    obtain hf | hf := List.mem_append.1 hf
    · obtain ⟨p, -, rfl⟩ := List.mem_map.1 hf
      exact ⟨_, rfl⟩
    · exact ⟨res, List.mem_singleton.1 hf⟩
  nextPage := hnext

/-- Behind the last page comes the final callback. -/
theorem tick_last (h : Waiting c pages (.settled (.ok p)) s) (hnext : p.next = none) (connected : Bool)
    {s' : State α σ ε X Ω}
    (hs' : c.pageCallback (s.advance pages.length ([], .finished (.ok p))) connected (.ok p) = s') :
    Delivered c s' ∧ Over s' ∧ pages.length ≤ s'.pages.length := by
  obtain ⟨event, hevent⟩ : ∃ event : Event α σ ε X Ω,
      event = .callback (.ok ⟨p.rows, (s.handOut pages.length p).rowLength, false⟩) := ⟨_, rfl⟩
  have hcallback : c.pageCallback (s.advance pages.length ([], .finished (.ok p))) connected (.ok p) =
      (s.handOut pages.length p).emit [event] := by
    rw [hevent]
    simp only [pageCallback, hnext]
    rfl
  have hfetches : ((s.handOut pages.length p).emit [event]).fetches =
      pages.map (fun p => .finished (.ok p)) ++ [.finished (.ok p)] := h.fetches_handOut
  have hpages : ((s.handOut pages.length p).emit [event]).pages = pages ++ [p] := pages_of_fetches hfetches
  have hfailures : ((s.handOut pages.length p).emit [event]).failures = [] := failures_of_fetches hfetches
  rw [← hs', hcallback]
  refine ⟨⟨?_, .inl ?_, ?_⟩, over_finished hfetches h.nextPage, by simp [hpages]⟩
  · rw [hpages, rows_emit, h.rowsOut.rows, hevent]
    exact List.append_nil _
  · rw [hpages, requests_emit, h.requests_handOut, hevent]
    change c.pageStates pages ++ [] = (c.pageStates (pages ++ [p])).take (pages ++ [p]).length
    rw [List.append_nil, pageStates_concat, List.length_append, List.length_singleton, ← length_pageStates c pages,
      List.take_left]
  · have hlast : ∃ last, ((s.handOut pages.length p).emit [event]).pages.getLast? = some last ∧ last.next = none :=
      ⟨p, by rw [hpages, List.getLast?_concat], hnext⟩
    refine ⟨(s.handOut pages.length p).trace, .ok ⟨p.rows, (s.handOut pages.length p).rowLength, false⟩, ?_,
      h.rowsOut.quiet, ?_⟩
    · rw [State.emit, hevent]
    · refine ⟨hfailures, hlast, ?_⟩
      rw [hpages]
      exact h.rowsOut.rowLength

/-- A fetch that failed is followed by the final callback with its error. -/
theorem tick_error {err : PagedError ε} (h : Waiting c pages (.settled (.error err)) s) (connected : Bool)
    {s' : State α σ ε X Ω}
    (hs' : c.pageCallback (s.advance pages.length ([], .finished (.error err))) connected (.error err) = s') :
    Delivered c s' ∧ Over s' ∧ pages.length ≤ s'.pages.length := by
  obtain ⟨t, ht⟩ : ∃ t, s.advance pages.length ([], .finished (.error err)) = t := ⟨_, rfl⟩
  have hfetches : (t.emit [.callback (.error err)]).fetches =
      pages.map (fun p => .finished (.ok p)) ++ [.finished (.error err)] := by
    rw [← ht]
    exact h.set_fetches _
  have hpages : (t.emit [.callback (.error err)]).pages = pages := by
    rw [pages_of_fetches hfetches]
    exact List.append_nil _
  have hfailures : (t.emit [.callback (.error err)]).failures = [err] := failures_of_fetches hfetches
  have htrace : t.trace = s.trace := by
    rw [← ht]
    exact List.append_nil _
  have hrequests : (t.emit [.callback (.error err)]).requests = s.requests := by
    rw [requests_emit, State.requests, htrace]
    exact List.append_nil _
  rw [← hs', ht, pageCallback]
  refine ⟨⟨?_, ?_, t.trace, _, rfl, htrace ▸ h.quiet, hfailures⟩, over_finished hfetches ?_, hpages.symm ▸ le_rfl⟩
  · rw [hpages, rows_emit, State.rows, htrace, ← h.rows]
    exact List.append_nil _
  · rw [hpages, hrequests, hfailures]
    obtain hasked | hasked := h.consistent
    · refine .inl ?_
      rw [hasked, List.dropLast_eq_take, length_pageStates, Nat.add_sub_cancel]
      rfl
    · exact .inr ⟨List.cons_ne_nil _ _, hasked⟩
  · rw [State.emit, ← ht]
    exact h.nextPage

/-! ### Runs -/

theorem step_cases (h : Waiting c pages current s) (hauto : c.isAutoPage = true) {a : Action α σ ε τ}
    (hstep : c.step s a = some s') :
    (∃ current', Waiting c pages current' s' ∧ current.steps < current'.steps) ∨
      (∃ p current', Waiting c (pages ++ [p]) current' s' ∧ current.steps = 3) ∨
      (Delivered c s' ∧ Over s' ∧ pages.length ≤ s'.pages.length ∧ current.steps = 3) := by
  cases a with
  | connect i err =>
      simp only [step] at hstep
      split at hstep
      · rename_i pageState hget
        obtain ⟨rfl, hcurrent⟩ := h.current_of_getElem? hget (by simp)
        subst hcurrent
        obtain ⟨rfl, hrequests⟩ := h.consistent
        cases hstep
        exact .inl ⟨_, h.advance hrequests (continues_request _), lt_steps_request _⟩
      · rename_i pageState err hget
        obtain ⟨rfl, hcurrent⟩ := h.current_of_getElem? hget (by simp)
        subst hcurrent
        cases hstep
        exact .inl ⟨_, h.advance h.consistent.2 (.raise _), by simp [raise, Fetch.steps]⟩
      · cases hstep
  | prepareStatement i res =>
      simp only [step] at hstep
      split at hstep
      · rename_i query options pageState expectedTypes hget
        obtain ⟨rfl, hcurrent⟩ := h.current_of_getElem? hget (by simp)
        subst hcurrent
        obtain ⟨rfl, hrequests⟩ := h.consistent
        cases hstep
        exact .inl ⟨_, h.advance hrequests (continues_execute _ _ _ _), lt_steps_execute _ _ _ _⟩
      · rename_i query options pageState err hget
        obtain ⟨rfl, hcurrent⟩ := h.current_of_getElem? hget (by simp)
        subst hcurrent
        cases hstep
        exact .inl ⟨_, h.advance h.consistent.2 (.raise _), by simp [raise, Fetch.steps]⟩
      · cases hstep
  | reply i res =>
      simp only [step] at hstep
      split at hstep
      · rename_i hget
        obtain ⟨rfl, hcurrent⟩ := h.current_of_getElem? hget (by simp)
        subst hcurrent
        cases hstep
        refine .inl ⟨_, h.settle ?_, by simp [Fetch.steps]⟩
        cases res with
        | error err => exact .inr h.consistent
        | ok p => exact h.consistent
      · cases hstep
  | tick i connected =>
      simp only [step] at hstep
      split at hstep
      · rename_i res hget
        obtain ⟨rfl, hcurrent⟩ := h.current_of_getElem? hget (by simp)
        subst hcurrent
        cases hstep
        refine .inr ?_
        cases res with
        | error err =>
            obtain ⟨hdelivered, hover, hlen⟩ := h.tick_error connected rfl
            exact .inr ⟨hdelivered, hover, hlen, rfl⟩
        | ok p =>
            cases hnext : p.next with
            | some pageState =>
                obtain ⟨current', hwaiting⟩ := h.tick_more hauto hnext connected
                exact .inl ⟨p, current', hwaiting, rfl⟩
            | none =>
                obtain ⟨hdelivered, hover, hlen⟩ := h.tick_last hnext connected rfl
                exact .inr ⟨hdelivered, hover, hlen, rfl⟩
      · cases hstep
  | nextPage connected =>
      rw [step, h.nextPage] at hstep
      cases hstep

/-- The fetch can go on. -/
theorem exists_step (h : Waiting c pages current s) : ∃ a s', c.step s a = some s' := by
  have hget : s.fetches[pages.length]? = some current := by
    rw [h.fetches, List.getElem?_append_right (by simp), List.length_map, Nat.sub_self]
    rfl
  cases current with
  | connecting pageState =>
      refine ⟨.connect pages.length none, s.advance pages.length (c.request pageState), ?_⟩
      simp only [step, hget]
  | preparing query options pageState =>
      refine ⟨.prepareStatement pages.length (.ok []),
        s.advance pages.length (c.execute [] query options pageState), ?_⟩
      simp only [step, hget]
  | requesting =>
      refine ⟨.reply pages.length (.ok ⟨none, none⟩), s.advance pages.length ([], .settled (.ok ⟨none, none⟩)), ?_⟩
      simp only [step, hget]
      rfl
  | settled res =>
      refine ⟨.tick pages.length true,
        c.pageCallback (s.advance pages.length ([], .finished res)) true res, ?_⟩
      simp only [step, hget]
  | finished res => exact h.consistent.elim

theorem steps_le (h : Waiting c pages current s) : 4 * pages.length + current.steps ≤ 4 * s.pages.length + 3 := by
  have hpages : pages.length ≤ s.pages.length := by
    rw [pages_of_fetches h.fetches, List.length_append]
    omega
  have hsteps : current.steps ≤ 3 := by
    cases current with
    | finished res => exact h.consistent.elim
    | _ => simp [Fetch.steps]
  omega

end Waiting

theorem Over.step_eq_none (h : Over s) (a : Action α σ ε τ) : c.step s a = none := by
  have hfinished {i : ℕ} {f : Fetch α σ ε Ω} (hf : s.fetches[i]? = some f) : ∃ res, f = .finished res :=
    h.fetches f (List.mem_of_getElem? hf)
  cases a with
  | nextPage connected =>
      rw [step, h.nextPage]
      rfl
  | _ =>
      simp only [step]
      split
      all_goals first | rfl | obtain ⟨res, hres⟩ := hfinished ‹_›; cases hres

/-- With `autoPage` a run makes at most four steps for each page and the last fetch.  As long as the final
callback has not been called there is a step to make; when it has been called nothing more can happen,
and all rows and pages are there. -/
theorem eachRow_delivers (c : EachRow σ ε τ X Ω) (hauto : c.isAutoPage = true) {connected : Bool}
    {as : List (Action α σ ε τ)} {s : State α σ ε X Ω} (hrun : Run c.step (c.start connected) as s) :
    as.length ≤ 4 * s.pages.length + 4 ∧
      ((∃ a s', c.step s a = some s') ∧ (∀ event ∈ s.trace, event.isCallback = false) ∨
        (∀ a, c.step s a = none) ∧ Delivered c s) := by
  have hinv := hrun.history
    (P := fun as s => (∃ pages current, Waiting c pages current s ∧ as.length ≤ 4 * pages.length + current.steps) ∨
      Delivered c s ∧ Over s ∧ as.length ≤ 4 * s.pages.length + 4) ?_ ?_
  · obtain ⟨pages, current, hwaiting, hlen⟩ | ⟨hdelivered, hover, hlen⟩ := hinv
    · have := hwaiting.steps_le
      exact ⟨by omega, .inl ⟨hwaiting.exists_step, hwaiting.quiet⟩⟩
    · exact ⟨hlen, .inr ⟨hover.step_eq_none, hdelivered⟩⟩
  · obtain ⟨current, hwaiting⟩ := start_waiting c connected
    exact .inl ⟨[], current, hwaiting, by simp⟩
  · intro as s₁ a s₂ hs₁ hstep
    rw [List.length_append, List.length_singleton]
    obtain ⟨pages, current, hwaiting, hlen⟩ | ⟨-, hover, -⟩ := hs₁
    · obtain ⟨current', hwaiting', hsteps⟩ | ⟨p, current', hwaiting', hsteps⟩ | ⟨hdelivered, hover, hpages, hsteps⟩ :=
        hwaiting.step_cases hauto hstep
      · exact .inl ⟨pages, current', hwaiting', by omega⟩
      · refine .inl ⟨pages ++ [p], current', hwaiting', ?_⟩
        rw [List.length_append, List.length_singleton]
        omega
      · exact .inr ⟨hdelivered, hover, by omega⟩
    · rw [hover.step_eq_none] at hstep
      cases hstep

/-- An unprepared query without parameters. -/
def sampleQuery : EachRow ℕ String ℕ Unit Unit where
  query := .text "SELECT * FROM t"
  named := false
  isPrepared := false
  isAutoPage := true
  hints := []
  pageState := none
  fromBuffer := List.length
  encodeParams _ := .ok ()
  getRustOptions := .ok ()

/-- An empty page, and a page with two rows behind it. -/
def sampleActions : List (Action ℕ ℕ String ℕ) :=
  [.connect 0 none, .reply 0 (.ok ⟨some [], some 7⟩), .tick 0 true, .reply 1 (.ok ⟨some [10, 20], none⟩), .tick 1 true]

theorem eachRow_delivers_sample : ∃ s, Run sampleQuery.step (sampleQuery.start false) sampleActions s ∧
    sampleQuery.isAutoPage = true ∧ sampleActions.length ≤ 4 * s.pages.length + 4 ∧
      ((∃ a s', sampleQuery.step s a = some s') ∧ (∀ event ∈ s.trace, event.isCallback = false) ∨
        (∀ a, sampleQuery.step s a = none) ∧ Delivered sampleQuery s) := by
  have hexec : (exec sampleQuery.step (sampleQuery.start false) sampleActions).isSome = true := rfl
  obtain ⟨s, hs⟩ := Option.isSome_iff_exists.1 hexec
  exact ⟨s, Run.of_exec hs, rfl, eachRow_delivers sampleQuery rfl (Run.of_exec hs)⟩

end EachRow

end CqlDriver
