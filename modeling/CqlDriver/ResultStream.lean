import CqlDriver.EachRow

/-! # The stream of rows (`lib/types/result-stream.js` and `stream` of `lib/client.js`)

`stream` adds the rows that `eachRow` hands out to a readable stream.  At the end of a page `_valve` asks for the
next one, or keeps the continuation until `_read` has pushed what is buffered.  The runtime calls `_read` when it
likes, also while a `push` goes on, and answers each `push` as it likes; `read(0)` of `add` is such a call, or none.
The calls that `eachRow` makes when a page has arrived run to their end before anything else of the driver does.  A
request for a page does not complete while it is made, listeners do not throw, and there are no handlers of continuous
paging, which `stream` does not set. -/

namespace CqlDriver.ResultStream

open TransitionSystem EachRow

variable {α σ ε τ X Ω : Type}

/-- What `eachRow` calls. -/
inductive Call (α ε : Type) where
  | rowCallback (row : α)
  /-- `eachRowFinished`, and whether `result.nextPage` is there. -/
  | eachRowFinished (err : Option (PagedError ε)) (nextPage : Bool)

def Call.row? : Call α ε → Option α
  | .rowCallback row => some row
  | .eachRowFinished _ _ => none

def callOf : Event α σ ε X Ω → Option (Call α ε)
  | .rowCallback _ row => some (.rowCallback row)
  | .callback (.error err) => some (.eachRowFinished (some err) false)
  | .callback (.ok result) => some (.eachRowFinished none result.nextPage)
  | _ => none

/-- A call of a continuation, with what the stream was like. -/
structure Invocation (α : Type) where
  page : ℕ
  paused : Bool
  buffer : List (Option α)

/-- The fields of the stream, what is to run, and the history.  A chunk is a row, or `none` for `null`; a continuation
is known by the number of pages before it. -/
structure State (α σ ε X Ω : Type) where
  paging : EachRow.State α σ ε X Ω
  /-- The calls of `eachRow` that are still to be made. -/
  calls : List (Call α ε)
  buffer : List (Option α)
  paused : Bool
  readNext : Option ℕ
  /-- The calls of `push` that have not returned. -/
  pushing : ℕ
  pushed : List (Option α)
  invoked : List (Invocation α)
  errors : List (PagedError ε)
  /-- The calls of the callback of `stream`. -/
  callbacks : List (Option (PagedError ε))

variable (c : EachRow σ ε τ X Ω)

namespace State

/-- `readNext()`; `pageValve` calls `nextPage`. -/
def callNext (s : State α σ ε X Ω) (page : ℕ) (connected : Bool) : State α σ ε X Ω :=
  { s with paging := c.fetch s.paging connected, invoked := s.invoked ++ [⟨page, s.paused, s.buffer⟩] }

/-- The loop of `_read` up to its next `push`, or what follows the loop. -/
def loop (s : State α σ ε X Ω) (connected : Bool) : State α σ ε X Ω :=
  match s.paused, s.buffer, s.readNext with
  | false, chunk :: buffer, _ => { s with buffer := buffer, pushed := s.pushed ++ [chunk], pushing := s.pushing + 1 }
  | false, [], some page => { s.callNext c page connected with readNext := none }
  | _, _, _ => s

/-- `_read` -/
def read (s : State α σ ε X Ω) (connected : Bool) : State α σ ε X Ω := { s with paused := false }.loop c connected

/-- `push` returns its answer to the loop. -/
def pushReturned (s : State α σ ε X Ω) (answer connected : Bool) : State α σ ε X Ω :=
  { s with pushing := s.pushing - 1, paused := !answer }.loop c connected

/-- `_valve` -/
def valve (s : State α σ ε X Ω) (readNext : Option ℕ) (connected : Bool) : State α σ ε X Ω :=
  let s := { s with readNext := none }
  match readNext with
  | none => s
  | some page =>
      if s.paused ∨ s.buffer.length ≠ 0 then { s with readNext := some page } else s.callNext c page connected

def add (s : State α σ ε X Ω) (chunk : Option α) : State α σ ε X Ω := { s with buffer := s.buffer ++ [chunk] }

def onFinish (s : State α σ ε X Ω) (err : Option (PagedError ε)) (nextPage connected : Bool) : State α σ ε X Ω :=
  let s := match err with
    | some err => { s with errors := s.errors ++ [err] }
    | none => s
  if nextPage then s.valve c (some s.paging.fetches.length) connected
  else { (s.valve c none connected).add none with callbacks := s.callbacks ++ [err] }

end State

/-- `stream`: the options were created, or `eachRow` called back with the error at once, which is put off with
`setImmediate`. -/
def start (created : Except (PagedError ε) Bool) : State α σ ε X Ω :=
  match created with
  | .ok connected => ⟨c.start connected, [], [], true, none, 0, [], [], [], []⟩
  | .error err => ⟨⟨0, none, false, [], []⟩, [.eachRowFinished (some err) false], [], true, none, 0, [], [], [], []⟩

inductive Action (α σ ε τ : Type) where
  /-- A step of `eachRow`, but no call of `nextPage`: that is what the stream does. -/
  | eachRow (a : EachRow.Action α σ ε τ)
  /-- `eachRow` makes its next call. -/
  | call (connected : Bool)
  | read (connected : Bool)
  | pushReturned (answer connected : Bool)

def isNextPage : EachRow.Action α σ ε τ → Bool
  | .nextPage _ => true
  | _ => false

def step (s : State α σ ε X Ω) : Action α σ ε τ → Option (State α σ ε X Ω)
  | .eachRow a =>
      if s.pushing = 0 ∧ s.calls.isEmpty ∧ !isNextPage a then
        (c.step s.paging a).map fun paging =>
          { s with paging := paging, calls := (paging.trace.drop s.paging.trace.length).filterMap callOf }
      else none
  | .call connected =>
      match s.pushing, s.calls with
      | 0, .rowCallback row :: calls => some ({ s with calls := calls }.add (some row))
      | 0, .eachRowFinished err nextPage :: calls =>
          some ({ s with calls := calls }.onFinish c err nextPage connected)
      | _, _ => none
  | .read connected => some (s.read c connected)
  | .pushReturned answer connected => if 0 < s.pushing then some (s.pushReturned c answer connected) else none

/-! ### Pages without `autoPage` -/

def isFinished : Fetch α σ ε Ω → Bool
  | .finished _ => true
  | _ => false

/-- The page of a fetch whose rows were handed out. -/
def finishedPage? : Fetch α σ ε Ω → Option (Page α σ)
  | .finished (.ok p) => some p
  | _ => none

/-- What `pageCallback` calls. -/
def callsOf : Except (PagedError ε) (Page α σ) → List (Call α ε)
  | .error err => [.eachRowFinished (some err) false]
  | .ok p => (p.rows.getD []).map Call.rowCallback ++ [.eachRowFinished none p.next.isSome]

variable {c}

theorem callOf_rowCallbacks (p : Page α σ) :
    (rowCallbacks p : List (Event α σ ε X Ω)).filterMap callOf = (p.rows.getD []).map Call.rowCallback := by
  unfold rowCallbacks
  cases p.rows with
  | none => rfl
  | some rows =>
      have hcall : ∀ row : α × ℕ,
          callOf (.rowCallback row.2 row.1 : Event α σ ε X Ω) = some (Call.rowCallback row.1) := fun _ => rfl
      have hrows : (rows.zipIdx.map fun row => (Call.rowCallback row.1 : Call α ε)) = rows.map Call.rowCallback := by
        conv_rhs => rw [← List.zipIdx_map_fst 0 rows, List.map_map]
        rfl
      simp only [List.filterMap_map, Function.comp_def, hcall, Option.getD_some]
      rw [← hrows, ← List.filterMap_eq_map]
      rfl

/-- Before its `pageCallback`, a fetch calls nothing. -/
def Silent (next : List (Event α σ ε X Ω) × Fetch α σ ε Ω) : Prop :=
  next.1.filterMap callOf = [] ∧ isFinished next.2 = false

theorem silent_execute (expectedTypes : List τ) (statement : String) (options : Ω) (pageState : Option σ) :
    Silent (c.execute expectedTypes statement options pageState : List (Event α σ ε X Ω) × Fetch α σ ε Ω) := by
  unfold execute
  split
  · exact ⟨rfl, rfl⟩
  · exact ⟨rfl, rfl⟩

theorem silent_of_continues {pageState : Option σ} {next : List (Event α σ ε X Ω) × Fetch α σ ε Ω}
    (h : Continues c pageState next) : Silent next := by
  cases h with
  | raise err => exact ⟨rfl, rfl⟩
  | connecting => exact ⟨rfl, rfl⟩
  | preparing query options => exact ⟨rfl, rfl⟩
  | @requesting event hstate hrow hcallback =>
      have hcall : callOf event = none := by
        cases event with
        | rowCallback => cases hrow
        | callback => cases hcallback
        | executeSinglePageEncoded => rfl
        | querySinglePageEncoded => rfl
      exact ⟨by rw [List.filterMap_cons_none hcall, List.filterMap_nil], rfl⟩

theorem unfinished_rustyPaged (c : EachRow σ ε τ X Ω) (connected : Bool) (pageState : Option σ) :
    isFinished (c.rustyPaged connected pageState : List (Event α σ ε X Ω) × Fetch α σ ε Ω).2 = false :=
  (silent_of_continues (continues_rustyPaged connected pageState)).2

/-- A step of one fetch: it goes on silently, or `pageCallback` runs. -/
structure Moves (s s' : EachRow.State α σ ε X Ω) (i : ℕ) (f f' : Fetch α σ ε Ω) : Prop where
  here : s.fetches[i]? = some f
  unfinished : isFinished f = false
  fetches : s'.fetches = s.fetches.set i f'
  calls : isFinished f' = false ∧ (s'.trace.drop s.trace.length).filterMap callOf = [] ∨
    ∃ res, f' = .finished res ∧ (s'.trace.drop s.trace.length).filterMap callOf = callsOf res

theorem Moves.advance {s : EachRow.State α σ ε X Ω} {i : ℕ} {f : Fetch α σ ε Ω}
    {next : List (Event α σ ε X Ω) × Fetch α σ ε Ω} (hf : s.fetches[i]? = some f) (hnot : isFinished f = false)
    (h : Silent next) : Moves s (s.advance i next) i f next.2 := by
  refine ⟨hf, hnot, rfl, .inl ⟨h.2, ?_⟩⟩
  change ((s.trace ++ next.1).drop s.trace.length).filterMap callOf = []
  rw [List.drop_left, h.1]

theorem Moves.tick {s : EachRow.State α σ ε X Ω} {i : ℕ} {res : Except (PagedError ε) (Page α σ)}
    (hauto : c.isAutoPage = false) (hf : s.fetches[i]? = some (.settled res)) (connected : Bool) :
    Moves s (c.pageCallback (s.advance i ([], .finished res)) connected res) i (.settled res) (.finished res) := by
  cases res with
  | error err =>
      refine ⟨hf, rfl, rfl, .inr ⟨_, rfl, ?_⟩⟩
      change ((s.trace ++ [] ++ [Event.callback (.error err)]).drop s.trace.length).filterMap callOf = _
      rw [List.append_nil, List.drop_left]
      rfl
  | ok p =>
      cases hnext : p.next with
      | none =>
          refine ⟨hf, rfl, ?_, .inr ⟨_, rfl, ?_⟩⟩
          · simp only [pageCallback, hnext]
            rfl
          · simp only [pageCallback, hnext]
            change ((s.trace ++ [] ++ rowCallbacks p ++ [Event.callback (.ok ⟨p.rows, _, false⟩)]).drop
              s.trace.length).filterMap callOf = _
            rw [List.append_nil, List.append_assoc, List.drop_left, List.filterMap_append, callOf_rowCallbacks,
              callsOf, hnext]
            rfl
      | some pageState =>
          refine ⟨hf, rfl, ?_, .inr ⟨_, rfl, ?_⟩⟩
          · simp only [pageCallback, hnext, hauto]
            rfl
          · simp only [pageCallback, hnext, hauto]
            change ((s.trace ++ [] ++ rowCallbacks p ++ [Event.callback (.ok ⟨p.rows, _, true⟩)]).drop
              s.trace.length).filterMap callOf = _
            rw [List.append_nil, List.append_assoc, List.drop_left, List.filterMap_append, callOf_rowCallbacks,
              callsOf, hnext]
            rfl

/-- What a step of `eachRow` does that is no call of `nextPage`. -/
theorem moves_of_step (hauto : c.isAutoPage = false) {s s' : EachRow.State α σ ε X Ω} {a : EachRow.Action α σ ε τ}
    (ha : isNextPage a = false) (hs : c.step s a = some s') : ∃ i f f', Moves s s' i f f' := by
  cases a with
  | connect i err =>
      simp only [EachRow.step] at hs
      split at hs
      · next pageState hf =>
          obtain rfl := Option.some.inj hs
          exact ⟨i, _, _, Moves.advance hf rfl (silent_of_continues (continues_request pageState))⟩
      · next hf =>
          obtain rfl := Option.some.inj hs
          exact ⟨i, _, _, Moves.advance hf rfl ⟨rfl, rfl⟩⟩
      · cases hs
  | prepareStatement i res =>
      simp only [EachRow.step] at hs
      split at hs
      · next query options pageState expectedTypes hf =>
          obtain rfl := Option.some.inj hs
          exact ⟨i, _, _, Moves.advance hf rfl (silent_execute _ _ _ _)⟩
      · next hf =>
          obtain rfl := Option.some.inj hs
          exact ⟨i, _, _, Moves.advance hf rfl ⟨rfl, rfl⟩⟩
      · cases hs
  | reply i res =>
      simp only [EachRow.step] at hs
      split at hs
      · next hf =>
          obtain rfl := Option.some.inj hs
          exact ⟨i, _, _, Moves.advance hf rfl ⟨rfl, rfl⟩⟩
      · cases hs
  | tick i connected =>
      simp only [EachRow.step] at hs
      split at hs
      · next res hf =>
          obtain rfl := Option.some.inj hs
          exact ⟨i, _, _, Moves.tick hauto hf connected⟩
      · cases hs
  | nextPage connected => cases ha

/-! ### The invariant -/

namespace State

/-- The rows of the pages that were handed out. -/
def delivered (s : State α σ ε X Ω) : List α :=
  (s.paging.fetches.filterMap finishedPage?).flatMap fun p => p.rows.getD []

/-- The rows that are still to be added. -/
def arriving (s : State α σ ε X Ω) : List α := s.calls.filterMap Call.row?

end State

/-- All fetches are finished, and the last page has none behind it. -/
def Exhausted (fetches : List (Fetch α σ ε Ω)) : Prop :=
  (∀ f ∈ fetches, isFinished f = true) ∧ ∀ p, fetches.getLast? = some (.finished (.ok p)) → p.next = none

/-- What the stream waits for: a page, the calls for a page, a `_read`, or nothing any more. -/
inductive Phase (fetches : List (Fetch α σ ε Ω)) :
    List (Call α ε) → Option ℕ → List (Option (PagedError ε)) → Prop
  | fetching {front : List (Fetch α σ ε Ω)} {f : Fetch α σ ε Ω} (hfetches : fetches = front ++ [f])
      (hfront : ∀ g ∈ front, isFinished g = true) (hf : isFinished f = false) : Phase fetches [] none []
  | arriving (rows : List α) {err : Option (PagedError ε)} {nextPage : Bool}
      (hall : ∀ f ∈ fetches, isFinished f = true) (hmore : nextPage = true → fetches ≠ [])
      (hlast : nextPage = false → Exhausted fetches) :
      Phase fetches (rows.map Call.rowCallback ++ [.eachRowFinished err nextPage]) none []
  | holding (hall : ∀ f ∈ fetches, isFinished f = true) (hmore : fetches ≠ []) :
      Phase fetches [] (some fetches.length) []
  | ended {err : Option (PagedError ε)} (hlast : Exhausted fetches) : Phase fetches [] none [err]

section
variable {fetches : List (Fetch α σ ε Ω)} {calls : List (Call α ε)} {readNext : Option ℕ}
  {callbacks : List (Option (PagedError ε))}

theorem Phase.of_rowCallback {row : α} (h : Phase fetches (.rowCallback row :: calls) readNext callbacks) :
    Phase fetches calls readNext callbacks := by
  generalize hall : Call.rowCallback row :: calls = all at h
  cases h with
  | fetching => cases hall
  | arriving rows hfinished hmore hlast =>
      cases rows with
      | nil => cases hall
      | cons row' rows =>
          obtain ⟨-, rfl⟩ := List.cons.inj hall
          exact .arriving rows hfinished hmore hlast
  | holding => cases hall
  | ended => cases hall

/-- The last call of a page. -/
theorem Phase.of_finished {err : Option (PagedError ε)} {nextPage : Bool}
    (h : Phase fetches (.eachRowFinished err nextPage :: calls) readNext callbacks) :
    calls = [] ∧ callbacks = [] ∧ (∀ f ∈ fetches, isFinished f = true) ∧ (nextPage = true → fetches ≠ []) ∧
      (nextPage = false → Exhausted fetches) := by
  generalize hall : Call.eachRowFinished err nextPage :: calls = all at h
  cases h with
  | fetching => cases hall
  | arriving rows hfinished hmore hlast =>
      cases rows with
      | nil =>
          obtain ⟨heq, rfl⟩ := List.cons.inj hall
          obtain ⟨rfl, rfl⟩ := Call.eachRowFinished.inj heq
          exact ⟨rfl, rfl, hfinished, hmore, hlast⟩
      | cons row rows => cases hall
  | holding => cases hall
  | ended => cases hall

theorem Phase.of_readNext {page : ℕ} (h : Phase fetches calls (some page) callbacks) :
    calls = [] ∧ callbacks = [] ∧ (∀ f ∈ fetches, isFinished f = true) ∧ fetches ≠ [] ∧ page = fetches.length := by
  cases h with
  | holding hall hmore => exact ⟨rfl, rfl, hall, hmore, rfl⟩

/-- The end comes once, with nothing left to do. -/
theorem Phase.of_callbacks (h : Phase fetches calls readNext callbacks) (hcallbacks : callbacks ≠ []) :
    callbacks.length = 1 ∧ calls = [] ∧ readNext = none ∧ Exhausted fetches := by
  cases h with
  | fetching => exact absurd rfl hcallbacks
  | arriving => exact absurd rfl hcallbacks
  | holding => exact absurd rfl hcallbacks
  | ended hlast => exact ⟨rfl, rfl, rfl, hlast⟩

/-- Before the end something is to come. -/
theorem Phase.busy (h : Phase fetches calls readNext callbacks) (hcallbacks : callbacks = []) :
    calls ≠ [] ∨ readNext.isSome = true ∨ ∃ f ∈ fetches, isFinished f = false := by
  cases h with
  | @fetching front f hfetches hfront hf => exact .inr (.inr ⟨f, by simp [hfetches], hf⟩)
  | arriving => exact .inl (List.append_ne_nil_of_right_ne_nil _ (List.cons_ne_nil _ _))
  | holding => exact .inr (.inl rfl)
  | ended => cases hcallbacks

/-- A fetch that goes on is the last one. -/
theorem Phase.of_unfinished {i : ℕ} {f : Fetch α σ ε Ω} (h : Phase fetches ([] : List (Call α ε)) readNext callbacks)
    (hf : fetches[i]? = some f) (hnot : isFinished f = false) :
    readNext = none ∧ callbacks = [] ∧ ∃ front, fetches = front ++ [f] ∧ i = front.length ∧
      ∀ g ∈ front, isFinished g = true := by
  have hfinished : ¬ ∀ g ∈ fetches, isFinished g = true := by
    intro hall
    rw [hall f (List.mem_of_getElem? hf)] at hnot
    cases hnot
  generalize hcalls : ([] : List (Call α ε)) = calls at h
  cases h with
  | @fetching front f₁ hfetches hfront hf₁ =>
      rw [hfetches] at hf
      rcases Nat.lt_trichotomy i front.length with hi | rfl | hi
      · rw [List.getElem?_append_left hi] at hf
        rw [hfront f (List.mem_of_getElem? hf)] at hnot
        cases hnot
      · rw [List.getElem?_concat_length, Option.some.injEq] at hf
        subst hf
        exact ⟨rfl, rfl, front, hfetches, rfl, hfront⟩
      · rw [List.getElem?_eq_none (by simp; omega)] at hf
        cases hf
  | arriving rows => exact absurd hcalls.symm (List.append_ne_nil_of_right_ne_nil _ (List.cons_ne_nil _ _))
  | holding hall => exact absurd hall hfinished
  | ended hlast => exact absurd hlast.1 hfinished

end

theorem finishedPage?_of_unfinished {f : Fetch α σ ε Ω} (h : isFinished f = false) : finishedPage? f = none := by
  unfold finishedPage?
  split
  · cases h
  · rfl

theorem finishedPages_concat (front : List (Fetch α σ ε Ω)) (f : Fetch α σ ε Ω) :
    (front ++ [f]).filterMap finishedPage? = front.filterMap finishedPage? ++ (finishedPage? f).toList := by
  rw [List.filterMap_append]
  cases hf : finishedPage? f with
  | none => rw [List.filterMap_cons_none hf]; rfl
  | some p => rw [List.filterMap_cons_some hf]; rfl

theorem Phase.callsOf {front : List (Fetch α σ ε Ω)} (hfront : ∀ g ∈ front, isFinished g = true)
    (res : Except (PagedError ε) (Page α σ)) : Phase (front ++ [.finished res]) (callsOf res) none [] := by
  have hall : ∀ g ∈ front ++ [(.finished res : Fetch α σ ε Ω)], isFinished g = true := by
    intro g hg
    rcases List.mem_append.1 hg with hg | hg
    · exact hfront g hg
    · rw [List.mem_singleton.1 hg]
      rfl
  have hne : front ++ [(.finished res : Fetch α σ ε Ω)] ≠ [] :=
    List.append_ne_nil_of_right_ne_nil _ (List.cons_ne_nil _ _)
  cases res with
  | error err =>
      refine .arriving [] hall (fun _ => hne) fun _ => ⟨hall, fun p hp => ?_⟩
      rw [List.getLast?_concat] at hp
      cases hp
  | ok p =>
      refine .arriving _ hall (fun _ => hne) fun hnext => ⟨hall, fun p' hp => ?_⟩
      rw [List.getLast?_concat] at hp
      obtain rfl : p = p' := by simpa using hp
      simpa using hnext

theorem row_callsOf (res : Except (PagedError ε) (Page α σ)) :
    (callsOf res).filterMap Call.row? =
      ((finishedPage? (.finished res : Fetch α σ ε Ω)).toList.flatMap fun p => p.rows.getD []) := by
  cases res with
  | error err => rfl
  | ok p =>
      have hrow : (fun row : α => Call.row? (.rowCallback row : Call α ε)) = some := rfl
      change ((p.rows.getD []).map Call.rowCallback ++ [_]).filterMap Call.row? = p.rows.getD [] ++ []
      rw [List.filterMap_append, List.filterMap_map]
      change (p.rows.getD []).filterMap some ++ [] = _
      rw [List.filterMap_some]

namespace State

/-- The rows and the end marker are in order, and each page but the first was asked for where nothing was buffered. -/
structure Ordered (s : State α σ ε X Ω) : Prop where
  order : s.pushed ++ s.buffer ++ s.arriving.map some = s.delivered.map some ++ s.callbacks.map fun _ => none
  invoked : s.invoked = (List.range' 1 (s.paging.fetches.length - 1)).map fun page => ⟨page, false, []⟩

/-- A continuation is held while the stream is paused or has chunks to push. -/
structure Inv (s : State α σ ε X Ω) : Prop extends Ordered s where
  phase : Phase s.paging.fetches s.calls s.readNext s.callbacks
  held : s.pushing = 0 → s.readNext.isSome = true → s.paused = true ∨ s.buffer ≠ []

variable {s : State α σ ε X Ω}

/-- The rows so far do not change when a fetch starts. -/
theorem delivered_callNext (s : State α σ ε X Ω) (page : ℕ) (connected : Bool) :
    (s.callNext c page connected).delivered = s.delivered := by
  change List.flatMap _ ((s.paging.fetches ++ [_]).filterMap finishedPage?) = _
  rw [finishedPages_concat, finishedPage?_of_unfinished (unfinished_rustyPaged c _ _), Option.toList_none,
    List.append_nil]
  rfl

/-- The next page is asked for where nothing is buffered. -/
theorem Ordered.callNext (h : s.Ordered) (hpaused : s.paused = false) (hbuffer : s.buffer = [])
    (hmore : s.paging.fetches ≠ []) (connected : Bool) :
    (s.callNext c s.paging.fetches.length connected).Ordered := by
  obtain ⟨n, hn⟩ : ∃ n, s.paging.fetches.length = n + 1 := Nat.exists_eq_succ_of_ne_zero (by simpa using hmore)
  have hlength : (c.fetch s.paging connected).fetches.length = s.paging.fetches.length + 1 := List.length_append
  refine ⟨?_, ?_⟩
  · rw [delivered_callNext]
    exact h.order
  · change s.invoked ++ [⟨s.paging.fetches.length, s.paused, s.buffer⟩] =
      (List.range' 1 ((c.fetch s.paging connected).fetches.length - 1)).map _
    rw [hlength, h.invoked, hpaused, hbuffer, hn, Nat.add_sub_cancel, Nat.add_sub_cancel, List.range'_1_concat,
      List.map_append, Nat.add_comm 1 n]
    rfl

theorem phase_callNext (hall : ∀ f ∈ s.paging.fetches, isFinished f = true) (connected : Bool) :
    Phase (c.fetch s.paging connected).fetches ([] : List (Call α ε)) none [] :=
  .fetching rfl hall (unfinished_rustyPaged c _ _)

theorem loop_of_paused (h : s.paused = true) (connected : Bool) : s.loop c connected = s := by
  simp only [State.loop, h]

theorem loop_of_cons {chunk : Option α} {buffer : List (Option α)} (hpaused : s.paused = false)
    (hbuffer : s.buffer = chunk :: buffer) (connected : Bool) : s.loop c connected =
      { s with buffer := buffer, pushed := s.pushed ++ [chunk], pushing := s.pushing + 1 } := by
  simp only [State.loop, hpaused, hbuffer]

theorem loop_of_nil (hpaused : s.paused = false) (hbuffer : s.buffer = []) {page : ℕ} (hnext : s.readNext = some page)
    (connected : Bool) : s.loop c connected = { s.callNext c page connected with readNext := none } := by
  simp only [State.loop, hpaused, hbuffer, hnext]

/-- A loop keeps what holds while it goes on, and leaves a continuation only where it has to. -/
theorem Ordered.loop (h : s.Ordered) (hphase : Phase s.paging.fetches s.calls s.readNext s.callbacks)
    (connected : Bool) : (s.loop c connected).Inv := by
  cases hpaused : s.paused with
  | true =>
      rw [loop_of_paused hpaused]
      exact ⟨h, hphase, fun _ _ => .inl hpaused⟩
  | false =>
      cases hbuffer : s.buffer with
      | cons chunk buffer =>
          rw [loop_of_cons hpaused hbuffer]
          refine ⟨⟨?_, h.invoked⟩, hphase, fun hpushing => absurd hpushing (Nat.succ_ne_zero _)⟩
          have horder := h.order
          rw [hbuffer, List.append_cons] at horder
          exact horder
      | nil =>
          cases hnext : s.readNext with
          | none =>
              have hloop : s.loop c connected = s := by simp only [State.loop, hpaused, hbuffer, hnext]
              rw [hloop]
              exact ⟨h, hphase, fun _ hsome => by rw [hnext] at hsome; cases hsome⟩
          | some page =>
              rw [loop_of_nil hpaused hbuffer hnext]
              rw [hnext] at hphase
              obtain ⟨hcalls, hcallbacks, hall, hmore, rfl⟩ := hphase.of_readNext
              obtain ⟨horder, hinvoked⟩ := h.callNext (c := c) hpaused hbuffer hmore connected
              refine ⟨⟨horder, hinvoked⟩, ?_, fun _ hsome => by cases hsome⟩
              change Phase (c.fetch s.paging connected).fetches s.calls none s.callbacks
              rw [hcalls, hcallbacks]
              exact phase_callNext hall connected

theorem Inv.read (h : s.Inv) (connected : Bool) : (s.read c connected).Inv :=
  Ordered.loop (s := { s with paused := false }) ⟨h.order, h.invoked⟩ h.phase connected

theorem Inv.pushReturned (h : s.Inv) (answer connected : Bool) : (s.pushReturned c answer connected).Inv :=
  Ordered.loop (s := { s with pushing := s.pushing - 1, paused := !answer }) ⟨h.order, h.invoked⟩ h.phase connected

/-- A row of the page is added. -/
theorem Inv.rowCallback {row : α} {calls : List (Call α ε)} (h : s.Inv)
    (hcalls : s.calls = .rowCallback row :: calls) : Inv ({ s with calls := calls }.add (some row)) := by
  have hphase := h.phase
  rw [hcalls] at hphase
  refine ⟨⟨?_, h.invoked⟩, hphase.of_rowCallback, fun _ _ => .inr ?_⟩
  · have horder := h.order
    rw [arriving, hcalls] at horder
    change s.pushed ++ (s.buffer ++ [some row]) ++ (calls.filterMap Call.row?).map some = _
    rw [← List.append_assoc, ← List.append_cons]
    exact horder
  · exact List.append_ne_nil_of_right_ne_nil _ (List.cons_ne_nil _ _)

/-- The page, or the query, is over. -/
theorem Inv.onFinish {err : Option (PagedError ε)} {nextPage : Bool} {calls : List (Call α ε)} (h : s.Inv)
    (hcalls : s.calls = .eachRowFinished err nextPage :: calls) (connected : Bool) :
    Inv ({ s with calls := calls }.onFinish c err nextPage connected) := by
  have hphase := h.phase
  rw [hcalls] at hphase
  obtain ⟨rfl, hcallbacks, hall, hmore, hlast⟩ := hphase.of_finished
  have horder := h.order
  rw [arriving, hcalls] at horder
  -- the error that is emitted does not change what the stream does
  obtain ⟨errors, honFinish⟩ : ∃ errors, { s with calls := [] }.onFinish c err nextPage connected =
      if nextPage then { s with calls := [], errors := errors }.valve c (some s.paging.fetches.length) connected
      else { ({ s with calls := [], errors := errors }.valve c none connected).add none with
        callbacks := s.callbacks ++ [err] } := by
    cases err with
    | none => exact ⟨_, rfl⟩
    | some err => exact ⟨_, rfl⟩
  rw [honFinish]
  cases nextPage with
  | false =>
      refine ⟨⟨?_, h.invoked⟩, ?_, fun _ hsome => by cases hsome⟩
      · change s.pushed ++ (s.buffer ++ [none]) ++ [] =
          s.delivered.map some ++ (s.callbacks ++ [err]).map fun _ => none
        rw [List.append_nil, ← List.append_assoc, List.map_append, ← List.append_assoc, ← horder]
        exact congrArg (· ++ [none]) (List.append_nil _).symm
      · change Phase s.paging.fetches [] none (s.callbacks ++ [err])
        rw [hcallbacks]
        exact .ended (hlast rfl)
  | true =>
      rw [if_pos rfl, State.valve]
      simp only
      split_ifs with hheld
      · refine ⟨⟨horder, h.invoked⟩, ?_, fun _ _ => ?_⟩
        · change Phase s.paging.fetches [] (some s.paging.fetches.length) s.callbacks
          rw [hcallbacks]
          exact .holding hall (hmore rfl)
        · rcases hheld with hpaused | hbuffer
          · exact .inl hpaused
          · exact .inr (List.ne_nil_of_length_pos (Nat.pos_of_ne_zero hbuffer))
      · rw [not_or, Bool.not_eq_true, not_not, List.length_eq_zero_iff] at hheld
        have hcleared : Ordered { s with calls := [], errors := errors, readNext := none } := ⟨horder, h.invoked⟩
        refine ⟨hcleared.callNext hheld.1 hheld.2 (hmore rfl) connected, ?_, fun _ hsome => by cases hsome⟩
        change Phase (c.fetch s.paging connected).fetches [] none s.callbacks
        rw [hcallbacks]
        exact phase_callNext hall connected

/-- `eachRow` goes on, or the calls for a page are to be made. -/
theorem Inv.eachRow {paging : EachRow.State α σ ε X Ω} {i : ℕ} {f f' : Fetch α σ ε Ω} (h : s.Inv)
    (hcalls : s.calls = []) (hmoves : Moves s.paging paging i f f') :
    Inv { s with paging := paging, calls := (paging.trace.drop s.paging.trace.length).filterMap callOf } := by
  have hphase := h.phase
  rw [hcalls] at hphase
  obtain ⟨hnext, hcallbacks, front, hfetches, rfl, hfront⟩ := hphase.of_unfinished hmoves.here hmoves.unfinished
  have horder := h.order
  have hinvoked := h.invoked
  rw [arriving, hcalls, hcallbacks, delivered, hfetches, finishedPages_concat,
    finishedPage?_of_unfinished hmoves.unfinished] at horder
  simp only [List.filterMap_nil, Option.toList_none, List.append_nil, List.map_nil] at horder
  have hset : paging.fetches = front ++ [f'] := by
    rw [hmoves.fetches, hfetches, List.set_append_right _ _ (Nat.le_refl _), Nat.sub_self]
    rfl
  have hlength : paging.fetches.length = s.paging.fetches.length := by
    rw [hmoves.fetches, List.length_set]
  rw [← hlength] at hinvoked
  rcases hmoves.calls with ⟨hnot, hsilent⟩ | ⟨res, rfl, hcallsOf⟩
  · rw [hsilent]
    refine ⟨⟨?_, hinvoked⟩, ?_, fun _ hsome => by rw [hnext] at hsome; cases hsome⟩
    · change s.pushed ++ s.buffer ++ [] = ((paging.fetches.filterMap finishedPage?).flatMap _).map some ++ _
      rw [hset, finishedPages_concat, finishedPage?_of_unfinished hnot, hcallbacks]
      simpa using horder
    · change Phase paging.fetches [] s.readNext s.callbacks
      rw [hset, hnext, hcallbacks]
      exact .fetching rfl hfront hnot
  · rw [hcallsOf]
    refine ⟨⟨?_, hinvoked⟩, ?_, fun _ hsome => by rw [hnext] at hsome; cases hsome⟩
    · change s.pushed ++ s.buffer ++ ((callsOf res).filterMap Call.row?).map some =
        ((paging.fetches.filterMap finishedPage?).flatMap _).map some ++ _
      have hrows : (callsOf res).filterMap Call.row? =
          ((finishedPage? (.finished res : Fetch α σ ε Ω)).toList.flatMap fun p => p.rows.getD []) := row_callsOf res
      rw [hset, hrows, horder, hcallbacks, finishedPages_concat, List.flatMap_append, List.map_append, List.map_nil,
        List.append_nil]
    · change Phase paging.fetches (callsOf res) s.readNext s.callbacks
      rw [hset, hnext, hcallbacks]
      exact Phase.callsOf hfront res

/-- While `push` answers that there is room, a loop pushes what is buffered and calls the continuation. -/
theorem drain {page : ℕ} (connected : Bool) : ∀ {s : State α σ ε X Ω}, s.paused = false → s.readNext = some page →
    ∃ s', Run (step c) (s.loop c connected) (List.replicate s.buffer.length (.pushReturned true connected)) s' ∧
      s'.pushed = s.pushed ++ s.buffer ∧ s'.invoked = s.invoked ++ [⟨page, false, []⟩] := by
  intro s
  generalize hbuffer : s.buffer = buffer
  induction buffer generalizing s with
  | nil =>
      intro hpaused hnext
      rw [loop_of_nil hpaused hbuffer hnext]
      refine ⟨_, Run.nil _, (List.append_nil _).symm, ?_⟩
      change s.invoked ++ [⟨page, s.paused, s.buffer⟩] = _
      rw [hpaused, hbuffer]
  | cons chunk buffer ih =>
      intro hpaused hnext
      rw [loop_of_cons hpaused hbuffer]
      let s₁ : State α σ ε X Ω := { s with buffer := buffer, pushed := s.pushed ++ [chunk], paused := !true }
      obtain ⟨s', hrun, hpushed, hinvoked⟩ := ih (s := s₁) rfl rfl hnext
      refine ⟨s', Run.cons ?_ hrun, ?_, hinvoked⟩
      · rw [step, if_pos (Nat.succ_pos s.pushing)]
        rfl
      · rw [hpushed, List.append_assoc]
        rfl

end State

/-! ### Runs -/

theorem start_inv (c : EachRow σ ε τ X Ω) (created : Except (PagedError ε) Bool) :
    (start c created : State α σ ε X Ω).Inv := by
  cases created with
  | error err =>
      refine ⟨⟨rfl, rfl⟩, ?_, fun _ hsome => by cases hsome⟩
      change Phase [] [.eachRowFinished (some err) false] none []
      exact .arriving [] (by simp) (by simp) fun _ => ⟨by simp, by simp⟩
  | ok connected =>
      have hfetches : (c.start connected : EachRow.State α σ ε X Ω).fetches =
          [] ++ [(c.rustyPaged connected none).2] := rfl
      refine ⟨⟨?_, rfl⟩, .fetching hfetches (by simp) (unfinished_rustyPaged c _ _), fun _ hsome => by cases hsome⟩
      have hdelivered : (start c (.ok connected) : State α σ ε X Ω).delivered = [] := by
        change ((c.start connected : EachRow.State α σ ε X Ω).fetches.filterMap finishedPage?).flatMap _ = []
        rw [hfetches, finishedPages_concat, finishedPage?_of_unfinished (unfinished_rustyPaged c _ _)]
        rfl
      rw [hdelivered]
      rfl

theorem step_inv (hauto : c.isAutoPage = false) {s s' : State α σ ε X Ω} {a : Action α σ ε τ} (h : s.Inv)
    (hs : step c s a = some s') : s'.Inv := by
  cases a with
  | eachRow a =>
      rw [step] at hs
      split_ifs at hs with henabled
      obtain ⟨-, hcalls, ha⟩ := henabled
      obtain ⟨paging, hpaging, rfl⟩ := Option.map_eq_some_iff.1 hs
      obtain ⟨i, f, f', hmoves⟩ := moves_of_step hauto (by simpa using ha) hpaging
      exact h.eachRow (List.isEmpty_iff.1 hcalls) hmoves
  | call connected =>
      rw [step] at hs
      split at hs
      · next hcalls =>
          obtain rfl := Option.some.inj hs
          exact h.rowCallback hcalls
      · next hcalls =>
          obtain rfl := Option.some.inj hs
          exact h.onFinish hcalls connected
      · cases hs
  | read connected =>
      obtain rfl := Option.some.inj hs
      exact h.read connected
  | pushReturned answer connected =>
      rw [step] at hs
      split_ifs at hs
      obtain rfl := Option.some.inj hs
      exact h.pushReturned answer connected

/-- The rows of the pages are pushed once and in order, and the end marker once and behind them; each page but the
first is asked for once, where nothing is buffered and the stream is not paused; a continuation is held only where a
`_read` is to come, which calls it when `push` lets it drain the buffer; and until the end, something is to come. -/
theorem stream_delivers (hauto : c.isAutoPage = false) {created : Except (PagedError ε) Bool}
    {as : List (Action α σ ε τ)} {s : State α σ ε X Ω} (h : Run (step c) (start c created) as s) :
    s.pushed ++ s.buffer ++ s.arriving.map some = s.delivered.map some ++ s.callbacks.map (fun _ => none) ∧
      s.callbacks.length ≤ 1 ∧
      (s.callbacks ≠ [] → s.calls = [] ∧ s.readNext = none ∧ Exhausted s.paging.fetches) ∧
      s.invoked = (List.range' 1 (s.paging.fetches.length - 1)).map (fun page => ⟨page, false, []⟩) ∧
      (s.pushing = 0 → s.readNext.isSome = true → s.paused = true ∨ s.buffer ≠ []) ∧
      (∀ page connected, s.readNext = some page → ∃ s',
        Run (step c) s (.read connected :: List.replicate s.buffer.length (.pushReturned true connected)) s' ∧
          s'.pushed = s.pushed ++ s.buffer ∧ s'.invoked = s.invoked ++ [⟨page, false, []⟩]) ∧
      (s.callbacks = [] →
        s.calls ≠ [] ∨ s.readNext.isSome = true ∨ ∃ f ∈ s.paging.fetches, isFinished f = false) := by
  have hinv : s.Inv := h.invariant (start_inv c created) fun s₁ a s₂ hP hs => step_inv hauto hP hs
  refine ⟨hinv.order, ?_, fun hcallbacks => (hinv.phase.of_callbacks hcallbacks).2, hinv.invoked, hinv.held,
    fun page connected hnext => ?_, hinv.phase.busy⟩
  · by_cases hcallbacks : s.callbacks = []
    · rw [hcallbacks]
      exact Nat.zero_le 1
    · exact Nat.le_of_eq (hinv.phase.of_callbacks hcallbacks).1
  · obtain ⟨s', hrun, hpushed, hinvoked⟩ := State.drain (c := c) (s := { s with paused := false }) connected rfl hnext
    exact ⟨s', Run.cons rfl hrun, hpushed, hinvoked⟩

def manualQuery : EachRow ℕ String ℕ Unit Unit := { sampleQuery with isAutoPage := false }

/-- A page with two rows, of which the first meets a full stream, and an empty page behind it. -/
def samplePages : List (Action ℕ ℕ String ℕ) :=
  [.eachRow (.connect 0 none), .eachRow (.reply 0 (.ok ⟨some [10, 20], some 7⟩)), .eachRow (.tick 0 true), .call true,
    .read true, .pushReturned false true, .call true, .call true, .read true, .pushReturned true true,
    .eachRow (.reply 1 (.ok ⟨some [], none⟩)), .eachRow (.tick 1 true), .call true]

theorem stream_delivers_sample : ∃ s, Run (step manualQuery) (start manualQuery (.ok false)) samplePages s ∧
    s.pushed = [some 10, some 20] ∧ s.buffer = [none] ∧ s.callbacks.length ≤ 1 := by
  have hexec : (exec (step manualQuery) (start manualQuery (.ok false)) samplePages).map
      (fun s => (s.pushed, s.buffer)) = some ([some 10, some 20], [none]) := rfl
  obtain ⟨s, hs, hout⟩ := Option.map_eq_some_iff.1 hexec
  obtain ⟨hpushed, hbuffer⟩ := Prod.mk.inj hout
  exact ⟨s, Run.of_exec hs, hpushed, hbuffer, (stream_delivers rfl (Run.of_exec hs)).2.1⟩

end CqlDriver.ResultStream
