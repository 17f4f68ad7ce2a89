import CqlDriver.Lib.TransitionSystem

/-! # Loads that concurrent calls share

A value is loaded into an object by the first call that needs it; a call that comes while the load goes on waits for
the object's event, and one that finds the value returns it.  The code of a load is a tree of what it awaits; after
each answer it runs on to its next `await`, in one step.  A body is `Proper` if it always ends with its event and the
flag reset, and the value is there if it was found.  Then calls that come during a load settle as the load does, and
when nothing is loaded and no load goes on, the next call loads again (`Loads`, `run_loads`). -/

namespace SharedLoad

open TransitionSystem

/-- The code of a load, behind the assignment that sets the flag; an error that is raised resets the flag, and so does
the return. -/
inductive Body (Q R D P ε V : Type) where
  | query (request : Q) (next : Except ε R → Body Q R D P ε V)
  | parse (data : D) (next : Except ε P → Body Q R D P ε V)
  /-- What was awaited is there, and the code behind it is queued. -/
  | resume (next : Body Q R D P ε V)
  | publish (value : V) (next : Body Q R D P ε V)
  | stopLoading (next : Body Q R D P ε V)
  | emit (err : Option ε) (result : Option V) (next : Body Q R D P ε V)
  | done (result : Option V)
  | raise (err : ε)

variable {Q R D P ε V A : Type}

/-- A listener rejects for an error, else it resolves. -/
def outcome (err : Option ε) (result : Option V) : Except ε (Option V) :=
  match err with
  | some err => .error err
  | none => .ok result

inductive Status (Q R D P ε V : Type) where
  /-- The call carries the load out. -/
  | loading (body : Body Q R D P ε V)
  | waiting
  | settled (res : Except ε (Option V))

/-- A call, with the load it came in: its own, or the one that went on. -/
structure Call (Q R D P ε V : Type) where
  status : Status Q R D P ε V
  load : Option ℕ

/-- What loads of a kind have in common. -/
structure Loader (Q R D P ε V A : Type) where
  body : A → Body Q R D P ε V
  /-- `emit` of an object that is no emitter -/
  emitError : ε
  /-- `once` of an object that is no emitter -/
  onceError : ε

/-- The fields of the object, the calls, and the history; `load` is the call whose load goes on. -/
structure State (Q R D P ε V : Type) where
  emitter : Bool
  loading : Bool
  loaded : Option V
  calls : List (Call Q R D P ε V)
  queries : List (ℕ × Q)
  load : Option ℕ

namespace State

def setStatus (s : State Q R D P ε V) (i : ℕ) (status : Status Q R D P ε V) : State Q R D P ε V :=
  { s with calls := s.calls.modify i fun c => { c with status := status } }

/-- The `finally` of the load, with its outcome. -/
def settle (s : State Q R D P ε V) (i : ℕ) (res : Except ε (Option V)) : State Q R D P ε V :=
  { s.setStatus i (.settled res) with loading := false, load := none }

def notifyCall (c : Call Q R D P ε V) (res : Except ε (Option V)) : Call Q R D P ε V :=
  match c.status with
  | .waiting => { c with status := .settled res }
  | _ => c

/-- The listeners of the event are called. -/
def notify (s : State Q R D P ε V) (res : Except ε (Option V)) : State Q R D P ε V :=
  { s with calls := s.calls.map fun c => notifyCall c res }

end State

/-- The code of the call `i` up to its next `await`. -/
def exec (l : Loader Q R D P ε V A) (i : ℕ) : Body Q R D P ε V → State Q R D P ε V → State Q R D P ε V
  | .publish value next, s => exec l i next { s with loaded := some value }
  | .stopLoading next, s => exec l i next { s with loading := false }
  | .emit err result next, s =>
      -- without `emit` the handler of the error fails in the same way
      if s.emitter then exec l i next (s.notify (outcome err result)) else s.settle i (.error l.emitError)
  | .done result, s => s.settle i (.ok result)
  | .raise err, s => s.settle i (.error err)
  | .query request next, s =>
      { s.setStatus i (.loading (.query request next)) with queries := s.queries ++ [(i, request)] }
  | body, s => s.setStatus i (.loading body)

def call (l : Loader Q R D P ε V A) (s : State Q R D P ε V) (a : A) : State Q R D P ε V :=
  let i := s.calls.length
  match s.loaded with
  | some value => { s with calls := s.calls ++ [⟨.settled (.ok (some value)), s.load⟩] }
  | none =>
      if s.loading then
        let status := if s.emitter then Status.waiting else .settled (.error l.onceError)
        { s with calls := s.calls ++ [⟨status, s.load⟩] }
      else exec l i (l.body a) { s with
        calls := s.calls ++ [⟨.loading (l.body a), some i⟩]
        loading := true
        load := some i }

inductive Action (R P ε A : Type) where
  | call (a : A)
  | reply (i : ℕ) (res : Except ε R)
  | parsed (i : ℕ) (res : Except ε P)
  | resumed (i : ℕ)

def step (l : Loader Q R D P ε V A) (s : State Q R D P ε V) : Action R P ε A → Option (State Q R D P ε V)
  | .call a => some (call l s a)
  | .reply i res =>
      match (s.calls[i]?).map Call.status with
      | some (.loading (.query _ next)) => some (exec l i (next res) s)
      | _ => none
  | .parsed i res =>
      match (s.calls[i]?).map Call.status with
      | some (.loading (.parse _ next)) => some (exec l i (next res) s)
      | _ => none
  | .resumed i =>
      match (s.calls[i]?).map Call.status with
      | some (.loading (.resume next)) => some (exec l i next s)
      | _ => none

/-- An object that was just made. -/
def fresh : State Q R D P ε V := ⟨true, false, none, [], [], none⟩

/-! ### Proper bodies -/

/-- What follows the event: nothing but the end. -/
inductive Closes : Body Q R D P ε V → Except ε (Option V) → Prop
  | done (result : Option V) : Closes (.done result) (.ok result)
  | raise (err : ε) : Closes (.raise err) (.error err)
  | stopLoading {body : Body Q R D P ε V} {res : Except ε (Option V)} (h : Closes body res) :
      Closes (.stopLoading body) res

/-- The body emits an outcome and ends with it. -/
inductive Ends : Body Q R D P ε V → Except ε (Option V) → Prop
  | emit {err : Option ε} {result : Option V} {body : Body Q R D P ε V} (h : Closes body (outcome err result)) :
      Ends (.emit err result body) (outcome err result)
  | stopLoading {body : Body Q R D P ε V} {res : Except ε (Option V)} (h : Ends body res) :
      Ends (.stopLoading body) res

/-- The body ends with one outcome on every path, and publishes what it found, at most one `await` before the end. -/
inductive Proper (found : V → Bool) : Body Q R D P ε V → Prop
  | query {request : Q} {next : Except ε R → Body Q R D P ε V} (h : ∀ res, Proper found (next res)) :
      Proper found (.query request next)
  | parse {data : D} {next : Except ε P → Body Q R D P ε V} (h : ∀ res, Proper found (next res)) :
      Proper found (.parse data next)
  | ends {body : Body Q R D P ε V} {res : Except ε (Option V)} (h : Ends body res)
      (hnot : ∀ value, res = .ok (some value) → found value = false) : Proper found body
  | publish {value : V} {body : Body Q R D P ε V} (h : Ends body (.ok (some value))) (hfound : found value = true) :
      Proper found (.publish value body)
  | publishResume {value : V} {body : Body Q R D P ε V} (h : Ends body (.ok (some value)))
      (hfound : found value = true) : Proper found (.publish value (.resume body))

/-- Each load starts with a query. -/
structure Loader.Proper (l : Loader Q R D P ε V A) (found : V → Bool) : Prop where
  starts : ∀ a, ∃ request next, l.body a = .query request next
  proper : ∀ a, SharedLoad.Proper found (l.body a)

/-- What callers can rely on. -/
structure Loads (l : Loader Q R D P ε V A) (found : V → Bool) (s : State Q R D P ε V) : Prop where
  /-- At most one load goes on. -/
  once : ∀ i j : ℕ, ∀ c d : Call Q R D P ε V, ∀ body body', s.calls[i]? = some c → s.calls[j]? = some d →
    c.status = .loading body → d.status = .loading body' → i = j
  /-- A call that came during a load settles as the load does. -/
  joined : ∀ c ∈ s.calls, ∀ j, c.load = some j → ∃ d, s.calls[j]? = some d ∧
    ∀ res, d.status = .settled res → c.status = .settled res
  /-- A call waits only for a load that goes on. -/
  waits : ∀ c ∈ s.calls, c.status = .waiting → ∃ j d body, c.load = some j ∧ s.calls[j]? = some d ∧
    d.status = .loading body
  /-- What was found is returned without a query. -/
  returned : ∀ c ∈ s.calls, ∀ value, c.status = .settled (.ok (some value)) → found value = true → ∀ a,
    ∃ load, call l s a = { s with calls := s.calls ++ [⟨.settled (.ok (some value)), load⟩] }
  /-- While nothing was found and no load goes on, the flag is clear and the next call loads. -/
  again : (∀ c ∈ s.calls, ∀ body, c.status ≠ .loading body) → s.loading = false ∧
    ((∀ c ∈ s.calls, ∀ value, c.status = .settled (.ok (some value)) → found value = false) → ∀ a,
      ∃ request next, call l s a = { s with
        calls := s.calls ++ [⟨.loading (.query request next), some s.calls.length⟩]
        loading := true
        load := some s.calls.length
        queries := s.queries ++ [(s.calls.length, request)] })

theorem modify_concat {β : Type} (f : β → β) (l : List β) (x : β) : (l ++ [x]).modify l.length f = l ++ [f x] := by
  induction l with
  | nil => rfl
  | cons y l ih => rw [List.cons_append, List.length_cons, List.modify_succ_cons, ih, List.cons_append]

/-- An index of a longer list. -/
theorem getElem?_concat_cases {β : Type} {l : List β} {x y : β} {k : ℕ} (h : (l ++ [x])[k]? = some y) :
    l[k]? = some y ∨ k = l.length ∧ y = x := by
  rcases Nat.lt_trichotomy k l.length with hk | rfl | hk
  · rw [List.getElem?_append_left hk] at h
    exact .inl h
  · rw [List.getElem?_concat_length, Option.some.injEq] at h
    exact .inr ⟨rfl, h.symm⟩
  · rw [List.getElem?_eq_none (by simp; omega)] at h
    cases h

/-! ### What is executed after an answer -/

theorem exec_closes (l : Loader Q R D P ε V A) (i : ℕ) {body : Body Q R D P ε V} {res : Except ε (Option V)}
    (h : Closes body res) (s : State Q R D P ε V) : exec l i body s = s.settle i res := by
  induction h generalizing s with
  | done result => rw [exec]
  | raise err => rw [exec]
  | stopLoading _ ih =>
      rw [exec, ih]
      rfl

/-- The outcome goes to those who wait, and to the call itself. -/
theorem exec_ends (l : Loader Q R D P ε V A) (i : ℕ) {body : Body Q R D P ε V} {res : Except ε (Option V)}
    (h : Ends body res) (s : State Q R D P ε V) (hemitter : s.emitter = true) :
    exec l i body s = (s.notify res).settle i res := by
  induction h generalizing s with
  | emit hcloses => rw [exec, if_pos hemitter, exec_closes l i hcloses]
  | stopLoading _ ih =>
      rw [exec]
      exact ih _ hemitter

/-! ### The invariant -/

/-- Where the body of the load that goes on is: nothing is published yet, or the end is queued. -/
def Going (found : V → Bool) (loaded : Option V) (body : Body Q R D P ε V) : Prop :=
  loaded = none ∧ Proper found body ∨
    ∃ value next, loaded = some value ∧ found value = true ∧ body = .resume next ∧ Ends next (.ok (some value))

structure Inv (found : V → Bool) (s : State Q R D P ε V) : Prop where
  emitter : s.emitter = true
  /-- The load of a call is one that a call carried out. -/
  owner : ∀ {k j : ℕ} {c : Call Q R D P ε V}, s.calls[k]? = some c → c.load = some j →
    ∃ d, s.calls[j]? = some d ∧ d.load = some j ∧ ∀ res, d.status = .settled res → c.status = .settled res
  waits : ∀ {k : ℕ} {c : Call Q R D P ε V}, s.calls[k]? = some c → c.status = .waiting →
    ∃ j, s.load = some j ∧ c.load = some j
  loads : ∀ {k : ℕ} {c : Call Q R D P ε V} {body : Body Q R D P ε V}, s.calls[k]? = some c →
    c.status = .loading body → s.load = some k
  idle : s.load = none → s.loading = false
  going : ∀ {i : ℕ}, s.load = some i → s.loading = true ∧ ∃ c body, s.calls[i]? = some c ∧ c.load = some i ∧
    c.status = .loading body ∧ Going found s.loaded body
  /-- Before the load settles, calls that came during it wait, or have got what was published. -/
  early : ∀ {i k : ℕ} {c : Call Q R D P ε V}, s.load = some i → s.calls[k]? = some c → c.load = some i →
    k = i ∨ c.status = .waiting ∨ ∃ value, s.loaded = some value ∧ c.status = .settled (.ok (some value))
  results : ∀ {k : ℕ} {c : Call Q R D P ε V} {value : V}, s.calls[k]? = some c →
    c.status = .settled (.ok (some value)) → found value = true → s.loaded = some value
  loaded : ∀ {value : V}, s.loaded = some value → found value = true ∧
    (s.load = none → ∃ c ∈ s.calls, c.status = .settled (.ok (some value)))

theorem fresh_inv (found : V → Bool) : Inv found (fresh : State Q R D P ε V) where
  emitter := rfl
  owner := by simp [fresh]
  waits := by simp [fresh]
  loads := by simp [fresh]
  idle _ := rfl
  going := by simp [fresh]
  early := by simp [fresh]
  results := by simp [fresh]
  loaded := by simp [fresh]

/-- The invariant says what callers rely on. -/
theorem Inv.loads_of {l : Loader Q R D P ε V A} {found : V → Bool} (hl : l.Proper found) {s : State Q R D P ε V}
    (h : Inv found s) : Loads l found s where
  once i j c d body body' hi hj hc hd := Option.some.inj ((h.loads hi hc).symm.trans (h.loads hj hd))
  joined c hc j hj := by
    obtain ⟨k, hk⟩ := List.mem_iff_getElem?.1 hc
    obtain ⟨d, hd, -, hsettled⟩ := h.owner hk hj
    exact ⟨d, hd, hsettled⟩
  waits c hc hwaiting := by
    obtain ⟨k, hk⟩ := List.mem_iff_getElem?.1 hc
    obtain ⟨j, hload, hj⟩ := h.waits hk hwaiting
    obtain ⟨-, d, body, hd, -, hstatus, -⟩ := h.going hload
    exact ⟨j, d, body, hj, hd, hstatus⟩
  returned c hc value hstatus hfound a := by
    obtain ⟨k, hk⟩ := List.mem_iff_getElem?.1 hc
    refine ⟨s.load, ?_⟩
    rw [call, h.results hk hstatus hfound]
  again hnone := by
    have hload : s.load = none := by
      cases hload : s.load with
      | none => rfl
      | some i =>
          obtain ⟨-, c, body, hc, -, hstatus, -⟩ := h.going hload
          exact absurd hstatus (hnone c (List.mem_of_getElem? hc) body)
    refine ⟨h.idle hload, fun hunfound a => ?_⟩
    have hloaded : s.loaded = none := by
      cases hloaded : s.loaded with
      | none => rfl
      | some value =>
          obtain ⟨hfound, hsome⟩ := h.loaded hloaded
          obtain ⟨c, hc, hstatus⟩ := hsome hload
          rw [hunfound c hc value hstatus] at hfound
          cases hfound
    obtain ⟨request, next, hbody⟩ := hl.starts a
    refine ⟨request, next, ?_⟩
    rw [call, hloaded]
    simp [h.idle hload, hbody, exec, State.setStatus, modify_concat]

section
variable {found : V → Bool} {s : State Q R D P ε V} {i : ℕ}

/-- The loads of calls whose statuses change: a settled call stays as it is, and with a load that settles those settle
that came during it. -/
theorem Inv.owner_of_status (h : Inv found s) {s' : State Q R D P ε V}
    {status : ℕ → Call Q R D P ε V → Status Q R D P ε V}
    (hcalls : ∀ k : ℕ, s'.calls[k]? = (s.calls[k]?).map fun c => ⟨status k c, c.load⟩)
    (hstays : ∀ (k : ℕ) c res, s.calls[k]? = some c → c.status = .settled res → status k c = .settled res)
    (hends : ∀ (j : ℕ) d res, s.calls[j]? = some d → d.load = some j → status j d = .settled res →
      d.status = .settled res ∨
        ∀ (k : ℕ) c, s.calls[k]? = some c → c.load = some j → status k c = .settled res)
    {k j : ℕ} {c : Call Q R D P ε V} (hc : s'.calls[k]? = some c) (hj : c.load = some j) :
    ∃ d, s'.calls[j]? = some d ∧ d.load = some j ∧ ∀ res, d.status = .settled res → c.status = .settled res := by
  rw [hcalls, Option.map_eq_some_iff] at hc
  obtain ⟨c₀, hc₀, rfl⟩ := hc
  obtain ⟨d₀, hd₀, hload, hsettled⟩ := h.owner hc₀ hj
  refine ⟨⟨status j d₀, d₀.load⟩, ?_, hload, fun res hres => ?_⟩
  · rw [hcalls, hd₀, Option.map_some]
  · rcases hends j d₀ res hd₀ hload hres with hres₀ | hall
    · exact hstays k c₀ res hc₀ (hsettled res hres₀)
    · exact hall k c₀ hc₀ hj

/-- What becomes of the calls when the load of the call `i` ends. -/
def endStatus (i : ℕ) (res : Except ε (Option V)) (k : ℕ) (c : Call Q R D P ε V) : Status Q R D P ε V :=
  if i = k then .settled res else (State.notifyCall c res).status

theorem endStatus_cases (i : ℕ) (res : Except ε (Option V)) (k : ℕ) (c : Call Q R D P ε V) :
    endStatus i res k c = .settled res ∧ (i = k ∨ c.status = .waiting) ∨
      i ≠ k ∧ c.status ≠ .waiting ∧ endStatus i res k c = c.status := by
  unfold endStatus
  by_cases hik : i = k
  · simp [hik]
  · cases hstatus : c.status with
    | loading body => simp [hik, State.notifyCall, hstatus]
    | waiting => simp [hik, State.notifyCall, hstatus]
    | settled res' => simp [hik, State.notifyCall, hstatus]

theorem getElem?_settle (s : State Q R D P ε V) (i k : ℕ) (res : Except ε (Option V)) :
    ((s.notify res).settle i res).calls[k]? = (s.calls[k]?).map fun c => ⟨endStatus i res k c, c.load⟩ := by
  have hload : ∀ c : Call Q R D P ε V, (State.notifyCall c res).load = c.load := by
    intro c
    unfold State.notifyCall
    split
    · rfl
    · rfl
  change ((s.calls.map fun c => State.notifyCall c res).modify i _)[k]? = _
  rw [List.getElem?_modify, List.getElem?_map]
  cases s.calls[k]? with
  | none => rfl
  | some c =>
      by_cases hik : i = k
      · simp [endStatus, hik, hload]
      · simp [endStatus, hik, ← hload c]

/-- Calls that are settled are so when the load ends. -/
theorem Inv.endStatus_of_settled (h : Inv found s) (hi : s.load = some i) (res : Except ε (Option V)) {k : ℕ}
    {c : Call Q R D P ε V} {res' : Except ε (Option V)} (hc : s.calls[k]? = some c)
    (hsettled : c.status = .settled res') : endStatus i res k c = .settled res' := by
  rcases endStatus_cases i res k c with ⟨-, rfl | hwaiting⟩ | ⟨-, -, hsame⟩
  · obtain ⟨-, c₁, body, hc₁, -, hstatus, -⟩ := h.going hi
    obtain rfl : c₁ = c := Option.some.inj (hc₁.symm.trans hc)
    cases hstatus.symm.trans hsettled
  · cases hwaiting.symm.trans hsettled
  · exact hsame.trans hsettled

/-- The load ends with an outcome, after which `loaded` is what it published. -/
theorem Inv.settle (h : Inv found s) (hi : s.load = some i) {res : Except ε (Option V)} {loaded : Option V}
    (hold : ∀ value, s.loaded = some value → res = .ok (some value) ∧ loaded = some value)
    (hnew : ∀ value, loaded = some value → res = .ok (some value) ∧ found value = true)
    (hfound : ∀ value, res = .ok (some value) → found value = true → loaded = some value) :
    Inv found (({ s with loaded := loaded }.notify res).settle i res) := by
  have hcalls : ∀ k : ℕ, (({ s with loaded := loaded }.notify res).settle i res).calls[k]? =
      (s.calls[k]?).map fun c => ⟨endStatus i res k c, c.load⟩ := fun k => getElem?_settle _ i k res
  obtain ⟨-, c₁, body₁, hc₁, -, -, -⟩ := h.going hi
  refine ⟨h.emitter, fun hc hj => h.owner_of_status hcalls
    (fun k c res' hc hsettled => h.endStatus_of_settled hi res hc hsettled) (fun j d res' hd hload hres => ?_) hc hj,
    fun {k c} hc hwaiting => ?_, fun {k c body} hc hstatus => ?_, fun _ => rfl, nofun, nofun,
    fun {k c value} hc hstatus hvalue => ?_, fun {value} hvalue => ?_⟩
  · by_cases hij : i = j
    · refine .inr fun k c hc hload' => ?_
      obtain rfl : res = res' := by
        rw [endStatus, if_pos hij] at hres
        exact Status.settled.inj hres
      rcases endStatus_cases i res k c with ⟨hend, -⟩ | ⟨hik, hnot, hsame⟩
      · exact hend
      · rcases h.early hi hc (hij ▸ hload') with rfl | hwaiting | ⟨value, hvalue, hpublished⟩
        · exact absurd rfl hik
        · exact absurd hwaiting hnot
        · rw [hsame, hpublished, (hold value hvalue).1]
    · rcases endStatus_cases i res j d with ⟨-, rfl | hwaiting⟩ | ⟨-, -, hsame⟩
      · exact absurd rfl hij
      · -- a call that waits came during another load
        obtain ⟨j', hj', hload'⟩ := h.waits hd hwaiting
        obtain rfl : i = j' := Option.some.inj (hi.symm.trans hj')
        exact absurd (Option.some.inj (hload'.symm.trans hload)) hij
      · exact .inl (hsame.symm.trans hres)
  · rw [hcalls, Option.map_eq_some_iff] at hc
    obtain ⟨c₀, hc₀, rfl⟩ := hc
    rcases endStatus_cases i res k c₀ with ⟨hend, -⟩ | ⟨-, hnot, hsame⟩
    · cases hend.symm.trans hwaiting
    · exact absurd (hsame.symm.trans hwaiting) hnot
  · rw [hcalls, Option.map_eq_some_iff] at hc
    obtain ⟨c₀, hc₀, rfl⟩ := hc
    rcases endStatus_cases i res k c₀ with ⟨hend, -⟩ | ⟨hik, -, hsame⟩
    · cases hend.symm.trans hstatus
    · exact absurd (Option.some.inj (hi.symm.trans (h.loads hc₀ (hsame.symm.trans hstatus)))) hik
  · rw [hcalls, Option.map_eq_some_iff] at hc
    obtain ⟨c₀, hc₀, rfl⟩ := hc
    rcases endStatus_cases i res k c₀ with ⟨hend, -⟩ | ⟨-, -, hsame⟩
    · exact hfound value (Status.settled.inj (hend.symm.trans hstatus)) hvalue
    · exact (hold value (h.results hc₀ (hsame.symm.trans hstatus) hvalue)).2
  · obtain ⟨hres, hvalue⟩ := hnew value hvalue
    have hend := hcalls i
    rw [hc₁, Option.map_some, endStatus, if_pos rfl] at hend
    exact ⟨hvalue, fun _ => ⟨_, List.mem_of_getElem? hend, congrArg Status.settled hres⟩⟩

/-- The load goes on to its next `await`. -/
theorem Inv.await (h : Inv found s) (hi : s.load = some i) (hnone : s.loaded = none) {body : Body Q R D P ε V}
    {loaded : Option V} (hgoing : Going found loaded body) (queries : List (ℕ × Q)) :
    Inv found { s.setStatus i (.loading body) with queries := queries, loaded := loaded } := by
  obtain ⟨hloading, c₁, body₁, hc₁, hload₁, hstatus₁, -⟩ := h.going hi
  have hcalls : ∀ k : ℕ, (s.setStatus i (.loading body)).calls[k]? = (s.calls[k]?).map fun c =>
      ⟨if i = k then .loading body else c.status, c.load⟩ := by
    intro k
    change (s.calls.modify i _)[k]? = _
    rw [List.getElem?_modify]
    cases s.calls[k]? with
    | none => rfl
    | some c =>
        by_cases hik : i = k
        · simp [hik]
        · simp [hik]
  refine ⟨h.emitter, fun hc hj => h.owner_of_status hcalls (fun k c res hc hsettled => ?_)
    (fun j d res hd hload hres => ?_) hc hj, fun {k c} hc hwaiting => ?_, fun {k c body'} hc hstatus => ?_, h.idle,
    fun {j} hj => ?_, fun {j k c} hj hc hload => ?_, fun {k c value} hc hstatus hvalue => ?_, fun {value} hvalue => ?_⟩
  · split_ifs with hik
    · obtain rfl : c₁ = c := Option.some.inj (hc₁.symm.trans (hik ▸ hc))
      cases hstatus₁.symm.trans hsettled
    · exact hsettled
  · split_ifs at hres
    exact .inl hres
  · rw [hcalls, Option.map_eq_some_iff] at hc
    obtain ⟨c₀, hc₀, rfl⟩ := hc
    split_ifs at hwaiting
    obtain ⟨j, hj, hload⟩ := h.waits hc₀ (show c₀.status = .waiting from hwaiting)
    exact ⟨j, hj, hload⟩
  · rw [hcalls, Option.map_eq_some_iff] at hc
    obtain ⟨c₀, hc₀, rfl⟩ := hc
    split_ifs at hstatus with hik
    · exact hik ▸ hi
    · exact h.loads hc₀ hstatus
  · obtain rfl : i = j := Option.some.inj (hi.symm.trans hj)
    have hc := hcalls i
    rw [hc₁, Option.map_some, if_pos rfl] at hc
    exact ⟨hloading, _, body, hc, hload₁, rfl, hgoing⟩
  · rw [hcalls, Option.map_eq_some_iff] at hc
    obtain ⟨c₀, hc₀, rfl⟩ := hc
    obtain rfl : i = j := Option.some.inj (hi.symm.trans hj)
    rcases h.early hi hc₀ hload with hk | hwaiting | ⟨value, hvalue, -⟩
    · exact .inl hk
    · by_cases hik : i = k
      · exact .inl hik.symm
      · exact .inr (.inl ((if_neg hik).trans hwaiting))
    · cases hnone.symm.trans hvalue
  · rw [hcalls, Option.map_eq_some_iff] at hc
    obtain ⟨c₀, hc₀, rfl⟩ := hc
    split_ifs at hstatus
    cases hnone.symm.trans (h.results hc₀ hstatus hvalue)
  · refine ⟨?_, fun hload => by cases hi.symm.trans hload⟩
    rcases hgoing with ⟨hunloaded, -⟩ | ⟨value', next, hloaded, hfound, -⟩
    · cases hunloaded.symm.trans hvalue
    · exact Option.some.inj (hloaded.symm.trans hvalue) ▸ hfound

/-- An answer comes, and the code behind it runs. -/
theorem Inv.exec (l : Loader Q R D P ε V A) (h : Inv found s) (hi : s.load = some i) (hnone : s.loaded = none)
    {body : Body Q R D P ε V} (hbody : Proper found body) : Inv found (exec l i body s) := by
  have hold : ∀ res : Except ε (Option V), ∀ loaded : Option V, ∀ value, s.loaded = some value →
      res = .ok (some value) ∧ loaded = some value := by
    intro res loaded value hvalue
    cases hnone.symm.trans hvalue
  cases hbody with
  | query hnext =>
      rw [SharedLoad.exec]
      exact h.await hi hnone (.inl ⟨hnone, .query hnext⟩) _
  | parse hnext => exact h.await hi hnone (.inl ⟨hnone, .parse hnext⟩) _
  | @ends _ res hends hnot =>
      rw [exec_ends l i hends s h.emitter]
      refine h.settle hi (hold res _) (fun value hvalue => ?_) fun value hvalue hfound => ?_
      · cases hnone.symm.trans hvalue
      · rw [hnot value hvalue] at hfound
        cases hfound
  | @publish value _ hends hfound =>
      rw [SharedLoad.exec, exec_ends l i hends { s with loaded := some value } h.emitter]
      refine h.settle hi (hold _ _) (fun value' hvalue => ?_) fun value' hvalue _ => ?_
      · obtain rfl := Option.some.inj hvalue
        exact ⟨rfl, hfound⟩
      · exact Except.ok.inj hvalue
  | @publishResume value next hends hfound =>
      exact h.await hi hnone (.inr ⟨value, next, rfl, hfound, rfl, hends⟩) s.queries

/-- The code behind the value that was published. -/
theorem Inv.resume (l : Loader Q R D P ε V A) (h : Inv found s) (hi : s.load = some i) {value : V}
    (hvalue : s.loaded = some value) (hfound : found value = true) {body : Body Q R D P ε V}
    (hends : Ends body (.ok (some value))) : Inv found (SharedLoad.exec l i body s) := by
  rw [exec_ends l i hends s h.emitter]
  refine h.settle hi (fun value' hvalue' => ?_) (fun value' hvalue' => ?_) fun value' hvalue' _ => ?_
  · exact ⟨congrArg (fun v => Except.ok v) (hvalue.symm.trans hvalue'), hvalue'⟩
  · obtain rfl := Option.some.inj (hvalue.symm.trans hvalue')
    exact ⟨rfl, hfound⟩
  · exact hvalue.trans (Except.ok.inj hvalue')

/-- A call that has its result, or waits, joins the others. -/
theorem Inv.join (h : Inv found s) {c : Call Q R D P ε V} (hload : c.load = s.load)
    (hstatus : c.status = .waiting ∧ s.load.isSome = true ∨
      ∃ value, s.loaded = some value ∧ c.status = .settled (.ok (some value))) :
    Inv found { s with calls := s.calls ++ [c] } := by
  have hold : ∀ {k : ℕ} {d : Call Q R D P ε V}, s.calls[k]? = some d → (s.calls ++ [c])[k]? = some d := by
    intro k d hd
    rw [List.getElem?_append_left (List.getElem?_eq_some_iff.1 hd).1]
    exact hd
  have hnot : ∀ body, c.status ≠ .loading body := by
    rintro body hbody
    rcases hstatus with ⟨hwaiting, -⟩ | ⟨value, -, hsettled⟩
    · cases hwaiting.symm.trans hbody
    · cases hsettled.symm.trans hbody
  refine ⟨h.emitter, ?_, ?_, ?_, h.idle, ?_, ?_, ?_, ?_⟩
  · intro k j d hd hj
    rcases getElem?_concat_cases hd with hd | ⟨rfl, rfl⟩
    · obtain ⟨e, he, heload, hsettled⟩ := h.owner hd hj
      exact ⟨e, hold he, heload, hsettled⟩
    · obtain ⟨-, e, body, he, heload, hestatus, -⟩ := h.going (hload.symm.trans hj)
      refine ⟨e, hold he, heload, fun res hres => ?_⟩
      cases hestatus.symm.trans hres
  · intro k d hd hwaiting
    rcases getElem?_concat_cases hd with hd | ⟨rfl, rfl⟩
    · exact h.waits hd hwaiting
    · rcases hstatus with ⟨-, hsome⟩ | ⟨value, -, hsettled⟩
      · obtain ⟨j, hj⟩ := Option.isSome_iff_exists.1 hsome
        exact ⟨j, hj, hload.trans hj⟩
      · cases hsettled.symm.trans hwaiting
  · intro k d body hd hbody
    rcases getElem?_concat_cases hd with hd | ⟨rfl, rfl⟩
    · exact h.loads hd hbody
    · exact absurd hbody (hnot body)
  · intro j hj
    obtain ⟨hloading, d, body, hd, hdetails⟩ := h.going hj
    exact ⟨hloading, d, body, hold hd, hdetails⟩
  · intro j k d hj hd hdload
    rcases getElem?_concat_cases hd with hd | ⟨rfl, rfl⟩
    · exact h.early hj hd hdload
    · exact .inr (hstatus.imp And.left id)
  · intro k d value hd hvalue hfound
    rcases getElem?_concat_cases hd with hd | ⟨rfl, rfl⟩
    · exact h.results hd hvalue hfound
    · rcases hstatus with ⟨hwaiting, -⟩ | ⟨value', hloaded, hsettled⟩
      · cases hwaiting.symm.trans hvalue
      · cases hsettled.symm.trans hvalue
        exact hloaded
  · intro value hvalue
    obtain ⟨hfound, hsome⟩ := h.loaded hvalue
    refine ⟨hfound, fun hnone => ?_⟩
    obtain ⟨d, hd, hsettled⟩ := hsome hnone
    exact ⟨d, List.mem_append_left _ hd, hsettled⟩

/-- A call starts a load where none goes on. -/
theorem Inv.start (h : Inv found s) (hidle : s.load = none) (hnone : s.loaded = none) {body : Body Q R D P ε V}
    (hbody : Proper found body) : Inv found { s with
      calls := s.calls ++ [⟨.loading body, some s.calls.length⟩]
      loading := true
      load := some s.calls.length } := by
  have hold : ∀ {k : ℕ} {d e : Call Q R D P ε V}, s.calls[k]? = some d → (s.calls ++ [e])[k]? = some d := by
    intro k d e hd
    rw [List.getElem?_append_left (List.getElem?_eq_some_iff.1 hd).1]
    exact hd
  have hnew : (s.calls ++ [(⟨.loading body, some s.calls.length⟩ : Call Q R D P ε V)])[s.calls.length]? = some _ :=
    List.getElem?_concat_length
  refine ⟨h.emitter, ?_, ?_, ?_, nofun, ?_, ?_, ?_, ?_⟩
  · intro k j d hd hj
    rcases getElem?_concat_cases hd with hd | ⟨rfl, rfl⟩
    · obtain ⟨e, he, heload, hsettled⟩ := h.owner hd hj
      exact ⟨e, hold he, heload, hsettled⟩
    · obtain rfl := Option.some.inj hj
      exact ⟨_, hnew, rfl, fun res hres => by cases hres⟩
  · intro k d hd hwaiting
    rcases getElem?_concat_cases hd with hd | ⟨rfl, rfl⟩
    · obtain ⟨j, hj, -⟩ := h.waits hd hwaiting
      cases hidle.symm.trans hj
    · cases hwaiting
  · intro k d body' hd hstatus
    rcases getElem?_concat_cases hd with hd | ⟨rfl, -⟩
    · cases hidle.symm.trans (h.loads hd hstatus)
    · rfl
  · intro j hj
    obtain rfl := Option.some.inj hj
    exact ⟨rfl, _, body, hnew, rfl, rfl, .inl ⟨hnone, hbody⟩⟩
  · intro j k d hj hd hdload
    obtain rfl := Option.some.inj hj
    rcases getElem?_concat_cases hd with hd | ⟨rfl, -⟩
    · obtain ⟨e, he, -⟩ := h.owner hd hdload
      rw [List.getElem?_eq_none (Nat.le_refl _)] at he
      cases he
    · exact .inl rfl
  · intro k d value hd hvalue hfound
    rcases getElem?_concat_cases hd with hd | ⟨-, rfl⟩
    · exact h.results hd hvalue hfound
    · cases hvalue
  · intro value hvalue
    cases hnone.symm.trans hvalue

end

/-! ### Runs -/

theorem call_inv {l : Loader Q R D P ε V A} {found : V → Bool} (hl : l.Proper found) {s : State Q R D P ε V}
    (h : Inv found s) (a : A) : Inv found (call l s a) := by
  cases hloaded : s.loaded with
  | some value =>
      have hcall : call l s a = { s with calls := s.calls ++ [⟨.settled (.ok (some value)), s.load⟩] } := by
        rw [call, hloaded]
      rw [hcall]
      exact h.join (c := ⟨_, _⟩) rfl (.inr ⟨value, hloaded, rfl⟩)
  | none =>
      cases hload : s.load with
      | none =>
          have hcall : call l s a = exec l s.calls.length (l.body a) { s with
              calls := s.calls ++ [⟨.loading (l.body a), some s.calls.length⟩]
              loading := true
              load := some s.calls.length } := by
            rw [call, hloaded, h.idle hload]
            rfl
          rw [hcall]
          exact (h.start hload hloaded (hl.proper a)).exec l rfl hloaded (hl.proper a)
      | some j =>
          have hcall : call l s a = { s with calls := s.calls ++ [⟨.waiting, s.load⟩] } := by
            rw [call, hloaded, (h.going hload).1, h.emitter]
            rfl
          rw [hcall]
          exact h.join (c := ⟨_, _⟩) rfl (.inl ⟨rfl, by rw [hload]; rfl⟩)

theorem step_inv {l : Loader Q R D P ε V A} {found : V → Bool} (hl : l.Proper found) {s s' : State Q R D P ε V}
    {a : Action R P ε A} (h : Inv found s) (hs : step l s a = some s') : Inv found s' := by
  -- the call that gets the answer is the one whose load goes on
  have hgoing : ∀ {i : ℕ} {body : Body Q R D P ε V}, (s.calls[i]?).map Call.status = some (.loading body) →
      s.load = some i ∧ Going found s.loaded body := by
    intro i body hstatus
    obtain ⟨c, hc, hbody⟩ := Option.map_eq_some_iff.1 hstatus
    have hload := h.loads hc hbody
    obtain ⟨-, c', body', hc', -, hbody', hgoing⟩ := h.going hload
    obtain rfl : c = c' := Option.some.inj (hc.symm.trans hc')
    cases hbody.symm.trans hbody'
    exact ⟨hload, hgoing⟩
  cases a with
  | call a =>
      obtain rfl := Option.some.inj hs
      exact call_inv hl h a
  | reply i res =>
      rw [step] at hs
      split at hs
      · next request next hstatus =>
          obtain rfl := Option.some.inj hs
          obtain ⟨hload, ⟨hnone, hproper⟩ | ⟨value, next', -, -, hbody, -⟩⟩ := hgoing hstatus
          · cases hproper with
            | query hnext => exact h.exec l hload hnone (hnext res)
            | ends hends => cases hends
          · cases hbody
      · cases hs
  | parsed i res =>
      rw [step] at hs
      split at hs
      · next data next hstatus =>
          obtain rfl := Option.some.inj hs
          obtain ⟨hload, ⟨hnone, hproper⟩ | ⟨value, next', -, -, hbody, -⟩⟩ := hgoing hstatus
          · cases hproper with
            | parse hnext => exact h.exec l hload hnone (hnext res)
            | ends hends => cases hends
          · cases hbody
      · cases hs
  | resumed i =>
      rw [step] at hs
      split at hs
      · next next hstatus =>
          obtain rfl := Option.some.inj hs
          obtain ⟨hload, ⟨hnone, hproper⟩ | ⟨value, next', hvalue, hfound, hbody, hends⟩⟩ := hgoing hstatus
          · cases hproper with
            | ends hends => cases hends
          · obtain rfl := Body.resume.inj hbody
            exact h.resume l hload hvalue hfound hends
      · cases hs

/-- In every run with proper bodies, loads are shared. -/
theorem run_loads {l : Loader Q R D P ε V A} {found : V → Bool} (hl : l.Proper found) {s : State Q R D P ε V}
    {as : List (Action R P ε A)} (h : Run (step l) fresh as s) : Loads l found s :=
  Inv.loads_of hl (h.invariant (fresh_inv found) fun _ _ _ hP hs => step_inv hl hP hs)

end SharedLoad
