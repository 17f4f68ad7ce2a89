import CqlDriver.Lib.TransitionSystem

/-! # Connecting and shutting down (`lib/client.js`)

A `Client` keeps `connected`, `connecting`, `isShuttingDown` and the native session; `#connect` starts a
session unless one is being created, in which case its caller waits for the event `connected`.  A call runs
up to its first `await` when it is made; the other actions are the settlement of `createSession` with the
code behind that `await`, the continuation of a call behind its `await this.#connect()`, and the answer of
the native session to a query.  `ε` is the type of the errors of the native code, which are objects, so that
`if (err)` in `fromEvent` holds for each of them.

Two ghost fields say what a caller waits for: the attempts that were started, with their outcomes, and the
attempt of each call. -/

namespace CqlDriver

open TransitionSystem

variable {ε : Type}

inductive ClientError (ε : Type) where
  | native (err : ε)
  /-- `NoHostAvailableError`: "Connecting after shutdown is not supported" -/
  | connectAfterShutdown
  /-- parameters that are no array, or queries that are no array or an empty one -/
  | argument
  /-- `TypeError`, from a method call on the missing `rustClient` -/
  | noSession
deriving DecidableEq

/-- The methods of the client; `invalid` arguments are refused before the client connects. -/
inductive Kind where
  | connect
  /-- `rustyExecute` and `#rustyPaged` -/
  | execute (invalid : Bool)
  /-- `#rustyBatch` -/
  | batch (invalid : Bool)
  | shutdown
deriving DecidableEq

inductive Status (ε : Type) where
  /-- awaits `createSession` -/
  | creating
  /-- awaits the event `connected` -/
  | listening
  /-- what it awaited has settled, with `err` when it was rejected, and the continuation is queued -/
  | resuming (err : Option (ClientError ε))
  /-- the query is with the native session -/
  | querying
  | resolved
  | rejected (err : ClientError ε)
deriving DecidableEq

structure Call (ε : Type) where
  kind : Kind
  attempt : Option ℕ
  status : Status ε
deriving DecidableEq

/-- A call of `createSession`: who awaits it, and how it settled. -/
structure Attempt (ε : Type) where
  caller : ℕ
  outcome : Option (Option ε)
deriving DecidableEq

structure Client (ε : Type) where
  connected : Bool
  connecting : Bool
  isShuttingDown : Bool
  /-- the session of an attempt -/
  rustClient : Option ℕ
  /-- the calls whose listeners are registered with `once("connected")` -/
  listeners : List ℕ
  calls : List (Call ε)
  attempts : List (Attempt ε)
deriving DecidableEq

/-- The promise of `#connect` (or of `fromEvent`) settles: `connect` returns it, the others await it. -/
def Kind.settled : Kind → Option (ClientError ε) → Status ε
  | .connect, none => .resolved
  | .connect, some err => .rejected err
  | _, err => .resuming err

def Kind.isQuery : Kind → Bool
  | .execute _ => true
  | .batch _ => true
  | _ => false

namespace Client

def init : Client ε := ⟨false, false, false, none, [], [], []⟩

def push (s : Client ε) (c : Call ε) : Client ε := { s with calls := s.calls ++ [c] }

def setStatus (s : Client ε) (i : ℕ) (status : Status ε) : Client ε :=
  { s with calls := s.calls.modify i fun c => { c with status } }

/-- The promises of the calls in `waiting` settle. -/
def notify (s : Client ε) (waiting : List ℕ) (err : Option (ClientError ε)) : Client ε :=
  { s with calls := s.calls.mapIdx fun i c =>
      if i ∈ waiting then { c with status := c.kind.settled err } else c }

/-- `promiseUtils.fromEvent(this, "connected")`, called by a new call. -/
def fromEvent (s : Client ε) (kind : Kind) : Client ε :=
  { s.push ⟨kind, some (s.attempts.length - 1), .listening⟩ with listeners := s.listeners ++ [s.calls.length] }

/-- `emit("connected", err)` -/
def emit (s : Client ε) (err : Option (ClientError ε)) : Client ε :=
  { s.notify s.listeners err with listeners := [] }

/-- A new call sets `connecting` and awaits `createSession`. -/
def createSession (s : Client ε) (kind : Kind) : Client ε :=
  { s.push ⟨kind, some s.attempts.length, .creating⟩ with
    connecting := true
    attempts := s.attempts ++ [⟨s.calls.length, none⟩] }

/-- `#connect`, up to its first `await`. -/
def connect (s : Client ε) (kind : Kind) : Client ε :=
  if s.connected then s.push ⟨kind, none, kind.settled none⟩
  else if s.isShuttingDown then s.push ⟨kind, none, kind.settled (some .connectAfterShutdown)⟩
  else if s.connecting then s.fromEvent kind
  else s.createSession kind

/-- `#connect`, behind the `await` of `createSession`. -/
def settle (s : Client ε) (k caller : ℕ) (outcome : Option ε) : Client ε :=
  let s := { s with attempts := s.attempts.set k ⟨caller, some outcome⟩ }
  match outcome with
  | none =>
      ({ s with rustClient := some k, connected := true, connecting := false }.emit none).notify [caller] none
  | some err =>
      ({ s with connected := false, connecting := false }.emit (some (.native err))).notify [caller]
        (some (.native err))

/-- The query is given to the native session. -/
def query (s : Client ε) : Status ε :=
  match s.rustClient with
  | some _ => .querying
  | none => .rejected .noSession

/-- `#shutdown`, up to its first `await`. -/
def shutdown (s : Client ε) : Client ε :=
  if !s.connected then s.push ⟨.shutdown, none, .resolved⟩
  else if s.connecting then s.fromEvent .shutdown
  else { s.push ⟨.shutdown, none, .resolved⟩ with connected := false, isShuttingDown := true }

def call (s : Client ε) : Kind → Client ε
  | .connect => s.connect .connect
  | .execute true => s.push ⟨.execute true, none, .rejected .argument⟩
  | .execute false =>
      if !s.connected then s.connect (.execute false) else s.push ⟨.execute false, none, s.query⟩
  | .batch true => s.push ⟨.batch true, none, .rejected .argument⟩
  | .batch false => s.connect (.batch false)
  | .shutdown => s.shutdown

/-- The continuation of the call `i` behind its `await`. -/
def resume (s : Client ε) (i : ℕ) : Kind → Option (ClientError ε) → Client ε
  | _, some err => s.setStatus i (.rejected err)
  | .shutdown, none => { s.setStatus i .resolved with connected := false, isShuttingDown := true }
  | _, none => s.setStatus i s.query

inductive Action (ε : Type) where
  | call (kind : Kind)
  | settle (attempt : ℕ) (outcome : Option ε)
  | resume (i : ℕ)
  | answer (i : ℕ) (outcome : Option ε)
deriving DecidableEq

/-- A session is settled once, by an attempt that is in flight. -/
def step (s : Client ε) : Action ε → Option (Client ε)
  | .call kind => some (s.call kind)
  | .settle k outcome =>
      match s.attempts[k]? with
      | some ⟨caller, none⟩ => some (s.settle k caller outcome)
      | _ => none
  | .resume i =>
      match s.calls[i]? with
      | some ⟨kind, _, .resuming err⟩ => some (s.resume i kind err)
      | _ => none
  | .answer i outcome =>
      match s.calls[i]? with
      | some ⟨_, _, .querying⟩ =>
          some (s.setStatus i (match outcome with | none => .resolved | some err => .rejected (.native err)))
      | _ => none

/-! ### What holds in every state -/

/-- A call whose connection attempt has settled, rejected with `err` if there is one.  A query that was
connected is sent, and may still fail. -/
def Settled (c : Call ε) : Option (ClientError ε) → Prop
  | none =>
      if c.kind = .connect then c.status = .resolved
      else c.status = .resuming none ∨ c.status = .querying ∨ c.status = .resolved ∨ ∃ err, c.status = .rejected err
  | some err =>
      if c.kind = .connect then c.status = .rejected err
      else c.status = .resuming (some err) ∨ c.status = .rejected err

/-- The call `i` stands where its attempt puts it. -/
def Decides (a : Attempt ε) (i : ℕ) (c : Call ε) : Prop :=
  match a.outcome with
  | none => c.status = .listening ∨ c.status = .creating ∧ a.caller = i
  | some outcome => Settled c (outcome.map .native)

def Waits (c : Call ε) : Prop := c.status = .creating ∨ c.status = .listening

structure CallInv (attempts : List (Attempt ε)) (i : ℕ) (c : Call ε) : Prop where
  waits : Waits c → c.attempt ≠ none
  decided : ∀ k, c.attempt = some k → ∃ a, attempts[k]? = some a ∧ Decides a i c
  shutdown : c.kind = .shutdown → c.status = .resolved

structure Inv (s : Client ε) : Prop where
  /-- only the latest attempt is in flight, while the client is connecting -/
  inFlight : ∀ (k : ℕ) (a : Attempt ε), s.attempts[k]? = some a →
    (a.outcome = none ↔ s.connecting = true ∧ k + 1 = s.attempts.length)
  started : s.connecting = true → s.attempts ≠ []
  idle : s.connected = true → s.connecting = false
  session : s.connected = true → s.rustClient ≠ none
  shut : s.isShuttingDown = true → s.connected = false ∧ s.connecting = false
  listening : ∀ i, i ∈ s.listeners ↔ ∃ c, s.calls[i]? = some c ∧ c.status = .listening
  leader : ∀ (k : ℕ) (a : Attempt ε), s.attempts[k]? = some a → a.outcome = none →
    ∃ c, s.calls[a.caller]? = some c ∧ c.attempt = some k ∧ c.status = .creating
  calls : ∀ (i : ℕ) (c : Call ε), s.calls[i]? = some c → CallInv s.attempts i c

theorem Inv.init : Inv (init : Client ε) where
  inFlight := by simp [Client.init]
  started := by simp [Client.init]
  idle := by simp [Client.init]
  session := by simp [Client.init]
  shut := by simp [Client.init]
  listening := by simp [Client.init]
  leader := by simp [Client.init]
  calls := by simp [Client.init]

theorem getElem?_append_cases {α : Type} {xs : List α} {x y : α} {i : ℕ} (h : (xs ++ [x])[i]? = some y) :
    xs[i]? = some y ∨ i = xs.length ∧ y = x := by
  rw [List.getElem?_append] at h
  split_ifs at h with hlt
  · exact Or.inl h
  · obtain ⟨hi, rfl⟩ := List.getElem?_eq_some_iff.1 h
    simp only [List.length_singleton] at hi
    exact Or.inr ⟨by omega, by simp⟩

theorem getElem?_append_of_some {α : Type} {xs ys : List α} {y : α} {i : ℕ} (h : xs[i]? = some y) :
    (xs ++ ys)[i]? = some y := by
  rw [List.getElem?_append_left (List.getElem?_eq_some_iff.1 h).1, h]

/-- A call that waits for nothing is added. -/
theorem Inv.push {s : Client ε} (h : Inv s) {c : Call ε} (hwaits : ¬ Waits c) (hattempt : c.attempt = none)
    (hshut : c.kind = .shutdown → c.status = .resolved) : Inv (s.push c) where
  inFlight := h.inFlight
  started := h.started
  idle := h.idle
  session := h.session
  shut := h.shut
  listening := by
    intro i
    rw [show (s.push c).listeners = s.listeners from rfl, h.listening i]
    constructor
    · rintro ⟨c', hc', hl⟩
      exact ⟨c', getElem?_append_of_some hc', hl⟩
    · rintro ⟨c', hc', hl⟩
      obtain hc' | ⟨-, rfl⟩ := getElem?_append_cases hc'
      · exact ⟨c', hc', hl⟩
      · exact absurd (Or.inr hl) hwaits
  leader := by
    intro k a ha hnone
    obtain ⟨c', hc', hrest⟩ := h.leader k a ha hnone
    exact ⟨c', getElem?_append_of_some hc', hrest⟩
  calls := by
    intro i c' hc'
    obtain hc' | ⟨-, rfl⟩ := getElem?_append_cases hc'
    · exact h.calls i c' hc'
    · exact ⟨fun hw => absurd hw hwaits, by simp [hattempt], hshut⟩

theorem not_waits_settled (kind : Kind) (attempt : Option ℕ) (err : Option (ClientError ε)) :
    ¬ Waits ⟨kind, attempt, kind.settled err⟩ := by
  cases kind <;> cases err <;> simp [Waits, Kind.settled]

/-- A caller joins the attempt in flight. -/
theorem Inv.fromEvent {s : Client ε} (h : Inv s) (hconn : s.connecting = true) {kind : Kind}
    (hkind : kind ≠ .shutdown) : Inv (s.fromEvent kind) where
  inFlight := h.inFlight
  started := h.started
  idle := h.idle
  session := h.session
  shut := h.shut
  listening := by
    intro i
    simp only [Client.fromEvent, Client.push, List.mem_append, List.mem_singleton, h.listening i]
    constructor
    · rintro (⟨c', hc', hl⟩ | rfl)
      · exact ⟨c', getElem?_append_of_some hc', hl⟩
      · exact ⟨_, List.getElem?_concat_length, rfl⟩
    · rintro ⟨c', hc', hl⟩
      obtain hc' | ⟨rfl, -⟩ := getElem?_append_cases hc'
      · exact Or.inl ⟨c', hc', hl⟩
      · exact Or.inr rfl
  leader := by
    intro k a ha hnone
    obtain ⟨c', hc', hrest⟩ := h.leader k a ha hnone
    exact ⟨c', getElem?_append_of_some hc', hrest⟩
  calls := by
    intro i c' hc'
    obtain hc' | ⟨-, rfl⟩ := getElem?_append_cases hc'
    · exact h.calls i c' hc'
    · have hpos := List.length_pos_of_ne_nil (h.started hconn)
      obtain ⟨a, ha⟩ : ∃ a, s.attempts[s.attempts.length - 1]? = some a :=
        ⟨_, List.getElem?_eq_getElem (by omega)⟩
      have hnone := (h.inFlight _ a ha).2 ⟨hconn, by omega⟩
      refine ⟨by simp, ?_, fun hs => absurd hs hkind⟩
      rintro k hk
      obtain rfl : s.attempts.length - 1 = k := by simpa using hk
      exact ⟨a, ha, by simp [Decides, hnone]⟩

/-- A caller starts an attempt. -/
theorem Inv.createSession {s : Client ε} (h : Inv s) (hconn : s.connected = false)
    (hshut : s.isShuttingDown = false) (hconnecting : s.connecting = false) {kind : Kind}
    (hkind : kind ≠ .shutdown) : Inv (s.createSession kind) where
  inFlight := by
    intro k a ha
    simp only [Client.createSession, List.length_append, List.length_singleton]
    obtain ha | ⟨rfl, rfl⟩ := getElem?_append_cases ha
    · have hk := (List.getElem?_eq_some_iff.1 ha).1
      have := h.inFlight k a ha
      simp only [hconnecting, Bool.false_eq_true, false_and, iff_false] at this
      simp only [this, true_and, false_iff]
      omega
    · simp
  started := by simp [Client.createSession]
  idle := by simp [Client.createSession, Client.push, hconn]
  session := h.session
  shut := by simp [Client.createSession, Client.push, hshut]
  listening := by
    intro i
    rw [show (s.createSession kind).listeners = s.listeners from rfl, h.listening i]
    constructor
    · rintro ⟨c', hc', hl⟩
      exact ⟨c', getElem?_append_of_some hc', hl⟩
    · rintro ⟨c', hc', hl⟩
      obtain hc' | ⟨-, rfl⟩ := getElem?_append_cases hc'
      · exact ⟨c', hc', hl⟩
      · cases hl
  leader := by
    intro k a ha hnone
    obtain ha | ⟨rfl, rfl⟩ := getElem?_append_cases ha
    · have := (h.inFlight k a ha).1 hnone
      simp [hconnecting] at this
    · exact ⟨_, List.getElem?_concat_length, rfl, rfl⟩
  calls := by
    intro i c' hc'
    obtain hc' | ⟨rfl, rfl⟩ := getElem?_append_cases hc'
    · obtain ⟨hw, hd, hs⟩ := h.calls i c' hc'
      refine ⟨hw, fun k hk => ?_, hs⟩
      obtain ⟨a, ha, hdec⟩ := hd k hk
      exact ⟨a, getElem?_append_of_some ha, hdec⟩
    · refine ⟨by simp, ?_, fun hs => absurd hs hkind⟩
      rintro k hk
      obtain rfl : s.attempts.length = k := by simpa using hk
      exact ⟨_, List.getElem?_concat_length, Or.inr ⟨rfl, rfl⟩⟩

theorem Inv.connect {s : Client ε} (h : Inv s) {kind : Kind} (hkind : kind ≠ .shutdown) :
    Inv (s.connect kind) := by
  unfold Client.connect
  split_ifs with hconn hshut hconnecting
  · exact h.push (not_waits_settled _ _ _) rfl (fun hs => absurd hs hkind)
  · exact h.push (not_waits_settled _ _ _) rfl (fun hs => absurd hs hkind)
  · exact h.fromEvent hconnecting hkind
  · exact h.createSession (by simpa using hconn) (by simpa using hshut) (by simpa using hconnecting) hkind

theorem notify_notify (s : Client ε) (first second : List ℕ) (err : Option (ClientError ε)) :
    (s.notify first err).notify second err = s.notify (first ++ second) err := by
  simp only [notify, List.mapIdx_mapIdx]
  congr 2
  funext i c
  by_cases h₁ : i ∈ first <;> by_cases h₂ : i ∈ second <;> simp [h₁, h₂]

theorem settle_eq (s : Client ε) (k caller : ℕ) (outcome : Option ε) :
    s.settle k caller outcome =
      { s.notify (s.listeners ++ [caller]) (outcome.map .native) with
        connected := outcome.isNone
        connecting := false
        rustClient := if outcome.isNone then some k else s.rustClient
        listeners := []
        attempts := s.attempts.set k ⟨caller, some outcome⟩ } := by
  rw [← notify_notify]
  cases outcome <;> rfl

theorem getElem?_notify {s : Client ε} {waiting : List ℕ} {err : Option (ClientError ε)} {i : ℕ} {c : Call ε}
    (h : (s.notify waiting err).calls[i]? = some c) : ∃ c₀, s.calls[i]? = some c₀ ∧
      (i ∈ waiting ∧ c = { c₀ with status := c₀.kind.settled err } ∨ i ∉ waiting ∧ c = c₀) := by
  rw [notify, List.getElem?_mapIdx] at h
  obtain ⟨c₀, hc₀, rfl⟩ := Option.map_eq_some_iff.1 h
  refine ⟨c₀, hc₀, ?_⟩
  by_cases hi : i ∈ waiting
  · exact Or.inl ⟨hi, if_pos hi⟩
  · exact Or.inr ⟨hi, if_neg hi⟩

theorem settled_settled (kind : Kind) (attempt : Option ℕ) (err : Option (ClientError ε)) :
    Settled ⟨kind, attempt, kind.settled err⟩ err := by
  cases kind <;> cases err <;> simp [Settled, Kind.settled]

theorem Settled.not_waits {c : Call ε} {err : Option (ClientError ε)} (h : Settled c err) : ¬ Waits c := by
  intro hw
  cases err with
  | none =>
      simp only [Settled] at h
      split_ifs at h
      · rcases hw with hw | hw <;> simp [hw] at h
      · rcases hw with hw | hw <;> simp [hw] at h
  | some err =>
      simp only [Settled] at h
      split_ifs at h
      · rcases hw with hw | hw <;> simp [hw] at h
      · rcases hw with hw | hw <;> simp [hw] at h

/-- A call that waits does so for the latest attempt, which is in flight. -/
theorem Inv.waits {s : Client ε} (h : Inv s) {i : ℕ} {c : Call ε} (hc : s.calls[i]? = some c) (hw : Waits c) :
    ∃ k a, c.attempt = some k ∧ s.attempts[k]? = some a ∧ a.outcome = none ∧
      (c.status = .listening ∨ c.status = .creating ∧ a.caller = i) := by
  obtain ⟨hattempt, hdecided, -⟩ := h.calls i c hc
  obtain ⟨k, hk⟩ := Option.ne_none_iff_exists'.1 (hattempt hw)
  obtain ⟨a, ha, hdec⟩ := hdecided k hk
  unfold Decides at hdec
  split at hdec
  · exact ⟨k, a, hk, ha, ‹_›, hdec⟩
  · exact absurd hw hdec.not_waits

theorem Inv.inFlight_unique {s : Client ε} (h : Inv s) {j k : ℕ} {a b : Attempt ε} (hj : s.attempts[j]? = some a)
    (ha : a.outcome = none) (hk : s.attempts[k]? = some b) (hb : b.outcome = none) : j = k := by
  have hlast := ((h.inFlight j a hj).1 ha).2
  have hlast' := ((h.inFlight k b hk).1 hb).2
  omega

/-- The listeners and the caller of the attempt in flight wait for it. -/
theorem Inv.waits_of_notified {s : Client ε} (h : Inv s) {k caller : ℕ}
    (hk : s.attempts[k]? = some ⟨caller, none⟩) {i : ℕ} (hi : i ∈ s.listeners ++ [caller]) {c : Call ε}
    (hc : s.calls[i]? = some c) : Waits c := by
  rcases List.mem_append.1 hi with hi | hi
  · obtain ⟨c₁, hc₁, hl⟩ := (h.listening i).1 hi
    rw [hc] at hc₁
    cases hc₁
    exact Or.inr hl
  · obtain rfl : i = caller := by simpa using hi
    obtain ⟨c₁, hc₁, -, hcr⟩ := h.leader k _ hk rfl
    rw [hc] at hc₁
    cases hc₁
    exact Or.inl hcr

theorem Inv.calls_settle {s : Client ε} (h : Inv s) {k caller : ℕ} (hk : s.attempts[k]? = some ⟨caller, none⟩)
    (outcome : Option ε) {i : ℕ} {c : Call ε}
    (hc : (s.notify (s.listeners ++ [caller]) (outcome.map .native)).calls[i]? = some c) :
    CallInv (s.attempts.set k ⟨caller, some outcome⟩) i c := by
  have hklt := (List.getElem?_eq_some_iff.1 hk).1
  obtain ⟨c₀, hc₀, ⟨hi, rfl⟩ | ⟨hi, rfl⟩⟩ := getElem?_notify hc
  · have hwaits := h.waits_of_notified hk hi hc₀
    obtain ⟨j, a, hj, ha, hnone, -⟩ := h.waits hc₀ hwaits
    obtain rfl : j = k := h.inFlight_unique ha hnone hk rfl
    refine ⟨fun hw => absurd hw (not_waits_settled _ _ _), fun j' hj' => ?_, fun hshut => ?_⟩
    · rw [hj] at hj'
      cases hj'
      exact ⟨_, List.getElem?_set_self hklt, settled_settled _ _ _⟩
    · have := (h.calls i c₀ hc₀).shutdown hshut
      rcases hwaits with hw | hw <;> simp [hw] at this
  · obtain ⟨hw, hd, hs⟩ := h.calls i c hc₀
    refine ⟨hw, fun j hj => ?_, hs⟩
    obtain ⟨a, ha, hdec⟩ := hd j hj
    have hjk : k ≠ j := by
      rintro rfl
      rw [hk] at ha
      cases ha
      rcases hdec with hl | ⟨-, hcaller⟩
      · exact hi (List.mem_append_left _ ((h.listening i).2 ⟨c, hc₀, hl⟩))
      · exact hi (by simp [← hcaller])
    exact ⟨a, by rw [List.getElem?_set_ne hjk, ha], hdec⟩

/-- The attempt in flight settles: its callers are the one that started it and the listeners. -/
theorem Inv.settle {s : Client ε} (h : Inv s) {k caller : ℕ} (hk : s.attempts[k]? = some ⟨caller, none⟩)
    (outcome : Option ε) : Inv (s.settle k caller outcome) := by
  obtain ⟨hconn, -⟩ := (h.inFlight k _ hk).1 rfl
  have hidle : s.isShuttingDown = false := by
    by_contra hshut
    have := (h.shut (by simpa using hshut)).2
    simp [hconn] at this
  rw [settle_eq]
  constructor
  · intro j a ha
    simp only [Bool.false_eq_true, false_and, iff_false]
    rw [List.getElem?_set] at ha
    split_ifs at ha with hjk
    · cases ha
      simp
    · exact fun hnone => hjk (h.inFlight_unique hk rfl ha hnone)
  · simp
  · simp
  · intro hc
    have hnone : outcome.isNone = true := hc
    simp [hnone]
  · simp [notify, hidle]
  · intro i
    simp only [List.not_mem_nil, false_iff, not_exists, not_and]
    intro c hc hl
    obtain ⟨c₀, hc₀, ⟨-, rfl⟩ | ⟨hi, rfl⟩⟩ := getElem?_notify hc
    · exact not_waits_settled c₀.kind c₀.attempt _ (Or.inr hl)
    · exact hi (List.mem_append_left _ ((h.listening i).2 ⟨c, hc₀, hl⟩))
  · intro j a ha hnone
    rw [List.getElem?_set] at ha
    split_ifs at ha with hjk
    · cases ha
      cases hnone
    · exact absurd (h.inFlight_unique hk rfl ha hnone) hjk
  · exact fun i c hc => h.calls_settle hk outcome hc

theorem getElem?_setStatus {s : Client ε} {i j : ℕ} {status : Status ε} {c : Call ε}
    (h : (s.setStatus i status).calls[j]? = some c) : ∃ c₀, s.calls[j]? = some c₀ ∧
      (i = j ∧ c = { c₀ with status } ∨ i ≠ j ∧ c = c₀) := by
  rw [setStatus, List.getElem?_modify] at h
  obtain ⟨c₀, hc₀, rfl⟩ := Option.map_eq_some_iff.1 h
  refine ⟨c₀, hc₀, ?_⟩
  by_cases hi : i = j
  · exact Or.inl ⟨hi, if_pos hi⟩
  · exact Or.inr ⟨hi, if_neg hi⟩

theorem getElem?_setStatus_ne {s : Client ε} {i j : ℕ} (status : Status ε) (h : i ≠ j) :
    (s.setStatus i status).calls[j]? = s.calls[j]? := by
  rw [setStatus, List.getElem?_modify]
  simp [h]

/-- A call that is past its attempt moves on. -/
theorem Inv.setStatus {s : Client ε} (h : Inv s) {i : ℕ} {c : Call ε} {status : Status ε}
    (hi : s.calls[i]? = some c) (hold : ¬ Waits c) (hnew : ¬ Waits { c with status })
    (hshut : c.kind ≠ .shutdown)
    (hsettled : ∀ err, Settled c err → Settled { c with status } err) : Inv (s.setStatus i status) where
  inFlight := h.inFlight
  started := h.started
  idle := h.idle
  session := h.session
  shut := h.shut
  listening := by
    intro j
    rw [show (s.setStatus i status).listeners = s.listeners from rfl, h.listening j]
    by_cases hij : i = j
    · subst hij
      constructor
      · rintro ⟨c', hc', hl⟩
        rw [hi] at hc'
        cases hc'
        exact absurd (Or.inr hl) hold
      · rintro ⟨c', hc', hl⟩
        obtain ⟨c₀, hc₀, ⟨-, rfl⟩ | ⟨hne, -⟩⟩ := getElem?_setStatus hc'
        · rw [hi] at hc₀
          cases hc₀
          exact absurd (Or.inr hl) hnew
        · exact absurd rfl hne
    · rw [getElem?_setStatus_ne status hij]
  leader := by
    intro k a ha hnone
    obtain ⟨c', hc', hattempt, hcr⟩ := h.leader k a ha hnone
    have hne : i ≠ a.caller := by
      rintro rfl
      rw [hi] at hc'
      cases hc'
      exact hold (Or.inl hcr)
    exact ⟨c', by rw [getElem?_setStatus_ne status hne, hc'], hattempt, hcr⟩
  calls := by
    intro j c' hc'
    obtain ⟨c₀, hc₀, ⟨rfl, rfl⟩ | ⟨-, rfl⟩⟩ := getElem?_setStatus hc'
    · rw [hi] at hc₀
      cases hc₀
      obtain ⟨-, hd, -⟩ := h.calls i c hi
      refine ⟨fun hw => absurd hw hnew, fun k hk => ?_, fun hs => absurd hs hshut⟩
      obtain ⟨a, ha, hdec⟩ := hd k hk
      refine ⟨a, ha, ?_⟩
      unfold Decides at hdec ⊢
      split at hdec
      · exact absurd (hdec.elim Or.inr fun hcr => Or.inl hcr.1) hold
      · exact hsettled _ hdec
    · exact h.calls j c' hc₀

theorem not_waits_query (s : Client ε) (kind : Kind) (attempt : Option ℕ) :
    ¬ Waits ⟨kind, attempt, s.query⟩ := by
  unfold query
  split <;> simp [Waits]

theorem Inv.not_resuming {s : Client ε} (h : Inv s) {i : ℕ} {kind : Kind} {attempt : Option ℕ}
    {err : Option (ClientError ε)} (hi : s.calls[i]? = some ⟨kind, attempt, .resuming err⟩) :
    kind ≠ .shutdown := by
  intro hs
  have := (h.calls i _ hi).shutdown hs
  simp at this

theorem Inv.resume {s : Client ε} (h : Inv s) {i : ℕ} {kind : Kind} {attempt : Option ℕ}
    {err : Option (ClientError ε)} (hi : s.calls[i]? = some ⟨kind, attempt, .resuming err⟩) :
    Inv (s.resume i kind err) := by
  have hold : ¬ Waits (⟨kind, attempt, .resuming err⟩ : Call ε) := by simp [Waits]
  have hshut := h.not_resuming hi
  cases err with
  | some err =>
      have hres : s.resume i kind (some err) = s.setStatus i (.rejected err) := by cases kind <;> rfl
      rw [hres]
      apply h.setStatus hi hold (by simp [Waits]) hshut
      intro err' hsettled
      cases err' with
      | none => simp [Settled] at hsettled
      | some err' =>
          simp only [Settled, reduceCtorEq, if_false_left, or_false] at hsettled ⊢
          obtain ⟨hk, he⟩ := hsettled
          cases he
          simp [hk]
  | none =>
      have hres : s.resume i kind none = s.setStatus i s.query := by cases kind <;> first | rfl | contradiction
      rw [hres]
      apply h.setStatus hi hold (not_waits_query s kind attempt) hshut
      intro err' hsettled
      cases err' with
      | none =>
          simp only [Settled] at hsettled ⊢
          split_ifs at hsettled ⊢ with hk
          unfold query
          split <;> simp
      | some err' => simp [Settled] at hsettled

theorem Inv.answer {s : Client ε} (h : Inv s) {i : ℕ} {kind : Kind} {attempt : Option ℕ}
    (hi : s.calls[i]? = some ⟨kind, attempt, .querying⟩) (outcome : Option ε) :
    Inv (s.setStatus i (match outcome with | none => .resolved | some err => .rejected (.native err))) := by
  have hshut : kind ≠ .shutdown := by
    intro hs
    have := (h.calls i _ hi).shutdown hs
    simp at this
  apply h.setStatus hi (by simp [Waits]) (by cases outcome <;> simp [Waits]) hshut
  intro err hsettled
  cases err with
  | none =>
      simp only [Settled] at hsettled ⊢
      split_ifs at hsettled ⊢ with hk
      cases outcome <;> simp
  | some err => simp [Settled] at hsettled

theorem Inv.shutdown {s : Client ε} (h : Inv s) : Inv s.shutdown := by
  have hpush := h.push (c := ⟨.shutdown, none, .resolved⟩) (by simp [Waits]) rfl (fun _ => rfl)
  unfold Client.shutdown
  by_cases hconn : s.connected = true
  · rw [if_neg (by simp [hconn]), if_neg (by simp [h.idle hconn])]
    exact { hpush with
      idle := by simp
      session := by simp
      shut := by simpa [Client.push] using h.idle hconn }
  · rw [if_pos (by simpa using hconn)]
    exact hpush

theorem Inv.call {s : Client ε} (h : Inv s) (kind : Kind) : Inv (s.call kind) := by
  have hrefused : ∀ kind ≠ .shutdown, Inv (s.push ⟨kind, none, .rejected .argument⟩) := fun kind hk =>
    h.push (by simp [Waits]) rfl (fun hs => absurd hs hk)
  match kind with
  | .connect => exact h.connect (by simp)
  | .execute true => exact hrefused _ (by simp)
  | .execute false =>
      simp only [Client.call]
      split_ifs
      · exact h.connect (by simp)
      · exact h.push (not_waits_query s _ _) rfl (by simp)
  | .batch true => exact hrefused _ (by simp)
  | .batch false => exact h.connect (by simp)
  | .shutdown => exact h.shutdown

/-- What an action can do. -/
theorem step_cases {s s' : Client ε} {a : Action ε} (h : s.step a = some s') :
    (∃ kind, a = .call kind ∧ s' = s.call kind) ∨
    (∃ k caller outcome, a = .settle k outcome ∧ s.attempts[k]? = some ⟨caller, none⟩ ∧
      s' = s.settle k caller outcome) ∨
    (∃ i kind attempt err, a = .resume i ∧ s.calls[i]? = some ⟨kind, attempt, .resuming err⟩ ∧
      s' = s.resume i kind err) ∨
    ∃ i kind attempt outcome, a = .answer i outcome ∧ s.calls[i]? = some ⟨kind, attempt, .querying⟩ ∧
      s' = s.setStatus i (match outcome with | none => .resolved | some err => .rejected (.native err)) := by
  cases a with
  | call kind => exact Or.inl ⟨kind, rfl, (Option.some.inj h).symm⟩
  | settle k outcome =>
      simp only [step] at h
      split at h
      · exact Or.inr (Or.inl ⟨k, _, outcome, rfl, ‹_›, (Option.some.inj h).symm⟩)
      · cases h
  | resume i =>
      simp only [step] at h
      split at h
      · exact Or.inr (Or.inr (Or.inl ⟨i, _, _, _, rfl, ‹_›, (Option.some.inj h).symm⟩))
      · cases h
  | answer i outcome =>
      simp only [step] at h
      split at h
      · exact Or.inr (Or.inr (Or.inr ⟨i, _, _, outcome, rfl, ‹_›, (Option.some.inj h).symm⟩))
      · cases h

theorem Inv.step {s s' : Client ε} {a : Action ε} (h : Inv s) (hs : s.step a = some s') : Inv s' := by
  obtain ⟨kind, -, rfl⟩ | ⟨k, caller, outcome, -, hk, rfl⟩ | ⟨i, kind, attempt, err, -, hi, rfl⟩ |
    ⟨i, kind, attempt, outcome, -, hi, rfl⟩ := step_cases hs
  · exact h.call kind
  · exact h.settle hk outcome
  · exact h.resume hi
  · exact h.answer hi outcome

theorem Inv.of_run {s : Client ε} {as : List (Action ε)} (h : Run Client.step Client.init as s) : Inv s :=
  h.invariant Inv.init fun _ _ _ hi hs => hi.step hs

/-! ### Connecting -/

theorem isShuttingDown_connect (s : Client ε) (kind : Kind) :
    (s.connect kind).isShuttingDown = s.isShuttingDown := by
  unfold connect
  split_ifs <;> rfl

theorem isShuttingDown_call (s : Client ε) {kind : Kind} (hkind : kind ≠ .shutdown) :
    (s.call kind).isShuttingDown = s.isShuttingDown := by
  match kind with
  | .connect => exact isShuttingDown_connect s _
  | .execute true => rfl
  | .execute false =>
      simp only [call]
      split_ifs
      · exact isShuttingDown_connect s _
      · rfl
  | .batch true => rfl
  | .batch false => exact isShuttingDown_connect s _
  | .shutdown => exact absurd rfl hkind

/-- Only `shutdown` sets `isShuttingDown`. -/
theorem isShuttingDown_step {s s' : Client ε} {a : Action ε} (h : Inv s) (ha : a ≠ .call .shutdown)
    (hs : s.step a = some s') : s'.isShuttingDown = s.isShuttingDown := by
  obtain ⟨kind, rfl, rfl⟩ | ⟨k, caller, outcome, -, -, rfl⟩ | ⟨i, kind, attempt, err, -, hi, rfl⟩ |
    ⟨i, kind, attempt, outcome, -, -, rfl⟩ := step_cases hs
  · exact isShuttingDown_call s (by simpa using ha)
  · rw [settle_eq]
    rfl
  · have hshut := h.not_resuming hi
    cases err <;> cases kind <;> first | rfl | contradiction
  · rfl

theorem not_isShuttingDown_of_run {s : Client ε} {as : List (Action ε)} (h : Run step init as s)
    (hno : Action.call .shutdown ∉ as) : s.isShuttingDown = false := by
  have hQ : ∀ a ∈ as, a ≠ Action.call .shutdown := fun a ha he => hno (he ▸ ha)
  have hP := h.invariant_of (P := fun s => Inv s ∧ s.isShuttingDown = false) hQ ⟨Inv.init, rfl⟩
    fun s₁ a s₂ ha hi hs => ⟨hi.1.step hs, by rw [isShuttingDown_step hi.1 ha hs, hi.2]⟩
  exact hP.2

/-- Without a shutdown, one session is created at a time; a connected client has a session; the callers of an
attempt wait exactly while it is in flight and then all succeed or all fail with it; and when an attempt has
failed, nothing is in flight and a later `connect` starts another one. -/
theorem connect_callers_agree {s : Client ε} {as : List (Action ε)} (h : Run step init as s)
    (hno : Action.call .shutdown ∉ as) :
    (∀ (j k : ℕ) (a b : Attempt ε), s.attempts[j]? = some a → s.attempts[k]? = some b →
      a.outcome = none → b.outcome = none → j = k) ∧
    (s.connected = true → s.rustClient ≠ none) ∧
    (∀ (i : ℕ) (c : Call ε), s.calls[i]? = some c → Waits c → c.attempt ≠ none) ∧
    (∀ (i : ℕ) (c : Call ε) (k : ℕ), s.calls[i]? = some c → c.attempt = some k →
      ∃ a, s.attempts[k]? = some a ∧ (a.outcome = none ↔ Waits c) ∧
        ∀ outcome, a.outcome = some outcome → Settled c (outcome.map .native)) ∧
    (∀ (k : ℕ) (err : ε) (s' : Client ε), s.step (.settle k (some err)) = some s' →
      s'.connected = false ∧ (∀ a ∈ s'.attempts, a.outcome ≠ none)) ∧
    (s.connected = false → (∀ a ∈ s.attempts, a.outcome ≠ none) →
      s.step (.call .connect) = some (s.createSession .connect)) := by
  have hinv := Inv.of_run h
  refine ⟨?_, hinv.session, fun i c hc => (hinv.calls i c hc).waits, ?_, ?_, ?_⟩
  · intro j k a b hj hk ha hb
    exact hinv.inFlight_unique hj ha hk hb
  · intro i c k hc hk
    obtain ⟨a, ha, hdec⟩ := (hinv.calls i c hc).decided k hk
    refine ⟨a, ha, ?_, ?_⟩
    · unfold Decides at hdec
      split at hdec
      · exact iff_of_true ‹_› (hdec.elim Or.inr fun hcr => Or.inl hcr.1)
      · next hout => exact iff_of_false (by simp [hout]) hdec.not_waits
    · intro outcome hout
      simpa only [Decides, hout] using hdec
  · intro k err s' hs
    obtain ⟨_, ha, -⟩ | ⟨k', caller, outcome, ha, hk, rfl⟩ | ⟨_, _, _, _, ha, -⟩ | ⟨_, _, _, _, ha, -⟩ :=
      step_cases hs
    · cases ha
    · cases ha
      have hset := hinv.settle hk (some err)
      rw [settle_eq] at hset ⊢
      refine ⟨rfl, fun a ha hnone => ?_⟩
      obtain ⟨j, hj⟩ := List.getElem?_of_mem ha
      have := (hset.inFlight j a hj).1 hnone
      simp at this
    · cases ha
    · cases ha
  · intro hconn hidle
    have hconnecting : s.connecting = false := by
      by_contra hc
      have hc : s.connecting = true := by simpa using hc
      have hpos := List.length_pos_of_ne_nil (hinv.started hc)
      have hlast := List.getElem?_eq_getElem (l := s.attempts) (i := s.attempts.length - 1) (by omega)
      exact hidle _ (List.getElem_mem _) ((hinv.inFlight _ _ hlast).2 ⟨hc, by omega⟩)
    have hshut := not_isShuttingDown_of_run h hno
    simp [step, call, connect, hconn, hshut, hconnecting]

/-- Two callers and a query share an attempt that fails; the next caller starts another one. -/
def failedAttempt : List (Action ℕ) :=
  [.call .connect, .call (.execute false), .call .connect, .settle 0 (some 7), .call .connect]

theorem failedAttempt_run : ∃ s : Client ℕ, Run step init failedAttempt s ∧
    s.calls.map Call.status =
      [.rejected (.native 7), .resuming (some (.native 7)), .rejected (.native 7), .creating] := by
  have hexec : (exec step init failedAttempt).map (fun s => s.calls.map Call.status) = some
      [.rejected (.native 7), .resuming (some (.native 7)), .rejected (.native 7), .creating] := by
    decide +kernel
  obtain ⟨s, hs, hstatus⟩ := Option.map_eq_some_iff.1 hexec
  exact ⟨s, .of_exec hs, hstatus⟩

theorem connect_callers_agree_failedAttempt : ∃ s : Client ℕ, Run step init failedAttempt s ∧
    Action.call .shutdown ∉ failedAttempt ∧ s.calls.map Call.status =
      [.rejected (.native 7), .resuming (some (.native 7)), .rejected (.native 7), .creating] ∧
    ∀ (j k : ℕ) (a b : Attempt ℕ), s.attempts[j]? = some a → s.attempts[k]? = some b →
      a.outcome = none → b.outcome = none → j = k := by
  obtain ⟨s, hrun, hstatus⟩ := failedAttempt_run
  have hno : Action.call .shutdown ∉ failedAttempt := by decide
  exact ⟨s, hrun, hno, hstatus, (connect_callers_agree hrun hno).1⟩

/-! ### Shutting down -/

/-- The promise of the call is rejected, at the latest by its queued continuation. -/
def Rejects (c : Call ε) : Prop := (∃ err, c.status = .rejected err) ∨ ∃ err, c.status = .resuming (some err)

/-- However the program goes on from `s`, the client is not connected and every query started from then on is
rejected. -/
def StaysShut (s : Client ε) : Prop :=
  ∀ (as : List (Action ε)) (s' : Client ε), Run step s as s' →
    s'.connected = false ∧
      ∀ (i : ℕ) (c : Call ε), s.calls.length ≤ i → s'.calls[i]? = some c → c.kind.isQuery = true → Rejects c

/-- After a shutdown that took effect, with `n` calls made until then. -/
structure Shut (n : ℕ) (s : Client ε) : Prop where
  inv : Inv s
  shutting : s.isShuttingDown = true
  made : n ≤ s.calls.length
  queries : ∀ (i : ℕ) (c : Call ε), n ≤ i → s.calls[i]? = some c → c.kind.isQuery = true → Rejects c

theorem Shut.push {n : ℕ} {s : Client ε} (h : Shut n s) {c : Call ε} (hinv : Inv (s.push c))
    (hc : c.kind.isQuery = true → Rejects c) : Shut n (s.push c) where
  inv := hinv
  shutting := h.shutting
  made := by
    have := h.made
    simp only [Client.push, List.length_append]
    omega
  queries := by
    intro i c' hi hc' hquery
    obtain hc' | ⟨-, rfl⟩ := getElem?_append_cases hc'
    · exact h.queries i c' hi hc' hquery
    · exact hc hquery

theorem Shut.call {n : ℕ} {s : Client ε} (h : Shut n s) (kind : Kind) : Shut n (s.call kind) := by
  have hinv := h.inv.call kind
  have hconn := (h.inv.shut h.shutting).1
  have hconnect (kind : Kind) :
      s.connect kind = s.push ⟨kind, none, kind.settled (some .connectAfterShutdown)⟩ := by
    simp [Client.connect, hconn, h.shutting]
  match kind with
  | .connect =>
      simp only [Client.call, hconnect] at hinv ⊢
      exact h.push hinv (by simp [Kind.isQuery])
  | .execute true => exact h.push hinv fun _ => Or.inl ⟨_, rfl⟩
  | .execute false =>
      simp only [Client.call, hconn, hconnect, Bool.not_false, if_true] at hinv ⊢
      exact h.push hinv fun _ => Or.inr ⟨_, rfl⟩
  | .batch true => exact h.push hinv fun _ => Or.inl ⟨_, rfl⟩
  | .batch false =>
      simp only [Client.call, hconnect] at hinv ⊢
      exact h.push hinv fun _ => Or.inr ⟨_, rfl⟩
  | .shutdown =>
      simp only [Client.call, Client.shutdown, hconn, Bool.not_false, if_true] at hinv ⊢
      exact h.push hinv (by simp [Kind.isQuery])

theorem Shut.setStatus {n : ℕ} {s : Client ε} (h : Shut n s) {i : ℕ} {c : Call ε} {status : Status ε}
    (hi : s.calls[i]? = some c) (hinv : Inv (s.setStatus i status))
    (hc : Rejects c → Rejects { c with status }) : Shut n (s.setStatus i status) where
  inv := hinv
  shutting := h.shutting
  made := by simpa [Client.setStatus] using h.made
  queries := by
    intro j c' hj hc' hquery
    obtain ⟨c₀, hc₀, ⟨rfl, rfl⟩ | ⟨-, rfl⟩⟩ := getElem?_setStatus hc'
    · rw [hi] at hc₀
      cases hc₀
      exact hc (h.queries i c hj hi hquery)
    · exact h.queries j c' hj hc₀ hquery

theorem Shut.step {n : ℕ} {s s' : Client ε} {a : Action ε} (h : Shut n s) (hs : s.step a = some s') :
    Shut n s' := by
  have hinv := h.inv.step hs
  obtain ⟨kind, rfl, rfl⟩ | ⟨k, caller, outcome, -, hk, -⟩ | ⟨i, kind, attempt, err, -, hi, rfl⟩ |
    ⟨i, kind, attempt, outcome, -, hi, rfl⟩ := step_cases hs
  · exact h.call kind
  · have := (h.inv.inFlight k _ hk).1 rfl
    simp [(h.inv.shut h.shutting).2] at this
  · have hshut := h.inv.not_resuming hi
    cases err with
    | some err =>
        have hres : s.resume i kind (some err) = s.setStatus i (.rejected err) := by cases kind <;> rfl
        rw [hres] at hinv ⊢
        exact h.setStatus hi hinv fun _ => Or.inl ⟨err, rfl⟩
    | none =>
        have hres : s.resume i kind none = s.setStatus i s.query := by
          cases kind <;> first | rfl | contradiction
        rw [hres] at hinv ⊢
        exact h.setStatus hi hinv (by simp [Rejects])
  · exact h.setStatus hi hinv (by simp [Rejects])

/-- A shutdown is lasting as soon as it took effect. -/
theorem Shut.staysShut {s : Client ε} (h : Shut s.calls.length s) : StaysShut s := by
  intro as s' hrun
  have hshut := hrun.invariant (P := Shut s.calls.length) h fun _ _ _ hi hs => hi.step hs
  exact ⟨(hshut.inv.shut hshut.shutting).1, hshut.queries⟩

/-- A client that is neither connected nor shut down connects in the next attempt. -/
theorem exists_run_connected {s : Client ε} (h : Inv s) (hconn : s.connected = false)
    (hshut : s.isShuttingDown = false) :
    ∃ as s', Run step s as s' ∧ s'.connected = true := by
  have hlast : ∃ (as : List (Action ε)) (k caller : ℕ) (s₁ : Client ε), Run step s as s₁ ∧
      s₁.attempts[k]? = some ⟨caller, none⟩ := by
    by_cases hconnecting : s.connecting = true
    · have hpos := List.length_pos_of_ne_nil (h.started hconnecting)
      have hk := List.getElem?_eq_getElem (l := s.attempts) (i := s.attempts.length - 1) (by omega)
      have hnone := (h.inFlight _ _ hk).2 ⟨hconnecting, by omega⟩
      exact ⟨[], s.attempts.length - 1, _, s, .nil s, hk.trans (by rw [← hnone])⟩
    · refine ⟨[.call .connect], s.attempts.length, s.calls.length, s.createSession .connect, ?_, ?_⟩
      · refine .of_exec ?_
        simp [exec, step, call, connect, hconn, hshut, hconnecting]
      · exact List.getElem?_concat_length
  obtain ⟨as, k, caller, s₁, hrun, hk⟩ := hlast
  refine ⟨as ++ [.settle k none], s₁.settle k caller none, hrun.snoc ?_, by rw [settle_eq]; rfl⟩
  simp [step, hk]

/-- The promise of `shutdown` resolves in the call, and the client stays shut from then on exactly when it was
connected, or had been shut down before. -/
theorem staysShut_shutdown_iff {s s₁ : Client ε} {as : List (Action ε)} (h : Run step init as s)
    (hs : s.step (.call .shutdown) = some s₁) :
    s₁.calls[s.calls.length]? = some ⟨.shutdown, none, .resolved⟩ ∧
      (StaysShut s₁ ↔ s.connected = true ∨ s.isShuttingDown = true) := by
  have hinv := Inv.of_run h
  have hinv₁ := hinv.step hs
  obtain rfl : s.shutdown = s₁ := Option.some.inj hs
  have hpushed : s.shutdown.calls = s.calls ++ [⟨.shutdown, none, .resolved⟩] := by
    unfold shutdown
    by_cases hconn : s.connected = true
    · simp [hconn, hinv.idle hconn, push]
    · simp [hconn, push]
  refine ⟨by rw [hpushed, List.getElem?_concat_length], ?_⟩
  constructor
  · intro hstays
    by_contra hopen
    obtain ⟨hconn, hshut⟩ : s.connected = false ∧ s.isShuttingDown = false := by simpa using hopen
    have hsame : s.shutdown = s.push ⟨.shutdown, none, .resolved⟩ := by simp [shutdown, hconn]
    rw [hsame] at hstays hinv₁
    obtain ⟨bs, s₂, hrun, hconnected⟩ := exists_run_connected hinv₁ hconn hshut
    have := (hstays bs s₂ hrun).1
    simp [hconnected] at this
  · intro hopen
    apply Shut.staysShut
    refine ⟨hinv₁, ?_, le_rfl, fun i c hi hc => ?_⟩
    · by_cases hconn : s.connected = true
      · simp [shutdown, hconn, hinv.idle hconn]
      · have hshut := hopen.resolve_left hconn
        simp [shutdown, hconn, push, hshut]
    · have := (List.getElem?_eq_some_iff.1 hc).1
      omega

/-- A client that connects and is shut down. -/
theorem staysShut_connected : ∃ s s₁ : Client ℕ, Run step init [.call .connect, .settle 0 none] s ∧
    s.step (.call .shutdown) = some s₁ ∧ s.connected = true ∧ StaysShut s₁ := by
  have hexec : (exec step (init : Client ℕ) [.call .connect, .settle 0 none]).map Client.connected =
      some true := by decide +kernel
  obtain ⟨s, hs, hconn⟩ := Option.map_eq_some_iff.1 hexec
  have hrun := Run.of_exec hs
  exact ⟨s, s.shutdown, hrun, rfl, hconn, ((staysShut_shutdown_iff hrun rfl).2).2 (Or.inl hconn)⟩

/-- A shutdown while the session is being created resolves without effect: the client becomes connected and a
query that is started afterwards succeeds. -/
theorem not_staysShut_connecting : ∃ s s₁ s₂ : Client ℕ, Run step init [.call .connect] s ∧
    s.step (.call .shutdown) = some s₁ ∧ s₁.calls[1]? = some ⟨.shutdown, none, .resolved⟩ ∧
    Run step s₁ [.settle 0 none, .call (.execute false), .answer 2 none] s₂ ∧ s₂.connected = true ∧
    s₂.calls[2]? = some ⟨.execute false, none, .resolved⟩ ∧ ¬ StaysShut s₁ := by
  have hexec : (exec step (init : Client ℕ) [.call .connect]) = some (init.call .connect) := rfl
  have hshut : (init.call .connect : Client ℕ).step (.call .shutdown) = some (init.call .connect).shutdown := rfl
  have hafter : (exec step (init.call .connect : Client ℕ).shutdown
      [.settle 0 none, .call (.execute false), .answer 2 none]).map (fun s => (s.connected, s.calls[2]?)) =
      some (true, some ⟨.execute false, none, .resolved⟩) := by decide +kernel
  obtain ⟨s₂, hs₂, hobs⟩ := Option.map_eq_some_iff.1 hafter
  obtain ⟨hconn, hquery⟩ := Prod.mk.inj hobs
  refine ⟨_, _, s₂, .of_exec hexec, hshut, by decide +kernel, .of_exec hs₂, hconn, hquery, ?_⟩
  intro hstays
  have := (hstays _ _ (.of_exec hs₂)).1
  simp [hconn] at this

end Client
end CqlDriver
