import CqlDriver.Lib.WorkPool

/-! # Control flow over callbacks (`lib/utils.js`)

The functions that call a function for each item of an array, or for each number below a count, and report to one
callback.  A call may be answered at any time: while the loop that made it still runs, in the call itself, or later.
The actions of the models are the passes of a loop, the answers and the ticks of `process.nextTick`, in any order; no
call is answered twice.  All of them run a pool (`WorkPool`): for every item one call is made, no more of them are
pending than the limit says, and the callback is called once. -/

namespace CqlDriver.ControlFlow

open TransitionSystem WorkPool

variable {R E : Type}

/-! ### The callback -/

/-- The variable `callback`, which is a function without effect after an error, and the calls made of the callback. -/
structure Callback (R E : Type) where
  live : Bool
  reports : List (Except E R)

namespace Callback

def call (c : Callback R E) (r : Except E R) : Callback R E :=
  if c.live then { c with reports := c.reports ++ [r] } else c

/-- `const cb = callback; callback = noop; cb(err);` -/
def fail (c : Callback R E) (err : E) : Callback R E := { c.call (.error err) with live := false }

/-- The callback gets the first error, or the result once every call has succeeded. -/
def reportsOf (count : ℕ) (c : Calls E) (result : R) : List (Except E R) :=
  match c.failed with
  | (_, err) :: _ => [.error err]
  | [] => if c.succeeded.length = count then [.ok result] else []

/-- What the callback has got belongs to the answers of the calls. -/
structure Fits (count : ℕ) (calls : Calls E) (result : R) (c : Callback R E) : Prop where
  live_eq : c.live = calls.failed.isEmpty
  reports_eq : c.reports = reportsOf count calls result

variable {count k : ℕ} {calls : Calls E} {result result' : R} {c : Callback R E}

theorem Fits.start (h : Fits count calls result c) : Fits count (calls.start k) result c := ⟨h.live_eq, h.reports_eq⟩

theorem Fits.fail (h : Fits count calls result c) (hlt : calls.succeeded.length < count) (err : E) :
    Fits count (calls.answer k (some err)) result' (c.fail err) := by
  obtain ⟨hlive, hreports⟩ := h
  cases hfailed : calls.failed with
  | nil => constructor <;> simp [Callback.fail, call, hlive, hreports, reportsOf, Calls.answer, hfailed, hlt.ne]
  | cons first rest => constructor <;> simp [Callback.fail, call, hlive, hreports, reportsOf, Calls.answer, hfailed]

/-- The last success. -/
theorem Fits.call (h : Fits count calls result c) (hall : calls.succeeded.length + 1 = count) :
    Fits count (calls.answer k none) result' (c.call (.ok result')) := by
  obtain ⟨hlive, hreports⟩ := h
  have hne : calls.succeeded.length ≠ count := by omega
  cases hfailed : calls.failed with
  | nil => constructor <;> simp [Callback.call, hlive, hreports, reportsOf, Calls.answer, hfailed, hne, hall]
  | cons first rest => constructor <;> simp [Callback.call, hlive, hreports, reportsOf, Calls.answer, hfailed]

theorem Fits.skip (h : Fits count calls result c) (hlt : calls.succeeded.length + 1 < count) :
    Fits count (calls.answer k none) result' c := by
  obtain ⟨hlive, hreports⟩ := h
  cases hfailed : calls.failed with
  | nil =>
      constructor <;> simp [hlive, hreports, reportsOf, Calls.answer, hfailed, hlt.ne, (Nat.lt_of_succ_lt hlt).ne]
  | cons first rest => constructor <;> simp [hlive, hreports, reportsOf, Calls.answer, hfailed]

theorem eq_of_ok_mem {r : R} (h : .ok r ∈ reportsOf count calls result) :
    calls.failed = [] ∧ calls.succeeded.length = count ∧ r = result := by
  unfold reportsOf at h
  split at h
  · simp at h
  · next hfailed =>
      split_ifs at h with hall
      · simp only [List.mem_singleton, Except.ok.injEq] at h
        exact ⟨hfailed, hall, h⟩
      · simp at h

end Callback

theorem succeeded_lt {count limit k : ℕ} {p : Pool E} (h : Inv count limit p) (hk : k ∈ p.calls.pending) :
    p.calls.succeeded.length < count := by
  have hcard := h.card_eq
  have hclaimed := h.claimed_eq
  have hpending := List.length_pos_of_mem hk
  omega

/-- The array `result` of a function, with the values that its calls were answered with, in order. -/
structure Results (T : Type) where
  result : ℕ → Option T
  values : List (ℕ × T)

namespace Results

variable {T : Type}

def empty : Results T := ⟨fun _ => none, []⟩

def set (r : Results T) (k : ℕ) (transformed : T) : Results T :=
  ⟨Function.update r.result k (some transformed), r.values ++ [(k, transformed)]⟩

structure Fits (calls : Calls E) (r : Results T) : Prop where
  values_eq : ((r.values.map Prod.fst : List ℕ) : Multiset ℕ) =
    (calls.succeeded : Multiset ℕ) + (calls.failed.map Prod.fst : List ℕ)
  result_eq : ∀ k v, (k, v) ∈ r.values → r.result k = some v

variable {count limit k : ℕ} {p : Pool E} {calls : Calls E} {r : Results T}

/-- A call that is pending has not been answered. -/
theorem Fits.not_mem (h : Fits p.calls r) (hinv : Inv count limit p) (hk : k ∈ p.calls.pending) :
    k ∉ r.values.map Prod.fst := by
  have hnodup := Multiset.nodup_range p.claimed
  rw [← hinv.places, Calls.items, add_assoc, Multiset.nodup_add, Multiset.nodup_add] at hnodup
  intro hmem
  have hanswered : k ∈ ((r.values.map Prod.fst : List ℕ) : Multiset ℕ) := hmem
  rw [h.values_eq] at hanswered
  exact Multiset.disjoint_left.1 hnodup.2.1.2.2 hk hanswered

theorem Fits.set (h : Fits calls r) (hk : k ∉ r.values.map Prod.fst) (err : Option E) (transformed : T) :
    Fits (calls.answer k err) (r.set k transformed) := by
  constructor
  · have hvalues := h.values_eq
    cases err with
    | none =>
        simp only [Results.set, Calls.answer, List.map_append, List.map_singleton, ← Multiset.coe_add, hvalues]
        ac_rfl
    | some err =>
        simp only [Results.set, Calls.answer, List.map_append, List.map_singleton, ← Multiset.coe_add, hvalues]
        ac_rfl
  · intro j v hj
    simp only [Results.set, List.mem_append, List.mem_singleton] at hj ⊢
    obtain hj | hj := hj
    · have hne : j ≠ k := by
        rintro rfl
        exact hk (List.mem_map_of_mem hj)
      rw [Function.update_of_ne hne]
      exact h.result_eq j v hj
    · cases hj
      exact Function.update_self ..

/-- Once all calls have succeeded, the array has the value of each. -/
theorem Fits.complete (h : Fits p.calls r) (hinv : Inv count limit p) (hall : p.calls.succeeded.length = count)
    (hlimit : count ≤ limit ∨ 0 < limit) (hk : k < count) : ∃ v, (k, v) ∈ r.values ∧ r.result k = some v := by
  obtain ⟨hwaiting, hpending, hfailed⟩ := hinv.of_succeeded hall
  have hperm := hinv.complete hwaiting hpending (by rw [hfailed, List.length_nil]; exact hlimit.symm)
  have hmem : k ∈ ((r.values.map Prod.fst : List ℕ) : Multiset ℕ) := by
    rw [h.values_eq, Multiset.coe_add]
    exact hperm.mem_iff.2 (List.mem_range.2 hk)
  obtain ⟨⟨_, v⟩, hv, rfl⟩ := List.mem_map.1 (Multiset.mem_coe.1 hmem)
  exact ⟨v, hv, h.result_eq _ v hv⟩

end Results

/-! ### `timesLimit` -/

/-- The variables of `timesLimit`, where `i` is `none` for `-1`, and its queued ticks. -/
structure TimesLimit (E : Type) where
  sync : Option Bool
  callback : Callback Unit E
  index : ℕ
  i : Option ℕ
  completed : ℕ
  queue : List ℕ
  calls : Calls E

inductive TimesLimit.Action (E : Type)
  | loop
  | answer (k : ℕ) (err : Option E)
  | tick

namespace TimesLimit

/-- With a limit of zero the index starts at `-1`, and is not read. -/
def start (count limit : ℕ) : TimesLimit E := ⟨none, ⟨true, []⟩, min limit count - 1, some 0, 0, [], .empty⟩

def next (count : ℕ) (s : TimesLimit E) : Option E → TimesLimit E
  | some err => { s with callback := s.callback.fail err }
  | none =>
      let s := { s with completed := s.completed + 1 }
      if s.completed = count then { s with callback := s.callback.call (.ok ()) }
      else
        let s := { s with index := s.index + 1 }
        if s.index ≥ count then s
        else
          let s := { s with sync := some (s.sync.getD s.i.isSome) }
          if s.sync = some true then { s with queue := s.queue ++ [s.index] }
          else { s with calls := s.calls.start s.index }

def step (count limit : ℕ) (s : TimesLimit E) : Action E → Option (TimesLimit E)
  | .loop => s.i.map fun i =>
      if i < min limit count then { s with i := some (i + 1), calls := s.calls.start i } else { s with i := none }
  | .answer k err =>
      if k ∈ s.calls.pending then some (next count { s with calls := s.calls.answer k err } err) else none
  | .tick => match s.queue with
      | [] => none
      | k :: queue => some { s with queue, calls := s.calls.start k }

/-- What is left of the loop. -/
def remaining (count limit : ℕ) (s : TimesLimit E) : List ℕ :=
  s.i.elim [] fun i => List.range' i (min limit count - i)

def view (count limit : ℕ) (s : TimesLimit E) : Pool E :=
  ⟨min count (s.index + 1), (s.remaining count limit : Multiset ℕ) + s.queue, s.calls⟩

structure Good (count : ℕ) (s : TimesLimit E) : Prop where
  completed_eq : s.completed = s.calls.succeeded.length
  fits : s.callback.Fits count s.calls ()

variable {count limit : ℕ} {s s' : TimesLimit E}

theorem remaining_next {i : ℕ} (hi : s.i = some i) (hlt : i < min limit count) :
    s.remaining count limit = i :: { s with i := some (i + 1) }.remaining count limit := by
  simp only [remaining, hi, Option.elim_some]
  rw [show min limit count - i = (min limit count - (i + 1)) + 1 by omega, List.range'_succ]

/-- A success is an answer of the pool, with the start of the next call where it is made at once. -/
theorem refines_success {k : ℕ} (hgood : Good count s) (hinv : Inv count limit (view count limit s))
    (hk : k ∈ s.calls.pending) :
    Good count (next count { s with calls := s.calls.answer k none } none) ∧
      ∃ events, Run (WorkPool.step count) (view count limit s) events
        (view count limit (next count { s with calls := s.calls.answer k none } none)) := by
  obtain ⟨hcompleted, hfits⟩ := hgood
  have hsucceeded : s.completed + 1 = (s.calls.answer k none).succeeded.length := by simp [Calls.answer, hcompleted]
  have hlt : s.calls.succeeded.length < count := succeeded_lt hinv hk
  have hcard : _ + s.calls.pending.length + s.calls.succeeded.length + _ = min count (s.index + 1) := hinv.card_eq
  have hpending := List.length_pos_of_mem hk
  simp only [next]
  split_ifs with hall hover hsync
  · refine ⟨⟨hsucceeded, hfits.call (by omega)⟩, [.answer k none], (Run.nil _).snoc ?_⟩
    exact step_last hk (by simp only [view]; omega)
  · refine ⟨⟨hsucceeded, hfits.skip (by omega)⟩, [.answer k none], (Run.nil _).snoc ?_⟩
    rw [step_last hk (by simp only [view]; omega)]
    simp only [view, remaining, Option.some.injEq, Pool.mk.injEq, and_true]
    omega
  · refine ⟨⟨hsucceeded, hfits.skip (by omega)⟩, [.answer k none], (Run.nil _).snoc ?_⟩
    rw [step_claim hk (by simp only [view]; omega)]
    simp only [view, remaining, Option.some.injEq, Pool.mk.injEq, and_true]
    refine ⟨by omega, ?_⟩
    rw [← Multiset.coe_add, Multiset.coe_singleton, ← add_assoc, add_comm _ {s.index + 1}, Multiset.singleton_add,
      min_eq_right (by omega)]
  · refine ⟨⟨hsucceeded, (hfits.skip (by omega)).start⟩, [.answer k none, .start (s.index + 1)],
      ((Run.nil _).snoc (step_claim hk (by simp only [view]; omega))).snoc ?_⟩
    rw [step_start (view count limit s).waiting]
    · simp only [view, remaining, Option.some.injEq, Pool.mk.injEq, and_true]
      omega
    · simp only [view, min_eq_right (show s.index + 1 ≤ count by omega)]

theorem refines (hcount : 0 < count) (hlimit : 0 < limit) :
    Refines count limit (start (E := E) count limit) (step count limit) (view count limit) (Good count) where
  view_start := by
    have hview : Pool.init E count limit = view count limit (start count limit) := by
      have hindex : min count (min limit count - 1 + 1) = min count limit := by omega
      simp only [view, start, remaining, Option.elim_some, Nat.sub_zero, hindex, Multiset.coe_nil, add_zero, Pool.init]
      rw [← List.range_eq_range', min_comm limit count]
      rfl
    exact ⟨[], hview ▸ Run.nil _⟩
  good_start := ⟨rfl, rfl, by simp [start, Callback.reportsOf, Calls.empty, hcount.ne]⟩
  step := by
    intro s a s' hgood hinv hstep
    cases a with
    | loop =>
        simp only [step, Option.map_eq_some_iff] at hstep
        obtain ⟨i, hi, rfl⟩ := hstep
        split_ifs with hlt
        · refine ⟨⟨hgood.completed_eq, hgood.fits.start⟩, [.start i], (Run.nil _).snoc ?_⟩
          exact step_start _ (by simp only [view, remaining_next hi hlt, ← Multiset.cons_coe, Multiset.cons_add]; rfl)
        · refine ⟨⟨hgood.completed_eq, hgood.fits⟩, [], ?_⟩
          have hview : view count limit s = view count limit { s with i := none } := by
            simp [view, remaining, hi, Nat.sub_eq_zero_of_le (not_lt.1 hlt)]
          rw [hview]
          exact Run.nil _
    | answer k err =>
        simp only [step] at hstep
        split_ifs at hstep with hk
        obtain rfl := Option.some.inj hstep
        cases err with
        | some err =>
            refine ⟨⟨hgood.completed_eq, hgood.fits.fail (succeeded_lt hinv hk) err⟩, [.answer k (some err)],
              (Run.nil _).snoc ?_⟩
            exact step_fail hk
        | none => exact refines_success hgood hinv hk
    | tick =>
        simp only [step] at hstep
        split at hstep
        · cases hstep
        · next k queue hqueue =>
            obtain rfl := Option.some.inj hstep
            refine ⟨⟨hgood.completed_eq, hgood.fits.start⟩, [.start k], (Run.nil _).snoc ?_⟩
            exact step_start _ (by simp only [view, hqueue, ← Multiset.cons_coe, Multiset.add_cons]; rfl)

/-- Every step begins a call, takes an answer or ends the loop. -/
theorem length_le {as : List (Action E)} (hrun : Run (step count limit) (start count limit) as s) :
    as.length ≤ s.calls.started.length + s.calls.succeeded.length + s.calls.failed.length + s.i.elim 1 fun _ => 0 := by
  refine hrun.history (P := fun as s => as.length ≤ s.calls.started.length + s.calls.succeeded.length +
    s.calls.failed.length + s.i.elim 1 fun _ => 0) (Nat.zero_le _) fun as s a s' ih hstep => ?_
  rw [List.length_append, List.length_singleton]
  cases a with
  | loop =>
      simp only [step, Option.map_eq_some_iff] at hstep
      obtain ⟨i, hi, rfl⟩ := hstep
      simp only [hi, Option.elim_some] at ih
      split_ifs
      · simp only [Calls.start, Option.elim_some, List.length_append, List.length_singleton]
        omega
      · simp only [Option.elim_none]
        omega
  | answer k err =>
      simp only [step] at hstep
      split_ifs at hstep
      obtain rfl := Option.some.inj hstep
      cases err with
      | some err =>
          simp only [next, Calls.answer, List.length_append, List.length_singleton]
          omega
      | none =>
          simp only [next]
          split_ifs <;> simp only [Calls.answer, Calls.start, List.length_append, List.length_singleton] <;> omega
  | tick =>
      simp only [step] at hstep
      split at hstep
      · cases hstep
      · obtain rfl := Option.some.inj hstep
        simp only [Calls.start, List.length_append, List.length_singleton]
        omega

end TimesLimit

/-! ### `each`, `map`, `forEachOf`, `parallel` and `times` -/

/-- The variables of a function that makes all its calls in one loop. -/
structure Fan (T E : Type) where
  i : ℕ
  completed : ℕ
  callback : Callback (ℕ → Option T) E
  results : Results T
  calls : Calls E

inductive Fan.Action (T E : Type)
  | loop
  | answer (k : ℕ) (err : Option E) (transformed : T)

namespace Fan

variable {T : Type}

/-- The callback is called at once when there is nothing to do and the function checks for that. -/
def start (checksEmpty : Bool) (count : ℕ) : Fan T E where
  i := 0
  completed := 0
  callback := if checksEmpty ∧ count = 0 then Callback.call ⟨true, []⟩ (.ok fun _ => none) else ⟨true, []⟩
  results := .empty
  calls := .empty

/-- `each(arr, fn, callback)`, whose calls are answered with no value -/
def each (length : ℕ) : Fan Unit E := start true length

/-- `map` and `forEachOf` -/
def mapEach (length : ℕ) : Fan T E := start true length

def parallel (length : ℕ) : Fan Unit E := start false length

def times (count : ℕ) : Fan Unit E := start true count

def next (count : ℕ) (s : Fan T E) : Option E → Fan T E
  | some err => { s with callback := s.callback.fail err }
  | none =>
      let s := { s with completed := s.completed + 1 }
      if s.completed = count then { s with callback := s.callback.call (.ok s.results.result) } else s

def step (count : ℕ) (s : Fan T E) : Action T E → Option (Fan T E)
  | .loop => if s.i < count then some { s with i := s.i + 1, calls := s.calls.start s.i } else none
  | .answer k err transformed =>
      if k ∈ s.calls.pending then
        some (next count { s with results := s.results.set k transformed, calls := s.calls.answer k err } err)
      else none

def view (count : ℕ) (s : Fan T E) : Pool E := ⟨count, (List.range' s.i (count - s.i) : List ℕ), s.calls⟩

structure Good (count : ℕ) (s : Fan T E) : Prop where
  completed_eq : s.completed = s.calls.succeeded.length
  fits : s.callback.Fits count s.calls s.results.result
  results_fit : s.results.Fits s.calls

variable {checksEmpty : Bool} {count : ℕ} {s s' : Fan T E}

theorem refines (h : checksEmpty = true ∨ 0 < count) :
    Refines count count (start (T := T) (E := E) checksEmpty count) (step count) (view count) (Good count) where
  view_start := by
    have hview : Pool.init E count count = view count (start (T := T) checksEmpty count) := by
      simp only [view, start, Nat.sub_zero, Pool.init, min_self]
      rw [← List.range_eq_range']
      rfl
    exact ⟨[], hview ▸ Run.nil _⟩
  good_start := by
    refine ⟨rfl, ?_, rfl, by simp [start, Results.empty]⟩
    by_cases hzero : count = 0
    · have hchecks : checksEmpty = true := h.resolve_right (by omega)
      subst hzero hchecks
      exact ⟨rfl, rfl⟩
    · constructor <;> simp [start, hzero, Callback.reportsOf, Calls.empty, Ne.symm hzero]
  step := by
    intro s a s' hgood hinv hstep
    cases a with
    | loop =>
        simp only [step] at hstep
        split_ifs at hstep with hlt
        obtain rfl := Option.some.inj hstep
        refine ⟨⟨hgood.completed_eq, hgood.fits.start, hgood.results_fit.values_eq, hgood.results_fit.result_eq⟩,
          [.start s.i], (Run.nil _).snoc (step_start _ ?_)⟩
        simp only [view]
        rw [show count - s.i = (count - (s.i + 1)) + 1 by omega, List.range'_succ, Multiset.cons_coe]
    | answer k err transformed =>
        simp only [step] at hstep
        split_ifs at hstep with hk
        obtain rfl := Option.some.inj hstep
        have hlt : s.calls.succeeded.length < count := succeeded_lt hinv hk
        have hresults := hgood.results_fit.set (Results.Fits.not_mem hgood.results_fit hinv hk) err transformed
        refine ⟨?_, [.answer k err], (Run.nil _).snoc ?_⟩
        · cases err with
          | some err => exact ⟨hgood.completed_eq, hgood.fits.fail hlt err, hresults⟩
          | none =>
              have hcompleted : s.completed + 1 = (s.calls.answer k none).succeeded.length := by
                simp [Calls.answer, hgood.completed_eq]
              have hprev := hgood.completed_eq
              simp only [next]
              split_ifs with hall
              · exact ⟨hcompleted, hgood.fits.call (by omega), hresults⟩
              · exact ⟨hcompleted, hgood.fits.skip (by omega), hresults⟩
        · cases err with
          | some err => exact step_fail hk
          | none =>
              rw [step_last hk (le_refl count)]
              simp only [next]
              split_ifs <;> rfl

/-- The calls are made in order; every step makes one or takes an answer. -/
theorem started_eq {as : List (Action T E)} (hrun : Run (step count) (start checksEmpty count) as s) :
    s.calls.started = List.range s.i ∧ as.length = s.i + s.calls.succeeded.length + s.calls.failed.length := by
  refine hrun.history (P := fun as s => s.calls.started = List.range s.i ∧
    as.length = s.i + s.calls.succeeded.length + s.calls.failed.length) ⟨rfl, rfl⟩ fun as s a s' ih hstep => ?_
  obtain ⟨hstarted, hlength⟩ := ih
  rw [List.length_append, hlength, List.length_singleton]
  cases a with
  | loop =>
      simp only [step] at hstep
      split_ifs at hstep
      obtain rfl := Option.some.inj hstep
      refine ⟨?_, ?_⟩
      · rw [Calls.start, hstarted, List.range_succ]
      · simp only [Calls.succeeded_start, Calls.failed_start]
        omega
  | answer k err transformed =>
      simp only [step] at hstep
      split_ifs at hstep
      obtain rfl := Option.some.inj hstep
      cases err with
      | some err =>
          refine ⟨hstarted, ?_⟩
          simp only [next, Calls.answer, List.length_append, List.length_singleton]
          omega
      | none =>
          simp only [next]
          split_ifs
          all_goals
            refine ⟨hstarted, ?_⟩
            simp only [Calls.answer, List.length_append, List.length_singleton]
            omega

/-- Without the check for an empty array, nothing is ever called. -/
theorem parallel_empty {as : List (Action Unit E)} {s : Fan Unit E} (hrun : Run (step 0) (parallel 0) as s) :
    s.callback.reports = [] := by
  refine (hrun.invariant (P := fun s => s.callback.reports = [] ∧ s.calls.pending = []) ⟨rfl, rfl⟩
    fun s a s' hs hstep => ?_).1
  cases a with
  | loop => simp [step] at hstep
  | answer k err transformed => simp [step, hs.2] at hstep

end Fan

/-! ### `eachSeries`, `mapSeries` and `timesSeries` -/

/-- The variables of a function that makes one call after the other.  `index` counts the items that were handed out,
`first` says that the first call has not returned, and a queued tick has captured its item, or reads the index when it
runs. -/
structure Series (T E : Type) where
  sync : Option Bool
  index : ℕ
  first : Bool
  queue : List (Option ℕ)
  reports : List (Except E (ℕ → Option T))
  results : Results T
  calls : Calls E

inductive Series.Action (T E : Type)
  | returned
  | answer (k : ℕ) (err : Option E) (transformed : T)
  | tick

namespace Series

variable {T : Type}

def start (count : ℕ) : Series T E :=
  if count = 0 then ⟨none, 0, false, [], [.ok fun _ => none], .empty, .empty⟩
  else ⟨none, 1, true, [], [], .empty, Calls.empty.start 0⟩

/-- The tick of `eachSeries` evaluates `arr[index++]` when it runs, the others capture the index. -/
def next (captures : Bool) (count : ℕ) (s : Series T E) : Option E → Series T E
  | some err => { s with reports := s.reports ++ [.error err] }
  | none =>
      if s.index ≥ count then { s with reports := s.reports ++ [.ok s.results.result] }
      else
        let s := { s with sync := some (s.sync.getD true) }
        if s.sync = some true then
          if captures then { s with index := s.index + 1, queue := s.queue ++ [some s.index] }
          else { s with queue := s.queue ++ [none] }
        else { s with index := s.index + 1, calls := s.calls.start s.index }

def step (captures : Bool) (count : ℕ) (s : Series T E) : Action T E → Option (Series T E)
  | .returned => if s.first then some { s with first := false, sync := some (s.sync.getD false) } else none
  | .answer k err transformed =>
      if k ∈ s.calls.pending then
        some (next captures count { s with results := s.results.set k transformed, calls := s.calls.answer k err } err)
      else none
  | .tick => match s.queue with
      | [] => none
      | some k :: queue => some { s with queue, calls := s.calls.start k }
      | none :: queue => some { s with queue, index := s.index + 1, calls := s.calls.start s.index }

def eachSeries (length : ℕ) (s : Series Unit E) : Action Unit E → Option (Series Unit E) := step false length s

def mapSeries (length : ℕ) (s : Series T E) : Action T E → Option (Series T E) := step true length s

def timesSeries (count : ℕ) (s : Series Unit E) : Action Unit E → Option (Series Unit E) := step true count s

def view (count : ℕ) (s : Series T E) : Pool E :=
  ⟨min count (s.calls.succeeded.length + 1), (s.queue.map fun item => item.getD s.index : List ℕ), s.calls⟩

/-- The items that were handed out or wait for a tick that reads the index are those that were claimed. -/
structure Good (captures : Bool) (count : ℕ) (s : Series T E) : Prop where
  index_eq : s.index + (if captures then 0 else s.queue.length) = min count (s.calls.succeeded.length + 1)
  queue_captures : ∀ item ∈ s.queue, item.isSome = captures
  reports_eq : s.reports = Callback.reportsOf count s.calls s.results.result
  results_fit : s.results.Fits s.calls
  started_eq : s.calls.started = List.range s.calls.started.length

variable {captures : Bool} {count : ℕ} {s s' : Series T E}

/-- The call that waits is the next one in order. -/
theorem eq_length_of_waiting {p : Pool E} (hinv : Inv count 1 p) {k : ℕ} {rest : Multiset ℕ}
    (hstarted : p.calls.started = List.range p.calls.started.length) (hwaiting : p.waiting = k ::ₘ rest) :
    rest = 0 ∧ k = p.calls.started.length := by
  have hpending := hinv.pending_le
  rw [hwaiting, Multiset.card_cons] at hpending
  obtain rfl : rest = 0 := Multiset.card_eq_zero.1 (by omega)
  refine ⟨rfl, ?_⟩
  have hplaces := hinv.places
  have hlength := hinv.started_length
  rw [hwaiting, Multiset.card_cons, Multiset.card_zero, Nat.zero_add, Nat.add_comm] at hlength
  rw [hwaiting, ← hinv.started_eq, hstarted, ← hlength, Multiset.range_succ, Multiset.cons_add, zero_add] at hplaces
  exact (Multiset.cons_inj_left _).1 hplaces

theorem started_start {c : Calls E} {k : ℕ} (h : c.started = List.range c.started.length) (hk : k = c.started.length) :
    (c.start k).started = List.range (c.start k).started.length := by
  simp only [Calls.start, List.length_append, List.length_singleton]
  rw [hk, List.range_succ, ← h]

/-- While a call is pending no other waits, and none has failed. -/
theorem eq_nil_of_pending {k : ℕ} (hinv : Inv count 1 (view count s)) (hk : k ∈ s.calls.pending) :
    s.queue = [] ∧ s.calls.failed = [] := by
  have hlost := hinv.lost_le
  have hpending := List.length_pos_of_mem hk
  simp only [view, Multiset.coe_card, List.length_map] at hlost
  exact ⟨List.eq_nil_of_length_eq_zero (by omega), List.eq_nil_of_length_eq_zero (by omega)⟩

theorem refines_success {k : ℕ} {transformed : T} (hgood : Good captures count s) (hinv : Inv count 1 (view count s))
    (hk : k ∈ s.calls.pending) :
    Good captures count (next captures count
        { s with results := s.results.set k transformed, calls := s.calls.answer k none } none) ∧
      ∃ events, Run (WorkPool.step count) (view count s) events (view count (next captures count
        { s with results := s.results.set k transformed, calls := s.calls.answer k none } none)) := by
  obtain ⟨hindex, hcaptures, hreports, hresults, hstarted⟩ := hgood
  obtain ⟨hqueue, hfailed⟩ := eq_nil_of_pending hinv hk
  have hlt : s.calls.succeeded.length < count := succeeded_lt hinv hk
  have hresults' := hresults.set (Results.Fits.not_mem hresults hinv hk) none transformed
  have hfits : Callback.Fits count s.calls s.results.result ⟨true, s.reports⟩ := ⟨by simp [hfailed], hreports⟩
  rw [hqueue, List.length_nil, ite_self, add_zero] at hindex
  have hsucceeded : (s.calls.answer k none).succeeded.length = s.calls.succeeded.length + 1 := by simp [Calls.answer]
  simp only [next, hqueue, List.nil_append]
  split_ifs with hover hsync hcap
  · refine ⟨⟨?_, by simp, (hfits.call (by omega)).reports_eq, hresults', by rwa [Calls.started_answer]⟩,
      [.answer k none], (Run.nil _).snoc ?_⟩
    · simp only [hsucceeded, List.length_nil, ite_self]
      omega
    · rw [step_last hk (by simp only [view]; omega)]
      simp only [view, hqueue, hsucceeded, Option.some.injEq, Pool.mk.injEq, and_true]
      omega
  · refine ⟨⟨?_, ?_, (hfits.skip (by omega)).reports_eq, hresults', by rwa [Calls.started_answer]⟩,
      [.answer k none], (Run.nil _).snoc ?_⟩
    · simp only [hsucceeded, hcap, if_true]
      omega
    · simp [hcap]
    · rw [step_claim hk (by simp only [view]; omega)]
      simp only [view, hqueue, hsucceeded, Option.some.injEq, Pool.mk.injEq, and_true]
      refine ⟨by omega, ?_⟩
      simp
      omega
  · refine ⟨⟨?_, ?_, (hfits.skip (by omega)).reports_eq, hresults', by rwa [Calls.started_answer]⟩,
      [.answer k none], (Run.nil _).snoc ?_⟩
    · simp only [hsucceeded, hcap, List.length_singleton]
      simp
      omega
    · simp [hcap]
    · rw [step_claim hk (by simp only [view]; omega)]
      simp only [view, hqueue, hsucceeded, Option.some.injEq, Pool.mk.injEq, and_true]
      refine ⟨by omega, ?_⟩
      simp
      omega
  · have hwaiting : (view count s).waiting = 0 := by simp [view, hqueue]
    have hlength : (view count s).waiting.card + s.calls.started.length = min count (s.calls.succeeded.length + 1) :=
      hinv.started_length
    rw [hwaiting, Multiset.card_zero, zero_add, ← hindex] at hlength
    refine ⟨⟨?_, by simp, (hfits.skip (by omega)).start.reports_eq, ⟨hresults'.1, hresults'.2⟩, ?_⟩,
      [.answer k none, .start s.index], ((Run.nil _).snoc (step_claim hk (by simp only [view]; omega))).snoc ?_⟩
    · simp only [Calls.succeeded_start, hsucceeded, List.length_nil, ite_self]
      omega
    · exact started_start (by rwa [Calls.started_answer]) (by rw [Calls.started_answer, hlength])
    · rw [step_start 0 (by rw [hwaiting]; simp only [view, hindex])]
      simp only [view, hsucceeded, Calls.succeeded_start, Option.some.injEq, Pool.mk.injEq, and_true]
      exact ⟨by omega, rfl⟩

theorem refines (captures : Bool) (count : ℕ) :
    Refines count 1 (start (T := T) (E := E) count) (step captures count) (view count) (Good captures count) where
  view_start := by
    by_cases hzero : count = 0
    · subst hzero
      exact ⟨[], Run.nil _⟩
    · refine ⟨[.start 0], (Run.nil _).snoc ?_⟩
      have hmin : min count 1 = 1 := by omega
      simp only [start, if_neg hzero, view, Calls.start, Calls.empty, List.length_nil, Nat.zero_add]
      exact step_start 0 (by simp [Pool.init, hmin])
  good_start := by
    by_cases hzero : count = 0
    · subst hzero
      exact ⟨by simp [start, Calls.empty], by simp [start], rfl, ⟨rfl, by simp [start, Results.empty]⟩, rfl⟩
    · simp only [start, if_neg hzero]
      refine ⟨?_, by simp, ?_, ⟨rfl, by simp [Results.empty]⟩, rfl⟩
      · simp only [Calls.succeeded_start, Calls.empty, List.length_nil, ite_self]
        omega
      · simp [Callback.reportsOf, Calls.start, Calls.empty, Ne.symm hzero]
  step := by
    intro s a s' hgood hinv hstep
    cases a with
    | returned =>
        simp only [step] at hstep
        split_ifs at hstep
        obtain rfl := Option.some.inj hstep
        exact ⟨⟨hgood.index_eq, hgood.queue_captures, hgood.reports_eq, hgood.results_fit, hgood.started_eq⟩, [],
          Run.nil _⟩
    | answer k err transformed =>
        simp only [step] at hstep
        split_ifs at hstep with hk
        obtain rfl := Option.some.inj hstep
        cases err with
        | none => exact refines_success hgood hinv hk
        | some err =>
            obtain ⟨hindex, hcaptures, hreports, hresults, hstarted⟩ := hgood
            obtain ⟨-, hfailed⟩ := eq_nil_of_pending hinv hk
            have hfits : Callback.Fits count s.calls s.results.result ⟨true, s.reports⟩ := ⟨by simp [hfailed], hreports⟩
            have hresults' := hresults.set (Results.Fits.not_mem hresults hinv hk) (some err) transformed
            exact ⟨⟨hindex, hcaptures, (hfits.fail (succeeded_lt hinv hk) err).reports_eq, hresults', hstarted⟩,
              [.answer k (some err)], (Run.nil _).snoc (step_fail hk)⟩
    | tick =>
        simp only [step] at hstep
        split at hstep
        · cases hstep
        · next k queue hqueue =>
            obtain rfl := Option.some.inj hstep
            have hcaptures : captures = true := (hgood.queue_captures (some k) (by simp [hqueue])).symm
            have hwaiting : (view count s).waiting =
                k ::ₘ ((queue.map fun item => item.getD s.index : List ℕ) : Multiset ℕ) := by
              simp [view, hqueue]
            obtain ⟨-, hk⟩ := eq_length_of_waiting hinv hgood.started_eq hwaiting
            refine ⟨⟨?_, fun item hitem => hgood.queue_captures item (by simp [hqueue, hitem]), hgood.reports_eq,
              ⟨hgood.results_fit.1, hgood.results_fit.2⟩, started_start hgood.started_eq hk⟩,
              [.start k], (Run.nil _).snoc (step_start _ hwaiting)⟩
            have hindex := hgood.index_eq
            simpa [hcaptures] using hindex
        · next queue hqueue =>
            obtain rfl := Option.some.inj hstep
            have hcaptures : captures = false := (hgood.queue_captures none (by simp [hqueue])).symm
            have hwaiting : (view count s).waiting =
                s.index ::ₘ ((queue.map fun item => item.getD s.index : List ℕ) : Multiset ℕ) := by
              simp [view, hqueue]
            obtain ⟨hrest, hk⟩ := eq_length_of_waiting hinv hgood.started_eq hwaiting
            obtain rfl : queue = [] := by simpa using hrest
            refine ⟨⟨?_, by simp, hgood.reports_eq, ⟨hgood.results_fit.1, hgood.results_fit.2⟩,
              started_start hgood.started_eq hk⟩, [.start s.index], (Run.nil _).snoc (step_start _ hwaiting)⟩
            have hindex := hgood.index_eq
            simpa [hcaptures, hqueue] using hindex

/-- Every step begins a call, takes an answer or is the return of the first call. -/
theorem length_le {as : List (Action T E)} (hrun : Run (step captures count) (start count) as s) :
    as.length ≤ s.calls.started.length + s.calls.succeeded.length + s.calls.failed.length + (!s.first).toNat := by
  refine hrun.history (P := fun as s => as.length ≤ s.calls.started.length + s.calls.succeeded.length +
    s.calls.failed.length + (!s.first).toNat) (Nat.zero_le _) fun as s a s' ih hstep => ?_
  rw [List.length_append, List.length_singleton]
  cases a with
  | returned =>
      simp only [step] at hstep
      split_ifs at hstep with hfirst
      obtain rfl := Option.some.inj hstep
      simp only [hfirst, Bool.not_true, Bool.toNat_false, Bool.not_false, Bool.toNat_true] at ih ⊢
      omega
  | answer k err transformed =>
      simp only [step] at hstep
      split_ifs at hstep
      obtain rfl := Option.some.inj hstep
      cases err with
      | some err =>
          simp only [next, Calls.answer, List.length_append, List.length_singleton]
          omega
      | none =>
          simp only [next]
          split_ifs <;>
            simp only [Calls.answer, Calls.start, List.length_append, List.length_singleton] at ih ⊢ <;> omega
  | tick =>
      simp only [step] at hstep
      split at hstep
      · cases hstep
      all_goals
        obtain rfl := Option.some.inj hstep
        simp only [Calls.start, List.length_append, List.length_singleton]
        omega

/-- Whether the calls are answered at once or later, every order of the steps ends; the items are called for in order,
each after the success of the one before, and the callback gets the first error, or after all successes the results. -/
theorem series_calls {as : List (Action T E)} (hrun : Run (step captures count) (start count) as s) :
    as.length ≤ 2 * count + 1 ∧ s.calls.started = List.range s.calls.started.length ∧
      s.calls.started.length ≤ s.calls.succeeded.length + 1 ∧
      s.reports = Callback.reportsOf count s.calls s.results.result ∧
      (∀ r, .ok r ∈ s.reports → ∀ k < count, ∃ v, (k, v) ∈ s.results.values ∧ r k = some v) ∧
      (s.queue = [] → s.calls.pending = [] → s.calls.failed = [] → s.calls.succeeded.Perm (List.range count)) := by
  obtain ⟨hgood, hinv⟩ := (refines captures count).run hrun
  have hlength : (view count s).waiting.card + s.calls.started.length = min count (s.calls.succeeded.length + 1) :=
    hinv.started_length
  refine ⟨?_, hgood.started_eq, by omega, hgood.reports_eq, fun r hr k hk => ?_, fun hqueue hpending hfailed => ?_⟩
  · have hsteps := length_le hrun
    have hanswered : s.calls.succeeded.length + s.calls.failed.length ≤ count := hinv.answered_le
    have hfirst := Bool.toNat_le (!s.first)
    omega
  · rw [hgood.reports_eq] at hr
    obtain ⟨-, hall, rfl⟩ := Callback.eq_of_ok_mem hr
    exact Results.Fits.complete (p := view count s) hgood.results_fit hinv hall (.inr Nat.zero_lt_one) hk
  · have hperm := hinv.complete (by simp [view, hqueue]) hpending (.inl (by simp [view, hfailed]))
    simpa [view, hfailed] using hperm

theorem series_calls_two : ∃ s : Series ℕ String,
    Run (mapSeries 2) (start 2) [.answer 0 none 5, .returned, .tick, .answer 1 none 7] s ∧
      ∀ r, .ok r ∈ s.reports → ∀ k < 2, ∃ v, (k, v) ∈ s.results.values ∧ r k = some v := by
  obtain ⟨s, hs⟩ : ∃ s : Series ℕ String,
    exec (mapSeries 2) (start 2) [.answer 0 none 5, .returned, .tick, .answer 1 none 7] = some s := ⟨_, rfl⟩
  exact ⟨s, Run.of_exec hs, (series_calls (Run.of_exec hs)).2.2.2.2.1⟩

end Series

end CqlDriver.ControlFlow
