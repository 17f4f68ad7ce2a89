import Mathlib.Tactic

/-! # Client-side timestamps (`lib/policies/timestamp-generation.js`)

`MonotonicTimestampGenerator.next` turns readings of a clock in milliseconds into timestamps in
microseconds.  The last date may run ahead of the clock, when the clock goes back or when a
millisecond is asked for more than a thousand times; the counter `micros` fills the microseconds.
A timestamp is a `Number` while that is exact, and a `Long` from then on; the arithmetic of `Long`
is that of `ℤ`.

The whole state is read off the last timestamp (`last`), which every call makes larger (`next_spec`). -/

namespace CqlDriver

/-- What `next` returns: a `Number` or a `Long`. -/
inductive Timestamp where
  | number (n : ℤ)
  | long (n : ℤ)
deriving DecidableEq, Repr

namespace Timestamp

def value : Timestamp → ℤ
  | number n => n
  | long n => n

/-- The millisecond portion. -/
def milliseconds (t : Timestamp) : ℤ := t.value / 1000

/-- Both representations print their digits. -/
def toString (t : Timestamp) : String := Int.repr t.value

end Timestamp

structure MonotonicTimestampGenerator where
  warningThreshold : ℤ
  minLogInterval : ℤ
  micros : ℤ
  lastDate : ℤ
  lastLogDate : ℤ
deriving DecidableEq, Repr

namespace MonotonicTimestampGenerator

/-- The maximum date in milliseconds that can be represented in microseconds using Number. -/
def maxSafeNumberDate : ℤ := 9007199254740

/-- The constructor; a threshold of zero counts as not given. -/
def new (warningThreshold minLogInterval : Option ℤ) : Except String MonotonicTimestampGenerator :=
  if warningThreshold.getD 0 < 0 then .error "warningThreshold can not be lower than 0"
  else .ok
    { warningThreshold := if warningThreshold.getD 0 = 0 then 1000 else warningThreshold.getD 0
      minLogInterval := minLogInterval.getD 1000
      micros := -1
      lastDate := 0
      lastLogDate := 0 }

/-- `_generateMicroseconds` -/
def generateMicroseconds (g : MonotonicTimestampGenerator) : Timestamp :=
  if g.lastDate < maxSafeNumberDate then .number (g.lastDate * 1000 + g.micros)
  else .long (g.lastDate * 1000 + g.micros)

/-- The warning of a timestamp that has drifted from the clock. -/
def driftMessage (drifted lastDate : ℤ) (result : Timestamp) : String :=
  "Timestamp generated using current date was " ++ Int.repr drifted ++
    " milliseconds behind the last generated timestamp (which millisecond portion was " ++
    Int.repr lastDate ++ "), the returned value (" ++ result.toString ++
    ") is being artificially incremented to guarantee monotonicity."

/-- One reading of `getDate()`, and of `Date.now()` where a warning is due. -/
structure Reading where
  date : ℤ
  currentLogDate : ℤ
deriving DecidableEq, Repr

/-- The end of `next`: the warning, at most once in `minLogInterval`. -/
def log (g : MonotonicTimestampGenerator) (drifted lastDate currentLogDate : ℤ) (result : Timestamp) :
    MonotonicTimestampGenerator × Option String :=
  if g.warningThreshold ≤ drifted ∧ 0 < g.minLogInterval ∧
      g.lastLogDate + g.minLogInterval ≤ currentLogDate then
    ({ g with lastLogDate := currentLogDate }, some (driftMessage drifted lastDate result))
  else (g, none)

/-- `next`, with the generator afterwards and the warning that is logged. -/
def next (g : MonotonicTimestampGenerator) (r : Reading) :
    Timestamp × MonotonicTimestampGenerator × Option String :=
  if g.lastDate < r.date then
    let g := { g with micros := 0, lastDate := r.date }
    (g.generateMicroseconds, g, none)
  else
    let drifted := if r.date < g.lastDate then g.lastDate - r.date else 0
    let date := if r.date < g.lastDate then g.lastDate else r.date
    let micros := g.micros + 1
    let (micros, date, drifted) :=
      if micros = 1000 then
        -- move date 1 millisecond into the future
        if date = g.lastDate then (0, date + 1, drifted + 1) else (0, date, drifted)
      else (micros, date, drifted)
    let lastDate := g.lastDate
    let g := { g with micros := micros, lastDate := date }
    (g.generateMicroseconds, g.log drifted lastDate r.currentLogDate g.generateMicroseconds)

/-- The results of successive calls. -/
def results (g : MonotonicTimestampGenerator) : List Reading → List Timestamp
  | [] => []
  | r :: rs => (g.next r).1 :: (g.next r).2.1.results rs

/-! ### One call -/

/-- The last timestamp, and one less than the first possible one before any. -/
def last (g : MonotonicTimestampGenerator) : ℤ := g.lastDate * 1000 + g.micros

/-- The counter stays within a millisecond; it is at `-1` before the first call. -/
def Valid (g : MonotonicTimestampGenerator) : Prop := -1 ≤ g.micros ∧ g.micros ≤ 999

theorem value_generateMicroseconds (g : MonotonicTimestampGenerator) :
    g.generateMicroseconds.value = g.last := by
  unfold generateMicroseconds
  split_ifs
  · rfl
  · rfl

@[simp] theorem log_micros (g : MonotonicTimestampGenerator) (drifted lastDate now : ℤ) (t : Timestamp) :
    (g.log drifted lastDate now t).1.micros = g.micros := by
  unfold log
  split_ifs <;> rfl

@[simp] theorem log_lastDate (g : MonotonicTimestampGenerator) (drifted lastDate now : ℤ) (t : Timestamp) :
    (g.log drifted lastDate now t).1.lastDate = g.lastDate := by
  unfold log
  split_ifs <;> rfl

theorem last_log (g : MonotonicTimestampGenerator) (drifted lastDate now : ℤ) (t : Timestamp) :
    (g.log drifted lastDate now t).1.last = g.last := by
  unfold last
  rw [log_micros, log_lastDate]

/-- What a call does: the timestamp is the new `last`, and it is the reading if that is ahead, one
more than the previous one if it is not. -/
theorem next_spec {g : MonotonicTimestampGenerator} (hg : g.Valid) (r : Reading) :
    (g.next r).1.value = (g.next r).2.1.last ∧ (g.next r).2.1.Valid ∧ 0 ≤ (g.next r).2.1.micros ∧
      (g.next r).2.1.last = if g.lastDate < r.date then r.date * 1000 else g.last + 1 := by
  obtain ⟨hlo, hhi⟩ := hg
  by_cases hr : g.lastDate < r.date
  · have hn : g.next r = (generateMicroseconds { g with micros := 0, lastDate := r.date },
        { g with micros := 0, lastDate := r.date }, none) := by
      unfold next
      rw [if_pos hr]
    rw [hn, if_pos hr]
    refine ⟨value_generateMicroseconds _, ?_, le_rfl, ?_⟩
    · exact ⟨by norm_num, by norm_num⟩
    · exact add_zero _
  · have hdate : (if r.date < g.lastDate then g.lastDate else r.date) = g.lastDate := by
      split_ifs <;> omega
    unfold next
    simp only [if_neg hr, hdate, if_true]
    rw [last_log, value_generateMicroseconds]
    refine ⟨rfl, ?_⟩
    by_cases hm : g.micros + 1 = 1000
    · simp only [hm, if_true, Valid, last, log_micros]
      omega
    · simp only [if_neg hm, Valid, last, log_micros]
      omega

theorem last_lt_next {g : MonotonicTimestampGenerator} (hg : g.Valid) (r : Reading) :
    g.last < (g.next r).1.value := by
  obtain ⟨hvalue, -, -, hlast⟩ := next_spec hg r
  rw [hvalue, hlast]
  obtain ⟨hlo, hhi⟩ := hg
  unfold last
  split_ifs <;> omega

/-- A `Number` is a safe integer, so that its arithmetic is exact. -/
theorem number_lt {g : MonotonicTimestampGenerator} (hg : g.Valid) {n : ℤ}
    (h : g.generateMicroseconds = .number n) : n < 2 ^ 53 := by
  obtain ⟨-, hhi⟩ := hg
  unfold generateMicroseconds maxSafeNumberDate at h
  split_ifs at h with hdate
  injection h with h
  omega

/-! ### Runs -/

theorem new_valid {w m : Option ℤ} {g : MonotonicTimestampGenerator} (h : new w m = .ok g) :
    g.Valid ∧ g.micros = -1 ∧ g.lastDate = 0 := by
  unfold new at h
  split_ifs at h <;> cases h <;> simp [Valid]

/-- All results of a run lie behind the last timestamp before it, in increasing order. -/
theorem results_pairwise {g : MonotonicTimestampGenerator} (hg : g.Valid) (rs : List Reading) :
    ((g.results rs).map Timestamp.value).Pairwise (· < ·) ∧
      ∀ t ∈ g.results rs, g.last < t.value := by
  induction rs generalizing g with
  | nil => simp [results]
  | cons r rs ih =>
      obtain ⟨hvalue, hvalid, -, -⟩ := next_spec hg r
      obtain ⟨hpairwise, hlast⟩ := ih hvalid
      have hlt := last_lt_next hg r
      simp only [results, List.map_cons, List.pairwise_cons, List.mem_map, forall_exists_index, and_imp,
        forall_apply_eq_imp_iff₂, List.mem_cons, forall_eq_or_imp]
      refine ⟨⟨fun t ht => ?_, hpairwise⟩, hlt, fun t ht => ?_⟩
      · rw [hvalue]
        exact hlast t ht
      · have := hlast t ht
        omega

/-- With readings in the range of a `Date` a result exceeds the largest possible reading by no more
than the number of calls, so that it fits in 64 bits. -/
theorem value_le {g : MonotonicTimestampGenerator} (hg : g.Valid) (rs : List Reading) {bound : ℤ}
    (hbound : ∀ r ∈ rs, r.date * 1000 ≤ bound) (hlast : g.last ≤ bound) :
    ∀ t ∈ g.results rs, t.value ≤ bound + rs.length := by
  induction rs generalizing g bound with
  | nil => simp [results]
  | cons r rs ih =>
      obtain ⟨hvalue, hvalid, -, hnext⟩ := next_spec hg r
      have hr := hbound r (List.mem_cons_self ..)
      have hstep : (g.next r).2.1.last ≤ bound + 1 := by
        rw [hnext]
        split_ifs <;> omega
      have hrest := ih hvalid (fun r' hr' => (hbound r' (List.mem_cons_of_mem _ hr')).trans (by omega)) hstep
      intro t ht
      rw [results, List.mem_cons] at ht
      rw [List.length_cons]
      push_cast
      obtain rfl | ht := ht
      · rw [hvalue]
        omega
      · have := hrest t ht
        omega

/-- The reading is ahead of the milliseconds of the results before the `i`-th. -/
def Ahead (ts : List Timestamp) (i : ℕ) (date : ℤ) : Prop :=
  ∀ j < i, ∀ s, ts[j]? = some s → s.milliseconds < date

theorem value_eq_of_ahead {g : MonotonicTimestampGenerator} (hg : g.Valid) (rs : List Reading) {i : ℕ}
    {r : Reading} {t : Timestamp} (hr : rs[i]? = some r) (ht : (g.results rs)[i]? = some t)
    (hfirst : i = 0 → g.lastDate < r.date ∨ g.last + 1 = r.date * 1000)
    (hahead : Ahead (g.results rs) i r.date) : t.value = r.date * 1000 := by
  induction rs generalizing g i with
  | nil => simp at hr
  | cons r₀ rs ih =>
      obtain ⟨hvalue, hvalid, hmicros, hlast⟩ := next_spec hg r₀
      cases i with
      | zero =>
          simp only [results, List.getElem?_cons_zero, Option.some.injEq] at hr ht
          subst hr ht
          rw [hvalue, hlast]
          split_ifs with h
          · rfl
          · exact (hfirst rfl).resolve_left h
      | succ i =>
          simp only [results, List.getElem?_cons_succ] at hr ht
          refine ih hvalid hr ht (fun _ => .inl ?_) fun j hj s hs => ?_
          · -- the millisecond of the first result is the last date of the generator behind it
            have h := hahead 0 (Nat.succ_pos i) _ rfl
            obtain ⟨-, hhi⟩ := hvalid
            unfold Timestamp.milliseconds at h
            rw [hvalue, last] at h
            omega
          · exact hahead (j + 1) (by omega) s hs

/-- A result whose reading is ahead of all earlier generated milliseconds is that reading. -/
def FollowsClock (rs : List Reading) (ts : List Timestamp) : Prop :=
  ∀ i r t, rs[i]? = some r → ts[i]? = some t → Ahead ts i r.date → t.value = r.date * 1000

/-- The results of a generator increase, whatever the clock does, and follow the clock where it is
ahead of them and not before the epoch. -/
theorem results_increasing {w m : Option ℤ} {g : MonotonicTimestampGenerator} (hg : new w m = .ok g)
    (rs : List Reading) :
    ((g.results rs).map Timestamp.value).Pairwise (· < ·) ∧
      ∀ i r t, rs[i]? = some r → (g.results rs)[i]? = some t → 0 ≤ r.date →
        Ahead (g.results rs) i r.date → t.value = r.date * 1000 := by
  obtain ⟨hvalid, hmicros, hdate⟩ := new_valid hg
  refine ⟨(results_pairwise hvalid rs).1, fun i r t hr ht hnonneg hahead => ?_⟩
  refine value_eq_of_ahead hvalid rs hr ht (fun _ => ?_) hahead
  unfold last
  omega

/-- A generator made without arguments. -/
def initial : MonotonicTimestampGenerator := ⟨1000, 1000, -1, 0, 0⟩

/-- The clock goes back between the second and the third reading. -/
def backwardReadings : List Reading := [⟨1, 0⟩, ⟨9007199254740, 0⟩, ⟨5, 0⟩, ⟨9007199254741, 0⟩]

theorem results_increasing_backwardReadings :
    ((initial.results backwardReadings).map Timestamp.value).Pairwise (· < ·) ∧
      initial.results backwardReadings = [.number 1000, .long 9007199254740000, .long 9007199254740001,
        .long 9007199254741000] ∧
      Timestamp.value (.long 9007199254741000) = 9007199254741 * 1000 := by
  have h := results_increasing (w := none) (m := none) (g := initial) rfl backwardReadings
  refine ⟨h.1, by decide, ?_⟩
  refine h.2 3 ⟨9007199254741, 0⟩ _ rfl (by decide) (by decide) ?_
  have hall : ∀ s ∈ initial.results backwardReadings |>.take 3, s.milliseconds < 9007199254741 := by decide
  intro j hj s hs
  exact hall s (List.mem_of_getElem? (i := j) (by rw [List.getElem?_take_of_lt hj]; exact hs))

/-- A first reading before the epoch: the last date starts at zero. -/
theorem not_followsClock_before_epoch :
    ¬ FollowsClock [⟨-1, 0⟩] (initial.results [⟨-1, 0⟩]) := by
  intro h
  have hvalue := h 0 ⟨-1, 0⟩ (.number 0) rfl (by decide) (fun j hj => absurd hj (Nat.not_lt_zero j))
  exact absurd hvalue (by decide)

end MonotonicTimestampGenerator
end CqlDriver
