import Mathlib

/-! # Reconnection delays (`lib/policies/reconnection.js`)

The schedule of an `ExponentialReconnectionPolicy` doubles the delay up to the greatest one and adds jitter to it.  The
jitter is chosen by comparing the capped delay with the two bounds, so that only a delay equal to a bound is kept on its
side of it: the last delay below the greatest one may exceed it, the greatest one may fall below the base delay, and with
`startWithNoDelay` the base delay itself may (`withinBounds_iff`).  Numbers are rationals. -/

namespace CqlDriver.Reconnection

/-- The policy, with delays in milliseconds. -/
structure ExponentialReconnectionPolicy where
  baseDelay : ℤ
  maxDelay : ℤ
  startWithNoDelay : Bool
  base_pos : 0 < baseDelay
  base_le_max : baseDelay ≤ maxDelay

/-- The values of `Math.random()`. -/
abbrev Random := Set.Ico (0 : ℚ) 1

/-- `Math.floor(value * (Math.random() * range + minPercentage))` -/
def jittered (value : ℤ) (range minPercentage : ℚ) (random : Random) : ℤ :=
  ⌊(value : ℚ) * (random * range + minPercentage)⌋

namespace ExponentialReconnectionPolicy

variable (p : ExponentialReconnectionPolicy)

/-- `_addJitter` -/
def addJitter (value : ℤ) (random : Random) : ℤ :=
  if value = 0 then value
  else if !p.startWithNoDelay && value == p.baseDelay then jittered value 0.15 1 random
  else if value = p.maxDelay then jittered value 0.15 0.85 random
  else jittered value 0.3 0.85 random

/-- The delay of a pass of the loop before jitter. -/
def plainDelay (index : ℤ) : ℤ :=
  if 64 ≤ index then p.maxDelay
  else if index ≠ -1 then min (2 ^ index.toNat * p.baseDelay) p.maxDelay
  else 0

/-- A pass of the loop of `newSchedule`: the delay that it yields, and the next index. -/
def pass (index : ℤ) (random : Random) : ℤ × ℤ := (p.addJitter (p.plainDelay index) random, index + 1)

/-- The index before the pass of an attempt. -/
def index (randoms : ℕ → Random) : ℕ → ℤ
  | 0 => if p.startWithNoDelay then -1 else 0
  | attempt + 1 => (p.pass (index randoms attempt) (randoms attempt)).2

/-- The delay that the schedule yields for an attempt. -/
def delay (randoms : ℕ → Random) (attempt : ℕ) : ℤ := (p.pass (p.index randoms attempt) (randoms attempt)).1

/-- The bounds that the class documents, with the first attempt of `startWithNoDelay` apart. -/
def WithinBounds : Prop :=
  ∀ (randoms : ℕ → Random) (attempt : ℕ),
    if p.startWithNoDelay ∧ attempt = 0 then p.delay randoms attempt = 0
    else p.baseDelay ≤ p.delay randoms attempt ∧ p.delay randoms attempt ≤ p.maxDelay

/-- There is room for the jitter of each delay: 15 percent of the base delay below it at the greatest delay, and 15 percent
above each of the doubled delays that are not capped. -/
def RoomForJitter : Prop :=
  p.startWithNoDelay = false ∧
    (p.maxDelay = p.baseDelay ∧ p.baseDelay ≤ 6 ∨
      100 * p.baseDelay ≤ 85 * p.maxDelay ∧
        ∀ k < 64, 2 ^ k * p.baseDelay < p.maxDelay → 115 * (2 ^ k * p.baseDelay) ≤ 100 * (p.maxDelay + 1))

instance : Decidable p.RoomForJitter := inferInstanceAs (Decidable (_ ∧ _))

end ExponentialReconnectionPolicy

/-! ### Jitter -/

/-- The least value is that of the least random number. -/
theorem le_jittered_iff (bound : ℤ) (minPercentage : ℚ) {value : ℤ} {range : ℚ} (hvalue : 0 < value) (hrange : 0 < range) :
    (∀ r, bound ≤ jittered value range minPercentage r) ↔ (bound : ℚ) ≤ value * minPercentage := by
  have hpos : (0 : ℚ) < value := by exact_mod_cast hvalue
  constructor
  · intro h
    have hzero := Int.le_floor.1 (h ⟨0, by norm_num⟩)
    simpa using hzero
  · intro h r
    have hr : (0 : ℚ) ≤ r := r.2.1
    apply Int.le_floor.2
    calc (bound : ℚ) ≤ value * minPercentage := h
      _ ≤ value * (r * range + minPercentage) := by
          apply mul_le_mul_of_nonneg_left _ hpos.le
          have := mul_nonneg hr hrange.le
          linarith

/-- The values come as close to `value * (range + minPercentage)` as one likes. -/
theorem jittered_le_iff (bound : ℤ) (minPercentage : ℚ) {value : ℤ} {range : ℚ} (hvalue : 0 < value) (hrange : 0 < range)
    (hmin : value * minPercentage ≤ bound + 1) :
    (∀ r, jittered value range minPercentage r ≤ bound) ↔ (value : ℚ) * (range + minPercentage) ≤ bound + 1 := by
  have hpos : (0 : ℚ) < value := by exact_mod_cast hvalue
  constructor
  · intro h
    by_contra hover
    rw [not_le] at hover
    -- the random number whose value is `bound + 1`
    have hprod : 0 < value * range := mul_pos hpos hrange
    have hr : (bound + 1 - value * minPercentage) / (value * range) ∈ Set.Ico (0 : ℚ) 1 := by
      constructor
      · exact div_nonneg (by linarith) hprod.le
      · rw [div_lt_one hprod]
        linarith
    have hle := h ⟨_, hr⟩
    have heq : (value : ℚ) * ((bound + 1 - value * minPercentage) / (value * range) * range + minPercentage) =
        ((bound + 1 : ℤ) : ℚ) := by
      field_simp
      push_cast
      ring
    rw [jittered, heq, Int.floor_intCast] at hle
    omega
  · intro h r
    have hr : (r : ℚ) < 1 := r.2.2
    rw [← Int.lt_add_one_iff, jittered, Int.floor_lt]
    push_cast
    calc (value : ℚ) * (r * range + minPercentage) < value * (1 * range + minPercentage) := by
          apply mul_lt_mul_of_pos_left _ hpos
          have := mul_lt_mul_of_pos_right hr hrange
          linarith
      _ ≤ bound + 1 := by rwa [one_mul]

/-- In integers, with 15 percent more. -/
theorem add_percent_le_iff (value bound : ℤ) :
    (value : ℚ) * 1.15 ≤ bound + 1 ↔ 115 * value ≤ 100 * (bound + 1) := by
  rw [← @Int.cast_le ℚ]
  push_cast
  constructor
  · intro hq
    linarith
  · intro hz
    linarith

/-! ### The schedule -/

namespace ExponentialReconnectionPolicy

variable {p : ExponentialReconnectionPolicy}

theorem index_eq (randoms : ℕ → Random) (attempt : ℕ) :
    p.index randoms attempt = attempt + if p.startWithNoDelay then -1 else 0 := by
  induction attempt with
  | zero => rw [index, Nat.cast_zero, zero_add]
  | succ attempt ih =>
      rw [index, pass, ih]
      push_cast
      ring

theorem delay_eq (h : p.startWithNoDelay = false) (randoms : ℕ → Random) (attempt : ℕ) :
    p.delay randoms attempt = p.addJitter (p.plainDelay attempt) (randoms attempt) := by
  rw [delay, pass, index_eq, h, if_neg (by decide), add_zero]

theorem plainDelay_natCast (k : ℕ) :
    p.plainDelay k = if 64 ≤ k then p.maxDelay else min (2 ^ k * p.baseDelay) p.maxDelay := by
  rw [plainDelay, Int.toNat_natCast, if_pos (by omega : (k : ℤ) ≠ -1)]
  norm_cast

/-- The doubled delays that are not capped. -/
theorem plainDelay_of_lt {k : ℕ} (hk : k < 64) (hlt : 2 ^ k * p.baseDelay < p.maxDelay) :
    p.plainDelay k = 2 ^ k * p.baseDelay := by
  rw [plainDelay_natCast, if_neg (by omega), min_eq_left hlt.le]

theorem plainDelay_cases (k : ℕ) :
    p.plainDelay k = p.maxDelay ∨
      k < 64 ∧ 2 ^ k * p.baseDelay < p.maxDelay ∧ p.plainDelay k = 2 ^ k * p.baseDelay := by
  rw [plainDelay_natCast]
  split_ifs with hk
  · exact Or.inl rfl
  · by_cases hlt : 2 ^ k * p.baseDelay < p.maxDelay
    · exact Or.inr ⟨by omega, hlt, min_eq_left hlt.le⟩
    · exact Or.inl (min_eq_right (not_lt.1 hlt))

/-- With jitter, the delay stays between the bounds. -/
def Stays (p : ExponentialReconnectionPolicy) (value : ℤ) : Prop :=
  ∀ r, p.baseDelay ≤ p.addJitter value r ∧ p.addJitter value r ≤ p.maxDelay

theorem withinBounds_iff_stays (h : p.startWithNoDelay = false) : p.WithinBounds ↔ ∀ k : ℕ, p.Stays (p.plainDelay k) := by
  have hfirst (attempt : ℕ) : ¬(p.startWithNoDelay = true ∧ attempt = 0) := by
    rw [h]
    exact fun hand => Bool.false_ne_true hand.1
  constructor
  · intro hwithin k r
    have := hwithin (fun _ => r) k
    rwa [if_neg (hfirst k), delay_eq h] at this
  · intro hstays randoms attempt
    rw [if_neg (hfirst attempt), delay_eq h]
    exact hstays attempt (randoms attempt)

/-- The base delay grows by at most 15 percent. -/
theorem stays_base (h : p.startWithNoDelay = false) :
    p.Stays p.baseDelay ↔ 115 * p.baseDelay ≤ 100 * (p.maxDelay + 1) := by
  have hbase := p.base_pos
  have hle : (p.baseDelay : ℚ) ≤ p.maxDelay := by exact_mod_cast p.base_le_max
  have hjitter (r : Random) : p.addJitter p.baseDelay r = jittered p.baseDelay 0.15 1 r := by
    rw [addJitter, if_neg hbase.ne', h, if_pos (by simp)]
  have hlow := (le_jittered_iff p.baseDelay 1 hbase (show (0 : ℚ) < 0.15 by norm_num)).2 (by rw [mul_one])
  have hhigh := jittered_le_iff p.maxDelay 1 hbase (show (0 : ℚ) < 0.15 by norm_num)
    (by linarith)
  rw [show (0.15 + 1 : ℚ) = 1.15 by norm_num, add_percent_le_iff] at hhigh
  rw [← hhigh]
  simp only [Stays, hjitter]
  exact ⟨fun hs r => (hs r).2, fun hs r => ⟨hlow r, hs r⟩⟩

/-- The greatest delay shrinks by at most 15 percent. -/
theorem stays_max (hlt : p.baseDelay < p.maxDelay) :
    p.Stays p.maxDelay ↔ 100 * p.baseDelay ≤ 85 * p.maxDelay := by
  have hmax : 0 < p.maxDelay := p.base_pos.trans hlt
  have hjitter (r : Random) : p.addJitter p.maxDelay r = jittered p.maxDelay 0.15 0.85 r := by
    rw [addJitter, if_neg hmax.ne', if_neg (by simp [hlt.ne']), if_pos rfl]
  have hq : (0 : ℚ) < p.maxDelay := by exact_mod_cast hmax
  have hlow := le_jittered_iff p.baseDelay 0.85 hmax (show (0 : ℚ) < 0.15 by norm_num)
  have hhigh := (jittered_le_iff p.maxDelay 0.85 hmax (show (0 : ℚ) < 0.15 by norm_num)
    (by linarith)).2 (by linarith)
  have hcast : (p.baseDelay : ℚ) ≤ p.maxDelay * 0.85 ↔ 100 * p.baseDelay ≤ 85 * p.maxDelay := by
    rw [← @Int.cast_le ℚ]
    push_cast
    constructor
    · intro hq
      linarith
    · intro hz
      linarith
  rw [← hcast, ← hlow]
  simp only [Stays, hjitter]
  exact ⟨fun hs r => (hs r).1, fun hs r => ⟨hs r, hhigh r⟩⟩

/-- A delay between the bounds varies by 15 percent to both sides. -/
theorem stays_between {value : ℤ} (hdouble : 2 * p.baseDelay ≤ value) (hlt : value < p.maxDelay) :
    p.Stays value ↔ 115 * value ≤ 100 * (p.maxDelay + 1) := by
  have hbase := p.base_pos
  have hvalue : 0 < value := by omega
  have hjitter (r : Random) : p.addJitter value r = jittered value 0.3 0.85 r := by
    rw [addJitter, if_neg hvalue.ne', if_neg (by simp; omega), if_neg hlt.ne]
  have hq : (0 : ℚ) < p.baseDelay := by exact_mod_cast hbase
  have hdq : 2 * (p.baseDelay : ℚ) ≤ value := by exact_mod_cast hdouble
  have hlq : (value : ℚ) < p.maxDelay := by exact_mod_cast hlt
  have hlow := (le_jittered_iff p.baseDelay 0.85 hvalue
    (show (0 : ℚ) < 0.3 by norm_num)).2 (by linarith)
  have hhigh := jittered_le_iff p.maxDelay 0.85 hvalue (show (0 : ℚ) < 0.3 by norm_num)
    (by linarith)
  rw [show (0.3 + 0.85 : ℚ) = 1.15 by norm_num, add_percent_le_iff] at hhigh
  rw [← hhigh]
  simp only [Stays, hjitter]
  exact ⟨fun hs r => (hs r).2, fun hs r => ⟨hlow r, hs r⟩⟩

theorem stays_doubled (h : p.startWithNoDelay = false) {k : ℕ} (hlt : 2 ^ k * p.baseDelay < p.maxDelay) :
    p.Stays (2 ^ k * p.baseDelay) ↔ 115 * (2 ^ k * p.baseDelay) ≤ 100 * (p.maxDelay + 1) := by
  cases k with
  | zero => rw [pow_zero, one_mul, stays_base h]
  | succ k =>
      refine stays_between ?_ hlt
      have hpow : (0 : ℤ) < 2 ^ k := by positivity
      rw [pow_succ', mul_assoc]
      have := mul_le_mul_of_nonneg_right (show (1 : ℤ) ≤ 2 ^ k by omega) p.base_pos.le
      omega

theorem withinBounds_of_room (h : p.RoomForJitter) : p.WithinBounds := by
  obtain ⟨hflag, hroom⟩ := h
  rw [withinBounds_iff_stays hflag]
  intro k
  rcases plainDelay_cases (p := p) k with heq | ⟨hk, hlt, heq⟩
  · rw [heq]
    rcases hroom with ⟨hmax, hsix⟩ | ⟨hmax, -⟩
    · rw [hmax, stays_base hflag]
      omega
    · exact (stays_max (by have := p.base_pos; omega)).2 hmax
  · rw [heq, stays_doubled hflag hlt]
    rcases hroom with ⟨hmax, -⟩ | ⟨-, hdoubled⟩
    · have hpow : (0 : ℤ) < 2 ^ k := by positivity
      have := mul_le_mul_of_nonneg_right (show (1 : ℤ) ≤ 2 ^ k by omega) p.base_pos.le
      omega
    · exact hdoubled k hk hlt

theorem room_of_withinBounds (hflag : p.startWithNoDelay = false) (h : p.WithinBounds) : p.RoomForJitter := by
  rw [withinBounds_iff_stays hflag] at h
  refine ⟨hflag, ?_⟩
  have hdoubled (k : ℕ) (hk : k < 64) (hlt : 2 ^ k * p.baseDelay < p.maxDelay) := by
    have hstays := h k
    rw [plainDelay_of_lt hk hlt] at hstays
    exact (stays_doubled hflag hlt).1 hstays
  have hmax := h 64
  rw [plainDelay_natCast, if_pos le_rfl] at hmax
  rcases p.base_le_max.eq_or_lt with heq | hlt
  · rw [← heq, stays_base hflag] at hmax
    exact Or.inl ⟨heq.symm, by omega⟩
  · exact Or.inr ⟨(stays_max hlt).1 hmax, hdoubled⟩

/-- After the first attempt without a delay, the base delay may shrink. -/
theorem not_withinBounds_of_startWithNoDelay (h : p.startWithNoDelay = true) : ¬p.WithinBounds := by
  intro hwithin
  have hbase := p.base_pos
  have hzero : p.plainDelay 0 = p.baseDelay := by
    have := plainDelay_natCast (p := p) 0
    rwa [if_neg (by decide), pow_zero, one_mul, min_eq_left p.base_le_max, Nat.cast_zero] at this
  have hdelay := (hwithin (fun _ => ⟨0, by norm_num⟩) 1)
  rw [if_neg (by omega), delay, pass, index_eq, if_pos h, Nat.cast_one, add_neg_cancel, hzero] at hdelay
  have hlt (range : ℚ) : jittered p.baseDelay range 0.85 ⟨0, by norm_num⟩ < p.baseDelay := by
    have hq : (0 : ℚ) < p.baseDelay := by exact_mod_cast hbase
    rw [jittered, Int.floor_lt]
    linarith
  simp only [addJitter, if_neg hbase.ne', h, Bool.not_true, Bool.false_and, Bool.false_eq_true, if_false] at hdelay
  split_ifs at hdelay
  · exact absurd hdelay.1 (not_le.2 (hlt _))
  · exact absurd hdelay.1 (not_le.2 (hlt _))

/-- The documented bounds hold of exactly the policies with room for the jitter. -/
theorem withinBounds_iff (p : ExponentialReconnectionPolicy) : p.WithinBounds ↔ p.RoomForJitter := by
  constructor
  · intro h
    cases hflag : p.startWithNoDelay with
    | false => exact room_of_withinBounds hflag h
    | true => exact absurd h (not_withinBounds_of_startWithNoDelay hflag)
  · exact withinBounds_of_room

/-- The fourth delay is eight seconds before jitter. -/
def nineSeconds : ExponentialReconnectionPolicy := ⟨1000, 9000, false, by decide, by decide⟩

/-- The default delays, the first attempt without one. -/
def noDelay : ExponentialReconnectionPolicy := ⟨1000, 600000, true, by decide, by decide⟩

/-- The fourth delay of the one policy exceeds nine seconds, the second one of the other is less than a second. -/
theorem delay_outside_bounds :
    nineSeconds.delay (fun _ => ⟨0.99, by norm_num⟩) 3 = 9176 ∧ noDelay.delay (fun _ => ⟨0, by norm_num⟩) 1 = 850 ∧
      ¬nineSeconds.WithinBounds ∧ ¬noDelay.WithinBounds := by
  have hover : nineSeconds.delay (fun _ => ⟨0.99, by norm_num⟩) 3 = 9176 := by
    rw [delay_eq rfl]
    have hplain : nineSeconds.plainDelay (3 : ℕ) = 8000 := by decide
    rw [hplain, addJitter, if_neg (by decide), if_neg (by decide), if_neg (by decide), jittered]
    norm_num [Int.floor_eq_iff]
  have hunder : noDelay.delay (fun _ => ⟨0, by norm_num⟩) 1 = 850 := by
    have hpass : noDelay.plainDelay (noDelay.index (fun _ => ⟨0, by norm_num⟩) 1) = 1000 := by
      rw [index_eq]
      decide
    rw [delay, pass, hpass, addJitter, if_neg (by decide), if_neg (by decide), if_neg (by decide), jittered]
    norm_num [Int.floor_eq_iff]
  refine ⟨hover, hunder, fun h => ?_, fun h => ?_⟩
  · have hle := (h (fun _ => ⟨0.99, by norm_num⟩) 3).2
    rw [hover] at hle
    exact absurd hle (by decide)
  · have hle := (h (fun _ => ⟨0, by norm_num⟩) 1).1
    rw [hunder] at hle
    exact absurd hle (by decide)

end ExponentialReconnectionPolicy

end CqlDriver.Reconnection
