import CqlDriver.Lib.Bytes

/-! # Time-based UUIDs (`lib/types/time-uuid.js`)

A `TimeUuid` holds a timestamp in units of 100 ns, 10 000 of them in a millisecond.  The module keeps
three counters that all calls share: `now` numbers the calls within a millisecond with
`ticksForCurrentTime`, and `fromDate` without ticks takes them from `ticks`.  The timestamp has 60
bits in the buffer, below the version.

`Call` is a construction with its environment: the reading of the clock and the random bytes.  With a
callback the identifiers are generated before the construction, which is then the same. -/

namespace CqlDriver

open Bytes

structure TimeUuid where
  buffer : List UInt8
  valid : buffer.length = 16

namespace TimeUuid

/-- Oct 15, 1582 in milliseconds before the unix epoch. -/
def unixToGregorian : ℤ := 12219292800000

/-- 10,000 ticks in a millisecond. -/
def ticksInMs : ℤ := 10000

/-- The counters of the module. -/
structure Counters where
  ticks : ℤ
  ticksForCurrentTime : ℤ
  lastTimestamp : ℤ
deriving DecidableEq, Repr

def Counters.initial : Counters := ⟨0, 0, 0⟩

/-- A node or clock identifier; `absent` stands for what is neither a string nor a `Buffer`. -/
inductive Identifier where
  | absent
  | string (units : List UInt16)
  | buffer (bytes : List UInt8)

/-! ### Construction -/

/-- `getTicks` -/
def getTicks (c : Counters) (ticks : Option ℤ) : ℤ × Counters :=
  match ticks with
  | some n => if ticksInMs ≤ n then next c else (n, c)
  | none => next c
where
  next (c : Counters) : ℤ × Counters :=
    let ticks := if ticksInMs ≤ c.ticks + 1 then 0 else c.ticks + 1
    (ticks, { c with ticks := ticks })

/-- `getTimeWithTicks`: `date` is the time of a valid `Date`, and `time` the reading of the clock that
is used when there is none. -/
def getTimeWithTicks (c : Counters) (time : ℤ) (date : Option ℤ) (ticks : Option ℤ) :
    (ℤ × ℤ) × Counters :=
  match date with
  | some date =>
      let (ticks, c) := getTicks c ticks
      ((date, ticks), c)
  | none =>
      let c := { c with ticksForCurrentTime := c.ticksForCurrentTime + 1 }
      let c := if ticksInMs < c.ticksForCurrentTime ∨ c.lastTimestamp < time then
          { c with ticksForCurrentTime := 0, lastTimestamp := time }
        else c
      let (ticks, c) := getTicks c (some c.ticksForCurrentTime)
      ((time, ticks), c)

/-- The timestamp as a `Long`. -/
def timestamp (time ticks : ℤ) : BitVec 64 :=
  BitVec.ofInt 64 (time + unixToGregorian) * BitVec.ofInt 64 10000 + BitVec.ofInt 64 ticks

/-- `writeTime`: the bytes 0 to 7. -/
def writeTime (time ticks : ℤ) : List UInt8 :=
  let val := timestamp time ticks
  let timeHigh := val.toNat / 2 ^ 32
  toBE 4 (val.toNat % 2 ^ 32) ++ toBE 2 (timeHigh % 2 ^ 16) ++ toBE 2 (timeHigh / 2 ^ 16 % 2 ^ 16)

/-- `getNodeId` and `getClockId`; a string is converted by the low bytes of its code units. -/
def getId (n : ℕ) (message : String) (id : Identifier) (random : Vector UInt8 n) :
    Except String (Vector UInt8 n) :=
  match id with
  | .absent => .ok random
  | .string units => ofBytes (units.map UInt16.toUInt8)
  | .buffer bytes => ofBytes bytes
where
  ofBytes (bytes : List UInt8) : Except String (Vector UInt8 n) :=
    if h : bytes.length = n then .ok ⟨bytes.toArray, h⟩ else .error message

def getNodeId : Identifier → Vector UInt8 6 → Except String (Vector UInt8 6) :=
  getId 6 "Node identifier must have 6 bytes"

def getClockId : Identifier → Vector UInt8 2 → Except String (Vector UInt8 2) :=
  getId 2 "Clock identifier must have 2 bytes"

/-- The version and the variant in the bytes 6 and 8. -/
def stamp (buffer : List UInt8) : List UInt8 :=
  (buffer.modify 6 fun b => b &&& 0x0f ||| 0x10).modify 8 fun b => b &&& 0x3f ||| 0x80

/-- A construction: what it is called with and what it reads. -/
structure Call where
  /-- The time of the date; `none` for `now`. -/
  date : Option ℤ
  ticks : Option ℤ
  nodeId : Identifier
  clockId : Identifier
  /-- The reading of the clock. -/
  time : ℤ
  randomNode : Vector UInt8 6
  randomClock : Vector UInt8 2

/-- `generateBuffer`: the counters change also when an identifier is refused. -/
def generateBuffer (c : Counters) (call : Call) : Except String TimeUuid × Counters :=
  let (timeWithTicks, c) := getTimeWithTicks c call.time call.date call.ticks
  let result := do
    let nodeId ← getNodeId call.nodeId call.randomNode
    let clockId ← getClockId call.clockId call.randomClock
    .ok ⟨stamp (writeTime timeWithTicks.1 timeWithTicks.2 ++ clockId.toList ++ nodeId.toList),
      by simp [stamp, writeTime]⟩
  (result, c)

/-- `TimeUuid.now(nodeId, clockId)` at a reading of the clock. -/
def now (nodeId clockId : Identifier) (time : ℤ) (randomNode : Vector UInt8 6)
    (randomClock : Vector UInt8 2) : Call :=
  ⟨none, none, nodeId, clockId, time, randomNode, randomClock⟩

/-! ### Reading -/

def byte (u : TimeUuid) (i : ℕ) : ℕ := (u.buffer.getD i 0).toNat

/-- `getDatePrecision`: the date in milliseconds and the ticks. -/
def getDatePrecision (u : TimeUuid) : ℤ × ℤ :=
  let timeLow := ofBE (u.buffer.take 4)
  let timeHigh := u.byte 4 <<< 8 ||| u.byte 5 ||| (u.byte 6 &&& 0x0f) <<< 24 ||| u.byte 7 <<< 16
  let val : BitVec 64 := BitVec.ofNat 64 (timeHigh * 2 ^ 32 + timeLow)
  (val.toInt.tdiv ticksInMs - unixToGregorian, val.toInt.tmod ticksInMs)

/-- The timestamps of the `TimeUuid`s that the calls of `now` among `calls` produce. -/
def nowTimestamps (c : Counters) : List Call → List (ℤ × ℤ)
  | [] => []
  | call :: calls =>
      let (result, c) := generateBuffer c call
      match call.date, result with
      | none, .ok u => u.getDatePrecision :: nowTimestamps c calls
      | _, _ => nowTimestamps c calls

/-- The readings of the clock by the calls of `now`. -/
def readings (calls : List Call) : List ℤ :=
  (calls.filter fun call => call.date.isNone).map Call.time

/-! ### The buffer -/

theorem toNat_timestamp {time ticks : ℤ} (h₀ : 0 ≤ ticksInMs * (time + unixToGregorian) + ticks)
    (h : ticksInMs * (time + unixToGregorian) + ticks < 2 ^ 64) :
    ((timestamp time ticks).toNat : ℤ) = ticksInMs * (time + unixToGregorian) + ticks := by
  have heq : timestamp time ticks = BitVec.ofInt 64 (ticksInMs * (time + unixToGregorian) + ticks) := by
    unfold timestamp ticksInMs
    rw [← BitVec.ofInt_mul, ← BitVec.ofInt_add, mul_comm]
  rw [heq, BitVec.toNat_ofInt, Int.toNat_of_nonneg (Int.emod_nonneg _ (by norm_num))]
  exact Int.emod_eq_of_lt h₀ h

/-- The version byte keeps its low bits. -/
theorem toNat_version (b : UInt8) : (b &&& 0x0f ||| 0x10).toNat &&& 0x0f = b.toNat % 16 := by
  have h : ∀ n < 256, (UInt8.ofNat n &&& 0x0f ||| 0x10).toNat &&& 0x0f = n % 16 := by decide +kernel
  have := h b.toNat b.toNat_lt
  rwa [UInt8.ofNat_toNat] at this

/-- The four bytes that hold the high bits, put together. -/
theorem high_or {a b n d : ℕ} (hb : b < 2 ^ 8) (ha : a < 2 ^ 8) (hd : d < 2 ^ 8) :
    a <<< 8 ||| b ||| n <<< 24 ||| d <<< 16 = n * 2 ^ 24 + d * 2 ^ 16 + a * 2 ^ 8 + b := by
  have h₁ : a <<< 8 ||| b = a * 2 ^ 8 + b := by
    rw [← Nat.shiftLeft_add_eq_or_of_lt hb, Nat.shiftLeft_eq]
  have h₂ : d <<< 16 ||| (a * 2 ^ 8 + b) = d * 2 ^ 16 + (a * 2 ^ 8 + b) := by
    rw [← Nat.shiftLeft_add_eq_or_of_lt (by omega), Nat.shiftLeft_eq]
  have h₃ : n <<< 24 ||| (d * 2 ^ 16 + (a * 2 ^ 8 + b)) = n * 2 ^ 24 + (d * 2 ^ 16 + (a * 2 ^ 8 + b)) := by
    rw [← Nat.shiftLeft_add_eq_or_of_lt (by omega), Nat.shiftLeft_eq]
  calc a <<< 8 ||| b ||| n <<< 24 ||| d <<< 16
      = n <<< 24 ||| (d <<< 16 ||| (a <<< 8 ||| b)) := by
        rw [Nat.or_comm (a <<< 8 ||| b), Nat.or_assoc, Nat.or_comm (a <<< 8 ||| b)]
    _ = n * 2 ^ 24 + d * 2 ^ 16 + a * 2 ^ 8 + b := by rw [h₁, h₂, h₃]; omega

/-- The 60 bits of the timestamp: the high field without the version, the middle and the low field. -/
def timestampBits (u : TimeUuid) : ℕ :=
  (u.byte 6 % 16 * 2 ^ 8 + u.byte 7) * 2 ^ 48 + (u.byte 4 * 2 ^ 8 + u.byte 5) * 2 ^ 32 + ofBE (u.buffer.take 4)

theorem byte_lt (u : TimeUuid) (i : ℕ) : u.byte i < 2 ^ 8 := (u.buffer.getD i 0).toNat_lt

theorem timestampBits_lt (u : TimeUuid) : u.timestampBits < 2 ^ 60 := by
  have hlow := ofBE_lt (u.buffer.take 4)
  rw [List.length_take, u.valid, show min 4 16 = 4 from rfl] at hlow
  have h₄ := u.byte_lt 4
  have h₅ := u.byte_lt 5
  have h₇ := u.byte_lt 7
  unfold timestampBits
  omega

/-- `getDatePrecision` reads the 60 bits as a number of ticks. -/
theorem getDatePrecision_eq (u : TimeUuid) : u.getDatePrecision =
    ((u.timestampBits : ℤ) / ticksInMs - unixToGregorian, (u.timestampBits : ℤ) % ticksInMs) := by
  have hlt := u.timestampBits_lt
  have hversion : u.byte 6 &&& 0x0f = u.byte 6 % 16 := Nat.and_two_pow_sub_one_eq_mod (u.byte 6) 4
  have hval : (u.byte 6 % 16 * 2 ^ 24 + u.byte 7 * 2 ^ 16 + u.byte 4 * 2 ^ 8 + u.byte 5) * 2 ^ 32 +
      ofBE (u.buffer.take 4) = u.timestampBits := by
    unfold timestampBits
    omega
  have hint : (BitVec.ofNat 64 u.timestampBits).toInt = u.timestampBits := by
    have hnat : (BitVec.ofNat 64 u.timestampBits).toNat = u.timestampBits := by
      rw [BitVec.toNat_ofNat]
      exact Nat.mod_eq_of_lt (hlt.trans (by norm_num))
    rw [BitVec.toInt_eq_toNat_of_lt (by rw [hnat]; omega), hnat]
  unfold getDatePrecision
  simp only
  rw [high_or (u.byte_lt 5) (u.byte_lt 4) (u.byte_lt 7), hversion, hval, hint,
    Int.tdiv_eq_ediv_of_nonneg (Int.natCast_nonneg _), Int.tmod_eq_emod_of_nonneg (Int.natCast_nonneg _)]

/-- What eight bytes of a timestamp keep of it below the version. -/
theorem timestampBits_stamp {val : ℕ} {tail : List UInt8} {u : TimeUuid}
    (hu : u.buffer = stamp (toBE 4 (val % 2 ^ 32) ++ toBE 2 (val / 2 ^ 32 % 2 ^ 16) ++
      toBE 2 (val / 2 ^ 32 / 2 ^ 16 % 2 ^ 16) ++ tail)) : u.timestampBits = val % 2 ^ 60 := by
  have hlow : ofBE (u.buffer.take 4) = val % 2 ^ 32 := by
    have htake : u.buffer.take 4 = toBE 4 (val % 2 ^ 32) := by
      rw [hu]
      rfl
    rw [htake, ofBE_toBE_of_lt (by omega)]
  have h₄ : u.byte 4 = val / 2 ^ 40 % 2 ^ 8 := by
    unfold byte
    rw [hu]
    change (UInt8.ofNat (val / 2 ^ 32 % 2 ^ 16 / 256)).toNat = _
    rw [UInt8.toNat_ofNat']
    omega
  have h₅ : u.byte 5 = val / 2 ^ 32 % 2 ^ 8 := by
    unfold byte
    rw [hu]
    change (UInt8.ofNat (val / 2 ^ 32 % 2 ^ 16)).toNat = _
    rw [UInt8.toNat_ofNat']
    omega
  have h₆ : u.byte 6 % 16 = val / 2 ^ 56 % 2 ^ 4 := by
    unfold byte
    rw [hu]
    change (UInt8.ofNat (val / 2 ^ 32 / 2 ^ 16 % 2 ^ 16 / 256) &&& 0x0f ||| 0x10).toNat % 16 = _
    rw [← Nat.and_two_pow_sub_one_eq_mod _ 4, toNat_version, UInt8.toNat_ofNat']
    omega
  have h₇ : u.byte 7 = val / 2 ^ 48 % 2 ^ 8 := by
    unfold byte
    rw [hu]
    change (UInt8.ofNat (val / 2 ^ 32 / 2 ^ 16 % 2 ^ 16)).toNat = _
    rw [UInt8.toNat_ofNat']
    omega
  unfold timestampBits
  rw [hlow, h₄, h₅, h₆, h₇]
  omega

/-- What is read of a buffer written with eight bytes of a timestamp. -/
theorem getDatePrecision_stamp {val : ℕ} (hval : val < 2 ^ 60) {tail : List UInt8} {u : TimeUuid}
    (hu : u.buffer = stamp (toBE 4 (val % 2 ^ 32) ++ toBE 2 (val / 2 ^ 32 % 2 ^ 16) ++
      toBE 2 (val / 2 ^ 32 / 2 ^ 16 % 2 ^ 16) ++ tail)) :
    u.getDatePrecision = ((val : ℤ) / ticksInMs - unixToGregorian, (val : ℤ) % ticksInMs) := by
  rw [getDatePrecision_eq, timestampBits_stamp hu, Nat.mod_eq_of_lt hval]

/-- A `TimeUuid` gives back the time and the ticks it was made of, up to the 60 bits there are. -/
theorem getDatePrecision_generateBuffer {c : Counters} {call : Call} {u : TimeUuid} {time ticks : ℤ}
    (htime : (getTimeWithTicks c call.time call.date call.ticks).1 = (time, ticks))
    (hu : (generateBuffer c call).1 = .ok u) (h₀ : 0 ≤ ticks) (h₁ : ticks < ticksInMs)
    (hlo : 0 ≤ time + unixToGregorian)
    (hhi : ticksInMs * (time + unixToGregorian) + ticks < 2 ^ 60) : u.getDatePrecision = (time, ticks) := by
  have hval := @toNat_timestamp time ticks (by unfold ticksInMs; omega) (by omega)
  have hbuffer : ∃ tail, u.buffer = stamp (writeTime time ticks ++ tail) := by
    unfold generateBuffer at hu
    simp only [htime] at hu
    cases hn : getNodeId call.nodeId call.randomNode with
    | error e => simp [hn, bind, Except.bind] at hu
    | ok node =>
        cases hc : getClockId call.clockId call.randomClock with
        | error e => simp [hn, hc, bind, Except.bind] at hu
        | ok clock =>
            simp only [hn, hc, bind, Except.bind, Except.ok.injEq] at hu
            refine ⟨clock.toList ++ node.toList, ?_⟩
            rw [← List.append_assoc]
            exact (congrArg buffer hu).symm
  obtain ⟨tail, htail⟩ := hbuffer
  have hfits : (timestamp time ticks).toNat < 2 ^ 60 := by omega
  have hread := getDatePrecision_stamp hfits htail
  rw [hread, hval, mul_comm]
  unfold ticksInMs at h₁ ⊢
  refine Prod.ext ?_ ?_
  · simp only
    omega
  · simp only
    omega

/-! ### The counters along a run -/

/-- The order of timestamps. -/
def Earlier (p q : ℤ × ℤ) : Prop := p.1 < q.1 ∨ p.1 = q.1 ∧ p.2 < q.2

instance : DecidableRel Earlier := fun _ _ => inferInstanceAs (Decidable (_ ∨ _))

/-- The readings with the number of times each has been read before; `seen` are the readings before
the list. -/
def numbered : List ℤ → List ℤ → List (ℤ × ℤ)
  | _, [] => []
  | seen, r :: rs => (r, (seen.count r : ℤ)) :: numbered (seen ++ [r]) rs

theorem mem_numbered {seen rs : List ℤ} {q : ℤ × ℤ} (h : q ∈ numbered seen rs) :
    q.1 ∈ rs ∧ (seen.count q.1 : ℤ) ≤ q.2 := by
  induction rs generalizing seen with
  | nil => cases h
  | cons r rs ih =>
      rw [numbered, List.mem_cons] at h
      obtain rfl | h := h
      · exact ⟨List.mem_cons_self .., le_rfl⟩
      · obtain ⟨hmem, hle⟩ := ih h
        rw [List.count_append] at hle
        exact ⟨List.mem_cons_of_mem _ hmem, by omega⟩

theorem numbered_pairwise {rs : List ℤ} (h : rs.Pairwise (· ≤ ·)) (seen : List ℤ) :
    (numbered seen rs).Pairwise Earlier := by
  induction rs generalizing seen with
  | nil => exact .nil
  | cons r rs ih =>
      obtain ⟨hr, hrs⟩ := List.pairwise_cons.1 h
      rw [numbered, List.pairwise_cons]
      refine ⟨fun q hq => ?_, ih hrs _⟩
      obtain ⟨hmem, hle⟩ := mem_numbered hq
      obtain hlt | heq := lt_or_eq_of_le (hr _ hmem)
      · exact .inl hlt
      · rw [← heq, List.count_append, List.count_singleton_self] at hle
        exact .inr ⟨heq, by push_cast at hle; omega⟩

/-- The counters behind the readings `seen`: the last one, with the number of times it was read. -/
def Counters.After (c : Counters) (seen : List ℤ) : Prop :=
  match seen.getLast? with
  | none => c.lastTimestamp = 0
  | some r => c.lastTimestamp = r ∧ c.ticksForCurrentTime + 1 = seen.count r

theorem Counters.After.of_eq {c c' : Counters} {seen : List ℤ} (h : c.After seen)
    (h₁ : c'.lastTimestamp = c.lastTimestamp) (h₂ : c'.ticksForCurrentTime = c.ticksForCurrentTime) :
    c'.After seen := by
  unfold After at h ⊢
  rw [h₁, h₂]
  exact h

theorem getTicks_unchanged (c : Counters) (ticks : Option ℤ) :
    (getTicks c ticks).2.lastTimestamp = c.lastTimestamp ∧
      (getTicks c ticks).2.ticksForCurrentTime = c.ticksForCurrentTime := by
  unfold getTicks getTicks.next
  cases ticks with
  | none => exact ⟨rfl, rfl⟩
  | some n =>
      simp only
      split_ifs <;> exact ⟨rfl, rfl⟩

theorem getTicks_of_lt {n : ℤ} (h : n < ticksInMs) (c : Counters) : getTicks c (some n) = (n, c) := by
  unfold getTicks
  exact if_neg (not_le.2 h)

/-- An explicit date leaves the numbering of the current time alone. -/
theorem after_getTimeWithTicks_date {c : Counters} {seen : List ℤ} (h : c.After seen) (time date : ℤ)
    (ticks : Option ℤ) : (getTimeWithTicks c time (some date) ticks).2.After seen :=
  h.of_eq (getTicks_unchanged c ticks).1 (getTicks_unchanged c ticks).2

/-- A reading is new, or it is the last one and has been counted. -/
theorem Counters.After.cases {c : Counters} {seen : List ℤ} (h : c.After seen) {time : ℤ} (hpos : 0 < time)
    (hmono : (seen ++ [time]).Pairwise (· ≤ ·)) :
    (c.lastTimestamp < time ∧ seen.count time = 0) ∨
      (c.lastTimestamp = time ∧ c.ticksForCurrentTime + 1 = seen.count time) := by
  unfold After at h
  obtain rfl | ⟨init, r, rfl⟩ := List.eq_nil_or_concat' seen
  · simp only [List.getLast?_nil] at h
    exact .inl ⟨by omega, rfl⟩
  · simp only [List.getLast?_append, List.getLast?_singleton, Option.some_or] at h
    obtain ⟨hr, hc⟩ := h
    by_cases heq : r = time
    · subst heq
      exact .inr ⟨hr, hc⟩
    · obtain ⟨hseen, -, hlast⟩ := List.pairwise_append.1 hmono
      have hle : r ≤ time := hlast r (by simp) time (by simp)
      refine .inl ⟨by omega, List.count_eq_zero.2 fun hmem => ?_⟩
      obtain hmem | hmem := List.mem_append.1 hmem
      · have := (List.pairwise_append.1 hseen).2.2 time hmem r (by simp)
        omega
      · exact heq (List.mem_singleton.1 hmem).symm

/-- A call of `now` numbers its reading. -/
theorem getTimeWithTicks_now {c : Counters} {seen : List ℤ} (h : c.After seen) {time : ℤ} (hpos : 0 < time)
    (hmono : (seen ++ [time]).Pairwise (· ≤ ·)) (hcount : seen.count time < 10000) (ticks : Option ℤ) :
    (getTimeWithTicks c time none ticks).1 = (time, (seen.count time : ℤ)) ∧
      (getTimeWithTicks c time none ticks).2.After (seen ++ [time]) := by
  have hadd : (seen ++ [time]).count time = seen.count time + 1 := by simp
  unfold Counters.After
  simp only [List.getLast?_append, List.getLast?_singleton, Option.some_or, hadd]
  obtain ⟨hlt, hzero⟩ | ⟨heq, hticks⟩ := h.cases hpos hmono
  · have hreset : ticksInMs < c.ticksForCurrentTime + 1 ∨ c.lastTimestamp < time := .inr hlt
    simp only [getTimeWithTicks, if_pos hreset]
    rw [getTicks_of_lt (by unfold ticksInMs; norm_num), hzero]
    exact ⟨rfl, rfl, rfl⟩
  · have hreset : ¬ (ticksInMs < c.ticksForCurrentTime + 1 ∨ c.lastTimestamp < time) := by
      unfold ticksInMs
      omega
    simp only [getTimeWithTicks, if_neg hreset]
    rw [getTicks_of_lt (by unfold ticksInMs; omega), hticks]
    exact ⟨rfl, heq, by push_cast; omega⟩

theorem readings_cons_now {call : Call} (h : call.date = none) (calls : List Call) :
    readings (call :: calls) = call.time :: readings calls := by
  simp [readings, h]

theorem readings_cons_date {call : Call} {date : ℤ} (h : call.date = some date) (calls : List Call) :
    readings (call :: calls) = readings calls := by
  simp [readings, h]

/-- The timestamps of a run are readings with their numbers; calls that fail are left out. -/
theorem nowTimestamps_sublist {c : Counters} {seen : List ℤ} (h : c.After seen) (calls : List Call)
    (hpos : ∀ r ∈ readings calls, 0 < r) (hmono : (seen ++ readings calls).Pairwise (· ≤ ·))
    (hcount : ∀ r ∈ readings calls, (seen ++ readings calls).count r ≤ 10000)
    (hfits : ∀ r ∈ readings calls,
      ticksInMs * (r + unixToGregorian) + (seen ++ readings calls).count r ≤ 2 ^ 60) :
    (nowTimestamps c calls).Sublist (numbered seen (readings calls)) := by
  induction calls generalizing c seen with
  | nil => exact .slnil
  | cons call calls ih =>
      cases hdate : call.date with
      | some date =>
          have hafter : (generateBuffer c call).2.After seen := by
            unfold generateBuffer
            rw [hdate]
            exact after_getTimeWithTicks_date h call.time date call.ticks
          rw [readings_cons_date hdate] at hpos hmono hcount hfits ⊢
          simp only [nowTimestamps, hdate]
          exact ih hafter hpos hmono hcount hfits
      | none =>
          rw [readings_cons_now hdate] at hpos hmono hcount hfits ⊢
          have happend : seen ++ call.time :: readings calls = (seen ++ [call.time]) ++ readings calls := by simp
          rw [happend] at hmono hcount hfits
          have hmem : call.time ∈ call.time :: readings calls := List.mem_cons_self ..
          have htime := hpos _ hmem
          have hc := hcount _ hmem
          have hf := hfits _ hmem
          rw [List.count_append, List.count_append, List.count_singleton_self] at hc hf
          obtain ⟨hstamp, hafter⟩ := getTimeWithTicks_now h htime (List.pairwise_append.1 hmono).1
            (by omega) call.ticks
          have hafter' : (generateBuffer c call).2.After (seen ++ [call.time]) := by
            unfold generateBuffer
            rw [hdate]
            exact hafter
          have hrest := ih hafter' (fun r hr => hpos r (List.mem_cons_of_mem _ hr)) hmono
            (fun r hr => hcount r (List.mem_cons_of_mem _ hr)) (fun r hr => hfits r (List.mem_cons_of_mem _ hr))
          simp only [nowTimestamps, hdate, numbered]
          cases hresult : (generateBuffer c call).1 with
          | error e => exact hrest.cons _
          | ok u =>
              have hstamp' : (getTimeWithTicks c call.time call.date call.ticks).1 =
                  (call.time, (seen.count call.time : ℤ)) := by
                rw [hdate]
                exact hstamp
              have hread := getDatePrecision_generateBuffer hstamp' hresult (by omega)
                (by unfold ticksInMs; omega) (by unfold unixToGregorian; omega) (by omega)
              simp only [hread]
              exact hrest.cons_cons _

/-- The timestamps of the successive results of `now` increase, under a clock that does not go back and
that stays on no millisecond for more than 10 000 calls, as long as they fit in the 60 bits that the
format has for them. -/
theorem nowTimestamps_increasing (calls : List Call) (hpos : ∀ r ∈ readings calls, 0 < r)
    (hmono : (readings calls).Pairwise (· ≤ ·))
    (hcount : ∀ r ∈ readings calls, (readings calls).count r ≤ 10000)
    (hfits : ∀ r ∈ readings calls,
      ticksInMs * (r + unixToGregorian) + (readings calls).count r ≤ 2 ^ 60) :
    (nowTimestamps .initial calls).Pairwise Earlier ∧ (nowTimestamps .initial calls).Nodup := by
  have hsub := @nowTimestamps_sublist .initial [] rfl calls hpos hmono hcount hfits
  have hpairwise := (numbered_pairwise hmono []).sublist hsub
  refine ⟨hpairwise, hpairwise.imp ?_⟩
  rintro p q (hlt | ⟨-, hlt⟩) rfl
  · exact lt_irrefl _ hlt
  · exact lt_irrefl _ hlt

/-- Two calls in one millisecond with an explicit date between them, and one in a later millisecond. -/
def sampleCalls : List Call :=
  let call (date ticks : Option ℤ) (time : ℤ) : Call :=
    ⟨date, ticks, .absent, .string [48, 50], time, Vector.replicate 6 0, Vector.replicate 2 0⟩
  [call none none 1500000000000, call (some 7) none 0, call none none 1500000000000,
    call none none 1500000000001]

theorem nowTimestamps_increasing_sampleCalls :
    (nowTimestamps .initial sampleCalls).Pairwise Earlier ∧ (nowTimestamps .initial sampleCalls).Nodup ∧
      nowTimestamps .initial sampleCalls =
        [(1500000000000, 0), (1500000000000, 1), (1500000000001, 0)] := by
  have h := nowTimestamps_increasing sampleCalls (by decide) (by decide) (by decide) (by decide)
  exact ⟨h.1, h.2, by decide +kernel⟩

/-- Two readings of the year 5236, the second one behind the last timestamp of 60 bits. -/
def overflowingCalls : List Call :=
  [now .absent .absent 103072857660683 (Vector.replicate 6 0) (Vector.replicate 2 0),
    now .absent .absent 103072857660685 (Vector.replicate 6 0) (Vector.replicate 2 0)]

theorem nowTimestamps_overflowingCalls :
    ((∀ r ∈ readings overflowingCalls, 0 < r) ∧ (readings overflowingCalls).Pairwise (· ≤ ·) ∧
      ∀ r ∈ readings overflowingCalls, (readings overflowingCalls).count r ≤ 10000) ∧
    nowTimestamps .initial overflowingCalls = [(103072857660683, 0), (-12219292800000, 3024)] ∧
      ¬ (nowTimestamps .initial overflowingCalls).Pairwise Earlier := by
  decide +kernel

end TimeUuid
end CqlDriver
