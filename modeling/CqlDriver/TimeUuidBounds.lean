import CqlDriver.TimeUuid

/-! # The parts of a time-based UUID and the bounds of a date (`lib/types/time-uuid.js`)

The version and the variant are written over the timestamp and the clock identifier; everything else that
a `TimeUuid` is made of can be read back (`generateBuffer_fields`).

The server orders these identifiers by the timestamp and then by the last eight bytes, compared as signed
bytes.  `min` and `max` have the extreme node and clock identifiers of this order.  The ticks that they are
not given come from the counter of the module, so that they bound the identifiers of a millisecond only for
one value of the counter each (`bounds_iff`). -/

namespace CqlDriver.TimeUuid

open Bytes

/-- `getClockId` -/
def clockBytes (u : TimeUuid) : List UInt8 := (u.buffer.drop 8).take 2

/-- `getNodeId` -/
def nodeBytes (u : TimeUuid) : List UInt8 := u.buffer.drop 10

/-- `new TimeUuid(date, ticks, nodeId, clockId)` with a valid date and buffers.  The clock and the random
bytes of `env` are not read. -/
def withIds (env : Call) (date : ℤ) (ticks : Option ℤ) (node : Vector UInt8 6) (clock : Vector UInt8 2) : Call :=
  { env with date := some date, ticks, nodeId := .buffer node.toList, clockId := .buffer clock.toList }

/-! ### The fields -/

/-- What is made of a time, ticks and identifiers. -/
def made (time ticks : ℤ) (node : Vector UInt8 6) (clock : Vector UInt8 2) : TimeUuid :=
  ⟨stamp (writeTime time ticks ++ clock.toList ++ node.toList), by simp [stamp, writeTime]⟩

theorem getId_buffer (n : ℕ) (message : String) (id random : Vector UInt8 n) :
    getId n message (.buffer id.toList) random = .ok id := by
  have hlen : id.toList.length = n := Vector.length_toList
  unfold getId getId.ofBytes
  simp only
  rw [dif_pos hlen]
  rfl

theorem generateBuffer_withIds (c : Counters) (env : Call) (date : ℤ) (ticks : Option ℤ) (node : Vector UInt8 6)
    (clock : Vector UInt8 2) : generateBuffer c (withIds env date ticks node clock) =
      (.ok (made date (getTicks c ticks).1 node clock), (getTicks c ticks).2) := by
  have hnode : getNodeId (.buffer node.toList) env.randomNode = .ok node := getId_buffer ..
  have hclock : getClockId (.buffer clock.toList) env.randomClock = .ok clock := getId_buffer ..
  unfold generateBuffer withIds getTimeWithTicks
  simp only [hnode, hclock, bind, Except.bind]
  rfl

theorem toNat_version_div (b : UInt8) : (b &&& 0x0f ||| 0x10).toNat / 16 = 1 := by
  have h : ∀ n < 256, (UInt8.ofNat n &&& 0x0f ||| 0x10).toNat / 16 = 1 := by decide +kernel
  have := h b.toNat b.toNat_lt
  rwa [UInt8.ofNat_toNat] at this

/-- The variant byte has the bits `10`, and its low bits are kept. -/
theorem toNat_variant (b : UInt8) :
    (b &&& 0x3f ||| 0x80).toNat / 64 = 2 ∧ (b &&& 0x3f ||| 0x80).toNat % 64 = b.toNat % 64 := by
  have h : ∀ n < 256, (UInt8.ofNat n &&& 0x3f ||| 0x80).toNat / 64 = 2 ∧
      (UInt8.ofNat n &&& 0x3f ||| 0x80).toNat % 64 = n % 64 := by decide +kernel
  have := h b.toNat b.toNat_lt
  rwa [UInt8.ofNat_toNat] at this

/-- Version 1, with the bits `10` of the variant. -/
def IsType1 (u : TimeUuid) : Prop := u.byte 6 / 16 = 1 ∧ u.byte 8 / 64 = 2

section made

variable (time ticks : ℤ) (node : Vector UInt8 6) (clock : Vector UInt8 2)

theorem drop_made : ∃ c d, clock.toList = [c, d] ∧
    (made time ticks node clock).buffer.drop 8 = (c &&& 0x3f ||| 0x80) :: d :: node.toList := by
  obtain ⟨c, d, h⟩ := List.length_eq_two.1 (Vector.length_toList : clock.toList.length = 2)
  refine ⟨c, d, h, ?_⟩
  change (stamp (writeTime time ticks ++ clock.toList ++ node.toList)).drop 8 = _
  rw [h]
  rfl

theorem isType1_made : IsType1 (made time ticks node clock) := by
  obtain ⟨c, d, h, hdrop⟩ := drop_made time ticks node clock
  constructor
  · exact toNat_version_div _
  · unfold byte
    rw [List.getD_eq_getElem?_getD, ← List.getElem?_drop (i := 8) (j := 0), hdrop]
    exact (toNat_variant c).1

theorem nodeBytes_made : (made time ticks node clock).nodeBytes = node.toList := by
  obtain ⟨c, d, -, hdrop⟩ := drop_made time ticks node clock
  unfold nodeBytes
  rw [← List.drop_drop (i := 2) (j := 8), hdrop]
  rfl

theorem clockBytes_made : ofBE (made time ticks node clock).clockBytes % 2 ^ 14 = ofBE clock.toList % 2 ^ 14 := by
  obtain ⟨c, d, h, hdrop⟩ := drop_made time ticks node clock
  have hvariant := (toNat_variant c).2
  unfold clockBytes
  rw [hdrop, h, List.take_succ_cons, List.take_succ_cons, List.take_zero]
  simp only [ofBE_cons, ofBE_nil, List.length_cons, List.length_nil]
  omega

/-- The timestamp is taken modulo `2 ^ 60`. -/
theorem timestampBits_made : ((made time ticks node clock).timestampBits : ℤ) =
    ((time + unixToGregorian) * ticksInMs + ticks) % 2 ^ 60 := by
  have hbits : (made time ticks node clock).timestampBits = (timestamp time ticks).toNat % 2 ^ 60 := by
    refine @timestampBits_stamp _ (clock.toList ++ node.toList) _ ?_
    change stamp (writeTime time ticks ++ clock.toList ++ node.toList) = _
    rw [List.append_assoc]
    rfl
  have heq : timestamp time ticks = BitVec.ofInt 64 ((time + unixToGregorian) * ticksInMs + ticks) := by
    unfold timestamp ticksInMs
    rw [← BitVec.ofInt_mul, ← BitVec.ofInt_add]
  rw [hbits, heq, BitVec.toNat_ofInt]
  generalize (time + unixToGregorian) * ticksInMs + ticks = n
  omega

theorem getDatePrecision_made {time ticks : ℤ} (h₀ : 0 ≤ ticks) (h₁ : ticks < ticksInMs)
    (hlo : 0 ≤ (time + unixToGregorian) * ticksInMs + ticks)
    (hhi : (time + unixToGregorian) * ticksInMs + ticks < 2 ^ 60) :
    (made time ticks node clock).getDatePrecision = (time, ticks) := by
  rw [getDatePrecision_eq, timestampBits_made, Int.emod_eq_of_lt hlo hhi]
  unfold ticksInMs at *
  refine Prod.ext ?_ ?_
  · simp only
    omega
  · simp only
    omega

end made

/-- The version and the variant are set, the node identifier and the low 14 bits of the clock identifier are
kept, and the time and the ticks are read back. -/
theorem generateBuffer_fields (c : Counters) (env : Call) {t ticks : ℤ} (node : Vector UInt8 6)
    (clock : Vector UInt8 2) (h₀ : 0 ≤ ticks) (h₁ : ticks ≤ 9999)
    (hlo : 0 ≤ (t + unixToGregorian) * 10000 + ticks) (hhi : (t + unixToGregorian) * 10000 + ticks < 2 ^ 60) :
    ∃ u, (generateBuffer c (withIds env t (some ticks) node clock)).1 = .ok u ∧
      u.byte 6 / 16 = 1 ∧ u.byte 8 / 64 = 0b10 ∧ u.nodeBytes = node.toList ∧
      ofBE u.clockBytes % 2 ^ 14 = ofBE clock.toList % 2 ^ 14 ∧ u.getDatePrecision = (t, ticks) := by
  have hticks : ticks < ticksInMs := by unfold ticksInMs; omega
  obtain ⟨hversion, hvariant⟩ := isType1_made t ticks node clock
  refine ⟨made t ticks node clock, ?_, hversion, hvariant, nodeBytes_made .., clockBytes_made ..,
    getDatePrecision_made node clock h₀ hticks hlo hhi⟩
  rw [generateBuffer_withIds, getTicks_of_lt hticks]

/-- The first millisecond of the format, with identifiers whose high bits are set. -/
theorem generateBuffer_fields_first :
    ∃ u, (generateBuffer .initial (withIds (now .absent .absent 0 (Vector.replicate 6 0) (Vector.replicate 2 0))
        (-12219292800000) (some 9999) (Vector.replicate 6 255) (Vector.replicate 2 255))).1 = .ok u ∧
      u.byte 6 / 16 = 1 ∧ u.byte 8 / 64 = 0b10 ∧ u.nodeBytes = (Vector.replicate 6 255).toList ∧
      ofBE u.clockBytes % 2 ^ 14 = ofBE (Vector.replicate 2 (255 : UInt8)).toList % 2 ^ 14 ∧
      u.getDatePrecision = (-12219292800000, 9999) :=
  generateBuffer_fields .initial _ _ _ (by decide) (by decide) (by decide) (by decide)

/-! ### The counter of the ticks -/

/-- The counters after a history of constructions. -/
def countersAfter (calls : List Call) : Counters :=
  calls.foldl (fun c call => (generateBuffer c call).2) .initial

theorem ticks_getTicks {c : Counters} (h : 0 ≤ c.ticks ∧ c.ticks < ticksInMs) (ticks : Option ℤ) :
    0 ≤ (getTicks c ticks).2.ticks ∧ (getTicks c ticks).2.ticks < ticksInMs := by
  have hnext : 0 ≤ (getTicks.next c).2.ticks ∧ (getTicks.next c).2.ticks < ticksInMs := by
    unfold getTicks.next
    simp only
    split_ifs with hlast
    · exact ⟨le_rfl, by decide⟩
    · omega
  unfold getTicks
  cases ticks with
  | none => exact hnext
  | some n =>
      simp only
      split_ifs
      · exact hnext
      · exact h

theorem ticks_generateBuffer {c : Counters} (h : 0 ≤ c.ticks ∧ c.ticks < ticksInMs) (call : Call) :
    0 ≤ (generateBuffer c call).2.ticks ∧ (generateBuffer c call).2.ticks < ticksInMs := by
  unfold generateBuffer getTimeWithTicks
  cases call.date with
  | some date => exact ticks_getTicks h call.ticks
  | none =>
      simp only
      apply ticks_getTicks
      split_ifs <;> exact h

theorem ticks_countersAfter (calls : List Call) :
    0 ≤ (countersAfter calls).ticks ∧ (countersAfter calls).ticks < ticksInMs := by
  unfold countersAfter
  have hrun : ∀ {c : Counters}, 0 ≤ c.ticks ∧ c.ticks < ticksInMs →
      0 ≤ (calls.foldl (fun c call => (generateBuffer c call).2) c).ticks ∧
        (calls.foldl (fun c call => (generateBuffer c call).2) c).ticks < ticksInMs := by
    induction calls with
    | nil => exact fun h => h
    | cons call calls ih => exact fun h => ih (ticks_generateBuffer h call)
  exact hrun ⟨le_rfl, by decide⟩

/-- The ticks that a construction without ticks takes. -/
theorem getTicks_none (c : Counters) :
    (getTicks c none).1 = if ticksInMs ≤ c.ticks + 1 then 0 else c.ticks + 1 := rfl

theorem getTicks_none_bounds {c : Counters} (h : 0 ≤ c.ticks ∧ c.ticks < ticksInMs) :
    0 ≤ (getTicks c none).1 ∧ (getTicks c none).1 ≤ 9999 := by
  rw [getTicks_none]
  unfold ticksInMs at *
  split_ifs <;> omega

/-! ### The order of the server -/

/-- The last eight bytes as signed bytes. -/
def signedBytes (u : TimeUuid) : List ℤ := (u.buffer.drop 8).map fun b => b.toInt8.toInt

/-- The first difference decides. -/
def BytesLe : List ℤ → List ℤ → Prop
  | [], _ => True
  | _ :: _, [] => False
  | a :: as, b :: bs => a < b ∨ a = b ∧ BytesLe as bs

/-- The timestamp first, then the last eight bytes. -/
def ServerLe (u v : TimeUuid) : Prop :=
  u.timestampBits < v.timestampBits ∨ u.timestampBits = v.timestampBits ∧ BytesLe u.signedBytes v.signedBytes

/-- What is at most as large at every place is at most as large. -/
theorem bytesLe_of_forall₂ {as bs : List ℤ} (h : List.Forall₂ (· ≤ ·) as bs) : BytesLe as bs := by
  induction h with
  | nil => trivial
  | cons hab _ ih => exact (lt_or_eq_of_le hab).imp id fun heq => ⟨heq, ih⟩

theorem toInt8_bounds (b : UInt8) : -128 ≤ b.toInt8.toInt ∧ b.toInt8.toInt ≤ 127 := by
  have h₁ := b.toInt8.le_toInt
  have h₂ := b.toInt8.toInt_lt
  omega

theorem toInt8_variant {b : UInt8} (h : b.toNat / 64 = 2) : b.toInt8.toInt ≤ -65 := by
  have hall : ∀ n < 256, n / 64 = 2 → (UInt8.ofNat n).toInt8.toInt ≤ -65 := by decide +kernel
  have := hall b.toNat b.toNat_lt h
  rwa [UInt8.ofNat_toNat] at this

theorem drop_eight (u : TimeUuid) : ∃ b bs, u.buffer.drop 8 = b :: bs ∧ bs.length = 7 ∧ u.byte 8 = b.toNat := by
  have hlen : (u.buffer.drop 8).length = 7 + 1 := by rw [List.length_drop, u.valid]
  obtain ⟨b, bs, h⟩ := List.exists_cons_of_length_eq_add_one hlen
  rw [h, List.length_cons, Nat.add_right_cancel_iff] at hlen
  refine ⟨b, bs, h, hlen, ?_⟩
  unfold byte
  rw [List.getD_eq_getElem?_getD, ← List.getElem?_drop (i := 8) (j := 0), h]
  rfl

/-- The extreme values of the last eight bytes. -/
theorem signedBytes_bounds {u : TimeUuid} (h : IsType1 u) :
    BytesLe (List.replicate 8 (-128)) u.signedBytes ∧ BytesLe u.signedBytes (-65 :: List.replicate 7 127) := by
  obtain ⟨b, bs, hdrop, hlen, hb⟩ := u.drop_eight
  have hbytes : u.signedBytes = b.toInt8.toInt :: bs.map fun b => b.toInt8.toInt := by
    unfold signedBytes
    rw [hdrop, List.map_cons]
  have hlength : (bs.map fun b => b.toInt8.toInt).length = 7 := by rw [List.length_map, hlen]
  have hvariant : b.toInt8.toInt ≤ -65 := toInt8_variant (by rw [← hb]; exact h.2)
  rw [hbytes]
  constructor
  · apply bytesLe_of_forall₂
    refine .cons (toInt8_bounds b).1 ?_
    rw [List.forall₂_iff_get]
    refine ⟨by rw [hlength]; rfl, fun i hi hi' => ?_⟩
    simp only [List.get_eq_getElem, List.getElem_map]
    exact (List.getElem_replicate _).le.trans (toInt8_bounds _).1
  · apply bytesLe_of_forall₂
    refine .cons hvariant ?_
    rw [List.forall₂_iff_get]
    refine ⟨by rw [hlength]; rfl, fun i hi hi' => ?_⟩
    simp only [List.get_eq_getElem, List.getElem_map]
    exact (toInt8_bounds _).2.trans (List.getElem_replicate _).ge

/-! ### `min` and `max` -/

def minNodeId : Vector UInt8 6 := Vector.replicate 6 0x80

def minClockId : Vector UInt8 2 := Vector.replicate 2 0x80

def maxNodeId : Vector UInt8 6 := Vector.replicate 6 0x7f

def maxClockId : Vector UInt8 2 := Vector.replicate 2 0x7f

/-- `TimeUuid.min(date, ticks)` -/
protected def min (env : Call) (date : ℤ) (ticks : Option ℤ) : Call := withIds env date ticks minNodeId minClockId

/-- `TimeUuid.max(date, ticks)` -/
protected def max (env : Call) (date : ℤ) (ticks : Option ℤ) : Call := withIds env date ticks maxNodeId maxClockId

theorem signedBytes_min (date ticks : ℤ) :
    (made date ticks minNodeId minClockId).signedBytes = List.replicate 8 (-128) := by
  change ((0x80 &&& 0x3f ||| 0x80) :: 0x80 :: minNodeId.toList).map (fun b : UInt8 => b.toInt8.toInt) = _
  decide

theorem signedBytes_max (date ticks : ℤ) :
    (made date ticks maxNodeId maxClockId).signedBytes = -65 :: List.replicate 7 127 := by
  change ((0x7f &&& 0x3f ||| 0x80) :: 0x7f :: maxNodeId.toList).map (fun b : UInt8 => b.toInt8.toInt) = _
  decide

/-- The first timestamp of a millisecond. -/
def firstTimestamp (date : ℤ) : ℤ := (date + unixToGregorian) * 10000

/-- The last tick of a millisecond that the 60 bits can hold. -/
def lastTick (date : ℤ) : ℤ := Min.min 9999 (2 ^ 60 - 1 - firstTimestamp date)

/-- The dates that have a timestamp. -/
def InFormat (date : ℤ) : Prop := 0 ≤ firstTimestamp date ∧ firstTimestamp date < 2 ^ 60

/-- The identifiers of the date. -/
def OfDate (date : ℤ) (u : TimeUuid) : Prop := IsType1 u ∧ u.getDatePrecision.1 = date

theorem OfDate.timestamp {date : ℤ} {u : TimeUuid} (h : OfDate date u) :
    InFormat date ∧ ∃ j, 0 ≤ j ∧ j ≤ lastTick date ∧ (u.timestampBits : ℤ) = firstTimestamp date + j := by
  obtain ⟨-, hdate⟩ := h
  have hlt := u.timestampBits_lt
  rw [getDatePrecision_eq] at hdate
  unfold InFormat lastTick firstTimestamp ticksInMs at *
  simp only at hdate
  have hmod := Int.emod_nonneg (u.timestampBits : ℤ) (show (10000 : ℤ) ≠ 0 by norm_num)
  have hmod' := Int.emod_lt_of_pos (u.timestampBits : ℤ) (show (0 : ℤ) < 10000 by norm_num)
  refine ⟨⟨by omega, by omega⟩, (u.timestampBits : ℤ) % 10000, hmod, ?_, by omega⟩
  rw [le_min_iff]
  omega

theorem ofDate_made {date ticks : ℤ} (node : Vector UInt8 6) (clock : Vector UInt8 2) (h : InFormat date)
    (h₀ : 0 ≤ ticks) (h₁ : ticks ≤ lastTick date) : OfDate date (made date ticks node clock) ∧
      ((made date ticks node clock).timestampBits : ℤ) = firstTimestamp date + ticks := by
  obtain ⟨hlo, hhi⟩ := h
  obtain ⟨hle, hle'⟩ := le_min_iff.1 h₁
  unfold firstTimestamp at *
  have hread : (made date ticks node clock).getDatePrecision = (date, ticks) :=
    getDatePrecision_made node clock h₀ (by unfold ticksInMs; omega) (by unfold ticksInMs; omega)
      (by unfold ticksInMs; omega)
  refine ⟨⟨isType1_made .., by rw [hread]⟩, ?_⟩
  rw [timestampBits_made]
  unfold ticksInMs
  exact Int.emod_eq_of_lt (by omega) (by omega)

/-- The bound from below holds for the first tick, and for ticks behind the last timestamp, which come out as
ticks of the first milliseconds. -/
theorem min_le_iff {date k : ℤ} (h : InFormat date) (h₀ : 0 ≤ k) (h₁ : k ≤ 9999) :
    (∀ u, OfDate date u → ServerLe (made date k minNodeId minClockId) u) ↔
      k = 0 ∨ 2 ^ 60 ≤ firstTimestamp date + k := by
  have hbits := timestampBits_made date k minNodeId minClockId
  change _ = (firstTimestamp date + k) % 2 ^ 60 at hbits
  obtain ⟨hlo, hhi⟩ := h
  constructor
  · intro hle
    have hlast : 0 ≤ lastTick date := le_min_iff.2 ⟨by norm_num, by omega⟩
    obtain ⟨hu, hfirst⟩ := ofDate_made minNodeId minClockId ⟨hlo, hhi⟩ le_rfl hlast
    have := hle _ hu
    unfold ServerLe at this
    omega
  · intro hk u hu
    obtain ⟨-, j, hj₀, hj₁, hj⟩ := hu.timestamp
    rcases hk with rfl | hk
    · rw [add_zero, Int.emod_eq_of_lt hlo hhi] at hbits
      rcases hj₀.lt_or_eq with hpos | rfl
      · exact .inl (by omega)
      · refine .inr ⟨by omega, ?_⟩
        rw [signedBytes_min]
        exact (signedBytes_bounds hu.1).1
    · exact .inl (by omega)

/-- The bound from above holds for the last tick only. -/
theorem le_max_iff {date k : ℤ} (h : InFormat date) (h₀ : 0 ≤ k) (h₁ : k ≤ 9999) :
    (∀ u, OfDate date u → ServerLe u (made date k maxNodeId maxClockId)) ↔ k = lastTick date := by
  have hbits := timestampBits_made date k maxNodeId maxClockId
  change _ = (firstTimestamp date + k) % 2 ^ 60 at hbits
  obtain ⟨hlo, hhi⟩ := h
  have hlast₀ : 0 ≤ lastTick date := le_min_iff.2 ⟨by norm_num, by omega⟩
  obtain ⟨hlast₁, hlast₂⟩ := le_min_iff.1 (le_refl (lastTick date))
  constructor
  · intro hle
    obtain ⟨hu, hbits'⟩ := ofDate_made maxNodeId maxClockId ⟨hlo, hhi⟩ hlast₀ le_rfl
    have hserver := hle _ hu
    unfold ServerLe at hserver
    have hge : lastTick date ≤ k := by omega
    have hle' : k ≤ lastTick date := le_min_iff.2 ⟨h₁, by omega⟩
    omega
  · rintro rfl u hu
    obtain ⟨-, j, hj₀, hj₁, hj⟩ := hu.timestamp
    rw [Int.emod_eq_of_lt (by omega) (by omega)] at hbits
    rcases hj₁.lt_or_eq with hlt | rfl
    · exact .inl (by omega)
    · refine .inr ⟨by omega, ?_⟩
      rw [signedBytes_max]
      exact (signedBytes_bounds hu.1).2

/-- `min` after one history and `max` after another bound the identifiers of the date. -/
def Bounds (calls calls' : List Call) (env env' : Call) (date : ℤ) : Prop :=
  ∃ lo hi, (generateBuffer (countersAfter calls) (TimeUuid.min env date none)).1 = .ok lo ∧
    (generateBuffer (countersAfter calls') (TimeUuid.max env' date none)).1 = .ok hi ∧
    ∀ u, OfDate date u → ServerLe lo u ∧ ServerLe u hi

theorem bounds_iff_made (calls calls' : List Call) (env env' : Call) (date : ℤ) :
    Bounds calls calls' env env' date ↔
      (∀ u, OfDate date u →
        ServerLe (made date (getTicks (countersAfter calls) none).1 minNodeId minClockId) u) ∧
      ∀ u, OfDate date u →
        ServerLe u (made date (getTicks (countersAfter calls') none).1 maxNodeId maxClockId) := by
  unfold Bounds TimeUuid.min TimeUuid.max
  simp only [generateBuffer_withIds, Except.ok.injEq]
  constructor
  · rintro ⟨lo, hi, rfl, rfl, h⟩
    exact ⟨fun u hu => (h u hu).1, fun u hu => (h u hu).2⟩
  · rintro ⟨hlo, hhi⟩
    exact ⟨_, _, rfl, rfl, fun u hu => ⟨hlo u hu, hhi u hu⟩⟩

/-- For a date that has a timestamp, the counter has to stand before the first tick when `min` is called (or
carry the timestamp over the 60 bits), and before the last tick of the millisecond when `max` is. -/
theorem bounds_iff (calls calls' : List Call) (env env' : Call) (date : ℤ) :
    Bounds calls calls' env env' date ↔ (InFormat date →
      ((countersAfter calls).ticks = 9999 ∨ 2 ^ 60 ≤ firstTimestamp date + (countersAfter calls).ticks + 1) ∧
        (countersAfter calls').ticks + 1 = lastTick date) := by
  rw [bounds_iff_made]
  by_cases h : InFormat date
  · obtain ⟨hticks₀, hticks₁⟩ := ticks_countersAfter calls
    obtain ⟨hticks₀', hticks₁'⟩ := ticks_countersAfter calls'
    obtain ⟨hk₀, hk₁⟩ := getTicks_none_bounds (ticks_countersAfter calls)
    obtain ⟨hk₀', hk₁'⟩ := getTicks_none_bounds (ticks_countersAfter calls')
    have hhi := h.2
    have hlast : 1 ≤ lastTick date := le_min_iff.2 ⟨by norm_num, by unfold firstTimestamp at *; omega⟩
    have hlast' : lastTick date ≤ 9999 := min_le_left ..
    rw [min_le_iff h hk₀ hk₁, le_max_iff h hk₀' hk₁', getTicks_none, getTicks_none]
    unfold ticksInMs at *
    simp only [h, true_imp_iff]
    apply and_congr
    · split_ifs <;> omega
    · split_ifs <;> omega
  · simp only [h, false_imp_iff, iff_true]
    exact ⟨fun u hu => absurd hu.timestamp.1 h, fun u hu => absurd hu.timestamp.1 h⟩

/-- The first `min` of a program has the tick 1, so that the identifier of tick 0 is before it. -/
theorem not_forall_bounds :
    ¬ (∀ calls calls' env env' date, Bounds calls calls' env env' date) ∧
      ∃ lo u, (generateBuffer (countersAfter []) (TimeUuid.min (now .absent .absent 0 (Vector.replicate 6 0)
          (Vector.replicate 2 0)) 0 none)).1 = .ok lo ∧ OfDate 0 u ∧ ¬ ServerLe lo u := by
  have hformat : InFormat 0 := ⟨by decide, by decide⟩
  have hk : (getTicks (countersAfter []) none).1 = 1 := by decide
  have hmin : ¬ ∀ u, OfDate 0 u → ServerLe (made 0 1 minNodeId minClockId) u := by
    rw [min_le_iff hformat (by norm_num) (by norm_num)]
    decide
  constructor
  · intro h
    have hbounds := (bounds_iff_made [] [] _ _ 0).1
      (h [] [] (now .absent .absent 0 (Vector.replicate 6 0) (Vector.replicate 2 0))
        (now .absent .absent 0 (Vector.replicate 6 0) (Vector.replicate 2 0)) 0)
    rw [hk] at hbounds
    exact hmin hbounds.1
  · obtain ⟨u, hu⟩ := not_forall.1 hmin
    obtain ⟨hu, hle⟩ := Classical.not_imp.1 hu
    refine ⟨made 0 1 minNodeId minClockId, u, ?_, hu, hle⟩
    rw [TimeUuid.min, generateBuffer_withIds, hk]

end CqlDriver.TimeUuid
