import CqlDriver.VersionNumber
import CqlDriver.Lib.Fallible

/-! # Protocol versions (`lib/types/protocol-version.js`)

`getHighestCommon` goes through the hosts with two minima: `maxVersion` of all hosts, and
`maxVersionWith3OrMore`, which is meant to leave out the hosts limited to v1 or v2 and is used when
another host needs v3.  It is set to `maxVersion` though, whatever that is: an old host that comes before
a newer one is in both.  The result is the same for every order exactly when there are no old hosts to
leave out, or none that makes a difference (`getHighestCommon_iff`). -/

namespace CqlDriver.ProtocolVersion

def v1 : ℕ := 0x01
def v2 : ℕ := 0x02
def v3 : ℕ := 0x03
def v4 : ℕ := 0x04
def dseV1 : ℕ := 0x41
def dseV2 : ℕ := 0x42

/-- `VersionNumber.parse` of `X.Y.0`. -/
def release (major minor : ℕ) : VersionNumber := ⟨major, minor, some 0, none, none, none⟩

def v200 : VersionNumber := release 2 0
def v210 : VersionNumber := release 2 1
def v220 : VersionNumber := release 2 2
def v300 : VersionNumber := release 3 0
def v510 : VersionNumber := release 5 1
def v600 : VersionNumber := release 6 0

example : VersionNumber.parse "5.1.0".toList = .ok (some v510) := by decide +kernel

structure Host where
  dseVersion : Option (List Char)
  cassandraVersion : Option (List Char)
deriving DecidableEq

/-- The variables of the loop. -/
structure Common where
  maxVersion : ℕ
  /-- Whether protocol v3 is required. -/
  v3Requirement : Bool
  /-- The common protocol version of v3 and more. -/
  maxVersionWith3OrMore : ℕ
deriving DecidableEq

/-- The branch for the version of Cassandra; what can not be parsed is skipped. -/
def considerCassandra (s : Common) (version : Option (List Char)) : Common :=
  match (version.map VersionNumber.parse).getD (.ok none) with
  | .error _ => s
  | .ok none => s
  | .ok (some cassandraVersion) =>
      if 0 ≤ cassandraVersion.compare v300 then
        let maxVersion := min v4 s.maxVersion
        ⟨maxVersion, true, maxVersion⟩
      else if 0 ≤ cassandraVersion.compare v220 then
        let maxVersion := min v4 s.maxVersion
        ⟨maxVersion, s.v3Requirement, maxVersion⟩
      else if 0 ≤ cassandraVersion.compare v210 then
        let maxVersion := min v3 s.maxVersion
        ⟨maxVersion, s.v3Requirement, maxVersion⟩
      else if 0 ≤ cassandraVersion.compare v200 then { s with maxVersion := min v2 s.maxVersion }
      else { s with maxVersion := v1 }

/-- The body of the loop.  A version of DSE that can not be parsed is thrown. -/
def considerHost (s : Common) (h : Host) : Except String Common :=
  match (h.dseVersion.map VersionNumber.parse).getD (.ok none) with
  | .error e => .error e
  | .ok none => .ok (considerCassandra s h.cassandraVersion)
  | .ok (some dseVersion) =>
      if 0 ≤ dseVersion.compare v510 then
        let maxVersion := if 0 ≤ dseVersion.compare v600 then min dseV2 s.maxVersion else min dseV1 s.maxVersion
        .ok ⟨maxVersion, true, maxVersion⟩
      else .ok (considerCassandra s h.cassandraVersion)

/-- What is returned after the loop. -/
def outcome (s : Common) : ℕ :=
  if s.v3Requirement = true ∧ s.maxVersion < v3 then s.maxVersionWith3OrMore else s.maxVersion

/-- `getHighestCommon`, for the protocol version of the connection. -/
def getHighestCommon (protocolVersion : ℕ) (hosts : List Host) : Except String ℕ :=
  (hosts.foldlM considerHost ⟨protocolVersion, false, protocolVersion⟩).map outcome

/-! ### The kinds of hosts -/

/-- What a host says about the protocol. -/
inductive Kind where
  | skipped
  /-- A host with v3 or more: its highest version, and whether it needs v3. -/
  | modern (limit : ℕ) (needsV3 : Bool)
  /-- A host limited to v1 or v2. -/
  | old (limit : ℕ)
deriving DecidableEq

namespace Kind

def isOld : Kind → Bool
  | old _ => true
  | _ => false

def needsV3 : Kind → Bool
  | modern _ needs => needs
  | _ => false

/-- The highest version of a host. -/
def limit? : Kind → Option ℕ
  | skipped => none
  | modern limit _ => some limit
  | old limit => some limit

/-- The limits are on the right side of v3. -/
def Valid : Kind → Prop
  | skipped => True
  | modern limit _ => v3 ≤ limit
  | old limit => limit = v1 ∨ limit = v2

end Kind

/-- The kind of a host by its version of Cassandra. -/
def cassandraKind (version : Option (List Char)) : Kind :=
  match (version.map VersionNumber.parse).getD (.ok none) with
  | .error _ => .skipped
  | .ok none => .skipped
  | .ok (some cassandraVersion) =>
      if 0 ≤ cassandraVersion.compare v300 then .modern v4 true
      else if 0 ≤ cassandraVersion.compare v220 then .modern v4 false
      else if 0 ≤ cassandraVersion.compare v210 then .modern v3 false
      else if 0 ≤ cassandraVersion.compare v200 then .old v2
      else .old v1

/-- The kind of a host. -/
def Host.kind (h : Host) : Except String Kind :=
  match (h.dseVersion.map VersionNumber.parse).getD (.ok none) with
  | .error e => .error e
  | .ok none => .ok (cassandraKind h.cassandraVersion)
  | .ok (some dseVersion) =>
      if 0 ≤ dseVersion.compare v510 then
        .ok (.modern (if 0 ≤ dseVersion.compare v600 then dseV2 else dseV1) true)
      else .ok (cassandraKind h.cassandraVersion)

/-- One step of the loop. -/
def Kind.apply (s : Common) : Kind → Common
  | .skipped => s
  | .modern limit needs => ⟨min limit s.maxVersion, needs || s.v3Requirement, min limit s.maxVersion⟩
  | .old limit => { s with maxVersion := min limit s.maxVersion }

theorem cassandraKind_valid (version : Option (List Char)) : (cassandraKind version).Valid := by
  unfold cassandraKind
  split
  · trivial
  · trivial
  · split_ifs
    · exact Nat.le_of_ble_eq_true rfl
    · exact Nat.le_of_ble_eq_true rfl
    · exact le_rfl
    · exact .inr rfl
    · exact .inl rfl

theorem Host.kind_valid {h : Host} {k : Kind} (hk : h.kind = .ok k) : k.Valid := by
  unfold Host.kind at hk
  split at hk
  · cases hk
  · rw [← Except.ok.inj hk]
    exact cassandraKind_valid _
  · split_ifs at hk
    · rw [← Except.ok.inj hk]
      exact Nat.le_of_ble_eq_true rfl
    · rw [← Except.ok.inj hk]
      exact Nat.le_of_ble_eq_true rfl
    · rw [← Except.ok.inj hk]
      exact cassandraKind_valid _

/-- No version is below v1, so that setting it is a minimum too. -/
theorem considerCassandra_eq {s : Common} (h : v1 ≤ s.maxVersion) (version : Option (List Char)) :
    considerCassandra s version = (cassandraKind version).apply s := by
  unfold considerCassandra cassandraKind
  split
  · rfl
  · rfl
  · split_ifs
    · rfl
    · rfl
    · rfl
    · rfl
    · simp only [Kind.apply, min_eq_left h]

theorem considerHost_eq {s : Common} (hs : v1 ≤ s.maxVersion) (h : Host) :
    considerHost s h = h.kind.map fun k => k.apply s := by
  unfold considerHost Host.kind
  split
  · rfl
  · rw [considerCassandra_eq hs]
    rfl
  · split_ifs
    · rfl
    · rfl
    · rw [considerCassandra_eq hs]
      rfl

theorem Kind.apply_maxVersion {s : Common} (hs : v1 ≤ s.maxVersion) {k : Kind} (hk : k.Valid) :
    v1 ≤ (k.apply s).maxVersion := by
  cases k with
  | skipped => exact hs
  | modern limit needs => exact le_min (le_trans (Nat.le_of_ble_eq_true rfl) hk) hs
  | old limit =>
      refine le_min ?_ hs
      rcases hk with rfl | rfl
      · exact le_rfl
      · exact Nat.le_of_ble_eq_true rfl

/-! ### The loop -/

/-- The kind of a host; one that throws does not count. -/
def Host.known (h : Host) : Kind :=
  match h.kind with
  | .ok k => k
  | .error _ => .skipped

/-- The loop over kinds. -/
def run (s : Common) (ks : List Kind) : Common := ks.foldl (fun s k => k.apply s) s

theorem foldlM_of_parsed {hosts : List Host} (h : ∀ x ∈ hosts, x.kind = .ok x.known) :
    ∀ {s : Common}, v1 ≤ s.maxVersion → hosts.foldlM considerHost s = .ok (run s (hosts.map Host.known)) := by
  induction hosts with
  | nil => exact fun _ => rfl
  | cons x hosts ih =>
      intro s hs
      have hx := h x (List.mem_cons_self ..)
      have hstep : considerHost s x = .ok (x.known.apply s) := by
        rw [considerHost_eq hs, hx]
        rfl
      rw [List.foldlM_cons, Fallible.bind_of_eq_ok hstep]
      exact ih (fun y hy => h y (List.mem_cons_of_mem _ hy)) (Kind.apply_maxVersion hs (Host.kind_valid hx))

theorem foldlM_of_error {hosts : List Host} (h : ∃ x ∈ hosts, ∃ e, x.kind = .error e) :
    ∀ {s : Common}, v1 ≤ s.maxVersion → ∃ e, hosts.foldlM considerHost s = .error e := by
  induction hosts with
  | nil => simp at h
  | cons x hosts ih =>
      intro s hs
      rw [List.foldlM_cons, considerHost_eq hs]
      cases hx : x.kind with
      | error e => exact ⟨e, rfl⟩
      | ok k =>
          obtain ⟨y, hy, e, he⟩ := h
          have hrest : ∃ y ∈ hosts, ∃ e, y.kind = .error e := by
            rcases List.mem_cons.1 hy with rfl | hy
            · rw [hx] at he
              cases he
            · exact ⟨y, hy, e, he⟩
          exact ih hrest (Kind.apply_maxVersion hs (Host.kind_valid hx))

/-- The lowest of the limits. -/
def lowest (version : ℕ) (ks : List Kind) : ℕ := (ks.filterMap Kind.limit?).foldl min version

theorem le_foldl_min_iff {x : ℕ} {l : List ℕ} : ∀ {a : ℕ}, x ≤ l.foldl min a ↔ x ≤ a ∧ ∀ b ∈ l, x ≤ b := by
  induction l with
  | nil => simp
  | cons b l ih =>
      intro a
      rw [List.foldl_cons, ih, le_min_iff, List.forall_mem_cons, and_assoc]

theorem le_lowest_iff {x version : ℕ} {ks : List Kind} :
    x ≤ lowest version ks ↔ x ≤ version ∧ ∀ k ∈ ks, ∀ limit, k.limit? = some limit → x ≤ limit := by
  rw [lowest, le_foldl_min_iff]
  simp only [List.mem_filterMap]
  constructor
  · rintro ⟨h, hlimits⟩
    exact ⟨h, fun k hk limit hl => hlimits limit ⟨k, hk, hl⟩⟩
  · rintro ⟨h, hlimits⟩
    exact ⟨h, fun limit ⟨k, hk, hl⟩ => hlimits k hk limit hl⟩

theorem lowest_perm {version : ℕ} {ks ks' : List Kind} (h : ks'.Perm ks) :
    lowest version ks' = lowest version ks := by
  apply eq_of_forall_le_iff
  intro x
  simp only [le_lowest_iff, h.mem_iff]

theorem run_append (s : Common) (ks ks' : List Kind) : run s (ks ++ ks') = run (run s ks) ks' :=
  List.foldl_append

theorem run_maxVersion (ks : List Kind) : ∀ s : Common, (run s ks).maxVersion = lowest s.maxVersion ks := by
  induction ks with
  | nil => exact fun _ => rfl
  | cons k ks ih =>
      intro s
      change (run (k.apply s) ks).maxVersion = _
      rw [ih]
      cases k with
      | skipped => rfl
      | modern limit needs =>
          simp only [lowest, Kind.apply, Kind.limit?, List.filterMap_cons, List.foldl_cons, min_comm]
      | old limit =>
          simp only [lowest, Kind.apply, Kind.limit?, List.filterMap_cons, List.foldl_cons, min_comm]

theorem run_v3Requirement (ks : List Kind) : ∀ s : Common,
    (run s ks).v3Requirement = (ks.any Kind.needsV3 || s.v3Requirement) := by
  induction ks with
  | nil => exact fun _ => rfl
  | cons k ks ih =>
      intro s
      change (run (k.apply s) ks).v3Requirement = _
      rw [ih]
      cases k with
      | skipped => simp [Kind.apply, Kind.needsV3]
      | modern limit needs => cases needs <;> simp [Kind.apply, Kind.needsV3]
      | old limit => simp [Kind.apply, Kind.needsV3]

/-- Old hosts that lower nothing do not separate the two minima. -/
theorem run_same {ks : List Kind} : ∀ {s : Common}, (∀ k ∈ ks, ∀ limit, k = .old limit → s.maxVersion ≤ limit) →
    s.maxVersionWith3OrMore = s.maxVersion → (run s ks).maxVersionWith3OrMore = (run s ks).maxVersion := by
  induction ks with
  | nil => exact fun _ h => h
  | cons k ks ih =>
      intro s hold hsame
      have hle : (k.apply s).maxVersion ≤ s.maxVersion := by
        cases k with
        | skipped => exact le_rfl
        | modern limit needs => exact min_le_right ..
        | old limit => exact min_le_right ..
      refine ih (fun k' hk' limit h => hle.trans (hold k' (List.mem_cons_of_mem _ hk') limit h)) ?_
      cases k with
      | skipped => exact hsame
      | modern limit needs => rfl
      | old limit =>
          have hlimit := hold _ (List.mem_cons_self ..) limit rfl
          simp only [Kind.apply, min_eq_right hlimit, hsame]

theorem run_old {ks : List Kind} (h : ∀ k ∈ ks, k.isOld = true) : ∀ s : Common,
    (run s ks).maxVersionWith3OrMore = s.maxVersionWith3OrMore := by
  induction ks with
  | nil => exact fun _ => rfl
  | cons k ks ih =>
      intro s
      have hk := h k (List.mem_cons_self ..)
      change (run (k.apply s) ks).maxVersionWith3OrMore = _
      rw [ih fun k' hk' => h k' (List.mem_cons_of_mem _ hk')]
      cases k with
      | skipped => rfl
      | modern limit needs => cases hk
      | old limit => rfl

/-! ### The result -/

def result (version : ℕ) (ks : List Kind) : ℕ := outcome (run ⟨version, false, version⟩ ks)

/-- No host needs v3, or no old host is below the version of the connection. -/
def Harmless (version : ℕ) (ks : List Kind) : Prop :=
  (∀ k ∈ ks, k.needsV3 = false) ∨ ∀ k ∈ ks, ∀ limit, k = .old limit → version ≤ limit

theorem Harmless.subset {version : ℕ} {ks ks' : List Kind} (h : Harmless version ks) (hsub : ks' ⊆ ks) :
    Harmless version ks' :=
  h.imp (fun h k hk => h k (hsub hk)) fun h k hk => h k (hsub hk)

theorem result_of_harmless {version : ℕ} {ks : List Kind} (h : Harmless version ks) :
    result version ks = lowest version ks := by
  have hmax := run_maxVersion ks ⟨version, false, version⟩
  have hrequirement := run_v3Requirement ks ⟨version, false, version⟩
  unfold result outcome
  rcases h with hneeds | hold
  · have hnone : ks.any Kind.needsV3 = false := by
      rw [List.any_eq_false]
      intro k hk
      rw [hneeds k hk]
      decide
    rw [hrequirement, hnone, if_neg (by simp), hmax]
  · have hsame := run_same (s := ⟨version, false, version⟩) hold rfl
    rw [hsame, ite_self, hmax]

/-- The hosts limited to v1 or v2 behind the others: they are left out. -/
theorem result_old_last {version : ℕ} {ks olds : List Kind} (hks : ∀ k ∈ ks, k.isOld = false)
    (holds : ∀ k ∈ olds, k.isOld = true) (hneeds : ∃ k ∈ ks, k.needsV3 = true)
    (hlow : lowest version (ks ++ olds) < v3) : result version (ks ++ olds) = lowest version ks := by
  have hmax := run_maxVersion (ks ++ olds) ⟨version, false, version⟩
  have hrequirement := run_v3Requirement (ks ++ olds) ⟨version, false, version⟩
  have hany : (ks ++ olds).any Kind.needsV3 = true := by
    obtain ⟨k, hk, hneed⟩ := hneeds
    exact List.any_eq_true.2 ⟨k, List.mem_append_left _ hk, hneed⟩
  have hsame := run_same (s := ⟨version, false, version⟩)
    (fun k hk limit h => by
      have := hks k hk
      rw [h] at this
      cases this) rfl
  unfold result outcome
  rw [hrequirement, hany, hmax, if_pos ⟨rfl, hlow⟩, run_append, run_old holds, hsame, run_maxVersion]

/-- A host of v3 or more behind all others: nothing is left out. -/
theorem result_modern_last {version limit : ℕ} {needs : Bool} {ks : List Kind} :
    result version (ks ++ [.modern limit needs]) = lowest version (ks ++ [.modern limit needs]) := by
  have hmax := run_maxVersion (ks ++ [.modern limit needs]) ⟨version, false, version⟩
  have hsame : (run ⟨version, false, version⟩ (ks ++ [.modern limit needs])).maxVersionWith3OrMore =
      (run ⟨version, false, version⟩ (ks ++ [.modern limit needs])).maxVersion := by
    rw [run_append]
    rfl
  unfold result outcome
  rw [hsame, ite_self, hmax]

theorem getHighestCommon_of_parsed {version : ℕ} {hosts : List Host} (hversion : v1 ≤ version)
    (h : ∀ x ∈ hosts, x.kind = .ok x.known) :
    getHighestCommon version hosts = .ok (result version (hosts.map Host.known)) := by
  unfold getHighestCommon
  rw [foldlM_of_parsed h hversion]
  rfl

theorem getHighestCommon_of_error {version : ℕ} {hosts : List Host} (hversion : v1 ≤ version)
    (h : ∃ x ∈ hosts, ∃ e, x.kind = .error e) : ∃ e, getHighestCommon version hosts = .error e := by
  obtain ⟨e, he⟩ := foldlM_of_error h (s := ⟨version, false, version⟩) hversion
  refine ⟨e, ?_⟩
  unfold getHighestCommon
  rw [he]
  rfl

theorem iff_of_errors {x y : Except String ℕ} (hx : ∃ e, x = .error e) (hy : ∃ e, y = .error e) (v : ℕ) :
    x = .ok v ↔ y = .ok v := by
  obtain ⟨e, rfl⟩ := hx
  obtain ⟨e', rfl⟩ := hy
  simp

/-- Every order of the hosts gives the same version. -/
def OrderFree (version : ℕ) (hosts : List Host) : Prop :=
  ∀ hosts' : List Host, hosts'.Perm hosts →
    ∀ v, getHighestCommon version hosts' = .ok v ↔ getHighestCommon version hosts = .ok v

/-- Beside a host that needs v3, the hosts limited to v1 or v2 make no difference. -/
def IgnoresOld (version : ℕ) (hosts : List Host) : Prop :=
  (∃ h ∈ hosts, h.known.needsV3 = true) →
    ∀ v, getHighestCommon version (hosts.filter fun h => !h.known.isOld) = .ok v ↔
      getHighestCommon version hosts = .ok v

theorem orderFree_of_harmless {version : ℕ} {hosts : List Host} (hversion : v1 ≤ version)
    (hparsed : ∀ x ∈ hosts, x.kind = .ok x.known) (h : Harmless version (hosts.map Host.known)) :
    OrderFree version hosts := by
  intro hosts' hperm v
  have hmap := hperm.map Host.known
  rw [getHighestCommon_of_parsed hversion hparsed,
    getHighestCommon_of_parsed hversion fun x hx => hparsed x (hperm.mem_iff.1 hx), result_of_harmless h,
    result_of_harmless (h.subset hmap.subset), lowest_perm hmap]

/-- Old hosts that lower nothing can be left out. -/
theorem lowest_young {version : ℕ} {hosts : List Host}
    (hold : ∀ k ∈ hosts.map Host.known, ∀ limit, k = .old limit → version ≤ limit) :
    lowest version ((hosts.filter fun h => !h.known.isOld).map Host.known) = lowest version (hosts.map Host.known) := by
  have hsub : (hosts.filter fun h => !h.known.isOld).map Host.known ⊆ hosts.map Host.known :=
    List.map_subset _ fun _ hx => List.mem_of_mem_filter hx
  apply eq_of_forall_le_iff
  intro n
  rw [le_lowest_iff, le_lowest_iff]
  refine and_congr_right fun hn => ⟨fun hlimits k hk limit hl => ?_, fun hlimits k hk => hlimits k (hsub hk)⟩
  cases hkind : k.isOld with
  | true =>
      cases k with
      | skipped => cases hkind
      | modern limit needs => cases hkind
      | old l =>
          obtain rfl : l = limit := Option.some.inj hl
          exact hn.trans (hold _ hk l rfl)
  | false =>
      obtain ⟨y, hy, rfl⟩ := List.mem_map.1 hk
      refine hlimits _ (List.mem_map_of_mem (List.mem_filter.2 ⟨hy, ?_⟩)) limit hl
      rw [hkind]
      rfl

theorem ignoresOld_of_harmless {version : ℕ} {hosts : List Host} (hversion : v1 ≤ version)
    (hparsed : ∀ x ∈ hosts, x.kind = .ok x.known) (h : Harmless version (hosts.map Host.known)) :
    IgnoresOld version hosts := by
  rintro ⟨x, hx, hneeds⟩ v
  have hold : ∀ k ∈ hosts.map Host.known, ∀ limit, k = .old limit → version ≤ limit := by
    rcases h with hnone | hold
    · have := hnone _ (List.mem_map_of_mem hx)
      rw [hneeds] at this
      cases this
    · exact hold
  have hsub : (hosts.filter fun h => !h.known.isOld).map Host.known ⊆ hosts.map Host.known :=
    List.map_subset _ fun _ hx => List.mem_of_mem_filter hx
  rw [getHighestCommon_of_parsed hversion hparsed,
    getHighestCommon_of_parsed hversion fun x hx => hparsed x (List.mem_of_mem_filter hx), result_of_harmless h,
    result_of_harmless (h.subset hsub), lowest_young hold]

/-! ### An order that makes a difference -/

theorem Kind.eq_modern_of_needsV3 {k : Kind} (h : k.needsV3 = true) : ∃ limit, k = .modern limit true := by
  cases k with
  | skipped => cases h
  | modern limit needs =>
      obtain rfl : needs = true := h
      exact ⟨limit, rfl⟩
  | old limit => cases h

theorem Kind.lt_v3_of_old {limit : ℕ} (h : (Kind.old limit).Valid) : limit < v3 := by
  rcases h with rfl | rfl
  · exact Nat.le_of_ble_eq_true rfl
  · exact Nat.le_of_ble_eq_true rfl

theorem lowest_le {version limit : ℕ} {ks : List Kind} {k : Kind} (hk : k ∈ ks) (hl : k.limit? = some limit) :
    lowest version ks ≤ limit := (le_lowest_iff.1 le_rfl).2 k hk limit hl

/-- Without the old hosts, nothing goes below v3 that is not below it in the connection. -/
theorem lt_lowest {version limit : ℕ} {ks : List Kind} (hvalid : ∀ k ∈ ks, k.Valid)
    (hyoung : ∀ k ∈ ks, k.isOld = false) (hversion : limit < version) (hlimit : limit < v3) :
    limit < lowest version ks := by
  apply Nat.succ_le_iff.1
  rw [le_lowest_iff]
  refine ⟨hversion, fun k hk l hl => ?_⟩
  have hkvalid := hvalid k hk
  cases k with
  | skipped => cases hl
  | modern l' needs =>
      obtain rfl : l' = l := Option.some.inj hl
      exact hlimit.trans_le hkvalid
  | old l' => cases hyoung _ hk

/-- For kinds of which one needs v3 and one is old and below the version of the connection, the version with
the old ones last is not that with the one that needs v3 last. -/
theorem result_ne {version limit : ℕ} {young olds ks : List Kind} {new : Kind}
    (hperm : (young ++ olds).Perm (ks ++ [new])) (hvalid : ∀ k ∈ young, k.Valid)
    (hyoung : ∀ k ∈ young, k.isOld = false) (holds : ∀ k ∈ olds, k.isOld = true) (hnew : new.needsV3 = true)
    (hold : .old limit ∈ olds) (hlimit : limit < v3) (hversion : limit < version) :
    result version (young ++ olds) ≠ result version (ks ++ [new]) := by
  obtain ⟨newLimit, rfl⟩ := Kind.eq_modern_of_needsV3 hnew
  have hlow : lowest version (young ++ olds) ≤ limit := lowest_le (List.mem_append_right _ hold) rfl
  have hmem : .modern newLimit true ∈ young ++ olds := hperm.mem_iff.2 (List.mem_append_right _ (.head _))
  have hfirst : result version (young ++ olds) = lowest version young := by
    refine result_old_last hyoung holds ⟨_, ?_, hnew⟩ (hlow.trans_lt hlimit)
    rcases List.mem_append.1 hmem with h | h
    · exact h
    · cases holds _ h
  have hlast : result version (ks ++ [.modern newLimit true]) = lowest version (young ++ olds) := by
    rw [result_modern_last, lowest_perm hperm]
  have hlt := lt_lowest hvalid hyoung hversion hlimit
  omega

theorem OrderFree.result_perm {version : ℕ} {hosts hosts' : List Host} (h : OrderFree version hosts)
    (hversion : v1 ≤ version) (hparsed : ∀ x ∈ hosts, x.kind = .ok x.known) (hperm : hosts'.Perm hosts) :
    result version (hosts'.map Host.known) = result version (hosts.map Host.known) := by
  have hiff := h hosts' hperm (result version (hosts.map Host.known))
  rw [getHighestCommon_of_parsed hversion hparsed,
    getHighestCommon_of_parsed hversion fun x hx => hparsed x (hperm.mem_iff.1 hx)] at hiff
  exact Except.ok.inj (hiff.2 rfl)

/-- With the old hosts last they are left out, and with the host that needs v3 last they are not. -/
theorem harmless_of_orderFree {version : ℕ} {hosts : List Host} (hversion : v1 ≤ version)
    (hparsed : ∀ x ∈ hosts, x.kind = .ok x.known) (h : OrderFree version hosts) :
    Harmless version (hosts.map Host.known) := by
  by_contra hharm
  rw [Harmless, not_or] at hharm
  simp only [List.mem_map, forall_exists_index, and_imp, forall_apply_eq_imp_iff₂, not_forall] at hharm
  obtain ⟨⟨new, hnew, hneeds⟩, old, hold, limit, hlimit, hlt⟩ := hharm
  rw [Bool.not_eq_false] at hneeds
  have hvalid := fun x (hx : x ∈ hosts) => Host.kind_valid (hparsed x hx)
  have hpermOld : (hosts.filter (fun h => !h.known.isOld) ++ hosts.filter fun h => !!h.known.isOld).Perm hosts :=
    List.filter_append_perm ..
  have hpermNew : (hosts.erase new ++ [new]).Perm hosts :=
    (List.perm_append_singleton new _).trans (List.perm_cons_erase hnew).symm
  have heq := (h.result_perm hversion hparsed hpermOld).trans (h.result_perm hversion hparsed hpermNew).symm
  have hperm := (hpermOld.trans hpermNew.symm).map Host.known
  rw [List.map_append, List.map_append, List.map_singleton] at heq hperm
  refine result_ne hperm ?_ ?_ ?_ hneeds ?_ (Kind.lt_v3_of_old (hlimit ▸ hvalid old hold)) (not_le.1 hlt) heq
  · intro k hk
    obtain ⟨x, hx, rfl⟩ := List.mem_map.1 hk
    exact hvalid x (List.mem_of_mem_filter hx)
  · intro k hk
    obtain ⟨x, hx, rfl⟩ := List.mem_map.1 hk
    simpa using (List.mem_filter.1 hx).2
  · intro k hk
    obtain ⟨x, hx, rfl⟩ := List.mem_map.1 hk
    simpa using (List.mem_filter.1 hx).2
  · refine List.mem_map.2 ⟨old, List.mem_filter.2 ⟨hold, ?_⟩, hlimit⟩
    rw [hlimit]
    rfl

/-- The result does not depend on the order, and not on the old hosts beside one that needs v3, exactly if a
version of DSE is thrown, no host needs v3, or no old host is below the version of the connection. -/
theorem getHighestCommon_iff {version : ℕ} (hversion : 1 ≤ version) (hosts : List Host) :
    OrderFree version hosts ∧ IgnoresOld version hosts ↔
      (∃ h ∈ hosts, ∃ e, h.kind = .error e) ∨ (∀ h ∈ hosts, h.known.needsV3 = false) ∨
        ∀ h ∈ hosts, ∀ limit, h.known = .old limit → version ≤ limit := by
  by_cases herror : ∃ h ∈ hosts, ∃ e, h.kind = .error e
  · refine iff_of_true ⟨fun hosts' hperm v => ?_, fun _ v => ?_⟩ (.inl herror)
    · obtain ⟨x, hx, hthrown⟩ := herror
      exact iff_of_errors (getHighestCommon_of_error hversion ⟨x, hperm.mem_iff.2 hx, hthrown⟩)
        (getHighestCommon_of_error hversion ⟨x, hx, hthrown⟩) v
    · obtain ⟨x, hx, e, he⟩ := herror
      -- what throws is not old
      have hkept : x ∈ hosts.filter fun h => !h.known.isOld := by
        rw [List.mem_filter, Host.known, he]
        exact ⟨hx, rfl⟩
      exact iff_of_errors (getHighestCommon_of_error hversion ⟨x, hkept, e, he⟩)
        (getHighestCommon_of_error hversion ⟨x, hx, e, he⟩) v
  · have hparsed : ∀ x ∈ hosts, x.kind = .ok x.known := by
      intro x hx
      cases hk : x.kind with
      | ok k => rw [Host.known, hk]
      | error e => exact absurd ⟨x, hx, e, hk⟩ herror
    have hharmless : Harmless version (hosts.map Host.known) ↔ (∀ h ∈ hosts, h.known.needsV3 = false) ∨
        ∀ h ∈ hosts, ∀ limit, h.known = .old limit → version ≤ limit := by
      simp only [Harmless, List.forall_mem_map]
    rw [← hharmless]
    constructor
    · rintro ⟨horder, -⟩
      exact .inr (harmless_of_orderFree hversion hparsed horder)
    · rintro (h | h)
      · exact absurd h herror
      · exact ⟨orderFree_of_harmless hversion hparsed h, ignoresOld_of_harmless hversion hparsed h⟩

def cassandraHost (version : String) : Host := ⟨none, some version.toList⟩

theorem getHighestCommon_iff_upgrade :
    OrderFree 2 [cassandraHost "2.0.17", cassandraHost "3.0.13"] ∧
        IgnoresOld 2 [cassandraHost "2.0.17", cassandraHost "3.0.13"] ↔
      (∃ h ∈ [cassandraHost "2.0.17", cassandraHost "3.0.13"], ∃ e, h.kind = .error e) ∨
        (∀ h ∈ [cassandraHost "2.0.17", cassandraHost "3.0.13"], h.known.needsV3 = false) ∨
        ∀ h ∈ [cassandraHost "2.0.17", cassandraHost "3.0.13"], ∀ limit, h.known = .old limit → 2 ≤ limit :=
  getHighestCommon_iff (by decide) _

/-- A host of version 2.0 in front of one of version 3.0 lowers the version to v2, which the latter does not
speak. -/
theorem not_forall_getHighestCommon :
    ¬ (∀ version, 1 ≤ version → ∀ hosts, OrderFree version hosts ∧ IgnoresOld version hosts) ∧
      getHighestCommon v4 [cassandraHost "2.0.17", cassandraHost "3.0.13"] = .ok 2 ∧
      getHighestCommon v4 [cassandraHost "3.0.13", cassandraHost "2.0.17"] = .ok 4 := by
  have hfirst : getHighestCommon v4 [cassandraHost "2.0.17", cassandraHost "3.0.13"] = .ok 2 := by decide +kernel
  have hlast : getHighestCommon v4 [cassandraHost "3.0.13", cassandraHost "2.0.17"] = .ok 4 := by decide +kernel
  refine ⟨fun h => ?_, hfirst, hlast⟩
  have hiff := (h v4 (by decide) [cassandraHost "2.0.17", cassandraHost "3.0.13"]).1
    [cassandraHost "3.0.13", cassandraHost "2.0.17"] (List.Perm.swap ..) 4
  rw [hfirst, hlast] at hiff
  exact absurd (hiff.1 rfl) (by decide)

end CqlDriver.ProtocolVersion
