import Mathlib.Data.List.ReduceOption
import CqlDriver.Metadata.NetworkPlacement

/-! # `NetworkTopologyStrategy` on a ring

The data centers that `buildTokens` counts and the walks around its ring meet `WalkSpec`, so that the
placement theorem is one about `tokenNetworkStrategy`. -/

namespace CqlDriver.Metadata

open Fallible Firsts

/-! ### The data centers -/

/-- The entry of a data center after some hosts. -/
def DatacenterSpec (hosts : List Host) (dc : String) (entry : Option Datacenter) : Prop :=
  entry = if hostsOf dc hosts = [] then none
    else some ⟨(hostsOf dc hosts).length, ⟨(rackFirsts dc hosts).map Host.rackKey⟩⟩

theorem add_rackKey (hosts : List Host) (h : Host) :
    ((⟨(rackFirsts h.dcKey hosts).map Host.rackKey⟩ : HashSet String).add h.rackKey).1 =
      ⟨(rackFirsts h.dcKey (hosts ++ [h])).map Host.rackKey⟩ := by
  by_cases hmet : RackMet hosts h
  · have hmem : h.rackKey ∈ (rackFirsts h.dcKey hosts).map Host.rackKey := hmet
    rw [rackFirsts_of_rackMet hmet]
    simp only [HashSet.add, HashSet.contains, hmem, decide_true, if_true]
  · have hmem : h.rackKey ∉ (rackFirsts h.dcKey hosts).map Host.rackKey := hmet
    rw [rackFirsts_of_not_rackMet hmet, List.map_append]
    simp only [HashSet.add, HashSet.contains, hmem, decide_false, Bool.false_eq_true, if_false,
      List.map_singleton]

theorem addDatacenter_spec {hosts : List Host} {datacenters : String → Option Datacenter} (h : Host)
    (hspec : ∀ dc, DatacenterSpec hosts dc (datacenters dc)) (dc : String) :
    DatacenterSpec (hosts ++ [h]) dc (addDatacenter datacenters h dc) := by
  unfold addDatacenter
  by_cases hdc : dc = h.dcKey
  · subst hdc
    have hne : hostsOf h.dcKey (hosts ++ [h]) ≠ [] := by
      rw [hostsOf_concat_self]
      simp
    have hold : (datacenters h.dcKey).getD ⟨0, .empty⟩ =
        ⟨(hostsOf h.dcKey hosts).length, ⟨(rackFirsts h.dcKey hosts).map Host.rackKey⟩⟩ := by
      rw [hspec h.dcKey]
      by_cases hnil : hostsOf h.dcKey hosts = []
      · rw [if_pos hnil, rackFirsts, hnil]
        rfl
      · rw [if_neg hnil]
        rfl
    unfold DatacenterSpec
    rw [Function.update_self, if_neg hne, hold, add_rackKey, hostsOf_concat_self, List.length_append,
      List.length_singleton]
  · unfold DatacenterSpec
    rw [Function.update_of_ne hdc, hostsOf_concat_of_ne (Ne.symm hdc), rackFirsts_concat_of_ne (Ne.symm hdc)]
    exact hspec dc

variable {T : Type} [LinearOrder T] {tokenizer : Tokenizer T} {hosts : List Host}

theorem addHost_datacenters (tokenizer : Tokenizer T) (b : Build T) {h : Host} (htokens : h.tokens ≠ none) :
    (addHost tokenizer b h).datacenters = addDatacenter b.datacenters h := by
  obtain ⟨tokens, heq⟩ := Option.ne_none_iff_exists'.1 htokens
  unfold addHost
  rw [heq]
  exact congrArg (addDatacenter · h) (foldl_addToken tokenizer h tokens b).2

/-- The table has the number of hosts and the racks of every data center. -/
theorem buildTokens_datacenters (htokens : ∀ h ∈ hosts, h.tokens ≠ none) (dc : String) :
    DatacenterSpec hosts dc ((buildTokens tokenizer hosts).datacenters dc) := by
  have hfold : ∀ dc, DatacenterSpec hosts dc
      ((hosts.foldl (addHost tokenizer) ⟨[], fun _ => none, fun _ => none⟩).datacenters dc) := by
    induction hosts using List.reverseRecOn with
    | nil => exact fun _ => rfl
    | append_singleton hosts h ih =>
        intro dc
        rw [List.foldl_append, List.foldl_cons, List.foldl_nil,
          addHost_datacenters tokenizer _ (htokens h (by simp))]
        exact addDatacenter_spec h (ih fun x hx => htokens x (by simp [hx])) dc
  exact hfold dc

/-! ### The walks -/

/-- The owners that a walk meets from position `i` on. -/
def ownersFrom (m : TokenMap T) (i : ℕ) : List Host :=
  (walkFrom m.ringTokensAsStrings m.primaryReplicas i).reduceOption

omit [LinearOrder T] in
/-- Every host has tokens, no token has two owners. -/
theorem nodup_hosts (hnodup : ((allTokens hosts).map tokenizer.parse).Nodup)
    (howns : ∀ h ∈ hosts, h.tokenList ≠ []) : hosts.Nodup := by
  rw [allTokens, List.map_flatMap, List.nodup_flatMap] at hnodup
  refine hnodup.2.imp_of_mem fun hh _ hdisjoint => ?_
  rintro rfl
  obtain ⟨s, hs⟩ := List.exists_mem_of_ne_nil _ (howns _ hh)
  have hs' : tokenizer.parse s ∈ _ := List.mem_map_of_mem hs
  exact hdisjoint hs' hs'

theorem mem_walkFrom {ringTokensAsStrings : List String} {primaryReplicas : String → Option Host} {i : ℕ}
    {x : Option Host} :
    x ∈ walkFrom ringTokensAsStrings primaryReplicas i ↔ ∃ s ∈ ringTokensAsStrings, primaryReplicas s = x := by
  rw [walkFrom, List.mem_map]
  exact exists_congr fun s => and_congr_left fun _ => List.mem_rotate

/-- A walk meets the hosts, each of them at one of its tokens. -/
theorem mem_walkFrom_iff (hnodup : ((allTokens hosts).map tokenizer.parse).Nodup)
    (hinverse : ∀ s ∈ allTokens hosts,
      tokenizer.parse (tokenizer.stringify (tokenizer.parse s)) = tokenizer.parse s)
    (howns : ∀ h ∈ hosts, h.tokenList ≠ []) (i : ℕ) (x : Option Host) :
    x ∈ walkFrom (buildTokens tokenizer hosts).ringTokensAsStrings
        (buildTokens tokenizer hosts).primaryReplicas i ↔ ∃ h ∈ hosts, x = some h := by
  have hring : (buildTokens tokenizer hosts).ringTokensAsStrings =
      (buildTokens tokenizer hosts).ring.map tokenizer.stringify := rfl
  rw [mem_walkFrom, hring]
  constructor
  · rintro ⟨s, hs, rfl⟩
    obtain ⟨t, ht, rfl⟩ := List.mem_map.1 hs
    obtain ⟨h, hh, heq, -⟩ := primaryReplicas_of_mem_ring hinverse ht
    exact ⟨h, hh, heq⟩
  · rintro ⟨h, hh, rfl⟩
    obtain ⟨s, hs⟩ := List.exists_mem_of_ne_nil _ (howns h hh)
    have ht : tokenizer.parse s ∈ (buildTokens tokenizer hosts).ring :=
      (ring_perm tokenizer hosts).mem_iff.2 (List.mem_map.2 ⟨s, List.mem_flatMap.2 ⟨h, hh, hs⟩, rfl⟩)
    obtain ⟨h', hh', heq, howns'⟩ := primaryReplicas_of_mem_ring hinverse ht
    obtain rfl := Owns.unique hnodup hh' hh howns' ⟨s, hs, rfl⟩
    exact ⟨_, List.mem_map_of_mem ht, heq⟩

theorem map_some_ownersFrom (hnodup : ((allTokens hosts).map tokenizer.parse).Nodup)
    (hinverse : ∀ s ∈ allTokens hosts,
      tokenizer.parse (tokenizer.stringify (tokenizer.parse s)) = tokenizer.parse s)
    (howns : ∀ h ∈ hosts, h.tokenList ≠ []) (i : ℕ) :
    (ownersFrom (buildTokens tokenizer hosts) i).map some =
      walkFrom (buildTokens tokenizer hosts).ringTokensAsStrings
        (buildTokens tokenizer hosts).primaryReplicas i := by
  have hsome := fun x => (mem_walkFrom_iff hnodup hinverse howns i x).1
  unfold ownersFrom
  generalize walkFrom (buildTokens tokenizer hosts).ringTokensAsStrings
    (buildTokens tokenizer hosts).primaryReplicas i = walk at hsome ⊢
  induction walk with
  | nil => rfl
  | cons x walk ih =>
      obtain ⟨h, -, rfl⟩ := hsome x (by simp)
      rw [List.reduceOption_cons_of_some, List.map_cons, ih fun y hy => hsome y (List.mem_cons_of_mem _ hy)]

theorem mem_ownersFrom (hnodup : ((allTokens hosts).map tokenizer.parse).Nodup)
    (hinverse : ∀ s ∈ allTokens hosts,
      tokenizer.parse (tokenizer.stringify (tokenizer.parse s)) = tokenizer.parse s)
    (howns : ∀ h ∈ hosts, h.tokenList ≠ []) (i : ℕ) (h : Host) :
    h ∈ ownersFrom (buildTokens tokenizer hosts) i ↔ h ∈ hosts := by
  rw [ownersFrom, List.reduceOption_mem_iff, mem_walkFrom_iff hnodup hinverse howns]
  simp

/-! ### The strategy -/

/-- The number of replicas that a data center should have. -/
def replicasWanted (options : StrategyOptions) (hosts : List Host) (dc : String) : ℕ :=
  min ((options.number dc).getD 0).toNat (hostsOf dc hosts).length

/-- The number of racks of a data center. -/
def rackCount (hosts : List Host) (dc : String) : ℕ := ((hostsOf dc hosts).map Host.rackKey).dedup.length

theorem length_rackFirsts (hosts : List Host) (dc : String) :
    (rackFirsts dc hosts).length = rackCount hosts dc :=
  length_firsts_eq_of_map_iff (List.nodup_dedup _) fun _ => List.mem_dedup

theorem rackCount_congr {hs hs' : List Host} (h : ∀ x, x ∈ hs ↔ x ∈ hs') (dc : String) :
    rackCount hs dc = rackCount hs' dc := by
  refine List.Perm.length_eq
    ((List.perm_ext_iff_of_nodup (List.nodup_dedup _) (List.nodup_dedup _)).2 fun k => ?_)
  simp only [List.mem_dedup, List.mem_map, mem_hostsOf, h]

section Strategy

variable {options : StrategyOptions}

omit [LinearOrder T] in
theorem mem_of_number {dc : String} {factor : ℤ} (h : options.number dc = some factor) :
    dc ∈ options.map Prod.fst := by
  unfold StrategyOptions.number JsObject.get at h
  cases hlookup : options.lookup dc with
  | none =>
      rw [hlookup] at h
      dsimp only at h
      split_ifs at h
  | some text =>
      obtain ⟨before, after, rfl, -⟩ := List.lookup_eq_some_iff.1 hlookup
      simp

/-- The test for the end of a walk. -/
theorem isDoneForToken_le (hpos : ∀ dc factor, options.number dc = some factor → 0 < factor)
    {datacenters : String → Option Datacenter} (hspec : ∀ dc, DatacenterSpec hosts dc (datacenters dc))
    {replicasByDc : String → ℕ} (hdone : isDoneForToken options datacenters replicasByDc = true) (dc : String)
    (hwanted : 0 < replicasWanted options hosts dc) : replicasWanted options hosts dc ≤ replicasByDc dc := by
  unfold replicasWanted at hwanted ⊢
  cases hnumber : options.number dc with
  | none =>
      rw [hnumber] at hwanted
      simp at hwanted
  | some factor =>
      have hfactor := hpos dc factor hnumber
      have hne : hostsOf dc hosts ≠ [] := by
        rintro hnil
        rw [hnil] at hwanted
        simp at hwanted
      have hentry := hspec dc
      unfold DatacenterSpec at hentry
      rw [if_neg hne] at hentry
      have hall := List.all_eq_true.1 hdone dc (mem_of_number hnumber)
      rw [hentry, hnumber] at hall
      have hlen := List.length_pos_iff.2 hne
      simp only [Bool.not_eq_true', Bool.and_eq_false_iff, decide_eq_false_iff_not, Bool.or_eq_false_iff,
        beq_eq_false_iff_ne] at hall
      rw [Option.getD_some]
      omega

/-- A visit to a host of the ring. -/
theorem visitReplica_visit (hpos : ∀ dc factor, options.number dc = some factor → 0 < factor)
    {datacenters : String → Option Datacenter} (hspec : ∀ dc, DatacenterSpec hosts dc (datacenters dc))
    (p : Placement) {h : Host} (hh : h ∈ hosts) (hrack : h.hasRack = true) :
    ∃ p' done, visitReplica options datacenters p (some h) = .ok (p', done) ∧
      Visit (replicasWanted options hosts) (rackCount hosts) p h p' ∧
      (done = true → ∀ dc, 0 < replicasWanted options hosts dc →
        replicasWanted options hosts dc ≤ p'.replicasByDc dc) := by
  unfold visitReplica
  by_cases hmem : h ∈ p.tokenReplicas
  · exact ⟨p, false, if_pos hmem, .passed (.inl hmem), by simp⟩
  dsimp only
  rw [if_neg hmem]
  cases hnumber : options.number h.dcKey with
  | none =>
      refine ⟨p, false, rfl, .passed (.inr (.inl ?_)), by simp⟩
      rw [replicasWanted, hnumber]
      simp
  | some factor =>
      have hfactor := hpos _ _ hnumber
      have hne : hostsOf h.dcKey hosts ≠ [] := List.ne_nil_of_mem (mem_hostsOf.2 ⟨hh, rfl⟩)
      have hentry := hspec h.dcKey
      unfold DatacenterSpec at hentry
      rw [if_neg hne] at hentry
      have hwanted : min factor ((hostsOf h.dcKey hosts).length : ℤ) = replicasWanted options hosts h.dcKey := by
        rw [replicasWanted, hnumber, Option.getD_some]
        omega
      have hracks : (⟨(rackFirsts h.dcKey hosts).map Host.rackKey⟩ : HashSet String).length =
          rackCount hosts h.dcKey := by
        rw [← length_rackFirsts]
        exact List.length_map ..
      dsimp only
      rw [if_neg hfactor.ne', hentry]
      dsimp only
      rw [hwanted, hracks]
      obtain ⟨hvisit, hdone⟩ := placeHost_visit hrack hmem rfl
      exact ⟨_, _, rfl, hvisit, fun hd dc => isDoneForToken_le hpos hspec (hdone hd) dc⟩

/-- A walk around the ring. -/
theorem walkSpec (hpos : ∀ dc factor, options.number dc = some factor → 0 < factor)
    {datacenters : String → Option Datacenter} (hspec : ∀ dc, DatacenterSpec hosts dc (datacenters dc))
    (hrack : ∀ h ∈ hosts, h.hasRack = true) (hnodup : hosts.Nodup) {walk : List Host}
    (hwalk : ∀ h, h ∈ walk ↔ h ∈ hosts) :
    WalkSpec (replicasWanted options hosts) (rackCount hosts) options datacenters walk where
  visit p h hh := visitReplica_visit hpos hspec p ((hwalk h).1 hh) (hrack h ((hwalk h).1 hh))
  racks dc _ := by rw [length_rackFirsts, rackCount_congr hwalk]
  hosts dc := by
    have hnodup' : (hostsOf dc hosts).Nodup := hnodup.filter _
    have hlen : (rackFirsts dc walk).length + (rackOthers dc walk).length = (hostsOf dc hosts).length :=
      length_add_length_eq_of_mem_iff hnodup' fun h => by simp [hwalk]
    rw [hlen]
    exact min_le_right _ _

/-- What the strategy promises of the replicas of a token: no host twice, no host of a data center without
factor, and of a data center with a factor as many hosts as the factor says and the data center has, in as
many racks. -/
structure WellPlaced (options : StrategyOptions) (hosts hs : List Host) : Prop where
  nodup : hs.Nodup
  mem : ∀ h ∈ hs, h ∈ hosts ∧ options.number h.dcKey ≠ none
  count : ∀ dc factor, options.number dc = some factor →
    ((hostsOf dc hs).length : ℤ) = min factor (hostsOf dc hosts).length
  racks : ∀ dc factor, options.number dc = some factor → (rackCount hs dc : ℤ) = min factor (rackCount hosts dc)

theorem rackCount_le (hs : List Host) (dc : String) : rackCount hs dc ≤ (hostsOf dc hs).length := by
  have := (List.dedup_sublist ((hostsOf dc hs).map Host.rackKey)).length_le
  rwa [List.length_map] at this

theorem Placed.hostsOf_eq_nil {rf racks : String → ℕ} {hs : List Host} (hp : Placed rf racks hs) {dc : String}
    (hzero : ¬ 0 < rf dc) : hostsOf dc hs = [] := by
  apply Metadata.hostsOf_eq_nil
  intro x hx hdc
  have := hp.factor x hx
  rw [hdc] at this
  exact hzero this

theorem wellPlaced_iff (hpos : ∀ dc factor, options.number dc = some factor → 0 < factor) {hs : List Host}
    (hmem : ∀ h ∈ hs, h ∈ hosts) :
    WellPlaced options hosts hs ↔ Placed (replicasWanted options hosts) (rackCount hosts) hs := by
  have hwanted {dc : String} {factor : ℤ} (hnumber : options.number dc = some factor) :
      (replicasWanted options hosts dc : ℤ) = min factor (hostsOf dc hosts).length := by
    have := hpos dc factor hnumber
    rw [replicasWanted, hnumber, Option.getD_some]
    omega
  have hnumber {dc : String} (hw : 0 < replicasWanted options hosts dc) :
      ∃ factor, options.number dc = some factor := by
    apply Option.ne_none_iff_exists'.1
    intro hnone
    rw [replicasWanted, hnone] at hw
    simp at hw
  constructor
  · intro hw
    refine ⟨hw.nodup, fun x hx => ?_, fun dc hdc => ?_, fun dc hdc => ?_⟩
    · obtain ⟨hx, hsome⟩ := hw.mem x hx
      obtain ⟨factor, hfactor⟩ := Option.ne_none_iff_exists'.1 hsome
      have hlen : 0 < (hostsOf x.dcKey hosts).length := List.length_pos_of_mem (mem_hostsOf.2 ⟨hx, rfl⟩)
      have := hpos _ _ hfactor
      have := hwanted hfactor
      omega
    · obtain ⟨factor, hfactor⟩ := hnumber hdc
      have := hw.count dc factor hfactor
      have := hwanted hfactor
      omega
    · obtain ⟨factor, hfactor⟩ := hnumber hdc
      have hracks := hw.racks dc factor hfactor
      have := hwanted hfactor
      have := rackCount_le hosts dc
      change rackCount hs dc = _
      omega
  · intro hp
    refine ⟨hp.nodup, fun x hx => ⟨hmem x hx, fun hnone => ?_⟩, fun dc factor hfactor => ?_,
      fun dc factor hfactor => ?_⟩
    · have hw := hp.factor x hx
      rw [replicasWanted, hnone] at hw
      simp at hw
    · have hf := hpos dc factor hfactor
      have hw := hwanted hfactor
      by_cases hzero : 0 < replicasWanted options hosts dc
      · rw [hp.count dc hzero]
        exact hw
      · rw [hp.hostsOf_eq_nil hzero, List.length_nil]
        omega
    · have hf := hpos dc factor hfactor
      have hw := hwanted hfactor
      have hle := rackCount_le hosts dc
      by_cases hzero : 0 < replicasWanted options hosts dc
      · have hracks : rackCount hs dc = _ := hp.racks dc hzero
        omega
      · have hcount : rackCount hs dc = 0 := by
          rw [rackCount, hp.hostsOf_eq_nil hzero]
          rfl
        omega

/-! ### The table -/

section Table

variable {ring : List String} {primaryReplicas : String → Option Host}
  {datacenters : String → Option Datacenter}

theorem tokenNetworkStrategy_eq {hs : ℕ → List Host}
    (hrun : ∀ i, networkReplicas options datacenters (walkFrom ring primaryReplicas i) .start = .ok (hs i)) :
    tokenNetworkStrategy options ring primaryReplicas datacenters =
      .ok (tableOf (ring.zipIdx.map fun x => (x.1, (hs x.2).map some))) := by
  unfold tokenNetworkStrategy
  rw [← List.map_id ring.zipIdx, mapM_map_eq_ok.2, List.map_id]
  · rfl
  · intro x _
    dsimp only [id]
    rw [hrun]
    rfl

/-- The strategy succeeds if every walk does, and its table has their results. -/
theorem tokenNetworkStrategy_ok (hnodup : ring.Nodup) {P : ℕ → List Host → Prop}
    (hrun : ∀ i, ∃ hs, networkReplicas options datacenters (walkFrom ring primaryReplicas i) .start = .ok hs ∧
      P i hs) :
    ∃ table, tokenNetworkStrategy options ring primaryReplicas datacenters = .ok table ∧
      ∀ (i : ℕ) (key : String), ring[i]? = some key → ∃ hs : List Host,
        table key = some (hs.map some) ∧ P i hs := by
  choose hs hok hP using hrun
  refine ⟨_, tokenNetworkStrategy_eq hok, fun i key hkey => ⟨hs i, ?_, hP i⟩⟩
  refine tableOf_eq_some ?_ (List.mem_map.2 ⟨(key, i), List.mem_zipIdx_iff_getElem?.2 hkey, rfl⟩)
  rwa [map_fst_zipIdx]

end Table

theorem nodup_ringTokensAsStrings (hnodup : ((allTokens hosts).map tokenizer.parse).Nodup)
    (hinverse : ∀ s ∈ allTokens hosts,
      tokenizer.parse (tokenizer.stringify (tokenizer.parse s)) = tokenizer.parse s) :
    (buildTokens tokenizer hosts).ringTokensAsStrings.Nodup := by
  have hring := ring_perm tokenizer hosts
  refine (List.nodup_map_iff_inj_on (hring.nodup_iff.2 hnodup)).2 fun t ht t' ht' heq => ?_
  obtain ⟨s, hs, rfl⟩ := List.mem_map.1 (hring.mem_iff.1 ht)
  obtain ⟨s', hs', rfl⟩ := List.mem_map.1 (hring.mem_iff.1 ht')
  rw [← hinverse s hs, ← hinverse s' hs', heq]

end Strategy

/-- Four hosts in two racks; the second host has two tokens. -/
def vnodeHosts : List Host :=
  [⟨"10.0.0.1", some "dc1", some "r1", some ["10"]⟩, ⟨"10.0.0.2", some "dc1", some "r1", some ["20", "30"]⟩,
    ⟨"10.0.0.3", some "dc1", some "r1", some ["40"]⟩, ⟨"10.0.0.4", some "dc1", some "r2", some ["50"]⟩]

def fourReplicas : StrategyOptions := [("dc1", "4")]

theorem fourReplicas_pos (dc : String) (factor : ℤ) (h : fourReplicas.number dc = some factor) : 0 < factor := by
  obtain rfl : dc = "dc1" := by simpa [fourReplicas] using mem_of_number h
  have hfour : fourReplicas.number "dc1" = some 4 := by decide +kernel
  obtain rfl : 4 = factor := Option.some.inj (hfour.symm.trans h)
  norm_num

/-- The second host is skipped twice and added twice. -/
theorem vnodeHosts_replicas :
    ((tokenNetworkStrategy fourReplicas (buildTokens decimalTokenizer vnodeHosts).ringTokensAsStrings
        (buildTokens decimalTokenizer vnodeHosts).primaryReplicas
        (buildTokens decimalTokenizer vnodeHosts).datacenters).toOption.bind fun table => table "10") =
      some [vnodeHosts[0]?, vnodeHosts[3]?, vnodeHosts[1]?, vnodeHosts[1]?] := by
  decide +kernel

end CqlDriver.Metadata
