import CqlDriver.Lib.Fallible
import CqlDriver.Lib.Firsts
import CqlDriver.Metadata.Replication

/-! # Placement by data center and rack

The walk around the ring for one token, as `tokenNetworkStrategy` makes it.  A data center whose racks
are fewer than its replicas takes the first host of every rack; the other hosts that are met before the
last rack go to `skippedHosts` and are added when that rack is reached.  There is one list for all data
centers, a host of several tokens is listed each time it is met, and the list is read from its start.

`Disturbs` says when a host gets into the part of that list that a data center will read although it does
not belong there.  Without such a host every list is as the strategy says (`Good`), and after the first
one no list is (`Doomed`). -/

namespace CqlDriver.Metadata

open Firsts

/-! ### Hosts of a data center -/

def hostsOf (dc : String) (hs : List Host) : List Host := hs.filter (·.dcKey = dc)

/-- The first host of every rack of a data center in the order of the walk. -/
def rackFirsts (dc : String) (walk : List Host) : List Host := firsts Host.rackKey (hostsOf dc walk)

/-- The other hosts of a data center in the order of the walk. -/
def rackOthers (dc : String) (walk : List Host) : List Host := others Host.rackKey (hostsOf dc walk)

section HostsOf

variable {dc : String} {hs pre : List Host} {x h : Host}

@[simp] theorem mem_hostsOf : x ∈ hostsOf dc hs ↔ x ∈ hs ∧ x.dcKey = dc := by simp [hostsOf]

theorem hostsOf_append (dc : String) (hs hs' : List Host) :
    hostsOf dc (hs ++ hs') = hostsOf dc hs ++ hostsOf dc hs' := List.filter_append ..

theorem hostsOf_eq_nil (h : ∀ x ∈ hs, x.dcKey ≠ dc) : hostsOf dc hs = [] := by
  simpa [hostsOf] using h

theorem hostsOf_eq_self (h : ∀ x ∈ hs, x.dcKey = dc) : hostsOf dc hs = hs := by
  simpa [hostsOf] using h

theorem hostsOf_concat_of_ne (hne : h.dcKey ≠ dc) : hostsOf dc (hs ++ [h]) = hostsOf dc hs := by
  have hnil : hostsOf dc [h] = [] := hostsOf_eq_nil (by simpa using hne)
  rw [hostsOf_append, hnil, List.append_nil]

theorem hostsOf_concat_self (hs : List Host) (h : Host) :
    hostsOf h.dcKey (hs ++ [h]) = hostsOf h.dcKey hs ++ [h] := by
  rw [hostsOf_append, hostsOf_eq_self (by simp : ∀ x ∈ [h], x.dcKey = h.dcKey)]

theorem rackFirsts_concat_of_ne (hne : h.dcKey ≠ dc) : rackFirsts dc (pre ++ [h]) = rackFirsts dc pre := by
  rw [rackFirsts, hostsOf_concat_of_ne hne, rackFirsts]

theorem rackOthers_concat_of_ne (hne : h.dcKey ≠ dc) : rackOthers dc (pre ++ [h]) = rackOthers dc pre := by
  rw [rackOthers, hostsOf_concat_of_ne hne, rackOthers]

/-- The rack of the host was met before. -/
def RackMet (pre : List Host) (h : Host) : Prop := h.rackKey ∈ (rackFirsts h.dcKey pre).map Host.rackKey

instance (pre : List Host) (h : Host) : Decidable (RackMet pre h) :=
  inferInstanceAs (Decidable (h.rackKey ∈ (rackFirsts h.dcKey pre).map Host.rackKey))

theorem rackFirsts_of_rackMet (hmet : RackMet pre h) (dc : String) :
    rackFirsts dc (pre ++ [h]) = rackFirsts dc pre := by
  by_cases hne : h.dcKey = dc
  · subst hne
    rw [rackFirsts, hostsOf_concat_self, firsts_concat]
    exact if_pos hmet
  · exact rackFirsts_concat_of_ne hne

theorem rackFirsts_of_not_rackMet (hmet : ¬ RackMet pre h) :
    rackFirsts h.dcKey (pre ++ [h]) = rackFirsts h.dcKey pre ++ [h] := by
  rw [rackFirsts, hostsOf_concat_self, firsts_concat]
  exact if_neg hmet

theorem rackOthers_of_not_rackMet (hmet : ¬ RackMet pre h) (dc : String) :
    rackOthers dc (pre ++ [h]) = rackOthers dc pre := by
  by_cases hne : h.dcKey = dc
  · subst hne
    rw [rackOthers, hostsOf_concat_self, others_concat, if_neg fun hc => hmet hc.1, rackOthers]
  · exact rackOthers_concat_of_ne hne

theorem rackOthers_of_mem (hmem : h ∈ pre) (dc : String) : rackOthers dc (pre ++ [h]) = rackOthers dc pre := by
  by_cases hne : h.dcKey = dc
  · subst hne
    rw [rackOthers, hostsOf_concat_self, others_concat, if_neg fun hc => hc.2 (by simp [hmem]), rackOthers]
  · exact rackOthers_concat_of_ne hne

theorem rackOthers_of_rackMet (hmet : RackMet pre h) (hnew : h ∉ pre) :
    rackOthers h.dcKey (pre ++ [h]) = rackOthers h.dcKey pre ++ [h] := by
  rw [rackOthers, hostsOf_concat_self, others_concat, if_pos ⟨hmet, fun hc => hnew (mem_hostsOf.1 hc).1⟩,
    rackOthers]

/-- A host that was met before is the first of its rack or one of the others. -/
theorem mem_rackFirsts_or (hmem : h ∈ pre) : h ∈ rackFirsts h.dcKey pre ∨ h ∈ rackOthers h.dcKey pre :=
  mem_iff.1 (mem_hostsOf.2 ⟨hmem, rfl⟩)

theorem mem_of_mem_rackFirsts (hx : x ∈ rackFirsts dc pre) : x ∈ pre ∧ x.dcKey = dc :=
  mem_hostsOf.1 (mem_of_mem_firsts hx)

theorem mem_of_mem_rackOthers (hx : x ∈ rackOthers dc pre) : x ∈ pre ∧ x.dcKey = dc :=
  mem_hostsOf.1 (mem_of_mem_others hx)

theorem rackMet_of_mem (hmem : h ∈ pre) : RackMet pre h :=
  key_mem_iff.2 (List.mem_map_of_mem (mem_hostsOf.2 ⟨hmem, rfl⟩))

theorem not_mem_rackFirsts (hx : x ∈ rackOthers dc pre) : x ∉ rackFirsts dc pre :=
  not_mem_firsts_of_mem_others hx

theorem mem_rackOthers_concat (hx : x ∈ rackOthers dc pre) (h : Host) : x ∈ rackOthers dc (pre ++ [h]) := by
  by_cases hmem : h ∈ pre
  · rw [rackOthers_of_mem hmem]
    exact hx
  by_cases hmet : RackMet pre h
  · by_cases hne : h.dcKey = dc
    · subst hne
      rw [rackOthers_of_rackMet hmet hmem]
      exact List.mem_append_left _ hx
    · rw [rackOthers_concat_of_ne hne]
      exact hx
  · rw [rackOthers_of_not_rackMet hmet]
    exact hx

theorem length_rackFirsts_le_concat (dc : String) (pre : List Host) (h : Host) :
    (rackFirsts dc pre).length ≤ (rackFirsts dc (pre ++ [h])).length := by
  by_cases hdc : h.dcKey = dc
  · subst hdc
    rw [rackFirsts, rackFirsts, hostsOf_concat_self]
    exact length_firsts_le_concat _ h
  · rw [rackFirsts_concat_of_ne hdc]

end HostsOf

/-! ### One step of the walk -/

/-- What a visit does, with the number of replicas and of racks of every data center. -/
inductive Visit (rf racks : String → ℕ) (p : Placement) (h : Host) : Placement → Prop
  | passed
      (hpass : h ∈ p.tokenReplicas ∨ rf h.dcKey ≤ p.replicasByDc h.dcKey ∨
        (h.rackKey ∈ (p.racksPlaced h.dcKey).items ∧
          (p.racksPlaced h.dcKey).items.length < racks h.dcKey ∧
          rf h.dcKey ≤ p.replicasByDc h.dcKey + p.skippedHosts.length)) : Visit rf racks p h p
  | skipped (hnew : h ∉ p.tokenReplicas) (hrack : h.rackKey ∈ (p.racksPlaced h.dcKey).items)
      (hlt : (p.racksPlaced h.dcKey).items.length < racks h.dcKey)
      (hroom : p.replicasByDc h.dcKey + p.skippedHosts.length < rf h.dcKey) :
      Visit rf racks p h { p with skippedHosts := p.skippedHosts ++ [h] }
  | placed (hnew : h ∉ p.tokenReplicas) (hrack : h.rackKey ∈ (p.racksPlaced h.dcKey).items)
      (hge : racks h.dcKey ≤ (p.racksPlaced h.dcKey).items.length)
      (hroom : p.replicasByDc h.dcKey < rf h.dcKey) :
      Visit rf racks p h
        { p with
          tokenReplicas := p.tokenReplicas ++ [h]
          replicasByDc := Function.update p.replicasByDc h.dcKey (p.replicasByDc h.dcKey + 1) }
  | opened (hnew : h ∉ p.tokenReplicas) (hrack : h.rackKey ∉ (p.racksPlaced h.dcKey).items)
      (hne : (p.racksPlaced h.dcKey).items.length + 1 ≠ racks h.dcKey)
      (hroom : p.replicasByDc h.dcKey < rf h.dcKey) :
      Visit rf racks p h
        { p with
          tokenReplicas := p.tokenReplicas ++ [h]
          replicasByDc := Function.update p.replicasByDc h.dcKey (p.replicasByDc h.dcKey + 1)
          racksPlaced := Function.update p.racksPlaced h.dcKey
            ⟨(p.racksPlaced h.dcKey).items ++ [h.rackKey]⟩ }
  | completed (added : List Host)
      (hadded : added = p.skippedHosts.take (rf h.dcKey - (p.replicasByDc h.dcKey + 1)))
      (hnew : h ∉ p.tokenReplicas) (hrack : h.rackKey ∉ (p.racksPlaced h.dcKey).items)
      (heq : (p.racksPlaced h.dcKey).items.length + 1 = racks h.dcKey)
      (hroom : p.replicasByDc h.dcKey < rf h.dcKey) :
      Visit rf racks p h
        { p with
          tokenReplicas := p.tokenReplicas ++ [h] ++ added
          replicasByDc := Function.update p.replicasByDc h.dcKey (p.replicasByDc h.dcKey + 1 + added.length)
          racksPlaced := Function.update p.racksPlaced h.dcKey
            ⟨(p.racksPlaced h.dcKey).items ++ [h.rackKey]⟩ }

theorem placeHost_visit {isDone : (String → ℕ) → Bool} {rf racks : String → ℕ} {p p' : Placement} {h : Host}
    {done : Bool} (hrack : h.hasRack = true) (hnew : h ∉ p.tokenReplicas)
    (hp : placeHost isDone (rf h.dcKey) (racks h.dcKey) p h = (p', done)) :
    Visit rf racks p h p' ∧ (done = true → isDone p'.replicasByDc = true) := by
  unfold placeHost at hp
  simp only [hrack, Bool.true_and, if_true, HashSet.contains, addSkippedHosts] at hp
  by_cases hfull : (rf h.dcKey : ℤ) ≤ p.replicasByDc h.dcKey
  · rw [if_pos hfull] at hp
    obtain ⟨rfl, rfl⟩ := Prod.mk.inj hp
    exact ⟨.passed (.inr (.inl (by omega))), by simp⟩
  rw [if_neg hfull] at hp
  by_cases hskip : (decide (h.rackKey ∈ (p.racksPlaced h.dcKey).items) &&
      decide ((p.racksPlaced h.dcKey).length < racks h.dcKey)) = true
  · rw [if_pos hskip] at hp
    simp only [Bool.and_eq_true, decide_eq_true_eq] at hskip
    split_ifs at hp with hroom
    · obtain ⟨rfl, rfl⟩ := Prod.mk.inj hp
      exact ⟨.skipped hnew hskip.1 hskip.2 (by omega), by simp⟩
    · obtain ⟨rfl, rfl⟩ := Prod.mk.inj hp
      exact ⟨.passed (.inr (.inr ⟨hskip.1, hskip.2, by omega⟩)), by simp⟩
  · rw [if_neg hskip] at hp
    simp only [Bool.and_eq_true, decide_eq_true_eq, not_and, not_lt] at hskip
    have hroom : p.replicasByDc h.dcKey < rf h.dcKey := by omega
    by_cases hmem : h.rackKey ∈ (p.racksPlaced h.dcKey).items
    · have hadd : (p.racksPlaced h.dcKey).add h.rackKey = (p.racksPlaced h.dcKey, false) := by
        simp [HashSet.add, HashSet.contains, hmem]
      rw [hadd] at hp
      simp only [Bool.false_and, Bool.false_eq_true, if_false, List.append_nil, List.length_nil, add_zero,
        Function.update_eq_self] at hp
      obtain ⟨rfl, rfl⟩ := Prod.mk.inj hp
      exact ⟨.placed hnew hmem (hskip hmem) hroom, id⟩
    · have hadd : (p.racksPlaced h.dcKey).add h.rackKey =
          (⟨(p.racksPlaced h.dcKey).items ++ [h.rackKey]⟩, true) := by
        simp [HashSet.add, HashSet.contains, hmem]
      have hcount : ((rf h.dcKey : ℤ) - ((p.replicasByDc h.dcKey + 1 : ℕ) : ℤ)).toNat =
          rf h.dcKey - (p.replicasByDc h.dcKey + 1) := by omega
      rw [hadd] at hp
      simp only [HashSet.length, Bool.true_and, List.length_append, List.length_singleton, hcount] at hp
      by_cases heq : (p.racksPlaced h.dcKey).items.length + 1 = racks h.dcKey
      · simp only [heq, beq_self_eq_true, if_true] at hp
        obtain ⟨rfl, rfl⟩ := Prod.mk.inj hp
        exact ⟨.completed _ rfl hnew hmem heq hroom, id⟩
      · simp only [beq_iff_eq, heq, if_false, List.append_nil, List.length_nil, add_zero] at hp
        obtain ⟨rfl, rfl⟩ := Prod.mk.inj hp
        exact ⟨.opened hnew hmem heq hroom, id⟩

/-! ### Along every walk -/

section Walk

variable {rf racks : String → ℕ} {pre : List Host} {p p' : Placement} {h : Host}

/-- What holds after the hosts `pre` of the walk.  The number of replicas is that of the racks met as
long as the data center lacks a rack, or has as many racks as replicas. -/
structure Basic (rf racks : String → ℕ) (pre : List Host) (p : Placement) : Prop where
  replicas_mem : ∀ x ∈ p.tokenReplicas, x ∈ pre
  skipped_mem : ∀ x ∈ p.skippedHosts, 0 < rf x.dcKey ∧ x ∈ rackOthers x.dcKey pre
  racksPlaced : ∀ dc, (p.racksPlaced dc).items = ((rackFirsts dc pre).take (rf dc)).map Host.rackKey
  count : ∀ dc, rf dc ≤ racks dc ∨ (rackFirsts dc pre).length < racks dc →
    p.replicasByDc dc = min (rackFirsts dc pre).length (rf dc)
  firsts_mem : ∀ dc, ∀ x ∈ (rackFirsts dc pre).take (rf dc), x ∈ p.tokenReplicas
  /-- A data center that has read the list of skipped hosts has read its first entry. -/
  head_mem : ∀ x ∈ p.skippedHosts, racks x.dcKey < rf x.dcKey →
    (rackFirsts x.dcKey pre).length = racks x.dcKey →
      ∃ y, p.skippedHosts.head? = some y ∧ y ∈ p.tokenReplicas

theorem Basic.start (rf racks : String → ℕ) : Basic rf racks [] .start where
  replicas_mem := by simp [Placement.start]
  skipped_mem := by simp [Placement.start]
  racksPlaced _ := by simp [Placement.start, HashSet.empty, rackFirsts, hostsOf]
  count _ _ := by simp [Placement.start, rackFirsts, hostsOf]
  firsts_mem _ := by simp [rackFirsts, hostsOf]
  head_mem := by simp [Placement.start]

/-- What a visit does, by the racks that the walk has met. -/
inductive Event (rf racks : String → ℕ) (pre : List Host) (p : Placement) (h : Host) : Placement → Prop
  | full (hmet : ¬ RackMet pre h) (hfull : rf h.dcKey ≤ (rackFirsts h.dcKey pre).length) :
      Event rf racks pre p h p
  | repeated (hmet : RackMet pre h)
      (hpass : h ∈ p.tokenReplicas ∨ rf h.dcKey ≤ p.replicasByDc h.dcKey ∨
        ((rackFirsts h.dcKey pre).length < racks h.dcKey ∧
          rf h.dcKey ≤ (rackFirsts h.dcKey pre).length + p.skippedHosts.length)) :
      Event rf racks pre p h p
  | skipped (hmet : RackMet pre h) (hnew : h ∉ p.tokenReplicas)
      (hother : h ∈ rackOthers h.dcKey (pre ++ [h]))
      (hlt : (rackFirsts h.dcKey pre).length < racks h.dcKey)
      (hroom : (rackFirsts h.dcKey pre).length + p.skippedHosts.length < rf h.dcKey) :
      Event rf racks pre p h { p with skippedHosts := p.skippedHosts ++ [h] }
  | placed (hmet : RackMet pre h) (hnew : h ∉ p.tokenReplicas) (hrf : racks h.dcKey < rf h.dcKey)
      (hcomplete : (rackFirsts h.dcKey pre).length = racks h.dcKey)
      (hroom : p.replicasByDc h.dcKey < rf h.dcKey) :
      Event rf racks pre p h
        { p with
          tokenReplicas := p.tokenReplicas ++ [h]
          replicasByDc := Function.update p.replicasByDc h.dcKey (p.replicasByDc h.dcKey + 1) }
  | opened (hmet : ¬ RackMet pre h) (hroom : (rackFirsts h.dcKey pre).length < rf h.dcKey)
      (hlt : (rackFirsts h.dcKey pre).length + 1 < racks h.dcKey) :
      Event rf racks pre p h
        { p with
          tokenReplicas := p.tokenReplicas ++ [h]
          replicasByDc := Function.update p.replicasByDc h.dcKey ((rackFirsts h.dcKey pre).length + 1)
          racksPlaced := Function.update p.racksPlaced h.dcKey
            ⟨(rackFirsts h.dcKey (pre ++ [h])).map Host.rackKey⟩ }
  | completed (added : List Host) (hadded : added = p.skippedHosts.take (rf h.dcKey - racks h.dcKey))
      (hmet : ¬ RackMet pre h) (hroom : (rackFirsts h.dcKey pre).length < rf h.dcKey)
      (heq : (rackFirsts h.dcKey pre).length + 1 = racks h.dcKey) :
      Event rf racks pre p h
        { p with
          tokenReplicas := p.tokenReplicas ++ [h] ++ added
          replicasByDc := Function.update p.replicasByDc h.dcKey (racks h.dcKey + added.length)
          racksPlaced := Function.update p.racksPlaced h.dcKey
            ⟨(rackFirsts h.dcKey (pre ++ [h])).map Host.rackKey⟩ }

theorem Basic.not_mem_of_not_rackMet (hb : Basic rf racks pre p) (hmet : ¬ RackMet pre h) :
    h ∉ p.tokenReplicas := fun hmem => hmet (rackMet_of_mem (hb.replicas_mem h hmem))

theorem Basic.length_racksPlaced (hb : Basic rf racks pre p) (dc : String) :
    (p.racksPlaced dc).items.length = min (rf dc) (rackFirsts dc pre).length := by
  rw [hb.racksPlaced, List.length_map, List.length_take]

/-- The racks placed are those met, until all replicas are placed. -/
theorem Basic.rack_mem_iff (hb : Basic rf racks pre p) (hroom : (rackFirsts h.dcKey pre).length ≤ rf h.dcKey) :
    h.rackKey ∈ (p.racksPlaced h.dcKey).items ↔ RackMet pre h := by
  rw [hb.racksPlaced, List.take_of_length_le hroom]
  rfl

/-- A host whose rack is placed is a replica if it was the first of its rack. -/
theorem Basic.mem_of_mem_rackFirsts (hb : Basic rf racks pre p)
    (hrack : h.rackKey ∈ (p.racksPlaced h.dcKey).items) (hfirst : h ∈ rackFirsts h.dcKey pre) :
    h ∈ p.tokenReplicas := by
  rw [hb.racksPlaced] at hrack
  obtain ⟨y, hy, heq⟩ := List.mem_map.1 hrack
  have hyh : y = h := List.inj_on_of_nodup_map (nodup_map_firsts _) (List.mem_of_mem_take hy) hfirst heq
  exact hb.firsts_mem h.dcKey h (hyh ▸ hy)

/-- A skipped host is not the first of its rack. -/
theorem Basic.mem_rackOthers_of_skipped (hb : Basic rf racks pre p) (hmet : RackMet pre h)
    (hrack : h.rackKey ∈ (p.racksPlaced h.dcKey).items) (hnew : h ∉ p.tokenReplicas) :
    h ∈ rackOthers h.dcKey (pre ++ [h]) := by
  by_cases hmem : h ∈ pre
  · rw [rackOthers_of_mem hmem]
    exact (mem_rackFirsts_or hmem).resolve_left fun hfirst => hnew (hb.mem_of_mem_rackFirsts hrack hfirst)
  · rw [rackOthers_of_rackMet hmet hmem]
    exact List.mem_append_right _ (List.mem_singleton_self h)

theorem Basic.event_of_rackMet (hb : Basic rf racks pre p) (hmet : RackMet pre h)
    (hle : 0 < rf h.dcKey → (rackFirsts h.dcKey pre).length ≤ racks h.dcKey) (hv : Visit rf racks p h p') :
    Event rf racks pre p h p' := by
  have hlen := hb.length_racksPlaced h.dcKey
  have hcount := hb.count h.dcKey
  cases hv with
  | passed hpass =>
      refine .repeated hmet ?_
      obtain hmem | hfull | ⟨-, hlt, hroom⟩ := hpass
      · exact .inl hmem
      · exact .inr (.inl hfull)
      · by_cases hfull : rf h.dcKey ≤ p.replicasByDc h.dcKey
        · exact .inr (.inl hfull)
        · refine .inr (.inr ?_)
          by_cases hrf : rf h.dcKey ≤ racks h.dcKey
          · have := hcount (.inl hrf)
            omega
          · have := hcount (.inr (by omega))
            omega
  | skipped hnew hrack hlt hroom =>
      have hother := hb.mem_rackOthers_of_skipped hmet hrack hnew
      by_cases hrf : rf h.dcKey ≤ racks h.dcKey
      · have := hcount (.inl hrf)
        exact .skipped hmet hnew hother (by omega) (by omega)
      · have := hcount (.inr (by omega))
        exact .skipped hmet hnew hother (by omega) (by omega)
  | placed hnew hrack hge hroom =>
      have hrf : racks h.dcKey < rf h.dcKey := by
        by_contra hrf
        have := hcount (.inl (by omega))
        omega
      have := hle (by omega)
      exact .placed hmet hnew hrf (by omega) hroom
  | opened hnew hrack hne hroom =>
      -- the rack was met when all replicas were placed
      exfalso
      have hgt : rf h.dcKey < (rackFirsts h.dcKey pre).length := by
        by_contra hgt
        exact hrack ((hb.rack_mem_iff (by omega)).2 hmet)
      have := hle (by omega)
      have := hcount (.inl (by omega))
      omega
  | completed added hadded hnew hrack heq hroom =>
      exfalso
      have hgt : rf h.dcKey < (rackFirsts h.dcKey pre).length := by
        by_contra hgt
        exact hrack ((hb.rack_mem_iff (by omega)).2 hmet)
      have := hle (by omega)
      have := hcount (.inl (by omega))
      omega

theorem Basic.event_of_not_rackMet (hb : Basic rf racks pre p) (hmet : ¬ RackMet pre h)
    (hle : 0 < rf h.dcKey → (rackFirsts h.dcKey pre).length + 1 ≤ racks h.dcKey)
    (hv : Visit rf racks p h p') : Event rf racks pre p h p' := by
  have hnot := hb.not_mem_of_not_rackMet hmet
  by_cases hfull : rf h.dcKey ≤ (rackFirsts h.dcKey pre).length
  · -- all replicas are placed, without one in this rack
    have hcount : rf h.dcKey ≤ p.replicasByDc h.dcKey := by
      by_cases hpos : 0 < rf h.dcKey
      · have := hle hpos
        have := hb.count h.dcKey (.inr (by omega))
        omega
      · omega
    cases hv with
    | passed => exact .full hmet hfull
    | skipped _ _ _ hroom => omega
    | placed _ _ _ hroom => omega
    | opened _ _ _ hroom => omega
    | completed _ _ _ _ _ hroom => omega
  · have hracks := hle (by omega)
    have hcount := hb.count h.dcKey (.inr (by omega))
    have hlen := hb.length_racksPlaced h.dcKey
    have hnrack : h.rackKey ∉ (p.racksPlaced h.dcKey).items := by
      rwa [hb.rack_mem_iff (by omega)]
    have hreplicas : p.replicasByDc h.dcKey = (rackFirsts h.dcKey pre).length := by omega
    have hitems : (p.racksPlaced h.dcKey).items ++ [h.rackKey] =
        (rackFirsts h.dcKey (pre ++ [h])).map Host.rackKey := by
      rw [hb.racksPlaced, List.take_of_length_le (by omega), rackFirsts_of_not_rackMet hmet, List.map_append]
      rfl
    cases hv with
    | passed hpass =>
        exfalso
        obtain hmem | hge | ⟨hrack, -, -⟩ := hpass
        · exact hnot hmem
        · omega
        · exact hnrack hrack
    | skipped _ hrack => exact absurd hrack hnrack
    | placed _ hrack => exact absurd hrack hnrack
    | opened _ _ hne _ =>
        rw [hitems, hreplicas]
        exact .opened hmet (by omega) (by omega)
    | completed added hadded _ _ heq _ =>
        have hsum : p.replicasByDc h.dcKey + 1 = racks h.dcKey := by omega
        rw [hsum] at hadded
        rw [hitems, hsum]
        exact .completed added hadded hmet (by omega) (by omega)

/-- On a walk that meets no more racks than there are. -/
theorem Basic.event (hb : Basic rf racks pre p)
    (hle : ∀ dc, 0 < rf dc → (rackFirsts dc (pre ++ [h])).length ≤ racks dc) (hv : Visit rf racks p h p') :
    Event rf racks pre p h p' := by
  by_cases hmet : RackMet pre h
  · refine hb.event_of_rackMet hmet (fun hpos => ?_) hv
    have := hle h.dcKey hpos
    rwa [rackFirsts_of_rackMet hmet] at this
  · refine hb.event_of_not_rackMet hmet (fun hpos => ?_) hv
    have := hle h.dcKey hpos
    rwa [rackFirsts_of_not_rackMet hmet, List.length_append, List.length_singleton] at this

theorem head?_append_of_mem {S : List Host} {x : Host} (hx : x ∈ S) (T : List Host) :
    (S ++ T).head? = S.head? := by
  cases S with
  | nil => cases hx
  | cons y S => rfl

/-- A visit that changes nothing, to a host of a rack that was met. -/
theorem Basic.repeated (hb : Basic rf racks pre p) (hmet : RackMet pre h) : Basic rf racks (pre ++ [h]) p where
  replicas_mem x hx := List.mem_append_left _ (hb.replicas_mem x hx)
  skipped_mem x hx := ⟨(hb.skipped_mem x hx).1, mem_rackOthers_concat (hb.skipped_mem x hx).2 h⟩
  racksPlaced dc := by rw [rackFirsts_of_rackMet hmet, hb.racksPlaced]
  count dc := by
    rw [rackFirsts_of_rackMet hmet]
    exact hb.count dc
  firsts_mem dc := by
    rw [rackFirsts_of_rackMet hmet]
    exact hb.firsts_mem dc
  head_mem x := by
    rw [rackFirsts_of_rackMet hmet]
    exact hb.head_mem x

/-- A visit to a new rack of a data center that has its replicas. -/
theorem Basic.full (hb : Basic rf racks pre p) (hmet : ¬ RackMet pre h)
    (hfull : rf h.dcKey ≤ (rackFirsts h.dcKey pre).length) : Basic rf racks (pre ++ [h]) p := by
  have htake (dc : String) : (rackFirsts dc (pre ++ [h])).take (rf dc) = (rackFirsts dc pre).take (rf dc) := by
    by_cases hdc : h.dcKey = dc
    · subst hdc
      rw [rackFirsts_of_not_rackMet hmet, List.take_append_of_le_length hfull]
    · rw [rackFirsts_concat_of_ne hdc]
  exact {
    replicas_mem := fun x hx => List.mem_append_left _ (hb.replicas_mem x hx)
    skipped_mem := fun x hx => ⟨(hb.skipped_mem x hx).1, mem_rackOthers_concat (hb.skipped_mem x hx).2 h⟩
    racksPlaced := fun dc => by rw [htake, hb.racksPlaced]
    count := fun dc hcount => by
      by_cases hdc : h.dcKey = dc
      · subst hdc
        rw [rackFirsts_of_not_rackMet hmet, List.length_append, List.length_singleton] at hcount ⊢
        have := hb.count h.dcKey (by omega)
        omega
      · rw [rackFirsts_concat_of_ne hdc] at hcount ⊢
        exact hb.count dc hcount
    firsts_mem := fun dc => by
      rw [htake]
      exact hb.firsts_mem dc
    head_mem := fun x hx hrf hcomplete => by
      by_cases hdc : h.dcKey = x.dcKey
      · rw [← hdc, rackFirsts_of_not_rackMet hmet, List.length_append, List.length_singleton] at hcomplete
        rw [← hdc] at hrf
        omega
      · rw [rackFirsts_concat_of_ne hdc] at hcomplete
        exact hb.head_mem x hx hrf hcomplete }

theorem Basic.skipped (hb : Basic rf racks pre p) (hmet : RackMet pre h)
    (hother : h ∈ rackOthers h.dcKey (pre ++ [h]))
    (hlt : (rackFirsts h.dcKey pre).length < racks h.dcKey) (hpos : 0 < rf h.dcKey) :
    Basic rf racks (pre ++ [h]) { p with skippedHosts := p.skippedHosts ++ [h] } :=
  { hb.repeated hmet with
    skipped_mem := fun x hx => by
      obtain hx | hx := List.mem_append.1 hx
      · exact (hb.repeated hmet).skipped_mem x hx
      · obtain rfl := List.mem_singleton.1 hx
        exact ⟨hpos, hother⟩
    head_mem := fun x hx hrf hcomplete => by
      rw [rackFirsts_of_rackMet hmet] at hcomplete
      obtain hx | hx := List.mem_append.1 hx
      · obtain ⟨y, hy, hmem⟩ := hb.head_mem x hx hrf hcomplete
        exact ⟨y, (head?_append_of_mem hx _).trans hy, hmem⟩
      · obtain rfl := List.mem_singleton.1 hx
        omega }

theorem Basic.placed (hb : Basic rf racks pre p) (hmet : RackMet pre h) (hrf : racks h.dcKey < rf h.dcKey)
    (hcomplete : (rackFirsts h.dcKey pre).length = racks h.dcKey) (n : ℕ) :
    Basic rf racks (pre ++ [h])
      { p with
        tokenReplicas := p.tokenReplicas ++ [h]
        replicasByDc := Function.update p.replicasByDc h.dcKey n } :=
  { hb.repeated hmet with
    replicas_mem := fun x hx => by
      obtain hx | hx := List.mem_append.1 hx
      · exact List.mem_append_left _ (hb.replicas_mem x hx)
      · exact List.mem_append_right _ hx
    count := fun dc hcount => by
      rw [rackFirsts_of_rackMet hmet] at hcount ⊢
      by_cases hdc : dc = h.dcKey
      · subst hdc
        omega
      · exact (Function.update_of_ne hdc _ _).trans (hb.count dc hcount)
    firsts_mem := fun dc x hx => List.mem_append_left _ ((hb.repeated hmet).firsts_mem dc x hx)
    head_mem := fun x hx hrf hcomplete => by
      obtain ⟨y, hy, hmem⟩ := (hb.repeated hmet).head_mem x hx hrf hcomplete
      exact ⟨y, hy, List.mem_append_left _ hmem⟩ }

/-- The first host of a rack is placed, with the skipped hosts if the rack is the last one. -/
theorem Basic.opened (hb : Basic rf racks pre p) (hmet : ¬ RackMet pre h)
    (hroom : (rackFirsts h.dcKey pre).length < rf h.dcKey) {added : List Host} {n : ℕ}
    (hmem : ∀ x ∈ added, x ∈ p.skippedHosts)
    (hcount : rf h.dcKey ≤ racks h.dcKey ∨ (rackFirsts h.dcKey pre).length + 1 < racks h.dcKey →
      n = (rackFirsts h.dcKey pre).length + 1)
    (hhead : racks h.dcKey < rf h.dcKey → (rackFirsts h.dcKey pre).length + 1 = racks h.dcKey →
      ∀ y, p.skippedHosts.head? = some y → y ∈ added) :
    Basic rf racks (pre ++ [h])
      { p with
        tokenReplicas := p.tokenReplicas ++ [h] ++ added
        replicasByDc := Function.update p.replicasByDc h.dcKey n
        racksPlaced := Function.update p.racksPlaced h.dcKey
          ⟨(rackFirsts h.dcKey (pre ++ [h])).map Host.rackKey⟩ } where
  replicas_mem x hx := by
    obtain hx | hx := List.mem_append.1 hx
    · obtain hx | hx := List.mem_append.1 hx
      · exact List.mem_append_left _ (hb.replicas_mem x hx)
      · exact List.mem_append_right _ hx
    · exact List.mem_append_left _ (mem_of_mem_rackOthers (hb.skipped_mem x (hmem x hx)).2).1
  skipped_mem x hx := ⟨(hb.skipped_mem x hx).1, mem_rackOthers_concat (hb.skipped_mem x hx).2 h⟩
  racksPlaced dc := by
    dsimp only
    by_cases hdc : dc = h.dcKey
    · subst hdc
      rw [Function.update_self, List.take_of_length_le]
      rw [rackFirsts_of_not_rackMet hmet, List.length_append, List.length_singleton]
      omega
    · rw [Function.update_of_ne hdc, hb.racksPlaced, rackFirsts_concat_of_ne (Ne.symm hdc)]
  count dc hc := by
    dsimp only
    by_cases hdc : dc = h.dcKey
    · subst hdc
      rw [rackFirsts_of_not_rackMet hmet, List.length_append, List.length_singleton] at hc ⊢
      rw [Function.update_self, hcount hc]
      omega
    · rw [rackFirsts_concat_of_ne (Ne.symm hdc)] at hc ⊢
      rw [Function.update_of_ne hdc]
      exact hb.count dc hc
  firsts_mem dc x hx := by
    apply List.mem_append_left _
    by_cases hdc : dc = h.dcKey
    · subst hdc
      rw [rackFirsts_of_not_rackMet hmet] at hx
      obtain hx | hx := List.mem_append.1 (List.mem_of_mem_take hx)
      · refine List.mem_append_left _ (hb.firsts_mem h.dcKey x ?_)
        rwa [List.take_of_length_le (by omega)]
      · exact List.mem_append_right _ hx
    · rw [rackFirsts_concat_of_ne (Ne.symm hdc)] at hx
      exact List.mem_append_left _ (hb.firsts_mem dc x hx)
  head_mem x hx hrf hcomplete := by
    by_cases hdc : x.dcKey = h.dcKey
    · rw [hdc] at hrf hcomplete
      rw [rackFirsts_of_not_rackMet hmet, List.length_append, List.length_singleton] at hcomplete
      obtain ⟨y, hy⟩ := Option.isSome_iff_exists.1 (List.isSome_head?.2 (List.ne_nil_of_mem hx))
      exact ⟨y, hy, List.mem_append_right _ (hhead hrf hcomplete y hy)⟩
    · rw [rackFirsts_concat_of_ne (Ne.symm hdc)] at hcomplete
      obtain ⟨y, hy, hy'⟩ := hb.head_mem x hx hrf hcomplete
      exact ⟨y, hy, List.mem_append_left _ (List.mem_append_left _ hy')⟩

theorem mem_take_of_head? {S : List Host} {y : Host} {n : ℕ} (hy : S.head? = some y) (hn : 0 < n) :
    y ∈ S.take n := by
  obtain ⟨S', rfl⟩ := List.head?_eq_some_iff.1 hy
  obtain ⟨m, rfl⟩ := Nat.exists_eq_succ_of_ne_zero hn.ne'
  rw [List.take_succ_cons]
  exact List.mem_cons_self ..

/-- Every visit keeps it. -/
theorem Basic.step (hb : Basic rf racks pre p) (he : Event rf racks pre p h p') :
    Basic rf racks (pre ++ [h]) p' := by
  cases he with
  | full hmet hfull => exact hb.full hmet hfull
  | repeated hmet _ => exact hb.repeated hmet
  | skipped hmet _ hother hlt hroom => exact hb.skipped hmet hother hlt (by omega)
  | placed hmet _ hrf hcomplete _ => exact hb.placed hmet hrf hcomplete _
  | opened hmet hroom hlt =>
      have := hb.opened hmet hroom (List.forall_mem_nil _) (fun _ => rfl) fun _ heq => by omega
      simpa using this
  | completed added hadded hmet hroom heq =>
      refine hb.opened hmet hroom (fun x hx => List.mem_of_mem_take (hadded ▸ hx)) (fun hc => ?_)
        fun hrf _ y hy => hadded ▸ mem_take_of_head? hy (by omega)
      have hzero : rf h.dcKey - racks h.dcKey = 0 := by omega
      rw [hadded, hzero, List.take_zero, List.length_nil]
      omega

end Walk

end CqlDriver.Metadata
