import CqlDriver.Metadata.NetworkTopology

/-! # When the placement is right

`Disturbs` is a condition on the owners that a walk meets.  The run of a walk without it keeps `Good`, and
its replicas are `Placed`; the first host that disturbs a data center makes the run `Doomed`, and then the
replicas are not.  `network_placement_iff` states this for the strategy on a ring. -/

namespace CqlDriver.Metadata

open Firsts

variable {rf racks : String → ℕ} {pre : List Host} {p p' : Placement} {h : Host}

/-- The replicas of a token: the given number from every data center, in as many racks as possible. -/
structure Placed (rf racks : String → ℕ) (hs : List Host) : Prop where
  nodup : hs.Nodup
  factor : ∀ x ∈ hs, 0 < rf x.dcKey
  count : ∀ dc, 0 < rf dc → (hostsOf dc hs).length = rf dc
  racks : ∀ dc, 0 < rf dc → ((hostsOf dc hs).map Host.rackKey).dedup.length = min (rf dc) (racks dc)

/-- After the hosts `pre`, the host gets into the part of the skipped hosts that the data center will add.
The data center has fewer racks than replicas and lacks a rack, and the hosts that it has to add are not
all met.  The host is not the first one of its rack: it is a host of the data center that was met before,
or one of another data center that also lacks racks and replicas. -/
def Disturbs (rf racks : String → ℕ) (pre : List Host) (h : Host) (dc : String) : Prop :=
  racks dc < rf dc ∧ (rackFirsts dc pre).length < racks dc ∧ racks dc + (rackOthers dc pre).length < rf dc ∧
    h ∈ rackOthers h.dcKey (pre ++ [h]) ∧
    if h.dcKey = dc then h ∈ pre
    else (rackFirsts h.dcKey pre).length < racks h.dcKey ∧
      (rackFirsts h.dcKey pre).length + (rackOthers dc pre).length < rf h.dcKey

instance (rf racks : String → ℕ) (pre : List Host) (h : Host) (dc : String) :
    Decidable (Disturbs rf racks pre h dc) :=
  inferInstanceAs (Decidable (_ < _ ∧ _ < _ ∧ _ + _ < _ ∧ h ∈ rackOthers h.dcKey (pre ++ [h]) ∧
    if h.dcKey = dc then h ∈ pre else _ < _ ∧ _ + _ < _))

/-! ### Undisturbed walks -/

/-- The replicas after the hosts `pre` of an undisturbed walk. -/
structure Good (rf racks : String → ℕ) (pre : List Host) (p : Placement) : Prop where
  nodup : p.tokenReplicas.Nodup
  factor : ∀ x ∈ p.tokenReplicas, 0 < rf x.dcKey
  firsts : ∀ dc, rf dc ≤ racks dc ∨ (rackFirsts dc pre).length < racks dc →
    hostsOf dc p.tokenReplicas = (rackFirsts dc pre).take (rf dc)
  complete : ∀ dc, racks dc < rf dc → (rackFirsts dc pre).length = racks dc →
    (hostsOf dc p.tokenReplicas).length = p.replicasByDc dc ∧ p.replicasByDc dc ≤ rf dc ∧
      (p.replicasByDc dc < rf dc → ∀ x ∈ pre, x.dcKey = dc → x ∈ p.tokenReplicas)
  skipped : ∀ dc, racks dc < rf dc → (rackFirsts dc pre).length < racks dc →
    p.skippedHosts.take (rf dc - racks dc) = (rackOthers dc pre).take (rf dc - racks dc)

theorem Good.start (rf racks : String → ℕ) : Good rf racks [] .start where
  nodup := List.nodup_nil
  factor := by simp [Placement.start]
  firsts _ _ := by simp [Placement.start, rackFirsts, hostsOf]
  complete _ _ _ := by simp [Placement.start, hostsOf]
  skipped _ _ _ := by simp [Placement.start, rackOthers, hostsOf]

/-- A list that starts like another one, up to a length that the other one has, keeps it when it grows. -/
theorem take_append_eq {S O T : List Host} {n : ℕ} (h : S.take n = O.take n) (hn : n ≤ O.length) :
    (S ++ T).take n = O.take n := by
  have hlen := congrArg List.length h
  rw [List.length_take, List.length_take] at hlen
  rw [List.take_append_of_le_length (by omega), h]

theorem eq_of_take_eq {S O : List Host} {n : ℕ} (h : S.take n = O.take n) (hn : O.length < n) : S = O := by
  have hlen := congrArg List.length h
  rw [List.length_take, List.length_take] at hlen
  rwa [List.take_of_length_le (by omega), List.take_of_length_le (by omega)] at h

theorem mem_concat_of_dcKey_ne {dc : String} {x : Host} (hx : x ∈ pre ++ [h]) (hdc : x.dcKey = dc)
    (hne : h.dcKey ≠ dc) : x ∈ pre := by
  obtain hx | hx := List.mem_append.1 hx
  · exact hx
  · rw [List.mem_singleton.1 hx] at hdc
    exact absurd hdc hne

theorem Good.full (hg : Good rf racks pre p) (hmet : ¬ RackMet pre h)
    (hfull : rf h.dcKey ≤ (rackFirsts h.dcKey pre).length) : Good rf racks (pre ++ [h]) p where
  nodup := hg.nodup
  factor := hg.factor
  firsts dc hc := by
    by_cases hdc : h.dcKey = dc
    · subst hdc
      rw [rackFirsts_of_not_rackMet hmet, List.length_append, List.length_singleton] at hc
      rw [rackFirsts_of_not_rackMet hmet, List.take_append_of_le_length hfull]
      exact hg.firsts h.dcKey (by omega)
    · rw [rackFirsts_concat_of_ne hdc] at hc ⊢
      exact hg.firsts dc hc
  complete dc hrf hcomplete := by
    by_cases hdc : h.dcKey = dc
    · subst hdc
      rw [rackFirsts_of_not_rackMet hmet, List.length_append, List.length_singleton] at hcomplete
      omega
    · rw [rackFirsts_concat_of_ne hdc] at hcomplete
      obtain ⟨hlen, hle, hall⟩ := hg.complete dc hrf hcomplete
      exact ⟨hlen, hle, fun hlt x hx hx' => hall hlt x (mem_concat_of_dcKey_ne hx hx' hdc) hx'⟩
  skipped dc hrf hlt := by
    rw [rackOthers_of_not_rackMet hmet]
    exact hg.skipped dc hrf (lt_of_le_of_lt (length_rackFirsts_le_concat dc pre h) hlt)

theorem Good.repeated (hg : Good rf racks pre p) (hb : Basic rf racks pre p) (hmet : RackMet pre h)
    (hpass : h ∈ p.tokenReplicas ∨ rf h.dcKey ≤ p.replicasByDc h.dcKey ∨
      ((rackFirsts h.dcKey pre).length < racks h.dcKey ∧
        rf h.dcKey ≤ (rackFirsts h.dcKey pre).length + p.skippedHosts.length)) :
    Good rf racks (pre ++ [h]) p where
  nodup := hg.nodup
  factor := hg.factor
  firsts dc := by
    rw [rackFirsts_of_rackMet hmet]
    exact hg.firsts dc
  complete dc hrf hcomplete := by
    rw [rackFirsts_of_rackMet hmet] at hcomplete
    obtain ⟨hlen, hle, hall⟩ := hg.complete dc hrf hcomplete
    refine ⟨hlen, hle, fun hlt x hx hx' => ?_⟩
    obtain hx | hx := List.mem_append.1 hx
    · exact hall hlt x hx hx'
    · rw [List.mem_singleton.1 hx] at hx' ⊢
      subst hx'
      exact hpass.resolve_right fun hc => by omega
  skipped dc hrf hlt := by
    rw [rackFirsts_of_rackMet hmet] at hlt
    have hskipped := hg.skipped dc hrf hlt
    by_cases hmem : h ∈ pre
    · rw [rackOthers_of_mem hmem]
      exact hskipped
    by_cases hdc : h.dcKey = dc
    · -- the host is not recorded, since the list is long enough for its data center
      subst hdc
      have hcount := hb.count h.dcKey (.inr hlt)
      have hlong : rf h.dcKey ≤ (rackFirsts h.dcKey pre).length + p.skippedHosts.length := by
        obtain hrep | hge | ⟨-, hlong⟩ := hpass
        · exact absurd (hb.replicas_mem h hrep) hmem
        · omega
        · exact hlong
      rw [rackOthers_of_rackMet hmet hmem]
      have hlen := congrArg List.length hskipped
      rw [List.length_take, List.length_take] at hlen
      rw [hskipped, List.take_append_of_le_length (by omega)]
    · rw [rackOthers_concat_of_ne hdc]
      exact hskipped

theorem Good.skip (hg : Good rf racks pre p) (hmet : RackMet pre h)
    (hother : h ∈ rackOthers h.dcKey (pre ++ [h]))
    (hlt : (rackFirsts h.dcKey pre).length < racks h.dcKey)
    (hroom : (rackFirsts h.dcKey pre).length + p.skippedHosts.length < rf h.dcKey)
    (hundisturbed : ∀ dc, ¬ Disturbs rf racks pre h dc) :
    Good rf racks (pre ++ [h]) { p with skippedHosts := p.skippedHosts ++ [h] } where
  nodup := hg.nodup
  factor := hg.factor
  firsts dc := by
    rw [rackFirsts_of_rackMet hmet]
    exact hg.firsts dc
  complete dc hrf hcomplete := by
    rw [rackFirsts_of_rackMet hmet] at hcomplete
    have hdc : h.dcKey ≠ dc := by
      rintro rfl
      omega
    obtain ⟨hlen, hle, hall⟩ := hg.complete dc hrf hcomplete
    exact ⟨hlen, hle, fun hlt x hx hx' => hall hlt x (mem_concat_of_dcKey_ne hx hx' hdc) hx'⟩
  skipped dc hrf hlt' := by
    rw [rackFirsts_of_rackMet hmet] at hlt'
    have hskipped := hg.skipped dc hrf hlt'
    dsimp only
    by_cases hlong : rf dc - racks dc ≤ (rackOthers dc pre).length
    · rw [take_append_eq hskipped hlong]
      by_cases hmem : h ∈ pre
      · rw [rackOthers_of_mem hmem]
      by_cases hdc : h.dcKey = dc
      · subst hdc
        rw [rackOthers_of_rackMet hmet hmem, List.take_append_of_le_length hlong]
      · rw [rackOthers_concat_of_ne hdc]
    · -- the host goes to the part that the data center will add
      have heq := eq_of_take_eq hskipped (by omega)
      have hnot := hundisturbed dc
      unfold Disturbs at hnot
      by_cases hdc : h.dcKey = dc
      · subst hdc
        rw [if_pos rfl] at hnot
        have hmem : h ∉ pre := fun hmem => hnot ⟨hrf, hlt', by omega, hother, hmem⟩
        rw [rackOthers_of_rackMet hmet hmem, heq]
      · rw [if_neg hdc] at hnot
        rw [heq] at hroom
        exact absurd ⟨hrf, hlt', by omega, hother, hlt, hroom⟩ hnot

theorem Good.place (hg : Good rf racks pre p) (hmet : RackMet pre h) (hnew : h ∉ p.tokenReplicas)
    (hrf : racks h.dcKey < rf h.dcKey) (hcomplete : (rackFirsts h.dcKey pre).length = racks h.dcKey)
    (hroom : p.replicasByDc h.dcKey < rf h.dcKey) :
    Good rf racks (pre ++ [h])
      { p with
        tokenReplicas := p.tokenReplicas ++ [h]
        replicasByDc := Function.update p.replicasByDc h.dcKey (p.replicasByDc h.dcKey + 1) } where
  nodup := nodup_concat hg.nodup hnew
  factor x hx := by
    obtain hx | hx := List.mem_append.1 hx
    · exact hg.factor x hx
    · rw [List.mem_singleton.1 hx]
      omega
  firsts dc hc := by
    rw [rackFirsts_of_rackMet hmet] at hc ⊢
    have hdc : h.dcKey ≠ dc := by
      rintro rfl
      omega
    rw [hostsOf_concat_of_ne hdc]
    exact hg.firsts dc hc
  complete dc hrf' hcomplete' := by
    rw [rackFirsts_of_rackMet hmet] at hcomplete'
    obtain ⟨hlen, hle, hall⟩ := hg.complete dc hrf' hcomplete'
    dsimp only
    by_cases hdc : h.dcKey = dc
    · subst hdc
      rw [hostsOf_concat_self, Function.update_self, List.length_append, List.length_singleton, hlen]
      refine ⟨rfl, hroom, fun hlt x hx hx' => ?_⟩
      obtain hx | hx := List.mem_append.1 hx
      · exact List.mem_append_left _ (hall hroom x hx hx')
      · exact List.mem_append_right _ hx
    · rw [hostsOf_concat_of_ne hdc, Function.update_of_ne (Ne.symm hdc)]
      exact ⟨hlen, hle, fun hlt x hx hx' =>
        List.mem_append_left _ (hall hlt x (mem_concat_of_dcKey_ne hx hx' hdc) hx')⟩
  skipped dc hrf' hlt := by
    rw [rackFirsts_of_rackMet hmet] at hlt
    have hdc : h.dcKey ≠ dc := by
      rintro rfl
      omega
    rw [rackOthers_concat_of_ne hdc]
    exact hg.skipped dc hrf' hlt

/-- The first host of a rack is placed, with other hosts of the data center if the rack is the last one. -/
theorem Good.opened (hg : Good rf racks pre p) (hb : Basic rf racks pre p) (hmet : ¬ RackMet pre h)
    (hroom : (rackFirsts h.dcKey pre).length < rf h.dcKey)
    (hlt : (rackFirsts h.dcKey pre).length < racks h.dcKey) {added : List Host} {n : ℕ}
    {placed : String → HashSet String} (hnodup : added.Nodup)
    (hother : ∀ x ∈ added, x ∈ rackOthers h.dcKey pre)
    (hnil : rf h.dcKey ≤ racks h.dcKey ∨ (rackFirsts h.dcKey pre).length + 1 < racks h.dcKey → added = [])
    (hcomplete : racks h.dcKey < rf h.dcKey → (rackFirsts h.dcKey pre).length + 1 = racks h.dcKey →
      n = (rackFirsts h.dcKey pre).length + 1 + added.length ∧ n ≤ rf h.dcKey ∧
        (n < rf h.dcKey → ∀ x ∈ rackOthers h.dcKey pre, x ∈ added)) :
    Good rf racks (pre ++ [h])
      ⟨p.tokenReplicas ++ [h] ++ added, Function.update p.replicasByDc h.dcKey n, placed, p.skippedHosts⟩ := by
  have hfirsts : hostsOf h.dcKey p.tokenReplicas = rackFirsts h.dcKey pre := by
    rw [hg.firsts h.dcKey (.inr hlt), List.take_of_length_le (by omega)]
  have hadded : hostsOf h.dcKey added = added := hostsOf_eq_self fun x hx => (mem_of_mem_rackOthers (hother x hx)).2
  have hself : hostsOf h.dcKey (p.tokenReplicas ++ [h] ++ added) =
      rackFirsts h.dcKey (pre ++ [h]) ++ added := by
    rw [hostsOf_append, hostsOf_concat_self, hfirsts, hadded, rackFirsts_of_not_rackMet hmet]
  have hne {dc : String} (hdc : h.dcKey ≠ dc) :
      hostsOf dc (p.tokenReplicas ++ [h] ++ added) = hostsOf dc p.tokenReplicas := by
    have hnil : hostsOf dc added = [] := by
      apply hostsOf_eq_nil
      intro x hx
      rw [(mem_of_mem_rackOthers (hother x hx)).2]
      exact hdc
    rw [hostsOf_append, hostsOf_concat_of_ne hdc, hnil, List.append_nil]
  exact {
    nodup := by
      refine (nodup_concat hg.nodup (hb.not_mem_of_not_rackMet hmet)).append hnodup fun x hx hx' => ?_
      have hx' := hother x hx'
      obtain hx | hx := List.mem_append.1 hx
      · apply not_mem_rackFirsts hx'
        rw [← hfirsts]
        exact mem_hostsOf.2 ⟨hx, (mem_of_mem_rackOthers hx').2⟩
      · rw [List.mem_singleton.1 hx] at hx'
        exact hmet (rackMet_of_mem (mem_of_mem_rackOthers hx').1)
    factor := fun x hx => by
      obtain hx | hx := List.mem_append.1 hx
      · obtain hx | hx := List.mem_append.1 hx
        · exact hg.factor x hx
        · rw [List.mem_singleton.1 hx]
          omega
      · rw [(mem_of_mem_rackOthers (hother x hx)).2]
        omega
    firsts := fun dc hc => by
      by_cases hdc : h.dcKey = dc
      · subst hdc
        have hlen : (rackFirsts h.dcKey (pre ++ [h])).length = (rackFirsts h.dcKey pre).length + 1 := by
          rw [rackFirsts_of_not_rackMet hmet, List.length_append, List.length_singleton]
        rw [hlen] at hc
        rw [hself, hnil hc, List.append_nil, List.take_of_length_le (by omega)]
      · rw [rackFirsts_concat_of_ne hdc] at hc
        rw [hne hdc, rackFirsts_concat_of_ne hdc]
        exact hg.firsts dc hc
    complete := fun dc hrf hc => by
      dsimp only
      by_cases hdc : h.dcKey = dc
      · subst hdc
        rw [hself, Function.update_self, List.length_append]
        rw [rackFirsts_of_not_rackMet hmet, List.length_append, List.length_singleton] at hc ⊢
        obtain ⟨hn, hle, hall⟩ := hcomplete hrf hc
        refine ⟨hn.symm, hle, fun hlt x hx hx' => ?_⟩
        obtain hx | hx := List.mem_append.1 hx
        · obtain hfirst | hother := mem_rackFirsts_or hx
          · rw [hx', ← hfirsts] at hfirst
            exact List.mem_append_left _ (List.mem_append_left _ (mem_hostsOf.1 hfirst).1)
          · rw [hx'] at hother
            exact List.mem_append_right _ (hall hlt x hother)
        · exact List.mem_append_left _ (List.mem_append_right _ hx)
      · rw [rackFirsts_concat_of_ne hdc] at hc
        obtain ⟨hlen, hle, hall⟩ := hg.complete dc hrf hc
        rw [hne hdc, Function.update_of_ne (Ne.symm hdc)]
        exact ⟨hlen, hle, fun hlt x hx hx' => List.mem_append_left _
          (List.mem_append_left _ (hall hlt x (mem_concat_of_dcKey_ne hx hx' hdc) hx'))⟩
    skipped := fun dc hrf hlt => by
      rw [rackOthers_of_not_rackMet hmet]
      exact hg.skipped dc hrf (lt_of_le_of_lt (length_rackFirsts_le_concat dc pre h) hlt) }

/-- The skipped hosts that are added belong to the data center. -/
theorem Good.completed (hg : Good rf racks pre p) (hb : Basic rf racks pre p) (hmet : ¬ RackMet pre h)
    (hroom : (rackFirsts h.dcKey pre).length < rf h.dcKey)
    (heq : (rackFirsts h.dcKey pre).length + 1 = racks h.dcKey) {added : List Host}
    (hadded : added = p.skippedHosts.take (rf h.dcKey - racks h.dcKey)) {placed : String → HashSet String} :
    Good rf racks (pre ++ [h])
      ⟨p.tokenReplicas ++ [h] ++ added, Function.update p.replicasByDc h.dcKey (racks h.dcKey + added.length),
        placed, p.skippedHosts⟩ := by
  by_cases hrf : racks h.dcKey < rf h.dcKey
  · rw [hg.skipped h.dcKey hrf (by omega)] at hadded
    have hlen : added.length = min (rf h.dcKey - racks h.dcKey) (rackOthers h.dcKey pre).length := by
      rw [hadded, List.length_take]
    refine hg.opened hb hmet hroom (by omega) (hadded ▸ (nodup_others _).take)
      (fun x hx => List.mem_of_mem_take (hadded ▸ hx)) (fun hc => by omega) fun _ _ => ⟨by omega, by omega, ?_⟩
    intro hlt x hx
    rwa [hadded, List.take_of_length_le (by omega)]
  · have hnil : added = [] := by
      rw [hadded, Nat.sub_eq_zero_of_le (by omega), List.take_zero]
    rw [hnil]
    exact hg.opened hb hmet hroom (by omega) List.nodup_nil (by simp) (fun _ => rfl) fun hc => absurd hc hrf

/-- A visit that disturbs no data center keeps it. -/
theorem Good.step (hg : Good rf racks pre p) (hb : Basic rf racks pre p) (he : Event rf racks pre p h p')
    (hundisturbed : ∀ dc, ¬ Disturbs rf racks pre h dc) : Good rf racks (pre ++ [h]) p' := by
  cases he with
  | full hmet hfull => exact hg.full hmet hfull
  | repeated hmet hpass => exact hg.repeated hb hmet hpass
  | skipped hmet _ hother hlt hroom => exact hg.skip hmet hother hlt hroom hundisturbed
  | placed hmet hnew hrf hcomplete hroom => exact hg.place hmet hnew hrf hcomplete hroom
  | opened hmet hroom hlt =>
      rw [← List.append_nil (p.tokenReplicas ++ [h])]
      exact hg.opened hb hmet hroom (by omega) List.nodup_nil (by simp) (fun _ => rfl) fun _ heq => by omega
  | completed added hadded hmet hroom heq => exact hg.completed hb hmet hroom heq hadded

/-! ### Disturbed walks -/

/-- The replicas will not be as they should: a host is there twice; a data center will add a wrong host, or
hosts that are there already; or a data center with enough racks has a host that is not the first of its
rack. -/
inductive Doomed (rf racks : String → ℕ) (pre : List Host) (p : Placement) : Prop
  | twice (htwice : ¬ p.tokenReplicas.Nodup)
  | wrong (dc : String) (hrf : racks dc < rf dc) (hlt : (rackFirsts dc pre).length < racks dc)
      (hwrong : ¬ (p.skippedHosts.take (rf dc - racks dc)).Nodup ∨
        ∃ x ∈ p.skippedHosts.take (rf dc - racks dc), x.dcKey ≠ dc)
  | stale (dc : String) (hrf : racks dc < rf dc) (hlt : (rackFirsts dc pre).length < racks dc) (y : Host)
      (hy : p.skippedHosts.head? = some y) (hmem : y ∈ p.tokenReplicas)
  | surplus (x : Host) (hx : x ∈ p.tokenReplicas) (hother : x ∈ rackOthers x.dcKey pre)
      (hpos : 0 < rf x.dcKey) (hracks : rf x.dcKey ≤ racks x.dcKey)

/-- The first host that disturbs a data center. -/
theorem Good.disturbed (hg : Good rf racks pre p) (hb : Basic rf racks pre p)
    (he : Event rf racks pre p h p') {dc : String} (hdisturbs : Disturbs rf racks pre h dc) :
    Doomed rf racks (pre ++ [h]) p' := by
  obtain ⟨hrf, hlt, hroom, hother, hcase⟩ := hdisturbs
  have hmet : RackMet pre h := by
    by_contra hmet
    rw [rackOthers_of_not_rackMet hmet] at hother
    exact hmet (rackMet_of_mem (mem_of_mem_rackOthers hother).1)
  have heq := eq_of_take_eq (hg.skipped dc hrf hlt) (by omega)
  have hlen := congrArg List.length heq
  have hlacks : (rackFirsts h.dcKey pre).length < racks h.dcKey ∧
      (rackFirsts h.dcKey pre).length + (rackOthers dc pre).length < rf h.dcKey := by
    by_cases hdc : h.dcKey = dc
    · rw [hdc]
      exact ⟨hlt, by omega⟩
    · rwa [if_neg hdc] at hcase
  have hnew : h ∉ p.tokenReplicas := by
    intro hmem
    have hfirst : h ∈ hostsOf h.dcKey p.tokenReplicas := mem_hostsOf.2 ⟨hmem, rfl⟩
    rw [hg.firsts h.dcKey (.inr hlacks.1)] at hfirst
    apply not_mem_rackFirsts hother
    rw [rackFirsts_of_rackMet hmet]
    exact List.mem_of_mem_take hfirst
  have hcount := hb.count h.dcKey (.inr hlacks.1)
  cases he with
  | full hnot _ => exact absurd hmet hnot
  | opened hnot _ _ => exact absurd hmet hnot
  | completed _ _ hnot _ _ => exact absurd hmet hnot
  | placed _ _ _ hcomplete _ => omega
  | repeated _ hpass =>
      exfalso
      obtain hmem | hfull | ⟨-, hlong⟩ := hpass
      · exact hnew hmem
      · omega
      · omega
  | skipped _ _ _ _ _ =>
      rw [← rackFirsts_of_rackMet hmet] at hlt
      refine .wrong dc hrf hlt ?_
      dsimp only
      rw [List.take_of_length_le (by rw [List.length_append, List.length_singleton]; omega)]
      by_cases hdc : h.dcKey = dc
      · rw [if_pos hdc] at hcase
        rw [rackOthers_of_mem hcase, hdc, ← heq] at hother
        exact .inl fun hnodup => List.disjoint_of_nodup_append hnodup hother (List.mem_singleton_self h)
      · exact .inr ⟨h, List.mem_append_right _ (List.mem_singleton_self h), hdc⟩

/-- Both lists only grow. -/
theorem Event.grows (he : Event rf racks pre p h p') :
    p.tokenReplicas <+: p'.tokenReplicas ∧ p.skippedHosts <+: p'.skippedHosts := by
  cases he with
  | full => exact ⟨List.prefix_rfl, List.prefix_rfl⟩
  | repeated => exact ⟨List.prefix_rfl, List.prefix_rfl⟩
  | skipped => exact ⟨List.prefix_rfl, List.prefix_append ..⟩
  | placed => exact ⟨List.prefix_append .., List.prefix_rfl⟩
  | opened => exact ⟨List.prefix_append .., List.prefix_rfl⟩
  | completed =>
      refine ⟨?_, List.prefix_rfl⟩
      rw [List.append_assoc]
      exact List.prefix_append ..

/-- A data center gets its last rack by a visit that adds the skipped hosts. -/
theorem Event.completes (he : Event rf racks pre p h p') {dc : String} (hrf : racks dc < rf dc)
    (hlt : (rackFirsts dc pre).length < racks dc)
    (hcomplete : ¬ (rackFirsts dc (pre ++ [h])).length < racks dc) :
    p'.tokenReplicas = p.tokenReplicas ++ [h] ++ p.skippedHosts.take (rf dc - racks dc) ∧
      p'.skippedHosts = p.skippedHosts := by
  have hmet : ¬ RackMet pre h := by
    intro hmet
    rw [rackFirsts_of_rackMet hmet] at hcomplete
    exact hcomplete hlt
  have hdc : h.dcKey = dc := by
    by_contra hdc
    rw [rackFirsts_concat_of_ne hdc] at hcomplete
    exact hcomplete hlt
  subst hdc
  rw [rackFirsts_of_not_rackMet hmet, List.length_append, List.length_singleton] at hcomplete
  cases he with
  | full _ hfull => omega
  | opened _ _ hlt' => omega
  | repeated hmet' _ => exact absurd hmet' hmet
  | skipped hmet' _ _ _ _ => exact absurd hmet' hmet
  | placed hmet' _ _ _ _ => exact absurd hmet' hmet
  | completed added hadded _ _ _ => exact ⟨by rw [← hadded], rfl⟩

/-- A host of another data center that gets among the replicas is one too many there, or that data center will
add hosts, or has added hosts, that are there already. -/
theorem Event.doomed_of_foreign (he : Event rf racks pre p h p') (hb : Basic rf racks pre p)
    (hle : ∀ dc, 0 < rf dc → (rackFirsts dc (pre ++ [h])).length ≤ racks dc) {dc : String}
    (hrf : racks dc < rf dc) (hlt : (rackFirsts dc pre).length < racks dc)
    (hcomplete : ¬ (rackFirsts dc (pre ++ [h])).length < racks dc) {x : Host}
    (hx : x ∈ p.skippedHosts.take (rf dc - racks dc)) (hne : x.dcKey ≠ dc) : Doomed rf racks (pre ++ [h]) p' := by
  obtain ⟨htoken, hskipped⟩ := he.completes hrf hlt hcomplete
  have hmem := List.mem_of_mem_take hx
  have hread : x ∈ p'.tokenReplicas := by
    rw [htoken]
    exact List.mem_append_right _ hx
  obtain ⟨hpos, hother⟩ := hb.skipped_mem x hmem
  by_cases hracks : rf x.dcKey ≤ racks x.dcKey
  · exact .surplus x hread (mem_rackOthers_concat hother h) hpos hracks
  obtain ⟨y, hy⟩ := Option.isSome_iff_exists.1 (List.isSome_head?.2 (List.ne_nil_of_mem hmem))
  have hhead : y ∈ p.skippedHosts.take (rf dc - racks dc) := mem_take_of_head? hy (by omega)
  by_cases hlt' : (rackFirsts x.dcKey (pre ++ [h])).length < racks x.dcKey
  · refine .stale x.dcKey (by omega) hlt' y (hskipped ▸ hy) ?_
    rw [htoken]
    exact List.mem_append_right _ hhead
  · -- the other data center has read the list before
    have hle' := hle x.dcKey hpos
    have hdc : h.dcKey ≠ x.dcKey := by
      intro hdc
      rw [← hdc] at hne
      rw [rackFirsts_concat_of_ne hne] at hcomplete
      exact hcomplete hlt
    rw [rackFirsts_concat_of_ne hdc] at hlt' hle'
    obtain ⟨y', hy', hread'⟩ := hb.head_mem x hmem (by omega) (by omega)
    obtain rfl : y = y' := Option.some.inj (hy.symm.trans hy')
    refine .twice fun hnodup => ?_
    rw [htoken] at hnodup
    exact List.disjoint_of_nodup_append hnodup (List.mem_append_left _ hread') hhead

/-- What is wrong stays wrong. -/
theorem Doomed.step (hd : Doomed rf racks pre p) (hb : Basic rf racks pre p)
    (hle : ∀ dc, 0 < rf dc → (rackFirsts dc (pre ++ [h])).length ≤ racks dc)
    (he : Event rf racks pre p h p') : Doomed rf racks (pre ++ [h]) p' := by
  obtain ⟨htoken, hskipped⟩ := he.grows
  cases hd with
  | twice htwice => exact .twice fun hnodup => htwice (hnodup.sublist htoken.sublist)
  | wrong dc hrf hlt hwrong =>
      by_cases hcomplete : (rackFirsts dc (pre ++ [h])).length < racks dc
      · -- the part of the list that the data center will read is still wrong
        have htake := hskipped.take (rf dc - racks dc)
        refine .wrong dc hrf hcomplete ?_
        obtain htwice | ⟨x, hx, hne⟩ := hwrong
        · exact .inl fun hnodup => htwice (hnodup.sublist htake.sublist)
        · exact .inr ⟨x, htake.subset hx, hne⟩
      · obtain htwice | ⟨x, hx, hne⟩ := hwrong
        · refine .twice fun hnodup => htwice ?_
          rw [(he.completes hrf hlt hcomplete).1] at hnodup
          exact hnodup.of_append_right
        · exact he.doomed_of_foreign hb hle hrf hlt hcomplete hx hne
  | stale dc hrf hlt y hy hmem =>
      by_cases hcomplete : (rackFirsts dc (pre ++ [h])).length < racks dc
      · refine .stale dc hrf hcomplete y ?_ (htoken.subset hmem)
        obtain ⟨T, hT⟩ := hskipped
        rw [← hT, head?_append_of_mem (List.mem_of_mem_head? hy), hy]
      · refine .twice fun hnodup => ?_
        rw [(he.completes hrf hlt hcomplete).1] at hnodup
        exact List.disjoint_of_nodup_append hnodup (List.mem_append_left _ hmem)
          (mem_take_of_head? hy (by omega))
  | surplus x hx hother hpos hracks =>
      exact .surplus x (htoken.subset hx) (mem_rackOthers_concat hother h) hpos hracks

/-! ### The end of a walk -/

/-- Every data center has its replicas, or all its hosts were met. -/
def Over (rf racks : String → ℕ) (pre : List Host) (p : Placement) : Prop :=
  ∀ dc, 0 < rf dc → rf dc ≤ p.replicasByDc dc ∨
    ((rackFirsts dc pre).length = racks dc ∧ rf dc ≤ (rackFirsts dc pre).length + (rackOthers dc pre).length)

/-- At the end no data center lacks a rack that it needs. -/
theorem Over.firsts (hover : Over rf racks pre p) (hb : Basic rf racks pre p) {dc : String} (hpos : 0 < rf dc) :
    min (rf dc) (racks dc) ≤ (rackFirsts dc pre).length := by
  obtain hfull | ⟨hracks, -⟩ := hover dc hpos
  · by_contra hlt
    have := hb.count dc (by omega)
    omega
  · omega

theorem length_dedup_map {hs : List Host} {ks : List String} (hks : ks.Nodup)
    (h : ∀ k, k ∈ ks ↔ k ∈ hs.map Host.rackKey) : (hs.map Host.rackKey).dedup.length = ks.length := by
  refine List.Perm.length_eq ((List.perm_ext_iff_of_nodup (List.nodup_dedup _) hks).2 fun k => ?_)
  rw [List.mem_dedup, h]

/-- The replicas of a data center that has more replicas than racks. -/
theorem Good.length_of_over (hg : Good rf racks pre p) (hover : Over rf racks pre p) {dc : String}
    (hrf : racks dc < rf dc) (hcomplete : (rackFirsts dc pre).length = racks dc) :
    (hostsOf dc p.tokenReplicas).length = rf dc := by
  obtain ⟨hlen, hle, hall⟩ := hg.complete dc hrf hcomplete
  obtain hfull | ⟨-, hhosts⟩ := hover dc (by omega)
  · omega
  · by_contra hne
    have hsub : rackFirsts dc pre ++ rackOthers dc pre ⊆ hostsOf dc p.tokenReplicas := by
      intro x hx
      have hx : x ∈ hostsOf dc pre := mem_iff.2 (List.mem_append.1 hx)
      obtain ⟨hx, hx'⟩ := mem_hostsOf.1 hx
      exact mem_hostsOf.2 ⟨hall (by omega) x hx hx', hx'⟩
    have hnodup : (rackFirsts dc pre ++ rackOthers dc pre).Nodup := nodup_append _
    have := (List.subperm_of_subset hnodup hsub).length_le
    rw [List.length_append] at this
    omega

theorem Good.placed (hg : Good rf racks pre p) (hb : Basic rf racks pre p)
    (hle : ∀ dc, 0 < rf dc → (rackFirsts dc pre).length ≤ racks dc) (hover : Over rf racks pre p) :
    Placed rf racks p.tokenReplicas where
  nodup := hg.nodup
  factor := hg.factor
  count dc hpos := by
    have hfirsts := hover.firsts hb hpos
    by_cases hrf : rf dc ≤ racks dc
    · rw [hg.firsts dc (.inl hrf), List.length_take]
      omega
    · have := hle dc hpos
      exact hg.length_of_over hover (by omega) (by omega)
  racks dc hpos := by
    have hfirsts := hover.firsts hb hpos
    by_cases hrf : rf dc ≤ racks dc
    · have hnodup : (((rackFirsts dc pre).take (rf dc)).map Host.rackKey).Nodup := by
        rw [List.map_take]
        exact (nodup_map_firsts _).take
      rw [hg.firsts dc (.inl hrf), hnodup.dedup, List.length_map, List.length_take]
      omega
    · have := hle dc hpos
      rw [length_dedup_map (nodup_map_firsts (hostsOf dc pre)) fun k => ?_]
      · rw [List.length_map]
        change (rackFirsts dc pre).length = _
        omega
      · constructor
        · intro hk
          obtain ⟨x, hx, rfl⟩ := List.mem_map.1 hk
          have hmem := hb.firsts_mem dc x (by rwa [List.take_of_length_le (by omega)])
          exact List.mem_map_of_mem (mem_hostsOf.2 ⟨hmem, (mem_of_mem_rackFirsts hx).2⟩)
        · intro hk
          obtain ⟨x, hx, rfl⟩ := List.mem_map.1 hk
          obtain ⟨hx, hx'⟩ := mem_hostsOf.1 hx
          exact key_mem_iff.2 (List.mem_map_of_mem (mem_hostsOf.2 ⟨hb.replicas_mem x hx, hx'⟩))

theorem Doomed.not_placed (hd : Doomed rf racks pre p) (hb : Basic rf racks pre p)
    (hover : Over rf racks pre p) : ¬ Placed rf racks p.tokenReplicas := by
  intro hplaced
  cases hd with
  | twice htwice => exact htwice hplaced.nodup
  | wrong dc hrf hlt _ =>
      have := @Over.firsts rf racks pre p hover hb dc (by omega)
      omega
  | stale dc hrf hlt _ _ _ =>
      have := @Over.firsts rf racks pre p hover hb dc (by omega)
      omega
  | surplus x hx hother hpos hracks =>
      have hfirsts := hover.firsts hb hpos
      have hsub : x :: (rackFirsts x.dcKey pre).take (rf x.dcKey) ⊆ hostsOf x.dcKey p.tokenReplicas := by
        intro y hy
        obtain rfl | hy := List.mem_cons.1 hy
        · exact mem_hostsOf.2 ⟨hx, rfl⟩
        · exact mem_hostsOf.2
            ⟨hb.firsts_mem _ y hy, (mem_of_mem_rackFirsts (List.mem_of_mem_take hy)).2⟩
      have hnodup : (x :: (rackFirsts x.dcKey pre).take (rf x.dcKey)).Nodup :=
        List.nodup_cons.2 ⟨fun hmem => not_mem_rackFirsts hother (List.mem_of_mem_take hmem),
          (nodup_firsts _).take⟩
      have hlen := (List.subperm_of_subset hnodup hsub).length_le
      rw [hplaced.count x.dcKey hpos, List.length_cons, List.length_take] at hlen
      omega

/-! ### Whole walks -/

/-- No host of the walk disturbs a data center. -/
def Undisturbed (rf racks : String → ℕ) (walk : List Host) : Prop :=
  ∀ (pre : List Host) (h : Host) (post : List Host), walk = pre ++ h :: post →
    ∀ dc, ¬ Disturbs rf racks pre h dc

section Run

variable {factors : StrategyOptions} {datacenters : String → Option Datacenter} {walk : List Host}

/-- The numbers are those that the loop uses, and the walk meets all hosts. -/
structure WalkSpec (rf racks : String → ℕ) (factors : StrategyOptions)
    (datacenters : String → Option Datacenter) (walk : List Host) : Prop where
  visit : ∀ (p : Placement), ∀ h ∈ walk, ∃ p' done,
    visitReplica factors datacenters p (some h) = .ok (p', done) ∧ Visit rf racks p h p' ∧
      (done = true → ∀ dc, 0 < rf dc → rf dc ≤ p'.replicasByDc dc)
  racks : ∀ dc, 0 < rf dc → (rackFirsts dc walk).length = racks dc
  hosts : ∀ dc, rf dc ≤ (rackFirsts dc walk).length + (rackOthers dc walk).length

theorem length_rackFirsts_le_append (dc : String) (pre post : List Host) :
    (rackFirsts dc pre).length ≤ (rackFirsts dc (pre ++ post)).length := by
  induction post using List.reverseRecOn with
  | nil => rw [List.append_nil]
  | append_singleton post h ih =>
      rw [← List.append_assoc]
      exact ih.trans (length_rackFirsts_le_concat dc (pre ++ post) h)

theorem WalkSpec.le_racks (hw : WalkSpec rf racks factors datacenters walk) {post : List Host}
    (hwalk : pre ++ post = walk) (dc : String) (hpos : 0 < rf dc) :
    (rackFirsts dc pre).length ≤ racks dc := by
  rw [← hw.racks dc hpos, ← hwalk]
  exact length_rackFirsts_le_append dc pre post

theorem WalkSpec.over (hw : WalkSpec rf racks factors datacenters walk) (p : Placement) :
    Over rf racks walk p := fun dc hpos => .inr ⟨hw.racks dc hpos, hw.hosts dc⟩

/-- One step of the loop. -/
theorem WalkSpec.step (hw : WalkSpec rf racks factors datacenters walk) (hb : Basic rf racks pre p)
    {post : List Host} (hwalk : pre ++ h :: post = walk) :
    ∃ p' done, networkReplicas factors datacenters ((h :: post).map some) p =
        (if done then .ok p'.tokenReplicas
          else networkReplicas factors datacenters (post.map some) p') ∧
      (pre ++ [h]) ++ post = walk ∧ Event rf racks pre p h p' ∧ Basic rf racks (pre ++ [h]) p' ∧
      (done = true → Over rf racks (pre ++ [h]) p') := by
  have hwalk' : (pre ++ [h]) ++ post = walk := by rw [← hwalk, List.append_assoc, List.singleton_append]
  obtain ⟨p', done, hstep, hvisit, hdone⟩ := hw.visit p h (by rw [← hwalk]; simp)
  have he := hb.event (hw.le_racks hwalk') hvisit
  refine ⟨p', done, ?_, hwalk', he, hb.step he, fun hd dc hpos => .inl (hdone hd dc hpos)⟩
  rw [List.map_cons, networkReplicas, hstep]
  cases done
  · rfl
  · rfl

theorem WalkSpec.doomed (hw : WalkSpec rf racks factors datacenters walk) (post : List Host) :
    ∀ (pre : List Host) (p : Placement), pre ++ post = walk → Basic rf racks pre p → Doomed rf racks pre p →
      ∃ hs, networkReplicas factors datacenters (post.map some) p = .ok hs ∧ (∀ x ∈ hs, x ∈ walk) ∧
        ¬ Placed rf racks hs := by
  induction post with
  | nil =>
      intro pre p hwalk hb hd
      rw [List.append_nil] at hwalk
      subst hwalk
      exact ⟨_, rfl, hb.replicas_mem, hd.not_placed hb (hw.over p)⟩
  | cons h post ih =>
      intro pre p hwalk hb hd
      obtain ⟨p', done, heq, hwalk', he, hb', hover⟩ := hw.step hb hwalk
      have hd' := hd.step hb (hw.le_racks hwalk') he
      rw [heq]
      cases done with
      | false => exact ih _ p' hwalk' hb' hd'
      | true =>
          refine ⟨_, rfl, fun x hx => ?_, hd'.not_placed hb' (hover rfl)⟩
          rw [← hwalk']
          exact List.mem_append_left _ (hb'.replicas_mem x hx)

/-- When the walk is over, no host that follows disturbs a data center. -/
theorem not_disturbs_of_firsts (hover : ∀ dc, 0 < rf dc → min (rf dc) (racks dc) ≤ (rackFirsts dc pre).length)
    (mid : List Host) (dc : String) : ¬ Disturbs rf racks (pre ++ mid) h dc := by
  rintro ⟨hrf, hlt, -⟩
  have := hover dc (by omega)
  have := length_rackFirsts_le_append dc pre mid
  omega

/-- After the hosts `pre`, no host of the rest of a walk disturbs a data center. -/
def UndisturbedFrom (rf racks : String → ℕ) (pre post : List Host) : Prop :=
  ∀ (mid : List Host) (x : Host) (rest : List Host), post = mid ++ x :: rest →
    ∀ dc, ¬ Disturbs rf racks (pre ++ mid) x dc

theorem undisturbedFrom_cons {post : List Host} : UndisturbedFrom rf racks pre (h :: post) ↔
    (∀ dc, ¬ Disturbs rf racks pre h dc) ∧ UndisturbedFrom rf racks (pre ++ [h]) post := by
  constructor
  · intro hall
    refine ⟨fun dc => ?_, fun mid x rest hpost dc => ?_⟩
    · have hfirst := hall [] h post rfl dc
      rwa [List.append_nil] at hfirst
    · have hlater := hall (h :: mid) x rest (by rw [hpost, List.cons_append]) dc
      rwa [List.append_assoc, List.singleton_append]
  · rintro ⟨hfirst, hall⟩ mid x rest hpost dc
    cases mid with
    | nil =>
        obtain ⟨rfl, -⟩ := List.cons.inj hpost
        rw [List.append_nil]
        exact hfirst dc
    | cons y mid =>
        obtain ⟨rfl, hrest⟩ := List.cons.inj hpost
        have hlater := hall mid x rest hrest dc
        rwa [List.append_assoc, List.singleton_append] at hlater

theorem WalkSpec.good (hw : WalkSpec rf racks factors datacenters walk) (post : List Host) :
    ∀ (pre : List Host) (p : Placement), pre ++ post = walk → Basic rf racks pre p → Good rf racks pre p →
      ∃ hs, networkReplicas factors datacenters (post.map some) p = .ok hs ∧ (∀ x ∈ hs, x ∈ walk) ∧
        (Placed rf racks hs ↔ UndisturbedFrom rf racks pre post) := by
  induction post with
  | nil =>
      intro pre p hwalk hb hg
      have hle := hw.le_racks hwalk
      rw [List.append_nil] at hwalk
      subst hwalk
      refine ⟨_, rfl, hb.replicas_mem, fun _ mid x rest hnil => ?_, fun _ => hg.placed hb hle (hw.over p)⟩
      simp at hnil
  | cons h post ih =>
      intro pre p hwalk hb hg
      obtain ⟨p', done, heq, hwalk', he, hb', hover⟩ := hw.step hb hwalk
      have hmem : ∀ x ∈ p'.tokenReplicas, x ∈ walk := by
        intro x hx
        rw [← hwalk']
        exact List.mem_append_left _ (hb'.replicas_mem x hx)
      rw [heq, undisturbedFrom_cons]
      by_cases hdisturbs : ∃ dc, Disturbs rf racks pre h dc
      · obtain ⟨dc, hdisturbs⟩ := hdisturbs
        have hd := hg.disturbed hb he hdisturbs
        have hnot : ¬ ((∀ dc, ¬ Disturbs rf racks pre h dc) ∧ UndisturbedFrom rf racks (pre ++ [h]) post) :=
          fun hall => hall.1 dc hdisturbs
        cases done with
        | false =>
            obtain ⟨hs, hrun, hmem, hplaced⟩ := hw.doomed post _ p' hwalk' hb' hd
            exact ⟨hs, hrun, hmem, iff_of_false hplaced hnot⟩
        | true => exact ⟨_, rfl, hmem, iff_of_false (hd.not_placed hb' (hover rfl)) hnot⟩
      · rw [not_exists] at hdisturbs
        have hg' := hg.step hb he hdisturbs
        rw [and_iff_right hdisturbs]
        cases done with
        | false => exact ih _ p' hwalk' hb' hg'
        | true =>
            have hend := hover rfl
            refine ⟨_, rfl, hmem, iff_of_true (hg'.placed hb' (hw.le_racks hwalk') hend) ?_⟩
            intro mid x rest _ dc
            exact not_disturbs_of_firsts (fun dc hpos => hend.firsts hb' hpos) mid dc

/-- The replicas of a token are right if and only if its walk is undisturbed. -/
theorem WalkSpec.placed_iff (hw : WalkSpec rf racks factors datacenters walk) :
    ∃ hs, networkReplicas factors datacenters (walk.map some) .start = .ok hs ∧ (∀ x ∈ hs, x ∈ walk) ∧
      (Placed rf racks hs ↔ Undisturbed rf racks walk) :=
  hw.good walk [] .start rfl (.start rf racks) (.start rf racks)

end Run

end CqlDriver.Metadata
