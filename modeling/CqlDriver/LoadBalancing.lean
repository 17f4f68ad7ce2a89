import Mathlib

/-! # Query plans (`DefaultLoadBalancingPolicy` of `lib/policies/load-balancing.js`)

The plan of a query with a routing key starts with the local replicas, shuffled and partly reordered by swaps, and goes on
with the other local hosts from a rotating index.  No swap and no check loses or repeats a host (`newQueryPlan_yields`).
Hosts are compared as objects.  What the checks answer about a host is fixed while a plan is made, and the generators are
run to their end. -/

namespace CqlDriver.LoadBalancing

/-- The values of `Math.random()`. -/
abbrev Random := Set.Ico (0 : ℚ) 1

/-! ### Shuffling -/

section
variable {α : Type}

/-- The passes of the loop of `shuffleArray` from the index `i` down; `random i` is the draw of a pass. -/
def shuffleFrom (random : ℕ → Random) : ℕ → Array α → Array α
  | 0, arr => arr
  | i + 1, arr =>
      let j := ⌊(random (i + 1) : ℚ) * (i + 1 + 1)⌋.toNat
      shuffleFrom random i (arr.swapIfInBounds (i + 1) j)

def shuffleArray (random : ℕ → Random) (arr : Array α) : Array α := shuffleFrom random (arr.size - 1) arr

end

/-! ### The policy -/

/-- What is known about a host when a plan is made. -/
structure HostState where
  datacenter : String
  isUp : Bool
  /-- The time since which the host is up, `none` for `null`. -/
  isUpSince : Option ℤ
  inFlight : ℕ
  responseCount : ℕ

/-- The checks that a policy applies to its hosts, with what the hosts are at the time of the plan. -/
structure Checks (Host : Type) where
  state : Host → HostState
  filter : Host → Bool
  isHostNewlyUp : Host → Option ℤ
  healthCheck : Host → Bool
  compare : Host → Host → ℤ

/-- The options of the constructor. -/
structure Options (Host : Type) where
  filter : Option (Host → Bool)
  isHostNewlyUp : Option (Host → Option ℤ)
  healthCheck : Option (Host → Bool)
  compare : Option (Host → Host → ℤ)

section
variable {Host : Type}

def newlyUpInterval : ℤ := 60000

/-- `_isHostNewlyUp` -/
def defaultIsHostNewlyUp (now : ℤ) (h : HostState) : Option ℤ :=
  h.isUpSince.filter fun isUpSince => now - isUpSince < newlyUpInterval

/-- `_healthCheck` -/
def defaultHealthCheck (h : HostState) : Bool := !(10 ≤ h.inFlight && h.responseCount ≤ 1)

/-- `_compare` -/
def defaultCompare (h1 h2 : HostState) : ℤ := if h1.inFlight < h2.inFlight then 1 else -1

/-- The checks after the constructor. -/
def checksOf (options : Options Host) (state : Host → HostState) (now : ℤ) : Checks Host where
  state := state
  filter := options.filter.getD fun _ => true
  isHostNewlyUp := options.isHostNewlyUp.getD fun h => defaultIsHostNewlyUp now (state h)
  healthCheck := options.healthCheck.getD fun h => defaultHealthCheck (state h)
  compare := options.compare.getD fun h1 h2 => defaultCompare (state h1) (state h2)

/-- The hosts that `_filter` and the data center let through. -/
def Checks.accepts (c : Checks Host) (localDc : String) (h : Host) : Bool :=
  c.filter h && (c.state h).datacenter == localDc

/-- The hosts of a plan: they are up, too. -/
def Checks.isLocal (c : Checks Host) (localDc : String) (h : Host) : Bool := c.accepts localDc h && (c.state h).isUp

/-- The fields of a policy that was initialized.  The map of the hosts has each host once, and the local hosts, where they
are kept, are those that the filter accepts. -/
structure Policy (c : Checks Host) where
  localDc : String
  hosts : List Host
  filteredHosts : Option (List Host)
  index : ℕ
  hosts_nodup : hosts.Nodup
  filteredHosts_eq : ∀ l ∈ filteredHosts, l = hosts.filter (c.accepts localDc)

end

section
variable {Host : Type} [DecidableEq Host] {c : Checks Host}

def Policy.getFilteredLocalHosts (p : Policy c) : List Host × Policy c :=
  match p.filteredHosts with
  | some l => (l, p)
  | none =>
      let l := p.hosts.filter (c.accepts p.localDc)
      (l, { p with
        filteredHosts := some l
        filteredHosts_eq := by
          rintro _ ⟨⟩
          rfl })

def Policy.getIndex (p : Policy c) : ℕ × Policy c :=
  let index := p.index + 1
  (p.index, { p with index := if index = 0x7fffffff then 0 else index })

/-- The hosts that `_getLocalHosts` yields; `localReplicas` is `none` where the argument is missing. -/
def Policy.getLocalHosts (p : Policy c) (localReplicas : Option (Array Host)) : List Host × Policy c :=
  let (hosts, p) := p.getFilteredLocalHosts
  let (initialIndex, p) := p.getIndex
  let canBeYield (h : Host) : Bool := match localReplicas with
    | some replicas => !replicas.contains h
    | none => true
  ((List.range hosts.length).filterMap fun i =>
    (hosts[(i + initialIndex) % hosts.length]?).filter fun h => canBeYield h && (c.state h).isUp, p)

def Policy.yieldReplicasFirst (p : Policy c) (replicas : Array Host) : List Host × Policy c :=
  let (rest, p) := p.getLocalHosts (some replicas)
  (replicas.toList ++ rest, p)

/-- `Number.MIN_SAFE_INTEGER` -/
def minSafeInteger : ℤ := -(2 ^ 53 - 1)

/-- The variables of the loop that filters the replicas. -/
structure Scan (Host : Type) where
  filteredReplicas : Array Host
  newlyUpReplica : Option Host
  newlyUpReplicaTimestamp : ℤ
  unhealthyReplicas : ℕ

def Scan.start : Scan Host := ⟨#[], none, minSafeInteger, 0⟩

/-- A pass of the loop that filters the replicas. -/
def Scan.next (c : Checks Host) (localDc : String) (s : Scan Host) (h : Host) : Scan Host :=
  if !c.filter h || (c.state h).datacenter != localDc || !(c.state h).isUp then s
  else
    let s := match c.isHostNewlyUp h with
      | some isUpSince =>
          if isUpSince > s.newlyUpReplicaTimestamp then
            { s with newlyUpReplica := some h, newlyUpReplicaTimestamp := isUpSince }
          else s
      | none => s
    let s := if s.newlyUpReplica.isNone && !c.healthCheck h then
        { s with unhealthyReplicas := s.unhealthyReplicas + 1 } else s
    { s with filteredReplicas := s.filteredReplicas.push h }

/-- The loop of `_sendUnhealthyToTheBack` from the index `i - 1` down. -/
def sendFrom (healthCheck : Host → Bool) (unhealthyReplicas : ℕ) : ℕ → ℕ → Array Host → Array Host
  | 0, _, replicas => replicas
  | i + 1, counter, replicas =>
      if counter < unhealthyReplicas then
        match replicas[i]? with
        | none => replicas
        | some host =>
            if healthCheck host then sendFrom healthCheck unhealthyReplicas i counter replicas
            else
              let targetIndex := replicas.size - 1 - counter
              sendFrom healthCheck unhealthyReplicas i (counter + 1)
                (if targetIndex ≠ i then replicas.swapIfInBounds targetIndex i else replicas)
      else replicas

def sendUnhealthyToTheBack (healthCheck : Host → Bool) (replicas : Array Host) (unhealthyReplicas : ℕ) : Array Host :=
  sendFrom healthCheck unhealthyReplicas replicas.size 0 replicas

/-- The reordering for health, or for the replica that is newly up. -/
def reorder (c : Checks Host) (s : Scan Host) (dice : Random) (replicas : Array Host) : Array Host :=
  match s.newlyUpReplica with
  | none =>
      if s.unhealthyReplicas > 0 ∧ s.unhealthyReplicas < replicas.size / 2 + 1 then
        sendUnhealthyToTheBack c.healthCheck replicas s.unhealthyReplicas
      else replicas
  | some h =>
      if (replicas[0]? = some h ∨ replicas[1]? = some h) ∧ 1 ≤ (dice : ℚ) * 4 then
        replicas.swapIfInBounds (replicas.size - 1) (if replicas[0]? = some h then 0 else 1)
      else replicas

/-- The better one of the first two replicas comes first. -/
def powerOfTwo (c : Checks Host) (replicas : Array Host) : Array Host :=
  match replicas[1]?, replicas[0]? with
  | some second, some first => if c.compare second first > 0 then replicas.swapIfInBounds 0 1 else replicas
  | _, _ => replicas

def Policy.getReplicasAndLocalHosts (p : Policy c) (replicas : Option (List Host)) (random : ℕ → Random)
    (dice : Random) : List Host × Policy c :=
  match replicas with
  | none => p.getLocalHosts none
  | some replicas =>
      let s := replicas.foldl (Scan.next c p.localDc) Scan.start
      let replicas := shuffleArray random s.filteredReplicas
      if replicas.size < 3 then p.yieldReplicasFirst replicas
      else p.yieldReplicasFirst (powerOfTwo c (reorder c s dice replicas))

/-- The fields of the execution options that are read; an empty text is none. -/
structure ExecutionOptions (Host : Type) where
  routingKey : Option (List UInt8)
  keyspace : String
  preferredHost : Option Host

/-- `getReplicas` is a method of the client, or an option. -/
def Policy.newQueryPlan (p : Policy c) (getReplicas : String → List UInt8 → Option (List Host)) (keyspace : String)
    (executionOptions : Option (ExecutionOptions Host)) (random : ℕ → Random) (dice : Random) :
    List Host × Policy c :=
  let keyspace := match executionOptions with
    | some o => if o.keyspace = "" then keyspace else o.keyspace
    | none => keyspace
  let (iterable, p) := match keyspace, executionOptions.bind (·.routingKey) with
    | "", _ => p.getLocalHosts none
    | _, none => p.getLocalHosts none
    | keyspace, some routingKey => p.getReplicasAndLocalHosts (getReplicas keyspace routingKey) random dice
  match executionOptions.bind (·.preferredHost) with
  | some preferredHost => (preferredHost :: iterable.filter (· ≠ preferredHost), p)
  | none => (iterable, p)

end

/-! ### Permutations -/

section
variable {α : Type}

theorem perm_swapIfInBounds (arr : Array α) (i j : ℕ) : (arr.swapIfInBounds i j).Perm arr := by
  unfold Array.swapIfInBounds
  split_ifs with hi hj
  · exact Array.swap_perm hi hj
  · exact Array.Perm.refl arr
  · exact Array.Perm.refl arr

theorem getElem_swapIfInBounds {arr : Array α} {i j k : ℕ} (hi : i < arr.size) (hj : j < arr.size) (hk : k < arr.size)
    (hk' : k < (arr.swapIfInBounds i j).size) :
    (arr.swapIfInBounds i j)[k] = if k = i then arr[j] else if k = j then arr[i] else arr[k] := by
  rw [Array.getElem_swapIfInBounds]
  split_ifs <;> grind

theorem perm_shuffleFrom (random : ℕ → Random) (i : ℕ) (arr : Array α) : (shuffleFrom random i arr).Perm arr := by
  induction i generalizing arr with
  | zero => exact Array.Perm.refl arr
  | succ i ih => exact (ih _).trans (perm_swapIfInBounds arr _ _)

theorem perm_shuffleArray (random : ℕ → Random) (arr : Array α) : (shuffleArray random arr).Perm arr :=
  perm_shuffleFrom random _ arr

end

section
variable {Host : Type} [DecidableEq Host] {c : Checks Host}

omit [DecidableEq Host] in
theorem perm_sendFrom (healthCheck : Host → Bool) (unhealthyReplicas i counter : ℕ) (replicas : Array Host) :
    (sendFrom healthCheck unhealthyReplicas i counter replicas).Perm replicas := by
  induction i generalizing counter replicas with
  | zero => exact Array.Perm.refl replicas
  | succ i ih =>
      rw [sendFrom]
      split_ifs with hcounter
      · cases replicas[i]? with
        | none => exact Array.Perm.refl replicas
        | some host =>
            simp only
            split_ifs with hhealthy hne
            · exact ih counter replicas
            · exact (ih (counter + 1) _).trans (perm_swapIfInBounds replicas _ _)
            · exact ih (counter + 1) replicas
      · exact Array.Perm.refl replicas

theorem perm_reorder (s : Scan Host) (dice : Random) (replicas : Array Host) : (reorder c s dice replicas).Perm replicas := by
  unfold reorder
  cases s.newlyUpReplica with
  | none =>
      simp only
      split_ifs with hunhealthy
      · exact perm_sendFrom c.healthCheck _ _ _ replicas
      · exact Array.Perm.refl replicas
  | some h =>
      simp only
      split_ifs with hfront hfirst
      · exact perm_swapIfInBounds replicas _ _
      · exact perm_swapIfInBounds replicas _ _
      · exact Array.Perm.refl replicas

omit [DecidableEq Host] in
theorem perm_powerOfTwo (replicas : Array Host) : (powerOfTwo c replicas).Perm replicas := by
  unfold powerOfTwo
  split
  · split_ifs with hcompare
    · exact perm_swapIfInBounds replicas 0 1
    · exact Array.Perm.refl replicas
  · exact Array.Perm.refl replicas

/-! ### The loop over the replicas -/

omit [DecidableEq Host] in
theorem isLocal_iff (c : Checks Host) (localDc : String) (h : Host) :
    (!c.filter h || (c.state h).datacenter != localDc || !(c.state h).isUp) = !c.isLocal localDc h := by
  rw [Checks.isLocal, Checks.accepts, Bool.not_and, Bool.not_and, bne]

omit [DecidableEq Host] in
/-- A local replica is pushed, another one passed over. -/
theorem filteredReplicas_next (localDc : String) (s : Scan Host) (h : Host) :
    (s.next c localDc h).filteredReplicas.toList =
      s.filteredReplicas.toList ++ [h].filter (c.isLocal localDc) := by
  rw [Scan.next, isLocal_iff]
  cases hlocal : c.isLocal localDc h with
  | false => simp [hlocal]
  | true =>
      have hnewly (t : Scan Host) (ht : t.filteredReplicas = s.filteredReplicas) :
          (if t.newlyUpReplica.isNone && !c.healthCheck h then
            { t with unhealthyReplicas := t.unhealthyReplicas + 1 } else t).filteredReplicas = s.filteredReplicas := by
        split_ifs
        · exact ht
        · exact ht
      rw [if_neg (by decide)]
      simp only [Array.toList_push, List.filter_cons, hlocal, if_true, List.filter_nil]
      congr 1
      rw [hnewly]
      cases c.isHostNewlyUp h with
      | none => rfl
      | some isUpSince =>
          simp only
          split_ifs
          · rfl
          · rfl

omit [DecidableEq Host] in
theorem filteredReplicas_foldl (localDc : String) (replicas : List Host) (s : Scan Host) :
    (replicas.foldl (Scan.next c localDc) s).filteredReplicas.toList =
      s.filteredReplicas.toList ++ replicas.filter (c.isLocal localDc) := by
  induction replicas generalizing s with
  | nil => simp
  | cons h replicas ih =>
      rw [List.foldl_cons, ih, filteredReplicas_next, List.append_assoc, ← List.filter_append, List.singleton_append]

omit [DecidableEq Host] in
/-- As long as no replica is newly up, the unhealthy ones are counted. -/
theorem unhealthy_next {localDc : String} {s : Scan Host} {h : Host} (hs : s.newlyUpReplica = none)
    (hnone : c.isLocal localDc h = true → c.isHostNewlyUp h = none) :
    (s.next c localDc h).newlyUpReplica = none ∧
      (s.next c localDc h).unhealthyReplicas =
        s.unhealthyReplicas + ([h].filter (c.isLocal localDc)).countP fun h => !c.healthCheck h := by
  rw [Scan.next, isLocal_iff]
  cases hlocal : c.isLocal localDc h with
  | false => simp [hlocal, hs]
  | true =>
      rw [if_neg (by decide), hnone hlocal]
      simp only [hs, Option.isNone_none, Bool.true_and]
      cases hhealthy : c.healthCheck h with
      | false => simp [hlocal, hhealthy]
      | true => simp [hlocal, hhealthy, hs]

omit [DecidableEq Host] in
theorem unhealthy_foldl {localDc : String} {replicas : List Host}
    (hnone : ∀ h ∈ replicas, c.isLocal localDc h = true → c.isHostNewlyUp h = none) {s : Scan Host}
    (hs : s.newlyUpReplica = none) :
    (replicas.foldl (Scan.next c localDc) s).newlyUpReplica = none ∧
      (replicas.foldl (Scan.next c localDc) s).unhealthyReplicas =
        s.unhealthyReplicas + (replicas.filter (c.isLocal localDc)).countP fun h => !c.healthCheck h := by
  induction replicas generalizing s with
  | nil => simp [hs]
  | cons h replicas ih =>
      obtain ⟨hnext, hcount⟩ := unhealthy_next hs (hnone h (List.mem_cons_self ..))
      obtain ⟨hlast, htotal⟩ := ih (fun h' hh' => hnone h' (List.mem_cons_of_mem h hh')) hnext
      refine ⟨hlast, ?_⟩
      rw [List.foldl_cons, htotal, hcount, Nat.add_assoc, ← List.countP_append, ← List.filter_append,
        List.singleton_append]

/-! ### Unhealthy replicas -/

/-- The last `k` of the replicas are the unhealthy ones. -/
def HealthyFirst (healthCheck : Host → Bool) (k : ℕ) (replicas : Array Host) : Prop :=
  ∀ p (hp : p < replicas.size), healthCheck replicas[p] = decide (p < replicas.size - k)

/-- Before the pass at the index `i - 1`, the last `counter` replicas are unhealthy, and those from `i` to them healthy. -/
structure SentTo (healthCheck : Host → Bool) (i counter : ℕ) (replicas : Array Host) : Prop where
  le : i + counter ≤ replicas.size
  back : ∀ p (hp : p < replicas.size), replicas.size - counter ≤ p → healthCheck replicas[p] = false
  middle : ∀ p (hp : p < replicas.size), i ≤ p → p < replicas.size - counter → healthCheck replicas[p] = true

omit [DecidableEq Host]

theorem countP_back {healthCheck : Host → Bool} {counter : ℕ} {replicas : Array Host} (hle : counter ≤ replicas.size)
    (hback : ∀ p (hp : p < replicas.size), replicas.size - counter ≤ p → healthCheck replicas[p] = false) :
    replicas.toList.countP (fun h => !healthCheck h) =
      (replicas.toList.take (replicas.size - counter)).countP (fun h => !healthCheck h) + counter := by
  have hdrop : (replicas.toList.drop (replicas.size - counter)).countP (fun h => !healthCheck h) = counter := by
    have hall : ∀ h ∈ replicas.toList.drop (replicas.size - counter), (!healthCheck h) = true := by
      intro h hh
      obtain ⟨p, hp, rfl⟩ := List.getElem_of_mem hh
      rw [List.getElem_drop, Array.getElem_toList, Bool.not_eq_true']
      exact hback _ _ (Nat.le_add_right ..)
    rw [List.countP_eq_length.2 hall, List.length_drop, Array.length_toList]
    omega
  conv_lhs => rw [← List.take_append_drop (replicas.size - counter) replicas.toList]
  rw [List.countP_append, hdrop]

/-- Where nothing is left to send, the unhealthy replicas are at the back. -/
theorem healthyFirst_of_all {healthCheck : Host → Bool} {counter k : ℕ} {replicas : Array Host}
    (hle : counter ≤ replicas.size)
    (hback : ∀ p (hp : p < replicas.size), replicas.size - counter ≤ p → healthCheck replicas[p] = false)
    (hcount : replicas.toList.countP (fun h => !healthCheck h) = k)
    (hfront : (replicas.toList.take (replicas.size - counter)).countP (fun h => !healthCheck h) = 0) :
    HealthyFirst healthCheck k replicas := by
  have hk : k = counter := by
    rw [← hcount, countP_back hle hback, hfront, Nat.zero_add]
  rw [List.countP_eq_zero] at hfront
  intro p hp
  rw [hk]
  by_cases hlt : p < replicas.size - counter
  · have hmem : replicas[p] ∈ replicas.toList.take (replicas.size - counter) := by
      rw [List.mem_take_iff_getElem]
      exact ⟨p, by simp; omega, by simp⟩
    simpa [hlt] using hfront _ hmem
  · rw [decide_eq_false hlt]
    exact hback p hp (by omega)

theorem healthyFirst_sendFrom {healthCheck : Host → Bool} {k : ℕ} (i counter : ℕ) (replicas : Array Host)
    (hsent : SentTo healthCheck i counter replicas) (hcount : replicas.toList.countP (fun h => !healthCheck h) = k) :
    HealthyFirst healthCheck k (sendFrom healthCheck k i counter replicas) := by
  obtain ⟨hle, hback, hmiddle⟩ := hsent
  induction i generalizing counter replicas with
  | zero =>
      rw [sendFrom]
      refine healthyFirst_of_all (by omega) hback hcount (List.countP_eq_zero.2 fun h hh => ?_)
      obtain ⟨p, hp, rfl⟩ := List.mem_take_iff_getElem.1 hh
      simp at hp
      simp [hmiddle p (by omega) (Nat.zero_le p) (by omega)]
  | succ i ih =>
      have hi : i < replicas.size := by omega
      rw [sendFrom]
      by_cases hcounter : counter < k
      · rw [if_pos hcounter, Array.getElem?_eq_getElem hi]
        simp only
        by_cases hhealthy : healthCheck replicas[i] = true
        · rw [if_pos hhealthy]
          refine ih counter replicas hcount (by omega) hback fun p hp hge hlt => ?_
          rcases hge.eq_or_lt with rfl | hgt
          · exact hhealthy
          · exact hmiddle p hp hgt hlt
        · rw [if_neg hhealthy]
          by_cases htarget : replicas.size - 1 - counter ≠ i
          · rw [if_pos htarget]
            have hat {p : ℕ} (hp : p < replicas.size) := getElem_swapIfInBounds (i := replicas.size - 1 - counter)
              (j := i) (show replicas.size - 1 - counter < replicas.size by omega) hi hp (by simpa using hp)
            refine ih (counter + 1) _ ?_ (by simp; omega) (fun p hp hge => ?_) fun p hp hge hlt => ?_
            · rw [(Array.perm_iff_toList_perm.1 (perm_swapIfInBounds replicas _ _)).countP_eq]
              exact hcount
            · simp only [Array.size_swapIfInBounds] at hp hge
              rw [hat hp]
              split_ifs with htop hlow
              · simpa using hhealthy
              · omega
              · exact hback p hp (by omega)
            · simp only [Array.size_swapIfInBounds] at hp hlt
              rw [hat hp]
              split_ifs with htop hlow
              · omega
              · exact hmiddle _ _ (by omega) (by omega)
              · exact hmiddle p hp (by omega) (by omega)
          · rw [if_neg htarget]
            refine ih (counter + 1) replicas hcount (by omega) (fun p hp hge => ?_) fun p hp hge hlt => ?_
            · by_cases hpi : p = i
              · subst hpi
                simpa using hhealthy
              · exact hback p hp (by omega)
            · omega
      · -- all unhealthy replicas were sent to the back
        rw [if_neg hcounter]
        have hfront := countP_back (by omega) hback
        exact healthyFirst_of_all (by omega) hback hcount (by omega)

end

/-! ### Local hosts -/

theorem filterMap_range_getElem? {α : Type} (l : List α) : ((List.range l.length).filterMap fun i => l[i]?) = l := by
  induction l using List.reverseRecOn with
  | nil => rfl
  | append_singleton l x ih =>
      have hlow : ((List.range l.length).filterMap fun i => (l ++ [x])[i]?) = l := by
        conv_rhs => rw [← ih]
        apply List.filterMap_congr
        intro i hi
        exact List.getElem?_append_left (List.mem_range.1 hi)
      rw [List.length_append, List.length_singleton, List.range_succ, List.filterMap_append, hlow]
      simp

/-- An index that starts anywhere and turns around goes through the rotated list. -/
theorem filterMap_range_rotate {α : Type} (l : List α) (k : ℕ) (q : α → Bool) :
    ((List.range l.length).filterMap fun i => (l[(i + k) % l.length]?).filter q) = (l.rotate k).filter q := by
  have hrotate : ((List.range l.length).filterMap fun i => l[(i + k) % l.length]?) = l.rotate k := by
    conv_rhs => rw [← filterMap_range_getElem? (l.rotate k), List.length_rotate]
    apply List.filterMap_congr
    intro i hi
    exact (List.getElem?_rotate (List.mem_range.1 hi)).symm
  rw [← hrotate, List.filter_filterMap]

section
variable {Host : Type} [DecidableEq Host] {c : Checks Host}

omit [DecidableEq Host] in
theorem getFilteredLocalHosts_fst (p : Policy c) :
    p.getFilteredLocalHosts.1 = p.hosts.filter (c.accepts p.localDc) ∧ p.getFilteredLocalHosts.2.index = p.index := by
  unfold Policy.getFilteredLocalHosts
  split
  · next l heq => exact ⟨p.filteredHosts_eq l heq, rfl⟩
  · exact ⟨rfl, rfl⟩

theorem getLocalHosts_eq (p : Policy c) (replicas : Array Host) :
    (p.getLocalHosts (some replicas)).1 =
      ((p.hosts.filter (c.accepts p.localDc)).rotate p.index).filter fun h =>
        !replicas.contains h && (c.state h).isUp := by
  obtain ⟨hhosts, hindex⟩ := getFilteredLocalHosts_fst p
  simp only [Policy.getLocalHosts, Policy.getIndex, hhosts, hindex]
  exact filterMap_range_rotate _ _ _

/-- What a plan with these replicas yields. -/
structure Yields (p : Policy c) (replicas plan : List Host) : Prop where
  /-- The up hosts of the local data center that the filter accepts, each once. -/
  hosts : plan.Perm (p.hosts.filter (c.isLocal p.localDc))
  nodup : plan.Nodup
  replicasFirst : ∃ front back, plan = front ++ back ∧ (∀ h ∈ front, h ∈ replicas) ∧ ∀ h ∈ back, h ∉ replicas
  /-- Unless one is newly up, or too many are unhealthy, the unhealthy replicas come behind the healthy ones. -/
  unhealthyLast : (∀ h ∈ replicas, c.isLocal p.localDc h = true → c.isHostNewlyUp h = none) →
    3 ≤ (replicas.filter (c.isLocal p.localDc)).length →
    0 < (replicas.filter (c.isLocal p.localDc)).countP (fun h => !c.healthCheck h) →
    (replicas.filter (c.isLocal p.localDc)).countP (fun h => !c.healthCheck h) <
      (replicas.filter (c.isLocal p.localDc)).length / 2 + 1 →
    (plan.filter (· ∈ replicas)).Pairwise fun h h' => c.healthCheck h = false → c.healthCheck h' = false

/-- Replicas in any order, with the other local hosts behind them. -/
theorem yields_of_perm (p : Policy c) {replicas : List Host} {front : Array Host} (hnodup : replicas.Nodup)
    (hsub : ∀ h ∈ replicas, h ∈ p.hosts) (hfront : front.toList.Perm (replicas.filter (c.isLocal p.localDc)))
    (hsorted : (∀ h ∈ replicas, c.isLocal p.localDc h = true → c.isHostNewlyUp h = none) →
      3 ≤ (replicas.filter (c.isLocal p.localDc)).length →
      0 < (replicas.filter (c.isLocal p.localDc)).countP (fun h => !c.healthCheck h) →
      (replicas.filter (c.isLocal p.localDc)).countP (fun h => !c.healthCheck h) <
        (replicas.filter (c.isLocal p.localDc)).length / 2 + 1 →
      front.toList.Pairwise fun h h' => c.healthCheck h = false → c.healthCheck h' = false) :
    Yields p replicas (p.yieldReplicasFirst front).1 := by
  have hplan : (p.yieldReplicasFirst front).1 = front.toList ++
      ((p.hosts.filter (c.accepts p.localDc)).rotate p.index).filter fun h =>
        !front.contains h && (c.state h).isUp := by
    rw [← getLocalHosts_eq]
    rfl
  set back := ((p.hosts.filter (c.accepts p.localDc)).rotate p.index).filter fun h =>
    !front.contains h && (c.state h).isUp
  have hmemFront (h : Host) : h ∈ front.toList ↔ h ∈ replicas ∧ c.isLocal p.localDc h = true := by
    rw [hfront.mem_iff, List.mem_filter]
  have hmemBack (h : Host) : h ∈ back ↔ (h ∈ p.hosts ∧ c.isLocal p.localDc h = true) ∧ h ∉ front.toList := by
    rw [List.mem_filter, List.mem_rotate, List.mem_filter, Checks.isLocal]
    simp only [Bool.and_eq_true, Bool.not_eq_true', Array.mem_toList_iff]
    rw [← Array.contains_iff_mem, Bool.not_eq_true]
    tauto
  have hnodupFront : front.toList.Nodup := hfront.nodup_iff.2 (hnodup.filter _)
  have hnodupBack : back.Nodup := (List.nodup_rotate.2 (p.hosts_nodup.filter _)).filter _
  have hnodupPlan : (front.toList ++ back).Nodup :=
    List.nodup_append.2 ⟨hnodupFront, hnodupBack, fun h hh h' hh' heq => ((hmemBack h').1 hh').2 (heq ▸ hh)⟩
  have hfrontReplicas : ∀ h ∈ front.toList, h ∈ replicas := fun h hh => ((hmemFront h).1 hh).1
  have hbackReplicas : ∀ h ∈ back, h ∉ replicas := fun h hh hr =>
    ((hmemBack h).1 hh).2 ((hmemFront h).2 ⟨hr, ((hmemBack h).1 hh).1.2⟩)
  rw [hplan]
  refine ⟨?_, hnodupPlan, ⟨_, _, rfl, hfrontReplicas, hbackReplicas⟩, fun hnew hthree hpos hlt => ?_⟩
  · refine (List.perm_ext_iff_of_nodup hnodupPlan (p.hosts_nodup.filter _)).2 fun h => ?_
    rw [List.mem_append, hmemBack, hmemFront, List.mem_filter]
    constructor
    · rintro (⟨hr, hlocal⟩ | ⟨hlocal, -⟩)
      · exact ⟨hsub h hr, hlocal⟩
      · exact hlocal
    · rintro ⟨hh, hlocal⟩
      by_cases hr : h ∈ replicas
      · exact Or.inl ⟨hr, hlocal⟩
      · exact Or.inr ⟨⟨hh, hlocal⟩, fun hand => hr hand.1⟩
  · have hfilter : (front.toList ++ back).filter (· ∈ replicas) = front.toList := by
      rw [List.filter_append, List.filter_eq_self.2 (by simpa using hfrontReplicas),
        List.filter_eq_nil_iff.2 (by simpa using hbackReplicas), List.append_nil]
    rw [hfilter]
    exact hsorted hnew hthree hpos hlt

omit [DecidableEq Host] in
theorem pairwise_of_healthyFirst {healthCheck : Host → Bool} {k : ℕ} {replicas : Array Host}
    (h : HealthyFirst healthCheck k replicas) :
    replicas.toList.Pairwise fun h h' => healthCheck h = false → healthCheck h' = false := by
  rw [List.pairwise_iff_getElem]
  intro i j hi hj hij hfalse
  rw [Array.length_toList] at hi hj
  rw [Array.getElem_toList, h i hi, decide_eq_false_iff_not] at hfalse
  rw [Array.getElem_toList, h j hj, decide_eq_false_iff_not]
  omega

omit [DecidableEq Host] in
/-- The first two of the replicas are swapped, which are healthy. -/
theorem healthyFirst_powerOfTwo {k : ℕ} {replicas : Array Host} (h : HealthyFirst c.healthCheck k replicas)
    (hk : k + 2 ≤ replicas.size) : HealthyFirst c.healthCheck k (powerOfTwo c replicas) := by
  unfold powerOfTwo
  split
  · split_ifs with hcompare
    · intro p hp
      rw [Array.size_swapIfInBounds] at hp
      rw [getElem_swapIfInBounds (by omega) (by omega) hp (by simpa using hp), Array.size_swapIfInBounds]
      split_ifs with hzero hone
      · rw [h 1 (by omega), hzero, decide_eq_true (by omega), decide_eq_true (by omega)]
      · rw [h 0 (by omega), hone, decide_eq_true (by omega), decide_eq_true (by omega)]
      · exact h p hp
    · exact h
  · exact h

/-- With no replica newly up, the unhealthy ones are sent to the back if they are not the majority. -/
theorem healthyFirst_reorder {s : Scan Host} (dice : Random) {replicas : Array Host} (hnone : s.newlyUpReplica = none)
    (hcount : replicas.toList.countP (fun h => !c.healthCheck h) = s.unhealthyReplicas)
    (hpos : 0 < s.unhealthyReplicas) (hlt : s.unhealthyReplicas < replicas.size / 2 + 1) :
    HealthyFirst c.healthCheck s.unhealthyReplicas (reorder c s dice replicas) := by
  rw [reorder, hnone]
  simp only
  rw [if_pos ⟨hpos, hlt⟩]
  refine healthyFirst_sendFrom _ _ _ ⟨by omega, fun p hp hge => ?_, fun p hp hge hlt => ?_⟩ hcount
  · omega
  · omega

theorem getReplicasAndLocalHosts_yields (p : Policy c) {replicas : List Host} (hnodup : replicas.Nodup)
    (hsub : ∀ h ∈ replicas, h ∈ p.hosts) (random : ℕ → Random) (dice : Random) :
    Yields p replicas (p.getReplicasAndLocalHosts (some replicas) random dice).1 := by
  simp only [Policy.getReplicasAndLocalHosts]
  have hfiltered := filteredReplicas_foldl (c := c) p.localDc replicas Scan.start
  have hcounted (hnew : ∀ h ∈ replicas, c.isLocal p.localDc h = true → c.isHostNewlyUp h = none) :=
    unhealthy_foldl hnew (s := Scan.start) rfl
  set s := replicas.foldl (Scan.next c p.localDc) Scan.start
  have hshuffled : (shuffleArray random s.filteredReplicas).toList.Perm (replicas.filter (c.isLocal p.localDc)) := by
    rw [← List.nil_append (replicas.filter _)]
    exact hfiltered ▸ Array.perm_iff_toList_perm.1 (perm_shuffleArray random _)
  set shuffled := shuffleArray random s.filteredReplicas
  have hsize : shuffled.size = (replicas.filter (c.isLocal p.localDc)).length := by
    rw [← hshuffled.length_eq, Array.length_toList]
  split_ifs with hfew
  · exact yields_of_perm p hnodup hsub hshuffled fun _ hthree => by omega
  · have hperm : (powerOfTwo c (reorder c s dice shuffled)).toList.Perm (replicas.filter (c.isLocal p.localDc)) :=
      (Array.perm_iff_toList_perm.1 ((perm_powerOfTwo _).trans (perm_reorder s dice shuffled))).trans hshuffled
    refine yields_of_perm p hnodup hsub hperm fun hnew hthree hpos hlt => ?_
    obtain ⟨hnone, hunhealthy⟩ := hcounted hnew
    rw [show (Scan.start : Scan Host).unhealthyReplicas = 0 from rfl, Nat.zero_add] at hunhealthy
    have hreordered := healthyFirst_reorder dice hnone
      ((hshuffled.countP_eq _).trans hunhealthy.symm) (by omega) (by omega)
    have hsame := (perm_reorder (c := c) s dice shuffled).size_eq
    exact pairwise_of_healthyFirst (healthyFirst_powerOfTwo hreordered (by omega))

/-- A plan with a keyspace and a routing key yields the local hosts, each once and the replicas first. -/
theorem newQueryPlan_yields (p : Policy c) (getReplicas : String → List UInt8 → Option (List Host)) (keyspace : String)
    (o : ExecutionOptions Host) (routingKey : List UInt8) (replicas : List Host) (random : ℕ → Random) (dice : Random)
    (hkeyspace : (if o.keyspace = "" then keyspace else o.keyspace) ≠ "") (hkey : o.routingKey = some routingKey)
    (hpreferred : o.preferredHost = none)
    (hreplicas : getReplicas (if o.keyspace = "" then keyspace else o.keyspace) routingKey = some replicas)
    (hnodup : replicas.Nodup) (hsub : ∀ h ∈ replicas, h ∈ p.hosts) :
    Yields p replicas (p.newQueryPlan getReplicas keyspace (some o) random dice).1 := by
  have hyields := getReplicasAndLocalHosts_yields p hnodup hsub random dice
  rw [← hreplicas] at hyields
  simp only [Policy.newQueryPlan, Option.bind_some, hkey, hpreferred]
  exact hyields

end

/-- Four hosts, of which the third one does not respond. -/
def fourHosts : Policy (checksOf ⟨none, none, none, none⟩
    (fun h : ℕ => ⟨"dc1", true, none, if h = 2 then 12 else 0, 0⟩) 0) where
  localDc := "dc1"
  hosts := [0, 1, 2, 3]
  filteredHosts := none
  index := 5
  hosts_nodup := by decide
  filteredHosts_eq := by
    rintro l ⟨⟩

theorem newQueryPlan_yields_fourHosts :
    Yields fourHosts [2, 0, 1] (fourHosts.newQueryPlan (fun _ _ => some [2, 0, 1]) "ks" (some ⟨some [7], "", none⟩)
      (fun _ => ⟨0, by norm_num⟩) ⟨0, by norm_num⟩).1 ∧
    ((fourHosts.newQueryPlan (fun _ _ => some [2, 0, 1]) "ks" (some ⟨some [7], "", none⟩)
      (fun _ => ⟨0, by norm_num⟩) ⟨0, by norm_num⟩).1.filter (· ∈ [2, 0, 1])).Pairwise fun h h' =>
        (if h = 2 then false else true) = false → (if h' = 2 then false else true) = false := by
  have hyields := newQueryPlan_yields fourHosts (fun _ _ => some [2, 0, 1]) "ks" ⟨some [7], "", none⟩ [7] [2, 0, 1]
    (fun _ => ⟨0, by norm_num⟩) ⟨0, by norm_num⟩ (by decide) rfl rfl rfl (by decide) (by decide)
  refine ⟨hyields, (hyields.unhealthyLast (by decide) (by decide) (by decide) (by decide)).imp ?_⟩
  intro h h' himp
  have hcheck (h : ℕ) : (checksOf ⟨none, none, none, none⟩
      (fun h : ℕ => ⟨"dc1", true, none, if h = 2 then 12 else 0, 0⟩) 0).healthCheck h = if h = 2 then false else true := by
    by_cases hh : h = 2
    · rw [hh]
      rfl
    · simp [checksOf, defaultHealthCheck, hh]
  rwa [hcheck, hcheck] at himp

end CqlDriver.LoadBalancing
