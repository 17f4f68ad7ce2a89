import Mathlib
import CqlDriver.Lib.Iteration
import CqlDriver.Lib.TransitionSystem
import CqlDriver.Lib.JsObject
import CqlDriver.Lib.Fallible
import CqlDriver.LoadBalancing

/-! # Chains of load balancing policies (`lib/policies/load-balancing.js`)

A round-robin policy, for all hosts or for those of a data center, under any number of token-aware and allow-list
policies.  A query plan is an iterator with its own counters; the policy keeps its index between the plans.  The
system has a chain and the plans that it made, of which any may be asked next: every plan answers with the hosts at a
local distance, each once and the replicas first (`plans_complete`), and the plans of a round-robin policy share the
load at every place (`round_robin_fair`).  Nothing in the driver changes a map of hosts after it was made. -/

namespace CqlDriver.PolicyChain

open TransitionSystem Iteration

/-! ### Hosts -/

/-- The fields of a host that a policy reads. -/
structure Host where
  address : String
  datacenter : Option String
  /-- The address is `ip:port`. -/
  colon_mem : ':' ∈ address.toList
deriving DecidableEq

/-- The hosts by their addresses. -/
structure HostMap where
  values : List Host
  nodup : (values.map Host.address).Nodup

/-- `_items.set` -/
def HostMap.setItem (m : HostMap) (h : Host) : HostMap where
  values := if h.address ∈ m.values.map Host.address then
    m.values.map fun h' => if h'.address = h.address then h else h' else m.values ++ [h]
  nodup := by
    have hkept : ((m.values.map fun h' => if h'.address = h.address then h else h').map Host.address) =
        m.values.map Host.address := by
      rw [List.map_map]
      apply List.map_congr_left
      intro h' _
      rw [Function.comp_apply]
      split_ifs with heq
      · exact heq.symm
      · rfl
    split_ifs with hmem
    · rw [hkept]
      exact m.nodup
    · rw [List.map_append, List.nodup_append]
      refine ⟨m.nodup, List.nodup_singleton _, ?_⟩
      rintro a ha _ hb rfl
      rw [List.map_singleton, List.mem_singleton] at hb
      exact hmem (hb ▸ ha)

def HostMap.fromRust (hostsList : List Host) : HostMap := hostsList.foldl HostMap.setItem ⟨[], List.nodup_nil⟩

inductive Distance
  | local | remote | ignored
deriving DecidableEq

/-! ### Policies -/

/-- A client as far as a policy uses it. -/
structure Client where
  localDataCenter : Option String
  getReplicas : String → List UInt8 → Except String (Option (List Host))

/-- The client of the driver. -/
def Client.ofDriver (localDataCenter : Option String) : Client :=
  ⟨localDataCenter, fun _ _ => .error "TODO: Not implemented"⟩

inductive Policy
  | roundRobin (hosts : Option HostMap) (index : ℕ)
  | dcAwareRoundRobin (hosts : Option HostMap) (localDc : Option String) (index : ℕ)
      (localHostsArray : Option (List Host))
  | tokenAware (childPolicy : Policy)
  | allowList (childPolicy : Policy) (allowList : List String)

/-- The data centers, each at its first place. -/
def getDataCenters (hosts : HostMap) : List (Option String) := (hosts.values.map Host.datacenter).eraseDups

/-- A list as a part of a text. -/
def listText (l : List (Option String)) : String := ",".intercalate (l.map fun dc => dc.getD "")

def setLocalDc (localDc : Option String) (client : Client) (hosts : HostMap) : Except String String :=
  let localDc := if localDc.getD "" = "" then client.localDataCenter else localDc
  let dcs := getDataCenters hosts
  if localDc.getD "" = "" then
    .error ("'localDataCenter' is not defined in Client options and also was not specified in constructor." ++
      " At least one is required. Available DCs are: [" ++ listText dcs ++ "]")
  else if localDc ∉ dcs then
    .error ("Datacenter " ++ localDc.getD "" ++ " was not found. Available DCs are: [" ++ listText dcs ++ "]")
  else .ok (localDc.getD "")

namespace Policy

def init (client : Client) (hosts : HostMap) : Policy → Except String Policy
  | roundRobin _ index => .ok (roundRobin (some hosts) index)
  | dcAwareRoundRobin _ localDc index localHostsArray =>
      (setLocalDc localDc client hosts).map fun localDc =>
        dcAwareRoundRobin (some hosts) (some localDc) index localHostsArray
  | tokenAware childPolicy => (childPolicy.init client hosts).map tokenAware
  | allowList childPolicy l => (childPolicy.init client hosts).map (allowList · l)

def getDistance : Policy → Host → Distance
  | roundRobin _ _, _ => .local
  | dcAwareRoundRobin _ localDc _ _, h => if h.datacenter = localDc then .local else .ignored
  | tokenAware childPolicy, h => childPolicy.getDistance h
  | allowList childPolicy l, h => if h.address ∈ l then childPolicy.getDistance h else .ignored

end Policy

abbrev ExecutionOptions := LoadBalancing.ExecutionOptions Host

/-- The values of `Math.random()` during a call. -/
abbrev Draws := ℕ → LoadBalancing.Random

/-! ### Iterators -/

/-- The largest number that `++` still increases is below `maxInt`. -/
def maxInt : ℕ := 2 ^ 53

def increment (n : ℕ) : ℕ := if n < maxInt then n + 1 else n

/-- The query plans with the variables of their closures. -/
inductive PlanIterator
  | roundRobin (hosts : List Host) (counter planIndex : ℕ)
  | dcAwareRoundRobin (localHostsArray : List Host) (counter planLocalIndex : ℕ)
  | tokenAware (localReplicas : List Host) (startIndex replicaIndex : ℕ) (replicaMap : List (String × Bool))
      (childIterator : PlanIterator)
  | filtered (allowList : List String) (childIterator : PlanIterator)

/-- Whether `replicaMap[address]` is truthy. -/
def inReplicaMap (replicaMap : List (String × Bool)) (h : Host) : Bool :=
  match JsObject.get replicaMap h.address with
  | .own b => b
  | .inherited => true
  | .undefined => false

/-- `next`, of which the loops and the nested calls have some fuel; `none` in the answer is `done`. -/
def PlanIterator.next : ℕ → PlanIterator → Option (Option Host × PlanIterator)
  | 0, _ => none
  | _ + 1, roundRobin hosts counter planIndex =>
      let counter := counter + 1
      if h : counter > hosts.length then some (none, roundRobin hosts counter planIndex)
      else some (some (hosts.get ⟨planIndex % hosts.length, Nat.mod_lt _ (by omega)⟩),
        roundRobin hosts counter (increment planIndex))
  | _ + 1, dcAwareRoundRobin localHostsArray counter planLocalIndex =>
      if h : counter < localHostsArray.length then
        some (some (localHostsArray.get ⟨planLocalIndex % localHostsArray.length, Nat.mod_lt _ (by omega)⟩),
          dcAwareRoundRobin localHostsArray (counter + 1) (increment planLocalIndex))
      else some (none, dcAwareRoundRobin localHostsArray (counter + 1) planLocalIndex)
  | fuel + 1, tokenAware localReplicas startIndex replicaIndex replicaMap childIterator =>
      if h : replicaIndex < localReplicas.length then
        some (some (localReplicas.get ⟨(startIndex + replicaIndex) % localReplicas.length, Nat.mod_lt _ (by omega)⟩),
          tokenAware localReplicas startIndex (replicaIndex + 1) replicaMap childIterator)
      else (skip (next fuel) (inReplicaMap replicaMap) fuel childIterator).map fun (item, childIterator) =>
        (item, tokenAware localReplicas startIndex replicaIndex replicaMap childIterator)
  | fuel + 1, filtered allowList childIterator =>
      (skip (next fuel) (fun h => h.address ∉ allowList) fuel childIterator).map fun (item, childIterator) =>
        (item, filtered allowList childIterator)

namespace Policy

def resolveLocalHosts (hosts : HostMap) (localDc : Option String) : Option (List Host) → List Host
  | some localHostsArray => localHostsArray
  | none => hosts.values.filter fun h => h.datacenter.getD "" ≠ "" ∧ h.datacenter = localDc

/-- The keyspace that counts: an empty text is none. -/
def keyspaceOf (keyspace : String) (executionOptions : Option ExecutionOptions) : String :=
  match executionOptions with
  | some o => if o.keyspace = "" then keyspace else o.keyspace
  | none => keyspace

def replicasFor (client : Client) (keyspace : String) (executionOptions : Option ExecutionOptions) :
    Except String (Option (List Host)) :=
  match executionOptions.bind (·.routingKey) with
  | some routingKey => client.getReplicas (keyspaceOf keyspace executionOptions) routingKey
  | none => .ok none

/-- The index after a plan. -/
def nextIndex (index : ℕ) : ℕ := if maxInt ≤ index + 1 then 0 else index + 1

/-- A plan, or the error of the call, and the policy after it; `random` are the draws. -/
def newQueryPlan (client : Client) : Policy → String → Option ExecutionOptions →
    Draws → Except String PlanIterator × Policy
  | roundRobin none index, _, _, _ => (.error "Load balancing policy not initialized", roundRobin none index)
  | roundRobin (some hosts) index, _, _, _ =>
      (.ok (.roundRobin hosts.values 0 (index % hosts.values.length)), roundRobin (some hosts) (nextIndex index))
  | dcAwareRoundRobin none localDc index localHostsArray, _, _, _ =>
      (.error "Load balancing policy not initialized", dcAwareRoundRobin none localDc index localHostsArray)
  | dcAwareRoundRobin (some hosts) localDc index localHostsArray, _, _, _ =>
      let index := nextIndex index
      let localHostsArray := resolveLocalHosts hosts localDc localHostsArray
      (.ok (.dcAwareRoundRobin localHostsArray 0 index),
        dcAwareRoundRobin (some hosts) localDc index (some localHostsArray))
  | tokenAware childPolicy, keyspace, executionOptions, random =>
      match replicasFor client keyspace executionOptions with
      | .error err => (.error err, tokenAware childPolicy)
      | .ok none =>
          let (iterator, childPolicy) :=
            childPolicy.newQueryPlan client (keyspaceOf keyspace executionOptions) executionOptions random
          (iterator, tokenAware childPolicy)
      | .ok (some replicas) =>
          let localReplicas := replicas.filter fun h => childPolicy.getDistance h = .local
          let replicaMap := localReplicas.foldl (fun m h => JsObject.set m h.address true) []
          let startIndex := ⌊(random 0 : ℚ) * localReplicas.length⌋.toNat
          let (iterator, childPolicy) := childPolicy.newQueryPlan client (keyspaceOf keyspace executionOptions)
            executionOptions fun i => random (i + 1)
          (iterator.map (.tokenAware localReplicas startIndex 0 replicaMap), tokenAware childPolicy)
  | allowList childPolicy l, keyspace, executionOptions, random =>
      let (iterator, childPolicy) := childPolicy.newQueryPlan client keyspace executionOptions random
      (iterator.map (.filtered l), allowList childPolicy l)

/-- The hosts that a plan is to yield, in order. -/
def plan (client : Client) : Policy → String → Option ExecutionOptions →
    Draws → List Host
  | roundRobin hosts index, _, _, _ => (hosts.elim [] HostMap.values).rotate index
  | dcAwareRoundRobin hosts localDc index _, _, _, _ =>
      ((hosts.elim [] HostMap.values).filter fun h => h.datacenter = localDc).rotate (nextIndex index)
  | tokenAware childPolicy, keyspace, executionOptions, random =>
      match replicasFor client keyspace executionOptions with
      | .error _ => []
      | .ok none => childPolicy.plan client (keyspaceOf keyspace executionOptions) executionOptions random
      | .ok (some replicas) =>
          let localReplicas := replicas.filter fun h => childPolicy.getDistance h = .local
          let rest := childPolicy.plan client (keyspaceOf keyspace executionOptions) executionOptions
            fun i => random (i + 1)
          localReplicas.rotate ⌊(random 0 : ℚ) * localReplicas.length⌋.toNat ++ rest.filter fun h => h ∉ localReplicas
  | allowList childPolicy l, keyspace, executionOptions, random =>
      (childPolicy.plan client keyspace executionOptions random).filter fun h => h.address ∈ l

end Policy

/-! ### What an iterator yields -/

theorem steady_next : Steady PlanIterator.next := by
  intro fuel
  induction fuel with
  | zero =>
      intro it r h
      simp only [PlanIterator.next, reduceCtorEq] at h
  | succ fuel ih =>
      intro it r h more hle
      obtain ⟨more, rfl⟩ : ∃ k : ℕ, more = k + 1 := ⟨more - 1, by omega⟩
      have hskip (avoid : Host → Bool) (it : PlanIterator) (r : Option Host × PlanIterator)
          (h : skip (PlanIterator.next fuel) avoid fuel it = some r) :
          skip (PlanIterator.next more) avoid more it = some r :=
        skip_mono (fun s r hs => ih s r hs more (by omega)) (by omega) h
      cases it with
      | roundRobin => exact h
      | dcAwareRoundRobin => exact h
      | tokenAware localReplicas startIndex replicaIndex replicaMap childIterator =>
          simp only [PlanIterator.next] at h ⊢
          split_ifs at h ⊢
          · exact h
          · obtain ⟨answer, hanswer, hr⟩ := Option.map_eq_some_iff.1 h
            rw [hskip _ _ _ hanswer, Option.map_some, hr]
      | filtered allowList childIterator =>
          simp only [PlanIterator.next] at h ⊢
          obtain ⟨answer, hanswer, hr⟩ := Option.map_eq_some_iff.1 h
          rw [hskip _ _ _ hanswer, Option.map_some, hr]

theorem getElem?_rotate_eq_get {l : List Host} {start counter : ℕ} (h : counter < l.length)
    (hlt : (start + counter) % l.length < l.length) :
    (l.rotate start)[counter]? = some (l.get ⟨(start + counter) % l.length, hlt⟩) := by
  rw [List.getElem?_rotate h, Nat.add_comm, List.get_eq_getElem, List.getElem?_eq_getElem]

theorem getElem?_rotate_eq_none {l : List Host} {start counter : ℕ} (h : l.length ≤ counter) :
    (l.rotate start)[counter]? = none :=
  List.getElem?_eq_none (by rwa [List.length_rotate])

theorem increment_eq {n : ℕ} (h : n < maxInt) : increment n = n + 1 := if_pos h

theorem yields_roundRobin (hosts : List Host) {start : ℕ} (hroom : start + hosts.length ≤ maxInt) :
    Yields PlanIterator.next (.roundRobin hosts 0 start) (hosts.rotate start) := by
  have hcounter := Yields.of_counter PlanIterator.next (hosts.rotate start)
    (fun counter => .roundRobin hosts counter (start + min counter hosts.length)) fun counter => ⟨1, ?_⟩
  · rwa [Nat.zero_min] at hcounter
  rw [PlanIterator.next]
  by_cases hlt : counter < hosts.length
  · rw [getElem?_rotate_eq_get hlt (Nat.mod_lt _ (by omega))]
    simp only [dif_neg (show ¬ counter + 1 > hosts.length by omega), min_eq_left hlt.le,
      min_eq_left (show counter + 1 ≤ hosts.length by omega), increment_eq (show start + counter < maxInt by omega)]
    rfl
  · rw [getElem?_rotate_eq_none (by omega)]
    simp only [dif_pos (show counter + 1 > hosts.length by omega),
      min_eq_right (show hosts.length ≤ counter by omega), min_eq_right (show hosts.length ≤ counter + 1 by omega)]

theorem yields_dcAwareRoundRobin {localHostsArray : List Host} {start : ℕ}
    (hroom : start + localHostsArray.length ≤ maxInt) :
    Yields PlanIterator.next (.dcAwareRoundRobin localHostsArray 0 start) (localHostsArray.rotate start) := by
  have hcounter := Yields.of_counter PlanIterator.next (localHostsArray.rotate start)
    (fun counter => .dcAwareRoundRobin localHostsArray counter (start + min counter localHostsArray.length))
    fun counter => ⟨1, ?_⟩
  · rwa [Nat.zero_min] at hcounter
  rw [PlanIterator.next]
  by_cases hlt : counter < localHostsArray.length
  · rw [getElem?_rotate_eq_get hlt (Nat.mod_lt _ (by omega))]
    simp only [dif_pos hlt, min_eq_left hlt.le, min_eq_left (show counter + 1 ≤ localHostsArray.length by omega),
      increment_eq (show start + counter < maxInt by omega)]
    rfl
  · rw [getElem?_rotate_eq_none (by omega)]
    simp only [dif_neg hlt, min_eq_right (show localHostsArray.length ≤ counter by omega),
      min_eq_right (show localHostsArray.length ≤ counter + 1 by omega)]

theorem yields_filtered {childIterator : PlanIterator} {l : List Host} (allowList : List String)
    (h : Yields PlanIterator.next childIterator l) :
    Yields PlanIterator.next (.filtered allowList childIterator) (l.filter fun h => h.address ∈ allowList) := by
  have hskip := (h.skip steady_next fun h => h.address ∉ allowList).map PlanIterator.next (.filtered allowList) ?_
  · simpa using hskip
  · rintro s answer s' ⟨fuel, hfuel⟩
    refine ⟨fuel + 1, ?_⟩
    dsimp only at hfuel
    rw [PlanIterator.next, hfuel, Option.map_some]

theorem yields_tokenAware {childIterator : PlanIterator} {l localReplicas : List Host}
    {replicaMap : List (String × Bool)} (startIndex : ℕ) (h : Yields PlanIterator.next childIterator l) :
    Yields PlanIterator.next (.tokenAware localReplicas startIndex 0 replicaMap childIterator)
      (localReplicas.rotate startIndex ++ l.filter fun h => !inReplicaMap replicaMap h) := by
  refine ⟨fun it l => ∃ replicaIndex childIterator rest,
    it = .tokenAware localReplicas startIndex replicaIndex replicaMap childIterator ∧
    Yields (fun fuel => skip (PlanIterator.next fuel) (inReplicaMap replicaMap) fuel) childIterator rest ∧
    l = (localReplicas.rotate startIndex).drop replicaIndex ++ rest,
    ⟨0, childIterator, _, rfl, h.skip steady_next _, rfl⟩, ?_⟩
  rintro _ _ ⟨replicaIndex, childIterator, rest, rfl, hrest, rfl⟩
  by_cases hlt : replicaIndex < localReplicas.length
  · refine ⟨.tokenAware localReplicas startIndex (replicaIndex + 1) replicaMap childIterator, ⟨1, ?_⟩,
      replicaIndex + 1, childIterator, rest, rfl, hrest, ?_⟩
    · rw [List.head?_append, List.head?_drop, getElem?_rotate_eq_get hlt (Nat.mod_lt _ (by omega)), PlanIterator.next,
        dif_pos hlt]
      rfl
    · rw [← List.tail_drop, List.tail_append_of_ne_nil]
      rw [Ne, List.drop_eq_nil_iff, List.length_rotate]
      omega
  · obtain ⟨s', ⟨fuel, hfuel⟩, hnext⟩ := hrest.step
    have hdrop : (localReplicas.rotate startIndex).drop replicaIndex = [] := by
      rw [List.drop_eq_nil_iff, List.length_rotate]
      omega
    refine ⟨.tokenAware localReplicas startIndex replicaIndex replicaMap s', ⟨fuel + 1, ?_⟩,
      replicaIndex, s', rest.tail, rfl, hnext, by rw [hdrop, List.nil_append, List.nil_append]⟩
    dsimp only at hfuel
    rw [PlanIterator.next, dif_neg hlt, hfuel, hdrop, List.nil_append, Option.map_some]

/-! ### Plans of a policy that was initialized -/

namespace Policy

/-- A policy as its constructor leaves it. -/
def New : Policy → Prop
  | roundRobin hosts index => hosts = none ∧ index = 0
  | dcAwareRoundRobin hosts _ index localHostsArray => hosts = none ∧ index = 0 ∧ localHostsArray = none
  | tokenAware childPolicy => childPolicy.New
  | allowList childPolicy _ => childPolicy.New

/-- A policy that knows its hosts, and whose local hosts are those of its data center. -/
def Ready (hosts : HostMap) : Policy → Prop
  | roundRobin hosts' _ => hosts' = some hosts
  | dcAwareRoundRobin hosts' localDc _ localHostsArray => hosts' = some hosts ∧ localDc.getD "" ≠ "" ∧
      ∀ l ∈ localHostsArray, l = hosts.values.filter fun h => h.datacenter = localDc
  | tokenAware childPolicy => childPolicy.Ready hosts
  | allowList childPolicy _ => childPolicy.Ready hosts

def index : Policy → ℕ
  | roundRobin _ index => index
  | dcAwareRoundRobin _ _ index _ => index
  | tokenAware childPolicy => childPolicy.index
  | allowList childPolicy _ => childPolicy.index

/-- Whether the chain has a token-aware policy. -/
def isTokenAware : Policy → Bool
  | .roundRobin .. => false
  | .dcAwareRoundRobin .. => false
  | .tokenAware _ => true
  | .allowList childPolicy _ => childPolicy.isTokenAware

/-- A round-robin policy that is not wrapped. -/
def isRoundRobin : Policy → Bool
  | roundRobin .. => true
  | dcAwareRoundRobin .. => true
  | tokenAware _ => false
  | allowList _ _ => false

end Policy

/-- The replicas are hosts of the client, each once. -/
def Client.ReplicasIn (client : Client) (hosts : HostMap) : Prop :=
  ∀ keyspace routingKey replicas, client.getReplicas keyspace routingKey = .ok (some replicas) →
    replicas.Nodup ∧ ∀ h ∈ replicas, h ∈ hosts.values

section
variable {client : Client} {hosts : HostMap} {p q : Policy} {keyspace : String}
  {executionOptions : Option ExecutionOptions} {random : Draws}

theorem setLocalDc_ne_empty {localDc : Option String} {dc : String} (h : setLocalDc localDc client hosts = .ok dc) :
    dc ≠ "" := by
  unfold setLocalDc at h
  extract_lets localDc' dcs at h
  split_ifs at h with hunset hfound
  obtain rfl := Except.ok.inj h
  exact hunset

theorem ready_of_init (hnew : p.New) (h : p.init client hosts = .ok q) : q.Ready hosts ∧ q.index = 0 := by
  induction p generalizing q with
  | roundRobin _ index =>
      cases h
      exact ⟨rfl, hnew.2⟩
  | dcAwareRoundRobin _ localDc index localHostsArray =>
      obtain ⟨dc, hdc, rfl⟩ := Fallible.map_eq_ok h
      obtain ⟨-, hindex, rfl⟩ := hnew
      exact ⟨⟨rfl, setLocalDc_ne_empty hdc, by simp⟩, hindex⟩
  | tokenAware childPolicy ih =>
      obtain ⟨child, hchild, rfl⟩ := Fallible.map_eq_ok h
      have hready := ih hnew hchild
      exact hready
  | allowList childPolicy l ih =>
      obtain ⟨child, hchild, rfl⟩ := Fallible.map_eq_ok h
      have hready := ih hnew hchild
      exact hready

theorem resolveLocalHosts_eq {localDc : Option String} {localHostsArray : Option (List Host)}
    (hdc : localDc.getD "" ≠ "")
    (harray : ∀ l ∈ localHostsArray, l = hosts.values.filter fun h => h.datacenter = localDc) :
    Policy.resolveLocalHosts hosts localDc localHostsArray = hosts.values.filter fun h => h.datacenter = localDc := by
  cases localHostsArray with
  | some l => exact harray l rfl
  | none =>
      rw [Policy.resolveLocalHosts]
      apply List.filter_congr
      intro h _
      rw [decide_eq_decide]
      constructor
      · exact And.right
      · rintro rfl
        exact ⟨hdc, rfl⟩

theorem nextIndex_le (index : ℕ) : Policy.nextIndex index ≤ index + 1 := by
  unfold Policy.nextIndex
  split_ifs
  · exact Nat.zero_le _
  · exact le_rfl

/-- What a plan keeps of the policy. -/
structure Kept (hosts : HostMap) (p p' : Policy) : Prop where
  ready : p'.Ready hosts
  index_le : p'.index ≤ p.index + 1
  getDistance_eq : p'.getDistance = p.getDistance
  isTokenAware_eq : p'.isTokenAware = p.isTokenAware

theorem kept_newQueryPlan (client : Client) (hready : p.Ready hosts) (keyspace : String)
    (executionOptions : Option ExecutionOptions) (random : Draws) :
    Kept hosts p (p.newQueryPlan client keyspace executionOptions random).2 := by
  induction p generalizing keyspace random with
  | roundRobin _ index =>
      cases hready
      exact ⟨rfl, nextIndex_le index, rfl, rfl⟩
  | dcAwareRoundRobin _ localDc index localHostsArray =>
      obtain ⟨rfl, hdc, harray⟩ := hready
      refine ⟨⟨rfl, hdc, ?_⟩, nextIndex_le index, rfl, rfl⟩
      rintro _ ⟨⟩
      exact resolveLocalHosts_eq hdc harray
  | tokenAware childPolicy ih =>
      have hself : Kept hosts (.tokenAware childPolicy) (.tokenAware childPolicy) :=
        ⟨hready, Nat.le_succ _, rfl, rfl⟩
      have hwrap {child : Policy} (h : Kept hosts childPolicy child) :
          Kept hosts (.tokenAware childPolicy) (.tokenAware child) :=
        ⟨h.ready, h.index_le, funext fun host => congrFun h.getDistance_eq host, rfl⟩
      rw [Policy.newQueryPlan]
      split
      · exact hself
      · exact hwrap (ih hready _ _)
      · exact hwrap (ih hready _ _)
  | allowList childPolicy l ih =>
      obtain ⟨hchild, hindex, hdistance, htoken⟩ := ih hready keyspace random
      refine ⟨hchild, hindex, funext fun host => ?_, htoken⟩
      change (if host.address ∈ l then _ else _) = (if host.address ∈ l then _ else _)
      rw [hdistance]

/-! ### The hosts of a plan -/

theorem address_injOn (hosts : HostMap) {h h' : Host} (hh : h ∈ hosts.values) (hh' : h' ∈ hosts.values)
    (heq : h.address = h'.address) : h = h' :=
  List.inj_on_of_nodup_map hosts.nodup hh hh' heq

theorem ne_prototypeName (h : Host) : h.address ∉ JsObject.prototypeNames := by
  intro hmem
  have hall : ∀ name ∈ JsObject.prototypeNames, ':' ∉ name.toList := by decide
  exact hall _ hmem h.colon_mem

theorem replicaMap_eq {localReplicas : List Host} (hnodup : (localReplicas.map Host.address).Nodup) :
    localReplicas.foldl (fun m h => JsObject.set m h.address true) [] =
      localReplicas.map fun h => (h.address, true) := by
  have haddresses : (localReplicas.map fun h => (h.address, true)).map Prod.fst = localReplicas.map Host.address := by
    rw [List.map_map]
    rfl
  have hproto : "__proto__" ∉ localReplicas.map Host.address := by
    intro hmem
    obtain ⟨h, -, hname⟩ := List.mem_map.1 hmem
    exact ne_prototypeName h (by rw [hname]; decide)
  rw [← haddresses] at hnodup hproto
  rw [← List.nil_append (localReplicas.map _), ← JsObject.foldl_set_eq hnodup (by simp) hproto, List.foldl_map]

/-- The replica map holds the addresses of the local replicas. -/
theorem inReplicaMap_eq {localReplicas : List Host} (hnodup : localReplicas.Nodup)
    (hin : ∀ h ∈ localReplicas, h ∈ hosts.values) {h : Host} (hh : h ∈ hosts.values) :
    inReplicaMap (localReplicas.foldl (fun m h => JsObject.set m h.address true) []) h =
      decide (h ∈ localReplicas) := by
  have haddresses : (localReplicas.map Host.address).Nodup :=
    hnodup.map_on fun a ha b hb hab => address_injOn hosts (hin a ha) (hin b hb) hab
  rw [replicaMap_eq haddresses, inReplicaMap]
  by_cases hmem : h ∈ localReplicas
  · have hget : JsObject.get (localReplicas.map fun h => (h.address, true)) h.address = .own true :=
      JsObject.get_of_mem (by rwa [List.map_map]) (List.mem_map.2 ⟨h, hmem, rfl⟩)
    rw [hget, decide_eq_true hmem]
  · have hlookup : (localReplicas.map fun h => (h.address, true)).lookup h.address = none := by
      rw [List.lookup_eq_none_iff]
      rintro p hp
      obtain ⟨h', hh', rfl⟩ := List.mem_map.1 hp
      rw [bne_iff_ne]
      intro heq
      exact hmem (address_injOn hosts hh (hin h' hh') heq ▸ hh')
    rw [JsObject.get, hlookup, decide_eq_false hmem]
    simp only [ne_prototypeName h, if_false]

theorem yields_localReplicas {childIterator : PlanIterator} {l localReplicas : List Host}
    (hnodup : localReplicas.Nodup) (hin : ∀ h ∈ localReplicas, h ∈ hosts.values) (hl : ∀ h ∈ l, h ∈ hosts.values)
    (startIndex : ℕ)
    (h : Yields PlanIterator.next childIterator l) :
    Yields PlanIterator.next
      (.tokenAware localReplicas startIndex 0 (localReplicas.foldl (fun m h => JsObject.set m h.address true) [])
        childIterator)
      (localReplicas.rotate startIndex ++ l.filter fun h => h ∉ localReplicas) := by
  have hfilter : l.filter (fun h => h ∉ localReplicas) =
      l.filter fun h => !inReplicaMap (localReplicas.foldl (fun m h => JsObject.set m h.address true) []) h := by
    apply List.filter_congr
    intro host hhost
    rw [inReplicaMap_eq hnodup hin (hl host hhost), decide_not]
  rw [hfilter]
  exact yields_tokenAware startIndex h

/-- The list has the hosts at a local distance, each once. -/
structure Covers (hosts : HostMap) (p : Policy) (l : List Host) : Prop where
  nodup : l.Nodup
  mem_iff : ∀ h, h ∈ l ↔ h ∈ hosts.values ∧ p.getDistance h = .local

theorem values_nodup (hosts : HostMap) : hosts.values.Nodup := List.Nodup.of_map _ hosts.nodup

/-- The local replicas in front of what else the child policy yields. -/
theorem covers_tokenAware {childPolicy : Policy} {localReplicas front rest : List Host}
    (hfront : front.Perm localReplicas) (hnodup : localReplicas.Nodup)
    (hlocal : ∀ h ∈ localReplicas, h ∈ hosts.values ∧ childPolicy.getDistance h = .local)
    (hrest : Covers hosts childPolicy rest) :
    Covers hosts (.tokenAware childPolicy) (front ++ rest.filter fun h => h ∉ localReplicas) := by
  constructor
  · rw [List.nodup_append]
    refine ⟨hfront.nodup_iff.2 hnodup, hrest.nodup.filter _, ?_⟩
    rintro a ha _ hb rfl
    rw [List.mem_filter, decide_eq_true_eq] at hb
    exact hb.2 (hfront.mem_iff.1 ha)
  · intro h
    rw [List.mem_append, List.mem_filter, decide_eq_true_eq, hfront.mem_iff, hrest.mem_iff, Policy.getDistance]
    constructor
    · rintro (hmem | ⟨hmem, -⟩)
      · exact hlocal h hmem
      · exact hmem
    · intro hmem
      by_cases hreplica : h ∈ localReplicas
      · exact .inl hreplica
      · exact .inr ⟨hmem, hreplica⟩

theorem localReplicas_spec (hreplicas : client.ReplicasIn hosts) (childPolicy : Policy) {replicas : List Host}
    (h : Policy.replicasFor client keyspace executionOptions = .ok (some replicas)) :
    (replicas.filter fun h => childPolicy.getDistance h = .local).Nodup ∧
      ∀ host ∈ replicas.filter fun h => childPolicy.getDistance h = .local,
        host ∈ hosts.values ∧ childPolicy.getDistance host = .local := by
  unfold Policy.replicasFor at h
  split at h
  · obtain ⟨hnodup, hin⟩ := hreplicas _ _ _ h
    refine ⟨hnodup.filter _, fun host hhost => ?_⟩
    rw [List.mem_filter, decide_eq_true_eq] at hhost
    exact ⟨hin host hhost.1, hhost.2⟩
  · cases h

/-- A plan that is made has the hosts at a local distance, each once. -/
theorem covers_plan (hready : p.Ready hosts) (hreplicas : client.ReplicasIn hosts) {iterator : PlanIterator}
    (h : (p.newQueryPlan client keyspace executionOptions random).1 = .ok iterator) :
    Covers hosts p (p.plan client keyspace executionOptions random) := by
  induction p generalizing keyspace random iterator with
  | roundRobin _ index =>
      cases hready
      refine ⟨List.nodup_rotate.2 (values_nodup hosts), fun host => ?_⟩
      simp [Policy.plan, Policy.getDistance]
  | dcAwareRoundRobin _ localDc index localHostsArray =>
      obtain ⟨rfl, -, -⟩ := hready
      refine ⟨List.nodup_rotate.2 ((values_nodup hosts).filter _), fun host => ?_⟩
      simp [Policy.plan, Policy.getDistance]
  | tokenAware childPolicy ih =>
      simp only [Policy.newQueryPlan, Policy.plan] at h ⊢
      split at h
      · cases h
      · exact ⟨(ih hready h).nodup, (ih hready h).mem_iff⟩
      · next replicas hfor =>
          obtain ⟨child, hchild, -⟩ := Fallible.map_eq_ok h
          obtain ⟨hnodup, hlocal⟩ := localReplicas_spec hreplicas childPolicy hfor
          exact covers_tokenAware (List.rotate_perm _ _) hnodup hlocal (ih hready hchild)
  | allowList childPolicy l ih =>
      obtain ⟨child, hchild, -⟩ := Fallible.map_eq_ok h
      obtain ⟨hnodup, hmem⟩ := ih hready hchild
      refine ⟨hnodup.filter _, fun host => ?_⟩
      rw [Policy.plan, List.mem_filter, hmem, decide_eq_true_eq, Policy.getDistance]
      split_ifs with hin <;> simp [hin]

/-- A plan that is made yields the hosts of `plan`. -/
theorem yields_newQueryPlan (hready : p.Ready hosts) (hreplicas : client.ReplicasIn hosts)
    (hroom : p.index + hosts.values.length < maxInt) {iterator : PlanIterator}
    (h : (p.newQueryPlan client keyspace executionOptions random).1 = .ok iterator) :
    Yields PlanIterator.next iterator (p.plan client keyspace executionOptions random) := by
  induction p generalizing keyspace random iterator with
  | roundRobin _ index =>
      cases hready
      obtain rfl := Except.ok.inj h
      rw [Policy.plan, Option.elim_some, ← List.rotate_mod]
      apply yields_roundRobin
      have hle := Nat.mod_le index hosts.values.length
      simp only [Policy.index] at hroom
      omega
  | dcAwareRoundRobin _ localDc index localHostsArray =>
      obtain ⟨rfl, hdc, harray⟩ := hready
      obtain rfl := Except.ok.inj h
      rw [resolveLocalHosts_eq hdc harray]
      apply yields_dcAwareRoundRobin
      have hlength := List.length_filter_le (fun h : Host => decide (h.datacenter = localDc)) hosts.values
      have hindex := nextIndex_le index
      simp only [Policy.index] at hroom
      omega
  | tokenAware childPolicy ih =>
      simp only [Policy.newQueryPlan, Policy.plan] at h ⊢
      split at h
      · cases h
      · exact ih hready hroom h
      · next replicas hfor =>
          obtain ⟨child, hchild, rfl⟩ := Fallible.map_eq_ok h
          obtain ⟨hnodup, hlocal⟩ := localReplicas_spec hreplicas childPolicy hfor
          have hready' : childPolicy.Ready hosts := hready
          have hcovers := covers_plan hready' hreplicas hchild
          exact yields_localReplicas hnodup (fun h hh => (hlocal h hh).1) (fun h hh => ((hcovers.mem_iff h).1 hh).1) _
            (ih hready hroom hchild)
  | allowList childPolicy l ih =>
      obtain ⟨child, hchild, rfl⟩ := Fallible.map_eq_ok h
      exact yields_filtered l (ih hready hroom hchild)

/-- The local replicas come first. -/
theorem plan_replicas_first (htoken : p.isTokenAware = true) {replicas : List Host}
    (hfor : Policy.replicasFor client keyspace executionOptions = .ok (some replicas)) :
    ∃ front rest, p.plan client keyspace executionOptions random = front ++ rest ∧
      front.Perm (replicas.filter fun h => p.getDistance h = .local) := by
  induction p with
  | roundRobin => cases htoken
  | dcAwareRoundRobin => cases htoken
  | tokenAware childPolicy _ =>
      simp only [Policy.plan, hfor, Policy.getDistance]
      exact ⟨_, _, rfl, List.rotate_perm _ _⟩
  | allowList childPolicy l ih =>
      obtain ⟨front, rest, hplan, hperm⟩ := ih htoken
      refine ⟨front.filter fun h => h.address ∈ l, rest.filter fun h => h.address ∈ l, ?_, ?_⟩
      · rw [Policy.plan, hplan, List.filter_append]
      · refine (hperm.filter _).trans ?_
        rw [List.filter_filter]
        apply List.Perm.of_eq
        apply List.filter_congr
        intro h _
        rw [Policy.getDistance]
        split_ifs with hin <;> simp [hin]

end

/-! ### A policy and its plans -/

/-- A plan with the request that it was made for and the answers that it has given. -/
structure Plan where
  keyspace : String
  executionOptions : Option ExecutionOptions
  iterator : PlanIterator
  answers : List (Option Host)

structure System where
  policy : Policy
  plans : List Plan

inductive Action
  | newQueryPlan (keyspace : String) (executionOptions : Option ExecutionOptions)
      (random : Draws)
  /-- A call of `next`, with fuel for its loops. -/
  | next (plan fuel : ℕ)

def Action.isNewQueryPlan : Action → Bool
  | newQueryPlan .. => true
  | next .. => false

/-- The callback of `newQueryPlan` gets the plan, or an error. -/
def step (client : Client) (s : System) : Action → Option System
  | .newQueryPlan keyspace executionOptions random =>
      match s.policy.newQueryPlan client keyspace executionOptions random with
      | (.ok iterator, policy) => some ⟨policy, s.plans ++ [⟨keyspace, executionOptions, iterator, []⟩]⟩
      | (.error _, policy) => some ⟨policy, s.plans⟩
  | .next i fuel => do
      let plan ← s.plans[i]?
      let (item, iterator) ← plan.iterator.next fuel
      some { s with plans := s.plans.set i { plan with iterator, answers := plan.answers ++ [item] } }

/-- What the plan has answered, and all that it will, are the hosts of the list, and done after them. -/
def Plan.Gives (plan : Plan) (l : List Host) : Prop :=
  plan.answers = (List.range plan.answers.length).map (l[·]?) ∧
    Yields PlanIterator.next plan.iterator (l.drop plan.answers.length)

theorem Plan.Gives.next {plan : Plan} {l : List Host} (h : plan.Gives l) {fuel : ℕ} {item : Option Host}
    {iterator : PlanIterator} (hnext : plan.iterator.next fuel = some (item, iterator)) :
    Plan.Gives { plan with iterator, answers := plan.answers ++ [item] } l := by
  obtain ⟨hanswers, hyields⟩ := h
  obtain ⟨rfl, hrest⟩ := hyields.of_answers steady_next ⟨fuel, hnext⟩
  refine ⟨?_, ?_⟩
  · simp only [List.length_append, List.length_singleton, List.range_succ, List.map_append, List.map_singleton]
    rw [← hanswers, List.head?_drop]
  · simp only [List.length_append, List.length_singleton]
    rwa [List.tail_drop] at hrest

/-- What a step does: a plan is made, or refused, or asked. -/
theorem step_cases {client : Client} {s s' : System} {a : Action} (h : step client s a = some s') :
    (∃ keyspace executionOptions random iterator, a = .newQueryPlan keyspace executionOptions random ∧
      (s.policy.newQueryPlan client keyspace executionOptions random).1 = .ok iterator ∧
      s' = ⟨(s.policy.newQueryPlan client keyspace executionOptions random).2,
        s.plans ++ [⟨keyspace, executionOptions, iterator, []⟩]⟩) ∨
    (∃ keyspace executionOptions random, a = .newQueryPlan keyspace executionOptions random ∧
      (s.policy.newQueryPlan client keyspace executionOptions random).1.isOk = false ∧
      s' = ⟨(s.policy.newQueryPlan client keyspace executionOptions random).2, s.plans⟩) ∨
    ∃ i fuel plan item iterator, a = .next i fuel ∧ s.plans[i]? = some plan ∧
      plan.iterator.next fuel = some (item, iterator) ∧
      s' = ⟨s.policy, s.plans.set i { plan with iterator, answers := plan.answers ++ [item] }⟩ := by
  cases a with
  | newQueryPlan keyspace executionOptions random =>
      simp only [step] at h
      split at h
      · next iterator policy hplan =>
          obtain rfl := Option.some.inj h
          exact .inl ⟨keyspace, executionOptions, random, iterator, rfl, by rw [hplan], by rw [hplan]⟩
      · next err policy hplan =>
          obtain rfl := Option.some.inj h
          exact .inr (.inl ⟨keyspace, executionOptions, random, rfl, by rw [hplan]; rfl, by rw [hplan]⟩)
  | next i fuel =>
      simp only [step, Option.bind_eq_bind, Option.bind_eq_some_iff] at h
      obtain ⟨plan, hplan, ⟨item, iterator⟩, hnext, hs'⟩ := h
      obtain rfl := Option.some.inj hs'
      exact .inr (.inr ⟨i, fuel, plan, item, iterator, rfl, hplan, hnext, rfl⟩)

/-- The plans so far yield what they should, and the policy is what it was but for its index. -/
structure Inv (client : Client) (hosts : HostMap) (q : Policy) (made : ℕ) (s : System) : Prop where
  ready : s.policy.Ready hosts
  index_le : s.policy.index ≤ made
  getDistance_eq : s.policy.getDistance = q.getDistance
  isTokenAware_eq : s.policy.isTokenAware = q.isTokenAware
  gives : ∀ plan ∈ s.plans, ∃ l, plan.Gives l ∧ Covers hosts q l ∧
    (q.isTokenAware = true → ∀ replicas,
      Policy.replicasFor client plan.keyspace plan.executionOptions = .ok (some replicas) →
      ∃ front rest, l = front ++ rest ∧ front.Perm (replicas.filter fun h => q.getDistance h = .local))

theorem Inv.step {client : Client} {hosts : HostMap} {q : Policy} {made : ℕ} {s s' : System} {a : Action}
    (hreplicas : client.ReplicasIn hosts) (hinv : Inv client hosts q made s)
    (hroom : made + (if a.isNewQueryPlan then 1 else 0) + hosts.values.length < maxInt)
    (h : PolicyChain.step client s a = some s') :
    Inv client hosts q (made + if a.isNewQueryPlan then 1 else 0) s' := by
  obtain ⟨hready, hindex, hdistance, htoken, hgives⟩ := hinv
  obtain ⟨keyspace, executionOptions, random, iterator, rfl, hplan, rfl⟩ |
    ⟨keyspace, executionOptions, random, rfl, -, rfl⟩ |
    ⟨i, fuel, plan, item, iterator, rfl, hplan, hnext, rfl⟩ := step_cases h
  · have hkept := kept_newQueryPlan client hready keyspace executionOptions random
    have hcovers := covers_plan hready hreplicas hplan
    simp only [Action.isNewQueryPlan, if_true] at hroom
    have hyields := yields_newQueryPlan hready hreplicas (by omega) hplan
    refine ⟨hkept.ready, hkept.index_le.trans (Nat.succ_le_succ hindex), hkept.getDistance_eq.trans hdistance,
      hkept.isTokenAware_eq.trans htoken, fun plan hmem => ?_⟩
    rw [List.mem_append, List.mem_singleton] at hmem
    obtain hmem | rfl := hmem
    · exact hgives plan hmem
    · refine ⟨_, ⟨rfl, hyields⟩, ⟨hcovers.nodup, fun host => ?_⟩, fun hq replicas hfor => ?_⟩
      · rw [hcovers.mem_iff, hdistance]
      · rw [← hdistance]
        exact plan_replicas_first (htoken.trans hq) hfor
  · have hkept := kept_newQueryPlan client hready keyspace executionOptions random
    exact ⟨hkept.ready, hkept.index_le.trans (Nat.succ_le_succ hindex), hkept.getDistance_eq.trans hdistance,
      hkept.isTokenAware_eq.trans htoken, hgives⟩
  · refine ⟨hready, hindex, hdistance, htoken, fun plan' hmem => ?_⟩
    obtain hmem | rfl := List.mem_or_eq_of_mem_set hmem
    · exact hgives plan' hmem
    · obtain ⟨l, hl, hrest⟩ := hgives plan (List.mem_of_getElem? hplan)
      exact ⟨l, hl.next hnext, hrest⟩

section
variable {client : Client} {hosts : HostMap} {p q : Policy} {as : List Action} {s : System}

/-- However the calls of the plans follow each other, each plan answers with the hosts at a local distance, each once,
and then with done; the replicas for its key come first. -/
theorem plans_complete (hnew : p.New) (hinit : p.init client hosts = .ok q) (hreplicas : client.ReplicasIn hosts)
    (hrun : Run (step client) ⟨q, []⟩ as s)
    (hroom : as.countP Action.isNewQueryPlan + hosts.values.length < maxInt) :
    ∀ plan ∈ s.plans, ∃ l, plan.Gives l ∧ Covers hosts q l ∧
      (q.isTokenAware = true → ∀ replicas,
        Policy.replicasFor client plan.keyspace plan.executionOptions = .ok (some replicas) →
        ∃ front rest, l = front ++ rest ∧ front.Perm (replicas.filter fun h => q.getDistance h = .local)) := by
  obtain ⟨hready, hindex⟩ := ready_of_init hnew hinit
  have hinv := hrun.history
    (P := fun as s => as.countP Action.isNewQueryPlan + hosts.values.length < maxInt →
      Inv client hosts q (as.countP Action.isNewQueryPlan) s)
    (fun _ => ⟨hready, hindex.le, rfl, rfl, by simp⟩)
    (fun as s a s' ih hstep hroom => ?_)
  · exact (hinv hroom).gives
  · simp only [List.countP_append, List.countP_singleton] at hroom ⊢
    exact (ih (by split_ifs at hroom <;> omega)).step hreplicas hroom hstep

end

/-- The host `n` of a cluster whose even hosts are in the data center `east`. -/
def exampleHost (n : ℕ) : Host where
  address := "127.0.0." ++ toString n ++ ":9042"
  datacenter := some (if n % 2 = 0 then "east" else "west")
  colon_mem := by simp [String.toList_append]

def exampleHosts : HostMap := .fromRust [exampleHost 0, exampleHost 1, exampleHost 2, exampleHost 3]

def exampleClient : Client := ⟨some "east", fun _ _ => .ok (some [exampleHost 1, exampleHost 2])⟩

/-- The chain, with the hosts after `init`. -/
def exampleChain (hosts : Option HostMap) (localDc : Option String) : Policy :=
  .tokenAware (.allowList (.dcAwareRoundRobin hosts localDc 0 none)
    [(exampleHost 0).address, (exampleHost 2).address])

def exampleRequest : Action := .newQueryPlan "ks" (some ⟨some [1], "", none⟩) fun _ => ⟨0, by norm_num⟩

def exampleActions : List Action := [exampleRequest, .next 0 9, exampleRequest, .next 0 9, .next 1 9, .next 0 9]

theorem plans_complete_chain : ∃ s,
    Run (step exampleClient) ⟨exampleChain exampleHosts (some "east"), []⟩ exampleActions s ∧
    ∀ plan ∈ s.plans, ∃ l, plan.Gives l ∧ Covers exampleHosts (exampleChain exampleHosts (some "east")) l ∧
      ((exampleChain exampleHosts (some "east")).isTokenAware = true → ∀ replicas,
        Policy.replicasFor exampleClient plan.keyspace plan.executionOptions = .ok (some replicas) →
        ∃ front rest, l = front ++ rest ∧
          front.Perm (replicas.filter fun h => (exampleChain exampleHosts (some "east")).getDistance h = .local)) := by
  have hreplicas : exampleClient.ReplicasIn exampleHosts := by
    rintro _ _ _ ⟨⟩
    exact ⟨by decide, by decide⟩
  obtain ⟨s, hs⟩ : ∃ s,
      exec (step exampleClient) ⟨exampleChain exampleHosts (some "east"), []⟩ exampleActions = some s := ⟨_, rfl⟩
  exact ⟨s, Run.of_exec hs,
    plans_complete (p := exampleChain none none) ⟨rfl, rfl, rfl⟩ rfl hreplicas (Run.of_exec hs) (by decide)⟩

/-! ### Fairness -/

theorem add_mod_eq_iff {i d r n : ℕ} (hr : r < n) : (i + d) % n = r ↔ i ≡ r + (n - d % n) [MOD n] := by
  have hd : n - d % n + d ≡ 0 [MOD n] := by
    have hlt := Nat.mod_lt d (Nat.zero_lt_of_lt hr)
    have hdiv := Nat.mod_add_div d n
    rw [show n - d % n + d = n * (1 + d / n) by rw [Nat.mul_add]; omega]
    exact (Nat.modEq_zero_iff_dvd).2 (Nat.dvd_mul_right ..)
  have hsum : r + (n - d % n) + d ≡ r [MOD n] := by
    rw [Nat.add_assoc]
    exact Nat.ModEq.add_left r hd
  constructor
  · intro h
    have hid : i + d ≡ r [MOD n] := by rw [Nat.ModEq, h, Nat.mod_eq_of_lt hr]
    exact Nat.ModEq.add_right_cancel' d (hid.trans hsum.symm)
  · intro h
    have hid := (Nat.ModEq.add_right d h).trans hsum
    rwa [Nat.ModEq, Nat.mod_eq_of_lt hr] at hid

/-- The number of the first `n` rotations of a list that have an element at a place. -/
theorem countP_rotations {base : List Host} (hnodup : base.Nodup) {a : Host} (ha : a ∈ base) {place : ℕ}
    (hplace : place < base.length) (offset n : ℕ) :
    ∃ extra ≤ 1, ((List.range n).map fun i => base.rotate (i + offset)).countP (fun l => l[place]? = some a) =
      n / base.length + extra := by
  obtain ⟨r, hr, rfl⟩ := List.getElem_of_mem ha
  have hcount : ((List.range n).map fun i => base.rotate (i + offset)).countP (fun l => l[place]? = some base[r]) =
      n.count (· ≡ r + (base.length - (place + offset) % base.length) [MOD base.length]) := by
    rw [List.countP_map, Nat.count]
    apply List.countP_congr
    intro i _
    have hlt : (place + (i + offset)) % base.length < base.length := Nat.mod_lt _ (by omega)
    rw [Function.comp_apply, decide_eq_true_eq, decide_eq_true_eq, List.getElem?_rotate hplace,
      List.getElem?_eq_getElem hlt, Option.some.injEq, hnodup.getElem_inj_iff, Nat.add_left_comm, add_mod_eq_iff hr]
  rw [hcount, Nat.count_modEq_card _ (by omega)]
  exact ⟨_, by split_ifs <;> omega, rfl⟩

/-- The local hosts of a policy, of which its plans are rotations. -/
def Policy.localHosts (hosts : HostMap) (p : Policy) : List Host :=
  hosts.values.filter fun h => p.getDistance h = .local

/-- The rotation of the first plan. -/
def Policy.offset : Policy → ℕ
  | .dcAwareRoundRobin .. => 1
  | _ => 0

section
variable {hosts : HostMap} {p : Policy}

/-- The client of the driver knows no replicas. -/
theorem replicasIn_ofDriver (localDataCenter : Option String) :
    (Client.ofDriver localDataCenter).ReplicasIn hosts := by
  intro keyspace routingKey replicas h
  cases h

theorem plan_of_isRoundRobin (hready : p.Ready hosts) (hrobin : p.isRoundRobin = true)
    (hroom : p.index + 1 + hosts.values.length < maxInt) (client : Client) (keyspace : String)
    (executionOptions : Option ExecutionOptions) (random : Draws) :
    p.plan client keyspace executionOptions random = (p.localHosts hosts).rotate (p.index + p.offset) := by
  cases p with
  | roundRobin hosts' index =>
      cases hready
      simp [Policy.plan, Policy.localHosts, Policy.getDistance, Policy.index, Policy.offset]
  | dcAwareRoundRobin hosts' localDc index localHostsArray =>
      obtain ⟨rfl, -, -⟩ := hready
      have hnext : Policy.nextIndex index = index + 1 := if_neg (by simp only [Policy.index] at hroom; omega)
      simp [Policy.plan, Policy.localHosts, Policy.getDistance, Policy.index, Policy.offset, hnext]
  | tokenAware childPolicy => cases hrobin
  | allowList childPolicy l => cases hrobin

/-- The plan of a round-robin policy is the rotation at its index, which moves by one. -/
theorem newQueryPlan_of_isRoundRobin (hready : p.Ready hosts) (hrobin : p.isRoundRobin = true)
    (hroom : p.index + 1 + hosts.values.length < maxInt) (client : Client) (keyspace : String)
    (executionOptions : Option ExecutionOptions) (random : Draws) :
    ∃ iterator policy, p.newQueryPlan client keyspace executionOptions random = (.ok iterator, policy) ∧
      Yields PlanIterator.next iterator ((p.localHosts hosts).rotate (p.index + p.offset)) ∧
      policy.index = p.index + 1 ∧ policy.isRoundRobin = true ∧ policy.offset = p.offset := by
  have hnext : Policy.nextIndex p.index = p.index + 1 := if_neg (by omega)
  have hmade : ∃ iterator policy,
      p.newQueryPlan client keyspace executionOptions random = (.ok iterator, policy) ∧
      p.newQueryPlan (.ofDriver none) keyspace executionOptions random = (.ok iterator, policy) ∧
      policy.index = p.index + 1 ∧ policy.isRoundRobin = true ∧ policy.offset = p.offset := by
    cases p with
    | roundRobin hosts' index =>
        cases hready
        exact ⟨_, _, rfl, rfl, hnext, rfl, rfl⟩
    | dcAwareRoundRobin hosts' localDc index localHostsArray =>
        obtain ⟨rfl, -, -⟩ := hready
        exact ⟨_, _, rfl, rfl, hnext, rfl, rfl⟩
    | tokenAware childPolicy => cases hrobin
    | allowList childPolicy l => cases hrobin
  obtain ⟨iterator, policy, hplan, hdriver, hkept⟩ := hmade
  refine ⟨iterator, policy, hplan, ?_, hkept⟩
  rw [← plan_of_isRoundRobin hready hrobin hroom (.ofDriver none) keyspace executionOptions random]
  exact yields_newQueryPlan hready (replicasIn_ofDriver none) (by omega) (by rw [hdriver])

end

/-- The plans of a round-robin policy are the rotations of its local hosts, one after the other. -/
structure Rotations (hosts : HostMap) (q : Policy) (s : System) : Prop where
  ready : s.policy.Ready hosts
  isRoundRobin : s.policy.isRoundRobin = true
  index_eq : s.policy.index = s.plans.length
  getDistance_eq : s.policy.getDistance = q.getDistance
  offset_eq : s.policy.offset = q.offset
  gives : ∀ (i : ℕ) (plan : Plan), s.plans[i]? = some plan → plan.Gives ((q.localHosts hosts).rotate (i + q.offset))

theorem Rotations.step {client : Client} {hosts : HostMap} {q : Policy} {s s' : System} {a : Action}
    (hinv : Rotations hosts q s)
    (hroom : a.isNewQueryPlan = true → s.plans.length + 1 + hosts.values.length < maxInt)
    (h : PolicyChain.step client s a = some s') :
    Rotations hosts q s' ∧ s'.plans.length = s.plans.length + if a.isNewQueryPlan then 1 else 0 := by
  obtain ⟨hready, hrobin, hindex, hdistance, hoffset, hgives⟩ := hinv
  have hlocal : s.policy.localHosts hosts = q.localHosts hosts := by
    rw [Policy.localHosts, hdistance, Policy.localHosts]
  cases a with
  | newQueryPlan keyspace executionOptions random =>
      have hkept := kept_newQueryPlan client hready keyspace executionOptions random
      obtain ⟨iterator, policy, hplan, hyields, hindex', hrobin', hoffset'⟩ :=
        newQueryPlan_of_isRoundRobin hready hrobin (by rw [hindex]; exact hroom rfl) client keyspace executionOptions
          random
      rw [hplan] at hkept
      simp only [PolicyChain.step, hplan, Option.some.injEq] at h
      obtain rfl := h
      refine ⟨⟨hkept.ready, hrobin', ?_, hkept.getDistance_eq.trans hdistance, hoffset'.trans hoffset,
        fun i plan hi => ?_⟩, ?_⟩
      · rw [hindex', hindex, List.length_append, List.length_singleton]
      · rw [List.getElem?_append] at hi
        split_ifs at hi with hlt
        · exact hgives i plan hi
        · rw [List.getElem?_singleton] at hi
          split_ifs at hi with hlast
          obtain rfl := Option.some.inj hi
          refine ⟨rfl, ?_⟩
          rw [hlocal, hoffset, hindex] at hyields
          rwa [show i = s.plans.length by omega]
      · simp [Action.isNewQueryPlan]
  | next i fuel =>
      simp only [PolicyChain.step, Option.bind_eq_bind, Option.bind_eq_some_iff] at h
      obtain ⟨plan, hplan, ⟨item, iterator⟩, hnext, hs'⟩ := h
      obtain rfl := Option.some.inj hs'
      refine ⟨⟨hready, hrobin, ?_, hdistance, hoffset, fun j plan' hj => ?_⟩, ?_⟩
      · rw [hindex, List.length_set]
      · rw [List.getElem?_set] at hj
        split_ifs at hj with hij hlt
        · obtain rfl := Option.some.inj hj
          subst hij
          exact (hgives i plan hplan).next hnext
        · exact hgives j plan' hj
      · simp [Action.isNewQueryPlan]

/-- In the plans that a round-robin policy has made, two local hosts have any given place equally often, but for one
plan. -/
theorem round_robin_fair {client : Client} {hosts : HostMap} {p q : Policy} {as : List Action} {s : System}
    (hnew : p.New) (hinit : p.init client hosts = .ok q) (hrobin : q.isRoundRobin = true)
    (hrun : Run (step client) ⟨q, []⟩ as s) (hroom : as.countP Action.isNewQueryPlan + hosts.values.length < maxInt) :
    ∃ lists, List.Forall₂ Plan.Gives s.plans lists ∧
      ∀ (place : ℕ) (a b : Host), a ∈ hosts.values → q.getDistance a = .local →
        b ∈ hosts.values → q.getDistance b = .local →
        lists.countP (fun l => l[place]? = some a) ≤ lists.countP (fun l => l[place]? = some b) + 1 := by
  obtain ⟨hready, hindex⟩ := ready_of_init hnew hinit
  have hinv := hrun.history
    (P := fun as s => as.countP Action.isNewQueryPlan + hosts.values.length < maxInt →
      Rotations hosts q s ∧ s.plans.length = as.countP Action.isNewQueryPlan)
    (fun _ => ⟨⟨hready, hrobin, hindex, rfl, rfl, by simp⟩, rfl⟩)
    (fun as s a s' ih hstep hroom => ?_)
  · obtain ⟨hrotations, -⟩ := hinv hroom
    refine ⟨(List.range s.plans.length).map fun i => (q.localHosts hosts).rotate (i + q.offset), ?_, ?_⟩
    · rw [List.forall₂_iff_get]
      refine ⟨by simp, fun i hi _ => ?_⟩
      simpa using hrotations.gives i _ (List.getElem?_eq_getElem hi)
    · intro place a b ha hla hb hlb
      have hmem {h : Host} (hh : h ∈ hosts.values) (hlocal : q.getDistance h = .local) : h ∈ q.localHosts hosts := by
        simp [Policy.localHosts, hh, hlocal]
      have hnodup : (q.localHosts hosts).Nodup := (values_nodup hosts).filter _
      by_cases hplace : place < (q.localHosts hosts).length
      · obtain ⟨extra, hextra, hcount⟩ := countP_rotations hnodup (hmem ha hla) hplace q.offset s.plans.length
        obtain ⟨extra', -, hcount'⟩ := countP_rotations hnodup (hmem hb hlb) hplace q.offset s.plans.length
        omega
      · have hzero : ((List.range s.plans.length).map fun i => (q.localHosts hosts).rotate (i + q.offset)).countP
            (fun l => l[place]? = some a) = 0 := by
          rw [List.countP_eq_zero]
          intro l hl
          obtain ⟨i, -, rfl⟩ := List.mem_map.1 hl
          rw [getElem?_rotate_eq_none (by omega)]
          simp
        omega
  · simp only [List.countP_append, List.countP_singleton] at hroom ⊢
    obtain ⟨hrotations, hlength⟩ := ih (by split_ifs at hroom <;> omega)
    obtain ⟨hrotations', hlength'⟩ := hrotations.step (fun hmade => by rw [if_pos hmade] at hroom; omega) hstep
    exact ⟨hrotations', by rw [hlength', hlength]⟩

theorem round_robin_fair_hosts : ∃ s, Run (step exampleClient) ⟨.roundRobin exampleHosts 0, []⟩
      [exampleRequest, exampleRequest, .next 0 1] s ∧
    ∃ lists, List.Forall₂ Plan.Gives s.plans lists ∧
      ∀ (place : ℕ) (a b : Host), a ∈ exampleHosts.values → (Policy.roundRobin exampleHosts 0).getDistance a = .local →
        b ∈ exampleHosts.values → (Policy.roundRobin exampleHosts 0).getDistance b = .local →
        lists.countP (fun l => l[place]? = some a) ≤ lists.countP (fun l => l[place]? = some b) + 1 := by
  obtain ⟨s, hs⟩ : ∃ s, exec (step exampleClient) ⟨.roundRobin exampleHosts 0, []⟩
      [exampleRequest, exampleRequest, .next 0 1] = some s := ⟨_, rfl⟩
  exact ⟨s, Run.of_exec hs,
    round_robin_fair (p := .roundRobin none 0) ⟨rfl, rfl⟩ rfl rfl (Run.of_exec hs) (by decide)⟩

end CqlDriver.PolicyChain
