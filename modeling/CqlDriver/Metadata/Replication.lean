import CqlDriver.Lib.JsObject
import CqlDriver.Metadata.TokenRing
import CqlDriver.TypeParams

/-! # Replication strategies (`lib/metadata/schema-parser.js`)

`getTokenToReplicaMapper` gives every keyspace the function that computes its replica table: from the
tokens of the ring, the owner of each token and the table of the data centers to the list of replicas of
every token.  The options of a strategy are a plain object of texts; reading a factor that is not there,
also one that `Object.prototype` has, gives `NaN`. -/

namespace CqlDriver.Metadata

/-- A `TypeError` with its message. -/
structure TypeError where
  message : String
deriving DecidableEq, Repr

/-- Reading a property of `undefined`. -/
def undefinedRead (property : String) : TypeError :=
  ⟨"Cannot read properties of undefined (reading '" ++ property ++ "')"⟩

/-- The options of a strategy. -/
abbrev StrategyOptions : Type := List (String × String)

/-- `parseInt(options[name], 10)`; `none` is `NaN`. -/
def StrategyOptions.number (options : StrategyOptions) (name : String) : Option ℤ :=
  match JsObject.get options name with
  | .own text => parseInt text.toList
  | .inherited => none
  | .undefined => none

/-- The replicas of each token, by the text of the token. -/
abbrev ReplicaTable : Type := String → Option (List (Option Host))

/-- `replicas[key] = tokenReplicas` -/
def ReplicaTable.assign (replicas : ReplicaTable) (entry : String × List (Option Host)) : ReplicaTable :=
  Function.update replicas entry.1 (some entry.2)

/-- The table after the assignments in order. -/
def tableOf (entries : List (String × List (Option Host))) : ReplicaTable :=
  entries.foldl ReplicaTable.assign fun _ => none

/-- The owners that a walk around the ring meets, from position `i` on. -/
def walkFrom (ringTokensAsStrings : List String) (primaryReplicas : String → Option Host) (i : ℕ) :
    List (Option Host) :=
  (ringTokensAsStrings.rotate i).map primaryReplicas

/-! ### Without a strategy, and `SimpleStrategy` -/

/-- The properties of `primaryReplicas` are the tokens of the ring. -/
def noStrategy (primaryReplicas : String → Option Host) : ReplicaTable :=
  fun key => (primaryReplicas key).map fun h => [some h]

/-- The loop over the other positions, until there are `rf` replicas. -/
def simpleReplicas (rf : ℕ) : List (Option Host) → List (Option Host) → List (Option Host)
  | [], tokenReplicas => tokenReplicas
  | nextReplica :: walk, tokenReplicas =>
      if tokenReplicas.length < rf then
        simpleReplicas rf walk
          (if nextReplica ∈ tokenReplicas then tokenReplicas else tokenReplicas ++ [nextReplica])
      else tokenReplicas

def tokenSimpleStrategy (replicationFactor : ℕ) (ringTokensAsStrings : List String)
    (primaryReplicas : String → Option Host) : ReplicaTable :=
  let rf := min replicationFactor ringTokensAsStrings.length
  tableOf <| ringTokensAsStrings.zipIdx.map fun (key, i) =>
    let walk := walkFrom ringTokensAsStrings primaryReplicas i
    (key, simpleReplicas rf walk.tail [primaryReplicas key])

/-! ### `NetworkTopologyStrategy` -/

/-- The variables of the walk for one token. -/
structure Placement where
  tokenReplicas : List Host
  replicasByDc : String → ℕ
  racksPlaced : String → HashSet String
  skippedHosts : List Host

def Placement.start : Placement := ⟨[], fun _ => 0, fun _ => .empty, []⟩

/-- The skipped hosts that are added; the result of the function is their number. -/
def addSkippedHosts (dcRf : ℤ) (dcReplicas : ℕ) (skippedHosts : List Host) : List Host :=
  skippedHosts.take (dcRf - dcReplicas).toNat

def isDoneForToken (replicationFactors : StrategyOptions) (datacenters : String → Option Datacenter)
    (replicasByDc : String → ℕ) : Bool :=
  (replicationFactors.map Prod.fst).all fun dcName =>
    match datacenters dcName, replicationFactors.number dcName with
    -- a data center that is not in the topology
    | none, _ => true
    | some _, none => true
    | some dc, some factor =>
        let rf := min factor dc.hostLength
        !(decide (0 < rf) && (replicasByDc dcName == 0 || decide (replicasByDc dcName < rf)))

/-- The host has a rack, and its name is not empty. -/
def Host.hasRack (h : Host) : Bool := h.rack.getD "" != ""

/-- The part of the loop body after the factor of the data center; whether the walk is over. -/
def placeHost (isDone : (String → ℕ) → Bool) (dcRf : ℤ) (racks : ℕ) (p : Placement) (h : Host) :
    Placement × Bool :=
  let dc := h.dcKey
  let dcReplicas := p.replicasByDc dc
  let racksPlacedInDc := p.racksPlaced dc
  if dcRf ≤ dcReplicas then (p, false)
  else if h.hasRack && racksPlacedInDc.contains h.rackKey && decide (racksPlacedInDc.length < racks) then
    if (p.skippedHosts.length : ℤ) < dcRf - dcReplicas then
      ({ p with skippedHosts := p.skippedHosts ++ [h] }, false)
    else (p, false)
  else
    let dcReplicas := dcReplicas + 1
    let tokenReplicas := p.tokenReplicas ++ [h]
    if h.hasRack then
      let (racksPlacedInDc, added) := racksPlacedInDc.add h.rackKey
      let racksPlaced := Function.update p.racksPlaced dc racksPlacedInDc
      let skipped :=
        if added && racksPlacedInDc.length == racks then addSkippedHosts dcRf dcReplicas p.skippedHosts
        else []
      let replicasByDc := Function.update p.replicasByDc dc (dcReplicas + skipped.length)
      (⟨tokenReplicas ++ skipped, replicasByDc, racksPlaced, p.skippedHosts⟩, isDone replicasByDc)
    else
      let replicasByDc := Function.update p.replicasByDc dc dcReplicas
      (⟨tokenReplicas, replicasByDc, p.racksPlaced, p.skippedHosts⟩, isDone replicasByDc)

/-- The body of the loop over the positions. -/
def visitReplica (replicationFactors : StrategyOptions) (datacenters : String → Option Datacenter)
    (p : Placement) : Option Host → Except TypeError (Placement × Bool)
  | none => .error (undefinedRead "datacenter")
  | some h =>
      if h ∈ p.tokenReplicas then .ok (p, false)
      else
        match replicationFactors.number h.dcKey with
        | none => .ok (p, false)
        | some factor =>
            if factor = 0 then .ok (p, false)
            else
              match datacenters h.dcKey with
              | none => .error (undefinedRead "hostLength")
              | some dc =>
                  .ok (placeHost (isDoneForToken replicationFactors datacenters)
                    (min factor dc.hostLength) dc.racks.length p h)

/-- The loop over the positions, which ends when all data centers have their replicas. -/
def networkReplicas (replicationFactors : StrategyOptions) (datacenters : String → Option Datacenter) :
    List (Option Host) → Placement → Except TypeError (List Host)
  | [], p => .ok p.tokenReplicas
  | h :: walk, p => do
      let (p, done) ← visitReplica replicationFactors datacenters p h
      if done then return p.tokenReplicas else networkReplicas replicationFactors datacenters walk p

def tokenNetworkStrategy (replicationFactors : StrategyOptions) (ringTokensAsStrings : List String)
    (primaryReplicas : String → Option Host) (datacenters : String → Option Datacenter) :
    Except TypeError ReplicaTable := do
  let entries ← ringTokensAsStrings.zipIdx.mapM fun (key, i) => do
    let walk := walkFrom ringTokensAsStrings primaryReplicas i
    let tokenReplicas ← networkReplicas replicationFactors datacenters walk .start
    return (key, tokenReplicas.map some)
  return tableOf entries

/-! ### `getTokenToReplicaMapper` -/

/-- The text ends in a name. -/
def endsWith (text name : String) : Bool := name.toList.isSuffixOf text.toList

/-- The function of a keyspace that computes its replica table.  A simple strategy with a factor of at
most 1, or without one, has the primary replicas only. -/
def tokenToReplica (strategy : String) (strategyOptions : StrategyOptions)
    (ringTokensAsStrings : List String) (primaryReplicas : String → Option Host)
    (datacenters : String → Option Datacenter) : Except TypeError ReplicaTable :=
  let rf := strategyOptions.number "replication_factor"
  if endsWith strategy "SimpleStrategy" && decide (1 < rf.getD 0) then
    .ok (tokenSimpleStrategy (rf.getD 0).toNat ringTokensAsStrings primaryReplicas)
  else if endsWith strategy "NetworkTopologyStrategy" then
    tokenNetworkStrategy strategyOptions ringTokensAsStrings primaryReplicas datacenters
  else .ok (noStrategy primaryReplicas)

/-! ### Tables -/

theorem foldl_assign_of_not_mem {entries : List (String × List (Option Host))} {key : String}
    (hnot : key ∉ entries.map Prod.fst) (table : ReplicaTable) :
    entries.foldl ReplicaTable.assign table key = table key := by
  induction entries generalizing table with
  | nil => rfl
  | cons entry entries ih =>
      rw [List.map_cons, List.mem_cons, not_or] at hnot
      rw [List.foldl_cons, ih hnot.2, ReplicaTable.assign, Function.update_of_ne hnot.1]

theorem tableOf_eq_some {entries : List (String × List (Option Host))} (hnodup : (entries.map Prod.fst).Nodup)
    {key : String} {hs : List (Option Host)} (hmem : (key, hs) ∈ entries) : tableOf entries key = some hs := by
  unfold tableOf
  generalize (fun _ => none : ReplicaTable) = table
  induction entries generalizing table with
  | nil => cases hmem
  | cons entry entries ih =>
      rw [List.map_cons, List.nodup_cons] at hnodup
      rw [List.foldl_cons]
      obtain rfl | hmem := List.mem_cons.1 hmem
      · rw [foldl_assign_of_not_mem hnodup.1, ReplicaTable.assign, Function.update_self]
      · exact ih hnodup.2 hmem _

/-- The keys of a table with an entry for every token. -/
theorem map_fst_zipIdx (ring : List String) (f : String × ℕ → List (Option Host)) :
    (ring.zipIdx.map fun x => (x.1, f x)).map Prod.fst = ring := by
  rw [List.map_map]
  exact List.zipIdx_map_fst 0 ring

end CqlDriver.Metadata
