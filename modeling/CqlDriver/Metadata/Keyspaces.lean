import CqlDriver.Lib.TransitionSystem
import CqlDriver.Metadata.NetworkStrategy

/-! # Replicas of a keyspace over a session (`lib/metadata/index.js`)

The metadata of a session are the ring of the last `buildTokens` and the keyspaces that the last refreshes
have loaded.  A keyspace keeps the replica table that the first `getReplicas` has computed for it; a refresh
loads keyspaces without table, while `buildTokens` leaves the tables as they are.  As long as a new ring
comes before the tables, `getReplicas` gives what the strategy computes from the last ring
(`getReplicas_latest`). -/

namespace CqlDriver.Metadata

open TransitionSystem

variable {T : Type} [LinearOrder T]

/-- What the schema tables say of a keyspace. -/
structure KeyspaceInfo where
  name : String
  strategy : String
  strategyOptions : StrategyOptions

/-- A keyspace, with its replica table when that has been computed. -/
structure Keyspace where
  info : KeyspaceInfo
  replicas : Option ReplicaTable

/-- `_createKeyspace` -/
def KeyspaceInfo.create (info : KeyspaceInfo) : Keyspace := ⟨info, none⟩

/-- `keyspace.tokenToReplica` on a ring. -/
def Keyspace.tokenToReplica (ks : Keyspace) (m : TokenMap T) : Except TypeError ReplicaTable :=
  Metadata.tokenToReplica ks.info.strategy ks.info.strategyOptions m.ringTokensAsStrings m.primaryReplicas
    m.datacenters

/-- The fields of `Metadata`; there is no ring before the first `buildTokens`. -/
structure State (T : Type) where
  initialized : Bool
  tokenMap : Option (TokenMap T)
  keyspaces : String → Option Keyspace

/-- A new `Metadata`. -/
def State.create (initialized : Bool) : State T := ⟨initialized, none, fun _ => none⟩

/-! ### The operations -/

/-- `keyspaces[ksInfo.name] = ksInfo` -/
def setKeyspace (keyspaces : String → Option Keyspace) (info : KeyspaceInfo) : String → Option Keyspace :=
  Function.update keyspaces info.name (some info.create)

/-- `getKeyspaces` of the schema parser. -/
def loadKeyspaces (infos : List KeyspaceInfo) : String → Option Keyspace :=
  infos.foldl setKeyspace fun _ => none

/-- `_getKeyspaceReplicas`, and the keyspace after it. -/
def getKeyspaceReplicas (m : TokenMap T) (ks : Keyspace) : Except TypeError (ReplicaTable × Keyspace) :=
  match ks.replicas with
  | some table => .ok (table, ks)
  | none => (ks.tokenToReplica m).map fun table => (table, { ks with replicas := some table })

/-- `replicas[closestToken]` -/
def replicasAt (table : ReplicaTable) (closestToken : Option String) : Replicas :=
  match closestToken.bind table with
  | some hs => .hosts hs
  | none => .undefined

/-- `getReplicas`, and the state after it.  Without a tokenizer there is no ring. -/
def getReplicas (tokenizer : Option (Tokenizer T)) (s : State T) (keyspaceName : Option String)
    (target : Target T) : Except TypeError Replicas × State T :=
  match tokenizer, s.tokenMap with
  | some tokenizer, some m =>
      let token := target.toToken tokenizer
      let name := keyspaceName.getD ""
      if name = "" then (.ok (m.primaryReplica token), s)
      else
        match s.keyspaces name with
        | none => (.ok .null, s)
        | some ks =>
            match getKeyspaceReplicas m ks with
            | .error e => (.error e, s)
            | .ok (table, ks) =>
                (.ok (replicasAt table (m.closestToken token)),
                  { s with keyspaces := Function.update s.keyspaces name (some ks) })
  | _, _ => (.ok .null, s)

/-- A call, with the answer of the schema tables; a failed query has none. -/
inductive Action (T : Type) where
  | buildTokens (hosts : List Host)
  | refreshKeyspace (name : String) (answer : Option (Option KeyspaceInfo))
  | refreshKeyspaces (answer : Option (List KeyspaceInfo))
  | getReplicas (keyspaceName : Option String) (target : Target T)

/-- The state after a call, which can always be made. -/
def step (tokenizer : Option (Tokenizer T)) (s : State T) : Action T → Option (State T)
  | .buildTokens hosts =>
      match tokenizer with
      | none => some s
      | some tokenizer => some { s with tokenMap := some (buildTokens tokenizer hosts) }
  | .refreshKeyspace name answer =>
      if s.initialized then
        match answer with
        | none => some s
        -- the keyspace was dropped
        | some none => some { s with keyspaces := Function.update s.keyspaces name none }
        | some (some info) => some { s with keyspaces := setKeyspace s.keyspaces info }
      else some s
  | .refreshKeyspaces answer =>
      if s.initialized then
        match answer with
        | none => some s
        | some infos => some { s with keyspaces := loadKeyspaces infos }
      else some s
  | .getReplicas keyspaceName target => some (getReplicas tokenizer s keyspaceName target).2

/-! ### Fresh tables -/

/-- The hosts that a call builds a ring of. -/
def Action.hosts : Action T → Option (List Host)
  | .buildTokens hosts => some hosts
  | _ => none

/-- The hosts of the last `buildTokens`. -/
def latestHosts (calls : List (Action T)) : Option (List Host) := (calls.filterMap Action.hosts).getLast?

/-- The table that a keyspace has is that of the ring. -/
def Keyspace.Fresh (tokenMap : Option (TokenMap T)) (ks : Keyspace) : Prop :=
  ∀ table, ks.replicas = some table → ∃ m, tokenMap = some m ∧ ks.tokenToReplica m = .ok table

def State.Fresh (s : State T) : Prop := ∀ name ks, s.keyspaces name = some ks → ks.Fresh s.tokenMap

/-- A ring is built before the tables of the loaded keyspaces are computed, or it is the one they are
computed from. -/
def RingBeforeTables (tokenizer : Tokenizer T) (s : State T) : Action T → Prop
  | .buildTokens hosts => s.tokenMap = some (buildTokens tokenizer hosts) ∨
      ∀ name ks, s.keyspaces name = some ks → ks.replicas = none
  | _ => True

theorem forall_update {P : Keyspace → Prop} {keyspaces : String → Option Keyspace}
    (h : ∀ name ks, keyspaces name = some ks → P ks) {name : String} {x : Option Keyspace}
    (hx : ∀ ks, x = some ks → P ks) :
    ∀ name' ks, Function.update keyspaces name x name' = some ks → P ks := by
  intro name' ks hks
  by_cases heq : name' = name
  · subst heq
    rw [Function.update_self] at hks
    exact hx ks hks
  · rw [Function.update_of_ne heq] at hks
    exact h name' ks hks

/-- A keyspace that a refresh stores has no table. -/
theorem forall_setKeyspace {P : Keyspace → Prop} (hcreate : ∀ ks : Keyspace, ks.replicas = none → P ks)
    {keyspaces : String → Option Keyspace} (h : ∀ name ks, keyspaces name = some ks → P ks)
    (info : KeyspaceInfo) : ∀ name ks, setKeyspace keyspaces info name = some ks → P ks := by
  apply forall_update h
  intro ks hks
  obtain rfl := Option.some.inj hks
  exact hcreate info.create rfl

theorem forall_loadKeyspaces {P : Keyspace → Prop} (hcreate : ∀ ks : Keyspace, ks.replicas = none → P ks)
    (infos : List KeyspaceInfo) : ∀ name ks, loadKeyspaces infos name = some ks → P ks := by
  have hfold (keyspaces : String → Option Keyspace) (h : ∀ name ks, keyspaces name = some ks → P ks) :
      ∀ name ks, infos.foldl setKeyspace keyspaces name = some ks → P ks := by
    induction infos generalizing keyspaces with
    | nil => exact h
    | cons info infos ih => exact ih _ (forall_setKeyspace hcreate h info)
  exact hfold _ fun _ _ hnone => by cases hnone

omit [LinearOrder T] in
/-- A computed table is stored with the keyspace. -/
theorem getKeyspaceReplicas_fresh {m : TokenMap T} {ks ks' : Keyspace} {table : ReplicaTable}
    (hfresh : ks.Fresh (some m)) (h : getKeyspaceReplicas m ks = .ok (table, ks')) :
    ks.tokenToReplica m = .ok table ∧ ks'.Fresh (some m) := by
  unfold getKeyspaceReplicas at h
  cases hreplicas : ks.replicas with
  | some table' =>
      rw [hreplicas] at h
      obtain ⟨rfl, rfl⟩ := Prod.mk.inj (Except.ok.inj h)
      obtain ⟨m', hm, htable⟩ := hfresh table' hreplicas
      obtain rfl := Option.some.inj hm
      exact ⟨htable, hfresh⟩
  | none =>
      rw [hreplicas] at h
      obtain ⟨table', htable, heq⟩ := Fallible.map_eq_ok h
      obtain ⟨rfl, rfl⟩ := Prod.mk.inj heq
      refine ⟨htable, fun table'' htable'' => ⟨m, rfl, ?_⟩⟩
      obtain rfl := Option.some.inj htable''
      exact htable

/-- `getReplicas` changes nothing but the table of a keyspace. -/
theorem getReplicas_state (tokenizer : Option (Tokenizer T)) (s : State T) (keyspaceName : Option String)
    (target : Target T) :
    (getReplicas tokenizer s keyspaceName target).2 = s ∨
      ∃ m name ks table ks', s.tokenMap = some m ∧ s.keyspaces name = some ks ∧
        getKeyspaceReplicas m ks = .ok (table, ks') ∧
        (getReplicas tokenizer s keyspaceName target).2 =
          { s with keyspaces := Function.update s.keyspaces name (some ks') } := by
  unfold getReplicas
  cases tokenizer with
  | none => exact .inl rfl
  | some tokenizer =>
      cases hm : s.tokenMap with
      | none => exact .inl rfl
      | some m =>
          dsimp only
          split_ifs with hname
          · exact .inl rfl
          · cases hks : s.keyspaces (keyspaceName.getD "") with
            | none => exact .inl rfl
            | some ks =>
                dsimp only
                cases htable : getKeyspaceReplicas m ks with
                | error e => exact .inl rfl
                | ok r => exact .inr ⟨m, _, ks, r.1, r.2, rfl, hks, htable, rfl⟩

/-- What a call can do: build a ring, or leave the ring and give keyspaces no table, the table they had, or
that of the ring. -/
theorem step_cases {tokenizer : Tokenizer T} {s s' : State T} {call : Action T}
    (hs : step (some tokenizer) s call = some s') :
    (∃ hosts, call = .buildTokens hosts ∧ s' = { s with tokenMap := some (buildTokens tokenizer hosts) }) ∨
      (call.hosts = none ∧ s'.tokenMap = s.tokenMap ∧ ∀ P : Keyspace → Prop,
        (∀ ks, ks.replicas = none → P ks) → (∀ name ks, s.keyspaces name = some ks → P ks) →
        (∀ m name ks table ks', s.tokenMap = some m → s.keyspaces name = some ks →
          getKeyspaceReplicas m ks = .ok (table, ks') → P ks') →
        ∀ name ks, s'.keyspaces name = some ks → P ks) := by
  cases call with
  | buildTokens hosts => exact .inl ⟨hosts, rfl, (Option.some.inj hs).symm⟩
  | refreshKeyspace name answer =>
      refine .inr ⟨rfl, ?_⟩
      simp only [step] at hs
      split_ifs at hs with hinit
      · match answer, hs with
        | none, hs =>
            obtain rfl := Option.some.inj hs
            exact ⟨rfl, fun P _ hold _ => hold⟩
        | some none, hs =>
            obtain rfl := Option.some.inj hs
            exact ⟨rfl, fun P _ hold _ => forall_update hold fun ks hks => by cases hks⟩
        | some (some info), hs =>
            obtain rfl := Option.some.inj hs
            exact ⟨rfl, fun P hcreate hold _ => forall_setKeyspace hcreate hold info⟩
      · obtain rfl := Option.some.inj hs
        exact ⟨rfl, fun P _ hold _ => hold⟩
  | refreshKeyspaces answer =>
      refine .inr ⟨rfl, ?_⟩
      simp only [step] at hs
      split_ifs at hs with hinit
      · match answer, hs with
        | none, hs =>
            obtain rfl := Option.some.inj hs
            exact ⟨rfl, fun P _ hold _ => hold⟩
        | some infos, hs =>
            obtain rfl := Option.some.inj hs
            exact ⟨rfl, fun P hcreate _ _ => forall_loadKeyspaces hcreate infos⟩
      · obtain rfl := Option.some.inj hs
        exact ⟨rfl, fun P _ hold _ => hold⟩
  | getReplicas keyspaceName target =>
      obtain rfl := Option.some.inj hs
      refine .inr ⟨rfl, ?_⟩
      obtain heq | ⟨m, name, ks, table, ks', hm, hks, htable, heq⟩ :=
        getReplicas_state (some tokenizer) s keyspaceName target
      · rw [heq]
        exact ⟨rfl, fun P _ hold _ => hold⟩
      · rw [heq]
        refine ⟨rfl, fun P _ hold hcompute => forall_update hold fun ks'' hsome => ?_⟩
        obtain rfl := Option.some.inj hsome
        exact hcompute m name ks table ks' hm hks htable

/-- A call that builds no ring too late keeps the tables fresh. -/
theorem State.Fresh.step {tokenizer : Tokenizer T} {s s' : State T} {call : Action T} (h : s.Fresh)
    (hcall : RingBeforeTables tokenizer s call) (hs : step (some tokenizer) s call = some s') : s'.Fresh := by
  obtain ⟨hosts, rfl, rfl⟩ | ⟨-, hmap, hkeyspaces⟩ := step_cases hs
  · obtain hsame | hnone := hcall
    · rwa [← hsame]
    · intro name ks hks table htable
      rw [hnone name ks hks] at htable
      cases htable
  · refine hkeyspaces (Keyspace.Fresh s'.tokenMap) ?_ ?_ ?_
    · intro ks hnone table htable
      rw [hnone] at htable
      cases htable
    · rw [hmap]
      exact h
    · intro m name ks table ks' hm hks htable
      have hfresh := h name ks hks
      rw [hm] at hfresh
      rw [hmap, hm]
      exact (getKeyspaceReplicas_fresh hfresh htable).2

/-! ### Tables of a ring -/

section Tables

variable {tokenizer : Tokenizer T} {hosts : List Host}

/-- What the strategy of a keyspace computes for a token. -/
def Keyspace.strategyReplicas (ks : Keyspace) (m : TokenMap T) (token : T) : Except TypeError Replicas :=
  (ks.tokenToReplica m).map fun table => replicasAt table (m.closestToken token)

/-- The text of the closest token is one of the ring. -/
theorem exists_closestToken (tokenizer : Tokenizer T) (hne : allTokens hosts ≠ []) (token : T) :
    ∃ key ∈ (buildTokens tokenizer hosts).ringTokensAsStrings,
      (buildTokens tokenizer hosts).closestToken token = some key := by
  have hpos := ring_length_pos tokenizer hne
  have hlen : (buildTokens tokenizer hosts).ringTokensAsStrings.length =
      (buildTokens tokenizer hosts).ring.length := List.length_map _
  unfold TokenMap.closestToken
  dsimp only
  generalize SortedSearch.position _ = i
  have hi : (if (buildTokens tokenizer hosts).ring.length ≤ i then i % (buildTokens tokenizer hosts).ring.length
      else i) < (buildTokens tokenizer hosts).ringTokensAsStrings.length := by
    rw [hlen]
    split_ifs with hle
    · exact Nat.mod_lt _ hpos
    · omega
  exact ⟨_, List.getElem_mem hi, List.getElem?_eq_getElem hi⟩

theorem addHost_datacenters_ne_none (b : Build T) (h : Host) {dc : String} (hdc : b.datacenters dc ≠ none) :
    (addHost tokenizer b h).datacenters dc ≠ none := by
  by_cases htokens : h.tokens = none
  · unfold addHost
    rw [htokens]
    exact hdc
  · rw [addHost_datacenters tokenizer b htokens, addDatacenter]
    by_cases heq : dc = h.dcKey
    · rw [heq, Function.update_self]
      exact Option.some_ne_none _
    · rw [Function.update_of_ne heq]
      exact hdc

/-- The table has the data center of every host with tokens. -/
theorem datacenters_ne_none {h : Host} (hh : h ∈ hosts) (htokens : h.tokens ≠ none) :
    (buildTokens tokenizer hosts).datacenters h.dcKey ≠ none := by
  have hfold (b : Build T) (hb : h ∈ hosts ∨ b.datacenters h.dcKey ≠ none) :
      (hosts.foldl (addHost tokenizer) b).datacenters h.dcKey ≠ none := by
    clear hh
    induction hosts generalizing b with
    | nil => exact hb.resolve_left (List.not_mem_nil)
    | cons h' hosts ih =>
        apply ih _
        obtain hb | hb := hb
        · obtain rfl | hb := List.mem_cons.1 hb
          · right
            rw [addHost_datacenters tokenizer b htokens, addDatacenter, Function.update_self]
            exact Option.some_ne_none _
          · exact .inl hb
        · exact .inr (addHost_datacenters_ne_none b h' hb)
  exact hfold _ (.inl hh)

/-- Every token of the ring has an owner, whose data center is in the table. -/
theorem exists_owner {key : String} (hkey : key ∈ (buildTokens tokenizer hosts).ringTokensAsStrings) :
    ∃ h, (buildTokens tokenizer hosts).primaryReplicas key = some h ∧
      (buildTokens tokenizer hosts).datacenters h.dcKey ≠ none := by
  obtain ⟨t, ht, rfl⟩ := List.mem_map.1 hkey
  obtain ⟨s, hs, rfl⟩ := List.mem_map.1 ((ring_perm tokenizer hosts).mem_iff.1 ht)
  have hkey : tokenizer.stringify (tokenizer.parse s) ∈
      (allTokens hosts).map (tokenizer.stringify ∘ tokenizer.parse) := List.mem_map.2 ⟨s, hs, rfl⟩
  obtain ⟨h, hh, heq, htoken⟩ := exists_primaryReplica hkey
  refine ⟨h, heq, datacenters_ne_none hh fun hnone => ?_⟩
  rw [Host.tokenList, hnone] at htoken
  cases htoken

theorem networkReplicas_ok {options : StrategyOptions} {datacenters : String → Option Datacenter}
    {walk : List (Option Host)} (hwalk : ∀ x ∈ walk, ∃ h, x = some h ∧ datacenters h.dcKey ≠ none)
    (p : Placement) : ∃ hs, networkReplicas options datacenters walk p = .ok hs := by
  induction walk generalizing p with
  | nil => exact ⟨_, rfl⟩
  | cons x walk ih =>
      obtain ⟨h, rfl, hdc⟩ := hwalk x (by simp)
      obtain ⟨dc, hdc⟩ := Option.ne_none_iff_exists'.1 hdc
      have hvisit : ∃ r, visitReplica options datacenters p (some h) = .ok r := by
        simp only [visitReplica, hdc]
        split_ifs
        · exact ⟨_, rfl⟩
        · split
          · exact ⟨_, rfl⟩
          · split_ifs
            · exact ⟨_, rfl⟩
            · exact ⟨_, rfl⟩
      obtain ⟨⟨p', done⟩, hvisit⟩ := hvisit
      rw [networkReplicas, hvisit]
      cases done with
      | false => exact ih (fun y hy => hwalk y (List.mem_cons_of_mem _ hy)) p'
      | true => exact ⟨_, rfl⟩

theorem tableOf_ne_none {entries : List (String × List (Option Host))} {key : String}
    (h : key ∈ entries.map Prod.fst) : tableOf entries key ≠ none := by
  induction entries using List.reverseRecOn with
  | nil => cases h
  | append_singleton entries entry ih =>
      unfold tableOf at ih ⊢
      rw [List.foldl_append, List.foldl_cons, List.foldl_nil, ReplicaTable.assign]
      by_cases heq : key = entry.1
      · rw [heq, Function.update_self]
        exact Option.some_ne_none _
      · rw [Function.update_of_ne heq]
        apply ih
        rw [List.map_append, List.mem_append] at h
        exact h.resolve_right fun hmem => heq (by simpa using hmem)

/-- A strategy computes a table with all tokens of the ring. -/
theorem tokenToReplica_ok (tokenizer : Tokenizer T) (hosts : List Host) (ks : Keyspace) :
    ∃ table, ks.tokenToReplica (buildTokens tokenizer hosts) = .ok table ∧
      ∀ key ∈ (buildTokens tokenizer hosts).ringTokensAsStrings, table key ≠ none := by
  have howner : ∀ key ∈ (buildTokens tokenizer hosts).ringTokensAsStrings, ∃ h,
      (buildTokens tokenizer hosts).primaryReplicas key = some h ∧
        (buildTokens tokenizer hosts).datacenters h.dcKey ≠ none := fun key => exists_owner
  unfold Keyspace.tokenToReplica tokenToReplica
  generalize (buildTokens tokenizer hosts).ringTokensAsStrings = ring at howner ⊢
  generalize (buildTokens tokenizer hosts).primaryReplicas = primaryReplicas at howner ⊢
  generalize (buildTokens tokenizer hosts).datacenters = datacenters at howner ⊢
  dsimp only
  split_ifs
  · refine ⟨_, rfl, fun key hkey => tableOf_ne_none ?_⟩
    rwa [map_fst_zipIdx]
  · have hwalk (i : ℕ) : ∀ x ∈ walkFrom ring primaryReplicas i, ∃ h, x = some h ∧ datacenters h.dcKey ≠ none := by
      intro x hx
      obtain ⟨key, hkey, rfl⟩ := mem_walkFrom.1 hx
      exact howner key hkey
    choose hs hrun using fun i => networkReplicas_ok (hwalk i) .start
    refine ⟨_, tokenNetworkStrategy_eq hrun, fun key hkey => tableOf_ne_none ?_⟩
    rwa [map_fst_zipIdx]
  · refine ⟨_, rfl, fun key hkey => ?_⟩
    obtain ⟨h, hh, -⟩ := howner key hkey
    rw [noStrategy, hh]
    exact Option.some_ne_none _

end Tables

/-! ### Whole sessions -/

/-- The ring is that of the last `buildTokens`. -/
theorem tokenMap_eq {tokenizer : Tokenizer T} {initialized : Bool} {calls : List (Action T)} {s : State T}
    (hrun : Run (step (some tokenizer)) (.create initialized) calls s) :
    s.tokenMap = (latestHosts calls).map (buildTokens tokenizer) := by
  refine hrun.history (P := fun calls s => s.tokenMap = (latestHosts calls).map (buildTokens tokenizer)) rfl ?_
  intro calls s₁ call s₂ hmap hs
  unfold latestHosts at hmap ⊢
  rw [List.filterMap_append, List.filterMap_cons, List.filterMap_nil]
  obtain ⟨hosts, rfl, rfl⟩ | ⟨hnone, hkeep, -⟩ := step_cases hs
  · simp [Action.hosts]
  · rw [hkeep, hnone, hmap, List.append_nil]

theorem Fresh.run {tokenizer : Tokenizer T} {initialized : Bool} {calls : List (Action T)} {s : State T}
    (hrun : Run (step (some tokenizer)) (.create initialized) calls s)
    (hcalls : ∀ before call after s₁, calls = before ++ call :: after →
      Run (step (some tokenizer)) (.create initialized) before s₁ → RingBeforeTables tokenizer s₁ call) :
    s.Fresh := by
  induction hrun with
  | nil =>
      intro name ks hks
      cases hks
  | @snoc s₁ s₂ calls call hrun hs ih =>
      refine (ih fun before call' after s₁' heq hbefore => ?_).step (hcalls calls call [] s₁ rfl hrun) hs
      exact hcalls before call' (after ++ [call]) s₁' (by rw [heq, List.append_assoc, List.cons_append]) hbefore

/-- The result for a loaded keyspace whose table is fresh. -/
theorem getReplicas_of_fresh (tokenizer : Tokenizer T) {s : State T} {m : TokenMap T}
    (hm : s.tokenMap = some m) {name : String} (hname : name ≠ "") {ks : Keyspace} (hks : s.keyspaces name = some ks)
    (hfresh : ks.Fresh (some m)) (target : Target T) :
    (getReplicas (some tokenizer) s (some name) target).1 =
      ks.strategyReplicas m (target.toToken tokenizer) := by
  unfold getReplicas Keyspace.strategyReplicas
  rw [hm]
  dsimp only [Option.getD_some]
  rw [if_neg hname, hks]
  dsimp only
  cases htable : getKeyspaceReplicas m ks with
  | ok r =>
      obtain ⟨table, ks'⟩ := r
      rw [(getKeyspaceReplicas_fresh hfresh htable).1]
      rfl
  | error e =>
      unfold getKeyspaceReplicas at htable
      cases hreplicas : ks.replicas with
      | some table =>
          rw [hreplicas] at htable
          cases htable
      | none =>
          rw [hreplicas] at htable
          cases hcompute : ks.tokenToReplica m with
          | ok table =>
              rw [hcompute] at htable
              cases htable
          | error e' =>
              rw [hcompute] at htable
              cases htable
              rfl

/-- One host with a token. -/
def oneHost (address token : String) : Host := ⟨address, some "dc1", some "r1", some [token]⟩

def simpleKeyspace : KeyspaceInfo := ⟨"ks", "SimpleStrategy", [("replication_factor", "1")]⟩

/-- A ring, a keyspace and a lookup. -/
def lookupCalls : List (Action ℕ) :=
  [.buildTokens [oneHost "10.0.0.1" "10"], .refreshKeyspace "ks" (some (some simpleKeyspace)),
    .getReplicas (some "ks") (.token 10)]

theorem lookupCalls_ringBeforeTables (before : List (Action ℕ)) (call : Action ℕ) (after : List (Action ℕ))
    (s : State ℕ) (heq : lookupCalls = before ++ call :: after)
    (hrun : Run (step (some decimalTokenizer)) (.create true) before s) :
    RingBeforeTables decimalTokenizer s call := by
  cases call with
  | buildTokens hosts =>
      match before, heq with
      | [], heq =>
          rw [hrun.eq_of_nil rfl]
          exact .inr fun name ks hks => by cases hks
      | [_], heq => simp [lookupCalls] at heq
      | [_, _], heq => simp [lookupCalls] at heq
      | _ :: _ :: _ :: _, heq => simp [lookupCalls] at heq
  | refreshKeyspace name answer => trivial
  | refreshKeyspaces answer => trivial
  | getReplicas keyspaceName target => trivial

/-- The ring of another host follows. -/
def staleCalls : List (Action ℕ) := lookupCalls ++ [.buildTokens [oneHost "10.0.0.2" "20"]]

/-- The table of the first ring is still there. -/
theorem staleCalls_undefined :
    ((exec (step (some decimalTokenizer)) (.create true) staleCalls).bind fun s =>
      (s.keyspaces "ks").map fun ks =>
        ((getReplicas (some decimalTokenizer) s (some "ks") (.token 20)).1.toOption,
          (ks.strategyReplicas (buildTokens decimalTokenizer [oneHost "10.0.0.2" "20"]) 20).toOption)) =
      some (some .undefined, some (.hosts [some (oneHost "10.0.0.2" "20")])) := by
  decide +kernel

end CqlDriver.Metadata
