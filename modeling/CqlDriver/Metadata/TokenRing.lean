import CqlDriver.Lib.SortedSearch

/-! # The token ring (`lib/metadata/index.js`, `lib/token.js`)

`buildTokens` collects the tokens of all hosts in a sorted ring, with the host that owns each token, the
ranges between neighbours and a table of the data centers.  A token of a key belongs to the first ring
token that is not before it: `getReplicas` finds it with a binary search, `TokenRange.contains` by
comparing with the ends of a range.  The two agree on every token (`ring_ownership`).

The tokenizer is a parameter.  Names of data centers and racks index plain objects; those objects are
functions here. -/

namespace CqlDriver.Metadata

open SortedSearch

variable {T : Type}

structure Tokenizer (T : Type) where
  parse : String → T
  stringify : T → String
  hash : List UInt8 → T
  minToken : T

structure Host where
  address : String
  datacenter : Option String
  rack : Option String
  tokens : Option (List String)
deriving DecidableEq, Repr

namespace Host

/-- `null` as a property name. -/
def dcKey (h : Host) : String := h.datacenter.getD "null"

def rackKey (h : Host) : String := h.rack.getD "null"

/-- The tokens of a host, none if they are not known. -/
def tokenList (h : Host) : List String := h.tokens.getD []

end Host

/-! ### `utils.HashSet` -/

structure HashSet (α : Type) where
  items : List α
deriving DecidableEq, Repr

namespace HashSet

variable {α : Type} [DecidableEq α]

def empty : HashSet α := ⟨[]⟩

def length (s : HashSet α) : ℕ := s.items.length

def contains (s : HashSet α) (key : α) : Bool := decide (key ∈ s.items)

/-- The set with the key, and whether it was added. -/
def add (s : HashSet α) (key : α) : HashSet α × Bool :=
  if s.contains key then (s, false) else (⟨s.items ++ [key]⟩, true)

end HashSet

/-! ### Token ranges -/

/-- The range `]start, stop]`. -/
structure TokenRange (T : Type) where
  start : T
  stop : T
deriving DecidableEq

namespace TokenRange

variable [LinearOrder T] (minToken : T)

def isEmpty (r : TokenRange T) : Bool := r.start = r.stop ∧ r.start ≠ minToken

def isWrappedAround (r : TokenRange T) : Bool := r.stop < r.start ∧ r.stop ≠ minToken

def contains (r : TokenRange T) (token : T) : Bool :=
  if r.isEmpty minToken then false
  else if r.stop = minToken then
    -- ]minToken, minToken] is the full ring
    if r.start = minToken then true
    else if token = minToken then true
    else decide (r.start < token)
  else
    let isAfterStart := decide (r.start < token)
    let isBeforeEnd := decide (token ≤ r.stop)
    if r.isWrappedAround minToken then isAfterStart || isBeforeEnd else isAfterStart && isBeforeEnd

end TokenRange

/-! ### `buildTokens` -/

structure Datacenter where
  hostLength : ℕ
  racks : HashSet String
deriving DecidableEq

/-- The fields that `buildTokens` sets. -/
structure TokenMap (T : Type) where
  ring : List T
  primaryReplicas : String → Option Host
  tokenRanges : List (TokenRange T)
  ringTokensAsStrings : List String
  datacenters : String → Option Datacenter

/-- The variables of the loop over the hosts. -/
structure Build (T : Type) where
  allSorted : List T
  primaryReplicas : String → Option Host
  datacenters : String → Option Datacenter

variable [LinearOrder T]

def addToken (tokenizer : Tokenizer T) (h : Host) (b : Build T) (tokenString : String) : Build T :=
  let token := tokenizer.parse tokenString
  { b with
    allSorted := insertSorted b.allSorted token
    primaryReplicas := Function.update b.primaryReplicas (tokenizer.stringify token) (some h) }

/-- The entry of the data center of a host. -/
def addDatacenter (datacenters : String → Option Datacenter) (h : Host) : String → Option Datacenter :=
  let dc := (datacenters h.dcKey).getD ⟨0, .empty⟩
  Function.update datacenters h.dcKey (some ⟨dc.hostLength + 1, (dc.racks.add h.rackKey).1⟩)

def addHost (tokenizer : Tokenizer T) (b : Build T) (h : Host) : Build T :=
  match h.tokens with
  | none => b
  | some tokens =>
      let b := tokens.foldl (addToken tokenizer h) b
      { b with datacenters := addDatacenter b.datacenters h }

/-- The ranges between neighbours on the ring. -/
def buildRanges (minToken : T) (ring : List T) : List (TokenRange T) :=
  if ring.length = 1 then [⟨minToken, minToken⟩]
  else (List.range ring.length).map fun i =>
    ⟨ring.getD i minToken, ring.getD ((i + 1) % ring.length) minToken⟩

def buildTokens (tokenizer : Tokenizer T) (hosts : List Host) : TokenMap T :=
  let b := hosts.foldl (addHost tokenizer) ⟨[], fun _ => none, fun _ => none⟩
  { ring := b.allSorted
    primaryReplicas := b.primaryReplicas
    tokenRanges := buildRanges tokenizer.minToken b.allSorted
    ringTokensAsStrings := b.allSorted.map tokenizer.stringify
    datacenters := b.datacenters }

/-! ### Replicas of a token -/

/-- What `getReplicas` takes: a serialized partition key, a token or a range. -/
inductive Target (T : Type) where
  | buffer (bytes : List UInt8)
  | token (t : T)
  | range (r : TokenRange T)

def Target.toToken (tokenizer : Tokenizer T) : Target T → T
  | buffer bytes => tokenizer.hash bytes
  | token t => t
  | range r => r.stop

/-- What `getReplicas` returns. -/
inductive Replicas where
  | null
  | undefined
  | hosts (hs : List (Option Host))
deriving DecidableEq

/-- `closestToken`; on an empty ring the index is `NaN`. -/
def TokenMap.closestToken (m : TokenMap T) (token : T) : Option String :=
  let i := position (binarySearch m.ring token)
  let i := if m.ring.length ≤ i then i % m.ring.length else i
  m.ringTokensAsStrings[i]?

/-- `getReplicas(undefined, target)` -/
def TokenMap.primaryReplica (m : TokenMap T) (token : T) : Replicas :=
  .hosts [(m.closestToken token).bind m.primaryReplicas]

/-! ### The ring -/

/-- The tokens of all hosts. -/
def allTokens (hosts : List Host) : List String := hosts.flatMap Host.tokenList

theorem allTokens_cons (h : Host) (hosts : List Host) :
    allTokens (h :: hosts) = h.tokenList ++ allTokens hosts := List.flatMap_cons

theorem foldl_addToken (tokenizer : Tokenizer T) (h : Host) (tokens : List String) (b : Build T) :
    (tokens.foldl (addToken tokenizer h) b).allSorted =
        (tokens.map tokenizer.parse).foldl insertSorted b.allSorted ∧
      (tokens.foldl (addToken tokenizer h) b).datacenters = b.datacenters := by
  induction tokens generalizing b with
  | nil => exact ⟨rfl, rfl⟩
  | cons s tokens ih => exact ih _

theorem addHost_allSorted (tokenizer : Tokenizer T) (b : Build T) (h : Host) :
    (addHost tokenizer b h).allSorted = (h.tokenList.map tokenizer.parse).foldl insertSorted b.allSorted := by
  unfold addHost Host.tokenList
  cases h.tokens with
  | none => rfl
  | some tokens => exact (foldl_addToken tokenizer h tokens b).1

theorem ring_eq (tokenizer : Tokenizer T) (hosts : List Host) :
    (buildTokens tokenizer hosts).ring = ((allTokens hosts).map tokenizer.parse).foldl insertSorted [] := by
  have hfold (b : Build T) : (hosts.foldl (addHost tokenizer) b).allSorted =
      ((allTokens hosts).map tokenizer.parse).foldl insertSorted b.allSorted := by
    induction hosts generalizing b with
    | nil => rfl
    | cons h hosts ih =>
        rw [List.foldl_cons, ih, addHost_allSorted, allTokens_cons, List.map_append, List.foldl_append]
  exact hfold _

section Ring

variable {tokenizer : Tokenizer T} {hosts : List Host}

/-- The ring has the tokens of all hosts. -/
theorem ring_perm (tokenizer : Tokenizer T) (hosts : List Host) :
    (buildTokens tokenizer hosts).ring.Perm ((allTokens hosts).map tokenizer.parse) := by
  rw [ring_eq]
  exact foldl_insertSorted_perm _ []

/-- The ring has the tokens of all hosts in order. -/
theorem ring_pairwise (hnodup : ((allTokens hosts).map tokenizer.parse).Nodup) :
    (buildTokens tokenizer hosts).ring.Pairwise (· < ·) := by
  rw [ring_eq]
  exact foldl_insertSorted .nil hnodup

/-! ### Owners -/

/-- The host has the token. -/
def Owns (tokenizer : Tokenizer T) (h : Host) (t : T) : Prop := ∃ s ∈ h.tokenList, tokenizer.parse s = t

/-- The keys of `primaryReplicas` that a list of tokens sets. -/
theorem foldl_addToken_primaryReplicas (h : Host) (tokens : List String) (b : Build T) (key : String) :
    (tokens.foldl (addToken tokenizer h) b).primaryReplicas key =
      if key ∈ tokens.map (tokenizer.stringify ∘ tokenizer.parse) then some h else b.primaryReplicas key := by
  induction tokens generalizing b with
  | nil => simp
  | cons s tokens ih =>
      rw [List.foldl_cons, ih]
      simp only [addToken, Function.update_apply, List.map_cons, List.mem_cons, Function.comp_apply]
      by_cases hmem : key ∈ tokens.map (tokenizer.stringify ∘ tokenizer.parse)
      · simp [hmem]
      · simp [hmem]

theorem addHost_primaryReplicas (b : Build T) (h : Host) (key : String) :
    (addHost tokenizer b h).primaryReplicas key =
      if key ∈ h.tokenList.map (tokenizer.stringify ∘ tokenizer.parse) then some h
      else b.primaryReplicas key := by
  unfold addHost Host.tokenList
  cases h.tokens with
  | none => simp
  | some tokens => exact foldl_addToken_primaryReplicas h tokens b key

/-- A key that a token of some host has is mapped to a host with such a token. -/
theorem exists_primaryReplica {key : String}
    (hkey : key ∈ (allTokens hosts).map (tokenizer.stringify ∘ tokenizer.parse)) :
    ∃ h ∈ hosts, (buildTokens tokenizer hosts).primaryReplicas key = some h ∧
      key ∈ h.tokenList.map (tokenizer.stringify ∘ tokenizer.parse) := by
  have hfold (b : Build T) : (hosts.foldl (addHost tokenizer) b).primaryReplicas key =
        b.primaryReplicas key ∧ key ∉ (allTokens hosts).map (tokenizer.stringify ∘ tokenizer.parse) ∨
      ∃ h ∈ hosts, (hosts.foldl (addHost tokenizer) b).primaryReplicas key = some h ∧
        key ∈ h.tokenList.map (tokenizer.stringify ∘ tokenizer.parse) := by
    clear hkey
    induction hosts generalizing b with
    | nil => exact .inl ⟨rfl, by simp [allTokens]⟩
    | cons h hosts ih =>
        rw [List.foldl_cons]
        obtain ⟨heq, hnot⟩ | ⟨h', hh', heq, hmem⟩ := ih (addHost tokenizer b h)
        · rw [heq, addHost_primaryReplicas]
          by_cases hmem : key ∈ h.tokenList.map (tokenizer.stringify ∘ tokenizer.parse)
          · exact .inr ⟨h, List.mem_cons_self .., by rw [if_pos hmem], hmem⟩
          · refine .inl ⟨by rw [if_neg hmem], ?_⟩
            rw [allTokens_cons, List.map_append, List.mem_append, not_or]
            exact ⟨hmem, hnot⟩
        · exact .inr ⟨h', List.mem_cons_of_mem _ hh', heq, hmem⟩
  exact (hfold _).resolve_left fun h => h.2 hkey

/-- The primary replica of a ring token owns it. -/
theorem primaryReplicas_of_mem_ring
    (hinverse : ∀ s ∈ allTokens hosts,
      tokenizer.parse (tokenizer.stringify (tokenizer.parse s)) = tokenizer.parse s)
    {t : T} (ht : t ∈ (buildTokens tokenizer hosts).ring) :
    ∃ h ∈ hosts, (buildTokens tokenizer hosts).primaryReplicas (tokenizer.stringify t) = some h ∧
      Owns tokenizer h t := by
  obtain ⟨s, hs, rfl⟩ := List.mem_map.1 ((ring_perm tokenizer hosts).mem_iff.1 ht)
  have hkey : tokenizer.stringify (tokenizer.parse s) ∈
      (allTokens hosts).map (tokenizer.stringify ∘ tokenizer.parse) := List.mem_map.2 ⟨s, hs, rfl⟩
  obtain ⟨h, hh, heq, hmem⟩ := exists_primaryReplica hkey
  refine ⟨h, hh, heq, ?_⟩
  obtain ⟨s', hs', hkey'⟩ := List.mem_map.1 hmem
  have hall : s' ∈ allTokens hosts := List.mem_flatMap.2 ⟨h, hh, hs'⟩
  refine ⟨s', hs', ?_⟩
  rw [← hinverse s' hall, ← hinverse s hs]
  exact congrArg tokenizer.parse hkey'

omit [LinearOrder T] in
/-- A token has one owner. -/
theorem Owns.unique (hnodup : ((allTokens hosts).map tokenizer.parse).Nodup) {h h' : Host} (hh : h ∈ hosts)
    (hh' : h' ∈ hosts) {t : T} (ht : Owns tokenizer h t) (ht' : Owns tokenizer h' t) : h = h' := by
  obtain ⟨s, hs, rfl⟩ := ht
  obtain ⟨s', hs', heq⟩ := ht'
  by_contra hne
  have hmap : (allTokens hosts).map tokenizer.parse = hosts.flatMap fun h => h.tokenList.map tokenizer.parse := by
    rw [allTokens, List.map_flatMap]
  rw [hmap, List.nodup_flatMap] at hnodup
  have hdisjoint := List.pairwise_iff_getElem.1 hnodup.2
  obtain ⟨i, hi, rfl⟩ := List.getElem_of_mem hh
  obtain ⟨j, hj, rfl⟩ := List.getElem_of_mem hh'
  have h₁ : tokenizer.parse s ∈ hosts[i].tokenList.map tokenizer.parse := List.mem_map.2 ⟨s, hs, rfl⟩
  have h₂ : tokenizer.parse s ∈ hosts[j].tokenList.map tokenizer.parse := List.mem_map.2 ⟨s', hs', heq⟩
  obtain hlt | rfl | hlt := lt_trichotomy i j
  · exact hdisjoint i j hi hj hlt h₁ h₂
  · exact hne rfl
  · exact hdisjoint j i hj hi hlt h₂ h₁

end Ring

/-! ### Ranges -/

section Ranges

variable {ring : List T} {minToken : T}

theorem getD_lt_iff (hring : ring.Pairwise (· < ·)) {i : ℕ} (hi : i < ring.length) (t : T) :
    ring.getD i minToken < t ↔ i < rank ring t := by
  rw [List.getD_eq_getElem?_getD, List.getElem?_eq_getElem hi, Option.getD_some]
  constructor
  · intro hlt
    by_contra hge
    exact absurd (le_getElem?_of_rank_le hring (not_lt.1 hge) (List.getElem?_eq_getElem hi)) (not_le.2 hlt)
  · intro hlt
    exact getElem?_lt_of_lt_rank hlt (List.getElem?_eq_getElem hi)

theorem getD_lt_getD (hring : ring.Pairwise (· < ·)) {i j : ℕ} (hij : i < j) (hj : j < ring.length) :
    ring.getD i minToken < ring.getD j minToken := by
  rw [List.getD_eq_getElem?_getD, List.getElem?_eq_getElem (by omega), List.getD_eq_getElem?_getD,
    List.getElem?_eq_getElem hj]
  exact List.pairwise_iff_getElem.1 hring i j (by omega) hj hij

/-- The range between two neighbours. -/
theorem contains_of_lt {r : TokenRange T} (hmin : ∀ t, minToken ≤ t) (h : r.start < r.stop) (t : T) :
    r.contains minToken t = true ↔ r.start < t ∧ t ≤ r.stop := by
  have hstop : r.stop ≠ minToken := ((hmin r.start).trans_lt h).ne'
  have hempty : r.isEmpty minToken = false := by simp [TokenRange.isEmpty, h.ne]
  have hwrap : r.isWrappedAround minToken = false := by simp [TokenRange.isWrappedAround, h.le]
  simp [TokenRange.contains, hempty, hstop, hwrap]

/-- The range from the last token to the first, also when the first is the minimum token. -/
theorem contains_of_gt {r : TokenRange T} (hmin : ∀ t, minToken ≤ t) (h : r.stop < r.start) (t : T) :
    r.contains minToken t = true ↔ r.start < t ∨ t ≤ r.stop := by
  have hempty : r.isEmpty minToken = false := by simp [TokenRange.isEmpty, h.ne']
  by_cases hstop : r.stop = minToken
  · have hstart : r.start ≠ minToken := by rintro heq; rw [heq, hstop] at h; exact lt_irrefl _ h
    have hle : t ≤ r.stop ↔ t = minToken := by
      rw [hstop]
      exact ⟨fun hle => le_antisymm hle (hmin t), fun heq => heq.le⟩
    rw [hle]
    simp only [TokenRange.contains, hempty, hstop, hstart, Bool.false_eq_true, if_false, if_true]
    by_cases ht : t = minToken
    · simp [ht]
    · simp [ht]
  · have hwrap : r.isWrappedAround minToken = true := by simp [TokenRange.isWrappedAround, h, hstop]
    simp [TokenRange.contains, hempty, hstop, hwrap]

/-- The `i`-th range of a ring of more than one token has the tokens whose rank is that of its end. -/
theorem contains_range_iff (hring : ring.Pairwise (· < ·)) (hmin : ∀ t, minToken ≤ t)
    (hlen : 1 < ring.length) {i : ℕ} (hi : i < ring.length) (t : T) :
    (TokenRange.mk (ring.getD i minToken) (ring.getD ((i + 1) % ring.length) minToken)).contains minToken t =
      true ↔ (i + 1) % ring.length = rank ring t % ring.length := by
  have hrank := rank_le_length ring t
  have hmod : rank ring t % ring.length = if rank ring t = ring.length then 0 else rank ring t := by
    split_ifs with h
    · rw [h, Nat.mod_self]
    · exact Nat.mod_eq_of_lt (by omega)
  by_cases hlast : i + 1 = ring.length
  · have hlt : ring.getD 0 minToken < ring.getD i minToken := getD_lt_getD hring (by omega) hi
    rw [hlast, Nat.mod_self, hmod, contains_of_gt hmin hlt, getD_lt_iff hring hi, ← not_lt,
      getD_lt_iff hring (by omega)]
    by_cases hr : rank ring t = ring.length
    · rw [if_pos hr]
      omega
    · rw [if_neg hr]
      omega
  · have hsucc : (i + 1) % ring.length = i + 1 := Nat.mod_eq_of_lt (by omega)
    have hlt : ring.getD i minToken < ring.getD (i + 1) minToken :=
      getD_lt_getD hring (Nat.lt_succ_self i) (by omega)
    rw [hsucc, hmod, contains_of_lt hmin hlt, getD_lt_iff hring hi, ← not_lt, getD_lt_iff hring (by omega)]
    by_cases hr : rank ring t = ring.length
    · rw [if_pos hr]
      omega
    · rw [if_neg hr]
      omega

theorem succ_mod {n i : ℕ} (hi : i < n) : (i + 1) % n = if i + 1 = n then 0 else i + 1 := by
  split_ifs with h
  · rw [h, Nat.mod_self]
  · exact Nat.mod_eq_of_lt (by omega)

/-- Every position of the ring has one before it. -/
theorem exists_pred {n k : ℕ} (hk : k < n) : ∃ i < n, (i + 1) % n = k := by
  obtain hk0 | hk0 := Nat.eq_zero_or_pos k
  · exact ⟨n - 1, by omega, by rw [succ_mod (by omega), if_pos (by omega), hk0]⟩
  · exact ⟨k - 1, by omega, by rw [succ_mod (by omega), if_neg (by omega)]; omega⟩

theorem pred_unique {n i j : ℕ} (hi : i < n) (hj : j < n) (h : (i + 1) % n = (j + 1) % n) : i = j := by
  rw [succ_mod hi, succ_mod hj] at h
  split_ifs at h <;> omega

omit [LinearOrder T] in
theorem buildRanges_getElem? (hlen : 1 < ring.length) {i : ℕ} {r : TokenRange T} :
    (buildRanges minToken ring)[i]? = some r ↔ i < ring.length ∧
      r = ⟨ring.getD i minToken, ring.getD ((i + 1) % ring.length) minToken⟩ := by
  rw [buildRanges, if_neg (by omega), List.getElem?_map]
  by_cases hi : i < ring.length
  · rw [List.getElem?_range hi]
    simp [hi, eq_comm]
  · simp [hi]

end Ranges

/-! ### Ownership -/

section Ownership

variable {tokenizer : Tokenizer T} {hosts : List Host}

theorem ring_length_pos (tokenizer : Tokenizer T) (hne : allTokens hosts ≠ []) :
    0 < (buildTokens tokenizer hosts).ring.length := by
  rw [(ring_perm tokenizer hosts).length_eq, List.length_map]
  exact List.length_pos_iff.2 hne

/-- The ring token that a token belongs to. -/
def closest (tokenizer : Tokenizer T) (hosts : List Host) (t : T) : T :=
  (buildTokens tokenizer hosts).ring.getD
    (rank (buildTokens tokenizer hosts).ring t % (buildTokens tokenizer hosts).ring.length) tokenizer.minToken

theorem closest_mem_ring (tokenizer : Tokenizer T) (hne : allTokens hosts ≠ []) (t : T) :
    closest tokenizer hosts t ∈ (buildTokens tokenizer hosts).ring := by
  have hlt := Nat.mod_lt (rank (buildTokens tokenizer hosts).ring t) (ring_length_pos tokenizer hne)
  unfold closest
  rw [List.getD_eq_getElem?_getD, List.getElem?_eq_getElem hlt]
  exact List.getElem_mem hlt

/-- The search finds the ring token at the rank of a token, and the first one behind the last. -/
theorem closestToken_eq (hnodup : ((allTokens hosts).map tokenizer.parse).Nodup) (hne : allTokens hosts ≠ [])
    (t : T) : (buildTokens tokenizer hosts).closestToken t =
      some (tokenizer.stringify (closest tokenizer hosts t)) := by
  have hpos := ring_length_pos tokenizer hne
  have hlt := Nat.mod_lt (rank (buildTokens tokenizer hosts).ring t) hpos
  have hrank := rank_le_length (buildTokens tokenizer hosts).ring t
  have hstrings : (buildTokens tokenizer hosts).ringTokensAsStrings =
      (buildTokens tokenizer hosts).ring.map tokenizer.stringify := rfl
  unfold closest TokenMap.closestToken
  rw [binarySearch_eq (ring_pairwise hnodup), position_found, hstrings]
  generalize (buildTokens tokenizer hosts).ring = ring at hpos hlt hrank ⊢
  have hindex : (if ring.length ≤ rank ring t then rank ring t % ring.length else rank ring t) =
      rank ring t % ring.length := by
    split_ifs with h
    · rfl
    · exact (Nat.mod_eq_of_lt (by omega)).symm
  simp only
  rw [hindex, List.getD_eq_getElem?_getD, List.getElem?_eq_getElem hlt, Option.getD_some, List.getElem?_map,
    List.getElem?_eq_getElem hlt, Option.map_some]

theorem exists_primaryReplica_owns (hnodup : ((allTokens hosts).map tokenizer.parse).Nodup)
    (hinverse : ∀ s ∈ allTokens hosts,
      tokenizer.parse (tokenizer.stringify (tokenizer.parse s)) = tokenizer.parse s)
    (hne : allTokens hosts ≠ []) (t : T) :
    ∃ h ∈ hosts, (buildTokens tokenizer hosts).primaryReplica t = .hosts [some h] ∧
      Owns tokenizer h (closest tokenizer hosts t) := by
  obtain ⟨h, hh, hprimary, howns⟩ :=
    primaryReplicas_of_mem_ring hinverse (closest_mem_ring tokenizer hne t)
  refine ⟨h, hh, ?_, howns⟩
  unfold TokenMap.primaryReplica
  rw [closestToken_eq hnodup hne, Option.bind_some, hprimary]

/-- On a ring of several tokens one range contains a token, and it ends at the closest one. -/
theorem exists_range (hmin : ∀ t, tokenizer.minToken ≤ t)
    (hnodup : ((allTokens hosts).map tokenizer.parse).Nodup)
    (hlen : 1 < (buildTokens tokenizer hosts).ring.length) (t : T) :
    ∃ (i : ℕ) (r : TokenRange T), (buildTokens tokenizer hosts).tokenRanges[i]? = some r ∧
      r.contains tokenizer.minToken t = true ∧
      (∀ (j : ℕ) (r' : TokenRange T), (buildTokens tokenizer hosts).tokenRanges[j]? = some r' →
        r'.contains tokenizer.minToken t = true → j = i) ∧ r.stop = closest tokenizer hosts t := by
  have hsorted := ring_pairwise hnodup
  have hranges : (buildTokens tokenizer hosts).tokenRanges =
      buildRanges tokenizer.minToken (buildTokens tokenizer hosts).ring := rfl
  unfold closest
  rw [hranges]
  generalize (buildTokens tokenizer hosts).ring = ring at hlen hsorted ⊢
  have hpos : 0 < ring.length := by omega
  obtain ⟨i, hi, hik⟩ := exists_pred (Nat.mod_lt (rank ring t) hpos)
  refine ⟨i, _, (buildRanges_getElem? hlen).2 ⟨hi, rfl⟩, (contains_range_iff hsorted hmin hlen hi t).2 hik,
    fun j r' hj hcontains => ?_, by rw [hik]⟩
  obtain ⟨hj', rfl⟩ := (buildRanges_getElem? hlen).1 hj
  have hjk := (contains_range_iff hsorted hmin hlen hj' t).1 hcontains
  exact pred_unique hj' hi (hjk.trans hik.symm)

end Ownership

/-- Tokens that are natural numbers, written in decimal digits. -/
def decimalTokenizer : Tokenizer ℕ where
  parse s := s.toList.foldl (fun n c => n * 10 + (c.toNat - '0'.toNat)) 0
  stringify n := String.ofList (Nat.toDigits 10 n)
  hash bytes := bytes.foldl (fun n b => n * 256 + b.toNat) 0
  minToken := 0

/-- Two hosts, one of them with two tokens. -/
def twoHosts : List Host :=
  [⟨"10.0.0.1", some "dc1", some "r1", some ["30", "10"]⟩, ⟨"10.0.0.2", some "dc1", some "r1", some ["0"]⟩]

end CqlDriver.Metadata
