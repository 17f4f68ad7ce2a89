import CqlDriver.DataTypes

/-! # Parameter hints (`adaptUserHints` of `lib/metadata/index.js`)

A hint is parsed by `dataTypes.getByName`, which leaves the raw name of a user type in its node.  `_checkUdtTypes` collects
the nodes of user types, and `adaptUserHints` fetches their definitions afterwards.  It goes into lists, sets and maps, but
neither into a tuple nor into a vector: a user type there keeps its raw name (`resolved_iff`).  The encoder reads the
fields of the definition wherever a user type stands. -/

namespace CqlDriver.Metadata

open DataTypes

/-- What stands in the `hints` array: a text, or something else, which is passed over. -/
inductive Hint (Other : Type) where
  | string (name : List Char)
  | other (value : Other)

/-- The `info` of a user type while its definition is missing. -/
structure UdtName where
  keyspace : List Char
  name : List Char

/-- A type definition whose nodes of user types were collected: `udt i` is the node `udts[i]`. -/
inductive Node where
  | plain (code : ℕ)
  | of (code : ℕ) (info : Node)
  | ofAll (code : ℕ) (info : List Node)
  | vector (subtype : Node) (dimension : ℕ)
  | udtName (info : List Char)
  | udt (i : ℕ)

mutual

/-- A definition that is left as it was parsed. -/
def Node.ofInfo : TypeInfo → Node
  | .plain code => .plain code
  | .of code info => .of code (Node.ofInfo info)
  | .ofAll code info => .ofAll code (Node.ofInfos info)
  | .vector subtype dimension => .vector (Node.ofInfo subtype) dimension
  | .udtName info => .udtName info

def Node.ofInfos : List TypeInfo → List Node
  | [] => []
  | t :: ts => Node.ofInfo t :: Node.ofInfos ts

end

/-- The keyspace and the name of a user type; the given keyspace is that of a name without one. -/
def udtNameOf (keyspace info : List Char) : Except Error UdtName :=
  let udtName := info.splitOn '.'
  match udtName with
  | first :: name :: _ =>
      if name ≠ [] then .ok ⟨first, name⟩
      else if keyspace = [] then
        .error (.typeError ("No keyspace specified for udt: " ++ String.ofList (['.'].intercalate udtName)))
      else .ok ⟨keyspace, first⟩
  | first :: [] =>
      if keyspace = [] then
        .error (.typeError ("No keyspace specified for udt: " ++ String.ofList (['.'].intercalate udtName)))
      else .ok ⟨keyspace, first⟩
  | [] => .ok ⟨keyspace, []⟩

/-- `_checkUdtTypes`: the definition, and the nodes that were collected. -/
def checkUdtTypes (keyspace : List Char) : TypeInfo → List UdtName → Except Error (Node × List UdtName)
  | .udtName info, udts => do
      let name ← udtNameOf keyspace info
      .ok (.udt udts.length, udts ++ [name])
  -- without `info`
  | .plain code, udts =>
      if code = 0x30 then .error (.typeError "Cannot read properties of undefined (reading 'split')")
      else .ok (.plain code, udts)
  | .of code info, udts =>
      if code = 0x20 ∨ code = 0x22 then do
        let (n, udts) ← checkUdtTypes keyspace info udts
        .ok (.of code n, udts)
      else .ok (.of code (Node.ofInfo info), udts)
  | .ofAll code info, udts =>
      if code = 0x21 then
        match info with
        | key :: value :: rest => do
            let (k, udts) ← checkUdtTypes keyspace key udts
            let (v, udts) ← checkUdtTypes keyspace value udts
            .ok (.ofAll code (k :: v :: Node.ofInfos rest), udts)
        | _ => .error (.typeError "Cannot read properties of undefined (reading 'code')")
      else .ok (.ofAll code (Node.ofInfos info), udts)
  | .vector subtype dimension, udts => .ok (.vector (Node.ofInfo subtype) dimension, udts)

/-- An element of `hints` after the first loop. -/
inductive Adapted (Other : Type) where
  | type (n : Node)
  | other (value : Other)

/-- The first loop of `adaptUserHints`. -/
def parseHints {Other : Type} (keyspace : List Char) :
    List (Hint Other) → List UdtName → Except Error (List (Adapted Other) × List UdtName)
  | [], udts => .ok ([], udts)
  | .other value :: hints, udts => do
      let (types, udts) ← parseHints keyspace hints udts
      .ok (.other value :: types, udts)
  | .string name :: hints, udts => do
      let type ← getByName name
      let (n, udts) ← checkUdtTypes keyspace type udts
      let (types, udts) ← parseHints keyspace hints udts
      .ok (.type n :: types, udts)

/-- The second loop: the definitions that stand in the nodes `udts[i]`, `udts[i + 1]`, … in the end.  `getUdt` may answer
each call differently; `none` is a type that was not found. -/
def fetchUdts {Udt : Type} (getUdt : ℕ → UdtName → Except Error (Option Udt)) : ℕ → List UdtName → Except Error (List Udt)
  | _, [] => .ok []
  | i, name :: udts => do
      match ← getUdt i name with
      | none =>
          .error (.typeError ("User defined type not found: " ++ String.ofList name.keyspace ++ "." ++
            String.ofList name.name))
      | some udtInfo =>
          let infos ← fetchUdts getUdt (i + 1) udts
          .ok (udtInfo :: infos)

def adaptUserHints {Other Udt : Type} (getUdt : ℕ → UdtName → Except Error (Option Udt)) (keyspace : List Char)
    (hints : List (Hint Other)) : Except Error (List (Adapted Other) × List Udt) := do
  let (types, udts) ← parseHints keyspace hints []
  let infos ← fetchUdts getUdt 0 udts
  .ok (types, infos)

/-! ### Resolved types -/

mutual

/-- A user type occurs in the definition. -/
def hasUdt : TypeInfo → Bool
  | .plain _ => false
  | .of _ info => hasUdt info
  | .ofAll _ info => anyUdt info
  | .vector subtype _ => hasUdt subtype
  | .udtName _ => true

def anyUdt : List TypeInfo → Bool
  | [] => false
  | t :: ts => hasUdt t || anyUdt ts

end

/-- Each user type of the definition is reached through lists, sets, keys and values only: none stands inside a tuple or a
vector. -/
def UdtsReached : TypeInfo → Prop
  | .plain _ => True
  | .of code info => if code = 0x20 ∨ code = 0x22 then UdtsReached info else hasUdt info = false
  | .ofAll code info =>
      if code = 0x21 then
        match info with
        | key :: value :: rest => UdtsReached key ∧ UdtsReached value ∧ anyUdt rest = false
        | _ => anyUdt info = false
      else anyUdt info = false
  | .vector subtype _ => hasUdt subtype = false
  | .udtName _ => True

section
variable {Udt : Type} (getUdt : ℕ → UdtName → Except Error (Option Udt)) (keyspace : List Char) (infos : List Udt)

mutual

/-- The node is the parsed definition, with the definition that `getUdt` returned for its own name in place of each user
type. -/
def Resolved : TypeInfo → Node → Prop
  | .plain code, .plain code' => code' = code
  | .of code info, .of code' info' => code' = code ∧ Resolved info info'
  | .ofAll code info, .ofAll code' info' => code' = code ∧ AllResolved info info'
  | .vector subtype dimension, .vector subtype' dimension' => Resolved subtype subtype' ∧ dimension' = dimension
  | .udtName info, .udt i =>
      ∃ name udtInfo, udtNameOf keyspace info = .ok name ∧ getUdt i name = .ok (some udtInfo) ∧ infos[i]? = some udtInfo
  | _, _ => False

def AllResolved : List TypeInfo → List Node → Prop
  | [], [] => True
  | t :: ts, n :: ns => Resolved t n ∧ AllResolved ts ns
  | _, _ => False

end

/-- The element of `hints` is the resolved type of the hint, or was passed over. -/
def ResolvedHint {Other : Type} : Hint Other → Adapted Other → Prop
  | .string name, .type n => ∃ t, getByName name = .ok t ∧ Resolved getUdt keyspace infos t n
  | .other value, .other value' => value' = value
  | _, _ => False

/-- The names that were collected were answered in their order. -/
def Fetched (udts : List UdtName) : Prop :=
  ∀ i name, udts[i]? = some name → ∃ udtInfo, getUdt i name = .ok (some udtInfo) ∧ infos[i]? = some udtInfo

variable {getUdt keyspace infos}

mutual

/-- Where nothing was collected, the raw names are left. -/
theorem resolved_ofInfo : ∀ t : TypeInfo, Resolved getUdt keyspace infos t (Node.ofInfo t) ↔ hasUdt t = false
  | .plain code => by simp [Node.ofInfo, Resolved, hasUdt]
  | .of code info => by simp [Node.ofInfo, Resolved, hasUdt, resolved_ofInfo info]
  | .ofAll code info => by simp [Node.ofInfo, Resolved, hasUdt, allResolved_ofInfos info]
  | .vector subtype dimension => by simp [Node.ofInfo, Resolved, hasUdt, resolved_ofInfo subtype]
  | .udtName info => by simp [Node.ofInfo, Resolved, hasUdt]

theorem allResolved_ofInfos : ∀ ts : List TypeInfo,
    AllResolved getUdt keyspace infos ts (Node.ofInfos ts) ↔ anyUdt ts = false
  | [] => by simp [Node.ofInfos, AllResolved, anyUdt]
  | t :: ts => by simp [Node.ofInfos, AllResolved, anyUdt, resolved_ofInfo t, allResolved_ofInfos ts]

end

/-- What is collected in front of `all`: each type is resolved in the end if all its user types are reached. -/
def Collects (getUdt : ℕ → UdtName → Except Error (Option Udt)) (keyspace : List Char) (infos : List Udt) (t : TypeInfo)
    (n : Node) (udts udts' : List UdtName) : Prop :=
  udts <+: udts' ∧
    ∀ all, udts' <+: all → Fetched getUdt infos all → (Resolved getUdt keyspace infos t n ↔ UdtsReached t)

theorem collects_checkUdtTypes : ∀ {t : TypeInfo} {n : Node} {udts udts' : List UdtName},
    checkUdtTypes keyspace t udts = .ok (n, udts') → Collects getUdt keyspace infos t n udts udts'
  | .udtName info, n, udts, udts', h => by
      obtain ⟨name, hname, h⟩ := Fallible.bind_eq_ok h
      obtain ⟨rfl, rfl⟩ := Prod.mk.inj (Except.ok.inj h)
      refine ⟨List.prefix_append _ _, fun all hpre hfetched => ?_⟩
      obtain ⟨rest, rfl⟩ := hpre
      obtain ⟨udtInfo, hget, hinfo⟩ := hfetched udts.length name (by simp)
      rw [Resolved, UdtsReached, iff_true]
      exact ⟨name, udtInfo, hname, hget, hinfo⟩
  | .plain code, n, udts, udts', h => by
      rw [checkUdtTypes] at h
      split_ifs at h with hudt
      obtain ⟨rfl, rfl⟩ := Prod.mk.inj (Except.ok.inj h)
      exact ⟨List.prefix_refl _, fun all _ _ => by simp [Resolved, UdtsReached]⟩
  | .of code info, n, udts, udts', h => by
      rw [checkUdtTypes] at h
      split_ifs at h with hcode
      · obtain ⟨⟨m, udts₁⟩, hinfo, h⟩ := Fallible.bind_eq_ok h
        obtain ⟨rfl, rfl⟩ := Prod.mk.inj (Except.ok.inj h)
        obtain ⟨hpre, hres⟩ := collects_checkUdtTypes hinfo
        refine ⟨hpre, fun all hall hfetched => ?_⟩
        rw [Resolved, UdtsReached, if_pos hcode, hres all hall hfetched]
        exact and_iff_right rfl
      · obtain ⟨rfl, rfl⟩ := Prod.mk.inj (Except.ok.inj h)
        refine ⟨List.prefix_refl _, fun all _ _ => ?_⟩
        rw [Resolved, UdtsReached, if_neg hcode, resolved_ofInfo]
        exact and_iff_right rfl
  | .ofAll code [], n, udts, udts', h => by
      rw [checkUdtTypes] at h
      case x_3 => rintro key value rest ⟨⟩
      split_ifs at h with hcode
      obtain ⟨rfl, rfl⟩ := Prod.mk.inj (Except.ok.inj h)
      refine ⟨List.prefix_refl _, fun all _ _ => ?_⟩
      simp [Resolved, UdtsReached, allResolved_ofInfos]
  | .ofAll code [t], n, udts, udts', h => by
      rw [checkUdtTypes] at h
      case x_3 => rintro key value rest ⟨⟩
      split_ifs at h with hcode
      obtain ⟨rfl, rfl⟩ := Prod.mk.inj (Except.ok.inj h)
      refine ⟨List.prefix_refl _, fun all _ _ => ?_⟩
      simp [Resolved, UdtsReached, allResolved_ofInfos]
  | .ofAll code (key :: value :: rest), n, udts, udts', h => by
      rw [checkUdtTypes] at h
      split_ifs at h with hcode
      · obtain ⟨⟨k, udts₁⟩, hkey, h⟩ := Fallible.bind_eq_ok h
        obtain ⟨⟨v, udts₂⟩, hvalue, h⟩ := Fallible.bind_eq_ok h
        obtain ⟨rfl, rfl⟩ := Prod.mk.inj (Except.ok.inj h)
        obtain ⟨hpre, hres⟩ := collects_checkUdtTypes hkey
        obtain ⟨hpre', hres'⟩ := collects_checkUdtTypes hvalue
        refine ⟨hpre.trans hpre', fun all hall hfetched => ?_⟩
        rw [Resolved, AllResolved, AllResolved, UdtsReached, if_pos hcode, hres all (hpre'.trans hall) hfetched,
          hres' all hall hfetched, allResolved_ofInfos]
        exact and_iff_right rfl
      · obtain ⟨rfl, rfl⟩ := Prod.mk.inj (Except.ok.inj h)
        refine ⟨List.prefix_refl _, fun all _ _ => ?_⟩
        rw [Resolved, UdtsReached, if_neg hcode, allResolved_ofInfos]
        exact and_iff_right rfl
  | .vector subtype dimension, n, udts, udts', h => by
      obtain ⟨rfl, rfl⟩ := Prod.mk.inj (Except.ok.inj h)
      refine ⟨List.prefix_refl _, fun all _ _ => ?_⟩
      rw [Resolved, UdtsReached, resolved_ofInfo]
      exact and_iff_left rfl

theorem fetched_of_fetchUdts {i : ℕ} {udts : List UdtName} {found : List Udt} (h : fetchUdts getUdt i udts = .ok found) :
    ∀ j name, udts[j]? = some name → ∃ udtInfo, getUdt (i + j) name = .ok (some udtInfo) ∧ found[j]? = some udtInfo := by
  induction udts generalizing i found with
  | nil => simp
  | cons first udts ih =>
      rw [fetchUdts] at h
      obtain ⟨udtInfo?, hget, h⟩ := Fallible.bind_eq_ok h
      cases udtInfo? with
      | none => cases h
      | some udtInfo =>
          obtain ⟨rest, hrest, h⟩ := Fallible.bind_eq_ok h
          obtain rfl := Except.ok.inj h
          intro j name hj
          cases j with
          | zero =>
              obtain rfl := Option.some.inj hj
              exact ⟨udtInfo, hget, rfl⟩
          | succ j =>
              have := ih hrest j name hj
              rwa [show i + 1 + j = i + (j + 1) by ring] at this

theorem resolved_parseHints {Other : Type} : ∀ {hints : List (Hint Other)} {types : List (Adapted Other)}
    {udts udts' : List UdtName}, parseHints keyspace hints udts = .ok (types, udts') →
    udts <+: udts' ∧ ∀ all, udts' <+: all → Fetched getUdt infos all →
      (List.Forall₂ (ResolvedHint getUdt keyspace infos) hints types ↔
        ∀ name, Hint.string name ∈ hints → ∀ t, getByName name = .ok t → UdtsReached t)
  | [], types, udts, udts', h => by
      obtain ⟨rfl, rfl⟩ := Prod.mk.inj (Except.ok.inj h)
      exact ⟨List.prefix_refl _, fun all _ _ => by simp⟩
  | .other value :: hints, types, udts, udts', h => by
      obtain ⟨⟨types', udts₁⟩, hrest, h⟩ := Fallible.bind_eq_ok h
      obtain ⟨rfl, rfl⟩ := Prod.mk.inj (Except.ok.inj h)
      obtain ⟨hpre, hres⟩ := resolved_parseHints hrest
      refine ⟨hpre, fun all hall hfetched => ?_⟩
      rw [List.forall₂_cons, hres all hall hfetched]
      simp [ResolvedHint]
  | .string name :: hints, types, udts, udts', h => by
      obtain ⟨t, hname, h⟩ := Fallible.bind_eq_ok h
      obtain ⟨⟨n, udts₁⟩, hcheck, h⟩ := Fallible.bind_eq_ok h
      obtain ⟨⟨types', udts₂⟩, hrest, h⟩ := Fallible.bind_eq_ok h
      obtain ⟨rfl, rfl⟩ := Prod.mk.inj (Except.ok.inj h)
      obtain ⟨hpre, hres⟩ : Collects getUdt keyspace infos t n udts udts₁ := collects_checkUdtTypes hcheck
      obtain ⟨hpre', hres'⟩ := resolved_parseHints hrest
      refine ⟨hpre.trans hpre', fun all hall hfetched => ?_⟩
      rw [List.forall₂_cons, hres' all hall hfetched]
      have hfirst : ResolvedHint getUdt keyspace infos (.string name : Hint Other) (.type n) ↔ UdtsReached t := by
        rw [← hres all (hpre'.trans hall) hfetched]
        constructor
        · rintro ⟨t', hname', hresolved⟩
          rw [hname] at hname'
          rwa [Except.ok.inj hname']
        · exact fun hresolved => ⟨t, hname, hresolved⟩
      rw [hfirst]
      simp only [List.mem_cons, Hint.string.injEq]
      constructor
      · rintro ⟨ht, hall⟩ name' (rfl | hmem) t' hname'
        · rw [hname] at hname'
          rwa [← Except.ok.inj hname']
        · exact hall name' hmem t' hname'
      · exact fun hall => ⟨hall name (Or.inl rfl) t hname, fun name' hmem => hall name' (Or.inr hmem)⟩

/-- Where the hints are adapted, exactly those without a user type inside a tuple or a vector are resolved. -/
theorem resolved_iff {Other : Type} (hints : List (Hint Other)) (types : List (Adapted Other))
    (h : adaptUserHints getUdt keyspace hints = .ok (types, infos)) :
    List.Forall₂ (ResolvedHint getUdt keyspace infos) hints types ↔
      ∀ name, Hint.string name ∈ hints → ∀ t, getByName name = .ok t → UdtsReached t := by
  obtain ⟨⟨types', udts⟩, hparse, h⟩ := Fallible.bind_eq_ok h
  obtain ⟨infos', hfetch, h⟩ := Fallible.bind_eq_ok h
  obtain ⟨rfl, rfl⟩ := Prod.mk.inj (Except.ok.inj h)
  refine (resolved_parseHints hparse).2 udts (List.prefix_refl _) fun i name hi => ?_
  have := fetched_of_fetchUdts hfetch i name hi
  rwa [Nat.zero_add] at this

end

/-- A user type that is found under each name. -/
def anyUdtFound : ℕ → UdtName → Except Error (Option String) := fun _ name => .ok (some (String.ofList name.name))

/-- The raw name is left inside a tuple, and the definition is not asked for. -/
theorem raw_name_in_tuple :
    adaptUserHints anyUdtFound "ks".toList [(.string "tuple<udt<address>,int>".toList : Hint Unit)] =
        .ok ([.type (.ofAll 0x31 [.udtName "address".toList, .plain 9])], []) ∧
      ¬List.Forall₂ (ResolvedHint anyUdtFound "ks".toList []) [(.string "tuple<udt<address>,int>".toList : Hint Unit)]
        [.type (.ofAll 0x31 [.udtName "address".toList, .plain 9])] := by
  have hparse : getByName "tuple<udt<address>,int>".toList =
      .ok (.ofAll 0x31 [.udtName "address".toList, .plain 9]) := rfl
  have hadapt : adaptUserHints anyUdtFound "ks".toList [(.string "tuple<udt<address>,int>".toList : Hint Unit)] =
      .ok ([.type (.ofAll 0x31 [.udtName "address".toList, .plain 9])], []) := by
    rw [adaptUserHints, parseHints, hparse]
    rfl
  refine ⟨hadapt, fun h => ?_⟩
  obtain ⟨⟨t, ht, hresolved⟩, -⟩ := List.forall₂_cons.1 h
  rw [hparse] at ht
  obtain rfl := Except.ok.inj ht
  rw [Resolved, AllResolved, Resolved] at hresolved
  · exact hresolved.2.1
  all_goals simp

/-- In a list the definition stands in place of the name. -/
theorem resolved_iff_list :
    List.Forall₂ (ResolvedHint anyUdtFound "ks".toList ["address"])
        [(.string "list<udt<address>>".toList : Hint Unit)] [.type (.of 0x20 (.udt 0))] ↔
      ∀ name, Hint.string name ∈ [(.string "list<udt<address>>".toList : Hint Unit)] →
        ∀ t, getByName name = .ok t → UdtsReached t :=
  resolved_iff [(.string "list<udt<address>>".toList : Hint Unit)] [.type (.of 0x20 (.udt 0))] (by
    have hparse : getByName "list<udt<address>>".toList = .ok (.of 0x20 (.udtName "address".toList)) := rfl
    rw [adaptUserHints, parseHints, hparse]
    rfl)

end CqlDriver.Metadata
