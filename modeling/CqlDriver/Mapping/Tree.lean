import Mathlib.Tactic

/-! # The radix tree of the mapper caches (`lib/mapping/tree.js`)

`getOrCreate` follows a key through the tree and creates the value of the key where there is none.  A
node holds a part of the key; its first element is compared when the edge to the node is chosen, the
others in the node.  `lookup_getOrCreate` states that the tree is a finite map from keys to values. -/

namespace CqlDriver.Mapping

variable {κ ν : Type}

inductive Node (κ ν : Type) where
  | mk (key : List κ) (value : Option ν) (edges : List (Node κ ν))

namespace Node

def key : Node κ ν → List κ
  | mk key _ _ => key

def edges : Node κ ν → List (Node κ ν)
  | mk _ _ edges => edges

/-- `new Tree()` -/
def empty : Node κ ν := mk [] none []

variable [DecidableEq κ]

/-- The elements the two keys share, and what is left of each. -/
def common : List κ → List κ → List κ × List κ × List κ
  | k :: ks, x :: xs =>
      if k = x then
        let (pre, rest) := common ks xs
        (k :: pre, rest)
      else ([], k :: ks, x :: xs)
  | ks, xs => ([], ks, xs)

/-- The outcome of `getOrCreate`: the value, the node afterwards, whether `valueHandler` was called and
whether an item was counted. -/
structure Outcome (κ ν : Type) where
  value : Option ν
  node : Node κ ν
  created : Bool
  added : Bool

/-- `_createBranch`: the end of the key, the value and the edges move to a node below. -/
def createBranch (key : List κ) (value : Option ν) (edges : List (Node κ ν)) (index : ℕ)
    (newValue : Option ν) (others : List (Node κ ν)) : Node κ ν :=
  mk (key.take index) newValue (mk (key.drop index) value edges :: others)

mutual

/-- `getOrCreate` from a node on, with the items of the key that are left; `new` is what
`valueHandler` returns. -/
def getOrCreate (new : ν) : Node κ ν → List κ → Outcome κ ν
  | mk key value edges, items =>
      match common key.tail items with
      | (pre, _ :: _, []) => ⟨some new, createBranch key value edges (pre.length + 1) (some new) [], true, true⟩
      | (pre, _ :: _, item :: rest) =>
          ⟨some new, createBranch key value edges (pre.length + 1) none [mk (item :: rest) (some new) []],
            true, true⟩
      | (_, [], []) =>
          if value.isNone ∧ edges ≠ [] then ⟨some new, mk key (some new) edges, true, false⟩
          else ⟨value, mk key value edges, false, false⟩
      | (_, [], item :: rest) =>
          let (v, edges, created, added) := edgesGetOrCreate new edges item rest
          ⟨v, mk key value edges, created, added⟩

/-- The search for the next node, with the edges afterwards. -/
def edgesGetOrCreate (new : ν) : List (Node κ ν) → κ → List κ → Option ν × List (Node κ ν) × Bool × Bool
  | [], item, rest => (some new, [mk (item :: rest) (some new) []], true, true)
  | e :: es, item, rest =>
      if e.key.head? = some item then
        let r := getOrCreate new e rest
        (r.value, r.node :: es, r.created, r.added)
      else
        let (v, es, created, added) := edgesGetOrCreate new es item rest
        (v, e :: es, created, added)

end

/-! ### The map of a tree -/

mutual

/-- The value under the rest of a key. -/
def lookup : Node κ ν → List κ → Option ν
  | mk key value edges, items =>
      match common key.tail items with
      | (_, _ :: _, _) => none
      | (_, [], []) => value
      | (_, [], item :: rest) => edgesLookup edges item rest

def edgesLookup : List (Node κ ν) → κ → List κ → Option ν
  | [], _, _ => none
  | e :: es, item, rest => if e.key.head? = some item then lookup e rest else edgesLookup es item rest

end

/-- A node below the root has a key, and a value or edges. -/
inductive Full : Node κ ν → Prop
  | mk {key : List κ} {value : Option ν} {edges : List (Node κ ν)} (hkey : key ≠ [])
      (hvalue : value = none → edges ≠ []) (hedges : ∀ e ∈ edges, Full e) : Full (mk key value edges)

theorem common_eq (ks xs : List κ) : ks = (common ks xs).1 ++ (common ks xs).2.1 ∧
    xs = (common ks xs).1 ++ (common ks xs).2.2 := by
  induction ks generalizing xs with
  | nil => simp [common]
  | cons k ks ih =>
      cases xs with
      | nil => simp [common]
      | cons x xs =>
          rw [common]
          split_ifs with h
          · subst h
            exact ⟨congrArg (k :: ·) (ih xs).1, congrArg (k :: ·) (ih xs).2⟩
          · exact ⟨rfl, rfl⟩

/-- What is left of two keys starts differently. -/
theorem common_head_ne {ks xs pre ks' xs' : List κ} {k x : κ}
    (h : common ks xs = (pre, k :: ks', x :: xs')) : k ≠ x := by
  induction ks generalizing xs pre with
  | nil => simp [common] at h
  | cons a ks ih =>
      cases xs with
      | nil => simp [common] at h
      | cons b xs =>
          rw [common] at h
          split_ifs at h with hab
          · simp only [Prod.mk.injEq] at h
            exact ih (Prod.ext rfl h.2)
          · cases h
            exact hab

theorem common_append (pre ks xs : List κ) :
    common (pre ++ ks) (pre ++ xs) = (pre ++ (common ks xs).1, (common ks xs).2) := by
  induction pre with
  | nil => rfl
  | cons p pre ih =>
      rw [List.cons_append, List.cons_append, common, if_pos rfl, ih]
      rfl

theorem common_nil_left (xs : List κ) : common [] xs = ([], [], xs) := by
  cases xs <;> rfl

/-- The node part of `lookup`, for a key that is given by its first element. -/
theorem lookup_mk_cons (k : κ) (pre : List κ) (value : Option ν) (edges : List (Node κ ν)) (rest : List κ) :
    lookup (mk (k :: pre) value edges) (pre ++ rest) =
      match rest with
      | [] => value
      | item :: rest => edgesLookup edges item rest := by
  have h := common_append pre [] rest
  rw [List.append_nil, common_nil_left] at h
  rw [lookup]
  simp only [List.tail_cons, h]
  cases rest <;> rfl

/-- A key that does not go through the node. -/
theorem lookup_eq_none {k : κ} {ks items : List κ} {value : Option ν} {edges : List (Node κ ν)}
    (h : ∀ rest, items ≠ ks ++ rest) : lookup (mk (k :: ks) value edges) items = none := by
  have heq := common_eq ks items
  rw [lookup]
  simp only [List.tail_cons]
  rcases hc : common ks items with ⟨pre, ks', xs'⟩
  rw [hc] at heq
  cases ks' with
  | nil =>
      simp only [List.append_nil] at heq
      exact absurd (heq.1 ▸ heq.2) (h xs')
  | cons a ks' => rfl

theorem lookup_leaf (item : κ) (rest items : List κ) (v : ν) :
    lookup (mk (item :: rest) (some v) []) items = if items = rest then some v else none := by
  by_cases h : ∃ more, items = rest ++ more
  · obtain ⟨more, rfl⟩ := h
    rw [lookup_mk_cons]
    cases more with
    | nil => simp
    | cons x more => simp [edgesLookup]
  · rw [lookup_eq_none fun more hm => h ⟨more, hm⟩, if_neg]
    rintro rfl
    exact h ⟨[], (List.append_nil _).symm⟩

theorem lookup_append (k : κ) (pre ks : List κ) (value : Option ν) (edges : List (Node κ ν)) (rest : List κ) :
    lookup (mk (k :: (pre ++ ks)) value edges) (pre ++ rest) = lookup (mk (k :: ks) value edges) rest := by
  rw [lookup, lookup]
  simp only [List.tail_cons, common_append]
  rcases common ks rest with ⟨_, _ | _, _ | _⟩ <;> rfl

theorem lookup_cons_cons (k a : κ) (ks : List κ) (value : Option ν) (edges : List (Node κ ν)) (rest : List κ) :
    lookup (mk (k :: a :: ks) value edges) rest =
      match rest with
      | [] => none
      | x :: rest => if a = x then lookup (mk (a :: ks) value edges) rest else none := by
  cases rest with
  | nil => rfl
  | cons x rest =>
      by_cases h : a = x
      · subst h
        simp only [if_true]
        exact lookup_append k [a] ks value edges rest
      · simp only [if_neg h]
        apply lookup_eq_none
        intro more hm
        apply h
        exact (List.cons.inj hm).1.symm

/-- The values below a new branch. -/
theorem lookup_createBranch (k a : κ) (pre ks : List κ) (value newValue : Option ν)
    (edges others : List (Node κ ν)) (rest : List κ) :
    lookup (createBranch (k :: (pre ++ a :: ks)) value edges (pre.length + 1) newValue others) (pre ++ rest) =
      match rest with
      | [] => newValue
      | x :: rest => if a = x then lookup (mk (a :: ks) value edges) rest else edgesLookup others x rest := by
  have htake : (k :: (pre ++ a :: ks)).take (pre.length + 1) = k :: pre := by simp
  have hdrop : (k :: (pre ++ a :: ks)).drop (pre.length + 1) = a :: ks := by simp
  rw [createBranch, htake, hdrop, lookup_mk_cons]
  cases rest with
  | nil => rfl
  | cons x rest => simp [edgesLookup, key]

theorem lookup_createBranch_eq_none {k a : κ} {pre ks items : List κ} (value newValue : Option ν)
    (edges others : List (Node κ ν)) (h : ∀ rest, items ≠ pre ++ rest) :
    lookup (createBranch (k :: (pre ++ a :: ks)) value edges (pre.length + 1) newValue others) items = none := by
  have htake : (k :: (pre ++ a :: ks)).take (pre.length + 1) = k :: pre := by simp
  rw [createBranch, htake]
  exact lookup_eq_none h

/-- What `getOrCreate` does to the map: `found` is the map before, `now` the one after. -/
structure Creates {α : Type} [DecidableEq α] (new : ν) (key : α) (found now : α → Option ν) (value : Option ν)
    (created : Bool) : Prop where
  value_eq : value = some ((found key).getD new)
  created_eq : created = (found key).isNone
  now_eq : ∀ key', now key' = if key' = key then value else found key'

/-- The part of the node when its key is left at the items that are shared. -/
theorem creates_createBranch (new : ν) (k a : κ) (pre ks items : List κ) (value : Option ν)
    (edges : List (Node κ ν)) {newValue : Option ν} {others : List (Node κ ν)}
    (hshape : (items = [] ∧ newValue = some new ∧ others = []) ∨
      ∃ x rest, items = x :: rest ∧ a ≠ x ∧ newValue = none ∧ others = [mk (x :: rest) (some new) []]) :
    Creates new (pre ++ items) (lookup (mk (k :: (pre ++ a :: ks)) value edges))
      (lookup (createBranch (k :: (pre ++ a :: ks)) value edges (pre.length + 1) newValue others))
      (some new) true := by
  have hfound : lookup (mk (k :: (pre ++ a :: ks)) value edges) (pre ++ items) = none := by
    rw [lookup_append, lookup_cons_cons]
    obtain ⟨rfl, -⟩ | ⟨x, rest, rfl, hne, -⟩ := hshape
    · rfl
    · exact if_neg hne
  refine ⟨by rw [hfound]; rfl, by rw [hfound]; rfl, fun key' => ?_⟩
  by_cases h : ∃ rest, key' = pre ++ rest
  · obtain ⟨rest', rfl⟩ := h
    rw [lookup_createBranch, lookup_append, lookup_cons_cons]
    simp only [List.append_cancel_left_eq]
    obtain ⟨rfl, rfl, rfl⟩ | ⟨x, rest, rfl, hne, rfl, rfl⟩ := hshape
    · cases rest' with
      | nil => rfl
      | cons y rest' =>
          simp only [reduceCtorEq, if_false, edgesLookup]
    · cases rest' with
      | nil => rfl
      | cons y rest' =>
          by_cases hy : a = y
          · subst hy
            simp only [if_true, if_neg (fun heq => hne (List.cons.inj heq).1)]
          · simp only [if_neg hy, edgesLookup, key, List.head?_cons, Option.some.injEq, lookup_leaf,
              List.cons.injEq]
            by_cases hxy : x = y
            · subst hxy
              simp [eq_comm]
            · simp [hxy, Ne.symm hxy]
  · have hnot : ∀ rest, key' ≠ pre ++ rest := fun rest hr => h ⟨rest, hr⟩
    rw [lookup_createBranch_eq_none _ _ _ _ hnot, if_neg (hnot items), lookup_eq_none]
    intro rest hr
    exact hnot (a :: ks ++ rest) (by rw [hr]; simp)

/-- The value of the node itself. -/
theorem creates_value (new : ν) (k : κ) (ks : List κ) {value : Option ν} {edges : List (Node κ ν)} {w : ν}
    (hw : value = some w ∨ value = none ∧ w = new) :
    Creates new ks (lookup (mk (k :: ks) value edges)) (lookup (mk (k :: ks) (some w) edges)) (some w)
      value.isNone := by
  have hhere (v : Option ν) : lookup (mk (k :: ks) v edges) ks = v := by
    have := lookup_mk_cons k ks v edges []
    rwa [List.append_nil] at this
  refine ⟨?_, by rw [hhere], fun key' => ?_⟩
  · rw [hhere]
    obtain rfl | ⟨rfl, rfl⟩ := hw
    · rfl
    · rfl
  · by_cases h : ∃ rest, key' = ks ++ rest
    · obtain ⟨rest, rfl⟩ := h
      cases rest with
      | nil => rw [List.append_nil, hhere, if_pos rfl]
      | cons x rest => rw [lookup_mk_cons, lookup_mk_cons, if_neg (by simp)]
    · have hnot : ∀ rest, key' ≠ ks ++ rest := fun rest hr => h ⟨rest, hr⟩
      rw [lookup_eq_none hnot, lookup_eq_none hnot, if_neg]
      intro heq
      exact hnot [] (by rw [heq, List.append_nil])

/-- The values below the node. -/
theorem creates_edges {new : ν} (k : κ) (ks : List κ) (value : Option ν) {edges edges' : List (Node κ ν)}
    {item : κ} {rest : List κ} {v : Option ν} {created : Bool}
    (h : Creates new (item, rest) (fun p => edgesLookup edges p.1 p.2) (fun p => edgesLookup edges' p.1 p.2)
      v created) :
    Creates new (ks ++ item :: rest) (lookup (mk (k :: ks) value edges)) (lookup (mk (k :: ks) value edges'))
      v created := by
  refine ⟨by rw [lookup_mk_cons]; exact h.value_eq, by rw [lookup_mk_cons]; exact h.created_eq, fun key' => ?_⟩
  by_cases hk : ∃ rest', key' = ks ++ rest'
  · obtain ⟨rest', rfl⟩ := hk
    rw [lookup_mk_cons, lookup_mk_cons]
    cases rest' with
    | nil => simp
    | cons y rest' =>
        have hnow := h.now_eq (y, rest')
        simp only [Prod.mk.injEq] at hnow
        simp only [List.append_cancel_left_eq, List.cons.injEq, hnow]
  · have hnot : ∀ rest, key' ≠ ks ++ rest := fun rest hr => hk ⟨rest, hr⟩
    rw [lookup_eq_none hnot, lookup_eq_none hnot, if_neg (hnot _)]

omit [DecidableEq κ] in
theorem full_createBranch {k a : κ} {pre ks : List κ} {value newValue : Option ν}
    {edges others : List (Node κ ν)} (h : Full (mk (k :: (pre ++ a :: ks)) value edges))
    (hothers : ∀ e ∈ others, Full e) :
    Full (createBranch (k :: (pre ++ a :: ks)) value edges (pre.length + 1) newValue others) := by
  obtain ⟨-, hvalue, hedges⟩ := h
  refine .mk (by simp) (fun _ => List.cons_ne_nil _ _) fun e he => ?_
  obtain rfl | he := List.mem_cons.1 he
  · exact .mk (by simp) hvalue hedges
  · exact hothers e he

omit [DecidableEq κ] in
theorem full_leaf (item : κ) (rest : List κ) (v : ν) : Full (mk (item :: rest) (some v) []) :=
  .mk (List.cons_ne_nil _ _) (fun h => by cases h) (by simp)

mutual

theorem getOrCreate_spec (new : ν) : ∀ (n : Node κ ν) (items : List κ), n.Full →
    Creates new items n.lookup (getOrCreate new n items).node.lookup (getOrCreate new n items).value
        (getOrCreate new n items).created ∧
      (getOrCreate new n items).node.Full ∧ (getOrCreate new n items).node.key.head? = n.key.head?
  | mk [] _ _, _, hfull => by
      cases hfull with
      | mk hkey => exact absurd rfl hkey
  | mk (k :: ks) value edges, items, hfull => by
      have heq := common_eq ks items
      rcases hc : common ks items with ⟨pre, _ | ⟨a, ks'⟩, _ | ⟨x, rest⟩⟩
      · rw [hc, List.append_nil] at heq
        obtain ⟨rfl, rfl⟩ := heq
        obtain ⟨hkey, hvalue, hedges⟩ := hfull
        simp only [getOrCreate, List.tail_cons, hc]
        cases value with
        | none =>
            rw [if_pos ⟨rfl, hvalue rfl⟩]
            exact ⟨creates_value new k _ (.inr ⟨rfl, rfl⟩), .mk hkey (fun h => by cases h) hedges, rfl⟩
        | some w =>
            rw [if_neg (fun h => by cases h.1)]
            exact ⟨creates_value new k _ (.inl rfl), .mk hkey hvalue hedges, rfl⟩
      · rw [hc, List.append_nil] at heq
        obtain ⟨rfl, rfl⟩ := heq
        obtain ⟨hkey, hvalue, hedges⟩ := hfull
        obtain ⟨hcreates, hfull', hne⟩ := edgesGetOrCreate_spec new edges x rest hedges
        simp only [getOrCreate, List.tail_cons, hc]
        exact ⟨creates_edges k _ value hcreates, .mk hkey (fun _ => hne) hfull', rfl⟩
      · rw [hc] at heq
        obtain ⟨rfl, rfl⟩ := heq
        simp only [getOrCreate, List.tail_cons, hc]
        refine ⟨creates_createBranch new k a pre ks' [] value edges (.inl ⟨rfl, rfl, rfl⟩),
          full_createBranch hfull (by simp), by simp [createBranch, key]⟩
      · have hne := common_head_ne hc
        rw [hc] at heq
        obtain ⟨rfl, rfl⟩ := heq
        simp only [getOrCreate, List.tail_cons, hc]
        refine ⟨creates_createBranch new k a pre ks' (x :: rest) value edges
          (.inr ⟨x, rest, rfl, hne, rfl, rfl⟩), full_createBranch hfull ?_, by simp [createBranch, key]⟩
        intro e he
        rw [List.mem_singleton.1 he]
        exact full_leaf x rest new

theorem edgesGetOrCreate_spec (new : ν) : ∀ (es : List (Node κ ν)) (item : κ) (rest : List κ),
    (∀ e ∈ es, e.Full) →
    Creates new (item, rest) (fun p => edgesLookup es p.1 p.2)
        (fun p => edgesLookup (edgesGetOrCreate new es item rest).2.1 p.1 p.2)
        (edgesGetOrCreate new es item rest).1 (edgesGetOrCreate new es item rest).2.2.1 ∧
      (∀ e ∈ (edgesGetOrCreate new es item rest).2.1, e.Full) ∧ (edgesGetOrCreate new es item rest).2.1 ≠ []
  | [], item, rest, _ => by
      rw [edgesGetOrCreate]
      refine ⟨⟨rfl, rfl, fun p => ?_⟩, fun e he => ?_, List.cons_ne_nil _ _⟩
      · obtain ⟨item', rest'⟩ := p
        simp only [edgesLookup, key, List.head?_cons, Option.some.injEq, lookup_leaf, Prod.mk.injEq]
        by_cases h : item = item'
        · subst h
          simp
        · simp [h, Ne.symm h]
      · rw [List.mem_singleton.1 he]
        exact full_leaf item rest new
  | e :: es, item, rest, hfull => by
      by_cases h : e.key.head? = some item
      · obtain ⟨hcreates, hfull', hhead⟩ := getOrCreate_spec new e rest (hfull e (List.mem_cons_self ..))
        rw [edgesGetOrCreate, if_pos h]
        refine ⟨⟨?_, ?_, fun p => ?_⟩, fun f hf => ?_, List.cons_ne_nil _ _⟩
        · simp only [edgesLookup, if_pos h]
          exact hcreates.value_eq
        · simp only [edgesLookup, if_pos h]
          exact hcreates.created_eq
        · obtain ⟨item', rest'⟩ := p
          simp only [edgesLookup, hhead, h, Option.some.injEq, Prod.mk.injEq]
          by_cases hi : item = item'
          · subst hi
            simp only [if_true, true_and, hcreates.now_eq]
          · rw [if_neg hi, if_neg hi, if_neg (fun hp => hi hp.1.symm)]
        · obtain rfl | hf := List.mem_cons.1 hf
          · exact hfull'
          · exact hfull f (List.mem_cons_of_mem _ hf)
      · obtain ⟨hcreates, hfull', -⟩ := edgesGetOrCreate_spec new es item rest fun f hf =>
          hfull f (List.mem_cons_of_mem _ hf)
        rw [edgesGetOrCreate, if_neg h]
        refine ⟨⟨?_, ?_, fun p => ?_⟩, fun f hf => ?_, List.cons_ne_nil _ _⟩
        · simp only [edgesLookup, if_neg h]
          exact hcreates.value_eq
        · simp only [edgesLookup, if_neg h]
          exact hcreates.created_eq
        · obtain ⟨item', rest'⟩ := p
          have hnow := hcreates.now_eq (item', rest')
          simp only [Prod.mk.injEq] at hnow
          simp only [edgesLookup, hnow, Prod.mk.injEq]
          by_cases hi : item' = item ∧ rest' = rest
          · obtain ⟨rfl, rfl⟩ := hi
            rw [if_neg h, if_pos ⟨rfl, rfl⟩, if_pos ⟨rfl, rfl⟩]
          · rw [if_neg hi, if_neg hi]
        · obtain rfl | hf := List.mem_cons.1 hf
          · exact hfull f (List.mem_cons_self ..)
          · exact hfull' f hf

end

end Node

/-! ### Trees -/

/-- A tree with the number of its items. -/
structure Tree (κ ν : Type) where
  root : Node κ ν
  length : ℕ
  rooted : root.key = []
  full : ∀ e ∈ root.edges, e.Full

namespace Tree

def new : Tree κ ν := ⟨.empty, 0, rfl, by simp [Node.empty, Node.edges]⟩

variable [DecidableEq κ]

theorem getOrCreate_root {root : Node κ ν} (hroot : root.key = []) (hfull : ∀ e ∈ root.edges, e.Full)
    (items : List κ) (value : ν) : (root.getOrCreate value items).node.key = [] ∧
      ∀ e ∈ (root.getOrCreate value items).node.edges, e.Full := by
  obtain ⟨key, v, edges⟩ := root
  cases hroot
  cases items with
  | nil =>
      simp only [Node.getOrCreate, List.tail_nil, Node.common]
      split_ifs
      · exact ⟨rfl, hfull⟩
      · exact ⟨rfl, hfull⟩
  | cons item rest =>
      simp only [Node.getOrCreate, List.tail_nil, Node.common]
      exact ⟨rfl, (Node.edgesGetOrCreate_spec value edges item rest hfull).2.1⟩

/-- The value under a key, which is `value` when it is created, with the tree afterwards. -/
def getOrCreate (t : Tree κ ν) (items : List κ) (value : ν) : Option ν × Tree κ ν :=
  let r := t.root.getOrCreate value items
  (r.value, ⟨r.node, if r.added then t.length + 1 else t.length,
    (getOrCreate_root t.rooted t.full items value).1, (getOrCreate_root t.rooted t.full items value).2⟩)

/-- The value under a key. -/
def lookup (t : Tree κ ν) (items : List κ) : Option ν := t.root.lookup items

@[simp] theorem lookup_new (items : List κ) : (new : Tree κ ν).lookup items = none := by
  cases items <;> rfl

/-- A tree is a finite map over key sequences: `getOrCreate` gives the value there is, and sets the
value of its own key only. -/
theorem lookup_getOrCreate (t : Tree κ ν) {items : List κ} (h : items ≠ []) (value : ν) :
    (t.getOrCreate items value).1 = some ((t.lookup items).getD value) ∧
      ∀ items', (t.getOrCreate items value).2.lookup items' =
        if items' = items then (t.getOrCreate items value).1 else t.lookup items' := by
  obtain ⟨⟨key, v, edges⟩, length, hroot, hfull⟩ := t
  cases hroot
  obtain ⟨item, rest, rfl⟩ := List.exists_cons_of_ne_nil h
  obtain ⟨hcreates, -, -⟩ := Node.edgesGetOrCreate_spec value edges item rest hfull
  simp only [getOrCreate, lookup, Node.getOrCreate, Node.lookup, List.tail_nil, Node.common]
  refine ⟨hcreates.value_eq, fun items' => ?_⟩
  cases items' with
  | nil => rfl
  | cons item' rest' =>
      have hnow := hcreates.now_eq (item', rest')
      simp only [Prod.mk.injEq] at hnow
      simp only [hnow, List.cons.injEq]

/-- The empty key belongs to the root, which gets a value only when the tree has other keys. -/
theorem lookup_getOrCreate_nil (t : Tree κ ν) (value : ν) :
    ((t.getOrCreate [] value).1 = some ((t.lookup []).getD value) ∨
        t.lookup [] = none ∧ (t.getOrCreate [] value).1 = none) ∧
      ∀ items', (t.getOrCreate [] value).2.lookup items' =
        if items' = [] then (t.getOrCreate [] value).1 else t.lookup items' := by
  obtain ⟨⟨key, v, edges⟩, length, hroot, hfull⟩ := t
  cases hroot
  simp only [getOrCreate, lookup, Node.getOrCreate, Node.lookup, List.tail_nil, Node.common]
  split_ifs with h
  · refine ⟨.inl ?_, fun items' => ?_⟩
    · rw [Option.isNone_iff_eq_none.1 h.1]
      rfl
    · cases items' with
      | nil => rfl
      | cons item' rest' => simp only [Node.lookup, List.tail_nil, Node.common, reduceCtorEq, if_false]
  · refine ⟨?_, fun items' => ?_⟩
    · cases v with
      | none => exact .inr ⟨rfl, rfl⟩
      | some w => exact .inl rfl
    · cases items' with
      | nil => rfl
      | cons item' rest' => simp only [Node.lookup, List.tail_nil, Node.common, reduceCtorEq, if_false]

/-- The tree maps a key to the value that `getOrCreate` gives for it, and the other keys as before. -/
theorem lookup_of_getOrCreate (t : Tree κ ν) (items : List κ) (value : ν) (items' : List κ) :
    (t.getOrCreate items value).2.lookup items' =
      if items' = items then (t.getOrCreate items value).1 else t.lookup items' := by
  by_cases h : items = []
  · rw [h]
    exact (t.lookup_getOrCreate_nil value).2 items'
  · exact (t.lookup_getOrCreate h value).2 items'

theorem getOrCreate_cases (t : Tree κ ν) (items : List κ) (value : ν) :
    (t.getOrCreate items value).1 = some ((t.lookup items).getD value) ∨
      t.lookup items = none ∧ (t.getOrCreate items value).1 = none := by
  by_cases h : items = []
  · rw [h]
    exact (t.lookup_getOrCreate_nil value).1
  · exact .inl (t.lookup_getOrCreate h value).1

/-- A key with a value keeps it. -/
theorem lookup_mono {t : Tree κ ν} {items items' : List κ} {value v : ν} (h : t.lookup items' = some v) :
    (t.getOrCreate items value).2.lookup items' = some v := by
  rw [lookup_of_getOrCreate]
  split_ifs with heq
  · subst heq
    obtain hvalue | ⟨hnone, -⟩ := t.getOrCreate_cases items' value
    · rw [hvalue, h]
      rfl
    · rw [h] at hnone
      cases hnone
  · exact h

/-- The only key that may get a value is the one asked for, and its value is the new one. -/
theorem lookup_getOrCreate_cases {t : Tree κ ν} {items items' : List κ} {value v : ν}
    (h : (t.getOrCreate items value).2.lookup items' = some v) :
    t.lookup items' = some v ∨ items' = items ∧ v = value := by
  rw [lookup_of_getOrCreate] at h
  split_ifs at h with heq
  · subst heq
    obtain hvalue | ⟨-, hnone⟩ := t.getOrCreate_cases items' value
    · rw [hvalue, Option.some.injEq] at h
      cases hl : t.lookup items' with
      | none =>
          rw [hl] at h
          exact .inr ⟨rfl, h.symm⟩
      | some w =>
          rw [hl] at h
          exact .inl (congrArg some h)
    · rw [hnone] at h
      cases h
  · exact .inl h

end Tree

/-! ### Handlers

`valueHandler` is a function with effects: it takes a state, which stands for everything outside the
tree, to a value and the state afterwards.  The calls of it are visible in that state. -/

namespace Node

variable {σ : Type} [DecidableEq κ]

/-- The end of `getOrCreate` at the node of the key: a branch without value gets one. -/
def fillValue (handler : σ → ν × σ) (s : σ) (key : List κ) (value : Option ν) (edges : List (Node κ ν))
    (created added : Bool) : Outcome κ ν × σ :=
  if value.isNone ∧ edges ≠ [] then
    (⟨some (handler s).1, mk key (some (handler s).1) edges, true, added⟩, (handler s).2)
  else (⟨value, mk key value edges, created, added⟩, s)

mutual

/-- `getOrCreate` from a node on, with the calls of `valueHandler` where the source has them. -/
def getOrCreateWith (handler : σ → ν × σ) (s : σ) : Node κ ν → List κ → Outcome κ ν × σ
  | mk key value edges, items =>
      match common key.tail items with
      | (pre, _ :: _, []) =>
          let (v, s) := handler s
          fillValue handler s (key.take (pre.length + 1)) (some v) [mk (key.drop (pre.length + 1)) value edges]
            true true
      | (pre, _ :: _, item :: rest) =>
          let (v, s) := handler s
          (⟨some v, createBranch key value edges (pre.length + 1) none [mk (item :: rest) (some v) []],
            true, true⟩, s)
      | (_, [], []) => fillValue handler s key value edges false false
      | (_, [], item :: rest) =>
          let ((v, edges, created, added), s) := edgesGetOrCreateWith handler s edges item rest
          (⟨v, mk key value edges, created, added⟩, s)

def edgesGetOrCreateWith (handler : σ → ν × σ) (s : σ) :
    List (Node κ ν) → κ → List κ → (Option ν × List (Node κ ν) × Bool × Bool) × σ
  | [], item, rest =>
      let (v, s) := handler s
      ((some v, [mk (item :: rest) (some v) []], true, true), s)
  | e :: es, item, rest =>
      if e.key.head? = some item then
        let (r, s) := getOrCreateWith handler s e rest
        ((r.value, r.node :: es, r.created, r.added), s)
      else
        let ((v, es, created, added), s) := edgesGetOrCreateWith handler s es item rest
        ((v, e :: es, created, added), s)

end

mutual

/-- The handler is called once where a value is created, and not at all elsewhere. -/
theorem getOrCreateWith_eq (handler : σ → ν × σ) (s : σ) : ∀ (n : Node κ ν) (items : List κ),
    getOrCreateWith handler s n items =
      (getOrCreate (handler s).1 n items,
        if (getOrCreate (handler s).1 n items).created then (handler s).2 else s)
  | mk key value edges, items => by
      rcases hc : common key.tail items with ⟨pre, _ | ⟨a, ks⟩, _ | ⟨x, rest⟩⟩
      · simp only [getOrCreateWith, getOrCreate, hc, fillValue]
        by_cases h : value.isNone ∧ edges ≠ []
        · simp only [if_pos h, if_true]
        · simp only [if_neg h, Bool.false_eq_true, if_false]
      · have ih := edgesGetOrCreateWith_eq handler s edges x rest
        simp only [getOrCreateWith, getOrCreate, hc, ih]
      · simp only [getOrCreateWith, getOrCreate, hc, fillValue, Option.isNone_some, Bool.false_eq_true,
          false_and, if_false, if_true, createBranch]
      · simp only [getOrCreateWith, getOrCreate, hc, if_true]

theorem edgesGetOrCreateWith_eq (handler : σ → ν × σ) (s : σ) :
    ∀ (es : List (Node κ ν)) (item : κ) (rest : List κ),
    edgesGetOrCreateWith handler s es item rest =
      (edgesGetOrCreate (handler s).1 es item rest,
        if (edgesGetOrCreate (handler s).1 es item rest).2.2.1 then (handler s).2 else s)
  | [], item, rest => rfl
  | e :: es, item, rest => by
      by_cases h : e.key.head? = some item
      · have ih := getOrCreateWith_eq handler s e rest
        simp only [edgesGetOrCreateWith, edgesGetOrCreate, if_pos h, ih]
      · have ih := edgesGetOrCreateWith_eq handler s es item rest
        simp only [edgesGetOrCreateWith, edgesGetOrCreate, if_neg h, ih]

end

end Node

namespace Tree

variable {σ : Type} [DecidableEq κ]

/-- `getOrCreate` on a tree, with the state afterwards. -/
def getOrCreateWith (t : Tree κ ν) (items : List κ) (handler : σ → ν × σ) (s : σ) :
    (Option ν × Tree κ ν) × σ :=
  let r := t.root.getOrCreateWith handler s items
  have hr : r.1.node = (t.root.getOrCreate (handler s).1 items).node :=
    congrArg (fun p => p.1.node) (Node.getOrCreateWith_eq handler s t.root items)
  have hroot := getOrCreate_root t.rooted t.full items (handler s).1
  ((r.1.value, ⟨r.1.node, if r.1.added then t.length + 1 else t.length,
    hr ▸ hroot.1, hr ▸ hroot.2⟩), r.2)

theorem created_eq (t : Tree κ ν) {items : List κ} (h : items ≠ []) (value : ν) :
    (t.root.getOrCreate value items).created = (t.lookup items).isNone := by
  obtain ⟨⟨key, v, edges⟩, length, hroot, hfull⟩ := t
  cases hroot
  obtain ⟨item, rest, rfl⟩ := List.exists_cons_of_ne_nil h
  obtain ⟨hcreates, -, -⟩ := Node.edgesGetOrCreate_spec value edges item rest hfull
  simp only [lookup, Node.getOrCreate, Node.lookup, List.tail_nil, Node.common]
  exact hcreates.created_eq

/-- A call gives the value there is and does not call the handler, or it gives the value of its one call
of the handler; it sets the value of its own key only. -/
theorem getOrCreateWith_spec (t : Tree κ ν) {items : List κ} (h : items ≠ []) (handler : σ → ν × σ) (s : σ) :
    (t.getOrCreateWith items handler s).1.1 = some ((t.lookup items).getD (handler s).1) ∧
      (t.getOrCreateWith items handler s).2 = (if (t.lookup items).isNone then (handler s).2 else s) ∧
      ∀ items', (t.getOrCreateWith items handler s).1.2.lookup items' =
        if items' = items then (t.getOrCreateWith items handler s).1.1 else t.lookup items' := by
  have heq := Node.getOrCreateWith_eq handler s t.root items
  obtain ⟨hvalue, hnow⟩ := t.lookup_getOrCreate h (handler s).1
  have hcreated := t.created_eq h (handler s).1
  simp only [getOrCreateWith, lookup, heq] at hcreated ⊢
  rw [hcreated]
  exact ⟨hvalue, rfl, hnow⟩

/-- A call of `getOrCreate`. -/
structure Call (κ ν σ : Type) where
  items : List κ
  handler : σ → ν × σ

/-- The tree and the state after a sequence of calls. -/
def run (t : Tree κ ν) (s : σ) : List (Call κ ν σ) → Tree κ ν × σ
  | [] => (t, s)
  | c :: calls =>
      let r := t.getOrCreateWith c.items c.handler s
      run r.1.2 r.2 calls

theorem run_append (t : Tree κ ν) (s : σ) (calls calls' : List (Call κ ν σ)) :
    t.run s (calls ++ calls') = (t.run s calls).1.run (t.run s calls).2 calls' := by
  induction calls generalizing t s with
  | nil => rfl
  | cons c calls ih => exact ih _ _

/-- Calls with other keys leave the value of a key alone. -/
theorem lookup_run_of_ne (t : Tree κ ν) (s : σ) {calls : List (Call κ ν σ)} (hne : ∀ c ∈ calls, c.items ≠ [])
    {items : List κ} (h : ∀ c ∈ calls, c.items ≠ items) : (t.run s calls).1.lookup items = t.lookup items := by
  induction calls generalizing t s with
  | nil => rfl
  | cons c calls ih =>
      obtain ⟨-, -, hnow⟩ := t.getOrCreateWith_spec (hne c (List.mem_cons_self ..)) c.handler s
      rw [run, ih _ _ (fun c' hc' => hne c' (List.mem_cons_of_mem _ hc'))
        (fun c' hc' => h c' (List.mem_cons_of_mem _ hc')), hnow, if_neg]
      exact fun heq => h c (List.mem_cons_self ..) heq.symm

/-- A value stays. -/
theorem lookup_run_of_some {t : Tree κ ν} (s : σ) {calls : List (Call κ ν σ)} (hne : ∀ c ∈ calls, c.items ≠ [])
    {items : List κ} {v : ν} (h : t.lookup items = some v) : (t.run s calls).1.lookup items = some v := by
  induction calls generalizing t s with
  | nil => exact h
  | cons c calls ih =>
      obtain ⟨hvalue, -, hnow⟩ := t.getOrCreateWith_spec (hne c (List.mem_cons_self ..)) c.handler s
      refine ih _ (fun c' hc' => hne c' (List.mem_cons_of_mem _ hc')) ?_
      rw [hnow]
      split_ifs with heq
      · subst heq
        rw [hvalue, h]
        rfl
      · exact h

/-- The tree is a finite map over key sequences, in every run that starts with the empty tree.  The
first call with a key creates its value with one call of the handler; a later one gives that value and
calls no handler; and no call changes the value under another key. -/
theorem run_getOrCreate {s₀ : σ} {calls : List (Call κ ν σ)} (hne : ∀ c ∈ calls, c.items ≠ [])
    {items : List κ} (hitems : items ≠ []) (handler : σ → ν × σ) {t t' : Tree κ ν} {s s' : σ}
    {value : Option ν} (hrun : new.run s₀ calls = (t, s))
    (hcall : t.getOrCreateWith items handler s = ((value, t'), s')) :
    ((∀ c ∈ calls, c.items ≠ items) → value = some (handler s).1 ∧ s' = (handler s).2) ∧
      (∀ before c after, calls = before ++ c :: after → c.items = items →
        (∀ c' ∈ before, c'.items ≠ items) →
        value = some (c.handler ((new : Tree κ ν).run s₀ before).2).1 ∧ s' = s) ∧
      ∀ items', items' ≠ items → t'.lookup items' = t.lookup items' := by
  obtain ⟨hvalue, hstate, hnow⟩ := t.getOrCreateWith_spec hitems handler s
  simp only [hcall] at hvalue hstate hnow
  refine ⟨fun hfresh => ?_, fun before c after hcalls hc hfresh => ?_, fun items' hne' => ?_⟩
  · have hnone : t.lookup items = none := by
      have := lookup_run_of_ne (new : Tree κ ν) s₀ hne hfresh
      rwa [hrun, lookup_new] at this
    rw [hvalue, hstate, hnone]
    exact ⟨rfl, rfl⟩
  · subst hcalls hc
    have hbefore : ∀ c' ∈ before, c'.items ≠ [] := fun c' hc' => hne c' (by simp [hc'])
    have hnone : ((new : Tree κ ν).run s₀ before).1.lookup c.items = none := by
      rw [lookup_run_of_ne _ _ hbefore hfresh, lookup_new]
    obtain ⟨hcvalue, -, hcnow⟩ :=
      ((new : Tree κ ν).run s₀ before).1.getOrCreateWith_spec hitems c.handler
        ((new : Tree κ ν).run s₀ before).2
    -- the value that the first call has created is still there
    have hsome : t.lookup c.items = some (c.handler ((new : Tree κ ν).run s₀ before).2).1 := by
      have ht : t = ((new : Tree κ ν).run s₀ (before ++ c :: after)).1 := by rw [hrun]
      rw [ht, run_append, run]
      refine lookup_run_of_some _ (fun c' hc' => hne c' (by simp [hc'])) ?_
      rw [hcnow, if_pos rfl, hcvalue, hnone]
      rfl
    rw [hvalue, hstate, hsome]
    exact ⟨rfl, rfl⟩
  · rw [hnow, if_neg hne']

/-- A handler that counts its calls and gives their number. -/
def countCalls (s : ℕ) : ℕ × ℕ := (s + 1, s + 1)

/-- Keys that split and extend the edges of the tree. -/
def sampleCalls : List (Call Char ℕ ℕ) :=
  [⟨['a', 'b', 'c'], countCalls⟩, ⟨['a', 'b', 'd'], countCalls⟩, ⟨['a', 'b', 'd', 'e', 'f'], countCalls⟩,
    ⟨['a'], countCalls⟩]

theorem run_getOrCreate_sampleCalls :
    ((new : Tree Char ℕ).run 0 sampleCalls).2 = 4 ∧
      (((new : Tree Char ℕ).run 0 sampleCalls).1.getOrCreateWith ['a', 'b', 'd'] countCalls 4).1.1 = some 2 ∧
      (((new : Tree Char ℕ).run 0 sampleCalls).1.getOrCreateWith ['a', 'b', 'd'] countCalls 4).2 = 4 := by
  have hstate : ((new : Tree Char ℕ).run 0 sampleCalls).2 = 4 := by decide
  have h := @run_getOrCreate Char ℕ ℕ _ 0 sampleCalls (by decide) ['a', 'b', 'd'] (by decide) countCalls
    _ _ _ _ _ (Prod.ext rfl hstate) rfl
  exact ⟨hstate, h.2.1 [⟨['a', 'b', 'c'], countCalls⟩] ⟨['a', 'b', 'd'], countCalls⟩
    [⟨['a', 'b', 'd', 'e', 'f'], countCalls⟩, ⟨['a'], countCalls⟩] rfl rfl (by decide)⟩

end Tree
end CqlDriver.Mapping
