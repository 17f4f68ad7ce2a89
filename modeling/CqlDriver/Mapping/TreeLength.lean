import CqlDriver.Mapping.Tree

/-! # The length of the radix tree (`lib/mapping/tree.js`)

`_onItemAdded` counts an item and emits `add`.  `getOrCreate` calls it for a new leaf and for the value of a node
that is split off, and not for the value that an inner node gets later.  So a key is left out of the count just when
two keys that are there already go on behind it in different ways (`Node.added_iff`). -/

namespace CqlDriver.Mapping

variable {κ ν : Type}

namespace Node

/-- A node below the root; one without a value has two edges, and no two edges start in the same way. -/
inductive Compressed : Node κ ν → Prop
  | mk {key : List κ} {value : Option ν} {edges : List (Node κ ν)} (hkey : key ≠ [])
      (hvalue : value = none → 2 ≤ edges.length) (hheads : (edges.map fun e => e.key.head?).Nodup)
      (hedges : ∀ e ∈ edges, Compressed e) : Compressed (mk key value edges)

theorem key_ne_nil {n : Node κ ν} (h : n.Compressed) : n.key ≠ [] := by
  cases h with
  | mk hkey => exact hkey

theorem compressed_leaf (item : κ) (rest : List κ) (v : ν) : Compressed (mk (item :: rest) (some v) []) :=
  .mk (List.cons_ne_nil _ _) (fun h => by cases h) List.nodup_nil (by simp)

variable [DecidableEq κ]

/-- The value under a key behind some edges. -/
def edgesFind (es : List (Node κ ν)) : List κ → Option ν
  | [] => none
  | item :: rest => edgesLookup es item rest

theorem lookup_mk_append (k : κ) (ks : List κ) (value : Option ν) (edges : List (Node κ ν)) {rest : List κ}
    (h : rest ≠ []) : lookup (mk (k :: ks) value edges) (ks ++ rest) = edgesFind edges rest := by
  obtain ⟨item, rest, rfl⟩ := List.exists_cons_of_ne_nil h
  exact lookup_mk_cons k ks value edges (item :: rest)

theorem lookup_mk_self (k : κ) (ks : List κ) (value : Option ν) (edges : List (Node κ ν)) :
    lookup (mk (k :: ks) value edges) ks = value := by
  have h := lookup_mk_cons k ks value edges []
  rwa [List.append_nil] at h

/-- Every edge is found, as its start is the only one of its kind. -/
theorem edgesLookup_of_mem {es : List (Node κ ν)} (hheads : (es.map fun e => e.key.head?).Nodup) {e : Node κ ν}
    (he : e ∈ es) {item : κ} (hitem : e.key.head? = some item) (rest : List κ) :
    edgesLookup es item rest = lookup e rest := by
  induction es with
  | nil => cases he
  | cons d es ih =>
      rw [List.map_cons, List.nodup_cons] at hheads
      rw [edgesLookup]
      rcases List.mem_cons.1 he with rfl | he
      · rw [if_pos hitem]
      · rw [if_neg, ih hheads.2 he]
        intro hd
        exact hheads.1 (List.mem_map.2 ⟨e, he, hitem.trans hd.symm⟩)

/-- There is a value below every node. -/
theorem exists_lookup : ∀ {n : Node κ ν}, n.Compressed → ∃ rest, (n.lookup rest).isSome = true
  | mk [] _ _, h => absurd rfl (key_ne_nil h)
  | mk (k :: ks) (some v) edges, _ => ⟨ks, by rw [lookup_mk_self]; rfl⟩
  | mk (k :: ks) none [], h => by
      cases h with
      | mk _ hvalue => exact absurd (hvalue rfl) (by simp)
  | mk (k :: ks) none (e :: es), h => by
      cases h with
      | mk _ _ hheads hedges =>
          have he := hedges e (List.mem_cons_self ..)
          obtain ⟨rest, hrest⟩ := exists_lookup he
          obtain ⟨item, ks', hkey⟩ := List.exists_cons_of_ne_nil (key_ne_nil he)
          refine ⟨ks ++ item :: rest, ?_⟩
          rw [lookup_mk_append _ _ _ _ (List.cons_ne_nil _ _), edgesFind,
            edgesLookup_of_mem hheads (List.mem_cons_self ..) (by rw [hkey]; rfl)]
          exact hrest

/-- A key without a value, behind which two keys with values go on in different ways. -/
def Branches (find : List κ → Option ν) (items : List κ) : Prop :=
  find items = none ∧ ∃ a b, a ≠ b ∧ (∃ rest, (find (items ++ a :: rest)).isSome = true) ∧
    ∃ rest, (find (items ++ b :: rest)).isSome = true

/-- An inner node without a value is where keys branch. -/
theorem branches_of_compressed {k : κ} {ks : List κ} {edges : List (Node κ ν)}
    (h : Compressed (mk (k :: ks) none edges)) : Branches (lookup (mk (k :: ks) none edges)) ks := by
  cases h with
  | mk _ hvalue hheads hedges =>
      obtain ⟨e, es, rfl⟩ := List.exists_cons_of_length_pos (show 0 < edges.length by have := hvalue rfl; omega)
      obtain ⟨e', es, rfl⟩ := List.exists_cons_of_length_pos (show 0 < es.length by
        have := hvalue rfl
        rw [List.length_cons] at this
        omega)
      have hfind : ∀ d ∈ e :: e' :: es, ∃ item, d.key.head? = some item ∧
          ∃ rest, (lookup (mk (k :: ks) none (e :: e' :: es)) (ks ++ item :: rest)).isSome = true := by
        intro d hd
        obtain ⟨rest, hrest⟩ := exists_lookup (hedges d hd)
        obtain ⟨item, ks', hkey⟩ := List.exists_cons_of_ne_nil (key_ne_nil (hedges d hd))
        have hhead : d.key.head? = some item := by rw [hkey]; rfl
        refine ⟨item, hhead, rest, ?_⟩
        rw [lookup_mk_append _ _ _ _ (List.cons_ne_nil _ _), edgesFind, edgesLookup_of_mem hheads hd hhead]
        exact hrest
      obtain ⟨a, ha, hfa⟩ := hfind e (by simp)
      obtain ⟨b, hb, hfb⟩ := hfind e' (by simp)
      refine ⟨lookup_mk_self k ks none _, a, b, ?_, hfa, hfb⟩
      rintro rfl
      rw [List.map_cons, List.map_cons, ha, hb, List.nodup_cons] at hheads
      exact hheads.1 (List.mem_cons_self ..)

/-- Behind a place inside the key of a node only that key goes on. -/
theorem not_branches_of_inside {k a : κ} {pre ks : List κ} {value : Option ν} {edges : List (Node κ ν)}
    {items : List κ} (hitems : items = [] ∨ ∃ x rest, items = x :: rest ∧ a ≠ x) :
    lookup (mk (k :: (pre ++ a :: ks)) value edges) (pre ++ items) = none ∧
      ¬ Branches (lookup (mk (k :: (pre ++ a :: ks)) value edges)) (pre ++ items) := by
  have hcons : ∀ x rest, x ≠ a → lookup (mk (k :: (pre ++ a :: ks)) value edges) (pre ++ x :: rest) = none := by
    intro x rest hx
    rw [lookup_append, lookup_cons_cons]
    exact if_neg (Ne.symm hx)
  rcases hitems with rfl | ⟨x, rest, rfl, hx⟩
  · refine ⟨by rw [lookup_append, lookup_cons_cons], ?_⟩
    rintro ⟨-, b, c, hbc, ⟨r, hr⟩, r', hr'⟩
    have hb : b = a := by
      by_contra hb
      rw [List.append_nil, hcons b r hb] at hr
      cases hr
    have hc : c = a := by
      by_contra hc
      rw [List.append_nil, hcons c r' hc] at hr'
      cases hr'
    exact hbc (hb.trans hc.symm)
  · refine ⟨hcons x rest (Ne.symm hx), ?_⟩
    rintro ⟨-, b, c, -, ⟨r, hr⟩, -⟩
    rw [List.append_assoc, List.cons_append, hcons x _ (Ne.symm hx)] at hr
    cases hr

mutual

/-- An item is counted for a key without a value, unless the keys branch there. -/
theorem added_iff (new : ν) : ∀ (n : Node κ ν) (items : List κ), n.Compressed →
    ((getOrCreate new n items).added = true ↔ n.lookup items = none ∧ ¬ Branches n.lookup items)
  | mk [] _ _, _, h => absurd rfl (key_ne_nil h)
  | mk (k :: ks) value edges, items, h => by
      have heq := common_eq ks items
      rcases hc : common ks items with ⟨pre, _ | ⟨a, ks'⟩, _ | ⟨x, rest⟩⟩
      · rw [hc, List.append_nil] at heq
        obtain ⟨rfl, rfl⟩ := heq
        simp only [getOrCreate, List.tail_cons, hc, lookup_mk_self]
        cases value with
        | none =>
            refine iff_of_false ?_ fun hnot => hnot.2 (branches_of_compressed h)
            split_ifs <;> decide
        | some v => simp
      · rw [hc, List.append_nil] at heq
        obtain ⟨rfl, rfl⟩ := heq
        obtain ⟨hkey, hvalue, hheads, hedges⟩ := h
        have hadded := edgesAdded_iff new edges x rest hheads hedges
        have hbranches : Branches (lookup (mk (k :: ks) value edges)) (ks ++ x :: rest) ↔
            Branches (edgesFind edges) (x :: rest) := by
          unfold Branches
          simp only [List.append_assoc, lookup_mk_append k ks value edges (List.cons_ne_nil _ _), List.cons_append]
        simp only [getOrCreate, List.tail_cons, hc]
        rw [hadded, hbranches, lookup_mk_append k ks value edges (List.cons_ne_nil _ _)]
        rfl
      · rw [hc] at heq
        obtain ⟨rfl, rfl⟩ := heq
        simp only [getOrCreate, List.tail_cons, hc, true_iff]
        exact not_branches_of_inside (Or.inl rfl)
      · have hne := common_head_ne hc
        rw [hc] at heq
        obtain ⟨rfl, rfl⟩ := heq
        simp only [getOrCreate, List.tail_cons, hc, true_iff]
        exact not_branches_of_inside (Or.inr ⟨x, rest, rfl, hne⟩)

theorem edgesAdded_iff (new : ν) : ∀ (es : List (Node κ ν)) (item : κ) (rest : List κ),
    (es.map fun e => e.key.head?).Nodup → (∀ e ∈ es, e.Compressed) →
    ((edgesGetOrCreate new es item rest).2.2.2 = true ↔
      edgesLookup es item rest = none ∧ ¬ Branches (edgesFind es) (item :: rest))
  | [], item, rest, _, _ => by
      rw [edgesGetOrCreate]
      refine iff_of_true rfl ⟨rfl, ?_⟩
      rintro ⟨-, a, b, -, ⟨r, hr⟩, -⟩
      exact absurd hr (by simp [edgesFind, edgesLookup])
  | e :: es, item, rest, hheads, hedges => by
      by_cases he : e.key.head? = some item
      · have hadded := added_iff new e rest (hedges e (List.mem_cons_self ..))
        have hfind : ∀ r, edgesFind (e :: es) (item :: r) = lookup e r := fun r => by
          rw [edgesFind, edgesLookup, if_pos he]
        rw [edgesGetOrCreate, if_pos he, edgesLookup, if_pos he, hadded]
        unfold Branches
        simp only [List.cons_append, hfind]
      · rw [List.map_cons, List.nodup_cons] at hheads
        have hadded := edgesAdded_iff new es item rest hheads.2 fun d hd => hedges d (List.mem_cons_of_mem _ hd)
        have hfind : ∀ r, edgesFind (e :: es) (item :: r) = edgesFind es (item :: r) := fun r => by
          rw [edgesFind, edgesLookup, if_neg he, edgesFind]
        rw [edgesGetOrCreate, if_neg he, edgesLookup, if_neg he, hadded]
        unfold Branches
        simp only [List.cons_append, hfind]

end

/-! ### The shape is kept -/

omit [DecidableEq κ] in
theorem compressed_createBranch {k a : κ} {pre ks : List κ} {value newValue : Option ν}
    {edges others : List (Node κ ν)} (h : Compressed (mk (k :: (pre ++ a :: ks)) value edges))
    (hothers : ∀ e ∈ others, Compressed e) (hheads : (some a :: others.map fun e => e.key.head?).Nodup)
    (hnew : newValue = none → others ≠ []) :
    Compressed (createBranch (k :: (pre ++ a :: ks)) value edges (pre.length + 1) newValue others) := by
  obtain ⟨-, hvalue, hedges', hedges⟩ := h
  have hdrop : (k :: (pre ++ a :: ks)).drop (pre.length + 1) = a :: ks := by simp
  rw [createBranch, hdrop]
  refine .mk (by simp) (fun hn => ?_) hheads fun e he => ?_
  · have := List.length_pos_of_ne_nil (hnew hn)
    rw [List.length_cons]
    omega
  · obtain rfl | he := List.mem_cons.1 he
    · exact .mk (by simp) hvalue hedges' hedges
    · exact hothers e he

/-- The starts of the edges stay, and there is one more at most. -/
def Extends (new : κ) (heads heads' : List (Option κ)) : Prop :=
  heads' = heads ∨ some new ∉ heads ∧ heads' = heads ++ [some new]

omit [DecidableEq κ] in
theorem Extends.nodup {new : κ} {heads heads' : List (Option κ)} (h : Extends new heads heads') (hn : heads.Nodup) :
    heads'.Nodup := by
  obtain rfl | ⟨hnew, rfl⟩ := h
  · exact hn
  · exact hn.append (List.nodup_singleton _) (by simpa using hnew)

omit [DecidableEq κ] in
theorem Extends.length_le {new : κ} {heads heads' : List (Option κ)} (h : Extends new heads heads') :
    heads.length ≤ heads'.length := by
  obtain rfl | ⟨-, rfl⟩ := h
  · exact le_rfl
  · simp

mutual

theorem compressed_getOrCreate (new : ν) : ∀ (n : Node κ ν) (items : List κ), n.Compressed →
    (getOrCreate new n items).node.Compressed ∧ (getOrCreate new n items).node.key.head? = n.key.head?
  | mk [] _ _, _, h => absurd rfl (key_ne_nil h)
  | mk (k :: ks) value edges, items, h => by
      have heq := common_eq ks items
      rcases hc : common ks items with ⟨pre, _ | ⟨a, ks'⟩, _ | ⟨x, rest⟩⟩
      · simp only [getOrCreate, List.tail_cons, hc]
        split_ifs
        · obtain ⟨hkey, -, hheads, hedges⟩ := h
          exact ⟨.mk hkey (fun hn => by cases hn) hheads hedges, rfl⟩
        · exact ⟨h, rfl⟩
      · obtain ⟨hkey, hvalue, hheads, hedges⟩ := h
        obtain ⟨hextends, hedges'⟩ := compressed_edgesGetOrCreate new edges x rest hedges
        have hlength := hextends.length_le
        rw [List.length_map, List.length_map] at hlength
        simp only [getOrCreate, List.tail_cons, hc]
        exact ⟨.mk hkey (fun hn => (hvalue hn).trans hlength) (hextends.nodup hheads) hedges', rfl⟩
      · rw [hc] at heq
        obtain ⟨rfl, rfl⟩ := heq
        simp only [getOrCreate, List.tail_cons, hc]
        refine ⟨compressed_createBranch h (by simp) (List.nodup_singleton _) (fun hn => by cases hn), ?_⟩
        simp [createBranch, key]
      · have hne := common_head_ne hc
        rw [hc] at heq
        obtain ⟨rfl, rfl⟩ := heq
        simp only [getOrCreate, List.tail_cons, hc]
        refine ⟨compressed_createBranch h ?_ (by simpa [key] using hne) (fun _ => List.cons_ne_nil _ _), ?_⟩
        · intro e he
          rw [List.mem_singleton.1 he]
          exact compressed_leaf x rest new
        · simp [createBranch, key]

theorem compressed_edgesGetOrCreate (new : ν) : ∀ (es : List (Node κ ν)) (item : κ) (rest : List κ),
    (∀ e ∈ es, e.Compressed) →
    Extends item (es.map fun e => e.key.head?)
        ((edgesGetOrCreate new es item rest).2.1.map fun e => e.key.head?) ∧
      ∀ e ∈ (edgesGetOrCreate new es item rest).2.1, e.Compressed
  | [], item, rest, _ => by
      rw [edgesGetOrCreate]
      refine ⟨Or.inr ⟨by simp, rfl⟩, fun e he => ?_⟩
      rw [List.mem_singleton.1 he]
      exact compressed_leaf item rest new
  | e :: es, item, rest, hedges => by
      by_cases he : e.key.head? = some item
      · obtain ⟨hcompressed, hhead⟩ := compressed_getOrCreate new e rest (hedges e (List.mem_cons_self ..))
        rw [edgesGetOrCreate, if_pos he]
        refine ⟨Or.inl ?_, fun d hd => ?_⟩
        · rw [List.map_cons, List.map_cons, hhead]
        · obtain rfl | hd := List.mem_cons.1 hd
          · exact hcompressed
          · exact hedges d (List.mem_cons_of_mem _ hd)
      · obtain ⟨hextends, hedges'⟩ := compressed_edgesGetOrCreate new es item rest fun d hd =>
          hedges d (List.mem_cons_of_mem _ hd)
        rw [edgesGetOrCreate, if_neg he]
        refine ⟨?_, fun d hd => ?_⟩
        · rw [List.map_cons, List.map_cons]
          obtain heq | ⟨hnew, heq⟩ := hextends
          · exact Or.inl (by rw [heq])
          · refine Or.inr ⟨?_, by rw [heq]; rfl⟩
            rw [List.mem_cons, not_or]
            exact ⟨Ne.symm he, hnew⟩
        · obtain rfl | hd := List.mem_cons.1 hd
          · exact hedges d (List.mem_cons_self ..)
          · exact hedges' d hd

end

end Node

/-! ### Trees -/

namespace Tree

/-- The edges of the root are compressed. -/
structure Compact (t : Tree κ ν) : Prop where
  heads : (t.root.edges.map fun e => e.key.head?).Nodup
  edges : ∀ e ∈ t.root.edges, e.Compressed

theorem compact_new : (new : Tree κ ν).Compact := ⟨List.nodup_nil, by simp [new, Node.empty, Node.edges]⟩

variable {σ : Type} [DecidableEq κ]

/-- The `add` event of a call, with the length in it. -/
def addEvent (t : Tree κ ν) (items : List κ) (handler : σ → ν × σ) (s : σ) : Option ℕ :=
  if (t.root.getOrCreateWith handler s items).1.added then some (t.length + 1) else none

theorem added_iff (t : Tree κ ν) (ht : t.Compact) {items : List κ} (hne : items ≠ []) (new : ν) :
    (t.root.getOrCreate new items).added = true ↔ t.lookup items = none ∧ ¬ Node.Branches t.lookup items := by
  obtain ⟨⟨key, v, edges⟩, length, hroot, hfull⟩ := t
  cases hroot
  obtain ⟨item, rest, rfl⟩ := List.exists_cons_of_ne_nil hne
  have hlookup : ∀ x r, lookup ⟨.mk [] v edges, length, rfl, hfull⟩ (x :: r) = Node.edgesFind edges (x :: r) :=
    fun _ _ => rfl
  have hadded := Node.edgesAdded_iff new edges item rest ht.heads ht.edges
  unfold Node.Branches at hadded ⊢
  simp only [List.cons_append, hlookup] at hadded ⊢
  exact hadded

theorem compact_getOrCreateWith {t : Tree κ ν} (ht : t.Compact) {items : List κ} (hne : items ≠ [])
    (handler : σ → ν × σ) (s : σ) : (t.getOrCreateWith items handler s).1.2.Compact := by
  have hroot : (t.getOrCreateWith items handler s).1.2.root = (t.root.getOrCreate (handler s).1 items).node :=
    congrArg (fun p => p.1.node) (Node.getOrCreateWith_eq handler s t.root items)
  obtain ⟨⟨key, v, edges⟩, length, hkey, hfull⟩ := t
  cases hkey
  obtain ⟨item, rest, rfl⟩ := List.exists_cons_of_ne_nil hne
  obtain ⟨hextends, hedges⟩ := Node.compressed_edgesGetOrCreate (handler s).1 edges item rest ht.edges
  have hedges_eq : (Node.getOrCreate (handler s).1 (.mk [] v edges) (item :: rest)).node.edges =
      (Node.edgesGetOrCreate (handler s).1 edges item rest).2.1 := rfl
  refine ⟨?_, ?_⟩
  · rw [hroot, hedges_eq]
    exact hextends.nodup ht.heads
  · rw [hroot, hedges_eq]
    exact hedges

theorem length_getOrCreateWith (t : Tree κ ν) (items : List κ) (handler : σ → ν × σ) (s : σ) :
    (t.getOrCreateWith items handler s).1.2.length = t.length + (t.addEvent items handler s).toList.length := by
  rw [getOrCreateWith, addEvent]
  split_ifs <;> rfl

/-- The event of a call: one with the next length, unless the key is there or keys branch at it. -/
theorem addEvent_eq {t : Tree κ ν} (ht : t.Compact) {items : List κ} (hne : items ≠ []) (handler : σ → ν × σ)
    (s : σ) [Decidable (t.lookup items = none ∧ ¬ Node.Branches t.lookup items)] :
    t.addEvent items handler s =
      if t.lookup items = none ∧ ¬ Node.Branches t.lookup items then some (t.length + 1) else none := by
  have hadded := t.added_iff ht hne (handler s).1
  rw [addEvent, Node.getOrCreateWith_eq]
  exact if_congr hadded rfl rfl

/-! ### Runs -/

/-- The keys of a sequence of calls. -/
def keys (calls : List (Call κ ν σ)) : List (List κ) := calls.map (·.items)

/-- A new key behind which two keys of a list go on in different ways. -/
def BranchPoint (keys : List (List κ)) (items : List κ) : Prop :=
  items ∉ keys ∧ ∃ a b, a ≠ b ∧ (∃ rest, items ++ a :: rest ∈ keys) ∧ ∃ rest, items ++ b :: rest ∈ keys

/-- After the calls that precede it, a call leaves the number of keys in the length, and it emits an event with that
number just when its key is a new one. -/
structure Counts (s₀ : σ) (before : List (Call κ ν σ)) (c : Call κ ν σ) : Prop where
  length : ((new : Tree κ ν).run s₀ (before ++ [c])).1.length = (keys (before ++ [c])).toFinset.card
  event : ((new : Tree κ ν).run s₀ before).1.addEvent c.items c.handler ((new : Tree κ ν).run s₀ before).2 =
    if c.items ∈ keys before then none else some (keys (before ++ [c])).toFinset.card

theorem lookup_run_isSome (t : Tree κ ν) (s : σ) {calls : List (Call κ ν σ)} (hne : ∀ c ∈ calls, c.items ≠ [])
    (items : List κ) :
    ((t.run s calls).1.lookup items).isSome = true ↔ (t.lookup items).isSome = true ∨ items ∈ keys calls := by
  induction calls generalizing t s with
  | nil => simp [run, keys]
  | cons c calls ih =>
      obtain ⟨hvalue, -, hnow⟩ := t.getOrCreateWith_spec (hne c (List.mem_cons_self ..)) c.handler s
      rw [run, ih _ _ fun c' hc' => hne c' (List.mem_cons_of_mem _ hc'), hnow]
      simp only [keys, List.map_cons, List.mem_cons]
      split_ifs with heq
      · rw [hvalue, Option.isSome_some]
        simp [heq]
      · simp [heq]

theorem compact_run {t : Tree κ ν} (ht : t.Compact) (s : σ) {calls : List (Call κ ν σ)}
    (hne : ∀ c ∈ calls, c.items ≠ []) : (t.run s calls).1.Compact := by
  induction calls generalizing t s with
  | nil => exact ht
  | cons c calls ih =>
      exact ih (compact_getOrCreateWith ht (hne c (List.mem_cons_self ..)) c.handler s) _
        fun c' hc' => hne c' (List.mem_cons_of_mem _ hc')

/-- The keys of a tree branch where those of the calls do. -/
theorem branches_run_iff (s₀ : σ) {calls : List (Call κ ν σ)} (hne : ∀ c ∈ calls, c.items ≠ []) (items : List κ) :
    Node.Branches ((new : Tree κ ν).run s₀ calls).1.lookup items ↔ BranchPoint (keys calls) items := by
  have hlookup : ∀ items, (((new : Tree κ ν).run s₀ calls).1.lookup items).isSome = true ↔ items ∈ keys calls := by
    intro items
    rw [lookup_run_isSome _ _ hne, lookup_new]
    simp
  unfold Node.Branches BranchPoint
  rw [← Option.not_isSome_iff_eq_none]
  simp only [hlookup]

theorem card_keys_append (before : List (Call κ ν σ)) (c : Call κ ν σ) : (keys (before ++ [c])).toFinset.card =
    (keys before).toFinset.card + if c.items ∈ keys before then 0 else 1 := by
  have hkeys : (keys (before ++ [c])).toFinset = insert c.items (keys before).toFinset := by
    ext items
    simp [keys]
  rw [hkeys]
  split_ifs with h
  · rw [Finset.insert_eq_of_mem (List.mem_toFinset.2 h), Nat.add_zero]
  · rw [Finset.card_insert_of_notMem (fun hm => h (List.mem_toFinset.1 hm))]

/-- The step: when the length has been right, it stays so unless keys branch at the key of the call. -/
theorem counts_iff_of_length {s₀ : σ} {before : List (Call κ ν σ)} {c : Call κ ν σ}
    (hne : ∀ c' ∈ before, c'.items ≠ []) (hc : c.items ≠ [])
    (hlength : ((new : Tree κ ν).run s₀ before).1.length = (keys before).toFinset.card) :
    Counts s₀ before c ↔ ¬ BranchPoint (keys before) c.items := by
  classical
  have hevent := addEvent_eq (compact_run compact_new s₀ hne) hc c.handler ((new : Tree κ ν).run s₀ before).2
  have hlen := length_getOrCreateWith ((new : Tree κ ν).run s₀ before).1 c.items c.handler
    ((new : Tree κ ν).run s₀ before).2
  have hrun : ((new : Tree κ ν).run s₀ (before ++ [c])).1 =
      (((new : Tree κ ν).run s₀ before).1.getOrCreateWith c.items c.handler ((new : Tree κ ν).run s₀ before).2).1.2 := by
    rw [run_append, run, run]
  have hfound := lookup_run_isSome (new : Tree κ ν) s₀ hne c.items
  rw [lookup_new, Option.isSome_none] at hfound
  rw [branches_run_iff s₀ hne, hlength] at hevent
  by_cases hmem : c.items ∈ keys before
  · have hsome := hfound.2 (Or.inr hmem)
    rw [if_neg fun h => by rw [h.1] at hsome; cases hsome] at hevent
    refine iff_of_true ⟨?_, ?_⟩ fun h => h.1 hmem
    · rw [hrun, hlen, hevent, hlength, card_keys_append, if_pos hmem]
      rfl
    · rw [hevent, if_pos hmem]
  · have hnone : ((new : Tree κ ν).run s₀ before).1.lookup c.items = none := by
      rw [← Option.not_isSome_iff_eq_none, hfound]
      simp [hmem]
    constructor
    · intro h hbranch
      have hcount := h.event
      rw [hevent, if_neg fun h => h.2 hbranch, if_neg hmem] at hcount
      cases hcount
    · intro hbranch
      rw [if_pos ⟨hnone, hbranch⟩] at hevent
      refine ⟨?_, ?_⟩
      · rw [hrun, hlen, hevent, hlength, card_keys_append, if_neg hmem]
        rfl
      · rw [hevent, if_neg hmem, card_keys_append, if_neg hmem]

theorem length_run_of_counts {s₀ : σ} {calls : List (Call κ ν σ)}
    (h : ∀ before c after, calls = before ++ c :: after → Counts s₀ before c) :
    ((new : Tree κ ν).run s₀ calls).1.length = (keys calls).toFinset.card := by
  cases calls using List.reverseRecOn with
  | nil => rfl
  | append_singleton before c => exact (h before c [] rfl).length

/-- The length and the events are right in a run just when no call is for a new key at which keys branch. -/
theorem counts_iff (s₀ : σ) (calls : List (Call κ ν σ)) (hne : ∀ c ∈ calls, c.items ≠ []) :
    (∀ before c after, calls = before ++ c :: after → Counts s₀ before c) ↔
      ∀ before c after, calls = before ++ c :: after → ¬ BranchPoint (keys before) c.items := by
  have hstep : ∀ before c after, calls = before ++ c :: after →
      (∀ b d a, before = b ++ d :: a → Counts s₀ b d) →
      (Counts s₀ before c ↔ ¬ BranchPoint (keys before) c.items) := by
    intro before c after heq hbefore
    refine counts_iff_of_length (fun c' hc' => hne c' ?_) (hne c ?_) (length_run_of_counts hbefore)
    · rw [heq]
      exact List.mem_append_left _ hc'
    · simp [heq]
  constructor
  · intro h before c after heq
    refine (hstep before c after heq fun b d a hb => ?_).1 (h before c after heq)
    exact h b d (a ++ c :: after) (by rw [heq, hb, List.append_assoc, List.cons_append])
  · intro h before
    induction hn : before.length using Nat.strong_induction_on generalizing before with
    | _ n ih =>
        intro c after heq
        refine (hstep before c after heq fun b d a hb => ?_).2 (h before c after heq)
        refine ih b.length ?_ b rfl d (a ++ c :: after) (by rw [heq, hb, List.append_assoc, List.cons_append])
        rw [← hn, hb, List.length_append, List.length_cons]
        omega

/-- A key and its prefix. -/
theorem counts_iff_prefixCalls :
    (∀ before c after, [(⟨['a', 'b'], countCalls⟩ : Call Char ℕ ℕ), ⟨['a'], countCalls⟩] = before ++ c :: after →
        Counts 0 before c) ↔
      ∀ before c after, [(⟨['a', 'b'], countCalls⟩ : Call Char ℕ ℕ), ⟨['a'], countCalls⟩] = before ++ c :: after →
        ¬ BranchPoint (keys before) c.items :=
  counts_iff 0 _ (by decide)

/-- The prefix of two keys that are there is not counted. -/
theorem not_counts_branchingCalls : ¬ ∀ calls : List (Call Char ℕ ℕ), (∀ c ∈ calls, c.items ≠ []) →
    ∀ before c after, calls = before ++ c :: after → Counts 0 before c := by
  intro h
  have hlength := (h [⟨['a', 'b'], countCalls⟩, ⟨['a', 'c'], countCalls⟩, ⟨['a'], countCalls⟩] (by decide)
    [⟨['a', 'b'], countCalls⟩, ⟨['a', 'c'], countCalls⟩] ⟨['a'], countCalls⟩ [] rfl).length
  exact absurd hlength (by decide)

end Tree
end CqlDriver.Mapping
