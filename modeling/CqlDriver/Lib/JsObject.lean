import Mathlib.Tactic

/-! # Plain JavaScript objects

A plain object is the list of its own properties.  Reading a name that is not an own property
falls through to `Object.prototype`, whose names are listed in `prototypeNames`; assigning to
`__proto__` calls the inherited setter and creates no own property. -/

namespace JsObject

/-- The property names of `Object.prototype`. -/
def prototypeNames : List String :=
  ["constructor", "__defineGetter__", "__defineSetter__", "hasOwnProperty", "__lookupGetter__",
    "__lookupSetter__", "isPrototypeOf", "propertyIsEnumerable", "toString", "valueOf", "__proto__",
    "toLocaleString"]

/-- A value read from an object. -/
inductive Read (β : Type) where
  | own (v : β)
  /-- The property comes from `Object.prototype`. -/
  | inherited
  | undefined
deriving DecidableEq, Repr

variable {β : Type}

/-- `obj[name]`. -/
def get (obj : List (String × β)) (name : String) : Read β :=
  match obj.lookup name with
  | some v => .own v
  | none => if name ∈ prototypeNames then .inherited else .undefined

/-- `obj[name] = v`: the last assignment to a name wins, and keeps the place of the first. -/
def set : List (String × β) → String → β → List (String × β)
  | [], name, v => if name = "__proto__" then [] else [(name, v)]
  | (n, w) :: obj, name, v => if n = name then (n, v) :: obj else (n, w) :: set obj name v

/-- The property becomes one of the object's own, whatever the name: the definition of a property, or
an assignment to an object without prototype. -/
def define : List (String × β) → String → β → List (String × β)
  | [], name, v => [(name, v)]
  | (n, w) :: obj, name, v => if n = name then (n, v) :: obj else (n, w) :: define obj name v

/-- The names that are listed first, in the order of the numbers. -/
def isArrayIndex (name : String) : Bool :=
  match name.toNat? with
  | some n => toString n == name && decide (n < 2 ^ 32 - 1)
  | none => false

/-- `Object.entries(obj)` -/
def entries (obj : List (String × β)) : List (String × β) :=
  (obj.filter fun p => isArrayIndex p.1).mergeSort (fun p q => p.1.toNat?.getD 0 ≤ q.1.toNat?.getD 0) ++
    obj.filter fun p => !isArrayIndex p.1

theorem define_of_not_mem {obj : List (String × β)} {name : String} (v : β)
    (h : name ∉ obj.map Prod.fst) : define obj name v = obj ++ [(name, v)] := by
  induction obj with
  | nil => rfl
  | cons p obj ih =>
      obtain ⟨n, w⟩ := p
      simp only [List.map_cons, List.mem_cons, not_or] at h
      rw [define, if_neg (fun e => h.1 e.symm), ih h.2, List.cons_append]

theorem length_define_of_mem {obj : List (String × β)} {name : String} (v : β)
    (h : name ∈ obj.map Prod.fst) : (define obj name v).length = obj.length := by
  induction obj with
  | nil => cases h
  | cons p obj ih =>
      obtain ⟨n, w⟩ := p
      by_cases hn : n = name
      · rw [define, if_pos hn]
        rfl
      · simp only [List.map_cons, List.mem_cons] at h
        obtain h | h := h
        · exact absurd h.symm hn
        · rw [define, if_neg hn, List.length_cons, ih h, List.length_cons]

theorem length_define_le (obj : List (String × β)) (name : String) (v : β) :
    (define obj name v).length ≤ obj.length + 1 := by
  by_cases h : name ∈ obj.map Prod.fst
  · rw [length_define_of_mem v h]
    omega
  · rw [define_of_not_mem v h, List.length_append, List.length_singleton]

/-- Assigning a fresh name that is not `__proto__` appends a property. -/
theorem set_of_not_mem {obj : List (String × β)} {name : String} (v : β)
    (h : name ∉ obj.map Prod.fst) (hp : name ≠ "__proto__") : set obj name v = obj ++ [(name, v)] := by
  induction obj with
  | nil => simp [set, hp]
  | cons p obj ih =>
      obtain ⟨n, w⟩ := p
      simp only [List.map_cons, List.mem_cons, not_or] at h
      rw [set, if_neg (fun e => h.1 e.symm), ih h.2, List.cons_append]

/-- Assigning distinct names one after the other leaves the properties in this order. -/
theorem foldl_set_eq : ∀ {props obj : List (String × β)}, (props.map Prod.fst).Nodup →
    (∀ p ∈ props, p.1 ∉ obj.map Prod.fst) → "__proto__" ∉ props.map Prod.fst →
    props.foldl (fun obj p => set obj p.1 p.2) obj = obj ++ props
  | [], obj, _, _, _ => by rw [List.foldl_nil, List.append_nil]
  | p :: props, obj, hnodup, hfresh, hproto => by
      rw [List.map_cons, List.nodup_cons] at hnodup
      rw [List.map_cons, List.mem_cons, not_or] at hproto
      rw [List.foldl_cons, set_of_not_mem p.2 (hfresh p (by simp)) (Ne.symm hproto.1),
        foldl_set_eq hnodup.2 ?_ hproto.2, List.append_assoc, List.singleton_append]
      intro q hq hmem
      rw [List.map_append, List.mem_append, List.map_singleton, List.mem_singleton] at hmem
      obtain hmem | hmem := hmem
      · exact hfresh q (List.mem_cons_of_mem p hq) hmem
      · exact hnodup.1 (hmem ▸ List.mem_map_of_mem hq)

theorem foldl_define_eq : ∀ {props obj : List (String × β)}, (props.map Prod.fst).Nodup →
    (∀ p ∈ props, p.1 ∉ obj.map Prod.fst) →
    props.foldl (fun obj p => define obj p.1 p.2) obj = obj ++ props
  | [], obj, _, _ => by rw [List.foldl_nil, List.append_nil]
  | p :: props, obj, hnodup, hfresh => by
      rw [List.map_cons, List.nodup_cons] at hnodup
      rw [List.foldl_cons, define_of_not_mem p.2 (hfresh p (by simp)),
        foldl_define_eq hnodup.2 ?_, List.append_assoc, List.singleton_append]
      intro q hq hmem
      rw [List.map_append, List.mem_append, List.map_singleton, List.mem_singleton] at hmem
      obtain hmem | hmem := hmem
      · exact hfresh q (List.mem_cons_of_mem p hq) hmem
      · exact hnodup.1 (hmem ▸ List.mem_map_of_mem hq)

/-- Assignments make no property `__proto__`. -/
theorem proto_not_mem_set {obj : List (String × β)} (h : "__proto__" ∉ obj.map Prod.fst) (name : String) (v : β) :
    "__proto__" ∉ (set obj name v).map Prod.fst := by
  induction obj with
  | nil =>
      rw [set]
      split_ifs with hname
      · exact h
      · simpa using Ne.symm hname
  | cons p obj ih =>
      obtain ⟨n, w⟩ := p
      rw [List.map_cons, List.mem_cons, not_or] at h
      rw [set]
      split_ifs
      · simpa using h
      · rw [List.map_cons, List.mem_cons, not_or]
        exact ⟨h.1, ih h.2⟩

theorem proto_not_mem_foldl_set (props : List (String × β)) {obj : List (String × β)}
    (h : "__proto__" ∉ obj.map Prod.fst) :
    "__proto__" ∉ (props.foldl (fun obj p => set obj p.1 p.2) obj).map Prod.fst := by
  induction props generalizing obj with
  | nil => exact h
  | cons p props ih => exact ih (proto_not_mem_set h p.1 p.2)

theorem mem_of_mem_define {obj : List (String × β)} {name other : String} {v : β}
    (h : other ∈ (define obj name v).map Prod.fst) : other = name ∨ other ∈ obj.map Prod.fst := by
  induction obj with
  | nil => simpa [define] using h
  | cons p obj ih =>
      obtain ⟨n, w⟩ := p
      rw [define] at h
      split_ifs at h
      · exact .inr (by simpa using h)
      · obtain h | h := List.mem_cons.1 h
        · exact .inr (by simp [h])
        · exact (ih h).imp_right (List.mem_cons_of_mem n)

theorem mem_of_mem_foldl_define {props obj : List (String × β)} {name : String}
    (h : name ∈ (props.foldl (fun obj p => define obj p.1 p.2) obj).map Prod.fst) :
    name ∈ props.map Prod.fst ∨ name ∈ obj.map Prod.fst := by
  induction props generalizing obj with
  | nil => exact .inr h
  | cons p props ih =>
      rw [List.map_cons, List.mem_cons]
      obtain h | h := ih h
      · exact .inl (.inr h)
      · exact (mem_of_mem_define h).imp_left .inl

theorem mem_of_get {obj : List (String × β)} {name : String} {v : β} (h : get obj name = .own v) :
    (name, v) ∈ obj := by
  rw [get] at h
  split at h
  · rename_i w hw
    obtain ⟨pre, post, rfl, -⟩ := List.lookup_eq_some_iff.1 hw
    cases h
    simp
  · split_ifs at h

/-- An object has one value for each of its names. -/
theorem get_of_mem {obj : List (String × β)} {name : String} {v : β} (hnodup : (obj.map Prod.fst).Nodup)
    (h : (name, v) ∈ obj) : get obj name = .own v := by
  induction obj with
  | nil => cases h
  | cons p obj ih =>
      obtain ⟨n, w⟩ := p
      rw [List.map_cons, List.nodup_cons] at hnodup
      obtain hhead | htail := List.mem_cons.1 h
      · cases hhead
        simp [get]
      · have hmem : name ∈ obj.map Prod.fst := List.mem_map.2 ⟨_, htail, rfl⟩
        have hne : name ≠ n := by
          rintro rfl
          exact hnodup.1 hmem
        have hget := ih hnodup.2 htail
        rw [get, List.lookup_cons, beq_false_of_ne hne]
        exact hget

/-! ### The order of enumeration -/

/-- The names stand in the order in which an object lists them: the array indices first, by their numbers. -/
def InEnumerationOrder (names : List String) : Prop :=
  names.Pairwise fun a b => isArrayIndex b = true →
    isArrayIndex a = true ∧ a.toNat?.getD 0 ≤ b.toNat?.getD 0

instance (names : List String) : Decidable (InEnumerationOrder names) :=
  inferInstanceAs (Decidable (List.Pairwise _ _))

theorem entries_perm (obj : List (String × β)) : (entries obj).Perm obj := by
  refine ((List.mergeSort_perm _ _).append_right _).trans ?_
  have h := List.filter_append_perm (fun p : String × β => isArrayIndex p.1) obj
  exact h

/-- The order does not depend on the values. -/
theorem entries_map {γ : Type} (obj : List (String × β)) (f : String → β → γ) :
    entries (obj.map fun p => (p.1, f p.1 p.2)) = (entries obj).map fun p => (p.1, f p.1 p.2) := by
  rw [entries, entries, List.map_append, List.map_mergeSort, List.filter_map, List.filter_map]
  · rfl
  · intro p _ q _
    rfl

theorem entries_inEnumerationOrder (obj : List (String × β)) : InEnumerationOrder ((entries obj).map Prod.fst) := by
  rw [InEnumerationOrder, List.pairwise_map, entries, List.pairwise_append]
  refine ⟨?_, ?_, ?_⟩
  · have hsorted := @List.pairwise_mergeSort _
      (fun p q : String × β => decide (p.1.toNat?.getD 0 ≤ q.1.toNat?.getD 0))
      (by simp only [decide_eq_true_eq]; omega) (by simp only [Bool.or_eq_true, decide_eq_true_eq]; omega)
      (obj.filter fun p => isArrayIndex p.1)
    refine hsorted.imp_of_mem fun {p q} hp _ hle _ => ⟨?_, by simpa using hle⟩
    exact (List.mem_filter.1 (List.mem_mergeSort.1 hp)).2
  · apply List.pairwise_of_forall_mem_list
    intro p _ q hq hindex
    have := (List.mem_filter.1 hq).2
    rw [hindex] at this
    cases this
  · intro p _ q hq hindex
    have := (List.mem_filter.1 hq).2
    rw [hindex] at this
    cases this

/-- An object whose names are in this order lists them as they were assigned. -/
theorem entries_eq_self {obj : List (String × β)} (h : InEnumerationOrder (obj.map Prod.fst)) : entries obj = obj := by
  rw [InEnumerationOrder, List.pairwise_map] at h
  have hsorted : (obj.filter fun p => isArrayIndex p.1).Pairwise
      fun p q => decide (p.1.toNat?.getD 0 ≤ q.1.toNat?.getD 0) = true := by
    refine (h.filter _).imp_of_mem fun {p q} _ hq hpq => ?_
    exact decide_eq_true (hpq (List.mem_filter.1 hq).2).2
  rw [entries, List.mergeSort_of_pairwise hsorted]
  clear hsorted
  induction obj with
  | nil => rfl
  | cons p obj ih =>
      rw [List.pairwise_cons] at h
      by_cases hp : isArrayIndex p.1 = true
      · simp only [List.filter_cons, hp, if_true, Bool.not_true, Bool.false_eq_true, if_false, List.cons_append]
        rw [ih h.2]
      · -- No index stands behind a name that is none.
        have hnone : ∀ q ∈ obj, isArrayIndex q.1 = false := by
          intro q hq
          rw [← Bool.not_eq_true]
          exact fun hindex => hp (h.1 q hq hindex).1
        have hfirst : (obj.filter fun q => isArrayIndex q.1) = [] := by
          rw [List.filter_eq_nil_iff]
          intro q hq
          simp [hnone q hq]
        have hrest : (obj.filter fun q => !isArrayIndex q.1) = obj := by
          rw [List.filter_eq_self]
          intro q hq
          simp [hnone q hq]
        simp [hp, hfirst, hrest]

/-- Assigning to an own property keeps its place. -/
theorem set_own {front back : List (String × β)} {name : String} (w v : β) (h : name ∉ front.map Prod.fst) :
    set (front ++ (name, w) :: back) name v = front ++ (name, v) :: back := by
  induction front with
  | nil => rw [List.nil_append, set, if_pos rfl, List.nil_append]
  | cons p front ih =>
      obtain ⟨n, u⟩ := p
      rw [List.map_cons, List.mem_cons, not_or] at h
      rw [List.cons_append, set, if_neg (Ne.symm h.1), ih h.2, List.cons_append]

theorem set_of_get {obj : List (String × β)} {name : String} {w : β} (h : get obj name = .own w) :
    ∃ front back, obj = front ++ (name, w) :: back ∧ ∀ v, set obj name v = front ++ (name, v) :: back := by
  rw [get] at h
  split at h
  · next u hlookup =>
      obtain rfl : u = w := Read.own.inj h
      obtain ⟨front, back, rfl, hfront⟩ := List.lookup_eq_some_iff.1 hlookup
      refine ⟨front, back, rfl, fun v => set_own u v fun hmem => ?_⟩
      obtain ⟨p, hp, hname⟩ := List.mem_map.1 hmem
      have := hfront p hp
      rw [hname, bne_self_eq_false] at this
      cases this
  · split_ifs at h

theorem mem_of_get_inherited {obj : List (String × β)} {name : String} (h : get obj name = .inherited) :
    name ∈ prototypeNames := by
  rw [get] at h
  split at h
  · cases h
  · split_ifs at h with hmem
    exact hmem

theorem not_mem_of_get_undefined {obj : List (String × β)} {name : String} (h : get obj name = .undefined) :
    name ∉ prototypeNames := by
  rw [get] at h
  split at h
  · cases h
  · split_ifs at h with hmem
    exact hmem

theorem not_mem_of_get {obj : List (String × β)} {name : String} (h : get obj name = .undefined) :
    name ∉ obj.map Prod.fst := by
  rw [get] at h
  split at h
  · cases h
  · next hlookup =>
      intro hmem
      obtain ⟨p, hp, hname⟩ := List.mem_map.1 hmem
      have := List.lookup_eq_none_iff.1 hlookup p hp
      rw [hname, bne_self_eq_false] at this
      cases this

/-! ### Values after assignments -/

theorem get_set_self (obj : List (String × β)) {name : String} (v : β) (h : name ≠ "__proto__") :
    get (set obj name v) name = .own v := by
  induction obj with
  | nil =>
      rw [set, if_neg h, get, List.lookup_cons_self]
  | cons p obj ih =>
      obtain ⟨n, w⟩ := p
      rw [set]
      split_ifs with hname
      · rw [hname, get, List.lookup_cons_self]
      · rw [get, List.lookup_cons, beq_false_of_ne (Ne.symm hname)]
        exact ih

theorem get_set_of_ne (obj : List (String × β)) {name other : String} (v : β) (h : other ≠ name) :
    get (set obj name v) other = get obj other := by
  induction obj with
  | nil =>
      rw [set]
      split_ifs
      · rfl
      · rw [get, List.lookup_cons, beq_false_of_ne h]
        rfl
  | cons p obj ih =>
      obtain ⟨n, w⟩ := p
      rw [set]
      split_ifs with hname
      · rw [get, List.lookup_cons, get, List.lookup_cons, beq_false_of_ne (hname ▸ h)]
      · rw [get, get, List.lookup_cons, List.lookup_cons]
        cases other == n with
        | true => rfl
        | false => exact ih

/-- After assignments, a name has the value that was assigned to it last. -/
theorem get_foldl_set (props obj : List (String × β)) {name : String} (h : name ≠ "__proto__") :
    get (props.foldl (fun obj p => set obj p.1 p.2) obj) name =
      (props.reverse.lookup name).elim (get obj name) .own := by
  induction props using List.reverseRecOn with
  | nil => rfl
  | append_singleton props p ih =>
      rw [List.foldl_append, List.foldl_cons, List.foldl_nil, List.reverse_append, List.reverse_singleton,
        List.singleton_append, List.lookup_cons]
      by_cases hname : name = p.1
      · subst hname
        rw [get_set_self _ _ h, beq_self_eq_true]
        rfl
      · rw [get_set_of_ne _ _ hname, ih, beq_false_of_ne hname]

end JsObject
