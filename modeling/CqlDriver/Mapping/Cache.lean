import CqlDriver.Mapping.Document

/-! # The keys of the mapper caches (`lib/mapping/cache.js`)

A key is a flat sequence of property names, operators and markers.  Where the property names are none
of the other tokens, the sequence can be read back up to one point: no marker separates the names of
the `when` conditions from the names before them (`updateKey_inj`, `removeKey_inj`). -/

namespace CqlDriver.Mapping

/-- An element of a key; `inverted` is yielded as a boolean. -/
inductive Token where
  | str (s : String)
  | bool (b : Bool)
deriving DecidableEq

namespace Cache

variable {V : Type}

/-- `_yieldOperators` -/
def yieldOperators : Operators → List Token
  | .none => []
  | .single op => [.str op.key]
  | .and value0 value1 => .str "AND" :: (yieldOperators value0 ++ .str "|/|" :: yieldOperators value1)

/-- The operators or the assignment of a value in `_yieldKeyAndAllQs`. -/
def yieldAllQs (value : DocValue V) : List Token :=
  match value.assigned with
  | some (sign, inverted) => [.str sign.text, .bool inverted]
  | none => yieldOperators value.operators

/-- `_yieldKeyAndOperators` for all properties of an object. -/
def yieldKeyAndOperators (obj : Document V) : List Token :=
  obj.properties.flatMap fun p => .str p.1 :: yieldOperators p.2.operators

/-- `_yieldKeyAndAllQs` -/
def yieldKeyAndAllQs (obj : Document V) : List Token :=
  obj.properties.flatMap fun p => .str p.1 :: yieldAllQs p.2

/-- The tokens of `docInfo.fields`. -/
def yieldFields (fields : List String) : List Token :=
  if fields = [] then [] else .str "|f|" :: fields.map .str

/-- A marker that stands for an option. -/
def mark (given : Bool) (marker : String) : List Token := if given then [.str marker] else []

def getInsertKey (c : Call V) : List Token :=
  c.doc.keys.map .str ++ (yieldFields c.info.fields ++ mark c.info.ttl.isSome "|t|" ++
    mark c.info.ifNotExists "|e|")

def getUpdateKey (c : Call V) : List Token :=
  yieldKeyAndAllQs c.doc ++ (yieldFields c.info.fields ++ mark c.info.ttl.isSome "|t|" ++
    mark c.info.ifExists "|e|") ++ yieldKeyAndOperators c.info.when

def getRemoveKey (c : Call V) : List Token :=
  yieldKeyAndOperators c.doc ++ (yieldFields c.info.fields ++ mark c.info.ifExists "|e|" ++
    mark c.info.deleteOnlyColumns "|dc|") ++ yieldKeyAndOperators c.info.when

/-! ### Reading a key -/

def operatorKeys : List String := ["IN", ">", ">=", "<", "<=", "!=", "AND"]

/-- The markers in front of which the properties of the document end. -/
def markers : List String := ["|f|", "|t|", "|e|", "|dc|"]

/-- The tokens that are no property names. -/
def reserved : List String := operatorKeys ++ markers ++ ["|/|", "+", "-"]

def isName : Token → Bool
  | .str s => s ∉ reserved
  | .bool _ => false

/-- What may follow the operators of a property: the next property, a marker or nothing. -/
def Boundary : List Token → Prop
  | [] => True
  | t :: _ => isName t = true ∨ ∃ m ∈ markers, t = .str m

/-- No operator follows. -/
def NoOperator : List Token → Prop
  | [] => True
  | t :: _ => ∀ k ∈ operatorKeys, t ≠ .str k

theorem Boundary.noOperator {ts : List Token} (h : Boundary ts) : NoOperator ts := by
  cases ts with
  | nil => trivial
  | cons t ts =>
      rintro k hk rfl
      obtain h | ⟨m, hm, h⟩ := h
      · have : k ∈ reserved := List.mem_append_left _ (List.mem_append_left _ hk)
        simp [isName, this] at h
      · cases h
        revert hk hm
        simp only [markers, operatorKeys, List.mem_cons, List.not_mem_nil, or_false]
        rintro (rfl | rfl | rfl | rfl | rfl | rfl | rfl) <;> decide

theorem Operator.key_mem (op : Operator) : op.key ∈ operatorKeys := by
  cases op <;> decide

theorem Operator.key_inj {op op' : Operator} (h : op.key = op'.key) : op = op' := by
  revert h
  cases op <;> cases op' <;> decide

theorem Operator.key_ne_and (op : Operator) : op.key ≠ "AND" := by
  cases op <;> decide

/-- The operators of a value can be read back. -/
theorem yieldOperators_inj {a b : Operators} {u v : List Token} (hu : NoOperator u) (hv : NoOperator v)
    (h : yieldOperators a ++ u = yieldOperators b ++ v) : a = b ∧ u = v := by
  induction a generalizing b u v with
  | none =>
      cases b with
      | none => exact ⟨rfl, h⟩
      | single op =>
          rw [show u = _ from h] at hu
          exact absurd rfl (hu op.key (Operator.key_mem op))
      | and b₀ b₁ =>
          rw [show u = _ from h] at hu
          exact absurd rfl (hu "AND" (by decide))
  | single op =>
      cases b with
      | none =>
          rw [show v = _ from h.symm] at hv
          exact absurd rfl (hv op.key (Operator.key_mem op))
      | single op' =>
          simp only [yieldOperators, List.cons_append, List.nil_append, List.cons.injEq, Token.str.injEq] at h
          exact ⟨by rw [Operator.key_inj h.1], h.2⟩
      | and b₀ b₁ =>
          simp only [yieldOperators, List.cons_append, List.cons.injEq, Token.str.injEq] at h
          exact absurd h.1 (Operator.key_ne_and op)
  | and a₀ a₁ ih₀ ih₁ =>
      cases b with
      | none =>
          rw [show v = _ from h.symm] at hv
          exact absurd rfl (hv "AND" (by decide))
      | single op =>
          simp only [yieldOperators, List.cons_append, List.cons.injEq, Token.str.injEq] at h
          exact absurd h.1.symm (Operator.key_ne_and op)
      | and b₀ b₁ =>
          simp only [yieldOperators, List.cons_append, List.append_assoc, List.cons.injEq, true_and] at h
          have hslash (ts : List Token) : NoOperator (.str "|/|" :: ts) := by
            intro k hk heq
            cases heq
            exact absurd hk (by decide)
          obtain ⟨rfl, htail⟩ := ih₀ (hslash _) (hslash _) h
          obtain ⟨rfl, rfl⟩ := ih₁ hu hv (List.cons.inj htail).2
          exact ⟨rfl, rfl⟩

theorem operators_inj {a b : Operators} {u v : List Token} (hu : Boundary u) (hv : Boundary v)
    (h : yieldOperators a ++ u = yieldOperators b ++ v) : a = b ∧ u = v :=
  yieldOperators_inj hu.noOperator hv.noOperator h

/-- What a property of an update holds, as far as the key tells. -/
inductive Qs where
  | operators (o : Operators)
  | assignment (sign : Sign) (inverted : Bool)

def qs (value : DocValue V) : Qs :=
  match value.assigned with
  | some (sign, inverted) => .assignment sign inverted
  | none => .operators value.operators

def Qs.tokens : Qs → List Token
  | operators o => yieldOperators o
  | assignment sign inverted => [.str sign.text, .bool inverted]

theorem yieldAllQs_eq (value : DocValue V) : yieldAllQs value = (qs value).tokens := by
  cases value <;> rfl

theorem Sign.text_mem (sign : Sign) : sign.text ∈ reserved ∧ sign.text ∉ operatorKeys ∧ sign.text ∉ markers := by
  cases sign <;> decide

theorem not_boundary_sign (sign : Sign) (ts : List Token) : ¬ Boundary (.str sign.text :: ts) := by
  obtain ⟨hres, -, hmark⟩ := Sign.text_mem sign
  rintro (h | ⟨m, hm, h⟩)
  · simp [isName, hres] at h
  · cases h
    exact hmark hm

theorem Qs.tokens_inj {a b : Qs} {u v : List Token} (hu : Boundary u) (hv : Boundary v)
    (h : a.tokens ++ u = b.tokens ++ v) : a = b ∧ u = v := by
  cases a with
  | operators a =>
      cases b with
      | operators b =>
          obtain ⟨rfl, rfl⟩ := operators_inj hu hv h
          exact ⟨rfl, rfl⟩
      | assignment sign inverted =>
          exfalso
          cases a with
          | none =>
              rw [show u = _ from h] at hu
              exact not_boundary_sign sign _ hu
          | single op =>
              have := Operator.key_mem op
              simp only [tokens, yieldOperators, List.cons_append, List.cons.injEq, Token.str.injEq] at h
              rw [h.1] at this
              exact (Sign.text_mem sign).2.1 this
          | and a₀ a₁ =>
              simp only [tokens, yieldOperators, List.cons_append, List.cons.injEq, Token.str.injEq] at h
              cases sign <;> exact absurd h.1 (by decide)
  | assignment sign inverted =>
      cases b with
      | operators b =>
          exfalso
          cases b with
          | none =>
              rw [show v = _ from h.symm] at hv
              exact not_boundary_sign sign _ hv
          | single op =>
              have := Operator.key_mem op
              simp only [tokens, yieldOperators, List.cons_append, List.cons.injEq, Token.str.injEq] at h
              rw [← h.1] at this
              exact (Sign.text_mem sign).2.1 this
          | and b₀ b₁ =>
              simp only [tokens, yieldOperators, List.cons_append, List.cons.injEq, Token.str.injEq] at h
              cases sign <;> exact absurd h.1 (by decide)
      | assignment sign' inverted' =>
          simp only [tokens, List.cons_append, List.nil_append, List.cons.injEq, Token.str.injEq,
            Token.bool.injEq] at h
          obtain ⟨hsign, rfl, rfl⟩ := h
          have : sign = sign' := by
            revert hsign
            cases sign <;> cases sign' <;> decide
          exact ⟨by rw [this], rfl⟩

/-! ### Reading the properties -/

/-- The tokens of properties with their operators. -/
def itemTokens {α : Type} (tokens : α → List Token) (items : List (String × α)) : List Token :=
  items.flatMap fun p => .str p.1 :: tokens p.2

/-- No property name is another token. -/
def PlainNames (names : List String) : Prop := ∀ name ∈ names, name ∉ reserved

instance (names : List String) : Decidable (PlainNames names) :=
  inferInstanceAs (Decidable (∀ name ∈ names, name ∉ reserved))

/-- The properties of the document end here. -/
def AtMarker : List Token → Prop
  | [] => True
  | t :: _ => ∃ m ∈ markers, t = .str m

theorem AtMarker.boundary {ts : List Token} (h : AtMarker ts) : Boundary ts := by
  cases ts with
  | nil => trivial
  | cons t ts => exact .inr h

theorem isName_str {name : String} (h : name ∉ reserved) : isName (.str name) = true := by
  simpa [isName] using h

theorem not_isName_marker {m : String} (h : m ∈ markers) : isName (.str m) = false := by
  revert h
  simp only [markers, List.mem_cons, List.not_mem_nil, or_false]
  rintro (rfl | rfl | rfl | rfl) <;> decide

section Items

variable {α : Type} {tokens : α → List Token}

theorem boundary_itemTokens {items : List (String × α)} {u : List Token} (hu : Boundary u)
    (hplain : PlainNames (items.map Prod.fst)) : Boundary (itemTokens tokens items ++ u) := by
  cases items with
  | nil => exact hu
  | cons p items => exact .inl (isName_str (hplain p.1 (by simp)))

/-- The properties in front of a marker can be read back. -/
theorem itemTokens_inj (htokens : ∀ {a b : α} {u v : List Token}, Boundary u → Boundary v →
      tokens a ++ u = tokens b ++ v → a = b ∧ u = v) {xs ys : List (String × α)} {u v : List Token}
    (hx : PlainNames (xs.map Prod.fst)) (hy : PlainNames (ys.map Prod.fst)) (hu : AtMarker u)
    (hv : AtMarker v) (h : itemTokens tokens xs ++ u = itemTokens tokens ys ++ v) : xs = ys ∧ u = v := by
  have hstart {p : String × α} {items : List (String × α)} {w w' : List Token}
      (hp : PlainNames ((p :: items).map Prod.fst)) (hw : AtMarker w)
      (heq : w = itemTokens tokens (p :: items) ++ w') : False := by
    rw [heq] at hw
    obtain ⟨m, hm, hpm⟩ := hw
    have hname := isName_str (hp p.1 (by simp))
    rw [hpm, not_isName_marker hm] at hname
    cases hname
  induction xs generalizing ys with
  | nil =>
      cases ys with
      | nil => exact ⟨rfl, h⟩
      | cons q ys => exact (hstart hy hu h).elim
  | cons p xs ih =>
      cases ys with
      | nil => exact (hstart hx hv h.symm).elim
      | cons q ys =>
          obtain ⟨p₁, p₂⟩ := p
          obtain ⟨q₁, q₂⟩ := q
          have hx' : PlainNames (xs.map Prod.fst) := fun n hn => hx n (List.mem_cons_of_mem _ hn)
          have hy' : PlainNames (ys.map Prod.fst) := fun n hn => hy n (List.mem_cons_of_mem _ hn)
          simp only [itemTokens, List.flatMap_cons, List.cons_append, List.append_assoc, List.cons.injEq,
            Token.str.injEq] at h
          obtain ⟨rfl, h⟩ := h
          obtain ⟨rfl, hrest⟩ := htokens (boundary_itemTokens hu.boundary hx')
            (boundary_itemTokens hv.boundary hy') h
          obtain ⟨rfl, rfl⟩ := ih hx' hy' hrest
          exact ⟨rfl, rfl⟩

/-- Among the tokens of properties there are as many names as properties. -/
theorem countP_itemTokens (htokens : ∀ a, (tokens a).countP isName = 0) {items : List (String × α)}
    (hplain : PlainNames (items.map Prod.fst)) : (itemTokens tokens items).countP isName = items.length := by
  induction items with
  | nil => rfl
  | cons p items ih =>
      have hname := isName_str (hplain p.1 (by simp))
      rw [itemTokens, List.flatMap_cons, List.countP_append, List.countP_cons_of_pos hname, htokens]
      have := ih fun n hn => hplain n (List.mem_cons_of_mem _ hn)
      rw [itemTokens] at this
      rw [this, List.length_cons]
      omega

/-- Behind any tokens, a given number of properties can be told from what stands before them. -/
theorem suffix_eq (htokens : ∀ a, (tokens a).countP isName = 0) {xs ys : List (String × α)}
    {u v : List Token} (hx : PlainNames (xs.map Prod.fst)) (hy : PlainNames (ys.map Prod.fst))
    (hlen : xs.length = ys.length) (h : u ++ itemTokens tokens xs = v ++ itemTokens tokens ys) :
    u = v ∧ itemTokens tokens xs = itemTokens tokens ys := by
  -- The tokens between the two places hold no name, but would start with one.
  have hnil {xs ys : List (String × α)} {w : List Token} (hx : PlainNames (xs.map Prod.fst))
      (hy : PlainNames (ys.map Prod.fst)) (hlen : xs.length = ys.length)
      (heq : itemTokens tokens ys = w ++ itemTokens tokens xs) : w = [] := by
    cases w with
    | nil => rfl
    | cons t w =>
        exfalso
        have hcount := congrArg (List.countP isName) heq
        rw [List.countP_append, countP_itemTokens htokens hx, countP_itemTokens htokens hy] at hcount
        have hzero : (t :: w).countP isName = 0 := by omega
        cases ys with
        | nil => cases heq
        | cons q ys =>
            simp only [itemTokens, List.flatMap_cons, List.cons_append, List.cons.injEq] at heq
            rw [List.countP_eq_zero] at hzero
            exact hzero t (List.mem_cons_self ..) (heq.1 ▸ isName_str (hy q.1 (by simp)))
  obtain ⟨w, hu, hw⟩ | ⟨w, hv, hw⟩ := List.append_eq_append_iff.1 h
  · have hempty := hnil hy hx hlen.symm hw
    subst hempty
    exact ⟨by rw [hu, List.append_nil], hw⟩
  · have hempty := hnil hx hy hlen hw
    subst hempty
    exact ⟨by rw [hv, List.append_nil], hw.symm⟩

end Items

/-! ### Reading the options -/

/-- A marker can be told from what follows it. -/
theorem mark_inj {a b : Bool} {marker : String} {u v : List Token} (hu : ∀ ts, u ≠ .str marker :: ts)
    (hv : ∀ ts, v ≠ .str marker :: ts) (h : mark a marker ++ u = mark b marker ++ v) : a = b ∧ u = v := by
  cases a <;> cases b
  · exact ⟨rfl, h⟩
  · exact absurd h (hu v)
  · exact absurd h.symm (hv u)
  · exact ⟨rfl, (List.cons.inj h).2⟩

theorem mark_inj_last {a b : Bool} {marker : String} (h : mark a marker = mark b marker) : a = b := by
  cases a <;> cases b
  · rfl
  · cases h
  · cases h
  · rfl

theorem names_inj {xs ys : List String} {u v : List Token} (hx : PlainNames xs) (hy : PlainNames ys)
    (hu : AtMarker u) (hv : AtMarker v) (h : xs.map Token.str ++ u = ys.map Token.str ++ v) :
    xs = ys ∧ u = v := by
  have htokens (names : List String) :
      itemTokens (fun _ : Unit => []) (names.map (·, ())) = names.map Token.str := by
    induction names with
    | nil => rfl
    | cons n names ih => exact congrArg (Token.str n :: ·) ih
  have hnames (names : List String) : (names.map (·, ())).map Prod.fst = names := by
    rw [List.map_map]
    exact List.map_id names
  have hinj : ∀ {a b : Unit} {u v : List Token}, Boundary u → Boundary v →
      (fun _ : Unit => []) a ++ u = (fun _ : Unit => []) b ++ v → a = b ∧ u = v := fun _ _ h => ⟨rfl, h⟩
  rw [← htokens, ← htokens] at h
  obtain ⟨heq, huv⟩ := itemTokens_inj hinj (by rwa [hnames]) (by rwa [hnames]) hu hv h
  have := congrArg (List.map Prod.fst) heq
  rw [hnames, hnames] at this
  exact ⟨this, huv⟩

theorem atMarker_yieldFields {fields : List String} {ts : List Token} (h : AtMarker ts) :
    AtMarker (yieldFields fields ++ ts) := by
  unfold yieldFields
  split_ifs
  · exact h
  · exact ⟨"|f|", by decide, rfl⟩

theorem atMarker_mark {given : Bool} {marker : String} (hm : marker ∈ markers) {ts : List Token}
    (h : AtMarker ts) : AtMarker (mark given marker ++ ts) := by
  cases given
  · exact h
  · exact ⟨marker, hm, rfl⟩

theorem atMarker_mark_last {given : Bool} {marker : String} (hm : marker ∈ markers) :
    AtMarker (mark given marker) := by
  cases given
  · trivial
  · exact ⟨marker, hm, rfl⟩

theorem yieldFields_inj {xs ys : List String} {u v : List Token} (hx : PlainNames xs) (hy : PlainNames ys)
    (hu : AtMarker u) (hv : AtMarker v) (hfu : ∀ ts, u ≠ .str "|f|" :: ts) (hfv : ∀ ts, v ≠ .str "|f|" :: ts)
    (h : yieldFields xs ++ u = yieldFields ys ++ v) : xs = ys ∧ u = v := by
  unfold yieldFields at h
  split_ifs at h with h₁ h₂ h₂
  · exact ⟨h₁.trans h₂.symm, h⟩
  · exact absurd h (hfu _)
  · exact absurd h.symm (hfv _)
  · exact names_inj hx hy hu hv (List.cons.inj h).2

/-! ### Keys of calls -/

/-- What the properties of a document hold, as far as a key of a remove tells. -/
def operatorItems (doc : Document V) : List (String × Operators) :=
  doc.properties.map fun p => (p.1, p.2.operators)

def qsItems (doc : Document V) : List (String × Qs) := doc.properties.map fun p => (p.1, qs p.2)

theorem yieldKeyAndOperators_eq (doc : Document V) :
    yieldKeyAndOperators doc = itemTokens yieldOperators (operatorItems doc) := by
  rw [yieldKeyAndOperators, itemTokens, operatorItems, List.flatMap_map]

theorem yieldKeyAndAllQs_eq (doc : Document V) :
    yieldKeyAndAllQs doc = itemTokens Qs.tokens (qsItems doc) := by
  rw [yieldKeyAndAllQs, itemTokens, qsItems, List.flatMap_map]
  simp only [yieldAllQs_eq]

@[simp] theorem map_fst_operatorItems (doc : Document V) : (operatorItems doc).map Prod.fst = doc.keys := by
  simp [operatorItems, Document.keys]

@[simp] theorem map_fst_qsItems (doc : Document V) : (qsItems doc).map Prod.fst = doc.keys := by
  simp [qsItems, Document.keys]

theorem plainNames_operatorItems {doc : Document V} (h : PlainNames doc.keys) :
    PlainNames ((operatorItems doc).map Prod.fst) := by
  rwa [map_fst_operatorItems]

theorem plainNames_qsItems {doc : Document V} (h : PlainNames doc.keys) :
    PlainNames ((qsItems doc).map Prod.fst) := by
  rwa [map_fst_qsItems]

theorem countP_yieldOperators (o : Operators) : (yieldOperators o).countP isName = 0 := by
  have hkey (k : String) (h : k ∈ reserved) : isName (.str k) = false := by simp [isName, h]
  induction o with
  | none => rfl
  | single op =>
      have := hkey op.key (List.mem_append_left _ (List.mem_append_left _ (Operator.key_mem op)))
      simp [yieldOperators, this]
  | and a b iha ihb =>
      simp [yieldOperators, iha, ihb, hkey "AND" (by decide), hkey "|/|" (by decide)]

/-- The names of a call are none of the other tokens. -/
structure Plain (c : Call V) : Prop where
  doc : PlainNames c.doc.keys
  fields : PlainNames c.info.fields
  when : PlainNames c.info.when.keys

/-- The `when` conditions of two calls with one key, if there are as many. -/
theorem when_eq {c c' : Call V} (hc : Plain c) (hc' : Plain c')
    (hwhen : c.info.when.keys.length = c'.info.when.keys.length) {u v : List Token}
    (h : u ++ yieldKeyAndOperators c.info.when = v ++ yieldKeyAndOperators c'.info.when) :
    u = v ∧ operatorItems c.info.when = operatorItems c'.info.when := by
  have hlen : (operatorItems c.info.when).length = (operatorItems c'.info.when).length := by
    simpa [operatorItems, Document.keys] using hwhen
  have hp := plainNames_operatorItems hc.when
  have hp' := plainNames_operatorItems hc'.when
  rw [yieldKeyAndOperators_eq, yieldKeyAndOperators_eq] at h
  obtain ⟨huv, htokens⟩ := suffix_eq countP_yieldOperators hp hp' hlen h
  have hnil : AtMarker [] := trivial
  have hread : itemTokens yieldOperators (operatorItems c.info.when) ++ [] =
      itemTokens yieldOperators (operatorItems c'.info.when) ++ [] := by rw [htokens]
  exact ⟨huv, (itemTokens_inj operators_inj hp hp' hnil hnil hread).1⟩

theorem mark_ne {given : Bool} {m m' : String} (hm : m' ≠ m) (us : List Token) :
    mark given m ≠ .str m' :: us := by
  cases given
  · exact (List.cons_ne_nil _ _).symm
  · intro heq
    cases heq
    exact hm rfl

theorem ne_marker {given : Bool} {m m' : String} {ts : List Token} (hm : m' ≠ m)
    (h : ∀ us, ts ≠ .str m' :: us) (us : List Token) : mark given m ++ ts ≠ .str m' :: us := by
  cases given
  · exact h us
  · intro heq
    cases heq
    exact hm rfl

/-- A key of an update tells everything but where the `when` conditions start. -/
theorem updateKey_inj {c c' : Call V} (hc : Plain c) (hc' : Plain c')
    (hwhen : c.info.when.keys.length = c'.info.when.keys.length) (h : getUpdateKey c = getUpdateKey c') :
    qsItems c.doc = qsItems c'.doc ∧ c.info.fields = c'.info.fields ∧
      c.info.ttl.isSome = c'.info.ttl.isSome ∧ c.info.ifExists = c'.info.ifExists ∧
      operatorItems c.info.when = operatorItems c'.info.when := by
  obtain ⟨hfront, hwhen⟩ := when_eq hc hc' hwhen h
  have he (b : Bool) : AtMarker (mark b "|e|") := atMarker_mark_last (by decide)
  have ht (a b : Bool) : AtMarker (mark a "|t|" ++ mark b "|e|") := atMarker_mark (by decide) (he b)
  have hne (b : Bool) {m : String} (hm : m ≠ "|e|") : ∀ us, mark b "|e|" ≠ .str m :: us := mark_ne hm
  rw [yieldKeyAndAllQs_eq, yieldKeyAndAllQs_eq, List.append_assoc, List.append_assoc] at hfront
  obtain ⟨hdoc, hrest⟩ := itemTokens_inj Qs.tokens_inj (plainNames_qsItems hc.doc)
    (plainNames_qsItems hc'.doc) (atMarker_yieldFields (ht _ _)) (atMarker_yieldFields (ht _ _)) hfront
  obtain ⟨hfields, hrest⟩ := yieldFields_inj hc.fields hc'.fields (ht _ _) (ht _ _)
    (ne_marker (by decide) (hne _ (by decide))) (ne_marker (by decide) (hne _ (by decide))) hrest
  obtain ⟨httl, hrest⟩ := mark_inj (hne _ (by decide)) (hne _ (by decide)) hrest
  exact ⟨hdoc, hfields, httl, mark_inj_last hrest, hwhen⟩

/-- A key of a remove tells everything but the assignments and where the `when` conditions start. -/
theorem removeKey_inj {c c' : Call V} (hc : Plain c) (hc' : Plain c')
    (hwhen : c.info.when.keys.length = c'.info.when.keys.length) (h : getRemoveKey c = getRemoveKey c') :
    operatorItems c.doc = operatorItems c'.doc ∧ c.info.fields = c'.info.fields ∧
      c.info.ifExists = c'.info.ifExists ∧ c.info.deleteOnlyColumns = c'.info.deleteOnlyColumns ∧
      operatorItems c.info.when = operatorItems c'.info.when := by
  obtain ⟨hfront, hwhen⟩ := when_eq hc hc' hwhen h
  have hd (b : Bool) : AtMarker (mark b "|dc|") := atMarker_mark_last (by decide)
  have he (a b : Bool) : AtMarker (mark a "|e|" ++ mark b "|dc|") := atMarker_mark (by decide) (hd b)
  have hne (b : Bool) {m : String} (hm : m ≠ "|dc|") : ∀ us, mark b "|dc|" ≠ .str m :: us := mark_ne hm
  rw [yieldKeyAndOperators_eq, yieldKeyAndOperators_eq, List.append_assoc, List.append_assoc] at hfront
  obtain ⟨hdoc, hrest⟩ := itemTokens_inj operators_inj (plainNames_operatorItems hc.doc)
    (plainNames_operatorItems hc'.doc) (atMarker_yieldFields (he _ _)) (atMarker_yieldFields (he _ _)) hfront
  obtain ⟨hfields, hrest⟩ := yieldFields_inj hc.fields hc'.fields (he _ _) (he _ _)
    (ne_marker (by decide) (hne _ (by decide))) (ne_marker (by decide) (hne _ (by decide))) hrest
  obtain ⟨hexists, hrest⟩ := mark_inj (hne _ (by decide)) (hne _ (by decide)) hrest
  exact ⟨hdoc, hfields, hexists, mark_inj_last hrest, hwhen⟩

end Cache
end CqlDriver.Mapping
