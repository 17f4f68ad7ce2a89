import CqlDriver.CqlTypeName

/-! # The type names of CQL that are read back (`lib/encoder.js`)

Whether a wrong reading of a name can still give the right type.  A type has as many commas in its name as
its column info accounts for, and the parser returns no info for a text with fewer commas.  So arguments
that are cut in the wrong place are never all read as what they should be, and `faithful_iff` gives the
exact condition. -/

namespace CqlDriver.CqlTypeName

open Brackets JsString Fallible

/-! ### What a text can be read as -/

namespace ColumnInfo

mutual

/-- The commas that a name needs for the column info. -/
def commas : ColumnInfo (List Char) → ℕ
  | .single _ => 0
  | .custom _ => 0
  | .of _ info _ => info.commas
  | .ofAll _ infos _ => commasOf infos + (infos.length - 1)
  | .udt name _ => name.count ','
  | .vector subtype _ => subtype.commas + 1

def commasOf : List (ColumnInfo (List Char)) → ℕ
  | [] => 0
  | info :: infos => info.commas + commasOf infos

end

mutual

/-- The user types of a column info. -/
def names : ColumnInfo (List Char) → List (List Char)
  | .single _ => []
  | .custom _ => []
  | .of _ info _ => info.names
  | .ofAll _ infos _ => namesOf infos
  | .udt name _ => [name]
  | .vector subtype _ => subtype.names

def namesOf : List (ColumnInfo (List Char)) → List (List Char)
  | [] => []
  | info :: infos => info.names ++ namesOf infos

end

end ColumnInfo

/-- The resolver that returns the name. -/
def echo : Resolver (List Char) := fun _ name => .ok (some name)

/-- No resolver, or the one that returns the name. -/
def Echoes (udtResolver : Option (Resolver (List Char))) : Prop := udtResolver = none ∨ udtResolver = some echo

theorem replace_quotes_sublist (s : List Char) : (replace s "\"\"".toList "\"".toList).Sublist s := by
  induction s with
  | nil => exact List.Sublist.slnil
  | cons c s ih =>
      rw [replace]
      split_ifs with h
      · obtain ⟨r, hr⟩ := List.isPrefixOf_iff_prefix.1 h
        rw [← hr, List.drop_left]
        exact List.Sublist.append_right (by decide) r
      · exact ih.cons_cons c

theorem substr_sublist (s : List Char) (i n : ℕ) : (substr s i n).Sublist s :=
  (List.take_sublist n _).trans (List.drop_sublist i s)

/-- The parameters are cut from a part of the text, also if the length is too small. -/
theorem parseParams_sublist {value : List Char} {startIndex length : ℕ}
    (h : length = 0 ∨ startIndex + length ≤ value.length) (b : Brackets.Kind) :
    ∃ w, w.Sublist value ∧ parseParams value startIndex length b = cuts b 0 w := by
  refine ⟨substr value startIndex length, substr_sublist _ _ _, ?_⟩
  rcases h with rfl | h
  · rw [substr_self]
    simp [parseParams, parseParamsLoop, substr_self, cuts]
  · exact parseParams_eq h b

section
variable {α : Type} {parse : List Char → Option (Resolver α) → Answer (ColumnInfo α)} {keyspace value : List Char}
  {startIndex length : ℕ} {frozen : Bool} {udtResolver : Option (Resolver α)} {info : ColumnInfo α}

theorem parseChildTypes_ok {ss : List (List Char)} {infos : List (ColumnInfo α)}
    (h : (parseChildTypes parse ss udtResolver).result = .ok infos) :
    List.Forall₂ (fun s i => (parse (trim s) udtResolver).result = .ok i) ss infos := by
  rw [parseChildTypes, Answer.all, mapM_eq_ok, List.forall₂_map_left_iff] at h
  exact h

theorem parseVectorTypeArgs_ok {stringToExclude subtype w : List Char} {dimension : Option ℤ}
    (hparams : parseParams value (stringToExclude.length + 1) (value.length - (stringToExclude.length + 2)) paren =
      cuts paren 0 w)
    (h : parseVectorTypeArgs value stringToExclude .ok = .ok (subtype, dimension)) :
    ∃ t d, cuts paren 0 w = [t, d] ∧ subtype = trim t ∧ dimension = parseInt (trim d) := by
  rw [parseVectorTypeArgs] at h
  simp only [hparams] at h
  split at h
  · next t d hcuts =>
    obtain ⟨rfl, rfl⟩ := Prod.mk.inj (Except.ok.inj h)
    exact ⟨t, d, hcuts, rfl, rfl⟩
  · cases h

/-- How a column info is returned. -/
theorem parseUnfrozen_cases (hlength : length = 0 ∨ startIndex + length ≤ value.length)
    (h : (parseUnfrozen parse keyspace value startIndex length frozen udtResolver).result = .ok info) :
    (∃ code w t i, w.Sublist value ∧ cuts angle 0 w = [t] ∧ (parse t udtResolver).result = .ok i ∧
        info = .of code i frozen) ∨
      (∃ code w infos, w.Sublist value ∧
        List.Forall₂ (fun s i => (parse (trim s) udtResolver).result = .ok i) (cuts angle 0 w) infos ∧
        info = .ofAll code infos frozen) ∨
      (∃ w t d i, w.Sublist value ∧ cuts paren 0 w = [t, d] ∧ (parse (trim t) none).result = .ok i ∧
        info = .vector i (parseInt (trim d))) ∨
      ∃ name, name.Sublist value ∧ (parseName keyspace name frozen udtResolver).result = .ok info := by
  have hparams : ∀ n, ∃ w, w.Sublist value ∧
      parseParams value (startIndex + (n + 1)) (length - (n + 2)) angle = cuts angle 0 w :=
    fun n => parseParams_sublist (by omega) angle
  obtain ⟨wl, hwl, hlist⟩ := hparams "list".toList.length
  obtain ⟨ws, hws, hset⟩ := hparams "set".toList.length
  obtain ⟨wm, hwm, hmap⟩ := hparams "map".toList.length
  obtain ⟨wt, hwt, htuple⟩ := hparams "tuple".toList.length
  obtain ⟨wv, hwv, hvector⟩ := @parseParams_sublist value ("vector".toList.length + 1)
    (value.length - ("vector".toList.length + 2)) (by omega) paren
  rw [parseUnfrozen] at h
  simp only [hlist, hset, hmap, htuple] at h
  split_ifs at h with h1 h2 h3 hm h4 ht h5 h6
  · split at h
    · next t hcuts =>
      obtain ⟨i, hi, rfl⟩ := map_eq_ok h
      exact Or.inl ⟨_, wl, t, i, hwl, hcuts, hi, rfl⟩
    · cases h
  · split at h
    · next t hcuts =>
      obtain ⟨i, hi, rfl⟩ := map_eq_ok h
      exact Or.inl ⟨_, ws, t, i, hws, hcuts, hi, rfl⟩
    · cases h
  · cases h
  · obtain ⟨infos, hinfos, rfl⟩ := map_eq_ok h
    exact Or.inr (Or.inl ⟨_, wm, infos, hwm, parseChildTypes_ok hinfos, rfl⟩)
  · cases h
  · obtain ⟨infos, hinfos, rfl⟩ := map_eq_ok h
    exact Or.inr (Or.inl ⟨_, wt, infos, hwt, parseChildTypes_ok hinfos, rfl⟩)
  · split at h
    · next subtype dimension hargs =>
      obtain ⟨i, hi, rfl⟩ := map_eq_ok h
      obtain ⟨t, d, hcuts, rfl, rfl⟩ := parseVectorTypeArgs_ok hvector hargs
      exact Or.inr (Or.inr (Or.inl ⟨wv, t, d, i, hwv, hcuts, hi, rfl⟩))
    · cases h
  · exact Or.inr (Or.inr (Or.inr ⟨_, (replace_quotes_sublist _).trans (substr_sublist _ _ _), h⟩))
  · exact Or.inr (Or.inr (Or.inr ⟨_, substr_sublist _ _ _, h⟩))
  · exact Or.inr (Or.inr (Or.inr ⟨_, List.Sublist.refl _, h⟩))

end

/-- A name is a type that is only a code or a custom type, or the resolver has returned it. -/
theorem parseName_cases {keyspace name : List Char} {frozen : Bool} {udtResolver : Option (Resolver (List Char))}
    (hechoes : Echoes udtResolver) {info : ColumnInfo (List Char)}
    (h : (parseName keyspace name frozen udtResolver).result = .ok info) :
    (reserved name = true ∧ info.commas = 0 ∧ info.names = [] ∧ ∀ n f, info ≠ .udt n f) ∨
      (udtResolver = some echo ∧ reserved name = false ∧ info = .udt name frozen) := by
  unfold parseName at h
  split at h
  · next entry hfind =>
    obtain rfl := Except.ok.inj h
    have hany : (DataTypes.dataTypes.any fun e => e.1.toList == name) = true :=
      List.any_eq_true.2 ⟨entry, List.mem_of_find?_eq_some hfind,
        List.find?_some (p := fun e : String × ℕ => e.1.toList == name) hfind⟩
    exact Or.inl ⟨by rw [reserved, hany, Bool.true_or], rfl, rfl, nofun⟩
  · next hfind =>
    split_ifs at h with hduration hempty
    · obtain rfl := Except.ok.inj h
      exact Or.inl ⟨hduration ▸ (by decide), rfl, rfl, nofun⟩
    · obtain rfl := Except.ok.inj h
      exact Or.inl ⟨hempty ▸ (by decide), rfl, rfl, nofun⟩
    · have hreserved : reserved name = false := by
        rw [reserved, Bool.or_eq_false_iff]
        exact ⟨by simpa using List.find?_eq_none.1 hfind, by simpa using hempty⟩
      rcases hechoes with rfl | rfl
      · cases h
      · obtain rfl := Except.ok.inj h
        exact Or.inr ⟨rfl, hreserved, rfl⟩

/-- What is returned for a text accounts for at most its commas, and without a resolver there is no user type. -/
def Bounded (parse : List Char → Option (Resolver (List Char)) → Answer (ColumnInfo (List Char))) : Prop :=
  ∀ s udtResolver info, Echoes udtResolver → (parse s udtResolver).result = .ok info →
    info.commas ≤ s.count ',' ∧ (udtResolver = none → info.names = [])

theorem count_trim_le (s : List Char) : (trim s).count ',' ≤ s.count ',' := (trim_sublist s).count_le ','

theorem Bounded.all {parse : List Char → Option (Resolver (List Char)) → Answer (ColumnInfo (List Char))}
    (h : Bounded parse) {udtResolver : Option (Resolver (List Char))} (hechoes : Echoes udtResolver)
    {ss : List (List Char)} {infos : List (ColumnInfo (List Char))}
    (hall : List.Forall₂ (fun s i => (parse (trim s) udtResolver).result = .ok i) ss infos) :
    ColumnInfo.commasOf infos ≤ (ss.map (List.count ',')).sum ∧ (udtResolver = none → ColumnInfo.namesOf infos = []) := by
  induction hall with
  | nil => exact ⟨le_rfl, fun _ => rfl⟩
  | @cons s i ss infos hi _ ih =>
      obtain ⟨hcommas, hnames⟩ := h _ _ _ hechoes hi
      have htrim := count_trim_le s
      constructor
      · rw [ColumnInfo.commasOf, List.map_cons, List.sum_cons]
        omega
      · intro hnone
        rw [ColumnInfo.namesOf, hnames hnone, ih.2 hnone, List.append_nil]

theorem Bounded.unfrozen {parse : List Char → Option (Resolver (List Char)) → Answer (ColumnInfo (List Char))}
    (h : Bounded parse) {keyspace value : List Char} {startIndex length : ℕ} {frozen : Bool}
    {udtResolver : Option (Resolver (List Char))} {info : ColumnInfo (List Char)} (hechoes : Echoes udtResolver)
    (hlength : length = 0 ∨ startIndex + length ≤ value.length)
    (hresult : (parseUnfrozen parse keyspace value startIndex length frozen udtResolver).result = .ok info) :
    info.commas ≤ value.count ',' ∧ (udtResolver = none → info.names = []) := by
  rcases parseUnfrozen_cases hlength hresult with ⟨code, w, t, i, hw, hcuts, hi, rfl⟩ | ⟨code, w, infos, hw, hall, rfl⟩ |
    ⟨w, t, d, i, hw, hcuts, hi, rfl⟩ | ⟨name, hname, hresult⟩
  · obtain ⟨hcommas, hnames⟩ := h t udtResolver i hechoes hi
    have hcount := count_cuts angle w
    have hle := hw.count_le ','
    rw [hcuts] at hcount
    simp only [List.map_cons, List.map_nil, List.sum_cons, List.sum_nil, List.length_singleton] at hcount
    exact ⟨by rw [ColumnInfo.commas]; omega, hnames⟩
  · obtain ⟨hcommas, hnames⟩ := h.all hechoes hall
    have hcount := count_cuts angle w
    have hle := hw.count_le ','
    rw [hall.length_eq] at hcount
    exact ⟨by rw [ColumnInfo.commas]; omega, hnames⟩
  · obtain ⟨hcommas, hnames⟩ := h (trim t) none i (Or.inl rfl) hi
    have hcount := count_cuts paren w
    have hle := hw.count_le ','
    have htrim := count_trim_le t
    rw [hcuts] at hcount
    simp only [List.map_cons, List.map_nil, List.sum_cons, List.sum_nil, List.length_cons, List.length_nil] at hcount
    exact ⟨by rw [ColumnInfo.commas]; omega, fun _ => hnames rfl⟩
  · rcases parseName_cases hechoes hresult with ⟨-, hcommas, hnames, -⟩ | ⟨rfl, -, rfl⟩
    · exact ⟨by omega, fun _ => hnames⟩
    · exact ⟨hname.count_le ',', nofun⟩

theorem bounded_parseTypeName (keyspace : List Char) : ∀ fuel,
    Bounded fun name => parseTypeName fuel keyspace name 0 0
  | 0 => by
      intro s udtResolver info _ h
      cases h
  | fuel + 1 => by
      intro s udtResolver info hechoes h
      have ih := bounded_parseTypeName keyspace fuel
      simp only [parseTypeName, if_true] at h
      split_ifs at h with hcustom hfrozen
      · obtain rfl := Except.ok.inj h
        exact ⟨Nat.zero_le _, fun _ => rfl⟩
      · exact ih.unfrozen hechoes (by omega) h
      · exact ih.unfrozen hechoes (by omega) h

/-! ### What the info of a type accounts for -/

theorem count_applied {name : String} (hname : name ∈ heads) (args : List (List Char)) :
    (applied name args).count ',' = (args.map (List.count ',')).sum + (args.length - 1) := by
  have hcomma : name.toList.count ',' = 0 := List.count_eq_zero.2 (heads_spec name hname).2.1.2.2
  have hinner := count_intercalate_spaced args
  simp only [applied, List.count_append, hcomma, List.count_cons, hinner]
  simp

theorem count_escape (s : List Char) : (escape s).count ',' = s.count ',' := by
  induction s with
  | nil => rfl
  | cons c s ih =>
      rw [escape_cons, List.count_append, ih]
      by_cases hc : c = '"'
      · rw [if_pos hc, hc, List.count_cons_of_ne (by decide)]
        exact Nat.zero_add _
      · rw [if_neg hc, ← List.count_append]
        rfl

namespace CqlType

theorem commasOf_infos {ts : List CqlType} (h : ∀ t ∈ ts, ∀ f, (t.info id f).commas = t.render.count ',') :
    ColumnInfo.commasOf (infos id ts) = ((ts.map render).map (List.count ',')).sum := by
  induction ts with
  | nil => rfl
  | cons t ts ih =>
      obtain ⟨ht, hts⟩ := List.forall_mem_cons.1 h
      rw [infos, ColumnInfo.commasOf, ht false, ih hts, List.map_cons, List.map_cons, List.sum_cons]

/-- The info of a type accounts for all commas of its name. -/
theorem commas_info (t : CqlType) : ∀ f, (t.info id f).commas = t.render.count ',' := by
  induction t using inductionOn with
  | native t =>
      intro f
      rw [render_native, List.count_eq_zero.2 (heads_spec t.name t.mem_heads).2.1.2.2, info]
      split_ifs <;> rfl
  | udt n =>
      intro f
      rw [info, ColumnInfo.commas, render_udt]
      cases hq : n.quoted with
      | true =>
          rw [n.render_of_quoted hq, List.count_append, List.count_cons, count_escape]
          rfl
      | false => rw [n.render_of_unquoted hq, id]
  | list t ih =>
      intro f
      rw [info, ColumnInfo.commas, ih false, render_list, count_applied (by decide)]
      rfl
  | set t ih =>
      intro f
      rw [info, ColumnInfo.commas, ih false, render_set, count_applied (by decide)]
      rfl
  | map k v ihk ihv =>
      intro f
      rw [info, ColumnInfo.commas, render_map, count_applied (by decide), ColumnInfo.commasOf, ColumnInfo.commasOf,
        ihk false, ihv false]
      rfl
  | tuple ts ih =>
      intro f
      rw [info, ColumnInfo.commas, render_tuple, count_applied (by decide), commasOf_infos ih, infos_eq,
        List.length_map, List.length_map]
  | vector t n ih =>
      intro f
      have hdigits : (Nat.toDigits 10 n).count ',' = 0 := List.count_eq_zero.2 (toDigits_plain n).2.2
      rw [info, ColumnInfo.commas, ih false, render_vector, count_applied (by decide)]
      simp [hdigits]
  | frozen t ih =>
      intro f
      rw [info, ih true, render_frozen, count_applied (by decide)]
      rfl

theorem namesOf_infos {ts : List CqlType} (h : ∀ t ∈ ts, ∀ f, (t.info id f).names = t.userTypes) :
    ColumnInfo.namesOf (infos id ts) = userTypesOf ts := by
  induction ts with
  | nil => rfl
  | cons t ts ih =>
      obtain ⟨ht, hts⟩ := List.forall_mem_cons.1 h
      rw [infos, ColumnInfo.namesOf, ht false, ih hts, userTypesOf]

theorem names_info (t : CqlType) : ∀ f, (t.info id f).names = t.userTypes := by
  induction t using inductionOn with
  | native t =>
      intro f
      rw [info]
      split_ifs <;> rfl
  | udt n => exact fun _ => rfl
  | list t ih => exact fun _ => ih false
  | set t ih => exact fun _ => ih false
  | map k v ihk ihv =>
      intro f
      rw [info, ColumnInfo.names, ColumnInfo.namesOf, ColumnInfo.namesOf, ColumnInfo.namesOf, ihk false, ihv false,
        List.append_nil, userTypes]
  | tuple ts ih => exact fun _ => namesOf_infos ih
  | vector t n ih => exact fun _ => ih false
  | frozen t ih => exact fun _ => ih true

/-- The name of a user type is not longer than what CQL writes for it. -/
theorem length_of_info (t : CqlType) : ∀ {f g n}, t.info id f = .udt n g → n.length ≤ t.render.length := by
  induction t using inductionOn with
  | native t =>
      intro f g n h
      rw [info] at h
      split_ifs at h
  | udt n =>
      intro f g m h
      obtain rfl : n.name = m := (ColumnInfo.udt.inj h).1
      rw [render_udt]
      cases hq : n.quoted with
      | true =>
          rw [n.render_of_quoted hq]
          simp only [List.length_append, List.length_cons, escape_length]
          omega
      | false => rw [n.render_of_unquoted hq]
  | list t ih =>
      intro f g n h
      cases h
  | set t ih =>
      intro f g n h
      cases h
  | map k v ihk ihv =>
      intro f g n h
      cases h
  | tuple ts ih =>
      intro f g n h
      cases h
  | vector t n ih =>
      intro f g m h
      cases h
  | frozen t ih =>
      intro f g n h
      have hlength := length_applied_of_mem "frozen" (List.mem_singleton_self t.render)
      have := ih h
      rw [render_frozen]
      omega

/-! ### The types that are not returned -/

section
variable (keyspace : List Char)

/-- A type that is returned behind the token `frozen` is parseable. -/
def NeedsUnfrozen (t : CqlType) : Prop :=
  ∀ fuel inside udtResolver, Echoes udtResolver → (inside = true ∨ "frozen".toList.isPrefixOf t.render = false) →
    (parseUnfrozen (fun name => parseTypeName fuel keyspace name 0 0) keyspace
      (before inside ++ t.render ++ after inside) (before inside).length t.render.length inside udtResolver).result =
        .ok (t.info id inside) → t.parseable inside = true

/-- A type that is returned is parseable. -/
def Needs (t : CqlType) : Prop :=
  ∀ fuel udtResolver, Echoes udtResolver →
    (parseTypeName fuel keyspace t.render 0 0 udtResolver).result = .ok (t.info id false) → t.parseable false = true

variable {keyspace} {t : CqlType}

theorem parseName_frozen_eq {name n : List Char} {frozen f : Bool} {udtResolver : Option (Resolver (List Char))}
    (hechoes : Echoes udtResolver) (h : (parseName keyspace name frozen udtResolver).result = .ok (.udt n f)) :
    name = n ∧ frozen = f ∧ reserved name = false := by
  rcases parseName_cases hechoes h with ⟨-, -, -, hne⟩ | ⟨-, hreserved, heq⟩
  · exact absurd rfl (hne n f)
  · obtain ⟨rfl, rfl⟩ := ColumnInfo.udt.inj heq
    exact ⟨rfl, rfl, hreserved⟩

theorem NeedsUnfrozen.needs (h : t.NeedsUnfrozen keyspace) (hne : ∀ u, t ≠ .frozen u) : t.Needs keyspace := by
  intro fuel udtResolver hechoes hresult
  cases fuel with
  | zero => cases hresult
  | succ fuel =>
      cases hfrozen : "frozen".toList.isPrefixOf t.render with
      | false =>
          rw [parseTypeName_unfrozen fuel keyspace udtResolver t.not_custom hfrozen] at hresult
          exact h fuel false udtResolver hechoes (Or.inr hfrozen) hresult
      | true =>
          rcases t.render_eq_append with ⟨n, rfl⟩ | ⟨y, hy, hy', rest, hrender⟩
          · -- the flag of the user type would be set
            simp only [parseTypeName, if_true, startsAt, List.drop_zero, not_custom, hfrozen, Bool.false_eq_true,
              if_false] at hresult
            rcases parseUnfrozen_cases (by omega) hresult with ⟨_, _, _, _, -, -, -, heq⟩ | ⟨_, _, _, -, -, heq⟩ |
              ⟨_, _, _, _, -, -, -, heq⟩ | ⟨name, -, hname⟩
            · cases heq
            · cases heq
            · cases heq
            · exact absurd (parseName_frozen_eq hechoes hname).2.1 (by decide)
          · rw [hrender] at hfrozen
            by_cases hyf : "frozen" = y
            · obtain ⟨u, rfl⟩ := hy' hyf.symm
              exact absurd rfl (hne u)
            · rw [isPrefixOf_head (by decide) hy hyf rest] at hfrozen
              cases hfrozen

theorem needs_frozen (h : t.NeedsUnfrozen keyspace) : (CqlType.frozen t).Needs keyspace := by
  intro fuel udtResolver hechoes hresult
  cases fuel with
  | zero => cases hresult
  | succ fuel =>
      rw [render_frozen, parseTypeName_frozen] at hresult
      exact h fuel true udtResolver hechoes (Or.inl rfl) hresult

theorem not_reserved_of_mem {name : List Char} (h : '<' ∈ name) : reserved name = false := by
  have htypes : ∀ e ∈ DataTypes.dataTypes, '<' ∉ e.1.toList := by decide
  rw [reserved, Bool.or_eq_false_iff, List.any_eq_false]
  refine ⟨fun e he heq => ?_, beq_eq_false_iff_ne.2 ?_⟩
  · exact htypes e he (eq_of_beq heq ▸ h)
  · rintro rfl
    exact absurd h (by decide)

/-- In a wrapper, the name of a frozen type is taken for the name of a user type. -/
theorem needsUnfrozen_frozen : (CqlType.frozen t).NeedsUnfrozen keyspace := by
  intro fuel inside udtResolver hechoes hinside hresult
  have hstarts : "frozen".toList.isPrefixOf (applied "frozen" [t.render]) = true := by
    rw [applied, List.append_assoc, List.isPrefixOf_iff_prefix]
    exact List.prefix_append _ _
  rw [render_frozen] at hinside hresult
  have hopening : '<' ∈ applied "frozen" [t.render] := by simp [applied]
  obtain rfl : inside = true := hinside.resolve_right (by rw [hstarts]; decide)
  rw [parseUnfrozen_applied _ _ _ _ _ _ _ (by decide), if_neg (by decide), if_neg (by decide), if_neg (by decide),
    if_neg (by decide), if_neg (by decide), if_pos (by decide), substr_append] at hresult
  rcases parseName_cases hechoes hresult with ⟨hreserved, -⟩ | ⟨-, -, heq⟩
  · rw [not_reserved_of_mem hopening] at hreserved
    cases hreserved
  · have hlength := length_applied_of_mem "frozen" (List.mem_singleton_self t.render)
    have := length_of_info t heq
    omega

theorem separable_of_cuts {s u : List Char} (h : cuts angle 0 s = [u]) : u = s ∧ Separable angle [s] := by
  rcases cuts_cases h with ⟨-, rfl, hno⟩ | ⟨r, -, -, -, hr⟩
  · exact ⟨rfl, hno⟩
  · exact absurd hr.symm (cuts_ne_nil 0 r)

theorem needsUnfrozen_list (h : t.Needs keyspace) : (CqlType.list t).NeedsUnfrozen keyspace := by
  intro fuel inside udtResolver hechoes _ hresult
  rw [render_list, parseUnfrozen_applied _ _ _ _ _ _ _ (by decide), if_pos rfl, List.intercalate_singleton] at hresult
  split at hresult
  · next u hcuts =>
    obtain ⟨rfl, hseparable⟩ := separable_of_cuts hcuts
    obtain ⟨i, hi, heq⟩ := map_eq_ok hresult
    obtain rfl : i = t.info id false := (ColumnInfo.of.inj heq).2.1
    rw [parseable, Bool.and_eq_true, decide_eq_true_eq]
    exact ⟨hseparable, h fuel udtResolver hechoes hi⟩
  · cases hresult

theorem needsUnfrozen_set (h : t.Needs keyspace) : (CqlType.set t).NeedsUnfrozen keyspace := by
  intro fuel inside udtResolver hechoes _ hresult
  rw [render_set, parseUnfrozen_applied _ _ _ _ _ _ _ (by decide), if_neg (by decide), if_pos rfl,
    List.intercalate_singleton] at hresult
  split at hresult
  · next u hcuts =>
    obtain ⟨rfl, hseparable⟩ := separable_of_cuts hcuts
    obtain ⟨i, hi, heq⟩ := map_eq_ok hresult
    obtain rfl : i = t.info id false := (ColumnInfo.of.inj heq).2.1
    rw [parseable, Bool.and_eq_true, decide_eq_true_eq]
    exact ⟨hseparable, h fuel udtResolver hechoes hi⟩
  · cases hresult

/-- Arguments that are read as their types have been cut in the right places. -/
theorem separable_of_children {fuel : ℕ} {udtResolver : Option (Resolver (List Char))} (hechoes : Echoes udtResolver)
    {ts : List CqlType} (hts : ts ≠ [])
    (h : (parseChildTypes (fun name => parseTypeName fuel keyspace name 0 0)
      (cuts angle 0 ([',', ' '].intercalate (ts.map render))) udtResolver).result = .ok (ts.map (info id false))) :
    Separable angle (ts.map render) ∧
      ∀ t ∈ ts, (parseTypeName fuel keyspace t.render 0 0 udtResolver).result = .ok (t.info id false) := by
  have hall := List.forall₂_map_right_iff.1 (parseChildTypes_ok h)
  have hcount : List.Forall₂ (fun p t => List.count ',' t.render ≤ List.count ',' p)
      (cuts angle 0 ([',', ' '].intercalate (ts.map render))) ts := by
    apply hall.imp
    intro p t hp
    have hle := (bounded_parseTypeName keyspace fuel _ _ _ hechoes hp).1
    rw [commas_info] at hle
    exact hle.trans (count_trim_le p)
  have hspaced : List.Forall₂ (fun p q => List.count ',' q ≤ List.count ',' p)
      (cuts angle 0 ([',', ' '].intercalate (ts.map render))) (spaced (ts.map render)) := by
    refine (List.forall₂_map_right_iff (R := fun p n => n ≤ List.count ',' p)).1 ?_
    rw [map_count_spaced, List.map_map]
    exact List.forall₂_map_right_iff.2 hcount
  have hcuts : cuts angle 0 ([',', ' '].intercalate (ts.map render)) = spaced (ts.map render) := by
    apply eq_of_intercalate_eq hspaced
    rw [intercalate_cuts, intercalate_spaced]
  refine ⟨(cuts_renders_iff hts).1 hcuts, ?_⟩
  have htrimmed : List.Forall₂ (fun s t => (parseTypeName fuel keyspace s 0 0 udtResolver).result = .ok (t.info id false))
      ((spaced (ts.map render)).map trim) ts := by
    rw [List.forall₂_map_left_iff, ← hcuts]
    exact hall
  rw [map_trim_spaced, List.forall₂_map_left_iff, List.forall₂_same] at htrimmed
  exact htrimmed

theorem needsUnfrozen_map {k v : CqlType} (hk : k.Needs keyspace) (hv : v.Needs keyspace) :
    (CqlType.map k v).NeedsUnfrozen keyspace := by
  intro fuel inside udtResolver hechoes _ hresult
  rw [render_map, parseUnfrozen_applied _ _ _ _ _ _ _ (by decide), if_neg (by decide), if_neg (by decide),
    if_pos rfl] at hresult
  split_ifs at hresult with hlength
  · cases hresult
  · obtain ⟨infos, hinfos, heq⟩ := map_eq_ok hresult
    obtain rfl : infos = [k, v].map (info id false) := (ColumnInfo.ofAll.inj heq).2.1
    obtain ⟨hseparable, hall⟩ := separable_of_children hechoes (List.cons_ne_nil k [v]) hinfos
    rw [parseable, Bool.and_eq_true, Bool.and_eq_true, decide_eq_true_eq]
    exact ⟨hseparable, hk fuel udtResolver hechoes (hall k (by simp)), hv fuel udtResolver hechoes (hall v (by simp))⟩

theorem needsUnfrozen_tuple {ts : List CqlType} (h : ∀ t ∈ ts, t.Needs keyspace) :
    (CqlType.tuple ts).NeedsUnfrozen keyspace := by
  intro fuel inside udtResolver hechoes _ hresult
  rw [render_tuple, parseUnfrozen_applied _ _ _ _ _ _ _ (by decide), if_neg (by decide), if_neg (by decide),
    if_neg (by decide), if_pos rfl, info, infos_eq] at hresult
  split_ifs at hresult with hlength
  · cases hresult
  · obtain ⟨infos, hinfos, heq⟩ := map_eq_ok hresult
    obtain rfl : infos = ts.map (info id false) := (ColumnInfo.ofAll.inj heq).2.1
    have hts : ts ≠ [] := by
      rintro rfl
      have hnone : (cuts angle 0 ([',', ' '].intercalate ([].map render))).length = 0 :=
        (parseChildTypes_ok hinfos).length_eq
      exact hlength (by rw [hnone]; decide)
    obtain ⟨hseparable, hall⟩ := separable_of_children hechoes hts hinfos
    rw [parseable, renders_eq, Bool.and_eq_true, Bool.and_eq_true, decide_eq_true_eq, parseables_iff]
    exact ⟨by simpa using hts, hseparable, fun t ht => h t ht fuel udtResolver hechoes (hall t ht)⟩

/-- A user type is returned only if no constructor is found. -/
theorem startsAt_of_udt {parse : List Char → Option (Resolver (List Char)) → Answer (ColumnInfo (List Char))}
    {value n : List Char} {startIndex length : ℕ} {frozen f : Bool} {udtResolver : Option (Resolver (List Char))}
    (h : (parseUnfrozen parse keyspace value startIndex length frozen udtResolver).result = .ok (.udt n f)) :
    ∀ x ∈ keywords, startsAt value x.toList startIndex = false := by
  rw [parseUnfrozen] at h
  split_ifs at h with hlist hset hmap hlength htuple hlength' hvector hquoted
  · split at h
    · obtain ⟨i, -, heq⟩ := map_eq_ok h
      cases heq
    · cases h
  · split at h
    · obtain ⟨i, -, heq⟩ := map_eq_ok h
      cases heq
    · cases h
  · cases h
  · obtain ⟨i, -, heq⟩ := map_eq_ok h
    cases heq
  · cases h
  · obtain ⟨i, -, heq⟩ := map_eq_ok h
    cases heq
  · split at h
    · obtain ⟨i, -, heq⟩ := map_eq_ok h
      cases heq
    · cases h
  all_goals
    simp only [keywords, List.forall_mem_cons]
    simp only [Bool.not_eq_true] at hlist hset hmap htuple hvector
    exact ⟨hlist, hset, hmap, htuple, hvector, List.forall_mem_nil _⟩

theorem needsUnfrozen_udt (n : UserTypeName) : (CqlType.udt n).NeedsUnfrozen keyspace := by
  intro fuel inside udtResolver hechoes hinside hresult
  rw [parseable, UserTypeName.found]
  rw [render_udt] at hinside hresult
  cases hq : n.quoted with
  | true =>
      rw [n.render_of_quoted hq, parseUnfrozen_quoted] at hresult
      obtain ⟨hname, -, hreserved⟩ := parseName_frozen_eq hechoes hresult
      have hlength := length_replace_quotes (escape n.name)
      rw [hname, escape_length, id] at hlength
      rw [hname, id] at hreserved
      rw [hreserved, if_pos rfl, decide_eq_true (by omega)]
      rfl
  | false =>
      rw [n.render_of_unquoted hq] at hinside hresult
      have hkeywords : ∀ x ∈ keywords, x.toList.isPrefixOf n.name = false := by
        intro x hx
        rw [← startsAt_name (List.mem_append_left _ hx) n.name inside]
        exact startsAt_of_udt hresult x hx
      have htests : ∀ x ∈ keywords ++ ["\""],
          startsAt (before inside ++ n.name ++ after inside) x.toList (before inside).length = false := by
        intro x hx
        rw [startsAt_name hx]
        rcases List.mem_append.1 hx with hx | hx
        · exact hkeywords x hx
        · rw [List.mem_singleton.1 hx]
          exact not_quoted (n.identifier hq)
      rw [parseUnfrozen_name _ _ _ _ _ _ after_eq_nil htests] at hresult
      have hreserved := (parseName_frozen_eq hechoes hresult).2.2
      have hany : (keywords.any fun k => k.toList.isPrefixOf n.name) = false :=
        List.any_eq_false.2 fun x hx => Bool.eq_false_iff.1 (hkeywords x hx)
      rw [hreserved, if_neg (by decide), hany]
      rcases hinside with rfl | hfrozen
      · rfl
      · rw [hfrozen, Bool.not_false, Bool.or_true]
        rfl

/-- A text that starts like a vector is read as a vector. -/
theorem vector_of_starts {fuel : ℕ} {udtResolver : Option (Resolver (List Char))} {rest : List Char}
    {i : ColumnInfo (List Char)}
    (h : (parseTypeName fuel keyspace ("vector".toList ++ rest) 0 0 udtResolver).result = .ok i) : 1 ≤ i.commas := by
  cases fuel with
  | zero => cases h
  | succ fuel =>
      have hcustom := isPrefixOf_head (x := "'") (y := "vector") (by decide) (by decide) (by decide) rest
      have hfrozen := isPrefixOf_head (x := "frozen") (y := "vector") (by decide) (by decide) (by decide) rest
      have hstarts : ∀ x ∈ keywords, startsAt ("vector".toList ++ rest) x.toList 0 = decide (x = "vector") := by
        intro x hx
        exact startsAt_head (y := "vector") [] rest (List.mem_append_left _ hx) (by decide)
      rw [parseTypeName_unfrozen fuel keyspace udtResolver hcustom hfrozen, before, after, if_neg (by decide),
        if_neg (by decide), List.nil_append, List.append_nil, List.length_nil, parseUnfrozen,
        hstarts "list" (by decide), hstarts "set" (by decide), hstarts "map" (by decide), hstarts "tuple" (by decide),
        hstarts "vector" (by decide), if_neg (by decide), if_neg (by decide), if_neg (by decide), if_neg (by decide),
        if_pos (by decide)] at h
      split at h
      · obtain ⟨j, -, rfl⟩ := map_eq_ok h
        rw [ColumnInfo.commas]
        omega
      · cases h

/-- Without parentheses, every comma is a cut. -/
theorem not_mem_of_noCut {s : List Char} (hopening : '(' ∉ s) (hclosing : ')' ∉ s) (h : NoCut paren 0 s) :
    ',' ∉ s := by
  intro hcomma
  obtain ⟨p, q, rfl⟩ := List.append_of_mem hcomma
  apply h p q rfl
  rw [zero_add]
  exact depth_of_not_mem (fun hp => hopening (List.mem_append_left _ hp)) fun hp => hclosing (List.mem_append_left _ hp)

/-- The subtype is read from the first part only if this part is the subtype and has no comma. -/
theorem subtype_of_cuts {fuel : ℕ} {u r p q : List Char} (hu : Plain paren u) (hr : ',' ∉ r)
    (hcuts : cuts paren 0 (u ++ t.render ++ ',' :: r) = [p, q])
    (h : (parseTypeName fuel keyspace (trim p) 0 0 none).result = .ok (t.info id false)) :
    p = u ++ t.render ∧ t.userTypes = [] ∧ ',' ∉ t.render := by
  obtain ⟨hcommas, hnames⟩ := bounded_parseTypeName keyspace fuel _ _ _ (Or.inl rfl) h
  have hnone : t.userTypes = [] := by rw [← names_info t false, hnames rfl]
  have hcount : (u ++ t.render).count ',' ≤ p.count ',' := by
    rw [List.count_append, List.count_eq_zero.2 hu.2.2, zero_add, ← commas_info t false]
    exact hcommas.trans (count_trim_le p)
  have hparts : [p, q] = [u ++ t.render, r] := by
    refine eq_of_intercalate_eq (.cons hcount (.cons ?_ .nil)) ?_
    · rw [List.count_eq_zero.2 hr]
      exact Nat.zero_le _
    · rw [← hcuts, intercalate_cuts]
      simp
  obtain ⟨rfl, -⟩ := List.cons.inj hparts
  have hno : NoCut paren 0 (u ++ t.render) := by
    rcases cuts_cases hcuts with ⟨hnil, -⟩ | ⟨_, -, hno, -⟩
    · cases hnil
    · exact hno
  refine ⟨rfl, hnone, fun hcomma => ?_⟩
  have hopening : '(' ∉ u ++ t.render := by simpa using ⟨hu.1, paren_not_mem '(' (Or.inl rfl) t hnone⟩
  have hclosing : ')' ∉ u ++ t.render := by simpa using ⟨hu.2.1, paren_not_mem ')' (Or.inr rfl) t hnone⟩
  exact not_mem_of_noCut hopening hclosing hno (List.mem_append_right _ hcomma)

theorem needsUnfrozen_vector (n : ℕ) (h : t.Needs keyspace) : (CqlType.vector t n).NeedsUnfrozen keyspace := by
  intro fuel inside udtResolver hechoes _ hresult
  have hdigits : ',' ∉ Nat.toDigits 10 n := (toDigits_plain n).2.2
  rw [render_vector, parseUnfrozen_applied _ _ _ _ _ _ _ (by decide), if_neg (by decide), if_neg (by decide),
    if_neg (by decide), if_neg (by decide), if_pos rfl] at hresult
  split at hresult
  · next subtype dimension hargs =>
    obtain ⟨i, hi, heq⟩ := map_eq_ok hresult
    obtain rfl : i = t.info id false := (ColumnInfo.vector.inj heq).1
    cases inside with
    | false =>
        have hparams := parseParams_between [] "vector".toList ([',', ' '].intercalate [t.render, Nat.toDigits 10 n]) []
          '<' '>' paren
        have hinner : [',', ' '].intercalate [t.render, Nat.toDigits 10 n] =
            [] ++ t.render ++ ',' :: ' ' :: Nat.toDigits 10 n := by simp
        rw [List.nil_append, List.append_nil, List.length_nil, zero_add] at hparams
        rw [before, after, if_neg (by decide), if_neg (by decide), List.nil_append, List.append_nil] at hargs
        obtain ⟨p, q, hcuts, rfl, -⟩ := parseVectorTypeArgs_ok hparams hargs
        rw [hinner] at hcuts
        obtain ⟨rfl, hnone, hcomma⟩ := subtype_of_cuts (by decide) (by simpa using hdigits) hcuts hi
        rw [List.nil_append, trim_eq t.trimmed_render] at hi
        rw [parseable, hnone, decide_eq_true hcomma, h fuel none (Or.inl rfl) hi]
        rfl
    | true =>
        have hparams : parseParams (before true ++ applied "vector" [t.render, Nat.toDigits 10 n] ++ after true)
            ("vector".toList.length + 1)
            ((before true ++ applied "vector" [t.render, Nat.toDigits 10 n] ++ after true).length -
              ("vector".toList.length + 2)) paren = cuts paren 0 (applied "vector" [t.render, Nat.toDigits 10 n]) := by
          have hstart : "vector".toList.length + 1 = (before true).length := by decide
          have hrest : "vector".toList.length + 2 = (before true).length + (after true).length := by decide
          have hlength : (before true ++ applied "vector" [t.render, Nat.toDigits 10 n] ++ after true).length -
              ("vector".toList.length + 2) = (applied "vector" [t.render, Nat.toDigits 10 n]).length := by
            rw [hrest, List.length_append, List.length_append]
            omega
          rw [hstart, hlength, parseParams_append]
        have htext : applied "vector" [t.render, Nat.toDigits 10 n] =
            "vector<".toList ++ t.render ++ ',' :: (' ' :: Nat.toDigits 10 n ++ ['>']) := by
          simp [applied]
        obtain ⟨p, q, hcuts, rfl, -⟩ := parseVectorTypeArgs_ok hparams hargs
        rw [htext] at hcuts
        obtain ⟨rfl, -, hcomma⟩ := subtype_of_cuts (by decide) (by simpa using hdigits) hcuts hi
        have htrimmed : Trimmed ("vector<".toList ++ t.render) := by
          refine ⟨fun c hc => Option.some.inj hc ▸ (by decide), fun c hc => ?_⟩
          rw [List.getLast?_append] at hc
          cases hlast : t.render.getLast? with
          | none =>
              rw [hlast, Option.none_or] at hc
              exact Option.some.inj hc ▸ (by decide)
          | some d =>
              rw [hlast, Option.some_or] at hc
              exact t.trimmed_render.2 c (hlast.trans hc)
        rw [trim_eq htrimmed] at hi
        -- a vector needs a comma
        have hvector : 1 ≤ (t.info id false).commas :=
          vector_of_starts (show (parseTypeName fuel keyspace ("vector".toList ++ '<' :: t.render) 0 0 none).result = _ from hi)
        rw [commas_info, List.count_eq_zero.2 hcomma] at hvector
        cases hvector
  · cases hresult

theorem needs_and_needsUnfrozen (t : CqlType) : t.Needs keyspace ∧ t.NeedsUnfrozen keyspace := by
  induction t using inductionOn with
  | native t =>
      have h : (CqlType.native t).NeedsUnfrozen keyspace := fun _ _ _ _ _ _ => rfl
      exact ⟨h.needs nofun, h⟩
  | udt n => exact ⟨(needsUnfrozen_udt n).needs nofun, needsUnfrozen_udt n⟩
  | list t ih => exact ⟨(needsUnfrozen_list ih.1).needs nofun, needsUnfrozen_list ih.1⟩
  | set t ih => exact ⟨(needsUnfrozen_set ih.1).needs nofun, needsUnfrozen_set ih.1⟩
  | map k v ihk ihv => exact ⟨(needsUnfrozen_map ihk.1 ihv.1).needs nofun, needsUnfrozen_map ihk.1 ihv.1⟩
  | tuple ts ih =>
      have h := needsUnfrozen_tuple fun t ht => (ih t ht).1
      exact ⟨h.needs nofun, h⟩
  | vector t n ih => exact ⟨(needsUnfrozen_vector n ih.1).needs nofun, needsUnfrozen_vector n ih.1⟩
  | frozen t ih => exact ⟨needs_frozen ih.2, needsUnfrozen_frozen⟩

end

theorem parseable_of_faithful {t : CqlType} (h : t.Faithful) : t.parseable false = true := by
  have hanswer := h (List Char) [] echo id fun _ _ => rfl
  exact (needs_and_needsUnfrozen t).1 _ (some echo) (Or.inr rfl) (congrArg Answer.result hanswer)

/-- From its name, a type is returned, and the resolver is asked exactly for its user types, if and only if
every unquoted user type starts with no keyword, every quoted one has at most one quote, none is reserved,
the brackets and commas in the names do not separate arguments in the wrong place, and the vectors, tuples
and wrappers are as `parseable` says. -/
theorem faithful_iff (t : CqlType) : t.Faithful ↔ t.parseable false = true := by
  refine ⟨parseable_of_faithful, fun hparseable α keyspace udtResolver userType hknows => ?_⟩
  exact (reads_and_readsUnfrozen t).1 _ (some udtResolver) (fun n hn => ⟨udtResolver, rfl, hknows n hn⟩) (Nat.lt_succ_self _)
    hparseable

/-- The user type `listing` -/
def listing : CqlType := .udt ⟨"listing".toList, false, fun _ => by decide⟩

theorem not_faithful_listing : ¬ listing.Faithful := fun h => absurd (parseable_of_faithful h) (by decide)

end CqlType

end CqlDriver.CqlTypeName
