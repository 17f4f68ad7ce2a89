import CqlDriver.Lib.TransitionSystem

/-! # Prepared statements (`lib/metadata/index.js`)

`PreparedQueries` finds the information on a statement by its keyspace and text, and by the id that the server has
given it.  `getOrAdd` makes room for a new statement: it removes the first ones that have an id, as many as are
above the maximum.  A statement without id is being prepared, and stays.  The ids come from the server, in any
order.  In every run in which an id comes once, for a statement that is still there, the two maps have the same
statements (`indexes_agree`), and there are no more of them than the maximum, or than have been without id at one
time.  The default maximum is `null`, which counts as zero: then every new statement removes all those with an
id. -/

namespace CqlDriver.Metadata

open TransitionSystem

/-- The information on a statement, an object that the requests share; `getOrAdd` sets all but the id. -/
structure PreparedInfo where
  query : String
  keyspace : Option String
  queryId : Option (List UInt8)

/-- The state, with all objects that were made.  An object is its place among them. -/
structure PreparedQueries where
  infos : List PreparedInfo
  length : ℤ
  maxPrepared : Option ℕ
  /-- The entries in the order in which they were added. -/
  mapByKey : List (String × ℕ)
  /-- The key is the hexadecimal text of an id. -/
  mapById : List UInt8 → Option ℕ

namespace PreparedQueries

def create (maxPrepared : Option ℕ) : PreparedQueries := ⟨[], 0, maxPrepared, [], fun _ => none⟩

def getKey (keyspace : Option String) (query : String) : String := keyspace.getD "" ++ query

section

variable (s : PreparedQueries)

/-- `info.queryId` -/
def queryId (info : ℕ) : Option (List UInt8) := s.infos[info]?.bind PreparedInfo.queryId

/-- The loop that collects the entries to remove. -/
def collect (toRemoveLength : ℤ) : List (String × ℕ) → List (String × ℕ) → List (String × ℕ)
  | [], toRemove => toRemove
  | entry :: entries, toRemove =>
      -- only queries that contain queryId
      if (s.queryId entry.2).isNone then collect toRemoveLength entries toRemove
      else if toRemoveLength ≤ (toRemove ++ [entry]).length then toRemove ++ [entry]
      else collect toRemoveLength entries (toRemove ++ [entry])

/-- The loop body that removes an entry. -/
def remove (entry : String × ℕ) : PreparedQueries :=
  { s with
    mapByKey := s.mapByKey.filter fun e => e.1 ≠ entry.1
    mapById := match s.queryId entry.2 with
      | some id => Function.update s.mapById id none
      | none => s.mapById
    length := s.length - 1 }

/-- `_validateOverflow` -/
def validateOverflow : PreparedQueries :=
  let maxPrepared := s.maxPrepared.getD 0
  if s.length < maxPrepared then s
  else (s.collect (s.length - maxPrepared + 1) s.mapByKey []).foldl remove s

/-- The object, and the state with it. -/
def getOrAdd (keyspace : Option String) (query : String) : ℕ × PreparedQueries :=
  let key := getKey keyspace query
  match s.mapByKey.lookup key with
  | some info => (info, s)
  | none =>
      let s := s.validateOverflow
      (s.infos.length, { s with
        infos := s.infos ++ [⟨query, keyspace, none⟩]
        mapByKey := s.mapByKey ++ [(key, s.infos.length)]
        length := s.length + 1 })

/-- `info.queryId = id`, by the request that has prepared the statement. -/
def setQueryId (info : ℕ) (id : List UInt8) : PreparedQueries :=
  { s with infos := s.infos.modify info fun i => { i with queryId := some id } }

def setById (info : ℕ) : PreparedQueries :=
  match s.queryId info with
  | some id => { s with mapById := Function.update s.mapById id (some info) }
  | none => s

def getById (id : List UInt8) : Option ℕ := s.mapById id

def clear : PreparedQueries := { s with mapByKey := [], mapById := fun _ => none, length := 0 }

def getAll : List ℕ := (s.mapByKey.map Prod.snd).filter fun info => (s.queryId info).isSome

end

/-- What happens to the statements: a request asks for one, the server answers with an id, or they are
forgotten. -/
inductive Action where
  | getOrAdd (keyspace : Option String) (query : String)
  | prepared (info : ℕ) (id : List UInt8)
  | clear

def step (s : PreparedQueries) : Action → Option PreparedQueries
  | .getOrAdd keyspace query => some (s.getOrAdd keyspace query).2
  | .prepared info id => if info < s.infos.length then some ((s.setQueryId info id).setById info) else none
  | .clear => some s.clear

/-! ### The entries -/

/-- The map by key has an entry for every statement that is counted, under its own key. -/
structure Kept (s : PreparedQueries) : Prop where
  length_eq : s.length = s.mapByKey.length
  nodup : (s.mapByKey.map Prod.fst).Nodup
  made : ∀ e ∈ s.mapByKey, ∃ i, s.infos[e.2]? = some i ∧ getKey i.keyspace i.query = e.1

/-- The map by id has the statements of the other map that have an id. -/
def Agree (s : PreparedQueries) : Prop :=
  ∀ id info, s.mapById id = some info ↔ info ∈ s.mapByKey.map Prod.snd ∧ s.queryId info = some id

/-- The number of statements without id. -/
def unprepared (s : PreparedQueries) : ℕ := s.mapByKey.countP fun e => (s.queryId e.2).isNone

variable {s : PreparedQueries}

theorem Kept.key_eq (h : s.Kept) {e f : String × ℕ} (he : e ∈ s.mapByKey) (hf : f ∈ s.mapByKey) (heq : e.2 = f.2) :
    e = f := by
  obtain ⟨i, hi, hkey⟩ := h.made e he
  obtain ⟨j, hj, hkey'⟩ := h.made f hf
  rw [heq, hj, Option.some.injEq] at hi
  rw [← hi, hkey'] at hkey
  exact Prod.ext hkey.symm heq

/-! ### Removals -/

/-- The entries with an id. -/
def preparedEntries (s : PreparedQueries) : List (String × ℕ) :=
  s.mapByKey.filter fun e => !(s.queryId e.2).isNone

theorem collect_eq (n : ℤ) (entries toRemove : List (String × ℕ)) (hn : (toRemove.length : ℤ) < n) :
    s.collect n entries toRemove =
      toRemove ++ (entries.filter fun e => !(s.queryId e.2).isNone).take (n - toRemove.length).toNat := by
  induction entries generalizing toRemove with
  | nil => rw [collect, List.filter_nil, List.take_nil, List.append_nil]
  | cons entry entries ih =>
      have hlen : ((toRemove ++ [entry]).length : ℤ) = toRemove.length + 1 := by simp
      rw [collect]
      cases hid : (s.queryId entry.2).isNone with
      | true =>
          rw [if_pos rfl, ih _ hn, List.filter_cons, hid]
          rfl
      | false =>
          obtain ⟨k, hk⟩ : ∃ k, (n - toRemove.length).toNat = k + 1 := ⟨(n - toRemove.length).toNat - 1, by omega⟩
          rw [if_neg Bool.false_ne_true, List.filter_cons, hid, hk]
          simp only [Bool.not_false, if_true, List.take_succ_cons]
          split_ifs with hfull
          · have hzero : k = 0 := by omega
            rw [hzero, List.take_zero]
          · have hrest : (n - ((toRemove ++ [entry]).length : ℤ)).toNat = k := by omega
            rw [ih _ (by omega), hrest, List.append_assoc, List.singleton_append]

theorem foldl_remove (rs : List (String × ℕ)) (s : PreparedQueries) :
    (rs.foldl remove s).infos = s.infos ∧ (rs.foldl remove s).maxPrepared = s.maxPrepared ∧
      (rs.foldl remove s).length = s.length - rs.length ∧
      (rs.foldl remove s).mapByKey = (s.mapByKey.filter fun e => e.1 ∉ rs.map Prod.fst) ∧
      ∀ id info, (rs.foldl remove s).mapById id = some info ↔
        s.mapById id = some info ∧ ∀ e ∈ rs, s.queryId e.2 ≠ some id := by
  induction rs generalizing s with
  | nil => simp
  | cons e rs ih =>
      obtain ⟨hinfos, hmax, hlength, hkey, hid⟩ := ih (s.remove e)
      refine ⟨hinfos, hmax, ?_, ?_, fun id info => ?_⟩
      · rw [List.foldl_cons, hlength, List.length_cons, remove]
        push_cast
        ring
      · rw [List.foldl_cons, hkey, remove, List.filter_filter]
        apply List.filter_congr
        intro f _
        by_cases hf : f.1 = e.1 <;> simp [hf]
      · have hremove : (s.remove e).mapById id = some info ↔ s.mapById id = some info ∧ s.queryId e.2 ≠ some id := by
          unfold remove
          cases hquery : s.queryId e.2 with
          | none => simp
          | some other =>
              by_cases heq : id = other
              · simp [heq]
              · simp [Function.update_of_ne heq, Ne.symm heq]
        rw [List.foldl_cons, hid, hremove, List.forall_mem_cons, and_assoc]
        rfl

/-- What an overflow leaves: the entries are without some of those that have an id. -/
theorem validateOverflow_cases (s : PreparedQueries) : ∃ rs, rs.Sublist s.preparedEntries ∧
    s.validateOverflow = rs.foldl remove s ∧
      (s.length < s.maxPrepared.getD 0 ∧ rs = [] ∨ (s.maxPrepared.getD 0 : ℤ) ≤ s.length ∧
        rs = s.preparedEntries.take (s.length - s.maxPrepared.getD 0 + 1).toNat) := by
  by_cases hlt : s.length < s.maxPrepared.getD 0
  · exact ⟨[], List.nil_sublist _, if_pos hlt, .inl ⟨hlt, rfl⟩⟩
  · refine ⟨_, List.take_sublist _ _, (if_neg hlt).trans ?_, .inr ⟨by omega, rfl⟩⟩
    rw [collect_eq _ _ _ (by rw [List.length_nil]; omega), List.nil_append, List.length_nil, Nat.cast_zero, sub_zero]
    rfl

theorem length_filter_removed {es rs : List (String × ℕ)} (hnodup : (es.map Prod.fst).Nodup) (h : rs.Sublist es) :
    (es.filter fun e => e.1 ∉ rs.map Prod.fst).length + rs.length = es.length := by
  have hperm : (es.filter fun e => e.1 ∈ rs.map Prod.fst).Perm rs := by
    have hes := List.Nodup.of_map _ hnodup
    rw [List.perm_ext_iff_of_nodup (hes.filter _) (h.nodup hes)]
    intro e
    rw [List.mem_filter, decide_eq_true_eq]
    constructor
    · rintro ⟨he, hkey⟩
      obtain ⟨f, hf, heq⟩ := List.mem_map.1 hkey
      rwa [List.inj_on_of_nodup_map hnodup he (h.subset hf) heq.symm]
    · exact fun he => ⟨h.subset he, List.mem_map_of_mem he⟩
  have hsplit := List.length_eq_length_filter_add (l := es) fun e => decide (e.1 ∈ rs.map Prod.fst)
  rw [hperm.length_eq] at hsplit
  have hnot : (es.filter fun e => !decide (e.1 ∈ rs.map Prod.fst)) = es.filter fun e => e.1 ∉ rs.map Prod.fst := by
    simp only [decide_not]
  rw [hnot] at hsplit
  omega

/-! ### Steps -/

theorem validateOverflow_infos (s : PreparedQueries) :
    s.validateOverflow.infos = s.infos ∧ s.validateOverflow.maxPrepared = s.maxPrepared := by
  obtain ⟨rs, -, heq, -⟩ := validateOverflow_cases s
  obtain ⟨hinfos, hmax, -⟩ := foldl_remove rs s
  rw [heq]
  exact ⟨hinfos, hmax⟩

theorem validateOverflow_queryId (s : PreparedQueries) (info : ℕ) :
    s.validateOverflow.queryId info = s.queryId info := by
  rw [queryId, (validateOverflow_infos s).1]
  rfl

theorem Kept.validateOverflow (h : s.Kept) : s.validateOverflow.Kept := by
  obtain ⟨rs, hsub, heq, -⟩ := validateOverflow_cases s
  obtain ⟨hinfos, -, hlength, hkey, -⟩ := foldl_remove rs s
  have hremoved := length_filter_removed h.nodup (hsub.trans List.filter_sublist)
  refine ⟨?_, ?_, ?_⟩
  · rw [heq, hlength, hkey, h.length_eq]
    omega
  · rw [heq, hkey]
    exact h.nodup.sublist (List.filter_sublist.map _)
  · rw [heq, hkey, hinfos]
    exact fun e he => h.made e (List.mem_of_mem_filter he)

/-- An overflow takes the same statements out of both maps. -/
theorem Agree.validateOverflow (hk : s.Kept) (h : s.Agree) : s.validateOverflow.Agree := by
  obtain ⟨rs, hsub, heq, -⟩ := validateOverflow_cases s
  obtain ⟨-, -, -, hkey, hid⟩ := foldl_remove rs s
  have hrs : ∀ e ∈ rs, e ∈ s.mapByKey := fun e he => List.mem_of_mem_filter (hsub.subset he)
  intro id info
  rw [validateOverflow_queryId, heq, hid, h, hkey]
  constructor
  · rintro ⟨⟨hmem, hquery⟩, hkeep⟩
    obtain ⟨e, he, rfl⟩ := List.mem_map.1 hmem
    refine ⟨List.mem_map.2 ⟨e, List.mem_filter.2 ⟨he, decide_eq_true ?_⟩, rfl⟩, hquery⟩
    intro hremoved
    obtain ⟨f, hf, hfe⟩ := List.mem_map.1 hremoved
    obtain rfl := List.inj_on_of_nodup_map hk.nodup he (hrs f hf) hfe.symm
    exact hkeep e hf hquery
  · rintro ⟨hmem, hquery⟩
    obtain ⟨e, he, rfl⟩ := List.mem_map.1 hmem
    obtain ⟨hkept, hnot⟩ := List.mem_filter.1 he
    refine ⟨⟨List.mem_map_of_mem hkept, hquery⟩, fun f hf hfid => ?_⟩
    -- the two statements with this id would be one
    have hsame := (h id f.2).2 ⟨List.mem_map_of_mem (hrs f hf), hfid⟩
    rw [(h id e.2).2 ⟨List.mem_map_of_mem hkept, hquery⟩, Option.some.injEq] at hsame
    obtain rfl := hk.key_eq hkept (hrs f hf) hsame
    exact of_decide_eq_true hnot (List.mem_map_of_mem hf)

/-- A new statement, after an overflow was handled. -/
def add (s : PreparedQueries) (keyspace : Option String) (query : String) : PreparedQueries :=
  { s with
    infos := s.infos ++ [⟨query, keyspace, none⟩]
    mapByKey := s.mapByKey ++ [(getKey keyspace query, s.infos.length)]
    length := s.length + 1 }

theorem getOrAdd_cases (s : PreparedQueries) (keyspace : Option String) (query : String) :
    (s.getOrAdd keyspace query).2 = s ∨ getKey keyspace query ∉ s.mapByKey.map Prod.fst ∧
      (s.getOrAdd keyspace query).2 = s.validateOverflow.add keyspace query := by
  cases hlookup : s.mapByKey.lookup (getKey keyspace query) with
  | some info => exact .inl (by simp [getOrAdd, hlookup])
  | none =>
      refine .inr ⟨fun hmem => ?_, by simp [getOrAdd, hlookup, add]⟩
      obtain ⟨e, he, heq⟩ := List.mem_map.1 hmem
      have hne := List.lookup_eq_none_iff.1 hlookup e he
      rw [heq] at hne
      simp at hne

theorem add_queryId (s : PreparedQueries) (keyspace : Option String) (query : String) (info : ℕ) :
    (s.add keyspace query).queryId info = s.queryId info := by
  unfold queryId add
  rcases lt_trichotomy info s.infos.length with hlt | rfl | hgt
  · rw [List.getElem?_append_left hlt]
  · simp
  · rw [List.getElem?_eq_none (by simp; omega), List.getElem?_eq_none (by omega)]

theorem Kept.add (h : s.Kept) {keyspace : Option String} {query : String}
    (hkey : getKey keyspace query ∉ s.mapByKey.map Prod.fst) : (s.add keyspace query).Kept := by
  refine ⟨?_, ?_, ?_⟩
  · simp [PreparedQueries.add, h.length_eq]
  · simp only [PreparedQueries.add, List.map_append, List.map_cons, List.map_nil]
    refine List.nodup_append.2 ⟨h.nodup, List.nodup_singleton _, ?_⟩
    rintro key hmem _ hnew rfl
    exact hkey (List.mem_singleton.1 hnew ▸ hmem)
  · intro e he
    obtain he | he := List.mem_append.1 he
    · obtain ⟨i, hi, heq⟩ := h.made e he
      exact ⟨i, List.getElem?_append_left (List.getElem?_eq_some_iff.1 hi).1 ▸ hi, heq⟩
    · obtain rfl := List.mem_singleton.1 he
      exact ⟨_, List.getElem?_concat_length, rfl⟩

theorem Agree.add (h : s.Agree) (keyspace : Option String) (query : String) : (s.add keyspace query).Agree := by
  intro id info
  rw [add_queryId]
  refine (h id info).trans ⟨fun ⟨hmem, hid⟩ => ⟨?_, hid⟩, fun ⟨hmem, hid⟩ => ⟨?_, hid⟩⟩
  · simp only [PreparedQueries.add, List.map_append]
    exact List.mem_append_left _ hmem
  · simp only [PreparedQueries.add, List.map_append] at hmem
    obtain hmem | hnew := List.mem_append.1 hmem
    · exact hmem
    · -- the new statement has no id
      obtain rfl : info = s.infos.length := by simpa using hnew
      simp [queryId] at hid

theorem Kept.clear (s : PreparedQueries) : s.clear.Kept :=
  ⟨rfl, List.nodup_nil, fun _ he => absurd he List.not_mem_nil⟩

theorem Agree.clear (s : PreparedQueries) : s.clear.Agree := by
  intro id info
  simp [PreparedQueries.clear]

section

variable {info : ℕ} (id : List UInt8)

theorem setQueryId_queryId (other : ℕ) (hinfo : info < s.infos.length) :
    (s.setQueryId info id).queryId other = if info = other then some id else s.queryId other := by
  unfold queryId setQueryId
  rw [List.getElem?_modify]
  split_ifs with heq
  · rw [← heq, List.getElem?_eq_getElem hinfo]
    rfl
  · simp

theorem setById_setQueryId (hinfo : info < s.infos.length) :
    (s.setQueryId info id).setById info =
      { s.setQueryId info id with mapById := Function.update s.mapById id (some info) } := by
  unfold setById
  rw [setQueryId_queryId id info hinfo, if_pos rfl]
  rfl

theorem Kept.prepared (h : s.Kept) (hinfo : info < s.infos.length) : ((s.setQueryId info id).setById info).Kept := by
  rw [setById_setQueryId id hinfo]
  refine ⟨h.length_eq, h.nodup, fun e he => ?_⟩
  obtain ⟨i, hi, hkey⟩ := h.made e he
  simp only [setQueryId, List.getElem?_modify, hi]
  split_ifs with heq
  · exact ⟨_, rfl, hkey⟩
  · exact ⟨_, rfl, hkey⟩

end

/-- The first answer for a statement that is still there, with an id that no other one has. -/
def Prepares (s : PreparedQueries) (info : ℕ) (id : List UInt8) : Prop :=
  info ∈ s.mapByKey.map Prod.snd ∧ s.queryId info = none ∧
    ∀ other ∈ s.mapByKey.map Prod.snd, s.queryId other ≠ some id

instance (info : ℕ) (id : List UInt8) : Decidable (s.Prepares info id) :=
  inferInstanceAs (Decidable (_ ∧ _ ∧ _))

theorem Agree.prepared (h : s.Agree) {info : ℕ} {id : List UInt8} (hp : s.Prepares info id)
    (hinfo : info < s.infos.length) : ((s.setQueryId info id).setById info).Agree := by
  obtain ⟨hmem, hnone, hnew⟩ := hp
  intro id' other
  have hquery : ((s.setQueryId info id).setById info).queryId other =
      if info = other then some id else s.queryId other := by
    rw [setById_setQueryId id hinfo]
    exact setQueryId_queryId id other hinfo
  rw [hquery, setById_setQueryId id hinfo]
  have hcached : ((s.setQueryId info id).mapByKey.map Prod.snd) = s.mapByKey.map Prod.snd := rfl
  dsimp only
  rw [hcached]
  by_cases hid : id' = id
  · rw [hid, Function.update_self, Option.some.injEq]
    constructor
    · rintro rfl
      exact ⟨hmem, if_pos rfl⟩
    · rintro ⟨hother, heq⟩
      by_contra hne
      rw [if_neg hne] at heq
      exact hnew other hother heq
  · rw [Function.update_of_ne hid, h]
    refine and_congr_right fun _ => ?_
    split_ifs with heq
    · rw [← heq, hnone, Option.some.injEq]
      exact ⟨fun h => (Option.some_ne_none _ h.symm).elim, fun h => absurd h.symm hid⟩
    · rfl

/-! ### Runs -/

theorem step_cases {a : Action} {s' : PreparedQueries} (h : step s a = some s') :
    s' = s ∨ (∃ keyspace query, a = .getOrAdd keyspace query ∧ getKey keyspace query ∉ s.mapByKey.map Prod.fst ∧
        s' = s.validateOverflow.add keyspace query) ∨
      (∃ info id, a = .prepared info id ∧ info < s.infos.length ∧ s' = (s.setQueryId info id).setById info) ∨
      a = .clear ∧ s' = s.clear := by
  cases a with
  | getOrAdd keyspace query =>
      obtain rfl := Option.some.inj h
      obtain heq | ⟨hkey, heq⟩ := getOrAdd_cases s keyspace query
      · exact .inl heq
      · exact .inr (.inl ⟨keyspace, query, rfl, hkey, heq⟩)
  | prepared info id =>
      rw [step] at h
      split_ifs at h with hinfo
      exact .inr (.inr (.inl ⟨info, id, rfl, hinfo, (Option.some.inj h).symm⟩))
  | clear => exact .inr (.inr (.inr ⟨rfl, (Option.some.inj h).symm⟩))

theorem Kept.step {a : Action} {s' : PreparedQueries} (hk : s.Kept) (h : step s a = some s') : s'.Kept := by
  obtain rfl | ⟨keyspace, query, rfl, hkey, rfl⟩ | ⟨info, id, rfl, hinfo, rfl⟩ | ⟨rfl, rfl⟩ := step_cases h
  · exact hk
  · refine hk.validateOverflow.add fun hmem => hkey ?_
    obtain ⟨rs, -, heq, -⟩ := validateOverflow_cases s
    obtain ⟨-, -, -, hfilter, -⟩ := foldl_remove rs s
    rw [heq, hfilter] at hmem
    exact (List.filter_sublist.map _).subset hmem
  · exact hk.prepared id hinfo
  · exact Kept.clear s

theorem step_maxPrepared {a : Action} {s' : PreparedQueries} (h : step s a = some s') :
    s'.maxPrepared = s.maxPrepared := by
  obtain rfl | ⟨keyspace, query, rfl, -, rfl⟩ | ⟨info, id, rfl, hinfo, rfl⟩ | ⟨rfl, rfl⟩ := step_cases h
  · rfl
  · exact (validateOverflow_infos s).2
  · rw [setById_setQueryId id hinfo]
    rfl
  · rfl

/-- After a statement was added, the maximum holds, or all statements are without id. -/
theorem add_bound (hk : s.Kept) (keyspace : Option String) (query : String) :
    (s.validateOverflow.add keyspace query).length ≤
      max (s.maxPrepared.getD 0) (s.validateOverflow.add keyspace query).unprepared := by
  obtain ⟨rs, hsub, heq, hrs⟩ := validateOverflow_cases s
  obtain ⟨-, -, hlength, hkey, -⟩ := foldl_remove rs s
  have hv : s.validateOverflow.length = s.length - rs.length := by rw [heq, hlength]
  have hadd : (s.validateOverflow.add keyspace query).length = s.validateOverflow.length + 1 := rfl
  obtain ⟨hlt, rfl⟩ | ⟨hle, htake⟩ := hrs
  · rw [List.length_nil] at hv
    push_cast
    omega
  · by_cases hall : s.preparedEntries.length ≤ (s.length - s.maxPrepared.getD 0 + 1).toNat
    · -- all statements with an id are removed
      rw [List.take_of_length_le hall] at htake
      have hnone : ∀ e ∈ s.validateOverflow.mapByKey, (s.validateOverflow.queryId e.2).isNone := by
        intro e he
        rw [heq, hkey] at he
        obtain ⟨hmem, hnot⟩ := List.mem_filter.1 he
        rw [validateOverflow_queryId]
        by_contra hid
        refine of_decide_eq_true hnot (List.mem_map_of_mem ?_)
        rw [htake]
        exact List.mem_filter.2 ⟨hmem, by simpa [Option.isSome_iff_ne_none] using hid⟩
      have hcount : (s.validateOverflow.add keyspace query).unprepared =
          (s.validateOverflow.add keyspace query).mapByKey.length := by
        refine List.countP_eq_length.2 fun e he => ?_
        rw [add_queryId]
        obtain he | he := List.mem_append.1 he
        · exact hnone e he
        · rw [List.mem_singleton.1 he]
          simp [queryId]
      have hlen := hk.validateOverflow.length_eq
      rw [hcount, hadd, hlen]
      simp [add]
    · have hrsLen : rs.length = (s.length - s.maxPrepared.getD 0 + 1).toNat := by
        rw [htake, List.length_take]
        omega
      push_cast
      omega

/-- An id is not taken from a statement. -/
theorem step_queryId {a : Action} {s' : PreparedQueries} (h : step s a = some s') {info : ℕ}
    (hnone : s'.queryId info = none) : s.queryId info = none := by
  obtain rfl | ⟨keyspace, query, rfl, -, rfl⟩ | ⟨other, id, rfl, hother, rfl⟩ | ⟨rfl, rfl⟩ := step_cases h
  · exact hnone
  · rwa [add_queryId, validateOverflow_queryId] at hnone
  · rw [setById_setQueryId id hother] at hnone
    have hset := setQueryId_queryId id info hother
    change (s.setQueryId other id).queryId info = none at hnone
    rw [hset] at hnone
    split_ifs at hnone
    exact hnone
  · exact hnone

/-- A statement without id stays, unless all are forgotten. -/
theorem step_pending (hk : s.Kept) {a : Action} {s' : PreparedQueries} (h : step s a = some s') (hclear : a ≠ .clear)
    {e : String × ℕ} (he : e ∈ s.mapByKey) (hnone : s.queryId e.2 = none) : e ∈ s'.mapByKey := by
  obtain rfl | ⟨keyspace, query, rfl, -, rfl⟩ | ⟨info, id, rfl, hinfo, rfl⟩ | ⟨rfl, rfl⟩ := step_cases h
  · exact he
  · refine List.mem_append_left _ ?_
    obtain ⟨rs, hsub, heq, -⟩ := validateOverflow_cases s
    obtain ⟨-, -, -, hkey, -⟩ := foldl_remove rs s
    rw [heq, hkey]
    refine List.mem_filter.2 ⟨he, decide_eq_true fun hremoved => ?_⟩
    obtain ⟨f, hf, hfe⟩ := List.mem_map.1 hremoved
    obtain ⟨hmem, hid⟩ := List.mem_filter.1 (hsub.subset hf)
    obtain rfl := List.inj_on_of_nodup_map hk.nodup he hmem hfe.symm
    simp [hnone] at hid
  · rw [setById_setQueryId id hinfo]
    exact he
  · exact absurd rfl hclear

/-- The steps in which the answers come as the server gives them. -/
def stepOnce (s : PreparedQueries) (a : Action) : Option PreparedQueries :=
  match a with
  | .prepared info id => if s.Prepares info id then step s a else none
  | _ => step s a

theorem Agree.step {a : Action} {s' : PreparedQueries} (hk : s.Kept) (h : s.Agree) (hs : stepOnce s a = some s') :
    s'.Agree ∧ step s a = some s' := by
  cases a with
  | prepared info id =>
      rw [stepOnce] at hs
      split_ifs at hs with hp
      refine ⟨?_, hs⟩
      rw [PreparedQueries.step] at hs
      split_ifs at hs with hinfo
      rw [← Option.some.inj hs]
      exact h.prepared hp hinfo
  | getOrAdd keyspace query =>
      have hs : PreparedQueries.step s (.getOrAdd keyspace query) = some s' := hs
      refine ⟨?_, hs⟩
      obtain rfl | ⟨_, _, -, -, rfl⟩ | ⟨_, _, habs, -⟩ | ⟨habs, -⟩ := step_cases hs
      · exact h
      · exact (h.validateOverflow hk).add _ _
      · exact Action.noConfusion habs
      · exact Action.noConfusion habs
  | clear =>
      obtain rfl := Option.some.inj hs
      exact ⟨Agree.clear s, rfl⟩

theorem kept_run {maxPrepared : Option ℕ} {as : List Action} (h : Run step (create maxPrepared) as s) : s.Kept :=
  h.invariant ⟨rfl, List.nodup_nil, fun _ he => absurd he List.not_mem_nil⟩ fun _ _ _ hk hs => hk.step hs

theorem maxPrepared_run {maxPrepared : Option ℕ} {as : List Action} (h : Run step (create maxPrepared) as s) :
    s.maxPrepared = maxPrepared := by
  refine h.invariant (P := fun s => s.maxPrepared = maxPrepared) rfl fun _ _ _ heq hs => ?_
  rw [step_maxPrepared hs, heq]

theorem bound_run {maxPrepared : Option ℕ} {as : List Action} (h : Run step (create maxPrepared) as s) :
    ∀ m : ℕ, (∀ pre s', pre <+: as → Run step (create maxPrepared) pre s' → s'.unprepared ≤ m) →
      s.length ≤ max (maxPrepared.getD 0) m := by
  induction h with
  | nil => exact fun m _ => Int.natCast_nonneg _
  | @snoc s₁ s₂ as a hrun hs ih =>
      intro m hm
      have hbefore := ih m fun pre s' hpre => hm pre s' (hpre.trans (List.prefix_append _ _))
      obtain rfl | ⟨keyspace, query, rfl, -, rfl⟩ | ⟨info, id, rfl, hinfo, rfl⟩ | ⟨rfl, rfl⟩ := step_cases hs
      · exact hbefore
      · have hadd := add_bound (kept_run hrun) keyspace query
        have hafter := hm _ _ (List.prefix_refl _) (hrun.snoc hs)
        rw [maxPrepared_run hrun] at hadd
        push_cast at hadd ⊢
        omega
      · rw [setById_setQueryId id hinfo]
        exact hbefore
      · exact Int.natCast_nonneg _

theorem pending_run {s₀ : PreparedQueries} {as : List Action} (h : Run step s₀ as s) (hk : s₀.Kept)
    (hclear : Action.clear ∉ as) {e : String × ℕ} (he : e ∈ s₀.mapByKey) (hnone : s.queryId e.2 = none) :
    e ∈ s.mapByKey := by
  induction h with
  | nil => exact he
  | @snoc s₁ s₂ as a hrun hs ih =>
      obtain ⟨has, ha⟩ : Action.clear ∉ as ∧ a ≠ .clear := by simpa [eq_comm] using hclear
      have hbefore := step_queryId hs hnone
      have hkept := hrun.invariant hk fun _ _ _ hk hs => hk.step hs
      exact step_pending hkept hs ha (ih has hbefore) hbefore

theorem agree_run {maxPrepared : Option ℕ} {as : List Action} (h : Run stepOnce (create maxPrepared) as s) :
    s.Kept ∧ s.Agree := by
  refine h.invariant (P := fun s => s.Kept ∧ s.Agree) ?_ ?_
  · exact ⟨kept_run (Run.nil _), fun id info => by simp [create]⟩
  · rintro s₁ a s₂ ⟨hk, hagree⟩ hs
    obtain ⟨hagree', hstep⟩ := hagree.step hk hs
    exact ⟨hk.step hstep, hagree'⟩

/-- In every run the count is that of the statements, which are no more than the maximum or than have been without
id at one time, and a statement that waits for its id stays until all are forgotten.  When every id comes once,
for a statement that is still there, the map by id finds exactly the statements of the other map that have one. -/
theorem indexes_agree {maxPrepared : Option ℕ} {as : List Action} (h : Run step (create maxPrepared) as s) :
    s.length = s.mapByKey.length ∧
      (∀ m : ℕ, (∀ pre s', pre <+: as → Run step (create maxPrepared) pre s' → s'.unprepared ≤ m) →
        s.length ≤ max (maxPrepared.getD 0) m) ∧
      (∀ pre rest s', as = pre ++ rest → Run step (create maxPrepared) pre s' → Run step s' rest s →
        Action.clear ∉ rest → ∀ e ∈ s'.mapByKey, s.queryId e.2 = none → e ∈ s.mapByKey) ∧
      (Run stepOnce (create maxPrepared) as s →
        ∀ id info, s.getById id = some info ↔ info ∈ s.getAll ∧ s.queryId info = some id) := by
  refine ⟨(kept_run h).length_eq, bound_run h, ?_, ?_⟩
  · intro pre rest s' _ hpre hrest hclear e he hnone
    exact pending_run hrest (kept_run hpre) hclear he hnone
  · intro honce id info
    rw [getById, (agree_run honce).2, getAll, List.mem_filter, and_assoc]
    refine and_congr_right fun _ => ⟨fun hid => ⟨by simp [hid], hid⟩, And.right⟩

/-- Two statements may stay; the third one removes that which has an id. -/
theorem indexes_agree_removed : ∃ s, Run stepOnce (create (some 2))
    [.getOrAdd none "a", .getOrAdd (some "ks") "b", .prepared 1 [7], .getOrAdd none "c"] s ∧
      s.length = s.mapByKey.length ∧
        ∀ id info, s.getById id = some info ↔ info ∈ s.getAll ∧ s.queryId info = some id := by
  obtain ⟨s, hs⟩ := Option.isSome_iff_exists.1
    (show (exec stepOnce (create (some 2)) [.getOrAdd none "a", .getOrAdd (some "ks") "b", .prepared 1 [7],
      .getOrAdd none "c"]).isSome from by decide +kernel)
  have hstep : exec step (create (some 2)) [.getOrAdd none "a", .getOrAdd (some "ks") "b", .prepared 1 [7],
      .getOrAdd none "c"] = some s := hs
  obtain ⟨hlength, -, -, hid⟩ := indexes_agree (Run.of_exec hstep)
  exact ⟨s, Run.of_exec hs, hlength, hid (Run.of_exec hs)⟩

end PreparedQueries

end CqlDriver.Metadata
