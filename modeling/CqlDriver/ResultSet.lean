import Mathlib.Tactic

/-! # Async iteration over the pages of a result (`lib/types/result-set.js`)

`ResultSet[Symbol.asyncIterator]` returns an object whose `next` serves the rows of the current
page and asks `nextPageAsync` for the page behind the current paging state.  `forAwait` is a
`for await` loop over it: it calls `next` until `done`, collecting the rows and the paging
states that were asked for; its fuel counts calls of `next`.

`Pages first nextPageAsync pages states` says that the server answers with `pages`, one row list
per page, `states` being the paging states between them.  `forAwait_eq` computes the loop for
every such server: it stops at the first empty page.  `yieldsAll_iff` draws the line: all rows
come, and the loop ends after the last page, exactly when no page but the last is empty. -/

namespace CqlDriver.ResultSet

variable {α σ ε : Type}

/-- The part of a `ResultSet` that the iterator reads.  `rows` is undefined for a write. -/
structure Page (α σ : Type) where
  rows : Option (List α)
  rawPageState : Option σ

inductive Error (ε : Type) where
  /-- `DriverInternalError("Property nextPageAsync should be set when pageState is defined")` -/
  | driverInternal
  /-- `nextPageAsync` rejected. -/
  | rejected (e : ε)
  /-- `rows.length` of a page without rows. -/
  | typeError
deriving DecidableEq

/-- The variables captured by the iterator object. -/
structure Cursor (α σ : Type) where
  index : ℕ
  rows : List α
  pageState : Option σ

/-- The object returned by `[Symbol.asyncIterator]()`. -/
inductive AsyncIterator (α σ : Type) where
  | empty
  | live (c : Cursor α σ)

def asyncIterator (self : Page α σ) : AsyncIterator α σ :=
  match self.rows with
  | none => .empty
  | some [] => .empty
  | some (r :: rs) => .live ⟨0, r :: rs, self.rawPageState⟩

/-- The page fetched at the start of `next`, with the paging state it was asked with. -/
def fetch (nextPageAsync : Option (σ → Except ε (Page α σ))) (c : Cursor α σ) :
    Except (Error ε) (List σ × Cursor α σ) :=
  match c.pageState with
  | none => .ok ([], c)
  | some pageState =>
      if c.rows.length ≤ c.index then
        match nextPageAsync with
        | none => .error .driverInternal
        | some f =>
            match f pageState with
            | .error e => .error (.rejected e)
            | .ok rs =>
                match rs.rows with
                | none => .error .typeError
                | some rows => .ok ([pageState], ⟨0, rows, rs.rawPageState⟩)
      else .ok ([], c)

/-- `next`: `none` is `{ done: true }`. -/
def next (nextPageAsync : Option (σ → Except ε (Page α σ))) (c : Cursor α σ) :
    Except (Error ε) (List σ × Option α × Cursor α σ) :=
  match fetch nextPageAsync c with
  | .error e => .error e
  | .ok (asked, c) =>
      match c.rows[c.index]? with
      | some value => .ok (asked, some value, { c with index := c.index + 1 })
      | none => .ok (asked, none, c)

/-- The `for await` loop on a live iterator. -/
def collect (nextPageAsync : Option (σ → Except ε (Page α σ))) :
    ℕ → Cursor α σ → Option (Except (Error ε) (List α × List σ))
  | 0, _ => none
  | fuel + 1, c =>
      match next nextPageAsync c with
      | .error e => some (.error e)
      | .ok (asked, none, _) => some (.ok ([], asked))
      | .ok (asked, some value, c) =>
          (collect nextPageAsync fuel c).map (·.map fun (values, states) => (value :: values, asked ++ states))

/-- The `for await` loop over a result set. -/
def forAwait (self : Page α σ) (nextPageAsync : Option (σ → Except ε (Page α σ))) (fuel : ℕ) :
    Option (Except (Error ε) (List α × List σ)) :=
  match asyncIterator self with
  | .empty => some (.ok ([], []))
  | .live c => collect nextPageAsync fuel c

/-- The server behind a first page: the rows of all pages and the paging states between them,
the last page being the one without a paging state. -/
inductive Pages (nextPageAsync : σ → Except ε (Page α σ)) : Page α σ → List (List α) → List σ → Prop
  | last {rows : List α} : Pages nextPageAsync ⟨some rows, none⟩ [rows] []
  | more {rows : List α} {state : σ} {page : Page α σ} {pages : List (List α)} {states : List σ} :
      nextPageAsync state = .ok page → Pages nextPageAsync page pages states →
        Pages nextPageAsync ⟨some rows, some state⟩ (rows :: pages) (state :: states)

/-! ### What the loop does -/

/-- A row of the current page is served without a fetch. -/
theorem next_of_lt {np : Option (σ → Except ε (Page α σ))} {c : Cursor α σ} {value : α}
    (h : c.rows[c.index]? = some value) :
    next np c = .ok ([], some value, { c with index := c.index + 1 }) := by
  have hlt : c.index < c.rows.length := by
    by_contra hge
    rw [List.getElem?_eq_none (by omega)] at h
    cases h
  have hf : fetch np c = .ok ([], c) := by
    unfold fetch
    cases c.pageState with
    | none => rfl
    | some s => simp only [not_le.mpr hlt, if_false]
  simp only [next, hf, h]

/-- At the end of a page with a paging state the next page is fetched. -/
theorem next_of_fetch {f : σ → Except ε (Page α σ)} {c : Cursor α σ} {state : σ} {rows : List α}
    {rawPageState : Option σ} (hi : c.rows.length ≤ c.index) (hs : c.pageState = some state)
    (hf : f state = .ok ⟨some rows, rawPageState⟩) :
    next (some f) c =
      match rows with
      | [] => .ok ([state], none, ⟨0, [], rawPageState⟩)
      | r :: rs => .ok ([state], some r, ⟨1, r :: rs, rawPageState⟩) := by
  have hfetch : fetch (some f) c = .ok ([state], ⟨0, rows, rawPageState⟩) := by
    simp only [fetch, hs, if_pos hi, hf]
  cases rows with
  | nil => simp only [next, hfetch, List.getElem?_nil]
  | cons r rs => simp only [next, hfetch, List.getElem?_cons_zero, zero_add]

/-- Serving the rest of the current page. -/
theorem collect_drop {np : Option (σ → Except ε (Page α σ))} {rows : List α} {st : Option σ}
    {fuel : ℕ} {res : List α × List σ} :
    ∀ (k i : ℕ), i + k = rows.length →
      collect np fuel ⟨rows.length, rows, st⟩ = some (.ok res) →
      collect np (fuel + k) ⟨i, rows, st⟩ = some (.ok (rows.drop i ++ res.1, res.2))
  | 0, i, hi, h => by
      obtain rfl : i = rows.length := by omega
      simpa using h
  | k + 1, i, hi, h => by
      have hlt : i < rows.length := by omega
      have hg : rows[i]? = some rows[i] := List.getElem?_eq_getElem hlt
      have ih := collect_drop k (i + 1) (by omega) h
      rw [← Nat.add_assoc, collect, next_of_lt (c := ⟨i, rows, st⟩) hg]
      simp only [ih, Option.map_some, Except.map, List.nil_append]
      rw [List.drop_eq_getElem_cons hlt, List.cons_append]

/-- Pages up to the first empty one. -/
def served (pages : List (List α)) : List (List α) := pages.takeWhile (· ≠ [])

/-- From the end of a page on, the loop serves the following pages up to the first empty one,
and asks once more than it serves pages, unless there are no more. -/
theorem collect_pages {f : σ → Except ε (Page α σ)} {page : Page α σ} {pages : List (List α)}
    {states : List σ} (h : Pages f page pages states) :
    ∃ (rows : List α) (rest : List (List α)) (fuel : ℕ), page.rows = some rows ∧ pages = rows :: rest ∧
      collect (some f) fuel ⟨rows.length, rows, page.rawPageState⟩ =
        some (.ok ((served rest).flatten, states.take ((served rest).length + 1))) := by
  induction h with
  | @last rows =>
      refine ⟨rows, [], 1, rfl, rfl, ?_⟩
      simp [collect, next, fetch, served]
  | @more rows state page pages states hf _ ih =>
      obtain ⟨rows', rest, fuel, hrows, rfl, ih⟩ := ih
      obtain ⟨pageRows, rawPageState⟩ := page
      simp only at hrows ih
      subst hrows
      have hn := next_of_fetch (c := ⟨rows.length, rows, some state⟩) le_rfl rfl hf
      cases rows' with
      | nil =>
          refine ⟨rows, [] :: rest, 1, rfl, rfl, ?_⟩
          simp [collect, hn, served]
      | cons r rs =>
          have hd := collect_drop rs.length 1 (by simp; omega) ih
          refine ⟨rows, (r :: rs) :: rest, fuel + rs.length + 1, rfl, rfl, ?_⟩
          rw [collect, hn]
          simp only [hd, Option.map_some, Except.map, List.drop_one, List.tail_cons]
          simp [served]

/-- More fuel does not change a finished loop. -/
theorem collect_mono {np : Option (σ → Except ε (Page α σ))} {res : Except (Error ε) (List α × List σ)} :
    ∀ {fuel fuel' : ℕ} {c : Cursor α σ}, fuel ≤ fuel' → collect np fuel c = some res →
      collect np fuel' c = some res := by
  intro fuel
  induction fuel generalizing res with
  | zero => intro _ _ _ h; cases h
  | succ fuel ih =>
      intro fuel' c hle h
      obtain ⟨fuel', rfl⟩ : ∃ k, fuel' = k + 1 := ⟨fuel' - 1, by omega⟩
      rw [collect] at h ⊢
      cases hn : next np c with
      | error e => rw [hn] at h; exact h
      | ok r =>
          obtain ⟨asked, value, c'⟩ := r
          rw [hn] at h
          cases value with
          | none => exact h
          | some v =>
              simp only [Option.map_eq_some_iff] at h ⊢
              obtain ⟨r, hr, he⟩ := h
              exact ⟨r, ih (by omega) hr, he⟩

/-- The whole loop, for every server: the first page decides whether it starts at all. -/
theorem forAwait_eq {f : σ → Except ε (Page α σ)} {page : Page α σ} {rows : List α}
    {rest : List (List α)} {states : List σ} (h : Pages f page (rows :: rest) states) :
    ∃ fuel₀, ∀ fuel, fuel₀ ≤ fuel → forAwait page (some f) fuel =
      some (.ok (if rows = [] then ([], [])
        else (rows ++ (served rest).flatten, states.take ((served rest).length + 1)))) := by
  obtain ⟨rows', rest', fuel₀, hrows, he, hc⟩ := collect_pages h
  obtain ⟨rfl, rfl⟩ : rows = rows' ∧ rest = rest' := by simpa using he
  cases rows with
  | nil => exact ⟨0, fun fuel _ => by simp [forAwait, asyncIterator, hrows]⟩
  | cons r rs =>
      have hd := collect_drop (rs.length + 1) 0 (by simp) hc
      refine ⟨fuel₀ + (rs.length + 1), fun fuel hle => ?_⟩
      have := collect_mono hle hd
      simpa [forAwait, asyncIterator, hrows] using this

/-! ### When every row comes -/

/-- The loop ends with the rows of all pages in order, after asking for every page. -/
def YieldsAll (f : σ → Except ε (Page α σ)) (page : Page α σ) (pages : List (List α))
    (states : List σ) : Prop :=
  ∃ fuel₀, ∀ fuel, fuel₀ ≤ fuel → forAwait page (some f) fuel = some (.ok (pages.flatten, states))

theorem Pages.length_eq {f : σ → Except ε (Page α σ)} {page : Page α σ} {pages : List (List α)}
    {states : List σ} (h : Pages f page pages states) : pages.length = states.length + 1 := by
  induction h with
  | last => rfl
  | more _ _ ih => simp [ih]

/-- Serving stops at the last page exactly when every page before it has rows. -/
theorem served_length_iff (pages : List (List α)) :
    pages.length ≤ (served pages).length + 1 ↔ ∀ p ∈ pages.dropLast, p ≠ [] := by
  induction pages with
  | nil => simp
  | cons p ps ih =>
      cases p with
      | nil =>
          cases ps with
          | nil => simp [served]
          | cons q qs => simp [served]
      | cons r rs =>
          have e : served ((r :: rs) :: ps) = (r :: rs) :: served ps := by simp [served]
          rw [e]
          cases ps with
          | nil => simp
          | cons q qs =>
              rw [List.dropLast_cons_cons, List.forall_mem_cons, ← ih]
              simp

/-- If serving stops at the last page, nothing is lost. -/
theorem served_flatten {pages : List (List α)} (h : pages.length ≤ (served pages).length + 1) :
    (served pages).flatten = pages.flatten := by
  induction pages with
  | nil => rfl
  | cons p ps ih =>
      cases p with
      | nil =>
          have : ps = [] := by
            simpa [served] using h
          simp [this, served]
      | cons r rs =>
          have e : served ((r :: rs) :: ps) = (r :: rs) :: served ps := by simp [served]
          rw [e] at h ⊢
          rw [List.flatten_cons, List.flatten_cons, ih (by simpa using h)]

/-- Iterating a result set yields all rows and ends after the last page exactly when no page
before the last is empty. -/
theorem yieldsAll_iff {f : σ → Except ε (Page α σ)} {page : Page α σ} {pages : List (List α)}
    {states : List σ} (h : Pages f page pages states) :
    YieldsAll f page pages states ↔ ∀ p ∈ pages.dropLast, p ≠ [] := by
  have hlen := h.length_eq
  obtain ⟨rows, rest, -, -, rfl, -⟩ := collect_pages h
  obtain ⟨fuel₀, hf⟩ := forAwait_eq h
  have hval : YieldsAll f page (rows :: rest) states ↔
      (if rows = [] then (([], []) : List α × List σ)
        else (rows ++ (served rest).flatten, states.take ((served rest).length + 1))) =
        ((rows :: rest).flatten, states) := by
    constructor
    · rintro ⟨fuel₁, hy⟩
      have h1 := hf (max fuel₀ fuel₁) (le_max_left _ _)
      rw [hy _ (le_max_right _ _)] at h1
      simpa using h1.symm
    · intro he
      exact ⟨fuel₀, fun fuel hle => by rw [hf fuel hle, he]⟩
  rw [hval]
  have hlen' : rest.length = states.length := by simpa using hlen
  cases rows with
  | nil =>
      cases rest with
      | nil => simpa using hlen'.symm
      | cons q qs =>
          refine iff_of_false ?_ (by simp)
          intro he
          rw [if_pos rfl, Prod.mk.injEq] at he
          rw [← he.2] at hlen'
          simp at hlen'
  | cons r rs =>
      have hs := served_length_iff rest
      rw [if_neg (by simp), Prod.mk.injEq, List.take_eq_self_iff, ← hlen']
      constructor
      · rintro ⟨-, h2⟩
        cases rest with
        | nil => simp
        | cons q qs =>
            rw [List.dropLast_cons_cons, List.forall_mem_cons]
            exact ⟨by simp, hs.mp h2⟩
      · intro hne
        have h2 : rest.length ≤ (served rest).length + 1 := by
          cases rest with
          | nil => simp
          | cons q qs =>
              rw [List.dropLast_cons_cons, List.forall_mem_cons] at hne
              exact hs.mpr hne.2
        exact ⟨by rw [served_flatten h2, List.flatten_cons], h2⟩

/-- A server with three pages, the second one empty. -/
def tombstonePages (state : ℕ) : Except Unit (Page ℕ ℕ) :=
  if state = 0 then .ok ⟨some [], some 1⟩ else .ok ⟨some [200], none⟩

/-- The third page is never asked for. -/
theorem not_yieldsAll_tombstonePages :
    Pages tombstonePages ⟨some [100], some 0⟩ [[100], [], [200]] [0, 1] ∧
      ¬ YieldsAll tombstonePages ⟨some [100], some 0⟩ [[100], [], [200]] [0, 1] := by
  have h : Pages tombstonePages ⟨some [100], some 0⟩ [[100], [], [200]] [0, 1] :=
    .more rfl (.more rfl .last)
  refine ⟨h, ?_⟩
  rintro ⟨fuel₀, hf⟩
  obtain ⟨fuel₁, hg⟩ := forAwait_eq h
  have h1 := hf (max fuel₀ fuel₁) (le_max_left _ _)
  rw [hg _ (le_max_right _ _)] at h1
  revert h1
  decide

/-- A server with three pages, only the last one empty. -/
def shortPages (state : ℕ) : Except Unit (Page ℕ ℕ) :=
  if state = 0 then .ok ⟨some [200, 201], some 1⟩ else .ok ⟨some [], none⟩

theorem yieldsAll_shortPages :
    YieldsAll shortPages ⟨some [100], some 0⟩ [[100], [200, 201], []] [0, 1] :=
  (yieldsAll_iff (.more rfl (.more rfl .last))).mpr (by decide)

end CqlDriver.ResultSet
