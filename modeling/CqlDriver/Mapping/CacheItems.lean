import CqlDriver.Mapping.Tree

/-! # Cache items

The trees of a mapper hold references to cache items: objects that are created empty and get their
content later, from whoever waits for it.  Several trees share one heap of items; no two keys refer to
one item.  `find` gives the content under a key: looking up an item leaves all contents as they are
(`find_getOrCreate`), and filling one changes the content under its own key only (`find_fill`). -/

namespace CqlDriver.Mapping

variable {ι κ σ : Type} [DecidableEq κ]

/-- Trees of references, and the content of each item. -/
structure CacheItems (ι κ σ : Type) [DecidableEq κ] where
  trees : ι → Tree κ ℕ
  contents : List (Option σ)
  bounded : ∀ {i key n}, (trees i).lookup key = some n → n < contents.length
  injective : ∀ {i j key key' n}, (trees i).lookup key = some n → (trees j).lookup key' = some n →
    i = j ∧ key = key'

namespace CacheItems

def new : CacheItems ι κ σ where
  trees _ := .new
  contents := []
  bounded h := by simp at h
  injective h := by simp at h

/-- The item under a key. -/
def lookup (s : CacheItems ι κ σ) (i : ι) (key : List κ) : Option ℕ := (s.trees i).lookup key

def content (s : CacheItems ι κ σ) (n : ℕ) : Option σ := (s.contents[n]?).join

/-- The content under a key. -/
def find (s : CacheItems ι κ σ) (i : ι) (key : List κ) : Option σ := (s.lookup i key).bind s.content

/-- The item gets its content. -/
def fill (s : CacheItems ι κ σ) (n : ℕ) (v : σ) : CacheItems ι κ σ :=
  { s with
    contents := s.contents.set n (some v)
    bounded := fun h => by rw [List.length_set]; exact s.bounded h }

theorem find_of_lookup {s : CacheItems ι κ σ} {i : ι} {key : List κ} {n : ℕ} (h : s.lookup i key = some n) :
    s.find i key = s.content n := by
  rw [find, h]
  rfl

@[simp] theorem find_new (i : ι) (key : List κ) : (new : CacheItems ι κ σ).find i key = none := by
  simp [find, lookup, new]

@[simp] theorem lookup_fill (s : CacheItems ι κ σ) (n : ℕ) (v : σ) (i : ι) (key : List κ) :
    (s.fill n v).lookup i key = s.lookup i key := rfl

theorem content_fill (s : CacheItems ι κ σ) {n : ℕ} (h : n < s.contents.length) (v : σ) (m : ℕ) :
    (s.fill n v).content m = if m = n then some v else s.content m := by
  unfold content fill
  simp only [List.getElem?_set]
  by_cases hm : m = n
  · subst hm
    rw [if_pos rfl, if_pos h, if_pos rfl]
    rfl
  · rw [if_neg (fun e => hm e.symm), if_neg hm]

/-! ### Looking up an item -/

variable [DecidableEq ι]

/-- The references after a lookup: a new item has the next number. -/
def opened (s : CacheItems ι κ σ) (i : ι) (key : List κ) : ι → Tree κ ℕ :=
  Function.update s.trees i ((s.trees i).getOrCreate key s.contents.length).2

theorem lookup_opened (s : CacheItems ι κ σ) {i j : ι} {key key' : List κ} {n : ℕ}
    (h : (s.opened i key j).lookup key' = some n) :
    s.lookup j key' = some n ∨ (j = i ∧ key' = key) ∧ n = s.contents.length := by
  unfold opened at h
  by_cases hj : j = i
  · subst hj
    rw [Function.update_self] at h
    obtain h | ⟨hkey, hn⟩ := Tree.lookup_getOrCreate_cases h
    · exact .inl h
    · exact .inr ⟨⟨rfl, hkey⟩, hn⟩
  · rw [Function.update_of_ne hj] at h
    exact .inl h

/-- `cache.getOrCreate(key, () => ({ … : null }))`: the item, and the items afterwards.  Every lookup
uses up a number, whether or not it creates the item. -/
def getOrCreate (s : CacheItems ι κ σ) (i : ι) (key : List κ) : Option ℕ × CacheItems ι κ σ :=
  (((s.trees i).getOrCreate key s.contents.length).1,
    { trees := s.opened i key
      contents := s.contents ++ [none]
      bounded := by
        intro j key' n h
        rw [List.length_append, List.length_singleton]
        obtain h | ⟨-, rfl⟩ := s.lookup_opened h
        · exact Nat.lt_succ_of_lt (s.bounded h)
        · exact Nat.lt_succ_self _
      injective := by
        intro j j' key' key'' n h h'
        obtain h | ⟨⟨rfl, rfl⟩, rfl⟩ := s.lookup_opened h
        · obtain h' | ⟨-, rfl⟩ := s.lookup_opened h'
          · exact s.injective h h'
          · exact absurd (s.bounded h) (lt_irrefl _)
        · obtain h' | ⟨⟨rfl, rfl⟩, -⟩ := s.lookup_opened h'
          · exact absurd (s.bounded h') (lt_irrefl _)
          · exact ⟨rfl, rfl⟩ })

theorem content_getOrCreate (s : CacheItems ι κ σ) (i : ι) (key : List κ) (n : ℕ) :
    (s.getOrCreate i key).2.content n = s.content n := by
  unfold content getOrCreate
  rw [List.getElem?_append]
  split_ifs with h
  · rfl
  · rw [List.getElem?_eq_none (not_lt.1 h)]
    cases hk : n - s.contents.length with
    | zero => rfl
    | succ k => rfl

/-- The items that are there stay. -/
theorem lookup_mono {s : CacheItems ι κ σ} {i j : ι} {key key' : List κ} {n : ℕ}
    (h : s.lookup j key' = some n) : (s.getOrCreate i key).2.lookup j key' = some n := by
  unfold lookup getOrCreate opened
  by_cases hj : j = i
  · subst hj
    simp only [Function.update_self]
    exact Tree.lookup_mono h
  · simp only [Function.update_of_ne hj]
    exact h

/-- The item that a lookup gives is under its key. -/
theorem lookup_getOrCreate {s : CacheItems ι κ σ} {i : ι} {key : List κ} {n : ℕ}
    (h : (s.getOrCreate i key).1 = some n) : (s.getOrCreate i key).2.lookup i key = some n := by
  unfold lookup getOrCreate opened
  simp only [Function.update_self]
  rw [Tree.lookup_of_getOrCreate, if_pos rfl]
  exact h

theorem getOrCreate_ne_none (s : CacheItems ι κ σ) (i : ι) {key : List κ} (h : key ≠ []) :
    ∃ n, (s.getOrCreate i key).1 = some n :=
  ⟨_, ((s.trees i).lookup_getOrCreate h _).1⟩

theorem find_getOrCreate (s : CacheItems ι κ σ) (i : ι) (key : List κ) (j : ι) (key' : List κ) :
    (s.getOrCreate i key).2.find j key' = s.find j key' := by
  unfold find
  cases hs : s.lookup j key' with
  | some n =>
      rw [lookup_mono hs]
      exact content_getOrCreate s i key n
  | none =>
      cases hn : (s.getOrCreate i key).2.lookup j key' with
      | none => rfl
      | some n =>
          obtain h | ⟨-, rfl⟩ := s.lookup_opened hn
          · rw [hs] at h
            cases h
          -- The new item is empty.
          · change (s.getOrCreate i key).2.content s.contents.length = none
            rw [content_getOrCreate, content, List.getElem?_eq_none (le_refl _)]
            rfl

/-- The item that a lookup gives has the content under its key. -/
theorem content_of_getOrCreate {s : CacheItems ι κ σ} {i : ι} {key : List κ} {n : ℕ}
    (h : (s.getOrCreate i key).1 = some n) : (s.getOrCreate i key).2.content n = s.find i key := by
  rw [← find_of_lookup (lookup_getOrCreate h), find_getOrCreate]

theorem find_fill {s : CacheItems ι κ σ} {i : ι} {key : List κ} {n : ℕ} (h : s.lookup i key = some n) (v : σ)
    (j : ι) (key' : List κ) :
    (s.fill n v).find j key' = if j = i ∧ key' = key then some v else s.find j key' := by
  unfold find
  rw [lookup_fill]
  by_cases hj : j = i ∧ key' = key
  · obtain ⟨rfl, rfl⟩ := hj
    rw [if_pos ⟨rfl, rfl⟩, h]
    change (s.fill n v).content n = some v
    rw [content_fill s (s.bounded h), if_pos rfl]
  · rw [if_neg hj]
    cases hl : s.lookup j key' with
    | none => rfl
    | some m =>
        have hne : m ≠ n := by
          rintro rfl
          exact hj (s.injective hl h)
        change (s.fill n v).content m = s.content m
        rw [content_fill s (s.bounded h), if_neg hne]

/-- What is found after an item got its content: that content under its key, or what was there. -/
theorem find_fill_cases {s : CacheItems ι κ σ} {i j : ι} {key key' : List κ} {n : ℕ} {v v' : σ}
    (h : s.lookup i key = some n) (hfind : (s.fill n v).find j key' = some v') :
    (j = i ∧ key' = key ∧ v' = v) ∨ s.find j key' = some v' := by
  rw [find_fill h] at hfind
  split_ifs at hfind with hj
  · exact .inl ⟨hj.1, hj.2, (Option.some.inj hfind).symm⟩
  · exact .inr hfind

end CacheItems
end CqlDriver.Mapping
