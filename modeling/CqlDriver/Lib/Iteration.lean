import Mathlib.Tactic

/-! # Iterators

An iterator is a state with a function `next`, whose answer is an element, or `none` for done.  Its loops run on
fuel.  `Yields next s l`: from `s` on, the answers are those of a cursor over the list `l`, which stays done after the
last element.  `Yields.of_counter` is the rule for an iterator that counts its answers; `Yields.map`, for a state inside
of a state, and `Yields.skip`, for a loop that passes over elements, build iterators on others. -/

namespace Iteration

variable {S T α : Type}

/-- The answer to a call, and the state after it. -/
def Answers (next : ℕ → S → Option (Option α × S)) (s : S) (answer : Option α) (s' : S) : Prop :=
  ∃ fuel, next fuel s = some (answer, s')

/-- More fuel does not change an answer. -/
def Steady (next : ℕ → S → Option (Option α × S)) : Prop :=
  ∀ fuel s r, next fuel s = some r → ∀ more ≥ fuel, next more s = some r

/-- A cursor over the list gives the same answers. -/
def Yields (next : ℕ → S → Option (Option α × S)) (s : S) (l : List α) : Prop :=
  ∃ R : S → List α → Prop, R s l ∧ ∀ s l, R s l → ∃ s', Answers next s l.head? s' ∧ R s' l.tail

/-- The loop that calls `next` until an element is not to be avoided. -/
def skip (next : S → Option (Option α × S)) (avoid : α → Bool) : ℕ → S → Option (Option α × S)
  | 0, _ => none
  | fuel + 1, s => match next s with
      | none => none
      | some (none, s') => some (none, s')
      | some (some a, s') => if avoid a then skip next avoid fuel s' else some (some a, s')

variable {next : ℕ → S → Option (Option α × S)} {s s' : S} {l : List α}

theorem Answers.unique (hsteady : Steady next) {answer answer' : Option α} {t t' : S} (h : Answers next s answer t)
    (h' : Answers next s answer' t') : answer = answer' ∧ t = t' := by
  obtain ⟨fuel, hfuel⟩ := h
  obtain ⟨fuel', hfuel'⟩ := h'
  have hmax := hsteady _ _ _ hfuel (max fuel fuel') (Nat.le_max_left ..)
  rw [hsteady _ _ _ hfuel' (max fuel fuel') (Nat.le_max_right ..)] at hmax
  simp only [Option.some.injEq, Prod.mk.injEq] at hmax
  exact ⟨hmax.1.symm, hmax.2.symm⟩

theorem Yields.step (h : Yields next s l) : ∃ s', Answers next s l.head? s' ∧ Yields next s' l.tail := by
  obtain ⟨R, hR, hstep⟩ := h
  obtain ⟨s', hanswer, hR'⟩ := hstep s l hR
  exact ⟨s', hanswer, R, hR', hstep⟩

/-- Whatever a call answers is the next element of the list. -/
theorem Yields.of_answers (hsteady : Steady next) (h : Yields next s l) {answer : Option α}
    (hanswer : Answers next s answer s') : answer = l.head? ∧ Yields next s' l.tail := by
  obtain ⟨t, ht, hrest⟩ := h.step
  obtain ⟨rfl, rfl⟩ := hanswer.unique hsteady ht
  exact ⟨rfl, hrest⟩

/-- An iterator that counts its answers. -/
theorem Yields.of_counter (next : ℕ → S → Option (Option α × S)) (l : List α) (state : ℕ → S)
    (h : ∀ counter, Answers next (state counter) l[counter]? (state (counter + 1))) :
    Yields next (state 0) l := by
  refine ⟨fun s k => ∃ counter, s = state counter ∧ k = l.drop counter, ⟨0, rfl, rfl⟩, ?_⟩
  rintro _ _ ⟨counter, rfl, rfl⟩
  exact ⟨state (counter + 1), by rw [List.head?_drop]; exact h counter, counter + 1, rfl, List.tail_drop⟩

/-- An iterator whose state is part of a larger one. -/
theorem Yields.map (next' : ℕ → T → Option (Option α × T)) (embed : S → T)
    (hembed : ∀ s answer s', Answers next s answer s' → Answers next' (embed s) answer (embed s'))
    (h : Yields next s l) : Yields next' (embed s) l := by
  refine ⟨fun t l => ∃ s, t = embed s ∧ Yields next s l, ⟨s, rfl, h⟩, ?_⟩
  rintro _ l ⟨s, rfl, hs⟩
  obtain ⟨s', hanswer, hs'⟩ := hs.step
  exact ⟨embed s', hembed _ _ _ hanswer, s', rfl, hs'⟩

/-! ### Elements that are passed over -/

theorem skip_mono {f g : S → Option (Option α × S)} (hfg : ∀ s r, f s = some r → g s = some r) {avoid : α → Bool}
    {passes passes' : ℕ} (hpasses : passes ≤ passes') {r : Option α × S} (h : skip f avoid passes s = some r) :
    skip g avoid passes' s = some r := by
  induction passes generalizing passes' s with
  | zero => simp only [skip, reduceCtorEq] at h
  | succ passes ih =>
      obtain ⟨passes', rfl⟩ : ∃ k : ℕ, passes' = k + 1 := ⟨passes' - 1, by omega⟩
      rw [skip] at h ⊢
      cases hf : f s with
      | none => simp only [hf, reduceCtorEq] at h
      | some answer =>
          rw [hfg s answer hf]
          rw [hf] at h
          obtain ⟨_ | a, s'⟩ := answer
          · exact h
          · simp only at h ⊢
            split_ifs at h ⊢
            · exact ih (by omega) h
            · exact h

theorem steady_skip (hsteady : Steady next) (avoid : α → Bool) : Steady fun fuel => skip (next fuel) avoid fuel :=
  fun fuel _ _ h more hle => skip_mono (fun s r hs => hsteady fuel s r hs more hle) hle h

/-- A pass over an element that is avoided. -/
theorem answers_skip_of_avoid (hsteady : Steady next) {avoid : α → Bool} {a : α} (ha : avoid a = true)
    (h : Answers next s (some a) s') {answer : Option α} {t : S}
    (hrest : Answers (fun fuel => skip (next fuel) avoid fuel) s' answer t) :
    Answers (fun fuel => skip (next fuel) avoid fuel) s answer t := by
  obtain ⟨fuel, hfuel⟩ := h
  obtain ⟨passes, hpasses⟩ := hrest
  refine ⟨max fuel passes + 1, ?_⟩
  change skip (next (max fuel passes + 1)) avoid (max fuel passes + 1) s = some (answer, t)
  rw [skip, hsteady _ _ _ hfuel _ (by omega)]
  simp only [ha, if_true]
  exact skip_mono (fun s r hs => hsteady passes s r hs _ (by omega)) (Nat.le_max_right ..) hpasses

/-- The loop is left at the first answer that is done or not to be avoided. -/
theorem answers_skip_of_exit (hsteady : Steady next) {avoid : α → Bool} {answer : Option α}
    (hanswer : ∀ a ∈ answer, avoid a = false) (h : Answers next s answer s') :
    Answers (fun fuel => skip (next fuel) avoid fuel) s answer s' := by
  obtain ⟨fuel, hfuel⟩ := h
  refine ⟨fuel + 1, ?_⟩
  change skip (next (fuel + 1)) avoid (fuel + 1) s = some (answer, s')
  rw [skip, hsteady _ _ _ hfuel _ (Nat.le_succ fuel)]
  cases answer with
  | none => rfl
  | some a => simp only [hanswer a rfl, Bool.false_eq_true, if_false]

/-- What the loop yields are the elements that are not to be avoided. -/
theorem Yields.skip (hsteady : Steady next) (avoid : α → Bool) (h : Yields next s l) :
    Yields (fun fuel => skip (next fuel) avoid fuel) s (l.filter fun a => !avoid a) := by
  refine ⟨fun s k => ∃ l, Yields next s l ∧ k = l.filter fun a => !avoid a, ⟨l, h, rfl⟩, ?_⟩
  rintro s _ ⟨l, hl, rfl⟩
  induction l generalizing s with
  | nil =>
      obtain ⟨s', hanswer, hrest⟩ := hl.step
      exact ⟨s', answers_skip_of_exit hsteady (by simp) hanswer, [], hrest, rfl⟩
  | cons a l ih =>
      obtain ⟨s', hanswer, hrest⟩ := hl.step
      cases ha : avoid a with
      | true =>
          obtain ⟨t, ht, hyields⟩ := ih s' hrest
          rw [List.filter_cons_of_neg (by simp [ha])]
          exact ⟨t, answers_skip_of_avoid hsteady ha hanswer ht, hyields⟩
      | false =>
          rw [List.filter_cons_of_pos (by simp [ha])]
          exact ⟨s', answers_skip_of_exit hsteady (by simpa using ha) hanswer, l, hrest, rfl⟩

end Iteration
