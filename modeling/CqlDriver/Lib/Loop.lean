import Mathlib.Tactic

/-! # Loops

The body of a loop takes a state to the next state or leaves the loop with a result.  `run` passes through the body
at most `fuel` times, and the loop returns when some fuel is enough.  There are three rules, each for an invariant of
the states: a loop whose measure falls returns what the exits promise (`exists_returns`), whatever it returns is what
the exits promise (`Returns.of_invariant`), and a loop without an exit never returns (`not_returns`). -/

namespace Loop

variable {S R : Type}

/-- The result of a loop, when it is left within `fuel` passes. -/
def run (body : S → S ⊕ R) : ℕ → S → Option R
  | 0, _ => none
  | fuel + 1, s => match body s with
      | .inl next => run body fuel next
      | .inr result => some result

def Returns (body : S → S ⊕ R) (s : S) (result : R) : Prop := ∃ fuel, run body fuel s = some result

variable {body : S → S ⊕ R} {s next : S} {result : R}

theorem returns_of_exit (h : body s = .inr result) : Returns body s result := ⟨1, by simp only [run, h]⟩

/-- A pass through the body changes nothing about the result. -/
theorem returns_pass (h : body s = .inl next) : Returns body s result ↔ Returns body next result := by
  constructor
  · rintro ⟨fuel, hrun⟩
    cases fuel with
    | zero => simp only [run, reduceCtorEq] at hrun
    | succ fuel =>
        simp only [run, h] at hrun
        exact ⟨fuel, hrun⟩
  · rintro ⟨fuel, hrun⟩
    exact ⟨fuel + 1, by simpa only [run, h] using hrun⟩

/-- More fuel does no harm. -/
theorem run_mono {fuel more : ℕ} (hle : fuel ≤ more) (h : run body fuel s = some result) :
    run body more s = some result := by
  induction fuel generalizing s more with
  | zero => simp only [run, reduceCtorEq] at h
  | succ fuel ih =>
      obtain ⟨k, rfl⟩ : ∃ k : ℕ, more = k + 1 := ⟨more - 1, by omega⟩
      rw [run] at h ⊢
      cases hbody : body s with
      | inl next =>
          rw [hbody] at h
          exact ih (by omega) h
      | inr exit =>
          rw [hbody] at h
          exact h

/-- What a loop returns does not depend on the fuel. -/
theorem Returns.unique {other : R} (h : Returns body s result) (h' : Returns body s other) : result = other := by
  obtain ⟨fuel, hrun⟩ := h
  induction fuel generalizing s with
  | zero => simp only [run, reduceCtorEq] at hrun
  | succ fuel ih =>
      rcases hbody : body s with next | exit
      · simp only [run, hbody] at hrun
        exact ih ((returns_pass hbody).1 h') hrun
      · obtain ⟨fuel', hrun'⟩ := h'
        cases fuel' with
        | zero => simp only [run, reduceCtorEq] at hrun'
        | succ fuel' =>
            simp only [run, hbody, Option.some.injEq] at hrun hrun'
            exact hrun.symm.trans hrun'

section
variable {P : S → Prop} {Q : R → Prop}

/-- A loop whose measure falls in every pass returns. -/
theorem exists_returns (measure : S → ℕ)
    (hpass : ∀ s, P s → (∃ result, body s = .inr result ∧ Q result) ∨
      ∃ next, body s = .inl next ∧ P next ∧ measure next < measure s) (h : P s) :
    ∃ result, Returns body s result ∧ Q result := by
  generalize hm : measure s = m
  induction m using Nat.strong_induction_on generalizing s with
  | _ m ih =>
      rcases hpass s h with ⟨exit, hbody, hexit⟩ | ⟨next, hbody, hnext, hlt⟩
      · exact ⟨exit, returns_of_exit hbody, hexit⟩
      · obtain ⟨result, hreturns, hresult⟩ := ih (measure next) (hm ▸ hlt) hnext rfl
        exact ⟨result, (returns_pass hbody).2 hreturns, hresult⟩

/-- Every result is one that an exit promises. -/
theorem Returns.of_invariant (hreturns : Returns body s result)
    (hpass : ∀ s, P s → (∃ result, body s = .inr result ∧ Q result) ∨ ∃ next, body s = .inl next ∧ P next)
    (h : P s) : Q result := by
  obtain ⟨fuel, hrun⟩ := hreturns
  induction fuel generalizing s with
  | zero => simp only [run, reduceCtorEq] at hrun
  | succ fuel ih =>
      rcases hpass s h with ⟨exit, hbody, hexit⟩ | ⟨next, hbody, hnext⟩
      · simp only [run, hbody, Option.some.injEq] at hrun
        exact hrun ▸ hexit
      · simp only [run, hbody] at hrun
        exact ih hnext hrun

/-- A loop that has no exit from the states of an invariant never returns from them. -/
theorem not_returns (hpass : ∀ s, P s → ∃ next, body s = .inl next ∧ P next) (h : P s) :
    ¬ Returns body s result :=
  fun hreturns => hreturns.of_invariant (Q := fun _ => False) (fun s hs => .inr (hpass s hs)) h

end

end Loop
