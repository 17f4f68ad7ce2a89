import Mathlib.Tactic

/-! # Labelled transition systems

A system is a partial step function `step : S → A → Option S`: the action names who moves and
what the environment answers, so a run is determined by its list of actions.  `Run.invariant`
is the induction that every safety proof uses; `Run.invariant_of` is its form for runs whose
actions are restricted, and `Run.history` carries a predicate of the state and the actions taken
so far. -/

namespace TransitionSystem

variable {S A : Type} {step : S → A → Option S}

/-- `Run step s as s'`: the actions `as` lead from `s` to `s'`. -/
inductive Run (step : S → A → Option S) : S → List A → S → Prop
  | nil (s : S) : Run step s [] s
  | snoc {s s₁ s₂ : S} {as : List A} {a : A} :
      Run step s as s₁ → step s₁ a = some s₂ → Run step s (as ++ [a]) s₂

theorem Run.eq_of_nil {s s' : S} {as : List A} (h : Run step s as s') (hnil : as = []) : s' = s := by
  cases h with
  | nil => rfl
  | snoc => simp at hnil

theorem Run.cons {s s₁ s' : S} {a : A} {as : List A} (hs : step s a = some s₁) (h : Run step s₁ as s') :
    Run step s (a :: as) s' := by
  induction h with
  | nil => exact (Run.nil s).snoc hs
  | snoc _ hlast ih => exact ih.snoc hlast

/-- A predicate of the state and of the actions that led to it holds along every run if it holds
at the start and every step keeps it. -/
theorem Run.history {P : List A → S → Prop} {s s' : S} {as : List A} (h : Run step s as s')
    (h0 : P [] s)
    (hstep : ∀ as s₁ a s₂, P as s₁ → step s₁ a = some s₂ → P (as ++ [a]) s₂) : P as s' := by
  induction h with
  | nil => exact h0
  | snoc _ hs ih => exact hstep _ _ _ _ ih hs

/-- A predicate kept by every step holds in every reachable state. -/
theorem Run.invariant {P : S → Prop} {s s' : S} {as : List A} (h : Run step s as s') (h0 : P s)
    (hstep : ∀ s₁ a s₂, P s₁ → step s₁ a = some s₂ → P s₂) : P s' :=
  h.history (P := fun _ s => P s) h0 (fun _ => hstep)

/-- A predicate kept by the steps that satisfy `Q` holds along the runs that use only such steps. -/
theorem Run.invariant_of {P : S → Prop} {Q : A → Prop} {s s' : S} {as : List A}
    (h : Run step s as s') (hQ : ∀ a ∈ as, Q a) (h0 : P s)
    (hstep : ∀ s₁ a s₂, Q a → P s₁ → step s₁ a = some s₂ → P s₂) : P s' := by
  induction h with
  | nil => exact h0
  | @snoc s₁ s₂ as a _ hs ih =>
      exact hstep _ a _ (hQ a (by simp)) (ih (fun b hb => hQ b (by simp [hb]))) hs

/-- The state after executing a list of actions, if all of them are enabled. -/
def exec (step : S → A → Option S) : S → List A → Option S
  | s, [] => some s
  | s, a :: as => (step s a).bind fun s' => exec step s' as

theorem Run.of_exec_append {s s₁ s' : S} {pre : List A} (h : Run step s pre s₁) :
    ∀ {as : List A}, exec step s₁ as = some s' → Run step s (pre ++ as) s' := by
  intro as
  induction as generalizing pre s₁ with
  | nil =>
      intro he
      obtain rfl : s₁ = s' := by simpa [exec] using he
      simpa using h
  | cons a as ih =>
      intro he
      simp only [exec, Option.bind_eq_some_iff] at he
      obtain ⟨s₂, hs, he⟩ := he
      have := ih (h.snoc hs) he
      simpa using this

/-- A list of actions that executes is a run. -/
theorem Run.of_exec {s s' : S} {as : List A} (h : exec step s as = some s') : Run step s as s' := by
  simpa using (Run.nil s).of_exec_append h

end TransitionSystem
