import Mathlib.Data.List.Forall2

/-! # Results of fallible computations

What the parts of a computation in `Except` have returned when the whole of it has returned a value. -/

namespace Fallible

variable {ε α β : Type}

theorem map_eq_ok {f : α → β} {x : Except ε α} {b : β} (h : x.map f = .ok b) : ∃ a, x = .ok a ∧ f a = b := by
  cases x with
  | error e => cases h
  | ok a => exact ⟨a, rfl, Except.ok.inj h⟩

theorem map_eq_ok_iff {f : α → β} (hf : Function.Injective f) {x : Except ε α} {a : α} :
    x.map f = .ok (f a) ↔ x = .ok a := by
  constructor
  · intro h
    obtain ⟨a', hx, ha⟩ := map_eq_ok h
    rw [hx, hf ha]
  · rintro rfl
    rfl

theorem bind_eq_ok {f : α → Except ε β} {x : Except ε α} {b : β} (h : (x >>= f) = .ok b) :
    ∃ a, x = .ok a ∧ f a = .ok b := by
  cases x with
  | error e => cases h
  | ok a => exact ⟨a, rfl, h⟩

theorem bind_of_eq_ok {x : Except ε α} {a : α} (h : x = .ok a) (f : α → Except ε β) : (x >>= f) = f a := by
  rw [h]
  rfl

theorem bind_eq_ok_iff {f : α → Except ε β} {x : Except ε α} {b : β} :
    x.bind f = .ok b ↔ ∃ a, x = .ok a ∧ f a = .ok b := by
  constructor
  · exact bind_eq_ok
  · rintro ⟨a, rfl, h⟩
    exact h

theorem mapM_eq_ok {f : α → Except ε β} : ∀ {xs : List α} {ys : List β},
    xs.mapM f = .ok ys ↔ List.Forall₂ (fun x y => f x = .ok y) xs ys
  | [], ys => by
      rw [List.mapM_nil, List.forall₂_nil_left_iff]
      exact ⟨fun h => (Except.ok.inj h).symm, fun h => by rw [h]; rfl⟩
  | x :: xs, ys => by
      rw [List.mapM_cons, List.forall₂_cons_left_iff]
      constructor
      · intro h
        obtain ⟨y, hy, h⟩ := bind_eq_ok h
        obtain ⟨ys', hys, h⟩ := bind_eq_ok h
        exact ⟨y, ys', hy, mapM_eq_ok.1 hys, (Except.ok.inj h).symm⟩
      · rintro ⟨y, ys', hx, hxs, rfl⟩
        rw [hx, mapM_eq_ok.2 hxs]
        rfl

theorem mapM_map_eq_ok {γ : Type} {f : α → Except ε β} {g : γ → α} {k : γ → β} {zs : List γ} :
    (zs.map g).mapM f = .ok (zs.map k) ↔ ∀ z ∈ zs, f (g z) = .ok (k z) := by
  rw [mapM_eq_ok, List.forall₂_map_left_iff, List.forall₂_map_right_iff, List.forall₂_same]

theorem mapM_congr {f g : α → Except ε β} : ∀ {xs : List α}, (∀ x ∈ xs, f x = g x) → xs.mapM f = xs.mapM g
  | [], _ => rfl
  | x :: xs, h => by
      rw [List.mapM_cons, List.mapM_cons, h x (by simp), mapM_congr fun y hy => h y (List.mem_cons_of_mem x hy)]

theorem exists_of_mapM {f : α → Except ε β} {xs : List α} {ys : List β} (h : xs.mapM f = .ok ys) :
    ∀ x ∈ xs, ∃ y ∈ ys, f x = .ok y := by
  have hall := mapM_eq_ok.1 h
  clear h
  induction hall with
  | nil => simp
  | cons hxy _ ih =>
      intro x hx
      rcases List.mem_cons.1 hx with rfl | hx
      · exact ⟨_, by simp, hxy⟩
      · obtain ⟨y, hy, hf⟩ := ih x hx
        exact ⟨y, List.mem_cons_of_mem _ hy, hf⟩

theorem exists_of_mem_mapM {f : α → Except ε β} {xs : List α} {ys : List β} (h : xs.mapM f = .ok ys) :
    ∀ y ∈ ys, ∃ x ∈ xs, f x = .ok y := by
  have hall := mapM_eq_ok.1 h
  clear h
  induction hall with
  | nil => simp
  | cons hxy _ ih =>
      intro y hy
      rcases List.mem_cons.1 hy with rfl | hy
      · exact ⟨_, by simp, hxy⟩
      · obtain ⟨x, hx, hf⟩ := ih y hy
        exact ⟨x, List.mem_cons_of_mem _ hx, hf⟩

end Fallible
