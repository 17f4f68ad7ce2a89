import Mathlib.Data.List.Basic
import Mathlib.Data.List.Nodup
import Mathlib.Data.List.Dedup
import Mathlib.Tactic

/-! # The first element of every class

A list is read from the left and every element is kept once: among `firsts` if it is the first one with
its key, else among `others`.  Both lists grow at their end when the list does. -/

namespace Firsts

variable {α κ : Type} [DecidableEq α] [DecidableEq κ] (key : α → κ)

/-- The two lists after one more element. -/
def visit (s : List α × List α) (a : α) : List α × List α :=
  if key a ∈ s.1.map key then
    if a ∈ s.1 ∨ a ∈ s.2 then s else (s.1, s.2 ++ [a])
  else (s.1 ++ [a], s.2)

def firsts (l : List α) : List α := (l.foldl (visit key) ([], [])).1

def others (l : List α) : List α := (l.foldl (visit key) ([], [])).2

@[simp] theorem firsts_nil : firsts key [] = [] := rfl

@[simp] theorem others_nil : others key [] = [] := rfl

variable {key} {l : List α} {a : α}

theorem firsts_concat (l : List α) (a : α) : firsts key (l ++ [a]) =
    if key a ∈ (firsts key l).map key then firsts key l else firsts key l ++ [a] := by
  unfold firsts
  rw [List.foldl_append, List.foldl_cons, List.foldl_nil, visit]
  split_ifs <;> rfl

theorem others_concat' (l : List α) (a : α) : others key (l ++ [a]) =
    if key a ∈ (firsts key l).map key ∧ ¬ (a ∈ firsts key l ∨ a ∈ others key l) then others key l ++ [a]
    else others key l := by
  unfold others firsts
  rw [List.foldl_append, List.foldl_cons, List.foldl_nil, visit]
  by_cases hkey : key a ∈ ((l.foldl (visit key) ([], [])).1).map key
  · rw [if_pos hkey]
    by_cases hmem : a ∈ (l.foldl (visit key) ([], [])).1 ∨ a ∈ (l.foldl (visit key) ([], [])).2
    · rw [if_pos hmem, if_neg fun h => h.2 hmem]
    · rw [if_neg hmem, if_pos ⟨hkey, hmem⟩]
  · rw [if_neg hkey, if_neg fun h => hkey h.1]

/-- Every element is in one of the lists. -/
theorem mem_iff : a ∈ l ↔ a ∈ firsts key l ∨ a ∈ others key l := by
  induction l using List.reverseRecOn with
  | nil => simp
  | append_singleton l b ih =>
      rw [List.mem_append, List.mem_singleton, ih, firsts_concat, others_concat']
      by_cases hkey : key b ∈ (firsts key l).map key
      · by_cases hmem : b ∈ firsts key l ∨ b ∈ others key l
        · rw [if_pos hkey, if_neg fun h => h.2 hmem, or_iff_left_iff_imp]
          rintro rfl
          exact hmem
        · rw [if_pos hkey, if_pos ⟨hkey, hmem⟩, List.mem_append, List.mem_singleton, or_assoc]
      · rw [if_neg hkey, if_neg fun h => hkey h.1, List.mem_append, List.mem_singleton]
        tauto

theorem others_concat (l : List α) (a : α) : others key (l ++ [a]) =
    if key a ∈ (firsts key l).map key ∧ a ∉ l then others key l ++ [a] else others key l := by
  have hmem : (a ∈ firsts key l ∨ a ∈ others key l) ↔ a ∈ l := mem_iff.symm
  simp only [others_concat', hmem]

theorem key_mem_iff {k : κ} : k ∈ (firsts key l).map key ↔ k ∈ l.map key := by
  induction l using List.reverseRecOn with
  | nil => simp
  | append_singleton l b ih =>
      rw [firsts_concat, List.map_append, List.mem_append, List.map_singleton, List.mem_singleton]
      split_ifs with hkey
      · rw [ih, iff_self_or]
        rintro rfl
        exact ih.1 hkey
      · rw [List.map_append, List.mem_append, ih, List.map_singleton, List.mem_singleton]

theorem mem_of_mem_firsts (h : a ∈ firsts key l) : a ∈ l := mem_iff.2 (.inl h)

theorem mem_of_mem_others (h : a ∈ others key l) : a ∈ l := mem_iff.2 (.inr h)

omit [DecidableEq α] in
theorem nodup_concat (h : l.Nodup) (ha : a ∉ l) : (l ++ [a]).Nodup := by
  rw [← List.concat_eq_append]
  exact h.concat ha

theorem nodup_append (l : List α) : (firsts key l ++ others key l).Nodup := by
  induction l using List.reverseRecOn with
  | nil => exact List.nodup_nil
  | append_singleton l b ih =>
      rw [firsts_concat, others_concat]
      by_cases hmem : b ∈ l
      · rw [if_pos (key_mem_iff.2 (List.mem_map_of_mem hmem)), if_neg fun h => h.2 hmem]
        exact ih
      · have hnew : b ∉ firsts key l ++ others key l := fun h => hmem (mem_iff.2 (List.mem_append.1 h))
        by_cases hkey : key b ∈ (firsts key l).map key
        · rw [if_pos hkey, if_pos ⟨hkey, hmem⟩, ← List.append_assoc]
          exact nodup_concat ih hnew
        · rw [if_neg hkey, if_neg fun h => hkey h.1]
          refine (List.Perm.nodup_iff ?_).2 (nodup_concat ih hnew)
          rw [List.append_assoc, List.append_assoc]
          exact (List.perm_append_comm).append_left _

theorem nodup_firsts (l : List α) : (firsts key l).Nodup := (nodup_append l).of_append_left

theorem nodup_others (l : List α) : (others key l).Nodup := (nodup_append l).of_append_right

theorem not_mem_firsts_of_mem_others (h : a ∈ others key l) : a ∉ firsts key l :=
  fun hfirst => List.disjoint_of_nodup_append (nodup_append l) hfirst h

theorem nodup_map_firsts (l : List α) : ((firsts key l).map key).Nodup := by
  induction l using List.reverseRecOn with
  | nil => exact List.nodup_nil
  | append_singleton l b ih =>
      rw [firsts_concat]
      split_ifs with hkey
      · exact ih
      · rw [List.map_append]
        exact nodup_concat ih hkey

/-- The number of keys. -/
theorem length_firsts_eq_of_map_iff {ks : List κ} (hks : ks.Nodup) (h : ∀ k, k ∈ ks ↔ k ∈ l.map key) :
    (firsts key l).length = ks.length := by
  rw [← List.length_map key]
  refine List.Perm.length_eq ((List.perm_ext_iff_of_nodup (nodup_map_firsts l) hks).2 fun k => ?_)
  rw [h, key_mem_iff]

/-- The number of elements. -/
theorem length_add_length_eq_of_mem_iff {m : List α} (hm : m.Nodup) (h : ∀ a, a ∈ m ↔ a ∈ l) :
    (firsts key l).length + (others key l).length = m.length := by
  rw [← List.length_append]
  refine List.Perm.length_eq ((List.perm_ext_iff_of_nodup (nodup_append l) hm).2 fun a => ?_)
  rw [h, List.mem_append]
  exact mem_iff.symm

theorem length_firsts_le_concat (l : List α) (a : α) :
    (firsts key l).length ≤ (firsts key (l ++ [a])).length := by
  rw [firsts_concat]
  split_ifs
  · exact le_rfl
  · simp

end Firsts
