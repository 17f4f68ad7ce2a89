import Mathlib.Data.Multiset.Range
import Mathlib.Tactic
import CqlDriver.Lib.TransitionSystem

/-! # Pools of calls

The items `0, …, count - 1` are handed to an asynchronous function, at most `limit` of them at a time: an item is
claimed in the beginning or when a call succeeds, waits until its call is made, and is pending until the call is
answered.  A call that fails claims nothing, so its place in the pool is lost.  The order of the calls and answers is
free.  A program that runs such a pool refines it (`Refines`), and has what is proved of the pool. -/

namespace WorkPool

open TransitionSystem

variable {E S A : Type}

/-- The calls made so far in order, the pending ones, and the answers in order. -/
structure Calls (E : Type) where
  started : List ℕ
  pending : List ℕ
  succeeded : List ℕ
  failed : List (ℕ × E)

namespace Calls

def empty : Calls E := ⟨[], [], [], []⟩

def start (c : Calls E) (k : ℕ) : Calls E := { c with started := c.started ++ [k], pending := c.pending ++ [k] }

/-- The answer to a pending call. -/
def answer (c : Calls E) (k : ℕ) : Option E → Calls E
  | none => { c with pending := c.pending.erase k, succeeded := c.succeeded ++ [k] }
  | some e => { c with pending := c.pending.erase k, failed := c.failed ++ [(k, e)] }

def items (c : Calls E) : Multiset ℕ := (c.pending : Multiset ℕ) + c.succeeded + (c.failed.map Prod.fst : List ℕ)

variable {c : Calls E} {k : ℕ} {err : Option E}

@[simp] theorem succeeded_start : (c.start k).succeeded = c.succeeded := rfl

@[simp] theorem failed_start : (c.start k).failed = c.failed := rfl

@[simp] theorem started_answer : (c.answer k err).started = c.started := by
  cases err with
  | none => rfl
  | some e => rfl

theorem items_start : (c.start k).items = k ::ₘ c.items := by
  simp only [items, start, ← Multiset.coe_add, Multiset.coe_singleton, ← Multiset.singleton_add]
  ac_rfl

theorem items_answer (hk : k ∈ c.pending) : (c.answer k err).items = c.items := by
  have hpending : k ::ₘ ((c.pending.erase k : List ℕ) : Multiset ℕ) = c.pending := by
    rw [← Multiset.coe_erase]
    exact Multiset.cons_erase (Multiset.mem_coe.2 hk)
  cases err with
  | none =>
      simp only [items, answer, ← hpending, ← Multiset.coe_add, Multiset.coe_singleton, ← Multiset.singleton_add]
      ac_rfl
  | some e =>
      simp only [items, answer, ← hpending, ← Multiset.coe_add, List.map_append, List.map_singleton,
        Multiset.coe_singleton, ← Multiset.singleton_add]
      ac_rfl

end Calls

structure Pool (E : Type) where
  claimed : ℕ
  waiting : Multiset ℕ
  calls : Calls E

inductive Event (E : Type)
  | start (k : ℕ)
  | answer (k : ℕ) (err : Option E)

def Pool.init (E : Type) (count limit : ℕ) : Pool E := ⟨min count limit, Multiset.range (min count limit), .empty⟩

def step (count : ℕ) (p : Pool E) : Event E → Option (Pool E)
  | .start k =>
      if k ∈ p.waiting then some { p with waiting := p.waiting.erase k, calls := p.calls.start k } else none
  | .answer k (some e) => if k ∈ p.calls.pending then some { p with calls := p.calls.answer k (some e) } else none
  | .answer k none =>
      if k ∈ p.calls.pending then
        if p.claimed < count then
          some ⟨p.claimed + 1, p.claimed ::ₘ p.waiting, p.calls.answer k none⟩
        else some { p with calls := p.calls.answer k none }
      else none

section
variable {count k : ℕ} {p : Pool E}

theorem step_start (rest : Multiset ℕ) (h : p.waiting = k ::ₘ rest) :
    step count p (.start k) = some ⟨p.claimed, rest, p.calls.start k⟩ := by
  rw [step, if_pos (h ▸ Multiset.mem_cons_self k rest), h, Multiset.erase_cons_head]

theorem step_fail {err : E} (hk : k ∈ p.calls.pending) :
    step count p (.answer k (some err)) = some { p with calls := p.calls.answer k (some err) } :=
  if_pos hk

theorem step_claim (hk : k ∈ p.calls.pending) (h : p.claimed < count) :
    step count p (.answer k none) = some ⟨p.claimed + 1, p.claimed ::ₘ p.waiting, p.calls.answer k none⟩ := by
  rw [step, if_pos hk, if_pos h]

theorem step_last (hk : k ∈ p.calls.pending) (h : count ≤ p.claimed) :
    step count p (.answer k none) = some { p with calls := p.calls.answer k none } := by
  rw [step, if_pos hk, if_neg h.not_gt]

end

/-! ### The invariant -/

/-- Every claimed item is at one place, and a call that succeeded claimed another item as long as there was one. -/
structure Inv (count limit : ℕ) (p : Pool E) : Prop where
  places : p.waiting + p.calls.items = Multiset.range p.claimed
  claimed_eq : p.claimed = min count (limit + p.calls.succeeded.length)
  started_eq : (p.calls.started : Multiset ℕ) = p.calls.items

variable {count limit : ℕ} {p p' : Pool E}

theorem Inv.init : Inv count limit (Pool.init E count limit) :=
  ⟨by simp [Pool.init, Calls.empty, Calls.items], by simp [Pool.init, Calls.empty],
    by simp [Pool.init, Calls.empty, Calls.items]⟩

theorem Inv.step {e : Event E} (h : Inv count limit p) (hstep : WorkPool.step count p e = some p') :
    Inv count limit p' := by
  obtain ⟨hplaces, hclaimed, hstarted⟩ := h
  cases e with
  | start k =>
      simp only [WorkPool.step] at hstep
      split_ifs at hstep with hk
      obtain rfl := Option.some.inj hstep
      refine ⟨?_, hclaimed, ?_⟩
      · rw [Calls.items_start, ← hplaces, Multiset.add_cons, ← Multiset.cons_add, Multiset.cons_erase hk]
      · rw [Calls.items_start, ← hstarted, Calls.start, ← Multiset.coe_add, Multiset.coe_singleton, add_comm,
          Multiset.singleton_add]
  | answer k err =>
      cases err with
      | some e =>
          simp only [WorkPool.step] at hstep
          split_ifs at hstep with hk
          obtain rfl := Option.some.inj hstep
          exact ⟨by rwa [Calls.items_answer hk], hclaimed, by rwa [Calls.items_answer hk, Calls.started_answer]⟩
      | none =>
          simp only [WorkPool.step] at hstep
          split_ifs at hstep with hk hlt
          · obtain rfl := Option.some.inj hstep
            refine ⟨?_, ?_, by rwa [Calls.items_answer hk, Calls.started_answer]⟩
            · rw [Calls.items_answer hk, Multiset.cons_add, hplaces, Multiset.range_succ]
            · simp only [Calls.answer, List.length_append, List.length_singleton]
              omega
          · obtain rfl := Option.some.inj hstep
            refine ⟨by rwa [Calls.items_answer hk], ?_, by rwa [Calls.items_answer hk, Calls.started_answer]⟩
            simp only [Calls.answer, List.length_append, List.length_singleton]
            omega

/-! ### What the invariant says -/

theorem Inv.card_eq (h : Inv count limit p) : p.waiting.card + p.calls.pending.length + p.calls.succeeded.length +
    p.calls.failed.length = p.claimed := by
  have hcard := congrArg Multiset.card h.places
  simp only [Calls.items, Multiset.card_add, Multiset.coe_card, List.length_map, Multiset.card_range] at hcard
  omega

/-- No more than `limit` calls are pending or about to be made. -/
theorem Inv.pending_le (h : Inv count limit p) : p.waiting.card + p.calls.pending.length ≤ limit := by
  have hcard := h.card_eq
  have hclaimed := h.claimed_eq
  omega

theorem Inv.lost_le (h : Inv count limit p) :
    p.waiting.card + p.calls.pending.length + p.calls.failed.length ≤ limit := by
  have hcard := h.card_eq
  have hclaimed := h.claimed_eq
  omega

theorem Inv.answered_le (h : Inv count limit p) : p.calls.succeeded.length + p.calls.failed.length ≤ count := by
  have hcard := h.card_eq
  have hclaimed := h.claimed_eq
  omega

/-- No call is made twice, and none for another item. -/
theorem Inv.started_nodup (h : Inv count limit p) : p.calls.started.Nodup ∧ ∀ k ∈ p.calls.started, k < count := by
  have hle : (p.calls.started : Multiset ℕ) ≤ Multiset.range p.claimed := by
    rw [h.started_eq, ← h.places]
    exact Multiset.le_add_left _ _
  have hclaimed := h.claimed_eq
  refine ⟨Multiset.coe_nodup.1 (Multiset.nodup_of_le hle (Multiset.nodup_range _)), fun k hk => ?_⟩
  have hmem := Multiset.mem_range.1 (Multiset.mem_of_le hle (Multiset.mem_coe.2 hk))
  omega

theorem Inv.started_length (h : Inv count limit p) : p.waiting.card + p.calls.started.length = p.claimed := by
  have hcard := congrArg Multiset.card h.places
  rwa [← h.started_eq, Multiset.card_add, Multiset.coe_card, Multiset.card_range] at hcard

theorem Inv.started_le (h : Inv count limit p) : p.calls.started.length ≤ count := by
  have hlength := h.started_length
  have hclaimed := h.claimed_eq
  omega

/-- When nothing is waiting or pending and not every place was lost, every item has had its call and its answer. -/
theorem Inv.complete (h : Inv count limit p) (hwaiting : p.waiting = 0) (hpending : p.calls.pending = [])
    (hfailed : p.calls.failed.length < limit ∨ count ≤ limit) :
    (p.calls.succeeded ++ p.calls.failed.map Prod.fst).Perm (List.range count) := by
  have hcard := h.card_eq
  have hclaimed := h.claimed_eq
  rw [hwaiting, hpending, Multiset.card_zero, List.length_nil] at hcard
  have hall : p.claimed = count := by omega
  have hplaces := h.places
  rw [hwaiting, hall, zero_add, Calls.items, hpending, Multiset.coe_nil, zero_add, Multiset.coe_add] at hplaces
  exact Multiset.coe_eq_coe.1 hplaces

/-- All calls have succeeded once there have been `count` of them. -/
theorem Inv.of_succeeded (h : Inv count limit p) (hall : p.calls.succeeded.length = count) :
    p.waiting = 0 ∧ p.calls.pending = [] ∧ p.calls.failed = [] := by
  have hcard := h.card_eq
  have hclaimed := h.claimed_eq
  refine ⟨Multiset.card_eq_zero.1 ?_, List.eq_nil_of_length_eq_zero ?_, List.eq_nil_of_length_eq_zero ?_⟩ <;> omega

/-! ### Programs that run a pool -/

theorem Inv.run {events : List (Event E)} (h : Inv count limit p) (hrun : Run (WorkPool.step count) p events p') :
    Inv count limit p' :=
  hrun.invariant h fun _ _ _ hinv hstep => hinv.step hstep

/-- Every step of the program, from a state that is good, is some events of the pool, or none. -/
structure Refines (count limit : ℕ) (start : S) (step : S → A → Option S) (view : S → Pool E) (good : S → Prop) :
    Prop where
  view_start : ∃ events, Run (WorkPool.step count) (Pool.init E count limit) events (view start)
  good_start : good start
  step : ∀ s a s', good s → Inv count limit (view s) → step s a = some s' →
    good s' ∧ ∃ events, Run (WorkPool.step count) (view s) events (view s')

theorem Refines.run {start s : S} {step : S → A → Option S} {view : S → Pool E} {good : S → Prop}
    (h : Refines count limit start step view good) {as : List A} (hrun : Run step start as s) :
    good s ∧ Inv count limit (view s) := by
  obtain ⟨events, hevents⟩ := h.view_start
  refine hrun.invariant (P := fun s => good s ∧ Inv count limit (view s))
    ⟨h.good_start, Inv.init.run hevents⟩ fun s a s' hinv hstep => ?_
  obtain ⟨hgood, events, hevents⟩ := h.step s a s' hinv.1 hinv.2 hstep
  exact ⟨hgood, hinv.2.run hevents⟩

end WorkPool
