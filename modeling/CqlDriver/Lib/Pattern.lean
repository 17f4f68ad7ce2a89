import Mathlib.Tactic

/-! # Anchored regular expressions of texts, repetitions and groups

A pattern is a sequence of pieces that has to cover the whole text, as a JavaScript expression between
`^` and `$` does.  A repetition is greedy: it takes as many characters as it can and gives them back one
by one until the rest of the pattern matches (`longest`).  `exec` returns what the groups hold.
`Matches` is the meaning without an order of preference; `exec_matches` relates the two, and
`exec_group` finds the match of a greedy group by the last place where the rest can match. -/

namespace Pattern

variable {α : Type}

inductive Piece where
  | text (s : List Char)
  /-- `p*` -/
  | skip (p : Char → Bool)
  /-- `(p+)` -/
  | group (p : Char → Bool)

/-- The result of `f` at the largest number from `min` to `n` where it has one. -/
def longest (f : ℕ → Option α) (min : ℕ) : ℕ → Option α
  | 0 => if min = 0 then f 0 else none
  | n + 1 => if min ≤ n + 1 then (f (n + 1)).or (longest f min n) else none

theorem longest_eq {f : ℕ → Option α} {min m : ℕ} {a : α} (hm : min ≤ m) (hf : f m = some a) :
    ∀ {n : ℕ}, m ≤ n → (∀ k, m < k → k ≤ n → f k = none) → longest f min n = some a
  | 0, hn, _ => by
      obtain rfl : m = 0 := by omega
      rw [longest, if_pos (by omega), hf]
  | n + 1, hn, hnone => by
      rw [longest, if_pos (by omega)]
      by_cases he : m = n + 1
      · rw [← he, hf, Option.some_or]
      · rw [hnone (n + 1) (by omega) le_rfl, Option.none_or]
        exact longest_eq hm hf (by omega) fun k h₁ h₂ => hnone k h₁ (by omega)

theorem exists_of_longest {f : ℕ → Option α} {min : ℕ} {a : α} : ∀ {n : ℕ}, longest f min n = some a →
    ∃ m, min ≤ m ∧ m ≤ n ∧ f m = some a
  | 0, h => by
      rw [longest] at h
      split_ifs at h with hmin
      exact ⟨0, by omega, le_rfl, h⟩
  | n + 1, h => by
      rw [longest] at h
      split_ifs at h with hmin
      rcases Option.or_eq_some_iff.1 h with h | ⟨-, h⟩
      · exact ⟨n + 1, hmin, le_rfl, h⟩
      · obtain ⟨m, h₁, h₂, h₃⟩ := exists_of_longest h
        exact ⟨m, h₁, by omega, h₃⟩

/-- The contents of the groups, if the pattern matches the whole text. -/
def exec : List Piece → List Char → Option (List (List Char))
  | [], cs => if cs = [] then some [] else none
  | .text s :: ps, cs => if s.isPrefixOf cs then exec ps (cs.drop s.length) else none
  | .skip p :: ps, cs => longest (fun n => exec ps (cs.drop n)) 0 (cs.takeWhile p).length
  | .group p :: ps, cs =>
      longest (fun n => (exec ps (cs.drop n)).map (cs.take n :: ·)) 1 (cs.takeWhile p).length

/-- The groups of a match, whichever way the repetitions share the text. -/
def Matches : List Piece → List Char → List (List Char) → Prop
  | [], cs, gs => cs = [] ∧ gs = []
  | .text s :: ps, cs, gs => ∃ r, cs = s ++ r ∧ Matches ps r gs
  | .skip p :: ps, cs, gs => ∃ a r, cs = a ++ r ∧ (∀ c ∈ a, p c = true) ∧ Matches ps r gs
  | .group p :: ps, cs, gs =>
      ∃ a r hs, cs = a ++ r ∧ a ≠ [] ∧ (∀ c ∈ a, p c = true) ∧ gs = a :: hs ∧ Matches ps r hs

theorem of_mem_take {p : Char → Bool} {cs : List Char} {n : ℕ} (hn : n ≤ (cs.takeWhile p).length) :
    ∀ c ∈ cs.take n, p c = true := by
  intro c hc
  obtain ⟨rest, hrest⟩ := List.takeWhile_prefix p (l := cs)
  rw [← hrest, List.take_append_of_le_length hn] at hc
  exact List.all_eq_true.1 (List.all_takeWhile (l := cs)) c (List.mem_of_mem_take hc)

theorem exec_matches : ∀ {ps : List Piece} {cs : List Char} {gs : List (List Char)},
    exec ps cs = some gs → Matches ps cs gs
  | [], cs, gs, h => by
      rw [exec] at h
      split_ifs at h with hcs
      exact ⟨hcs, (Option.some.inj h).symm⟩
  | .text s :: ps, cs, gs, h => by
      rw [exec] at h
      split_ifs at h with hs
      obtain ⟨r, rfl⟩ := List.isPrefixOf_iff_prefix.1 hs
      rw [List.drop_left] at h
      exact ⟨r, rfl, exec_matches h⟩
  | .skip p :: ps, cs, gs, h => by
      rw [exec] at h
      obtain ⟨n, -, hn, hexec⟩ := exists_of_longest h
      exact ⟨cs.take n, cs.drop n, (List.take_append_drop n cs).symm, of_mem_take hn, exec_matches hexec⟩
  | .group p :: ps, cs, gs, h => by
      rw [exec] at h
      obtain ⟨n, hpos, hn, hexec⟩ := exists_of_longest h
      obtain ⟨hs, hrest, rfl⟩ := Option.map_eq_some_iff.1 hexec
      have hlen := (List.takeWhile_prefix p (l := cs)).length_le
      refine ⟨cs.take n, cs.drop n, hs, (List.take_append_drop n cs).symm, ?_, of_mem_take hn, rfl,
        exec_matches hrest⟩
      apply List.ne_nil_of_length_pos
      rw [List.length_take]
      omega

/-- A text of the pattern occurs in what it matches. -/
theorem Matches.mem {s : List Char} {c : Char} (hc : c ∈ s) : ∀ {ps : List Piece} {cs : List Char}
    {gs : List (List Char)}, .text s ∈ ps → Matches ps cs gs → c ∈ cs
  | [], _, _, hps, _ => by simp at hps
  | .text t :: ps, _, _, hps, h => by
      obtain ⟨r, rfl, h⟩ := h
      rw [List.mem_append]
      rcases List.mem_cons.1 hps with he | hps
      · exact Or.inl (by rwa [← Piece.text.inj he])
      · exact Or.inr (Matches.mem hc hps h)
  | .skip p :: ps, _, _, hps, h => by
      obtain ⟨a, r, rfl, -, h⟩ := h
      exact List.mem_append_right a (Matches.mem hc (by simpa using hps) h)
  | .group p :: ps, _, _, hps, h => by
      obtain ⟨a, r, hs, rfl, -, -, -, h⟩ := h
      exact List.mem_append_right a (Matches.mem hc (by simpa using hps) h)

/-- The texts of a pattern. -/
def texts : List Piece → List Char
  | [] => []
  | .text s :: ps => s ++ texts ps
  | .skip _ :: ps => texts ps
  | .group _ :: ps => texts ps

/-- The kinds of the characters of the groups. -/
def kinds : List Piece → List (Char → Bool)
  | [] => []
  | .text _ :: ps => kinds ps
  | .skip _ :: ps => kinds ps
  | .group p :: ps => p :: kinds ps

theorem Matches.kinds : ∀ {ps : List Piece} {cs : List Char} {gs : List (List Char)}, Matches ps cs gs →
    List.Forall₂ (fun p g => ∀ c ∈ g, p c = true) (kinds ps) gs
  | [], _, _, ⟨_, hgs⟩ => by
      rw [hgs]
      exact .nil
  | .text t :: ps, _, _, h => by
      obtain ⟨r, rfl, h⟩ := h
      exact h.kinds
  | .skip p :: ps, _, _, h => by
      obtain ⟨a, r, rfl, -, h⟩ := h
      exact h.kinds
  | .group p :: ps, _, _, h => by
      obtain ⟨a, r, hs, rfl, -, ha, rfl, h⟩ := h
      exact .cons ha h.kinds

theorem Matches.mem_of_group : ∀ {ps : List Piece} {cs : List Char} {gs : List (List Char)}, Matches ps cs gs →
    ∀ g ∈ gs, ∀ c ∈ g, c ∈ cs
  | [], _, _, ⟨_, hgs⟩, g, hg, _, _ => by simp [hgs] at hg
  | .text t :: ps, _, _, h, g, hg, c, hc => by
      obtain ⟨r, rfl, h⟩ := h
      exact List.mem_append_right t (h.mem_of_group g hg c hc)
  | .skip p :: ps, _, _, h, g, hg, c, hc => by
      obtain ⟨a, r, rfl, -, h⟩ := h
      exact List.mem_append_right a (h.mem_of_group g hg c hc)
  | .group p :: ps, _, _, h, g, hg, c, hc => by
      obtain ⟨a, r, hs, rfl, -, -, rfl, h⟩ := h
      rcases List.mem_cons.1 hg with rfl | hg
      · exact List.mem_append_left r hc
      · exact List.mem_append_right a (h.mem_of_group g hg c hc)

/-- The occurrences of a character that no repetition skips. -/
theorem Matches.count {x : Char} : ∀ {ps : List Piece} {cs : List Char} {gs : List (List Char)},
    Matches ps cs gs → (∀ p, .skip p ∈ ps → p x = false) → cs.count x = (texts ps).count x + gs.flatten.count x
  | [], _, _, ⟨hcs, hgs⟩, _ => by simp [hcs, hgs, texts]
  | .text t :: ps, _, _, h, hskip => by
      obtain ⟨r, rfl, h⟩ := h
      rw [List.count_append, h.count fun p hp => hskip p (List.mem_cons_of_mem _ hp), texts, List.count_append]
      ring
  | .skip p :: ps, _, _, h, hskip => by
      obtain ⟨a, r, rfl, ha, h⟩ := h
      have hx : x ∉ a := by
        intro hx
        have := ha x hx
        simp [hskip p (by simp)] at this
      rw [List.count_append, h.count fun p hp => hskip p (List.mem_cons_of_mem _ hp), texts,
        List.count_eq_zero.2 hx, zero_add]
  | .group p :: ps, _, _, h, hskip => by
      obtain ⟨a, r, hs, rfl, -, -, rfl, h⟩ := h
      rw [List.count_append, h.count fun p hp => hskip p (List.mem_cons_of_mem _ hp), texts, List.flatten_cons,
        List.count_append]
      ring

theorem Matches.length_le : ∀ {ps : List Piece} {cs : List Char} {gs : List (List Char)}, Matches ps cs gs →
    (texts ps).length + gs.flatten.length ≤ cs.length
  | [], _, _, ⟨hcs, hgs⟩ => by simp [hcs, hgs, texts]
  | .text t :: ps, _, _, h => by
      obtain ⟨r, rfl, h⟩ := h
      have := h.length_le
      rw [texts, List.length_append, List.length_append]
      omega
  | .skip p :: ps, _, _, h => by
      obtain ⟨a, r, rfl, ha, h⟩ := h
      have := h.length_le
      rw [texts, List.length_append]
      omega
  | .group p :: ps, _, _, h => by
      obtain ⟨a, r, hs, rfl, -, -, rfl, h⟩ := h
      have := h.length_le
      rw [texts, List.flatten_cons, List.length_append, List.length_append]
      omega

theorem exec_text (s : List Char) (ps : List Piece) (cs : List Char) :
    exec (.text s :: ps) (s ++ cs) = exec ps cs := by
  rw [exec, if_pos (List.isPrefixOf_iff_prefix.2 (List.prefix_append s cs)), List.drop_left]

/-- A repetition takes all characters up to the first one that is not of its kind, if the rest matches. -/
theorem exec_skip {p : Char → Bool} {ps : List Piece} {a cs : List Char} {gs : List (List Char)}
    (ha : ∀ c ∈ a, p c = true) (hcs : ∀ c, cs.head? = some c → p c = false) (h : exec ps cs = some gs) :
    exec (.skip p :: ps) (a ++ cs) = some gs := by
  have hrun : (a ++ cs).takeWhile p = a := by
    rw [List.takeWhile_append_of_pos ha]
    cases cs with
    | nil => simp
    | cons c cs => simp [hcs c rfl]
  rw [exec, hrun]
  exact longest_eq (Nat.zero_le _) (by rwa [List.drop_left]) le_rfl fun k h₁ h₂ => by omega

/-- The last place where the rest can match ends a group. -/
theorem exec_group {p : Char → Bool} {ps : List Piece} {a cs : List Char} {gs : List (List Char)}
    (ha : ∀ c ∈ a, p c = true) (hne : a ≠ []) (h : exec ps cs = some gs)
    (hrest : ∀ k, 0 < k → exec ps (cs.drop k) = none) :
    exec (.group p :: ps) (a ++ cs) = some (a :: gs) := by
  have hrun : a.length ≤ ((a ++ cs).takeWhile p).length := by
    rw [List.takeWhile_append_of_pos ha, List.length_append]
    omega
  rw [exec]
  apply longest_eq (List.length_pos_iff.2 hne) (by rw [List.drop_left, List.take_left, h]; rfl) hrun
  intro k hk _
  rw [List.drop_append, List.drop_eq_nil_of_le (by omega), List.nil_append, hrest _ (by omega)]
  rfl

/-- A group before the end of a text that is given, as `(p+)>$`. -/
theorem exec_group_end {p : Char → Bool} {a : List Char} {c : Char} (ha : ∀ x ∈ a, p x = true) (hne : a ≠ []) :
    exec [.group p, .text [c]] (a ++ [c]) = some [a] := by
  apply exec_group ha hne (by simp [exec])
  intro k hk
  rw [List.drop_eq_nil_of_le (by rw [List.length_singleton]; omega)]
  simp [exec]

/-- A group before a separator ends at the last one that the text has. -/
theorem exec_group_separator {p q r : Char → Bool} {sep : Char} {ps : List Piece} {a cs : List Char}
    {gs : List (List Char)} (ha : ∀ c ∈ a, q c = true) (hfirst : ∀ c, a.head? = some c → p c = false)
    (hne : a ≠ []) (hr : r sep = false) (hcs : sep ∉ cs) (h : exec ps cs = some gs) :
    exec (.skip p :: .group q :: .skip r :: .text [sep] :: ps) (a ++ sep :: cs) = some (a :: gs) := by
  have hrest : exec (.skip r :: .text [sep] :: ps) (sep :: cs) = some gs := by
    refine exec_skip (a := []) (by simp) (fun c hc => ?_) ((exec_text [sep] ps cs).trans h)
    obtain rfl : sep = c := by simpa using hc
    exact hr
  have hgroup : exec (.group q :: .skip r :: .text [sep] :: ps) (a ++ sep :: cs) = some (a :: gs) := by
    apply exec_group ha hne hrest
    intro k hk
    by_contra hsome
    obtain ⟨hs, hexec⟩ := Option.ne_none_iff_exists'.1 hsome
    have hmem := (exec_matches hexec).mem (s := [sep]) (c := sep) (by simp) (by simp)
    obtain ⟨k, rfl⟩ : ∃ m, k = m + 1 := ⟨k - 1, by omega⟩
    exact hcs (List.mem_of_mem_drop hmem)
  refine exec_skip (a := []) (by simp) (fun c hc => hfirst c ?_) hgroup
  cases a with
  | nil => exact absurd rfl hne
  | cons d a => simpa using hc

end Pattern
