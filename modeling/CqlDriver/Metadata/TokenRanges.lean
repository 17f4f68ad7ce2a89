import CqlDriver.Metadata.TokenRing

/-! # Dividing token ranges (`lib/token.js`)

`unwrap` cuts a range at the end of the ring, `splitEvenly` at points that the tokenizer chooses.  The parts
of a range should have each of its tokens once and no other.  `unwrap` does that (`unwrap_partitions`).
`splitEvenly` does unless two neighbours among the start, the points and the end are the minimum token: the
range between them is the whole ring instead of an empty one (`splitEvenly_partitions_iff`). -/

namespace CqlDriver.Metadata

variable {T : Type} [LinearOrder T]

namespace TokenRange

/-- Splits this range into a list of two non-wrapping ranges. -/
def unwrap (minToken : T) (r : TokenRange T) : List (TokenRange T) :=
  if r.isWrappedAround minToken then [⟨r.start, minToken⟩, ⟨minToken, r.stop⟩] else [r]

def toText (tokenizer : Tokenizer T) (r : TokenRange T) : String :=
  s!"]{tokenizer.stringify r.start}, {tokenizer.stringify r.stop}]"

/-- One turn of the loop of `splitEvenly`: the ranges, and the start of the next one. -/
def splitStep (s : List (TokenRange T) × T) (splitEnd : T) : List (TokenRange T) × T :=
  (s.1 ++ [⟨s.2, splitEnd⟩], splitEnd)

/-- Splits this range into a number of smaller ranges of equal "size"; `split` is the one of the tokenizer. -/
def splitEvenly (tokenizer : Tokenizer T) (split : T → T → ℤ → List T) (r : TokenRange T) (numberOfSplits : ℤ) :
    Except String (List (TokenRange T)) :=
  if numberOfSplits < 1 then .error s!"numberOfSplits ({numberOfSplits}) must be greater than 0."
  else if r.isEmpty tokenizer.minToken then .error s!"Can't split empty range {r.toText tokenizer}"
  else
    let splitPoints := split r.start r.stop numberOfSplits
    let (tokenRanges, splitStart) := splitPoints.foldl splitStep ([], r.start)
    .ok (tokenRanges ++ [⟨splitStart, r.stop⟩])

/-- The parts have each token of the range once, and no other. -/
def Partitions (minToken : T) (r : TokenRange T) (parts : List (TokenRange T)) : Prop :=
  ∀ t, parts.countP (fun part => part.contains minToken t) = if r.contains minToken t then 1 else 0

/-! ### `unwrap` -/

section unwrap

variable {minToken : T} (hmin : ∀ t, minToken ≤ t)
include hmin

theorem isWrappedAround_of_min (r : TokenRange T) (h : r.start = minToken ∨ r.stop = minToken) :
    r.isWrappedAround minToken = false := by
  unfold isWrappedAround
  rw [decide_eq_false_iff_not]
  rintro ⟨hlt, hstop⟩
  rcases h with h | h
  · rw [h] at hlt
    exact absurd (hmin r.stop) (not_le.2 hlt)
  · exact hstop h

theorem contains_min_stop {start : T} (h : minToken < start) (t : T) :
    (TokenRange.mk start minToken).contains minToken t = true ↔ start < t ∨ t = minToken := by
  rw [contains_of_gt hmin (r := ⟨start, minToken⟩) h t]
  refine or_congr_right ⟨fun hle => le_antisymm hle (hmin t), fun heq => heq.le⟩

/-- The two ranges of a range that wraps around. -/
theorem countP_unwrap_of_gt {r : TokenRange T} (hlt : r.stop < r.start) (hstop : r.stop ≠ minToken) (t : T) :
    [TokenRange.mk r.start minToken, TokenRange.mk minToken r.stop].countP
        (fun part => part.contains minToken t) = if r.contains minToken t then 1 else 0 := by
  have hstart : minToken < r.start := (hmin r.stop).trans_lt hlt
  have hr := contains_of_gt hmin hlt t
  have hfirst := contains_min_stop hmin hstart t
  have hsecond := contains_of_lt (r := ⟨minToken, r.stop⟩) hmin (lt_of_le_of_ne (hmin r.stop) hstop.symm) t
  simp only [List.countP_cons, List.countP_nil, hr, hfirst, hsecond]
  rcases (hmin t).eq_or_lt with rfl | hpos
  · simp [hmin]
  · by_cases hafter : r.start < t
    · simp [hafter, hlt.trans hafter]
    · simp [hafter, hpos, hpos.ne']

/-- The ranges that `unwrap` gives do not wrap around, and a token is in the range exactly if it is in one of
them, and then in one only. -/
theorem unwrap_partitions (r : TokenRange T) :
    (∀ part ∈ r.unwrap minToken, part.isWrappedAround minToken = false) ∧
      ∀ t, (r.contains minToken t = true ↔
          (r.unwrap minToken).countP (fun part => part.contains minToken t) = 1) ∧
        (r.contains minToken t = false →
          (r.unwrap minToken).countP (fun part => part.contains minToken t) = 0) := by
  have hcount : Partitions minToken r (r.unwrap minToken) := by
    intro t
    by_cases hwrap : r.isWrappedAround minToken = true
    · obtain ⟨hlt, hstop⟩ := of_decide_eq_true hwrap
      rw [unwrap, if_pos hwrap]
      exact countP_unwrap_of_gt hmin hlt hstop t
    · rw [unwrap, if_neg hwrap, List.countP_singleton]
  constructor
  · intro part hpart
    unfold unwrap at hpart
    split_ifs at hpart with hwrap
    · apply isWrappedAround_of_min hmin
      rcases List.mem_cons.1 hpart with rfl | hpart
      · exact .inr rfl
      · rw [List.mem_singleton.1 hpart]
        exact .inl rfl
    · rw [List.mem_singleton.1 hpart]
      exact Bool.eq_false_iff.2 hwrap
  · intro t
    rw [hcount t]
    cases r.contains minToken t <;> simp

end unwrap

theorem unwrap_partitions_wrapping :
    (∀ part ∈ (TokenRange.mk 8 3).unwrap 0, part.isWrappedAround 0 = false) ∧
      ∀ t : ℕ, ((TokenRange.mk 8 3).contains 0 t = true ↔
          ((TokenRange.mk 8 3).unwrap 0).countP (fun part => part.contains 0 t) = 1) ∧
        ((TokenRange.mk 8 3).contains 0 t = false →
          ((TokenRange.mk 8 3).unwrap 0).countP (fun part => part.contains 0 t) = 0) :=
  unwrap_partitions Nat.zero_le ⟨8, 3⟩

/-! ### `splitEvenly` -/

/-- The ranges from a start over the points to a stop. -/
def chain (start : T) : List T → T → List (TokenRange T)
  | [], stop => [⟨start, stop⟩]
  | p :: points, stop => ⟨start, p⟩ :: chain p points stop

omit [LinearOrder T] in
theorem foldl_splitStep (points : List T) (stop : T) : ∀ (ranges : List (TokenRange T)) (start : T),
    (points.foldl splitStep (ranges, start)).1 ++ [⟨(points.foldl splitStep (ranges, start)).2, stop⟩] =
      ranges ++ chain start points stop := by
  induction points with
  | nil => exact fun _ _ => rfl
  | cons p points ih =>
      intro ranges start
      rw [List.foldl_cons, splitStep, ih, chain, List.append_assoc]
      rfl

theorem splitEvenly_eq {tokenizer : Tokenizer T} {split : T → T → ℤ → List T} {r : TokenRange T}
    {numberOfSplits : ℤ} (hn : 1 ≤ numberOfSplits) (hempty : r.isEmpty tokenizer.minToken = false) :
    splitEvenly tokenizer split r numberOfSplits =
      .ok (chain r.start (split r.start r.stop numberOfSplits) r.stop) := by
  have hfold := foldl_splitStep (split r.start r.stop numberOfSplits) r.stop [] r.start
  unfold splitEvenly
  rw [if_neg (not_lt.2 hn), hempty, if_neg (by decide)]
  exact congrArg Except.ok hfold

/-- The points in the order in which they are met on the way from `start` to `stop`; where this is not a way
up, it passes the end of the ring. -/
def RingOrder (start stop : T) (points : List T) : Prop :=
  if start < stop then (start :: (points ++ [stop])).Pairwise (· ≤ ·)
  else ∃ before after, points = before ++ after ∧ (start :: before).Pairwise (· ≤ ·) ∧
    (after ++ [stop]).Pairwise (· ≤ ·)

/-- Not the whole ring. -/
def NotFull (minToken a b : T) : Prop := ¬ (a = minToken ∧ b = minToken)

section splitEvenly

variable {minToken : T} (hmin : ∀ t, minToken ≤ t)
include hmin

theorem contains_of_le {a b : T} (h : a ≤ b) (hfull : NotFull minToken a b) (t : T) :
    (TokenRange.mk a b).contains minToken t = true ↔ a < t ∧ t ≤ b := by
  rcases h.lt_or_eq with hlt | rfl
  · exact contains_of_lt (r := ⟨a, b⟩) hmin hlt t
  · have hne : a ≠ minToken := fun heq => hfull ⟨heq, heq⟩
    have hempty : (TokenRange.mk a a).isEmpty minToken = true := by simp [isEmpty, hne]
    rw [contains, hempty, if_pos rfl]
    refine iff_of_false (by decide) ?_
    rintro ⟨hlt, hle⟩
    exact absurd hlt (not_lt.2 hle)

/-- On the way up each token is passed once. -/
theorem countP_chain {stop : T} {points : List T} (t : T) : ∀ {start : T},
    (start :: (points ++ [stop])).Pairwise (· ≤ ·) → (start :: (points ++ [stop])).IsChain (NotFull minToken) →
      (chain start points stop).countP (fun part => part.contains minToken t) =
        if start < t ∧ t ≤ stop then 1 else 0 := by
  induction points with
  | nil =>
      intro start hsorted hfull
      have hle : start ≤ stop := (List.pairwise_cons.1 hsorted).1 stop (by simp)
      have hpair : NotFull minToken start stop := (List.isChain_cons_cons.1 hfull).1
      rw [chain, List.countP_singleton]
      simp only [contains_of_le hmin hle hpair]
  | cons p points ih =>
      intro start hsorted hfull
      obtain ⟨hstart, hsorted'⟩ := List.pairwise_cons.1 hsorted
      obtain ⟨hpair, hfull'⟩ := List.isChain_cons_cons.1 hfull
      have hle : start ≤ p := hstart p (by simp)
      have hstop : p ≤ stop := (List.pairwise_cons.1 hsorted').1 stop (by simp)
      rw [chain, List.countP_cons, ih hsorted' hfull']
      simp only [contains_of_le hmin hle hpair]
      by_cases hp : t ≤ p
      · simp [hp, not_lt.2 hp, hp.trans hstop]
      · have hlt := not_le.1 hp
        simp [hp, hlt, hle.trans_lt hlt]

/-- On a way that passes the end of the ring with its first range. -/
theorem countP_chain_of_end {stop start : T} {after : List T} (t : T) (hafter : (after ++ [stop]).Pairwise (· ≤ ·))
    (hle : stop ≤ start) (hempty : start = stop → start = minToken)
    (hfull : (start :: (after ++ [stop])).IsChain (NotFull minToken)) :
    (chain start after stop).countP (fun part => part.contains minToken t) =
      if start < t ∨ t ≤ stop then 1 else 0 := by
  cases after with
  | nil =>
      have hpair : NotFull minToken start stop := (List.isChain_cons_cons.1 hfull).1
      have hlt : stop < start := lt_of_le_of_ne hle fun heq =>
        hpair ⟨hempty heq.symm, by rw [heq, hempty heq.symm]⟩
      rw [chain, List.countP_singleton]
      simp only [contains_of_gt (r := ⟨start, stop⟩) hmin hlt]
  | cons q after =>
      obtain ⟨hpair, hfull'⟩ := List.isChain_cons_cons.1 hfull
      have hqstop : q ≤ stop := (List.pairwise_cons.1 hafter).1 stop (by simp)
      have hlt : q < start := by
        refine lt_of_le_of_ne (hqstop.trans hle) fun heq => hpair ?_
        have hstart := hempty (le_antisymm (heq ▸ hqstop) hle)
        exact ⟨hstart, by rw [heq, hstart]⟩
      rw [chain, List.countP_cons, countP_chain hmin t hafter hfull']
      simp only [contains_of_gt (r := ⟨start, q⟩) hmin hlt]
      by_cases hq : t ≤ q
      · simp [hq, not_lt.2 hq, hq.trans hqstop]
      · by_cases hs : start < t
        · simp [hs, not_le.2 (hle.trans_lt hs)]
        · simp [hq, hs, not_le.1 hq]

/-- On a way that passes the end of the ring with any of its ranges. -/
theorem countP_chain_of_le {stop : T} {before after : List T} (t : T)
    (hafter : (after ++ [stop]).Pairwise (· ≤ ·)) :
    ∀ {start : T}, stop ≤ start → (start = stop → start = minToken) → (start :: before).Pairwise (· ≤ ·) →
      (start :: (before ++ after ++ [stop])).IsChain (NotFull minToken) →
      (chain start (before ++ after) stop).countP (fun part => part.contains minToken t) =
        if start < t ∨ t ≤ stop then 1 else 0 := by
  induction before with
  | nil => exact fun hle hempty _ hfull => countP_chain_of_end hmin t hafter hle hempty hfull
  | cons p before ih =>
      intro start hle hempty hbefore hfull
      obtain ⟨hstart, hbefore'⟩ := List.pairwise_cons.1 hbefore
      obtain ⟨hpair, hfull'⟩ := List.isChain_cons_cons.1 hfull
      have hp : start ≤ p := hstart p (by simp)
      have hempty' : p = stop → p = minToken := by
        rintro rfl
        have heq := le_antisymm hp hle
        rw [← heq, hempty heq]
      rw [List.cons_append, chain, List.countP_cons, ih (hle.trans hp) hempty' hbefore' hfull']
      simp only [contains_of_le hmin hp hpair]
      by_cases hs : start < t
      · by_cases hpt : t ≤ p
        · simp [hs, hpt, not_lt.2 hpt, not_le.2 (hle.trans_lt hs)]
        · simp [hs, hpt, not_le.1 hpt]
      · simp [hs, not_lt.2 ((not_lt.1 hs).trans hp)]

theorem partitions_chain {r : TokenRange T} {points : List T} (hempty : r.isEmpty minToken = false)
    (horder : RingOrder r.start r.stop points)
    (hfull : (r.start :: (points ++ [r.stop])).IsChain (NotFull minToken)) :
    Partitions minToken r (chain r.start points r.stop) := by
  intro t
  unfold RingOrder at horder
  split_ifs at horder with hlt
  · rw [countP_chain hmin t horder hfull]
    simp only [contains_of_lt hmin hlt]
  · obtain ⟨before, after, rfl, hbefore, hafter⟩ := horder
    have hle := not_lt.1 hlt
    have hfullRing : r.start = r.stop → r.start = minToken := by
      intro heq
      by_contra hne
      rw [isEmpty, decide_eq_false_iff_not] at hempty
      exact hempty ⟨heq, hne⟩
    rw [countP_chain_of_le hmin t hafter hle hfullRing hbefore hfull]
    rcases hle.lt_or_eq with hgt | heq
    · simp only [contains_of_gt hmin hgt]
    · have hstart := hfullRing heq.symm
      have hstop : r.stop = minToken := heq.trans hstart
      have hwhole : r.contains minToken t = true := by simp [contains, isEmpty, hstart, hstop]
      rw [hwhole, if_pos rfl, if_pos]
      rw [hstart, hstop]
      exact lt_or_ge minToken t

omit [LinearOrder T] hmin in
theorem isChain_iff {stop : T} {points : List T} : ∀ {start : T},
    (start :: (points ++ [stop])).IsChain (NotFull minToken) ↔
      TokenRange.mk minToken minToken ∉ chain start points stop := by
  induction points with
  | nil =>
      intro start
      simp [chain, NotFull, eq_comm]
  | cons p points ih =>
      intro start
      rw [List.cons_append, List.isChain_cons_cons, ih, chain, List.mem_cons, not_or]
      simp [NotFull, eq_comm]

omit hmin in
theorem contains_full (t : T) : (TokenRange.mk minToken minToken).contains minToken t = true := by
  simp [contains, isEmpty]

/-- Only the whole ring has its own start. -/
theorem eq_min_of_contains_start {r : TokenRange T} (h : r.contains minToken r.start = true) :
    r.start = minToken ∧ r.stop = minToken := by
  rcases lt_trichotomy r.start r.stop with hlt | heq | hgt
  · rw [contains_of_lt hmin hlt] at h
    exact absurd h.1 (lt_irrefl _)
  · by_contra hne
    have hempty : r.isEmpty minToken = true := by
      rw [isEmpty, decide_eq_true_iff]
      exact ⟨heq, fun hstart => hne ⟨hstart, by rw [← heq, hstart]⟩⟩
    rw [contains, hempty] at h
    cases h
  · rw [contains_of_gt hmin hgt] at h
    rcases h with h | h
    · exact absurd h (lt_irrefl _)
    · exact absurd hgt (not_lt.2 h)

/-- A range that begins with the minimum token is not empty. -/
theorem exists_contains_of_min (b : T) : ∃ t, (TokenRange.mk minToken b).contains minToken t = true := by
  rcases (hmin b).eq_or_lt with rfl | hlt
  · exact ⟨minToken, contains_full minToken⟩
  · exact ⟨b, (contains_of_lt (r := ⟨minToken, b⟩) hmin hlt b).2 ⟨hlt, le_rfl⟩⟩

/-- The whole ring among other parts has a token that another part has. -/
theorem not_partitions_of_full {r : TokenRange T} {p : T} {points : List T}
    (h : TokenRange.mk minToken minToken ∈ chain r.start (p :: points) r.stop) :
    ¬ Partitions minToken r (chain r.start (p :: points) r.stop) := by
  intro hparts
  have hle := hparts r.start
  have hpos : 0 < (chain r.start (p :: points) r.stop).countP fun part => part.contains minToken r.start :=
    List.countP_pos_iff.2 ⟨_, h, contains_full r.start⟩
  have hstart : r.contains minToken r.start = true := by
    by_contra hnot
    rw [hle, if_neg hnot] at hpos
    exact lt_irrefl _ hpos
  obtain ⟨hmin₁, hmin₂⟩ := eq_min_of_contains_start hmin hstart
  -- a token of the first part that another part has too
  obtain ⟨t, hfirst, hrest⟩ : ∃ t, (TokenRange.mk minToken p).contains minToken t = true ∧
      ∃ part ∈ chain p points r.stop, part.contains minToken t = true := by
    by_cases hp : p = minToken
    · obtain ⟨b, part, hpart, rfl⟩ : ∃ b, ∃ part ∈ chain p points r.stop, part = ⟨minToken, b⟩ := by
        cases points with
        | nil => exact ⟨r.stop, _, List.mem_singleton_self _, by rw [hp]⟩
        | cons q points => exact ⟨q, _, List.mem_cons_self .., by rw [hp]⟩
      obtain ⟨t, ht⟩ := exists_contains_of_min hmin b
      exact ⟨t, by rw [hp]; exact contains_full t, _, hpart, ht⟩
    · obtain ⟨t, ht⟩ := exists_contains_of_min hmin p
      refine ⟨t, ht, ⟨minToken, minToken⟩, ?_, contains_full t⟩
      rw [chain, List.mem_cons] at h
      refine h.resolve_left fun heq => hp ?_
      exact (congrArg TokenRange.stop heq).symm
  have hcount := hparts t
  rw [chain, List.countP_cons, hmin₁, if_pos hfirst] at hcount
  have hother : 0 < (chain p points r.stop).countP fun part => part.contains minToken t :=
    List.countP_pos_iff.2 hrest
  split_ifs at hcount
  omega

end splitEvenly

/-- For points in the order of the ring, the ranges that `splitEvenly` returns partition a range exactly if
there is one of them only or no two neighbours among the start, the points and the end are both the minimum
token. -/
theorem splitEvenly_partitions_iff {tokenizer : Tokenizer T} {split : T → T → ℤ → List T}
    (htoken : ∀ t, tokenizer.minToken ≤ t) {r : TokenRange T} {numberOfSplits : ℤ} (hn : 1 ≤ numberOfSplits)
    (hempty : r.isEmpty tokenizer.minToken = false)
    (hlength : ((split r.start r.stop numberOfSplits).length : ℤ) = numberOfSplits - 1)
    (horder : RingOrder r.start r.stop (split r.start r.stop numberOfSplits)) :
    (∃ parts, splitEvenly tokenizer split r numberOfSplits = .ok parts ∧
        Partitions tokenizer.minToken r parts) ↔
      numberOfSplits = 1 ∨ (r.start :: (split r.start r.stop numberOfSplits ++ [r.stop])).IsChain
        (NotFull tokenizer.minToken) := by
  rw [splitEvenly_eq hn hempty]
  simp only [Except.ok.injEq, exists_eq_left']
  generalize split r.start r.stop numberOfSplits = points at hlength horder ⊢
  constructor
  · intro hparts
    cases points with
    | nil =>
        rw [List.length_nil] at hlength
        exact .inl (by omega)
    | cons p points =>
        refine .inr (isChain_iff.2 fun hfull => ?_)
        exact not_partitions_of_full htoken hfull hparts
  · rintro (h | h)
    · obtain rfl : points = [] := List.length_eq_zero_iff.1 (by omega)
      intro t
      rw [chain, List.countP_singleton]
    · exact partitions_chain htoken hempty horder h

/-- The natural numbers as tokens. -/
def natTokenizer : Tokenizer ℕ := ⟨fun _ => 0, toString, fun _ => 0, 0⟩

theorem splitEvenly_partitions_iff_wrapping :
    (∃ parts, splitEvenly natTokenizer (fun _ _ _ => [10, 2]) ⟨8, 3⟩ 3 = .ok parts ∧ Partitions 0 ⟨8, 3⟩ parts) ↔
      (3 : ℤ) = 1 ∨ [8, 10, 2, 3].IsChain (NotFull 0) := by
  have horder : RingOrder 8 3 [10, 2] := by
    rw [RingOrder, if_neg (by decide)]
    exact ⟨[10], [2], rfl, by decide, by decide⟩
  exact @splitEvenly_partitions_iff ℕ _ natTokenizer (fun _ _ _ => [10, 2]) Nat.zero_le ⟨8, 3⟩ 3 (by decide)
    (by decide) (by decide) horder

/-- The first half of `]0, 5]` for the split point `0` is the whole ring. -/
theorem not_forall_splitEvenly_partitions :
    ¬ (∀ (split : ℕ → ℕ → ℤ → List ℕ) (r : TokenRange ℕ) (n : ℤ), 1 ≤ n → r.isEmpty 0 = false →
        ((split r.start r.stop n).length : ℤ) = n - 1 → RingOrder r.start r.stop (split r.start r.stop n) →
        ∃ parts, splitEvenly natTokenizer split r n = .ok parts ∧ Partitions 0 r parts) ∧
      splitEvenly natTokenizer (fun _ _ _ => [0]) ⟨0, 5⟩ 2 = .ok [⟨0, 0⟩, ⟨0, 5⟩] ∧
      (TokenRange.mk 0 5).contains 0 7 = false ∧ (TokenRange.mk 0 0).contains 0 7 = true := by
  refine ⟨fun h => ?_, rfl, by decide, by decide⟩
  have horder : RingOrder 0 5 [0] := by
    rw [RingOrder, if_pos (by decide)]
    decide
  obtain ⟨parts, hsplit, hparts⟩ := h (fun _ _ _ => [0]) ⟨0, 5⟩ 2 (by decide) (by decide) (by decide) horder
  obtain rfl : [⟨0, 0⟩, ⟨0, 5⟩] = parts := Except.ok.inj hsplit
  exact absurd (hparts 7) (by decide)

end TokenRange
end CqlDriver.Metadata
