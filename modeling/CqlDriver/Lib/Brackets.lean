import Mathlib.Tactic

/-! # Brackets and commas

Nested argument lists as texts.  The depth of a text is the number of its opening brackets less that of
the closing ones.  An `Argument` is a text that is balanced and has its commas inside brackets, so that a
comma at depth 0 ends it; a constructor applied to arguments is an argument again. -/

namespace Brackets

/-- A pair of brackets. -/
structure Kind where
  opening : Char
  closing : Char
  ne : opening ≠ closing
  opening_ne : opening ≠ ','
  closing_ne : closing ≠ ','

/-- `<` and `>` -/
def angle : Kind := ⟨'<', '>', by decide, by decide, by decide⟩

/-- `(` and `)` -/
def paren : Kind := ⟨'(', ')', by decide, by decide, by decide⟩

section
variable {b : Kind}

def depth (b : Kind) (s : List Char) : ℤ := s.count b.opening - s.count b.closing

@[simp] theorem depth_nil : depth b [] = 0 := by simp [depth]

@[simp] theorem depth_append (s t : List Char) : depth b (s ++ t) = depth b s + depth b t := by
  simp only [depth, List.count_append]
  push_cast
  ring

theorem depth_cons (x : Char) (s : List Char) : depth b (x :: s) = depth b [x] + depth b s :=
  depth_append [x] s

@[simp] theorem depth_opening : depth b [b.opening] = 1 := by simp [depth, b.ne]

@[simp] theorem depth_closing : depth b [b.closing] = -1 := by simp [depth, b.ne.symm]

/-- A text without brackets and commas. -/
def Plain (b : Kind) (s : List Char) : Prop := b.opening ∉ s ∧ b.closing ∉ s ∧ ',' ∉ s

instance (b : Kind) (s : List Char) : Decidable (Plain b s) := inferInstanceAs (Decidable (_ ∧ _))

theorem depth_of_not_mem {s : List Char} (h : b.opening ∉ s) (h' : b.closing ∉ s) : depth b s = 0 := by
  rw [depth, List.count_eq_zero.2 h, List.count_eq_zero.2 h']
  rfl

theorem depth_comma : depth b [','] = 0 :=
  depth_of_not_mem (by simpa using b.opening_ne) (by simpa using b.closing_ne)

/-- A balanced text whose commas are at the outer level or inside. -/
structure Within (b : Kind) (s : List Char) : Prop where
  balanced : depth b s = 0
  comma : ∀ p q, s = p ++ ',' :: q → 0 ≤ depth b p

/-- A balanced text whose commas are all inside brackets. -/
structure Argument (b : Kind) (s : List Char) : Prop where
  balanced : depth b s = 0
  comma : ∀ p q, s = p ++ ',' :: q → 0 < depth b p

theorem Argument.within {s : List Char} (h : Argument b s) : Within b s :=
  ⟨h.balanced, fun p q hs => (h.comma p q hs).le⟩

theorem Plain.argument {s : List Char} (h : Plain b s) : Argument b s := by
  refine ⟨depth_of_not_mem h.1 h.2.1, fun p q hs => ?_⟩
  exact absurd (by simp [hs]) h.2.2

theorem Plain.append {s t : List Char} (hs : Plain b s) (ht : Plain b t) : Plain b (s ++ t) := by
  refine ⟨?_, ?_, ?_⟩
  · simpa using ⟨hs.1, ht.1⟩
  · simpa using ⟨hs.2.1, ht.2.1⟩
  · simpa using ⟨hs.2.2, ht.2.2⟩

/-- A comma of two texts in a row is one of the first or of the second. -/
theorem comma_append {s t p q : List Char} (h : s ++ t = p ++ ',' :: q) :
    (∃ q', s = p ++ ',' :: q' ∧ q = q' ++ t) ∨ ∃ p', t = p' ++ ',' :: q ∧ p = s ++ p' := by
  rcases List.append_eq_append_iff.1 h with ⟨r, rfl, rfl⟩ | ⟨r, rfl, hr⟩
  · exact Or.inr ⟨r, rfl, rfl⟩
  · cases r with
    | nil => exact Or.inr ⟨[], hr.symm, by simp⟩
    | cons x r =>
        obtain ⟨rfl, rfl⟩ := List.cons.inj hr
        exact Or.inl ⟨r, rfl, rfl⟩

theorem Within.append {s t : List Char} (hs : Within b s) (ht : Within b t) : Within b (s ++ t) := by
  refine ⟨by rw [depth_append, hs.balanced, ht.balanced, add_zero], fun p q h => ?_⟩
  rcases comma_append h with ⟨q', hq, -⟩ | ⟨p', hp, rfl⟩
  · exact hs.comma p q' hq
  · rw [depth_append, hs.balanced, zero_add]
    exact ht.comma p' q hp

theorem within_nil : Within b [] := ⟨depth_nil, fun p q h => by simp at h⟩

theorem within_comma (s : List Char) (h : Plain b s) : Within b (',' :: s) := by
  have hcomma : Within b [','] := by
    refine ⟨depth_comma, fun p q h => ?_⟩
    cases p with
    | nil => rw [depth_nil]
    | cons x p => simp at h
  exact hcomma.append h.argument.within

theorem within_intercalate {sep : List Char} (hsep : Within b sep) : ∀ {ss : List (List Char)},
    (∀ s ∈ ss, Argument b s) → Within b (sep.intercalate ss)
  | [], _ => within_nil
  | [s], h => by
      rw [List.intercalate_singleton]
      exact (h s (by simp)).within
  | s :: t :: ss, h => by
      rw [List.intercalate_cons_cons]
      have hrest : Within b (sep.intercalate (t :: ss)) :=
        within_intercalate hsep fun u hu => h u (List.mem_cons_of_mem s hu)
      exact ((h s (by simp)).within.append hsep).append hrest

theorem Plain.append_argument {s t : List Char} (hs : Plain b s) (ht : Argument b t) : Argument b (s ++ t) := by
  refine ⟨by rw [depth_append, hs.argument.balanced, ht.balanced, add_zero], fun p q h => ?_⟩
  rcases comma_append h with ⟨q', hq, -⟩ | ⟨p', hp, rfl⟩
  · exact absurd (by simp [hq]) hs.2.2
  · rw [depth_append, hs.argument.balanced, zero_add]
    exact ht.comma p' q hp

/-- A constructor with its arguments in brackets. -/
theorem argument_bracketed {pre s : List Char} (hpre : Plain b pre) (hs : Within b s) :
    Argument b (pre ++ b.opening :: s ++ [b.closing]) := by
  have hdepth : depth b (pre ++ b.opening :: s ++ [b.closing]) = 0 := by
    rw [depth_append, depth_append, depth_cons, depth_opening, depth_closing, hpre.argument.balanced, hs.balanced]
    norm_num
  refine ⟨hdepth, fun p q h => ?_⟩
  rcases comma_append h with ⟨q', hleft, -⟩ | ⟨p', hright, -⟩
  · rcases comma_append hleft with ⟨q'', hq, -⟩ | ⟨p', hp, rfl⟩
    · exact absurd (by simp [hq]) hpre.2.2
    · cases p' with
      | nil => exact absurd (List.cons.inj hp).1 b.opening_ne
      | cons x p' =>
          obtain ⟨rfl, hs'⟩ := List.cons.inj hp
          have := hs.comma p' q' hs'
          rw [depth_append, depth_cons, depth_opening, hpre.argument.balanced]
          omega
  · cases p' with
    | nil => exact absurd (List.cons.inj hright).1 b.closing_ne
    | cons x p' => simp at hright

/-! ### Cutting a text at the commas of the outer level -/

/-- The parts of a text between the commas at level 0, the text starting at the given level. -/
def cuts (b : Kind) : ℤ → List Char → List (List Char)
  | _, [] => [[]]
  | level, c :: cs =>
      if level + depth b [c] = 0 ∧ c = ',' then [] :: cuts b (level + depth b [c]) cs
      else (cuts b (level + depth b [c]) cs).modifyHead (c :: ·)

/-- No comma of the text is at level 0 when the text starts at the given level. -/
def NoCut (b : Kind) (level : ℤ) (s : List Char) : Prop := ∀ p q, s = p ++ ',' :: q → level + depth b p ≠ 0

theorem NoCut.tail {level : ℤ} {c : Char} {s : List Char} (h : NoCut b level (c :: s)) :
    NoCut b (level + depth b [c]) s := by
  intro p q hs
  have := h (c :: p) q (by rw [hs, List.cons_append])
  rwa [depth_cons, ← add_assoc] at this

theorem NoCut.of_append {level : ℤ} {s t : List Char} (h : NoCut b level (s ++ t)) : NoCut b level s := by
  intro p q hs
  exact h p (q ++ t) (by rw [hs, List.append_assoc, List.cons_append])

/-- Behind an opening bracket that is not closed there is no cut. -/
theorem noCut_of_opening {u s r : List Char} (hclosing : b.closing ∉ u) (hcomma : ',' ∉ u) (hs : Within b s)
    (hr : ',' ∉ r) : NoCut b 0 (u ++ b.opening :: s ++ r) := by
  have hu : 0 ≤ depth b u := by
    rw [depth, List.count_eq_zero.2 hclosing]
    simp
  intro p q h
  rcases comma_append h with ⟨q', hleft, -⟩ | ⟨p', hright, -⟩
  · rcases comma_append hleft with ⟨q'', hq, -⟩ | ⟨p', hp, rfl⟩
    · exact absurd (by simp [hq]) hcomma
    · cases p' with
      | nil => exact absurd (List.cons.inj hp).1 b.opening_ne
      | cons x p' =>
          obtain ⟨rfl, hs'⟩ := List.cons.inj hp
          have := hs.comma p' q' hs'
          rw [depth_append, depth_cons, depth_opening]
          omega
  · exact absurd (by simp [hright]) hr

theorem cuts_ne_nil : ∀ (level : ℤ) (s : List Char), cuts b level s ≠ []
  | _, [] => by simp [cuts]
  | level, c :: s => by
      rw [cuts]
      split_ifs
      · simp
      · simpa using cuts_ne_nil (level + depth b [c]) s

/-- A text without cut becomes the front of the first part. -/
theorem cuts_append {t : List Char} : ∀ {s : List Char} {level : ℤ}, NoCut b level s →
    cuts b level (s ++ t) = (cuts b (level + depth b s) t).modifyHead (s ++ ·)
  | [], level, _ => by
      rw [List.nil_append, depth_nil, add_zero]
      obtain ⟨u, us, hu⟩ := List.exists_cons_of_ne_nil (cuts_ne_nil (b := b) level t)
      simp [hu]
  | c :: s, level, h => by
      have hc : ¬ (level + depth b [c] = 0 ∧ c = ',') := by
        rintro ⟨hlevel, rfl⟩
        apply h [] s rfl
        rwa [depth_comma] at hlevel
      rw [List.cons_append, cuts, if_neg hc, cuts_append h.tail, depth_cons c s, add_assoc]
      obtain ⟨u, us, hu⟩ := List.exists_cons_of_ne_nil (cuts_ne_nil (b := b) (level + (depth b [c] + depth b s)) t)
      simp [hu]

theorem cuts_of_noCut {s : List Char} {level : ℤ} (h : NoCut b level s) : cuts b level s = [s] := by
  have := cuts_append (t := []) h
  rw [List.append_nil] at this
  rw [this, cuts]
  simp

theorem cuts_append_comma {s t : List Char} (hs : depth b s = 0) (h : NoCut b 0 s) :
    cuts b 0 (s ++ ',' :: t) = s :: cuts b 0 t := by
  rw [cuts_append h, hs, add_zero, cuts, depth_comma, if_pos ⟨add_zero 0, rfl⟩, add_zero]
  simp

theorem Argument.noCut {s : List Char} (h : Argument b s) : NoCut b 0 s := by
  intro p q hs
  have := h.comma p q hs
  omega

/-- Arguments that are joined with commas are found again. -/
theorem cuts_intercalate : ∀ {ss : List (List Char)}, ss ≠ [] → (∀ s ∈ ss, Argument b s) →
    cuts b 0 ([','].intercalate ss) = ss
  | [], h, _ => absurd rfl h
  | [s], _, h => by
      rw [List.intercalate_singleton]
      exact cuts_of_noCut (h s (by simp)).noCut
  | s :: t :: ss, _, h => by
      have hs := h s (by simp)
      rw [List.intercalate_cons_cons, List.append_assoc, List.singleton_append,
        cuts_append_comma hs.balanced hs.noCut,
        cuts_intercalate (List.cons_ne_nil t ss) fun u hu => h u (List.mem_cons_of_mem s hu)]

theorem noCut_iff {level : ℤ} {s : List Char} :
    NoCut b level s ↔ ∀ i < s.length, s[i]? = some ',' → level + depth b (s.take i) ≠ 0 := by
  constructor
  · intro h i hi hc
    obtain ⟨hi', hget⟩ := List.getElem?_eq_some_iff.1 hc
    apply h (s.take i) (s.drop (i + 1))
    rw [← hget, List.getElem_cons_drop, List.take_append_drop]
  · rintro h p q rfl
    have := h p.length (by simp) (by simp)
    rwa [List.take_left] at this

instance (level : ℤ) (s : List Char) : Decidable (NoCut b level s) := decidable_of_iff' _ noCut_iff

/-- The first part ends at the end of the text or at the first comma of level 0. -/
theorem cuts_cases {x : List Char} {xs : List (List Char)} : ∀ {s : List Char} {level : ℤ}, cuts b level s = x :: xs →
    (xs = [] ∧ x = s ∧ NoCut b level s) ∨
      ∃ r, s = x ++ ',' :: r ∧ NoCut b level x ∧ level + depth b x = 0 ∧ xs = cuts b 0 r
  | [], level, h => by
      obtain ⟨rfl, rfl⟩ := List.cons.inj h
      exact Or.inl ⟨rfl, rfl, fun p q h => by simp at h⟩
  | c :: s, level, h => by
      rw [cuts] at h
      split_ifs at h with hc
      · obtain ⟨rfl, rfl⟩ := List.cons.inj h
        obtain ⟨hlevel, rfl⟩ := hc
        rw [depth_comma, add_zero] at hlevel
        refine Or.inr ⟨s, rfl, fun p q h => by simp at h, by simpa using hlevel, ?_⟩
        rw [depth_comma, hlevel, add_zero]
      · obtain ⟨y, ys, hy⟩ := List.exists_cons_of_ne_nil (cuts_ne_nil (b := b) (level + depth b [c]) s)
        rw [hy, List.modifyHead_cons] at h
        obtain ⟨rfl, rfl⟩ := List.cons.inj h
        have hcons : ∀ {t : List Char}, NoCut b (level + depth b [c]) t → NoCut b level (c :: t) := by
          intro t ht p q hp
          cases p with
          | nil =>
              obtain ⟨rfl, rfl⟩ := List.cons.inj hp
              rw [depth_nil, add_zero]
              rintro rfl
              exact hc ⟨by rw [depth_comma, add_zero], rfl⟩
          | cons x p =>
              obtain ⟨rfl, rfl⟩ := List.cons.inj hp
              rw [depth_cons, ← add_assoc]
              exact ht p q rfl
        rcases cuts_cases hy with ⟨rfl, rfl, hno⟩ | ⟨r, rfl, hno, hlevel, rfl⟩
        · exact Or.inl ⟨rfl, rfl, hcons hno⟩
        · refine Or.inr ⟨r, rfl, hcons hno, ?_, rfl⟩
          rw [depth_cons, ← add_assoc]
          exact hlevel

theorem intercalate_cuts : ∀ (level : ℤ) (s : List Char), [','].intercalate (cuts b level s) = s
  | _, [] => by rw [cuts, List.intercalate_singleton]
  | level, c :: s => by
      have ih := intercalate_cuts (level + depth b [c]) s
      obtain ⟨x, xs, hx⟩ := List.exists_cons_of_ne_nil (cuts_ne_nil (b := b) (level + depth b [c]) s)
      rw [hx] at ih
      rw [cuts, hx]
      split_ifs with hc
      · rw [List.intercalate_cons_cons, ih, hc.2, List.nil_append, List.singleton_append]
      · rw [List.modifyHead_cons, ← ih]
        cases xs with
        | nil => rw [List.intercalate_singleton, List.intercalate_singleton]
        | cons y ys => simp only [List.intercalate_cons_cons, List.cons_append]

/-- No comma inside an argument is at level 0, and no argument but the last changes the level. -/
def Separable (b : Kind) : List (List Char) → Prop
  | [] => True
  | [s] => NoCut b 0 s
  | s :: t :: ss => (depth b s = 0 ∧ NoCut b 0 s) ∧ Separable b (t :: ss)

instance decidableSeparable (b : Kind) : ∀ ss, Decidable (Separable b ss)
  | [] => inferInstanceAs (Decidable True)
  | [s] => inferInstanceAs (Decidable (NoCut b 0 s))
  | s :: t :: ss =>
      have := decidableSeparable b (t :: ss)
      inferInstanceAs (Decidable ((depth b s = 0 ∧ NoCut b 0 s) ∧ Separable b (t :: ss)))

/-- Exactly the separable arguments are found again. -/
theorem cuts_intercalate_iff : ∀ {ss : List (List Char)}, ss ≠ [] →
    (cuts b 0 ([','].intercalate ss) = ss ↔ Separable b ss)
  | [], h => absurd rfl h
  | [s], _ => by
      rw [List.intercalate_singleton, Separable]
      constructor
      · intro h
        rcases cuts_cases h with ⟨-, -, hno⟩ | ⟨r, hs, -⟩
        · exact hno
        · exact absurd hs (by simp)
      · exact cuts_of_noCut
  | s :: t :: ss, _ => by
      have ih := cuts_intercalate_iff (List.cons_ne_nil t ss)
      rw [List.intercalate_cons_cons, List.append_assoc, List.singleton_append, Separable, ← ih]
      constructor
      · intro h
        rcases cuts_cases h with ⟨hnil, -⟩ | ⟨r, hs, hno, hdepth, hrest⟩
        · cases hnil
        · obtain ⟨-, rfl⟩ := List.cons.inj (List.append_cancel_left hs)
          rw [zero_add] at hdepth
          exact ⟨⟨hdepth, hno⟩, hrest.symm⟩
      · rintro ⟨⟨hdepth, hno⟩, hrest⟩
        rw [cuts_append_comma hdepth hno, hrest]

/-! ### Arguments with a space behind every comma -/

/-- The arguments with the spaces before them. -/
def spaced : List (List Char) → List (List Char)
  | [] => []
  | s :: ss => s :: ss.map (' ' :: ·)

theorem length_spaced (ss : List (List Char)) : (spaced ss).length = ss.length := by
  cases ss with
  | nil => rfl
  | cons s ss => rw [spaced, List.length_cons, List.length_map, List.length_cons]

theorem of_mem_spaced {s : List Char} : ∀ {ss : List (List Char)}, s ∈ spaced ss → ∃ t ∈ ss, s = t ∨ s = ' ' :: t
  | t :: ss, h => by
      rcases List.mem_cons.1 h with rfl | h
      · exact ⟨s, List.mem_cons_self .., Or.inl rfl⟩
      · obtain ⟨u, hu, rfl⟩ := List.mem_map.1 h
        exact ⟨u, List.mem_cons_of_mem t hu, Or.inr rfl⟩

theorem spaced_ne_nil {ss : List (List Char)} (h : ss ≠ []) : spaced ss ≠ [] := by
  rw [← List.length_pos_iff, length_spaced, List.length_pos_iff]
  exact h

theorem intercalate_cons_head (sep : List Char) (c : Char) (s : List Char) (ss : List (List Char)) :
    sep.intercalate ((c :: s) :: ss) = c :: sep.intercalate (s :: ss) := by
  cases ss with
  | nil => rw [List.intercalate_singleton, List.intercalate_singleton]
  | cons t ss => rw [List.intercalate_cons_cons, List.intercalate_cons_cons, List.cons_append, List.cons_append]

theorem intercalate_spaced : ∀ ss : List (List Char), [',', ' '].intercalate ss = [','].intercalate (spaced ss)
  | [] => rfl
  | [s] => rfl
  | s :: t :: ss => by
      have ih := intercalate_spaced (t :: ss)
      rw [spaced] at ih ⊢
      rw [List.map_cons, List.intercalate_cons_cons, List.intercalate_cons_cons, ih, intercalate_cons_head]
      simp

theorem noCut_space (hopening : b.opening ≠ ' ') (hclosing : b.closing ≠ ' ') {level : ℤ} {s : List Char} :
    NoCut b level (' ' :: s) ↔ NoCut b level s := by
  have hspace : depth b [' '] = 0 := depth_of_not_mem (by simpa using hopening) (by simpa using hclosing)
  constructor
  · intro h
    have := h.tail
    rwa [hspace, add_zero] at this
  · intro h p q hp
    cases p with
    | nil => exact absurd (List.cons.inj hp).1 (by decide)
    | cons x p =>
        obtain ⟨rfl, hs⟩ := List.cons.inj hp
        rw [depth_cons, hspace, zero_add]
        exact h p q hs

/-- The spaces do not change what can be separated. -/
theorem separable_spaced (hopening : b.opening ≠ ' ') (hclosing : b.closing ≠ ' ') :
    ∀ ss : List (List Char), Separable b (spaced ss) ↔ Separable b ss := by
  have hspace : depth b [' '] = 0 := depth_of_not_mem (by simpa using hopening) (by simpa using hclosing)
  have hrest : ∀ ss : List (List Char), Separable b (ss.map (' ' :: ·)) ↔ Separable b ss := by
    intro ss
    induction ss with
    | nil => rfl
    | cons s ss ih =>
        cases ss with
        | nil => exact noCut_space hopening hclosing
        | cons t ss =>
            rw [List.map_cons, List.map_cons, Separable, Separable, ← List.map_cons (f := (' ' :: ·)), ih,
              noCut_space hopening hclosing, depth_cons, hspace, zero_add]
  intro ss
  cases ss with
  | nil => rfl
  | cons s ss =>
      cases ss with
      | nil => rfl
      | cons t ss => rw [spaced, List.map_cons, Separable, Separable, ← List.map_cons (f := (' ' :: ·)), hrest]

/-! ### Counting commas -/

/-- The commas of the parts and those between them. -/
theorem count_intercalate : ∀ ss : List (List Char),
    ([','].intercalate ss).count ',' = (ss.map (List.count ',')).sum + (ss.length - 1)
  | [] => rfl
  | [s] => by simp
  | s :: t :: ss => by
      have ih := count_intercalate (t :: ss)
      rw [List.intercalate_cons_cons, List.count_append, List.count_append, ih]
      simp only [List.map_cons, List.sum_cons, List.length_cons, List.count_singleton_self]
      omega

theorem map_count_spaced (ss : List (List Char)) : (spaced ss).map (List.count ',') = ss.map (List.count ',') := by
  cases ss with
  | nil => rfl
  | cons s ss => simp [spaced, Function.comp_def]

theorem count_intercalate_spaced (ss : List (List Char)) :
    ([',', ' '].intercalate ss).count ',' = (ss.map (List.count ',')).sum + (ss.length - 1) := by
  rw [intercalate_spaced, count_intercalate, map_count_spaced, length_spaced]

theorem count_cuts (b : Kind) (s : List Char) :
    s.count ',' = ((cuts b 0 s).map (List.count ',')).sum + ((cuts b 0 s).length - 1) := by
  rw [← count_intercalate, intercalate_cuts]

theorem count_intercalate_le {ps qs : List (List Char)}
    (h : List.Forall₂ (fun p q => List.count ',' q ≤ List.count ',' p) ps qs) :
    ([','].intercalate qs).count ',' ≤ ([','].intercalate ps).count ',' := by
  have hsum : (qs.map (List.count ',')).sum ≤ (ps.map (List.count ',')).sum := by
    induction h with
    | nil => exact le_rfl
    | cons hpq _ ih =>
        rw [List.map_cons, List.map_cons, List.sum_cons, List.sum_cons]
        omega
  rw [count_intercalate, count_intercalate, h.length_eq]
  omega

/-- Two ways to cut a text at commas into as many parts are the same if the parts of the one have at least
the commas of the parts of the other. -/
theorem eq_of_intercalate_eq {ps qs : List (List Char)}
    (h : List.Forall₂ (fun p q => List.count ',' q ≤ List.count ',' p) ps qs) :
    [','].intercalate ps = [','].intercalate qs → ps = qs := by
  induction h with
  | nil => exact fun _ => rfl
  | @cons p q ps qs hpq hrest ih =>
      cases hrest with
      | nil => simp
      | @cons p' q' ps qs hpq' hrest =>
          have hcount := count_intercalate_le (List.Forall₂.cons hpq' hrest)
          rw [List.intercalate_cons_cons, List.intercalate_cons_cons]
          simp only [List.append_assoc, List.singleton_append]
          intro heq
          rcases List.append_eq_append_iff.1 heq with ⟨r, rfl, hr⟩ | ⟨r, rfl, hr⟩
          · cases r with
            | nil =>
                obtain ⟨-, htail⟩ := List.cons.inj hr
                rw [ih htail, List.append_nil]
            | cons c r =>
                obtain ⟨rfl, -⟩ := List.cons.inj hr
                simp at hpq
          · cases r with
            | nil =>
                obtain ⟨-, htail⟩ := List.cons.inj hr
                rw [ih htail.symm, List.append_nil]
            | cons c r =>
                obtain ⟨rfl, htail⟩ := List.cons.inj hr
                rw [htail, List.append_eq, List.count_append, List.count_cons_self] at hcount
                omega

end

end Brackets
