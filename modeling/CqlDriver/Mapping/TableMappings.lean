import Mathlib

/-! # Table mappings (`lib/mapping/table-mappings.js`)

`UnderscoreCqlToCamelCaseMappings` takes a column name in snake case to a property name in camel case
and a property name back to a column name.  Both directions replace the matches of an expression of two
characters.  The way there removes each underscore and marks it by a capital letter; the way back needs
a small letter in front of the capital that no other match has taken.  A part that ends in a digit does
not give one, and neither does a part of one letter after the first
(`getColumnName_getPropertyName_iff`). -/

namespace CqlDriver.Mapping

/-- `s.replace(re, f)` for a global expression of two classes of characters: the matches are found from
the left and do not overlap; the function gets the offset of the match and its characters. -/
def replacePairs (p q : Char → Bool) (f : ℕ → Char → Char → List Char) : ℕ → List Char → List Char
  | offset, a :: b :: cs =>
      if p a && q b then f offset a b ++ replacePairs p q f (offset + 2) cs
      else a :: replacePairs p q f (offset + 1) (b :: cs)
  | _, cs => cs

section replacePairs

variable {p q : Char → Bool} {f : ℕ → Char → Char → List Char}

theorem replacePairs_match {a b : Char} (ha : p a = true) (hb : q b = true) (offset : ℕ) (cs : List Char) :
    replacePairs p q f offset (a :: b :: cs) = f offset a b ++ replacePairs p q f (offset + 2) cs := by
  rw [replacePairs, ha, hb, Bool.and_true, if_pos rfl]

/-- A character that starts no match. -/
theorem replacePairs_cons {a : Char} {cs : List Char} (h : p a = true → cs.head?.any q = false) (offset : ℕ) :
    replacePairs p q f offset (a :: cs) = a :: replacePairs p q f (offset + 1) cs := by
  cases cs with
  | nil => rw [replacePairs, replacePairs] <;> simp
  | cons b cs =>
      rw [replacePairs, if_neg]
      rw [Bool.and_eq_true]
      rintro ⟨ha, hb⟩
      have := h ha
      simp only [List.head?_cons, Option.any_some] at this
      rw [this] at hb
      cases hb

theorem replacePairs_append {w cs : List Char} (hw : ∀ a ∈ w, p a = false) : ∀ offset : ℕ,
    replacePairs p q f offset (w ++ cs) = w ++ replacePairs p q f (offset + w.length) cs := by
  induction w with
  | nil => exact fun _ => rfl
  | cons a w ih =>
      intro offset
      have ha := hw a (List.mem_cons_self ..)
      rw [List.cons_append, replacePairs_cons (by simp [ha]), ih fun x hx => hw x (List.mem_cons_of_mem _ hx),
        List.length_cons, Nat.add_right_comm, Nat.add_assoc]
      rfl

end replacePairs

namespace UnderscoreCqlToCamelCaseMappings

/-- The replacement of `[a-z][A-Z]`. -/
def separate (_offset : ℕ) (a b : Char) : List Char := [a, '_', b]

/-- Converts a property name in camel case to snake case.  Lower case is that of ASCII. -/
def getColumnName (propName : List Char) : List Char :=
  (replacePairs Char.isLower Char.isUpper separate 0 propName).map Char.toLower

def isUnderscore (c : Char) : Bool := c == '_'

/-- The replacement of `_[a-z]`. -/
def join (offset : ℕ) (a b : Char) : List Char := if offset = 0 then [a, b] else [b.toUpper]

/-- Converts a column name in snake case to camel case. -/
def getPropertyName (columnName : List Char) : List Char :=
  replacePairs isUnderscore Char.isLower join 0 columnName

/-! ### Names in snake case -/

/-- Small letters and digits, a letter first. -/
def isPart : List Char → Bool
  | [] => false
  | c :: cs => c.isLower && cs.all fun x => x.isLower || x.isDigit

/-- A column name in parts, which single underscores separate. -/
structure SnakeName where
  first : List Char
  rest : List (List Char)
  first_isPart : isPart first = true
  rest_isPart : ∀ p ∈ rest, isPart p = true

def SnakeName.parts (c : SnakeName) : List (List Char) := c.first :: c.rest

def SnakeName.text (c : SnakeName) : List Char := ['_'].intercalate c.parts

def endsInLetter (p : List Char) : Bool := p.getLast?.any Char.isLower

@[simp] theorem endsInLetter_cons_cons (a b : Char) (w : List Char) :
    endsInLetter (a :: b :: w) = endsInLetter (b :: w) := by
  simp only [endsInLetter, List.getLast?_cons_cons]

/-- Small letters and digits. -/
def Plain (w : List Char) : Prop := ∀ x ∈ w, x.isLower = true ∨ x.isDigit = true

theorem isPart_iff {p : List Char} : isPart p = true ↔ ∃ c cs, p = c :: cs ∧ c.isLower = true ∧ Plain cs := by
  cases p with
  | nil => simp [isPart]
  | cons c cs => simp [isPart, Plain]

theorem Plain.of_isPart {p : List Char} (h : isPart p = true) : Plain p := by
  obtain ⟨c, cs, rfl, hc, hcs⟩ := isPart_iff.1 h
  intro x hx
  rcases List.mem_cons.1 hx with rfl | hx
  · exact .inl hc
  · exact hcs x hx

/-! ### Characters -/

theorem lower_spec {c : Char} (h : c.isLower = true) :
    isUnderscore c = false ∧ c.isUpper = false ∧ c.toLower = c ∧ c.toUpper.isUpper = true ∧
      c.toUpper.isLower = false ∧ c.toUpper.toLower = c := by
  have hall : ∀ n < 128, (Char.ofNat n).isLower = true → isUnderscore (Char.ofNat n) = false ∧
      (Char.ofNat n).isUpper = false ∧ (Char.ofNat n).toLower = Char.ofNat n ∧
      (Char.ofNat n).toUpper.isUpper = true ∧ (Char.ofNat n).toUpper.isLower = false ∧
      (Char.ofNat n).toUpper.toLower = Char.ofNat n := by
    decide +kernel
  have hlt : c.toNat < 128 := by
    simp only [Char.isLower, Bool.and_eq_true, decide_eq_true_eq] at h
    have : c.toNat ≤ 122 := h.2
    omega
  have := hall c.toNat hlt
  rw [Char.ofNat_toNat] at this
  exact this h

theorem digit_spec {c : Char} (h : c.isDigit = true) :
    isUnderscore c = false ∧ c.isUpper = false ∧ c.toLower = c := by
  have hall : ∀ n < 128, (Char.ofNat n).isDigit = true → isUnderscore (Char.ofNat n) = false ∧
      (Char.ofNat n).isUpper = false ∧ (Char.ofNat n).toLower = Char.ofNat n := by
    decide +kernel
  have hlt : c.toNat < 128 := by
    simp only [Char.isDigit, Bool.and_eq_true, decide_eq_true_eq] at h
    have : c.toNat ≤ 57 := h.2
    omega
  have := hall c.toNat hlt
  rw [Char.ofNat_toNat] at this
  exact this h

section Plain

variable {w : List Char} (h : Plain w)
include h

theorem Plain.spec {x : Char} (hx : x ∈ w) : isUnderscore x = false ∧ x.isUpper = false ∧ x.toLower = x := by
  rcases h x hx with hl | hd
  · obtain ⟨h₁, h₂, h₃, -⟩ := lower_spec hl
    exact ⟨h₁, h₂, h₃⟩
  · exact digit_spec hd

theorem Plain.map_toLower : w.map Char.toLower = w := by
  rw [List.map_congr_left fun x hx => (h.spec hx).2.2, List.map_id']

theorem Plain.tail {a : Char} {v : List Char} (hw : w = a :: v) : Plain v :=
  fun x hx => h x (hw ▸ List.mem_cons_of_mem _ hx)

end Plain

/-! ### The property name -/

def capitalize : List Char → List Char
  | [] => []
  | c :: cs => c.toUpper :: cs

theorem intercalate_cons_part {w t : List Char} (b : Char) (ps : List (List Char)) :
    ['_'].intercalate (w :: (b :: t) :: ps) = w ++ '_' :: b :: ['_'].intercalate (t :: ps) := by
  cases ps <;> simp [List.intercalate]

theorem replacePairs_underscores {ps : List (List Char)} (hps : ∀ p ∈ ps, isPart p = true) :
    ∀ {w : List Char} {offset : ℕ}, Plain w → 0 < offset + w.length →
      replacePairs isUnderscore Char.isLower join offset (['_'].intercalate (w :: ps)) =
        w ++ ps.flatMap capitalize := by
  induction ps with
  | nil =>
      intro w offset hw _
      have : replacePairs isUnderscore Char.isLower join offset (w ++ []) = w ++ [] := by
        rw [replacePairs_append (fun x hx => (hw.spec hx).1) offset]
        rfl
      simpa [List.intercalate] using this
  | cons p ps ih =>
      intro w offset hw hpos
      obtain ⟨b, t, rfl, hb, ht⟩ := isPart_iff.1 (hps p (List.mem_cons_self ..))
      rw [intercalate_cons_part, replacePairs_append fun x hx => (hw.spec hx).1,
        replacePairs_match rfl hb, join, if_neg (by omega),
        ih (fun p hp => hps p (List.mem_cons_of_mem _ hp)) ht (by omega), List.flatMap_cons, capitalize]
      rfl

theorem getPropertyName_text (c : SnakeName) :
    getPropertyName c.text = c.first ++ c.rest.flatMap capitalize := by
  obtain ⟨a, t, ha, -, -⟩ := isPart_iff.1 c.first_isPart
  apply replacePairs_underscores c.rest_isPart (Plain.of_isPart c.first_isPart)
  rw [ha, List.length_cons]
  omega

/-! ### The column name -/

/-- The name that comes back for the rest `w` of a part and the parts behind it: there is an underscore
where `w` has a letter left. -/
def rejoin : List Char → List (List Char) → List Char
  | w, [] => w
  | w, p :: ps => w ++ (if endsInLetter w then ['_'] else []) ++ p.take 1 ++ rejoin p.tail ps

/-- Every underscore comes back. -/
def Kept : List Char → List (List Char) → Prop
  | _, [] => True
  | w, p :: ps => endsInLetter w = true ∧ Kept p.tail ps

theorem replacePairs_hump {w : List Char} {b : Char} (rest : List Char) (hw : Plain w) (hb : b.isUpper = true)
    (hb' : b.isLower = false) : ∀ offset : ℕ, ∃ offset',
    replacePairs Char.isLower Char.isUpper separate offset (w ++ b :: rest) =
      w ++ (if endsInLetter w then ['_'] else []) ++
        b :: replacePairs Char.isLower Char.isUpper separate offset' rest := by
  induction w with
  | nil =>
      intro offset
      refine ⟨offset + 1, ?_⟩
      rw [List.nil_append, replacePairs_cons (by simp [hb'])]
      rfl
  | cons a w ih =>
      intro offset
      cases w with
      | nil =>
          rcases Bool.eq_false_or_eq_true a.isLower with ha | ha
          · refine ⟨offset + 2, ?_⟩
            rw [List.cons_append, List.nil_append, replacePairs_match ha hb]
            simp [endsInLetter, separate, ha]
          · refine ⟨offset + 1 + 1, ?_⟩
            rw [List.cons_append, List.nil_append, replacePairs_cons (by simp [ha]),
              replacePairs_cons (by simp [hb'])]
            simp [endsInLetter, ha]
      | cons a' w =>
          obtain ⟨offset', h⟩ := ih (hw.tail rfl) (offset + 1)
          refine ⟨offset', ?_⟩
          have ha' := (hw.spec (x := a') (by simp)).2.1
          rw [List.cons_append, replacePairs_cons (by simp [ha']), h, endsInLetter_cons_cons]
          simp

theorem replacePairs_humps {ps : List (List Char)} (hps : ∀ p ∈ ps, isPart p = true) :
    ∀ {w : List Char} (offset : ℕ), Plain w →
      (replacePairs Char.isLower Char.isUpper separate offset
        (w ++ ps.flatMap capitalize)).map Char.toLower = rejoin w ps := by
  induction ps with
  | nil =>
      intro w offset hw
      -- no capital, no match
      have hnone : ∀ {v : List Char} (offset : ℕ), Plain v →
          replacePairs Char.isLower Char.isUpper separate offset v = v := by
        intro v
        induction v with
        | nil => exact fun _ _ => rfl
        | cons a v ih =>
            intro offset hv
            have hv' := hv.tail rfl
            rw [replacePairs_cons, ih _ hv']
            intro _
            cases v with
            | nil => rfl
            | cons b v => simpa using (hv.spec (x := b) (by simp)).2.1
      rw [List.flatMap_nil, List.append_nil, hnone offset hw, hw.map_toLower, rejoin]
  | cons p ps ih =>
      intro w offset hw
      obtain ⟨b, t, rfl, hb, ht⟩ := isPart_iff.1 (hps p (List.mem_cons_self ..))
      obtain ⟨-, -, -, hup, hlow, hback⟩ := lower_spec hb
      obtain ⟨offset', h⟩ := replacePairs_hump (t ++ ps.flatMap capitalize) hw hup hlow offset
      have htail := ih (fun p hp => hps p (List.mem_cons_of_mem _ hp)) offset' ht
      rw [List.flatMap_cons, capitalize, List.cons_append, h]
      simp only [List.map_append, List.map_cons, htail, hback, hw.map_toLower, rejoin, List.tail_cons]
      cases endsInLetter w <;> simp

theorem getColumnName_getPropertyName (c : SnakeName) :
    getColumnName (getPropertyName c.text) = rejoin c.first c.rest := by
  unfold getColumnName
  rw [getPropertyName_text]
  exact replacePairs_humps c.rest_isPart 0 (Plain.of_isPart c.first_isPart)

theorem length_rejoin_le {ps : List (List Char)} (hps : ∀ p ∈ ps, isPart p = true) :
    ∀ w : List Char, (rejoin w ps).length ≤ (['_'].intercalate (w :: ps)).length := by
  induction ps with
  | nil => simp [rejoin, List.intercalate]
  | cons p ps ih =>
      intro w
      obtain ⟨b, t, rfl, -, -⟩ := isPart_iff.1 (hps p (List.mem_cons_self ..))
      have := ih (fun p hp => hps p (List.mem_cons_of_mem _ hp)) t
      rw [intercalate_cons_part, rejoin]
      simp only [List.length_append, List.length_cons, List.tail_cons, List.take_succ_cons, List.take_zero,
        List.length_nil]
      split <;> simp <;> omega

/-- A lost underscore makes the name shorter, and nothing makes up for it. -/
theorem rejoin_eq_iff {ps : List (List Char)} (hps : ∀ p ∈ ps, isPart p = true) :
    ∀ w : List Char, rejoin w ps = ['_'].intercalate (w :: ps) ↔ Kept w ps := by
  induction ps with
  | nil => simp [rejoin, List.intercalate, Kept]
  | cons p ps ih =>
      intro w
      obtain ⟨b, t, rfl, -, -⟩ := isPart_iff.1 (hps p (List.mem_cons_self ..))
      have hps' : ∀ p ∈ ps, isPart p = true := fun p hp => hps p (List.mem_cons_of_mem _ hp)
      rw [intercalate_cons_part, rejoin, Kept, List.tail_cons, ← ih hps' t]
      cases hw : endsInLetter w with
      | true => simp
      | false =>
          refine iff_of_false (fun h => ?_) (by simp)
          have hlen := congrArg List.length h
          have := length_rejoin_le hps' t
          simp at hlen
          omega

theorem endsInLetter_tail {p : List Char} (h : isPart p = true) :
    endsInLetter p.tail = true ↔ endsInLetter p = true ∧ 2 ≤ p.length := by
  obtain ⟨b, t, rfl, -, -⟩ := isPart_iff.1 h
  cases t with
  | nil => simp [endsInLetter]
  | cons a t => simp

theorem kept_iff {ps : List (List Char)} (hps : ∀ p ∈ ps, isPart p = true) : ∀ w : List Char,
    Kept w ps ↔ (ps ≠ [] → endsInLetter w = true) ∧
      ∀ p ∈ ps.dropLast, endsInLetter p = true ∧ 2 ≤ p.length := by
  induction ps with
  | nil => simp [Kept]
  | cons p ps ih =>
      intro w
      have hp := hps p (List.mem_cons_self ..)
      rw [Kept, ih fun p hp => hps p (List.mem_cons_of_mem _ hp), endsInLetter_tail hp]
      cases ps with
      | nil => simp
      | cons q ps => simp [and_assoc]

/-- A name comes back exactly when each part but the last ends in a letter and the parts between the
first and the last have more than one character. -/
theorem getColumnName_getPropertyName_iff (c : SnakeName) :
    getColumnName (getPropertyName c.text) = c.text ↔
      (∀ p ∈ c.parts.dropLast, endsInLetter p = true) ∧ ∀ p ∈ c.rest.dropLast, 2 ≤ p.length := by
  rw [getColumnName_getPropertyName, SnakeName.text, SnakeName.parts, rejoin_eq_iff c.rest_isPart,
    kept_iff c.rest_isPart]
  cases hrest : c.rest with
  | nil => simp
  | cons p ps =>
      simp only [ne_eq, reduceCtorEq, not_false_eq_true, true_imp_iff, List.dropLast_cons_cons,
        List.forall_mem_cons]
      constructor
      · rintro ⟨hfirst, h⟩
        exact ⟨⟨hfirst, fun p hp => (h p hp).1⟩, fun p hp => (h p hp).2⟩
      · rintro ⟨⟨hfirst, h⟩, hlen⟩
        exact ⟨hfirst, fun p hp => ⟨h p hp, hlen p hp⟩⟩

/-- The second underscore of `a_b_c` is lost, since the match of the first took the letter in front of it,
and that of `a1_b`, since there is a digit in front of it. -/
theorem not_forall_getColumnName_getPropertyName :
    ¬ (∀ c : SnakeName, getColumnName (getPropertyName c.text) = c.text) ∧
      getPropertyName "a_b_c".toList = "aBC".toList ∧ getColumnName "aBC".toList = "a_bc".toList ∧
      getPropertyName "a1_b".toList = "a1B".toList ∧ getColumnName "a1B".toList = "a1b".toList := by
  refine ⟨fun h => ?_, by decide, by decide, by decide, by decide⟩
  have := h ⟨['a'], [['b'], ['c']], by decide, by decide⟩
  exact absurd this (by decide)

end UnderscoreCqlToCamelCaseMappings
end CqlDriver.Mapping
