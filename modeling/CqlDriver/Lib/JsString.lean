import Mathlib.Data.List.DropRight
import Mathlib.Tactic

/-! # Strings of JavaScript

Texts are lists of characters.  `substr`, `indexOf` and `trim` follow the methods of the same names. -/

namespace JsString

/-- The white space of `\s`, which `trim` removes. -/
def isSpace (c : Char) : Bool :=
  (9 ≤ c.toNat && c.toNat ≤ 13) || (0x2000 ≤ c.toNat && c.toNat ≤ 0x200a) ||
    [0x20, 0xa0, 0x1680, 0x2028, 0x2029, 0x202f, 0x205f, 0x3000, 0xfeff].contains c.toNat

def trim (s : List Char) : List Char := (s.dropWhile isSpace).rdropWhile isSpace

def substr (s : List Char) (start length : ℕ) : List Char := (s.drop start).take length

/-- `s.indexOf(sub, i) === i` -/
def startsAt (s sub : List Char) (i : ℕ) : Bool := sub.isPrefixOf (s.drop i)

/-- `s.indexOf(sub)`, if it is not negative. -/
def indexOf (s sub : List Char) : Option ℕ := (List.range (s.length + 1)).find? fun i => startsAt s sub i

/-- `s.replace(sub, new)`, which replaces the first occurrence of a text that is not empty. -/
def replace (s sub new : List Char) : List Char :=
  match s with
  | [] => []
  | c :: cs => if sub.isPrefixOf (c :: cs) then new ++ (c :: cs).drop sub.length else c :: replace cs sub new

/-- No white space at the ends. -/
def Trimmed (s : List Char) : Prop :=
  (∀ c, s.head? = some c → isSpace c = false) ∧ ∀ c, s.getLast? = some c → isSpace c = false

theorem trimmed_of_forall {s : List Char} (h : ∀ c ∈ s, isSpace c = false) : Trimmed s :=
  ⟨fun c hc => h c (List.mem_of_head? hc), fun c hc => h c (List.mem_of_getLast? hc)⟩

theorem isSpace_of_isDigit {c : Char} (h : c.isDigit = true) : isSpace c = false := by
  have hrange : 48 ≤ c.toNat ∧ c.toNat ≤ 57 := by
    simp only [Char.isDigit, Bool.and_eq_true, decide_eq_true_eq, ge_iff_le, UInt32.le_iff_toNat_le] at h
    exact h
  rw [isSpace]
  simp
  omega

theorem isDigit_of_mem {n : ℕ} {c : Char} (h : c ∈ Nat.toDigits 10 n) : c.isDigit = true :=
  Nat.isDigit_of_mem_toDigits (by norm_num) (by norm_num) h

theorem rdropWhile_eq {s : List Char} (h : ∀ c, s.getLast? = some c → isSpace c = false) :
    s.rdropWhile isSpace = s := by
  cases s using List.reverseRecOn with
  | nil => rfl
  | append_singleton r c => rw [List.rdropWhile_concat_neg _ _ _ (by simp [h c (by simp)])]

theorem trim_eq {s : List Char} (h : Trimmed s) : trim s = s := by
  have hfront : s.dropWhile isSpace = s := by
    cases s with
    | nil => rfl
    | cons c r => rw [List.dropWhile_cons_of_neg (by simp [h.1 c rfl])]
  rw [trim, hfront, rdropWhile_eq h.2]

theorem trim_space_cons {s : List Char} (h : Trimmed s) : trim (' ' :: s) = s := by
  have hspace : (' ' :: s).dropWhile isSpace = s.dropWhile isSpace := List.dropWhile_cons_of_pos (by decide)
  rw [trim, hspace]
  exact trim_eq h

theorem trim_sublist (s : List Char) : (trim s).Sublist s :=
  (List.rdropWhile_prefix isSpace (s.dropWhile isSpace)).sublist.trans (List.dropWhile_sublist isSpace)

theorem substr_append (pre s post : List Char) : substr (pre ++ s ++ post) pre.length s.length = s := by
  rw [substr, List.append_assoc, List.drop_left, List.take_left]

theorem startsAt_append (pre s sub : List Char) : startsAt (pre ++ s) sub pre.length = sub.isPrefixOf s := by
  rw [startsAt, List.drop_left]

theorem startsAt_of_indexOf {s sub : List Char} {i : ℕ} (h : indexOf s sub = some i) : startsAt s sub i = true :=
  List.find?_some (p := fun i => startsAt s sub i) h

theorem indexOf_eq_zero {s sub : List Char} (h : sub.isPrefixOf s = true) : indexOf s sub = some 0 := by
  rw [indexOf, List.range_succ_eq_map, List.find?_cons_of_pos (by simpa [startsAt] using h)]

theorem indexOf_cons (a : Char) (s sub : List Char) :
    indexOf (a :: s) sub = if sub.isPrefixOf (a :: s) = true then some 0 else (indexOf s sub).map (· + 1) := by
  rw [indexOf, List.range_succ_eq_map, List.find?_cons, startsAt, List.drop_zero, List.find?_map]
  split_ifs with h
  · rw [h]
  · rw [Bool.not_eq_true] at h
    rw [h]
    rfl

theorem indexOf_char_append {c : Char} {s : List Char} (h : c ∉ s) (t : List Char) :
    indexOf (s ++ c :: t) [c] = some s.length := by
  induction s with
  | nil => exact indexOf_eq_zero (by simp)
  | cons d s ih =>
      obtain ⟨hd, hs⟩ := not_or.1 (List.mem_cons.not.1 h)
      rw [List.cons_append, indexOf_cons, if_neg (by simpa using hd), ih hs]
      rfl

theorem indexOf_char_eq_none {c : Char} {s : List Char} (h : c ∉ s) : indexOf s [c] = none := by
  induction s with
  | nil => rfl
  | cons d s ih =>
      obtain ⟨hd, hs⟩ := not_or.1 (List.mem_cons.not.1 h)
      rw [indexOf_cons, if_neg (by simpa using hd), ih hs]
      rfl

/-- The pieces between separators have the other characters of the text. -/
theorem of_mem_splitOn {a c : Char} {s piece : List Char} (h : piece ∈ s.splitOn a) (hc : c ∈ piece) :
    c ∈ s ∧ c ≠ a := by
  induction s generalizing piece with
  | nil =>
      obtain rfl := List.mem_singleton.1 h
      cases hc
  | cons x s ih =>
      rw [List.splitOn_cons_eq_if_modifyHead] at h
      split_ifs at h with hx
      · obtain rfl | h := List.mem_cons.1 h
        · cases hc
        · exact ⟨List.mem_cons_of_mem x (ih h hc).1, (ih h hc).2⟩
      · obtain ⟨y, ys, hys⟩ := List.exists_cons_of_ne_nil (List.splitOn_ne_nil a s)
        rw [hys, List.modifyHead_cons] at h
        obtain rfl | h := List.mem_cons.1 h
        · obtain rfl | hc := List.mem_cons.1 hc
          · exact ⟨List.mem_cons_self .., by simpa using hx⟩
          · obtain ⟨hs, hne⟩ := ih (by rw [hys]; exact List.mem_cons_self ..) hc
            exact ⟨List.mem_cons_of_mem x hs, hne⟩
        · obtain ⟨hs, hne⟩ := ih (by rw [hys]; exact List.mem_cons_of_mem y h) hc
          exact ⟨List.mem_cons_of_mem x hs, hne⟩

theorem mem_intercalate {sep : List Char} {c : Char} : ∀ {ss : List (List Char)}, c ∈ sep.intercalate ss →
    c ∈ sep ∨ ∃ s ∈ ss, c ∈ s
  | [], h => by simp at h
  | [s], h => by
      rw [List.intercalate_singleton] at h
      exact Or.inr ⟨s, by simp, h⟩
  | s :: t :: ss, h => by
      rw [List.intercalate_cons_cons, List.mem_append, List.mem_append] at h
      rcases h with (h | h) | h
      · exact Or.inr ⟨s, by simp, h⟩
      · exact Or.inl h
      · exact (mem_intercalate h).imp_right fun ⟨u, hu, hc⟩ => ⟨u, List.mem_cons_of_mem s hu, hc⟩

theorem mem_intercalate_of_mem (sep : List Char) {s : List Char} {c : Char} : ∀ {ss : List (List Char)}, s ∈ ss →
    c ∈ s → c ∈ sep.intercalate ss
  | [t], hs, hc => by
      rw [List.intercalate_singleton]
      rwa [List.mem_singleton.1 hs] at hc
  | t :: u :: ss, hs, hc => by
      rw [List.intercalate_cons_cons, List.mem_append, List.mem_append]
      rcases List.mem_cons.1 hs with rfl | hs
      · exact Or.inl (Or.inl hc)
      · exact Or.inr (mem_intercalate_of_mem sep hs hc)

theorem length_le_intercalate (sep : List Char) {s : List Char} : ∀ {ss : List (List Char)}, s ∈ ss →
    s.length ≤ (sep.intercalate ss).length
  | [t], h => by
      rw [List.intercalate_singleton, List.mem_singleton.1 h]
  | t :: u :: ss, h => by
      rw [List.intercalate_cons_cons, List.length_append, List.length_append]
      rcases List.mem_cons.1 h with rfl | h
      · omega
      · have := length_le_intercalate sep h
        omega

theorem idxOf?_append_cons {s : List Char} {c : Char} (h : c ∉ s) (t : List Char) :
    (s ++ c :: t).idxOf? c = some s.length := by
  induction s with
  | nil => simp [List.idxOf?_cons]
  | cons d s ih =>
      obtain ⟨hd, hs⟩ := not_or.1 (List.mem_cons.not.1 h)
      rw [List.cons_append, List.idxOf?_cons, ih hs, beq_eq_false_iff_ne.2 (Ne.symm hd)]
      rfl

/-- Of two texts that are no prefixes of each other, one is no prefix of a continuation of the other. -/
theorem isPrefixOf_append_false {a b : List Char} (hab : a.isPrefixOf b = false) (hba : b.isPrefixOf a = false)
    (r : List Char) : a.isPrefixOf (b ++ r) = false := by
  rw [Bool.eq_false_iff, Ne, List.isPrefixOf_iff_prefix] at hab hba ⊢
  intro h
  rcases List.prefix_or_prefix_of_prefix h (List.prefix_append b r) with h | h
  · exact hab h
  · exact hba h

end JsString
