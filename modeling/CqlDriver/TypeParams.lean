import CqlDriver.Lib.Brackets
import CqlDriver.Lib.Fallible
import CqlDriver.Lib.JsString

/-! # Parameters of a type name (`lib/encoder.js`)

`parseParams` walks over a window of a type name and cuts it at the commas that are not inside brackets.
On a window of the name it returns the `cuts` of the text in the window. -/

namespace CqlDriver

open Brackets JsString

/-- A `TypeError` with its message. -/
inductive TypeNameError where
  | typeError (message : List Char)

/-- `Not a valid type ` and the name. -/
def notValid (typeName : List Char) : TypeNameError := .typeError ("Not a valid type ".toList ++ typeName)

/-- The same with the name in quotes. -/
def notValidQuoted (typeName : List Char) : TypeNameError :=
  .typeError ("Not a valid type \"".toList ++ typeName ++ ['"'])

/-- The loop of `parseParams` over `n` characters from the index `i` on; returns the types found and where
the last one starts. -/
def parseParamsLoop (value : List Char) (b : Brackets.Kind) : ℕ → ℕ → ℕ → ℤ → List (List Char) → List (List Char) × ℕ
  | 0, _, paramStart, _, types => (types, paramStart)
  | n + 1, i, paramStart, level, types =>
      let c := value[i]?
      let level := if c = some b.opening then level + 1 else level
      let level := if c = some b.closing then level - 1 else level
      if level = 0 ∧ c = some ',' then
        parseParamsLoop value b n (i + 1) (i + 1) level (types ++ [substr value paramStart (i - paramStart)])
      else parseParamsLoop value b n (i + 1) paramStart level types

def parseParams (value : List Char) (startIndex length : ℕ) (b : Brackets.Kind) : List (List Char) :=
  let r := parseParamsLoop value b length startIndex startIndex 0 []
  r.1 ++ [substr value r.2 (length - (r.2 - startIndex))]

/-- `parseInt(text, 10)`, which is `none` when there is no digit. -/
def parseInt (text : List Char) : Option ℤ :=
  let digits (s : List Char) : Option ℕ :=
    if s.takeWhile Char.isDigit = [] then none else some (Nat.ofDigitChars 10 (s.takeWhile Char.isDigit) 0)
  match text.dropWhile isSpace with
  | '-' :: s => (digits s).map fun n => -n
  | '+' :: s => (digits s).map Int.ofNat
  | s => (digits s).map Int.ofNat

/-- The subtype and the dimension of a vector.  The arguments are looked for behind the leading string at
the start of the name, and are taken apart by parentheses. -/
def parseVectorTypeArgs {α : Type} (typeName stringToExclude : List Char)
    (subtypeResolveFn : List Char → Except TypeNameError α) : Except TypeNameError (α × Option ℤ) :=
  let argsStartIndex := stringToExclude.length + 1
  let argsLength := typeName.length - (stringToExclude.length + 2)
  match parseParams typeName argsStartIndex argsLength paren with
  | [subtype, dimension] => do
      let info ← subtypeResolveFn (trim subtype)
      return (info, parseInt (trim dimension))
  | _ => .error (notValid typeName)

/-- The level after a character, as the two tests compute it. -/
theorem level_eq (b : Brackets.Kind) (level : ℤ) (c : Char) :
    (if some c = some b.closing then (if some c = some b.opening then level + 1 else level) - 1
      else if some c = some b.opening then level + 1 else level) = level + depth b [c] := by
  by_cases ho : c = b.opening
  · have hc : c ≠ b.closing := fun h => b.ne (ho.symm.trans h)
    rw [if_neg (by simpa using hc), if_pos (by simpa using ho), ho, depth_opening]
  · by_cases hc : c = b.closing
    · rw [if_pos (by simpa using hc), if_neg (by simpa using ho), hc, depth_closing]
      rfl
    · rw [if_neg (by simpa using hc), if_neg (by simpa using ho),
        depth_of_not_mem (by simpa using Ne.symm ho) (by simpa using Ne.symm hc), add_zero]

theorem substr_succ {s : List Char} {p i : ℕ} {c : Char} (hp : p ≤ i) (hc : s[i]? = some c) :
    substr s p (i + 1 - p) = substr s p (i - p) ++ [c] := by
  have hget : (s.drop p)[i - p]? = some c := by rw [List.getElem?_drop, Nat.add_sub_cancel' hp, hc]
  rw [substr, substr, show i + 1 - p = i - p + 1 by omega, List.take_add_one, hget]
  rfl

theorem substr_self (s : List Char) (i : ℕ) : substr s i 0 = [] := List.take_zero

/-- What the loop has found and what is left, in terms of the cuts of the rest of the window. -/
theorem parseParamsLoop_spec (value : List Char) (b : Brackets.Kind) : ∀ (n i p : ℕ) (level : ℤ) (types : List (List Char)),
    p ≤ i → i + n ≤ value.length →
    (parseParamsLoop value b n i p level types).1 ++
        [substr value (parseParamsLoop value b n i p level types).2
          (i + n - (parseParamsLoop value b n i p level types).2)] =
      types ++ (cuts b level (substr value i n)).modifyHead (substr value p (i - p) ++ ·)
  | 0, i, p, level, types, hp, _ => by
      rw [parseParamsLoop, substr_self, cuts]
      simp
  | n + 1, i, p, level, types, hp, hn => by
      have hc : value[i]? = some value[i] := List.getElem?_eq_getElem (by omega)
      have hrest : substr value i (n + 1) = value[i] :: substr value (i + 1) n := by
        rw [substr, List.drop_eq_getElem_cons (by omega), List.take_succ_cons, substr]
      rw [parseParamsLoop]
      simp only [hc, level_eq]
      rw [hrest, cuts]
      by_cases hcut : level + depth b [value[i]] = 0 ∧ value[i] = ','
      · rw [if_pos ⟨hcut.1, congrArg some hcut.2⟩, if_pos hcut]
        have ih := parseParamsLoop_spec value b n (i + 1) (i + 1) (level + depth b [value[i]])
          (types ++ [substr value p (i - p)]) le_rfl (by omega)
        rw [show i + 1 + n = i + (n + 1) by omega] at ih
        rw [ih, Nat.sub_self, substr_self]
        obtain ⟨u, us, hu⟩ := List.exists_cons_of_ne_nil
          (cuts_ne_nil (b := b) (level + depth b [value[i]]) (substr value (i + 1) n))
        simp [hu]
      · rw [if_neg (fun h => hcut ⟨h.1, Option.some.inj h.2⟩), if_neg hcut]
        have ih := parseParamsLoop_spec value b n (i + 1) p (level + depth b [value[i]]) types (by omega) (by omega)
        rw [show i + 1 + n = i + (n + 1) by omega] at ih
        rw [ih, substr_succ hp hc]
        obtain ⟨u, us, hu⟩ := List.exists_cons_of_ne_nil
          (cuts_ne_nil (b := b) (level + depth b [value[i]]) (substr value (i + 1) n))
        simp [hu]

theorem parseParamsLoop_start (value : List Char) (b : Brackets.Kind) : ∀ (n i p : ℕ) (level : ℤ) (types : List (List Char)),
    p ≤ i → p ≤ (parseParamsLoop value b n i p level types).2
  | 0, i, p, level, types, hp => le_rfl
  | n + 1, i, p, level, types, hp => by
      have hcut := parseParamsLoop_start value b n (i + 1) (i + 1)
      have hkeep := parseParamsLoop_start value b n (i + 1) p
      rw [parseParamsLoop]
      refine iteInduction (motive := fun r : List (List Char) × ℕ => p ≤ r.2) (fun _ => ?_) (fun _ => ?_)
      · exact (Nat.le_succ_of_le hp).trans (hcut _ _ le_rfl)
      · exact hkeep _ _ (by omega)

/-- The parameters are the parts of the window between its outer commas. -/
theorem parseParams_eq {value : List Char} {startIndex length : ℕ} (h : startIndex + length ≤ value.length) (b : Brackets.Kind) :
    parseParams value startIndex length b = cuts b 0 (substr value startIndex length) := by
  have hspec := parseParamsLoop_spec value b length startIndex startIndex 0 [] le_rfl h
  have hstart := parseParamsLoop_start value b length startIndex startIndex 0 [] le_rfl
  rw [parseParams]
  rw [show length - ((parseParamsLoop value b length startIndex startIndex 0 []).2 - startIndex) =
    startIndex + length - (parseParamsLoop value b length startIndex startIndex 0 []).2 by omega, hspec,
    Nat.sub_self, substr_self]
  obtain ⟨u, us, hu⟩ := List.exists_cons_of_ne_nil (cuts_ne_nil (b := b) 0 (substr value startIndex length))
  simp [hu]

/-- The window is a part of the text that is given. -/
theorem parseParams_append (pre s post : List Char) (b : Brackets.Kind) :
    parseParams (pre ++ s ++ post) pre.length s.length b = cuts b 0 s := by
  rw [parseParams_eq (by simp), substr_append]

/-- The parameters behind a name and an opening bracket, and before a closing one. -/
theorem parseParams_between (front name s back : List Char) (o c : Char) (b : Brackets.Kind) :
    parseParams (front ++ (name ++ o :: s ++ [c]) ++ back) (front.length + (name.length + 1))
        ((name ++ o :: s ++ [c]).length - (name.length + 2)) b = cuts b 0 s := by
  have htext : front ++ (name ++ o :: s ++ [c]) ++ back = front ++ name ++ [o] ++ s ++ c :: back := by simp
  have hstart : front.length + (name.length + 1) = (front ++ name ++ [o]).length := by
    simp only [List.length_append, List.length_singleton]
    omega
  have hlength : (name ++ o :: s ++ [c]).length - (name.length + 2) = s.length := by
    simp only [List.length_append, List.length_cons, List.length_nil]
    omega
  rw [htext, hstart, hlength, parseParams_append]

theorem toDigits_trimmed (n : ℕ) : Trimmed (Nat.toDigits 10 n) :=
  trimmed_of_forall fun _ hc => isSpace_of_isDigit (isDigit_of_mem hc)

theorem toDigits_plain (n : ℕ) : Plain paren (Nat.toDigits 10 n) := by
  refine ⟨fun hc => ?_, fun hc => ?_, fun hc => ?_⟩
  all_goals exact absurd (isDigit_of_mem hc) (by decide)

/-- The dimension is read back. -/
theorem parseInt_toDigits (n : ℕ) : parseInt (Nat.toDigits 10 n) = some (n : ℤ) := by
  have hdigit : ∀ c ∈ Nat.toDigits 10 n, c.isDigit = true := fun c hc =>
    isDigit_of_mem hc
  have hvalue := Nat.ofDigitChars_ten_toDigits (n := n)
  cases htext : Nat.toDigits 10 n with
  | nil => exact absurd htext Nat.toDigits_ne_nil
  | cons c cs =>
      rw [htext] at hdigit hvalue
      have hc := hdigit c (by simp)
      have htake : (c :: cs).takeWhile Char.isDigit = c :: cs := List.takeWhile_eq_self_iff.2 hdigit
      rw [parseInt, List.dropWhile_cons_of_neg (by simp [isSpace_of_isDigit hc])]
      split
      · next h => exact absurd ((List.cons.inj h).1 ▸ hc) (by decide)
      · next h => exact absurd ((List.cons.inj h).1 ▸ hc) (by decide)
      · simp only [htake, if_neg (List.cons_ne_nil c cs), hvalue]
        rfl

end CqlDriver
