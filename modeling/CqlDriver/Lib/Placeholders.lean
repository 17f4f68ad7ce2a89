import Mathlib.Tactic

/-! # Placeholders of a statement

A statement of CQL is read for its placeholders: the question marks outside of quoted names.  What a placeholder stands
for can be told from what is in front of it, the last quoted name and the last word; in an INSERT the placeholders take
the names of the columns in turn.  `Yields` says what a part of a statement adds to the placeholders, wherever it
stands. -/

namespace Placeholders

/-! ### Tokens -/

inductive Token where
  | name (name : List Char)
  | placeholder
  | other (c : Char)
deriving DecidableEq

/-- The tokens of a text, in front of which a quoted name may have begun. -/
def tokensFrom : Option (List Char) → List Char → List Token
  | _, [] => []
  | some name, c :: cs =>
      if c = '"' then .name name.reverse :: tokensFrom none cs else tokensFrom (some (c :: name)) cs
  | none, c :: cs =>
      if c = '"' then tokensFrom (some []) cs
      else if c = '?' then .placeholder :: tokensFrom none cs
      else .other c :: tokensFrom none cs

def tokens (text : List Char) : List Token := tokensFrom none text

/-- The number of placeholders. -/
def count (statement : String) : ℕ := (tokens statement.toList).count .placeholder

/-- No quoted name begins in the text, and there is no placeholder. -/
def Plain (text : List Char) : Prop := ∀ c ∈ text, c ≠ '"' ∧ c ≠ '?'

instance (text : List Char) : Decidable (Plain text) :=
  List.decidableBAll (fun c => c ≠ '"' ∧ c ≠ '?') text

theorem Plain.append {s t : List Char} (hs : Plain s) (ht : Plain t) : Plain (s ++ t) := by
  intro c hc
  exact (List.mem_append.1 hc).elim (hs c) (ht c)

theorem tokens_placeholder (rest : List Char) : tokens ('?' :: rest) = .placeholder :: tokens rest := rfl

theorem tokens_plain {text : List Char} (h : Plain text) (rest : List Char) :
    tokens (text ++ rest) = text.map .other ++ tokens rest := by
  induction text with
  | nil => rfl
  | cons c text ih =>
      obtain ⟨hname, hmark⟩ := h c (List.mem_cons_self ..)
      have hrest := ih fun d hd => h d (List.mem_cons_of_mem c hd)
      rw [tokens] at hrest
      rw [List.cons_append, tokens, tokensFrom, if_neg hname, if_neg hmark, hrest]
      rfl

theorem tokensFrom_name {name : List Char} (h : '"' ∉ name) (before rest : List Char) :
    tokensFrom (some before) (name ++ '"' :: rest) = .name (before.reverse ++ name) :: tokens rest := by
  induction name generalizing before with
  | nil => simp [tokensFrom, tokens]
  | cons c name ih =>
      have hc : c ≠ '"' := fun hc => h (by simp [hc])
      rw [List.cons_append, tokensFrom, if_neg hc, ih fun hmem => h (List.mem_cons_of_mem c hmem)]
      simp

theorem tokens_name {name : List Char} (h : '"' ∉ name) (rest : List Char) :
    tokens ('"' :: (name ++ '"' :: rest)) = .name name :: tokens rest := by
  rw [tokens, tokensFrom, if_pos rfl, tokensFrom_name h]
  rfl

/-! ### What the placeholders stand for -/

inductive Target where
  /-- The value for a column, with the operator in front of the placeholder. -/
  | column (name operator : String)
  | ttl
  | limit
deriving DecidableEq

/-- The last word of a text that is given from its end. -/
def lastWord (before : List Char) : String :=
  String.ofList ((before.dropWhile (· = ' ')).takeWhile (· ≠ ' ')).reverse

/-- The target of a placeholder behind a name and a text. -/
def target (name before : List Char) : Target :=
  if lastWord before = "TTL" then .ttl
  else if lastWord before = "LIMIT" then .limit
  else .column (String.ofList name) (lastWord before)

def targetsFrom (name before : List Char) : List Token → List Target
  | [] => []
  | .name name :: ts => targetsFrom name [] ts
  | .placeholder :: ts => target name before :: targetsFrom name [] ts
  | .other c :: ts => targetsFrom name (c :: before) ts

/-- The targets in an INSERT, where the names wait for their placeholders. -/
def insertTargetsFrom (names : List (List Char)) (before : List Char) : List Token → List Target
  | [] => []
  | .name name :: ts => insertTargetsFrom (names ++ [name]) [] ts
  | .placeholder :: ts =>
      match names with
      | [] => target [] before :: insertTargetsFrom [] [] ts
      | name :: names => .column (String.ofList name) "=" :: insertTargetsFrom names [] ts
  | .other c :: ts => insertTargetsFrom names (c :: before) ts

def targets (statement : String) : List Target :=
  if "INSERT ".toList.isPrefixOf statement.toList then insertTargetsFrom [] [] (tokens statement.toList)
  else targetsFrom [] [] (tokens statement.toList)

theorem length_targetsFrom (name before : List Char) (ts : List Token) :
    (targetsFrom name before ts).length = ts.count .placeholder := by
  induction ts generalizing name before with
  | nil => rfl
  | cons t ts ih => cases t <;> simp [targetsFrom, ih]

theorem length_insertTargetsFrom (names : List (List Char)) (before : List Char) (ts : List Token) :
    (insertTargetsFrom names before ts).length = ts.count .placeholder := by
  induction ts generalizing names before with
  | nil => rfl
  | cons t ts ih =>
      cases t with
      | name name => simp [insertTargetsFrom, ih]
      | placeholder => cases names <;> simp [insertTargetsFrom, ih]
      | other c => simp [insertTargetsFrom, ih]

/-- Every placeholder has a target. -/
theorem length_targets (statement : String) : (targets statement).length = count statement := by
  unfold targets count
  split_ifs
  · exact length_insertTargetsFrom ..
  · exact length_targetsFrom ..

theorem lastWord_append {word : String} (hne : word.toList ≠ []) (h : ' ' ∉ word.toList) (before : List Char) :
    lastWord (' ' :: (word.toList.reverse ++ ' ' :: before)) = word := by
  have hstop : ∀ c ∈ word.toList.reverse, decide (c ≠ ' ') = true := by
    intro c hc
    rw [decide_eq_true_iff]
    rintro rfl
    exact h (List.mem_reverse.1 hc)
  obtain ⟨c, rest, hrest⟩ := List.exists_cons_of_ne_nil (mt List.reverse_eq_nil_iff.1 hne)
  have hc : c ≠ ' ' := by simpa using hstop c (by simp [hrest])
  have hdrop : (' ' :: (word.toList.reverse ++ ' ' :: before)).dropWhile (· = ' ') =
      word.toList.reverse ++ ' ' :: before := by
    rw [List.dropWhile_cons_of_pos (by decide), hrest, List.cons_append, List.dropWhile_cons_of_neg (by simpa using hc)]
  rw [lastWord, hdrop, List.takeWhile_append_of_pos hstop, List.takeWhile_cons_of_neg (by decide), List.append_nil,
    List.reverse_reverse, String.ofList_toList]

theorem target_ttl (name before : List Char) : target name (" TTL ".toList.reverse ++ before) = .ttl := by
  have htext : " TTL ".toList.reverse ++ before = ' ' :: ("TTL".toList.reverse ++ ' ' :: before) := by simp
  rw [htext, target, lastWord_append (by decide) (by decide), if_pos rfl]

theorem target_limit (name before : List Char) : target name (" LIMIT ".toList.reverse ++ before) = .limit := by
  have htext : " LIMIT ".toList.reverse ++ before = ' ' :: ("LIMIT".toList.reverse ++ ' ' :: before) := by simp
  rw [htext, target, lastWord_append (by decide) (by decide), if_neg (by decide), if_pos rfl]

/-! ### Parts of a statement -/

/-- The placeholders of the text have these targets, whatever is in front of it. -/
def Yields (text : String) (found : List Target) : Prop :=
  ∀ name before rest, ∃ name' before', targetsFrom name before (tokens (text.toList ++ rest)) =
    found ++ targetsFrom name' before' (tokens rest)

theorem Yields.append {s t : String} {found found' : List Target} (hs : Yields s found) (ht : Yields t found') :
    Yields (s ++ t) (found ++ found') := by
  intro name before rest
  obtain ⟨name₁, before₁, h₁⟩ := hs name before (t.toList ++ rest)
  obtain ⟨name₂, before₂, h₂⟩ := ht name₁ before₁ rest
  refine ⟨name₂, before₂, ?_⟩
  rw [String.toList_append, List.append_assoc, h₁, h₂, List.append_assoc]

theorem Yields.targets {text : String} {found : List Target} (h : Yields text found)
    (hinsert : "INSERT ".toList.isPrefixOf text.toList = false) : Placeholders.targets text = found := by
  obtain ⟨name', before', h⟩ := h [] [] []
  rw [Placeholders.targets, hinsert, if_neg (by decide), ← List.append_nil text.toList, h]
  exact List.append_nil found

theorem targetsFrom_plain (name before text : List Char) (ts : List Token) :
    targetsFrom name before (text.map .other ++ ts) = targetsFrom name (text.reverse ++ before) ts := by
  induction text generalizing before with
  | nil => rfl
  | cons c text ih =>
      rw [List.map_cons, List.cons_append, targetsFrom, ih]
      simp

theorem yields_plain {text : String} (h : Plain text.toList) : Yields text [] := by
  intro name before rest
  exact ⟨name, text.toList.reverse ++ before, by rw [tokens_plain h, targetsFrom_plain]; rfl⟩

theorem yields_name {name : String} (h : '"' ∉ name.toList) : Yields ("\"" ++ name ++ "\"") [] := by
  intro name' before rest
  refine ⟨name.toList, [], ?_⟩
  have htext : ("\"" ++ name ++ "\"").toList ++ rest = '"' :: (name.toList ++ '"' :: rest) := by simp
  rw [htext, tokens_name h]
  rfl

/-- A placeholder behind a name, with text that ends in a word between them. -/
theorem yields_column {name between : String} (hname : '"' ∉ name.toList) (hbetween : Plain between.toList) :
    Yields ("\"" ++ name ++ "\"" ++ between ++ "?") [target name.toList between.toList.reverse] := by
  intro name' before rest
  refine ⟨name.toList, [], ?_⟩
  have htext : ("\"" ++ name ++ "\"" ++ between ++ "?").toList ++ rest =
      '"' :: (name.toList ++ '"' :: (between.toList ++ '?' :: rest)) := by simp
  rw [htext, tokens_name hname, targetsFrom, tokens_plain hbetween, targetsFrom_plain, tokens_placeholder, targetsFrom,
    List.append_nil]
  rfl

/-- A placeholder behind a word with a space in front of it. -/
theorem yields_word {word : String} {found : Target} (hword : Plain word.toList)
    (hfound : ∀ name before, target name (word.toList.reverse ++ before) = found) : Yields (word ++ "?") [found] := by
  intro name before rest
  refine ⟨name, [], ?_⟩
  have htext : (word ++ "?").toList ++ rest = word.toList ++ '?' :: rest := by simp
  rw [htext, tokens_plain hword, targetsFrom_plain, tokens_placeholder, targetsFrom, hfound]
  rfl

theorem yields_intercalate {sep : String} (hsep : Plain sep.toList) {α : Type} {f : α → String}
    {g : α → List Target} : ∀ {xs : List α}, (∀ x ∈ xs, Yields (f x) (g x)) →
      Yields (sep.intercalate (xs.map f)) (xs.flatMap g)
  | [], _ => by
      rw [List.map_nil, String.intercalate_nil]
      exact yields_plain (by decide)
  | [x], h => by
      simpa using h x (List.mem_singleton_self x)
  | x :: y :: xs, h => by
      have ih := yields_intercalate hsep fun z hz => h z (List.mem_cons_of_mem x hz)
      rw [List.map_cons, List.map_cons, String.intercalate_cons_cons, List.flatMap_cons]
      have hx := (h x (List.mem_cons_self ..)).append (yields_plain hsep)
      rw [List.append_nil] at hx
      exact hx.append ih

/-! ### Parts of an INSERT -/

/-- The placeholders of the text in an INSERT have these targets, when some names wait in front of it, and others
behind it. -/
def Takes (text : String) (names names' : List (List Char)) (found : List Target) : Prop :=
  ∀ before rest, ∃ before', insertTargetsFrom names before (tokens (text.toList ++ rest)) =
    found ++ insertTargetsFrom names' before' (tokens rest)

theorem Takes.append {s t : String} {names names' names'' : List (List Char)} {found found' : List Target}
    (hs : Takes s names names' found) (ht : Takes t names' names'' found') :
    Takes (s ++ t) names names'' (found ++ found') := by
  intro before rest
  obtain ⟨before₁, h₁⟩ := hs before (t.toList ++ rest)
  obtain ⟨before₂, h₂⟩ := ht before₁ rest
  refine ⟨before₂, ?_⟩
  rw [String.toList_append, List.append_assoc, h₁, h₂, List.append_assoc]

theorem Takes.targets {text : String} {names : List (List Char)} {found : List Target} (h : Takes text [] names found)
    (hinsert : "INSERT ".toList.isPrefixOf text.toList = true) : Placeholders.targets text = found := by
  obtain ⟨before', h⟩ := h [] []
  rw [Placeholders.targets, hinsert, if_pos rfl, ← List.append_nil text.toList, h]
  exact List.append_nil found

theorem insertTargetsFrom_plain (names : List (List Char)) (before text : List Char) (ts : List Token) :
    insertTargetsFrom names before (text.map .other ++ ts) = insertTargetsFrom names (text.reverse ++ before) ts := by
  induction text generalizing before with
  | nil => rfl
  | cons c text ih =>
      rw [List.map_cons, List.cons_append, insertTargetsFrom, ih]
      simp

theorem takes_plain {text : String} (h : Plain text.toList) (names : List (List Char)) : Takes text names names [] := by
  intro before rest
  exact ⟨text.toList.reverse ++ before, by rw [tokens_plain h, insertTargetsFrom_plain]; rfl⟩

theorem takes_name {name : String} (h : '"' ∉ name.toList) (names : List (List Char)) :
    Takes ("\"" ++ name ++ "\"") names (names ++ [name.toList]) [] := by
  intro before rest
  refine ⟨[], ?_⟩
  have htext : ("\"" ++ name ++ "\"").toList ++ rest = '"' :: (name.toList ++ '"' :: rest) := by simp
  rw [htext, tokens_name h]
  rfl

theorem takes_placeholder (name : String) (names : List (List Char)) :
    Takes "?" (name.toList :: names) names [.column name "="] := by
  intro before rest
  refine ⟨[], ?_⟩
  have htext : "?".toList ++ rest = '?' :: rest := by simp
  rw [htext, tokens_placeholder, insertTargetsFrom, String.ofList_toList]
  rfl

theorem takes_word {word : String} {found : Target} (hword : Plain word.toList)
    (hfound : ∀ before, target [] (word.toList.reverse ++ before) = found) : Takes (word ++ "?") [] [] [found] := by
  intro before rest
  refine ⟨[], ?_⟩
  have htext : (word ++ "?").toList ++ rest = word.toList ++ '?' :: rest := by simp
  rw [htext, tokens_plain hword, insertTargetsFrom_plain, tokens_placeholder, insertTargetsFrom, hfound]
  rfl

/-- The names of the columns wait, in their order. -/
theorem takes_names {sep : String} (hsep : Plain sep.toList) : ∀ {columns : List String},
    (∀ column ∈ columns, '"' ∉ column.toList) → ∀ names : List (List Char),
      Takes (sep.intercalate (columns.map fun column => "\"" ++ column ++ "\"")) names
        (names ++ columns.map String.toList) []
  | [], _, names => by
      rw [List.map_nil, List.map_nil, String.intercalate_nil, List.append_nil]
      exact takes_plain (by decide) names
  | [column], h, names => by
      simpa using takes_name (h column (List.mem_singleton_self column)) names
  | column :: column' :: columns, h, names => by
      have hname := (takes_name (h column (List.mem_cons_self ..)) names).append
        (takes_plain hsep (names ++ [column.toList]))
      have ih := takes_names hsep (fun c hc => h c (List.mem_cons_of_mem column hc)) (names ++ [column.toList])
      have hall := hname.append ih
      rw [List.append_assoc] at hall
      rw [List.map_cons, List.map_cons, String.intercalate_cons_cons]
      exact hall

/-- The placeholders take the names that wait. -/
theorem takes_placeholders {sep : String} (hsep : Plain sep.toList) : ∀ columns : List String,
    Takes (sep.intercalate (columns.map fun _ => "?")) (columns.map String.toList) []
      (columns.map fun column => .column column "=")
  | [] => by
      rw [List.map_nil, String.intercalate_nil]
      exact takes_plain (by decide) []
  | [column] => by
      simpa using takes_placeholder column []
  | column :: column' :: columns => by
      have hmark := (takes_placeholder column ((column' :: columns).map String.toList)).append (takes_plain hsep _)
      have ih := takes_placeholders hsep (column' :: columns)
      rw [List.map_cons, List.map_cons, String.intercalate_cons_cons]
      exact hmark.append ih

end Placeholders
