import Mathlib.Tactic

/-! # Version numbers (`lib/types/version-number.js`)

A version is the first place of a text that has the form `X.Y`, with what follows it: a patch, a patch of
DSE, pre-release labels and a build.  The parts behind `X.Y` are optional and taken as far as they go, so
that the search never has to go back. -/

namespace CqlDriver

structure VersionNumber where
  major : ℕ
  minor : ℕ
  patch : Option ℕ
  dsePatch : Option ℕ
  preReleases : Option (List (List Char))
  build : Option (List Char)
deriving DecidableEq

namespace VersionNumber

/-- -1, 0 or 1; the build is not considered. -/
def compare (this other : VersionNumber) : ℤ :=
  if this.major < other.major then -1
  else if other.major < this.major then 1
  else if this.minor < other.minor then -1
  else if other.minor < this.minor then 1
  else
    let thisPatch := this.patch.getD 0
    let otherPatch := other.patch.getD 0
    if thisPatch < otherPatch then -1
    else if otherPatch < thisPatch then 1
    else
      match this.dsePatch, other.dsePatch with
      | none, some _ => -1
      | some _, none => 1
      | some a, some b => if a < b then -1 else if b < a then 1 else comparePreReleases
      | none, none => comparePreReleases
where
  /-- A version with labels is less than one without. -/
  comparePreReleases : ℤ :=
    match this.preReleases, other.preReleases with
    | none, some _ => 1
    | some _, none => -1
    | _, _ => 0

/-! ### Parsing -/

/-- `\w` -/
def isWord (c : Char) : Bool := c.isAlphanum || c == '_'

def number (digits : List Char) : ℕ := Nat.ofDigitChars 10 digits 0

/-- `(?:\.(\d+))?`: the digits, and the rest. -/
def takePatch : List Char → Option ℕ × List Char
  | '.' :: s =>
      match s.takeWhile Char.isDigit with
      | [] => (none, '.' :: s)
      | digits => (some (number digits), s.dropWhile Char.isDigit)
  | s => (none, s)

/-- `(?:\.(\d+)?)?`: the point is taken without digits too. -/
def takeDsePatch : List Char → Option ℕ × List Char
  | '.' :: s =>
      match s.takeWhile Char.isDigit with
      | [] => (none, s)
      | digits => (some (number digits), s.dropWhile Char.isDigit)
  | s => (none, s)

/-- `(?:-\w[.\w]*)*`; `inside` says whether a label has begun. -/
def takeLabels (inside : Bool) : List Char → List Char × List Char
  | '-' :: c :: s =>
      if isWord c then
        let (labels, rest) := takeLabels true s
        ('-' :: c :: labels, rest)
      else ([], '-' :: c :: s)
  | c :: s =>
      if inside && (isWord c || c == '.') then
        let (labels, rest) := takeLabels true s
        (c :: labels, rest)
      else ([], c :: s)
  | [] => ([], [])

/-- `(?:[-~]([\w+]*(?:-\w[.\w]*)*))?`; labels that are empty are `undefined`. -/
def takePreReleases : List Char → Option (List (List Char)) × List Char
  | c :: s =>
      if c == '-' || c == '~' then
        let first := s.takeWhile fun c => isWord c || c == '+'
        let (labels, rest) := takeLabels false (s.dropWhile fun c => isWord c || c == '+')
        (if first ++ labels = [] then none else some ((first ++ labels).splitOn '-'), rest)
      else (none, c :: s)
  | [] => (none, [])

/-- `(?:\+([.\w]+))?` -/
def takeBuild : List Char → Option (List Char)
  | '+' :: s =>
      match s.takeWhile fun c => c == '.' || isWord c with
      | [] => none
      | build => some build
  | _ => none

/-- The expression at one place. -/
def matchAt (s : List Char) : Option VersionNumber :=
  let major := s.takeWhile Char.isDigit
  match s.dropWhile Char.isDigit with
  | '.' :: s =>
      let minor := s.takeWhile Char.isDigit
      if major = [] ∨ minor = [] then none
      else
        let (patch, s) := takePatch (s.dropWhile Char.isDigit)
        let (dsePatch, s) := takeDsePatch s
        let (preReleases, s) := takePreReleases s
        some ⟨number major, number minor, patch, dsePatch, preReleases, takeBuild s⟩
  | _ => none

/-- `VersionNumber.parse`; the result is `null` for the empty text. -/
def parse (version : List Char) : Except String (Option VersionNumber) :=
  if version = [] then .ok none
  else
    match version.tails.findSome? matchAt with
    | some v => .ok (some v)
    | none => .error s!"Could not extract version from '{String.ofList version}'"

example : parse "3.0.0-beta1-SNAPSHOT+b7".toList =
    .ok (some ⟨3, 0, some 0, none, some ["beta1".toList, "SNAPSHOT".toList], some "b7".toList⟩) := by
  decide +kernel

end VersionNumber
end CqlDriver
