import Mathlib.Tactic

/-! # UTF-8

`decode` follows the decoder of the Encoding Standard: a well-formed sequence is its character, and
every maximal ill-formed subpart is one replacement character.  `decode_encode` is the round trip on
texts. -/

namespace Utf8

def encode (s : String) : List UInt8 := s.toList.flatMap String.utf8EncodeChar

/-- The character at the front, if the bytes start with a well-formed sequence. -/
def decodeChar? (bs : List UInt8) : Option Char := bs.toByteArray.utf8DecodeChar? 0

def isContinuation (b : UInt8) : Bool := 0x80 ≤ b && b ≤ 0xBF

/-- The bytes that may follow the first byte of a sequence of three or four bytes. -/
def isSecond (first second : UInt8) : Bool :=
  if first = 0xE0 then 0xA0 ≤ second && second ≤ 0xBF
  else if first = 0xED then 0x80 ≤ second && second ≤ 0x9F
  else if first = 0xF0 then 0x90 ≤ second && second ≤ 0xBF
  else if first = 0xF4 then 0x80 ≤ second && second ≤ 0x8F
  else isContinuation second

/-- The length of the ill-formed subpart at the front. -/
def illFormedLength : List UInt8 → ℕ
  | b :: c :: d :: _ =>
      if 0xE0 ≤ b ∧ b ≤ 0xF4 ∧ isSecond b c then
        if 0xF0 ≤ b ∧ isContinuation d then 3 else 2
      else 1
  | [b, c] => if 0xE0 ≤ b ∧ b ≤ 0xF4 ∧ isSecond b c then 2 else 1
  | _ => 1

def decodeChars : ℕ → List UInt8 → List Char
  | 0, _ => []
  | _, [] => []
  | fuel + 1, bs =>
      match decodeChar? bs with
      | some c => c :: decodeChars fuel (bs.drop c.utf8Size)
      | none => Char.ofNat 0xFFFD :: decodeChars fuel (bs.drop (illFormedLength bs))

def decode (bs : List UInt8) : String := String.ofList (decodeChars bs.length bs)

theorem decodeChar?_append (c : Char) (bs : List UInt8) :
    decodeChar? (String.utf8EncodeChar c ++ bs) = some c := by
  rw [decodeChar?, List.toByteArray_append]
  exact ByteArray.utf8DecodeChar?_utf8EncodeChar_append

theorem decodeChars_flatMap (cs : List Char) : ∀ fuel, (cs.flatMap String.utf8EncodeChar).length ≤ fuel →
    decodeChars fuel (cs.flatMap String.utf8EncodeChar) = cs := by
  induction cs with
  | nil =>
      intro fuel _
      cases fuel <;> rfl
  | cons c cs ih =>
      intro fuel hfuel
      have hpos : 0 < (String.utf8EncodeChar c).length :=
        List.length_pos_of_ne_nil String.utf8EncodeChar_ne_nil
      rw [List.flatMap_cons, List.length_append] at hfuel
      obtain ⟨f, rfl⟩ : ∃ f, fuel = f + 1 := ⟨fuel - 1, by omega⟩
      have hdrop : (String.utf8EncodeChar c ++ cs.flatMap String.utf8EncodeChar).drop c.utf8Size =
          cs.flatMap String.utf8EncodeChar := by
        rw [← String.length_utf8EncodeChar, List.drop_left]
      rw [List.flatMap_cons]
      rw [decodeChars]
      · rw [decodeChar?_append]
        simp only
        rw [hdrop, ih f (by omega)]
      · intro he
        simp [String.utf8EncodeChar_ne_nil] at he

/-- Decoding what was encoded gives the text back. -/
theorem decode_encode (s : String) : decode (encode s) = s := by
  rw [decode, encode, decodeChars_flatMap _ _ le_rfl, String.ofList_toList]

end Utf8
