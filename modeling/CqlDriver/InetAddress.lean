import CqlDriver.Lib.Bytes
import CqlDriver.Lib.Digits

/-! # IP addresses (`lib/types/inet-address.js`, `src/types/inet.rs`)

An address is a buffer of 4 or 16 bytes.  `toString` finds a run of zero groups with a scan over the
buffer and prints it as `::`; `fromString` reads the text back.  Texts are lists of characters; the
contents of the buffer that `allocBufferUnsafe(16)` returns are an argument of `fromString`. -/

namespace CqlDriver

open Bytes Digits

structure InetAddress where
  buffer : List UInt8
  valid : buffer.length = 4 ∨ buffer.length = 16
deriving DecidableEq

namespace InetAddress

inductive Error where
  | typeError (message : String)
  /-- `ERR_OUT_OF_RANGE` of the `Buffer` write methods. -/
  | rangeError
deriving DecidableEq

/-- `new InetAddress(buffer)`: the Rust side accepts 4 or 16 bytes. -/
def new (buffer : List UInt8) : Except Error InetAddress :=
  if h : buffer.length = 4 ∨ buffer.length = 16 then .ok ⟨buffer, h⟩
  else .error (.typeError "Invalid IP address length")

def byte (buffer : List UInt8) (i : ℕ) : UInt8 := buffer.getD i 0

/-! ### `toString` -/

/-- The variables `start` and `longest` of the scan. -/
structure Scan where
  start : ℤ
  length : ℤ
  longestStart : ℤ
deriving DecidableEq

def checkLongest (s : Scan) (i : ℕ) : Scan :=
  if 0 ≤ s.start then
    if s.length < i - s.start then ⟨-1, i - s.start, s.start⟩ else s
  else s

/-- The body of the loop at byte `i` of a buffer of length `length`. -/
def scanGroup (length : ℕ) (zero : Bool) (s : Scan) (i : ℕ) : Scan :=
  if zero then
    let s := if s.start < 0 then { s with start := i } else s
    if i + 2 = length then checkLongest s (i + 2) else s
  else checkLongest s i

def isZeroGroup (buffer : List UInt8) (i : ℕ) : Bool :=
  byte buffer i == 0 && byte buffer (i + 1) == 0

/-- The values of `h` in `for (let h = 0; h < length; h = h + 2)`. -/
def groupIndices (length : ℕ) : List ℕ := List.range' 0 ((length + 1) / 2) 2

/-- The scan for the longest group of zeros. -/
def longest (buffer : List UInt8) : Scan :=
  (groupIndices buffer.length).foldl
    (fun s i => scanGroup buffer.length (isZeroGroup buffer i) s i) ⟨-1, 0, -1⟩

/-- `(buffer[h] << 8) | buffer[h + 1]` -/
def group (buffer : List UInt8) (h : ℕ) : ℕ :=
  (byte buffer h).toNat <<< 8 ||| (byte buffer (h + 1)).toNat

def hex (buffer : List UInt8) (h : ℕ) : List Char := Nat.toDigits 16 (group buffer h)

/-- The body of the loop that builds the text. -/
def appendGroup (s : Scan) (buffer : List UInt8) (address : List Char) (h : ℕ) : List Char :=
  if (h : ℤ) = s.longestStart then address ++ [':']
  else if (h : ℤ) < s.longestStart + s.length ∧ s.longestStart < h then address
  else (if 0 < address.length then address ++ [':'] else address) ++ hex buffer h

def toString (a : InetAddress) : List Char :=
  if a.buffer.length = 4 then
    ['.'].intercalate (a.buffer.map fun b => Nat.toDigits 10 b.toNat)
  else
    let address := (groupIndices a.buffer.length).foldl (appendGroup (longest a.buffer) a.buffer) []
    if address.getLast? = some ':' then address ++ [':'] else address

/-! ### `fromString` -/

/-- `25[0-5]|(2[0-4]|1\d|[1-9]|)\d` -/
def isOctet : List Char → Bool
  | [c] => c.isDigit
  | [b, c] => b.isDigit && b != '0' && c.isDigit
  | [a, b, c] =>
      c.isDigit && (a == '1' && b.isDigit || a == '2' && (b.isDigit && b ≤ '4' || b == '5' && c ≤ '5'))
  | _ => false

/-- `ipv4Pattern.test(value)`.  Behind an octet the word boundary of the pattern asks for a dot and
a digit, or for the end of the text, so the octets are separated by single dots. -/
def ipv4Pattern (value : List Char) : Bool :=
  (value.splitOn '.').length == 4 && (value.splitOn '.').all isOctet

/-- `ipv6Pattern.test(value)` -/
def ipv6Pattern (value : List Char) : Bool :=
  !value.isEmpty && value.all fun c => (hexValue c).isSome || c == ':' || c == '.'

/-- The bytes of an array of decimal texts, as `Buffer.from` converts them. -/
def octets (parts : List (List Char)) : List UInt8 :=
  parts.map fun p => UInt8.ofNat (Nat.ofDigitChars 10 p 0)

/-- `writeUInt16BE`; `NaN` passes the range check and is written as zero. -/
def writeUInt16BE (buffer : List UInt8) (value : Option ℕ) (offset : ℕ) : Except Error (List UInt8) :=
  if value.getD 0 ≤ 65535 ∧ offset + 2 ≤ buffer.length then
    .ok (write buffer offset (toBE 2 (value.getD 0)))
  else .error .rangeError

/-- `writeUInt8` for each octet. -/
def writeItems (buffer : List UInt8) (offset : ℕ) : List UInt8 → Except Error (List UInt8)
  | [] => .ok buffer
  | b :: bs =>
      if offset < buffer.length then writeItems (write buffer offset [b]) (offset + 1) bs
      else .error .rangeError

/-- `buffer[offset] = 0`, ignored behind the end of the buffer. -/
def setZero (buffer : List UInt8) (offset : ℕ) : List UInt8 := buffer.set offset 0

/-- The loop that writes `filling` zero groups. -/
def fill (buffer : List UInt8) (offset : ℕ) : ℕ → List UInt8 × ℕ
  | 0 => (buffer, offset)
  | j + 1 => fill (setZero (setZero buffer offset) (offset + 1)) (offset + 2) j

/-- The variables of the loop over the parts. -/
structure Parse where
  buffer : List UInt8
  offset : ℕ
  filling : ℤ
  applied : Bool
deriving DecidableEq

/-- An empty part: it stands for `filling` zero groups, from the second one on for one. -/
def parseEmpty (s : Parse) : Parse :=
  let filling := if s.applied then 1 else s.filling
  let (buffer, offset) := fill s.buffer s.offset filling.toNat
  ⟨buffer, offset, filling, true⟩

/-- The loop over the parts; an embedded IPv4 address can only be the last part. -/
def parseParts (embeddedIp4 : Bool) : Parse → List (List Char) → Except Error (List UInt8)
  | s, [] => .ok s.buffer
  | s, item :: items =>
      if item.isEmpty then parseParts embeddedIp4 (parseEmpty s) items
      else if embeddedIp4 ∧ items = [] then writeItems s.buffer s.offset (octets (item.splitOn '.'))
      else do
        let buffer ← writeUInt16BE s.buffer (parseHex item) s.offset
        parseParts embeddedIp4 { s with buffer := buffer, offset := s.offset + 2 } items

def isValidIPv4Mapped (buffer : List UInt8) : Bool :=
  (buffer.take (buffer.length - 6)).all (· == 0) && byte buffer 10 == 255 && byte buffer 11 == 255

def notParsed (value : List Char) : Error :=
  .typeError ("Value could not be parsed as InetAddress: " ++ String.ofList value)

def fromString (alloc : Vector UInt8 16) (value : List Char) : Except Error InetAddress :=
  if value.isEmpty then new [0, 0, 0, 0]
  else if ipv4Pattern value then new (octets (value.splitOn '.'))
  else if !ipv6Pattern value then .error (notParsed value)
  else
    let parts := value.splitOn ':'
    if parts.length < 3 then .error (notParsed value)
    else do
      let embeddedIp4 := ipv4Pattern (parts.getLastD [])
      let filling : ℤ := 8 - parts.length + 1 - if embeddedIp4 then 1 else 0
      let buffer ← parseParts embeddedIp4 ⟨alloc.toList, 0, filling, false⟩ parts
      if embeddedIp4 && !isValidIPv4Mapped buffer then
        .error (.typeError ("Only IPv4-Mapped IPv6 addresses are allowed as IPv6 address " ++
          "with embedded IPv4 address"))
      else new buffer

/-! ### The groups of a buffer -/

theorem group_eq (buffer : List UInt8) (h : ℕ) :
    group buffer h = (byte buffer h).toNat * 256 + (byte buffer (h + 1)).toNat := by
  have hlt := (byte buffer (h + 1)).toNat_lt
  rw [group, ← Nat.shiftLeft_add_eq_or_of_lt (by simpa using hlt), Nat.shiftLeft_eq]

theorem group_lt (buffer : List UInt8) (h : ℕ) : group buffer h < 65536 := by
  have h₁ := (byte buffer h).toNat_lt
  have h₂ := (byte buffer (h + 1)).toNat_lt
  rw [group_eq]
  omega

theorem toBE_group (buffer : List UInt8) (h : ℕ) :
    toBE 2 (group buffer h) = [byte buffer h, byte buffer (h + 1)] := by
  have := toBE_ofBE [byte buffer h, byte buffer (h + 1)]
  simpa [ofBE, group_eq] using this

theorem byte_eq {buffer : List UInt8} {i : ℕ} (h : i < buffer.length) : byte buffer i = buffer[i] := by
  rw [byte, List.getD_eq_getElem?_getD, List.getElem?_eq_getElem h, Option.getD_some]

/-- The groups from byte `k` on. -/
theorem flatMap_toBE_group (buffer : List UInt8) (n k : ℕ) (hk : k + 2 * n ≤ buffer.length) :
    (List.range' k n 2).flatMap (fun h => toBE 2 (group buffer h)) = (buffer.drop k).take (2 * n) := by
  induction n generalizing k with
  | zero => simp
  | succ n ih =>
      rw [List.range'_succ, List.flatMap_cons, ih (k + 2) (by omega), toBE_group]
      rw [List.drop_eq_getElem_cons (i := k) (by omega), List.drop_eq_getElem_cons (i := k + 1) (by omega)]
      rw [byte_eq (by omega : k < buffer.length), byte_eq (by omega : k + 1 < buffer.length), Nat.mul_succ,
        List.take_succ_cons, List.take_succ_cons]
      rfl

/-! ### The text -/

theorem hex_ne_nil (buffer : List UInt8) (h : ℕ) : hex buffer h ≠ [] := Nat.toDigits_ne_nil

theorem separator_not_mem_hex (buffer : List UInt8) (h : ℕ) {c : Char} (hc : hexValue c = none) :
    c ∉ hex buffer h := by
  intro hmem
  have := hexValue_of_mem_toDigits hmem
  rw [hc] at this
  cases this

/-- The body of the loop outside the printed run. -/
def Outside (s : Scan) (h : ℕ) : Prop :=
  (h : ℤ) < s.longestStart ∨ s.longestStart + s.length ≤ h ∧ s.longestStart < h

theorem foldl_outside (s : Scan) (buffer : List UInt8) (hs : List ℕ) (address : List Char)
    (ha : address ≠ []) (hout : ∀ h ∈ hs, Outside s h) :
    hs.foldl (appendGroup s buffer) address = address ++ hs.flatMap fun h => ':' :: hex buffer h := by
  induction hs generalizing address with
  | nil => simp
  | cons h hs ih =>
      have hh := hout h (by simp)
      unfold Outside at hh
      have hstep : appendGroup s buffer address h = address ++ ':' :: hex buffer h := by
        rw [appendGroup, if_neg (by omega), if_neg (by omega), if_pos (List.length_pos_of_ne_nil ha)]
        simp
      rw [List.foldl_cons, hstep, ih _ (by simp) (fun h hh => hout h (by simp [hh]))]
      simp

theorem foldl_inside (s : Scan) (buffer : List UInt8) (hs : List ℕ) (address : List Char)
    (hin : ∀ h ∈ hs, s.longestStart < h ∧ (h : ℤ) < s.longestStart + s.length) :
    hs.foldl (appendGroup s buffer) address = address := by
  induction hs with
  | nil => rfl
  | cons h hs ih =>
      have hh := hin h (by simp)
      rw [List.foldl_cons, appendGroup, if_neg (by omega), if_pos (by omega)]
      exact ih fun h hh => hin h (by simp [hh])

theorem intercalate_cons (c : Char) (p : List Char) (ps : List (List Char)) :
    [c].intercalate (p :: ps) = p ++ ps.flatMap (c :: ·) := by
  induction ps generalizing p with
  | nil => simp
  | cons q ps ih => rw [List.intercalate_cons_cons, ih]; simp

/-- The first groups are printed with a colon between them. -/
theorem foldl_first (s : Scan) (buffer : List UInt8) (hs : List ℕ) (hout : ∀ h ∈ hs, Outside s h) :
    hs.foldl (appendGroup s buffer) [] = [':'].intercalate (hs.map (hex buffer)) := by
  cases hs with
  | nil => rfl
  | cons h hs =>
      have hh := hout h (by simp)
      unfold Outside at hh
      have hstep : appendGroup s buffer [] h = hex buffer h := by
        rw [appendGroup, if_neg (by omega), if_neg (by omega)]
        simp
      rw [List.foldl_cons, hstep, foldl_outside s buffer hs _ (hex_ne_nil buffer h)
        (fun h hh => hout h (by simp [hh])), List.map_cons, intercalate_cons, List.flatMap_map]

/-- The colon-separated parts of the text that prints the groups `S`, …, `S + L - 1` as `::`. -/
def printedParts (buffer : List UInt8) (S L : ℕ) : List (List Char) :=
  (if S = 0 then [[]] else (List.range' 0 S 2).map (hex buffer)) ++ [] ::
    if S + L = 8 then [[]] else (List.range' (2 * (S + L)) (8 - (S + L)) 2).map (hex buffer)

theorem groupIndices_split {S L : ℕ} (hL : 0 < L) (hSL : S + L ≤ 8) :
    groupIndices 16 = List.range' 0 S 2 ++ 2 * S :: List.range' (2 * S + 2) (L - 1) 2 ++
      List.range' (2 * (S + L)) (8 - (S + L)) 2 := by
  have h₁ : groupIndices 16 = List.range' 0 (S + (L + (8 - (S + L)))) 2 := by
    rw [show S + (L + (8 - (S + L))) = 8 by omega]
    rfl
  have h₂ : List.range' (2 * S) L 2 = 2 * S :: List.range' (2 * S + 2) (L - 1) 2 := by
    obtain ⟨k, rfl⟩ : ∃ k, L = k + 1 := ⟨L - 1, by omega⟩
    rw [List.range'_succ, Nat.add_sub_cancel]
  rw [h₁, ← List.range'_append, ← List.range'_append, ← List.append_assoc, Nat.zero_add, h₂,
    Nat.mul_add]

theorem intercalate_append_cons (c : Char) {ps : List (List Char)} (hps : ps ≠ []) (qs : List (List Char)) :
    [c].intercalate (ps ++ qs) = [c].intercalate ps ++ qs.flatMap (c :: ·) := by
  obtain ⟨p, ps, rfl⟩ := List.exists_cons_of_ne_nil hps
  rw [List.cons_append, intercalate_cons, intercalate_cons, List.flatMap_append, List.append_assoc]

theorem intercalate_printedParts (buffer : List UInt8) (S L : ℕ) :
    [':'].intercalate (printedParts buffer S L) =
      [':'].intercalate ((List.range' 0 S 2).map (hex buffer)) ++ [':'] ++
        if S + L = 8 then [':']
        else (List.range' (2 * (S + L)) (8 - (S + L)) 2).flatMap fun h => ':' :: hex buffer h := by
  have hfirst : [':'].intercalate (if S = 0 then [[]] else (List.range' 0 S 2).map (hex buffer)) =
      [':'].intercalate ((List.range' 0 S 2).map (hex buffer)) := by
    split_ifs with hS
    · simp [hS]
    · rfl
  have hne : (if S = 0 then [[]] else (List.range' 0 S 2).map (hex buffer)) ≠ [] := by
    split_ifs with hS
    · simp
    · simpa [List.range'_eq_nil_iff] using hS
  rw [printedParts, intercalate_append_cons ':' hne, hfirst, List.flatMap_cons]
  split_ifs with hSL
  · simp
  · simp [List.flatMap_map]

theorem getLast_hex (buffer : List UInt8) (h : ℕ) (cs : List Char) :
    (cs ++ ':' :: hex buffer h).getLast? ≠ some ':' := by
  rw [List.append_cons, List.getLast?_append_of_ne_nil _ (hex_ne_nil buffer h)]
  intro hlast
  exact separator_not_mem_hex buffer h rfl (List.mem_of_getLast? hlast)

/-- The text of an address, when the scan has found the groups `S`, …, `S + L - 1`. -/
theorem toString_eq (a : InetAddress) (ha : a.buffer.length = 16) {S L : ℕ} (hL : 0 < L)
    (hSL : S + L ≤ 8) (hstart : (longest a.buffer).longestStart = 2 * S)
    (hlength : (longest a.buffer).length = 2 * L) :
    a.toString = [':'].intercalate (printedParts a.buffer S L) := by
  set s := longest a.buffer with hs
  have hpre : ∀ h ∈ List.range' 0 S 2, Outside s h := by
    intro h hh
    obtain ⟨i, hi, rfl⟩ := List.mem_range'.1 hh
    left
    omega
  have hmid : ∀ h ∈ List.range' (2 * S + 2) (L - 1) 2,
      s.longestStart < h ∧ (h : ℤ) < s.longestStart + s.length := by
    intro h hh
    obtain ⟨i, hi, rfl⟩ := List.mem_range'.1 hh
    omega
  have hsuf : ∀ h ∈ List.range' (2 * (S + L)) (8 - (S + L)) 2, Outside s h := by
    intro h hh
    obtain ⟨i, hi, rfl⟩ := List.mem_range'.1 hh
    right
    omega
  have haddress : (groupIndices a.buffer.length).foldl (appendGroup s a.buffer) [] =
      [':'].intercalate ((List.range' 0 S 2).map (hex a.buffer)) ++ [':'] ++
        (List.range' (2 * (S + L)) (8 - (S + L)) 2).flatMap fun h => ':' :: hex a.buffer h := by
    rw [ha, groupIndices_split hL hSL, List.foldl_append, List.foldl_append, foldl_first s _ _ hpre,
      List.foldl_cons, appendGroup, if_pos (by omega), foldl_inside s _ _ _ hmid,
      foldl_outside s _ _ _ (by simp) hsuf]
  rw [toString, if_neg (by omega)]
  simp only
  rw [haddress, intercalate_printedParts]
  by_cases hend : S + L = 8
  · simp [hend]
  · rw [if_neg hend]
    obtain ⟨n, hn⟩ : ∃ n, 8 - (S + L) = n + 1 := ⟨7 - (S + L), by omega⟩
    rw [if_neg]
    rw [hn, List.range'_concat, List.flatMap_append, List.flatMap_singleton, ← List.append_assoc]
    exact getLast_hex _ _ _


/-- The text of an address, when the scan has found nothing. -/
theorem toString_eq_groups (a : InetAddress) (ha : a.buffer.length = 16)
    (hstart : (longest a.buffer).longestStart = -1) (hlength : (longest a.buffer).length = 0) :
    a.toString = [':'].intercalate ((groupIndices 16).map (hex a.buffer)) := by
  have hout : ∀ h ∈ groupIndices 16, Outside (longest a.buffer) h := by
    intro h _
    right
    omega
  rw [toString, if_neg (by omega), ha]
  simp only
  rw [foldl_first _ _ _ hout, if_neg]
  rw [show groupIndices 16 = 0 :: (List.range' 2 6 2 ++ [14]) from rfl, List.map_cons, intercalate_cons,
    List.map_append, List.flatMap_append, List.map_singleton, List.flatMap_singleton, ← List.append_assoc]
  exact getLast_hex _ _ _

/-! ### Reading the text back -/

theorem fill_append (done rest : List UInt8) (n : ℕ) (h : 2 * n ≤ rest.length) :
    fill (done ++ rest) done.length n =
      (done ++ List.replicate (2 * n) 0 ++ rest.drop (2 * n), done.length + 2 * n) := by
  induction n generalizing done rest with
  | zero => simp [fill]
  | succ n ih =>
      obtain ⟨x, y, rest, rfl⟩ : ∃ x y r, rest = x :: y :: r := by
        match rest, h with
        | [], h => simp at h
        | [x], h => simp at h; omega
        | x :: y :: r, _ => exact ⟨x, y, r, rfl⟩
      have hset : setZero (setZero (done ++ x :: y :: rest) done.length) (done.length + 1) =
          (done ++ [0, 0]) ++ rest := by
        simp [setZero, List.set_append_right]
      have hlen : done.length + 2 = (done ++ [(0 : UInt8), 0]).length := by simp
      rw [fill, hset, hlen, ih _ _ (by simp at h; omega)]
      simp [Nat.mul_succ, List.replicate_succ, Nat.add_assoc, Nat.add_comm 2]

/-- The groups of a buffer are read from their texts. -/
theorem parseParts_hex (buffer : List UInt8) (hs : List ℕ) (items : List (List Char))
    (done rest : List UInt8) (filling : ℤ) (applied : Bool) (h : 2 * hs.length ≤ rest.length) :
    parseParts false ⟨done ++ rest, done.length, filling, applied⟩ (hs.map (hex buffer) ++ items) =
      parseParts false ⟨done ++ hs.flatMap (fun h => toBE 2 (group buffer h)) ++ rest.drop (2 * hs.length),
        done.length + 2 * hs.length, filling, applied⟩ items := by
  induction hs generalizing done rest with
  | nil => simp
  | cons k hs ih =>
      have hwrite : writeUInt16BE (done ++ rest) (parseHex (hex buffer k)) done.length =
          .ok ((done ++ toBE 2 (group buffer k)) ++ rest.drop 2) := by
        have hlt := group_lt buffer k
        rw [List.length_cons] at h
        rw [writeUInt16BE, hex, parseHex_toDigits, Option.getD_some, if_pos, write_append, length_toBE]
        rw [List.length_append]
        omega
      have hlen : done.length + 2 = (done ++ toBE 2 (group buffer k)).length := by simp
      rw [List.map_cons, List.cons_append, parseParts, if_neg (by simpa using hex_ne_nil buffer k),
        if_neg (by simp), hwrite]
      simp only [bind, Except.bind]
      rw [hlen, ih _ _ (by simp at h ⊢; omega)]
      simp [Nat.mul_succ, Nat.add_assoc, Nat.add_comm 2]

/-- An empty part writes zero groups. -/
theorem parseParts_empty (items : List (List Char)) (done rest : List UInt8) (filling : ℤ)
    (applied : Bool) {n : ℕ} (hn : (if applied then 1 else filling) = n) (h : 2 * n ≤ rest.length) :
    parseParts false ⟨done ++ rest, done.length, filling, applied⟩ ([] :: items) =
      parseParts false ⟨done ++ List.replicate (2 * n) 0 ++ rest.drop (2 * n), done.length + 2 * n, n, true⟩
        items := by
  rw [parseParts, if_pos List.isEmpty_nil, parseEmpty]
  simp only
  rw [hn, Int.toNat_natCast, fill_append done rest n h]

/-- The parts up to the empty one between the groups. -/
theorem parseParts_first (buffer rest : List UInt8) (items : List (List Char)) {S z : ℕ}
    (hz : S = 0 → 0 < z) (h : 2 * (S + z) ≤ rest.length) :
    ∃ filling, parseParts false ⟨rest, 0, z - if S = 0 then 1 else 0, false⟩
        ((if S = 0 then [[]] else (List.range' 0 S 2).map (hex buffer)) ++ [] :: items) =
      parseParts false
        ⟨(List.range' 0 S 2).flatMap (fun h => toBE 2 (group buffer h)) ++ List.replicate (2 * z) 0 ++
          rest.drop (2 * (S + z)), 2 * (S + z), filling, true⟩ items := by
  by_cases hS : S = 0
  · subst hS
    have hz := hz rfl
    have e₁ := parseParts_empty ([] :: items) [] rest (z - 1) false (n := z - 1) (by simp; omega) (by omega)
    have e₂ := parseParts_empty items (List.replicate (2 * (z - 1)) 0) (rest.drop (2 * (z - 1))) ↑(z - 1)
      true (n := 1) rfl (by simp; omega)
    refine ⟨1, ?_⟩
    simp only [if_pos, List.singleton_append]
    simp only [List.nil_append, List.length_nil, List.length_replicate, Nat.zero_add] at e₁ e₂
    rw [e₁, e₂]
    have hlen : 2 * (z - 1) + 2 * 1 = 2 * z := by omega
    simp only [List.range'_zero, List.flatMap_nil, List.nil_append, List.drop_drop, Nat.zero_add,
      List.replicate_append_replicate, hlen]
    rfl
  · have e₁ := parseParts_hex buffer (List.range' 0 S 2) ([] :: items) [] rest z false (by simp; omega)
    set bytes := (List.range' 0 S 2).flatMap (fun h => toBE 2 (group buffer h)) with hbytes
    have hlen : bytes.length = 2 * S := by
      simp [hbytes, List.length_flatMap, Nat.mul_comm]
    have e₂ := parseParts_empty items bytes (rest.drop (2 * S)) z false (n := z) rfl (by simp; omega)
    refine ⟨z, ?_⟩
    simp only [if_neg hS, sub_zero]
    simp only [List.nil_append, List.length_nil, List.length_range', Nat.zero_add] at e₁
    rw [hlen] at e₂
    rw [e₁, e₂, List.drop_drop, Nat.mul_add]

/-- The buffer read from the parts of a text: the printed run is zero. -/
theorem parseParts_printedParts (buffer rest : List UInt8) (hbuf : buffer.length = 16)
    (hrest : rest.length = 16) {S L : ℕ} (hL : 0 < L) (hSL : S + L ≤ 8) :
    parseParts false ⟨rest, 0, 8 - (printedParts buffer S L).length + 1, false⟩ (printedParts buffer S L) =
      .ok (buffer.take (2 * S) ++ List.replicate (2 * L) 0 ++ buffer.drop (2 * (S + L))) := by
  have hpre : (List.range' 0 S 2).flatMap (fun h => toBE 2 (group buffer h)) = buffer.take (2 * S) := by
    simpa using flatMap_toBE_group buffer S 0 (by omega)
  by_cases hend : S + L = 8
  · have hfilling : (8 - ((printedParts buffer S L).length : ℤ) + 1) =
        ((L - 1 : ℕ) : ℤ) - if S = 0 then 1 else 0 := by
      rw [printedParts, if_pos hend]
      split_ifs with hS
      · simp; omega
      · simp; omega
    obtain ⟨filling, hfirst⟩ := parseParts_first buffer rest [[]] (S := S) (z := L - 1) (by omega) (by omega)
    have hlen : (buffer.take (2 * S) ++ List.replicate (2 * (L - 1)) (0 : UInt8)).length =
        2 * (S + (L - 1)) := by simp; omega
    have hlast := parseParts_empty [] (buffer.take (2 * S) ++ List.replicate (2 * (L - 1)) (0 : UInt8))
      (rest.drop (2 * (S + (L - 1)))) filling true (n := 1) rfl (by simp; omega)
    rw [hlen] at hlast
    rw [hfilling, printedParts, if_pos hend, hfirst, hpre, hlast, parseParts]
    have hz : 2 * (L - 1) + 2 * 1 = 2 * L := by omega
    rw [List.append_assoc (buffer.take (2 * S)), List.replicate_append_replicate, hz,
      List.drop_eq_nil_of_le (by simp; omega), List.drop_eq_nil_of_le (by omega)]
  · have hfilling : (8 - ((printedParts buffer S L).length : ℤ) + 1) =
        (L : ℤ) - if S = 0 then 1 else 0 := by
      rw [printedParts, if_neg hend]
      split_ifs with hS
      · simp; omega
      · simp; omega
    obtain ⟨filling, hfirst⟩ := parseParts_first buffer rest
      ((List.range' (2 * (S + L)) (8 - (S + L)) 2).map (hex buffer)) (S := S) (z := L) (by omega) (by omega)
    have hlen : (buffer.take (2 * S) ++ List.replicate (2 * L) (0 : UInt8)).length = 2 * (S + L) := by
      simp; omega
    have hlast := parseParts_hex buffer (List.range' (2 * (S + L)) (8 - (S + L)) 2) []
      (buffer.take (2 * S) ++ List.replicate (2 * L) (0 : UInt8)) (rest.drop (2 * (S + L))) filling true
      (by simp; omega)
    rw [hlen, List.append_nil, flatMap_toBE_group buffer _ _ (by omega)] at hlast
    have htake : (buffer.drop (2 * (S + L))).take (2 * (8 - (S + L))) = buffer.drop (2 * (S + L)) :=
      List.take_of_length_le (by simp; omega)
    have hdrop : (rest.drop (2 * (S + L))).drop (2 * (List.range' (2 * (S + L)) (8 - (S + L)) 2).length) =
        [] := List.drop_eq_nil_of_le (by simp; omega)
    rw [hfilling, printedParts, if_neg hend, hfirst, hpre, hlast, parseParts, htake, hdrop, List.append_nil]

theorem mem_printedParts {buffer : List UInt8} {S L : ℕ} {p : List Char} (hp : p ∈ printedParts buffer S L) :
    p = [] ∨ ∃ h, p = hex buffer h := by
  have hgroups : ∀ hs : List ℕ, p ∈ hs.map (hex buffer) → p = [] ∨ ∃ h, p = hex buffer h := by
    intro hs hp
    obtain ⟨h, -, rfl⟩ := List.mem_map.1 hp
    exact Or.inr ⟨h, rfl⟩
  rw [printedParts, List.mem_append, List.mem_cons] at hp
  rcases hp with hp | hp | hp
  · split_ifs at hp
    · exact Or.inl (List.mem_singleton.1 hp)
    · exact hgroups _ hp
  · exact Or.inl hp
  · split_ifs at hp
    · exact Or.inl (List.mem_singleton.1 hp)
    · exact hgroups _ hp

/-- A text of hexadecimal groups and empty parts. -/
def HexParts (buffer : List UInt8) (ps : List (List Char)) : Prop :=
  3 ≤ ps.length ∧ ∀ p ∈ ps, p = [] ∨ ∃ h, p = hex buffer h

namespace HexParts

variable {buffer : List UInt8} {ps : List (List Char)}

theorem not_mem (h : HexParts buffer ps) {c : Char} (hc : hexValue c = none) : ∀ p ∈ ps, c ∉ p := by
  intro p hp
  rcases h.2 p hp with rfl | ⟨k, rfl⟩
  · simp
  · exact separator_not_mem_hex buffer k hc

theorem mem_text (h : HexParts buffer ps) {c : Char} (hc : c ∈ [':'].intercalate ps) :
    c = ':' ∨ (hexValue c).isSome = true := by
  have hparts : ∀ p ∈ ps, c ∈ p → (hexValue c).isSome = true := by
    intro p hp hcp
    by_contra hnone
    exact h.not_mem (by simpa using hnone) p hp hcp
  obtain ⟨p, ps, rfl⟩ := List.exists_cons_of_ne_nil (l := ps) (by rintro rfl; simpa using h.1)
  rw [intercalate_cons, List.mem_append, List.mem_flatMap] at hc
  rcases hc with hc | ⟨q, hq, hc⟩
  · exact Or.inr (hparts p (by simp) hc)
  · rcases List.mem_cons.1 hc with hc | hc
    · exact Or.inl hc
    · exact Or.inr (hparts q (by simp [hq]) hc)

theorem text_ne_nil (h : HexParts buffer ps) : [':'].intercalate ps ≠ [] := by
  match ps, h.1 with
  | p :: q :: ps, _ => simp

theorem ipv4Pattern_eq_false {cs : List Char} (h : '.' ∉ cs) : ipv4Pattern cs = false := by
  rw [ipv4Pattern, List.splitOn_eq_singleton h]
  rfl

theorem fromString_eq (h : HexParts buffer ps) (alloc : Vector UInt8 16) :
    fromString alloc ([':'].intercalate ps) =
      (parseParts false ⟨alloc.toList, 0, 8 - ps.length + 1, false⟩ ps).bind new := by
  have hdot : '.' ∉ [':'].intercalate ps := by
    intro hmem
    rcases h.mem_text hmem with he | hs
    · cases he
    · cases hs
  have hlast : '.' ∉ ps.getLastD [] := by
    intro hmem
    cases ps with
    | nil => simp at hmem
    | cons p ps =>
        apply h.not_mem (c := '.') rfl _ (List.getLast_mem (by simp))
        rwa [List.getLastD_eq_getLast?, List.getLast?_eq_some_getLast (by simp), Option.getD_some] at hmem
  have hipv6 : ipv6Pattern ([':'].intercalate ps) = true := by
    simp only [ipv6Pattern, Bool.and_eq_true, Bool.not_eq_true', List.isEmpty_eq_false_iff, List.all_eq_true,
      Bool.or_eq_true, beq_iff_eq]
    refine ⟨h.text_ne_nil, fun c hc => ?_⟩
    rcases h.mem_text hc with he | hs
    · exact Or.inl (Or.inr he)
    · exact Or.inl (Or.inl hs)
  have hsplit : ([':'].intercalate ps).splitOn ':' = ps :=
    List.splitOn_intercalate ':' (h.not_mem rfl) (by rintro rfl; simpa using h.1)
  have hlen : ¬ ps.length < 3 := Nat.not_lt.2 h.1
  rw [fromString, if_neg (by simpa using h.text_ne_nil), ipv4Pattern_eq_false hdot, hipv6]
  simp only [hsplit, ipv4Pattern_eq_false hlast, hlen]
  simp [bind]

end HexParts

/-! ### The scan -/

/-- Which groups of the buffer are zero. -/
def pattern (buffer : List UInt8) : List Bool := (groupIndices 16).map (isZeroGroup buffer)

/-- The number of zero groups from group `k` on. -/
def runLength (z : List Bool) (k : ℕ) : ℕ := ((z.drop k).takeWhile id).length

/-- The length of the longest run of zero groups before group `k`. -/
def longestBefore (z : List Bool) (k : ℕ) : ℕ :=
  ((List.range k).map (runLength (z.take k))).foldl max 0

/-- At group `s` a run starts that is not longer than an earlier one, so that the scan keeps its
start, and the scan closes a group further behind it than that earlier run is long. -/
def StaleStart (z : List Bool) (s : ℕ) : Prop :=
  0 < s ∧ z.getD s false = true ∧ z.getD (s - 1) false = false ∧ runLength z s ≤ longestBefore z s ∧
    ∃ i ≤ 8, s + longestBefore z s < i ∧ (z[i]? = some false ∨ i = 8 ∧ z.getD 7 false = true)

instance (z : List Bool) (s : ℕ) : Decidable (StaleStart z s) := inferInstanceAs (Decidable (_ ∧ _))

/-- The run printed as `::` has only zero groups.  Behind a stale start this happens in a single
pattern, where the last run is longer than the wrong one. -/
def ScanExact (z : List Bool) : Prop :=
  (∀ s < 8, ¬ StaleStart z s) ∨ z = [true, false, true, false, false, true, true, true]

instance (z : List Bool) : Decidable (ScanExact z) := inferInstanceAs (Decidable (_ ∨ _))

def scanPattern (z : List Bool) : Scan :=
  (groupIndices 16).foldl (fun s i => scanGroup 16 (z.getD (i / 2) false) s i) ⟨-1, 0, -1⟩

theorem longest_eq (buffer : List UInt8) (h : buffer.length = 16) :
    longest buffer = scanPattern (pattern buffer) := by
  rw [longest, h]
  rfl

/-- What the scan finds: nothing, or a region of groups that is a run of zeros if the scan is exact. -/
def ScanSpec (z : List Bool) (s : Scan) (S L : ℕ) : Prop :=
  (s.longestStart = -1 ∧ s.length = 0 ∧ ScanExact z) ∨
    (0 < L ∧ S + L ≤ 8 ∧ s.longestStart = 2 * S ∧ s.length = 2 * L ∧
      ((∀ k < L, z.getD (S + k) false = true) ↔ ScanExact z))

instance (z : List Bool) (s : Scan) (S L : ℕ) : Decidable (ScanSpec z s S L) :=
  inferInstanceAs (Decidable (_ ∨ _))

theorem scanPattern_spec : ∀ z₀ z₁ z₂ z₃ z₄ z₅ z₆ z₇ : Bool,
    let z := [z₀, z₁, z₂, z₃, z₄, z₅, z₆, z₇]
    let s := scanPattern z
    ScanSpec z s (s.longestStart / 2).toNat (s.length / 2).toNat := by
  decide +kernel

theorem pattern_getD (buffer : List UInt8) {k : ℕ} (hk : k < 8) :
    (pattern buffer).getD k false = isZeroGroup buffer (2 * k) := by
  interval_cases k <;> rfl

/-! ### The round trip -/

theorem new_of_length {buffer : List UInt8} (h : buffer.length = 4 ∨ buffer.length = 16) :
    new buffer = .ok ⟨buffer, h⟩ := by
  rw [new, dif_pos h]

theorem isOctet_toDigits (b : UInt8) : isOctet (Nat.toDigits 10 b.toNat) = true := by
  have hall : ∀ n < 256, isOctet (Nat.toDigits 10 n) = true := by decide +kernel
  exact hall _ b.toNat_lt

theorem dot_not_mem_toDigits (n : ℕ) : '.' ∉ Nat.toDigits 10 n := by
  intro h
  have := JsString.isDigit_of_mem h
  cases this

theorem fromString_toString_of_four (alloc : Vector UInt8 16) (a : InetAddress) (ha : a.buffer.length = 4) :
    fromString alloc a.toString = .ok a := by
  obtain ⟨buffer, hvalid⟩ := a
  simp only at ha
  set parts := buffer.map fun b => Nat.toDigits 10 b.toNat with hparts
  have htext : toString ⟨buffer, hvalid⟩ = ['.'].intercalate parts := by rw [toString, if_pos ha]
  have hlen : parts.length = 4 := by simp [hparts, ha]
  have hsplit : (['.'].intercalate parts).splitOn '.' = parts := by
    refine List.splitOn_intercalate '.' ?_ (by rintro h; simp [h] at hlen)
    intro p hp
    obtain ⟨b, -, rfl⟩ := List.mem_map.1 hp
    exact dot_not_mem_toDigits _
  have hne : (['.'].intercalate parts).isEmpty = false := by
    match parts, hlen with
    | p :: q :: ps, _ => simp
  have hpattern : ipv4Pattern (['.'].intercalate parts) = true := by
    rw [ipv4Pattern, hsplit, hlen]
    simp [hparts, isOctet_toDigits]
  have hoctets : octets parts = buffer := by
    simp [octets, hparts, Function.comp_def, Nat.ofDigitChars_ten_toDigits]
  rw [htext, fromString, hne, hpattern, hsplit, hoctets, new_of_length (Or.inl ha)]
  rfl

/-- The zero run of a text of 16 bytes, put back. -/
theorem zeroed_eq_iff (buffer : List UInt8) (hbuf : buffer.length = 16) {S L : ℕ} (hSL : S + L ≤ 8) :
    buffer.take (2 * S) ++ List.replicate (2 * L) 0 ++ buffer.drop (2 * (S + L)) = buffer ↔
      ∀ k < L, (pattern buffer).getD (S + k) false = true := by
  have hsplit : buffer.take (2 * S) ++ (buffer.drop (2 * S)).take (2 * L) ++ buffer.drop (2 * (S + L)) =
      buffer := by
    rw [Nat.mul_add, ← List.drop_drop, List.append_assoc, List.take_append_drop, List.take_append_drop]
  have hbyte : ∀ i, i < 2 * L → byte buffer (2 * S + i) = ((buffer.drop (2 * S)).take (2 * L)).getD i 0 := by
    intro i hi
    simp [byte, List.getD_eq_getElem?_getD, hi]
  have hmid : (buffer.drop (2 * S)).take (2 * L) = List.replicate (2 * L) 0 ↔
      ∀ i < 2 * L, byte buffer (2 * S + i) = 0 := by
    constructor
    · intro h i hi
      rw [hbyte i hi, h]
      simp [List.getD_eq_getElem?_getD, hi]
    · intro h
      apply List.ext_getElem (by simp; omega)
      intro i h₁ h₂
      have hi : i < 2 * L := by simpa using h₂
      have := h i hi
      rw [hbyte i hi, List.getD_eq_getElem?_getD, List.getElem?_eq_getElem h₁] at this
      simpa using this
  have hgroups : (∀ i < 2 * L, byte buffer (2 * S + i) = 0) ↔
      ∀ k < L, (pattern buffer).getD (S + k) false = true := by
    have hpat : ∀ k < L, (pattern buffer).getD (S + k) false = true ↔
        byte buffer (2 * S + 2 * k) = 0 ∧ byte buffer (2 * S + (2 * k + 1)) = 0 := by
      intro k hk
      rw [pattern_getD buffer (by omega), isZeroGroup, Nat.mul_add]
      simp [Nat.add_assoc]
    constructor
    · intro h k hk
      exact (hpat k hk).2 ⟨h _ (by omega), h _ (by omega)⟩
    · intro h i hi
      obtain ⟨h₀, h₁⟩ := (hpat (i / 2) (by omega)).1 (h (i / 2) (by omega))
      rcases Nat.mod_two_eq_zero_or_one i with hm | hm
      · rwa [show 2 * (i / 2) = i by omega] at h₀
      · rwa [show 2 * (i / 2) + 1 = i by omega] at h₁
  rw [← hgroups, ← hmid]
  conv_lhs => rhs; rw [← hsplit]
  simp [eq_comm]

/-- An address is read back from its text unless the scan prints nonzero groups as zeros. -/
theorem fromString_toString_iff (alloc : Vector UInt8 16) (a : InetAddress) :
    fromString alloc a.toString = .ok a ↔ (a.buffer.length = 16 → ScanExact (pattern a.buffer)) := by
  rcases a.valid with ha | ha
  · simp [fromString_toString_of_four alloc a ha, ha]
  · have hspec : ScanSpec (pattern a.buffer) (longest a.buffer) ((longest a.buffer).longestStart / 2).toNat
        ((longest a.buffer).length / 2).toNat := by
      rw [longest_eq a.buffer ha]
      exact scanPattern_spec _ _ _ _ _ _ _ _
    rcases hspec with ⟨hstart, hlength, hexact⟩ | ⟨hL, hSL, hstart, hlength, hexact⟩
    · have hparts : HexParts a.buffer ((groupIndices 16).map (hex a.buffer)) := by
        refine ⟨by simp [groupIndices], fun p hp => ?_⟩
        obtain ⟨h, -, rfl⟩ := List.mem_map.1 hp
        exact Or.inr ⟨h, rfl⟩
      have hbytes : (groupIndices 16).flatMap (fun h => toBE 2 (group a.buffer h)) = a.buffer := by
        rw [show groupIndices 16 = List.range' 0 8 2 from rfl, flatMap_toBE_group a.buffer 8 0 (by omega)]
        exact List.take_of_length_le (by simp; omega)
      have hread := parseParts_hex a.buffer (groupIndices 16) [] [] alloc.toList 1 false
        (by simp [groupIndices])
      simp only [List.append_nil, List.nil_append, List.length_nil, hbytes, parseParts] at hread
      have hdrop : alloc.toList.drop (2 * (groupIndices 16).length) = [] :=
        List.drop_eq_nil_of_le (by simp [groupIndices])
      rw [toString_eq_groups a ha hstart hlength, hparts.fromString_eq]
      have hfilling : (8 : ℤ) - ((groupIndices 16).map (hex a.buffer)).length + 1 = 1 := by
        simp [groupIndices]
      rw [hfilling, hread, hdrop, List.append_nil, Except.bind, new_of_length (Or.inr ha)]
      simp [hexact]
    · set S := ((longest a.buffer).longestStart / 2).toNat
      set L := ((longest a.buffer).length / 2).toNat
      have hparts : HexParts a.buffer (printedParts a.buffer S L) := by
        refine ⟨?_, fun p => mem_printedParts⟩
        unfold printedParts
        split_ifs <;> simp <;> omega
      have hlen : (a.buffer.take (2 * S) ++ List.replicate (2 * L) 0 ++ a.buffer.drop (2 * (S + L))).length =
          16 := by simp; omega
      rw [toString_eq a ha hL hSL hstart hlength, hparts.fromString_eq,
        parseParts_printedParts a.buffer alloc.toList ha (by simp) hL hSL]
      simp only [Except.bind]
      rw [new_of_length (Or.inr hlen), ← hexact, ← zeroed_eq_iff a.buffer ha hSL]
      obtain ⟨buffer, hvalid⟩ := a
      simp [ha]

/-- `0:1:0:1:1:1:1:1` -/
def staleAddress : InetAddress := ⟨[0, 0, 0, 1, 0, 0, 0, 1, 0, 1, 0, 1, 0, 1, 0, 1], Or.inr rfl⟩

/-- Its text is `0:1::1:1:1:1`, which reads as `0:1:0:0:1:1:1:1`. -/
theorem fromString_toString_staleAddress :
    staleAddress.toString = "0:1::1:1:1:1".toList ∧
    fromString (Vector.replicate 16 0) staleAddress.toString =
      .ok ⟨[0, 0, 0, 1, 0, 0, 0, 0, 0, 1, 0, 1, 0, 1, 0, 1], Or.inr rfl⟩ ∧
    ¬ fromString (Vector.replicate 16 0) staleAddress.toString = .ok staleAddress := by
  decide +kernel

end InetAddress
end CqlDriver
