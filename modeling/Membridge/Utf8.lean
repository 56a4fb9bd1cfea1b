import Mathlib.Data.List.Basic

/-!
UTF-8 on byte lists. Encoding is that of the core library. Lossy decoding puts
U+FFFD for every maximal prefix of an ill-formed sequence, as the Unicode
standard recommends and the Rust library does.
-/
namespace Membridge.Utf8

def encode (chars : List Char) : List UInt8 := chars.flatMap String.utf8EncodeChar

def isContinuation (byte : UInt8) : Bool := 0x80 ≤ byte && byte ≤ 0xBF

/-- The second bytes that may follow a lead byte. -/
def secondOk (lead second : UInt8) : Bool :=
  if lead = 0xE0 then 0xA0 ≤ second && second ≤ 0xBF
  else if lead = 0xED then 0x80 ≤ second && second ≤ 0x9F
  else if lead = 0xF0 then 0x90 ≤ second && second ≤ 0xBF
  else if lead = 0xF4 then 0x80 ≤ second && second ≤ 0x8F
  else isContinuation second

/-- How many bytes one U+FFFD replaces when no character starts here. -/
def malformedLength : List UInt8 → Nat
  | lead :: second :: third :: _ =>
      if 0xE0 ≤ lead && lead ≤ 0xEF then
        if secondOk lead second then 2 else 1
      else if 0xF0 ≤ lead && lead ≤ 0xF4 then
        if secondOk lead second then (if isContinuation third then 3 else 2) else 1
      else 1
  | [lead, second] =>
      if 0xE0 ≤ lead && lead ≤ 0xF4 then (if secondOk lead second then 2 else 1) else 1
  | _ => 1

def decodeFrom : Nat → List UInt8 → List Char
  | 0, _ => []
  | _ + 1, [] => []
  | fuel + 1, byte :: rest =>
      match ByteArray.utf8DecodeChar? (byte :: rest).toByteArray 0 with
      | some c => c :: decodeFrom fuel ((byte :: rest).drop c.utf8Size)
      | none => '\uFFFD' :: decodeFrom fuel ((byte :: rest).drop (malformedLength (byte :: rest)))

/-- `String::from_utf8_lossy`. Every round takes at least one byte. -/
def fromUtf8Lossy (bytes : List UInt8) : List Char := decodeFrom bytes.length bytes

theorem encode_cons (c : Char) (chars : List Char) :
    encode (c :: chars) = String.utf8EncodeChar c ++ encode chars := rfl

theorem decode_encoded (c : Char) (rest : List UInt8) :
    ByteArray.utf8DecodeChar? (String.utf8EncodeChar c ++ rest).toByteArray 0 = some c := by
  rw [List.toByteArray_append]
  exact ByteArray.utf8DecodeChar?_utf8EncodeChar_append

theorem decodeFrom_encode (chars : List Char) (fuel : Nat)
    (enough : (encode chars).length ≤ fuel) : decodeFrom fuel (encode chars) = chars := by
  induction chars generalizing fuel with
  | nil => cases fuel <;> rfl
  | cons c rest ih =>
      have width : (String.utf8EncodeChar c).length = c.utf8Size := String.length_utf8EncodeChar c
      have positive := c.utf8Size_pos
      rw [encode_cons] at enough ⊢
      rw [List.length_append, width] at enough
      obtain ⟨fuel, rfl⟩ : ∃ less, fuel = less + 1 := ⟨fuel - 1, by omega⟩
      cases shape : String.utf8EncodeChar c ++ encode rest with
      | nil =>
          have empty := congrArg List.length shape
          simp only [List.length_append, width, List.length_nil] at empty
          omega
      | cons byte more =>
          have decoded := decode_encoded c (encode rest)
          rw [shape] at decoded
          simp only [decodeFrom, decoded]
          rw [← shape, List.drop_left' width, ih fuel (by omega)]

@[simp] theorem fromUtf8Lossy_encode (chars : List Char) :
    fromUtf8Lossy (encode chars) = chars :=
  decodeFrom_encode chars _ (Nat.le_refl _)

end Membridge.Utf8
