import Membridge.Decoding

/-!
Packing and unpacking are inverse: the bytes of a value, found anywhere in a
slice, decode to the value under each tag of its type, by `unpack_one` and by an
entry of `unpack_mixed_counted`.
-/
namespace Membridge.Encoding
open Python ByteOrder ByteReader Mixed Decoding

/-- The tags under which a value is read back. -/
def tagsOf : PyValue → List String
  | .bool _ => ["bool"]
  | .int _ => ["int", "i64"]
  | .float _ => ["float", "f64"]
  | .str _ => ["str"]
  | _ => []

variable [Target] {v : PyValue} {bytes : List UInt8} {mem : Nat → UInt8} {len cursor : Nat}

section Pack

/-- Packing appends, whatever the buffer holds. -/
theorem packValue_append (v : PyValue) (out : List UInt8) :
    packValue v out = (packValue v []).map (out ++ ·) := by
  cases v with
  | int i =>
      simp only [packValue]
      cases PyValue.extractI64 i <;> simp [Except.map, pure, Except.pure, bind, Except.bind]
  | str points =>
      simp only [packValue]
      cases toChars points <;> simp [Except.map, pure, Except.pure, bind, Except.bind]
  | _ => simp [packValue, Except.map]

theorem packEach_append (items : List PyValue) (out : List UInt8) :
    packEach items out = (packEach items []).map (out ++ ·) := by
  induction items generalizing out with
  | nil => simp [packEach, Except.map]
  | cons item rest ih =>
      simp only [packEach, bind, Except.bind]
      rw [packValue_append item out]
      cases packValue item [] with
      | error e => rfl
      | ok packed =>
          simp only [Except.map]
          rw [ih (out ++ packed), ih packed]
          cases packEach rest [] <;> simp [Except.map]

end Pack

section Values

/-- The bytes of a value of a fixed width, and the value made of them. -/
theorem fixedAt_back {size : Nat} {make : Nat → PyValue} (width : bytes.length = size)
    (there : Reader.span mem cursor bytes.length = bytes) (fits : cursor + bytes.length ≤ len)
    (value : make (fromNeBytes bytes) = v) :
    decode mem (fixedAt len size make cursor) = .ok (v, cursor + bytes.length) := by
  subst width
  have inside : ¬ len < cursor + bytes.length := by omega
  simp [fixedAt, Mixed.checkBounds, inside, Except.bind, there, value]

theorem readFixed_back {tag : String} {size : Nat} {make : Nat → PyValue}
    (width : bytes.length = size) (there : Reader.span mem 0 bytes.length = bytes)
    (fits : bytes.length ≤ len) (value : make (fromNeBytes bytes) = v) :
    decode mem (readFixed len tag size make) = .ok (v, bytes.length) := by
  subst width
  rw [decode_readFixed, if_neg (by omega), there, value]

theorem bool_value (b : Bool) :
    PyValue.bool (fromNeBytes [if b then 1 else 0] != 0) = .bool b := by
  cases b with
  | true => simp [fromNeBytes, leValue]
  | false => simp [fromNeBytes, leValue]

theorem word_value (x : BitVec 64) : BitVec.ofNat 64 (fromNeBytes (toNeBytes 8 x.toNat)) = x := by
  have small : x.toNat < 256 ^ 8 := x.isLt
  rw [fromNeBytes_toNeBytes, Nat.mod_eq_of_lt small, BitVec.ofNat_toNat, BitVec.setWidth_eq]

theorem int_value {i : Int} (low : -2 ^ 63 ≤ i) (high : i < 2 ^ 63) :
    ofI64 (fromNeBytes (toNeBytes 8 (BitVec.ofInt 64 i).toNat)) = .int i := by
  rw [ofI64, word_value, BitVec.toInt_ofInt]
  congr 1
  exact Int.bmod_eq_of_le (by omega) (by omega)

/-- A string's bytes split into its length and its characters, wherever they are. -/
theorem str_parts {chars : List Char} (short : (Utf8.encode chars).length < 2 ^ 32)
    (packed : bytes = toNeBytes 4 ((Utf8.encode chars).length % 2 ^ 32) ++ Utf8.encode chars)
    (there : Reader.span mem cursor bytes.length = bytes) :
    bytes.length = 4 + (Utf8.encode chars).length ∧
      fromNeBytes (Reader.span mem cursor 4) = (Utf8.encode chars).length ∧
      Reader.span mem (cursor + 4) (Utf8.encode chars).length = Utf8.encode chars := by
  have width : bytes.length = 4 + (Utf8.encode chars).length := by
    rw [packed, List.length_append, toNeBytes_length]
  refine ⟨width, ?_⟩
  rw [packed] at there
  obtain ⟨length, content⟩ := Reader.span_split there
  rw [toNeBytes_length] at length content
  refine ⟨?_, content⟩
  rw [length, fromNeBytes_toNeBytes, Nat.mod_eq_of_lt short, Nat.mod_eq_of_lt]
  exact Nat.lt_of_lt_of_eq short (by decide)

omit [Target] in
theorem str_value (chars : List Char) :
    ofLossy (Utf8.encode chars) = .str (chars.map .scalar) := by
  rw [ofLossy, Utf8.fromUtf8Lossy_encode]

theorem strAt_back {chars : List Char} (short : (Utf8.encode chars).length < 2 ^ 32)
    (packed : bytes = toNeBytes 4 ((Utf8.encode chars).length % 2 ^ 32) ++ Utf8.encode chars)
    (there : Reader.span mem cursor bytes.length = bytes) (fits : cursor + bytes.length ≤ len) :
    decode mem (strAt len cursor) = .ok (.str (chars.map .scalar), cursor + bytes.length) := by
  obtain ⟨width, length, content⟩ := str_parts short packed there
  have first : ¬ len < cursor + 4 := by omega
  have rest : ¬ len < cursor + (4 + (Utf8.encode chars).length) := by omega
  simp [strAt, Mixed.checkBounds, first, Except.bind, length, rest, content, str_value, width,
    Nat.add_assoc]

theorem str_back {chars : List Char} (short : (Utf8.encode chars).length < 2 ^ 32)
    (packed : bytes = toNeBytes 4 ((Utf8.encode chars).length % 2 ^ 32) ++ Utf8.encode chars)
    (there : Reader.span mem 0 bytes.length = bytes) (fits : bytes.length ≤ len) :
    decode mem (unpackOne len "str") = .ok (.str (chars.map .scalar), bytes.length) := by
  obtain ⟨width, length, content⟩ := str_parts short packed there
  have first : ¬ len < 4 := by omega
  have rest : ¬ len < 4 + (Utf8.encode chars).length := by omega
  rw [decode_str, if_neg first]
  simp only [length, if_neg rest]
  rw [content, str_value, width]

end Values

section RoundTrip

/-- What packing a value that has a tag gives, type by type. -/
inductive Packs : PyValue → List UInt8 → Prop where
  | bool (b : Bool) : Packs (.bool b) [if b then 1 else 0]
  | int {i : Int} (low : -2 ^ 63 ≤ i) (high : i < 2 ^ 63) :
      Packs (.int i) (toNeBytes 8 (BitVec.ofInt 64 i).toNat)
  | float (bits : BitVec 64) : Packs (.float bits) (toNeBytes 8 bits.toNat)
  | str (chars : List Char) : Packs (.str (chars.map .scalar))
      (toNeBytes 4 ((Utf8.encode chars).length % 2 ^ 32) ++ Utf8.encode chars)

theorem packs_of_ok (tagged : tagsOf v ≠ []) (packed : packValue v [] = .ok bytes) :
    Packs v bytes := by
  cases v with
  | bool b =>
      cases packed
      exact .bool b
  | int i =>
      by_cases range : -2 ^ 63 ≤ i ∧ i < 2 ^ 63
      · simp only [packValue, PyValue.extractI64, if_pos range] at packed
        cases packed
        exact .int range.1 range.2
      · simp only [packValue, PyValue.extractI64, if_neg range] at packed
        cases packed
  | float bits =>
      cases packed
      exact .float bits
  | str points =>
      simp only [packValue] at packed
      cases valid : toChars points with
      | error e =>
          rw [valid] at packed
          cases packed
      | ok chars =>
          rw [valid] at packed
          cases packed
          rw [toChars_ok valid]
          exact .str chars
  | _ => exact absurd rfl tagged

theorem Packs.pos (packs : Packs v bytes) : 0 < bytes.length := by
  cases packs <;> simp

/-- The bytes of a value decode to the value under each of its tags. -/
theorem unpackOne_back {tag : String} (packs : Packs v bytes) (tagged : tag ∈ tagsOf v)
    (there : Reader.span mem 0 bytes.length = bytes) (fits : bytes.length ≤ len)
    (small : len ≤ 2 ^ 32) :
    decode mem (unpackOne len tag) = .ok (v, bytes.length) := by
  cases packs with
  | bool b =>
      obtain rfl := List.mem_singleton.mp tagged
      have nonzero : len ≠ 0 := by
        rintro rfl
        simp at fits
      rw [decode_bool, if_neg nonzero]
      have byte : Reader.span mem 0 1 = [if b then 1 else 0] := there
      rw [byte, bool_value]
      rfl
  | int low high =>
      -- two tags read back what was packed as eight bytes
      simp only [tagsOf, List.mem_cons, List.not_mem_nil, or_false] at tagged
      rcases tagged with rfl | rfl
      · exact readFixed_back (by simp) there fits (int_value low high)
      · exact readFixed_back (by simp) there fits (int_value low high)
  | float bits =>
      simp only [tagsOf, List.mem_cons, List.not_mem_nil, or_false] at tagged
      have value : ofF64 (fromNeBytes (toNeBytes 8 bits.toNat)) = .float bits := by
        rw [ofF64, word_value]
      rcases tagged with rfl | rfl
      · exact readFixed_back (by simp) there fits value
      · exact readFixed_back (by simp) there fits value
  | str chars =>
      obtain rfl := List.mem_singleton.mp tagged
      have short : (Utf8.encode chars).length < 2 ^ 32 := by
        rw [List.length_append, toNeBytes_length] at fits
        omega
      exact str_back short rfl there fits

/-- So do they as one repetition of an entry. -/
theorem repetition_back {tag : String} (packs : Packs v bytes) (tagged : tag ∈ tagsOf v)
    (there : Reader.span mem cursor bytes.length = bytes) (fits : cursor + bytes.length ≤ len)
    (small : len ≤ 2 ^ 32) :
    ∃ one, repetition len tag = some one ∧
      decode mem (one cursor) = .ok (v, cursor + bytes.length) := by
  cases packs with
  | bool b =>
      obtain rfl := List.mem_singleton.mp tagged
      exact ⟨_, rfl, fixedAt_back rfl there fits (bool_value b)⟩
  | int low high =>
      simp only [tagsOf, List.mem_cons, List.not_mem_nil, or_false] at tagged
      rcases tagged with rfl | rfl
      · exact ⟨_, rfl, fixedAt_back (by simp) there fits (int_value low high)⟩
      · exact ⟨_, rfl, fixedAt_back (by simp) there fits (int_value low high)⟩
  | float bits =>
      simp only [tagsOf, List.mem_cons, List.not_mem_nil, or_false] at tagged
      have value : ofF64 (fromNeBytes (toNeBytes 8 bits.toNat)) = .float bits := by
        rw [ofF64, word_value]
      rcases tagged with rfl | rfl
      · exact ⟨_, rfl, fixedAt_back (by simp) there fits value⟩
      · exact ⟨_, rfl, fixedAt_back (by simp) there fits value⟩
  | str chars =>
      obtain rfl := List.mem_singleton.mp tagged
      have short : (Utf8.encode chars).length < 2 ^ 32 := by
        rw [List.length_append, toNeBytes_length] at fits
        omega
      exact ⟨_, rfl, strAt_back short rfl there fits⟩

end RoundTrip
end Membridge.Encoding
