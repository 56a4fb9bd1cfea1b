import Membridge.ByteOrder
import Membridge.ByteReader
import Membridge.Python
import Membridge.Utf8

/-!
`src/mixed.rs`: Python values to bytes and back. Packing appends to a buffer;
decoding is a byte reader over a slice whose length is known, so every load a
decoder makes is visible. Slice lengths are at most `isize::MAX` and `usize` has
64 bits, so the sums below do not wrap.
-/
namespace Membridge.Mixed
open Python ByteOrder ByteReader

variable [Target]

abbrev Decoder (α : Type) := ExceptT PyErr Reader α

def invalidArg (message : String) : PyErr := (ShmError.invalidArg message).toPyErr

def checkBounds (cursor needed total : Nat) : PyResult Unit :=
  if cursor + needed > total then
    .error (invalidArg
      s!"out of bounds: cursor={cursor} + needed={needed} > data_len={total}")
  else .ok ()

def packValue (v : PyValue) (out : List UInt8) : PyResult (List UInt8) :=
  match v with
  | .bool b => .ok (out ++ [if b then 1 else 0])
  | .int i => do
      let x ← PyValue.extractI64 i
      return out ++ toNeBytes 8 (BitVec.ofInt 64 x).toNat
  | .float bits => .ok (out ++ toNeBytes 8 bits.toNat)
  | .str points => do
      let encoded := Utf8.encode (← toChars points)
      -- `encoded.len() as u32`
      return out ++ toNeBytes 4 (encoded.length % 2 ^ 32) ++ encoded
  | .bytes content => .ok (out ++ content)
  | .bytearray content => .ok (out ++ content)
  | v => .error (invalidArg
      s!"unsupported type '{v.typeName}'; supported: bool, int, float, str, bytes, bytearray")

/-- The loop over one list: each element is packed in order. -/
def packEach : List PyValue → List UInt8 → PyResult (List UInt8)
  | [], out => .ok out
  | v :: rest, out => do packEach rest (← packValue v out)

def packItem (item : PyValue) (out : List UInt8) : PyResult (List UInt8) :=
  match item with
  | .list sub => packEach sub out
  | item => packValue item out

def packItems : List PyValue → List UInt8 → PyResult (List UInt8)
  | [], out => .ok out
  | item :: rest, out => do packItems rest (← packItem item out)

def packMixed (items : List PyValue) : PyResult (List UInt8) := packItems items []

def ofF32 (raw : Nat) : PyValue := .float (Target.f32AsF64 (BitVec.ofNat 32 raw))

def ofI32 (raw : Nat) : PyValue := .int (BitVec.ofNat 32 raw).toInt

def ofI64 (raw : Nat) : PyValue := .int (BitVec.ofNat 64 raw).toInt

def ofF64 (raw : Nat) : PyValue := .float (BitVec.ofNat 64 raw)

def ofUnsigned (raw : Nat) : PyValue := .int raw

def ofLossy (raw : List UInt8) : PyValue := .str ((Utf8.fromUtf8Lossy raw).map .scalar)

/-- `data[start..start + width]` as a number. -/
def number (start width : Nat) : Decoder Nat :=
  ExceptT.mk do
    let raw ← Reader.slice start width
    return .ok (fromNeBytes raw)

def rawSlice (start width : Nat) : Decoder (List UInt8) :=
  ExceptT.mk do
    let raw ← Reader.slice start width
    return .ok raw

section UnpackOne
variable (len : Nat)

def tooShort (tag : String) (size : Nat) : PyErr :=
  invalidArg s!"not enough data to read '{tag}': need {size}, have {len}"

/-- The fixed-width arms of `unpack_one`. -/
def readFixed (tag : String) (size : Nat) (make : Nat → PyValue) : Decoder (PyValue × Nat) :=
  if len < size then throw (tooShort len tag size)
  else do
    let raw ← number 0 size
    return (make raw, size)

def unpackOne (tag : String) : Decoder (PyValue × Nat) :=
  match tag with
  | "bool" =>
      if len = 0 then throw (invalidArg "not enough data to read 'bool'")
      else do
        let raw ← number 0 1
        return (.bool (raw != 0), 1)
  | "u8" => readFixed len "u8" 1 ofUnsigned
  | "f32" => readFixed len "f32" 4 ofF32
  | "i32" => readFixed len "i32" 4 ofI32
  | "u32" => readFixed len "u32" 4 ofUnsigned
  | "float" => readFixed len "float" 8 ofF64
  | "f64" => readFixed len "f64" 8 ofF64
  | "u64" => readFixed len "u64" 8 ofUnsigned
  | "int" => readFixed len "int" 8 ofI64
  | "i64" => readFixed len "i64" 8 ofI64
  | "str" =>
      if len < 4 then throw (invalidArg "not enough data to read str length prefix")
      else do
        let size ← number 0 4
        if len < 4 + size then
          throw (invalidArg
            s!"not enough data to read str payload: need {4 + size}, have {len}")
        else
          let raw ← rawSlice 4 size
          return (ofLossy raw, 4 + size)
  | other => throw (invalidArg
      s!"unknown type tag '{other}'; supported: bool, int, float, f32, f64, i32, i64, u8, u32, u64, str")

end UnpackOne

section UnpackMixedCounted
variable (len : Nat)

/-- One repetition of a fixed-width entry at `cursor`. -/
def fixedAt (size : Nat) (make : Nat → PyValue) (cursor : Nat) : Decoder (PyValue × Nat) := do
  checkBounds cursor size len
  let raw ← number cursor size
  return (make raw, cursor + size)

def strAt (cursor : Nat) : Decoder (PyValue × Nat) := do
  checkBounds cursor 4 len
  let size ← number cursor 4
  let cursor := cursor + 4
  checkBounds cursor size len
  let raw ← rawSlice cursor size
  return (ofLossy raw, cursor + size)

/-- `for _ in 0..count`, appending to the group. -/
def repeated (one : Nat → Decoder (PyValue × Nat)) :
    Nat → List PyValue → Nat → Decoder (List PyValue × Nat)
  | 0, group, cursor => return (group, cursor)
  | count + 1, group, cursor => do
      let (v, cursor) ← one cursor
      repeated one count (group ++ [v]) cursor

/-- The tag table of `unpack_mixed_counted`; `none` for an unknown tag. -/
def repetition (tag : String) : Option (Nat → Decoder (PyValue × Nat)) :=
  match tag with
  | "bool" => some (fixedAt len 1 fun raw => .bool (raw != 0))
  | "u8" => some (fixedAt len 1 ofUnsigned)
  | "f32" => some (fixedAt len 4 ofF32)
  | "i32" => some (fixedAt len 4 ofI32)
  | "u32" => some (fixedAt len 4 ofUnsigned)
  | "int" => some (fixedAt len 8 ofI64)
  | "i64" => some (fixedAt len 8 ofI64)
  | "float" => some (fixedAt len 8 ofF64)
  | "f64" => some (fixedAt len 8 ofF64)
  | "u64" => some (fixedAt len 8 ofUnsigned)
  | "str" => some (strAt len)
  | _ => none

/-- `(tag, count)` of a schema entry. -/
def schemaEntry (item : PyValue) : PyResult (String × Nat) :=
  match item with
  | .tuple fields => do
      let first ← fields[0]?.elim (.error .index) .ok
      let tag ← first.extractString
      let second ← fields[1]?.elim (.error .index) .ok
      let count ← second.extractUsize
      return (tag, count)
  | _ => .error (invalidArg "schema entries must be (type_tag, count) tuples")

/-- What an entry adds to the result: its group, or the bare value if the count is 1. -/
def entryValue (count : Nat) (group : List PyValue) : PyResult PyValue :=
  if count = 1 then group[0]?.elim (.error .index) .ok else .ok (.list group)

def unpackEntries : List PyValue → List PyValue → Nat → Decoder (List PyValue × Nat)
  | [], result, cursor => return (result, cursor)
  | item :: rest, result, cursor => do
      let (tag, count) ← schemaEntry item
      match repetition len tag with
      | none => throw (invalidArg s!"unknown type tag '{tag}'")
      | some one =>
          let (group, cursor) ← repeated one count [] cursor
          let v ← entryValue count group
          unpackEntries rest (result ++ [v]) cursor

def unpackMixedCounted (schema : List PyValue) : Decoder (List PyValue × Nat) :=
  unpackEntries len schema [] 0

end UnpackMixedCounted
end Membridge.Mixed
