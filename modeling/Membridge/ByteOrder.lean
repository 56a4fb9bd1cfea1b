import Mathlib.Tactic.Common
import Mathlib.Algebra.Group.Nat.Even
import Mathlib.Tactic.Ring

/-!
Fixed-width numbers as byte lists: the digits of a number to the base 256, least
significant first, and their value. A target stores them in one of two orders.
-/
namespace Membridge.ByteOrder

def leBytes : Nat → Nat → List UInt8
  | 0, _ => []
  | width + 1, x => UInt8.ofNat (x % 256) :: leBytes width (x / 256)

def leValue : List UInt8 → Nat
  | [] => 0
  | byte :: rest => byte.toNat + 256 * leValue rest

@[simp] theorem leBytes_length (width x : Nat) : (leBytes width x).length = width := by
  induction width generalizing x with
  | zero => rfl
  | succ width ih => simp [leBytes, ih]

theorem leValue_lt (bytes : List UInt8) : leValue bytes < 256 ^ bytes.length := by
  induction bytes with
  | nil => simp [leValue]
  | cons byte rest ih =>
      have small : byte.toNat < 256 := byte.toNat_lt
      simp only [leValue, List.length_cons, Nat.pow_succ]
      omega

theorem leValue_leBytes (width x : Nat) : leValue (leBytes width x) = x % 256 ^ width := by
  induction width generalizing x with
  | zero => simp [leBytes, leValue, Nat.mod_one]
  | succ width ih =>
      have digit : (UInt8.ofNat (x % 256)).toNat = x % 256 := by
        simp
      simp only [leBytes, leValue, ih, digit]
      rw [Nat.pow_succ, Nat.mul_comm (256 ^ width) 256, Nat.mod_mul]

/-- What the processor decides: its byte order, and how it widens an `f32` to the
`f64` a float object holds. -/
class Target where
  bigEndian : Bool
  f32AsF64 : BitVec 32 → BitVec 64

/-- `f32 as f64`; a NaN keeps its payload and becomes quiet. -/
def widen (x : BitVec 32) : BitVec 64 :=
  let sign := x.toNat / 2 ^ 31
  let exponent := x.toNat / 2 ^ 23 % 2 ^ 8
  let fraction := x.toNat % 2 ^ 23
  let wide (e f : Nat) := BitVec.ofNat 64 (sign * 2 ^ 63 + e * 2 ^ 52 + f)
  if exponent = 255 then
    wide 2047 (if fraction = 0 then 0 else (fraction % 2 ^ 22 + 2 ^ 22) * 2 ^ 29)
  else if exponent = 0 then
    -- a subnormal of 32 bits is a normal number of 64
    if fraction = 0 then wide 0 0
    else wide (Nat.log2 fraction + 874) (fraction * 2 ^ (52 - Nat.log2 fraction) % 2 ^ 52)
  else wide (exponent + 896) (fraction * 2 ^ 29)

@[reducible] def littleEndian : Target := ⟨false, widen⟩

variable [Target]

def toNeBytes (width x : Nat) : List UInt8 :=
  if Target.bigEndian then (leBytes width x).reverse else leBytes width x

def fromNeBytes (bytes : List UInt8) : Nat :=
  if Target.bigEndian then leValue bytes.reverse else leValue bytes

@[simp] theorem toNeBytes_length (width x : Nat) : (toNeBytes width x).length = width := by
  unfold toNeBytes
  split <;> simp

theorem fromNeBytes_lt (bytes : List UInt8) : fromNeBytes bytes < 256 ^ bytes.length := by
  unfold fromNeBytes
  split
  · simpa using leValue_lt bytes.reverse
  · exact leValue_lt bytes

theorem fromNeBytes_toNeBytes (width x : Nat) :
    fromNeBytes (toNeBytes width x) = x % 256 ^ width := by
  unfold fromNeBytes toNeBytes
  split <;> simp [leValue_leBytes]

end Membridge.ByteOrder
