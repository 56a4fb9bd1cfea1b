import Mathlib.Algebra.Ring.Int.Defs
import Mathlib.Algebra.Ring.Nat
import Mathlib.Data.List.Basic

/-!
The Python side of the extension: the objects that cross the boundary and the
exceptions that calls raise. Texts written by the interpreter or the binding
layer are not part of the source, so those exceptions carry their class only.
-/
namespace Membridge.Python

/-- A code point of a `str`: a Unicode scalar value, or a lone surrogate, which a
Python string may hold but UTF-8 cannot. -/
inductive CodePoint where
  | scalar (c : Char)
  | surrogate (index : Fin 2048)
  deriving DecidableEq

inductive PyValue where
  | none
  | bool (b : Bool)
  | int (i : Int)
  | float (bits : BitVec 64)
  | str (points : List CodePoint)
  | bytes (content : List UInt8)
  | bytearray (content : List UInt8)
  | list (items : List PyValue)
  | tuple (items : List PyValue)
  /-- An object of any other type, with the value of its `__index__` if it has one. -/
  | other (typeName : String) (index : Option Int)

inductive PyErr where
  | value (message : String)
  | os (message : String)
  | permission (message : String)
  | overflow
  | type
  | index
  | unicodeEncode
  | panic (message : String)
  deriving DecidableEq

inductive ShmError where
  | os (message : String)
  | invalidArg (message : String)
  | permission (message : String)
  deriving DecidableEq

/-- `From<ShmError> for PyErr`. -/
def ShmError.toPyErr : ShmError → PyErr
  | .os message => .os message
  | .invalidArg message => .value message
  | .permission message => .permission message

abbrev PyResult (α : Type) := Except PyErr α

namespace PyValue

/-- `type(v).__name__`. -/
def typeName : PyValue → String
  | .none => "NoneType"
  | .bool _ => "bool"
  | .int _ => "int"
  | .float _ => "float"
  | .str _ => "str"
  | .bytes _ => "bytes"
  | .bytearray _ => "bytearray"
  | .list _ => "list"
  | .tuple _ => "tuple"
  | .other name _ => name

def ofString (s : String) : PyValue := .str (s.toList.map .scalar)

/-- `extract::<i64>` on an `int`. -/
def extractI64 (i : Int) : PyResult Int :=
  if -2 ^ 63 ≤ i ∧ i < 2 ^ 63 then .ok i else .error .overflow

/-- `extract::<usize>`: anything with an index, `bool` included, that fits 64 bits. -/
def extractUsize : PyValue → PyResult Nat
  | .int i => if 0 ≤ i ∧ i < 2 ^ 64 then .ok i.toNat else .error .overflow
  | .bool b => .ok b.toNat
  | .other _ (some i) => if 0 ≤ i ∧ i < 2 ^ 64 then .ok i.toNat else .error .overflow
  | _ => .error .type

end PyValue

/-- `PyString::to_str`: fails on a lone surrogate. -/
def toChars : List CodePoint → PyResult (List Char)
  | [] => .ok []
  | .scalar c :: rest => (toChars rest).map (c :: ·)
  | .surrogate _ :: _ => .error .unicodeEncode

/-- `extract::<String>`. -/
def PyValue.extractString : PyValue → PyResult String
  | .str points => (toChars points).map String.ofList
  | _ => .error .type

@[simp] theorem toChars_scalars (chars : List Char) :
    toChars (chars.map .scalar) = .ok chars := by
  induction chars with
  | nil => rfl
  | cons c rest ih => simp [toChars, ih, Except.map]

/-- Only strings of scalar values have a `str` view. -/
theorem toChars_ok {points : List CodePoint} {chars : List Char}
    (valid : toChars points = .ok chars) : points = chars.map .scalar := by
  induction points generalizing chars with
  | nil =>
      cases valid
      rfl
  | cons point rest ih =>
      cases point with
      | surrogate index => cases valid
      | scalar c =>
          cases tail : toChars rest with
          | error e => simp [toChars, tail, Except.map] at valid
          | ok later =>
              simp only [toChars, tail, Except.map, Except.ok.injEq] at valid
              subst valid
              simp [ih tail]

@[simp] theorem extractString_ofString (s : String) :
    (PyValue.ofString s).extractString = .ok s := by
  simp [PyValue.ofString, PyValue.extractString, Except.map]

@[simp] theorem extractUsize_nat (n : Nat) (fits : n < 2 ^ 64) :
    (PyValue.int n).extractUsize = .ok n := by
  have bound : (n : Int) < 2 ^ 64 := by exact_mod_cast fits
  simp only [PyValue.extractUsize]
  rw [if_pos ⟨by omega, bound⟩, Int.toNat_natCast]

end Membridge.Python
