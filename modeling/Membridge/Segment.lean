import Mathlib.Logic.Function.Basic
import Membridge.Program
import Membridge.Python

/-!
A named segment: its handles, as `src/platform/unix.rs` and `src/shared_memory.rs`
keep them, and what a view of it shares with others. That is the mapped region,
whose first four bytes are the lock word, and the cursors of the views. Bytes are
addressed by their offset in the region; no access below is one to the bytes of
the lock word.
-/
namespace Membridge.Segment
open Program Python

/-- `fd` stands for the open object. -/
structure PlatformHandle where
  fd : Nat
  size : Nat
  name : String

structure SharedMemory where
  handle : PlatformHandle
  isCreator : Bool

def SharedMemory.size (self : SharedMemory) : Nat := self.handle.size

inductive SegOp where
  | loadState
  | compareExchange (cur new : BitVec 32)
  | fetchSub (n : BitVec 32)
  | storeState (v : BitVec 32)
  | readByte (offset : Nat)
  | writeByte (offset : Nat) (byte : UInt8)
  | loadCursor (view : Nat)
  | storeCursor (view : Nat) (pos : BitVec 64)
  | fetchAddCursor (view : Nat) (n : BitVec 64)
  deriving DecidableEq

/-- An exchange answers whether it took place; the two `fetch` operations, the old value. -/
abbrev SegOp.Res : SegOp → Type
  | .loadState => BitVec 32
  | .compareExchange _ _ => Bool
  | .fetchSub _ => BitVec 32
  | .storeState _ => Unit
  | .readByte _ => UInt8
  | .writeByte _ _ => Unit
  | .loadCursor _ => BitVec 64
  | .storeCursor _ _ => Unit
  | .fetchAddCursor _ _ => BitVec 64

structure SegMem where
  state : BitVec 32
  bytes : Nat → UInt8
  cursors : Nat → BitVec 64

def SegMem.exec : (o : SegOp) → SegMem → o.Res × SegMem
  | .loadState, m => (m.state, m)
  | .compareExchange cur new, m =>
      if m.state = cur then (true, { m with state := new }) else (false, m)
  | .fetchSub n, m => (m.state, { m with state := m.state - n })
  | .storeState v, m => ((), { m with state := v })
  | .readByte offset, m => (m.bytes offset, m)
  | .writeByte offset byte, m => ((), { m with bytes := Function.update m.bytes offset byte })
  | .loadCursor view, m => (m.cursors view, m)
  | .storeCursor view pos, m => ((), { m with cursors := Function.update m.cursors view pos })
  | .fetchAddCursor view n, m =>
      (m.cursors view, { m with cursors := Function.update m.cursors view (m.cursors view + n) })

theorem exec_eq {o : SegOp} {m after : SegMem} {r : o.Res} (does : SegMem.exec o m = (r, after)) :
    r = (SegMem.exec o m).1 ∧ after = (SegMem.exec o m).2 := by
  rw [does]
  exact ⟨rfl, rfl⟩

theorem exchange_eq {cur new : BitVec 32} {m after : SegMem} {r : Bool}
    (does : SegMem.exec (.compareExchange cur new) m = (r, after)) :
    m.state = cur ∧ r = true ∧ after = { m with state := new } ∨
      m.state ≠ cur ∧ r = false ∧ after = m := by
  by_cases same : m.state = cur
  · simp only [SegMem.exec, if_pos same, Prod.mk.injEq] at does
    exact .inl ⟨same, does.1.symm, does.2.symm⟩
  · simp only [SegMem.exec, if_neg same, Prod.mk.injEq] at does
    exact .inr ⟨same, does.1.symm, does.2.symm⟩

abbrev SegProg := Prog SegOp SegOp.Res

abbrev SegM := ExceptT PyErr SegProg

end Membridge.Segment
