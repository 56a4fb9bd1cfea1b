import Mathlib.Data.List.Basic
import Mathlib.Tactic.Common

/-!
Calls of Windows, and what a process may name in them. The system is not modelled: it
may answer anything at any time, and only what was asked and what it answered is kept.
-/
namespace Membridge.Win32

inductive Syscall where
  | createFileMapping (high low : Nat) (name : String)
  | openFileMapping (name : String)
  | mapViewOfFile (handle size : Nat)
  | unmapViewOfFile (start : Nat)
  | closeHandle (handle : Nat)
  deriving DecidableEq

abbrev NonNull := { start : Nat // start ≠ 0 }

/-- A handle for the first two, an address for `MapViewOfFile`. -/
abbrev Syscall.Answer : Syscall → Type
  | .createFileMapping _ _ _ => Nat
  | .openFileMapping _ => Nat
  | .mapViewOfFile _ _ => NonNull
  | .unmapViewOfFile _ => Unit
  | .closeHandle _ => Unit

/-- An error carries the system's text for it. -/
abbrev Syscall.Res (o : Syscall) : Type := Except String o.Answer

def Syscall.Opens : Syscall → Prop
  | .createFileMapping _ _ _ => True
  | .openFileMapping _ => True
  | _ => False

abbrev Event := Σ o : Syscall, o.Res

namespace Event

def obtained : Event → Option Nat
  | ⟨.createFileMapping _ _ _, .ok handle⟩ => some handle
  | ⟨.openFileMapping _, .ok handle⟩ => some handle
  | _ => none

/-- Whatever `CloseHandle` answers. -/
def closed : Event → Option Nat
  | ⟨.closeHandle handle, _⟩ => some handle
  | _ => none

/-- The address with the size that was asked for. -/
def mapped : Event → Option (Nat × Nat)
  | ⟨.mapViewOfFile _ size, .ok start⟩ => some (start.val, size)
  | _ => none

def unmapped : Event → Option Nat
  | ⟨.unmapViewOfFile start, _⟩ => some start
  | _ => none

end Event

section Traces
variable (trace : List Event) (e : Event)

def obtained : List Nat := trace.filterMap Event.obtained

def closed : List Nat := trace.filterMap Event.closed

def mapped : List (Nat × Nat) := trace.filterMap Event.mapped

def unmapped : List Nat := trace.filterMap Event.unmapped

@[simp] theorem obtained_snoc : obtained (trace ++ [e]) = obtained trace ++ e.obtained.toList := by
  cases found : e.obtained <;> simp [obtained, found]

@[simp] theorem closed_snoc : closed (trace ++ [e]) = closed trace ++ e.closed.toList := by
  cases found : e.closed <;> simp [closed, found]

@[simp] theorem mapped_snoc : mapped (trace ++ [e]) = mapped trace ++ e.mapped.toList := by
  cases found : e.mapped <;> simp [mapped, found]

@[simp] theorem unmapped_snoc : unmapped (trace ++ [e]) = unmapped trace ++ e.unmapped.toList := by
  cases found : e.unmapped <;> simp [unmapped, found]

end Traces

/-- A handle that was given more often than it was closed. -/
def Open (trace : List Event) (handle : Nat) : Prop :=
  (closed trace).count handle < (obtained trace).count handle

/-- An address that was given more often than it was unmapped. -/
def Viewed (trace : List Event) (start : Nat) : Prop :=
  (unmapped trace).count start < ((mapped trace).map Prod.fst).count start

/-- What the safety comments of `win32.rs` ask of a call after these. -/
def Founded (before : List Event) : Event → Prop
  | ⟨.mapViewOfFile handle _, _⟩ => Open before handle
  | ⟨.closeHandle handle, _⟩ => Open before handle
  | ⟨.unmapViewOfFile start, _⟩ => Viewed before start
  | _ => True

/-- Every call is founded on the answers before it. -/
def Proper (trace : List Event) : Prop :=
  ∀ before e after, trace = before ++ e :: after → Founded before e

theorem proper_nil : Proper [] := by
  intro before e after same
  simp at same

theorem Proper.snoc {trace : List Event} {e : Event} (proper : Proper trace)
    (founded : Founded trace e) : Proper (trace ++ [e]) := by
  intro before other after same
  rcases List.eq_nil_or_concat after with rfl | ⟨rest, last, rfl⟩
  · obtain ⟨rfl, rfl⟩ := List.append_singleton_inj.mp same
    exact founded
  · rw [List.concat_eq_append, ← List.cons_append, ← List.append_assoc] at same
    exact proper before other rest (List.append_singleton_inj.mp same).1

/-- Any answer to any call. -/
def Asks (trace : List Event) (o : Syscall) (r : o.Res) (after : List Event) : Prop :=
  after = trace ++ [⟨o, r⟩]

end Membridge.Win32
