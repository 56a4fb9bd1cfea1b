import Mathlib.Data.List.Basic
import Mathlib.Logic.Function.Basic
import Membridge.Program

/-!
Decoders as programs over single byte loads. A reader says which bytes it looks
at and in which order, so the same decoder runs on a private buffer, on a slice
of shared memory byte by byte, and against a bound on the indices it may use.
-/
namespace Membridge.ByteReader
open Program

inductive Reader (α : Type) where
  | done (value : α)
  | load (index : Nat) (next : UInt8 → Reader α)

namespace Reader
variable {α β γ ε : Type}

def bind : Reader α → (α → Reader β) → Reader β
  | .done value, f => f value
  | .load index next, f => .load index fun byte => bind (next byte) f

instance : Monad Reader where
  pure := .done
  bind := bind

@[simp] theorem pure_eq (value : α) : (pure value : Reader α) = .done value := rfl

@[simp] theorem bind_eq (p : Reader α) (f : α → Reader β) : (p >>= f) = p.bind f := rfl

def byteAt (index : Nat) : Reader UInt8 := .load index .done

/-- The bytes of a subslice, in order. -/
def slice (start : Nat) : Nat → Reader (List UInt8)
  | 0 => .done []
  | count + 1 => do
      let first ← byteAt start
      let rest ← slice (start + 1) count
      return first :: rest

def run (mem : Nat → UInt8) : Reader α → α
  | .done value => value
  | .load index next => run mem (next (mem index))

@[simp] theorem run_done (mem : Nat → UInt8) (value : α) : run mem (.done value) = value := rfl

@[simp] theorem run_bind (mem : Nat → UInt8) (p : Reader α) (f : α → Reader β) :
    run mem (p.bind f) = run mem (f (run mem p)) := by
  induction p with
  | done value => rfl
  | load index next ih => exact ih (mem index)

@[simp] theorem run_byteAt (mem : Nat → UInt8) (index : Nat) :
    run mem (byteAt index) = mem index := rfl

/-- The bytes at positions `start .. start + count`. -/
def span (mem : Nat → UInt8) (start : Nat) : Nat → List UInt8
  | 0 => []
  | count + 1 => mem start :: span mem (start + 1) count

@[simp] theorem run_slice (mem : Nat → UInt8) (start count : Nat) :
    run mem (slice start count) = span mem start count := by
  induction count generalizing start with
  | zero => rfl
  | succ count ih => simp [slice, span, ih]

@[simp] theorem span_length (mem : Nat → UInt8) (start count : Nat) :
    (span mem start count).length = count := by
  induction count generalizing start with
  | zero => rfl
  | succ count ih => simp [span, ih]

theorem span_getElem (mem : Nat → UInt8) (start count index : Nat)
    (inside : index < (span mem start count).length) :
    (span mem start count)[index] = mem (start + index) := by
  induction count generalizing start index with
  | zero => simp [span] at inside
  | succ count ih =>
      cases index with
      | zero => rfl
      | succ index =>
          simp only [span, List.getElem_cons_succ]
          rw [ih]
          congr 1
          omega

theorem span_append (mem : Nat → UInt8) (start left right : Nat) :
    span mem start (left + right) = span mem start left ++ span mem (start + left) right := by
  induction left generalizing start with
  | zero => simp [span]
  | succ left ih =>
      have order : left + 1 + right = (left + right) + 1 := by omega
      have shift : start + 1 + left = start + (left + 1) := by omega
      simp only [order, span, ih, List.cons_append, shift]

/-- Two byte strings one after the other. -/
theorem span_split {mem : Nat → UInt8} {start : Nat} {first second : List UInt8}
    (there : span mem start (first ++ second).length = first ++ second) :
    span mem start first.length = first ∧
      span mem (start + first.length) second.length = second := by
  rw [List.length_append, span_append] at there
  exact List.append_inj there (by simp)

theorem span_shift (mem : Nat → UInt8) (origin start count : Nat) :
    span (fun index => mem (origin + index)) start count = span mem (origin + start) count := by
  induction count generalizing start with
  | zero => rfl
  | succ count ih =>
      rw [span, span, ih]
      rfl

theorem span_congr {left right : Nat → UInt8} {start count : Nat}
    (same : ∀ i, start ≤ i → i < start + count → left i = right i) :
    span left start count = span right start count := by
  apply List.ext_getElem
  · simp
  · intro index inside _
    rw [span_getElem, span_getElem]
    rw [span_length] at inside
    exact same _ (by omega) (by omega)

/-- The bytes put one after the other, the first at `start`. -/
def overwrite (mem : Nat → UInt8) : Nat → List UInt8 → Nat → UInt8
  | _, [] => mem
  | start, byte :: rest => overwrite (Function.update mem start byte) (start + 1) rest

theorem overwrite_outside (mem : Nat → UInt8) {start place : Nat} {bytes : List UInt8}
    (outside : place < start ∨ start + bytes.length ≤ place) :
    overwrite mem start bytes place = mem place := by
  induction bytes generalizing mem start with
  | nil => rfl
  | cons byte rest ih =>
      rw [List.length_cons] at outside
      have other : place ≠ start := by omega
      rw [overwrite, ih _ (by omega), Function.update_of_ne other]

theorem overwrite_inside (mem : Nat → UInt8) {start index : Nat} {bytes : List UInt8}
    (inside : index < bytes.length) :
    overwrite mem start bytes (start + index) = bytes[index] := by
  induction bytes generalizing mem start index with
  | nil => cases inside
  | cons byte rest ih =>
      cases index with
      | zero =>
          rw [Nat.add_zero, overwrite, overwrite_outside _ (.inl (Nat.lt_succ_self start)),
            Function.update_self]
          rfl
      | succ index =>
          have shift : start + (index + 1) = start + 1 + index := by omega
          rw [shift, overwrite, ih _ (Nat.lt_of_succ_lt_succ inside)]
          rfl

theorem overwrite_append (mem : Nat → UInt8) (start : Nat) (first second : List UInt8) :
    overwrite mem start (first ++ second) =
      overwrite (overwrite mem start first) (start + first.length) second := by
  induction first generalizing mem start with
  | nil => rfl
  | cons byte rest ih =>
      have shift : start + (rest.length + 1) = start + 1 + rest.length := by omega
      rw [List.cons_append, overwrite, overwrite, ih, List.length_cons, shift]

@[simp] theorem span_overwrite (mem : Nat → UInt8) (start : Nat) (bytes : List UInt8) :
    span (overwrite mem start bytes) start bytes.length = bytes := by
  apply List.ext_getElem
  · simp
  · intro index left right
    rw [span_getElem, overwrite_inside mem right]

/-- Whatever the bytes are, every index a reader looks at is below `bound` and its result
meets `post`. -/
def Within (bound : Nat) : Reader α → (α → Prop) → Prop
  | .done value, post => post value
  | .load index next, post => index < bound ∧ ∀ byte, Within bound (next byte) post

@[simp] theorem within_done (bound : Nat) (value : α) (post : α → Prop) :
    Within bound (.done value) post = post value := rfl

theorem within_mono {bound : Nat} {p : Reader α} {post weaker : α → Prop}
    (entails : ∀ value, post value → weaker value) (holds : Within bound p post) :
    Within bound p weaker := by
  induction p with
  | done value => exact entails value holds
  | load index next ih => exact ⟨holds.1, fun byte => ih byte (holds.2 byte)⟩

/-- On any bytes. -/
theorem within_run {bound : Nat} {p : Reader α} {post : α → Prop} (holds : Within bound p post)
    (mem : Nat → UInt8) : post (run mem p) := by
  induction p with
  | done value => exact holds
  | load index next ih => exact ih (mem index) (holds.2 (mem index))

theorem within_bind {bound : Nat} (p : Reader α) (f : α → Reader β) (post : β → Prop) :
    Within bound (p.bind f) post = Within bound p fun value => Within bound (f value) post := by
  induction p with
  | done value => rfl
  | load index next ih => simp only [bind, Within, ih]

theorem within_slice {bound start count : Nat} (fits : start + count ≤ bound) :
    Within bound (slice start count) fun bytes => bytes.length = count := by
  induction count generalizing start with
  | zero => rfl
  | succ count ih =>
      refine ⟨by omega, ?_⟩
      intro first
      change Within bound ((slice (start + 1) count).bind _) _
      rw [within_bind]
      apply within_mono ?_ (ih (by omega))
      rintro rest rfl
      rfl

/-- A reader run on the bytes `mem` with an access of type `Op` for every load. -/
def program {Op : Type} {Res : Op → Type} (load : Nat → Prog Op Res UInt8) :
    Reader α → Prog Op Res α
  | .done value => .ret value
  | .load index next => (load index).bind fun byte => program load (next byte)

end Reader
end Membridge.ByteReader
