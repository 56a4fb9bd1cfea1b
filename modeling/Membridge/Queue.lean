import Mathlib.Algebra.Ring.Nat
import Mathlib.Data.List.Basic
import Mathlib.Data.List.Infix
import Mathlib.Tactic.Common

/-!
What a queue is for: the list of everything ever published, and how much of it
has been taken. Messages have a cost; published and taken costs are the two
positions of a stream, and their difference is what is queued.
-/
namespace Membridge.Queue

@[ext]
structure Fifo (M : Type) where
  published : List M
  taken : Nat
  taken_le : taken ≤ published.length

namespace Fifo
variable {M : Type}

def empty : Fifo M := ⟨[], 0, Nat.le_refl 0⟩

def delivered (q : Fifo M) : List M := q.published.take q.taken

def unread (q : Fifo M) : List M := q.published.drop q.taken

def publish (q : Fifo M) (m : M) : Fifo M where
  published := q.published ++ [m]
  taken := q.taken
  taken_le := by
    have := q.taken_le
    rw [List.length_append]
    omega

def advance (q : Fifo M) (more : q.taken < q.published.length) : Fifo M :=
  ⟨q.published, q.taken + 1, more⟩

theorem delivered_append_unread (q : Fifo M) : q.delivered ++ q.unread = q.published :=
  List.take_append_drop q.taken q.published

theorem publish_unread (q : Fifo M) (m : M) : (q.publish m).unread = q.unread ++ [m] := by
  simp only [unread, publish]
  rw [List.drop_append_of_le_length q.taken_le]

theorem publish_delivered (q : Fifo M) (m : M) : (q.publish m).delivered = q.delivered := by
  simp only [delivered, publish]
  rw [List.take_append_of_le_length q.taken_le]

theorem unread_cons {q : Fifo M} {m : M} {rest : List M} (front : q.unread = m :: rest) :
    ∃ more : q.taken < q.published.length,
      q.published[q.taken] = m ∧ (q.advance more).unread = rest ∧
        (q.advance more).delivered = q.delivered ++ [m] := by
  have more : q.taken < q.published.length := by
    by_contra done
    have empty : q.unread = [] := List.drop_eq_nil_of_le (by omega)
    rw [empty] at front
    cases front
  have split : q.unread = q.published[q.taken] :: q.published.drop (q.taken + 1) :=
    List.drop_eq_getElem_cons more
  rw [front] at split
  simp only [List.cons.injEq] at split
  refine ⟨more, split.1.symm, split.2.symm, ?_⟩
  simp only [delivered, advance]
  rw [List.take_succ_eq_append_getElem more, split.1]

theorem unread_empty_iff (q : Fifo M) : q.unread = [] ↔ q.taken = q.published.length := by
  have bound := q.taken_le
  constructor
  · intro empty
    have short := List.drop_eq_nil_iff.mp empty
    omega
  · intro all
    exact List.drop_eq_nil_of_le (by omega)

section Cost
variable (cost : M → Nat)

def total (ms : List M) : Nat := (ms.map cost).sum

@[simp] theorem total_nil : total cost [] = 0 := rfl

@[simp] theorem total_cons (m : M) (ms : List M) : total cost (m :: ms) =
    cost m + total cost ms := by
  simp [total]

@[simp] theorem total_append (left right : List M) :
    total cost (left ++ right) = total cost left + total cost right := by
  simp [total]

theorem total_mono {left right : List M} (early : left <+: right) :
    total cost left ≤ total cost right := by
  obtain ⟨more, rfl⟩ := early
  rw [total_append]
  omega

theorem total_pos {ms : List M} (positive : ∀ m, 0 < cost m) (nonempty : ms ≠ []) :
    0 < total cost ms := by
  cases ms with
  | nil => exact absurd rfl nonempty
  | cons m rest =>
      have := positive m
      rw [total_cons]
      omega

/-- Stream position of the first unread message. -/
def start (q : Fifo M) : Nat := total cost q.delivered

/-- Stream position after the last published message. -/
def stop (q : Fifo M) : Nat := total cost q.published

def queued (q : Fifo M) : Nat := total cost q.unread

theorem start_add_queued (q : Fifo M) : q.start cost + q.queued cost = q.stop cost := by
  rw [start, queued, stop, ← total_append, delivered_append_unread]

theorem publish_start (q : Fifo M) (m : M) : (q.publish m).start cost = q.start cost := by
  rw [start, publish_delivered, start]

theorem publish_stop (q : Fifo M) (m : M) :
    (q.publish m).stop cost = q.stop cost + cost m := by
  simp [stop, publish]

theorem publish_queued (q : Fifo M) (m : M) :
    (q.publish m).queued cost = q.queued cost + cost m := by
  simp [queued, publish_unread]

theorem queued_eq_zero_iff (positive : ∀ m, 0 < cost m) (q : Fifo M) :
    q.queued cost = 0 ↔ q.taken = q.published.length := by
  rw [← unread_empty_iff]
  constructor
  · intro zero
    by_contra some
    have := total_pos cost positive some
    rw [queued] at zero
    omega
  · intro empty
    rw [queued, empty, total_nil]

end Cost
end Fifo
end Membridge.Queue
