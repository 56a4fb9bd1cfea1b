import Mathlib.Data.Fintype.Card
import Mathlib.Logic.Function.Basic
import Mathlib.Tactic.Common

/-!
Who is inside a readers-writer lock, and the number that stands for it: how many
readers there are, or minus one for a writer. Entering and leaving change the
number by one step each; no thread, word or operation is fixed here.
-/
namespace Membridge.Occupancy

inductive Phase where
  | out
  | reading
  | writing
  deriving DecidableEq

variable {T : Type} [Fintype T] [DecidableEq T]

def readers (ph : T → Phase) : Nat := (Finset.univ.filter fun t => ph t = .reading).card

section Count
variable {ph : T → Phase} {t : T} {p : Phase}

omit [DecidableEq T] in
theorem readers_lt (absent : ph t ≠ .reading) : readers ph < Fintype.card T := by
  apply Finset.card_lt_card
  rw [Finset.ssubset_univ_iff]
  intro all
  have member : t ∈ Finset.univ.filter fun u => ph u = .reading := by
    rw [all]
    exact Finset.mem_univ t
  exact absent (Finset.mem_filter.mp member).2

omit [DecidableEq T] in
theorem readers_pos (inside : ph t = .reading) : 0 < readers ph := by
  apply Finset.card_pos.mpr
  exact ⟨t, Finset.mem_filter.mpr ⟨Finset.mem_univ t, inside⟩⟩

omit [DecidableEq T] in
theorem readers_eq_zero_iff : readers ph = 0 ↔ ∀ u, ph u ≠ .reading := by
  rw [readers, Finset.card_eq_zero, Finset.filter_eq_empty_iff]
  simp

theorem readers_enter (absent : ph t ≠ .reading) :
    readers (Function.update ph t .reading) = readers ph + 1 := by
  have grown : (Finset.univ.filter fun u => Function.update ph t .reading u = .reading) =
      insert t (Finset.univ.filter fun u => ph u = .reading) := by
    ext u
    by_cases same : u = t
    · simp [same]
    · simp [same]
  rw [readers, grown, Finset.card_insert_of_notMem]
  · rfl
  · simpa using absent

theorem readers_leave (inside : ph t = .reading) (other : p ≠ .reading) :
    readers (Function.update ph t p) + 1 = readers ph := by
  have shrunk : (Finset.univ.filter fun u => Function.update ph t p u = .reading) =
      (Finset.univ.filter fun u => ph u = .reading).erase t := by
    ext u
    by_cases same : u = t
    · simp [same, other]
    · simp [same]
  have member : t ∈ Finset.univ.filter fun u => ph u = .reading :=
    Finset.mem_filter.mpr ⟨Finset.mem_univ t, inside⟩
  rw [readers, shrunk]
  exact Finset.card_erase_add_one member

end Count

/-- The number says who is inside. -/
inductive Encodes (ph : T → Phase) (n : Int) : Prop where
  | shared (noWriter : ∀ u, ph u ≠ .writing) (count : n = readers ph)
  | exclusive (t : T) (only : ph t = .writing) (rest : ∀ u, u ≠ t → ph u = .out) (mark : n = -1)

namespace Encodes
variable {ph : T → Phase} {n : Int} {t u : T}

omit [DecidableEq T] in
theorem empty : Encodes (fun _ : T => .out) 0 := by
  apply shared
  · simp
  · symm
    exact_mod_cast readers_eq_zero_iff.mpr (by simp)

omit [DecidableEq T] in
theorem nonneg_shared (encodes : Encodes ph n) (nonneg : 0 ≤ n) :
    (∀ u, ph u ≠ .writing) ∧ n = readers ph := by
  cases encodes with
  | shared noWriter count => exact ⟨noWriter, count⟩
  | exclusive t only rest mark => omega

omit [DecidableEq T] in
theorem at_least (encodes : Encodes ph n) : -1 ≤ n := by
  cases encodes with
  | shared noWriter count => omega
  | exclusive t only rest mark => omega

omit [DecidableEq T] in
/-- A writer is alone. -/
theorem alone (encodes : Encodes ph n) (inside : ph t = .writing) (other : u ≠ t) :
    ph u = .out := by
  cases encodes with
  | shared noWriter count => exact absurd inside (noWriter t)
  | exclusive x only rest mark =>
      by_cases same : t = x
      · subst same
        exact rest u other
      · rw [rest t same] at inside
        cases inside

omit [DecidableEq T] in
/-- Seen from outside, the number can still grow by one below the number of threads. -/
theorem room (encodes : Encodes ph n) (outside : ph t = .out) : n + 1 ≤ Fintype.card T := by
  cases encodes with
  | shared noWriter count =>
      have less : readers ph < Fintype.card T := readers_lt (t := t) (by simp [outside])
      omega
  | exclusive x only rest mark => omega

omit [DecidableEq T] in
theorem all_out (encodes : Encodes ph n) (left : ∀ u, ph u = .out) : n = 0 := by
  cases encodes with
  | shared noWriter count =>
      have zero : readers ph = 0 := readers_eq_zero_iff.mpr (by simp [left])
      omega
  | exclusive t only rest mark =>
      rw [left t] at only
      cases only

omit [DecidableEq T] in
/-- The number of readers, told by the number. -/
theorem count (encodes : Encodes ph n) : (readers ph : Int) = if 0 < n then n else 0 := by
  cases encodes with
  | shared noWriter count =>
      by_cases positive : 0 < n
      · rw [if_pos positive, count]
      · rw [if_neg positive]
        omega
  | exclusive t only rest mark =>
      have zero : readers ph = 0 := by
        apply readers_eq_zero_iff.mpr
        intro u
        by_cases same : u = t
        · simp [same, only]
        · simp [rest u same]
      rw [zero, mark]
      rfl

omit [DecidableEq T] in
theorem writer_iff (encodes : Encodes ph n) : n = -1 ↔ ∃ u, ph u = .writing := by
  cases encodes with
  | shared noWriter count =>
      constructor
      · omega
      · rintro ⟨u, inside⟩
        exact absurd inside (noWriter u)
  | exclusive t only rest mark => exact ⟨fun _ => ⟨t, only⟩, fun _ => mark⟩

theorem enter_reading (encodes : Encodes ph n) (outside : ph t = .out) (nonneg : 0 ≤ n) :
    Encodes (Function.update ph t .reading) (n + 1) := by
  obtain ⟨noWriter, count⟩ := encodes.nonneg_shared nonneg
  apply shared
  · intro u
    by_cases same : u = t
    · simp [same]
    · simpa [same] using noWriter u
  · rw [readers_enter (by simp [outside]), count]
    push_cast
    rfl

theorem leave_reading (encodes : Encodes ph n) (inside : ph t = .reading) :
    Encodes (Function.update ph t .out) (n - 1) := by
  cases encodes with
  | shared noWriter count =>
      apply shared
      · intro u
        by_cases same : u = t
        · simp [same]
        · simpa [same] using noWriter u
      · have left := readers_leave (p := .out) inside (by simp)
        omega
  | exclusive x only rest mark =>
      by_cases same : t = x
      · rw [same, only] at inside
        cases inside
      · rw [rest t same] at inside
        cases inside

theorem enter_writing (encodes : Encodes ph 0) :
    Encodes (Function.update ph t .writing) (-1) := by
  obtain ⟨noWriter, count⟩ := encodes.nonneg_shared (Int.le_refl 0)
  have empty : ∀ u, ph u ≠ .reading := readers_eq_zero_iff.mp (by omega)
  apply exclusive t
  · simp
  · intro u other
    rw [Function.update_of_ne other]
    cases at_u : ph u with
    | out => rfl
    | reading => exact absurd at_u (empty u)
    | writing => exact absurd at_u (noWriter u)
  · rfl

theorem leave_writing (encodes : Encodes ph n) (inside : ph t = .writing) :
    Encodes (Function.update ph t .out) 0 := by
  have nobody : Function.update ph t .out = fun _ => .out := by
    funext u
    by_cases same : u = t
    · simp [same]
    · rw [Function.update_of_ne same]
      exact encodes.alone inside same
  rw [nobody]
  exact empty

end Encodes
end Membridge.Occupancy
