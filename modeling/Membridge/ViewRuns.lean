import Membridge.Exclusion
import Membridge.View

/-!
Many threads calling views of one segment. Whatever a call does with the data,
it does inside a guard: every call keeps to the discipline of the lock.
-/
namespace Membridge.ViewRuns
open Program Interleaving Typestate Python ByteOrder ByteReader Arithmetic Mixed Occupancy
open Segment RwLock Exclusion View

section Calls
variable {n : Nat} {inits : Prop} {α : Type}

theorem onSlice_follows (pos : Nat) (reader : Reader α) :
    (lockDiscipline n inits).Follows .reading (onSlice pos reader) fun _ ph => ph = .reading := by
  induction reader with
  | done value => rfl
  | load index next ih => exact ⟨by simp [lockDiscipline, Admitted], fun byte _ => ih byte⟩

theorem copyTo_stays (start : Nat) (bytes : List UInt8) :
    (lockDiscipline n inits).Stays .writing (copyTo start bytes) := by
  induction bytes generalizing start with
  | nil => rfl
  | cons byte rest ih =>
      apply Discipline.stays_bind
      · exact Discipline.stays_access rfl fun _ _ => rfl
      · exact fun _ => ih (start + 1)

section Cursor
variable {ph : Phase} (view : MappedView)

theorem loadCursor_stays : (lockDiscipline n inits).Stays ph (loadCursor view) :=
  Discipline.stays_access trivial fun _ _ => rfl

theorem position_stays (offset : Option Nat) :
    (lockDiscipline n inits).Stays ph (position view offset) := by
  cases offset with
  | some o => rfl
  | none => exact Discipline.stays_bind (loadCursor_stays view) fun _ => rfl

theorem fetchAdd_stays (k : Nat) : (lockDiscipline n inits).Stays ph (fetchAdd view k) :=
  Discipline.stays_bind (Discipline.stays_access trivial fun _ _ => rfl) fun _ => rfl

theorem advance_stays (offset : Option Nat) (k : Nat) :
    (lockDiscipline n inits).Stays ph (advance view offset k) := by
  unfold advance
  split
  · exact fetchAdd_stays view k
  · rfl

end Cursor

theorem minus_stays {ph : Phase} (build : Build) (x y : BitVec 64) :
    (lockDiscipline n inits).Stays ph (build.minus x y : SegM (BitVec 64)) := by
  cases build with
  | release => rfl
  | debug =>
      simp only [Build.minus]
      split <;> rfl

theorem place_stays (view : MappedView) (bytes : List UInt8) (offset : Option Nat) :
    (lockDiscipline n inits).Stays .out (place view bytes offset) := by
  apply Discipline.stays_bind (position_stays view offset)
  intro pos
  apply Discipline.stays_bind (Discipline.stays_except _)
  intro _
  apply stays_writeGuard
  exact Discipline.stays_bind (copyTo_stays _ bytes) fun _ => advance_stays view offset _

theorem readAll_stays (view : MappedView) : (lockDiscipline n inits).Stays .out (readAll view) :=
  stays_readGuard (Discipline.stays_lift (onSlice_follows _ _))

theorem readRange_stays (view : MappedView) (offset length : Nat) :
    (lockDiscipline n inits).Stays .out (readRange view offset length) := by
  apply Discipline.stays_bind (Discipline.stays_except _)
  intro _
  exact stays_readGuard (Discipline.stays_lift (onSlice_follows _ _))

theorem zero_stays (view : MappedView) : (lockDiscipline n inits).Stays .out (zero view) :=
  stays_writeGuard (copyTo_stays _ _)

theorem seek_stays (view : MappedView) (pos : Nat) :
    (lockDiscipline n inits).Stays .out (seek view pos) := by
  unfold seek
  split
  · rfl
  · exact Discipline.stays_access trivial fun _ _ => rfl

/-- A creator's map stores the word outside any guard. -/
theorem map_stays (handle : Segment.SharedMemory) (mapping : PyResult Unit) (id : Nat) :
    (lockDiscipline n True).Stays .out (map handle mapping id) := by
  apply Discipline.stays_bind (Discipline.stays_except _)
  intro _
  have cursor : (lockDiscipline n True).Stays .out
      (Prog.access (SegOp.storeCursor id 0) : SegM Unit) :=
    Discipline.stays_access trivial fun _ _ => rfl
  unfold new
  split
  · rfl
  · dsimp only
    split
    · apply Discipline.stays_bind
      · exact Discipline.stays_lift ⟨⟨rfl, .inr ⟨rfl, trivial⟩⟩, fun _ _ => rfl⟩
      · exact fun _ => Discipline.stays_bind cursor fun _ => rfl
    · exact Discipline.stays_bind cursor fun _ => rfl

variable [Target]

theorem read_stays (build : Build) (view : MappedView) (tag : String) :
    (lockDiscipline n inits).Stays .out (read build view tag) := by
  apply Discipline.stays_bind (loadCursor_stays view)
  intro pos
  apply stays_readGuard
  apply Discipline.stays_bind (minus_stays build _ _)
  intro len
  apply Discipline.stays_bind
  · exact onSlice_follows _ _
  · rintro ⟨value, bytesRead⟩
    exact Discipline.stays_bind (fetchAdd_stays view bytesRead) fun _ => rfl

theorem readMixed_stays (view : MappedView) (schema : List PyValue) (offset : Option Nat) :
    (lockDiscipline n inits).Stays .out (readMixed view schema offset) := by
  apply Discipline.stays_bind (position_stays view offset)
  intro pos
  dsimp only
  split
  · rfl
  · apply stays_readGuard
    apply Discipline.stays_bind
    · exact onSlice_follows _ _
    · rintro ⟨result, bytesRead⟩
      exact Discipline.stays_bind (advance_stays view offset bytesRead) fun _ => rfl

theorem viewCode_follows (build : Build) (view : MappedView) (c : ViewCall) :
    (lockDiscipline n (isMap c = true)).Follows .out (viewCode build view c)
      fun _ ph => ph = .out := by
  change Discipline.Stays _ _ (viewCall build view c)
  cases c with
  | write data offset =>
      apply Discipline.stays_bind
      · exact Discipline.stays_bind (Discipline.stays_except _) fun _ => place_stays view _ offset
      · exact fun _ => rfl
  | writeMixed items offset =>
      apply Discipline.stays_bind
      · exact Discipline.stays_bind (Discipline.stays_except _) fun _ => place_stays view _ offset
      · exact fun _ => rfl
  | read tag => exact read_stays build view tag
  | readMixed schema offset =>
      exact Discipline.stays_bind (readMixed_stays view schema offset) fun _ => rfl
  | readRange offset length =>
      exact Discipline.stays_bind (readRange_stays view offset length) fun _ => rfl
  | readAll => exact Discipline.stays_bind (readAll_stays view) fun _ => rfl
  | zero => exact Discipline.stays_bind (zero_stays view) fun _ => rfl
  | seek pos => exact Discipline.stays_bind (seek_stays view pos) fun _ => rfl
  | tell => exact Discipline.stays_bind (loadCursor_stays view) fun _ => rfl
  | readerCount =>
      exact Discipline.stays_bind (Discipline.stays_lift readerCount_follows) fun _ => rfl
  | isWriteLocked =>
      exact Discipline.stays_bind (Discipline.stays_lift isWriteLocked_follows) fun _ => rfl
  | map handle mapping id =>
      simp only [isMap]
      exact Discipline.stays_bind (map_stays handle mapping id) fun _ => rfl

end Calls

section System
variable {T : Type} [Target]

abbrev ViewSystem (T : Type) := SegSystem T ViewCall (PyResult PyValue)

abbrev ViewConfig (T : Type) := SegConfig T ViewCall (PyResult PyValue)

abbrev ViewWorld (T : Type) := SegWorld T ViewCall (PyResult PyValue)

abbrev ViewEvent (T : Type) := SegEvent T ViewCall (PyResult PyValue)

/-- Every thread calls a view of its own choice; `allowed` says who makes which calls. -/
def viewSystem (build : Build) (views : T → MappedView) (allowed : T → ViewCall → Prop) :
    ViewSystem T where
  code t := viewCode build (views t)
  sem _ _ m o r after := SegMem.exec o m = (r, after)
  allowed := allowed
  enabled _ _ _ _ := True

theorem view_faithful {build : Build} {views : T → MappedView} {allowed : T → ViewCall → Prop}
    (t : T) (c : ViewCall) (o : SegOp) (m : SegMem) : (viewSystem build views allowed).sem t c m o
      (SegMem.exec o m).1 (SegMem.exec o m).2 := rfl

omit [Target]
variable (target : Target) (build : Build) (views : T → MappedView) (allowed : T → ViewCall → Prop)

instance [∀ t c, Decidable (allowed t c)] (t : T) (c : ViewCall) :
    Decidable ((@viewSystem T target build views allowed).allowed t c) :=
  inferInstanceAs (Decidable (allowed t c))

instance (world : ViewWorld T) (t : T) (c : ViewCall) (o : SegOp) :
    Decidable ((@viewSystem T target build views allowed).enabled world t c o) :=
  inferInstanceAs (Decidable True)

end System
end Membridge.ViewRuns
