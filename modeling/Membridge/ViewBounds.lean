import Membridge.DecodeBounds
import Membridge.Typestate
import Membridge.View

/-!
Where the calls of one view go: the cursor stays inside the data area, and so does
every byte a call touches. The state a program is in is the cursor; what it may do
next, and how far it may move it, follows from the check each call makes first.
-/
namespace Membridge.ViewBounds
open Program Typestate Python ByteOrder ByteReader Mixed Arithmetic DecodeBounds
open Segment RwLock View

def moved (cursor : Nat) : (o : SegOp) → o.Res → Nat
  | .storeCursor _ pos, _ => pos.toNat
  | .fetchAddCursor _ n, _ => cursor + n.toNat
  | _, _ => cursor

/-- An access of the view with its cursor where it is. -/
def Inside (view : MappedView) (cursor : Nat) : SegOp → Prop
  | .readByte offset => rwlockSize ≤ offset ∧ offset < view.size
  | .writeByte offset _ => rwlockSize ≤ offset ∧ offset < view.size
  | .loadCursor id => id = view.id
  | .storeCursor id pos => id = view.id ∧ pos.toNat ≤ view.dataSize
  | .fetchAddCursor id n => id = view.id ∧ cursor + n.toNat ≤ view.dataSize
  | _ => True

def ShowsCursor (cursor : Nat) : (o : SegOp) → o.Res → Prop
  | .loadCursor _, pos => pos.toNat = cursor
  | .fetchAddCursor _ _, pos => pos.toNat = cursor
  | _, _ => True

def viewDiscipline (view : MappedView) : Discipline SegOp SegOp.Res Nat where
  enter := moved
  may := Inside view
  sees := ShowsCursor

variable {view : MappedView} {α : Type}

/-- The cursor in memory is the state of the caller, and lies in the data area. -/
def CursorAt (view : MappedView) (cursor : Nat) (m : SegMem) : Prop :=
  (m.cursors view.id).toNat = cursor ∧ cursor ≤ view.dataSize

/-- Inside the data area the cursor does not wrap. -/
theorem view_governs (usize : view.size < 2 ^ 64) :
    (viewDiscipline view).Governs SegMem.exec (CursorAt view) := by
  rintro cursor m o ⟨rfl, low⟩ admitted
  have bound : view.dataSize < 2 ^ 64 := by
    rw [MappedView.dataSize]
    omega
  cases o with
  | loadCursor id =>
      cases admitted
      exact ⟨rfl, rfl, low⟩
  | storeCursor id pos =>
      obtain ⟨rfl, fits⟩ := admitted
      exact ⟨trivial, by simp [SegMem.exec, viewDiscipline, moved], fits⟩
  | fetchAddCursor id n =>
      obtain ⟨rfl, fits⟩ := admitted
      refine ⟨rfl, ?_, fits⟩
      simp only [SegMem.exec, viewDiscipline, moved, Function.update_self, BitVec.toNat_add]
      exact Nat.mod_eq_of_lt (by omega)
  | compareExchange cur new =>
      refine ⟨trivial, ?_⟩
      simp only [SegMem.exec]
      split <;> exact ⟨rfl, low⟩
  | _ => exact ⟨trivial, rfl, low⟩

section Guards
variable {cursor : Nat} {body : SegM α} {post : Except PyErr α → Nat → Prop}

theorem follows_scope (enter leave : SegProg Unit)
    (enters : (viewDiscipline view).Follows cursor enter fun _ later => later = cursor)
    (leaves : ∀ x, (viewDiscipline view).Follows x leave fun _ later => later = x)
    (inside : (viewDiscipline view).Follows cursor body.run post) :
    (viewDiscipline view).Follows cursor
      (enter.bind fun _ => body.run.bind fun result => leave.bind fun _ => .ret result) post := by
  rw [Discipline.follows_bind]
  apply Discipline.follows_mono ?_ enters
  rintro _ later rfl
  rw [Discipline.follows_bind]
  apply Discipline.follows_mono ?_ inside
  intro result later holds
  rw [Discipline.follows_bind]
  apply Discipline.follows_mono ?_ (leaves later)
  rintro _ x rfl
  exact holds

theorem follows_readGuard (inside : (viewDiscipline view).Follows cursor body.run post) :
    (viewDiscipline view).Follows cursor (withReadGuard body).run post := by
  refine follows_scope readLock readUnlock ⟨trivial, ?_⟩ ?_ inside
  · intro cur _
    dsimp only
    split
    · refine ⟨trivial, ?_⟩
      intro exchanged _
      cases exchanged with
      | true => rfl
      | false => rfl
    · rfl
  · exact fun x => ⟨trivial, fun _ _ => rfl⟩

theorem follows_writeGuard (inside : (viewDiscipline view).Follows cursor body.run post) :
    (viewDiscipline view).Follows cursor (withWriteGuard body).run post := by
  refine follows_scope writeLock writeUnlock ⟨trivial, ?_⟩ ?_ inside
  · intro exchanged _
    cases exchanged with
    | true => rfl
    | false => rfl
  · exact fun x => ⟨trivial, fun _ _ => rfl⟩

end Guards

section Parts
variable {cursor : Nat}

theorem onSlice_follows {pos bound : Nat} {reader : Reader α} {post : α → Prop}
    (within : reader.Within bound post) (fits : pos + bound ≤ view.dataSize) :
    (viewDiscipline view).Follows cursor (onSlice pos reader)
      fun value later => later = cursor ∧ post value := by
  induction reader with
  | done value => exact ⟨rfl, within⟩
  | load index next ih =>
      obtain ⟨low, later⟩ := within
      have place : rwlockSize ≤ dataPtr pos + index ∧ dataPtr pos + index < view.size := by
        rw [MappedView.dataSize] at fits
        rw [dataPtr]
        omega
      exact ⟨place, fun byte _ => ih byte (later byte)⟩

theorem copyTo_ends {start : Nat} {bytes : List UInt8} (low : rwlockSize ≤ start)
    (fits : start + bytes.length ≤ view.size) :
    (viewDiscipline view).Ends cursor (copyTo start bytes) fun _ later => later = cursor ∧
      True := by
  induction bytes generalizing start with
  | nil => exact ⟨rfl, trivial⟩
  | cons byte rest ih =>
      rw [List.length_cons] at fits
      have here : rwlockSize ≤ start ∧ start < view.size := by omega
      exact Discipline.ends_bind (Discipline.ends_access here fun _ _ => ⟨rfl, trivial⟩)
        fun _ _ => ih (by omega) (by omega)

theorem position_ends (offset : Option Nat) :
    (viewDiscipline view).Ends cursor (position view offset)
      fun pos later => later = cursor ∧ pos = offset.getD cursor := by
  cases offset with
  | some o => exact ⟨rfl, rfl⟩
  | none => exact ⟨rfl, fun pos shown => ⟨rfl, shown⟩⟩

theorem checkBounds_fits (usize : view.size < 2 ^ 64) {offset length : Nat}
    (passed : checkBounds view offset length = .ok ()) :
    0 < length ∧ offset + length ≤ view.dataSize := by
  have bound : view.dataSize < 2 ^ 64 - 1 := by
    have large := view.large
    rw [rwlockSize] at large
    rw [MappedView.dataSize, rwlockSize]
    omega
  unfold View.checkBounds at passed
  split at passed
  · cases passed
  · split at passed
    · cases passed
    · omega

theorem checkBounds_ends (usize : view.size < 2 ^ 64) (offset length : Nat) :
    (viewDiscipline view).Ends cursor (liftM (checkBounds view offset length) : SegM Unit)
      fun _ later => later = cursor ∧ 0 < length ∧ offset + length ≤ view.dataSize :=
  Discipline.ends_except fun _ passed => ⟨rfl, checkBounds_fits usize passed⟩

theorem fetchAdd_ends {n : Nat} (fits : cursor + n ≤ view.dataSize) :
    (viewDiscipline view).Ends cursor (fetchAdd view n) fun _ _ => True := by
  have room : Inside view cursor (.fetchAddCursor view.id (BitVec.ofNat 64 n)) := by
    have less := Nat.mod_le n (2 ^ 64)
    refine ⟨rfl, ?_⟩
    rw [BitVec.toNat_ofNat]
    omega
  exact Discipline.ends_map (Discipline.ends_access room fun _ _ => trivial)

theorem advance_ends {offset : Option Nat} {n : Nat}
    (fits : offset.getD cursor + n ≤ view.dataSize) :
    (viewDiscipline view).Ends cursor (advance view offset n)
      fun _ later => offset ≠ none → later = cursor := by
  cases offset with
  | some o => exact fun _ => rfl
  | none =>
      have room : cursor + n ≤ view.dataSize := fits
      apply Discipline.follows_mono ?_ (fetchAdd_ends room)
      intro result later after
      cases result with
      | ok value => exact fun given => absurd rfl given
      | error e => exact after

end Parts

section Calls
variable {cursor : Nat} (usize : view.size < 2 ^ 64)
include usize

theorem place_ends (bytes : List UInt8) (offset : Option Nat) :
    (viewDiscipline view).Ends cursor (place view bytes offset)
      fun _ later => offset ≠ none → later = cursor := by
  apply Discipline.ends_bind (position_ends offset)
  rintro pos rfl
  apply Discipline.ends_bind (checkBounds_ends usize _ _)
  rintro _ ⟨_, fits⟩
  apply follows_writeGuard
  have high : dataPtr (offset.getD cursor) + bytes.length ≤ view.size := by
    rw [MappedView.dataSize] at fits
    have large := view.large
    rw [dataPtr]
    omega
  exact Discipline.ends_bind (copyTo_ends (Nat.le_add_right _ _) high) fun _ _ => advance_ends fits

theorem readRange_ends (offset length : Nat) :
    (viewDiscipline view).Ends cursor (readRange view offset length) fun _ later => later =
      cursor := by
  apply Discipline.ends_bind (checkBounds_ends usize _ _)
  rintro _ ⟨_, fits⟩
  apply follows_readGuard
  rw [Prog.run_lift, Discipline.follows_bind]
  exact Discipline.follows_mono (fun _ _ after => after.1)
    (onSlice_follows (Reader.within_slice (Nat.le_of_eq (Nat.zero_add length))) fits)

omit usize

theorem readAll_ends :
    (viewDiscipline view).Ends cursor (readAll view) fun _ later => later = cursor := by
  apply follows_readGuard
  rw [Prog.run_lift, Discipline.follows_bind]
  exact Discipline.follows_mono (fun _ _ after => after.1)
    (onSlice_follows (Reader.within_slice (Nat.le_of_eq (Nat.zero_add _)))
      (Nat.le_of_eq (Nat.zero_add _)))

theorem zero_ends :
    (viewDiscipline view).Ends cursor (zero view) fun _ later => later = cursor := by
  apply follows_writeGuard
  have high : dataPtr 0 + (List.replicate view.dataSize (0 : UInt8)).length ≤ view.size := by
    have large := view.large
    rw [List.length_replicate, dataPtr, MappedView.dataSize]
    omega
  apply Discipline.follows_mono ?_ (copyTo_ends (Nat.le_add_right _ _) high)
  intro result later after
  cases result with
  | ok value => exact after.1
  | error e => exact after

theorem seek_ends (pos : Nat) :
    (viewDiscipline view).Ends cursor (seek view pos) fun _ _ => True := by
  unfold seek
  split
  · rfl
  · next inside =>
      have room : Inside view cursor (.storeCursor view.id (BitVec.ofNat 64 pos)) := by
        have less := Nat.mod_le pos (2 ^ 64)
        refine ⟨rfl, ?_⟩
        rw [BitVec.toNat_ofNat]
        omega
      exact Discipline.ends_access room fun _ _ => trivial

theorem decodeSlice_ends {pos bound : Nat} {decoder : Decoder α} {post : α → Prop}
    (reads : Reads bound decoder post) (fits : pos + bound ≤ view.dataSize) :
    (viewDiscipline view).Ends cursor (ExceptT.mk (onSlice pos decoder.run) : SegM α)
      fun value later => later = cursor ∧ post value := by
  apply Discipline.follows_mono ?_ (onSlice_follows reads fits)
  rintro result later ⟨rfl, holds⟩
  cases result with
  | ok value => exact ⟨rfl, holds value rfl⟩
  | error e => rfl

theorem fits_word {n : Nat} (usize : view.size < 2 ^ 64) (low : n ≤ view.dataSize) :
    n < 2 ^ 64 := by
  rw [MappedView.dataSize] at low
  omega

/-- A cursor inside the data area leaves no borrow in `data_size - pos`. -/
theorem remaining_fits {pos : BitVec 64} (usize : view.size < 2 ^ 64)
    (low : pos.toNat ≤ view.dataSize) :
    pos ≤ BitVec.ofNat 64 view.dataSize ∧
      (BitVec.ofNat 64 view.dataSize - pos).toNat = view.dataSize - pos.toNat := by
  have small := fits_word usize (Nat.le_refl view.dataSize)
  have same : (BitVec.ofNat 64 view.dataSize).toNat = view.dataSize := by
    rw [BitVec.toNat_ofNat, Nat.mod_eq_of_lt small]
  have below : pos ≤ BitVec.ofNat 64 view.dataSize := by
    rw [BitVec.le_def, same]
    exact low
  refine ⟨below, ?_⟩
  rw [BitVec.toNat_sub_of_le below, same]

variable [Target]

theorem read_ends (build : Build) (tag : String) (usize : view.size < 2 ^ 64)
    (low : cursor ≤ view.dataSize) :
    (viewDiscipline view).Ends cursor (read build view tag) fun _ _ => True := by
  apply Discipline.ends_bind (q := fun pos => pos.toNat = cursor)
  · exact Discipline.ends_access rfl fun pos shown => ⟨rfl, shown⟩
  · rintro pos rfl
    apply follows_readGuard
    obtain ⟨below, rest⟩ := remaining_fits usize low
    rw [build.minus_ok below]
    apply Discipline.ends_bind (q := fun len => len.toNat = view.dataSize - pos.toNat)
      (Discipline.ends_pure ⟨rfl, rest⟩)
    intro len shown
    apply Discipline.ends_bind (decodeSlice_ends (unpackOne_reads tag) (by omega))
    rintro ⟨value, bytesRead⟩ ⟨_, inside⟩
    exact Discipline.ends_map (fetchAdd_ends (by omega))

theorem readMixed_ends (schema : List PyValue) (offset : Option Nat)  :
    (viewDiscipline view).Ends cursor (readMixed view schema offset)
      fun _ later => offset ≠ none → later = cursor := by
  apply Discipline.ends_bind (position_ends offset)
  rintro pos rfl
  dsimp only
  split
  · rfl
  · apply follows_readGuard
    apply Discipline.ends_bind (decodeSlice_ends (unpackMixedCounted_reads schema) (by omega))
    rintro ⟨result, bytesRead⟩ inside
    exact Discipline.ends_map (advance_ends (by omega))

/-- The calls that may move the cursor. -/
def movesCursor : ViewCall → Bool
  | .write _ offset => offset.isNone
  | .writeMixed _ offset => offset.isNone
  | .readMixed _ offset => offset.isNone
  | .read _ => true
  | .seek _ => true
  | .map _ _ _ => true
  | _ => false

/-- Every call of a view keeps to its bounds, and one that is given an offset, or needs
none, leaves the cursor. -/
theorem viewCall_ends (build : Build) {c : ViewCall} (usize : view.size < 2 ^ 64)
    (own : isMap c = false) (low : cursor ≤ view.dataSize) :
    (viewDiscipline view).Ends cursor (viewCall build view c)
      fun _ later => movesCursor c = false → later = cursor := by
  have given : ∀ {offset : Option Nat}, offset.isNone = false → offset ≠ none := by
    rintro _ still rfl
    cases still
  have packed : ∀ {result : PyResult (List UInt8)} {offset : Option Nat},
      (viewDiscipline view).Ends cursor (do place view (← liftM result) offset : SegM Unit)
        fun _ later => offset.isNone = false → later = cursor := by
    intro result offset
    apply Discipline.ends_bind (q := fun _ => True)
    · exact Discipline.ends_except fun _ _ => ⟨rfl, trivial⟩
    · intro bytes _
      exact Discipline.ends_mono (fun _ _ kept still => kept (given still))
        (place_ends usize bytes offset)
  cases c with
  | write data offset => exact Discipline.ends_map packed
  | writeMixed items offset => exact Discipline.ends_map packed
  | read tag =>
      apply Discipline.ends_mono ?_ (read_ends build tag usize low)
      intro _ _ _ still
      cases still
  | readMixed schema offset =>
      apply Discipline.ends_map
      exact Discipline.ends_mono (fun _ _ kept still => kept (given still))
        (readMixed_ends schema offset)
  | readRange offset length =>
      apply Discipline.ends_map
      exact Discipline.ends_mono (fun _ _ kept _ => kept) (readRange_ends usize offset length)
  | readAll =>
      apply Discipline.ends_map
      exact Discipline.ends_mono (fun _ _ kept _ => kept) readAll_ends
  | zero =>
      apply Discipline.ends_map
      exact Discipline.ends_mono (fun _ _ kept _ => kept) zero_ends
  | seek pos =>
      apply Discipline.ends_map
      apply Discipline.ends_mono ?_ (seek_ends pos)
      intro _ _ _ still
      cases still
  | tell => exact Discipline.ends_map (Discipline.ends_access rfl fun _ _ _ => rfl)
  | readerCount => exact ⟨trivial, fun _ _ _ => rfl⟩
  | isWriteLocked => exact ⟨trivial, fun _ _ _ => rfl⟩
  | map handle mapping id => cases own

end Calls
end Membridge.ViewBounds
