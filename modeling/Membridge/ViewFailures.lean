import Membridge.Alone
import Membridge.FailSafe

/-!
A call of a view that fails leaves no trace, at whatever point it fails: the lock
word, the data area and every cursor are what they were.
-/
namespace Membridge.ViewFailures
open Program FailSafe Python ByteOrder ByteReader Mixed Arithmetic Segment RwLock View Alone

variable {E : PyErr → Prop} {view : MappedView} {α : Type}

section Parts

theorem loadCursor_still : Still SegMem.exec (loadCursor view) := still_access fun _ => rfl

theorem position_still (offset : Option Nat) : Still SegMem.exec (position view offset) := by
  cases offset with
  | some o => exact still_pure o
  | none => exact still_bind loadCursor_still fun pos => still_pure pos.toNat

theorem minus_still (build : Build) (x y : BitVec 64) :
    Still SegMem.exec (build.minus x y : SegM (BitVec 64)) := by
  cases build with
  | release => exact still_pure _
  | debug =>
      simp only [Build.minus]
      split
      · exact still_pure _
      · exact still_throw _

theorem onSlice_still (pos : Nat) (reader : Reader (PyResult α)) :
    Still SegMem.exec (ExceptT.mk (onSlice pos reader) : SegM α) := by
  intro s result after ran
  change Prog.solo SegMem.exec (onSlice pos reader) s = _ at ran
  rw [onSlice_alone] at ran
  cases ran
  rfl

theorem copyTo_certain (start : Nat) (bytes : List UInt8) :
    Certain SegMem.exec E (copyTo start bytes) := by
  induction bytes generalizing start with
  | nil => exact certain_pure ()
  | cons byte rest ih => exact certain_bind (certain_access _) fun _ => ih (start + 1)

theorem fetchAdd_certain (n : Nat) : Certain SegMem.exec E (fetchAdd view n) :=
  certain_bind (certain_access _) fun _ => certain_pure ()

theorem advance_certain (offset : Option Nat) (n : Nat) :
    Certain SegMem.exec E (advance view offset n) := by
  unfold advance
  split
  · exact fetchAdd_certain n
  · exact certain_pure ()

/-- The guard is dropped on errors too. -/
theorem readGuard_noTrace {body : SegM α} (inside : NoTrace SegMem.exec E body) :
    NoTrace SegMem.exec E (withReadGuard body) := by
  intro s e after counts ran
  rw [readGuard_alone] at ran
  split at ran
  · obtain ⟨⟨result, last⟩, within, left⟩ := Option.map_eq_some_iff.mp ran
    cases left
    obtain rfl := inside _ e last counts within
    simp only [BitVec.add_sub_cancel]
  · cases ran

theorem writeGuard_certain {body : SegM α} (inside : Certain SegMem.exec E body) :
    Certain SegMem.exec E (withWriteGuard body) := by
  intro s e after ran
  rw [writeGuard_alone] at ran
  split at ran
  · obtain ⟨⟨result, last⟩, within, left⟩ := Option.map_eq_some_iff.mp ran
    cases left
    exact inside _ e last within
  · cases ran

end Parts

section Calls

theorem place_noTrace (bytes : List UInt8) (offset : Option Nat) :
    NoTrace SegMem.exec E (place view bytes offset) := by
  apply noTrace_bind (position_still offset)
  intro pos
  apply noTrace_bind (still_except _)
  intro _
  apply Certain.noTrace
  apply writeGuard_certain
  exact certain_bind (copyTo_certain _ bytes) fun _ => advance_certain offset _

theorem readAll_noTrace : NoTrace SegMem.exec E (readAll view) := by
  apply readGuard_noTrace
  apply Still.noTrace
  intro s result after ran
  rw [Prog.run_lift, Prog.solo_bind, onSlice_alone] at ran
  cases ran
  rfl

theorem readRange_noTrace (offset length : Nat) :
    NoTrace SegMem.exec E (readRange view offset length) := by
  apply noTrace_bind (still_except _)
  intro _
  apply readGuard_noTrace
  apply Still.noTrace
  intro s result after ran
  rw [Prog.run_lift, Prog.solo_bind, onSlice_alone] at ran
  cases ran
  rfl

theorem seek_noTrace (pos : Nat) : NoTrace SegMem.exec E (seek view pos) := by
  unfold seek
  split
  · exact (still_throw _).noTrace
  · exact (certain_access _).noTrace

theorem new_noTrace (id size : Nat) (isCreator : Bool) :
    NoTrace SegMem.exec E (View.new id size isCreator) := by
  unfold View.new
  split
  · exact (still_throw _).noTrace
  · apply Certain.noTrace
    dsimp only
    split
    · refine certain_bind (certain_lift _) fun _ => ?_
      exact certain_bind (certain_access _) fun _ => certain_pure _
    · exact certain_bind (certain_access _) fun _ => certain_pure _

variable [Target]

theorem read_noTrace (build : Build) (tag : String) :
    NoTrace SegMem.exec E (View.read build view tag) := by
  apply noTrace_bind loadCursor_still
  intro pos
  apply readGuard_noTrace
  apply noTrace_bind (minus_still build _ _)
  intro len
  apply noTrace_bind (onSlice_still _ _)
  rintro ⟨value, bytesRead⟩
  exact (certain_bind (fetchAdd_certain bytesRead) fun _ => certain_pure _).noTrace

theorem readMixed_noTrace (schema : List PyValue) (offset : Option Nat) :
    NoTrace SegMem.exec E (readMixed view schema offset) := by
  apply noTrace_bind (position_still offset)
  intro pos
  dsimp only
  split
  · exact (still_throw _).noTrace
  · apply readGuard_noTrace
    apply noTrace_bind (onSlice_still _ _)
    rintro ⟨result, bytesRead⟩
    exact (certain_bind (advance_certain offset bytesRead) fun _ => certain_pure _).noTrace

/-- A call that answers with an error leaves the lock word, the data area and all cursors
as they were, whatever they are and whichever call it is. -/
theorem failed_call_leaves_no_trace {build : Build} {c : ViewCall} {m after : SegMem} {e : PyErr}
    (ran : Prog.solo SegMem.exec (viewCode build view c) m = some (.error e, after)) :
    after = m := by
  have safe : NoTrace SegMem.exec (fun _ => True) (viewCall build view c) := by
    cases c with
    | write data offset =>
        refine noTrace_then (noTrace_bind (still_except _) fun bytes => ?_) fun _ => certain_pure _
        exact place_noTrace bytes offset
    | writeMixed items offset =>
        refine noTrace_then (noTrace_bind (still_except _) fun bytes => ?_) fun _ => certain_pure _
        exact place_noTrace bytes offset
    | read tag => exact read_noTrace build tag
    | readMixed schema offset =>
        exact noTrace_then (readMixed_noTrace schema offset) fun _ => certain_pure _
    | readRange offset length =>
        exact noTrace_then (readRange_noTrace offset length) fun _ => certain_pure _
    | readAll => exact noTrace_then readAll_noTrace fun _ => certain_pure _
    | zero =>
        exact noTrace_then (writeGuard_certain (copyTo_certain _ _)).noTrace fun _ => certain_pure _
    | seek pos => exact noTrace_then (seek_noTrace pos) fun _ => certain_pure _
    | tell => exact noTrace_then loadCursor_still.noTrace fun _ => certain_pure _
    | readerCount => exact noTrace_then (certain_lift _).noTrace fun _ => certain_pure _
    | isWriteLocked => exact noTrace_then (certain_lift _).noTrace fun _ => certain_pure _
    | map handle mapping id =>
        refine noTrace_then (noTrace_bind (still_except _) fun _ => ?_) fun _ => certain_pure _
        exact new_noTrace id handle.size handle.isCreator
  exact safe m e after trivial ran

omit [Target]

/-- One entry is decoded, with two other readers inside, before the next one is refused. -/
def halfSchema : ViewCall :=
  .readMixed [.tuple [.str [.scalar 'u', .scalar '8'], .int 1], .none] (some 3)

theorem failed_call_leaves_no_trace_halfSchema :
    ∃ e after, Prog.solo SegMem.exec (@viewCode littleEndian .release ⟨0, 16, by decide⟩ halfSchema)
      ⟨2, fun _ => 9, fun _ => 5⟩ = some (.error e, after) ∧
        after = ⟨2, fun _ => 9, fun _ => 5⟩ := by
  have ran : ∃ e after, Prog.solo SegMem.exec
      (@viewCode littleEndian .release ⟨0, 16, by decide⟩ halfSchema)
      ⟨2, fun _ => 9, fun _ => 5⟩ = some (.error e, after) := ⟨_, _, rfl⟩
  obtain ⟨e, after, ran⟩ := ran
  exact ⟨e, after, ran, @failed_call_leaves_no_trace _ littleEndian _ _ _ _ _ ran⟩

end Calls
end Membridge.ViewFailures
