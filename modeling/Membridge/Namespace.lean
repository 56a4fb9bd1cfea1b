import Membridge.Platform

/-!
What a failed `create` leaves of the names there were. It cleans up by name, and
cannot tell a segment it made from one it found.
-/
namespace Membridge.Namespace
open Program Posix Python Mixed Segment Platform

/-- Every name denotes the object it did, with the same contents, and there is no new one. -/
def Untouched (os after : Os) : Prop :=
  after.names = os.names ∧ ∀ name id, os.names name = some id → after.content id = os.content id

variable {os opened : Os} {name : String} {fd : Nat}

theorem untouched_refl (os : Os) : Untouched os os := ⟨rfl, fun _ _ _ => rfl⟩

/-- Unlinking takes back what was made. -/
theorem unlink_untouched (unbound : os.names name = none) (opens : Opens os name fd opened) :
    Untouched os (opened.unlink name) := by
  rcases opens with ⟨bound, _⟩ | ⟨_, _, rfl⟩
  · rw [unbound] at bound
    cases bound
  · constructor
    · funext n
      by_cases same : n = name
      · subst same
        rw [unlink_names, unbound]
      · rw [unlink_names_other same, create_names_other same]
    · intro n id _
      rw [unlink_content, create_content]

/-- It takes the name from a segment that was found. -/
theorem unlink_touches (bound : os.names name = some fd) : ¬ Untouched os (os.unlink name) := by
  intro untouched
  have gone := congrFun untouched.1 name
  rw [unlink_names, bound] at gone
  cases gone

/-- A failed `create` leaves the namespace alone exactly if it is refused before it asks the
operating system, or the name was free. -/
theorem failed_create_untouched (os : Os) (name : String) (size : Nat) (usize : size < 2 ^ 64) :
    (∀ e after, Prog.Runs Does (SharedMemory.create name size).run os (.error e) after →
      Untouched os after) ↔
      size = 0 ∨ (∃ e, validateName name = .error e) ∨ os.names name = none := by
  constructor
  · intro every
    by_cases zero : size = 0
    · exact .inl zero
    cases valid : validateName name with
    | error e => exact .inr (.inl ⟨e, rfl⟩)
    | ok _ =>
        cases bound : os.names name with
        | none => exact .inr (.inr rfl)
        | some id =>
            -- `ftruncate` may fail, and then the name goes
            have accepted : checkCreate name size = .ok () := by
              rw [checkCreate, if_neg zero, valid]
            have failing := (runs_create usize).mpr (.inr ⟨accepted, .inr
              ⟨id, os, .inl ⟨bound, rfl⟩, .inl ⟨"EFBIG: File too large", rfl, rfl⟩⟩⟩)
            exact absurd (every _ _ failing) (unlink_touches bound)
  · intro harmless e after ran
    rcases (runs_create usize).mp ran with
      ⟨_, _, _, rfl⟩ | ⟨accepted, ⟨_, _, rfl⟩ | ⟨fd, opened, opens, rest⟩⟩
    · exact untouched_refl _
    · exact untouched_refl _
    · have unbound : os.names name = none := by
        rcases harmless with zero | ⟨e, invalid⟩ | unbound
        · rw [checkCreate, if_pos zero] at accepted
          cases accepted
        · by_cases zero : size = 0
          · rw [checkCreate, if_pos zero] at accepted
            cases accepted
          · rw [checkCreate, if_neg zero, invalid] at accepted
            cases accepted
        · exact unbound
      rcases rest with ⟨_, _, rfl⟩ | ⟨_, same, _⟩
      · exact unlink_untouched unbound opens
      · cases same

/-- A segment of eight bytes in use. -/
def inUse : Os := (Os.empty.create "/segment").resize 0 8

/-- The same size on a free name: made, and unlinked again. -/
theorem failed_create_untouched_fresh :
    Untouched inUse ((inUse.create "/other").unlink "/other") := by
  have ran : Prog.solo Os.exec (SharedMemory.create "/other" (2 ^ 63)).run inUse =
      some (.error (.os "EINVAL: Invalid argument"), (inUse.create "/other").unlink "/other") := rfl
  exact (failed_create_untouched inUse "/other" (2 ^ 63) (by decide)).mpr (.inr (.inr rfl)) _ _
    (Prog.solo_runs does_exec ran)

/-- A size that is negative as `i64`, on the name of a segment in use: the name is gone. -/
theorem failed_create_unlinks :
    ¬ ∀ os name size, size < 2 ^ 64 → ∀ e after,
      Prog.Runs Does (SharedMemory.create name size).run os (.error e) after →
        Untouched os after := by
  intro every
  have ran : Prog.solo Os.exec (SharedMemory.create "/segment" (2 ^ 63)).run inUse =
      some (.error (.os "EINVAL: Invalid argument"), inUse.unlink "/segment") := rfl
  exact unlink_touches rfl
    (every inUse "/segment" (2 ^ 63) (by decide) _ _ (Prog.solo_runs does_exec ran))

end Membridge.Namespace
