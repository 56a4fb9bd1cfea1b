import Membridge.Platform
import Membridge.Win32

/-!
`src/platform/win32.rs`, and `src/shared_memory.rs` as it is built for Windows. A
handle is closed when its `SharedMemory` is dropped; `remove` does nothing.
-/
namespace Membridge.Windows
open Program Win32 Python Mixed Platform

abbrev ShmM := ExceptT ShmError (Prog Syscall Syscall.Res)

abbrev OsM := ExceptT PyErr (Prog Syscall Syscall.Res)

/-- A call behind `map_err(|e| ShmError::Os(e.to_string()))?`. -/
def syscall (o : Syscall) : ShmM o.Answer :=
  ExceptT.mk (.op o fun r => .ret (r.mapError ShmError.os))

/-- `map_err(PyErr::from)?`. -/
def raising {α : Type} (p : ShmM α) : OsM α :=
  ExceptT.mk (p.run.bind fun r => .ret (r.mapError ShmError.toPyErr))

structure PlatformHandle where
  handle : Nat
  size : Nat
  name : String

structure SharedMemory where
  handle : PlatformHandle
  isCreator : Bool

/-- `trim_start_matches('/')`: all leading slashes go. -/
def toWin32Name (name : String) : String := String.ofList (name.toList.dropWhile (· = '/'))

/-- `CString::new`. -/
@[irreducible] def cString (name : String) : Except ShmError String :=
  match (Utf8.encode name.toList).findIdx? (· = 0) with
  | some index => .error (.invalidArg s!"nul byte found in provided data at position: {index}")
  | none => .ok name

namespace PlatformHandle

/-- What `create` and `open` have in common. -/
def named (name : String) (size : Nat) (call : String → ShmM Nat) : ShmM PlatformHandle := do
  let cName ← cString (toWin32Name name)
  let handle ← call cName
  return ⟨handle, size, name⟩

def create (name : String) (size : Nat) : ShmM PlatformHandle :=
  named name size fun cName =>
    -- `(size >> 32) as u32`, `(size & 0xFFFF_FFFF) as u32`
    syscall (.createFileMapping ((size >>> 32) % 2 ^ 32) (size % 2 ^ 32) cName)

def open_ (name : String) (size : Nat) : ShmM PlatformHandle :=
  named name size fun cName => syscall (.openFileMapping cName)

def remove (_name : String) : ShmM Unit := return ()

def map (self : PlatformHandle) : ShmM NonNull := syscall (.mapViewOfFile self.handle self.size)

/-- The answer of `UnmapViewOfFile` is ignored. -/
def unmap (start _size : Nat) : Prog Syscall Syscall.Res Unit :=
  .op (.unmapViewOfFile start) fun _ => .ret ()

/-- So is that of `CloseHandle`. -/
def drop (self : PlatformHandle) : Prog Syscall Syscall.Res Unit :=
  .op (.closeHandle self.handle) fun _ => .ret ()

end PlatformHandle

def sizeRequired : PyErr :=
  invalidArg "size is required on Windows (Win32 does not expose segment size)"

namespace SharedMemory

def size (self : SharedMemory) : Nat := self.handle.size

def create (name : String) (size : Nat) : OsM SharedMemory :=
  if size = 0 then throw (invalidArg "size must be > 0")
  else do
    validateName name
    let handle ← raising (PlatformHandle.create name size)
    return ⟨handle, true⟩

def open_ (name : String) (size : Option Nat) : OsM SharedMemory := do
  validateName name
  match size with
  | none => throw sizeRequired
  | some size => do
      let handle ← raising (PlatformHandle.open_ name size)
      return ⟨handle, false⟩

def remove (name : String) : OsM Unit := do
  validateName name
  raising (PlatformHandle.remove name)

def map (self : SharedMemory) : OsM Mapped := do
  let start ← raising (PlatformHandle.map self.handle)
  viewFits self.size
  return .view start.val self.size

def spsc (self : SharedMemory) : OsM Mapped := do
  let start ← raising (PlatformHandle.map self.handle)
  ringFits self.size self.isCreator
  return .ring start.val self.size

end SharedMemory

/-- `MappedView` has a `Drop`, `SpscRingBuffer` has none. -/
def drop : Mapped → Prog Syscall Syscall.Res Unit
  | .view start size => PlatformHandle.unmap start size
  | .ring _ _ => .ret ()

/-- The two halves of a size are the size. -/
theorem halves {size : Nat} (usize : size < 2 ^ 64) :
    (size >>> 32) % 2 ^ 32 * 2 ^ 32 + size % 2 ^ 32 = size := by
  rw [Nat.shiftRight_eq_div_pow]
  omega

/-- The answer behind a handle: to its own name without the slashes, and for a creator to
exactly its size. -/
inductive Grants (self : SharedMemory) : Event → Prop where
  | created {cName : String} (valid : cString (toWin32Name self.handle.name) = .ok cName)
      (creator : self.isCreator = true) {high low : Nat} (whole : high * 2 ^ 32 + low = self.size) :
      Grants self ⟨.createFileMapping high low cName, .ok self.handle.handle⟩
  | opened {cName : String} (valid : cString (toWin32Name self.handle.name) = .ok cName)
      (opener : self.isCreator = false) :
      Grants self ⟨.openFileMapping cName, .ok self.handle.handle⟩

section Outcomes
variable {trace after : List Event} {name : String}

theorem runs_syscall {o : Syscall} {r : Except ShmError o.Answer} :
    Prog.Runs Asks (syscall o).run trace r after ↔
      ∃ answer, after = trace ++ [⟨o, answer⟩] ∧ r = answer.mapError ShmError.os := by
  constructor
  · rintro ⟨answer, _, asks, rfl, rfl⟩
    exact ⟨answer, asks, rfl⟩
  · rintro ⟨answer, asks, rfl⟩
    exact ⟨answer, after, asks, rfl, rfl⟩

theorem runs_raising {α : Type} {p : ShmM α} {r : PyResult α} :
    Prog.Runs Asks (raising p).run trace r after ↔
      ∃ inner, Prog.Runs Asks p.run trace inner after ∧ r = inner.mapError ShmError.toPyErr := by
  change Prog.Runs Asks (p.run.bind _) trace r after ↔ _
  rw [Prog.runs_bind]
  constructor
  · rintro ⟨inner, _, ran, rfl, rfl⟩
    exact ⟨inner, ran, rfl⟩
  · rintro ⟨inner, ran, rfl⟩
    exact ⟨inner, after, ran, rfl, rfl⟩

/-- A call of the system that is raised: its answer, or its text as an `OSError`. -/
theorem runs_raised {o : Syscall} {r : PyResult o.Answer} :
    Prog.Runs Asks (raising (syscall o)).run trace r after ↔
      (∃ text, r = .error (.os text) ∧ after = trace ++ [⟨o, .error text⟩]) ∨
        ∃ answer, r = .ok answer ∧ after = trace ++ [⟨o, .ok answer⟩] := by
  rw [runs_raising]
  constructor
  · rintro ⟨inner, ran, rfl⟩
    obtain ⟨answer, asked, rfl⟩ := runs_syscall.mp ran
    cases answer with
    | error text => exact .inl ⟨text, rfl, asked⟩
    | ok answer => exact .inr ⟨answer, rfl, asked⟩
  · rintro (⟨text, rfl, asked⟩ | ⟨answer, rfl, asked⟩)
    · exact ⟨_, runs_syscall.mpr ⟨.error text, asked, rfl⟩, rfl⟩
    · exact ⟨_, runs_syscall.mpr ⟨.ok answer, asked, rfl⟩, rfl⟩

/-- A check before the rest of a call. -/
theorem runs_check {ε α β : Type} {check : Except ε β}
    {rest : β → ExceptT ε (Prog Syscall Syscall.Res) α} {r : Except ε α} :
    Prog.Runs Asks ((liftM check : ExceptT ε (Prog Syscall Syscall.Res) β) >>= rest).run
        trace r after ↔
      (∃ e, check = .error e ∧ r = .error e ∧ after = trace) ∨
        ∃ value, check = .ok value ∧ Prog.Runs Asks (rest value).run trace r after := by
  cases check with
  | error e =>
      constructor
      · rintro ⟨rfl, rfl⟩
        exact .inl ⟨e, rfl, rfl, rfl⟩
      · rintro (⟨_, same, rfl, rfl⟩ | ⟨_, same, _⟩)
        · cases same
          exact ⟨rfl, rfl⟩
        · cases same
  | ok value =>
      constructor
      · intro ran
        exact .inr ⟨value, rfl, ran⟩
      · rintro (⟨_, same, _⟩ | ⟨_, same, ran⟩)
        · cases same
        · cases same
          exact ran

/-- The handle of a call that answers with one. -/
theorem runs_handle {p : ShmM PlatformHandle} {isCreator : Bool} {r : PyResult SharedMemory} :
    Prog.Runs Asks (do let handle ← raising p; return ⟨handle, isCreator⟩ : OsM SharedMemory).run
        trace r after ↔
      (∃ e, Prog.Runs Asks p.run trace (.error e) after ∧ r = .error e.toPyErr) ∨
        ∃ handle, Prog.Runs Asks p.run trace (.ok handle) after ∧ r = .ok ⟨handle, isCreator⟩ := by
  rw [Prog.runs_run_bind]
  constructor
  · rintro (⟨e, failed, rfl⟩ | ⟨handle, middle, got, rfl, rfl⟩)
    · obtain ⟨inner, ran, same⟩ := runs_raising.mp failed
      cases inner with
      | ok _ => cases same
      | error inner =>
          cases same
          exact .inl ⟨inner, ran, rfl⟩
    · obtain ⟨inner, ran, same⟩ := runs_raising.mp got
      cases inner with
      | error _ => cases same
      | ok _ =>
          cases same
          exact .inr ⟨handle, ran, rfl⟩
  · rintro (⟨e, ran, rfl⟩ | ⟨handle, ran, rfl⟩)
    · exact .inl ⟨_, runs_raising.mpr ⟨_, ran, rfl⟩, rfl⟩
    · exact .inr ⟨handle, after, runs_raising.mpr ⟨_, ran, rfl⟩, rfl, rfl⟩

/-- A call that makes a handle: refused, or the answer of the system with size and name. -/
theorem runs_named {size : Nat} {call : String → ShmM Nat} {r : Except ShmError PlatformHandle} :
    Prog.Runs Asks (PlatformHandle.named name size call).run trace r after ↔
      (∃ e, cString (toWin32Name name) = .error e ∧ r = .error e ∧ after = trace) ∨
        ∃ cName, cString (toWin32Name name) = .ok cName ∧
          ((∃ e, Prog.Runs Asks (call cName).run trace (.error e) after ∧ r = .error e) ∨
            ∃ handle, Prog.Runs Asks (call cName).run trace (.ok handle) after ∧
              r = .ok ⟨handle, size, name⟩) := by
  rw [PlatformHandle.named, runs_check]
  generalize cString (toWin32Name name) = valid
  simp only [Prog.runs_run_bind]
  constructor
  · rintro (refused | ⟨cName, passed, ⟨e, failed, rfl⟩ | ⟨handle, middle, got, rfl, rfl⟩⟩)
    · exact .inl refused
    · exact .inr ⟨cName, passed, .inl ⟨e, failed, rfl⟩⟩
    · exact .inr ⟨cName, passed, .inr ⟨handle, got, rfl⟩⟩
  · rintro (refused | ⟨cName, passed, ⟨e, failed, rfl⟩ | ⟨handle, got, rfl⟩⟩)
    · exact .inl refused
    · exact .inr ⟨cName, passed, .inl ⟨e, failed, rfl⟩⟩
    · exact .inr ⟨cName, passed, .inr ⟨handle, after, got, rfl, rfl⟩⟩

/-- An error before the system was asked for a handle, or the system's own. -/
inductive Refused (trace : List Event) : List Event → Prop where
  | early : Refused trace trace
  | system {o : Syscall} (opens : o.Opens) (text : String) :
      Refused trace (trace ++ [⟨o, .error text⟩])

/-- One call of the system that asks for a handle. -/
theorem runs_ask {o : Syscall} (opens : o.Opens) {r : Except ShmError o.Answer}
    (ran : Prog.Runs Asks (syscall o).run trace r after) :
    (∃ e, r = .error e ∧ Refused trace after) ∨
      ∃ answer, r = .ok answer ∧ after = trace ++ [⟨o, .ok answer⟩] := by
  obtain ⟨answer, rfl, rfl⟩ := runs_syscall.mp ran
  cases answer with
  | error text => exact .inl ⟨_, rfl, .system opens text⟩
  | ok answer => exact .inr ⟨answer, rfl, rfl⟩

/-- `create` and `open` from there on: refused, or the handle that `call` was given. -/
theorem runs_granted {size : Nat} {isCreator : Bool} {call : String → ShmM Nat}
    (answer : String → Nat → Event)
    (asked : ∀ cName r, Prog.Runs Asks (call cName).run trace r after →
      (∃ e, r = .error e ∧ Refused trace after) ∨
        ∃ handle, r = .ok handle ∧ after = trace ++ [answer cName handle])
    {r : PyResult SharedMemory}
    (ran : Prog.Runs Asks (do
        let handle ← raising (PlatformHandle.named name size call)
        return ⟨handle, isCreator⟩ : OsM SharedMemory).run trace r after) :
    (∃ e, r = .error e ∧ Refused trace after) ∨
      ∃ cName handle, cString (toWin32Name name) = .ok cName ∧
        r = .ok ⟨⟨handle, size, name⟩, isCreator⟩ ∧ after = trace ++ [answer cName handle] := by
  rcases runs_handle.mp ran with ⟨e, failed, rfl⟩ | ⟨made, got, rfl⟩
  · rcases runs_named.mp failed with ⟨_, _, _, rfl⟩ | ⟨cName, _, ⟨_, called, _⟩ | ⟨_, _, same⟩⟩
    · exact .inl ⟨_, rfl, .early⟩
    · rcases asked cName _ called with ⟨_, _, refused⟩ | ⟨_, same, _⟩
      · exact .inl ⟨_, rfl, refused⟩
      · cases same
    · cases same
  · rcases runs_named.mp got with
      ⟨_, _, same, _⟩ | ⟨cName, valid, ⟨_, _, same⟩ | ⟨handle, called, same⟩⟩
    · cases same
    · cases same
    · cases same
      rcases asked cName _ called with ⟨_, same, _⟩ | ⟨_, same, grown⟩
      · cases same
      · cases same
        exact .inr ⟨cName, handle, valid, rfl, grown⟩

theorem runs_create {size : Nat} (usize : size < 2 ^ 64) {r : PyResult SharedMemory}
    (ran : Prog.Runs Asks (SharedMemory.create name size).run trace r after) :
    (∃ e, r = .error e ∧ Refused trace after) ∨
      ∃ handle e, r = .ok ⟨⟨handle, size, name⟩, true⟩ ∧ Grants ⟨⟨handle, size, name⟩, true⟩ e ∧
        after = trace ++ [e] := by
  unfold SharedMemory.create at ran
  split at ran
  · obtain ⟨rfl, rfl⟩ := ran
    exact .inl ⟨_, rfl, .early⟩
  · rcases runs_check.mp ran with ⟨e, _, rfl, rfl⟩ | ⟨_, _, passed⟩
    · exact .inl ⟨e, rfl, .early⟩
    · rcases runs_granted (fun cName handle => ⟨.createFileMapping _ _ cName, .ok handle⟩)
          (fun cName _ => runs_ask (o := .createFileMapping _ _ cName) trivial) passed with
        refused | ⟨cName, handle, valid, rfl, grown⟩
      · exact .inl refused
      · refine .inr ⟨handle, _, rfl, .created ?_ rfl ?_, grown⟩
        · exact valid
        · exact halves usize

/-- `open` takes the size it is told. -/
theorem runs_open {size : Option Nat} {r : PyResult SharedMemory}
    (ran : Prog.Runs Asks (SharedMemory.open_ name size).run trace r after) :
    (∃ e, r = .error e ∧ Refused trace after) ∨
      ∃ told handle e, size = some told ∧ r = .ok ⟨⟨handle, told, name⟩, false⟩ ∧
        Grants ⟨⟨handle, told, name⟩, false⟩ e ∧ after = trace ++ [e] := by
  rcases runs_check.mp ran with ⟨e, _, rfl, rfl⟩ | ⟨_, _, passed⟩
  · exact .inl ⟨e, rfl, .early⟩
  · cases size with
    | none =>
        obtain ⟨rfl, rfl⟩ := passed
        exact .inl ⟨_, rfl, .early⟩
    | some told =>
        rcases runs_granted (fun cName handle => ⟨.openFileMapping cName, .ok handle⟩)
            (fun cName _ => runs_ask (o := .openFileMapping cName) trivial) passed with
          refused | ⟨cName, handle, valid, rfl, grown⟩
        · exact .inl refused
        · exact .inr ⟨told, handle, _, rfl, rfl, .opened valid rfl, grown⟩

/-- `remove` asks the system nothing. -/
theorem runs_remove {r : PyResult Unit}
    (ran : Prog.Runs Asks (SharedMemory.remove name).run trace r after) : after = trace := by
  rcases runs_check.mp ran with ⟨_, _, _, rfl⟩ | ⟨_, _, passed⟩
  · rfl
  · obtain ⟨_, removed, _⟩ := runs_raising.mp passed
    exact removed.2

/-- Mapping first and checking then: a refusal comes with the view made. -/
theorem runs_mapping {self : PlatformHandle} {check : PyResult Unit} {make : Nat → Mapped}
    {r : PyResult Mapped} :
    Prog.Runs Asks (do
        let start ← raising (PlatformHandle.map self)
        check
        return make start.val : OsM Mapped).run trace r after ↔
      (∃ text, r = .error (.os text) ∧
        after = trace ++ [⟨.mapViewOfFile self.handle self.size, .error text⟩]) ∨
        ∃ start, after = trace ++ [⟨.mapViewOfFile self.handle self.size, .ok start⟩] ∧
          ((check = .ok () ∧ r = .ok (make start.val)) ∨ ∃ e, check = .error e ∧ r = .error e) := by
  rw [Prog.runs_run_bind, PlatformHandle.map]
  constructor
  · rintro (⟨e, failed, rfl⟩ | ⟨start, middle, mapped, rest⟩)
    · rcases runs_raised.mp failed with ⟨text, same, rfl⟩ | ⟨_, same, _⟩
      · cases same
        exact .inl ⟨text, rfl, rfl⟩
      · cases same
    · rcases runs_raised.mp mapped with ⟨_, same, _⟩ | ⟨_, same, rfl⟩
      · cases same
      · cases same
        rcases runs_check.mp rest with ⟨e, refused, rfl, rfl⟩ | ⟨_, passed, rfl, rfl⟩
        · exact .inr ⟨start, rfl, .inr ⟨e, refused, rfl⟩⟩
        · exact .inr ⟨start, rfl, .inl ⟨passed, rfl⟩⟩
  · rintro (⟨text, rfl, rfl⟩ | ⟨start, rfl, rest⟩)
    · exact .inl ⟨_, runs_raised.mpr (.inl ⟨text, rfl, rfl⟩), rfl⟩
    · refine .inr ⟨start, _, runs_raised.mpr (.inr ⟨start, rfl, rfl⟩), runs_check.mpr ?_⟩
      rcases rest with ⟨passed, rfl⟩ | ⟨e, refused, rfl⟩
      · exact .inr ⟨(), passed, rfl, rfl⟩
      · exact .inl ⟨e, refused, rfl, rfl⟩

end Outcomes
end Membridge.Windows
