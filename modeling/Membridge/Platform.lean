import Membridge.Posix
import Membridge.Program
import Membridge.Spsc
import Membridge.View

/-!
`src/platform/unix.rs` and the calls of `src/shared_memory.rs` that go to the
operating system. A descriptor is closed when its handle is dropped, which
touches no name and no object, so closing is not a step here.
-/
namespace Membridge.Platform
open Program Posix Python ByteOrder Mixed Segment RwLock

abbrev ShmM := ExceptT ShmError (Prog Syscall Syscall.Res)

abbrev OsM := ExceptT PyErr (Prog Syscall Syscall.Res)

/-- A call behind `map_err(ShmError::from)?`. -/
def syscall (o : Syscall) : ShmM o.Answer :=
  ExceptT.mk (.op o fun r => .ret (r.mapError ShmError.os))

/-- `map_err(PyErr::from)?`. -/
def raising {α : Type} (p : ShmM α) : OsM α :=
  ExceptT.mk (p.run.bind fun r => .ret (r.mapError ShmError.toPyErr))

namespace PlatformHandle

def create (name : String) (size : Nat) : ShmM PlatformHandle := do
  let fd ← syscall (.shmOpen name true)
  -- `size as i64`
  match ← Prog.access (Syscall.ftruncate fd (BitVec.ofNat 64 size).toInt) with
  | .ok _ => return ⟨fd, size, name⟩
  | .error errno => do
      let _ ← Prog.access (Syscall.shmUnlink name)
      throw (.os errno)

def open_ (name : String) : ShmM PlatformHandle := do
  let fd ← syscall (.shmOpen name false)
  let size ← syscall (.fstat fd)
  return ⟨fd, size, name⟩

def remove (name : String) : ShmM Unit := syscall (.shmUnlink name)

/-- `NonZeroUsize::new(0).unwrap()`. -/
def unwrapNone : PyErr := .panic "called `Option::unwrap()` on a `None` value"

def map (self : PlatformHandle) : OsM Nat :=
  if self.size = 0 then throw unwrapNone else raising (syscall (.mmap self.fd self.size))

/-- The answer of `munmap` is ignored. -/
def unmap (start size : Nat) : Prog Syscall Syscall.Res Unit :=
  .op (.munmap start size) fun _ => .ret ()

end PlatformHandle

def validateName (name : String) : PyResult Unit :=
  if name.toList.head? ≠ some '/' then
    .error (invalidArg "name must start with '/' (e.g. \"/my_segment\")")
  else if name.utf8ByteSize < 2 then
    .error (invalidArg "name must have at least one character after '/'")
  else .ok ()

namespace SharedMemory

def create (name : String) (size : Nat) : OsM SharedMemory :=
  if size = 0 then throw (invalidArg "size must be > 0")
  else do
    validateName name
    let handle ← raising (PlatformHandle.create name size)
    return ⟨handle, true⟩

def open_ (name : String) : OsM SharedMemory := do
  validateName name
  let handle ← raising (PlatformHandle.open_ name)
  return ⟨handle, false⟩

def remove (name : String) : OsM Unit := do
  validateName name
  raising (PlatformHandle.remove name)

end SharedMemory

/-- What `MappedView::new` answers about a region of this size. -/
def viewFits (size : Nat) : PyResult Unit :=
  if size ≤ rwlockSize then .error View.tooSmall else .ok ()

theorem view_new_fits (id size : Nat) (isCreator : Bool) (m : SegMem) :
    (Prog.solo SegMem.exec (View.new id size isCreator).run m).map
      (fun result => result.1.map fun _ => ()) = some (viewFits size) := by
  unfold View.new viewFits
  split
  · rfl
  · cases isCreator <;> rfl

/-- What `SpscRingBuffer::new` answers. -/
def ringFits (mapSize : Nat) (isCreator : Bool) : PyResult Unit :=
  if mapSize ≤ Spsc.headerSize then
    .error (invalidArg s!"map_size must be > {Spsc.headerSize} bytes (spsc header)")
  else if isCreator then
    if ¬ Spsc.isPowerOfTwo (mapSize - Spsc.headerSize) then
      .error (Spsc.notPowerOfTwo 64 (mapSize - Spsc.headerSize))
    else .ok ()
  else .ok ()

theorem ring_new_fits (mapSize : Nat) (isCreator : Bool) (ring : Spsc.RingMem 64) :
    (Prog.solo Spsc.RingMem.exec (Spsc.new mapSize isCreator).run ring).map
      (fun result => result.1) =
      some (ringFits mapSize isCreator) := by
  unfold Spsc.new ringFits
  split
  · rfl
  · split
    · dsimp only
      split <;> rfl
    · rfl

/-- Objects that keep the pointer and the size of a mapping. -/
inductive Mapped where
  | view (start size : Nat)
  | ring (start mapSize : Nat)

namespace SharedMemory

def map (self : SharedMemory) : OsM Mapped := do
  let start ← PlatformHandle.map self.handle
  viewFits self.size
  return .view start self.size

def spsc (self : SharedMemory) : OsM Mapped := do
  let start ← PlatformHandle.map self.handle
  ringFits self.size self.isCreator
  return .ring start self.size

end SharedMemory

/-- `MappedView` has a `Drop`, `SpscRingBuffer` has none. -/
def drop : Mapped → Prog Syscall Syscall.Res Unit
  | .view start size => PlatformHandle.unmap start size
  | .ring _ _ => .ret ()

section Outcomes
variable {os after : Os} {name : String}

theorem runs_syscall {o : Syscall} {r : Except ShmError o.Answer} :
    Prog.Runs Does (syscall o).run os r after ↔
      ∃ answer, Does os o answer after ∧ r = answer.mapError ShmError.os := by
  constructor
  · rintro ⟨answer, _, does, rfl, rfl⟩
    exact ⟨answer, does, rfl⟩
  · rintro ⟨answer, does, rfl⟩
    exact ⟨answer, after, does, rfl, rfl⟩

theorem runs_raising {α : Type} {p : ShmM α} {r : PyResult α} :
    Prog.Runs Does (raising p).run os r after ↔
      ∃ inner, Prog.Runs Does p.run os inner after ∧ r = inner.mapError ShmError.toPyErr := by
  change Prog.Runs Does (p.run.bind _) os r after ↔ _
  rw [Prog.runs_bind]
  constructor
  · rintro ⟨inner, _, ran, rfl, rfl⟩
    exact ⟨inner, ran, rfl⟩
  · rintro ⟨inner, ran, rfl⟩
    exact ⟨inner, after, ran, rfl, rfl⟩

/-- Where `ftruncate` may succeed: the size is the same one as `i64`. -/
theorem cast_nonneg {size : Nat} (usize : size < 2 ^ 64) :
    0 ≤ (BitVec.ofNat 64 size).toInt ↔ size < 2 ^ 63 := by
  rw [BitVec.toInt_ofNat']
  simp only [Int.bmod]
  omega

theorem cast_same {size : Nat} (fits : size < 2 ^ 63) :
    (BitVec.ofNat 64 size).toInt.toNat = size := by
  rw [BitVec.toInt_ofNat']
  simp only [Int.bmod]
  omega

/-- What `shm_open` with `O_CREAT` comes to: the object there is, or a new one. -/
def Opens (os : Os) (name : String) (fd : Nat) (opened : Os) : Prop :=
  os.names name = some fd ∧ opened = os ∨
    os.names name = none ∧ fd = os.objects.length ∧ opened = os.create name

theorem opens_bound {fd : Nat} {opened : Os} (opens : Opens os name fd opened) :
    opened.names name = some fd := by
  rcases opens with ⟨bound, rfl⟩ | ⟨_, rfl, rfl⟩
  · exact bound
  · exact create_names name

theorem opens_made {fd : Nat} {opened : Os} (opens : Opens os name fd opened) :
    fd < opened.objects.length :=
  opened.made name fd (opens_bound opens)

theorem runs_open_creating {r : Except ShmError Nat} :
    Prog.Runs Does (syscall (.shmOpen name true)).run os r after ↔
      (∃ errno, r = .error (.os errno) ∧ after = os) ∨
        ∃ fd, Opens os name fd after ∧ r = .ok fd := by
  rw [runs_syscall]
  constructor
  · rintro ⟨answer, does, rfl⟩
    rcases does_shmOpen.mp does with
      ⟨errno, rfl, rfl⟩ | ⟨id, bound, rfl, rfl⟩ | ⟨unbound, _, rfl, rfl⟩
    · exact .inl ⟨errno, rfl, rfl⟩
    · exact .inr ⟨id, .inl ⟨bound, rfl⟩, rfl⟩
    · exact .inr ⟨_, .inr ⟨unbound, rfl, rfl⟩, rfl⟩
  · rintro (⟨errno, rfl, rfl⟩ | ⟨fd, ⟨bound, rfl⟩ | ⟨unbound, rfl, rfl⟩, rfl⟩)
    · exact ⟨.error errno, does_shmOpen.mpr (.inl ⟨errno, rfl, rfl⟩), rfl⟩
    · exact ⟨.ok fd, does_shmOpen.mpr (.inr (.inl ⟨fd, bound, rfl, rfl⟩)), rfl⟩
    · exact ⟨.ok _, does_shmOpen.mpr (.inr (.inr ⟨unbound, rfl, rfl, rfl⟩)), rfl⟩

/-- `create` fails at once, or cleans up by name when `ftruncate` fails, or resizes the
object it got. -/
theorem runs_platform_create {size : Nat} (usize : size < 2 ^ 64)
    {r : Except ShmError PlatformHandle} :
    Prog.Runs Does (PlatformHandle.create name size).run os r after ↔
      (∃ errno, r = .error (.os errno) ∧ after = os) ∨
        ∃ fd opened, Opens os name fd opened ∧
          ((∃ errno, r = .error (.os errno) ∧ after = opened.unlink name) ∨
            size < 2 ^ 63 ∧ r = .ok ⟨fd, size, name⟩ ∧ after = opened.resize fd size) := by
  rw [PlatformHandle.create, Prog.runs_run_bind]
  constructor
  · rintro (⟨e, failed, rfl⟩ | ⟨fd, opened, got, rest⟩)
    · rcases runs_open_creating.mp failed with ⟨errno, same, rfl⟩ | ⟨_, _, same⟩
      · cases same
        exact .inl ⟨errno, rfl, rfl⟩
      · cases same
    · rcases runs_open_creating.mp got with ⟨_, same, _⟩ | ⟨_, opens, same⟩
      · cases same
      cases same
      obtain ⟨answer, middle, does, rest⟩ := rest
      rcases does_ftruncate.mp does with ⟨errno, rfl, rfl⟩ | ⟨⟨fits, _⟩, rfl, rfl⟩
      · -- the name is bound, so the object behind it loses it
        obtain ⟨_, _, unlinks, rfl, rfl⟩ := rest
        rcases does_shmUnlink.mp unlinks with ⟨unbound, _⟩ | ⟨_, _, rfl⟩
        · rw [opens_bound opens] at unbound
          cases unbound
        · exact .inr ⟨fd, _, opens, .inl ⟨errno, rfl, rfl⟩⟩
      · obtain ⟨rfl, rfl⟩ := rest
        have small := (cast_nonneg usize).mp fits
        exact .inr ⟨fd, opened, opens, .inr ⟨small, rfl, by rw [cast_same small]⟩⟩
  · rintro (⟨errno, rfl, rfl⟩ | ⟨fd, opened, opens, ⟨errno, rfl, rfl⟩ | ⟨small, rfl, rfl⟩⟩)
    · exact .inl ⟨_, runs_open_creating.mpr (.inl ⟨errno, rfl, rfl⟩), rfl⟩
    · refine .inr ⟨fd, opened, runs_open_creating.mpr (.inr ⟨fd, opens, rfl⟩), ?_⟩
      exact ⟨.error errno, opened, .refused rfl errno, .ok (), _,
        does_shmUnlink.mpr (.inr ⟨⟨fd, opens_bound opens⟩, rfl, rfl⟩), rfl, rfl⟩
    · refine .inr ⟨fd, opened, runs_open_creating.mpr (.inr ⟨fd, opens, rfl⟩), ?_⟩
      refine ⟨.ok (), opened.resize fd size,
        does_ftruncate.mpr (.inr ⟨⟨?_, opens_made opens⟩, rfl, ?_⟩),
        rfl, rfl⟩
      · exact (cast_nonneg usize).mpr small
      · rw [cast_same small]

/-- What `create` checks before it asks the operating system. -/
def checkCreate (name : String) (size : Nat) : PyResult Unit :=
  if size = 0 then .error (invalidArg "size must be > 0") else validateName name

theorem create_checks (name : String) (size : Nat) :
    SharedMemory.create name size = (do
      checkCreate name size
      let handle ← raising (PlatformHandle.create name size)
      return ⟨handle, true⟩) := by
  unfold SharedMemory.create checkCreate
  split <;> rfl

theorem runs_check {α : Type} {check : PyResult Unit} {rest : OsM α} {r : PyResult α} :
    Prog.Runs Does (do check; rest : OsM α).run os r after ↔
      (∃ e, check = .error e ∧ r = .error e ∧ after = os) ∨
        check = .ok () ∧ Prog.Runs Does rest.run os r after := by
  cases check with
  | error e =>
      constructor
      · rintro ⟨rfl, rfl⟩
        exact .inl ⟨e, rfl, rfl, rfl⟩
      · rintro (⟨_, same, rfl, rfl⟩ | ⟨same, _⟩)
        · cases same
          exact ⟨rfl, rfl⟩
        · cases same
  | ok _ =>
      constructor
      · intro ran
        exact .inr ⟨rfl, ran⟩
      · rintro (⟨_, same, _⟩ | ⟨_, ran⟩)
        · cases same
        · exact ran

/-- The handle of a call that answers with one. -/
theorem runs_handle {p : ShmM PlatformHandle} {isCreator : Bool} {r : PyResult SharedMemory} :
    Prog.Runs Does
        (do let handle ← raising p; return ⟨handle, isCreator⟩ : OsM SharedMemory).run os r
        after ↔
      (∃ e, Prog.Runs Does p.run os (.error e) after ∧ r = .error e.toPyErr) ∨
        ∃ handle, Prog.Runs Does p.run os (.ok handle) after ∧ r = .ok ⟨handle, isCreator⟩ := by
  rw [Prog.runs_run_bind]
  constructor
  · rintro (⟨e, failed, rfl⟩ | ⟨handle, middle, got, rfl, rfl⟩)
    · obtain ⟨inner, ran, same⟩ := runs_raising.mp failed
      cases inner with
      | ok _ => cases same
      | error inner =>
          cases same
          exact .inl ⟨inner, ran, rfl⟩
    · obtain ⟨inner, ran, same⟩ := runs_raising.mp got
      cases inner with
      | error _ => cases same
      | ok _ =>
          cases same
          exact .inr ⟨handle, ran, rfl⟩
  · rintro (⟨e, ran, rfl⟩ | ⟨handle, ran, rfl⟩)
    · exact .inl ⟨_, runs_raising.mpr ⟨_, ran, rfl⟩, rfl⟩
    · exact .inr ⟨handle, after, runs_raising.mpr ⟨_, ran, rfl⟩, rfl, rfl⟩

theorem runs_create {size : Nat} (usize : size < 2 ^ 64) {r : PyResult SharedMemory} :
    Prog.Runs Does (SharedMemory.create name size).run os r after ↔
      (∃ e, checkCreate name size = .error e ∧ r = .error e ∧ after = os) ∨
        checkCreate name size = .ok () ∧
          ((∃ errno, r = .error (.os errno) ∧ after = os) ∨
            ∃ fd opened, Opens os name fd opened ∧
              ((∃ errno, r = .error (.os errno) ∧ after = opened.unlink name) ∨
                size < 2 ^ 63 ∧ r = .ok ⟨⟨fd, size, name⟩, true⟩ ∧
                  after = opened.resize fd size)) := by
  rw [create_checks, runs_check, runs_handle]
  simp only [runs_platform_create usize]
  constructor
  · rintro (refused | ⟨passed, ⟨e, ran, rfl⟩ | ⟨handle, ran, rfl⟩⟩)
    · exact .inl refused
    · right
      refine ⟨passed, ?_⟩
      -- the handle was refused: by `shm_open`, or by `ftruncate` with the name unlinked
      rcases ran with ⟨errno, same, rfl⟩ | ⟨fd, opened, opens, ⟨errno, same, rfl⟩ | ⟨_, same, _⟩⟩
      · cases same
        exact .inl ⟨errno, rfl, rfl⟩
      · cases same
        exact .inr ⟨fd, opened, opens, .inl ⟨errno, rfl, rfl⟩⟩
      · cases same
    · right
      refine ⟨passed, .inr ?_⟩
      rcases ran with ⟨_, same, _⟩ | ⟨fd, opened, opens, ⟨_, same, _⟩ | ⟨small, same, rfl⟩⟩
      · cases same
      · cases same
      · cases same
        exact ⟨fd, opened, opens, .inr ⟨small, rfl, rfl⟩⟩
  · rintro (refused | ⟨passed, ⟨errno, rfl, rfl⟩ |
      ⟨fd, opened, opens, ⟨errno, rfl, rfl⟩ | ⟨small, rfl, rfl⟩⟩⟩)
    · exact .inl refused
    · exact .inr ⟨passed, .inl ⟨.os errno, .inl ⟨errno, rfl, rfl⟩, rfl⟩⟩
    · exact .inr ⟨passed, .inl ⟨.os errno, .inr ⟨fd, opened, opens, .inl ⟨errno, rfl, rfl⟩⟩, rfl⟩⟩
    · exact .inr ⟨passed, .inr ⟨_, .inr ⟨fd, opened, opens, .inr ⟨small, rfl, rfl⟩⟩, rfl⟩⟩

theorem runs_platform_open {r : Except ShmError PlatformHandle}
    (ran : Prog.Runs Does (PlatformHandle.open_ name).run os r after) :
    after = os ∧ ((∃ e, r = .error e) ∨
      ∃ fd, os.names name = some fd ∧ r = .ok ⟨fd, os.size fd, name⟩) := by
  rcases Prog.runs_run_bind.mp ran with ⟨e, failed, rfl⟩ | ⟨fd, middle, got, rest⟩
  · obtain ⟨answer, does, same⟩ := runs_syscall.mp failed
    rcases does_shmOpen.mp does with ⟨_, rfl, rfl⟩ | ⟨_, _, rfl, rfl⟩ | ⟨_, impossible, _⟩
    · exact ⟨rfl, .inl ⟨e, rfl⟩⟩
    · cases same
    · cases impossible
  · obtain ⟨answer, does, same⟩ := runs_syscall.mp got
    rcases does_shmOpen.mp does with ⟨_, rfl, _⟩ | ⟨_, bound, rfl, rfl⟩ | ⟨_, impossible, _⟩
    · cases same
    · cases same
      rcases Prog.runs_run_bind.mp rest with ⟨e, failed, rfl⟩ | ⟨size, _, stat, rfl, rfl⟩
      · obtain ⟨answer, does, _⟩ := runs_syscall.mp failed
        exact ⟨(does_fstat.mp does).1, .inl ⟨e, rfl⟩⟩
      · obtain ⟨answer, does, same⟩ := runs_syscall.mp stat
        obtain ⟨rfl, ⟨_, rfl⟩ | rfl⟩ := does_fstat.mp does
        · cases same
        · cases same
          exact ⟨rfl, .inr ⟨_, bound, rfl⟩⟩
    · cases impossible

/-- `open` changes nothing and takes the size the object has. -/
theorem runs_open {r : PyResult SharedMemory}
    (ran : Prog.Runs Does (SharedMemory.open_ name).run os r after) :
    after = os ∧ ((∃ e, r = .error e) ∨
      ∃ fd, os.names name = some fd ∧ r = .ok ⟨⟨fd, os.size fd, name⟩, false⟩) := by
  rcases runs_check.mp ran with ⟨e, _, rfl, rfl⟩ | ⟨_, passed⟩
  · exact ⟨rfl, .inl ⟨e, rfl⟩⟩
  · rcases runs_handle.mp passed with ⟨e, failed, rfl⟩ | ⟨handle, got, rfl⟩
    · exact ⟨(runs_platform_open failed).1, .inl ⟨_, rfl⟩⟩
    · obtain ⟨rfl, ⟨_, same⟩ | ⟨fd, bound, same⟩⟩ := runs_platform_open got
      · cases same
      · cases same
        exact ⟨rfl, .inr ⟨fd, bound, rfl⟩⟩

theorem runs_remove {r : PyResult Unit}
    (ran : Prog.Runs Does (SharedMemory.remove name).run os r after) :
    after = os ∨ after = os.unlink name := by
  rcases runs_check.mp ran with ⟨_, _, _, rfl⟩ | ⟨_, passed⟩
  · exact .inl rfl
  · obtain ⟨inner, removed, _⟩ := runs_raising.mp passed
    obtain ⟨answer, does, _⟩ := runs_syscall.mp removed
    rcases does_shmUnlink.mp does with ⟨_, _, rfl⟩ | ⟨_, _, rfl⟩
    · exact .inl rfl
    · exact .inr rfl

theorem runs_platform_map {self : PlatformHandle} {r : PyResult Nat} :
    Prog.Runs Does (PlatformHandle.map self).run os r after ↔
      (self.size = 0 ∧ r = .error PlatformHandle.unwrapNone ∧ after = os) ∨
        self.size ≠ 0 ∧ ((∃ errno, r = .error (.os errno) ∧ after = os) ∨
          ∃ start, 0 < start ∧ os.Free start self.size ∧ r = .ok start ∧
            after = os.map start self.size) := by
  unfold PlatformHandle.map
  by_cases zero : self.size = 0
  · rw [if_pos zero]
    constructor
    · rintro ⟨rfl, rfl⟩
      exact .inl ⟨zero, rfl, rfl⟩
    · rintro (⟨_, rfl, rfl⟩ | ⟨sized, _⟩)
      · exact ⟨rfl, rfl⟩
      · exact absurd zero sized
  · rw [if_neg zero, runs_raising]
    constructor
    · rintro ⟨inner, ran, rfl⟩
      obtain ⟨answer, does, rfl⟩ := runs_syscall.mp ran
      rcases does_mmap.mp does with ⟨errno, rfl, rfl⟩ | ⟨start, _, nonnull, free, rfl, rfl⟩
      · exact .inr ⟨zero, .inl ⟨errno, rfl, rfl⟩⟩
      · exact .inr ⟨zero, .inr ⟨start, nonnull, free, rfl, rfl⟩⟩
    · rintro (⟨empty, _⟩ | ⟨_, ⟨errno, rfl, rfl⟩ | ⟨start, nonnull, free, rfl, rfl⟩⟩)
      · exact absurd empty zero
      · exact ⟨_, runs_syscall.mpr ⟨.error errno, does_mmap.mpr (.inl ⟨errno, rfl, rfl⟩), rfl⟩, rfl⟩
      · exact ⟨_, runs_syscall.mpr ⟨.ok start, does_mmap.mpr
          (.inr ⟨start, Nat.pos_of_ne_zero zero, nonnull, free, rfl, rfl⟩), rfl⟩, rfl⟩

/-- Mapping first and checking then: a refusal comes with the mapping made. -/
theorem runs_mapping {self : PlatformHandle} {check : PyResult Unit} {make : Nat → Mapped}
    {r : PyResult Mapped} :
    Prog.Runs Does (do
        let start ← PlatformHandle.map self
        check
        return make start : OsM Mapped).run os r after ↔
      (self.size = 0 ∧ r = .error PlatformHandle.unwrapNone ∧ after = os) ∨
        self.size ≠ 0 ∧ ((∃ errno, r = .error (.os errno) ∧ after = os) ∨
          ∃ start, 0 < start ∧ os.Free start self.size ∧ after = os.map start self.size ∧
            ((check = .ok () ∧ r = .ok (make start)) ∨ ∃ e, check = .error e ∧ r = .error e)) := by
  rw [Prog.runs_run_bind]
  constructor
  · rintro (⟨e, failed, rfl⟩ | ⟨start, middle, mapped, rest⟩)
    · rcases runs_platform_map.mp failed with
        ⟨zero, same, rfl⟩ | ⟨sized, ⟨errno, same, rfl⟩ | ⟨_, _, _, same, _⟩⟩
      · cases same
        exact .inl ⟨zero, rfl, rfl⟩
      · cases same
        exact .inr ⟨sized, .inl ⟨errno, rfl, rfl⟩⟩
      · cases same
    · rcases runs_platform_map.mp mapped with
        ⟨_, same, _⟩ | ⟨sized, ⟨_, same, _⟩ | ⟨_, nonnull, free, same, rfl⟩⟩
      · cases same
      · cases same
      · cases same
        right
        refine ⟨sized, .inr ⟨start, nonnull, free, ?_⟩⟩
        -- mapped: the check that follows decides what is returned, not what is mapped
        rcases runs_check.mp rest with ⟨e, refused, rfl, rfl⟩ | ⟨passed, rfl, rfl⟩
        · exact ⟨rfl, .inr ⟨e, refused, rfl⟩⟩
        · exact ⟨rfl, .inl ⟨passed, rfl⟩⟩
  · rintro (⟨zero, rfl, rfl⟩ | ⟨sized, ⟨errno, rfl, rfl⟩ | ⟨start, nonnull, free, rfl, rest⟩⟩)
    · exact .inl ⟨_, runs_platform_map.mpr (.inl ⟨zero, rfl, rfl⟩), rfl⟩
    · exact .inl ⟨_, runs_platform_map.mpr (.inr ⟨sized, .inl ⟨errno, rfl, rfl⟩⟩), rfl⟩
    · have mapped := runs_platform_map.mpr (.inr ⟨sized, .inr ⟨start, nonnull, free, rfl, rfl⟩⟩)
      refine .inr ⟨start, _, mapped, runs_check.mpr ?_⟩
      rcases rest with ⟨passed, rfl⟩ | ⟨e, refused, rfl⟩
      · exact .inr ⟨passed, rfl, rfl⟩
      · exact .inl ⟨e, refused, rfl, rfl⟩

end Outcomes
end Membridge.Platform
