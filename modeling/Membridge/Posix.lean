import Mathlib.Data.List.GetD
import Mathlib.Tactic.Common

/-!
POSIX shared memory: names for objects, the objects, and the mappings of them. A
name is only a way to an object; whoever holds the object keeps it when the name
goes. What a call answers is fixed as far as POSIX fixes it.
-/
namespace Membridge.Posix

inductive Syscall where
  | shmOpen (name : String) (creat : Bool)
  | ftruncate (fd : Nat) (length : Int)
  | fstat (fd : Nat)
  | shmUnlink (name : String)
  | mmap (fd length : Nat)
  | munmap (start length : Nat)
  deriving DecidableEq

/-- A descriptor for `shm_open`, the size for `fstat`, the address for `mmap`. -/
abbrev Syscall.Answer : Syscall → Type
  | .shmOpen _ _ => Nat
  | .ftruncate _ _ => Unit
  | .fstat _ => Nat
  | .shmUnlink _ => Unit
  | .mmap _ _ => Nat
  | .munmap _ _ => Unit

/-- An error carries the text of its `errno`. -/
abbrev Syscall.Res (o : Syscall) : Type := Except String o.Answer

/-- Descriptors stand for the objects they refer to, numbered as they were made. An
object is its contents, so its size is their length. -/
structure Os where
  names : String → Option Nat
  objects : List (List UInt8)
  /-- Start and length of every mapping there is. -/
  mappings : List (Nat × Nat)
  made : ∀ name id, names name = some id → id < objects.length

namespace Os

def empty : Os := ⟨fun _ => none, [], [], nofun⟩

def content (os : Os) (id : Nat) : List UInt8 := os.objects.getD id []

def size (os : Os) (id : Nat) : Nat := (os.content id).length

/-- A new object of length zero, visible under its name at once. -/
def create (os : Os) (name : String) : Os where
  names n := if n = name then some os.objects.length else os.names n
  objects := os.objects ++ [[]]
  mappings := os.mappings
  made n id found := by
    rw [List.length_append, List.length_singleton]
    split at found
    · cases found
      exact Nat.lt_succ_self _
    · exact Nat.lt_succ_of_lt (os.made n id found)

def resized (content : List UInt8) (length : Nat) : List UInt8 :=
  content.take length ++ List.replicate (length - content.length) 0

def resize (os : Os) (fd length : Nat) : Os where
  names := os.names
  objects := os.objects.set fd (resized (os.content fd) length)
  mappings := os.mappings
  made n id found := by
    rw [List.length_set]
    exact os.made n id found

def unlink (os : Os) (name : String) : Os where
  names n := if n = name then none else os.names n
  objects := os.objects
  mappings := os.mappings
  made n id found := by
    split at found
    · cases found
    · exact os.made n id found

def map (os : Os) (start length : Nat) : Os :=
  { os with mappings := (start, length) :: os.mappings }

def unmap (os : Os) (start length : Nat) : Os :=
  { os with mappings := os.mappings.erase (start, length) }

/-- No mapping has a byte from `start` to `start + length`. -/
def Free (os : Os) (start length : Nat) : Prop :=
  ∀ mapping ∈ os.mappings, start + length ≤ mapping.1 ∨ mapping.1 + mapping.2 ≤ start

/-- An address above all mappings. -/
def top (os : Os) : Nat := os.mappings.foldr (fun mapping top => max (mapping.1 + mapping.2) top) 1

/-- What a call does when the system has what it takes. -/
def exec : (o : Syscall) → Os → o.Res × Os
  | .shmOpen name creat, os =>
      match os.names name with
      | some id => (.ok id, os)
      | none =>
          if creat then (.ok os.objects.length, os.create name)
          else (.error "ENOENT: No such file or directory", os)
  | .ftruncate fd length, os =>
      if 0 ≤ length ∧ fd < os.objects.length then (.ok (), os.resize fd length.toNat)
      else (.error "EINVAL: Invalid argument", os)
  | .fstat fd, os => (.ok (os.size fd), os)
  | .shmUnlink name, os =>
      match os.names name with
      | some _ => (.ok (), os.unlink name)
      | none => (.error "ENOENT: No such file or directory", os)
  | .mmap _ length, os =>
      if length = 0 then (.error "EINVAL: Invalid argument", os)
      else (.ok os.top, os.map os.top length)
  | .munmap start length, os => (.ok (), os.unmap start length)

end Os

/-- Calls that need something the system may be short of, or may forbid. -/
def Syscall.mayFail : Syscall → Bool
  | .shmUnlink _ => false
  | .munmap _ _ => false
  | _ => true

/-- `o` may answer `r` and leave `after`. A mapping is placed where none is. -/
inductive Does (os : Os) : (o : Syscall) → o.Res → Os → Prop where
  | exec (o : Syscall) : Does os o (Os.exec o os).1 (Os.exec o os).2
  | refused {o : Syscall} (may : o.mayFail = true) (errno : String) : Does os o (.error errno) os
  | placed (fd : Nat) {start length : Nat} (positive : 0 < length) (nonnull : 0 < start)
      (free : os.Free start length) : Does os (.mmap fd length) (.ok start) (os.map start length)

theorem does_exec (os : Os) (o : Syscall) : Does os o (Os.exec o os).1 (Os.exec o os).2 := .exec o

section Objects
variable {os : Os}

theorem resized_length (content : List UInt8) (length : Nat) :
    (Os.resized content length).length = length := by
  simp [Os.resized]
  omega

@[simp] theorem create_names (name : String) : (os.create name).names name =
    some os.objects.length :=
  if_pos rfl

theorem create_names_other {name n : String} (other : n ≠ name) :
    (os.create name).names n = os.names n :=
  if_neg other

@[simp] theorem create_content (name : String) (id : Nat) :
    (os.create name).content id = os.content id := by
  simp only [Os.content, Os.create]
  rcases Nat.lt_trichotomy id os.objects.length with old | rfl | beyond
  · rw [List.getD_append _ _ _ _ old]
  · simp
  · rw [List.getD_eq_default _ _ (by simp; omega), List.getD_eq_default _ _ (Nat.le_of_lt beyond)]

@[simp] theorem create_size (name : String) (id : Nat) : (os.create name).size id = os.size id := by
  simp [Os.size]

@[simp] theorem resize_names (fd length : Nat) : (os.resize fd length).names = os.names := rfl

@[simp] theorem resize_made (fd length : Nat) :
    (os.resize fd length).objects.length = os.objects.length :=
  List.length_set

theorem resize_size {fd : Nat} (there : fd < os.objects.length) (length : Nat) :
    (os.resize fd length).size fd = length := by
  simp [Os.size, Os.content, Os.resize, there, resized_length]

theorem resize_content_other {fd id : Nat} (other : id ≠ fd) (length : Nat) :
    (os.resize fd length).content id = os.content id := by
  simp [Os.content, Os.resize, List.getD_eq_getElem?_getD, List.getElem?_set_ne other.symm]

theorem resize_size_other {fd id : Nat} (other : id ≠ fd) (length : Nat) :
    (os.resize fd length).size id = os.size id := by
  rw [Os.size, resize_content_other other, Os.size]

@[simp] theorem unlink_names (name : String) : (os.unlink name).names name = none := if_pos rfl

theorem unlink_names_other {name n : String} (other : n ≠ name) :
    (os.unlink name).names n = os.names n :=
  if_neg other

@[simp] theorem unlink_content (name : String) (id : Nat) :
    (os.unlink name).content id = os.content id :=
  rfl

@[simp] theorem unlink_size (name : String) (id : Nat) : (os.unlink name).size id = os.size id :=
  rfl

@[simp] theorem unlink_objects (name : String) : (os.unlink name).objects = os.objects := rfl

@[simp] theorem map_mappings (start length : Nat) :
    (os.map start length).mappings = (start, length) :: os.mappings := rfl

@[simp] theorem unmap_mappings (start length : Nat) :
    (os.unmap start length).mappings = os.mappings.erase (start, length) := rfl

/-- An object not made yet has no contents. -/
theorem content_unmade {id : Nat} (unmade : os.objects.length ≤ id) : os.content id = [] :=
  List.getD_eq_default _ _ unmade

end Objects

section Calls
variable {os after : Os}

theorem does_shmOpen {name : String} {creat : Bool} {r : (Syscall.shmOpen name creat).Res} :
    Does os (.shmOpen name creat) r after ↔
      (∃ errno, r = .error errno ∧ after = os) ∨
        (∃ id, os.names name = some id ∧ r = .ok id ∧ after = os) ∨
          os.names name = none ∧ creat = true ∧ r = .ok os.objects.length ∧
            after = os.create name := by
  constructor
  · intro does
    cases does with
    | refused may errno => exact .inl ⟨errno, rfl, rfl⟩
    | exec =>
        simp only [Os.exec]
        cases bound : os.names name with
        | some id => exact .inr (.inl ⟨id, rfl, rfl, rfl⟩)
        | none =>
            cases creat with
            | false => exact .inl ⟨_, rfl, rfl⟩
            | true => exact .inr (.inr ⟨rfl, rfl, rfl, rfl⟩)
  · rintro (⟨errno, rfl, rfl⟩ | ⟨id, bound, rfl, rfl⟩ | ⟨unbound, rfl, rfl, rfl⟩)
    · exact .refused rfl errno
    · simpa [Os.exec, bound] using does_exec after (.shmOpen name creat)
    · simpa [Os.exec, unbound] using does_exec os (.shmOpen name true)

theorem does_ftruncate {fd : Nat} {length : Int} {r : (Syscall.ftruncate fd length).Res} :
    Does os (.ftruncate fd length) r after ↔
      (∃ errno, r = .error errno ∧ after = os) ∨
        (0 ≤ length ∧ fd < os.objects.length) ∧ r = .ok () ∧ after = os.resize fd length.toNat := by
  constructor
  · intro does
    cases does with
    | refused may errno => exact .inl ⟨errno, rfl, rfl⟩
    | exec =>
        simp only [Os.exec]
        split
        · next possible => exact .inr ⟨possible, rfl, rfl⟩
        · exact .inl ⟨_, rfl, rfl⟩
  · rintro (⟨errno, rfl, rfl⟩ | ⟨possible, rfl, rfl⟩)
    · exact .refused rfl errno
    · simpa only [Os.exec, if_pos possible] using does_exec os (.ftruncate fd length)

theorem does_fstat {fd : Nat} {r : (Syscall.fstat fd).Res} :
    Does os (.fstat fd) r after ↔
      after = os ∧ ((∃ errno, r = .error errno) ∨ r = .ok (os.size fd)) := by
  constructor
  · intro does
    cases does with
    | refused may errno => exact ⟨rfl, .inl ⟨errno, rfl⟩⟩
    | exec => exact ⟨rfl, .inr rfl⟩
  · rintro ⟨rfl, ⟨errno, rfl⟩ | rfl⟩
    · exact .refused rfl errno
    · exact .exec (.fstat fd)

theorem does_shmUnlink {name : String} {r : (Syscall.shmUnlink name).Res} :
    Does os (.shmUnlink name) r after ↔
      (os.names name = none ∧ r = .error "ENOENT: No such file or directory" ∧ after = os) ∨
        (∃ id, os.names name = some id) ∧ r = .ok () ∧ after = os.unlink name := by
  constructor
  · intro does
    cases does with
    | refused may errno => cases may
    | exec =>
        simp only [Os.exec]
        cases bound : os.names name with
        | none => exact .inl ⟨rfl, rfl, rfl⟩
        | some id => exact .inr ⟨⟨id, rfl⟩, rfl, rfl⟩
  · rintro (⟨unbound, rfl, rfl⟩ | ⟨⟨id, bound⟩, rfl, rfl⟩)
    · simpa [Os.exec, unbound] using does_exec after (.shmUnlink name)
    · simpa [Os.exec, bound] using does_exec os (.shmUnlink name)

theorem top_above {mappings : List (Nat × Nat)} {mapping : Nat × Nat} (there : mapping ∈ mappings) :
    mapping.1 + mapping.2 ≤ mappings.foldr
      (fun mapping top => max (mapping.1 + mapping.2) top) 1 := by
  induction mappings with
  | nil => cases there
  | cons first rest ih =>
      rw [List.foldr_cons]
      cases there with
      | head => exact Nat.le_max_left _ _
      | tail _ later => exact Nat.le_trans (ih later) (Nat.le_max_right _ _)

theorem top_pos (os : Os) : 0 < os.top := by
  unfold Os.top
  induction os.mappings with
  | nil => exact Nat.one_pos
  | cons first rest ih => exact Nat.lt_of_lt_of_le ih (Nat.le_max_right _ _)

theorem does_mmap {fd length : Nat} {r : (Syscall.mmap fd length).Res} :
    Does os (.mmap fd length) r after ↔
      (∃ errno, r = .error errno ∧ after = os) ∨
        ∃ start, 0 < length ∧ 0 < start ∧ os.Free start length ∧ r = .ok start ∧
          after = os.map start length := by
  constructor
  · intro does
    cases does with
    | refused may errno => exact .inl ⟨errno, rfl, rfl⟩
    | placed _ positive nonnull free => exact .inr ⟨_, positive, nonnull, free, rfl, rfl⟩
    | exec =>
        simp only [Os.exec]
        split
        · exact .inl ⟨_, rfl, rfl⟩
        · next nonzero =>
            exact .inr ⟨os.top, Nat.pos_of_ne_zero nonzero, top_pos os,
              fun mapping there => .inr (top_above there), rfl, rfl⟩
  · rintro (⟨errno, rfl, rfl⟩ | ⟨start, positive, nonnull, free, rfl, rfl⟩)
    · exact .refused rfl errno
    · exact .placed fd positive nonnull free

theorem does_munmap {start length : Nat} {r : (Syscall.munmap start length).Res} :
    Does os (.munmap start length) r after ↔ r = .ok () ∧ after = os.unmap start length := by
  constructor
  · intro does
    cases does with
    | refused may errno => cases may
    | exec => exact ⟨rfl, rfl⟩
  · rintro ⟨rfl, rfl⟩
    exact .exec (.munmap start length)

end Calls
end Membridge.Posix
