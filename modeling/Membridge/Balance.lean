import Mathlib.Data.List.Perm.Basic
import Membridge.Platform

/-!
Which mappings are left when views and rings come and go. `SharedMemory::map` and
`SharedMemory::spsc` map first and check afterwards; of the two objects only the
view unmaps what it was given.
-/
namespace Membridge.Balance
open Program Posix Python Mixed Segment Platform

def region : Mapped → Nat × Nat
  | .view start size => (start, size)
  | .ring start mapSize => (start, mapSize)

/-- A process with its live views and rings. -/
structure Process where
  os : Os
  objects : List Mapped

inductive MapCall where
  | map (handle : SharedMemory)
  | spsc (handle : SharedMemory)
  | drop (index : Nat)

def kept (objects : List Mapped) : PyResult Mapped → List Mapped
  | .ok object => object :: objects
  | .error _ => objects

inductive Makes : Process → MapCall → Process → Prop where
  | map {st : Process} {handle : SharedMemory} {r : PyResult Mapped} {os : Os}
      (ran : Prog.Runs Does (SharedMemory.map handle).run st.os r os) :
      Makes st (.map handle) ⟨os, kept st.objects r⟩
  | spsc {st : Process} {handle : SharedMemory} {r : PyResult Mapped} {os : Os}
      (ran : Prog.Runs Does (SharedMemory.spsc handle).run st.os r os) :
      Makes st (.spsc handle) ⟨os, kept st.objects r⟩
  | drop {st : Process} {index : Nat} {object : Mapped} {os : Os}
      (there : st.objects[index]? = some object) (ran : Prog.Runs Does (drop object) st.os () os) :
      Makes st (.drop index) ⟨os, st.objects.eraseIdx index⟩

/-- The mappings of the live objects. -/
def regions (st : Process) : List (Nat × Nat) := st.objects.map region

/-- The mappings there are belong to the live objects, one to each. -/
def Balanced (st : Process) : Prop := st.os.mappings.Perm (regions st)

def Apart (a b : Nat × Nat) : Prop := a.1 + a.2 ≤ b.1 ∨ b.1 + b.2 ≤ a.1

/-- Every live object has a mapping of its own, whatever others there are. -/
structure Owned (st : Process) : Prop where
  apart : st.os.mappings.Pairwise Apart
  owned : ∃ more, st.os.mappings.Perm (regions st ++ more)

/-- No call that leaves a mapping behind: one that may map and then refuse, or a ring's end. -/
def Tidy (st : Process) : MapCall → Prop
  | .map handle => handle.size = 0 ∨ viewFits handle.size = .ok ()
  | .spsc handle => handle.size = 0 ∨ ringFits handle.size handle.isCreator = .ok ()
  | .drop index => ∀ start mapSize, st.objects[index]? ≠ some (.ring start mapSize)

section Steps
variable {st after : Process} {os : Os} {handle : SharedMemory} {r : PyResult Mapped}
  {more : List (Nat × Nat)}

/-- A call that maps: the mapping is a new object's, or is left over when the check fails. -/
theorem mapping_perm {check : PyResult Unit} {make : Nat → Mapped}
    (made : ∀ start, region (make start) = (start, handle.handle.size))
    (before : st.os.mappings.Perm (regions st ++ more))
    (ran : Prog.Runs Does (do
        let start ← PlatformHandle.map handle.handle
        check
        return make start : OsM Mapped).run st.os r os) :
    ∃ left, os.mappings.Perm (regions ⟨os, kept st.objects r⟩ ++ (left ++ more)) ∧
      (handle.size = 0 ∨ check = .ok () → left = []) := by
  rcases runs_mapping.mp ran with ⟨_, rfl, rfl⟩ | ⟨sized, ⟨_, rfl, rfl⟩ | ⟨start, _, _, rfl, rest⟩⟩
  · exact ⟨[], before, fun _ => rfl⟩
  · exact ⟨[], before, fun _ => rfl⟩
  · rcases rest with ⟨passed, rfl⟩ | ⟨e, refused, rfl⟩
    · refine ⟨[], ?_, fun _ => rfl⟩
      have mine : regions ⟨st.os.map start handle.handle.size, kept st.objects (.ok (make start))⟩ =
          (start, handle.handle.size) :: regions st := by
        rw [regions, kept, List.map_cons, made]
        rfl
      change ((start, handle.handle.size) :: st.os.mappings).Perm _
      rw [mine]
      exact before.cons _
    -- the region is mapped before the check, and nothing unmaps it
    · refine ⟨[(start, handle.size)], ?_, ?_⟩
      · exact (before.cons _).trans List.perm_middle.symm
      · rintro (zero | passed)
        · exact absurd zero sized
        · rw [refused] at passed
          cases passed

theorem mapping_apart {check : PyResult Unit} {make : Nat → Mapped}
    (apart : st.os.mappings.Pairwise Apart)
    (ran : Prog.Runs Does (do
        let start ← PlatformHandle.map handle.handle
        check
        return make start : OsM Mapped).run st.os r os) : os.mappings.Pairwise Apart := by
  rcases runs_mapping.mp ran with ⟨_, _, rfl⟩ | ⟨_, ⟨_, _, rfl⟩ | ⟨start, _, free, rfl, _⟩⟩
  · exact apart
  · exact apart
  · exact List.pairwise_cons.mpr ⟨free, apart⟩

theorem regions_drop (os : Os) {index : Nat} {object : Mapped}
    (there : st.objects[index]? = some object) :
    (regions st).Perm (region object :: regions ⟨os, st.objects.eraseIdx index⟩) := by
  obtain ⟨inside, rfl⟩ := List.getElem?_eq_some_iff.mp there
  exact ((List.getElem_cons_eraseIdx_perm inside).map region).symm

/-- What a call leaves over, if it is not tidy. -/
theorem makes_perm {c : MapCall} (before : st.os.mappings.Perm (regions st ++ more))
    (made : Makes st c after) :
    ∃ left, after.os.mappings.Perm (regions after ++ (left ++ more)) ∧ (Tidy st c → left = []) := by
  cases made with
  | map ran => exact mapping_perm (fun _ => rfl) before ran
  | spsc ran => exact mapping_perm (fun _ => rfl) before ran
  | @drop index object os there ran =>
      have split := before.trans ((regions_drop os there).append_right more)
      cases object with
      | view start size =>
          obtain ⟨_, _, does, _, rfl⟩ := ran
          obtain ⟨_, rfl⟩ := does_munmap.mp does
          refine ⟨[], ?_, fun _ => rfl⟩
          have erased := split.erase (start, size)
          simpa [region] using erased
      | ring start mapSize =>
          obtain ⟨_, rfl⟩ := ran
          -- a ring has no destructor: its region is left over
          refine ⟨[(start, mapSize)], ?_, fun tidy => absurd there (tidy start mapSize)⟩
          exact split.trans List.perm_middle.symm

theorem makes_owned {c : MapCall} (owned : Owned st) (made : Makes st c after) : Owned after := by
  obtain ⟨more, before⟩ := owned.owned
  obtain ⟨left, perm, _⟩ := makes_perm before made
  refine ⟨?_, left ++ more, perm⟩
  cases made with
  | map ran => exact mapping_apart owned.apart ran
  | spsc ran => exact mapping_apart owned.apart ran
  | @drop index object os there ran =>
      cases object with
      | view start size =>
          obtain ⟨_, _, does, _, rfl⟩ := ran
          obtain ⟨_, rfl⟩ := does_munmap.mp does
          exact owned.apart.sublist List.erase_sublist
      | ring start mapSize =>
          obtain ⟨_, rfl⟩ := ran
          exact owned.apart

theorem makes_balanced {c : MapCall} (balanced : Balanced st) (tidy : Tidy st c)
    (made : Makes st c after) : Balanced after := by
  have before : st.os.mappings.Perm (regions st ++ []) := by
    rw [List.append_nil]
    exact balanced
  obtain ⟨left, perm, nothing⟩ := makes_perm before made
  rw [nothing tidy, List.append_nil, List.append_nil] at perm
  exact perm

/-- The system may grant a mapping that the check then refuses. -/
theorem mapping_left {check : PyResult Unit} {make : Nat → Mapped} {e : PyErr}
    (sized : handle.size ≠ 0) (refused : check = .error e) :
    Prog.Runs Does (do
        let start ← PlatformHandle.map handle.handle
        check
        return make start : OsM Mapped).run st.os (.error e) (st.os.map st.os.top handle.size) :=
  runs_mapping.mpr (.inr ⟨sized, .inr ⟨st.os.top, top_pos st.os,
    fun _ there => .inr (top_above there), rfl, .inr ⟨e, refused, rfl⟩⟩⟩)

theorem tidy_needed {c : MapCall} (balanced : Balanced st)
    (every : ∀ after, Makes st c after → Balanced after) : Tidy st c := by
  -- a mapping more than objects
  have refuses : ∀ {handle : SharedMemory} {e : PyErr},
      Makes st c ⟨st.os.map st.os.top handle.size, kept st.objects (.error e)⟩ → False := by
    intro handle e made
    have more := (every _ made).length_eq
    have same := balanced.length_eq
    simp only [regions, kept, map_mappings, List.length_cons, List.length_map] at more same
    omega
  cases c with
  | map handle =>
      by_cases zero : handle.size = 0
      · exact .inl zero
      · cases fits : viewFits handle.size with
        | ok _ => exact .inr fits
        | error e => exact (refuses (.map (mapping_left zero fits))).elim
  | spsc handle =>
      by_cases zero : handle.size = 0
      · exact .inl zero
      · cases fits : ringFits handle.size handle.isCreator with
        | ok _ => exact .inr fits
        | error e => exact (refuses (.spsc (mapping_left zero fits))).elim
  | drop index =>
      intro start mapSize there
      have made : Makes st (.drop index) ⟨st.os, st.objects.eraseIdx index⟩ :=
        .drop there ⟨rfl, rfl⟩
      have less := (every _ made).length_eq
      have same := balanced.length_eq
      obtain ⟨inside, _⟩ := List.getElem?_eq_some_iff.mp there
      simp only [regions, List.length_map, List.length_eraseIdx_of_lt inside] at less same
      omega

end Steps

/-- A call keeps the mappings to those of the live objects, whatever the system answers, exactly
if it is tidy, and so does every sequence of tidy calls. In every sequence at all each live
object has a mapping of its own, so none is used or unmapped that is not there. -/
theorem mappings_balanced (os : Os) (unmapped : os.mappings = []) :
    (∀ st c, Balanced st → ((∀ after, Makes st c after → Balanced after) ↔ Tidy st c)) ∧
    (∀ st, Sequence Makes Tidy ⟨os, []⟩ st → Balanced st) ∧
    ∀ st, Sequence Makes (fun _ _ => True) ⟨os, []⟩ st → Owned st := by
  refine ⟨?_, ?_, ?_⟩
  · intro st c balanced
    exact ⟨tidy_needed balanced, fun tidy after made => makes_balanced balanced tidy made⟩
  · intro st run
    refine Sequence.invariant Balanced ?_ (fun _ _ _ => makes_balanced) run
    rw [Balanced, unmapped]
    rfl
  · intro st run
    refine Sequence.invariant Owned ⟨?_, [], ?_⟩
      (fun _ _ _ owned _ made => makes_owned owned made) run
    · rw [unmapped]
      exact .nil
    · rw [unmapped]
      rfl

def handle : SharedMemory := ⟨⟨0, 32, "/segment"⟩, true⟩

/-- A view and a ring of 32 bytes, and the view again dropped. -/
theorem mappings_balanced_pair :
    Balanced ⟨((Os.empty.map 1 32).map 33 32).unmap 1 32, [.ring 33 32]⟩ ∧
      Owned ⟨((Os.empty.map 1 32).map 33 32).unmap 1 32, [.ring 33 32]⟩ := by
  have view : Makes ⟨Os.empty, []⟩ (.map handle) ⟨Os.empty.map 1 32, [.view 1 32]⟩ :=
    .map (r := .ok (.view 1 32)) (Prog.solo_runs does_exec rfl)
  have ring : Makes ⟨Os.empty.map 1 32, [.view 1 32]⟩ (.spsc handle)
      ⟨(Os.empty.map 1 32).map 33 32, [.ring 33 32, .view 1 32]⟩ :=
    .spsc (r := .ok (.ring 33 32)) (Prog.solo_runs does_exec rfl)
  have dropped : Makes ⟨(Os.empty.map 1 32).map 33 32, [.ring 33 32, .view 1 32]⟩ (.drop 1)
      ⟨((Os.empty.map 1 32).map 33 32).unmap 1 32, [.ring 33 32]⟩ :=
    .drop rfl (Prog.solo_runs does_exec rfl)
  constructor
  · refine (mappings_balanced Os.empty rfl).2.1 _
      ((((Sequence.start.snoc _ ?_ view).snoc _ ?_ ring)).snoc _
      ?_ dropped)
    · exact .inr rfl
    · exact .inr rfl
    · exact fun _ _ same => nomatch same
  · exact (mappings_balanced Os.empty rfl).2.2 _
      (((Sequence.start.snoc _ trivial view).snoc _ trivial ring).snoc _ trivial dropped)

/-- A ring is dropped, and its mapping stays. -/
theorem ring_leaks :
    ¬ ∀ os st, os.mappings = [] → Sequence Makes (fun _ _ => True) ⟨os, []⟩ st → Balanced st := by
  intro every
  have ring : Makes ⟨Os.empty, []⟩ (.spsc handle) ⟨Os.empty.map 1 32, [.ring 1 32]⟩ :=
    .spsc (r := .ok (.ring 1 32)) (Prog.solo_runs does_exec rfl)
  have dropped : Makes ⟨Os.empty.map 1 32, [.ring 1 32]⟩ (.drop 0) ⟨Os.empty.map 1 32, []⟩ :=
    .drop rfl (Prog.solo_runs does_exec rfl)
  have left :=
    (every _ _ rfl ((Sequence.start.snoc _ trivial ring).snoc _ trivial dropped)).length_eq
  cases left

end Membridge.Balance
