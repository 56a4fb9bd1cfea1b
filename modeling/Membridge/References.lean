import Mathlib.Data.List.Perm.Basic
import Membridge.Balance
import Membridge.Windows

/-!
The handles and views of a process on Windows over whole runs. There `remove` does
nothing and the system counts references, so what counts is that a process names only
what it was given, and gives back all of it.
-/
namespace Membridge.References
open Program Win32 Python Balance Windows
open Platform (Mapped viewFits ringFits)

/-- What the process asked of the system so far, and its live Python objects. -/
structure World where
  trace : List Event
  handles : List SharedMemory
  objects : List Mapped

/-- Handles and objects are named by their place among the live ones. -/
inductive Call where
  | create (name : String) (size : Nat)
  | open_ (name : String) (size : Option Nat)
  | remove (name : String)
  | close (index : Nat)
  | map (index : Nat)
  | spsc (index : Nat)
  | drop (index : Nat)

def kept {α : Type} (live : List α) : PyResult α → List α
  | .ok value => value :: live
  | .error _ => live

inductive Makes (st : World) : Call → World → Prop where
  | create {name : String} {size : Nat} {r : PyResult SharedMemory} {trace : List Event}
      (usize : size < 2 ^ 64)
      (ran : Prog.Runs Asks (SharedMemory.create name size).run st.trace r trace) :
      Makes st (.create name size) ⟨trace, kept st.handles r, st.objects⟩
  | open_ {name : String} {size : Option Nat} {r : PyResult SharedMemory} {trace : List Event}
      (ran : Prog.Runs Asks (SharedMemory.open_ name size).run st.trace r trace) :
      Makes st (.open_ name size) ⟨trace, kept st.handles r, st.objects⟩
  | remove {name : String} {r : PyResult Unit} {trace : List Event}
      (ran : Prog.Runs Asks (SharedMemory.remove name).run st.trace r trace) :
      Makes st (.remove name) ⟨trace, st.handles, st.objects⟩
  | close {index : Nat} {self : SharedMemory} {trace : List Event}
      (there : st.handles[index]? = some self)
      (ran : Prog.Runs Asks (PlatformHandle.drop self.handle) st.trace () trace) :
      Makes st (.close index) ⟨trace, st.handles.eraseIdx index, st.objects⟩
  | map {index : Nat} {self : SharedMemory} {r : PyResult Mapped} {trace : List Event}
      (there : st.handles[index]? = some self)
      (ran : Prog.Runs Asks (SharedMemory.map self).run st.trace r trace) :
      Makes st (.map index) ⟨trace, st.handles, kept st.objects r⟩
  | spsc {index : Nat} {self : SharedMemory} {r : PyResult Mapped} {trace : List Event}
      (there : st.handles[index]? = some self)
      (ran : Prog.Runs Asks (SharedMemory.spsc self).run st.trace r trace) :
      Makes st (.spsc index) ⟨trace, st.handles, kept st.objects r⟩
  | drop {index : Nat} {object : Mapped} {trace : List Event}
      (there : st.objects[index]? = some object)
      (ran : Prog.Runs Asks (Windows.drop object) st.trace () trace) :
      Makes st (.drop index) ⟨trace, st.handles, st.objects.eraseIdx index⟩

def value (self : SharedMemory) : Nat := self.handle.handle

/-- Every handle that was given is a live one's or closed, and every view a live object's,
unmapped, or left over; each once. -/
structure Accounted (st : World) (left : List (Nat × Nat)) : Prop where
  handles : (obtained st.trace).Perm (st.handles.map value ++ closed st.trace)
  views : ∃ gone, gone.map Prod.fst = unmapped st.trace ∧
    (mapped st.trace).Perm (st.objects.map region ++ (left ++ gone))

def Balanced (st : World) : Prop := Accounted st []

/-- No call that leaves a view behind: one that maps and then refuses, or a ring's end. -/
def Tidy (st : World) : Call → Prop
  | .map index => ∀ self, st.handles[index]? = some self → viewFits self.size = .ok ()
  | .spsc index => ∀ self, st.handles[index]? = some self →
      ringFits self.size self.isCreator = .ok ()
  | .drop index => ∀ start mapSize, st.objects[index]? ≠ some (.ring start mapSize)
  | _ => True

/-- What a call comes to, whatever the system answers. -/
inductive Effect (st : World) : Call → World → Prop where
  | refused {c : Call} {trace : List Event} (refused : Refused st.trace trace) :
      Effect st c ⟨trace, st.handles, st.objects⟩
  | granted {c : Call} {self : SharedMemory} {e : Event} (grants : Grants self e) :
      Effect st c ⟨st.trace ++ [e], self :: st.handles, st.objects⟩
  | closed {index : Nat} {self : SharedMemory} (there : st.handles[index]? = some self)
      (answer : Except String Unit) :
      Effect st (.close index)
        ⟨st.trace ++ [⟨.closeHandle (value self), answer⟩], st.handles.eraseIdx index, st.objects⟩
  | unmappable {c : Call} {self : SharedMemory} (live : self ∈ st.handles) (text : String) :
      Effect st c
        ⟨st.trace ++ [⟨.mapViewOfFile (value self) self.size, .error text⟩], st.handles, st.objects⟩
  | mapped {c : Call} {self : SharedMemory} (live : self ∈ st.handles) (start : NonNull)
      {object : Mapped} (whole : region object = (start.val, self.size)) (sized : 0 < self.size) :
      Effect st c
        ⟨st.trace ++ [⟨.mapViewOfFile (value self) self.size, .ok start⟩], st.handles,
          object :: st.objects⟩
  -- the view is mapped before the check, and nothing unmaps it
  | spilt {c : Call} {self : SharedMemory} (live : self ∈ st.handles) (start : NonNull)
      (untidy : ¬ Tidy st c) :
      Effect st c
        ⟨st.trace ++ [⟨.mapViewOfFile (value self) self.size, .ok start⟩], st.handles, st.objects⟩
  | unmapped {index start size : Nat} (there : st.objects[index]? = some (.view start size))
      (answer : Except String Unit) :
      Effect st (.drop index)
        ⟨st.trace ++ [⟨.unmapViewOfFile start, answer⟩], st.handles, st.objects.eraseIdx index⟩
  -- a ring has no destructor
  | lost {index start mapSize : Nat} (there : st.objects[index]? = some (.ring start mapSize)) :
      Effect st (.drop index) ⟨st.trace, st.handles, st.objects.eraseIdx index⟩

section Effects
variable {st after : World} {c : Call} {self : SharedMemory}

/-- A call that maps and then checks. -/
theorem mapping_effect (make : Nat → Mapped) {check : PyResult Unit} {r : PyResult Mapped}
    {trace : List Event} (live : self ∈ st.handles)
    (made : ∀ start, region (make start) = (start, self.size))
    (sized : check = .ok () → 0 < self.size) (untidy : check ≠ .ok () → ¬ Tidy st c)
    (ran : Prog.Runs Asks (do
        let start ← raising (PlatformHandle.map self.handle)
        check
        return make start.val : OsM Mapped).run st.trace r trace) :
    Effect st c ⟨trace, st.handles, kept st.objects r⟩ := by
  rcases runs_mapping.mp ran with ⟨text, rfl, rfl⟩ | ⟨start, rfl, ⟨passed, rfl⟩ | ⟨e, failed, rfl⟩⟩
  · exact .unmappable live text
  · exact .mapped live start (made start.val) (sized passed)
  · apply Effect.spilt live start
    apply untidy
    rw [failed]
    exact fun same => nomatch same

theorem viewFits_pos {size : Nat} (fits : viewFits size = .ok ()) : 0 < size := by
  rcases Nat.eq_zero_or_pos size with rfl | pos
  · cases fits
  · exact pos

theorem ringFits_pos {size : Nat} {isCreator : Bool} (fits : ringFits size isCreator = .ok ()) :
    0 < size := by
  rcases Nat.eq_zero_or_pos size with rfl | pos
  · cases fits
  · exact pos

theorem makes_effect (made : Makes st c after) : Effect st c after := by
  cases made with
  | create usize ran =>
      rcases runs_create usize ran with ⟨_, rfl, refused⟩ | ⟨_, _, rfl, grants, rfl⟩
      · exact .refused refused
      · exact .granted grants
  | open_ ran =>
      rcases runs_open ran with ⟨_, rfl, refused⟩ | ⟨_, _, _, _, rfl, grants, rfl⟩
      · exact .refused refused
      · exact .granted grants
  | remove ran =>
      obtain rfl := runs_remove ran
      exact .refused .early
  | close there ran =>
      obtain ⟨answer, _, rfl, _, rfl⟩ := ran
      exact .closed there answer
  | @map _ self _ _ there ran =>
      exact mapping_effect (fun start => .view start self.size) (List.mem_of_getElem? there)
        (fun _ => rfl) viewFits_pos (fun failed tidy => failed (tidy self there)) ran
  | @spsc _ self _ _ there ran =>
      exact mapping_effect (fun start => .ring start self.size) (List.mem_of_getElem? there)
        (fun _ => rfl) ringFits_pos (fun failed tidy => failed (tidy self there)) ran
  | @drop index object _ there ran =>
      cases object with
      | view start size =>
          obtain ⟨answer, _, rfl, _, rfl⟩ := ran
          exact .unmapped there answer
      | ring start mapSize =>
          obtain ⟨_, rfl⟩ := ran
          exact .lost there

end Effects
section Accounts
variable {st after : World} {c : Call} {self : SharedMemory} {left : List (Nat × Nat)}

/-- A refusal gives nothing and names nothing. -/
theorem refused_same {trace last : List Event} (refused : Refused trace last) :
    obtained last = obtained trace ∧ closed last = closed trace ∧
      mapped last = mapped trace ∧ unmapped last = unmapped trace := by
  cases refused with
  | early => exact ⟨rfl, rfl, rfl, rfl⟩
  | @system o opens text =>
      cases o with
      | createFileMapping => simp [Event.obtained, Event.closed, Event.mapped, Event.unmapped]
      | openFileMapping => simp [Event.obtained, Event.closed, Event.mapped, Event.unmapped]
      | _ => exact opens.elim

theorem grants_same {e : Event} (grants : Grants self e) :
    e.obtained = some (value self) ∧ e.closed = none ∧ e.mapped = none ∧ e.unmapped = none := by
  cases grants <;> exact ⟨rfl, rfl, rfl, rfl⟩

theorem live_split {α β : Type} {live : List α} {index : Nat} {a : α} (f : α → β)
    (there : live[index]? = some a) :
    (live.map f).Perm (f a :: (live.eraseIdx index).map f) := by
  obtain ⟨inside, rfl⟩ := List.getElem?_eq_some_iff.mp there
  exact ((List.getElem_cons_eraseIdx_perm inside).map f).symm

/-- One that was last is as good as first. -/
theorem perm_last {α : Type} {xs ys : List α} (same : xs.Perm ys) (a : α) :
    (xs ++ [a]).Perm (a :: ys) :=
  (List.perm_append_singleton a xs).trans (same.cons a)

/-- What a call leaves over, if it is not tidy. What was left over stays. -/
theorem effect_accounted (accounted : Accounted st left) (effect : Effect st c after) :
    ∃ more, Accounted after (more ++ left) ∧ (Tidy st c → more = []) := by
  obtain ⟨handles, gone, given, views⟩ := accounted
  cases effect with
  | refused refused =>
      obtain ⟨opens, closes, maps, unmaps⟩ := refused_same refused
      refine ⟨[], ⟨?_, gone, ?_, ?_⟩, fun _ => rfl⟩
      · rwa [opens, closes]
      · rwa [unmaps]
      · rwa [maps]
  | granted grants =>
      obtain ⟨opens, closes, maps, unmaps⟩ := grants_same grants
      refine ⟨[], ⟨?_, gone, ?_, ?_⟩, fun _ => rfl⟩
      · simpa [opens, closes] using perm_last handles _
      · simpa [unmaps] using given
      · simpa [maps] using views
  | closed there answer =>
      refine ⟨[], ⟨?_, gone, ?_, ?_⟩, fun _ => rfl⟩
      · have split := handles.trans ((live_split value there).append_right _)
        have moved := split.trans (perm_last (List.Perm.refl _) _).symm
        simpa [Event.obtained, Event.closed] using moved
      · simpa [Event.unmapped] using given
      · simpa [Event.mapped] using views
  | unmappable live text =>
      refine ⟨[], ⟨?_, gone, ?_, ?_⟩, fun _ => rfl⟩
      · simpa [Event.obtained, Event.closed] using handles
      · simpa [Event.unmapped] using given
      · simpa [Event.mapped] using views
  | mapped live start whole sized =>
      refine ⟨[], ⟨?_, gone, ?_, ?_⟩, fun _ => rfl⟩
      · simpa [Event.obtained, Event.closed] using handles
      · simpa [Event.unmapped] using given
      · simpa [Event.mapped, whole] using perm_last views _
  | @spilt _ self live start untidy =>
      refine ⟨[(start.val, self.size)], ⟨?_, gone, ?_, ?_⟩, fun tidy => absurd tidy untidy⟩
      · simpa [Event.obtained, Event.closed] using handles
      · simpa [Event.unmapped] using given
      · have moved := (perm_last views (start.val, self.size)).trans List.perm_middle.symm
        simpa [Event.mapped] using moved
  | @unmapped index start size there answer =>
      refine ⟨[], ⟨?_, gone ++ [(start, size)], ?_, ?_⟩, fun _ => rfl⟩
      · simpa [Event.obtained, Event.closed] using handles
      · simp [Event.unmapped, given]
      · have split := views.trans ((live_split region there).append_right _)
        have moved := split.trans (perm_last (List.Perm.refl _) _).symm
        simpa [Event.mapped, region] using moved
  | @lost index start mapSize there =>
      refine ⟨[(start, mapSize)], ⟨handles, gone, given, ?_⟩,
        fun tidy => absurd there (tidy start mapSize)⟩
      have split := views.trans ((live_split region there).append_right _)
      exact split.trans List.perm_middle.symm

/-- A live handle was given once more than it was closed, -/
theorem live_open (accounted : Accounted st left) (live : self ∈ st.handles) :
    Open st.trace (value self) := by
  have given := accounted.handles.count_eq (value self)
  have once := List.count_pos_iff.mpr (List.mem_map_of_mem (f := value) live)
  rw [List.count_append] at given
  rw [Open]
  omega

/-- a live object's region was given with its size, -/
theorem live_mapped (accounted : Accounted st left) {object : Mapped}
    (live : object ∈ st.objects) : region object ∈ mapped st.trace := by
  obtain ⟨gone, _, views⟩ := accounted.views
  exact views.mem_iff.mpr (List.mem_append_left _ (List.mem_map_of_mem live))

/-- and once more than it was unmapped. -/
theorem live_viewed (accounted : Accounted st left) {object : Mapped}
    (live : object ∈ st.objects) : Viewed st.trace (region object).1 := by
  obtain ⟨gone, given, views⟩ := accounted.views
  have count := (views.map Prod.fst).count_eq (region object).1
  have once := List.count_pos_iff.mpr
    (List.mem_map_of_mem (f := Prod.fst) (List.mem_map_of_mem (f := region) live))
  simp only [List.map_append, List.count_append, given] at count
  rw [Viewed]
  omega

theorem effect_proper (accounted : Accounted st left) (proper : Proper st.trace)
    (effect : Effect st c after) : Proper after.trace := by
  cases effect with
  | refused refused =>
      cases refused with
      | early => exact proper
      | @system o opens text =>
          apply proper.snoc
          cases o with
          | createFileMapping => trivial
          | openFileMapping => trivial
          | _ => exact opens.elim
  | granted grants =>
      apply proper.snoc
      cases grants <;> trivial
  | closed there answer => exact proper.snoc (live_open accounted (List.mem_of_getElem? there))
  | unmappable live text => exact proper.snoc (live_open accounted live)
  | mapped live start whole sized => exact proper.snoc (live_open accounted live)
  | spilt live start untidy => exact proper.snoc (live_open accounted live)
  | unmapped there answer =>
      exact proper.snoc (live_viewed accounted (List.mem_of_getElem? there))
  | lost there => exact proper

end Accounts
section Runs
variable {st last : World} {left : List (Nat × Nat)} {c : Call}

/-- What every run keeps. -/
structure Sound (st : World) : Prop where
  proper : Proper st.trace
  granted : ∀ self ∈ st.handles, ∃ e ∈ st.trace, Grants self e
  sized : ∀ object ∈ st.objects, 0 < (region object).2
  accounted : ∃ left, Accounted st left

def nothing : World := ⟨[], [], []⟩

theorem nothing_balanced : Balanced nothing := ⟨.nil, [], rfl, .nil⟩

theorem nothing_sound : Sound nothing where
  proper := proper_nil
  granted _ live := nomatch live
  sized _ live := nomatch live
  accounted := ⟨[], nothing_balanced⟩

theorem effect_granted (granted : ∀ self ∈ st.handles, ∃ e ∈ st.trace, Grants self e)
    (effect : Effect st c last) : ∀ self ∈ last.handles, ∃ e ∈ last.trace, Grants self e := by
  have longer : ∀ {more : List Event} {self : SharedMemory}, self ∈ st.handles →
      ∃ e ∈ st.trace ++ more, Grants self e := by
    intro more self live
    obtain ⟨e, there, grants⟩ := granted self live
    exact ⟨e, List.mem_append_left _ there, grants⟩
  cases effect with
  | refused refused =>
      cases refused with
      | early => exact granted
      | system opens text => exact fun self live => longer live
  | granted grants =>
      intro self live
      rcases List.mem_cons.mp live with rfl | old
      · exact ⟨_, List.mem_append_right _ (List.mem_singleton_self _), grants⟩
      · exact longer old
  | closed there answer => exact fun self live => longer (List.mem_of_mem_eraseIdx live)
  | unmappable live text => exact fun self live => longer live
  | mapped live start whole sized => exact fun self live => longer live
  | spilt live start untidy => exact fun self live => longer live
  | unmapped there answer => exact fun self live => longer live
  | lost there => exact granted

theorem effect_sized (sized : ∀ object ∈ st.objects, 0 < (region object).2)
    (effect : Effect st c last) : ∀ object ∈ last.objects, 0 < (region object).2 := by
  cases effect with
  | mapped live start whole pos =>
      intro object there
      rcases List.mem_cons.mp there with rfl | old
      · rw [whole]
        exact pos
      · exact sized object old
  | unmapped there answer => exact fun object live => sized object (List.mem_of_mem_eraseIdx live)
  | lost there => exact fun object live => sized object (List.mem_of_mem_eraseIdx live)
  | _ => exact sized

theorem makes_sound (sound : Sound st) (made : Makes st c last) : Sound last := by
  have effect := makes_effect made
  obtain ⟨left, accounted⟩ := sound.accounted
  obtain ⟨more, still, _⟩ := effect_accounted accounted effect
  exact ⟨effect_proper accounted sound.proper effect, effect_granted sound.granted effect,
    effect_sized sound.sized effect, _, still⟩

theorem makes_balanced (balanced : Balanced st) (tidy : Tidy st c) (made : Makes st c last) :
    Balanced last := by
  obtain ⟨more, still, empty⟩ := effect_accounted balanced (makes_effect made)
  rw [empty tidy] at still
  exact still

/-- Views that were given, against the live and the unmapped ones. -/
theorem balanced_length (balanced : Balanced st) :
    (mapped st.trace).length = st.objects.length + (unmapped st.trace).length := by
  obtain ⟨gone, given, views⟩ := balanced.views
  have count := views.length_eq
  rw [← given]
  simpa using count

/-- The system may grant a view that the check then refuses. -/
theorem mapping_left (make : Nat → Mapped) {check : PyResult Unit} {self : SharedMemory}
    {e : PyErr} (refused : check = .error e) :
    Prog.Runs Asks (do
        let start ← raising (PlatformHandle.map self.handle)
        check
        return make start.val : OsM Mapped).run st.trace (.error e)
      (st.trace ++ [⟨.mapViewOfFile (value self) self.size, .ok ⟨1, Nat.one_ne_zero⟩⟩]) :=
  runs_mapping.mpr (.inr ⟨⟨1, Nat.one_ne_zero⟩, rfl, .inr ⟨e, refused, rfl⟩⟩)

theorem tidy_needed (balanced : Balanced st)
    (every : ∀ after, Makes st c after → Balanced after) : Tidy st c := by
  have same := balanced_length balanced
  -- one view more than objects
  have spills : ∀ {handle size : Nat} {start : NonNull} {e : PyErr},
      ¬ Makes st c ⟨st.trace ++ [⟨.mapViewOfFile handle size, .ok start⟩], st.handles,
        kept st.objects (.error e)⟩ := by
    intro handle size start e made
    have more := balanced_length (every _ made)
    simp only [mapped_snoc, unmapped_snoc, Event.mapped, Event.unmapped, Option.toList, kept,
      List.length_append, List.length_singleton, List.length_nil] at more
    omega
  cases c with
  | map index =>
      intro self there
      cases fits : viewFits self.size with
      | ok _ => rfl
      | error e =>
          exact absurd (.map there (mapping_left (fun start => .view start self.size) fits)) spills
  | spsc index =>
      intro self there
      cases fits : ringFits self.size self.isCreator with
      | ok _ => rfl
      | error e =>
          exact absurd (.spsc there (mapping_left (fun start => .ring start self.size) fits)) spills
  | drop index =>
      intro start mapSize there
      have made : Makes st (.drop index) ⟨st.trace, st.handles, st.objects.eraseIdx index⟩ :=
        .drop there ⟨rfl, rfl⟩
      have less := balanced_length (every _ made)
      obtain ⟨inside, _⟩ := List.getElem?_eq_some_iff.mp there
      simp only [List.length_eraseIdx_of_lt inside] at less
      omega
  | _ => trivial

theorem run_accounted (accounted : Accounted st left)
    (run : Sequence Makes (fun _ _ => True) st last) : ∃ more, Accounted last (more ++ left) := by
  induction run with
  | start => exact ⟨[], accounted⟩
  | snoc _ c _ made ih =>
      obtain ⟨more, still⟩ := ih
      obtain ⟨again, after, _⟩ := effect_accounted still (makes_effect made)
      rw [← List.append_assoc] at after
      exact ⟨again ++ more, after⟩

/-- Whatever calls are made in whatever order and whatever the system answers, each handle
that is mapped or closed and each address that is unmapped was given before and not given
back. A live handle was given under its own name, to a creator for exactly its size, and is
open; a live view or ring was given with exactly its size, not zero, and is not unmapped. -/
theorem calls_founded (run : Sequence Makes (fun _ _ => True) nothing st) :
    Proper st.trace ∧
    (∀ self ∈ st.handles, (∃ e ∈ st.trace, Grants self e) ∧ Open st.trace (value self)) ∧
    ∀ object ∈ st.objects, region object ∈ mapped st.trace ∧ 0 < (region object).2 ∧
      Viewed st.trace (region object).1 := by
  have sound := Sequence.invariant Sound nothing_sound
    (fun _ _ _ sound _ made => makes_sound sound made) run
  obtain ⟨left, accounted⟩ := sound.accounted
  refine ⟨sound.proper, fun self live => ?_, fun object live => ?_⟩
  · exact ⟨sound.granted self live, live_open accounted live⟩
  · exact ⟨live_mapped accounted live, sound.sized object live, live_viewed accounted live⟩

/-- A call keeps the accounts balanced, whatever the system answers, exactly if it is tidy.
After tidy calls alone, when the last handle and the last object are gone, what was given is
closed and unmapped, each once; a view that was left over is never unmapped. -/
theorem references_accounted :
    (∀ st c, Balanced st → ((∀ after, Makes st c after → Balanced after) ↔ Tidy st c)) ∧
    (∀ st, Sequence Makes Tidy nothing st → st.handles = [] → st.objects = [] →
      (obtained st.trace).Perm (closed st.trace) ∧
      ((mapped st.trace).map Prod.fst).Perm (unmapped st.trace)) ∧
    ∀ st last left, Accounted st left → Sequence Makes (fun _ _ => True) st last →
      ∃ more, Accounted last (more ++ left) := by
  refine ⟨?_, ?_, fun st last left accounted run => run_accounted accounted run⟩
  · intro st c balanced
    exact ⟨tidy_needed balanced, fun tidy after made => makes_balanced balanced tidy made⟩
  · intro st run handles objects
    have balanced := Sequence.invariant Balanced nothing_balanced (fun _ _ _ => makes_balanced) run
    obtain ⟨gone, given, views⟩ := balanced.views
    constructor
    · simpa [handles] using balanced.handles
    · simpa [objects, given] using views.map Prod.fst

/-- A handle of eight bytes, mapped, and closed while its view is in use. -/
def eight : SharedMemory := ⟨⟨1, 8, "/segment"⟩, true⟩

def asked : List Event :=
  [⟨.createFileMapping 0 8 "segment", .ok 1⟩, ⟨.mapViewOfFile 1 8, .ok ⟨4096, by decide⟩⟩,
    ⟨.closeHandle 1, .ok ()⟩]

theorem creates : Makes nothing (.create "/segment" 8) ⟨asked.take 1, [eight], []⟩ := by
  have valid : cString (toWin32Name "/segment") = .ok "segment" := by
    unfold cString
    rfl
  have made : Prog.Runs Asks (PlatformHandle.create "/segment" 8).run [] (.ok eight.handle)
      (asked.take 1) := by
    rw [PlatformHandle.create, runs_named]
    exact .inr ⟨"segment", valid, .inr ⟨1, runs_syscall.mpr ⟨.ok 1, rfl, rfl⟩, rfl⟩⟩
  exact .create (r := .ok eight) (by decide) (runs_check.mpr (.inr ⟨(), rfl,
    runs_handle.mpr (.inr ⟨eight.handle, made, rfl⟩)⟩))

theorem maps : Makes ⟨asked.take 1, [eight], []⟩ (.map 0)
    ⟨asked.take 2, [eight], [.view 4096 8]⟩ := by
  have ran : Prog.Runs Asks (SharedMemory.map eight).run (asked.take 1) (.ok (.view 4096 8))
      (asked.take 2) := by
    refine (@runs_mapping _ _ eight.handle _ (fun start => .view start 8) _).mpr ?_
    exact .inr ⟨⟨4096, by decide⟩, rfl, .inl ⟨rfl, rfl⟩⟩
  exact .map (r := .ok (.view 4096 8)) rfl ran

theorem closes : Makes ⟨asked.take 2, [eight], [.view 4096 8]⟩ (.close 0)
    ⟨asked, [], [.view 4096 8]⟩ :=
  .close rfl ⟨.ok (), _, rfl, rfl, rfl⟩

theorem drops : Makes ⟨asked, [], [.view 4096 8]⟩ (.drop 0)
    ⟨asked ++ [⟨.unmapViewOfFile 4096, .ok ()⟩], [], []⟩ :=
  .drop rfl ⟨.ok (), _, rfl, rfl, rfl⟩

theorem calls_founded_closed : Proper asked ∧ Viewed asked 4096 := by
  have run : Sequence Makes (fun _ _ => True) nothing ⟨asked, [], [.view 4096 8]⟩ :=
    ((Sequence.start.snoc _ trivial creates).snoc _ trivial maps).snoc _ trivial closes
  obtain ⟨proper, _, objects⟩ := calls_founded run
  exact ⟨proper, (objects _ List.mem_cons_self).2.2⟩

/-- Then the view is dropped. -/
theorem references_accounted_dropped :
    ((mapped (asked ++ [⟨.unmapViewOfFile 4096, .ok ()⟩])).map Prod.fst).Perm
      (unmapped (asked ++ [⟨.unmapViewOfFile 4096, .ok ()⟩])) := by
  have run : Sequence Makes Tidy nothing
      ⟨asked ++ [⟨.unmapViewOfFile 4096, .ok ()⟩], [], []⟩ := by
    refine (((Sequence.start.snoc _ trivial creates).snoc _ ?_ maps).snoc _ trivial closes).snoc
      _ ?_ drops
    · rintro self ⟨⟩
      rfl
    · rintro start mapSize ⟨⟩
  exact (references_accounted.2.1 _ run rfl rfl).2

end Runs
end Membridge.References
