import Membridge.Platform

/-!
Handles of all processes on shared names. A handle records the size of its object
once, at `create` or `open`; another `create` on the name opens the same object
and resizes it.
-/
namespace Membridge.Creators
open Program Posix Python Mixed Segment Platform

/-- The live handles of all processes, and the system under them. -/
structure Holders where
  os : Os
  handles : List SharedMemory

inductive HandleCall where
  | create (name : String) (size : Nat)
  | open_ (name : String)
  | remove (name : String)
  | drop (index : Nat)

def kept (handles : List SharedMemory) : PyResult SharedMemory → List SharedMemory
  | .ok handle => handles ++ [handle]
  | .error _ => handles

inductive Makes : Holders → HandleCall → Holders → Prop where
  | create {st : Holders} {name : String} {size : Nat} {r : PyResult SharedMemory} {os : Os}
      (usize : size < 2 ^ 64)
      (ran : Prog.Runs Does (SharedMemory.create name size).run st.os r os) :
      Makes st (.create name size) ⟨os, kept st.handles r⟩
  | open_ {st : Holders} {name : String} {r : PyResult SharedMemory} {os : Os}
      (ran : Prog.Runs Does (SharedMemory.open_ name).run st.os r os) :
      Makes st (.open_ name) ⟨os, kept st.handles r⟩
  | remove {st : Holders} {name : String} {r : PyResult Unit} {os : Os}
      (ran : Prog.Runs Does (SharedMemory.remove name).run st.os r os) :
      Makes st (.remove name) ⟨os, st.handles⟩
  | drop {st : Holders} (index : Nat) : Makes st (.drop index) ⟨st.os, st.handles.eraseIdx index⟩

/-- One creator to an object, and every recorded size is the size. -/
structure Sound (st : Holders) : Prop where
  one : st.handles.Pairwise fun a b =>
    a.isCreator = true → b.isCreator = true → a.handle.fd ≠ b.handle.fd
  sizes : ∀ h ∈ st.handles, h.size = st.os.size h.handle.fd

def Held (st : Holders) : Prop := ∀ h ∈ st.handles, h.handle.fd < st.os.objects.length

/-- If `create` can succeed, the handles that share its object are openers of the same size. -/
def Harmless (st : Holders) : HandleCall → Prop
  | .create name size => checkCreate name size = .ok () → size < 2 ^ 63 →
      ∀ h ∈ st.handles, st.os.names name = some h.handle.fd → h.isCreator = false ∧ h.size = size
  | _ => True

section Steps
variable {st after : Holders} {os opened : Os} {name : String} {fd size : Nat}

theorem opens_size (opens : Opens os name fd opened) (id : Nat) : opened.size id = os.size id := by
  rcases opens with ⟨_, rfl⟩ | ⟨_, _, rfl⟩
  · rfl
  · exact create_size name id

theorem opens_grow (opens : Opens os name fd opened) :
    os.objects.length ≤ opened.objects.length := by
  rcases opens with ⟨_, rfl⟩ | ⟨_, _, rfl⟩
  · exact Nat.le_refl _
  · simp [Os.create]

/-- A handle that shares the object of a `create` shares its name's object. -/
theorem opens_shared (opens : Opens os name fd opened) {id : Nat} (held : id < os.objects.length)
    (same : id = fd) : os.names name = some id := by
  subst same
  rcases opens with ⟨bound, _⟩ | ⟨_, rfl, _⟩
  · exact bound
  · omega

/-- The sizes that handles recorded stay true as long as the sizes stay. -/
theorem sizes_kept (sound : Sound st) (same : ∀ id, os.size id = st.os.size id) :
    Sound ⟨os, st.handles⟩ := by
  constructor
  · exact sound.one
  · intro h there
    rw [same]
    exact sound.sizes h there

/-- A `create` that succeeds adds a creator and resizes the object. -/
theorem created_sound (sound : Sound st) (held : Held st) (opens : Opens st.os name fd opened)
    (harmless : ∀ h ∈ st.handles, st.os.names name = some h.handle.fd →
      h.isCreator = false ∧ h.size = size) :
    Sound ⟨opened.resize fd size, st.handles ++ [⟨⟨fd, size, name⟩, true⟩]⟩ := by
  constructor
  · rw [List.pairwise_append]
    refine ⟨sound.one, List.pairwise_singleton _ _, ?_⟩
    intro a there b new creator _ same
    cases List.mem_singleton.mp new
    rw [(harmless a there (opens_shared opens (held a there) same)).1] at creator
    cases creator
  · intro h there
    rcases List.mem_append.mp there with old | new
    -- only the object of this name changes its size
    · by_cases same : h.handle.fd = fd
      · rw [(harmless h old (opens_shared opens (held h old) same)).2, same,
          resize_size (opens_made opens)]
      · rw [resize_size_other same, opens_size opens]
        exact sound.sizes h old
    · cases List.mem_singleton.mp new
      exact (resize_size (opens_made opens) size).symm

theorem makes_sound {c : HandleCall} (sound : Sound st) (held : Held st) (harmless : Harmless st c)
    (made : Makes st c after) : Sound after := by
  cases made with
  | @create _ size r os usize ran =>
      rcases (runs_create usize).mp ran with
        ⟨_, _, rfl, rfl⟩ | ⟨accepted, ⟨_, rfl, rfl⟩ | ⟨fd, opened, opens, rest⟩⟩
      · exact sound
      · exact sound
      · rcases rest with ⟨_, rfl, rfl⟩ | ⟨small, rfl, rfl⟩
        -- the name is unlinked again; the object keeps the size it had
        · apply sizes_kept sound
          intro id
          rw [unlink_size, opens_size opens]
        · exact created_sound sound held opens (harmless accepted small)
  | open_ ran =>
      obtain ⟨rfl, ⟨_, rfl⟩ | ⟨fd, bound, rfl⟩⟩ := runs_open ran
      · exact sound
      · constructor
        · rw [kept, List.pairwise_append]
          refine ⟨sound.one, List.pairwise_singleton _ _, ?_⟩
          intro a _ b new _ creator
          cases List.mem_singleton.mp new
          cases creator
        · intro h there
          rcases List.mem_append.mp there with old | new
          · exact sound.sizes h old
          · cases List.mem_singleton.mp new
            rfl
  | remove ran =>
      rcases runs_remove ran with rfl | rfl
      · exact sound
      · exact sizes_kept sound fun _ => rfl
  | drop index =>
      constructor
      · exact sound.one.sublist (List.eraseIdx_sublist _ _)
      · intro h there
        exact sound.sizes h (List.mem_of_mem_eraseIdx there)

/-- Live handles hold objects that were made; no call unmakes one. -/
theorem makes_held {c : HandleCall} (held : Held st) (made : Makes st c after) : Held after := by
  have grown : ∀ {os : Os}, st.os.objects.length ≤ os.objects.length → Held ⟨os, st.handles⟩ :=
    fun more h there => Nat.lt_of_lt_of_le (held h there) more
  cases made with
  | @create _ size r os usize ran =>
      rcases (runs_create usize).mp ran with
        ⟨_, _, rfl, rfl⟩ | ⟨_, ⟨_, rfl, rfl⟩ | ⟨fd, opened, opens, rest⟩⟩
      · exact held
      · exact held
      · rcases rest with ⟨_, rfl, rfl⟩ | ⟨_, rfl, rfl⟩
        · apply grown
          rw [unlink_objects]
          exact opens_grow opens
        · intro h there
          rw [resize_made]
          rcases List.mem_append.mp there with old | new
          · exact grown (opens_grow opens) h old
          · cases List.mem_singleton.mp new
            exact opens_made opens
  | open_ ran =>
      obtain ⟨rfl, ⟨_, rfl⟩ | ⟨fd, bound, rfl⟩⟩ := runs_open ran
      · exact held
      · intro h there
        rcases List.mem_append.mp there with old | new
        · exact held h old
        · cases List.mem_singleton.mp new
          exact st.os.made _ fd bound
  | remove ran =>
      rcases runs_remove ran with rfl | rfl
      · exact held
      · exact held
  | drop index => exact fun h there => held h (List.mem_of_mem_eraseIdx there)

/-- A `create` that is not harmless may succeed, and then a handle is a second creator or
remembers another size. -/
theorem harmless_needed {c : HandleCall} (every : ∀ after, Makes st c after → Sound after) :
    Harmless st c := by
  cases c with
  | create name size =>
      intro accepted small h there bound
      have usize : size < 2 ^ 64 := by omega
      have made : Makes st (.create name size) ⟨st.os.resize h.handle.fd size,
          st.handles ++ [⟨⟨h.handle.fd, size, name⟩, true⟩]⟩ :=
        .create usize ((runs_create usize).mpr (.inr ⟨accepted, .inr
          ⟨h.handle.fd, st.os, .inl ⟨bound, rfl⟩, .inr ⟨small, rfl, rfl⟩⟩⟩))
      have result := every _ made
      constructor
      · have cross := (List.pairwise_append.mp result.one).2.2 h there _ List.mem_cons_self
        cases creator : h.isCreator with
        | false => rfl
        | true => exact absurd rfl (cross creator rfl)
      · rw [result.sizes h (List.mem_append_left _ there)]
        exact resize_size (st.os.made _ _ bound) size
  | _ => trivial

end Steps

/-- A call keeps one creator to an object and every size true, whatever the system answers,
exactly if it is harmless; so they hold in every state that harmless calls lead to. -/
theorem creators_kept (os : Os) :
    (∀ st c, Sound st → Held st → ((∀ after, Makes st c after → Sound after) ↔ Harmless st c)) ∧
    ∀ st, Sequence Makes Harmless ⟨os, []⟩ st → Sound st := by
  constructor
  · intro st c sound held
    exact ⟨harmless_needed, fun harmless after made => makes_sound sound held harmless made⟩
  · intro st run
    have both : Sound st ∧ Held st := by
      refine Sequence.invariant (fun st => Sound st ∧ Held st) ?_ ?_ run
      · exact ⟨⟨.nil, nofun⟩, nofun⟩
      · rintro st c after ⟨sound, held⟩ harmless made
        exact ⟨makes_sound sound held harmless made, makes_held held made⟩
    exact both.1

def maker : SharedMemory := ⟨⟨0, 8, "/segment"⟩, true⟩

def segment : Os := (Os.empty.create "/segment").resize 0 8

/-- A segment is made, opened, removed and made again in another size, with both of the old
handles alive. -/
theorem creators_kept_again :
    Sound ⟨((segment.unlink "/segment").create "/segment").resize 1 16,
      [maker, ⟨⟨0, 8, "/segment"⟩, false⟩, ⟨⟨1, 16, "/segment"⟩, true⟩]⟩ := by
  have first : Makes ⟨Os.empty, []⟩ (.create "/segment" 8) ⟨segment, [maker]⟩ :=
    .create (r := .ok maker) (by decide) (Prog.solo_runs does_exec rfl)
  have opened : Makes ⟨segment, [maker]⟩ (.open_ "/segment")
      ⟨segment, [maker, ⟨⟨0, 8, "/segment"⟩, false⟩]⟩ :=
    .open_ (r := .ok ⟨⟨0, 8, "/segment"⟩, false⟩) (Prog.solo_runs does_exec rfl)
  have removed : Makes ⟨segment, [maker, ⟨⟨0, 8, "/segment"⟩, false⟩]⟩ (.remove "/segment")
      ⟨segment.unlink "/segment", [maker, ⟨⟨0, 8, "/segment"⟩, false⟩]⟩ :=
    .remove (r := .ok ()) (Prog.solo_runs does_exec rfl)
  have again : Makes ⟨segment.unlink "/segment", [maker, ⟨⟨0, 8, "/segment"⟩, false⟩]⟩
      (.create "/segment" 16) ⟨((segment.unlink "/segment").create "/segment").resize 1 16,
        [maker, ⟨⟨0, 8, "/segment"⟩, false⟩, ⟨⟨1, 16, "/segment"⟩, true⟩]⟩ :=
    .create (r := .ok ⟨⟨1, 16, "/segment"⟩, true⟩) (by decide) (Prog.solo_runs does_exec rfl)
  refine (creators_kept Os.empty).2 _
    ((((Sequence.start.snoc _ ?_ first).snoc _ ?_ opened).snoc _ ?_
    removed).snoc _ ?_ again)
  · exact fun _ _ h there => nomatch there
  · trivial
  · trivial
  · exact fun _ _ h _ bound => nomatch bound

/-- Two programs create one name: two creators of one object, the first of which remembers
twice the size there is. -/
theorem creators_doubled :
    ¬ ∀ os st, Sequence Makes (fun _ _ => True) ⟨os, []⟩ st → Sound st := by
  intro every
  have first : Makes ⟨Os.empty, []⟩ (.create "/segment" 8) ⟨segment, [maker]⟩ :=
    .create (r := .ok maker) (by decide) (Prog.solo_runs does_exec rfl)
  have second : Makes ⟨segment, [maker]⟩ (.create "/segment" 4)
      ⟨segment.resize 0 4, [maker, ⟨⟨0, 4, "/segment"⟩, true⟩]⟩ :=
    .create (r := .ok ⟨⟨0, 4, "/segment"⟩, true⟩) (by decide) (Prog.solo_runs does_exec rfl)
  have sound := every _ _ ((Sequence.start.snoc _ trivial first).snoc _ trivial second)
  have remembered : 8 = 4 := sound.sizes maker List.mem_cons_self
  cases remembered

end Membridge.Creators
