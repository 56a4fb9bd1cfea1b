import Membridge.Creators

/-!
One name, one segment after another. `remove` takes a name from its object; the
next `create` makes another object under it. Handles of the old one keep it to
themselves.
-/
namespace Membridge.Incarnations
open Program Posix Python Mixed Segment Platform Creators

/-- No name leads to the object. -/
def Removed (os : Os) (id : Nat) : Prop := ∀ name, os.names name ≠ some id

/-- No object has two names. -/
def Distinct (os : Os) : Prop :=
  ∀ name other id, os.names name = some id → os.names other = some id → name = other

/-- A handle's object goes by the handle's name, if by any. -/
structure Lineage (st : Holders) : Prop where
  distinct : Distinct st.os
  held : Held st
  bound : ∀ h ∈ st.handles, ∀ name, st.os.names name = some h.handle.fd → name = h.handle.name
  shared : ∀ h ∈ st.handles, ∀ other ∈ st.handles, h.handle.fd = other.handle.fd →
    h.handle.name = other.handle.name

section Systems
variable {os opened : Os} {name : String} {fd : Nat}

/-- A new name is that of the object opened; all others are as they were. -/
theorem opens_names (opens : Opens os name fd opened) (n : String) :
    opened.names n = some fd ∧ n = name ∨ opened.names n = os.names n ∧ n ≠ name := by
  by_cases same : n = name
  · subst same
    exact .inl ⟨opens_bound opens, rfl⟩
  · refine .inr ⟨?_, same⟩
    rcases opens with ⟨_, rfl⟩ | ⟨_, _, rfl⟩
    · rfl
    · exact create_names_other same

/-- No object that was there takes a name that it did not have. -/
theorem opens_old (opens : Opens os name fd opened) {id : Nat}
    (made : id < os.objects.length) {n : String}
    (found : opened.names n = some id) : os.names n = some id := by
  rcases opens_names opens n with ⟨mine, rfl⟩ | ⟨same, _⟩
  · rw [mine] at found
    exact opens_shared opens made (Option.some.inj found).symm
  · exact same ▸ found

theorem opens_distinct (distinct : Distinct os) (opens : Opens os name fd opened) :
    Distinct opened := by
  intro n other id first second
  by_cases made : id < os.objects.length
  · exact distinct n other id (opens_old opens made first) (opens_old opens made second)
  -- a new object has the new name only
  · have only : ∀ {n}, opened.names n = some id → n = name := by
      intro n found
      rcases opens_names opens n with ⟨_, same⟩ | ⟨same, _⟩
      · exact same
      · exact absurd (os.made n id (same ▸ found)) made
    rw [only first, only second]

theorem unlink_old {n : String} {id : Nat} (found : (os.unlink name).names n = some id) :
    os.names n = some id := by
  by_cases same : n = name
  · subst same
    rw [unlink_names] at found
    cases found
  · rw [unlink_names_other same] at found
    exact found

theorem opens_content (opens : Opens os name fd opened) (id : Nat) :
    opened.content id = os.content id := by
  rcases opens with ⟨_, rfl⟩ | ⟨_, _, rfl⟩
  · rfl
  · exact create_content name id

/-- What is opened by a name is not an object that has none. -/
theorem opens_other (opens : Opens os name fd opened) {id : Nat} (made : id < os.objects.length)
    (removed : Removed os id) : id ≠ fd :=
  fun same => removed name (opens_shared opens made same)

end Systems

section Steps
variable {st after : Holders} {c : HandleCall}

/-- What a call does to names and handles: the names of old objects are fewer, and a new handle
has the object of its own name. -/
structure Moves (st after : Holders) : Prop where
  distinct : Distinct after.os
  grown : st.os.objects.length ≤ after.os.objects.length
  old : ∀ id, id < st.os.objects.length → ∀ name, after.os.names name = some id →
    st.os.names name = some id
  handles : ∀ h ∈ after.handles, h ∈ st.handles ∨ after.os.names h.handle.name = some h.handle.fd
  removed : ∀ id, id < st.os.objects.length → Removed st.os id →
    after.os.content id = st.os.content id ∧ ∀ h ∈ after.handles, h.handle.fd = id → h ∈ st.handles

/-- A call that makes no handle of another object and gives no name. -/
theorem moves_quiet {os : Os} {handles : List SharedMemory} (distinct : Distinct os)
    (grown : st.os.objects.length ≤ os.objects.length)
    (old : ∀ id, id < st.os.objects.length → ∀ name, os.names name = some id →
      st.os.names name = some id)
    (fewer : ∀ h ∈ handles, h ∈ st.handles)
    (content : ∀ id, os.content id = st.os.content id) : Moves st ⟨os, handles⟩ where
  distinct := distinct
  grown := grown
  old := old
  handles h there := .inl (fewer h there)
  removed id _ _ := ⟨content id, fun h there _ => fewer h there⟩

/-- A handle is made of the object that its name leads to. -/
theorem moves_made {os opened : Os} {name : String} {fd size : Nat}
    {isCreator : Bool} (distinct : Distinct os)
    (opens : Opens st.os name fd opened) (names : os.names = opened.names)
    (size_ : os.objects.length = opened.objects.length)
    (content : ∀ id, id ≠ fd → os.content id = opened.content id) :
    Moves st ⟨os, st.handles ++ [⟨⟨fd, size, name⟩, isCreator⟩]⟩ := by
  refine ⟨distinct, ?_, ?_, ?_, ?_⟩
  · exact Nat.le_trans (opens_grow opens) (Nat.le_of_eq size_.symm)
  · intro id made n found
    exact opens_old opens made (names ▸ found)
  · intro h there
    rcases List.mem_append.mp there with old | new
    · exact .inl old
    · cases List.mem_singleton.mp new
      right
      change os.names name = some fd
      rw [names]
      exact opens_bound opens
  · intro id made removed
    have other := opens_other opens made removed
    refine ⟨(content id other).trans (opens_content opens id), ?_⟩
    intro h there same
    rcases List.mem_append.mp there with old | new
    · exact old
    · cases List.mem_singleton.mp new
      exact absurd same.symm other

theorem makes_moves (distinct : Distinct st.os) (made : Makes st c after) : Moves st after := by
  cases made with
  | @create name size r os usize ran =>
      rcases (runs_create usize).mp ran with
        ⟨_, _, rfl, rfl⟩ | ⟨_, ⟨_, rfl, rfl⟩ | ⟨fd, opened, opens, rest⟩⟩
      · exact moves_quiet distinct (Nat.le_refl _) (fun _ _ _ found => found)
          (fun _ there => there) fun _ => rfl
      · exact moves_quiet distinct (Nat.le_refl _) (fun _ _ _ found => found)
          (fun _ there => there) fun _ => rfl
      · have grown := opens_distinct distinct opens
        rcases rest with ⟨_, rfl, rfl⟩ | ⟨_, rfl, rfl⟩
        -- made and unlinked again: no handle, and no name for what was there
        · refine moves_quiet ?_ ?_ ?_ (fun _ there => there) ?_
          · intro n other id first second
            exact grown n other id (unlink_old first) (unlink_old second)
          · rw [unlink_objects]
            exact opens_grow opens
          · intro id made n found
            exact opens_old opens made (unlink_old found)
          · intro id
            rw [unlink_content, opens_content opens]
        · exact moves_made grown opens rfl (resize_made fd size) fun id other =>
            resize_content_other other size
  | open_ ran =>
      obtain ⟨rfl, ⟨_, rfl⟩ | ⟨fd, bound, rfl⟩⟩ := runs_open ran
      · exact moves_quiet distinct (Nat.le_refl _) (fun _ _ _ found => found)
          (fun _ there => there) fun _ => rfl
      · exact moves_made distinct (.inl ⟨bound, rfl⟩) rfl rfl fun _ _ => rfl
  | remove ran =>
      rcases runs_remove ran with rfl | rfl
      · exact moves_quiet distinct (Nat.le_refl _) (fun _ _ _ found => found)
          (fun _ there => there) fun _ => rfl
      · refine moves_quiet ?_ (Nat.le_refl _) (fun _ _ _ found => unlink_old found)
          (fun _ there => there) fun _ => rfl
        intro n other id first second
        exact distinct n other id (unlink_old first) (unlink_old second)
  | drop index =>
      exact moves_quiet distinct (Nat.le_refl _) (fun _ _ _ found => found)
        (fun _ there => List.mem_of_mem_eraseIdx there)
        fun _ => rfl

theorem makes_lineage (lineage : Lineage st) (made : Makes st c after) : Lineage after := by
  have moves := makes_moves lineage.distinct made
  have bound : ∀ h ∈ after.handles, ∀ name, after.os.names name = some h.handle.fd →
      name = h.handle.name := by
    intro h there name found
    rcases moves.handles h there with old | own
    · exact lineage.bound h old name (moves.old _ (lineage.held h old) name found)
    · exact moves.distinct name h.handle.name h.handle.fd found own
  refine ⟨moves.distinct, makes_held lineage.held made, bound, ?_⟩
  intro h there other also same
  rcases moves.handles h there with old | own
  · rcases moves.handles other also with old' | own'
    · exact lineage.shared h old other old' same
    · rw [← same] at own'
      exact (bound h there other.handle.name own').symm
  · rw [same] at own
    exact bound other also h.handle.name own

end Steps

section Runs
variable {st : Holders}

theorem run_lineage {start last : Holders} (lineage : Lineage start)
    (run : Sequence Makes (fun _ _ => True) start last) : Lineage last :=
  Sequence.invariant Lineage lineage (fun _ _ _ kept _ made => makes_lineage kept made) run

/-- What has lost its name stays without, keeps its bytes, and gets no more handles. -/
theorem run_removed {last : Holders} (lineage : Lineage st) {id : Nat}
    (made : id < st.os.objects.length)
    (removed : Removed st.os id) (run : Sequence Makes (fun _ _ => True) st last) :
    Removed last.os id ∧ last.os.content id = st.os.content id ∧
      ∀ h ∈ last.handles, h.handle.fd = id → h ∈ st.handles := by
  have all : Lineage last ∧ id < last.os.objects.length ∧ Removed last.os id ∧
      last.os.content id = st.os.content id ∧ ∀ h ∈ last.handles, h.handle.fd = id →
        h ∈ st.handles := by
    induction run with
    | start => exact ⟨lineage, made, removed, rfl, fun _ there _ => there⟩
    | snoc _ c _ step ih =>
        obtain ⟨kept, there, gone, same, own⟩ := ih
        have moves := makes_moves kept.distinct step
        obtain ⟨still, fewer⟩ := moves.removed id there gone
        refine ⟨makes_lineage kept step, Nat.lt_of_lt_of_le there moves.grown,
          ?_, still.trans same, ?_⟩
        · exact fun name found => gone name (moves.old id there name found)
        · exact fun h listed mine => own h (fewer h listed mine) mine
  exact ⟨all.2.2.1, all.2.2.2⟩

/-- Whatever the processes call, the handles of one object have one name, and opening that name
reaches the object exactly as long as it has not lost its name. From then on no call gives it a
name again, changes its bytes, or makes another handle of it: whoever holds it keeps it, and
what is made under the name later is another segment. -/
theorem incarnations (os : Os) (distinct : Distinct os) :
    ∀ st, Sequence Makes (fun _ _ => True) ⟨os, []⟩ st →
      (∀ h ∈ st.handles, ∀ other ∈ st.handles, h.handle.fd = other.handle.fd →
        h.handle.name = other.handle.name) ∧
      (∀ h ∈ st.handles, ∀ made after,
        Prog.Runs Does (SharedMemory.open_ h.handle.name).run st.os (.ok made) after →
          (made.handle.fd = h.handle.fd ↔ ¬ Removed st.os h.handle.fd)) ∧
      ∀ h ∈ st.handles, Removed st.os h.handle.fd →
        ∀ last, Sequence Makes (fun _ _ => True) st last →
          Removed last.os h.handle.fd ∧ last.os.content h.handle.fd = st.os.content h.handle.fd ∧
            ∀ other ∈ last.handles, other.handle.fd = h.handle.fd → other ∈ st.handles := by
  intro st run
  have lineage : Lineage st :=
    run_lineage ⟨distinct, by simp [Held], by simp, by simp⟩ run
  refine ⟨lineage.shared, ?_, ?_⟩
  · intro h there made after opened
    obtain ⟨_, ⟨_, same⟩ | ⟨fd, bound, same⟩⟩ := runs_open opened
    · cases same
    · cases same
      constructor
      · rintro rfl removed
        exact removed h.handle.name bound
      · intro named
        simp only [Removed, not_forall, not_not] at named
        obtain ⟨name, found⟩ := named
        rw [lineage.bound h there name found, bound] at found
        exact Option.some.inj found
  · exact fun h there removed last later => run_removed lineage (lineage.held h there) removed later

/-- The segment is removed and made again; the first handle keeps the first object. -/
theorem incarnations_again :
    Removed ((segment.unlink "/segment").create "/segment") 0 ∧
      ∀ other ∈ [maker, ⟨⟨1, 16, "/segment"⟩, true⟩], other.handle.fd = 0 → other ∈ [maker] := by
  have first : Makes ⟨Os.empty, []⟩ (.create "/segment" 8) ⟨segment, [maker]⟩ :=
    .create (r := .ok maker) (by decide) (Prog.solo_runs does_exec rfl)
  have removed : Makes ⟨segment, [maker]⟩ (.remove "/segment")
    ⟨segment.unlink "/segment", [maker]⟩ :=
    .remove (r := .ok ()) (Prog.solo_runs does_exec rfl)
  have again : Makes ⟨segment.unlink "/segment", [maker]⟩ (.create "/segment" 16)
      ⟨((segment.unlink "/segment").create "/segment").resize 1 16,
        [maker, ⟨⟨1, 16, "/segment"⟩, true⟩]⟩ :=
    .create (r := .ok ⟨⟨1, 16, "/segment"⟩, true⟩) (by decide) (Prog.solo_runs does_exec rfl)
  have unnamed : Removed (segment.unlink "/segment") 0 := by
    intro name found
    by_cases same : name = "/segment"
    · subst same
      rw [unlink_names] at found
      cases found
    · rw [unlink_names_other same] at found
      have old : Os.empty.names name = some 0 := (create_names_other same).symm.trans found
      cases old
  have nothing : Distinct Os.empty := by
    rintro _ _ _ ⟨⟩
  have kept := (incarnations Os.empty nothing _
    ((Sequence.start.snoc _ trivial first).snoc _ trivial removed)).2.2
    maker List.mem_cons_self unnamed _ (Sequence.start.snoc _ trivial again)
  exact ⟨kept.1, kept.2.2⟩

end Runs
end Membridge.Incarnations
