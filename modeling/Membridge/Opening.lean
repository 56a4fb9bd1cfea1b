import Membridge.Platform
import Membridge.RelyGuarantee

/-!
Opening a segment while it is being created. `create` is two calls, `shm_open` and
`ftruncate`; between them the object is there under its name, with length zero.
-/
namespace Membridge.Opening
open Program Interleaving RelyGuarantee Posix Python Mixed Segment Platform

inductive OpenCall where
  | create
  /-- `open`, then `map`, or `spsc` for a ring. -/
  | open_ (ring : Bool)

inductive Outcome where
  | created (r : PyResult SharedMemory)
  | opened (r : PyResult (SharedMemory × PyResult Mapped))

def mapping (ring : Bool) (handle : SharedMemory) : OsM Mapped :=
  if ring then SharedMemory.spsc handle else SharedMemory.map handle

def openCode (name : String) (size : Nat) : OpenCall → Prog Syscall Syscall.Res Outcome
  | .create => (SharedMemory.create name size).run.bind fun r => .ret (.created r)
  | .open_ ring => (SharedMemory.open_ name).run.bind fun
      | .error e => .ret (.opened (.error e))
      | .ok handle => (mapping ring handle).run.bind fun r => .ret (.opened (.ok (handle, r)))

/-- Any number of programs that create or open one name. -/
def openSystem (T : Type) (name : String) (size : Nat) :
    System T OpenCall Outcome Syscall Syscall.Res Os where
  code _ c := openCode name size c
  sem _ _ := Does
  allowed _ _ := True
  enabled _ _ _ _ := True

abbrev OpenEvent (T : Type) := Event T OpenCall Outcome Syscall Syscall.Res

abbrev OpenWorld (T : Type) := World T OpenCall Outcome Syscall Syscall.Res Os

/-- An open that fails as documented, or has the creator's size and does not panic. -/
def Good (size : Nat) : Outcome → Prop
  | .opened (.ok (handle, r)) => handle.size = size ∧ r ≠ .error PlatformHandle.unwrapNone
  | _ => True

section Code
variable (name : String) (size : Nat)

theorem create_code : openCode name size .create =
    match checkCreate name size with
    | .error e => .ret (.created (.error e))
    | .ok _ => .op (.shmOpen name true) fun
        | .error errno => .ret (.created (.error (.os errno)))
        | .ok fd => .op (.ftruncate fd (BitVec.ofNat 64 size).toInt) fun
            | .ok _ => .ret (.created (.ok ⟨⟨fd, size, name⟩, true⟩))
            | .error errno => .op (.shmUnlink name) fun _ =>
                .ret (.created (.error (.os errno))) := by
  rw [openCode, create_checks]
  cases checkCreate name size with
  | error e => rfl
  | ok _ =>
      change Prog.op _ _ = Prog.op _ _
      congr 1
      funext opened
      cases opened with
      | error errno => rfl
      | ok fd =>
          change Prog.op _ _ = Prog.op _ _
          congr 1
          funext truncated
          cases truncated <;> rfl

theorem open_code (ring : Bool) : openCode name size (.open_ ring) =
    match validateName name with
    | .error e => .ret (.opened (.error e))
    | .ok _ => .op (.shmOpen name false) fun
        | .error errno => .ret (.opened (.error (.os errno)))
        | .ok fd => .op (.fstat fd) fun
            | .error errno => .ret (.opened (.error (.os errno)))
            | .ok n => (mapping ring ⟨⟨fd, n, name⟩, false⟩).run.bind fun r =>
                .ret (.opened (.ok (⟨⟨fd, n, name⟩, false⟩, r))) := by
  rw [openCode, SharedMemory.open_]
  cases validateName name with
  | error e => rfl
  | ok _ =>
      change Prog.op _ _ = Prog.op _ _
      congr 1
      funext opened
      cases opened with
      | error errno => rfl
      | ok fd =>
          change Prog.op _ _ = Prog.op _ _
          congr 1
          funext stat
          cases stat <;> rfl

/-- What the constructor of either object answers. -/
def fits (ring : Bool) (handle : SharedMemory) : PyResult Unit :=
  if ring then ringFits handle.size handle.isCreator else viewFits handle.size

def mapped (ring : Bool) (handle : SharedMemory) (start : Nat) : Mapped :=
  if ring then .ring start handle.size else .view start handle.size

theorem mapping_steps (ring : Bool) (handle : SharedMemory) : mapping ring handle = (do
    let start ← PlatformHandle.map handle.handle
    fits ring handle
    return mapped ring handle start) := by
  cases ring <;> rfl

theorem mapping_code (ring : Bool) (handle : SharedMemory) : (mapping ring handle).run =
    if handle.handle.size = 0 then .ret (.error PlatformHandle.unwrapNone)
    else .op (.mmap handle.handle.fd handle.handle.size) fun
      | .error errno => .ret (.error (.os errno))
      | .ok start => .ret ((fits ring handle).map fun _ => mapped ring handle start) := by
  rw [mapping_steps, PlatformHandle.map]
  by_cases zero : handle.handle.size = 0
  · rw [if_pos zero, if_pos zero]
    rfl
  · rw [if_neg zero, if_neg zero]
    change Prog.op _ _ = Prog.op _ _
    congr 1
    funext answer
    cases answer with
    | error errno => rfl
    | ok start => cases fits ring handle <;> rfl

/-- Only a size of zero panics. -/
theorem fits_calm (ring : Bool) (handle : SharedMemory) :
    fits ring handle ≠ .error PlatformHandle.unwrapNone := by
  unfold fits ringFits viewFits
  split
  · split
    · exact nofun
    · split
      · split <;> exact nofun
      · exact nofun
  · split <;> exact nofun

end Code

section Judging
variable {T : Type} {log : List (OpenEvent T)} {t : T} {id fd : Nat}

/-- A `create` gave the object its size. -/
def Truncated (log : List (OpenEvent T)) (fd : Nat) : Prop :=
  ∃ t id c length, .access t id c (.ftruncate fd length) (.ok ()) ∈ log

/-- If this is an `fstat` of the call `id`, it is one of an object that has its size. -/
def StatInTime (t : T) (id : Nat) (before : List (OpenEvent T)) : OpenEvent T → Prop
  | .access u i _ (.fstat fd) (.ok _) => u = t → i = id → Truncated before fd
  | _ => True

def InTime (t : T) (id : Nat) (log : List (OpenEvent T)) : Prop := Recorded (StatInTime t id) log

theorem truncated_snoc {e : OpenEvent T} : Truncated (log ++ [e]) fd ↔
    Truncated log fd ∨ ∃ t id c length, e = .access t id c (.ftruncate fd length) (.ok ()) := by
  constructor
  · rintro ⟨t, id, c, length, member⟩
    rcases List.mem_append.mp member with old | new
    · exact .inl ⟨t, id, c, length, old⟩
    · exact .inr ⟨t, id, c, length, (List.mem_singleton.mp new).symm⟩
  · rintro (⟨t, id, c, length, old⟩ | ⟨t, id, c, length, rfl⟩)
    · exact ⟨t, id, c, length, List.mem_append_left _ old⟩
    · exact ⟨t, id, c, length, List.mem_append_right _ List.mem_cons_self⟩

/-- What others do is not judged. -/
theorem inTime_others {w w' : OpenWorld T} (far : Others t w w') :
    InTime t id w'.log ↔ InTime t id w.log := by
  obtain ⟨more, grown, apart⟩ := far
  rw [grown]
  clear grown
  induction more using List.reverseRecOn with
  | nil => rw [List.append_nil]
  | append_singleton more e ih =>
      have other : e.thread ≠ t := apart e (List.mem_append_right _ List.mem_cons_self)
      have free : ∀ before, StatInTime t id before e := by
        intro before
        unfold StatInTime
        split
        · exact fun same => absurd same other
        · trivial
      rw [← List.append_assoc, InTime, recorded_snoc, and_iff_left (free _)]
      exact ih fun x member => apart x (List.mem_append_left _ member)

/-- Before its first access a call is in time: its number is new. -/
theorem inTime_invoke {c : OpenCall} (begun : Recorded Begun log) :
    InTime t log.length (log ++ [.invoke t log.length c]) := by
  rw [InTime, recorded_snoc]
  refine ⟨?_, trivial⟩
  intro before e after cut
  unfold StatInTime
  split
  · next u i c' fd n =>
      rintro rfl rfl
      have member : .access u log.length c' (.fstat fd) (.ok n) ∈
          before ++ .access u log.length c' (.fstat fd) (.ok n) :: after :=
        List.mem_append_right _ List.mem_cons_self
      rw [← cut] at member
      exact absurd (begun_early begun member) (Nat.lt_irrefl _)
  · trivial

end Judging

section Tracking
variable {T : Type} (name : String) (size old : Nat)

/-- The objects of one name since there were `old` objects: each has length zero until a
`create` has given it its size, and each call that returned was good exactly if its `fstat`
came after that. -/
structure Tracked (w : OpenWorld T) : Prop where
  fresh : ∀ id, w.mem.names name = some id → old ≤ id
  grown : old ≤ w.mem.objects.length
  sized : ∀ fd, old ≤ fd → (Truncated w.log fd → w.mem.size fd = size) ∧
    (¬ Truncated w.log fd → w.mem.size fd = 0)
  judged : Recorded (fun before e => match e with
    | .finish t id _ value => Good size value ↔ InTime t id before
    | _ => True) w.log

/-- Every `ftruncate` is to the creator's size. -/
def Asked : Syscall → Prop
  | .ftruncate _ length => length = (BitVec.ofNat 64 size).toInt
  | _ => True

variable {name size old} {w : OpenWorld T} {t : T} {id : Nat} {c : OpenCall}

/-- An access that leaves all sizes and truncates nothing. -/
theorem tracked_quiet (tracked : Tracked name size old w) {o : Syscall} {r : o.Res} {mem : Os}
    (fresh : ∀ id, mem.names name = some id → old ≤ id) (grown : old ≤ mem.objects.length)
    (sizes : ∀ fd, mem.size fd = w.mem.size fd)
    (quiet : ∀ fd, ¬ ∃ u i c' length, (Event.access t id c o r : OpenEvent T) =
      .access u i c' (.ftruncate fd length) (.ok ())) :
    Tracked name size old ⟨mem, w.log ++ [.access t id c o r]⟩ := by
  refine ⟨fresh, grown, ?_, recorded_snoc.mpr ⟨tracked.judged, trivial⟩⟩
  intro fd made
  rw [truncated_snoc, or_iff_left (quiet fd), sizes]
  exact tracked.sized fd made

theorem quiet_access {o : Syscall} {r : o.Res} (other : ∀ fd length, o ≠ .ftruncate fd length)
    (fd : Nat) :
    ¬ ∃ u i c' length, (Event.access t id c o r : OpenEvent T) =
      .access u i c' (.ftruncate fd length) (.ok ()) := by
  rintro ⟨u, i, c', length, same⟩
  injection same with _ _ _ isTruncate
  exact other fd length isTruncate

/-- A new object takes the next number. -/
theorem create_fresh (tracked : Tracked name size old w) (n : String) :
    ∀ id, (w.mem.create n).names name = some id → old ≤ id := by
  intro id found
  by_cases same : name = n
  · subst same
    rw [create_names] at found
    cases found
    exact tracked.grown
  · rw [create_names_other same] at found
    exact tracked.fresh id found

theorem unlink_fresh (tracked : Tracked name size old w) (n : String) :
    ∀ id, (w.mem.unlink n).names name = some id → old ≤ id := by
  intro id found
  by_cases same : name = n
  · subst same
    rw [unlink_names] at found
    cases found
  · rw [unlink_names_other same] at found
    exact tracked.fresh id found

/-- Only here does an object get its size, and from here on it counts as truncated. -/
theorem tracked_truncated (tracked : Tracked name size old w) {fd : Nat} {length : Int}
    (there : fd < w.mem.objects.length) :
    Tracked name size old
      ⟨w.mem.resize fd size, w.log ++ [.access t id c (.ftruncate fd length) (.ok ())]⟩ := by
  refine ⟨tracked.fresh, by rw [resize_made]; exact tracked.grown, ?_,
    recorded_snoc.mpr ⟨tracked.judged, trivial⟩⟩
  intro other made
  by_cases same : other = fd
  · subst same
    have now : Truncated (w.log ++ [.access t id c (.ftruncate other length) (.ok ())]) other :=
      truncated_snoc.mpr (.inr ⟨t, id, c, _, rfl⟩)
    exact ⟨fun _ => resize_size there size, fun never => absurd now never⟩
  · rw [truncated_snoc, resize_size_other same, or_iff_left]
    · exact tracked.sized other made
    · rintro ⟨u, i, c', length, same'⟩
      cases same'
      exact same rfl

theorem tracked_access (usize : size < 2 ^ 64) (tracked : Tracked name size old w) {o : Syscall}
    {r : o.Res} {mem : Os} (asked : Asked size o) (does : Does w.mem o r mem) :
    Tracked name size old ⟨mem, w.log ++ [.access t id c o r]⟩ := by
  cases o with
  | shmOpen n creat =>
      have quiet : ∀ fd, ¬ ∃ u i c' length,
        (Event.access t id c (.shmOpen n creat) r : OpenEvent T) =
          .access u i c' (.ftruncate fd length) (.ok ()) := quiet_access (by rintro _ _ ⟨⟩)
      rcases does_shmOpen.mp does with ⟨_, _, rfl⟩ | ⟨_, _, _, rfl⟩ | ⟨_, _, _, rfl⟩
      · exact tracked_quiet tracked tracked.fresh tracked.grown (fun _ => rfl) quiet
      · exact tracked_quiet tracked tracked.fresh tracked.grown (fun _ => rfl) quiet
      · have more : old ≤ (w.mem.create n).objects.length :=
          Nat.le_trans tracked.grown (by simp [Os.create])
        exact tracked_quiet tracked (create_fresh tracked n) more (create_size n) quiet
  | ftruncate fd length =>
      -- the one call that sizes an object asks for the creator's size
      cases asked
      rcases does_ftruncate.mp does with ⟨errno, rfl, rfl⟩ | ⟨⟨small, there⟩, rfl, rfl⟩
      · refine tracked_quiet tracked tracked.fresh tracked.grown (fun _ => rfl) ?_
        rintro fd ⟨u, i, c', length, same⟩
        cases same
      · rw [cast_same ((cast_nonneg usize).mp small)]
        exact tracked_truncated tracked there
  | fstat fd =>
      obtain ⟨rfl, -⟩ := does_fstat.mp does
      exact tracked_quiet tracked tracked.fresh tracked.grown (fun _ => rfl)
        (quiet_access (by rintro _ _ ⟨⟩))
  | shmUnlink n =>
      rcases does_shmUnlink.mp does with ⟨_, _, rfl⟩ | ⟨_, _, rfl⟩
      · exact tracked_quiet tracked tracked.fresh tracked.grown (fun _ => rfl)
          (quiet_access (by rintro _ _ ⟨⟩))
      · exact tracked_quiet tracked (unlink_fresh tracked n) tracked.grown (fun _ => rfl)
          (quiet_access (by rintro _ _ ⟨⟩))
  | mmap fd length =>
      rcases does_mmap.mp does with ⟨_, _, rfl⟩ | ⟨_, _, _, _, _, rfl⟩
      · exact tracked_quiet tracked tracked.fresh tracked.grown (fun _ => rfl)
          (quiet_access (by rintro _ _ ⟨⟩))
      · exact tracked_quiet tracked tracked.fresh tracked.grown (fun _ => rfl)
          (quiet_access (by rintro _ _ ⟨⟩))
  | munmap start length =>
      obtain ⟨_, rfl⟩ := does_munmap.mp does
      exact tracked_quiet tracked tracked.fresh tracked.grown (fun _ => rfl)
        (quiet_access (by rintro _ _ ⟨⟩))

end Tracking

section Calls
variable {T : Type} {name : String} {size old : Nat} {w now : OpenWorld T} {t : T} {id : Nat}
  {c : OpenCall} {b : Prop}

def openProtocol (T : Type) (name : String) (size old : Nat) :
    Protocol T OpenCall Outcome Syscall Syscall.Res Os where
  Known w := Recorded Begun w.log
  Inv := Tracked name size old
  Rely _ _ _ := True
  Idle _ _ := True
  rely_refl _ _ := trivial
  rely_trans _ _ _ _ _ _ := trivial
  idle_stable _ _ _ _ _ _ _ _ _ := trivial

theorem commits (tracked : Tracked name size old now) :
    (openProtocol T name size old).Commit t w now :=
  fun _ => ⟨tracked, fun _ _ => trivial⟩

theorem finishes {value : Outcome} (tracked : Tracked name size old now)
    (judged : Good size value ↔ InTime t id now.log) :
    (openProtocol T name size old).Finish t id c value w now := by
  refine ⟨commits ?_, fun _ => trivial⟩
  refine ⟨tracked.fresh, tracked.grown, ?_, recorded_snoc.mpr ⟨tracked.judged, judged⟩⟩
  intro fd made
  rw [World.push_log, truncated_snoc, or_iff_left]
  · exact tracked.sized fd made
  · rintro ⟨u, i, c', length, same⟩
    cases same

/-- An access of a call that is no `fstat`: it is judged as before. -/
theorem wp_asked {α : Type} (usize : size < 2 ^ 64) {o : Syscall}
    {next : o.Res → Prog Syscall Syscall.Res α} {post : α → OpenWorld T → OpenWorld T → Prop}
    (asked : Asked size o)
    (other : ∀ fd, o ≠ .fstat fd) (tracked : Tracked name size old now)
    (judge : InTime t id now.log ↔ b)
    (later : ∀ (w' now' : OpenWorld T) (r : o.Res), Tracked name size old w' →
      Does w'.mem o r now'.mem →
      Tracked name size old now' → (InTime t id now'.log ↔ b) →
      (openProtocol T name size old).wp (openSystem T name size) t id c (next r) post w' now') :
    (openProtocol T name size old).wp (openSystem T name size) t id c (.op o next) post w now := by
  refine Protocol.wp_op (commits tracked) ?_
  intro w' env _ r mem does
  refine later w' _ r env.inv does (tracked_access usize env.inv asked does) ?_
  rw [InTime, recorded_snoc, ← judge, ← inTime_others env.others, and_iff_left]
  · rfl
  · unfold StatInTime
    split
    · next same =>
        injection same with _ _ _ isStat
        exact absurd isStat (other _)
    · trivial

/-- The `fstat` itself: it is in time exactly if it answers the creator's size. -/
theorem wp_fstat (usize : size < 2 ^ 64) (sized : 0 < size) {fd : Nat}
    {next : (Syscall.fstat fd).Res → Prog Syscall Syscall.Res Outcome}
    {post : Outcome → OpenWorld T → OpenWorld T → Prop} (made : old ≤ fd)
    (tracked : Tracked name size old now) (judge : InTime t id now.log)
    (refused : ∀ (w' now' : OpenWorld T) errno, Tracked name size old now' → InTime t id now'.log →
      (openProtocol T name size old).wp (openSystem T name size) t id c
        (next (.error errno)) post w' now')
    (answered : ∀ (w' now' : OpenWorld T) n, Tracked name size old now' →
      (InTime t id now'.log ↔ n = size) →
      (openProtocol T name size old).wp (openSystem T name size) t id c
        (next (.ok n)) post w' now') :
    (openProtocol T name size old).wp (openSystem T name size) t id c
      (.op (.fstat fd) next) post w now := by
  refine Protocol.wp_op (commits tracked) ?_
  intro w' env _ r mem does
  have before : InTime t id w'.log := (inTime_others env.others).mpr judge
  have after : Tracked name size old ⟨mem, w'.log ++ [.access t id c (.fstat fd) r]⟩ :=
    tracked_access usize env.inv trivial does
  obtain ⟨rfl, ⟨errno, rfl⟩ | rfl⟩ := does_fstat.mp does
  · exact refused _ _ errno after (recorded_snoc.mpr ⟨before, trivial⟩)
  · refine answered _ _ _ after ?_
    rw [InTime, recorded_snoc]
    -- a size of zero and the creator's tell the two instants apart
    have sized := env.inv.sized fd made
    constructor
    · rintro ⟨_, intime⟩
      exact sized.1 (intime rfl rfl)
    · intro same
      refine ⟨before, fun _ _ => ?_⟩
      by_contra never
      rw [sized.2 never] at same
      omega

theorem create_finishes (usize : size < 2 ^ 64) (tracked : Tracked name size old now)
    (judge : InTime t id now.log) :
    (openProtocol T name size old).wp (openSystem T name size) t id .create
      (openCode name size .create)
      ((openProtocol T name size old).Finish t id .create) w now := by
  -- nothing a `create` returns is judged
  have ends : ∀ {r : PyResult SharedMemory} {w now : OpenWorld T}, Tracked name size old now →
      (InTime t id now.log ↔ True) →
      (openProtocol T name size old).Finish t id .create (.created r) w now :=
    fun tracked judge => finishes tracked judge.symm
  rw [create_code]
  split
  · exact ends tracked (iff_true_intro judge)
  · refine wp_asked usize trivial nofun tracked (iff_true_intro judge) ?_
    intro w' now' r _ _ tracked judge
    cases r with
    | error errno => exact ends tracked judge
    | ok fd =>
        refine wp_asked usize rfl nofun tracked judge ?_
        intro w' now' r _ _ tracked judge
        cases r with
        | ok _ => exact ends tracked judge
        | error errno =>
            refine wp_asked usize trivial nofun tracked judge ?_
            intro w' now' r _ _ tracked judge
            exact ends tracked judge

/-- What follows the `fstat` reaches the unwrap if the size was zero, and only then. -/
theorem mapping_finishes (usize : size < 2 ^ 64) (sized : 0 < size) (ring : Bool) (fd n : Nat)
    (tracked : Tracked name size old now) (judge : InTime t id now.log ↔ n = size) :
    (openProtocol T name size old).wp (openSystem T name size) t id (.open_ ring)
      ((mapping ring ⟨⟨fd, n, name⟩, false⟩).run.bind fun r =>
        .ret (.opened (.ok (⟨⟨fd, n, name⟩, false⟩, r))))
      ((openProtocol T name size old).Finish t id (.open_ ring)) w now := by
  have good : ∀ r : PyResult Mapped, r ≠ .error PlatformHandle.unwrapNone →
      (Good size (.opened (.ok (⟨⟨fd, n, name⟩, false⟩, r))) ↔ n = size) :=
    fun r calm => and_iff_left calm
  rw [Protocol.wp_bind, mapping_code]
  split
  · next zero =>
      refine finishes tracked ?_
      rw [judge]
      constructor
      · exact fun good => absurd rfl good.2
      · intro same
        -- the creator's size is not zero
        rw [← same] at sized
        exact absurd zero (Nat.ne_of_gt sized)
  · refine wp_asked usize trivial nofun tracked judge ?_
    intro w' now' r _ _ tracked judge
    cases r with
    | error errno =>
        refine finishes tracked ?_
        rw [judge]
        exact good _ nofun
    | ok start =>
        refine finishes tracked ?_
        rw [judge]
        apply good
        have calm := fits_calm ring ⟨⟨fd, n, name⟩, false⟩
        cases checked : fits ring ⟨⟨fd, n, name⟩, false⟩ with
        | ok _ => exact nofun
        | error e =>
            rw [checked] at calm
            simpa [Except.map] using calm

theorem open_finishes (usize : size < 2 ^ 64) (sized : 0 < size) (ring : Bool)
    (tracked : Tracked name size old now) (judge : InTime t id now.log) :
    (openProtocol T name size old).wp (openSystem T name size) t id (.open_ ring)
      (openCode name size (.open_ ring))
        ((openProtocol T name size old).Finish t id (.open_ ring)) w now := by
  have fails : ∀ {e : PyErr} {w now : OpenWorld T}, Tracked name size old now →
    InTime t id now.log →
      (openProtocol T name size old).Finish t id (.open_ ring) (.opened (.error e)) w now :=
    fun tracked judge => finishes tracked (iff_of_true trivial judge)
  rw [open_code]
  split
  · exact fails tracked judge
  · refine wp_asked usize trivial nofun tracked (iff_true_intro judge) ?_
    intro w' now' r before does tracked judge
    cases r with
    | error errno => exact fails tracked (of_iff_true judge)
    | ok fd =>
        -- an object that this name leads to now is one of the new ones
        have made : old ≤ fd := by
          rcases does_shmOpen.mp does with ⟨_, same, _⟩ | ⟨_, bound, same, _⟩ | ⟨_, impossible, _⟩
          · cases same
          · cases same
            exact before.fresh fd bound
          · cases impossible
        refine wp_fstat usize sized made tracked (of_iff_true judge) ?_ ?_
        · intro w' now' errno tracked judge
          exact fails tracked judge
        · intro w' now' n tracked judge
          exact mapping_finishes usize sized ring fd n tracked judge

end Calls

section Runs
variable {T : Type} [DecidableEq T] {name : String} {size : Nat} {os : Os}

theorem open_sound (sized : 0 < size) (usize : size < 2 ^ 64) (unbound : os.names name = none) :
    (openProtocol T name size os.objects.length).Sound (openSystem T name size) os where
  known _ reach := reach.begun.1
  init := by
    refine ⟨?_, Nat.le_refl _, ?_, recorded_nil⟩
    · intro id found
      rw [unbound] at found
      cases found
    · intro fd made
      constructor
      · rintro ⟨_, _, _, _, never⟩
        cases never
      · intro _
        rw [Os.size, content_unmade made, List.length_nil]
  idle _ := trivial
  call t c w _ tracked begun _ := by
    have invoked : Tracked name size os.objects.length (w.push (.invoke t w.log.length c)) := by
      refine ⟨tracked.fresh, tracked.grown, ?_, recorded_snoc.mpr ⟨tracked.judged, trivial⟩⟩
      intro fd made
      rw [World.push_log, truncated_snoc, or_iff_left]
      · exact tracked.sized fd made
      · rintro ⟨u, i, c', length, same⟩
        cases same
    have fresh : InTime t w.log.length (w.push (.invoke t w.log.length c)).log :=
      inTime_invoke begun
    cases c with
    | create => exact create_finishes usize invoked fresh
    | open_ ring => exact open_finishes usize sized ring invoked fresh

/-- Whatever the steps of creators and openers of a free name come between each other: a call
that returned did so as it should exactly if its `fstat` found the object truncated. -/
theorem opens_judged (name : String) (size : Nat) (sized : 0 < size)
    (usize : size < 2 ^ 64) (os : Os)
    (unbound : os.names name = none) (cfg : Config T OpenCall Outcome Syscall Syscall.Res Os)
    (reach : Reachable (openSystem T name size) os cfg) (before after : List (OpenEvent T)) (t : T)
    (id : Nat) (c : OpenCall) (value : Outcome)
    (returned : cfg.world.log = before ++ .finish t id c value :: after) :
    Good size value ↔ InTime t id before :=
  ((open_sound sized usize unbound).inv reach).judged before _ after returned

omit [DecidableEq T] in
theorem open_faithful (t : T) (c : OpenCall) (o : Syscall) (os : Os) :
    (openSystem T name size).sem t c os o (Os.exec o os).1 (Os.exec o os).2 := does_exec os o

instance (t : T) (c : OpenCall) : Decidable ((openSystem T name size).allowed t c) :=
  inferInstanceAs (Decidable True)

instance (w : OpenWorld T) (t : T) (c : OpenCall) (o : Syscall) :
    Decidable ((openSystem T name size).enabled w t c o) :=
  inferInstanceAs (Decidable True)

/-- A segment of eight bytes is created, then opened and mapped. -/
def openLate : List (Interleaving.Choice (Fin 2) OpenCall) :=
  [[.call thread0 .create], turns thread0 2, [.call thread1 (.open_ false)],
    turns thread1 3].flatten

/-- It is opened between the two steps of the creator. -/
def openEarly : List (Interleaving.Choice (Fin 2) OpenCall) :=
  [[.call thread0 .create], turns thread0 1, [.call thread1 (.open_ false)],
    turns thread1 2].flatten

def zeroHandle : SharedMemory := ⟨⟨0, 0, "/segment"⟩, false⟩

theorem opens_judged_both :
    (∃ cfg before, Reachable (openSystem (Fin 2) "/segment" 8) Os.empty cfg ∧
      cfg.world.log = before ++ [.finish 1 4 (.open_ false)
        (.opened (.ok (⟨⟨0, 8, "/segment"⟩, false⟩, .ok (.view 1 8))))] ∧ InTime 1 4 before) ∧
    ∃ cfg before, Reachable (openSystem (Fin 2) "/segment" 8) Os.empty cfg ∧
      cfg.world.log = before ++ [.finish 1 2 (.open_ false)
        (.opened (.ok (zeroHandle, .error PlatformHandle.unwrapNone)))] ∧ ¬ InTime 1 2 before := by
  constructor
  · have ran : schedule (openSystem (Fin 2) "/segment" 8) (fun _ _ => Os.exec) openLate
        (.initial Os.empty) = some _ := rfl
    have reach := schedule_steps open_faithful ran
    have judged := opens_judged "/segment" 8 (by decide) (by decide) Os.empty rfl _ reach _ [] 1 4
      (.open_ false) (.opened (.ok (⟨⟨0, 8, "/segment"⟩, false⟩, .ok (.view 1 8)))) rfl
    exact ⟨_, _, reach, rfl, judged.mp ⟨rfl, nofun⟩⟩
  · have ran : schedule (openSystem (Fin 2) "/segment" 8) (fun _ _ => Os.exec) openEarly
        (.initial Os.empty) = some _ := rfl
    have reach := schedule_steps open_faithful ran
    have judged := opens_judged "/segment" 8 (by decide) (by decide) Os.empty rfl _ reach _ [] 1 2
      (.open_ false) (.opened (.ok (zeroHandle, .error PlatformHandle.unwrapNone))) rfl
    exact ⟨_, _, reach, rfl, fun intime => absurd rfl (judged.mpr intime).2⟩

/-- An opener gets a handle of size zero, and its `map` panics. -/
theorem open_finds_nothing :
    ¬ ∀ name size, 0 < size → size < 2 ^ 64 → ∀ os, os.names name = none →
      ∀ cfg : Config (Fin 2) OpenCall Outcome Syscall Syscall.Res Os,
        Reachable (openSystem (Fin 2) name size) os cfg →
        ∀ t id c value, .finish t id c value ∈ cfg.world.log → Good size value := by
  intro every
  have ran : schedule (openSystem (Fin 2) "/segment" 8) (fun _ _ => Os.exec) openEarly
      (.initial Os.empty) = some _ := rfl
  have good := every "/segment" 8 (by decide) (by decide) Os.empty rfl _
    (schedule_steps open_faithful ran) 1 2 (.open_ false)
    (.opened (.ok (zeroHandle, .error PlatformHandle.unwrapNone))) (List.mem_of_getLast? rfl)
  exact good.2 rfl

end Runs
end Membridge.Opening
