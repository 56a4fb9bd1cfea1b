import Membridge.HappensBefore
import Membridge.Snapshot

/-!
The orderings of `src/rwlock.rs` are enough: the bytes behind the lock are accessed
plainly, and whoever is inside sees what those before it did there. A reader lets
go with `fetch_sub`, which keeps a release that a writer behind it acquires.
-/
namespace Membridge.LockRaces
open Program Interleaving RelyGuarantee HappensBefore Python ByteOrder Arithmetic Occupancy Segment
open RwLock View ViewRuns Exclusion Snapshot

inductive Cell where
  | lock
  | byte (offset : Nat)
  | cursor (view : Nat)
  deriving DecidableEq

/-- An exchange is `AcqRel` if it takes place and `Relaxed` if not; cursors are `Relaxed`. -/
def segTouch : (o : SegOp) → o.Res → Cell × Mode
  | .loadState, _ => (.lock, .load true)
  | .compareExchange _ _, exchanged => (.lock, if exchanged then .update true true else .load false)
  | .fetchSub _, _ => (.lock, .update false true)
  | .storeState _, _ => (.lock, .store true)
  | .readByte offset, _ => (.byte offset, .read)
  | .writeByte offset _, _ => (.byte offset, .write)
  | .loadCursor view, _ => (.cursor view, .load false)
  | .storeCursor view _, _ => (.cursor view, .store false)
  | .fetchAddCursor view _, _ => (.cursor view, .update false false)

variable {T Call Ret : Type} [DecidableEq T]

abbrev SegGoes (log : List (SegEvent T Call Ret)) (i : Nat) (t : T) (l : Cell) (m : Mode) : Prop :=
  Goes (fun _ => segTouch) log i t l m

section Log
variable {log : List (SegEvent T Call Ret)} {i j : Nat} {t u : T} {m : Mode} {p : Phase}

omit [DecidableEq T] in
theorem goes_access {id : Nat} {c : Call} {o : SegOp} {r : o.Res}
    (found : log[i]? = some (.access t id c o r)) :
    SegGoes log i t (segTouch o r).1 (segTouch o r).2 := ⟨_, found, rfl, rfl⟩

omit [DecidableEq T] in
theorem goes_event {l : Cell} (goes : SegGoes log i t l m) : ∃ id c o r,
    log[i]? = some (.access t id c o r) ∧ segTouch o r = (l, m) := by
  obtain ⟨e, found, rfl, aim⟩ := goes
  cases e with
  | access t id c o r =>
      simp only [touched, Option.some.injEq] at aim
      exact ⟨id, c, o, r, found, aim⟩
  | _ => cases aim

omit [DecidableEq T] in
/-- Only the bytes are accessed plainly. -/
theorem plain_byte {l : Cell} (goes : SegGoes log i t l m) (plain : m.plain = true) :
    ∃ offset, l = .byte offset := by
  obtain ⟨id, c, o, r, found, aim⟩ := goes_event goes
  cases o with
  | readByte offset =>
      cases aim
      exact ⟨offset, rfl⟩
  | writeByte offset b =>
      cases aim
      exact ⟨offset, rfl⟩
  | compareExchange cur new => cases r <;> cases aim <;> cases plain
  | _ =>
      cases aim
      cases plain

omit [DecidableEq T] in
theorem goes_thread {l l' : Cell} {n : Mode} (first : SegGoes log i t l m)
    (second : SegGoes log i u l' n) :
    t = u := by
  obtain ⟨e, found, rfl, -⟩ := first
  obtain ⟨e', found', rfl, -⟩ := second
  rw [found] at found'
  cases found'
  rfl

/-- Where a thread stands before the event at a place of the log. -/
def stands (log : List (SegEvent T Call Ret)) (i : Nat) (t : T) : Phase := phases (log.take i) t

theorem stands_access {id : Nat} {c : Call} {o : SegOp} {r : o.Res}
    (found : log[i]? = some (.access t id c o r)) :
    stands log (i + 1) u = if u = t then entered (stands log i t) o r else stands log i u := by
  rw [stands, List.take_add_one, found, Option.toList_some, phases_access, Function.update_apply]
  rfl

/-- Only an access of its own moves a thread. -/
theorem moved_access (moved : stands log (i + 1) t ≠ stands log i t) :
    ∃ id c o r, log[i]? = some (.access t id c o r) ∧
      stands log (i + 1) t = entered (stands log i t) o r := by
  cases found : log[i]? with
  | none =>
      rw [stands, List.take_add_one, found] at moved
      simp [stands] at moved
  | some e =>
      cases e with
      | invoke u id c =>
          rw [stands, List.take_add_one, found] at moved
          simp [stands] at moved
      | finish u id c value =>
          rw [stands, List.take_add_one, found] at moved
          simp [stands] at moved
      | access u id c o r =>
          have now := stands_access (u := t) found
          by_cases same : t = u
          · subst same
            rw [if_pos rfl] at now
            exact ⟨id, c, o, r, rfl, now⟩
          · rw [if_neg same] at now
            exact absurd now moved

/-- Who comes inside, or changes there, acquires. -/
theorem enters (inside : p ≠ .out) (first : stands log i t ≠ p) (last : stands log j t = p)
    (before : i ≤ j) : ∃ k o, i ≤ k ∧ k < j ∧ SegGoes log k t .lock o ∧ o.acquires = true ∧
      stands log (k + 1) t = p := by
  obtain ⟨k, after, within, then_not, now⟩ := ends_between (fun i => stands log i t ≠ p) before
    first (not_not_intro last)
  rw [not_not] at now
  obtain ⟨id, c, o, r, found, moves⟩ := moved_access (by rw [now]; exact Ne.symm then_not)
  rw [now] at moves
  cases o with
  | compareExchange cur new =>
      cases r with
      | true => exact ⟨k, _, after, within, goes_access found, rfl, now⟩
      | false => exact absurd moves.symm then_not
  | fetchSub n => exact absurd moves inside
  | storeState v =>
      change p = if stands log k t = .writing then .out else stands log k t at moves
      split at moves
      · exact absurd moves inside
      · exact absurd moves.symm then_not
  | _ => exact absurd moves.symm then_not

variable [Fintype T] (orderly : Recorded (Orderly fun _ => False) log)
include orderly

theorem goes_byte {offset : Nat} (goes : SegGoes log i t (.byte offset) m) :
    stands log i t ≠ .out ∧ (m.writes = true → stands log i t = .writing) ∧
      stands log (i + 1) t = stands log i t := by
  obtain ⟨id, c, o, r, found, aim⟩ := goes_event goes
  have now := stands_access (u := t) found
  rw [if_pos rfl] at now
  cases o with
  | readByte offset =>
      cases aim
      exact ⟨(recorded_at orderly found).1, nofun, now⟩
  | writeByte offset b =>
      cases aim
      have inside : stands log i t = .writing := (recorded_at orderly found).1
      refine ⟨?_, fun _ => inside, now⟩
      rw [inside]
      decide
  | _ => cases aim

/-- Who is inside leaves by a release. -/
theorem leaves (inside : p ≠ .out) (first : stands log i t = p) (last : stands log j t ≠ p)
    (before : i ≤ j) : ∃ k o, i ≤ k ∧ k < j ∧ SegGoes log k t .lock o ∧ o.releases = true ∧
      stands log k t = p ∧ stands log (k + 1) t = .out := by
  obtain ⟨k, after, within, now, gone⟩ :=
    ends_between (fun i => stands log i t = p) before first last
  obtain ⟨id, c, o, r, found, moves⟩ := moved_access (by rw [now]; exact gone)
  have admitted := (recorded_at orderly found).1
  change Admitted _ _ (stands log k t) o at admitted
  rw [now] at admitted moves
  cases o with
  | compareExchange cur new => exact absurd admitted.1 inside
  | fetchSub n => exact ⟨k, _, after, within, goes_access found, rfl, now, moves⟩
  | storeState v =>
      refine ⟨k, _, after, within, goes_access found, rfl, now, ?_⟩
      rcases admitted.2 with writing | ⟨-, never⟩
      · rw [moves, entered, if_pos writing]
      · exact never.elim
  | _ => exact absurd moves gone

variable (alone : ∀ i t u, stands log i t = .writing → u ≠ t → stands log i u = .out)
include alone

/-- Whoever acquires the lock after a thread let go of it comes after. -/
theorem release_acquire {o n : Mode} (leaves : SegGoes log i t .lock o)
    (releases : o.releases = true)
    (was : stands log i t ≠ .out) (out : stands log (i + 1) t = .out)
    (gains : SegGoes log j u .lock n) (acquires : n.acquires = true) (before : i < j) :
    Before (fun _ => segTouch) log i j := by
  refine before_locked leaves releases ?_ gains acquires before
  intro k v m after goes writes stores
  obtain ⟨id, c, o', r, found, aim⟩ := goes_event goes
  cases o' with
  | storeState v' =>
      cases aim
      refine ⟨rfl, ?_⟩
      have inside : stands log k v = .writing := by
        rcases (recorded_at orderly found).1.2 with writing | ⟨-, never⟩
        · exact writing
        · exact never.elim
      -- when the first thread let go no writer was inside, so this one came in later
      have outside : stands log (i + 1) v ≠ .writing := by
        by_cases same : v = t
        · rw [same, out]
          decide
        · intro writing
          obtain ⟨id', c', o'', r', found', -⟩ := goes_event leaves
          rw [stands_access found', if_neg same] at writing
          exact was (alone i v t writing (Ne.symm same))
      obtain ⟨k', n', early, within, entry, gained, -⟩ :=
        enters (by decide) outside inside (by omega)
      exact ⟨k', n', by omega, within, entry, gained⟩
  | compareExchange cur new =>
      cases r <;> cases aim
      · cases writes
      · cases stores
  | fetchSub n =>
      cases aim
      cases stores
  | loadState =>
      cases aim
      cases writes
  | _ => cases aim

/-- Two threads that cannot be inside together were not: the first let go, the second came in. -/
theorem sections_ordered {offset offset' : Nat} {n : Mode} (apart : t ≠ u)
    (first : SegGoes log i t (.byte offset) m) (second : SegGoes log j u (.byte offset') n)
    (written : m.writes = true ∨ n.writes = true) (before : i < j) :
    Before (fun _ => segTouch) log i j := by
  obtain ⟨inside, writer, still⟩ := goes_byte orderly first
  obtain ⟨inside', writer', -⟩ := goes_byte orderly second
  have exclusive : ∀ k, stands log k t = stands log i t → stands log k u ≠ stands log j u := by
    intro k here there
    rcases written with first | second
    · exact inside' (there ▸ alone k t u (here.trans (writer first)) (Ne.symm apart))
    · exact inside (here ▸ alone k u t (there.trans (writer' second)) apart)
  obtain ⟨b, n', from_i, to_j, entry, gained, there⟩ :=
    enters inside' (exclusive i rfl) rfl (Nat.le_of_lt before)
  obtain ⟨a, o, after, within, exit, released, was, out⟩ :=
    leaves orderly inside rfl (fun here => exclusive (b + 1) here there) (by omega : i ≤ b + 1)
  have notFirst : a ≠ i := by
    rintro rfl
    rw [out] at still
    exact inside still.symm
  have notEntry : a ≠ b := by
    rintro rfl
    exact apart (goes_thread exit entry)
  apply (before_program (by omega) first exit).trans
  apply (release_acquire orderly alone exit released (was ▸ inside) out entry gained
    (by omega)).trans
  exact before_program to_j entry second

end Log

section Runs
variable [Fintype T] {sys : SegSystem T Call Ret} {inits : Call → Prop} {mem : SegMem}
  {cfg : SegConfig T Call Ret}

omit [Fintype T] in
theorem phases_quiet {log more : List (SegEvent T Call Ret)}
    (quiet : ∀ e ∈ more, e.isAccess = false) :
    phases (log ++ more) = phases log := by
  induction more using List.reverseRecOn with
  | nil => rw [List.append_nil]
  | append_singleton more e ih =>
      have last := quiet e (by simp)
      have same := ih fun x member => quiet x (List.mem_append_left _ member)
      rw [← List.append_assoc]
      cases e with
      | access t id c o r => cases last
      | invoke t id c => rw [phases_invoke, same]
      | finish t id c value => rw [phases_finish, same]

/-- At every instant of a run some value of the word says who is inside. -/
theorem encoded_always (used : LockUsed inits sys) (unlocked : mem.state = 0)
    (reach : Reachable sys mem cfg) {early : List (SegEvent T Call Ret)}
    (inside : early <+: cfg.world.log) : ∃ n, Encodes (phases early) n := by
  induction reach generalizing early with
  | refl =>
      cases List.prefix_nil.mp inside
      exact ⟨0, Encodes.empty⟩
  | tail run step ih =>
      obtain ⟨e, rest, logged, quiet⟩ := step.logged
      have now := (excluded used unlocked (run.tail step)).encodes
      obtain ⟨more, cut⟩ := inside
      rw [logged] at cut now
      rcases List.append_eq_append_iff.mp cut with ⟨gap, whole, -⟩ | ⟨gap, whole, split⟩
      · exact ih ⟨gap, whole.symm⟩
      · cases gap with
        | nil => exact ih ⟨[], by rw [whole]; simp⟩
        | cons x part =>
            -- the return behind an access moves nobody
            simp only [List.cons_append, List.cons.injEq] at split
            obtain ⟨rfl, rfl⟩ := split
            rw [← List.cons_append, ← List.append_assoc] at now
            rw [phases_quiet fun y member => quiet y (List.mem_append_right _ member),
              ← whole] at now
            exact ⟨_, now⟩

theorem locked_raceFree (used : LockUsed (fun _ => False) sys) (unlocked : mem.state = 0)
    (reach : Reachable sys mem cfg) : RaceFree (fun _ => segTouch) cfg.world.log := by
  have orderly : Recorded (Orderly fun _ => False) cfg.world.log :=
    (excluded used unlocked reach).orderly
  have alone : ∀ i t u, stands cfg.world.log i t = .writing → u ≠ t →
      stands cfg.world.log i u = .out := by
    intro i t u writing other
    obtain ⟨n, encodes⟩ := encoded_always used unlocked reach (List.take_prefix i cfg.world.log)
    exact encodes.alone writing other
  intro i j t u l m n before conflict
  obtain ⟨apart, first, second, written, plain⟩ := conflict
  obtain ⟨offset, rfl⟩ : ∃ offset, l = .byte offset := by
    rcases plain with first_plain | second_plain
    · exact plain_byte first first_plain
    · exact plain_byte second second_plain
  exact sections_ordered orderly alone apart first second written before

end Runs

section Views
variable [Fintype T] [Target] {build : Build} {views : T → MappedView} {start : SegMem}

/-- In every run of fewer than 2^31 threads with views of one segment, any two accesses to the
same byte, word or cursor that conflict, one of them plain, are ordered by the `Acquire`
and `Release` of the lock word. -/
theorem views_race_free (few : Fintype.card T < 2 ^ 31) (unlocked : start.state = 0)
    {cfg : ViewConfig T} (reach : Reachable (snapshotSystem build views) start cfg) :
    RaceFree (fun _ => segTouch) cfg.world.log :=
  locked_raceFree (snapshot_used few) unlocked reach

omit [DecidableEq T] [Fintype T] [Target]

/-- The byte is written at place 5 of the log and read at place 10. -/
theorem views_race_free_readAfterRace :
    ∃ cfg : ViewConfig (Fin 2),
      Conflict (fun _ => segTouch) cfg.world.log 5 10 thread0 thread1 (.byte 4) .write .read ∧
        Before (fun _ => segTouch) cfg.world.log 5 10 := by
  have ran : (schedule (@viewSystem (Fin 2) littleEndian .release smallViews
      fun _ c => isMap c = false) (fun _ _ o m => SegMem.exec o m) readAfterRace
      (.initial ⟨0, fun _ => 0, fun _ => 0⟩)).map (fun cfg =>
        (visit (fun _ => segTouch) cfg.world.log 5, visit (fun _ => segTouch) cfg.world.log 10)) =
      some (some (thread0, .byte 4, .write), some (thread1, .byte 4, .read)) := by
    decide +kernel
  obtain ⟨cfg, reach, result⟩ := schedule_reaches (@view_faithful _ littleEndian _ _ _) ran
  simp only [Prod.mk.injEq] at result
  have conflict : Conflict (fun _ => segTouch) cfg.world.log 5 10 thread0 thread1 (.byte 4)
      .write .read := ⟨by decide, goes_visit result.1, goes_visit result.2, .inl rfl, .inl rfl⟩
  exact ⟨cfg, conflict, @views_race_free _ _ _ littleEndian _ _ _
    (by decide) rfl _ reach _ _ _ _ _ _ _
    (by decide) conflict⟩

end Views
end Membridge.LockRaces
