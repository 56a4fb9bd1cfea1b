import Membridge.Completion
import Membridge.Snapshot

/-!
What a thread that stops for good does to the others: nothing, if it holds no lock; but a
reader that never leaves its section keeps every writer out, and a writer everybody.
-/
namespace Membridge.ViewProgress
open Program Interleaving RelyGuarantee Typestate Completion Python ByteOrder Arithmetic Occupancy
open Segment RwLock Exclusion View ViewRuns CallShape Snapshot

section Spinning
variable {n id : Nat} {k : Kind} {ph : Phase} {α : Type}

/-- The rules of the lock, and that only a thread outside looks at the word. -/
def spinDiscipline (n : Nat) : Discipline SegOp SegOp.Res Phase where
  enter := entered
  may ph o := Admitted n False ph o ∧ (o = .loadState → ph = .out)
  sees := Seen n

/-- The two loops in which a thread waits for the lock. -/
inductive LockLoop : (o : SegOp) → (o.Res → SegProg Bool) → Prop where
  | reading : LockLoop .loadState fun cur : BitVec 32 =>
      if 0 ≤ cur.toInt then Prog.perform (SegOp.compareExchange cur (cur + 1)) else .ret false
  | writing : LockLoop (.compareExchange 0 (-1)) fun exchanged => .ret exchanged

theorem may_other {o : SegOp} (admitted : Admitted n False ph o) (other : o ≠ .loadState) :
    (spinDiscipline n).may ph o := ⟨admitted, fun same => absurd same other⟩

theorem spins_outside (o : SegOp) (body : o.Res → SegProg Bool) (lock : LockLoop o body)
    (may : (spinDiscipline n).may ph o) : ph = .out := by
  cases lock with
  | reading => exact may.2 rfl
  | writing => exact may.1.1

theorem touches_may {o : SegOp} (touches : Touches id ph o) :
    (spinDiscipline n).may ph o ∧ ∀ r, entered ph o r = ph := by
  cases o with
  | loadState => exact touches.elim
  | compareExchange cur new => exact touches.elim
  | fetchSub n => exact touches.elim
  | storeState v => exact touches.elim
  | readByte offset => exact ⟨may_other touches (by simp), fun _ => rfl⟩
  | writeByte offset byte => exact ⟨may_other touches (by simp), fun _ => rfl⟩
  | _ => exact ⟨may_other trivial (by simp), fun _ => rfl⟩

theorem body_follows {body : SegProg α} (inside : body.Straight (Touches id ph)) :
    (spinDiscipline n).Follows ph body fun _ later => later = ph := by
  induction body with
  | ret value => rfl
  | op o next ih =>
      obtain ⟨may, stays⟩ := touches_may (n := n) inside.1
      refine ⟨may, ?_⟩
      intro r _
      change (spinDiscipline n).Follows (entered ph o r) _ _
      rw [stays r]
      exact ih r (inside.2 r)
  | loop o body next _ _ => exact inside.elim

theorem readSection_follows {β : Type} {body : SegProg β} {f : β → α}
    (inside : body.Straight (Touches id .reading)) :
    (spinDiscipline n).Follows .out (readSection body f) fun _ later => later = .out := by
  unfold readSection
  refine ⟨⟨trivial, fun _ => rfl⟩, ?_⟩
  intro cur room
  by_cases shared : 0 ≤ cur.toInt
  · have admitted : Admitted n False .out (.compareExchange cur (cur + 1)) :=
      ⟨rfl, .inr ⟨shared, room rfl, rfl⟩⟩
    simp only [if_pos shared, Prog.perform]
    refine ⟨may_other admitted (by simp), ?_⟩
    intro exchanged _
    cases exchanged with
    | false => rfl
    | true =>
        have reading : entered .out (.compareExchange cur (cur + 1)) true = .reading :=
          entered_reading .out shared
        simp only [Discipline.follows_ret, if_pos, Prog.ret_bind]
        change (spinDiscipline n).Follows (entered .out (.compareExchange cur (cur + 1)) true) _ _
        rw [reading, Discipline.follows_bind]
        apply Discipline.follows_mono ?_ (body_follows inside)
        rintro a _ rfl
        exact ⟨may_other ⟨rfl, rfl⟩ (by simp), fun _ _ => rfl⟩
  · simp only [if_neg shared]
    rfl

theorem writeSection_follows {β : Type} {body : SegProg β} {f : β → α}
    (inside : body.Straight (Touches id .writing)) :
    (spinDiscipline n).Follows .out (writeSection body f) fun _ later => later = .out := by
  unfold writeSection
  refine ⟨may_other ⟨rfl, .inl ⟨rfl, rfl⟩⟩ (by simp), ?_⟩
  intro exchanged _
  cases exchanged with
  | false => rfl
  | true =>
      simp only [Discipline.follows_ret, if_pos, Prog.ret_bind]
      change (spinDiscipline n).Follows .writing _ _
      rw [Discipline.follows_bind]
      apply Discipline.follows_mono ?_ (body_follows inside)
      rintro a _ rfl
      exact ⟨may_other ⟨rfl, .inl rfl⟩ (by simp), fun _ _ => rfl⟩

theorem guarded_follows {p : SegProg (PyResult PyValue)} (shape : Guarded id k p) :
    Loops LockLoop p ∧ (spinDiscipline n).Follows .out p fun _ later => later = .out := by
  induction shape with
  | done value early => exact ⟨trivial, rfl⟩
  | cursor o next own later ih =>
      obtain ⟨may, stays⟩ := touches_may (n := n) own
      refine ⟨fun r => (ih r).1, may, ?_⟩
      intro r _
      change (spinDiscipline n).Follows (entered .out o r) _ _
      rw [stays r]
      exact (ih r).2
  | asks next which later ih =>
      exact ⟨fun r => (ih r).1, ⟨trivial, fun _ => rfl⟩, fun r _ => (ih r).2⟩
  | reading body f inside which =>
      refine ⟨⟨.reading, ?_, ?_⟩, readSection_follows inside⟩
      · intro cur
        dsimp only
        split
        · exact fun _ => trivial
        · trivial
      · exact loops_bind trivial fun _ => loops_bind (loops_straight inside) fun _ _ => trivial
  | writing body f inside which =>
      refine ⟨⟨.writing, fun _ => trivial, ?_⟩, writeSection_follows inside⟩
      exact loops_bind trivial fun _ => loops_bind (loops_straight inside) fun _ _ => trivial

end Spinning

section Sealing
variable {id : Nat} {α β : Type} {last : SegOp → Prop}

/-- The access by which a call leaves its section. -/
def Unlocks : Kind → SegOp → Prop
  | .reads, o => o = .fetchSub 1
  | .writes, o => o = .storeState 0
  | .other, _ => False

/-- A call that needs the lock and got what it wanted. -/
def Served (c : ViewCall) (value : PyResult PyValue) : Prop := kind c ≠ .other ∧ value.isOk = true

/-- A part of a call after which the call answers with an error, or as it leaves its section. -/
def Sealed (last : SegOp → Prop) (p : SegM α) : Prop :=
  ∀ f : PyResult α → PyResult PyValue, (∀ e, (f (.error e)).isOk = false) →
    Behind last (fun value => value.isOk = true) (p.run.bind fun result => .ret (f result))

theorem sealed_result {p : SegM α} {g : α → PyValue} (holds : Sealed last p) :
    Behind last (fun value => value.isOk = true) (p >>= fun value => pure (g value)).run := by
  have shape := holds (fun result => result.map g) fun e => rfl
  have same : (p >>= fun value => pure (g value)).run =
      p.run.bind fun result => .ret (result.map g) := by
    rw [Prog.run_bind]
    congr 1
    funext result
    cases result <;> rfl
  rw [same]
  exact shape

theorem sealed_throw (e : PyErr) : Sealed last (throw e : SegM α) := by
  intro f keeps
  exact Bool.eq_false_iff.mp (keeps e)

theorem sealed_except {result : PyResult α} {g : α → SegM β}
    (later : ∀ value, Sealed last (g value)) :
    Sealed last (liftM result >>= g) := by
  intro f keeps
  cases result with
  | ok value => exact later value f keeps
  | error e => exact Bool.eq_false_iff.mp (keeps e)

theorem sealed_loadCursor {view : MappedView} {g : BitVec 64 → SegM β}
    (later : ∀ pos, Sealed last (g pos)) : Sealed last (loadCursor view >>= g) := by
  intro f keeps
  exact fun pos => .inl (later pos f keeps)

theorem sealed_position {view : MappedView} {offset : Option Nat} {g : Nat → SegM β}
    (later : ∀ pos, Sealed last (g pos)) : Sealed last (position view offset >>= g) := by
  cases offset with
  | some o => exact later o
  | none =>
      intro f keeps
      exact fun pos => .inl (later pos.toNat f keeps)

theorem sealed_readGuard {body : SegM α} : Sealed (Unlocks .reads) (withReadGuard body) := by
  intro f _
  change Behind _ _
    ((readLock.bind fun _ => body.run.bind fun a => readUnlock.bind fun _ => .ret a).bind _)
  simp only [Prog.bind_assoc, Prog.ret_bind]
  exact behind_bind fun _ => behind_bind fun _ _ => .inr ⟨rfl, _, rfl⟩

theorem sealed_writeGuard {body : SegM α} : Sealed (Unlocks .writes) (withWriteGuard body) := by
  intro f _
  change Behind _ _
    ((writeLock.bind fun _ => body.run.bind fun a => writeUnlock.bind fun _ => .ret a).bind _)
  simp only [Prog.bind_assoc, Prog.ret_bind]
  exact behind_bind fun _ => behind_bind fun _ _ => .inr ⟨rfl, _, rfl⟩

theorem place_sealed (view : MappedView) (bytes : List UInt8) (offset : Option Nat) :
    Sealed (Unlocks .writes) (place view bytes offset) :=
  sealed_position fun _ => sealed_except fun _ => sealed_writeGuard

variable [Target]

theorem readMixed_sealed (view : MappedView) (schema : List PyValue) (offset : Option Nat) :
    Sealed (Unlocks .reads) (readMixed view schema offset) := by
  apply sealed_position
  intro pos
  dsimp only
  split
  · exact sealed_throw _
  · exact sealed_readGuard

/-- A call that needs the lock answers with an error or as it leaves its section. -/
theorem viewCode_behind (build : Build) (view : MappedView) (c : ViewCall) :
    Behind (Unlocks (kind c)) (Served c) (viewCode build view c) := by
  by_cases which : kind c = .other
  · exact behind_never fun value served => served.1 which
  · suffices whole : Behind (Unlocks (kind c)) (fun value => value.isOk = true)
        (viewCode build view c) from behind_mono (fun value served => served.2) whole
    cases c with
    | write data offset =>
        apply sealed_result
        exact sealed_except fun _ => place_sealed view _ offset
    | writeMixed items offset =>
        apply sealed_result
        exact sealed_except fun _ => place_sealed view _ offset
    | read tag =>
        have shape : Sealed (Unlocks .reads) (View.read build view tag) :=
          sealed_loadCursor fun _ => sealed_readGuard
        have whole := shape (fun result => result) fun _ => rfl
        rwa [show (fun result : PyResult PyValue => Prog.ret result) = Prog.ret from rfl,
          Prog.bind_ret] at whole
    | readMixed schema offset => exact sealed_result (readMixed_sealed view schema offset)
    | readRange offset length => exact sealed_result (sealed_except fun _ => sealed_readGuard)
    | readAll => exact sealed_result sealed_readGuard
    | zero => exact sealed_result sealed_writeGuard
    | _ => exact absurd rfl which

end Sealing

section Free
variable {T : Type} [Fintype T] [DecidableEq T]

/-- The word when at most `t` is inside. -/
def Only (t : T) (ph : Phase) (m : SegMem) : Prop :=
  Encodes (Function.update (fun _ => .out) t ph) m.state.toInt

theorem only_out {t : T} {m : SegMem} : Only t .out m ↔ m.state = 0 := by
  have nobody : Function.update (fun _ : T => Phase.out) t .out = fun _ => .out :=
    Function.update_eq_self t _
  unfold Only
  rw [nobody]
  constructor
  · intro encodes
    exact toInt_zero_iff.mp (encodes.all_out fun _ => rfl)
  · intro free
    rw [free]
    exact .empty

theorem only_governs (few : Fintype.card T < 2 ^ 31) (t : T) :
    (spinDiscipline (Fintype.card T)).Governs SegMem.exec (Only t) := by
  intro ph m o only may
  have at_t : Function.update (fun _ : T => Phase.out) t ph t = ph := Function.update_self ..
  have admitted : Admitted (Fintype.card T) False
    (Function.update (fun _ : T => Phase.out) t ph t) o := by
    rw [at_t]
    exact may.1
  have quiet : ∀ v, o = .storeState v → Function.update (fun _ : T => Phase.out) t ph t = .out →
      m.state = 0 := by
    rintro v rfl outside
    rw [at_t] at outside
    rcases may.1.2 with inside | ⟨_, never⟩
    · rw [outside] at inside
      cases inside
    · exact never.elim
  obtain ⟨seen, encodes⟩ := encodes_step few only admitted quiet
  rw [at_t] at seen encodes
  rw [Function.update_idem] at encodes
  exact ⟨seen, encodes⟩

theorem lock_opens {t : T} {o : SegOp} {body : o.Res → SegProg Bool} (lock : LockLoop o body)
    {m : SegMem} (only : Only t .out m) :
    ∃ after, Prog.solo SegMem.exec (body (SegMem.exec o m).1) (SegMem.exec o m).2 =
      some (true, after) := by
  have free := only_out.mp only
  cases lock with
  | reading => exact ⟨{ m with state := m.state + 1 }, by simp [SegMem.exec, free, Prog.perform]⟩
  | writing => exact ⟨{ m with state := -1 }, by simp [SegMem.exec, free]⟩

end Free
section Ending
variable {T : Type} [Fintype T] [DecidableEq T] [Target] {build : Build} {views : T → MappedView}
  {start : SegMem} {cfg : ViewConfig T}

theorem view_ends (few : Fintype.card T < 2 ^ 31) (unlocked : start.state = 0) :
    Ends (spinDiscipline (Fintype.card T)) (snapshotSystem build views) start phases .out LockLoop
      SegMem.exec Only where
  tracks := {
    start := fun _ => rfl
    others := fun _ _ _ far => phases_others far
    invoke := fun _ _ _ _ => congrFun phases_invoke _
    finish := fun _ _ _ _ _ => congrFun phases_finish _
    access := by
      intro cfg reach t id c o r m may does
      have inv : Excluded (fun _ => False) cfg.world := excluded (snapshot_used few) unlocked reach
      have step : Seen (Fintype.card T) (phases cfg.world.log t) o r ∧
          Excluded (fun _ => False) ⟨m, cfg.world.log ++ [.access t id c o r]⟩ :=
        excluded_step (snapshot_used few) inv may.1 trivial does
      refine ⟨step.1, ?_⟩
      rw [phases_access, Function.update_self]
      rfl }
  codes t c may := guarded_follows (viewCode_guarded build may)
  free _ _ _ _ := trivial
  faithful _ _ _ _ := rfl
  spins _ := spins_outside
  governs := only_governs few
  quiet cfg reach nobody t := by
    have inv : Excluded (fun _ => False) cfg.world := excluded (snapshot_used few) unlocked reach
    exact only_out.mpr (toInt_zero_iff.mp (inv.encodes.all_out nobody))
  opens _ _ _ _ lock only := lock_opens lock only

/-- No deadlock. From every state of every run the calls in progress can be brought to their
returns, by steps of these calls alone, and the lock is free then. Threads that stopped
for good, whatever they were doing, stand in nobody's way as long as they are in no section. -/
theorem calls_can_end (few : Fintype.card T < 2 ^ 31) (unlocked : start.state = 0)
    (reach : Reachable (viewSystem build views fun _ c => isMap c = false) start cfg)
    (stopped : T → Prop) (outside : ∀ t, stopped t → phases cfg.world.log t = .out) :
    ∃ after : ViewConfig T,
      Steps (viewSystem build views fun _ c => isMap c = false) cfg after ∧
      (∃ more, after.world.log = cfg.world.log ++ more ∧
        ∀ e ∈ more, ¬ stopped e.thread ∧ ∀ t id c, e ≠ .invoke t id c) ∧
      (∀ t, ¬ stopped t → after.running t = none) ∧
      (∀ t run, ¬ stopped t → cfg.running t = some run →
        ∃ value, .finish t run.id run.call value ∈ after.world.log) ∧
      after.world.mem.state = 0 := by
  have ends : Ends (spinDiscipline (Fintype.card T)) (snapshotSystem build views) start phases .out
      LockLoop SegMem.exec Only := view_ends few unlocked
  obtain ⟨after, steps, ⟨more, grown, alive⟩, done⟩ :=
    ends.all (fun t => ¬ stopped t) reach fun t gone => outside t (not_not.mp gone)
  obtain ⟨same, grown', silent⟩ := closing_logged steps
  have whole := List.append_cancel_left (grown.symm.trans grown')
  subst whole
  have run := closing_steps steps
  have reach' : Reachable (snapshotSystem build views) start after := reach.trans run
  refine ⟨after, run, ⟨more, grown, fun e member => ⟨alive e member, silent e member⟩⟩,
    done, ?_, ?_⟩
  · intro t turn live busy
    rcases ended run busy with ⟨rest, going⟩ | returned
    · rw [done t live] at going
      cases going
    · exact returned
  · -- the stopped are still outside, and the others are at rest
    have nobody : ∀ u, phases after.world.log u = .out := by
      intro u
      by_cases gone : stopped u
      · have far : Others u cfg.world after.world :=
          ⟨more, grown, fun e member same => alive e member (same ▸ gone)⟩
        exact (phases_others far).trans (outside u gone)
      · have stands : Stands (spinDiscipline (Fintype.card T)) LockLoop phases .out after u :=
          Reachable.stands ends.tracks ends.codes reach' u
        exact stands.idle (done u gone)
    have inv : Excluded (fun _ => False) after.world := excluded (snapshot_used few) unlocked reach'
    exact toInt_zero_iff.mp (inv.encodes.all_out nobody)

omit [Fintype T] [DecidableEq T] [Target]

/-- One thread reads, and one stopped before it had the lock. -/
def oneGone : List (Interleaving.Choice (Fin 2) ViewCall) :=
  [[.call thread0 (.write (.bool true) (some 0)), .call thread1 .readAll], turns thread1 3,
    turns thread0 2].flatten

theorem calls_can_end_oneGone :
    ∃ cfg after : ViewConfig (Fin 2), phases cfg.world.log thread1 = .reading ∧
      (cfg.running thread0).isSome = true ∧ after.running thread1 = none ∧
      after.world.mem.state = 0 := by
  have ran : (schedule (@viewSystem (Fin 2) littleEndian .release smallViews
      fun _ c => isMap c = false) (fun _ _ o m => SegMem.exec o m) oneGone
      (.initial ⟨0, fun _ => 0, fun _ => 0⟩)).map (fun cfg =>
        (phases cfg.world.log thread1, phases cfg.world.log thread0,
          (cfg.running thread0).isSome)) = some (.reading, .out, true) := by
    decide +kernel
  obtain ⟨cfg, reach, result⟩ := schedule_reaches (@view_faithful _ littleEndian _ _ _) ran
  simp only [Prod.mk.injEq] at result
  obtain ⟨reading, outside, gone⟩ := result
  obtain ⟨after, _, _, done, _, free⟩ := @calls_can_end _ _ _ littleEndian _ _ _ _ (by decide) rfl
    reach (fun t => t = thread0) (by rintro t rfl; exact outside)
  exact ⟨cfg, after, reading, gone, done thread1 (by decide), free⟩

end Ending

section Blocking
variable {T : Type} [Fintype T] [DecidableEq T] [Target] {build : Build} {views : T → MappedView}
  {start : SegMem} {cfg : ViewConfig T}

omit [Fintype T] [Target] in
/-- While `h` takes no step, it stands where it stood. -/
theorem stands_still (cfg : ViewConfig T) {h : T} {more seen : List (ViewEvent T)}
    (still : ∀ e ∈ more, e.thread ≠ h)
    (early : seen <+: more) : phases (cfg.world.log ++ seen) h = phases cfg.world.log h := by
  have far : Others h cfg.world ⟨cfg.world.mem, cfg.world.log ++ seen⟩ :=
    ⟨seen, rfl, fun e member => still e (early.subset member)⟩
  exact phases_others far

/-- A thread inside blocks what the lock forbids: no byte is written by another, and none
read if it is a writer. -/
theorem blocked_access (few : Fintype.card T < 2 ^ 31) (unlocked : start.state = 0)
    {h t : T} {id : Nat} {c : ViewCall} {o : SegOp} {r : o.Res} {pre post : List (ViewEvent T)}
    (reach : Reachable (snapshotSystem build views) start cfg)
    (cut : cfg.world.log = pre ++ .access t id c o r :: post) (inside : phases pre h ≠ .out)
    (other : t ≠ h) :
    o ≠ .storeState 0 ∧ (∀ offset byte, o ≠ .writeByte offset byte) ∧
      (phases pre h = .writing → o ≠ .fetchSub 1 ∧ ∀ offset, o ≠ .readByte offset) := by
  have now : Excluded (fun _ => False) cfg.world := excluded (snapshot_used few) unlocked reach
  obtain ⟨before, reached, log⟩ := reach.at_access rfl cut
  have encodes : Encodes (phases pre) before.world.mem.state.toInt :=
    log ▸ (excluded (snapshot_used few) unlocked reached).encodes
  have admitted := now.admitted cut
  have alone : phases pre t = .writing → False :=
    fun writing => inside (encodes.alone writing other.symm)
  refine ⟨?_, ?_, ?_⟩
  · rintro rfl
    rcases admitted.2 with writing | ⟨_, never⟩
    · exact alone writing
    · exact never
  · rintro offset byte rfl
    exact alone admitted
  · intro writing
    have out : phases pre t = .out := encodes.alone writing other
    constructor
    · rintro rfl
      rw [admitted.2] at out
      cases out
    · rintro offset rfl
      exact admitted out

omit [Fintype T] [DecidableEq T] [Target] in
/-- Only a write changes the data area. -/
theorem replay_bytes {m : SegMem} {more : List (ViewEvent T)}
    (noWrite : ∀ t id c offset byte r, .access t id c (.writeByte offset byte) r ∉ more) :
    (replay SegMem.exec m more).bytes = m.bytes := by
  induction more using List.reverseRecOn with
  | nil => rfl
  | append_singleton rest e ih =>
      have before := ih fun t id c offset byte r member =>
        noWrite t id c offset byte r (List.mem_append_left _ member)
      rw [replay_snoc, ← before]
      cases e with
      | access t id c o r =>
          cases o with
          | writeByte offset byte => exact absurd (by simp) (noWrite t id c offset byte r)
          | compareExchange cur new =>
              simp only [Event.replay, SegMem.exec]
              split <;> rfl
          | _ => rfl
      | _ => rfl

/-- A thread that stops inside its section is never got round. As long as it takes no step
the data area stays as it is and no write returns a value; if it is a writer, no byte is
read either and no read returns a value. -/
theorem stopped_inside_blocks (few : Fintype.card T < 2 ^ 31) (unlocked : start.state = 0)
    (reach : Reachable (viewSystem build views fun _ c => isMap c = false) start cfg) {h : T}
    (inside : phases cfg.world.log h ≠ .out) {after : ViewConfig T}
    (steps : Steps (viewSystem build views fun _ c => isMap c = false) cfg after)
    {more : List (ViewEvent T)} (grown : after.world.log = cfg.world.log ++ more)
    (still : ∀ e ∈ more, e.thread ≠ h) :
    after.world.mem.bytes = cfg.world.mem.bytes ∧
    (∀ t id c v, .finish t id c (.ok v) ∈ more → kind c ≠ .writes) ∧
    (phases cfg.world.log h = .writing →
      (∀ t id c offset r, .access t id c (.readByte offset) r ∉ more) ∧
      ∀ t id c v, .finish t id c (.ok v) ∈ more → kind c ≠ .reads) := by
  have reach' : Reachable (snapshotSystem build views) start after := reach.trans steps
  have forbids : ∀ {t : T} {id : Nat} {c : ViewCall} {o : SegOp} {r : o.Res},
      .access t id c o r ∈ more → o ≠ .storeState 0 ∧ (∀ offset byte, o ≠ .writeByte offset byte) ∧
        (phases cfg.world.log h = .writing → o ≠ .fetchSub 1 ∧ ∀ offset, o ≠ .readByte offset) := by
    intro t id c o r member
    obtain ⟨seen, rest, rfl⟩ := List.append_of_mem member
    have stood := stands_still cfg still (List.prefix_append seen _)
    have cut : after.world.log = (cfg.world.log ++ seen) ++ .access t id c o r :: rest := by
      rw [grown, List.append_assoc]
    rw [← stood]
    exact blocked_access few unlocked reach' cut (stood ▸ inside)
      (still _ (List.mem_append_right _ List.mem_cons_self))
  have returns : ∀ {t : T} {id : Nat} {c : ViewCall} {v : PyValue}, .finish t id c (.ok v) ∈ more →
      kind c ≠ .other → ∃ o r, Unlocks (kind c) o ∧ .access t id c o r ∈ more := by
    intro t id c v member which
    obtain ⟨same, grown', closed⟩ := returns_behind
      (fun t c _ => viewCode_behind build (views t) c) reach steps
    cases List.append_cancel_left (grown.symm.trans grown')
    exact closed t id c (.ok v) member ⟨which, rfl⟩
  refine ⟨?_, ?_, ?_⟩
  · have now : after.world.mem = replay SegMem.exec start after.world.log :=
      reach'.replayed fun _ _ _ _ _ _ does => (exec_eq does).2
    have then_ : cfg.world.mem = replay SegMem.exec start cfg.world.log :=
      reach.replayed fun _ _ _ _ _ _ does => (exec_eq does).2
    rw [now, grown, replay, List.foldl_append]
    change (replay SegMem.exec (replay SegMem.exec start cfg.world.log) more).bytes = _
    rw [← then_]
    exact replay_bytes fun t id c offset byte r member => (forbids member).2.1 offset byte rfl
  · intro t id c v member which
    obtain ⟨o, r, unlocks, there⟩ := returns member (by simp [which])
    rw [which] at unlocks
    exact (forbids there).1 unlocks
  · intro writing
    constructor
    · exact fun t id c offset r member => ((forbids member).2.2 writing).2 offset rfl
    · intro t id c v member which
      obtain ⟨o, r, unlocks, there⟩ := returns member (by simp [which])
      rw [which] at unlocks
      exact ((forbids there).2.2 writing).1 unlocks

omit [Fintype T] [DecidableEq T] [Target]

/-- A reader inside, and then a writer who tries. -/
def readerStops : List (Interleaving.Choice (Fin 2) ViewCall) :=
  .call thread1 .readAll :: turns thread1 3

def writerTries : List (Interleaving.Choice (Fin 2) ViewCall) :=
  .call thread0 (.write (.bool true) (some 0)) :: turns thread0 3

theorem stopped_inside_blocks_writerTries :
    ∃ cfg after : ViewConfig (Fin 2), phases cfg.world.log thread1 = .reading ∧
      (after.running thread0).isSome = true ∧ after.world.mem.bytes = cfg.world.mem.bytes := by
  have ran : ((schedule (@viewSystem (Fin 2) littleEndian .release smallViews
      fun _ c => isMap c = false) (fun _ _ o m => SegMem.exec o m) readerStops
      (.initial ⟨0, fun _ => 0, fun _ => 0⟩)).bind fun cfg =>
        (schedule (@viewSystem (Fin 2) littleEndian .release smallViews
          fun _ c => isMap c = false)
            (fun _ _ o m => SegMem.exec o m) writerTries cfg).map fun after =>
            (phases cfg.world.log thread1, (after.running thread0).isSome,
              (after.world.log.drop cfg.world.log.length).all fun e => e.thread ≠ thread1)) =
      some (.reading, true, true) := by
    decide +kernel
  obtain ⟨cfg, first, ran⟩ := Option.bind_eq_some_iff.mp ran
  obtain ⟨after, second, result⟩ := Option.map_eq_some_iff.mp ran
  simp only [Prod.mk.injEq] at result
  obtain ⟨reading, tries, far⟩ := result
  have reach := schedule_steps (@view_faithful _ littleEndian _ _ _) first
  have steps := schedule_steps (@view_faithful _ littleEndian _ _ _) second
  obtain ⟨more, grown, _⟩ := returns_behind
    (fun t c _ => @viewCode_behind littleEndian .release (smallViews t) c) reach steps
  rw [grown, List.drop_left, List.all_eq_true] at far
  have still : ∀ e ∈ more, e.thread ≠ thread1 := fun e member => of_decide_eq_true (far e member)
  exact ⟨cfg, after, reading, tries,
    (@stopped_inside_blocks _ _ _ littleEndian _ _ _ _ (by decide) rfl
    reach thread1 (by rw [reading]; decide) _ steps _ grown still).1⟩

end Blocking
end Membridge.ViewProgress
