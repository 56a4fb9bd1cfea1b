import Membridge.CallShape
import Membridge.ViewRuns

/-!
Calls of many views are atomic: the writes take effect one after another in the
order in which they acquired the lock, and a read answers as if it had run alone
between two of them. The run of a call alone, from its own cursor and the data
area at that place, is what both are measured by.
-/
namespace Membridge.Snapshot
open Program Interleaving RelyGuarantee Typestate Python ByteOrder Arithmetic Occupancy
open Segment RwLock Exclusion View ViewRuns CallShape

section History
variable {T : Type}

/-- A call that acquired the write lock. -/
structure Write (T : Type) where
  thread : T
  id : Nat
  call : ViewCall

def acquired : ViewEvent T → Option (Write T)
  | .access t id c (.compareExchange _ new) exchanged =>
      if exchanged = true ∧ new = -1 then some ⟨t, id, c⟩ else none
  | _ => none

/-- The writes of a run, in the order in which they acquired the lock. -/
def writes (log : List (ViewEvent T)) : List (Write T) := log.filterMap acquired

variable [Target] (build : Build) (views : T → MappedView) (start : SegMem)

/-- The call alone, on the data area `data` and with its cursor at `pos`. -/
def alone (view : MappedView) (c : ViewCall) (data : Nat → UInt8) (pos : BitVec 64) :
    Option (PyResult PyValue × SegMem) :=
  Prog.solo SegMem.exec (viewCode build view c) ⟨0, data, fun _ => pos⟩

/-- The cursor of a thread after `log`. -/
def cursorOf (log : List (ViewEvent T)) (t : T) : BitVec 64 :=
  (replay SegMem.exec start log).cursors (views t).id

/-- What a write makes of the data area when it runs alone. -/
def applied (log : List (ViewEvent T)) (data : Nat → UInt8) (w : Write T) : Nat → UInt8 :=
  match alone build (views w.thread) w.call data
    (cursorOf views start (log.take w.id) w.thread) with
  | some (_, after) => after.bytes
  | none => data

/-- The data area after the writes `ws`, one after another. -/
def serially (log : List (ViewEvent T)) (ws : List (Write T)) : Nat → UInt8 :=
  ws.foldl (applied build views start log) start.bytes

section Lemmas
variable {build views start} {log more : List (ViewEvent T)} {t : T} {id : Nat} {c : ViewCall}

omit [Target] in
@[simp] theorem writes_invoke : writes (log ++ [.invoke t id c]) = writes log := by
  simp [writes, acquired]

omit [Target] in
@[simp] theorem writes_finish {value : PyResult PyValue} :
    writes (log ++ [.finish t id c value]) = writes log := by
  simp [writes, acquired]

omit [Target] in
theorem writes_append : writes (log ++ more) = writes log ++ writes more :=
  List.filterMap_append

omit [Target] in
theorem writes_access {o : SegOp} {r : o.Res}
    (other : acquired (.access t id c o r) = none) :
    writes (log ++ [.access t id c o r]) = writes log := by
  rw [writes_append, writes, writes, List.filterMap_cons_none other]
  simp

omit [Target] in
/-- Whoever acquires the lock does so in the course of a call begun before. -/
theorem writes_begun (begun : Recorded Begun log) {w : Write T} (member : w ∈ writes log) :
    log[w.id]? = some (.invoke w.thread w.id w.call) := by
  obtain ⟨e, inside, isWrite⟩ := List.mem_filterMap.mp member
  obtain ⟨pre, post, cut⟩ := List.append_of_mem inside
  cases e with
  | invoke u i d => cases isWrite
  | finish u i d value => cases isWrite
  | access u i d o r =>
      have began : pre[i]? = some (.invoke u i d) := begun pre _ post cut
      have same : w = ⟨u, i, d⟩ := by
        cases o with
        | compareExchange cur new =>
            simp only [acquired] at isWrite
            split at isWrite
            · exact (Option.some.inj isWrite).symm
            · cases isWrite
        | _ => cases isWrite
      subst same
      rw [cut, List.getElem?_append_left (List.getElem?_eq_some_iff.mp began).1]
      exact began

/-- What happens later does not change how the writes so far are applied. -/
theorem serially_append (begun : Recorded Begun log) {ws : List (Write T)}
    (so_far : ∀ w ∈ ws, w ∈ writes log) :
    serially build views start (log ++ more) ws = serially build views start log ws := by
  unfold serially
  apply List.foldl_ext
  intro data w member
  have began := writes_begun begun (so_far w member)
  have within : w.id ≤ log.length := (List.getElem?_eq_some_iff.mp began).1.le
  simp only [applied, List.take_append_of_le_length within]

theorem serially_snoc {ws : List (Write T)} {w : Write T} :
    serially build views start log (ws ++ [w]) =
      applied build views start log (serially build views start log ws) w := by
  simp [serially]

/-- An outcome is what running alone gives. -/
theorem outcome_alone {view : MappedView} {data after : Nat → UInt8} {pos : BitVec 64}
    {value : PyResult PyValue}
    (outcome : Outcome view.id (viewCode build view c) data pos value after) :
    ∃ last, alone build view c data pos = some (value, last) ∧ last.bytes = after :=
  outcome ⟨0, data, fun _ => pos⟩ rfl rfl rfl

end Lemmas
end History

section Protocol
variable {T : Type} [Fintype T] [DecidableEq T] [Target]
variable (build : Build) (views : T → MappedView) (start : SegMem)

/-- With nobody writing, the data area is the one the writes so far lead to. -/
def Settled (w : ViewWorld T) : Prop :=
  (∀ u, phases w.log u ≠ .writing) → w.mem.bytes = serially build views start w.log (writes w.log)

/-- A read answers for the writes up to some instant of its call; a write that succeeds is
one of the writes. -/
def Answered (pre : List (ViewEvent T)) : ViewEvent T → Prop
  | .finish t id c value =>
      (kind c = .reads → ∃ mid, pre.take id <+: mid ∧ mid <+: pre ∧
        ∃ after, alone build (views t) c (serially build views start mid (writes mid))
          (cursorOf views start (pre.take id) t) = some (value, after)) ∧
      (kind c = .writes → ∀ v, value = .ok v → ⟨t, id, c⟩ ∈ writes pre)
  | _ => True

structure SnapshotInv (w : ViewWorld T) : Prop where
  settled : Settled build views start w
  answered : Recorded (Answered build views start) w.log

structure SnapshotKnown (w : ViewWorld T) : Prop where
  excluded : Excluded (fun _ => False) w
  replayed : w.mem = replay SegMem.exec start w.log
  begun : Recorded Begun w.log

/-- A thread inside its section counts on the data area and the order of the writes, and
always on its own cursor. -/
structure SnapshotRely (t : T) (w w' : ViewWorld T) : Prop where
  cursor : w'.mem.cursors (views t).id = w.mem.cursors (views t).id
  phase : phases w'.log t = phases w.log t
  data : phases w.log t ≠ .out → w'.mem.bytes = w.mem.bytes ∧ writes w'.log = writes w.log

def snapshotProtocol : Protocol T ViewCall (PyResult PyValue) SegOp SegOp.Res SegMem where
  Known := SnapshotKnown start
  Inv := SnapshotInv build views start
  Rely := SnapshotRely views
  Idle t w := phases w.log t = .out
  rely_refl _ _ := ⟨rfl, rfl, fun _ => ⟨rfl, rfl⟩⟩
  rely_trans _ a b _ first second := by
    refine ⟨second.cursor.trans first.cursor, second.phase.trans first.phase, ?_⟩
    intro inside
    have later := second.data (first.phase ▸ inside)
    have early := first.data inside
    exact ⟨later.1.trans early.1, later.2.trans early.2⟩
  idle_stable _ _ _ _ idle _ _ _ far := (phases_others far).trans idle

abbrev snapshotSystem : ViewSystem T := viewSystem build views fun _ c => isMap c = false

variable {build views start} {t : T} {id : Nat} {c : ViewCall} {w now : ViewWorld T}

section Steps

/-- Accesses that are no store of the word, and touch no other view's cursor. -/
def Quiet (id : Nat) : SegOp → Prop
  | .storeState _ => False
  | .loadCursor view => view = id
  | .storeCursor view _ => view = id
  | .fetchAddCursor view _ => view = id
  | _ => True

def OwnCursor (id : Nat) : SegOp → Prop
  | .storeState _ => True
  | o => Quiet id o

omit [Target] [Fintype T] [DecidableEq T] in
theorem cursor_kept {u : T} {o : SegOp} {m : SegMem}
    (apart : Function.Injective fun t => (views t).id)
    (own : OwnCursor (views t).id o) (other : u ≠ t) :
    (SegMem.exec o m).2.cursors (views u).id = m.cursors (views u).id := by
  have different : (views u).id ≠ (views t).id := fun same => other (apart same)
  cases o with
  | storeCursor view pos =>
      cases own
      simp [SegMem.exec, different]
  | fetchAddCursor view n =>
      cases own
      simp [SegMem.exec, different]
  | compareExchange cur new =>
      simp only [SegMem.exec]
      split <;> rfl
  | _ => rfl

omit [Target] in
/-- Only a writer stores into the data area, and acquiring the lock makes one. -/
theorem data_kept {o : SegOp} {m : SegMem} {log : List (ViewEvent T)}
    (admitted : Admitted (Fintype.card T) False (phases log t) o)
    (outside : entered (phases log t) o (SegMem.exec o m).1 ≠ .writing) :
    (SegMem.exec o m).2.bytes = m.bytes ∧
      writes (log ++ [.access t id c o (SegMem.exec o m).1]) = writes log := by
  cases o with
  | writeByte offset byte => exact absurd admitted outside
  | compareExchange cur new =>
      constructor
      · simp only [SegMem.exec]
        split <;> rfl
      · apply writes_access
        refine if_neg ?_
        rintro ⟨took, rfl⟩
        exact outside ((if_pos took).trans (if_pos rfl))
  | _ => exact ⟨rfl, writes_access rfl⟩

omit [Target] in
/-- A writer does not leave by such an access. -/
theorem stays_writing {o : SegOp} {r : o.Res} {own : Nat} {log : List (ViewEvent T)}
    (admitted : Admitted (Fintype.card T) False (phases log t) o) (quiet : Quiet own o)
    (outside : entered (phases log t) o r ≠ .writing) : phases log t ≠ .writing := by
  cases o with
  | compareExchange cur new =>
      rw [admitted.1]
      decide
  | fetchSub n =>
      rw [admitted.2]
      decide
  | storeState v => exact quiet.elim
  | _ => exact outside

theorem commit_access {o : SegOp} (apart : Function.Injective fun t => (views t).id)
    (own : OwnCursor (views t).id o) (inv : SnapshotInv build views start w)
    (settled : SnapshotKnown start
        ⟨(SegMem.exec o w.mem).2, w.log ++ [.access t id c o (SegMem.exec o w.mem).1]⟩ →
      Settled build views start
        ⟨(SegMem.exec o w.mem).2, w.log ++ [.access t id c o (SegMem.exec o w.mem).1]⟩) :
    (snapshotProtocol build views start).Commit t w
      ⟨(SegMem.exec o w.mem).2, w.log ++ [.access t id c o (SegMem.exec o w.mem).1]⟩ := by
  intro known
  refine ⟨⟨settled known, recorded_snoc.mpr ⟨inv.answered, trivial⟩⟩, ?_⟩
  intro u other
  have phase : phases (w.log ++ [.access t id c o (SegMem.exec o w.mem).1]) u = phases w.log u := by
    rw [phases_access, Function.update_of_ne other]
  refine ⟨cursor_kept apart own other, phase, ?_⟩
  intro inside
  apply data_kept (known.excluded.admitted rfl)
  -- a writer after this access would be alone, but `u` is inside
  intro writing
  apply inside
  rw [← phase]
  apply known.excluded.encodes.alone (t := t) _ other
  rw [phases_access, Function.update_self]
  exact writing

theorem quiet_settled {o : SegOp} {own : Nat} (quiet : Quiet own o)
    (inv : SnapshotInv build views start w)
    (known : SnapshotKnown start
      ⟨(SegMem.exec o w.mem).2, w.log ++ [.access t id c o (SegMem.exec o w.mem).1]⟩) :
    Settled build views start
      ⟨(SegMem.exec o w.mem).2, w.log ++ [.access t id c o (SegMem.exec o w.mem).1]⟩ := by
  intro nobody
  have admitted := known.excluded.admitted rfl
  have outside : entered (phases w.log t) o (SegMem.exec o w.mem).1 ≠ .writing := by
    have now := nobody t
    rwa [phases_access, Function.update_self] at now
  have before : ∀ u, phases w.log u ≠ .writing := by
    intro u
    by_cases same : u = t
    · subst same
      exact stays_writing admitted quiet outside
    · have now := nobody u
      rwa [phases_access, Function.update_of_ne same] at now
  obtain ⟨bytes, order⟩ := data_kept admitted outside
  rw [bytes, order, serially_append (recorded_snoc.mp known.begun).1 fun _ member => member]
  exact inv.settled before

theorem commit_quiet {o : SegOp} {r : o.Res} {mem : SegMem}
    (apart : Function.Injective fun t => (views t).id) (inv : SnapshotInv build views start w)
    (does : SegMem.exec o w.mem = (r, mem)) (quiet : Quiet (views t).id o) (id : Nat) :
    (snapshotProtocol build views start).Commit t w ⟨mem, w.log ++ [.access t id c o r]⟩ := by
  obtain ⟨rfl, rfl⟩ := exec_eq does
  have own : OwnCursor (views t).id o := by
    cases o with
    | storeState v => trivial
    | _ => exact quiet
  exact commit_access apart own inv (quiet_settled quiet inv)

end Steps

section Sections
variable (views start) in
/-- Where a call stands that began after `before`. -/
structure At (before : List (ViewEvent T)) (t : T) (ph : Phase) (w : ViewWorld T) : Prop where
  phase : phases w.log t = ph
  since : before <+: w.log

variable {before : List (ViewEvent T)} {ph : Phase}

theorem At.env (here : At before t ph now) {w' : ViewWorld T}
    (env : (snapshotProtocol build views start).Env t now w') : At before t ph w' := by
  obtain ⟨more, grown, far⟩ := env.others
  refine ⟨(phases_others ⟨more, grown, far⟩).trans here.phase, ?_⟩
  rw [grown]
  exact here.since.trans (List.prefix_append _ _)

omit [Target] [Fintype T] in
theorem At.access (here : At before t ph w) {o : SegOp} {r : o.Res} {mem : SegMem} {later : Phase}
    (moves : entered ph o r = later) :
    At before t later ⟨mem, w.log ++ [.access t id c o r]⟩ := by
  refine ⟨?_, here.since.trans (List.prefix_append _ _)⟩
  rw [phases_access, Function.update_self, here.phase, moves]

variable {α : Type} {next : Unit → SegProg α}
  {post : α → ViewWorld T → ViewWorld T → Prop}

/-- The data area a reader finds is that of the writes so far, and stays so. -/
theorem wp_readLock (apart : Function.Injective fun t => (views t).id)
    (commit : (snapshotProtocol build views start).Commit t w now) (here : At before t .out now)
    (pos : BitVec 64) (cursor : now.mem.cursors (views t).id = pos)
    (later : ∀ x y mid, (snapshotProtocol build views start).Commit t x y → At before t .reading y →
      before <+: mid → mid <+: y.log → y.mem.cursors (views t).id = pos →
      y.mem.bytes = serially build views start mid (writes mid) →
        (snapshotProtocol build views start).wp (snapshotSystem build views) t id c (next ()) post
          x y) :
    (snapshotProtocol build views start).wp (snapshotSystem build views) t id c
      (readLock.bind next) post w now := by
  refine ⟨fun x y => (snapshotProtocol build views start).Commit t x y ∧ At before t .out y ∧
    y.mem.cursors (views t).id = pos, ⟨commit, here, cursor⟩, ?_⟩
  rintro x y ⟨commit, here, cursor⟩
  refine ⟨commit, ?_⟩
  intro w' env _ cur mem does
  have here' : At before t .out ⟨mem, w'.log ++ [.access t id c .loadState cur]⟩ :=
    (here.env env).access rfl
  have cursor' : mem.cursors (views t).id = pos := by
    cases does
    exact env.rely.cursor.trans cursor
  dsimp only
  split
  · next shared =>
      refine ⟨commit_quiet apart env.inv does trivial id, ?_⟩
      intro w'' env' _ exchanged mem' does'
      have tried := commit_quiet (t := t) (c := c) apart env'.inv does' trivial
      have cursor'' := env'.rely.cursor.trans cursor'
      rcases exchange_eq does' with ⟨same, rfl, rfl⟩ | ⟨_, rfl, rfl⟩
      · have nobody := (env'.known.excluded.encodes.nonneg_shared (same ▸ shared)).1
        exact later w'' _ w''.log (tried id) ((here'.env env').access (entered_reading .out shared))
          (here'.env env').since (List.prefix_append _ _) cursor'' (env'.inv.settled nobody)
      · exact ⟨tried id, (here'.env env').access rfl, cursor''⟩
  · exact ⟨commit_quiet apart env.inv does trivial id, here', cursor'⟩

/-- The writer is next in the order of the writes. -/
theorem wp_writeLock (apart : Function.Injective fun t => (views t).id)
    (commit : (snapshotProtocol build views start).Commit t w now) (here : At before t .out now)
    (pos : BitVec 64) (cursor : now.mem.cursors (views t).id = pos)
    (later : ∀ x y mid, (snapshotProtocol build views start).Commit t x y → At before t .writing y →
      mid <+: y.log → Recorded Begun mid → y.mem.cursors (views t).id = pos →
      y.mem.bytes = serially build views start mid (writes mid) →
      writes y.log = writes mid ++ [⟨t, id, c⟩] →
        (snapshotProtocol build views start).wp (snapshotSystem build views) t id c (next ()) post
          x y) :
    (snapshotProtocol build views start).wp (snapshotSystem build views) t id c
      (writeLock.bind next) post w now := by
  refine ⟨fun x y => (snapshotProtocol build views start).Commit t x y ∧ At before t .out y ∧
    y.mem.cursors (views t).id = pos, ⟨commit, here, cursor⟩, ?_⟩
  rintro x y ⟨commit, here, cursor⟩
  refine ⟨commit, ?_⟩
  intro w' env _ exchanged mem does
  have tried := commit_quiet (t := t) (c := c) apart env.inv does trivial
  have cursor' := env.rely.cursor.trans cursor
  rcases exchange_eq does with ⟨free, rfl, rfl⟩ | ⟨_, rfl, rfl⟩
  · have nobody := (env.known.excluded.encodes.nonneg_shared (by simp [free])).1
    refine later w' _ w'.log (tried id) ((here.env env).access rfl) (List.prefix_append _ _)
      env.known.begun cursor' (env.inv.settled nobody) ?_
    rw [writes_append]
    rfl
  · exact ⟨tried id, (here.env env).access rfl, cursor'⟩

omit [Target] [Fintype T] [DecidableEq T] in
theorem touches_quiet {own : Nat} {o : SegOp} {r : o.Res} (touches : Touches own ph o) :
    Quiet own o ∧ entered ph o r = ph ∧
      ∀ i, acquired (.access t i c o r : ViewEvent T) = none := by
  cases o with
  | loadState => exact touches.elim
  | compareExchange cur new => exact touches.elim
  | fetchSub n => exact touches.elim
  | storeState v => exact touches.elim
  | readByte offset => exact ⟨trivial, rfl, fun _ => rfl⟩
  | writeByte offset byte => exact ⟨trivial, rfl, fun _ => rfl⟩
  | _ => exact ⟨touches, rfl, fun _ => rfl⟩

/-- Inside, a body does what it does alone. -/
theorem wp_body (apart : Function.Injective fun t => (views t).id) {body : SegProg α}
    (inside : ph ≠ .out) (straight : body.Straight (Touches (views t).id ph))
    {ws : List (Write T)} (commit : (snapshotProtocol build views start).Commit t w now)
    (here : At before t ph now) (order : writes now.log = ws) :
    (snapshotProtocol build views start).wp (snapshotSystem build views) t id c body
      (fun a x y => (snapshotProtocol build views start).Commit t x y ∧
        (At before t ph y ∧ writes y.log = ws) ∧
        ∃ after, Prog.solo SegMem.exec body now.mem = some (a, after) ∧
          share (views t).id after = share (views t).id y.mem) w now := by
  have same : ∀ o s s', Touches (views t).id ph o →
      share (views t).id s = share (views t).id s' →
        (SegMem.exec o s).1 = (SegMem.exec o s').1 ∧
          share (views t).id (SegMem.exec o s).2 = share (views t).id (SegMem.exec o s').2 :=
    touches_same
  refine Protocol.wp_straight (J := fun y => At before t ph y ∧ writes y.log = ws)
    same ?_ ?_ straight commit ⟨here, order⟩
  · rintro x y ⟨here, order⟩ env
    obtain ⟨bytes, still⟩ := env.rely.data (here.phase ▸ inside)
    exact ⟨⟨here.env env, still.trans order⟩, share_eq.mpr ⟨bytes, env.rely.cursor⟩⟩
  · rintro o x r mem touches ⟨here, order⟩ inv does
    obtain ⟨quiet, stays, silent⟩ := touches_quiet (t := t) (c := c) (r := r) touches
    obtain ⟨response, memory⟩ := exec_eq does
    refine ⟨response, memory, ⟨here.access stays, ?_⟩, commit_quiet apart inv does quiet id⟩
    exact (writes_access (silent id)).trans order

variable (build views start) in
/-- How a call ends that began after `before`. -/
structure Ended (before : List (ViewEvent T)) (t : T) (id : Nat) (c : ViewCall)
    (value : PyResult PyValue) (x y : ViewWorld T) : Prop where
  commit : (snapshotProtocol build views start).Commit t x y
  here : At before t .out y
  read : kind c = .reads → ∃ mid, before <+: mid ∧ mid <+: y.log ∧
    ∃ after, alone build (views t) c (serially build views start mid (writes mid))
      (cursorOf views start before t) = some (value, after)
  wrote : kind c = .writes → ∀ v, value = .ok v → ⟨t, id, c⟩ ∈ writes y.log

variable (build views start) in
/-- The rest `p` of a call, with its cursor at `pos`, makes what the whole call makes. -/
def RestOf (before : List (ViewEvent T)) (t : T) (c : ViewCall) (p : SegProg (PyResult PyValue))
    (pos : BitVec 64) : Prop :=
  ∀ data value after, Outcome (views t).id p data pos value after →
    Outcome (views t).id (viewCode build (views t) c) data
      (cursorOf views start before t) value after

theorem wp_readSection (apart : Function.Injective fun t => (views t).id) {body : SegProg α}
    {f : α → PyResult PyValue} (straight : body.Straight (Touches (views t).id .reading))
    (which : kind c ≠ .writes) (commit : (snapshotProtocol build views start).Commit t w now)
    (here : At before t .out now)
    (rest : kind c ≠ .other → RestOf build views start before t c (readSection body f)
      (now.mem.cursors (views t).id)) :
    (snapshotProtocol build views start).wp (snapshotSystem build views) t id c (readSection body f)
      (Ended build views start before t id c) w now := by
  refine wp_readLock apart commit here _ rfl ?_
  intro x y mid entered here since mid_early cursor data
  rw [Protocol.wp_bind]
  refine Protocol.wp_mono ?_ (wp_body apart (by decide) straight entered
    ⟨here.phase, mid_early⟩ rfl)
  rintro a x' y' ⟨done, ⟨inside, _⟩, after, ran, _⟩
  refine ⟨done, ?_⟩
  intro w' env _ r mem does
  have left : At mid t .out ⟨mem, w'.log ++ [.access t id c (.fetchSub 1) r]⟩ :=
    (inside.env env).access rfl
  refine ⟨commit_quiet apart env.inv does trivial id, ⟨left.phase, since.trans left.since⟩, ?_,
    fun writes => absurd writes which⟩
  intro reads
  have outcome := outcome_readSection (f := f) straight ran
  rw [cursor, data] at outcome
  obtain ⟨last, ran_alone, _⟩ := outcome_alone (rest (by simp [reads]) _ _ _ outcome)
  exact ⟨mid, since, left.since, last, ran_alone⟩

theorem wp_writeSection (apart : Function.Injective fun t => (views t).id) {body : SegProg α}
    {f : α → PyResult PyValue} (straight : body.Straight (Touches (views t).id .writing))
    (which : kind c = .writes) (commit : (snapshotProtocol build views start).Commit t w now)
    (here : At before t .out now) (began : before.length = id)
    (rest : RestOf build views start before t c (writeSection body f)
      (now.mem.cursors (views t).id)) :
    (snapshotProtocol build views start).wp (snapshotSystem build views) t id c
      (writeSection body f)
      (Ended build views start before t id c) w now := by
  refine wp_writeLock apart commit here _ rfl ?_
  intro x y mid entered here since begun cursor data order
  rw [Protocol.wp_bind]
  refine Protocol.wp_mono ?_ (wp_body apart (by decide) straight entered
    ⟨here.phase, List.prefix_refl y.log⟩ order)
  rintro a x' y' ⟨done, ⟨inside, order⟩, after, ran, agree⟩
  refine ⟨done, ?_⟩
  intro w' env _ r mem does
  obtain ⟨rfl, rfl⟩ := exec_eq does
  obtain ⟨bytes, still⟩ := env.rely.data (by simp [inside.phase])
  have left : At y.log t .out
      ⟨(SegMem.exec (.storeState 0) w'.mem).2, w'.log ++ [.access t id c (.storeState 0) ()]⟩ :=
    (inside.env env).access rfl
  have order' : writes (w'.log ++ [.access t id c (.storeState 0) ()]) =
      writes mid ++ [⟨t, id, c⟩] := (writes_access rfl).trans (still.trans order)
  -- what the section did is the write, applied after the writes before it
  have outcome := outcome_writeSection (f := f) straight ran
  rw [cursor, data] at outcome
  obtain ⟨last, ran_alone, made⟩ := outcome_alone (rest _ _ _ outcome)
  have applies : applied build views start (w'.log ++ [.access t id c (.storeState 0) ()])
      (serially build views start mid (writes mid)) ⟨t, id, c⟩ = w'.mem.bytes := by
    have origin := List.prefix_iff_eq_take.mp (here.since.trans left.since)
    rw [began] at origin
    simp only [applied, ← origin, ran_alone]
    rw [made, (share_eq.mp agree).1, bytes]
  have settled : Settled build views start
      ⟨(SegMem.exec (.storeState 0) w'.mem).2, w'.log ++ [.access t id c (.storeState 0) ()]⟩ := by
    intro _
    obtain ⟨more, grown⟩ := since.trans left.since
    dsimp only at grown
    have before_it : serially build views start (w'.log ++ [.access t id c (.storeState 0) ()])
        (writes mid) = serially build views start mid (writes mid) := by
      rw [← grown]
      exact serially_append begun fun _ member => member
    rw [order', serially_snoc, before_it, applies]
    rfl
  refine ⟨commit_access apart trivial env.inv fun _ => settled,
    ⟨left.phase, here.since.trans left.since⟩, by simp [which], ?_⟩
  intro _ v _
  rw [order']
  simp

/-- Every call, from where its own accesses have brought its cursor. -/
theorem guarded_wp (apart : Function.Injective fun t => (views t).id)
    {p : SegProg (PyResult PyValue)} (shape : Guarded (views t).id (kind c) p)
    (began : before.length = id) (commit : (snapshotProtocol build views start).Commit t w now)
    (here : At before t .out now)
    (rest : kind c ≠ .other → RestOf build views start before t c p
      (now.mem.cursors (views t).id)) :
    (snapshotProtocol build views start).wp (snapshotSystem build views) t id c p
      (Ended build views start before t id c) w now := by
  induction shape generalizing w now with
  | done value early =>
      refine ⟨commit, here, ?_, ?_⟩
      · intro reads
        obtain ⟨last, ran_alone, _⟩ :=
          outcome_alone (rest (by simp [reads]) _ _ _ (outcome_ret value))
        exact ⟨now.log, here.since, List.prefix_refl _, last, ran_alone⟩
      · rintro writes v rfl
        obtain ⟨e, other⟩ := early writes
        cases other
  | cursor o next own later ih =>
      refine Protocol.wp_op commit ?_
      intro w' env _ r mem does
      obtain ⟨quiet, stays, _⟩ := touches_quiet (t := t) (c := c) (r := r) own
      refine ih r (commit_quiet apart env.inv does quiet id) ((here.env env).access stays) ?_
      intro which data value after outcome
      obtain ⟨rfl, rfl⟩ := exec_eq does
      exact rest which data value after (outcome_op own env.rely.cursor outcome)
  | asks next which later ih =>
      refine Protocol.wp_op commit ?_
      intro w' env _ r mem does
      exact ih r (commit_quiet apart env.inv does trivial id) ((here.env env).access rfl)
        fun other => absurd which other
  | reading body f inside which => exact wp_readSection apart inside which commit here rest
  | writing body f inside which =>
      exact wp_writeSection apart inside which commit here began (rest (by simp [which]))

end Sections

section Calls

omit [Fintype T] in
/-- The start and the return of a call are no accesses. -/
theorem settled_push {e : ViewEvent T} (begun : Recorded Begun w.log)
    (still : phases (w.log ++ [e]) = phases w.log) (order : writes (w.log ++ [e]) = writes w.log)
    (settled : Settled build views start w) : Settled build views start (w.push e) := by
  intro nobody
  rw [World.push_log, order, serially_append begun fun _ member => member]
  apply settled
  rwa [World.push_log, still] at nobody

omit [Target] in
theorem known_pop {value : PyResult PyValue}
    (known : SnapshotKnown start (w.push (.finish t id c value))) : SnapshotKnown start w := by
  refine ⟨⟨?_, (recorded_snoc.mp known.excluded.orderly).1⟩, ?_, (recorded_snoc.mp known.begun).1⟩
  · have encodes := known.excluded.encodes
    rwa [World.push_log, phases_finish] at encodes
  · have replayed := known.replayed
    rwa [World.push_log, replay_snoc] at replayed

theorem ended_finish {before : List (ViewEvent T)} {value : PyResult PyValue}
    (began : before.length = id) (ended : Ended build views start before t id c value w now) :
    (snapshotProtocol build views start).Finish t id c value w now := by
  have outside : phases (now.push (.finish t id c value)).log t = .out := by
    rw [World.push_log, phases_finish]
    exact ended.here.phase
  refine ⟨?_, fun _ => outside⟩
  intro known
  obtain ⟨inv, relied⟩ := ended.commit (known_pop known)
  have origin := List.prefix_iff_eq_take.mp ended.here.since
  rw [began] at origin
  refine ⟨⟨?_, recorded_snoc.mpr ⟨inv.answered, ?_, ended.wrote⟩⟩, ?_⟩
  · exact settled_push (known_pop known).begun phases_finish writes_finish inv.settled
  · rw [← origin]
    exact ended.read
  · intro u other
    obtain ⟨cursor, phase, data⟩ := relied u other
    refine ⟨cursor, ?_, ?_⟩
    · rw [World.push_log, phases_finish]
      exact phase
    · intro inside
      rw [World.push_log, writes_finish]
      exact data inside

theorem snapshot_used (few : Fintype.card T < 2 ^ 31) :
    LockUsed (fun _ => False) (snapshotSystem build views) where
  few := few
  sem _ _ _ _ _ _ := Iff.rfl
  code t c may := by
    have follows := viewCode_follows (n := Fintype.card T) build (views t) c
    rwa [show isMap c = false from may, Bool.false_eq_true] at follows
  init _ _ _ _ := False.elim

theorem snapshot_sound (few : Fintype.card T < 2 ^ 31)
    (apart : Function.Injective fun t => (views t).id) (unlocked : start.state = 0) :
    (snapshotProtocol build views start).Sound (snapshotSystem build views) start where
  known _ reach :=
    ⟨excluded (snapshot_used few) unlocked reach,
      reach.replayed fun _ _ _ _ _ _ does => (exec_eq does).2, reach.begun.1⟩
  init := ⟨fun _ => rfl, recorded_nil⟩
  idle _ := rfl
  call t c w may inv known idle := by
    have begun : (snapshotProtocol build views start).Commit t w
        (w.push (.invoke t w.log.length c)) := by
      intro _
      refine ⟨⟨?_, recorded_snoc.mpr ⟨inv.answered, trivial⟩⟩, ?_⟩
      · exact settled_push known.begun phases_invoke writes_invoke inv.settled
      · intro u other
        refine ⟨rfl, ?_, fun _ => ⟨rfl, ?_⟩⟩
        · rw [World.push_log, phases_invoke]
        · rw [World.push_log, writes_invoke]
    have outside : At w.log t .out (w.push (.invoke t w.log.length c)) := by
      refine ⟨?_, List.prefix_append _ _⟩
      rw [World.push_log, phases_invoke]
      exact idle
    refine Protocol.wp_mono (fun value x y => ended_finish rfl)
      (guarded_wp apart (viewCode_guarded build may) rfl begun outside ?_)
    intro _ data value after outcome
    have cursor : cursorOf views start w.log t = w.mem.cursors (views t).id := by
      rw [cursorOf, ← known.replayed]
    rwa [cursor]

end Calls

section Runs
variable {build : Build} {views : T → MappedView} {start : SegMem} {log : List (ViewEvent T)}

omit [Target] [Fintype T] [DecidableEq T] in
theorem writes_early {a b : List (ViewEvent T)} (early : a <+: b) : writes a <+: writes b := by
  obtain ⟨more, rfl⟩ := early
  rw [writes_append]
  exact List.prefix_append _ _

omit [Fintype T] [DecidableEq T] in
/-- What was answered at some instant, in terms of the whole run. -/
theorem answered_serially (begun : Recorded Begun log)
    (answered : Recorded (Answered build views start) log) {pre post : List (ViewEvent T)} {t : T}
    {id : Nat} {c : ViewCall} {value : PyResult PyValue} (reads : kind c = .reads)
    (cut : log = pre ++ .finish t id c value :: post) :
    ∃ before during k, pre = before ++ .invoke t id c :: during ∧
      (∀ u i d v, kind d = .writes → .finish u i d (.ok v) ∈ before →
        ⟨u, i, d⟩ ∈ (writes log).take k) ∧
      (∀ w ∈ (writes log).take k, .invoke w.thread w.id w.call ∈ pre) ∧
      ∃ after, alone build (views t) c (serially build views start log ((writes log).take k))
        (cursorOf views start before t) = some (value, after) := by
  obtain ⟨mid, early, late, after, ran⟩ := (answered pre _ post cut).1 reads
  have pre_early : pre <+: log := ⟨_, cut.symm⟩
  have begun_mid := recorded_early begun (late.trans pre_early)
  have start_at : pre[id]? = some (.invoke t id c) := begun pre _ post cut
  have taken : (writes log).take (writes mid).length = writes mid :=
    (List.prefix_iff_eq_take.mp (writes_early (late.trans pre_early))).symm
  refine ⟨pre.take id, pre.drop (id + 1), (writes mid).length, ?_, ?_, ?_, after, ?_⟩
  · obtain ⟨within, at_id⟩ := List.getElem?_eq_some_iff.mp start_at
    rw [← at_id, List.getElem_cons_drop, List.take_append_drop]
  · intro u i d v wrote member
    obtain ⟨a, b, split⟩ := List.append_of_mem member
    have a_early : a <+: pre.take id := ⟨_, split.symm⟩
    obtain ⟨more, whole⟩ := (List.take_prefix id pre).trans pre_early
    rw [taken]
    apply (writes_early (a_early.trans early)).subset
    refine (answered a (.finish u i d (.ok v)) (b ++ more) ?_).2 wrote v rfl
    rw [← whole, split]
    simp
  · intro w member
    rw [taken] at member
    have found := writes_begun begun_mid member
    exact late.subset (List.mem_of_getElem? found)
  · obtain ⟨more, whole⟩ := late.trans pre_early
    rw [taken, ← whole, serially_append begun_mid fun _ member => member]
    exact ran

omit [Target] [Fintype T] [DecidableEq T]

/-- Views of one byte of data, each with its own cursor. -/
theorem five_large : rwlockSize < 5 := by decide

def smallViews (t : Fin 2) : MappedView := ⟨t, 5, five_large⟩

/-- The reader finds the lock free, loses the race to the writer, and reads after it. -/
def readAfterRace : List (Interleaving.Choice (Fin 2) ViewCall) :=
  [[.call thread1 .readAll], turns thread1 1, [.call thread0 (.write (.bool true) (some 0))],
    turns thread0 1, turns thread1 1, turns thread0 2, turns thread1 4].flatten

end Runs
end Protocol
end Membridge.Snapshot
