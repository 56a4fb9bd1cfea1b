import Mathlib.Algebra.Ring.Nat
import Membridge.Occupancy
import Membridge.RwLock
import Membridge.Typestate

/-!
The lock of `src/rwlock.rs` among many threads. Where a thread stands, outside,
reading or writing, is told by its exchanges and releases; the lock word counts
the threads inside as long as every program keeps to the discipline below. The
guards do, whatever their scope does with the data.
-/
namespace Membridge.Exclusion
open Program Interleaving RelyGuarantee Typestate Occupancy Segment RwLock

section Rules

/-- Where an access leaves its thread. -/
def entered (ph : Phase) : (o : SegOp) → o.Res → Phase
  | .compareExchange _ new, exchanged =>
      if exchanged then (if new = -1 then .writing else .reading) else ph
  | .fetchSub _, _ => .out
  | .storeState _, _ => if ph = .writing then .out else ph
  | _, _ => ph

/-- What a thread may do where it stands, among `n` threads. With `inits`, a store from
outside is one of `init`. -/
def Admitted (n : Nat) (inits : Prop) (ph : Phase) : SegOp → Prop
  | .compareExchange cur new =>
      ph = .out ∧ (cur = 0 ∧ new = -1 ∨ 0 ≤ cur.toInt ∧ cur.toInt + 1 ≤ n ∧ new = cur + 1)
  | .fetchSub k => k = 1 ∧ ph = .reading
  | .storeState v => v = 0 ∧ (ph = .writing ∨ ph = .out ∧ inits)
  | .readByte _ => ph ≠ .out
  | .writeByte _ _ => ph = .writing
  | _ => True

/-- From outside, the count of the others leaves room for one more. -/
def Seen (n : Nat) (ph : Phase) : (o : SegOp) → o.Res → Prop
  | .loadState, v => ph = .out → v.toInt + 1 ≤ n
  | _, _ => True

def lockDiscipline (n : Nat) (inits : Prop) : Discipline SegOp SegOp.Res Phase where
  enter := entered
  may := Admitted n inits
  sees := Seen n

variable {n : Nat} {inits : Prop} {α : Type}

/-- A count that grows by one does not become the mark of a writer. -/
theorem entered_reading {cur : BitVec 32} (ph : Phase) (shared : 0 ≤ cur.toInt) :
    entered ph (.compareExchange cur (cur + 1)) true = .reading := by
  have other : cur + 1 ≠ -1 := by
    intro same
    have negative : cur = -2 := by grind
    rw [negative] at shared
    exact absurd shared (by decide)
  exact if_neg other

theorem readLock_follows :
    (lockDiscipline n inits).Follows .out readLock fun _ ph => ph = .reading := by
  refine ⟨trivial, ?_⟩
  intro cur room
  by_cases shared : 0 ≤ cur.toInt
  · have admitted : Admitted n inits .out (.compareExchange cur (cur + 1)) :=
      ⟨rfl, .inr ⟨shared, room rfl, rfl⟩⟩
    simp only [if_pos shared, Prog.perform]
    refine ⟨admitted, ?_⟩
    intro exchanged _
    cases exchanged with
    | true => exact entered_reading .out shared
    | false => rfl
  · simp only [if_neg shared]
    rfl

theorem writeLock_follows :
    (lockDiscipline n inits).Follows .out writeLock fun _ ph => ph = .writing := by
  refine ⟨⟨rfl, .inl ⟨rfl, rfl⟩⟩, ?_⟩
  intro exchanged _
  cases exchanged with
  | true => rfl
  | false => rfl

theorem stays_readGuard {body : SegM α} (inside : (lockDiscipline n inits).Stays .reading body) :
    (lockDiscipline n inits).Stays .out (withReadGuard body) := by
  change Discipline.Follows _ _ (readLock.bind fun _ => body.run.bind _) _
  rw [Discipline.follows_bind]
  apply Discipline.follows_mono ?_ readLock_follows
  rintro _ ph rfl
  rw [Discipline.follows_bind]
  apply Discipline.follows_mono ?_ inside
  rintro r ph rfl
  exact ⟨⟨rfl, rfl⟩, fun _ _ => rfl⟩

theorem stays_writeGuard {body : SegM α} (inside : (lockDiscipline n inits).Stays .writing body) :
    (lockDiscipline n inits).Stays .out (withWriteGuard body) := by
  change Discipline.Follows _ _ (writeLock.bind fun _ => body.run.bind _) _
  rw [Discipline.follows_bind]
  apply Discipline.follows_mono ?_ writeLock_follows
  rintro _ ph rfl
  rw [Discipline.follows_bind]
  apply Discipline.follows_mono ?_ inside
  rintro r ph rfl
  exact ⟨⟨rfl, .inl rfl⟩, fun _ _ => rfl⟩

theorem readerCount_follows :
    (lockDiscipline n inits).Follows .out readerCount fun _ ph => ph = .out :=
  ⟨trivial, fun _ _ => rfl⟩

theorem isWriteLocked_follows :
    (lockDiscipline n inits).Follows .out isWriteLocked fun _ ph => ph = .out :=
  ⟨trivial, fun _ _ => rfl⟩

end Rules

section Word
variable {T : Type} [Fintype T] [DecidableEq T] {ph : T → Phase} {t : T}

theorem toInt_zero_iff {x : BitVec 32} : x.toInt = 0 ↔ x = 0 := by
  constructor
  · intro zero
    exact BitVec.eq_of_toInt_eq (by simpa using zero)
  · rintro rfl
    rfl

theorem toInt_minus_iff {x : BitVec 32} : x.toInt = -1 ↔ x = -1 := by
  constructor
  · intro minus
    exact BitVec.eq_of_toInt_eq minus
  · rintro rfl
    rfl

theorem toInt_add_one {x : BitVec 32} (nonneg : 0 ≤ x.toInt) (room : x.toInt + 1 < 2 ^ 31) :
    (x + 1).toInt = x.toInt + 1 := by
  rw [BitVec.toInt_add]
  exact Int.bmod_eq_of_le (by simp; omega) (by simp; omega)

theorem toInt_sub_one {x : BitVec 32} (positive : 0 < x.toInt) :
    (x - 1).toInt = x.toInt - 1 := by
  have small := BitVec.toInt_lt (x := x)
  rw [BitVec.toInt_sub]
  exact Int.bmod_eq_of_le (by simp; omega) (by simp; omega)

/-- One access of a thread where it stands keeps the word true, and from outside there is
room for one more. -/
theorem encodes_step {m : SegMem} {inits : Prop} {o : SegOp} (few : Fintype.card T < 2 ^ 31)
    (encodes : Encodes ph m.state.toInt) (admitted : Admitted (Fintype.card T) inits (ph t) o)
    (quiet : ∀ v, o = .storeState v → ph t = .out → m.state = 0) :
    Seen (Fintype.card T) (ph t) o (SegMem.exec o m).1 ∧
      Encodes (Function.update ph t (entered (ph t) o (SegMem.exec o m).1))
        (SegMem.exec o m).2.state.toInt := by
  cases o with
  | loadState => exact ⟨encodes.room, by simpa [entered, SegMem.exec] using encodes⟩
  | compareExchange cur new =>
      refine ⟨trivial, ?_⟩
      obtain ⟨outside, exchange⟩ := admitted
      by_cases same : m.state = cur
      · subst same
        -- an exchange that takes place is a writer's or a reader's entry
        rcases exchange with ⟨free, rfl⟩ | ⟨shared, room, rfl⟩
        · have empty : Encodes ph 0 := by
            rw [free] at encodes
            exact encodes
          simpa [SegMem.exec, entered] using empty.enter_writing (t := t)
        · have grown := encodes.enter_reading outside shared
          rw [← toInt_add_one shared (by omega), ← entered_reading (ph t) shared] at grown
          simpa only [SegMem.exec, if_pos] using grown
      · simpa [SegMem.exec, entered, same] using encodes
  | fetchSub k =>
      refine ⟨trivial, ?_⟩
      obtain ⟨rfl, inside⟩ := admitted
      have left := encodes.leave_reading inside
      -- a reader is inside, so the word counts at least one
      have positive : 0 < m.state.toInt := by
        cases encodes with
        | shared noWriter count =>
            have positive := readers_pos inside
            omega
        | exclusive u only rest mark =>
            by_cases same : t = u
            · rw [same, only] at inside
              cases inside
            · rw [rest t same] at inside
              cases inside
      rw [← toInt_sub_one positive] at left
      exact left
  | storeState v =>
      refine ⟨trivial, ?_⟩
      obtain ⟨rfl, inside | ⟨outside, _⟩⟩ := admitted
      · simpa [SegMem.exec, entered, inside] using encodes.leave_writing inside
      -- a store outside is that of a map, which finds zero
      · have zero : m.state = 0 := quiet _ rfl outside
        rw [zero] at encodes
        have stays : Function.update ph t .out = ph := by
          rw [← outside, Function.update_eq_self]
        simpa [SegMem.exec, entered, outside, stays] using encodes
  | readByte offset => exact ⟨trivial, by simpa [entered, SegMem.exec] using encodes⟩
  | writeByte offset byte => exact ⟨trivial, by simpa [entered, SegMem.exec] using encodes⟩
  | loadCursor view => exact ⟨trivial, by simpa [entered, SegMem.exec] using encodes⟩
  | storeCursor view pos => exact ⟨trivial, by simpa [entered, SegMem.exec] using encodes⟩
  | fetchAddCursor view k => exact ⟨trivial, by simpa [entered, SegMem.exec] using encodes⟩

end Word

section Runs
variable {T Call Ret : Type} [DecidableEq T]

abbrev SegEvent (T Call Ret : Type) := Event T Call Ret SegOp SegOp.Res

abbrev SegWorld (T Call Ret : Type) := World T Call Ret SegOp SegOp.Res SegMem

abbrev SegSystem (T Call Ret : Type) := System T Call Ret SegOp SegOp.Res SegMem

abbrev SegConfig (T Call Ret : Type) := Config T Call Ret SegOp SegOp.Res SegMem

def follow (t : T) (ph : Phase) : SegEvent T Call Ret → Phase
  | .access u _ _ o r => if u = t then entered ph o r else ph
  | _ => ph

/-- Where each thread stands after a run. -/
def phases (log : List (SegEvent T Call Ret)) (t : T) : Phase := log.foldl (follow t) .out

variable {log : List (SegEvent T Call Ret)} {t : T} {id : Nat} {c : Call} {inits : Call → Prop}

@[simp] theorem phases_nil : phases ([] : List (SegEvent T Call Ret)) = fun _ => .out := rfl

@[simp] theorem phases_invoke : phases (log ++ [.invoke t id c]) = phases log := by
  funext u
  simp [phases, follow]

@[simp] theorem phases_finish {value : Ret} :
    phases (log ++ [.finish t id c value]) = phases log := by
  funext u
  simp [phases, follow]

theorem phases_access {o : SegOp} {r : o.Res} :
    phases (log ++ [.access t id c o r]) =
      Function.update (phases log) t (entered (phases log t) o r) := by
  funext u
  by_cases same : u = t
  · subst same
    simp [phases, follow]
  · simp [phases, follow, same, Ne.symm same]

/-- Nobody else moves a thread. -/
theorem phases_others {a b : SegWorld T Call Ret} (far : Others t a b) :
    phases b.log t = phases a.log t := by
  obtain ⟨more, grown, far⟩ := far
  rw [grown]
  unfold phases
  rw [List.foldl_append]
  generalize a.log.foldl (follow t) .out = ph
  clear grown
  induction more generalizing ph with
  | nil => rfl
  | cons e rest ih =>
      have skip : follow t ph e = ph := by
        have other := far e List.mem_cons_self
        cases e with
        | invoke u _ _ => rfl
        | finish u _ _ _ => rfl
        | access u _ _ o r => exact if_neg other
      rw [List.foldl_cons, skip]
      exact ih (fun x member => far x (List.mem_cons_of_mem e member)) ph

variable [Fintype T]

/-- What the word told at the time. -/
def Told (pre : List (SegEvent T Call Ret)) : (o : SegOp) → o.Res → Prop
  | .loadState, v => Encodes (phases pre) v.toInt
  | _, _ => True

/-- Every event is in order: accesses are admitted, and calls begin and end outside. -/
def Orderly (inits : Call → Prop) (pre : List (SegEvent T Call Ret)) : SegEvent T Call Ret → Prop
  | .invoke t _ _ => phases pre t = .out
  | .access t _ c o r => Admitted (Fintype.card T) (inits c) (phases pre t) o ∧ Told pre o r
  | .finish t _ _ _ => phases pre t = .out

structure Excluded (inits : Call → Prop) (world : SegWorld T Call Ret) : Prop where
  encodes : Encodes (phases world.log) world.mem.state.toInt
  orderly : Recorded (Orderly inits) world.log

section Facts
variable {world : SegWorld T Call Ret} {pre post : List (SegEvent T Call Ret)}

theorem Excluded.admitted {o : SegOp} {r : o.Res} (now : Excluded inits world)
    (cut : world.log = pre ++ .access t id c o r :: post) :
    Admitted (Fintype.card T) (inits c) (phases pre t) o := (now.orderly pre _ post cut).1

theorem Excluded.told {v : BitVec 32} (now : Excluded inits world)
    (cut : world.log = pre ++ .access t id c .loadState v :: post) :
    Encodes (phases pre) v.toInt := (now.orderly pre _ post cut).2

end Facts

/-- What the exclusion rests on: fewer threads than the word can count, calls that keep to
the discipline, and no `init` while the lock is in use. -/
structure LockUsed (inits : Call → Prop) (sys : SegSystem T Call Ret) : Prop where
  few : Fintype.card T < 2 ^ 31
  sem : ∀ t c m o r after, sys.sem t c m o r after ↔ SegMem.exec o m = (r, after)
  code : ∀ t c, sys.allowed t c →
    (lockDiscipline (Fintype.card T) (inits c)).Follows .out (sys.code t c) fun _ ph => ph = .out
  init : ∀ world t c v, inits c → sys.enabled world t c (.storeState v) →
    phases world.log t = .out → world.mem.state = 0

def exclusionProtocol (inits : Call → Prop) : Protocol T Call Ret SegOp SegOp.Res SegMem where
  Known _ := True
  Inv := Excluded inits
  Rely _ _ _ := True
  Idle t w := phases w.log t = .out
  rely_refl _ _ := trivial
  rely_trans _ _ _ _ _ _ := trivial
  idle_stable _ _ _ _ idle _ _ _ far := (phases_others far).trans idle

variable {sys : SegSystem T Call Ret}

theorem excluded_step (used : LockUsed inits sys) {w : SegWorld T Call Ret} {o : SegOp} {r : o.Res}
    {mem : SegMem} (inv : Excluded inits w)
    (admitted : Admitted (Fintype.card T) (inits c) (phases w.log t) o)
    (enabled : sys.enabled w t c o) (does : sys.sem t c w.mem o r mem) :
    Seen (Fintype.card T) (phases w.log t) o r ∧
      Excluded inits ⟨mem, w.log ++ [.access t id c o r]⟩ := by
  obtain ⟨rfl, rfl⟩ := exec_eq ((used.sem t c w.mem o r mem).mp does)
  have quiet : ∀ v, o = .storeState v → phases w.log t = .out → w.mem.state = 0 := by
    rintro v rfl outside
    rcases admitted.2 with inside | ⟨_, allowed⟩
    · rw [outside] at inside
      cases inside
    · exact used.init w t c v allowed enabled outside
  obtain ⟨seen, encodes⟩ := encodes_step used.few inv.encodes admitted quiet
  refine ⟨seen, ?_, ?_⟩
  · rw [phases_access]
    exact encodes
  · have told : Told w.log o (SegMem.exec o w.mem).1 := by
      cases o with
      | loadState => exact inv.encodes
      | _ => trivial
    exact recorded_snoc.mpr ⟨inv.orderly, admitted, told⟩

theorem lock_fits (used : LockUsed inits sys) :
    (lockDiscipline (Fintype.card T) (inits c)).Fits (exclusionProtocol inits) sys phases c where
  others _ _ _ far := phases_others far
  step t id w o r mem inv _ admitted enabled does := by
    have step : Seen (Fintype.card T) (phases w.log t) o r ∧
        Excluded inits ⟨mem, w.log ++ [.access t id c o r]⟩ :=
      excluded_step used inv admitted enabled does
    obtain ⟨seen, kept⟩ := step
    refine ⟨seen, ?_, ?_⟩
    · rw [phases_access, Function.update_self]
      rfl
    · exact fun _ => ⟨kept, fun _ _ => trivial⟩

theorem exclusion_sound (used : LockUsed inits sys) {mem : SegMem} (unlocked : mem.state = 0) :
    (exclusionProtocol inits).Sound sys mem where
  known _ _ := trivial
  init := by
    refine ⟨?_, recorded_nil⟩
    rw [phases_nil, unlocked]
    exact Encodes.empty
  idle _ := rfl
  call t c w may inv _ idle := by
    have begun : (exclusionProtocol inits).Commit t w (w.push (.invoke t w.log.length c)) := by
      refine fun _ => ⟨⟨?_, recorded_snoc.mpr ⟨inv.orderly, idle⟩⟩, fun _ _ => trivial⟩
      rw [World.push_log, phases_invoke]
      exact inv.encodes
    have outside : phases (w.push (.invoke t w.log.length c)).log t = .out := by
      rw [World.push_log, phases_invoke]
      exact idle
    refine Protocol.wp_mono ?_
      (Discipline.follows_wp (lock_fits used) (used.code t c may) outside begun)
    rintro value x y ⟨left, commit⟩
    have finished : phases (y.push (.finish t w.log.length c value)).log t = .out := by
      rw [World.push_log, phases_finish]
      exact left
    refine ⟨fun _ => ?_, fun _ => finished⟩
    have now := (commit trivial).1
    refine ⟨⟨?_, recorded_snoc.mpr ⟨now.orderly, left⟩⟩, fun _ _ => trivial⟩
    rw [World.push_log, phases_finish]
    exact now.encodes

/-- In every reachable state the word says who is inside, and all went by the rules. -/
theorem excluded (used : LockUsed inits sys) {mem : SegMem} (unlocked : mem.state = 0)
    {cfg : SegConfig T Call Ret} (reach : Reachable sys mem cfg) : Excluded inits cfg.world :=
  (exclusion_sound used unlocked).inv reach

end Runs
end Membridge.Exclusion
