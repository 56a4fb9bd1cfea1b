import Membridge.Exclusion

/-!
Participants that take and drop guards: a read guard around loads of the data
area, a write guard around stores, and the two questions about the lock. Any
number of them below 2^31 run at once.
-/
namespace Membridge.Guards
open Program Interleaving RelyGuarantee Typestate Python Occupancy Segment RwLock Exclusion

inductive GuardCall where
  | reading (offsets : List Nat)
  | writing (stores : List (Nat × UInt8))
  | readerCount
  | isWriteLocked

def loads : List Nat → SegM PyValue
  | [] => return .none
  | offset :: rest => do
      let _ ← Prog.access (SegOp.readByte offset)
      loads rest

def stores : List (Nat × UInt8) → SegM PyValue
  | [] => return .none
  | (offset, byte) :: rest => do
      Prog.access (SegOp.writeByte offset byte)
      stores rest

def guardCode : GuardCall → SegProg (PyResult PyValue)
  | .reading offsets => (withReadGuard (loads offsets)).run
  | .writing list => (withWriteGuard (stores list)).run
  | .readerCount => do return .ok (.int (← RwLock.readerCount).toInt)
  | .isWriteLocked => do return .ok (.bool (← RwLock.isWriteLocked))

section Discipline
variable {n : Nat} {inits : Prop}

theorem loads_stay (offsets : List Nat) :
    (lockDiscipline n inits).Stays .reading (loads offsets) := by
  induction offsets with
  | nil => rfl
  | cons offset rest ih =>
      apply Discipline.stays_bind
      · exact Discipline.stays_access (by simp [lockDiscipline, Admitted]) fun _ _ => rfl
      · exact fun _ => ih

theorem stores_stay (list : List (Nat × UInt8)) :
    (lockDiscipline n inits).Stays .writing (stores list) := by
  induction list with
  | nil => rfl
  | cons store rest ih =>
      apply Discipline.stays_bind
      · exact Discipline.stays_access rfl fun _ _ => rfl
      · exact fun _ => ih

theorem guardCode_follows (c : GuardCall) :
    (lockDiscipline n inits).Follows .out (guardCode c) fun _ ph => ph = .out := by
  cases c with
  | reading offsets => exact stays_readGuard (loads_stay offsets)
  | writing list => exact stays_writeGuard (stores_stay list)
  | readerCount => exact ⟨trivial, fun _ _ => rfl⟩
  | isWriteLocked => exact ⟨trivial, fun _ _ => rfl⟩

end Discipline

section Runs
variable {T : Type} [DecidableEq T]

def guardSystem (T : Type) : SegSystem T GuardCall (PyResult PyValue) where
  code _ := guardCode
  sem _ _ m o r after := SegMem.exec o m = (r, after)
  allowed _ _ := True
  enabled _ _ _ _ := True

instance (t : T) (c : GuardCall) : Decidable ((guardSystem T).allowed t c) :=
  inferInstanceAs (Decidable True)

instance (w : SegWorld T GuardCall (PyResult PyValue)) (t : T) (c : GuardCall) (o : SegOp) :
    Decidable ((guardSystem T).enabled w t c o) := inferInstanceAs (Decidable True)

theorem guardSystem_used [Fintype T] (few : Fintype.card T < 2 ^ 31) :
    LockUsed (fun _ => False) (guardSystem T) where
  few := few
  sem _ _ _ _ _ _ := Iff.rfl
  code _ c _ := guardCode_follows c
  init _ _ _ _ := False.elim

/-- A question is answered from one load of the word, its last access. -/
def Reported (pre : List (SegEvent T GuardCall (PyResult PyValue))) :
    SegEvent T GuardCall (PyResult PyValue) → Prop
  | .finish t id .readerCount value => ∃ seen v,
      pre = seen ++ [.access t id .readerCount .loadState v] ∧
      value = .ok (.int (if 0 < v.toInt then v else 0).toInt)
  | .finish t id .isWriteLocked value => ∃ seen v,
      pre = seen ++ [.access t id .isWriteLocked .loadState v] ∧ value = .ok (.bool (v = -1))
  | _ => True

def reportProtocol (T : Type) : Protocol T GuardCall (PyResult PyValue) SegOp SegOp.Res SegMem where
  Known _ := True
  Inv w := Recorded Reported w.log
  Rely _ _ _ := True
  Idle _ _ := True
  rely_refl _ _ := trivial
  rely_trans _ _ _ _ _ _ := trivial
  idle_stable _ _ _ _ _ _ _ _ _ := trivial

omit [DecidableEq T] in
theorem report_step {w : SegWorld T GuardCall (PyResult PyValue)} {t : T} {id : Nat} {c : GuardCall}
    {o : SegOp} {r : o.Res} {mem : SegMem} (inv : (reportProtocol T).Inv w) :
    (reportProtocol T).Commit t w ⟨mem, w.log ++ [.access t id c o r]⟩ :=
  fun _ => ⟨recorded_snoc.mpr ⟨inv, trivial⟩, fun _ _ => trivial⟩

omit [DecidableEq T] in
theorem report_finish {w now : SegWorld T GuardCall (PyResult PyValue)} {t : T} {id : Nat}
    {c : GuardCall} {value : PyResult PyValue} (inv : Recorded Reported now.log)
    (told : Reported now.log (.finish t id c value)) :
    (reportProtocol T).Finish t id c value w now :=
  ⟨fun _ => ⟨recorded_snoc.mpr ⟨inv, told⟩, fun _ _ => trivial⟩, fun _ => trivial⟩

theorem report_sound (mem : SegMem) : (reportProtocol T).Sound (guardSystem T) mem where
  known _ _ := trivial
  init := recorded_nil
  idle _ := trivial
  call t c w _ inv _ _ := by
    have begun : (reportProtocol T).Commit t w (w.push (.invoke t w.log.length c)) :=
      fun _ => ⟨recorded_snoc.mpr ⟨inv, trivial⟩, fun _ _ => trivial⟩
    have fits : Discipline.anything.Fits (reportProtocol T) (guardSystem T) (fun _ _ => ()) c :=
      ⟨fun _ _ _ _ => rfl, fun _ _ _ _ _ _ inv _ _ _ _ => ⟨trivial, rfl, report_step inv⟩⟩
    have silent : (∀ pre value, Reported pre (.finish t w.log.length c value)) →
        (reportProtocol T).wp (guardSystem T) t w.log.length c (guardCode c)
          ((reportProtocol T).Finish t w.log.length c) w (w.push (.invoke t w.log.length c)) := by
      intro trivially
      refine Protocol.wp_mono ?_
        (Discipline.follows_wp fits (Discipline.anything_follows _) rfl begun)
      rintro value x y ⟨_, commit⟩
      exact report_finish (commit trivial).1 (trivially _ value)
    cases c with
    | reading offsets => exact silent fun _ _ => trivial
    | writing list => exact silent fun _ _ => trivial
    | readerCount =>
        refine Protocol.wp_op begun ?_
        intro w' env _ v mem _
        exact report_finish (report_step env.inv trivial).1 ⟨w'.log, v, rfl, rfl⟩
    | isWriteLocked =>
        refine Protocol.wp_op begun ?_
        intro w' env _ v mem _
        exact report_finish (report_step env.inv trivial).1 ⟨w'.log, v, rfl, rfl⟩

/-- Two readers inside while a writer tries, a count of two, and then the writer alone. -/
def readersThenWriter : List (Interleaving.Choice (Fin 4) GuardCall) :=
  [[.call 0 (.reading [4]), .call 1 (.reading [5]), .call 2 (.writing [(4, 7)])],
    turns 0 2, turns 1 2, turns 2 1, [.call 3 .readerCount], turns 3 1,
    turns 0 2, turns 1 2, turns 2 1].flatten

end Runs
end Membridge.Guards
