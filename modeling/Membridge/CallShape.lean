import Membridge.Alone
import Membridge.Occupancy

/-!
The shape every call of a view has: accesses of its own cursor, then at most one
guarded section that does all there is to do with the data area. `Outcome` is
what a program does with a data area and a cursor when nobody else runs.
-/
namespace Membridge.CallShape
open Program Python ByteOrder ByteReader Arithmetic Mixed Occupancy Segment RwLock View Alone

inductive Kind where
  | reads
  | writes
  | other
  deriving DecidableEq

/-- Which calls only read the data area, and which write it. -/
def kind : ViewCall → Kind
  | .write _ _ => .writes
  | .writeMixed _ _ => .writes
  | .zero => .writes
  | .read _ => .reads
  | .readMixed _ _ => .reads
  | .readRange _ _ => .reads
  | .readAll => .reads
  | .seek _ => .other
  | .tell => .other
  | .readerCount => .other
  | .isWriteLocked => .other
  | .map _ _ _ => .other

section Touching

/-- The accesses of a caller that stands at `ph` to the data and to the cursor `id`. -/
def Touches (id : Nat) (ph : Phase) : SegOp → Prop
  | .readByte _ => ph ≠ .out
  | .writeByte _ _ => ph = .writing
  | .loadCursor view => view = id
  | .storeCursor view _ => view = id
  | .fetchAddCursor view _ => view = id
  | _ => False

/-- What such an access depends on. -/
def share (id : Nat) (m : SegMem) : (Nat → UInt8) × BitVec 64 := (m.bytes, m.cursors id)

variable {id : Nat} {ph : Phase}

theorem share_eq {m m' : SegMem} : share id m = share id m' ↔
    m.bytes = m'.bytes ∧ m.cursors id = m'.cursors id := Prod.mk.injEq _ _ _ _ ▸ Iff.rfl

theorem touches_same (o : SegOp) (m m' : SegMem) (own : Touches id ph o)
    (agree : share id m = share id m') :
    (SegMem.exec o m).1 = (SegMem.exec o m').1 ∧
      share id (SegMem.exec o m).2 = share id (SegMem.exec o m').2 := by
  obtain ⟨bytes, cursor⟩ := share_eq.mp agree
  cases o with
  | loadState => exact own.elim
  | compareExchange cur new => exact own.elim
  | fetchSub n => exact own.elim
  | storeState v => exact own.elim
  | readByte offset => exact ⟨congrFun bytes offset, agree⟩
  | writeByte offset byte =>
      refine ⟨rfl, share_eq.mpr ⟨?_, cursor⟩⟩
      simp [SegMem.exec, bytes]
  | loadCursor view =>
      cases own
      exact ⟨cursor, agree⟩
  | storeCursor view pos =>
      cases own
      refine ⟨rfl, share_eq.mpr ⟨bytes, ?_⟩⟩
      simp [SegMem.exec]
  | fetchAddCursor view n =>
      cases own
      refine ⟨cursor, share_eq.mpr ⟨bytes, ?_⟩⟩
      simp [SegMem.exec, cursor]

/-- Outside, only the cursor counts. -/
theorem touches_out (o : SegOp) (m m' : SegMem) (own : Touches id .out o)
    (agree : m.cursors id = m'.cursors id) :
    (SegMem.exec o m).1 = (SegMem.exec o m').1 ∧
      (SegMem.exec o m).2.cursors id = (SegMem.exec o m').2.cursors id ∧
      (SegMem.exec o m).2.bytes = m.bytes ∧ (SegMem.exec o m).2.state = m.state := by
  cases o with
  | readByte offset => exact absurd rfl own
  | writeByte offset byte => cases own
  | loadCursor view =>
      cases own
      exact ⟨agree, agree, rfl, rfl⟩
  | storeCursor view pos =>
      cases own
      exact ⟨rfl, by simp [SegMem.exec], rfl, rfl⟩
  | fetchAddCursor view n =>
      cases own
      exact ⟨agree, by simp [SegMem.exec, agree], rfl, rfl⟩
  | _ => exact own.elim

end Touching

section Outcomes
variable {id : Nat} {α β : Type}

/-- Alone on a free lock, `p` turns the data area `D` into `D'` and answers `v`. -/
def Outcome (id : Nat) (p : SegProg α) (D : Nat → UInt8) (pos : BitVec 64) (v : α)
    (D' : Nat → UInt8) : Prop :=
  ∀ m : SegMem, m.state = 0 → m.bytes = D → m.cursors id = pos →
    ∃ after, Prog.solo SegMem.exec p m = some (v, after) ∧ after.bytes = D'

variable {D D' : Nat → UInt8} {pos : BitVec 64}

theorem outcome_ret (v : α) : Outcome id (.ret v) D pos v D :=
  fun m _ bytes _ => ⟨m, rfl, bytes⟩

theorem outcome_op {o : SegOp} {next : o.Res → SegProg α} {v : α} {m : SegMem}
    (own : Touches id .out o) (at_pos : m.cursors id = pos)
    (later : Outcome id (next (SegMem.exec o m).1) D ((SegMem.exec o m).2.cursors id) v D') :
    Outcome id (.op o next) D pos v D' := by
  intro m' free bytes cursor
  obtain ⟨answer, moved, same, state⟩ := touches_out o m' m own (cursor.trans at_pos.symm)
  rw [Prog.solo_op, answer]
  exact later _ (state.trans free) (same.trans bytes) moved

def readSection (body : SegProg β) (f : β → α) : SegProg α :=
  readLock.bind fun _ => body.bind fun a => readUnlock.bind fun _ => .ret (f a)

def writeSection (body : SegProg β) (f : β → α) : SegProg α :=
  writeLock.bind fun _ => body.bind fun a => writeUnlock.bind fun _ => .ret (f a)

/-- A section does what its body does, seen from any memory with the same data. -/
theorem outcome_readSection {body : SegProg β} {f : β → α} {m after : SegMem} {a : β}
    (straight : body.Straight (Touches id .reading))
    (ran : Prog.solo SegMem.exec body m = some (a, after)) :
    Outcome id (readSection body f) m.bytes (m.cursors id) (f a) after.bytes := by
  intro m' free bytes cursor
  have same : share id m = share id { m' with state := m'.state + 1 } :=
    share_eq.mpr ⟨bytes.symm, cursor.symm⟩
  obtain ⟨_, _, last, here, there, agree⟩ := Prog.straight_solo touches_same straight same
  cases here.symm.trans ran
  have shared : 0 ≤ m'.state.toInt := by
    rw [free]
    decide
  refine ⟨{ last with state := last.state - 1 }, ?_, (share_eq.mp agree).1.symm⟩
  rw [readSection, Prog.solo_bind, readLock_alone, if_pos shared, Option.bind_some, Prog.solo_bind,
    there]
  rfl

theorem outcome_writeSection {body : SegProg β} {f : β → α} {m after : SegMem} {a : β}
    (straight : body.Straight (Touches id .writing))
    (ran : Prog.solo SegMem.exec body m = some (a, after)) :
    Outcome id (writeSection body f) m.bytes (m.cursors id) (f a) after.bytes := by
  intro m' free bytes cursor
  have same : share id m = share id { m' with state := -1 } :=
    share_eq.mpr ⟨bytes.symm, cursor.symm⟩
  obtain ⟨_, _, last, here, there, agree⟩ := Prog.straight_solo touches_same straight same
  cases here.symm.trans ran
  refine ⟨{ last with state := 0 }, ?_, (share_eq.mp agree).1.symm⟩
  rw [writeSection, Prog.solo_bind, writeLock_alone, if_pos free, Option.bind_some, Prog.solo_bind,
    there]
  rfl

end Outcomes

section Shapes
variable {α β : Type}

/-- A call that writes and does not get to its section answers with an error. -/
inductive Guarded (id : Nat) (k : Kind) : SegProg (PyResult PyValue) → Prop where
  | done (value : PyResult PyValue) (early : k = .writes → ∃ e, value = .error e) :
      Guarded id k (.ret value)
  | cursor (o : SegOp) (next : o.Res → SegProg (PyResult PyValue)) (own : Touches id .out o)
      (later : ∀ r, Guarded id k (next r)) : Guarded id k (.op o next)
  | asks (next : BitVec 32 → SegProg (PyResult PyValue)) (which : k = .other)
      (later : ∀ r, Guarded id k (next r)) : Guarded id k (.op .loadState next)
  | reading {β : Type} (body : SegProg β) (f : β → PyResult PyValue)
      (inside : body.Straight (Touches id .reading)) (which : k ≠ .writes) :
      Guarded id k (readSection body f)
  | writing {β : Type} (body : SegProg β) (f : β → PyResult PyValue)
      (inside : body.Straight (Touches id .writing)) (which : k = .writes) :
      Guarded id k (writeSection body f)

/-- The same of a part of a call, whatever the call makes of its value. -/
def Shaped (id : Nat) (k : Kind) (p : SegM α) : Prop :=
  ∀ f : PyResult α → PyResult PyValue, (∀ e, ∃ e', f (.error e) = .error e') →
    Guarded id k (p.run.bind fun result => .ret (f result))

section Parts
variable {id : Nat} {k : Kind}

theorem guarded_result {p : SegM α} {g : α → PyValue} (shaped : Shaped id k p) :
    Guarded id k (p >>= fun value => pure (g value)).run := by
  have shape := shaped (fun result => result.map g) fun e => ⟨e, rfl⟩
  have same : (p >>= fun value => pure (g value)).run =
      p.run.bind fun result => .ret (result.map g) := by
    rw [Prog.run_bind]
    congr 1
    funext result
    cases result <;> rfl
  rw [same]
  exact shape

theorem shaped_throw (e : PyErr) : Shaped id k (throw e : SegM α) := by
  intro f keeps
  exact .done _ fun _ => keeps e

theorem shaped_except {result : PyResult α} {g : α → SegM β}
    (later : ∀ value, Shaped id k (g value)) :
    Shaped id k (liftM result >>= g) := by
  intro f keeps
  cases result with
  | ok value => exact later value f keeps
  | error e => exact .done _ fun _ => keeps e

theorem shaped_loadCursor {view : MappedView} {g : BitVec 64 → SegM β}
    (later : ∀ pos, Shaped view.id k (g pos)) : Shaped view.id k (loadCursor view >>= g) := by
  intro f keeps
  exact .cursor (.loadCursor view.id) _ rfl fun pos => later pos f keeps

theorem shaped_position {view : MappedView} {offset : Option Nat} {g : Nat → SegM β}
    (later : ∀ pos, Shaped view.id k (g pos)) : Shaped view.id k (position view offset >>= g) := by
  cases offset with
  | some o => exact later o
  | none =>
      intro f keeps
      exact .cursor (.loadCursor view.id) _ rfl fun pos => later pos.toNat f keeps

theorem shaped_readGuard {body : SegM α} (which : k ≠ .writes)
    (inside : body.run.Straight (Touches id .reading)) : Shaped id k (withReadGuard body) := by
  intro f _
  have same : ((withReadGuard body).run.bind fun result => .ret (f result)) =
      readSection body.run f := by
    change (readLock.bind fun _ => body.run.bind fun a =>
      readUnlock.bind fun _ => .ret a).bind _ = _
    simp only [Prog.bind_assoc, Prog.ret_bind]
    rfl
  rw [same]
  exact .reading body.run f inside which

theorem shaped_writeGuard {body : SegM α} (which : k = .writes)
    (inside : body.run.Straight (Touches id .writing)) : Shaped id k (withWriteGuard body) := by
  intro f _
  have same : ((withWriteGuard body).run.bind fun result => .ret (f result)) =
      writeSection body.run f := by
    change (writeLock.bind fun _ => body.run.bind fun a =>
      writeUnlock.bind fun _ => .ret a).bind _ = _
    simp only [Prog.bind_assoc, Prog.ret_bind]
    rfl
  rw [same]
  exact .writing body.run f inside which

end Parts

section Bodies
variable {id : Nat} {ph : Phase} {ok : SegOp → Prop}

theorem onSlice_straight (pos : Nat) (reader : Reader α) :
    (onSlice pos reader).Straight (Touches id .reading) := by
  induction reader with
  | done value => trivial
  | load index next ih => exact ⟨by simp [Touches], fun byte => ih byte⟩

theorem lift_straight {p : SegProg α} (straight : p.Straight ok) :
    (ExceptT.lift p : SegM α).run.Straight ok := by
  rw [Prog.run_lift]
  exact Prog.straight_bind straight fun _ => trivial

theorem copyTo_straight (start : Nat) (bytes : List UInt8) :
    (copyTo start bytes).run.Straight (Touches id .writing) := by
  induction bytes generalizing start with
  | nil => trivial
  | cons byte rest ih =>
      apply Prog.straight_run_bind
      · exact ⟨rfl, fun _ => trivial⟩
      · exact fun _ => ih (start + 1)

theorem fetchAdd_straight (view : MappedView) (n : Nat) :
    (fetchAdd view n).run.Straight (Touches view.id ph) := ⟨rfl, fun _ => trivial⟩

theorem advance_straight (view : MappedView) (offset : Option Nat) (n : Nat) :
    (advance view offset n).run.Straight (Touches view.id ph) := by
  unfold advance
  split
  · exact fetchAdd_straight view n
  · trivial

theorem minus_straight (build : Build) (x y : BitVec 64) :
    (build.minus x y : SegM (BitVec 64)).run.Straight ok := by
  cases build with
  | release => trivial
  | debug =>
      simp only [Build.minus]
      split <;> trivial

end Bodies

section Calls
variable {view : MappedView}

theorem place_shaped (bytes : List UInt8) (offset : Option Nat) :
    Shaped view.id .writes (place view bytes offset) := by
  apply shaped_position
  intro pos
  apply shaped_except
  intro _
  apply shaped_writeGuard rfl
  apply Prog.straight_run_bind
  · exact copyTo_straight _ bytes
  · exact fun _ => advance_straight view offset _

theorem zero_shaped : Shaped view.id .writes (zero view) :=
  shaped_writeGuard rfl (copyTo_straight _ _)

theorem readAll_shaped : Shaped view.id .reads (readAll view) :=
  shaped_readGuard (by decide) (lift_straight (onSlice_straight _ _))

theorem readRange_shaped (offset length : Nat) :
    Shaped view.id .reads (readRange view offset length) := by
  apply shaped_except
  intro _
  exact shaped_readGuard (by decide) (lift_straight (onSlice_straight _ _))

theorem seek_shaped (pos : Nat) : Shaped view.id .other (seek view pos) := by
  unfold seek
  split
  · exact shaped_throw _
  · intro f _
    exact .cursor (.storeCursor view.id _) _ rfl fun _ => .done _ nofun

variable [Target]

theorem read_shaped (build : Build) (tag : String) :
    Shaped view.id .reads (View.read build view tag) := by
  apply shaped_loadCursor
  intro pos
  apply shaped_readGuard (by decide)
  apply Prog.straight_run_bind
  · exact minus_straight build _ _
  · intro len
    apply Prog.straight_run_bind
    · exact onSlice_straight _ _
    · rintro ⟨value, bytesRead⟩
      apply Prog.straight_run_bind
      · exact fetchAdd_straight view bytesRead
      · exact fun _ => trivial

theorem readMixed_shaped (schema : List PyValue) (offset : Option Nat) :
    Shaped view.id .reads (readMixed view schema offset) := by
  apply shaped_position
  intro pos
  dsimp only
  split
  · exact shaped_throw _
  · apply shaped_readGuard (by decide)
    apply Prog.straight_run_bind
    · exact onSlice_straight _ _
    · rintro ⟨result, bytesRead⟩
      apply Prog.straight_run_bind
      · exact advance_straight view offset bytesRead
      · exact fun _ => trivial

/-- Every call of a view but `map`. -/
theorem viewCode_guarded (build : Build) {c : ViewCall} (notMap : isMap c = false) :
    Guarded view.id (kind c) (viewCode build view c) := by
  cases c with
  | write data offset =>
      apply guarded_result
      exact shaped_except fun _ => place_shaped _ offset
  | writeMixed items offset =>
      apply guarded_result
      exact shaped_except fun _ => place_shaped _ offset
  | read tag =>
      have shaped : Shaped view.id .reads (View.read build view tag) := read_shaped build tag
      have shape := shaped id fun e => ⟨e, rfl⟩
      rw [show (fun result : PyResult PyValue => Prog.ret (id result)) = Prog.ret from rfl,
        Prog.bind_ret] at shape
      exact shape
  | readMixed schema offset => exact guarded_result (readMixed_shaped schema offset)
  | readRange offset length => exact guarded_result (readRange_shaped offset length)
  | readAll => exact guarded_result readAll_shaped
  | zero => exact guarded_result zero_shaped
  | seek pos => exact guarded_result (seek_shaped pos)
  | tell => exact .cursor (.loadCursor view.id) _ rfl fun _ => .done _ nofun
  | readerCount => exact .asks _ rfl fun _ => .done _ nofun
  | isWriteLocked => exact .asks _ rfl fun _ => .done _ nofun
  | map handle mapping id => cases notMap

end Calls
end Shapes
end Membridge.CallShape
