import Membridge.Alone
import Membridge.ViewBounds

/-!
One caller of one view, call after call. Over any such session the cursor stays
inside the data area, every call touches the data area only, and a write changes
the bytes it packed and no others.
-/
namespace Membridge.Sessions
open Program Typestate Python ByteOrder ByteReader Mixed Arithmetic Segment RwLock View ViewBounds
open Alone

variable [Target] {build : Build} {view : MappedView}

/-- The calls in order, each run to completion. -/
def session (build : Build) (view : MappedView) :
    List ViewCall → SegMem → Option (List (PyResult PyValue) × SegMem)
  | [], m => some ([], m)
  | c :: rest, m => do
      let (result, after) ← Prog.solo SegMem.exec (viewCode build view c) m
      let (results, last) ← session build view rest after
      return (result :: results, last)

theorem session_cons {c : ViewCall} {rest : List ViewCall} {m last : SegMem}
    {results : List (PyResult PyValue)}
    (ran : session build view (c :: rest) m = some (results, last)) :
    ∃ result after more, Prog.solo SegMem.exec (viewCode build view c) m = some (result, after) ∧
      session build view rest after = some (more, last) ∧ results = result :: more := by
  simp only [session, Option.bind_eq_bind, Option.bind_eq_some_iff] at ran
  obtain ⟨⟨result, after⟩, first, ⟨more, last'⟩, later, same⟩ := ran
  cases same
  exact ⟨result, after, more, first, later, rfl⟩

section Bounds
variable {c : ViewCall} {m after : SegMem} {result : PyResult PyValue}

/-- User data lies in `[4, size)`; the cursor is inside the data area whenever it is loaded,
and still is after it was moved on. -/
def InDataArea (view : MappedView) : (Σ o : SegOp, o.Res) → Prop
  | ⟨.readByte offset, _⟩ => rwlockSize ≤ offset ∧ offset < view.size
  | ⟨.writeByte offset _, _⟩ => rwlockSize ≤ offset ∧ offset < view.size
  | ⟨.loadCursor _, pos⟩ => pos.toNat ≤ view.dataSize
  | ⟨.storeCursor _ pos, _⟩ => pos.toNat ≤ view.dataSize
  | ⟨.fetchAddCursor _ n, pos⟩ => pos.toNat + n.toNat ≤ view.dataSize
  | _ => True

omit [Target] in
theorem inDataArea {cursor : Nat} (low : cursor ≤ view.dataSize) {a : Σ o : SegOp, o.Res}
    (admitted : Inside view cursor a.1) (shown : ShowsCursor cursor a.1 a.2) :
    InDataArea view a := by
  obtain ⟨o, r⟩ := a
  cases o with
  | readByte offset => exact admitted
  | writeByte offset byte => exact admitted
  | loadCursor id =>
      change r.toNat = cursor at shown
      change r.toNat ≤ view.dataSize
      omega
  | storeCursor id pos => exact admitted.2
  | fetchAddCursor id n =>
      change r.toNat = cursor at shown
      change r.toNat + n.toNat ≤ view.dataSize
      rw [shown]
      exact admitted.2
  | _ => trivial

theorem call_bounds (usize : view.size < 2 ^ 64) (own : isMap c = false)
    (low : (m.cursors view.id).toNat ≤ view.dataSize)
    (ran : Prog.solo SegMem.exec (viewCode build view c) m = some (result, after)) :
    (after.cursors view.id).toNat ≤ view.dataSize ∧
      (movesCursor c = false → after.cursors view.id = m.cursors view.id) ∧
      ∀ a ∈ Prog.accesses SegMem.exec (viewCode build view c) m, InDataArea view a := by
  obtain ⟨⟨later, ends, at_later⟩, inside⟩ := Discipline.follows_solo (view_governs usize)
    (viewCall_ends build usize own low) (⟨rfl, low⟩ : CursorAt view _ m) ran
  refine ⟨?_, ?_, ?_⟩
  · rw [at_later.1]
    exact at_later.2
  · intro still
    apply BitVec.eq_of_toNat_eq
    rw [at_later.1]
    cases result with
    | ok value => exact ends still
    | error e => exact ends
  · intro a member
    obtain ⟨q, x, at_q, admitted, shown⟩ := inside a member
    exact inDataArea at_q.2 admitted shown

/-- With the cursor inside the data area the subtraction of `read` does not borrow: a
build that checks for it runs like one that does not. -/
theorem builds_agree (usize : view.size < 2 ^ 64)
    (low : (m.cursors view.id).toNat ≤ view.dataSize) :
    Prog.solo SegMem.exec (viewCode .debug view c) m =
      Prog.solo SegMem.exec (viewCode .release view c) m := by
  cases c with
  | read tag =>
      obtain ⟨below, _⟩ := remaining_fits usize low
      simp only [viewCode, viewCall, View.read, loadCursor, Prog.run_bind,
        Prog.run_access, Prog.op_bind,
        Prog.ret_bind, Prog.solo_op]
      simp only [SegMem.exec]
      rw [Build.minus_ok _ below, Build.minus_ok _ below]
  | _ => rfl

/-- The packed bytes of a write, and the offset it was given. -/
def packed : ViewCall → Option (List UInt8 × Option Nat)
  | .write data offset => (packValue data []).toOption.map fun bytes => (bytes, offset)
  | .writeMixed items offset => (packMixed items).toOption.map fun bytes => (bytes, offset)
  | _ => none

theorem packed_alone {bytes : List UInt8} {offset : Option Nat}
    (packs : packed c = some (bytes, offset)) :
    Prog.solo SegMem.exec (viewCode build view c) m =
      (Prog.solo SegMem.exec (place view bytes offset).run m).map fun x =>
        (x.1.map fun _ => PyValue.none, x.2) := by
  have placed : ∀ result : PyResult (List UInt8), result = .ok bytes →
      Prog.solo SegMem.exec
        (((liftM result : SegM _) >>= fun packed => place view packed offset) >>=
          fun _ => pure PyValue.none).run m =
        (Prog.solo SegMem.exec (place view bytes offset).run m).map fun x =>
          (x.1.map fun _ => PyValue.none, x.2) := by
    rintro _ rfl
    simp only [Prog.run_bind, Prog.run_ok, Prog.ret_bind, Prog.solo_bind]
    cases Prog.solo SegMem.exec (place view bytes offset).run m with
    | none => rfl
    | some x =>
        obtain ⟨r, after⟩ := x
        cases r <;> rfl
  -- what the call packs is what the pure encoder gives
  have packed_ok : ∀ {result : PyResult (List UInt8)} {given : Option Nat},
      (result.toOption.map fun bytes => (bytes, given)) = some (bytes, offset) →
        result = .ok bytes ∧ given = offset := by
    intro result given same
    cases result with
    | error e => cases same
    | ok b =>
        cases same
        exact ⟨rfl, rfl⟩
  cases c with
  | write data given =>
      obtain ⟨same, rfl⟩ := packed_ok packs
      exact placed _ same
  | writeMixed items given =>
      obtain ⟨same, rfl⟩ := packed_ok packs
      exact placed _ same
  | _ => cases packs

/-- What a write that answers without an error did, all of it. -/
theorem packed_effect {bytes : List UInt8} {offset : Option Nat} {value : PyValue}
    (packs : packed c = some (bytes, offset))
    (ran : Prog.solo SegMem.exec (viewCode build view c) m = some (.ok value, after)) :
    m.state = 0 ∧ View.checkBounds view (offset.getD (m.cursors view.id).toNat) bytes.length =
      .ok () ∧
      after = advanced view offset bytes.length
        { m with
          bytes := Reader.overwrite m.bytes
            (dataPtr (offset.getD (m.cursors view.id).toNat)) bytes } := by
  rw [packed_alone packs, place_alone] at ran
  generalize offset.getD (m.cursors view.id).toNat = pos at ran ⊢
  cases fits : View.checkBounds view pos bytes.length with
  | error e =>
      rw [fits] at ran
      cases ran
  | ok _ =>
      rw [fits] at ran
      dsimp only at ran
      split at ran
      · next free =>
          cases ran
          exact ⟨free, rfl, rfl⟩
      · cases ran

end Bounds

section Whole

omit [Target] in
/-- A new view covers the region, its cursor is at the start, and a creator's lock is free. -/
theorem new_built {id size : Nat} {isCreator : Bool} {region start : SegMem}
    (built : Prog.solo SegMem.exec (new id size isCreator).run region = some (.ok view, start)) :
    view.size = size ∧ start.cursors view.id = 0 ∧ start.bytes = region.bytes ∧
      (start.state = if isCreator then 0 else region.state) ∧
      ∀ other, other ≠ view.id → start.cursors other = region.cursors other := by
  unfold new at built
  split at built
  · cases built
  · cases isCreator with
    | true =>
        cases built
        simp +contextual [SegMem.exec]
    | false =>
        cases built
        simp +contextual [SegMem.exec]

/-- Every session keeps the cursor inside the data area. -/
theorem session_low (usize : view.size < 2 ^ 64) {calls : List ViewCall}
    (own : ∀ c ∈ calls, isMap c = false) {m last : SegMem}
    (low : (m.cursors view.id).toNat ≤ view.dataSize) {results : List (PyResult PyValue)}
    (ran : session build view calls m = some (results, last)) :
    (last.cursors view.id).toNat ≤ view.dataSize := by
  induction calls generalizing m results with
  | nil =>
      cases ran
      exact low
  | cons c rest ih =>
      obtain ⟨result, after, more, first, later, rfl⟩ := session_cons ran
      have still := (call_bounds usize (own c List.mem_cons_self) low first).1
      exact ih (fun x member => own x (List.mem_cons_of_mem c member)) still later

/-- A view made by `new` stays inside its region in every session: the cursor ends inside
the data area after each call, the subtraction in `read` never borrows, no cursor
addition overflows, all user data lies in `[4, size)`, a write changes the bytes it packed
and no others, and a call given an offset leaves the cursor. -/
theorem view_stays_inside {id size : Nat} {isCreator : Bool} {region start m : SegMem}
    (usize : size < 2 ^ 64)
    (built : Prog.solo SegMem.exec (new id size isCreator).run region = some (.ok view, start))
    {calls : List ViewCall} (own : ∀ c ∈ calls, isMap c = false)
    {results : List (PyResult PyValue)} (ran : session build view calls start = some (results, m)) :
    view.size = size ∧ (m.cursors view.id).toNat ≤ view.dataSize ∧
    ∀ c, isMap c = false →
      Prog.solo SegMem.exec (viewCode .debug view c) m =
        Prog.solo SegMem.exec (viewCode .release view c) m ∧
      ∀ result after, Prog.solo SegMem.exec (viewCode build view c) m = some (result, after) →
        (after.cursors view.id).toNat ≤ view.dataSize ∧
        (∀ a ∈ Prog.accesses SegMem.exec (viewCode build view c) m, InDataArea view a) ∧
        (∀ bytes offset value, packed c = some (bytes, offset) → result = .ok value →
          let start := dataPtr (offset.getD (m.cursors view.id).toNat)
          (∀ index (inside : index < bytes.length), after.bytes (start + index) = bytes[index]) ∧
          ∀ place, place < start ∨ start + bytes.length ≤ place →
            after.bytes place = m.bytes place) ∧
        (movesCursor c = false → after.cursors view.id = m.cursors view.id) := by
  obtain ⟨rfl, fresh, _, _, _⟩ := new_built built
  have low := session_low usize own (by simp [fresh]) ran
  refine ⟨rfl, low, ?_⟩
  intro c notMap
  refine ⟨builds_agree usize low, ?_⟩
  intro result after did
  obtain ⟨still, leaves, inside⟩ := call_bounds usize notMap low did
  refine ⟨still, inside, ?_, leaves⟩
  rintro bytes offset value packs rfl
  obtain ⟨_, _, rfl⟩ := packed_effect packs did
  have same : ∀ x : SegMem, (advanced view offset bytes.length x).bytes = x.bytes := by
    intro x
    unfold advanced
    split <;> rfl
  rw [same]
  exact ⟨fun index inside => Reader.overwrite_inside _ inside,
    fun place outside => Reader.overwrite_outside _ outside⟩

omit [Target]

/-- A write that fits, one that does not, a seek and a read at the last offset of all. -/
def shortSession : List ViewCall :=
  [.write (.int 7) none, .write (.bytes [1, 2, 3, 4, 5]) none, .seek 3, .readRange (2 ^ 64 - 1) 1]

theorem view_stays_inside_shortSession :
    ∃ view start results m,
      Prog.solo SegMem.exec (new 0 16 true).run ⟨5, fun _ => 9, fun _ => 6⟩ =
        some (.ok view, start) ∧
      @session littleEndian .release view shortSession start = some (results, m) ∧
      (m.cursors view.id).toNat ≤ view.dataSize := by
  have built : Prog.solo SegMem.exec (new 0 16 true).run ⟨5, fun _ => 9, fun _ => 6⟩ =
      some (.ok ⟨0, 16, by decide⟩, ⟨0, fun _ => 9, Function.update (fun _ => 6) 0 0⟩) := rfl
  have completes : (@session littleEndian .release ⟨0, 16, by decide⟩ shortSession
      ⟨0, fun _ => 9, Function.update (fun _ => 6) 0 0⟩).isSome = true := by
    decide +kernel
  obtain ⟨⟨results, m⟩, ran⟩ := Option.isSome_iff_exists.mp completes
  exact ⟨_, _, results, m, built, ran, (@view_stays_inside littleEndian _ _ _ _ _ _ _ _
    (by decide) built _ (by simp [shortSession, isMap]) _ ran).2.1⟩

end Whole

end Membridge.Sessions
