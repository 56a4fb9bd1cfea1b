import Membridge.Decoding
import Membridge.ViewBounds

/-!
What the calls of a view do when nobody else runs, as equations. A lock that is
not free keeps a call from completing: no result then.
-/
namespace Membridge.Alone
open Program Python ByteOrder ByteReader Mixed Decoding Arithmetic Segment RwLock View ViewBounds

variable {α : Type} {view : MappedView}

section Lock

theorem readLock_alone (m : SegMem) :
    Prog.solo SegMem.exec readLock m =
      if 0 ≤ m.state.toInt then some ((), { m with state := m.state + 1 }) else none := by
  by_cases shared : 0 ≤ m.state.toInt
  · simp [readLock, Prog.solo, SegMem.exec, shared, Prog.perform]
  · simp [readLock, Prog.solo, SegMem.exec, shared]

theorem writeLock_alone (m : SegMem) :
    Prog.solo SegMem.exec writeLock m =
      if m.state = 0 then some ((), { m with state := -1 }) else none := by
  by_cases free : m.state = 0#32
  · simp [writeLock, Prog.solo, SegMem.exec, free]
  · simp [writeLock, Prog.solo, SegMem.exec, free]

theorem readGuard_alone (body : SegM α) (m : SegMem) :
    Prog.solo SegMem.exec (withReadGuard body).run m =
      if 0 ≤ m.state.toInt then
        (Prog.solo SegMem.exec body.run { m with state := m.state + 1 }).map fun result =>
          (result.1, { result.2 with state := result.2.state - 1 })
      else none := by
  change Prog.solo _ (readLock.bind fun _ => body.run.bind _) m = _
  rw [Prog.solo_bind, readLock_alone]
  split
  · simp only [Option.bind_some, Prog.solo_bind]
    cases Prog.solo SegMem.exec body.run { m with state := m.state + 1 } <;> rfl
  · rfl

theorem writeGuard_alone (body : SegM α) (m : SegMem) :
    Prog.solo SegMem.exec (withWriteGuard body).run m =
      if m.state = 0 then
        (Prog.solo SegMem.exec body.run { m with state := -1 }).map fun result =>
          (result.1, { result.2 with state := 0 })
      else none := by
  change Prog.solo _ (writeLock.bind fun _ => body.run.bind _) m = _
  rw [Prog.solo_bind, writeLock_alone]
  split
  · simp only [Option.bind_some, Prog.solo_bind]
    cases Prog.solo SegMem.exec body.run { m with state := -1 } <;> rfl
  · rfl

end Lock

section Bytes

theorem copyTo_alone (start : Nat) (bytes : List UInt8) (m : SegMem) :
    Prog.solo SegMem.exec (copyTo start bytes).run m =
      some (.ok (), { m with bytes := Reader.overwrite m.bytes start bytes }) := by
  induction bytes generalizing start m with
  | nil => rfl
  | cons byte rest ih =>
      simp only [copyTo, Prog.run_bind, Prog.run_access, Prog.op_bind, Prog.ret_bind, Prog.solo_op]
      exact ih (start + 1) _

theorem onSlice_alone (pos : Nat) (reader : Reader α) (m : SegMem) :
    Prog.solo SegMem.exec (onSlice pos reader) m =
      some (reader.run fun index => m.bytes (dataPtr pos + index), m) := by
  induction reader with
  | done value => rfl
  | load index next ih => exact ih (m.bytes (dataPtr pos + index))

end Bytes

section Cursor

/-- The memory after the cursor moved on by `n`, unless an offset was given. -/
def advanced (view : MappedView) (offset : Option Nat) (n : Nat) (m : SegMem) : SegMem :=
  if offset.isNone then
    { m with
      cursors := Function.update m.cursors view.id (m.cursors view.id + BitVec.ofNat 64 n) }
  else m

theorem position_alone (offset : Option Nat) (m : SegMem) :
    Prog.solo SegMem.exec (position view offset).run m =
      some (.ok (offset.getD (m.cursors view.id).toNat), m) := by
  cases offset <;> rfl

theorem advance_alone (offset : Option Nat) (n : Nat) (m : SegMem) :
    Prog.solo SegMem.exec (advance view offset n).run m =
      some (.ok (), advanced view offset n m) := by
  cases offset <;> rfl

end Cursor

section Calls

/-- A write: refused without effect, or the packed bytes in place and the cursor moved. -/
theorem place_alone (bytes : List UInt8) (offset : Option Nat) (m : SegMem) :
    Prog.solo SegMem.exec (place view bytes offset).run m =
      match View.checkBounds view (offset.getD (m.cursors view.id).toNat) bytes.length with
      | .error e => some (.error e, m)
      | .ok () =>
          if m.state = 0 then
            some (.ok (), advanced view offset bytes.length
              { m with
                bytes := Reader.overwrite m.bytes
                  (dataPtr (offset.getD (m.cursors view.id).toNat)) bytes })
          else none := by
  unfold place
  rw [Prog.run_bind, Prog.solo_bind, position_alone]
  simp only [Option.bind_some, Prog.run_bind]
  generalize offset.getD (m.cursors view.id).toNat = pos
  cases View.checkBounds view pos bytes.length with
  | error e => rfl
  | ok _ =>
      simp only [Prog.run_ok, Prog.ret_bind]
      rw [writeGuard_alone]
      split
      · next free =>
          rw [Prog.run_bind, Prog.solo_bind, copyTo_alone]
          simp only [Option.bind_some, advance_alone, Option.map_some]
          cases offset with
          | none => simp [advanced, free]
          | some o => simp [advanced, free]
      · rfl

theorem decodeSlice_alone {β : Type} (pos : Nat) (decoder : Decoder α)
    (f : α → SegM β) (m : SegMem) :
    Prog.solo SegMem.exec ((ExceptT.mk (onSlice pos decoder.run) : SegM α) >>= f).run m =
      match decode (fun index => m.bytes (dataPtr pos + index)) decoder with
      | .ok value => Prog.solo SegMem.exec (f value).run m
      | .error e => some (.error e, m) := by
  rw [Prog.run_bind, Prog.solo_bind]
  change ((Prog.solo SegMem.exec (onSlice pos decoder.run) m).bind _) = _
  rw [onSlice_alone]
  simp only [Option.bind_some, decode]
  cases Reader.run (fun index => m.bytes (dataPtr pos + index)) decoder.run <;> rfl

theorem fetchAdd_alone (n : Nat) (m : SegMem) :
    Prog.solo SegMem.exec (fetchAdd view n).run m = some (.ok (), advanced view none n m) := rfl

/-- Leaving undoes entering, whatever happened to the cursor in between. -/
theorem left_again (view : MappedView) (offset : Option Nat) (n : Nat) (m : SegMem) :
    { advanced view offset n { m with state := m.state + 1 } with
      state := (advanced view offset n { m with state := m.state + 1 }).state - 1 } =
      advanced view offset n m := by
  have back : m.state + 1 - 1 = m.state := BitVec.add_sub_cancel _ _
  cases offset with
  | none => simp only [advanced, Option.isNone_none, if_true, back]
  | some o => simp only [advanced, Option.isNone_some, Bool.false_eq_true, if_false, back]

variable [Target]

/-- A read, once its length is known: what the bytes from the cursor on decode to, and the
cursor moved behind them. -/
theorem read_length {build : Build} {tag : String} {m : SegMem} {len : BitVec 64}
    (minus : (build.minus (BitVec.ofNat 64 view.dataSize) (m.cursors view.id) : SegM (BitVec 64)) =
      pure len) :
    Prog.solo SegMem.exec (View.read build view tag).run m =
      if 0 ≤ m.state.toInt then
        match decode (fun index => m.bytes (dataPtr (m.cursors view.id).toNat + index))
            (unpackOne len.toNat tag) with
        | .ok (value, n) => some (.ok value, advanced view none n m)
        | .error e => some (.error e, m)
      else none := by
  simp only [View.read, loadCursor, Prog.run_bind, Prog.run_access, Prog.op_bind, Prog.ret_bind,
    Prog.solo_op]
  simp only [SegMem.exec]
  rw [readGuard_alone, minus]
  split
  · rw [Prog.run_bind, Prog.run_pure, Prog.ret_bind]
    dsimp only
    rw [decodeSlice_alone]
    dsimp only
    cases decode (fun index => m.bytes (dataPtr (m.cursors view.id).toNat + index))
        (unpackOne len.toNat tag) with
    | error e => exact congrArg (fun x => some (Except.error e, x)) (left_again view (some 0) 0 m)
    | ok result =>
        dsimp only
        rw [Prog.run_bind, Prog.solo_bind, fetchAdd_alone]
        exact congrArg (fun x => some (Except.ok result.1, x)) (left_again view none result.2 m)
  · rfl

/-- With the cursor inside the data area, that is what is left of it. -/
theorem read_alone (build : Build) (tag : String) {m : SegMem} (usize : view.size < 2 ^ 64)
    (low : (m.cursors view.id).toNat ≤ view.dataSize) :
    Prog.solo SegMem.exec (View.read build view tag).run m =
      if 0 ≤ m.state.toInt then
        match decode (fun index => m.bytes (dataPtr (m.cursors view.id).toNat + index))
            (unpackOne (view.dataSize - (m.cursors view.id).toNat) tag) with
        | .ok (value, n) => some (.ok value, advanced view none n m)
        | .error e => some (.error e, m)
      else none := by
  obtain ⟨below, rest⟩ := remaining_fits usize low
  rw [read_length (Build.minus_ok _ below), rest]

/-- With the cursor behind the data area, the length wraps, or its subtraction panics. -/
theorem read_beyond (build : Build) (tag : String) {m : SegMem} (usize : view.size < 2 ^ 64)
    (high : view.dataSize < (m.cursors view.id).toNat) :
    Prog.solo SegMem.exec (View.read build view tag).run m =
      if 0 ≤ m.state.toInt then
        match build with
        | .release =>
            match decode (fun index => m.bytes (dataPtr (m.cursors view.id).toNat + index))
                (unpackOne (2 ^ 64 + view.dataSize - (m.cursors view.id).toNat) tag) with
            | .ok (value, n) => some (.ok value, advanced view none n m)
            | .error e => some (.error e, m)
        | .debug => some (.error (.panic "attempt to subtract with overflow"), m)
      else none := by
  have word : (BitVec.ofNat 64 view.dataSize).toNat = view.dataSize := by
    rw [BitVec.toNat_ofNat]
    exact Nat.mod_eq_of_lt (Nat.lt_of_le_of_lt (Nat.sub_le _ _) usize)
  cases build with
  | release =>
      have wrapped : (BitVec.ofNat 64 view.dataSize - m.cursors view.id).toNat =
          2 ^ 64 + view.dataSize - (m.cursors view.id).toNat := by
        rw [BitVec.toNat_sub, word]
        omega
      have minus : (Build.release.minus (BitVec.ofNat 64 view.dataSize) (m.cursors view.id) :
          SegM (BitVec 64)) = pure (BitVec.ofNat 64 view.dataSize - m.cursors view.id) := rfl
      rw [read_length minus, wrapped]
  | debug =>
      have borrows : ¬ m.cursors view.id ≤ BitVec.ofNat 64 view.dataSize := by
        rw [BitVec.le_def, word]
        exact Nat.not_le.mpr high
      simp only [View.read, loadCursor, Prog.run_bind, Prog.run_access, Prog.op_bind, Prog.ret_bind,
        Prog.solo_op]
      simp only [SegMem.exec]
      rw [readGuard_alone, Build.minus]
      dsimp only
      rw [if_neg borrows]
      split
      · exact congrArg (fun x => some (Except.error _, x)) (left_again view (some 0) 0 m)
      · rfl

theorem readMixed_alone (schema : List PyValue) (offset : Option Nat) (m : SegMem) :
    Prog.solo SegMem.exec (readMixed view schema offset).run m =
      if view.dataSize - offset.getD (m.cursors view.id).toNat = 0 then some (.error noData, m)
      else if 0 ≤ m.state.toInt then
        match decode
          (fun index => m.bytes (dataPtr (offset.getD (m.cursors view.id).toNat) + index))
            (unpackMixedCounted (view.dataSize - offset.getD (m.cursors view.id).toNat) schema) with
        | .ok (result, n) => some (.ok result, advanced view offset n m)
        | .error e => some (.error e, m)
      else none := by
  unfold readMixed
  rw [Prog.run_bind, Prog.solo_bind, position_alone]
  simp only [Option.bind_some]
  generalize offset.getD (m.cursors view.id).toNat = pos
  split
  · rfl
  · rw [readGuard_alone]
    split
    · rw [decodeSlice_alone]
      dsimp only
      cases decode (fun index => m.bytes (dataPtr pos + index))
          (unpackMixedCounted (view.dataSize - pos) schema) with
      | error e => exact congrArg (fun x => some (Except.error e, x)) (left_again view (some 0) 0 m)
      | ok result =>
          dsimp only
          rw [Prog.run_bind, Prog.solo_bind, advance_alone]
          exact congrArg (fun x => some (Except.ok result.1, x)) (left_again view offset result.2 m)
    · rfl

end Calls
end Membridge.Alone
