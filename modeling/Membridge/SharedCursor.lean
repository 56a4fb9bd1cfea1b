import Mathlib.Data.List.Pairwise
import Membridge.CallShape
import Membridge.RelyGuarantee
import Membridge.ViewBounds
import Membridge.ViewRuns

/-!
Calls without an offset, from several threads on one view. Such a call loads the
cursor, takes the lock, copies or decodes at the position it loaded, and adds to
the cursor while it is inside. Nothing holds the cursor still in between: the
calls keep clear of each other exactly as far as no other call got as far as the
data area or the cursor since the load.
-/
namespace Membridge.SharedCursor
open Program Interleaving RelyGuarantee Python ByteOrder ByteReader Arithmetic Mixed Decoding
open Segment RwLock View ViewRuns CallShape

/-- A call that starts at the cursor and moves it. -/
def isRelative : ViewCall → Bool
  | .write _ offset => offset.isNone
  | .writeMixed _ offset => offset.isNone
  | .read _ => true
  | _ => false

/-- What a call that writes puts into the data area. -/
def Packs [Target] : ViewCall → List UInt8 → Prop
  | .write data _, bytes => packValue data [] = .ok bytes
  | .writeMixed items _, bytes => packMixed items = .ok bytes
  | _, _ => False

section History
variable {T : Type}

/-- A call that moved the cursor from `pos` to `pos + taken`. -/
structure Move (T : Type) where
  thread : T
  id : Nat
  call : ViewCall
  pos : Nat
  taken : Nat

def Move.key (m : Move T) : T × Nat := (m.thread, m.id)

def moved : ViewEvent T → Option (Move T)
  | .access t id c (.fetchAddCursor _ n) pos => some ⟨t, id, c, pos.toNat, n.toNat⟩
  | _ => none

def moves (log : List (ViewEvent T)) : List (Move T) := log.filterMap moved

/-- The call that returned without an error. -/
def returned : ViewEvent T → Option (T × Nat)
  | .finish t id _ (.ok _) => some (t, id)
  | _ => none

def returns (log : List (ViewEvent T)) : List (T × Nat) := log.filterMap returned

variable [DecidableEq T]

def stored (key : T × Nat) : ViewEvent T → Option Nat
  | .access t id _ (.writeByte offset _) _ => if (t, id) = key then some offset else none
  | _ => none

/-- The offsets at which a call has stored a byte, in order. -/
def written (log : List (ViewEvent T)) (key : T × Nat) : List Nat := log.filterMap (stored key)

def loadsCursor (t : T) : ViewEvent T → Bool
  | .access u _ _ (.loadCursor _) _ => u = t
  | _ => false

/-- What happened since `t` last loaded the cursor, the latest first. -/
def sinceLoad (t : T) (log : List (ViewEvent T)) : List (ViewEvent T) :=
  log.reverse.takeWhile fun e => !loadsCursor t e

/-- A store into the data area, or a move of the cursor. -/
def disturbs : ViewEvent T → Bool
  | .access _ _ _ (.writeByte _ _) _ => true
  | .access _ _ _ (.fetchAddCursor _ _) _ => true
  | _ => false

/-- The position that `t` has loaded is out of date. -/
def Stale (t : T) (log : List (ViewEvent T)) : Prop :=
  ∃ e ∈ sinceLoad t log, e.thread ≠ t ∧ disturbs e = true

instance (t : T) (log : List (ViewEvent T)) : Decidable (Stale t log) :=
  inferInstanceAs (Decidable (∃ e ∈ sinceLoad t log, _))

/-- No call copies to a position that is out of date, or adds to the cursor after it
has come to be. -/
def Undisturbed (w : ViewWorld T) (t : T) (_ : ViewCall) (o : SegOp) : Prop :=
  match o with
  | .writeByte _ _ => ¬ Stale t w.log
  | .fetchAddCursor _ _ => ¬ Stale t w.log
  | _ => True

instance (w : ViewWorld T) (t : T) (c : ViewCall) (o : SegOp) :
    Decidable (Undisturbed w t c o) := by
  unfold Undisturbed
  split <;> infer_instance

section Lemmas
variable {log : List (ViewEvent T)} {e : ViewEvent T} {t : T} {id : Nat} {c : ViewCall}

theorem stale_snoc : Stale t (log ++ [e]) ↔
    loadsCursor t e = false ∧ ((e.thread ≠ t ∧ disturbs e = true) ∨ Stale t log) := by
  unfold Stale sinceLoad
  rw [List.reverse_append, List.reverse_singleton, List.singleton_append, List.takeWhile_cons]
  cases loadsCursor t e with
  | true => simp
  | false => simp

omit [DecidableEq T] in
theorem filterMap_snoc {β : Type} (f : ViewEvent T → Option β) :
    (log ++ [e]).filterMap f = log.filterMap f ++ (f e).toList := by
  rw [List.filterMap_append]
  cases isSome : f e <;> simp [isSome]

omit [DecidableEq T] in
theorem moves_snoc : moves (log ++ [e]) = moves log ++ (moved e).toList := filterMap_snoc moved

omit [DecidableEq T] in
theorem returns_snoc : returns (log ++ [e]) = returns log ++ (returned e).toList :=
  filterMap_snoc returned

theorem written_snoc {key : T × Nat} :
    written (log ++ [e]) key = written log key ++ (stored key e).toList :=
      filterMap_snoc (stored key)

theorem loads_own {u : T} (other : e.thread ≠ u) : loadsCursor u e = false := by
  unfold loadsCursor
  split
  · exact decide_eq_false other
  · rfl

theorem stored_own {key : T × Nat} (other : e.thread ≠ key.1) : stored key e = none := by
  unfold stored
  split
  · exact if_neg fun same => other (congrArg Prod.fst same)
  · rfl

omit [DecidableEq T] in
theorem moved_thread {m : Move T} (isMove : moved e = some m) : m.thread = e.thread := by
  unfold moved at isMove
  split at isMove
  · cases isMove
    rfl
  · cases isMove

omit [DecidableEq T] in
theorem returned_thread {key : T × Nat} (isReturn : returned e = some key) : key.1 = e.thread := by
  unfold returned at isReturn
  split at isReturn
  · cases isReturn
    rfl
  · cases isReturn

/-- Accesses that move no cursor, store no byte and load no position. -/
def Neutral : SegOp → Prop
  | .writeByte _ _ => False
  | .loadCursor _ => False
  | .storeCursor _ _ => False
  | .fetchAddCursor _ _ => False
  | _ => True

theorem neutral_kept {o : SegOp} {m : SegMem} (neutral : Neutral o) :
    (SegMem.exec o m).2.bytes = m.bytes ∧ (SegMem.exec o m).2.cursors = m.cursors := by
  cases o with
  | compareExchange cur new =>
      simp only [SegMem.exec]
      split <;> exact ⟨rfl, rfl⟩
  | writeByte offset byte => exact neutral.elim
  | loadCursor view => exact neutral.elim
  | storeCursor view pos => exact neutral.elim
  | fetchAddCursor view n => exact neutral.elim
  | _ => exact ⟨rfl, rfl⟩

theorem neutral_event (t : T) (id : Nat) (c : ViewCall) {o : SegOp}
    (r : o.Res) (neutral : Neutral o) :
    moved (.access t id c o r : ViewEvent T) = none ∧
      (∀ key, stored key (.access t id c o r : ViewEvent T) = none) ∧
      (∀ u, loadsCursor u (.access t id c o r : ViewEvent T) = false) ∧
      disturbs (.access t id c o r : ViewEvent T) = false := by
  cases o with
  | writeByte offset byte => exact neutral.elim
  | loadCursor view => exact neutral.elim
  | storeCursor view pos => exact neutral.elim
  | fetchAddCursor view n => exact neutral.elim
  | _ => exact ⟨rfl, fun _ => rfl, fun _ => rfl, rfl⟩

end Lemmas
end History

section Protocol
variable {T : Type} [DecidableEq T] [Target]
variable (view : MappedView) (start : SegMem)

def cursorOf (w : ViewWorld T) : Nat := (w.mem.cursors view.id).toNat

/-- What the move of a write covers is what the call has written, and it is still there. -/
def Kept (w : ViewWorld T) (m : Move T) : Prop :=
  ∃ bytes, Packs m.call bytes ∧ m.taken = bytes.length ∧
    written w.log m.key = List.range' (dataPtr m.pos) bytes.length ∧
    Reader.span w.mem.bytes (dataPtr m.pos) bytes.length = bytes

/-- The move of a call that returned `v`: a read moves past the bytes it decoded. -/
def MoveOf (t : T) (id : Nat) (c : ViewCall) (v : PyValue) (m : Move T) : Prop :=
  m.key = (t, id) ∧ m.call = c ∧ ∀ tag, c = .read tag →
    ∃ data, decode data (unpackOne (view.dataSize - m.pos) tag) = .ok (v, m.taken)

def Answered (pre : List (ViewEvent T)) : ViewEvent T → Prop
  | .finish t id c (.ok v) => ∃ m ∈ moves pre, MoveOf view t id c v m
  | _ => True

/-- The moves lie one after another between the start and the cursor. -/
structure CursorInv (w : ViewWorld T) : Prop where
  total : cursorOf view w =
    (start.cursors view.id).toNat + ((moves w.log).map Move.taken).sum
  bounded : cursorOf view w ≤ view.dataSize
  apart : (moves w.log).Pairwise fun a b => a.pos + a.taken ≤ b.pos
  behind : ∀ m ∈ moves w.log, m.pos + m.taken ≤ cursorOf view w
  kept : ∀ m ∈ moves w.log, kind m.call = .writes → Kept w m
  answered : Recorded (Answered view) w.log

/-- A position that is not out of date afterwards was not before, and nothing that matters
has changed. -/
def CursorRely (t : T) (w w' : ViewWorld T) : Prop :=
  ¬ Stale t w'.log → ¬ Stale t w.log ∧
    w'.mem.cursors view.id = w.mem.cursors view.id ∧ w'.mem.bytes = w.mem.bytes

def ofThread (t : T) (keys : List (T × Nat)) : List (T × Nat) := keys.filter fun key => key.1 = t

def ownMoves (t : T) (log : List (ViewEvent T)) : List (T × Nat) :=
  ofThread t ((moves log).map Move.key)

def ownReturns (t : T) (log : List (ViewEvent T)) : List (T × Nat) := ofThread t (returns log)

/-- Each call of `t` that has moved the cursor has returned, and conversely. -/
def Even (t : T) (w : ViewWorld T) : Prop := ownMoves t w.log = ownReturns t w.log

section Others
variable {t : T} {w w' : ViewWorld T} {log : List (ViewEvent T)} {e : ViewEvent T}

omit [Target] in
theorem ownMoves_quiet (still : moved e = none) : ownMoves t (log ++ [e]) = ownMoves t log := by
  rw [ownMoves, moves_snoc, still]
  exact congrArg (fun ms => ofThread t (ms.map Move.key)) (List.append_nil _)

omit [Target] in
theorem ownReturns_quiet (running : returned e = none) :
    ownReturns t (log ++ [e]) = ownReturns t log := by
  rw [ownReturns, returns_snoc, running]
  exact congrArg (ofThread t) (List.append_nil _)

omit [Target] in
theorem ownMoves_others (far : Others t w w') : ownMoves t w'.log = ownMoves t w.log := by
  obtain ⟨more, grown, far⟩ := far
  have nothing : ofThread t ((moves more).map Move.key) = [] := by
    apply List.filter_eq_nil_iff.mpr
    intro key member
    obtain ⟨m, inside, rfl⟩ := List.mem_map.mp member
    obtain ⟨e, happened, isMove⟩ := List.mem_filterMap.mp inside
    simpa [Move.key, moved_thread isMove] using far e happened
  rw [grown, ownMoves, moves, List.filterMap_append, List.map_append, ofThread, List.filter_append]
  exact (congrArg _ nothing).trans (List.append_nil _)

omit [Target] in
theorem ownReturns_others (far : Others t w w') : ownReturns t w'.log = ownReturns t w.log := by
  obtain ⟨more, grown, far⟩ := far
  have nothing : ofThread t (returns more) = [] := by
    apply List.filter_eq_nil_iff.mpr
    intro key member
    obtain ⟨e, happened, isReturn⟩ := List.mem_filterMap.mp member
    simpa [returned_thread isReturn] using far e happened
  rw [grown, ownReturns, returns, List.filterMap_append, ofThread, List.filter_append]
  exact (congrArg _ nothing).trans (List.append_nil _)

omit [Target] in
theorem written_others {id : Nat} (far : Others t w w') :
    written w'.log (t, id) = written w.log (t, id) := by
  obtain ⟨more, grown, far⟩ := far
  have nothing : written more (t, id) = [] :=
    List.filterMap_eq_nil_iff.mpr fun e happened => stored_own (far e happened)
  rw [grown, written, List.filterMap_append]
  exact (congrArg _ nothing).trans (List.append_nil _)

end Others

def cursorProtocol : Protocol T ViewCall (PyResult PyValue) SegOp SegOp.Res SegMem where
  Known w := Recorded Begun w.log
  Inv := CursorInv view start
  Rely := CursorRely view
  Idle := Even
  rely_refl _ _ fresh := ⟨fresh, rfl, rfl⟩
  rely_trans _ a b d first second fresh := by
    obtain ⟨middle, cursor, bytes⟩ := second fresh
    obtain ⟨before, cursor', bytes'⟩ := first middle
    exact ⟨before, cursor.trans cursor', bytes.trans bytes'⟩
  idle_stable t w w' _ even _ _ _ far := by
    rw [Even, ownMoves_others far, ownReturns_others far]
    exact even

variable {view start} {t : T} {id : Nat} {c : ViewCall} {w now : ViewWorld T} {e : ViewEvent T}

section Steps

/-- An event that neither stores a byte nor moves the cursor. -/
theorem inv_quiet {mem : SegMem} (inv : CursorInv view start w) (bytes : mem.bytes = w.mem.bytes)
    (cursors : mem.cursors = w.mem.cursors) (still : moved e = none)
    (silent : ∀ key, stored key e = none) (answered : Answered view w.log e) :
    CursorInv view start ⟨mem, w.log ++ [e]⟩ := by
  have order : moves (w.log ++ [e]) = moves w.log := by
    rw [moves_snoc, still]
    exact List.append_nil _
  have place : cursorOf view ⟨mem, w.log ++ [e]⟩ = cursorOf view w := by
    rw [cursorOf, cursors]
    rfl
  refine ⟨?_, ?_, ?_, ?_, ?_, recorded_snoc.mpr ⟨inv.answered, answered⟩⟩
  · rw [place, order]
    exact inv.total
  · rw [place]
    exact inv.bounded
  · rw [order]
    exact inv.apart
  · rw [place, order]
    exact inv.behind
  · rw [order]
    intro m member isWrite
    obtain ⟨data, packs, length, offsets, there⟩ := inv.kept m member isWrite
    refine ⟨data, packs, length, ?_, ?_⟩
    · rw [written_snoc, silent]
      exact (List.append_nil _).trans offsets
    · rw [bytes]
      exact there

/-- A byte stored beyond the cursor, by a call that has not moved it. -/
theorem inv_store {offset : Nat} {byte : UInt8} (inv : CursorInv view start w)
    (beyond : dataPtr (cursorOf view w) ≤ offset) (new : (t, id) ∉ ownMoves t w.log) :
    CursorInv view start ⟨(SegMem.exec (.writeByte offset byte) w.mem).2,
      w.log ++ [.access t id c (.writeByte offset byte) ()]⟩ := by
  have order : moves (w.log ++ [.access t id c (.writeByte offset byte) ()]) = moves w.log := by
    rw [moves_snoc]
    exact List.append_nil _
  refine ⟨?_, inv.bounded, ?_, ?_, ?_, recorded_snoc.mpr ⟨inv.answered, trivial⟩⟩
  · rw [order]
    exact inv.total
  · rw [order]
    exact inv.apart
  · rw [order]
    exact inv.behind
  · rw [order]
    intro m member isWrite
    obtain ⟨data, packs, length, offsets, there⟩ := inv.kept m member isWrite
    -- a call that has moved the cursor stores nothing any more
    have other : (t, id) ≠ m.key := by
      intro same
      apply new
      rw [ownMoves, ofThread, List.mem_filter]
      exact ⟨List.mem_map.mpr ⟨m, member, same.symm⟩, decide_eq_true rfl⟩
    -- its bytes lie before the cursor, the new one does not
    have below := inv.behind m member
    refine ⟨data, packs, length, ?_, ?_⟩
    · rw [written_snoc, stored, if_neg other]
      exact (List.append_nil _).trans offsets
    · rw [← there]
      rw [Reader.span_length]
      apply Reader.span_congr
      intro i _ early
      have apart : i ≠ offset := by
        rw [dataPtr] at early beyond
        omega
      exact Function.update_of_ne apart _ _

/-- A move from the cursor over bytes that are inside the data area. -/
theorem inv_advance {n : BitVec 64} (usize : view.size < 2 ^ 64) (inv : CursorInv view start w)
    (room : cursorOf view w + n.toNat ≤ view.dataSize)
    (kept : kind c = .writes → Kept w ⟨t, id, c, cursorOf view w, n.toNat⟩) :
    CursorInv view start ⟨(SegMem.exec (.fetchAddCursor view.id n) w.mem).2,
      w.log ++ [.access t id c (.fetchAddCursor view.id n) (w.mem.cursors view.id)]⟩ := by
  have order :
    moves (w.log ++ [.access t id c (.fetchAddCursor view.id n) (w.mem.cursors view.id)]) =
      moves w.log ++ [⟨t, id, c, cursorOf view w, n.toNat⟩] := moves_snoc
  have limit : view.dataSize < 2 ^ 64 := by
    rw [MappedView.dataSize]
    omega
  -- inside the data area the cursor does not wrap
  have place : cursorOf view ⟨(SegMem.exec (.fetchAddCursor view.id n) w.mem).2,
      w.log ++ [.access t id c (.fetchAddCursor view.id n) (w.mem.cursors view.id)]⟩ =
        cursorOf view w + n.toNat := by
    simp only [cursorOf, SegMem.exec, Function.update_self, BitVec.toNat_add]
    apply Nat.mod_eq_of_lt
    exact Nat.lt_of_le_of_lt room limit
  refine ⟨?_, ?_, ?_, ?_, ?_, recorded_snoc.mpr ⟨inv.answered, trivial⟩⟩
  · rw [place, order, inv.total, List.map_append, List.sum_append]
    simp [Nat.add_assoc]
  · rw [place]
    exact room
  · rw [order, List.pairwise_append]
    refine ⟨inv.apart, List.pairwise_singleton _ _, ?_⟩
    intro m member last isLast
    rw [List.mem_singleton.mp isLast]
    exact inv.behind m member
  · rw [place, order]
    intro m member
    rcases List.mem_append.mp member with old | new
    · exact (inv.behind m old).trans (Nat.le_add_right _ _)
    · rw [List.mem_singleton.mp new]
  · rw [order]
    intro m member isWrite
    have same : ∀ key, written
        (w.log ++ [.access t id c (.fetchAddCursor view.id n) (w.mem.cursors view.id)]) key =
          written w.log key := by
      intro key
      rw [written_snoc]
      exact List.append_nil _
    have before : Kept w m := by
      rcases List.mem_append.mp member with old | new
      · exact inv.kept m old isWrite
      · cases List.mem_singleton.mp new
        exact kept isWrite
    obtain ⟨data, packs, length, offsets, there⟩ := before
    exact ⟨data, packs, length, (same _).trans offsets, there⟩

omit [Target] in
/-- A thread counts on nothing across a disturbance by another. -/
theorem rely_disturbed {u : T} {mem : SegMem} (other : e.thread ≠ u) (disturb : disturbs e = true) :
    CursorRely view u w ⟨mem, w.log ++ [e]⟩ :=
  fun fresh => absurd (stale_snoc.mpr ⟨loads_own other, .inl ⟨other, disturb⟩⟩) fresh

omit [Target] in
theorem rely_quiet {u : T} {mem : SegMem} (other : loadsCursor u e = false)
    (cursors : mem.cursors = w.mem.cursors) (bytes : mem.bytes = w.mem.bytes) :
    CursorRely view u w ⟨mem, w.log ++ [e]⟩ := by
  intro fresh
  refine ⟨fun stale => fresh (stale_snoc.mpr ⟨other, .inr stale⟩), ?_, bytes⟩
  rw [cursors]

theorem commit_neutral {o : SegOp} {r : o.Res} {mem : SegMem} (inv : CursorInv view start w)
    (neutral : Neutral o) (does : SegMem.exec o w.mem = (r, mem)) :
    (cursorProtocol view start).Commit t w ⟨mem, w.log ++ [.access t id c o r]⟩ := by
  obtain ⟨rfl, rfl⟩ := exec_eq does
  obtain ⟨bytes, cursors⟩ := neutral_kept (m := w.mem) neutral
  obtain ⟨still, silent, loads, _⟩ := neutral_event t id c (SegMem.exec o w.mem).1 neutral
  intro _
  exact ⟨inv_quiet inv bytes cursors still silent trivial,
    fun u _ => rely_quiet (loads u) cursors bytes⟩

end Steps

section Calls

/-- From `a` to `b` nothing happened that a call in progress would notice. -/
structure Still (view : MappedView) (t : T) (id : Nat) (a b : ViewWorld T) : Prop where
  moved : ownMoves t b.log = ownMoves t a.log
  returned : ownReturns t b.log = ownReturns t a.log
  wrote : written b.log (t, id) = written a.log (t, id)
  grown : a.log <+: b.log
  rely : CursorRely view t a b

theorem still_env {w' : ViewWorld T} (env : (cursorProtocol view start).Env t w w') :
    Still view t id w w' := by
  obtain ⟨more, grown, _⟩ := env.others
  exact ⟨ownMoves_others env.others, ownReturns_others env.others, written_others env.others,
    ⟨more, grown.symm⟩, env.rely⟩

omit [Target] in
theorem still_neutral {o : SegOp} {r : o.Res} {mem : SegMem} (neutral : Neutral o)
    (does : SegMem.exec o w.mem = (r, mem)) :
    Still view t id w ⟨mem, w.log ++ [.access t id c o r]⟩ := by
  obtain ⟨rfl, rfl⟩ := exec_eq does
  obtain ⟨bytes, cursors⟩ := neutral_kept (m := w.mem) neutral
  obtain ⟨still, silent, loads, _⟩ := neutral_event t id c (SegMem.exec o w.mem).1 neutral
  refine ⟨ownMoves_quiet still, ownReturns_quiet rfl, ?_, List.prefix_append _ _,
    rely_quiet (loads t) cursors bytes⟩
  rw [written_snoc, silent]
  exact List.append_nil _

/-- A call that has not moved the cursor. -/
structure Unmoved (t : T) (id : Nat) (y : ViewWorld T) : Prop where
  even : Even t y
  new : (t, id) ∉ ownMoves t y.log

/-- A call that loaded `pos` and has copied `done` there. -/
structure Placing (view : MappedView) (t : T) (id : Nat) (pos : BitVec 64) (done : List UInt8)
    (y : ViewWorld T) : Prop where
  unmoved : Unmoved t id y
  offsets : written y.log (t, id) = List.range' (dataPtr pos.toNat) done.length
  there : ¬ Stale t y.log → y.mem.cursors view.id = pos ∧
    Reader.span y.mem.bytes (dataPtr pos.toNat) done.length = done

/-- A call that has moved the cursor and will return `v`. -/
structure Paid (view : MappedView) (t : T) (id : Nat) (c : ViewCall) (v : PyValue)
    (y : ViewWorld T) : Prop where
  own : ownMoves t y.log = ownReturns t y.log ++ [(t, id)]
  made : ∃ m ∈ moves y.log, MoveOf view t id c v m

/-- Where a call stands that is about to give `result`. -/
def Closed (view : MappedView) (t : T) (id : Nat) (c : ViewCall) (result : PyResult PyValue)
    (y : ViewWorld T) : Prop :=
  match result with
  | .ok v => Paid view t id c v y
  | .error _ => Even t y

variable {pos : BitVec 64} {done : List UInt8} {v : PyValue} {a b : ViewWorld T}

omit [Target] in
theorem even_still (even : Even t a) (still : Still view t id a b) : Even t b := by
  rw [Even, still.moved, still.returned]
  exact even

omit [Target] in
theorem unmoved_still (unmoved : Unmoved t id a) (still : Still view t id a b) :
    Unmoved t id b := by
  refine ⟨even_still unmoved.even still, ?_⟩
  rw [still.moved]
  exact unmoved.new

omit [Target] in
/-- An access of its own that is no move. -/
theorem unmoved_access {o : SegOp} {r : o.Res} {mem : SegMem} (unmoved : Unmoved t id w)
    (still : moved (.access t id c o r : ViewEvent T) = none) :
    Unmoved t id ⟨mem, w.log ++ [.access t id c o r]⟩ := by
  refine ⟨?_, ?_⟩
  · rw [Even, ownMoves_quiet still, ownReturns_quiet rfl]
    exact unmoved.even
  · rw [ownMoves_quiet still]
    exact unmoved.new

omit [Target] in
theorem placing_still (placing : Placing view t id pos done a) (still : Still view t id a b) :
    Placing view t id pos done b := by
  refine ⟨unmoved_still placing.unmoved still, still.wrote.trans placing.offsets, ?_⟩
  intro upToDate
  obtain ⟨before, cursor, bytes⟩ := still.rely upToDate
  rw [cursor, bytes]
  exact placing.there before

theorem paid_still (paid : Paid view t id c v a) (still : Still view t id a b) :
    Paid view t id c v b := by
  refine ⟨?_, ?_⟩
  · rw [still.moved, still.returned]
    exact paid.own
  · obtain ⟨m, member, isMove⟩ := paid.made
    exact ⟨m, (still.grown.filterMap moved).subset member, isMove⟩

theorem closed_still {result : PyResult PyValue} (closed : Closed view t id c result a)
    (still : Still view t id a b) : Closed view t id c result b := by
  cases result with
  | ok v => exact paid_still closed still
  | error e => exact even_still closed still

end Calls

section Rules
/-- The calls that use the cursor of one view, made by any thread at any time. -/
abbrev relativeSystem (build : Build) (view : MappedView) : ViewSystem T :=
  viewSystem build (fun _ => view) fun _ c => isRelative c = true

/-- The same calls, in runs in which no position is out of date where it is used. -/
abbrev undisturbedSystem (build : Build) (view : MappedView) : ViewSystem T :=
  (relativeSystem build view).under Undisturbed

variable {build : Build} {α : Type} {pos : BitVec 64} {done : List UInt8} {v : PyValue}

theorem wp_neutral {p : SegProg α} {J : ViewWorld T → Prop} (only : p.Only Neutral)
    (keeps : ∀ a b, J a → Still view t id a b → J b)
    (commit : (cursorProtocol view start).Commit t w now) (inside : J now) :
    (cursorProtocol view start).wp (undisturbedSystem build view) t id c p
      (fun _ x y => (cursorProtocol view start).Commit t x y ∧ J y) w now := by
  refine Protocol.wp_only ?_ ?_ only commit inside
  · exact fun a b inside env => keeps a b inside (still_env env)
  · intro o a r mem neutral inside inv does
    exact ⟨keeps a _ inside (still_neutral neutral does), commit_neutral inv neutral does⟩

/-- A guard around a body: taking and dropping it changes nothing a call counts on. -/
theorem wp_guard {lock unlock : SegProg Unit} {body : SegProg α} {J : ViewWorld T → Prop}
    {K : α → ViewWorld T → Prop} (locks : lock.Only Neutral) (unlocks : unlock.Only Neutral)
    (before : ∀ a b, J a → Still view t id a b → J b)
    (after : ∀ r a b, K r a → Still view t id a b → K r b)
    (commit : (cursorProtocol view start).Commit t w now) (inside : J now)
    (inner : ∀ x y, (cursorProtocol view start).Commit t x y → J y →
      (cursorProtocol view start).wp (undisturbedSystem build view) t id c body
        (fun r x y => (cursorProtocol view start).Commit t x y ∧ K r y) x y) :
    (cursorProtocol view start).wp (undisturbedSystem build view) t id c
      (lock.bind fun _ => body.bind fun r => unlock.bind fun _ => .ret r)
      (fun r x y => (cursorProtocol view start).Commit t x y ∧ K r y) w now := by
  rw [Protocol.wp_bind]
  refine Protocol.wp_mono ?_ (wp_neutral locks before commit inside)
  rintro _ x y ⟨commit, entered⟩
  rw [Protocol.wp_bind]
  refine Protocol.wp_mono ?_ (inner x y commit entered)
  rintro r x' y' ⟨commit, left⟩
  rw [Protocol.wp_bind]
  exact wp_neutral unlocks (after r) commit left

omit [DecidableEq T] [Target] in
theorem locks_neutral : readLock.Only Neutral ∧ readUnlock.Only Neutral ∧
    writeLock.Only Neutral ∧ writeUnlock.Only Neutral := by
  refine ⟨⟨trivial, ?_, trivial⟩, ⟨trivial, fun _ => trivial⟩,
    ⟨trivial, fun _ => trivial, trivial⟩, ⟨trivial, fun _ => trivial⟩⟩
  intro cur
  dsimp only
  split
  · exact ⟨trivial, fun _ => trivial⟩
  · trivial

/-- The position a call goes on with is the cursor, in the data area. -/
theorem wp_load {next : BitVec 64 → SegProg α} {post : α → ViewWorld T → ViewWorld T → Prop}
    (commit : (cursorProtocol view start).Commit t w now) (unmoved : Unmoved t id now)
    (clear : written now.log (t, id) = [])
    (later : ∀ x y pos, (cursorProtocol view start).Commit t x y → Placing view t id pos [] y →
      pos.toNat ≤ view.dataSize →
        (cursorProtocol view start).wp (undisturbedSystem build view) t id c (next pos) post x y) :
    (cursorProtocol view start).wp (undisturbedSystem build view) t id c
      (.op (.loadCursor view.id) next) post w now := by
  refine Protocol.wp_op commit ?_
  intro w' env _ r mem does
  obtain ⟨rfl, rfl⟩ := exec_eq does
  have still : Still view t id now w' := still_env env
  have here : Placing view t id (w'.mem.cursors view.id) []
      ⟨w'.mem, w'.log ++ [.access t id c (.loadCursor view.id) (w'.mem.cursors view.id)]⟩ := by
    refine ⟨unmoved_access (unmoved_still unmoved still) rfl, ?_, fun _ => ⟨rfl, rfl⟩⟩
    rw [written_snoc]
    exact (List.append_nil _).trans (still.wrote.trans clear)
  refine later _ _ _ ?_ here env.inv.bounded
  intro _
  exact ⟨inv_quiet env.inv rfl rfl rfl (fun _ => rfl) trivial,
    fun u other => rely_quiet (loads_own other.symm) rfl rfl⟩

/-- Byte by byte, at a position that is up to date whenever a byte is stored. -/
theorem wp_copyTo {rest : List UInt8} (commit : (cursorProtocol view start).Commit t w now)
    (placing : Placing view t id pos done now) :
    (cursorProtocol view start).wp (undisturbedSystem build view) t id c
      (copyTo (dataPtr pos.toNat + done.length) rest).run
      (fun r x y => (cursorProtocol view start).Commit t x y ∧ r = .ok () ∧
        Placing view t id pos (done ++ rest) y) w now := by
  -- `done` is at the position, `rest` is still to come
  induction rest generalizing w now done with
  | nil =>
      rw [List.append_nil]
      exact ⟨commit, rfl, placing⟩
  | cons byte rest ih =>
      rw [copyTo, Protocol.wp_run_bind]
      refine Protocol.wp_op commit ?_
      intro w' env enabled r mem does
      obtain ⟨rfl, rfl⟩ := exec_eq does
      obtain ⟨unmoved, offsets, there⟩ := placing_still placing (still_env env)
      obtain ⟨cursor, copied⟩ := there enabled.2
      have stores : (cursorProtocol view start).Commit t w'
          ⟨(SegMem.exec (.writeByte (dataPtr pos.toNat + done.length) byte) w'.mem).2, w'.log ++
            [.access t id c (.writeByte (dataPtr pos.toNat + done.length) byte) ()]⟩ := by
        intro _
        refine ⟨inv_store env.inv ?_ unmoved.new, fun u other => rely_disturbed other.symm rfl⟩
        rw [cursorOf, cursor]
        exact Nat.le_add_right _ _
      have one_more : Placing view t id pos (done ++ [byte])
          ⟨(SegMem.exec (.writeByte (dataPtr pos.toNat + done.length) byte) w'.mem).2, w'.log ++
            [.access t id c (.writeByte (dataPtr pos.toNat + done.length) byte) ()]⟩ := by
        refine ⟨unmoved_access unmoved rfl, ?_, fun _ => ⟨cursor, ?_⟩⟩
        · rw [written_snoc, offsets, stored, if_pos rfl, List.length_append]
          exact List.range'_1_concat.symm
        · rw [List.length_append, Reader.span_append]
          congr 1
          · rw [← copied, Reader.span_length]
            apply Reader.span_congr
            intro i _ early
            exact Function.update_of_ne (by omega) _ _
          · simp [Reader.span, SegMem.exec]
      have next := ih stores one_more
      rw [List.length_append, ← Nat.add_assoc, List.append_assoc] at next
      exact next

/-- What a call has to show for the move it makes. -/
structure Earned (view : MappedView) (t : T) (c : ViewCall) (v : PyValue) (pos n : Nat)
    (done : List UInt8) (y : ViewWorld T) : Prop where
  room : pos + n ≤ view.dataSize
  write : kind c = .writes → Packs c done ∧ n = done.length
  read : ∀ tag, c = .read tag → ¬ Stale t y.log →
    ∃ data, decode data (unpackOne (view.dataSize - pos) tag) = .ok (v, n)

/-- The position is up to date, so it is the cursor that is moved. -/
theorem wp_fetchAdd {n : Nat} (usize : view.size < 2 ^ 64)
    (commit : (cursorProtocol view start).Commit t w now) (placing : Placing view t id pos done now)
    (earned : Earned view t c v pos.toNat n done now) :
    (cursorProtocol view start).wp (undisturbedSystem build view) t id c (fetchAdd view n).run
      (fun r x y => (cursorProtocol view start).Commit t x y ∧ r = .ok () ∧
        Paid view t id c v y) w now := by
  rw [fetchAdd, Protocol.wp_run_bind]
  refine Protocol.wp_op commit ?_
  intro w' env enabled r mem does
  obtain ⟨rfl, rfl⟩ := exec_eq does
  have still : Still view t id now w' := still_env env
  obtain ⟨unmoved, offsets, there⟩ := placing_still placing still
  obtain ⟨cursor, copied⟩ := there enabled.2
  -- the cursor is still the position that was loaded
  have here : cursorOf view w' = pos.toNat := congrArg BitVec.toNat cursor
  have fits : (BitVec.ofNat 64 n).toNat = n := by
    have room := earned.room
    rw [MappedView.dataSize] at room
    rw [BitVec.toNat_ofNat, Nat.mod_eq_of_lt]
    omega
  refine ⟨?_, rfl, ?_⟩
  · intro _
    refine ⟨inv_advance usize env.inv ?_ ?_, fun u other => rely_disturbed other.symm rfl⟩
    · rw [here, fits]
      exact earned.room
    · intro isWrite
      obtain ⟨packs, rfl⟩ := earned.write isWrite
      rw [here, fits]
      exact ⟨done, packs, rfl, offsets, copied⟩
  · have order : moves (w'.log ++ [.access t id c (.fetchAddCursor view.id (BitVec.ofNat 64 n))
        (w'.mem.cursors view.id)]) = moves w'.log ++ [⟨t, id, c, pos.toNat, n⟩] := by
      rw [moves_snoc, moved, fits, cursor]
      rfl
    refine ⟨?_, ⟨t, id, c, pos.toNat, n⟩, ?_, rfl, rfl, ?_⟩
    · rw [ownReturns_quiet rfl, ← unmoved.even]
      simp only [ownMoves, SegMem.exec, order, List.map_append, ofThread, List.filter_append]
      simp [Move.key]
    · simp only [SegMem.exec, order]
      exact List.mem_append_right _ List.mem_cons_self
    · intro tag isRead
      exact earned.read tag isRead (still.rely enabled.2).1

/-- A write without offset, from its cursor load to its return. -/
theorem wp_place {bytes : List UInt8} (usize : view.size < 2 ^ 64) (isWrite : kind c = .writes)
    (packs : Packs c bytes) (commit : (cursorProtocol view start).Commit t w now)
    (unmoved : Unmoved t id now) (clear : written now.log (t, id) = []) :
    (cursorProtocol view start).wp (undisturbedSystem build view) t id c (place view bytes none).run
      (fun r x y => (cursorProtocol view start).Commit t x y ∧
        Closed view t id c (r.map fun _ => .none) y) w now := by
  rw [place, Protocol.wp_run_bind]
  refine wp_load commit unmoved clear ?_
  intro x y pos commit placing inside
  change (cursorProtocol view start).wp _ t id c
    (liftM (checkBounds view pos.toNat bytes.length) >>= _ : SegM Unit).run _ x y
  rw [Protocol.wp_run_bind]
  cases passed : checkBounds view pos.toNat bytes.length with
  | error e => exact ⟨commit, placing.unmoved.even⟩
  | ok _ =>
      -- the check was made on that position, before the lock was taken
      obtain ⟨_, room⟩ := ViewBounds.checkBounds_fits usize passed
      refine wp_guard
        (K := fun (r : PyResult Unit) y => Closed view t id c (r.map fun _ => .none) y)
        locks_neutral.2.2.1 locks_neutral.2.2.2 (fun a b => placing_still)
        (fun r a b => closed_still) commit placing ?_
      intro x y commit placing
      rw [Protocol.wp_run_bind]
      refine Protocol.wp_mono ?_ (wp_copyTo commit placing)
      rintro r x' y' ⟨commit, rfl, copied⟩
      refine Protocol.wp_mono ?_ (wp_fetchAdd (v := .none) usize commit copied
        ⟨room, fun _ => ⟨packs, rfl⟩, ?_⟩)
      · rintro r x'' y'' ⟨commit, rfl, paid⟩
        exact ⟨commit, paid⟩
      · rintro tag rfl
        cases isWrite

/-- The data area from a position on. -/
def slice (pos : BitVec 64) (y : ViewWorld T) (i : Nat) : UInt8 :=
  y.mem.bytes (dataPtr pos.toNat + i)

/-- A decoder of which `reader` is left has so far gone the way it goes on the bytes that
are there, if the position is up to date. -/
def Going (t : T) (pos : BitVec 64) (whole reader : Reader α) (y : ViewWorld T) : Prop :=
  ¬ Stale t y.log → Reader.run (slice pos y) whole = Reader.run (slice pos y) reader

omit [Target] in
theorem going_still {whole reader : Reader α} {a b : ViewWorld T}
    (going : Going t pos whole reader a)
    (still : Still view t id a b) : Going t pos whole reader b := by
  intro upToDate
  obtain ⟨before, _, bytes⟩ := still.rely upToDate
  have same : slice pos b = slice pos a := by
    funext i
    rw [slice, bytes, slice]
  rw [same]
  exact going before

theorem wp_onSlice {len : Nat} {met : α → Prop} {whole reader : Reader α}
    (within : Reader.Within len reader met) (commit : (cursorProtocol view start).Commit t w now)
    (placing : Placing view t id pos [] now) (going : Going t pos whole reader now) :
    (cursorProtocol view start).wp (undisturbedSystem build view) t id c (onSlice pos.toNat reader)
      (fun value x y => (cursorProtocol view start).Commit t x y ∧ met value ∧
        Placing view t id pos [] y ∧ Going t pos whole (.done value) y) w now := by
  induction reader generalizing w now with
  | done value => exact ⟨commit, within, placing, going⟩
  | load index next ih =>
      refine Protocol.wp_op commit ?_
      intro w' env _ r mem does
      have still : Still view t id now w' := still_env env
      have neutral : Neutral (.readByte (dataPtr pos.toNat + index)) := trivial
      have loaded : Still view t id w' ⟨mem, w'.log ++
          [.access t id c (.readByte (dataPtr pos.toNat + index)) r]⟩ := still_neutral neutral does
      apply ih r (within.2 r) (commit_neutral env.inv neutral does)
      · exact placing_still (placing_still placing still) loaded
      · have here := going_still (going_still going still) loaded
        intro upToDate
        obtain ⟨rfl, rfl⟩ := exec_eq does
        exact here upToDate

theorem wp_read {tag : String} (usize : view.size < 2 ^ 64)
    (commit : (cursorProtocol view start).Commit t w now) (unmoved : Unmoved t id now)
    (clear : written now.log (t, id) = []) :
    (cursorProtocol view start).wp (undisturbedSystem build view) t id (.read tag)
      (read build view tag).run
      (fun r x y => (cursorProtocol view start).Commit t x y ∧ Closed view t id (.read tag) r y)
      w now := by
  rw [View.read, Protocol.wp_run_bind]
  refine wp_load commit unmoved clear ?_
  intro x y pos commit placing inside
  have limit : view.dataSize < 2 ^ 64 := by
    rw [MappedView.dataSize]
    omega
  have size : (BitVec.ofNat 64 view.dataSize).toNat = view.dataSize := by
    rw [BitVec.toNat_ofNat, Nat.mod_eq_of_lt limit]
  -- the cursor is in the data area, so there is nothing to borrow
  have fits : pos ≤ BitVec.ofNat 64 view.dataSize := by
    rw [BitVec.le_def, size]
    exact inside
  have len : (BitVec.ofNat 64 view.dataSize - pos).toNat = view.dataSize - pos.toNat := by
    rw [BitVec.toNat_sub_of_le fits, size]
  refine wp_guard locks_neutral.1 locks_neutral.2.1 (fun a b => placing_still)
    (fun r a b => closed_still) commit placing ?_
  intro x y commit placing
  rw [Build.minus_ok build fits, Protocol.wp_run_bind]
  change (cursorProtocol view start).wp _ t id (.read tag)
    (ExceptT.mk _ >>= _ : SegM PyValue).run _ x y
  rw [Protocol.wp_run_bind, len]
  refine Protocol.wp_mono ?_
    (wp_onSlice (DecodeBounds.unpackOne_reads tag) commit placing fun _ => rfl)
  rintro (e | ⟨value, bytesRead⟩) x' y' ⟨commit, took, placing, going⟩
  · exact ⟨commit, placing.unmoved.even⟩
  · obtain ⟨_, within⟩ := took _ rfl
    dsimp only
    rw [Protocol.wp_run_bind]
    refine Protocol.wp_mono ?_ (wp_fetchAdd (v := value) usize commit placing ⟨?_, ?_, ?_⟩)
    · rintro r x'' y'' ⟨commit, rfl, paid⟩
      exact ⟨commit, paid⟩
    · omega
    · rintro ⟨⟩
    · rintro tag' same upToDate
      cases same
      exact ⟨slice pos y', going upToDate⟩

theorem wp_call (usize : view.size < 2 ^ 64) (relative : isRelative c = true)
    (commit : (cursorProtocol view start).Commit t w now) (unmoved : Unmoved t id now)
    (clear : written now.log (t, id) = []) :
    (cursorProtocol view start).wp (undisturbedSystem build view) t id c (viewCode build view c)
      (fun r x y => (cursorProtocol view start).Commit t x y ∧ Closed view t id c r y) w now := by
  -- a write returns `None` after its bytes are placed
  have writes : ∀ bytes, kind c = .writes → Packs c bytes →
      (cursorProtocol view start).wp (undisturbedSystem build view) t id c
        (place view bytes none >>= fun _ => pure .none : SegM PyValue).run
        (fun r x y => (cursorProtocol view start).Commit t x y ∧ Closed view t id c r y) w now := by
    intro bytes isWrite packs
    rw [Protocol.wp_run_bind]
    refine Protocol.wp_mono ?_ (wp_place usize isWrite packs commit unmoved clear)
    intro r x y closed
    cases r <;> exact closed
  cases c with
  | write data offset =>
      cases offset with
      | some o => cases relative
      | none =>
          cases packed : packValue data [] with
          | error e =>
              rw [viewCode, viewCall, write, packed]
              exact ⟨commit, unmoved.even⟩
          | ok bytes =>
              rw [viewCode, viewCall, write, packed]
              exact writes bytes rfl packed
  | writeMixed items offset =>
      cases offset with
      | some o => cases relative
      | none =>
          cases packed : packMixed items with
          | error e =>
              rw [viewCode, viewCall, writeMixed, packed]
              exact ⟨commit, unmoved.even⟩
          | ok bytes =>
              rw [viewCode, viewCall, writeMixed, packed]
              exact writes bytes rfl packed
  | read tag => exact wp_read usize commit unmoved clear
  | _ => cases relative

end Rules

section Sound

theorem closed_finish {value : PyResult PyValue}
    (commit : (cursorProtocol view start).Commit t w now)
    (closed : Closed view t id c value now) :
    (cursorProtocol view start).Finish t id c value w now := by
  refine ⟨?_, ?_⟩
  · intro known
    obtain ⟨inv, relied⟩ := commit (recorded_snoc.mp known).1
    refine ⟨inv_quiet inv rfl rfl rfl (fun _ => rfl) ?_, ?_⟩
    · cases value with
      | ok v => exact closed.made
      | error e => trivial
    · intro u other
      exact (cursorProtocol view start).rely_trans u w now _ (relied u other)
        (rely_quiet rfl rfl rfl)
  · intro _
    change Even t _
    rw [Even, World.push_log, ownMoves_quiet rfl]
    cases value with
    | ok v =>
        rw [ownReturns, returns_snoc, ofThread, List.filter_append]
        refine closed.own.trans ?_
        congr 1
        simp [returned]
    | error e =>
        rw [ownReturns_quiet rfl]
        exact closed

omit [Target] in
/-- A call that begins has a new number. -/
theorem unmoved_invoke (begun : Recorded Begun w.log) (even : Even t w) :
    Unmoved t w.log.length (w.push (.invoke t w.log.length c)) ∧
      written (w.push (.invoke t w.log.length c)).log (t, w.log.length) = [] := by
  refine ⟨⟨?_, ?_⟩, ?_⟩
  · rw [Even, World.push_log, ownMoves_quiet rfl, ownReturns_quiet rfl]
    exact even
  · rw [World.push_log, ownMoves_quiet rfl, ownMoves, ofThread, List.mem_filter, List.mem_map]
    rintro ⟨⟨m, member, same⟩, _⟩
    -- a move of this number would be an access before the call began
    obtain ⟨e, happened, isMove⟩ := List.mem_filterMap.mp member
    unfold moved at isMove
    split at isMove
    · cases isMove
      have early := begun_early begun happened
      have number := congrArg Prod.snd same
      simp only [Move.key] at number
      omega
    · cases isMove
  · rw [World.push_log, written_snoc]
    refine (List.append_nil _).trans (List.filterMap_eq_nil_iff.mpr ?_)
    intro e happened
    unfold stored
    split
    · apply if_neg
      intro same
      have early := begun_early begun happened
      have number := congrArg Prod.snd same
      simp only at number
      omega
    · rfl

theorem cursor_sound (build : Build) (usize : view.size < 2 ^ 64)
    (inside : (start.cursors view.id).toNat ≤ view.dataSize) :
    (cursorProtocol view start).Sound (undisturbedSystem (T := T) build view) start where
  known _ reach := reach.begun.1
  init := ⟨rfl, inside, List.Pairwise.nil, by simp [moves], by simp [moves], recorded_nil⟩
  idle _ := rfl
  call t c w may inv known even := by
    have begun : (cursorProtocol view start).Commit t w (w.push (.invoke t w.log.length c)) := by
      intro _
      exact ⟨inv_quiet inv rfl rfl rfl (fun _ => rfl) trivial, fun u _ => rely_quiet rfl rfl rfl⟩
    obtain ⟨unmoved, clear⟩ := unmoved_invoke (c := c) known even
    refine Protocol.wp_mono ?_ (wp_call usize may begun unmoved clear)
    rintro value x y ⟨commit, closed⟩
    exact closed_finish commit closed

/-- Neither move covers a position that the other covers. -/
def Apart (a b : Move T) : Prop := a.pos + a.taken ≤ b.pos ∨ b.pos + b.taken ≤ a.pos

instance : Std.Symm (Apart (T := T)) := ⟨fun _ _ => Or.symm⟩

omit [Target] in
/-- Which calls there are can be told thread by thread. -/
theorem perm_of_threads {a b : List (T × Nat)} (same : ∀ t, ofThread t a = ofThread t b) :
    a.Perm b := by
  rw [List.perm_iff_count]
  intro key
  have own : ∀ keys : List (T × Nat), (ofThread key.1 keys).count key = keys.count key := by
    intro keys
    rw [ofThread, List.count_filter]
    exact decide_eq_true rfl
  rw [← own a, ← own b, same]

/-- In runs in which no position is out of date where it is used, the calls of all threads
take consecutive places: the cursor never leaves the data area and is where the bytes of
the calls that succeeded end, and what each write has put down is in a place of its own
and is still there. -/
theorem undisturbed_calls_keep_clear {build : Build} (usize : view.size < 2 ^ 64)
    (inside : (start.cursors view.id).toNat ≤ view.dataSize) {cfg : ViewConfig T}
    (reach : Reachable (undisturbedSystem build view) start cfg) :
    cursorOf view cfg.world ≤ view.dataSize ∧
    cursorOf view cfg.world =
      (start.cursors view.id).toNat + ((moves cfg.world.log).map Move.taken).sum ∧
    ((∀ t, cfg.running t = none) →
      ((moves cfg.world.log).map Move.key).Perm (returns cfg.world.log)) ∧
    (∀ t id c v, .finish t id c (.ok v) ∈ cfg.world.log →
      ∃ m ∈ moves cfg.world.log, MoveOf view t id c v m ∧ (kind c = .writes → Kept cfg.world m)) ∧
    ∀ t id c v u i d v', .finish t id c (.ok v) ∈ cfg.world.log → kind c = .writes →
      .finish u i d (.ok v') ∈ cfg.world.log → kind d = .writes → (t, id) ≠ (u, i) →
        (written cfg.world.log (t, id)).Disjoint (written cfg.world.log (u, i)) := by
  have sound : (cursorProtocol (T := T) view start).Sound (undisturbedSystem build view) start :=
    cursor_sound build usize inside
  have inv := sound.inv reach
  have answered : ∀ t id c v, .finish t id c (.ok v) ∈ cfg.world.log →
      ∃ m ∈ moves cfg.world.log, MoveOf view t id c v m ∧
        (kind c = .writes → Kept cfg.world m) := by
    intro t id c v member
    obtain ⟨pre, post, cut⟩ := List.append_of_mem member
    obtain ⟨m, made, isMove⟩ := inv.answered pre _ post cut
    have here : m ∈ moves cfg.world.log :=
      (List.IsPrefix.filterMap moved ⟨_, cut.symm⟩).subset made
    exact ⟨m, here, isMove, fun isWrite => inv.kept m here (isMove.2.1 ▸ isWrite)⟩
  refine ⟨inv.bounded, inv.total, ?_, answered, ?_⟩
  · intro idle
    exact perm_of_threads fun t => sound.idle_of reach (idle t)
  · intro t id c v u i d v' first isWrite second isWrite' differ
    obtain ⟨m, made, isMove, kept⟩ := answered t id c v first
    obtain ⟨m', made', isMove', kept'⟩ := answered u i d v' second
    obtain ⟨bytes, _, length, offsets, _⟩ := kept isWrite
    obtain ⟨bytes', _, length', offsets', _⟩ := kept' isWrite'
    rw [isMove.1] at offsets
    rw [isMove'.1] at offsets'
    have other : m ≠ m' := by
      rintro rfl
      exact differ (isMove.1.symm.trans isMove'.1)
    rw [offsets, offsets']
    intro offset here there
    rw [List.mem_range'_1, dataPtr] at here there
    have apart : (moves cfg.world.log).Pairwise Apart := inv.apart.imp .inl
    rcases apart.forall made made' other with before | before <;> omega

end Sound
end Protocol

section Examples

/-- A data area of one byte, and one of two. -/
def oneByte : MappedView := ⟨0, 5, by decide⟩

def twoBytes : MappedView := ⟨0, 6, by decide⟩

/-- The second thread loads the cursor after the first has moved it, and waits for the lock. -/
def oneAfterAnother : List (Interleaving.Choice (Fin 2) ViewCall) :=
  [[.call thread0 (.write (.bool true) none)], turns thread0 4,
    [.call thread1 (.write (.bool true) none)], turns thread1 2,
      turns thread0 1, turns thread1 4].flatten

theorem undisturbed_calls_oneAfterAnother :
    ∃ cfg : ViewConfig (Fin 2), returns cfg.world.log = [(0, 0), (1, 5)] ∧
      cursorOf twoBytes cfg.world = 2 ∧ cursorOf twoBytes cfg.world ≤ twoBytes.dataSize ∧
      ((moves cfg.world.log).map Move.key).Perm [(0, 0), (1, 5)] := by
  have ran : (schedule (@undisturbedSystem (Fin 2) _ littleEndian .release twoBytes)
      (fun _ _ o m => SegMem.exec o m) oneAfterAnother (.initial ⟨0, fun _ => 0, fun _ => 0⟩)).map
        (fun cfg => (returns cfg.world.log, cursorOf twoBytes cfg.world,
          (cfg.running 0).isNone && (cfg.running 1).isNone)) =
            some ([(0, 0), (1, 5)], 2, true) := by
    decide +kernel
  obtain ⟨cfg, reach, result⟩ := schedule_reaches
    (under_faithful (@view_faithful _ littleEndian _ _ _)) ran
  simp only [Prod.mk.injEq, Bool.and_eq_true, Option.isNone_iff_eq_none] at result
  obtain ⟨calls, place, first, second⟩ := result
  have idle : ∀ t, cfg.running t = none := by
    intro t
    match t with
    | 0 => exact first
    | 1 => exact second
  have holds := @undisturbed_calls_keep_clear _ _ littleEndian twoBytes _ _ (by decide) (by decide)
    cfg reach
  exact ⟨cfg, calls, place, holds.1, calls ▸ holds.2.2.1 idle⟩

/-- Both threads load the cursor before either has the lock. -/
def bothLoad : List (Interleaving.Choice (Fin 2) ViewCall) :=
  [[.call thread0 (.write (.bool true) none)], turns thread0 1,
    [.call thread1 (.write (.bool false) none)], turns thread1 1,
      turns thread0 4, turns thread1 4].flatten

/-- Both calls succeed with the same byte: the first is lost, and the cursor is past the end. -/
theorem shared_cursor_loses_write :
    ∃ cfg, Reachable (@relativeSystem (Fin 2) littleEndian .release oneByte)
        ⟨0, fun _ => 0, fun _ => 0⟩ cfg ∧
      (cfg.running 0).isNone ∧ (cfg.running 1).isNone ∧
      returns cfg.world.log = [(0, 0), (1, 2)] ∧
      written cfg.world.log (0, 0) = [4] ∧ written cfg.world.log (1, 2) = [4] ∧
      cfg.world.mem.bytes 4 = 0 ∧ cursorOf oneByte cfg.world = 2 ∧ oneByte.dataSize = 1 := by
  have ran : (schedule (@relativeSystem (Fin 2) littleEndian .release oneByte)
      (fun _ _ o m => SegMem.exec o m) bothLoad (.initial ⟨0, fun _ => 0, fun _ => 0⟩)).map
        (fun cfg => ((cfg.running 0).isNone && (cfg.running 1).isNone, returns cfg.world.log,
          [written cfg.world.log (0, 0), written cfg.world.log (1, 2)], cfg.world.mem.bytes 4,
          cursorOf oneByte cfg.world)) = some (true, [(0, 0), (1, 2)], [[4], [4]], 0, 2) := by
    decide +kernel
  obtain ⟨cfg, reach, result⟩ := schedule_reaches (@view_faithful _ littleEndian _ _ _) ran
  simp only [Prod.mk.injEq, Bool.and_eq_true, List.cons.injEq, and_true] at result
  obtain ⟨⟨first, second⟩, calls, ⟨mine, yours⟩, lost, place⟩ := result
  exact ⟨cfg, reach, first, second, calls, mine, yours, lost, place, rfl⟩

end Examples
end Membridge.SharedCursor
