import Membridge.RingBounds

/-!
Runs that leave the mapping of a ring, one for each way in which the header found
or a later creator's capacity can fail to contain the calls, and so the exact
condition under which they stay inside.
-/
namespace Membridge.RingEscapes
open Program Interleaving Python ByteOrder ByteReader Mixed Segment Arithmetic
open Spsc RingAlone RingBounds SpscDelivery

variable [Target] {build : Build} {self : Party → SpscRingBuffer} {t : Party}

section Straight
variable {α : Type}

omit [Target] in
theorem reads_straight (pos cap : BitVec 64) (count : Nat) :
    (readBytes build pos count cap).run.Straight fun _ => True := by
  apply Prog.straight_run_bind (minus_straight _ _)
  exact fun mask => readFrom_straight (fun _ => trivial) 0 count

omit [Target] in
theorem writes_straight (pos cap : BitVec 64) (bytes : List UInt8) :
    (writeBytes build pos bytes cap).run.Straight fun _ => True := by
  apply Prog.straight_run_bind (minus_straight _ _)
  exact fun mask => writeFrom_straight (fun _ _ => trivial) 0 bytes

/-- A pop that has loaded the head. -/
def popFrom (build : Build) (head : BitVec 64) : RingM 64 (Option (List UInt8)) := do
  let tail ← loadTail
  if head = tail then return none
  else
    let cap ← capacity
    let lenBytes ← readBytes build head 4 cap
    let payloadLen := BitVec.ofNat 64 (fromNeBytes lenBytes)
    let body ← build.plus head 4
    let payload ← readBytes build body payloadLen.toNat cap
    let frameLen ← build.plus 4 payloadLen
    storeHead (head + frameLen)
    return some payload

def answerFrom (build : Build) (head : BitVec 64) : RingProg 64 (PyResult PyValue) :=
  (do
    let popped ← (do
      match ← popFrom build head with
      | none => return none
      | some payload => return some (← popTyped none payload) : RingM 64 (Option PyValue))
    return popped.getD .none : RingM 64 PyValue).run

theorem pop_loads : (ringCode build self t (.pop none) : RingProg 64 (PyResult PyValue)) =
    .op .loadHead (answerFrom build) := rfl

omit [Target] in
theorem except_straight {result : PyResult α} :
    (liftM result : RingM 64 α).run.Straight fun _ => True := by
  cases result <;> trivial

theorem popFrom_straight (head : BitVec 64) : (popFrom build head).run.Straight fun _ => True := by
  apply Prog.straight_run_bind (Prog.straight_access trivial)
  intro tail
  dsimp only
  split
  · trivial
  · apply Prog.straight_run_bind (Prog.straight_access trivial)
    intro cap
    apply Prog.straight_run_bind (reads_straight head cap 4)
    intro lenBytes
    apply Prog.straight_run_bind (plus_straight _ _)
    intro body
    apply Prog.straight_run_bind (reads_straight body cap _)
    intro payload
    apply Prog.straight_run_bind (plus_straight _ _)
    intro frameLen
    exact Prog.straight_run_bind (Prog.straight_access trivial) fun _ => trivial

theorem answerFrom_straight (head : BitVec 64) :
    (answerFrom build head).Straight fun _ => True := by
  apply Prog.straight_run_bind
  · apply Prog.straight_run_bind (popFrom_straight head)
    intro front
    cases front with
    | none => trivial
    | some payload => exact Prog.straight_run_bind trivial fun _ => trivial
  · exact fun _ => trivial

theorem pop_straight : (ringCode build self t (.pop none) :
    RingProg 64 (PyResult PyValue)).Straight fun _ => True := by
  rw [pop_loads]
  exact ⟨trivial, answerFrom_straight⟩

theorem push_straight (data : PyValue) : (ringCode build self t (.push data) :
    RingProg 64 (PyResult PyValue)).Straight fun _ => True := by
  have pushed : (push build (self t) data : RingM 64 Bool).run.Straight fun _ => True := by
    apply Prog.straight_run_bind except_straight
    intro payload
    apply Prog.straight_run_bind (Prog.straight_access trivial)
    intro cap
    dsimp only
    split
    · trivial
    · apply Prog.straight_run_bind (Prog.straight_access trivial)
      intro head
      apply Prog.straight_run_bind (Prog.straight_access trivial)
      intro tail
      apply Prog.straight_run_bind (plus_straight _ _)
      intro needed
      split
      · trivial
      · apply Prog.straight_run_bind (writes_straight tail cap _)
        intro _
        apply Prog.straight_run_bind (plus_straight _ _)
        intro body
        apply Prog.straight_run_bind (writes_straight body cap payload)
        intro _
        exact Prog.straight_run_bind (Prog.straight_access trivial) fun _ => trivial
  exact Prog.straight_run_bind pushed fun _ => trivial

omit [Target] in
theorem new_straight (size : Nat) (creator : Bool) :
    (new size creator : RingM 64 Unit).run.Straight fun _ => True := by
  rw [new]
  split
  · trivial
  · split
    · dsimp only
      split
      · trivial
      · exact ⟨trivial, fun _ => ⟨trivial, fun _ => ⟨trivial, fun _ => trivial⟩⟩⟩
    · trivial

theorem spsc_straight (handle : SharedMemory) : (ringCode build self t (.spsc handle (.ok ())) :
    RingProg 64 (PyResult PyValue)).Straight fun _ => True := by
  have attached : (spsc handle (.ok ()) : RingM 64 SpscRingBuffer).run.Straight fun _ => True := by
    apply Prog.straight_run_bind except_straight
    intro _
    exact Prog.straight_run_bind (new_straight _ _) fun _ => trivial
  exact Prog.straight_run_bind attached fun _ => trivial

end Straight

section Slots
variable {ring : RingMem 64} {head : BitVec 64}

omit [Target] in
theorem slotOf_add (mask pos : BitVec 64) (m n : Nat) :
    slotOf mask (pos + BitVec.ofNat 64 m) n = slotOf mask pos (m + n) := by
  rw [slotOf, slotOf, BitVec.add_assoc, ← BitVec.ofNat_add]

omit [Target] in
theorem readFrom_reads (mask pos : BitVec 64) {first count i : Nat} (low : first ≤ i)
    (high : i < first + count) :
    ⟨.readByte (slotOf mask pos i), ring.data (slotOf mask pos i)⟩ ∈
      (readFrom .release pos mask first count).run.accesses RingMem.exec ring := by
  induction count generalizing first with
  | zero => omega
  | succ count ih =>
      apply Prog.accesses_later (plus_alone _ _ ring)
      by_cases here : i = first
      · subst here
        apply Prog.accesses_first
        exact List.mem_cons_self
      · apply Prog.accesses_later (access_alone _ ring)
        apply Prog.accesses_first
        exact ih (by omega) (by omega)

omit [Target] in
theorem readBytes_reads (pos cap : BitVec 64) {count i : Nat} (small : i < count) :
    ⟨.readByte (slotOf (cap - 1) pos i), ring.data (slotOf (cap - 1) pos i)⟩ ∈
      (readBytes .release pos count cap).run.accesses RingMem.exec ring := by
  apply Prog.accesses_later (minus_alone _ _ ring)
  exact readFrom_reads _ _ (Nat.zero_le i) (by omega)

/-- A pop reads every slot of its frame. -/
theorem popFrom_reads (apart : head ≠ ring.tail) {i : Nat}
    (small : i < 4 + frontLength { ring with head := head }) :
    ⟨.readByte (slotOf (ring.capacity - 1) head i), ring.data (slotOf (ring.capacity - 1) head i)⟩ ∈
      (popFrom .release head).run.accesses RingMem.exec ring := by
  apply Prog.accesses_later (loadTail_alone ring)
  rw [if_neg apart]
  apply Prog.accesses_later (capacity_alone ring)
  by_cases inPrefix : i < 4
  · apply Prog.accesses_first
    exact readBytes_reads _ _ inPrefix
  · obtain ⟨j, rfl⟩ := Nat.exists_eq_add_of_le (Nat.not_lt.mp inPrefix)
    apply Prog.accesses_later (readBytes_alone _ _ _ ring)
    apply Prog.accesses_later (plus_alone _ _ ring)
    apply Prog.accesses_first
    rw [← slotOf_add]
    apply readBytes_reads
    have fits : (BitVec.ofNat 64 (frontLength { ring with head := head })).toNat =
        frontLength { ring with head := head } := by
      rw [BitVec.toNat_ofNat]
      exact Nat.mod_eq_of_lt (Nat.lt_trans (frontLength_lt _) (by decide))
    exact Nat.lt_of_lt_of_eq (by omega) fits.symm

theorem answerFrom_reads (apart : head ≠ ring.tail) {i : Nat}
    (small : i < 4 + frontLength { ring with head := head }) :
    ⟨.readByte (slotOf (ring.capacity - 1) head i), ring.data (slotOf (ring.capacity - 1) head i)⟩ ∈
      (answerFrom .release head).accesses RingMem.exec ring := by
  apply Prog.accesses_first
  apply Prog.accesses_first
  exact popFrom_reads apart small

omit [Target] in
/-- Four neighbouring indices reach the last slot of any smaller capacity. -/
theorem reaches_last {cap : BitVec 64} (positive : 1 ≤ cap) (small : cap < 4) (head : BitVec 64) :
    ∃ i, i < 4 ∧ slotOf (cap - 1) head i = cap.toNat - 1 := by
  have mask : (cap - 1).toNat = cap.toNat - 1 := BitVec.toNat_sub_of_le positive
  have low : cap.toNat < 4 := small
  refine ⟨3 - head.toNat % 4, by omega, ?_⟩
  have place : (head + BitVec.ofNat 64 (3 - head.toNat % 4)).toNat % 4 = 3 := by
    rw [BitVec.toNat_add, BitVec.toNat_ofNat]
    omega
  rw [slotOf, BitVec.toNat_and, mask]
  generalize (head + BitVec.ofNat 64 (3 - head.toNat % 4)).toNat = p at place
  -- a mask below 4 only sees the last two bits
  have two : p &&& 3 = 3 := (Nat.and_two_pow_sub_one_eq_mod p 2).trans place
  have inside : 3 &&& (cap.toNat - 1) = cap.toNat - 1 := by
    have bound : cap.toNat - 1 < 2 ^ 2 := by omega
    rw [Nat.and_comm]
    exact Nat.and_two_pow_sub_one_of_lt_two_pow bound
  rw [← inside, ← Nat.and_assoc, two]

end Slots

/-- All parties have the same ring at hand. -/
abbrev shared (build : Build) (ring : SpscRingBuffer) (handles : SharedMemory → Prop) :
    RingSystem 64 :=
  ringSystem build (fun _ => ring) fun _ c => attachedBy handles c

abbrev RingConfig := Config Party RingCall (PyResult PyValue) (RingOp 64) RingOp.Res (RingMem 64)

omit [Target] in
theorem initial_idle (mem : RingMem 64) (t : Party) :
    (Config.initial mem : RingConfig).running t = none := rfl

/-- Some call read the byte of this slot. -/
def Reads (slot : Nat) (log : List (RingEvent 64)) : Prop :=
  ∃ t id c r, .access t id c (.readByte slot) r ∈ log

section Runs
variable (build) (ring : SpscRingBuffer) (handles : SharedMemory → Prop) {cfg : RingConfig}

/-- Any call can begin, -/
theorem call_begins {t : Party} {c : RingCall} (may : attachedBy handles c) {o : RingOp 64}
    {next : o.Res → RingProg 64 (PyResult PyValue)}
    (code : ringCode build (fun _ => ring) t c = .op o next) (idle : cfg.running t = none) :
    ∃ begun id, Steps (shared build ring handles) cfg begun ∧
      begun.world.mem = (RingMem.exec o cfg.world.mem).2 ∧
      (∀ u, u ≠ t → begun.running u = cfg.running u) ∧
      ∀ first, (next (RingMem.exec o cfg.world.mem).1).head = .inr first →
        begun.running t = some ⟨id, c, next (RingMem.exec o cfg.world.mem).1⟩ :=
  Steps.begins (fun _ _ => rfl) (fun _ _ => trivial) may code idle

/-- run to its end, -/
theorem call_ends {t : Party} {run : Running RingCall (PyResult PyValue) (RingOp 64) RingOp.Res}
    (busy : cfg.running t = some run) {o : RingOp 64}
    {next : o.Res → RingProg 64 (PyResult PyValue)} (at_op : run.rest.head = .inr ⟨o, next⟩)
    (straight : run.rest.Straight fun _ => True) :
    ∃ after, Steps (shared build ring handles) cfg after ∧
      after.running = Function.update cfg.running t none ∧
        RanAlone RingMem.exec t run.id run.call run.rest cfg.world after.world :=
  Steps.resume (fun _ _ => rfl) (fun _ _ => trivial) busy at_op straight

/-- and do both, while the others rest. -/
theorem call_runs {t : Party} {c : RingCall} (may : attachedBy handles c)
    (straight : (ringCode build (fun _ => ring) t c : RingProg 64 (PyResult PyValue)).Straight
      fun _ => True)
    (idle : cfg.running t = none) :
    ∃ after id, Steps (shared build ring handles) cfg after ∧ after.running = cfg.running ∧
      cfg.world.log <+: after.world.log ∧
      (∀ a ∈ (ringCode build (fun _ => ring) t c).accesses RingMem.exec cfg.world.mem,
        .access t id c a.1 a.2 ∈ after.world.log) ∧
      ∃ value, (ringCode build (fun _ => ring) t c).solo RingMem.exec cfg.world.mem =
        some (value, after.world.mem) ∧ .finish t id c value ∈ after.world.log :=
  Steps.alone (fun _ _ => rfl) (fun _ _ => trivial) may straight idle

/-- A pop on a ring that is not empty. -/
theorem pop_runs (idle : cfg.running .consumer = none)
    (apart : cfg.world.mem.head ≠ cfg.world.mem.tail) :
    ∃ after, Steps (shared .release ring handles) cfg after ∧ after.running = cfg.running ∧
      after.world.mem = popped cfg.world.mem ∧
      ∀ i, i < 4 + frontLength cfg.world.mem →
        Reads (slotOf (cfg.world.mem.capacity - 1) cfg.world.mem.head i) after.world.log := by
  obtain ⟨after, id, steps, rests, -, made, value, ran, -⟩ :=
    call_runs .release ring handles (c := .pop none) trivial pop_straight idle
  refine ⟨after, steps, rests, ?_, ?_⟩
  · rw [pop_alone (c := .pop none) rfl, if_neg apart] at ran
    exact (congrArg Prod.snd (Option.some.inj ran)).symm
  · intro i small
    exact ⟨_, id, _, _, made _ (List.mem_cons_of_mem _ (answerFrom_reads apart small))⟩

/-- An empty ring with room for a prefix: an empty message can be pushed. -/
theorem push_runs (idle : cfg.running .consumer = none) (room : 4 ≤ cfg.world.mem.capacity)
    (empty : cfg.world.mem.head = cfg.world.mem.tail) :
    ∃ after, Steps (shared .release ring handles) cfg after ∧ after.running = cfg.running ∧
      after.world.mem = published cfg.world.mem [] := by
  obtain ⟨after, id, steps, rests, -, -, value, ran, -⟩ :=
    call_runs .release ring handles (c := .push (.bytes [])) trivial (push_straight _) idle
  refine ⟨after, steps, rests, ?_⟩
  have payload : pushPayload (.bytes []) = .ok [] := rfl
  have short : ¬ 4 + ([] : List UInt8).length > cfg.world.mem.capacity.toNat :=
    Nat.not_lt.mpr room
  have fits : ¬ (cfg.world.mem.tail - cfg.world.mem.head) +
      BitVec.ofNat 64 (4 + ([] : List UInt8).length) > cfg.world.mem.capacity := by
    rw [empty, BitVec.sub_self, BitVec.zero_add]
    exact BitVec.not_lt.mpr room
  rw [push_alone, payload] at ran
  dsimp only at ran
  rw [if_neg short, if_neg fits] at ran
  exact (congrArg Prod.snd (Option.some.inj ran)).symm

omit [Target] in
/-- The position `distance` away is the last one below the capacity. -/
theorem slotOf_last {cap : BitVec 64} (positive : 1 ≤ cap) (head : BitVec 64) :
    slotOf (cap - 1) head (cap - 1 - head).toNat = cap.toNat - 1 := by
  have place : head + BitVec.ofNat 64 (cap - 1 - head).toNat = cap - 1 := by
    rw [BitVec.ofNat_toNat, BitVec.setWidth_eq, BitVec.add_comm, BitVec.sub_add_cancel]
  rw [slotOf, place, BitVec.and_self]
  exact BitVec.toNat_sub_of_le positive

/-- Pushing and popping goes round the ring, and so to its last slot. -/
theorem reads_last (idle : cfg.running .consumer = none) (room : 4 ≤ cfg.world.mem.capacity) :
    ∃ after, Steps (shared .release ring handles) cfg after ∧
      Reads (cfg.world.mem.capacity.toNat - 1) after.world.log := by
  induction way : (cfg.world.mem.capacity - 1 - cfg.world.mem.head).toNat
    using Nat.strong_induction_on generalizing cfg with
  | h distance ih =>
      -- if the ring is empty, a message makes it possible to pop
      obtain ⟨filled, begun, rests, head, capacity, apart⟩ : ∃ filled,
          Steps (shared .release ring handles) cfg filled ∧ filled.running = cfg.running ∧
            filled.world.mem.head = cfg.world.mem.head ∧
            filled.world.mem.capacity = cfg.world.mem.capacity ∧
            filled.world.mem.head ≠ filled.world.mem.tail := by
        by_cases empty : cfg.world.mem.head = cfg.world.mem.tail
        · obtain ⟨filled, steps, rests, mem⟩ := push_runs ring handles idle room empty
          refine ⟨filled, steps, rests, by rw [mem]; rfl, by rw [mem]; rfl, ?_⟩
          intro same
          have moved : cfg.world.mem.tail = cfg.world.mem.tail + 4 := by
            rw [mem] at same
            exact empty.symm.trans same
          have zero : (4 : BitVec 64) = 0 := BitVec.self_eq_add_right.mp moved
          exact absurd zero (by decide)
        · exact ⟨cfg, .refl, rfl, rfl, rfl, empty⟩
      obtain ⟨after, popping, ended, mem, reads⟩ :=
        pop_runs ring handles (rests ▸ idle) apart
      have positive : 1 ≤ cfg.world.mem.capacity := BitVec.le_trans (by decide) room
      by_cases near : distance < 4 + frontLength filled.world.mem
      · refine ⟨after, begun.trans popping, ?_⟩
        rw [← slotOf_last positive cfg.world.mem.head, way, ← head, ← capacity]
        exact reads distance near
      · -- the frame ends before the last slot: the rest of the way is shorter
        have same : after.world.mem.capacity = cfg.world.mem.capacity := by
          rw [mem]
          exact capacity
        have frame : 4 + frontLength filled.world.mem < 2 ^ 64 := by
          have length := frontLength_lt filled.world.mem
          omega
        have shorter : (after.world.mem.capacity - 1 - after.world.mem.head).toNat =
            distance - (4 + frontLength filled.world.mem) := by
          rw [same, mem]
          change (_ - (filled.world.mem.head + BitVec.ofNat 64 _)).toNat = _
          rw [head, ← BitVec.sub_sub, BitVec.toNat_sub_of_le, way, BitVec.toNat_ofNat,
            Nat.mod_eq_of_lt frame]
          rw [BitVec.le_def, BitVec.toNat_ofNat, Nat.mod_eq_of_lt frame, way]
          exact Nat.not_lt.mp near
        obtain ⟨last, steps, found⟩ := ih (distance - (4 + frontLength filled.world.mem))
          (by omega) (by rw [ended, rests]; exact idle)
          (by rw [same]; exact room) shorter
        rw [same] at found
        exact ⟨last, begun.trans (popping.trans steps), found⟩

omit [Target] in
theorem stored_positive {handles : SharedMemory → Prop} {cap : BitVec 64}
    (stored : Stores handles cap) : 1 ≤ cap := by
  obtain ⟨handle, -, usize, resets, rfl⟩ := stored
  have large : headerSize < handle.size := resets.2.2.1
  rw [BitVec.le_def, BitVec.toNat_ofNat, Nat.mod_eq_of_lt (by omega)]
  exact Nat.sub_pos_of_lt large

/-- A creator attaches. -/
theorem spsc_runs {handles : SharedMemory → Prop} {cap : BitVec 64} (stored : Stores handles cap)
    (idle : cfg.running t = none) :
    ∃ after, Steps (shared build ring handles) cfg after ∧ after.running = cfg.running ∧
      after.world.mem = ⟨0, 0, cap, cfg.world.mem.data⟩ := by
  obtain ⟨handle, mine, usize, resets, rfl⟩ := stored
  obtain ⟨after, id, steps, rests, -, -, value, ran, -⟩ :=
    call_runs build ring handles (c := .spsc handle (.ok ()))
      ⟨mine, usize⟩ (spsc_straight handle) idle
  refine ⟨after, steps, rests, ?_⟩
  have leaves := spsc_leaves handle (.ok ()) cfg.world.mem
  rw [if_pos resets] at leaves
  rcases Prog.solo_run_bind ran with ⟨e, failed, -⟩ | ⟨attached, middle, made, returned⟩
  · rw [failed] at leaves
    exact Option.some.inj leaves
  · rw [made] at leaves
    cases returned
    exact Option.some.inj leaves

/-- The first thing a creator stores is the head. -/
theorem spsc_begins (build : Build) (self : Party → SpscRingBuffer) (t : Party)
    {handle : SharedMemory} (resets : Resets handle (.ok ())) :
    ∃ next, (ringCode build self t (.spsc handle (.ok ())) : RingProg 64 (PyResult PyValue)) =
      .op (.storeHead 0) next := by
  obtain ⟨-, creator, large, power⟩ := resets
  have built : (new handle.size handle.isCreator : RingM 64 Unit) = (do
      storeHead 0
      storeTail 0
      Prog.access (RingOp.storeCapacity (BitVec.ofNat 64 (handle.size - headerSize)))) := by
    rw [new, if_neg (Nat.not_le.mpr large), if_pos creator]
    exact if_neg (not_not.mpr power)
  have code : (ringCode build self t (.spsc handle (.ok ())) : RingProg 64 (PyResult PyValue)) =
      (do
        let _ ← (do
          let _ ← new handle.size handle.isCreator
          return ⟨handle.size⟩ : RingM 64 SpscRingBuffer)
        return .none : RingM 64 PyValue).run := rfl
  rw [code, built]
  exact ⟨_, rfl⟩

/-- Without slots there is no mask: an overflow-checked build panics. -/
theorem pop_borrows {mem : RingMem 64} (apart : mem.head ≠ mem.tail) (zero : mem.capacity = 0) :
    Prog.solo RingMem.exec (ringCode .debug self t (.pop none)) mem =
      some (.error borrow, mem) := by
  have frame : Prog.solo RingMem.exec (popFrame .debug).run mem = some (.error borrow, mem) := by
    rw [popFrame, Prog.solo_run_ok (loadHead_alone _), Prog.solo_run_ok (loadTail_alone _),
      if_neg apart, Prog.solo_run_ok (capacity_alone _), zero]
    rfl
  rw [pop_decodes (c := .pop none) rfl, frame]
  rfl

end Runs

section Escapes
variable {ring : SpscRingBuffer} {handles : SharedMemory → Prop} {cfg : RingConfig}
  {found : RingMem 64}

theorem mapped_of_reads (inside : StaysInside handles ring found)
    (reach : Reachable (shared build ring handles) found cfg) {slot : Nat}
    (reads : Reads slot cfg.world.log) : headerSize + slot < ring.mapSize := by
  obtain ⟨t, id, c, r, member⟩ := reads
  exact inside build _ cfg reach _ member rfl

variable (inside : StaysInside handles ring found)
include inside

/-- A capacity with room for a prefix has to fit: its last slot is read in some run. -/
theorem fits_of_room (reach : Reachable (shared .release ring handles) found cfg)
    (idle : cfg.running .consumer = none) (room : 4 ≤ cfg.world.mem.capacity) :
    Fits ring.mapSize cfg.world.mem.capacity := by
  obtain ⟨after, steps, reads⟩ := reads_last ring handles idle room
  have last : headerSize + (cfg.world.mem.capacity.toNat - 1) < ring.mapSize :=
    mapped_of_reads inside (reach.trans steps) reads
  have positive : 1 ≤ cfg.world.mem.capacity := BitVec.le_trans (by decide) room
  have some_slot : 1 ≤ cfg.world.mem.capacity.toNat := positive
  exact ⟨positive, by omega⟩

/-- So does one that a pop finds when the ring is not empty. -/
theorem fits_of_apart {mem : RingMem 64} (apart : mem.head ≠ mem.tail)
    (visits : ∀ build, ∃ cfg, Reachable (shared build ring handles) found cfg ∧
      cfg.running .consumer = none ∧ cfg.world.mem = mem) : Fits ring.mapSize mem.capacity := by
  by_cases positive : 1 ≤ mem.capacity
  · obtain ⟨cfg, reach, idle, rfl⟩ := visits .release
    by_cases room : 4 ≤ cfg.world.mem.capacity
    · exact fits_of_room inside reach idle room
    · obtain ⟨after, steps, -, -, reads⟩ := pop_runs ring handles idle apart
      obtain ⟨i, small, slot⟩ :=
        reaches_last positive (BitVec.not_le.mp room) cfg.world.mem.head
      have last := mapped_of_reads inside (reach.trans steps) (reads i (by omega))
      have some_slot : 1 ≤ cfg.world.mem.capacity.toNat := positive
      rw [slot] at last
      exact ⟨positive, by omega⟩
  · have zero : mem.capacity = 0 := by
      have none_left : ¬ 1 ≤ mem.capacity.toNat := positive
      apply BitVec.eq_of_toNat_eq
      rw [Nat.lt_one_iff.mp (Nat.not_le.mp none_left)]
      rfl
    obtain ⟨cfg, reach, idle, rfl⟩ := visits .debug
    obtain ⟨after, id, steps, -, -, -, value, ran, ended⟩ :=
      call_runs .debug ring handles (c := .pop none) trivial pop_straight idle
    rw [pop_borrows apart zero] at ran
    cases congrArg Prod.fst (Option.some.inj ran)
    exact absurd rfl (inside .debug _ after (reach.trans steps) _ ended rfl rfl)

/-- And so does any that a creator stores while a pop is on its way, unless its head is 0. -/
theorem fits_of_moved {cap : BitVec 64} (stored : Stores handles cap) (small : cap < 4)
    (reach : Reachable (shared .release ring handles) found cfg)
    (idle : cfg.running = fun _ => none)
    (moved : cfg.world.mem.head ≠ 0) : Fits ring.mapSize cap := by
  -- the pop loads the head, the creator comes and goes, and the pop finds another tail
  obtain ⟨begun, id, loads, -, others, waits⟩ :=
    call_begins .release ring handles (t := .consumer) (c := .pop none) trivial pop_loads
      (congrFun idle _)
  obtain ⟨attached, attaches, kept, written⟩ :=
    spsc_runs .release ring (t := .producer) stored
      ((others .producer nofun).trans (congrFun idle _))
  obtain ⟨after, resumes, -, ran⟩ :=
    call_ends .release ring handles (kept ▸ waits _ rfl) rfl (answerFrom_straight _)
  have positive : 1 ≤ cap := stored_positive stored
  obtain ⟨i, near, slot⟩ := reaches_last positive small cfg.world.mem.head
  have apart : cfg.world.mem.head ≠ attached.world.mem.tail := by
    rw [written]
    exact moved
  have last : headerSize + slotOf (attached.world.mem.capacity - 1) cfg.world.mem.head i <
      ring.mapSize :=
    mapped_of_reads inside (reach.trans (loads.trans (attaches.trans resumes)))
      ⟨_, id, _, _, ran.made _ (answerFrom_reads apart (by omega))⟩
  rw [written, slot] at last
  have some_slot : 1 ≤ cap.toNat := positive
  exact ⟨positive, by omega⟩

/-- What a creator's first store leaves: a pop among the stores finds the ring not empty. -/
theorem fits_of_attach {cap : BitVec 64} (stored : Stores handles cap) (moved : found.tail ≠ 0) :
    Fits ring.mapSize found.capacity := by
  obtain ⟨handle, mine, usize, resets, -⟩ := stored
  let emptied : RingMem 64 := { found with head := 0 }
  have apart : emptied.head ≠ emptied.tail := moved.symm
  apply fits_of_apart inside apart
  intro build
  obtain ⟨next, code⟩ := spsc_begins build (fun _ => ring) .producer resets
  obtain ⟨begun, -, begins, mem, others, -⟩ :=
    call_begins build ring handles (c := .spsc handle (.ok ())) ⟨mine, usize⟩ code
      (initial_idle found _)
  exact ⟨begun, begins, others .consumer nofun, mem⟩

/-- If some creator's capacity does not fit, no ring with room for a prefix does. -/
theorem rests_of_unfit {cap : BitVec 64} (stored : Stores handles cap)
    (unfit : ¬ Fits ring.mapSize cap) :
    (∀ other, Stores handles other → other < 4 ∧ found.head = 0) ∧ Rests found.head found := by
  have large : ∀ other, Stores handles other → 4 ≤ other → Fits ring.mapSize other := by
    intro other stored room
    obtain ⟨after, steps, rests, mem⟩ :=
      spsc_runs .release ring (t := .producer) stored (initial_idle found _)
    have fits := fits_of_room inside steps (congrFun rests _) (by rw [mem]; exact room)
    rwa [mem] at fits
  have small : cap < 4 := BitVec.not_le.mp fun room => unfit (large cap stored room)
  have never : ∀ other : BitVec 64, 4 ≤ other → ¬ Fits ring.mapSize other := by
    intro other room fits
    have below : cap.toNat ≤ other.toNat := Nat.le_trans (Nat.le_of_lt small) room
    exact unfit ⟨stored_positive stored, Nat.le_trans (Nat.add_le_add_left below headerSize) fits.2⟩
  have zero : found.head = 0 := by
    by_contra moved
    exact unfit (fits_of_moved inside stored small .refl rfl moved)
  have same : found.head = found.tail := by
    by_contra apart
    -- a pop moves the head away from 0
    obtain ⟨after, steps, rests, mem, -⟩ :=
      pop_runs ring handles (initial_idle found _) apart
    have moved : after.world.mem.head ≠ 0 := by
      intro back
      have length := frontLength_lt found
      rw [mem] at back
      have natural : (found.head + BitVec.ofNat 64 (4 + frontLength found)).toNat = 0 :=
        congrArg BitVec.toNat back
      simp only [zero, BitVec.ofNat_eq_ofNat, BitVec.toNat_add, BitVec.toNat_ofNat] at natural
      omega
    exact unfit (fits_of_moved inside stored small steps rests moved)
  have room : found.capacity < 4 := by
    by_contra room
    have fits := fits_of_room inside (.refl : Reachable _ found _) rfl (BitVec.not_lt.mp room)
    exact never _ (BitVec.not_lt.mp room) fits
  refine ⟨fun other stored => ⟨?_, zero⟩, rfl, same.symm, room⟩
  by_contra high
  exact never _ (BitVec.not_lt.mp high) (large other stored (BitVec.not_lt.mp high))

/-- Calls stay inside only where the header found and the later creators keep them there. -/
theorem contained_of_inside : Contained ring.mapSize handles found := by
  by_cases fit : ∀ cap, Stores handles cap → Fits ring.mapSize cap
  · by_cases fits : Fits ring.mapSize found.capacity
    · exact .inl ⟨fit, .inl fits⟩
    · have same : found.head = found.tail := by
        by_contra apart
        exact fits (fits_of_apart inside apart fun _ => ⟨.initial found, .refl, rfl, rfl⟩)
      have room : found.capacity < 4 := by
        by_contra room
        exact fits (fits_of_room inside (.refl : Reachable _ found _) rfl (BitVec.not_lt.mp room))
      by_cases zero : found.head = 0
      · exact .inl ⟨fit, .inr ⟨zero, same ▸ zero, room⟩⟩
      · refine .inr ⟨?_, rfl, same.symm, room⟩
        intro cap stored
        exact absurd (fits_of_attach inside stored (same ▸ zero)) fits
  · obtain ⟨cap, unfit⟩ := not_forall.mp fit
    obtain ⟨stored, unfit⟩ := Classical.not_imp.mp unfit
    exact .inr (rests_of_unfit inside stored unfit)

end Escapes

section Rings
variable {shm : SharedMemory} {mapping : PyResult Unit} {found ring : RingMem 64}
  {self : SpscRingBuffer} {handles : SharedMemory → Prop}

/-- The segment as the constructor leaves it: a creator writes the header, an opener keeps it. -/
def headerOf (shm : SharedMemory) (found : RingMem 64) : RingMem 64 :=
  if shm.isCreator then ⟨0, 0, BitVec.ofNat 64 (shm.size - headerSize), found.data⟩ else found

omit [Target] in
/-- What the constructor has checked and done when it returns a ring. -/
theorem spsc_ok (ran : Prog.solo RingMem.exec (spsc shm mapping).run found =
      some (.ok self, ring)) :
    self = ⟨shm.size⟩ ∧ ring = headerOf shm found := by
  cases mapping with
  | error e => cases ran
  | ok _ =>
      rcases Prog.solo_run_bind ran with ⟨e, _, failed⟩ | ⟨_, middle, mapped, built⟩
      · cases failed
      · cases mapped
        rcases Prog.solo_run_bind built with ⟨e, _, failed⟩ | ⟨_, after, made, returned⟩
        · cases failed
        · cases returned
          refine ⟨rfl, ?_⟩
          rw [new] at made
          split at made
          · cases made
          · split at made
            · next creator =>
                rw [headerOf, if_pos creator]
                dsimp only at made
                split at made
                · cases made
                · cases made
                  rfl
            · next opener =>
                rw [headerOf, if_neg opener]
                cases made
                rfl

/-- The calls on a ring stay inside its mapping exactly when its header and the capacities
that creators store later keep them there. -/
theorem rings_stay_inside
    (ran : Prog.solo RingMem.exec (spsc shm mapping).run found = some (.ok self, ring)) :
    StaysInside handles self ring ↔ Contained shm.size handles (headerOf shm found) := by
  obtain ⟨rfl, rfl⟩ := spsc_ok ran
  exact ⟨fun inside => contained_of_inside inside, fun contained => inside_of_contained contained⟩

end Rings

section Openers
omit [Target]

/-- A handle of 40 bytes, so 16 bytes of data. -/
def opener : SharedMemory := ⟨⟨3, 40, "/ring"⟩, false⟩

/-- The handle of the process that created that segment. -/
def maker : SharedMemory := ⟨⟨3, 40, "/ring"⟩, true⟩

theorem rings_stay_inside_maker :
    @StaysInside (· = maker) littleEndian ⟨40⟩ ⟨16, 24, 16, fun _ => 0⟩ := by
  apply (@rings_stay_inside littleEndian opener (.ok ()) ⟨16, 24, 16, fun _ => 0⟩ _ _ _ rfl).mpr
  refine .inl ⟨?_, .inl (by decide)⟩
  rintro cap ⟨handle, rfl, -, -, rfl⟩
  decide

/-- Head 16, tail 24, capacity 32. -/
def larger : RingMem 64 := ⟨16, 24, 32, fun _ => 0⟩

/-- A segment whose ring was made for 32 bytes of data, opened as one of 16. -/
theorem opener_leaves_mapping :
    Prog.solo RingMem.exec (spsc opener (.ok ())).run larger = some (.ok ⟨40⟩, larger) ∧
    (⟨.readByte 16, (0 : UInt8)⟩ : Σ o : RingOp 64, o.Res) ∈
      (@ringCode _ .release littleEndian (fun _ => ⟨40⟩) .consumer (.pop none)).accesses
        RingMem.exec larger ∧
    ¬ InMapping 40 (.readByte 16) ∧
    ∀ handles, ¬ @StaysInside handles littleEndian ⟨40⟩ larger := by
  refine ⟨rfl, ?_, by simp [InMapping, headerSize], ?_⟩
  · exact List.mem_cons_of_mem _ (@answerFrom_reads littleEndian larger 16 (by decide) 0 (by omega))
  · intro handles inside
    rcases @contained_of_inside littleEndian _ _ _ inside with ⟨-, fits | rests⟩ | ⟨-, rests⟩
    · exact absurd fits (by decide)
    · exact absurd rests (by decide)
    · exact absurd rests (by decide)

end Openers
end Membridge.RingEscapes
