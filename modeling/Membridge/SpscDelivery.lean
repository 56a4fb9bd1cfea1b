import Membridge.SpscSound

/-!
What the two ends of a ring get: in every run, every message arrives once, whole
and in order; and what attaching to the segment once more does to that.
-/
namespace Membridge.SpscDelivery
open Program Interleaving RelyGuarantee Python Spsc Queue SpscQueue CyclicBuffer Segment
open SpscProtocol SpscInvariant SpscSound ByteOrder Arithmetic

variable {w k : Nat}

section Created

theorem isPowerOfTwo_iff {n : Nat} : isPowerOfTwo n = true ↔ ∃ k, n = 2 ^ k := by
  unfold isPowerOfTwo
  rw [decide_eq_true_iff]
  constructor
  · intro same
    exact ⟨_, same.symm⟩
  · rintro ⟨k, rfl⟩
    rw [Nat.log2_two_pow]

theorem new_accepts {cap : Nat} (positive : 0 < cap) (power : isPowerOfTwo cap = true)
    (ring : RingMem w) :
    Prog.solo RingMem.exec (new (headerSize + cap) true).run ring =
      some (.ok (), ⟨0, 0, BitVec.ofNat w cap, ring.data⟩) := by
  have large : ¬ headerSize + cap ≤ headerSize := by omega
  have size : headerSize + cap - headerSize = cap := by omega
  simp [new, large, size, power, storeHead, storeTail, RingMem.exec]

/-- What the constructor does alone: nothing, or, for a creator whose size it accepts,
the three header stores. -/
theorem new_leaves (mapSize : Nat) (isCreator : Bool) (ring : RingMem w) :
    (Prog.solo RingMem.exec (new mapSize isCreator).run ring).map Prod.snd =
      some (if isCreator ∧ headerSize < mapSize ∧ isPowerOfTwo (mapSize - headerSize) then
        ⟨0, 0, BitVec.ofNat w (mapSize - headerSize), ring.data⟩
      else ring) := by
  unfold new
  by_cases small : mapSize ≤ headerSize
  · simp [small, Nat.not_lt.mpr small]
  · rw [if_neg small]
    cases isCreator with
    | false => simp
    | true =>
        by_cases power : isPowerOfTwo (mapSize - headerSize) = true
        · simp [power, storeHead, storeTail, RingMem.exec, Nat.lt_of_not_le small]
        · simp [power]

theorem new_fresh {cap : Nat} {before ring : RingMem w} (fits : headerSize + cap < 2 ^ w)
    (ran : Prog.solo RingMem.exec (new (headerSize + cap) true).run before = some (.ok (), ring)) :
    ∃ k, cap = 2 ^ k ∧ k < w ∧ ring = ⟨0, 0, BitVec.ofNat w (2 ^ k), ring.data⟩ := by
  have positive : 0 < cap := by
    by_contra none
    have zero : cap = 0 := by omega
    simp [new, zero] at ran
  have power : isPowerOfTwo cap = true := by
    by_contra not
    have large : ¬ headerSize + cap ≤ headerSize := by omega
    simp [new, not, large] at ran
  rw [new_accepts positive power] at ran
  simp only [Option.some.injEq, Prod.mk.injEq, true_and] at ran
  subst ran
  obtain ⟨k, rfl⟩ := isPowerOfTwo_iff.mp power
  refine ⟨k, rfl, ?_, rfl⟩
  by_contra large
  have bound : 2 ^ w ≤ 2 ^ k := Nat.pow_le_pow_right (by decide) (by omega)
  omega

/-- A ring as `SpscRingBuffer::new` leaves it for a creator whose data area has `cap`
bytes, over whatever the segment held before. -/
def Initialised (cap : Nat) (ring : RingMem 64) : Prop :=
  headerSize + cap < 2 ^ 64 ∧
    ∃ before, Prog.solo RingMem.exec (new (headerSize + cap) true).run before = some (.ok (), ring)

theorem Initialised.fresh {cap : Nat} {ring : RingMem 64} (initialised : Initialised cap ring) :
    ∃ k, cap = 2 ^ k ∧ k < 64 ∧ ring = ⟨0, 0, BitVec.ofNat 64 (2 ^ k), ring.data⟩ := by
  obtain ⟨fits, before, ran⟩ := initialised
  exact new_fresh fits ran

end Created

section PushPop
variable [Target] {views : Party → SpscRingBuffer}

/-- One producer calling `push`, one consumer calling `pop(None)`. -/
def pushPop : Party → RingCall → Bool
  | .producer, .push _ => true
  | .consumer, .pop none => true
  | _, _ => false

theorem pushPop_used (small : k ≤ 32) :
    WellUsed k views (ringSystem (w := 64) .release views fun t c => pushPop t c) where
  small := by omega
  code := rfl
  sem _ _ _ _ _ _ := Iff.rfl
  role t c may := by
    have bound : 2 ^ k ≤ 2 ^ 32 := Nat.pow_le_pow_right (by decide) small
    cases t with
    | producer =>
        cases c with
        | push data =>
            intro m payload fits
            rw [frameLen] at fits ⊢
            omega
        | _ => cases may
    | consumer =>
        cases c with
        | pop tag => trivial
        | _ => cases may
    | third n => cases c <;> cases may
  attach _ t _ _ _ may := by cases t <;> cases may

/-- The payloads the pops of a log returned, in order. -/
def returned (log : RingLog w) : List Message :=
  log.filterMap fun e =>
    match e with
    | .finish .consumer _ (.pop none) (.ok (.bytes payload)) => some payload
    | _ => none

omit [Target] in
theorem pops_calls {log : RingLog w} (only : ∀ e ∈ log, pushPop e.thread e.call)
    {d : RingCall × PyResult PyValue} (member : d ∈ pops log) : d.1 = .pop none := by
  obtain ⟨e, inLog, found⟩ := List.mem_filterMap.mp member
  have may := only e inLog
  unfold delivery at found
  split at found
  · next id c r =>
      split at found
      · cases found
        cases c with
        | pop tag =>
            cases tag with
            | none => rfl
            | some t => cases may
        | _ => cases may
      · cases found
  · cases found

/-- What a pop without a tag returned. -/
def rawPayload (d : RingCall × PyResult PyValue) : Option Message :=
  match d with
  | (.pop none, .ok (.bytes payload)) => some payload
  | _ => none

omit [Target] in
theorem returned_pops (log : RingLog w) : returned log = (pops log).filterMap rawPayload := by
  rw [returned, pops, List.filterMap_filterMap]
  congr 1
  funext e
  split
  · rfl
  · next other =>
      unfold delivery
      split
      · split
        · simp only [Option.bind_some, rawPayload]
          split
          · next same =>
              cases same
              exact absurd rfl (other _ _)
          · rfl
        · rfl
      · rfl

theorem returned_eq {log : RingLog w} (only : ∀ e ∈ log, pushPop e.thread e.call)
    (outcomes : List.Forall₂ (fun (d : RingCall × PyResult PyValue) m => d.2 = outcome d.1 m)
      (pops log) (queueOf log).delivered) : returned log = (queueOf log).delivered := by
  have calls : ∀ d ∈ pops log, d.1 = .pop none := fun d member => pops_calls only member
  rw [returned_pops]
  generalize pops log = ds at outcomes calls
  generalize (queueOf log).delivered = ms at outcomes
  induction outcomes with
  | nil => rfl
  | @cons d m ds ms result _ ih =>
      obtain ⟨c, r⟩ := d
      have call : c = .pop none := calls _ List.mem_cons_self
      subst call
      cases result
      have rest := ih fun d member => calls d (List.mem_cons_of_mem _ member)
      rw [List.filterMap_cons, rest]
      rfl

/-- The messages not yet consumed. -/
def unconsumed (log : RingLog w) : List Message := (pushed log).drop (returned log).length

theorem unconsumed_eq {log : RingLog w} (only : ∀ e ∈ log, pushPop e.thread e.call)
    {world : RingWorld w} (inv : RingInv k world) (early : log <+: world.log) :
    unconsumed log = (queueOf log).unread := by
  have taken := (queueOf log).taken_le
  rw [unconsumed, returned_eq only (inv.earlier early), Fifo.delivered, List.length_take,
    Nat.min_eq_left taken]
  rfl

/-- The ring is a queue: pops return what was pushed, whole, in order and once; a pop
that returns `None` had returned everything published before its load of `tail`; and
a push is refused, declined or accepted by the sizes alone. -/
theorem push_pop_fifo {cap : Nat} {ring : RingMem 64} (initialised : Initialised cap ring)
    (bounded : cap ≤ 2 ^ 32)
    {cfg : Config Party RingCall (PyResult PyValue) (RingOp 64) RingOp.Res (RingMem 64)}
    (reach : Reachable (ringSystem .release views fun t c => pushPop t c) ring cfg) :
    returned cfg.world.log <+: pushed cfg.world.log ∧
    (∀ pre id post,
      cfg.world.log = pre ++ .finish .consumer id (.pop none) (.ok .none) :: post →
      ∃ seen v rest, pre = seen ++ .access .consumer id (.pop none) .loadTail v :: rest ∧
        returned seen = pushed seen) ∧
    (∀ pre id data r post payload,
      cfg.world.log = pre ++ .finish .producer id (.push data) r :: post →
      pushPayload data = .ok payload →
      ((∃ e, r = .error e) ↔ cap < 4 + payload.length) ∧
      (4 + payload.length ≤ cap →
        ∃ seen v rest, pre = seen ++ .access .producer id (.push data) .loadHead v :: rest ∧
          r = .ok (.bool (decide (Fifo.total frameLen (unconsumed seen) + (4 + payload.length) ≤
            cap))))) := by
  obtain ⟨k, rfl, _, fresh⟩ := initialised.fresh
  have small : k ≤ 32 := (Nat.pow_le_pow_iff_right (by decide)).mp bounded
  rw [fresh] at reach
  have inv : RingInv k cfg.world := (sound (pushPop_used small) ring.data).inv reach
  have only := reach.permitted.1
  refine ⟨?_, ?_, ?_⟩
  · rw [returned_eq only inv.outcomes]
    exact List.take_prefix _ _
  · intro pre id post cut
    -- the load of the tail is the instant at which nothing was unread
    obtain ⟨seen, v, rfl, empty⟩ := (inv.recorded pre _ post cut rfl).empty rfl
    have early : seen <+: cfg.world.log := by
      rw [cut, List.append_assoc]
      exact List.prefix_append _ _
    refine ⟨seen, v, [], rfl, ?_⟩
    rw [returned_eq (fun e member => only e (early.subset member)) (inv.earlier early)]
    have all := (queueOf seen).delivered_append_unread
    rw [empty, List.append_nil] at all
    exact all
  · intro pre id data r post payload cut packed
    have answer := inv.recorded pre _ post cut rfl
    constructor
    · constructor
      · rintro ⟨e, rfl⟩
        -- a payload that fits is answered with a boolean, never with an error
        by_contra fits
        obtain ⟨seen, v, rest, -, -, result⟩ := answer.accepted payload packed (by
          rw [frameLen]
          omega)
        cases result
      · exact answer.oversize payload packed
    · intro fits
      obtain ⟨seen, v, rest, before, -, result⟩ := answer.accepted payload packed fits
      have early : seen <+: cfg.world.log := by
        rw [cut, before, List.append_assoc]
        exact List.prefix_append _ _
      refine ⟨seen, v, rest, before, ?_⟩
      rw [unconsumed_eq (fun e member => only e (early.subset member)) inv early]
      exact result

omit [Target]

/-- The consumer looks while a message is half written, then takes it whole. -/
def halfMessage : List (Interleaving.Choice Party RingCall) :=
  [[.call .producer (.push (.bytes [104, 105])), .call .consumer (.pop none)],
    turns .producer 7, turns .consumer 1, turns .producer 3, turns .consumer 9].flatten

theorem push_pop_fifo_halfMessage :
    ∃ cfg : Config Party RingCall (PyResult PyValue) (RingOp 64) RingOp.Res (RingMem 64),
      returned cfg.world.log = [[104, 105]] ∧
        returned cfg.world.log <+: (@pushed 64 littleEndian cfg.world.log) := by
  have ran : (schedule (@ringSystem 64 .release littleEndian (fun _ => ⟨40⟩) fun t c => pushPop t c)
      (fun _ _ o ring => RingMem.exec o ring) halfMessage (.initial ⟨0, 0, 16, fun _ => 0⟩)).map
        (fun cfg => returned cfg.world.log) = some [[104, 105]] := by
    decide +kernel
  obtain ⟨cfg, reach, result⟩ := schedule_reaches (@exec_faithful _ _ littleEndian _ _) ran
  have initialised : Initialised 16 ⟨0, 0, 16, fun _ => 0⟩ :=
    ⟨by decide, ⟨0, 0, 0, fun _ => 0⟩, new_accepts (by decide) (by decide) _⟩
  exact ⟨cfg, result, (@push_pop_fifo littleEndian _ _ _ initialised (by decide) _ reach).1⟩

end PushPop

section Attach
variable {views : Party → SpscRingBuffer}

/-- The handle is a creator's and `new` accepts its size: the header is written. -/
def Resets (handle : SharedMemory) (mapping : PyResult Unit) : Prop :=
  mapping.isOk = true ∧ handle.isCreator = true ∧ headerSize < handle.size ∧
    isPowerOfTwo (handle.size - headerSize) = true

instance (handle : SharedMemory) (mapping : PyResult Unit) : Decidable (Resets handle mapping) :=
  inferInstanceAs (Decidable (_ ∧ _))

/-- The header already is what a creator's handle writes. -/
def HeaderFresh (handle : SharedMemory) (ring : RingMem 64) : Prop :=
  ring.head = 0 ∧ ring.tail = 0 ∧ ring.capacity = BitVec.ofNat 64 (handle.size - headerSize)

theorem spsc_leaves (handle : SharedMemory) (mapping : PyResult Unit) (ring : RingMem 64) :
    (Prog.solo RingMem.exec (spsc handle mapping).run ring).map Prod.snd = some
      (if Resets handle mapping then
        ⟨0, 0, BitVec.ofNat 64 (handle.size - headerSize), ring.data⟩
      else ring) := by
  cases mapping with
  | error e => simp [spsc, Resets, Except.isOk, Except.toBool]
  | ok _ =>
      have alone := new_leaves handle.size handle.isCreator ring
      simp only [spsc, Prog.run_bind, Prog.run_ok, Prog.ret_bind, Prog.solo_bind, Resets,
        Except.isOk, Except.toBool, true_and]
      rw [← alone]
      cases Prog.solo RingMem.exec (new handle.size handle.isCreator).run ring with
      | none => rfl
      | some result =>
          obtain ⟨r, after⟩ := result
          cases r <;> rfl

/-- An attach leaves the ring as it is exactly when it writes no header or the same one. -/
theorem spsc_leaves_iff (handle : SharedMemory) (mapping : PyResult Unit) (ring : RingMem 64) :
    (Prog.solo RingMem.exec (spsc handle mapping).run ring).map Prod.snd = some ring ↔
      (Resets handle mapping → HeaderFresh handle ring) := by
  rw [spsc_leaves, Option.some.injEq]
  by_cases resets : Resets handle mapping
  · rw [if_pos resets]
    constructor
    · intro same _
      rw [← same]
      exact ⟨rfl, rfl, rfl⟩
    · intro fresh
      obtain ⟨head, tail, capacity⟩ := fresh resets
      cases ring
      subst head tail capacity
      rfl
  · rw [if_neg resets]
    simp [resets]

/-- Every header store of an attaching call finds the header it writes. -/
def AttachesFresh (world : RingWorld 64) (_ : Party) (c : RingCall) (_ : RingOp 64) : Prop :=
  match c with
  | .spsc handle _ => HeaderFresh handle world.mem
  | _ => True

instance (world : RingWorld 64) (t : Party) (c : RingCall) (o : RingOp 64) :
    Decidable (AttachesFresh world t c o) := by
  unfold AttachesFresh HeaderFresh
  split <;> infer_instance

variable [Target]

/-- The length of the payload fits the prefix. -/
def shortPayload (data : PyValue) : Bool :=
  match pushPayload data with
  | .ok payload => decide (payload.length < 2 ^ 32)
  | .error _ => true

theorem shortPayload_fits (small : k < 64) {data : PyValue} (short : shortPayload data = true) :
    Fits 64 k data := by
  intro m payload fits
  have bound : 2 ^ k ≤ 2 ^ 63 := Nat.pow_le_pow_right (by decide) (by omega)
  simp only [shortPayload, payload, decide_eq_true_eq] at short
  rw [frameLen] at fits ⊢
  omega

/-- Producer and consumer as before, with payloads whose length fits the prefix; any
party attaches with any handle at any time. -/
def attaching : Party → RingCall → Bool
  | .producer, .push data => shortPayload data
  | .consumer, .pop _ => true
  | .consumer, .popMixed _ => true
  | _, .spsc _ _ => true
  | _, _ => false

/-- No message is lost, repeated or reordered, and the indices are at most `cap` apart. -/
structure Intact (cap : Nat) (world : RingWorld 64) : Prop where
  counted : (pops world.log).length ≤ (pushed world.log).length
  ordered : List.Forall₂ (fun (d : RingCall × PyResult PyValue) m => d.2 = outcome d.1 m)
    (pops world.log) ((pushed world.log).take (pops world.log).length)
  complete : ∀ pre id c post, world.log = pre ++ .finish .consumer id c (.ok .none) :: post →
    isPop c = true → ∃ seen v, pre = seen ++ [.access .consumer id c .loadTail v] ∧
      (pops seen).length = (pushed seen).length
  bounded : (world.mem.tail - world.mem.head).toNat ≤ cap

theorem RingInv.intact {world : RingWorld 64} (small : k < 64) (inv : RingInv k world) :
    Intact (2 ^ k) world := by
  refine ⟨inv.counted, ?_, ?_, ?_⟩
  · have outcomes := inv.outcomes
    rw [Fifo.delivered, taken_eq inv.counted] at outcomes
    exact outcomes
  · intro pre id c post cut pop
    have answered := inv.recorded pre _ post cut
    have answer : PopAnswer pre id c (.ok .none) := by
      cases c with
      | pop tag => exact answered rfl
      | popMixed schema => exact answered rfl
      | _ => cases pop
    obtain ⟨seen, v, rfl, empty⟩ := answer.empty rfl
    refine ⟨seen, v, rfl, ?_⟩
    have early : seen <+: world.log := by
      rw [cut, List.append_assoc]
      exact List.prefix_append _ _
    rw [← taken_eq (inv.always seen early).counted]
    exact ((queueOf seen).unread_empty_iff).mp empty
  · rw [inv.represents.used_toNat small]
    exact inv.represents.room

theorem attaching_used (small : k < 64) :
    WellUsed k views
      ((ringSystem (w := 64) .release views fun t c => attaching t c).under AttachesFresh) where
  small := small
  code := rfl
  sem _ _ _ _ _ _ := Iff.rfl
  role t c may := by
    cases t with
    | producer =>
        cases c with
        | push data => exact shortPayload_fits small may
        | spsc handle mapping => trivial
        | _ => cases may
    | consumer =>
        cases c with
        | pop tag => trivial
        | popMixed schema => trivial
        | spsc handle mapping => trivial
        | _ => cases may
    | third n =>
        cases c with
        | spsc handle mapping => trivial
        | _ => cases may
  attach world t handle mapping o _ enabled header := by
    obtain ⟨-, head, tail, capacity⟩ := enabled
    simp only [headerStores, List.mem_cons, List.not_mem_nil, or_false] at header
    rcases header with rfl | rfl | rfl
    · exact head
    · exact tail
    · exact capacity

/-- Attaching is harmless exactly as far as it leaves the header alone: one call does so
if and only if it writes none or the same one, and in a run in which each does, the
queue stays intact. -/
theorem attach_keeps_queue {cap : Nat} {ring : RingMem 64} (initialised : Initialised cap ring) :
    (∀ handle mapping (now : RingMem 64),
      (Prog.solo RingMem.exec (spsc handle mapping).run now).map Prod.snd = some now ↔
        (Resets handle mapping → HeaderFresh handle now)) ∧
    ∀ cfg, Reachable ((ringSystem .release views fun t c => attaching t c).under AttachesFresh)
      ring cfg → Intact cap cfg.world := by
  obtain ⟨k, rfl, small, fresh⟩ := initialised.fresh
  refine ⟨spsc_leaves_iff, ?_⟩
  intro cfg reach
  rw [fresh] at reach
  exact RingInv.intact small ((sound (attaching_used small) ring.data).inv reach)

omit [Target]

/-- The handle of the process that created a segment of 40 bytes. -/
def creator : SharedMemory := ⟨⟨3, 40, "ring"⟩, true⟩

/-- Attached before the first message, then used. -/
def attachFirst : List (Interleaving.Choice Party RingCall) :=
  [[.call (.third 0) (.spsc creator (.ok ()))], turns (.third 0) 3,
    [.call .producer (.push (.bytes [104, 105]))], turns .producer 10,
    [.call .consumer (.pop none)], turns .consumer 10].flatten

theorem attach_keeps_queue_attachFirst :
    ∃ cfg : Config Party RingCall (PyResult PyValue) (RingOp 64) RingOp.Res (RingMem 64),
      (pops cfg.world.log).length = 1 ∧ @Intact littleEndian 16 cfg.world := by
  have ran : (schedule ((@ringSystem 64 .release littleEndian (fun _ => ⟨40⟩) fun t c =>
      @attaching littleEndian t c).under AttachesFresh) (fun _ _ o ring => RingMem.exec o ring)
      attachFirst (.initial ⟨0, 0, 16, fun _ => 0⟩)).map
        (fun cfg => (pops cfg.world.log).length) = some 1 := by
    decide +kernel
  obtain ⟨cfg, reach, result⟩ := schedule_reaches
    (under_faithful (@exec_faithful _ _ littleEndian _ _)) ran
  have initialised : Initialised 16 ⟨0, 0, 16, fun _ => 0⟩ :=
    ⟨by decide, ⟨0, 0, 0, fun _ => 0⟩, new_accepts (by decide) (by decide) _⟩
  exact ⟨cfg, result, (@attach_keeps_queue _ littleEndian _ _ initialised).2 _ reach⟩

/-- The creator attaches again while a message waits; then the consumer looks. -/
def attachAgain : List (Interleaving.Choice Party RingCall) :=
  [[.call .producer (.push (.bytes [104, 105]))], turns .producer 10,
    [.call (.third 0) (.spsc creator (.ok ()))], turns (.third 0) 3,
    [.call .consumer (.pop none)], turns .consumer 2].flatten

/-- The creator attaches again while the consumer is about to store its head. -/
def attachInside : List (Interleaving.Choice Party RingCall) :=
  [[.call .producer (.push (.bytes [104, 105]))], turns .producer 10,
    [.call .consumer (.pop none)], turns .consumer 9,
    [.call (.third 0) (.spsc creator (.ok ()))], turns (.third 0) 3, turns .consumer 1].flatten

/-- A message that was pushed is gone, its pop answers `None`; and indices drift apart by
more than the capacity. -/
theorem attach_breaks_queue :
    (∃ cfg, Reachable (@ringSystem 64 .release littleEndian (fun _ => ⟨40⟩) fun t c =>
        @attaching littleEndian t c) ⟨0, 0, 16, fun _ => 0⟩ cfg ∧
      @pushed 64 littleEndian cfg.world.log = [[104, 105]] ∧ pops cfg.world.log = [] ∧
      cfg.world.mem.head = cfg.world.mem.tail) ∧
    ∃ cfg, Reachable (@ringSystem 64 .release littleEndian (fun _ => ⟨40⟩) fun t c =>
        @attaching littleEndian t c) ⟨0, 0, 16, fun _ => 0⟩ cfg ∧
      ¬ @Intact littleEndian 16 cfg.world := by
  constructor
  · have ran : (schedule (@ringSystem 64 .release littleEndian (fun _ => ⟨40⟩) fun t c =>
        @attaching littleEndian t c) (fun _ _ o ring => RingMem.exec o ring)
        attachAgain (.initial ⟨0, 0, 16, fun _ => 0⟩)).map
          (fun cfg => (@pushed 64 littleEndian cfg.world.log, (pops cfg.world.log).length,
            cfg.world.mem.head, cfg.world.mem.tail)) = some ([[104, 105]], 0, 0, 0) := by
      decide +kernel
    obtain ⟨cfg, reach, result⟩ := schedule_reaches (@exec_faithful _ _ littleEndian _ _) ran
    simp only [Prod.mk.injEq, List.length_eq_zero_iff] at result
    obtain ⟨sent, taken, head, tail⟩ := result
    exact ⟨cfg, reach, sent, taken, head.trans tail.symm⟩
  · have ran : (schedule (@ringSystem 64 .release littleEndian (fun _ => ⟨40⟩) fun t c =>
        @attaching littleEndian t c) (fun _ _ o ring => RingMem.exec o ring)
        attachInside (.initial ⟨0, 0, 16, fun _ => 0⟩)).map
          (fun cfg => (cfg.world.mem.tail - cfg.world.mem.head).toNat) = some (2 ^ 64 - 6) := by
      decide +kernel
    obtain ⟨cfg, reach, apart⟩ := schedule_reaches (@exec_faithful _ _ littleEndian _ _) ran
    refine ⟨cfg, reach, ?_⟩
    intro intact
    have bounded := @Intact.bounded littleEndian _ _ intact
    rw [apart] at bounded
    omega

end Attach
end Membridge.SpscDelivery
