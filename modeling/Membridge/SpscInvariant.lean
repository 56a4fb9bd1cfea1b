import Mathlib.Data.List.Forall2
import Membridge.SpscProtocol

/-!
What holds of a ring between any two accesses, and what each party may count on
while the other one runs. The producer counts on the data area (only it writes
there), the consumer on the front message; both follow from who makes which calls.
-/
namespace Membridge.SpscInvariant
open Program Interleaving RelyGuarantee Python Spsc Queue SpscQueue CyclicBuffer ByteOrder
open SpscProtocol

variable {w k : Nat} [Target]

section Answers

/-- What a pop of message `m` returns. -/
def outcome : RingCall → Message → PyResult PyValue
  | .pop tag, m => popTyped tag m
  | .popMixed schema, m => popSchema schema m
  | _, _ => .ok .none

/-- The two loads of one observing call: head after `seen`, tail after `mid`. -/
structure Observed (pre : RingLog w) (t : Party) (id : Nat) (c : RingCall)
    (seen mid : RingLog w) : Prop where
  started : id < seen.length
  head : ∃ v, seen ++ [.access t id c .loadHead v] <+: mid
  tail : ∃ v, mid ++ [.access t id c .loadTail v] <+: pre
  producer : t = .producer → pushed pre = pushed seen
  consumer : t = .consumer → pops pre = pops seen

/-- The distance an observing call computed from its two loads. -/
def Distance (pre : RingLog w) (t : Party) (id : Nat) (c : RingCall) (v : BitVec w) : Prop :=
  ∃ seen mid, Observed pre t id c seen mid ∧
    v = BitVec.ofNat w ((queueOf mid).stop frameLen) -
      BitVec.ofNat w ((queueOf seen).start frameLen)

structure PushAnswer (k : Nat) (pre : RingLog w) (id : Nat) (data : PyValue)
    (r : PyResult PyValue) : Prop where
  refused : ∀ e, pushPayload data = .error e → r = .error e
  oversize : ∀ m, pushPayload data = .ok m → 2 ^ k < frameLen m → ∃ e, r = .error e
  accepted : ∀ m, pushPayload data = .ok m → frameLen m ≤ 2 ^ k →
    ∃ seen v rest, pre = seen ++ .access .producer id (.push data) .loadHead v :: rest ∧
      pushed pre = pushed seen ∧
      r = .ok (.bool (decide ((queueOf seen).queued frameLen + frameLen m ≤ 2 ^ k)))
  credited : ∀ m, pushPayload data = .ok m → frameLen m ≤ 2 ^ k →
    ∀ f ∈ credits pre, frameLen m ≤ f → r = .ok (.bool true)

structure PopAnswer (pre : RingLog w) (id : Nat) (c : RingCall) (r : PyResult PyValue) :
    Prop where
  empty : isNone r = true → ∃ seen v, pre = seen ++ [.access .consumer id c .loadTail v] ∧
    (queueOf seen).unread = []
  promised : sawMessage pre = true → isNone r = false

/-- Every return is right about the log that precedes it. -/
def Answered (k : Nat) (pre : RingLog w) : RingEvent w → Prop
  | .finish t id (.push data) r => t = .producer → PushAnswer k pre id data r
  | .finish t id (.pop tag) r => t = .consumer → PopAnswer pre id (.pop tag) r
  | .finish t id (.popMixed schema) r => t = .consumer → PopAnswer pre id (.popMixed schema) r
  | .finish t id .used r => ∃ v, Distance pre t id .used v ∧ r = .ok (word v)
  | .finish t id .free r => ∃ v, Distance pre t id .free v ∧
      r = .ok (word (if BitVec.ofNat w (2 ^ k) < v then 0 else BitVec.ofNat w (2 ^ k) - v))
  | .finish t id .isEmpty r => ∃ v, Distance pre t id .isEmpty v ∧ r = .ok (.bool (v = 0))
  | .finish t id .isFull r => ∃ v, Distance pre t id .isFull v ∧
      r = .ok (.bool (v ≥ BitVec.ofNat w (2 ^ k)))
  | _ => True

section Instants
variable {pre seen mid : RingLog w} {t : Party} {n : Nat} {c : RingCall}

theorem Observed.early (observed : Observed pre t n c seen mid) : seen <+: mid ∧ mid <+: pre := by
  obtain ⟨v, first⟩ := observed.head
  obtain ⟨u, second⟩ := observed.tail
  exact ⟨(List.prefix_append _ _).trans first, (List.prefix_append _ _).trans second⟩

theorem Observed.order (observed : Observed pre t n c seen mid) :
    (queueOf seen).start frameLen ≤ (queueOf mid).start frameLen ∧
      (queueOf seen).stop frameLen ≤ (queueOf mid).stop frameLen ∧
      (queueOf mid).start frameLen ≤ (queueOf pre).start frameLen ∧
      (queueOf mid).stop frameLen ≤ (queueOf pre).stop frameLen :=
  ⟨start_mono observed.early.1, stop_mono observed.early.1, start_mono observed.early.2,
    stop_mono observed.early.2⟩

end Instants
end Answers

section Invariant

/-- No more messages were taken than published. -/
def Counted (log : RingLog w) : Prop := (pops log).length ≤ (pushed log).length

structure Sized (k : Nat) (log : RingLog w) : Prop where
  counted : Counted log
  room : (queueOf log).queued frameLen ≤ 2 ^ k

structure RingInv (k : Nat) (world : RingWorld w) : Prop where
  always : ∀ early, early <+: world.log → Sized k early
  represents : Represents k (queueOf world.log) world.mem
  short : ∀ m ∈ pushed world.log, m.length < 2 ^ 32
  outcomes : List.Forall₂ (fun (d : RingCall × PyResult PyValue) m => d.2 = outcome d.1 m)
    (pops world.log) (queueOf world.log).delivered
  recorded : Recorded (Answered k) world.log

theorem RingInv.counted {world : RingWorld w} (inv : RingInv k world) : Counted world.log :=
  (inv.always world.log List.prefix_rfl).counted

/-- What the producer remembers of `free()` and the consumer of `is_empty()`. -/
def Remembers (k : Nat) (log : RingLog w) : Party → Prop
  | .producer => ∀ f ∈ credits log, (queueOf log).queued frameLen + f ≤ 2 ^ k
  | .consumer => sawMessage log = true → (queueOf log).unread ≠ []
  | .third _ => True

variable {log after : RingLog w}

theorem sized_snoc {e : RingEvent w} {mem : RingMem w}
    (always : ∀ early, early <+: log → Sized k early) (counted : Counted (log ++ [e]))
    (represents : Represents k (queueOf (log ++ [e])) mem) :
    ∀ early, early <+: log ++ [e] → Sized k early := by
  intro early inside
  rcases List.prefix_concat_iff.mp inside with rfl | before
  · exact ⟨counted, represents.room⟩
  · exact always early before

theorem taken_eq (counted : Counted log) :
    (queueOf log).taken = (pops log).length := Nat.min_eq_left counted

/-- While the consumer takes nothing, what is unread only grows at the back. -/
theorem unread_grows (counted : Counted log) (later : Counted after)
    (grown : pushed log <+: pushed after) (same : pops after = pops log) :
    (queueOf log).unread <+: (queueOf after).unread := by
  obtain ⟨more, grown⟩ := grown
  change (pushed log).drop _ <+: (pushed after).drop _
  rw [taken_eq counted, taken_eq later, same, ← grown, List.drop_append_of_le_length counted]
  exact List.prefix_append _ _

theorem start_same (counted : Counted log) (later : Counted after)
    (grown : pushed log <+: pushed after) (same : pops after = pops log) :
    (queueOf after).start frameLen = (queueOf log).start frameLen := by
  obtain ⟨more, grown⟩ := grown
  change Fifo.total frameLen ((pushed after).take _) = Fifo.total frameLen ((pushed log).take _)
  rw [taken_eq counted, taken_eq later, same, ← grown, List.take_append_of_le_length counted]

/-- What was returned by then, for every earlier instant. -/
theorem RingInv.earlier {world : RingWorld w} (inv : RingInv k world) (early : log <+: world.log) :
    List.Forall₂ (fun (d : RingCall × PyResult PyValue) m => d.2 = outcome d.1 m)
      (pops log) (queueOf log).delivered := by
  obtain ⟨more, later⟩ := early
  have counted := (inv.always log ⟨more, later⟩).counted
  have morePops : pops world.log = pops log ++ pops more := by
    rw [← later, pops, List.filterMap_append, pops, pops]
  have morePushed : pushed world.log = pushed log ++ pushed more := by
    rw [← later, pushed, List.filterMap_append, pushed, pushed]
  have same : (queueOf log).delivered = (queueOf world.log).delivered.take (pops log).length := by
    change (pushed log).take _ = ((pushed world.log).take _).take _
    rw [taken_eq counted, taken_eq inv.counted, List.take_take, morePops, morePushed,
      List.length_append, Nat.min_eq_left (by omega)]
    exact (List.take_append_of_le_length counted).symm
  have cut := List.forall₂_take (pops log).length inv.outcomes
  rwa [← same, morePops, List.take_left] at cut

theorem stop_same (same : pushed after = pushed log) :
    (queueOf after).stop frameLen = (queueOf log).stop frameLen := by
  change Fifo.total frameLen (pushed after) = Fifo.total frameLen (pushed log)
  rw [same]

/-- While the producer publishes nothing, room only grows. -/
theorem queued_antitone (early : log <+: after) (same : pushed after = pushed log) :
    (queueOf after).queued frameLen ≤ (queueOf log).queued frameLen := by
  have before := (queueOf log).start_add_queued frameLen
  have later := (queueOf after).start_add_queued frameLen
  have starts := start_mono early
  have stops := stop_same same
  omega

theorem pushed_early (early : log <+: after) : pushed log <+: pushed after :=
  early.filterMap published

theorem remembers_meanwhile {t : Party} (counted : Counted log) (later : Counted after)
    (quiet : Meanwhile t log after) (known : Remembers k log t) : Remembers k after t := by
  have early := meanwhile_early quiet
  cases t with
  | producer =>
      intro f member
      rw [meanwhile_credits quiet rfl] at member
      have bound := known f member
      have room := queued_antitone early (meanwhile_pushed_of quiet rfl)
      omega
  | consumer =>
      intro saw answeredNone
      rw [meanwhile_sawMessage quiet rfl] at saw
      have grown := unread_grows counted later (pushed_early early)
        (meanwhile_pops_of quiet rfl)
      rw [answeredNone, List.prefix_nil] at grown
      exact known saw grown
  | third n => trivial

end Invariant

section Protocol

/-- Only the producer writes to the data area. -/
def ringProtocol (w k : Nat) : Protocol Party RingCall (PyResult PyValue) (RingOp w)
    RingOp.Res (RingMem w) where
  Known _ := True
  Inv := RingInv k
  Rely t a b := t = .producer → b.mem.data = a.mem.data
  Idle t world := Remembers k world.log t
  rely_refl _ _ _ := rfl
  rely_trans _ _ _ _ first second own := (second own).trans (first own)
  idle_stable _ _ _ before known inv _ _ far :=
    remembers_meanwhile before.counted inv.counted (others_meanwhile far) known

/-- The payloads of a push either do not fit or have a length that fits its prefix
and leaves the sum with what is queued below the word size. -/
def Fits (w k : Nat) (data : PyValue) : Prop :=
  ∀ m, pushPayload data = .ok m → frameLen m ≤ 2 ^ k →
    m.length < 2 ^ 32 ∧ 2 ^ k + frameLen m < 2 ^ w

/-- One producer, one consumer, any number of observers; anyone may attach. -/
def Role (w k : Nat) : Party → RingCall → Prop
  | .producer, .push data => Fits w k data
  | .consumer, .pop _ => True
  | .consumer, .popMixed _ => True
  | _, .used => True
  | _, .free => True
  | _, .isEmpty => True
  | _, .isFull => True
  | _, .spsc _ _ => True
  | _, _ => False

/-- A header store that writes what is already there. -/
def Keeps (ring : RingMem w) : RingOp w → Prop
  | .storeHead v => ring.head = v
  | .storeTail v => ring.tail = v
  | .storeCapacity v => ring.capacity = v
  | _ => True

omit [Target] in
theorem exec_keeps {ring : RingMem w} {o : RingOp w} (store : ∀ slot b, o ≠ .writeByte slot b)
    (keeps : Keeps ring o) : (RingMem.exec o ring).2 = ring := by
  cases o with
  | storeHead v =>
      cases keeps
      rfl
  | storeTail v =>
      cases keeps
      rfl
  | storeCapacity v =>
      cases keeps
      rfl
  | writeByte slot b => exact absurd rfl (store slot b)
  | _ => rfl

/-- The header stores of an attaching creator. -/
def headerStores (handle : Segment.SharedMemory) : List (RingOp w) :=
  [.storeHead 0, .storeTail 0, .storeCapacity (BitVec.ofNat w (handle.size - headerSize))]

/-- A system of ring calls in which attaching changes no header word. -/
structure WellUsed (k : Nat) (views : Party → SpscRingBuffer) (sys : RingSystem w) : Prop where
  small : k < w
  code : sys.code = ringCode .release views
  sem : ∀ t c ring o r after, sys.sem t c ring o r after ↔ RingMem.exec o ring = (r, after)
  role : ∀ t c, sys.allowed t c → Role w k t c
  attach : ∀ world t handle mapping o, sys.allowed t (.spsc handle mapping) →
    sys.enabled world t (.spsc handle mapping) o → o ∈ headerStores handle → Keeps world.mem o

end Protocol

section Steps
variable {world : RingWorld w} {t : Party} {id : Nat} {c : RingCall}

theorem RingInv.silent (inv : RingInv k world) {e : RingEvent w} {mem : RingMem w}
    (silent : Silent e) (answered : Answered k world.log e)
    (represents : Represents k (queueOf world.log) mem) :
    RingInv k (⟨mem, world.log ++ [e]⟩ : RingWorld w) := by
  have after : Represents k (queueOf (world.log ++ [e])) mem := by
    rw [queueOf_silent silent]
    exact represents
  have counted : Counted (world.log ++ [e]) := by
    rw [Counted, pops_silent silent, pushed_silent silent]
    exact inv.counted
  refine ⟨sized_snoc inv.always counted after, after, ?_, ?_,
    recorded_snoc.mpr ⟨inv.recorded, answered⟩⟩
  · rw [pushed_silent silent]
    exact inv.short
  · rw [pops_silent silent, queueOf_silent silent]
    exact inv.outcomes

theorem RingInv.access (inv : RingInv k world) (o : RingOp w) (r : o.Res) :
    RingInv k (⟨world.mem, world.log ++ [.access t id c o r]⟩ : RingWorld w) :=
  inv.silent (silent_access o r) trivial inv.represents

theorem RingInv.publish (inv : RingInv k world) {data : PyValue} {m : Message}
    (payload : pushPayload data = .ok m)
    (fits : (queueOf world.log).queued frameLen + frameLen m ≤ 2 ^ k) (short : m.length < 2 ^ 32)
    (written : Holds world.mem.data (2 ^ k) ((queueOf world.log).stop frameLen) (frame m))
    (answer : PushAnswer k world.log id data (.ok (.bool true))) :
    RingInv k (⟨{ world.mem with tail := world.mem.tail + BitVec.ofNat w (frameLen m) },
      world.log ++ [.finish .producer id (.push data) (.ok (.bool true))]⟩ : RingWorld w) := by
  have found : published (.finish .producer id (.push data) (.ok (.bool true)) : RingEvent w) =
      some m := by simp [published, payload, Except.toOption]
  have only : delivery (.finish .producer id (.push data) (.ok (.bool true)) : RingEvent w) =
      none := rfl
  -- the queue gains the message at the very event that returns `true`
  have queue := queueOf_publish inv.counted found only
  have after := inv.represents.publish m fits written
  rw [← queue] at after
  have counted : Counted (world.log ++
      [.finish .producer id (.push data) (.ok (.bool true))]) := by
    have counted := inv.counted
    rw [Counted] at counted ⊢
    rw [pops_snoc, pushed_snoc, found, only, List.length_append, List.length_append]
    simp only [Option.toList_none, Option.toList_some, List.length_nil, List.length_cons]
    omega
  refine ⟨sized_snoc inv.always counted after, after, ?_, ?_,
    recorded_snoc.mpr ⟨inv.recorded, fun _ => answer⟩⟩
  · intro x member
    rw [pushed_snoc, found, Option.toList_some, List.mem_append, List.mem_singleton] at member
    rcases member with early | rfl
    · exact inv.short x early
    · exact short
  · rw [queue, Fifo.publish_delivered, pops_snoc, only, Option.toList_none, List.append_nil]
    exact inv.outcomes

theorem RingInv.take (inv : RingInv k world) {r : PyResult PyValue} {m : Message}
    {rest : List Message} (front : (queueOf world.log).unread = m :: rest)
    (pop : isPop c = true) (result : r = outcome c m) (notNone : isNone r = false)
    (answered : Answered k world.log (.finish .consumer id c r)) :
    RingInv k (⟨{ world.mem with head := world.mem.head + BitVec.ofNat w (frameLen m) },
      world.log ++ [.finish .consumer id c r]⟩ : RingWorld w) := by
  have found : delivery (.finish .consumer id c r : RingEvent w) = some (c, r) := by
    simp [delivery, pop, notNone]
  have only : published (.finish .consumer id c r : RingEvent w) = none := rfl
  obtain ⟨more, -, unread, delivered⟩ := Fifo.unread_cons front
  have queue := queueOf_advance only found more
  have after := inv.represents.advance front more unread delivered
  rw [← queue] at after
  have counted : Counted (world.log ++ [.finish .consumer id c r]) := by
    rw [Counted, pops_snoc, pushed_snoc, found, only, List.length_append, List.length_append]
    have taken := taken_eq inv.counted
    change _ < (pushed world.log).length at more
    simp only [Option.toList_none, Option.toList_some, List.length_nil, List.length_cons]
    omega
  refine ⟨sized_snoc inv.always counted after, after, ?_, ?_,
    recorded_snoc.mpr ⟨inv.recorded, answered⟩⟩
  · rw [pushed_snoc, only, Option.toList_none, List.append_nil]
    exact inv.short
  · rw [queue, delivered, pops_snoc, found, Option.toList_some]
    exact List.rel_append (R := fun (d : RingCall × PyResult PyValue) m => d.2 = outcome d.1 m)
      inv.outcomes (.cons result .nil)

end Steps
end Membridge.SpscInvariant
