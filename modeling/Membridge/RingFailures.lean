import Membridge.RingAlone
import Membridge.SpscSound

/-!
A ring call that answers with an error, `False` or `None` leaves the ring alone,
unless it is a pop that got as far as decoding: the frame is consumed before its
payload is decoded.
-/
namespace Membridge.RingFailures
open Program Interleaving Python ByteOrder Arithmetic Spsc SpscProtocol SpscInvariant
open SpscSound RingAlone

variable [Target]

/-- The calls that move data. -/
def transfers : RingCall → Bool
  | .push _ => true
  | .pop _ => true
  | .popMixed _ => true
  | _ => false

/-- The answers that stand for a call that did nothing. -/
def Refused (c : RingCall) (r : PyResult PyValue) : Prop :=
  (∃ e, r = .error e ∧ ∀ message, e ≠ .panic message) ∨
    match c with
    | .push _ => r = .ok (.bool false)
    | _ => r = .ok .none

/-- There is a front message, and it does not decode the way the call asks. -/
def Undecodable (ring : RingMem 64) (c : RingCall) : Prop :=
  isPop c = true ∧ ring.head ≠ ring.tail ∧ ∃ e, outcome c (frontPayload ring) = .error e

variable {self : Party → SpscRingBuffer} {t : Party} {c : RingCall} {ring after : RingMem 64}
  {r : PyResult PyValue}

omit [Target] in
theorem transfers_cases (which : transfers c = true) :
    (∃ data, c = .push data) ∨ isPop c = true := by
  cases c with
  | push data => exact .inl ⟨data, rfl⟩
  | pop tag => exact .inr rfl
  | popMixed schema => exact .inr rfl
  | _ => cases which

theorem popped_moves (ring : RingMem 64) : (popped ring).head ≠ ring.head := by
  intro same
  have zero : BitVec.ofNat 64 (4 + frontLength ring) = 0 := by
    have back : ring.head + BitVec.ofNat 64 (4 + frontLength ring) - ring.head =
        BitVec.ofNat 64 (4 + frontLength ring) := by
      rw [BitVec.add_comm, BitVec.add_sub_cancel]
    rw [← back, show ring.head + BitVec.ofNat 64 (4 + frontLength ring) = ring.head from same,
      BitVec.sub_self]
    rfl
  have small := frontLength_lt ring
  have value := congrArg BitVec.toNat zero
  rw [BitVec.toNat_ofNat, Nat.mod_eq_of_lt (by omega)] at value
  exact absurd value (by simp)

theorem push_refused {data : PyValue}
    (ran : Prog.solo RingMem.exec (ringCode .release self t (.push data)) ring = some (r, after))
    (refused : Refused (.push data) r) : after = ring := by
  rw [push_alone] at ran
  cases payload : pushPayload data with
  | error e =>
      rw [payload] at ran
      cases ran
      rfl
  | ok bytes =>
      rw [payload] at ran
      dsimp only at ran
      split at ran
      · cases ran
        rfl
      · split at ran
        · cases ran
          rfl
        · cases ran
          rcases refused with ⟨e, same, _⟩ | same
          · cases same
          · cases same

theorem pop_refused (pop : isPop c = true)
    (ran : Prog.solo RingMem.exec (ringCode .release self t c) ring = some (r, after))
    (refused : Refused c r) : after = ring ↔ ¬ Undecodable ring c := by
  rw [pop_alone pop] at ran
  split at ran
  · next empty =>
      cases ran
      constructor
      · exact fun _ undecodable => undecodable.2.1 empty
      · exact fun _ => rfl
  · next message =>
      cases ran
      constructor
      · intro same _
        exact popped_moves ring (congrArg RingMem.head same)
      · intro decodes
        exfalso
        apply decodes
        refine ⟨pop, message, ?_⟩
        rcases refused with ⟨e, same, _⟩ | none
        · exact ⟨e, same⟩
        · have value := outcome_some (m := frontPayload ring) pop
          have isNone : outcome c (frontPayload ring) = .ok .none := by
            cases c with
            | push data => cases pop
            | _ => exact none
          rw [isNone] at value
          cases value

/-- Exactly the pops whose front message does not decode lose it: every other call that
is refused leaves head, tail, capacity and every byte as they were. -/
theorem refused_call_leaves_ring {build : Build} (which : transfers c = true)
    (ran : Prog.solo RingMem.exec (ringCode build self t c) ring = some (r, after))
    (refused : Refused c r) : after = ring ↔ ¬ Undecodable ring c := by
  have released : Prog.solo RingMem.exec (ringCode .release self t c) ring = some (r, after) := by
    rcases ring_sharpens build self t c ring r after ran with ⟨message, rfl⟩ | same
    · exfalso
      rcases refused with ⟨e, same, calm⟩ | value
      · cases same
        exact calm message rfl
      · cases c <;> cases value
    · exact same
  rcases transfers_cases which with ⟨data, rfl⟩ | pop
  · have same := push_refused released refused
    constructor
    · exact fun _ undecodable => absurd undecodable.1 (by simp [isPop])
    · exact fun _ => same
  · exact pop_refused pop released refused

omit [Target]

def anyRing (_ : Party) : SpscRingBuffer := ⟨40⟩

/-- A push that finds too little room. -/
theorem refused_call_leaves_ring_full :
    ∃ after : RingMem 64, Prog.solo RingMem.exec
        (@ringCode _ .debug littleEndian anyRing .producer (.push (.int 7)))
          ⟨0, 8, 16, fun _ => 0⟩ =
          some (.ok (.bool false), after) ∧ after = ⟨0, 8, 16, fun _ => 0⟩ := by
  have ran : Prog.solo RingMem.exec
      (@ringCode _ .debug littleEndian anyRing .producer (.push (.int 7))) ⟨0, 8, 16, fun _ => 0⟩ =
        some (.ok (.bool false), (⟨0, 8, 16, fun _ => 0⟩ : RingMem 64)) := rfl
  have kept : ¬ @Undecodable littleEndian ⟨0, 8, 16, fun _ => 0⟩ (.push (.int 7)) := by
    rintro ⟨pop, _⟩
    cases pop
  exact ⟨_, ran,
    (@refused_call_leaves_ring littleEndian _ _ _ _ _ _ .debug rfl ran (.inr rfl)).mpr kept⟩

/-- The one message of a ring, asked for as an `int`: the call fails, and the message is gone. -/
theorem failed_pop_loses_message :
    ∃ first second : RingMem 64, ∃ e,
      Prog.solo RingMem.exec
        (@ringCode _ .release littleEndian anyRing .producer (.push (.bool true)))
        ⟨0, 0, 16, fun _ => 0⟩ = some (.ok (.bool true), first) ∧
      Prog.solo RingMem.exec
        (@ringCode _ .release littleEndian anyRing .consumer (.pop (some "int")))
        first = some (.error e, second) ∧ (∀ message, e ≠ .panic message) ∧
      second.head ≠ first.head ∧
      Prog.solo RingMem.exec
        (@ringCode _ .release littleEndian anyRing .consumer (.pop (some "bool")))
        second = some (.ok .none, second) := by
  refine ⟨_, _, _, rfl, rfl, nofun, ?_, rfl⟩
  decide

end Membridge.RingFailures
