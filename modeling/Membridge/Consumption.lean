import Membridge.RingChecked

/-!
How far a pop moves the head. The frame length it uses is whatever the ring
holds at the head, and nothing compares it with what was published.
-/
namespace Membridge.Consumption
open Program Python ByteOrder Arithmetic Spsc SpscProtocol SpscInvariant RingAlone RingChecked

section Pop
variable [Target] {build : Build}

/-- In an overflow-checked build, the front frame ends beyond the last index. -/
def Panics (build : Build) (ring : RingMem 64) : Prop :=
  build = .debug ∧ 2 ^ 64 ≤ ring.head.toNat + 4 + (frontLength ring - 1)

theorem debug_panicsIf {ring : RingMem 64} (positive : 1 ≤ ring.capacity)
    (message : ring.head ≠ ring.tail) :
    PanicsIf RingMem.exec (fun last => last = ring) (popFrame .debug) ring (Panics .debug ring)
      (some (frontPayload ring)) (popped ring) := by
  have frame : PanicsIf RingMem.exec (fun last => last = ring) (popFrame .debug) ring
      (Straddles ring.head (frontLength ring) ∨ 2 ^ 64 ≤ 4 + frontLength ring)
      (some (frontPayload ring)) (popped ring) :=
    popFrame_panicsIf rfl (by decide) positive message
  have short := frontLength_lt ring
  apply frame.congr
  rw [Straddles, Panics, eq_self, true_and]
  omega

/-- A panic comes before the head is stored. -/
theorem popFrame_panics {ring : RingMem 64} (positive : 1 ≤ ring.capacity)
    (message : ring.head ≠ ring.tail) (panics : Panics build ring) :
    ∃ text, Prog.solo RingMem.exec (popFrame build).run ring =
      some (.error (.panic text), ring) := by
  obtain ⟨rfl, wraps⟩ := panics
  obtain ⟨text, last, stopped, rfl⟩ := (debug_panicsIf positive message).panics ⟨rfl, wraps⟩
  exact ⟨text, stopped⟩

/-- Otherwise the builds agree. -/
theorem popFrame_calm {ring : RingMem 64} (positive : 1 ≤ ring.capacity)
    (calm : ¬ Panics build ring) :
    Prog.solo RingMem.exec (popFrame build).run ring =
      Prog.solo RingMem.exec (popFrame .release).run ring := by
  cases build with
  | release => rfl
  | debug =>
      by_cases message : ring.head = ring.tail
      · rw [popFrame_empty .debug message, popFrame_empty .release message]
      · rw [popFrame_alone, if_neg message]
        exact (debug_panicsIf positive message).runs calm

variable {self : Party → SpscRingBuffer} {t : Party} {c : RingCall} {ring after : RingMem 64}
  {r : PyResult PyValue}

theorem pop_ends (pop : isPop c = true) (positive : 1 ≤ ring.capacity)
    (ran : Prog.solo RingMem.exec (ringCode build self t c) ring = some (r, after)) :
    after = ring ∧ (ring.head = ring.tail ∨ Panics build ring) ∨
      after = popped ring ∧ ring.head ≠ ring.tail ∧ ¬ Panics build ring := by
  rw [pop_decodes pop] at ran
  obtain ⟨⟨result, last⟩, taken, same⟩ := Option.map_eq_some_iff.mp ran
  cases same
  by_cases message : ring.head = ring.tail
  · left
    rw [popFrame_empty build message] at taken
    cases taken
    exact ⟨rfl, .inl message⟩
  · by_cases panics : Panics build ring
    · obtain ⟨text, stopped⟩ := popFrame_panics positive message panics
      rw [stopped] at taken
      cases taken
      exact .inl ⟨rfl, .inr panics⟩
    · rw [popFrame_calm positive panics, popFrame_alone, if_neg message] at taken
      cases taken
      exact .inr ⟨rfl, message, panics⟩

omit [Target] in
/-- Consuming `n` bytes of `used` leaves a distance that fits exactly when they were there. -/
theorem consumed_iff {used : BitVec 64} {n k : Nat} (small : k < 64) (low : used.toNat ≤ 2 ^ k)
    (short : n < 2 ^ 33) :
    (used - BitVec.ofNat 64 n).toNat ≤ 2 ^ k ∧ (used - BitVec.ofNat 64 n).toNat ≤ used.toNat ↔
      n ≤ used.toNat := by
  have word : (BitVec.ofNat 64 n).toNat = n := by
    rw [BitVec.toNat_ofNat]
    exact Nat.mod_eq_of_lt (by omega)
  have half : 2 ^ k ≤ 2 ^ 63 := Nat.pow_le_pow_right (by decide) (by omega)
  rw [BitVec.toNat_sub, word]
  generalize 2 ^ k = cap at *
  have bound := used.isLt
  omega

omit [Target]

/-- A ring of 16 bytes, five of them published, with `byte` at its front. -/
def oneByte (byte : UInt8) : RingMem 64 := ⟨0, 5, 16, Function.update (fun _ => 0) 0 byte⟩

end Pop
end Membridge.Consumption
