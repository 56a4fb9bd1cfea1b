import Membridge.SpscInvariant

/-!
What the calls of a ring do when nobody else runs, as equations, on a header and
data area of any content. An overflow-checked build panics on the way or does
the same.
-/
namespace Membridge.RingAlone
open Program Python ByteOrder ByteReader Mixed Arithmetic Spsc SpscProtocol SpscInvariant

section Bytes
variable {w : Nat}

/-- The slot of the byte at `pos + i`. -/
def slotOf (mask pos : BitVec w) (i : Nat) : Nat := ((pos + BitVec.ofNat w i) &&& mask).toNat

def gather (data : Nat → UInt8) (mask pos : BitVec w) : Nat → Nat → List UInt8
  | _, 0 => []
  | i, count + 1 => data (slotOf mask pos i) :: gather data mask pos (i + 1) count

def scatter (mask pos : BitVec w) : Nat → List UInt8 → (Nat → UInt8) → Nat → UInt8
  | _, [], data => data
  | i, byte :: rest, data =>
      scatter mask pos (i + 1) rest (Function.update data (slotOf mask pos i) byte)

theorem gather_length (data : Nat → UInt8) (mask pos : BitVec w) (i count : Nat) :
    (gather data mask pos i count).length = count := by
  induction count generalizing i with
  | zero => rfl
  | succ count ih => simp [gather, ih]

theorem plus_alone (x y : BitVec w) (ring : RingMem w) :
    Prog.solo RingMem.exec (Build.release.plus x y : RingM w (BitVec w)).run ring =
      some (.ok (x + y), ring) := rfl

theorem minus_alone (x y : BitVec w) (ring : RingMem w) :
    Prog.solo RingMem.exec (Build.release.minus x y : RingM w (BitVec w)).run ring =
      some (.ok (x - y), ring) := rfl

theorem access_alone (o : RingOp w) (ring : RingMem w) :
    Prog.solo RingMem.exec (Prog.access o : RingM w o.Res).run ring =
      some (.ok (RingMem.exec o ring).1, (RingMem.exec o ring).2) := rfl

theorem except_alone {α : Type} (value : α) (ring : RingMem w) :
    Prog.solo RingMem.exec (liftM (Except.ok value : PyResult α) : RingM w α).run ring =
      some (.ok value, ring) := rfl

theorem loadHead_alone (ring : RingMem w) :
    Prog.solo RingMem.exec (loadHead : RingM w (BitVec w)).run ring =
      some (.ok ring.head, ring) := rfl

theorem loadTail_alone (ring : RingMem w) :
    Prog.solo RingMem.exec (loadTail : RingM w (BitVec w)).run ring =
      some (.ok ring.tail, ring) := rfl

theorem capacity_alone (ring : RingMem w) :
    Prog.solo RingMem.exec (capacity : RingM w (BitVec w)).run ring =
      some (.ok ring.capacity, ring) := rfl

theorem storeHead_alone (v : BitVec w) (ring : RingMem w) :
    Prog.solo RingMem.exec (storeHead v).run ring = some (.ok (), { ring with head := v }) := rfl

theorem readFrom_alone (mask pos : BitVec w) (i count : Nat) (ring : RingMem w) :
    Prog.solo RingMem.exec (readFrom .release pos mask i count).run ring =
      some (.ok (gather ring.data mask pos i count), ring) := by
  induction count generalizing i with
  | zero => rfl
  | succ count ih =>
      rw [readFrom, Prog.solo_run_ok (plus_alone _ _ _), readByte,
        Prog.solo_run_ok (access_alone _ _)]
      exact Prog.solo_run_ok (ih (i + 1))

theorem writeFrom_alone (mask pos : BitVec w) (i : Nat) (bytes : List UInt8) (ring : RingMem w) :
    Prog.solo RingMem.exec (writeFrom .release pos mask i bytes).run ring =
      some (.ok (), { ring with data := scatter mask pos i bytes ring.data }) := by
  induction bytes generalizing i ring with
  | nil => rfl
  | cons byte rest ih =>
      rw [writeFrom, Prog.solo_run_ok (plus_alone _ _ _), writeByte,
        Prog.solo_run_ok (access_alone _ _)]
      exact ih (i + 1) _

theorem readBytes_alone (pos cap : BitVec w) (count : Nat) (ring : RingMem w) :
    Prog.solo RingMem.exec (readBytes .release pos count cap).run ring =
      some (.ok (gather ring.data (cap - 1) pos 0 count), ring) := by
  rw [readBytes, Prog.solo_run_ok (minus_alone _ _ _)]
  exact readFrom_alone (cap - 1) pos 0 count ring

theorem writeBytes_alone (pos cap : BitVec w) (bytes : List UInt8) (ring : RingMem w) :
    Prog.solo RingMem.exec (writeBytes .release pos bytes cap).run ring =
      some (.ok (), { ring with data := scatter (cap - 1) pos 0 bytes ring.data }) := by
  rw [writeBytes, Prog.solo_run_ok (minus_alone _ _ _)]
  exact writeFrom_alone (cap - 1) pos 0 bytes ring

end Bytes

section Calls
variable [Target]

theorem popFrame_empty {w : Nat} (build : Build) {ring : RingMem w}
    (empty : ring.head = ring.tail) :
    Prog.solo RingMem.exec (popFrame build).run ring = some (.ok none, ring) := by
  rw [popFrame, Prog.solo_run_ok (loadHead_alone _),
    Prog.solo_run_ok (loadTail_alone _), if_pos empty]
  rfl

/-- The length prefix at the head. -/
def frontLength (ring : RingMem 64) : Nat :=
  fromNeBytes (gather ring.data (ring.capacity - 1) ring.head 0 4)

def frontPayload (ring : RingMem 64) : List UInt8 :=
  gather ring.data (ring.capacity - 1) (ring.head + 4) 0 (frontLength ring)

/-- The ring with the front frame consumed. -/
def popped (ring : RingMem 64) : RingMem 64 :=
  { ring with head := ring.head + BitVec.ofNat 64 (4 + frontLength ring) }

theorem frontLength_lt (ring : RingMem 64) : frontLength ring < 2 ^ 32 := by
  have small := fromNeBytes_lt (gather ring.data (ring.capacity - 1) ring.head 0 4)
  rw [gather_length] at small
  exact Nat.lt_of_lt_of_eq small (by decide)

theorem popFrame_alone (ring : RingMem 64) :
    Prog.solo RingMem.exec (popFrame .release).run ring =
      if ring.head = ring.tail then some (.ok none, ring)
      else some (.ok (some (frontPayload ring)), popped ring) := by
  have fits : (BitVec.ofNat 64 (frontLength ring)).toNat = frontLength ring := by
    rw [BitVec.toNat_ofNat]
    exact Nat.mod_eq_of_lt (Nat.lt_trans (frontLength_lt ring) (by decide))
  have sum : (4 : BitVec 64) + BitVec.ofNat 64 (frontLength ring) =
      BitVec.ofNat 64 (4 + frontLength ring) := (BitVec.ofNat_add _ _).symm
  rw [popFrame, Prog.solo_run_ok (loadHead_alone _), Prog.solo_run_ok (loadTail_alone _)]
  by_cases empty : ring.head = ring.tail
  · rw [if_pos empty, if_pos empty]
    rfl
  · rw [if_neg empty, if_neg empty, Prog.solo_run_ok (capacity_alone _),
      Prog.solo_run_ok (readBytes_alone _ _ _ _)]
    change Prog.solo RingMem.exec (do
      let body ← Build.release.plus ring.head 4
      let payload ← readBytes .release body (BitVec.ofNat 64 (frontLength ring)).toNat ring.capacity
      let frameLen ← Build.release.plus 4 (BitVec.ofNat 64 (frontLength ring))
      storeHead (ring.head + frameLen)
      return some payload : RingM 64 (Option (List UInt8))).run ring = _
    rw [Prog.solo_run_ok (plus_alone _ _ _), Prog.solo_run_ok (readBytes_alone _ _ _ _),
      Prog.solo_run_ok (plus_alone _ _ _), Prog.solo_run_ok (storeHead_alone _ _), sum, fits]
    rfl

/-- A pop hands its frame to a decoder that no longer touches the ring. -/
theorem popWith_decodes {w : Nat} (build : Build) (ring : RingMem w)
    (decoder : List UInt8 → PyResult PyValue) :
    Prog.solo RingMem.exec (do
      let popped ← (do
        match ← popFrame build with
        | none => return none
        | some payload => return some (← decoder payload) : RingM w (Option PyValue))
      return popped.getD .none : RingM w PyValue).run ring =
    (Prog.solo RingMem.exec (popFrame build).run ring).map fun result =>
      (result.1.bind fun front => front.elim (.ok .none) decoder, result.2) := by
  rw [Prog.run_bind, Prog.solo_bind, Prog.run_bind, Prog.solo_bind]
  cases Prog.solo RingMem.exec (popFrame build).run ring with
  | none => rfl
  | some result =>
      obtain ⟨front, after⟩ := result
      cases front with
      | error e => rfl
      | ok front =>
          cases front with
          | none => rfl
          | some payload =>
              dsimp only [Option.bind_some, Option.map_some]
              cases decoded : decoder payload with
              | error e => simp [decoded, Except.bind]
              | ok v => simp [decoded, Except.bind]

theorem pop_decodes {w : Nat} {self : Party → SpscRingBuffer} {t : Party} {c : RingCall}
    (pop : isPop c = true) (build : Build) (ring : RingMem w) :
    Prog.solo RingMem.exec (ringCode build self t c) ring =
      (Prog.solo RingMem.exec (popFrame build).run ring).map fun result =>
        (result.1.bind fun front => front.elim (.ok .none) (outcome c), result.2) := by
  cases c with
  | pop tag => exact popWith_decodes build ring (popTyped tag)
  | popMixed schema => exact popWith_decodes build ring (popSchema schema)
  | _ => cases pop

/-- The two pops: the front frame is consumed, then its payload is decoded. -/
theorem pop_alone {self : Party → SpscRingBuffer} {t : Party} {c : RingCall} (pop : isPop c = true)
    (ring : RingMem 64) :
    Prog.solo RingMem.exec (ringCode .release self t c) ring =
      if ring.head = ring.tail then some (.ok .none, ring)
      else some (outcome c (frontPayload ring), popped ring) := by
  rw [pop_decodes pop, popFrame_alone]
  split <;> rfl

/-- Whether a payload gets past the two tests of `push`. -/
def Accepted (ring : RingMem 64) (payload : List UInt8) : Prop :=
  4 + payload.length ≤ ring.capacity.toNat ∧
    ¬ (ring.tail - ring.head) + BitVec.ofNat 64 (4 + payload.length) > ring.capacity

/-- The ring with one more frame behind the tail. -/
def published (ring : RingMem 64) (payload : List UInt8) : RingMem 64 :=
  { ring with
    data := scatter (ring.capacity - 1) (ring.tail + 4) 0 payload
      (scatter (ring.capacity - 1) ring.tail 0 (toNeBytes 4 (payload.length % 2 ^ 32)) ring.data)
    tail := ring.tail + BitVec.ofNat 64 (4 + payload.length) }

theorem push_alone {self : Party → SpscRingBuffer} {t : Party}
    (data : PyValue) (ring : RingMem 64) :
    Prog.solo RingMem.exec (ringCode .release self t (.push data)) ring =
      match pushPayload data with
      | .error e => some (.error e, ring)
      | .ok payload =>
          if 4 + payload.length > ring.capacity.toNat then
            some (.error (tooLarge (4 + payload.length) ring.capacity (self t).mapSize), ring)
          else if
            (ring.tail - ring.head) + BitVec.ofNat 64 (4 + payload.length) > ring.capacity then
            some (.ok (.bool false), ring)
          else some (.ok (.bool true), published ring payload) := by
  -- `push` itself, with its own boolean; the call only wraps it in a Python value
  have pushed : Prog.solo RingMem.exec (push .release (self t) data : RingM 64 Bool).run ring =
      match pushPayload data with
      | .error e => some (.error e, ring)
      | .ok payload =>
          if 4 + payload.length > ring.capacity.toNat then
            some (.error (tooLarge (4 + payload.length) ring.capacity (self t).mapSize), ring)
          else if
            (ring.tail - ring.head) + BitVec.ofNat 64 (4 + payload.length) > ring.capacity then
            some (.ok false, ring)
          else some (.ok true, published ring payload) := by
    rw [push]
    cases pushPayload data with
    | error e => rfl
    | ok payload =>
        rw [Prog.solo_run_ok (except_alone payload ring), Prog.solo_run_ok (capacity_alone _)]
        by_cases large : 4 + payload.length > ring.capacity.toNat
        · simp only [if_pos large]
          rfl
        · simp only [if_neg large]
          rw [Prog.solo_run_ok (loadHead_alone _), Prog.solo_run_ok (loadTail_alone _),
            Prog.solo_run_ok (plus_alone _ _ _)]
          by_cases full :
            (ring.tail - ring.head) + BitVec.ofNat 64 (4 + payload.length) > ring.capacity
          · simp only [if_pos full]
            rfl
          · simp only [if_neg full]
            rw [Prog.solo_run_ok (writeBytes_alone _ _ _ _), Prog.solo_run_ok (plus_alone _ _ _),
              Prog.solo_run_ok (writeBytes_alone _ _ _ _)]
            rfl
  change Prog.solo RingMem.exec (do
    return .bool (← push .release (self t) data) : RingM 64 PyValue).run ring = _
  rw [Prog.run_bind, Prog.solo_bind, pushed]
  cases pushPayload data with
  | error e => rfl
  | ok payload =>
      dsimp only
      split
      · rfl
      · split <;> rfl

end Calls

section Accesses
variable {w : Nat} {build : Build} {ok : RingOp w → Prop}

theorem plus_straight (x y : BitVec w) : (build.plus x y : RingM w (BitVec w)).run.Straight ok := by
  cases build with
  | release => trivial
  | debug =>
      rw [Build.plus]
      split <;> trivial

theorem minus_straight (x y : BitVec w) :
    (build.minus x y : RingM w (BitVec w)).run.Straight ok := by
  cases build with
  | release => trivial
  | debug =>
      rw [Build.minus]
      split <;> trivial

theorem readFrom_straight {pos mask : BitVec w}
    (may : ∀ x : BitVec w, ok (.readByte (x &&& mask).toNat))
    (i count : Nat) : (readFrom build pos mask i count).run.Straight ok := by
  induction count generalizing i with
  | zero => trivial
  | succ count ih =>
      apply Prog.straight_run_bind (plus_straight _ _)
      intro at_i
      apply Prog.straight_run_bind (Prog.straight_access (may at_i))
      intro byte
      exact Prog.straight_run_bind (ih (i + 1)) fun _ => trivial

theorem writeFrom_straight {pos mask : BitVec w}
    (may : ∀ (x : BitVec w) byte, ok (.writeByte (x &&& mask).toNat byte)) (i : Nat)
    (bytes : List UInt8) : (writeFrom build pos mask i bytes).run.Straight ok := by
  induction bytes generalizing i with
  | nil => trivial
  | cons byte rest ih =>
      apply Prog.straight_run_bind (plus_straight _ _)
      intro at_i
      apply Prog.straight_run_bind (Prog.straight_access (may at_i byte))
      exact fun _ => ih (i + 1)

theorem readBytes_straight {pos cap : BitVec w} (fits : 1 ≤ cap)
    (may : ∀ x : BitVec w, ok (.readByte (x &&& (cap - 1)).toNat)) (count : Nat) :
    (readBytes build pos count cap).run.Straight ok := by
  rw [readBytes, build.minus_ok fits]
  exact readFrom_straight may 0 count

theorem writeBytes_straight {pos cap : BitVec w} (fits : 1 ≤ cap)
    (may : ∀ (x : BitVec w) byte, ok (.writeByte (x &&& (cap - 1)).toNat byte))
    (bytes : List UInt8) :
    (writeBytes build pos bytes cap).run.Straight ok := by
  rw [writeBytes, build.minus_ok fits]
  exact writeFrom_straight may 0 bytes

end Accesses

section Builds
variable {w : Nat} (build : Build)

theorem writeFrom_sharpens (pos mask : BitVec w) (i : Nat) (bytes : List UInt8) :
    Sharpens RingMem.exec (writeFrom build pos mask i bytes)
      (writeFrom .release pos mask i bytes) := by
  induction bytes generalizing i with
  | nil => exact sharpens_refl _
  | cons byte rest ih =>
      apply sharpens_bind (build.plus_sharpens _ _)
      intro at_i
      apply sharpens_bind (sharpens_refl _)
      exact fun _ => ih (i + 1)

theorem readFrom_sharpens (pos mask : BitVec w) (i count : Nat) :
    Sharpens RingMem.exec (readFrom build pos mask i count)
      (readFrom .release pos mask i count) := by
  induction count generalizing i with
  | zero => exact sharpens_refl _
  | succ count ih =>
      apply sharpens_bind (build.plus_sharpens _ _)
      intro at_i
      apply sharpens_bind (sharpens_refl _)
      intro byte
      exact sharpens_bind (ih (i + 1)) fun _ => sharpens_refl _

theorem writeBytes_sharpens (pos cap : BitVec w) (bytes : List UInt8) :
    Sharpens RingMem.exec (writeBytes build pos bytes cap) (writeBytes .release pos bytes cap) :=
  sharpens_bind (build.minus_sharpens _ _) fun mask => writeFrom_sharpens build pos mask 0 bytes

theorem readBytes_sharpens (pos cap : BitVec w) (count : Nat) :
    Sharpens RingMem.exec (readBytes build pos count cap) (readBytes .release pos count cap) :=
  sharpens_bind (build.minus_sharpens _ _) fun mask => readFrom_sharpens build pos mask 0 count

variable [Target]

theorem push_sharpens (self : SpscRingBuffer) (data : PyValue) :
    Sharpens RingMem.exec (push build self data : RingM w Bool) (push .release self data) := by
  apply sharpens_bind (sharpens_refl _)
  intro payload
  apply sharpens_bind (sharpens_refl _)
  intro cap
  dsimp only
  split
  · exact sharpens_refl _
  · apply sharpens_bind (sharpens_refl _)
    intro head
    apply sharpens_bind (sharpens_refl _)
    intro tail
    apply sharpens_bind (build.plus_sharpens _ _)
    intro needed
    split
    · exact sharpens_refl _
    · apply sharpens_bind (writeBytes_sharpens build _ _ _)
      intro _
      apply sharpens_bind (build.plus_sharpens _ _)
      intro body
      apply sharpens_bind (writeBytes_sharpens build _ _ _)
      exact fun _ => sharpens_refl _

theorem popFrame_sharpens :
    Sharpens RingMem.exec (popFrame build : RingM w (Option (List UInt8))) (popFrame .release) := by
  apply sharpens_bind (sharpens_refl _)
  intro head
  apply sharpens_bind (sharpens_refl _)
  intro tail
  dsimp only
  split
  · exact sharpens_refl _
  · apply sharpens_bind (sharpens_refl _)
    intro cap
    apply sharpens_bind (readBytes_sharpens build _ _ _)
    intro lenBytes
    apply sharpens_bind (build.plus_sharpens _ _)
    intro body
    apply sharpens_bind (readBytes_sharpens build _ _ _)
    intro payload
    exact sharpens_bind (build.plus_sharpens _ _) fun _ => sharpens_refl _

/-- Apart from its panics, an overflow-checked build makes the same calls. -/
theorem ring_sharpens (self : Party → SpscRingBuffer) (t : Party) (c : RingCall) :
    Sharpens RingMem.exec (ringCode build self t c : RingM w PyValue)
      (ringCode .release self t c) := by
  cases c with
  | push data => exact sharpens_bind (push_sharpens build (self t) data) fun _ => sharpens_refl _
  | pop tag =>
      exact sharpens_bind (sharpens_bind (popFrame_sharpens build) fun _ => sharpens_refl _)
        fun _ => sharpens_refl _
  | popMixed schema =>
      exact sharpens_bind (sharpens_bind (popFrame_sharpens build) fun _ => sharpens_refl _)
        fun _ => sharpens_refl _
  | _ => exact sharpens_refl _

end Builds
end Membridge.RingAlone
