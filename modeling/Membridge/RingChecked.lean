import Membridge.CopyLaw

/-!
The ring in an overflow-checked build: each call panics on exactly the indices that
do not fit a word, and does what the unchecked build does on all others.
-/
namespace Membridge.RingChecked
open Program Python ByteOrder Arithmetic CyclicBuffer Spsc RingAlone CopyLaw

section Loops
variable {w : Nat} {kept : RingMem w → Prop} {ring : RingMem w} {pos mask cap : BitVec w}

theorem index_toNat {i count : Nat} (positive : 0 < count) (small : i + count ≤ 2 ^ w) :
    (BitVec.ofNat w i).toNat = i := by
  rw [BitVec.toNat_ofNat]
  exact Nat.mod_eq_of_lt (by omega)

theorem readFrom_panicsIf (left : kept ring) {i count : Nat} (small : i + count ≤ 2 ^ w) :
    PanicsIf RingMem.exec kept (readFrom .debug pos mask i count) ring
      (0 < count ∧ 2 ^ w < pos.toNat + i + count) (gather ring.data mask pos i count) ring := by
  induction count generalizing i with
  | zero => exact (panicsIf_runs rfl).congr (by simp)
  | succ count ih =>
      have index := index_toNat (Nat.succ_pos count) small
      have byte := access_alone (.readByte ((pos + BitVec.ofNat w i) &&& mask).toNat) ring
      have steps : PanicsIf RingMem.exec kept (readFrom .debug pos mask i (count + 1)) ring
          (2 ^ w ≤ pos.toNat + (BitVec.ofNat w i).toNat ∨
            (0 < count ∧ 2 ^ w < pos.toNat + (i + 1) + count) ∨ False)
          (gather ring.data mask pos i (count + 1)) ring := by
        apply panicsIf_bind (plus_panicsIf _ _ left)
        intro _
        apply panicsIf_after byte
        exact panicsIf_bind (ih (by omega)) fun _ => panicsIf_runs rfl
      apply steps.congr
      rw [index, or_false]
      omega

theorem writeFrom_panicsIf (ring : RingMem w) (left : ∀ data, kept { ring with data := data })
    {i : Nat} {bytes : List UInt8} (small : i + bytes.length ≤ 2 ^ w) :
    PanicsIf RingMem.exec kept (writeFrom .debug pos mask i bytes) ring
      (0 < bytes.length ∧ 2 ^ w < pos.toNat + i + bytes.length) ()
      { ring with data := scatter mask pos i bytes ring.data } := by
  induction bytes generalizing i ring with
  | nil => exact (panicsIf_runs rfl).congr (by simp)
  | cons byte rest ih =>
      rw [List.length_cons] at small ⊢
      have index := index_toNat (Nat.succ_pos rest.length) small
      have written := access_alone (.writeByte ((pos + BitVec.ofNat w i) &&& mask).toNat byte) ring
      have steps : PanicsIf RingMem.exec kept (writeFrom .debug pos mask i (byte :: rest)) ring
          (2 ^ w ≤ pos.toNat + (BitVec.ofNat w i).toNat ∨
            (0 < rest.length ∧ 2 ^ w < pos.toNat + (i + 1) + rest.length)) ()
          { ring with data := scatter mask pos i (byte :: rest) ring.data } := by
        apply panicsIf_bind (plus_panicsIf _ _ (left ring.data))
        intro _
        apply panicsIf_after written
        exact ih { ring with
          data := Function.update ring.data (slotOf mask pos i) byte } left (by omega)
      apply steps.congr
      rw [index]
      omega

theorem minus_fits {build : Build} {x y : BitVec w} (fits : y ≤ x) :
    Prog.solo RingMem.exec (build.minus x y : RingM w (BitVec w)).run ring =
      some (.ok (x - y), ring) := by
  rw [build.minus_ok fits]
  rfl

theorem readBytes_panicsIf (left : kept ring) (positive : 1 ≤ cap)
    {count : Nat} (small : count ≤ 2 ^ w) :
    PanicsIf RingMem.exec kept (readBytes .debug pos count cap) ring (2 ^ w < pos.toNat + count)
      (gather ring.data (cap - 1) pos 0 count) ring := by
  have bound := pos.isLt
  have loop : PanicsIf RingMem.exec kept (readFrom .debug pos (cap - 1) 0 count) ring _ _ ring :=
    readFrom_panicsIf left (by omega)
  exact panicsIf_after (minus_fits positive) (loop.congr (by omega))

theorem writeBytes_panicsIf (ring : RingMem w) (left : ∀ data, kept { ring with data := data })
    (positive : 1 ≤ cap) {bytes : List UInt8} (small : bytes.length ≤ 2 ^ w) :
    PanicsIf RingMem.exec kept (writeBytes .debug pos bytes cap) ring
      (2 ^ w < pos.toNat + bytes.length) ()
      { ring with data := scatter (cap - 1) pos 0 bytes ring.data } := by
  have bound := pos.isLt
  have loop : PanicsIf RingMem.exec kept (writeFrom .debug pos (cap - 1) 0 bytes) ring _ _ _ :=
    writeFrom_panicsIf ring left (by omega)
  exact panicsIf_after (minus_fits positive) (loop.congr (by omega))

end Loops

section Frames
variable {w : Nat}

theorem four_toNat (wide : 2 < w) : (4 : BitVec w).toNat = 4 := by
  change (BitVec.ofNat w 4).toNat = 4
  rw [BitVec.toNat_ofNat]
  exact Nat.mod_eq_of_lt (Nat.lt_of_lt_of_le (by decide : 4 < 2 ^ 3)
    (Nat.pow_le_pow_right (by decide) wide))

theorem add_four_toNat (wide : 2 < w) {pos : BitVec w} (start : pos.toNat + 4 < 2 ^ w) :
    (pos + 4).toNat = pos.toNat + 4 := by
  rw [BitVec.toNat_add, four_toNat wide]
  exact Nat.mod_eq_of_lt start

theorem capacity_pos {k : Nat} {cap : BitVec w} (small : k < w)
    (power : cap = BitVec.ofNat w (2 ^ k)) :
    1 ≤ cap := by
  rw [power]
  exact one_le_capacity small

/-- A frame at `pos` does not end before the index wraps. An empty payload counts as one byte:
the index behind the prefix is computed for it too. -/
def Straddles (pos : BitVec w) (length : Nat) : Prop := 2 ^ w ≤ pos.toNat + 4 + (max length 1 - 1)

instance (pos : BitVec w) (length : Nat) : Decidable (Straddles pos length) :=
  inferInstanceAs (Decidable (_ ≤ _))

variable [Target] (ring : RingMem w)

/-- The length prefix at the head. -/
def prefixAt : Nat := fromNeBytes (gather ring.data (ring.capacity - 1) ring.head 0 4)

def frontFrame : List UInt8 :=
  gather ring.data (ring.capacity - 1) (ring.head + 4) 0 (prefixAt ring)

/-- The ring with the frame at the head consumed. -/
def consumed : RingMem w := { ring with head := ring.head + BitVec.ofNat w (4 + prefixAt ring) }

/-- The ring with the frame of `payload` behind the tail. -/
def appended (payload : List UInt8) : RingMem w :=
  { ring with
    data := scatter (ring.capacity - 1) (ring.tail + 4) 0 payload
      (scatter (ring.capacity - 1) ring.tail 0 (toNeBytes 4 (payload.length % 2 ^ 32)) ring.data)
    tail := ring.tail + BitVec.ofNat w (4 + payload.length) }

variable {ring}

theorem prefixAt_lt : prefixAt ring < 2 ^ 32 := by
  have small := fromNeBytes_lt (gather ring.data (ring.capacity - 1) ring.head 0 4)
  rw [gather_length] at small
  exact Nat.lt_of_lt_of_eq small (by decide)

/-- The frame of a push lies behind the old tail, also where it wraps around the end. -/
theorem appended_read {k : Nat} (small : k < w) (power : ring.capacity = BitVec.ofNat w (2 ^ k))
    {payload : List UInt8} (room : 4 + payload.length ≤ 2 ^ k)
    {n : Nat} (inside : n ≤ 4 + payload.length) :
    gather (appended ring payload).data (ring.capacity - 1) ring.tail 0 n =
      (toNeBytes 4 (payload.length % 2 ^ 32) ++ payload).take n := by
  have tail : BitVec.ofNat w ring.tail.toNat = ring.tail := by simp
  have body : BitVec.ofNat w (ring.tail.toNat + 4) = ring.tail + 4 := by
    rw [BitVec.ofNat_add, tail]
    rfl
  -- the length first, then the payload behind it
  have front : Holds (scatter (BitVec.ofNat w (2 ^ k) - 1) ring.tail 0
      (toNeBytes 4 (payload.length % 2 ^ 32)) ring.data) (2 ^ k) ring.tail.toNat _ :=
    written_holds small ring.tail ring (by simp; omega)
  have whole : Holds (scatter (BitVec.ofNat w (2 ^ k) - 1) (BitVec.ofNat w (ring.tail.toNat + 4)) 0
      payload _) (2 ^ k) ring.tail.toNat (toNeBytes 4 (payload.length % 2 ^ 32) ++ payload) :=
    scatter_holds small front (by simp) (by simp; omega)
  rw [body, ← power] at whole
  have held : Holds (appended ring payload).data (2 ^ k) ring.tail.toNat _ := whole
  have read := read_slice small ring.tail (appended ring payload) held
    (i := 0) (n := n) (by simp; omega)
  rw [← power] at read
  simpa using read

/-- What a pop takes for the length of the frame. -/
theorem appended_prefix {k : Nat} (small : k < w) (power : ring.capacity = BitVec.ofNat w (2 ^ k))
    {payload : List UInt8} (room : 4 + payload.length ≤ 2 ^ k) :
    fromNeBytes (gather (appended ring payload).data (ring.capacity - 1) ring.tail 0 4) =
      payload.length % 2 ^ 32 := by
  rw [appended_read small power room (Nat.le_add_right _ _),
    List.take_append_of_le_length (by simp),
    List.take_of_length_le (by simp), fromNeBytes_toNeBytes]
  exact Nat.mod_eq_of_lt (Nat.lt_of_lt_of_eq (Nat.mod_lt _ (by decide)) (by decide))

variable {kept : RingMem w → Prop}

theorem popFrame_panicsIf (left : kept ring) (wide : 32 ≤ w) (positive : 1 ≤ ring.capacity)
    (message : ring.head ≠ ring.tail) :
    PanicsIf RingMem.exec kept (popFrame .debug) ring
      (Straddles ring.head (prefixAt ring) ∨ 2 ^ w ≤ 4 + prefixAt ring)
      (some (frontFrame ring)) (consumed ring) := by
  have words : 2 ^ 32 ≤ 2 ^ w := Nat.pow_le_pow_right (by decide) wide
  have short : prefixAt ring < 2 ^ 32 := prefixAt_lt
  have four := four_toNat (w := w) (by omega)
  have length : (BitVec.ofNat w (prefixAt ring)).toNat = prefixAt ring := by
    rw [BitVec.toNat_ofNat]
    exact Nat.mod_eq_of_lt (by omega)
  have sum : (4 : BitVec w) + BitVec.ofNat w (prefixAt ring) = BitVec.ofNat w (4 + prefixAt ring) :=
    (BitVec.ofNat_add _ _).symm
  have payload : PanicsIf RingMem.exec kept
      (readBytes .debug (ring.head + 4) (BitVec.ofNat w (prefixAt ring)).toNat ring.capacity) ring
      (2 ^ w < (ring.head + 4).toNat + prefixAt ring) (frontFrame ring) ring := by
    rw [length]
    exact readBytes_panicsIf left positive (by omega)
  have steps : PanicsIf RingMem.exec kept (popFrame .debug) ring
      (2 ^ w < ring.head.toNat + 4 ∨ 2 ^ w ≤ ring.head.toNat + (4 : BitVec w).toNat ∨
        2 ^ w < (ring.head + 4).toNat + prefixAt ring ∨
          2 ^ w ≤ (4 : BitVec w).toNat + (BitVec.ofNat w (prefixAt ring)).toNat)
      (some (frontFrame ring)) (consumed ring) := by
    apply panicsIf_after (loadHead_alone ring)
    apply panicsIf_after (loadTail_alone ring)
    rw [if_neg message]
    apply panicsIf_after (capacity_alone ring)
    apply panicsIf_bind (readBytes_panicsIf left positive (by omega))
    intro _
    apply panicsIf_bind (plus_panicsIf _ _ left)
    intro _
    apply panicsIf_bind payload
    intro _
    -- the head is stored last of all: after a panic it is where it was
    have store : PanicsIf RingMem.exec kept (do
        storeHead (ring.head + (4 + BitVec.ofNat w (prefixAt ring)))
        return some (frontFrame ring)) ring False (some (frontFrame ring)) (consumed ring) := by
      rw [sum]
      exact panicsIf_after (storeHead_alone _ ring) (panicsIf_runs rfl)
    exact (panicsIf_bind (plus_panicsIf _ _ left) fun _ => store).congr (or_false _).to_iff
  apply steps.congr
  rw [four, length, Straddles]
  by_cases start : ring.head.toNat + 4 < 2 ^ w
  · rw [add_four_toNat (by omega) start]
    omega
  · omega

/-- What is left of a push once its frame was found to fit. -/
theorem writes_panicsIf (left : ∀ data, kept { ring with data := data }) (wide : 32 ≤ w)
    (positive : 1 ≤ ring.capacity) {payload : List UInt8} (small : payload.length < 2 ^ w) :
    PanicsIf RingMem.exec kept (do
        writeBytes .debug ring.tail (toNeBytes 4 (payload.length % 2 ^ 32)) ring.capacity
        let body ← Build.debug.plus ring.tail 4
        writeBytes .debug body payload ring.capacity
        storeTail (ring.tail + BitVec.ofNat w (4 + payload.length))
        return true) ring
      (Straddles ring.tail payload.length) true (appended ring payload) := by
  have words : 2 ^ 32 ≤ 2 ^ w := Nat.pow_le_pow_right (by decide) wide
  have four := four_toNat (w := w) (by omega)
  have header : (toNeBytes 4 (payload.length % 2 ^ 32)).length = 4 := toNeBytes_length _ _
  have steps : PanicsIf RingMem.exec kept (do
        writeBytes .debug ring.tail (toNeBytes 4 (payload.length % 2 ^ 32)) ring.capacity
        let body ← Build.debug.plus ring.tail 4
        writeBytes .debug body payload ring.capacity
        storeTail (ring.tail + BitVec.ofNat w (4 + payload.length))
        return true) ring
      (2 ^ w < ring.tail.toNat + (toNeBytes 4 (payload.length % 2 ^ 32)).length ∨
        2 ^ w ≤ ring.tail.toNat + (4 : BitVec w).toNat ∨
          2 ^ w < (ring.tail + 4).toNat + payload.length ∨ False) true (appended ring payload) := by
    apply panicsIf_bind (writeBytes_panicsIf ring left positive (by omega))
    intro _
    apply panicsIf_bind (plus_panicsIf _ _ (left _))
    intro _
    apply panicsIf_bind (writeBytes_panicsIf { ring with
      data := scatter (ring.capacity - 1) ring.tail 0
        (toNeBytes 4 (payload.length % 2 ^ 32)) ring.data }
      left positive (Nat.le_of_lt small))
    intro _
    -- the tail is stored last of all: after a panic nothing is published
    exact panicsIf_after (access_alone _ _) (panicsIf_runs rfl)
  apply steps.congr
  rw [or_false, header, four, Straddles]
  by_cases start : ring.tail.toNat + 4 < 2 ^ w
  · rw [add_four_toNat (by omega) start]
    omega
  · omega

/-- The space `push` asks for: what is used and the new frame. -/
def needed (ring : RingMem w) (payload : List UInt8) : Nat :=
  (ring.tail - ring.head).toNat + (4 + payload.length)

theorem push_panicsIf (self : SpscRingBuffer) {data : PyValue} {payload : List UInt8}
    (packed : pushPayload data = .ok payload) (fits : 4 + payload.length ≤ ring.capacity.toNat)
    (left : ∀ data, kept { ring with data := data }) (wide : 32 ≤ w)
    (positive : 1 ≤ ring.capacity) :
    PanicsIf RingMem.exec kept (push .debug self data) ring
      (2 ^ w ≤ needed ring payload ∨
        needed ring payload ≤ ring.capacity.toNat ∧ Straddles ring.tail payload.length)
      (decide (needed ring payload ≤ ring.capacity.toNat))
      (if needed ring payload ≤ ring.capacity.toNat then appended ring payload else ring) := by
  have bound := ring.capacity.isLt
  have frame : (BitVec.ofNat w (4 + payload.length)).toNat = 4 + payload.length := by
    rw [BitVec.toNat_ofNat]
    exact Nat.mod_eq_of_lt (by omega)
  have sum : 2 ^ w ≤ (ring.tail - ring.head).toNat + (BitVec.ofNat w (4 + payload.length)).toNat ↔
      2 ^ w ≤ needed ring payload := by rw [frame, needed]
  rw [push, packed]
  apply panicsIf_after (except_alone payload ring)
  apply panicsIf_after (capacity_alone ring)
  rw [if_neg (Nat.not_lt.mpr fits)]
  apply panicsIf_after (loadHead_alone ring)
  apply panicsIf_after (loadTail_alone ring)
  apply panicsIf_bind ((plus_panicsIf _ _ (left ring.data)).congr sum)
  intro calm
  have total : ((ring.tail - ring.head) + BitVec.ofNat w (4 + payload.length)).toNat =
      needed ring payload := by
    rw [BitVec.toNat_add, frame]
    exact Nat.mod_eq_of_lt (Nat.lt_of_not_le calm)
  -- the comparison of words is the one of numbers, the sum having not wrapped
  by_cases room : needed ring payload ≤ ring.capacity.toNat
  · have enough :
        ¬ ring.tail - ring.head + BitVec.ofNat w (4 + payload.length) > ring.capacity := by
      rw [gt_iff_lt, BitVec.lt_def, total]
      omega
    rw [if_neg enough, if_pos room, decide_eq_true room]
    exact (writes_panicsIf left wide positive (by omega)).congr (by simp [room])
  · have full : ring.tail - ring.head + BitVec.ofNat w (4 + payload.length) > ring.capacity := by
      rw [gt_iff_lt, BitVec.lt_def, total]
      omega
    rw [if_pos full, if_neg room, decide_eq_false room]
    exact (panicsIf_runs rfl).congr (by simp [room])

end Frames
end Membridge.RingChecked
