import Membridge.CyclicBuffer
import Membridge.RingAlone

/-!
The byte loops of the ring as one copy: what is written at a position is read back
from there, and from any index inside, wherever the array ends or the position wraps.
-/
namespace Membridge.CopyLaw
open Program Arithmetic CyclicBuffer Spsc RingAlone

section Slots
variable {w k : Nat} {data : Nat → UInt8}

/-- Bytes written one after the other from the end of what a window already holds. -/
theorem scatter_holds (small : k < w) {base place i : Nat} {content bytes : List UInt8}
    (held : Holds data (2 ^ k) base content) (next : place + i = base + content.length)
    (room : content.length + bytes.length ≤ 2 ^ k) :
    Holds (scatter (BitVec.ofNat w (2 ^ k) - 1) (BitVec.ofNat w place) i bytes data) (2 ^ k) base
      (content ++ bytes) := by
  induction bytes generalizing i content data with
  | nil => simpa [scatter] using held
  | cons byte rest ih =>
      rw [List.length_cons] at room
      have slot : slotOf (BitVec.ofNat w (2 ^ k) - 1) (BitVec.ofNat w place) i =
          (base + content.length) % 2 ^ k := by
        rw [slotOf, slot_toNat small, next]
      have longer : Holds (Function.update data ((base + content.length) % 2 ^ k) byte) (2 ^ k) base
          (content ++ [byte]) := holds_update_next held (by omega)
      have rest_held := ih longer (i := i + 1) (by simp; omega) (by simp; omega)
      rw [scatter, slot]
      simpa using rest_held

/-- All positions of the window behind the written ones keep their byte. -/
theorem scatter_far (small : k < w) {place i q : Nat} {bytes : List UInt8}
    (behind : place + i + bytes.length ≤ q) (inside : q < place + i + 2 ^ k) :
    scatter (BitVec.ofNat w (2 ^ k) - 1) (BitVec.ofNat w place) i bytes data (q % 2 ^ k) =
      data (q % 2 ^ k) := by
  induction bytes generalizing i data with
  | nil => rfl
  | cons byte rest ih =>
      rw [List.length_cons] at behind
      have slot : slotOf (BitVec.ofNat w (2 ^ k) - 1) (BitVec.ofNat w place) i =
        (place + i) % 2 ^ k :=
        slot_toNat small place i
      have other : q % 2 ^ k ≠ (place + i) % 2 ^ k := by
        intro same
        have equal : q = place + i :=
          slot_injective (by omega : place + i ≤ q) inside (Nat.le_refl _) (by omega) same
        omega
      rw [scatter, ih (by omega) (by omega), slot, Function.update_of_ne other]

theorem gather_holds (small : k < w) {place i : Nat} {content : List UInt8}
    (held : Holds data (2 ^ k) (place + i) content) :
    gather data (BitVec.ofNat w (2 ^ k) - 1) (BitVec.ofNat w place) i content.length = content := by
  induction content generalizing i with
  | nil => rfl
  | cons byte rest ih =>
      have both : Holds data (2 ^ k) (place + i) ([byte] ++ rest) := held
      obtain ⟨first, later⟩ := holds_append.mp both
      have here : data ((place + i) % 2 ^ k) = byte := first 0 (by simp)
      rw [List.length_cons, gather, slotOf, slot_toNat small, here, ih later]

theorem gather_congr {mask pos : BitVec w} {other : Nat → UInt8} {i count : Nat}
    (same : ∀ j, j < i + count → other (slotOf mask pos j) = data (slotOf mask pos j)) :
    gather other mask pos i count = gather data mask pos i count := by
  induction count generalizing i with
  | zero => rfl
  | succ count ih =>
      rw [gather, gather, same i (by omega), ih fun j inside => same j (by omega)]

end Slots

section Copies
variable {w k : Nat} (small : k < w) (pos : BitVec w) (ring : RingMem w)
include small

theorem slotOf_position (i : Nat) :
    slotOf (BitVec.ofNat w (2 ^ k) - 1) pos i = (pos.toNat + i) % 2 ^ k := by
  have place := slot_toNat small pos.toNat i
  rwa [BitVec.ofNat_toNat, BitVec.setWidth_eq] at place

theorem written_holds {src : List UInt8} (room : src.length ≤ 2 ^ k) :
    Holds (scatter (BitVec.ofNat w (2 ^ k) - 1) pos 0 src ring.data) (2 ^ k) pos.toNat src := by
  have held : Holds
      (scatter (BitVec.ofNat w (2 ^ k) - 1) (BitVec.ofNat w pos.toNat) 0 src ring.data)
      (2 ^ k) pos.toNat ([] ++ src) :=
    scatter_holds small (holds_nil _ _ _) rfl (by simpa using room)
  rwa [BitVec.ofNat_toNat, BitVec.setWidth_eq, List.nil_append] at held

theorem read_slice {content : List UInt8} (held : Holds ring.data (2 ^ k) pos.toNat content)
    {i n : Nat} (inside : i + n ≤ content.length) :
    gather ring.data (BitVec.ofNat w (2 ^ k) - 1) (pos + BitVec.ofNat w i) 0 n =
      (content.drop i).take n := by
  have back : gather ring.data _ (BitVec.ofNat w (pos.toNat + i)) 0
    ((content.drop i).take n).length = _ :=
    gather_holds small (holds_slice held i n)
  have length : ((content.drop i).take n).length = n := by
    rw [List.length_take, List.length_drop]
    omega
  rwa [length, BitVec.ofNat_add, BitVec.ofNat_toNat, BitVec.setWidth_eq] at back

end Copies

section Law

/-- A byte of the data area below slot `n`, and nothing else. -/
def Below {w : Nat} (n : Nat) : RingOp w → Prop
  | .readByte slot => slot < n
  | .writeByte slot _ => slot < n
  | _ => False

variable {k : Nat} {pos : BitVec 64} {src : List UInt8} {ring : RingMem 64}

theorem writes_below (small : k < 64) {a : Σ o : RingOp 64, o.Res}
    (made : a ∈ (writeBytes .release pos src (BitVec.ofNat 64 (2 ^ k))).run.accesses
      RingMem.exec ring) : Below (2 ^ k) a.1 :=
  Prog.straight_accesses
    (writeBytes_straight (one_le_capacity small) (fun x _ => masked_lt small x) src) made

theorem reads_below (small : k < 64) {n : Nat} {a : Σ o : RingOp 64, o.Res}
    (made : a ∈ (readBytes .release pos n (BitVec.ofNat 64 (2 ^ k))).run.accesses
      RingMem.exec ring) : Below (2 ^ k) a.1 :=
  Prog.straight_accesses (readBytes_straight (one_le_capacity small) (masked_lt small) n) made

/-- The copy law of the ring: `write_bytes` then `read_bytes`, at any position, for any
source that fits the array and over any content. The slot of position `pos + i` is
`(pos + i) & (cap - 1)`, with the sum cut to 64 bits. -/
theorem wrapped_copy (bounded : k ≤ 63) (pos : BitVec 64) (src : List UInt8)
    (room : src.length ≤ 2 ^ k) (ring : RingMem 64) :
    ∃ data, Prog.solo RingMem.exec
      (writeBytes .release pos src (BitVec.ofNat 64 (2 ^ k))).run ring =
        some (.ok (), { ring with data := data }) ∧
      (∀ i n, i + n ≤ src.length →
        Prog.solo RingMem.exec
          (readBytes .release (pos + BitVec.ofNat 64 i) n (BitVec.ofNat 64 (2 ^ k))).run
          { ring with data := data } =
            some (.ok ((src.drop i).take n), { ring with data := data })) ∧
      (∀ i, src.length ≤ i → i < 2 ^ k →
        data ((pos + BitVec.ofNat 64 i) &&& (BitVec.ofNat 64 (2 ^ k) - 1)).toNat =
          ring.data ((pos + BitVec.ofNat 64 i) &&& (BitVec.ofNat 64 (2 ^ k) - 1)).toNat) ∧
      (∀ a ∈ (writeBytes .release pos src (BitVec.ofNat 64 (2 ^ k))).run.accesses RingMem.exec ring,
        Below (2 ^ k) a.1) ∧
      ∀ i n, ∀ a ∈ (readBytes .release (pos + BitVec.ofNat 64 i) n
          (BitVec.ofNat 64 (2 ^ k))).run.accesses RingMem.exec { ring with data := data },
        Below (2 ^ k) a.1 := by
  have small : k < 64 := by omega
  refine ⟨scatter (BitVec.ofNat 64 (2 ^ k) - 1) pos 0 src ring.data, ?_, ?_, ?_, ?_, ?_⟩
  · exact writeBytes_alone pos _ src ring
  · intro i n inside
    rw [readBytes_alone]
    have held := written_holds small pos ring room
    rw [read_slice small pos { ring with data := _ } held inside]
  · intro i behind inside
    have slot := slotOf_position small pos i
    rw [slotOf] at slot
    have kept : scatter (BitVec.ofNat 64 (2 ^ k) - 1) (BitVec.ofNat 64 pos.toNat) 0 src ring.data
        ((pos.toNat + i) % 2 ^ k) = ring.data ((pos.toNat + i) % 2 ^ k) :=
      scatter_far small (by omega) (by omega)
    rw [BitVec.ofNat_toNat, BitVec.setWidth_eq] at kept
    rw [slot, kept]
  · intro a made
    exact writes_below small made
  · intro i n a made
    exact reads_below small made

/-- Sixteen slots, and a source that crosses both the end of the array and index `2 ^ 64`. -/
theorem wrapped_copy_lastIndex :
    ∃ data, Prog.solo RingMem.exec
        (writeBytes .release (BitVec.ofNat 64 (2 ^ 64 - 2)) [1, 2, 3, 4]
          (BitVec.ofNat 64 (2 ^ 4))).run
        ⟨0, 0, 16, fun _ => 0⟩ = some (.ok (), ⟨0, 0, 16, data⟩) ∧
      Prog.solo RingMem.exec
        (readBytes .release (BitVec.ofNat 64 (2 ^ 64 - 2) + BitVec.ofNat 64 1) 3
          (BitVec.ofNat 64 (2 ^ 4))).run ⟨0, 0, 16, data⟩ =
            some (.ok [2, 3, 4], ⟨0, 0, 16, data⟩) := by
  have four : 4 ≤ 63 := by decide
  obtain ⟨data, written, back, _⟩ := wrapped_copy four (BitVec.ofNat 64 (2 ^ 64 - 2)) [1, 2, 3, 4]
    (by decide) ⟨0, 0, 16, fun _ => 0⟩
  exact ⟨data, written, back 1 3 (by decide)⟩

end Law
end Membridge.CopyLaw
