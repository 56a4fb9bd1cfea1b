import Mathlib.Logic.Function.Basic
import Mathlib.Data.Nat.ModEq
import Mathlib.Tactic.Common

/-!
Unbounded positions in a cyclic array, and their fixed-width images. A position
`p` lives in slot `p % cap`; positions less than `cap` apart have different
slots. With `cap = 2 ^ k` the slot is found by masking a word that has wrapped.
-/
namespace Membridge.CyclicBuffer

section Slots
variable {β : Type} {cap : Nat}

/-- The slots from position `pos` on hold `content`. -/
def Holds (mem : Nat → β) (cap pos : Nat) (content : List β) : Prop :=
  ∀ i (inside : i < content.length), mem ((pos + i) % cap) = content[i]

theorem holds_nil (mem : Nat → β) (cap pos : Nat) : Holds mem cap pos [] := by
  intro i inside
  simp at inside

theorem holds_append {mem : Nat → β} {pos : Nat} {left right : List β} :
    Holds mem cap pos (left ++ right) ↔
      Holds mem cap pos left ∧ Holds mem cap (pos + left.length) right := by
  constructor
  · intro both
    constructor
    · intro i inside
      rw [both i (by rw [List.length_append]; omega), List.getElem_append_left inside]
    · intro i inside
      have at_i := both (left.length + i) (by rw [List.length_append]; omega)
      rw [List.getElem_append_right (by omega)] at at_i
      simpa [Nat.add_assoc] using at_i
  · rintro ⟨first, second⟩ i inside
    by_cases early : i < left.length
    · rw [List.getElem_append_left early]
      exact first i early
    · have late : i - left.length < right.length := by
        rw [List.length_append] at inside
        omega
      rw [List.getElem_append_right (by omega), ← second _ late]
      congr 2
      omega

theorem holds_slice {mem : Nat → β} {pos : Nat} {content : List β}
    (held : Holds mem cap pos content)
    (i n : Nat) : Holds mem cap (pos + i) ((content.drop i).take n) := by
  intro j inside
  rw [List.length_take, List.length_drop] at inside
  rw [List.getElem_take, List.getElem_drop, Nat.add_assoc]
  exact held (i + j) (by omega)

theorem slot_injective {low p q : Nat} (pLow : low ≤ p) (pHigh : p < low + cap)
    (qLow : low ≤ q) (qHigh : q < low + cap) (same : p % cap = q % cap) : p = q := by
  have close : (p - q) % cap = 0 ∧ (q - p) % cap = 0 := by
    constructor
    · exact Nat.sub_mod_eq_zero_of_mod_eq same
    · exact Nat.sub_mod_eq_zero_of_mod_eq same.symm
  rw [Nat.mod_eq_of_lt (by omega), Nat.mod_eq_of_lt (by omega)] at close
  omega

/-- Writing at a position outside the window leaves it alone. -/
theorem holds_update_far {mem : Nat → β} {pos q : Nat} {content : List β} {b : β}
    (held : Holds mem cap pos content) (after : pos + content.length ≤ q) (room : q < pos + cap) :
    Holds (Function.update mem (q % cap) b) cap pos content := by
  intro i inside
  have other : (pos + i) % cap ≠ q % cap := by
    intro same
    have equal : pos + i = q :=
      slot_injective (Nat.le_add_right pos i) (by omega) (by omega) room same
    omega
  rw [Function.update_of_ne other]
  exact held i inside

theorem holds_update_next {mem : Nat → β} {pos : Nat} {content : List β} {b : β}
    (held : Holds mem cap pos content) (room : content.length < cap) :
    Holds (Function.update mem ((pos + content.length) % cap) b) cap pos (content ++ [b]) := by
  rw [holds_append]
  constructor
  · exact holds_update_far held (Nat.le_refl _) (by omega)
  · intro i inside
    have first : i = 0 := by simpa using inside
    subst first
    simp

end Slots

section Words
variable {w k : Nat}

theorem capacity_toNat (small : k < w) : (BitVec.ofNat w (2 ^ k)).toNat = 2 ^ k := by
  rw [BitVec.toNat_ofNat]
  exact Nat.mod_eq_of_lt (Nat.pow_lt_pow_right (by decide) small)

theorem one_toNat (small : k < w) : (1 : BitVec w).toNat = 1 := by
  change (BitVec.ofNat w 1).toNat = 1
  rw [BitVec.toNat_ofNat]
  exact Nat.mod_eq_of_lt (Nat.one_lt_two_pow (by omega))

theorem one_le_capacity (small : k < w) : 1 ≤ BitVec.ofNat w (2 ^ k) := by
  rw [BitVec.le_def, capacity_toNat small, one_toNat small]
  exact Nat.two_pow_pos k

theorem mask_toNat (small : k < w) (x : BitVec w) :
    (x &&& (BitVec.ofNat w (2 ^ k) - 1)).toNat = x.toNat % 2 ^ k := by
  have mask : (BitVec.ofNat w (2 ^ k) - 1).toNat = 2 ^ k - 1 := by
    rw [BitVec.toNat_sub_of_le (one_le_capacity small), capacity_toNat small, one_toNat small]
  rw [BitVec.toNat_and, mask, Nat.and_two_pow_sub_one_eq_mod]

theorem masked_lt (small : k < w) (x : BitVec w) :
    (x &&& (BitVec.ofNat w (2 ^ k) - 1)).toNat < 2 ^ k := by
  rw [mask_toNat small]
  exact Nat.mod_lt _ (Nat.two_pow_pos k)

/-- The slot of a wrapped position is the slot of the position. -/
theorem slot_toNat (small : k < w) (p i : Nat) :
    ((BitVec.ofNat w p + BitVec.ofNat w i) &&& (BitVec.ofNat w (2 ^ k) - 1)).toNat =
      (p + i) % 2 ^ k := by
  have divides : 2 ^ k ∣ 2 ^ w := Nat.pow_dvd_pow 2 (by omega)
  rw [mask_toNat small, ← BitVec.ofNat_add, BitVec.toNat_ofNat, Nat.mod_mod_of_dvd _ divides]

/-- Wrapping subtraction gives the distance of two positions, cut to the width. -/
theorem distance_mod {low high : Nat} (ordered : low ≤ high) :
    (BitVec.ofNat w high - BitVec.ofNat w low).toNat = (high - low) % 2 ^ w := by
  obtain ⟨gap, rfl⟩ := Nat.exists_eq_add_of_le ordered
  rw [BitVec.ofNat_add, BitVec.add_comm, BitVec.add_sub_cancel, BitVec.toNat_ofNat,
    Nat.add_sub_cancel_left]

theorem distance_toNat {low high : Nat} (ordered : low ≤ high) (close : high - low < 2 ^ w) :
    (BitVec.ofNat w high - BitVec.ofNat w low).toNat = high - low := by
  rw [distance_mod ordered]
  exact Nat.mod_eq_of_lt close

theorem word_eq_iff {low high : Nat} (ordered : low ≤ high) (close : high - low < 2 ^ w) :
    BitVec.ofNat w low = BitVec.ofNat w high ↔ low = high := by
  constructor
  · intro same
    have gap := distance_toNat ordered close
    rw [same, BitVec.sub_self, BitVec.toNat_zero] at gap
    omega
  · intro same
    rw [same]

theorem word_sub_eq_zero {low high : BitVec w} : high - low = 0 ↔ low = high := by
  constructor
  · intro zero
    have back : high - low + low = high := BitVec.sub_add_cancel high low
    rw [zero] at back
    rw [← back]
    exact (BitVec.zero_add low).symm
  · intro same
    rw [same, BitVec.sub_self]
    rfl

end Words
end Membridge.CyclicBuffer
