import Membridge.CyclicBuffer
import Membridge.Queue
import Membridge.Spsc

/-!
What the words and bytes of a ring say about the queue they hold. The frames of
the unread messages lie one after the other from `head` on, each a four-byte
length and the payload, wrapping at the end of the array; `head` and `tail` are
the two stream positions, cut to `w` bits.
-/
namespace Membridge.SpscQueue
open Spsc Queue CyclicBuffer ByteOrder

variable {w k : Nat} [Target]

abbrev Message := List UInt8

def frameLen (m : Message) : Nat := 4 + m.length

def frame (m : Message) : List UInt8 := toNeBytes 4 (m.length % 2 ^ 32) ++ m

def stream (ms : List Message) : List UInt8 := ms.flatMap frame

@[simp] theorem frame_length (m : Message) : (frame m).length = frameLen m := by
  simp [frame, frameLen]

omit [Target] in
theorem frameLen_pos (m : Message) : 0 < frameLen m := by
  unfold frameLen
  omega

@[simp] theorem stream_cons (m : Message) (ms : List Message) :
    stream (m :: ms) = frame m ++ stream ms := rfl

theorem frame_header {m : Message} (short : m.length < 2 ^ 32) :
    fromNeBytes ((frame m).take 4) = m.length := by
  have width : (toNeBytes 4 (m.length % 2 ^ 32)).length = 4 := by simp
  rw [frame, List.take_append_of_le_length (by rw [width]), List.take_of_length_le (by rw [width]),
    Nat.mod_eq_of_lt short, fromNeBytes_toNeBytes]
  exact Nat.mod_eq_of_lt short

theorem frame_payload (m : Message) : ((frame m).drop 4).take m.length = m := by
  have width : (toNeBytes 4 (m.length % 2 ^ 32)).length = 4 := by simp
  rw [frame, List.drop_left' width, List.take_length]

theorem stream_append (left right : List Message) :
    stream (left ++ right) = stream left ++ stream right := by
  simp [stream]

@[simp] theorem stream_length (ms : List Message) :
    (stream ms).length = Fifo.total frameLen ms := by
  induction ms with
  | nil => rfl
  | cons m rest ih => simp [ih]

structure Represents (k : Nat) (q : Fifo Message) (ring : RingMem w) : Prop where
  head : ring.head = BitVec.ofNat w (q.start frameLen)
  tail : ring.tail = BitVec.ofNat w (q.stop frameLen)
  capacity : ring.capacity = BitVec.ofNat w (2 ^ k)
  room : q.queued frameLen ≤ 2 ^ k
  held : Holds ring.data (2 ^ k) (q.start frameLen) (stream q.unread)

namespace Represents
variable {q : Fifo Message} {ring : RingMem w}

theorem used_toNat (small : k < w) (rep : Represents k q ring) :
    (ring.tail - ring.head).toNat = q.queued frameLen := by
  have bound : 2 ^ k < 2 ^ w := Nat.pow_lt_pow_right (by decide) small
  have room := rep.room
  have positions := q.start_add_queued frameLen
  rw [rep.head, rep.tail, distance_toNat (by omega) (by omega)]
  omega

theorem empty_iff (small : k < w) (rep : Represents k q ring) :
    ring.head = ring.tail ↔ q.unread = [] := by
  have bound : 2 ^ k < 2 ^ w := Nat.pow_lt_pow_right (by decide) small
  have room := rep.room
  have positions := q.start_add_queued frameLen
  rw [rep.head, rep.tail, word_eq_iff (by omega) (by omega), q.unread_empty_iff,
    ← q.queued_eq_zero_iff frameLen frameLen_pos]
  omega

/-- A byte written past `tail`, into room the queue does not use, changes no message. -/
theorem write_free (rep : Represents k q ring) {offset : Nat} {b : UInt8}
    (free : q.queued frameLen + offset < 2 ^ k) :
    Represents k q
      { ring with data := Function.update ring.data ((q.stop frameLen + offset) % 2 ^ k) b } := by
  have positions := q.start_add_queued frameLen
  have width : (stream q.unread).length = q.queued frameLen := stream_length q.unread
  exact { rep with
    held := holds_update_far rep.held (by omega) (by omega) }

/-- Moving `tail` over a frame that was written there publishes the message. -/
theorem publish (rep : Represents k q ring) (m : Message)
    (fits : q.queued frameLen + frameLen m ≤ 2 ^ k)
    (written : Holds ring.data (2 ^ k) (q.stop frameLen) (frame m)) :
    Represents k (q.publish m)
      { ring with tail := ring.tail + BitVec.ofNat w (frameLen m) } where
  head := by
    rw [q.publish_start]
    exact rep.head
  tail := by
    change ring.tail + _ = _
    rw [q.publish_stop, rep.tail, BitVec.ofNat_add]
  capacity := rep.capacity
  room := by
    rw [q.publish_queued]
    exact fits
  held := by
    have positions := q.start_add_queued frameLen
    have width : (stream q.unread).length = q.queued frameLen := stream_length q.unread
    rw [q.publish_start, q.publish_unread, stream_append, holds_append]
    refine ⟨rep.held, ?_⟩
    rw [width, positions]
    simpa [stream] using written

/-- The front message is stored where `head` points. -/
theorem front {m : Message} {rest : List Message} (rep : Represents k q ring)
    (unread : q.unread = m :: rest) :
    Holds ring.data (2 ^ k) (q.start frameLen) (frame m) := by
  have held := rep.held
  rw [unread, stream_cons, holds_append] at held
  exact held.1

/-- Moving `head` over the front frame takes the message. -/
theorem advance {m : Message} {rest : List Message} (rep : Represents k q ring)
    (unread : q.unread = m :: rest) (more : q.taken < q.published.length)
    (next : (q.advance more).unread = rest)
    (delivered : (q.advance more).delivered = q.delivered ++ [m]) :
    Represents k (q.advance more)
      { ring with head := ring.head + BitVec.ofNat w (frameLen m) } where
  head := by
    change ring.head + _ = _
    rw [rep.head, Fifo.start, Fifo.start, delivered, Fifo.total_append, BitVec.ofNat_add]
    simp
  tail := rep.tail
  capacity := rep.capacity
  room := by
    have room := rep.room
    rw [Fifo.queued, unread, Fifo.total_cons] at room
    rw [Fifo.queued, next]
    omega
  held := by
    have held := rep.held
    rw [unread, stream_cons, holds_append, frame_length] at held
    rw [next, Fifo.start, delivered, Fifo.total_append]
    simpa [Fifo.start] using held.2

end Represents

omit [Target] in
/-- The space check of a push, on words, is the check on positions. -/
theorem space_check {q : Fifo Message} {head tail : BitVec w} {n : Nat} (small : k < w)
    (headAt : head = BitVec.ofNat w (q.start frameLen))
    (tailAt : tail = BitVec.ofNat w (q.stop frameLen)) (room : q.queued frameLen ≤ 2 ^ k)
    (wide : 2 ^ k + n < 2 ^ w) :
    tail - head + BitVec.ofNat w n > BitVec.ofNat w (2 ^ k) ↔ ¬ q.queued frameLen + n ≤ 2 ^ k := by
  have positions := q.start_add_queued frameLen
  have bound : 2 ^ k < 2 ^ w := Nat.pow_lt_pow_right (by decide) small
  have sum : (tail - head + BitVec.ofNat w n).toNat = q.queued frameLen + n := by
    rw [headAt, tailAt, BitVec.toNat_add, distance_toNat (by omega) (by omega), BitVec.toNat_ofNat,
      Nat.mod_eq_of_lt (a := n) (by omega), Nat.mod_eq_of_lt (by omega)]
    omega
  rw [gt_iff_lt, BitVec.lt_def, sum, capacity_toNat small]
  omega

/-- A ring as `SpscRingBuffer::new` leaves it for its creator. -/
theorem fresh_represents (data : Nat → UInt8) :
    Represents k Fifo.empty
      ({ head := 0, tail := 0, capacity := BitVec.ofNat w (2 ^ k), data := data } : RingMem w) where
  head := rfl
  tail := rfl
  capacity := rfl
  room := Nat.zero_le _
  held := holds_nil _ _ _

end Membridge.SpscQueue
