import Membridge.SpscRaces
import Membridge.WeakMemory

/-!
The ring of `src/spsc.rs` in a memory where a load may miss what was stored last.
Message `i` is published by write `i + 1` of the tail, and byte `q` of the stream is
write `q / 2 ^ k + 1` of its slot; so what a thread knows can be said in positions,
as where all accesses are in one order.
-/
namespace Membridge.WeakRing
open HappensBefore WeakMemory Python Spsc Queue SpscQueue ByteOrder
open SpscObservers SpscRaces

variable {w k : Nat}

abbrev CellVal (w : Nat) : Cell → Type
  | .slot _ => UInt8
  | _ => BitVec w

def cellOf (ring : RingMem w) : (l : Cell) → CellVal w l
  | .head => ring.head
  | .tail => ring.tail
  | .capacity => ring.capacity
  | .slot n => ring.data n

abbrev WeakMem (w : Nat) := Memory Party Cell (CellVal w)

/-- What each operation does in a call of `c`, which is what an index is ordered by. -/
def weakSem (t : Party) (c : RingCall) (s : WeakMem w) : (o : RingOp w) → o.Res → WeakMem w → Prop
  | .loadHead, v, after => Reads t .head (.load (acquiresHead c)) s v after
  | .loadTail, v, after => Reads t .tail (.load (acquiresTail c)) s v after
  | .loadCapacity, v, after => Reads t .capacity .read s v after
  | .storeHead v, _, after => after = s.write t .head (storesIndex c) v
  | .storeTail v, _, after => after = s.write t .tail (storesIndex c) v
  | .storeCapacity v, _, after => after = s.write t .capacity .write v
  | .readByte slot, b, after => Reads t (.slot slot) .read s b after
  | .writeByte slot b, _, after => after = s.write t (.slot slot) .write b

section Positions
variable {ms more : List Message} {m : Message} {i j : Nat}

/-- Where the first `i` messages end. -/
def upTo (ms : List Message) (i : Nat) : Nat := Fifo.total frameLen (ms.take i)

theorem upTo_zero : upTo ms 0 = 0 := rfl

theorem upTo_mono (ms : List Message) (before : i ≤ j) : upTo ms i ≤ upTo ms j :=
  Fifo.total_mono frameLen (List.take_prefix_take_left before)

theorem upTo_append (inside : i ≤ ms.length) : upTo (ms ++ more) i = upTo ms i := by
  rw [upTo, List.take_append_of_le_length inside, upTo]

theorem upTo_snoc : upTo (ms ++ [m]) (ms.length + 1) = upTo ms ms.length + frameLen m := by
  rw [upTo, upTo, List.take_of_length_le (by simp), List.take_length]
  simp

theorem upTo_next (found : ms[i]? = some m) : upTo ms (i + 1) = upTo ms i + frameLen m := by
  rw [upTo, upTo, List.take_add_one, found]
  simp

theorem upTo_lt (before : i < j) (inside : j ≤ ms.length) : upTo ms i < upTo ms j := by
  obtain ⟨m, found⟩ : ∃ m, ms[i]? = some m :=
    ⟨_, List.getElem?_eq_getElem (Nat.lt_of_lt_of_le before inside)⟩
  have next := upTo_next found
  have later : upTo ms (i + 1) ≤ upTo ms j := upTo_mono ms before
  have positive := frameLen_pos m
  omega

theorem upTo_drop (ms : List Message) (i : Nat) :
    upTo ms i + Fifo.total frameLen (ms.drop i) = upTo ms ms.length := by
  rw [upTo, upTo, List.take_length, ← Fifo.total_append, List.take_append_drop]

end Positions

/-- Byte `q` of the stream: its slot, and which of the writes of that slot it is. -/
abbrev place (k q : Nat) : Cell := .slot (q % 2 ^ k)

def age (k q : Nat) : Nat := q / 2 ^ k + 1

/-- The view has the first `p` bytes of the stream. -/
def Covers (k : Nat) (v : View Cell) (p : Nat) : Prop := ∀ q, q < p → age k q ≤ v (place k q)

/-- The bytes of message `i` in the stream. -/
theorem stream_at [Target] {ms : List Message} {m : Message} {i j : Nat} (found : ms[i]? = some m)
    (inside : j < (frame m).length) : (stream ms)[upTo ms i + j]? = (frame m)[j]? := by
  obtain ⟨short, rfl⟩ := List.getElem?_eq_some_iff.mp found
  have cut : ms = ms.take i ++ ms[i] :: ms.drop (i + 1) := by
    rw [← List.drop_eq_getElem_cons short, List.take_append_drop]
  have before : upTo ms i = (stream (ms.take i)).length := (stream_length _).symm
  have parts : stream ms = stream (ms.take i) ++ (frame ms[i] ++ stream (ms.drop (i + 1))) := by
    rw [← stream_cons, ← stream_append, ← cut]
  rw [parts, before, List.getElem?_append_right (Nat.le_add_right _ _), Nat.add_sub_cancel_left,
    List.getElem?_append_left inside]

/-- A view that has a tail has the messages published by it. -/
def Whole (k : Nat) (ms : List Message) (v : View Cell) : Prop := Covers k v (upTo ms (v .tail))

/-- Exactly the first `n` bytes were written. -/
def Filled (k : Nat) (s : WeakMem w) (n : Nat) : Prop :=
  ∀ q, age k q < (s.writes (place k q)).length ↔ q < n

def Stored (k : Nat) (s : WeakMem w) (q : Nat) (b : UInt8) : Prop :=
  ∃ x, (s.writes (place k q))[age k q]? = some x ∧ x.value = b

def Stores (k : Nat) (s : WeakMem w) (p : Nat) (bytes : List UInt8) : Prop :=
  ∀ i (inside : i < bytes.length), Stored k s (p + i) bytes[i]

section Views
variable {ms : List Message} {u v : View Cell} {p q n : Nat} {s after : WeakMem w}

theorem Covers.mono (covers : Covers k u p) (more : ∀ q, u (place k q) ≤ v (place k q))
    (less : q ≤ p) :
    Covers k v q := by
  intro r before
  exact Nat.le_trans (covers r (Nat.lt_of_lt_of_le before less)) (more r)

theorem Whole.mono (whole : Whole k ms u) (tail : v .tail = u .tail)
    (more : ∀ q, u (place k q) ≤ v (place k q)) : Whole k ms v := by
  rw [Whole, tail]
  exact Covers.mono whole more (Nat.le_refl _)

theorem Whole.join (first : Whole k ms u) (second : Whole k ms v) :
    Whole k ms (fun l => max (u l) (v l)) := by
  rcases Nat.le_total (u .tail) (v .tail) with less | less
  · rw [Whole, Nat.max_eq_right less]
    exact Covers.mono second (fun _ => Nat.le_max_right _ _) (Nat.le_refl _)
  · rw [Whole, Nat.max_eq_left less]
    exact Covers.mono first (fun _ => Nat.le_max_left _ _) (Nat.le_refl _)

/-- A view without a tail has nothing to cover. -/
theorem whole_without (unseen : u .tail = 0) : Whole k ms u := by
  intro q before
  rw [unseen, upTo_zero] at before
  exact absurd before (Nat.not_lt_zero q)

theorem Filled.unique {n' : Nat} (first : Filled k s n) (second : Filled k s n') : n = n' := by
  have up := (first n').symm.trans (second n')
  have down := (first n).symm.trans (second n)
  omega

/-- The next byte is the next write of its slot. -/
theorem Filled.next (filled : Filled k s n) (sane : Sane s) :
    (s.writes (place k n)).length = age k n := by
  have most : ¬ age k n < (s.writes (place k n)).length := fun more =>
    Nat.lt_irrefl n ((filled n).mp more)
  by_cases first : n < 2 ^ k
  · have known := sane.known .producer (place k n)
    have zero : n / 2 ^ k = 0 := Nat.div_eq_of_lt first
    rw [age, zero] at most ⊢
    omega
  · -- the slot was written one round before
    have before : n = n - 2 ^ k + 2 ^ k := by omega
    have slot : place k (n - 2 ^ k) = place k n := by
      rw [place, place, before, Nat.add_mod_right, Nat.add_sub_cancel]
    have round : n / 2 ^ k = (n - 2 ^ k) / 2 ^ k + 1 := by
      rw [before, Nat.add_div_right _ (Nat.two_pow_pos k), Nat.add_sub_cancel]
    have least := (filled (n - 2 ^ k)).mpr (by have := Nat.two_pow_pos k; omega)
    rw [slot] at least
    rw [age] at most least ⊢
    omega

theorem Stored.write {t : Party} {l : Cell} {m : Mode} {v : CellVal w l} {b : UInt8}
    (stored : Stored k s q b) : Stored k (s.write t l m v) q b := by
  obtain ⟨x, found, value⟩ := stored
  exact ⟨x, write_keeps found, value⟩

theorem stores_nil : Stores k s p [] := by
  intro i inside
  exact absurd inside (Nat.not_lt_zero i)

theorem stores_append {left right : List UInt8} :
    Stores k s p (left ++ right) ↔ Stores k s p left ∧ Stores k s (p + left.length) right := by
  constructor
  · intro all
    constructor
    · intro i inside
      have at_i := all i (by rw [List.length_append]; omega)
      rwa [List.getElem_append_left inside] at at_i
    · intro i inside
      have at_i := all (left.length + i) (by rw [List.length_append]; omega)
      rw [List.getElem_append_right (by omega)] at at_i
      simpa [Nat.add_assoc] using at_i
  · rintro ⟨first, second⟩ i inside
    by_cases early : i < left.length
    · rw [List.getElem_append_left early]
      exact first i early
    · rw [List.length_append] at inside
      rw [List.getElem_append_right (by omega)]
      have late := second (i - left.length) (by omega)
      rwa [show p + left.length + (i - left.length) = p + i by omega] at late

theorem Stores.write {t : Party} {l : Cell} {m : Mode} {v : CellVal w l} {bytes : List UInt8}
    (stores : Stores k s p bytes) : Stores k (s.write t l m v) p bytes :=
  fun i inside => (stores i inside).write

end Views

/-- The memory holds the messages `ms`, of which `taken` were taken, and the first `n` bytes of
what is or will be their stream. -/
structure Carries [Target] (k : Nat) (ms : List Message) (taken n : Nat)
    (s : WeakMem w) : Prop where
  sane : Sane s
  tails : (s.writes .tail).length = ms.length + 1
  heads : (s.writes .head).length = taken + 1
  tailAt : ∀ (i : Nat) x, (s.writes .tail)[i]? = some x → x.value = BitVec.ofNat w (upTo ms i)
  headAt : ∀ (i : Nat) x, (s.writes .head)[i]? = some x → x.value = BitVec.ofNat w (upTo ms i)
  capacityAt : ∀ (i : Nat) x, (s.writes .capacity)[i]? = some x → x.value = BitVec.ofNat w (2 ^ k)
  ownTail : s.knows .producer .tail = ms.length
  ownHead : s.knows .consumer .head = taken
  known : ∀ t, Whole k ms (s.knows t)
  tells : ∀ l (i : Nat) (x : Write Cell (CellVal w l)), (s.writes l)[i]? = some x →
    Whole k ms x.view
  front : taken ≤ s.knows .consumer .tail
  held : Stores k s 0 (stream ms)
  filled : Filled k s n
  behind : upTo ms ms.length ≤ n
  room : n ≤ upTo ms (s.knows .producer .head) + 2 ^ k
  written : Covers k (s.knows .producer) n

namespace Carries
variable [Target] {ms : List Message} {taken n p i : Nat} {s after : WeakMem w}
  {t : Party} {l : Cell}
  {m : Mode} {v : CellVal w l} {x : Write Cell (CellVal w l)} (carries : Carries k ms taken n s)
include carries

theorem seen_le : s.knows .consumer .tail ≤ ms.length := by
  have known := carries.sane.known .consumer .tail
  rw [carries.tails] at known
  omega

theorem freed_le : s.knows .producer .head ≤ taken := by
  have known := carries.sane.known .producer .head
  rw [carries.heads] at known
  omega

theorem taken_le : taken ≤ ms.length := Nat.le_trans carries.front carries.seen_le

/-- From where a thread that is not behind the producer believes the first unread message to be,
the stream goes on for one capacity at most. -/
theorem close {j : Nat} (later : s.knows .producer .head ≤ i) (inside : j ≤ ms.length) :
    upTo ms j ≤ upTo ms i + 2 ^ k := by
  have most := upTo_mono ms inside
  have least := upTo_mono ms later
  have behind := carries.behind
  have room := carries.room
  omega

/-- A load of the tail that learns what its writer knew leaves nobody with a torn view. -/
theorem read (learns : Learns t l m s after v i x)
    (acquired : l = .tail → t = .producer ∨ m.acquires = true) : Carries k ms taken n after := by
  have grows : ∀ u l', s.knows u l' ≤ after.knows u l' := by
    intro u l'
    by_cases same : u = t
    · subst same
      exact learns.more l'
    · rw [learns.others u same]
  have whole : ∀ u, Whole k ms (after.knows u) := by
    intro u
    by_cases same : u = t
    · subst same
      rw [learns.knows, joined]
      split
      · exact (carries.known u).join (carries.tells l i x learns.found)
      · next relaxed =>
          by_cases tail : l = .tail
          · -- only the producer does so, and it knows the newest tail
            subst tail
            obtain rfl := (acquired rfl).resolve_right relaxed
            have fresh := learns.fresh
            have inside := learns.inside
            rw [carries.tails] at inside
            rw [carries.ownTail] at fresh
            have newest : i = s.knows .producer .tail := by
              rw [carries.ownTail]
              omega
            rw [newest, Function.update_eq_self]
            exact carries.known _
          · refine (carries.known u).mono (Function.update_of_ne (Ne.symm tail) _ _) ?_
            intro q
            by_cases here : place k q = l
            · subst here
              rw [Function.update_self]
              exact learns.fresh
            · rw [Function.update_of_ne here]
    · rw [learns.others u same]
      exact carries.known u
  have writes := learns.writes
  obtain ⟨heads, grown⟩ : s.knows .producer .head ≤ after.knows .producer .head ∧
      taken ≤ after.knows .consumer .tail :=
    ⟨grows _ _, Nat.le_trans carries.front (grows _ _)⟩
  constructor
  · exact learns.sane carries.sane
  · rw [writes]; exact carries.tails
  · rw [writes]; exact carries.heads
  · rw [writes]; exact carries.tailAt
  · rw [writes]; exact carries.headAt
  · rw [writes]; exact carries.capacityAt
  · rw [learns.newest carries.sane (by rw [carries.ownTail, carries.tails])]
    exact carries.ownTail
  · rw [learns.newest carries.sane (by rw [carries.ownHead, carries.heads])]
    exact carries.ownHead
  · exact whole
  · rw [writes]; exact carries.tells
  · exact grown
  · intro j inside
    obtain ⟨y, found, same⟩ := carries.held j inside
    exact ⟨y, by rw [writes]; exact found, same⟩
  · intro q
    rw [writes]
    exact carries.filled q
  · exact carries.behind
  · have := upTo_mono ms heads
    have := carries.room
    omega
  · exact carries.written.mono (fun _ => grows _ _) (Nat.le_refl _)

/-- The producer writes the next byte of the stream, which is free as far as it knows. -/
theorem put (b : UInt8) (free : n < upTo ms (s.knows .producer .head) + 2 ^ k) :
    let after := s.write .producer (place k n) .write b
    Carries k ms taken (n + 1) after ∧ Stored k after n b := by
  intro after
  have newest := carries.filled.next carries.sane
  have tail : Cell.tail ≠ place k n := nofun
  have head : Cell.head ≠ place k n := nofun
  have capacity : Cell.capacity ≠ place k n := nofun
  have knows : ∀ u l', l' ≠ place k n → after.knows u l' = s.knows u l' := by
    intro u l' other
    by_cases own : u = .producer
    · subst own
      rw [write_knows, Function.update_of_ne other]
    · rw [write_others own]
  refine ⟨?_, ?_⟩
  · constructor
    · exact carries.sane.write
    · rw [write_elsewhere tail]; exact carries.tails
    · rw [write_elsewhere head]; exact carries.heads
    · rw [write_elsewhere tail]; exact carries.tailAt
    · rw [write_elsewhere head]; exact carries.headAt
    · rw [write_elsewhere capacity]; exact carries.capacityAt
    · rw [knows _ _ tail]; exact carries.ownTail
    · rw [knows _ _ head]; exact carries.ownHead
    · exact fun u => (carries.known u).mono (knows u _ tail) fun q => write_more carries.sane
    · refine write_views (fun _ _ view => Whole k ms view) carries.tells (whole_without ?_)
      exact Function.update_of_ne tail _ _
    · rw [knows _ _ tail]; exact carries.front
    · exact carries.held.write
    · intro q
      by_cases same : place k q = place k n
      · rw [same, write_length, newest]
        have slot : q % 2 ^ k = n % 2 ^ k := by simpa using same
        have q' := Nat.div_add_mod q (2 ^ k)
        have n' := Nat.div_add_mod n (2 ^ k)
        rw [slot] at q'
        rw [age, age]
        constructor
        · intro less
          have rounds : 2 ^ k * (q / 2 ^ k) ≤ 2 ^ k * (n / 2 ^ k) :=
            Nat.mul_le_mul_left _ (by omega)
          omega
        · intro less
          have rounds : q / 2 ^ k ≤ n / 2 ^ k := Nat.div_le_div_right (by omega)
          omega
      · rw [write_elsewhere same]
        have other : q ≠ n := fun equal => same (equal ▸ rfl)
        rw [carries.filled q]
        omega
    · have := carries.behind
      omega
    · rw [knows _ _ head]
      exact free
    · intro q before
      by_cases last : q = n
      · subst last
        rw [write_knows, Function.update_self, newest]
      · exact Nat.le_trans (carries.written q (by omega)) (write_more carries.sane)
  · refine ⟨⟨b, told (s.knows .producer) (place k n) (s.writes (place k n)).length .write⟩, ?_, rfl⟩
    rw [write_here, ← newest, List.getElem?_append_right (Nat.le_refl _), Nat.sub_self]
    rfl

/-- Storing the tail publishes the message that was written behind it. -/
theorem publish {msg : Message} {c : RingCall} (whole : n = upTo ms ms.length + frameLen msg)
    (stores : Stores k s (upTo ms ms.length) (frame msg))
    (releases : (storesIndex c).releases = true) :
    Carries k (ms ++ [msg]) taken n
      (s.write .producer .tail (storesIndex c) (BitVec.ofNat w n)) := by
  have other : ∀ q, place k q ≠ Cell.tail := fun q => nofun
  have head : Cell.head ≠ Cell.tail := nofun
  have capacity : Cell.capacity ≠ Cell.tail := nofun
  have taken_le := carries.taken_le
  have freed_le := carries.freed_le
  have known : ∀ view : View Cell, view .tail ≤ ms.length → Whole k ms view →
      Whole k (ms ++ [msg]) view := by
    intro view inside whole
    rw [Whole, upTo_append inside]
    exact whole
  have consumer : (s.write .producer .tail (storesIndex c) (BitVec.ofNat w n)).knows .consumer =
      s.knows .consumer := write_others nofun
  have upward : ∀ q, Function.update (s.knows .producer) .tail (ms.length + 1) (place k q) =
      s.knows .producer (place k q) := fun q => Function.update_of_ne (other q) _ _
  have producer : Whole k (ms ++ [msg])
    (Function.update (s.knows .producer) .tail (ms.length + 1)) := by
    rw [Whole, Function.update_self, upTo_snoc, ← whole]
    exact carries.written.mono (fun q => Nat.le_of_eq (upward q).symm) (Nat.le_refl _)
  constructor
  · exact carries.sane.write
  · rw [write_length, carries.tails, List.length_append, List.length_singleton]
  · rw [write_elsewhere head]; exact carries.heads
  · intro i x found
    rcases write_found found with old | ⟨rfl, value, -⟩
    · have inside := (List.getElem?_eq_some_iff.mp old).1
      rw [carries.tails] at inside
      rw [carries.tailAt i x old, upTo_append (by omega)]
    · rw [value, carries.tails, upTo_snoc, whole]
  · intro i x found
    rw [write_elsewhere head] at found
    have inside := (List.getElem?_eq_some_iff.mp found).1
    rw [carries.heads] at inside
    rw [carries.headAt i x found, upTo_append (by omega)]
  · rw [write_elsewhere capacity]; exact carries.capacityAt
  · rw [write_knows, Function.update_self, carries.tails, List.length_append, List.length_singleton]
  · rw [consumer]; exact carries.ownHead
  · intro u
    by_cases own : u = .producer
    · subst own
      rw [write_knows, carries.tails]
      exact producer
    · rw [write_others own]
      have inside := carries.sane.known u .tail
      rw [carries.tails] at inside
      exact known _ (by omega) (carries.known u)
  · refine write_views (fun _ _ view => Whole k (ms ++ [msg]) view) ?_ ?_
    · intro l i x found
      have inside := carries.sane.views l i x found .tail
      rw [carries.tails] at inside
      exact known _ (by omega) (carries.tells l i x found)
    · rw [told, releases, carries.tails]
      exact producer
  · rw [consumer]; exact carries.front
  · rw [stream_append, stores_append]
    refine ⟨carries.held.write, ?_⟩
    rw [stream_length, Nat.zero_add]
    have end_at : Fifo.total frameLen ms = upTo ms ms.length := by rw [upTo, List.take_length]
    rw [end_at]
    simpa [stream] using stores.write
  · intro q
    rw [write_elsewhere (other q)]
    exact carries.filled q
  · rw [List.length_append, List.length_singleton, upTo_snoc, whole]
  · rw [write_knows, Function.update_of_ne head, upTo_append (by omega)]
    exact carries.room
  · intro q before
    rw [write_knows, carries.tails, upward q]
    exact carries.written q before

/-- Storing the head takes a message the consumer knows of. -/
theorem advance {c : RingCall} (more : taken < s.knows .consumer .tail)
    (releases : (storesIndex c).releases = true) :
    Carries k ms (taken + 1) n
      (s.write .consumer .head (storesIndex c) (BitVec.ofNat w (upTo ms (taken + 1)))) := by
  have other : ∀ q, place k q ≠ Cell.head := fun q => nofun
  have tail : Cell.tail ≠ Cell.head := nofun
  have capacity : Cell.capacity ≠ Cell.head := nofun
  have producer : ∀ v, (s.write .consumer .head (storesIndex c) v).knows .producer =
      s.knows .producer := fun v => write_others nofun
  have consumer : Whole k ms (Function.update (s.knows .consumer) .head (taken + 1)) :=
    (carries.known .consumer).mono (Function.update_of_ne tail _ _)
      fun q => Nat.le_of_eq (Function.update_of_ne (other q) _ _).symm
  constructor
  · exact carries.sane.write
  · rw [write_elsewhere tail]; exact carries.tails
  · rw [write_length, carries.heads]
  · rw [write_elsewhere tail]; exact carries.tailAt
  · intro i x found
    rcases write_found found with old | ⟨rfl, value, -⟩
    · exact carries.headAt i x old
    · rw [value, carries.heads]
  · rw [write_elsewhere capacity]; exact carries.capacityAt
  · rw [producer]; exact carries.ownTail
  · rw [write_knows, Function.update_self, carries.heads]
  · intro u
    by_cases own : u = .consumer
    · subst own
      rw [write_knows, carries.heads]
      exact consumer
    · rw [write_others own]
      exact carries.known u
  · refine write_views (fun _ _ view => Whole k ms view) carries.tells ?_
    rw [told, releases, carries.heads]
    exact consumer
  · rw [write_knows, Function.update_of_ne tail]
    exact more
  · exact carries.held.write
  · intro q
    rw [write_elsewhere (other q)]
    exact carries.filled q
  · exact carries.behind
  · rw [producer]; exact carries.room
  · rw [producer]; exact carries.written

/-- A byte of a message that the consumer knows of and has not taken: there is nothing to read
but what the producer wrote. -/
theorem byte {b : UInt8} {y : Write Cell (CellVal w (place k p))}
    (learns : Learns .consumer (place k p) m s after b i y) (low : upTo ms taken ≤ p)
    (high : p < upTo ms (s.knows .consumer .tail)) :
    i + 1 = (s.writes (place k p)).length ∧ (stream ms)[p]? = some b := by
  have least := Nat.le_trans (carries.known .consumer p high) learns.fresh
  have inside := learns.inside
  -- a later write of the slot would be one capacity ahead
  have most : ¬ age k (p + 2 ^ k) < (s.writes (place k (p + 2 ^ k))).length := by
    rw [carries.filled]
    have room := carries.room
    have freed := upTo_mono ms carries.freed_le
    omega
  have slot : place k (p + 2 ^ k) = place k p := by rw [place, place, Nat.add_mod_right]
  have round : age k (p + 2 ^ k) = age k p + 1 := by
    rw [age, age, Nat.add_div_right _ (Nat.two_pow_pos k)]
  rw [slot, round] at most
  have same : i = age k p := by omega
  subst same
  refine ⟨by omega, ?_⟩
  have published : p < (stream ms).length := by
    rw [stream_length, ← List.take_length (l := ms)]
    exact Nat.lt_of_lt_of_le high (upTo_mono ms carries.seen_le)
  obtain ⟨z, found, value⟩ := carries.held p published
  rw [Nat.zero_add] at found
  have only := learns.found.symm.trans found
  rw [Option.some.injEq] at only
  rw [List.getElem?_eq_getElem published, ← value, learns.value, only]

end Carries
end Membridge.WeakRing
