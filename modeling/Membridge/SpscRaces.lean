import Membridge.HappensBefore
import Membridge.SpscObservers
import Membridge.SpscPositions

/-!
The orderings of `src/spsc.rs` are enough: the data area is accessed without
synchronisation of its own, and yet no byte of it is raced for. What the producer
wrote reaches the consumer with the tail, what the consumer has read leaves it
with the head.
-/
namespace Membridge.SpscRaces
open Program Interleaving RelyGuarantee HappensBefore Python Spsc Queue SpscQueue
open CyclicBuffer ByteOrder
open SpscProtocol SpscInvariant SpscSound SpscDelivery SpscObservers SpscPositions Arithmetic

variable {k : Nat}

inductive Cell where
  | head
  | tail
  | capacity
  | slot (n : Nat)
  deriving DecidableEq

/-- The loads of the consumer's own index are `Relaxed` in a pop, all others `Acquire`. -/
def acquiresHead : RingCall → Bool
  | .pop _ => false
  | .popMixed _ => false
  | _ => true

/-- The load of the producer's own index is `Relaxed` in a push. -/
def acquiresTail : RingCall → Bool
  | .push _ => false
  | _ => true

/-- Indices are stored with `Release`, but by the constructor as plain words. -/
def storesIndex : RingCall → Mode
  | .spsc _ _ => .write
  | _ => .store true

def ringTouch {w : Nat} (c : RingCall) : (o : RingOp w) → o.Res → Cell × Mode
  | .loadHead, _ => (.head, .load (acquiresHead c))
  | .loadTail, _ => (.tail, .load (acquiresTail c))
  | .loadCapacity, _ => (.capacity, .read)
  | .storeHead _, _ => (.head, storesIndex c)
  | .storeTail _, _ => (.tail, storesIndex c)
  | .storeCapacity _, _ => (.capacity, .write)
  | .readByte slot, _ => (.slot slot, .read)
  | .writeByte slot _, _ => (.slot slot, .write)

abbrev RingGoes {w : Nat} (log : RingLog w) (i : Nat) (t : Party) (l : Cell) (m : Mode) : Prop :=
  Goes ringTouch log i t l m

section Accesses
variable {w : Nat} {log : RingLog w} {i : Nat} {t : Party} {m : Mode}

theorem goes_access {id : Nat} {c : RingCall} {o : RingOp w} {r : o.Res}
    (found : log[i]? = some (.access t id c o r)) :
    RingGoes log i t (ringTouch c o r).1 (ringTouch c o r).2 := ⟨_, found, rfl, rfl⟩

theorem goes_event {l : Cell} (goes : RingGoes log i t l m) : ∃ id c o r,
    log[i]? = some (.access t id c o r) ∧ ringTouch c o r = (l, m) := by
  obtain ⟨e, found, rfl, aim⟩ := goes
  cases e with
  | access t id c o r =>
      simp only [touched, Option.some.injEq] at aim
      exact ⟨id, c, o, r, found, aim⟩
  | _ => cases aim

theorem goes_slot {n : Nat} (goes : RingGoes log i t (.slot n) m) :
    (m = .read ∧ ∃ id c r, log[i]? = some (.access t id c (.readByte n) r)) ∨
      (m = .write ∧ ∃ id c b r, log[i]? = some (.access t id c (.writeByte n b) r)) := by
  obtain ⟨id, c, o, r, found, aim⟩ := goes_event goes
  cases o with
  | readByte slot =>
      cases aim
      exact .inl ⟨rfl, id, c, r, found⟩
  | writeByte slot b =>
      cases aim
      exact .inr ⟨rfl, id, c, b, r, found⟩
  | _ => cases aim

variable [Target] (placed : Recorded (Placed k) log)
include placed

/-- The tail is accessed atomically, and the producer alone stores it, with `Release`. -/
theorem tail_owned (goes : RingGoes log i t .tail m) :
    m.plain = false ∧ (m.writes = true → t = .producer ∧ m.releases = true) := by
  obtain ⟨id, c, o, r, found, aim⟩ := goes_event goes
  cases o with
  | storeTail v =>
      obtain ⟨rfl, data, rfl⟩ := recorded_at placed found
      cases aim
      exact ⟨rfl, fun _ => ⟨rfl, rfl⟩⟩
  | loadTail =>
      cases aim
      exact ⟨rfl, nofun⟩
  | _ => cases aim

theorem head_owned (goes : RingGoes log i t .head m) :
    m.plain = false ∧ (m.writes = true → t = .consumer ∧ m.releases = true) := by
  obtain ⟨id, c, o, r, found, aim⟩ := goes_event goes
  cases o with
  | storeHead v =>
      obtain ⟨rfl, pop⟩ := recorded_at placed found
      cases aim
      cases c with
      | pop tag => exact ⟨rfl, fun _ => ⟨rfl, rfl⟩⟩
      | popMixed schema => exact ⟨rfl, fun _ => ⟨rfl, rfl⟩⟩
      | _ => cases pop
  | loadHead =>
      cases aim
      exact ⟨rfl, nofun⟩
  | _ => cases aim

theorem capacity_kept (goes : RingGoes log i t .capacity m) : m.writes = false := by
  obtain ⟨id, c, o, r, found, aim⟩ := goes_event goes
  cases o with
  | storeCapacity v => exact (recorded_at placed found).elim
  | loadCapacity =>
      cases aim
      rfl
  | _ => cases aim

/-- A byte the producer writes, and the load of the head that showed it free. -/
theorem written_at {id n : Nat} {c : RingCall} {b : UInt8} {r : Unit}
    (found : log[i]? = some (.access t id c (.writeByte n b) r)) : t = .producer ∧
      ∃ l pos, l < i ∧ RingGoes log l .producer .head (.load true) ∧ n = pos % 2 ^ k ∧
        (queueOf (log.take i)).stop frameLen ≤ pos ∧
        pos < (queueOf (log.take l)).start frameLen + 2 ^ k := by
  obtain ⟨rfl, ⟨data, rfl⟩, seen, v, mid, pos, cut, slot, low, high⟩ := recorded_at placed found
  obtain ⟨inside, whole, early⟩ := found_before cut
  refine ⟨rfl, seen.length, pos, inside, goes_access whole, slot, low, ?_⟩
  rw [early]
  exact high

theorem read_at {id n : Nat} {c : RingCall} {r : UInt8}
    (found : log[i]? = some (.access t id c (.readByte n) r)) : t = .consumer ∧
      ∃ l pos, l < i ∧ RingGoes log l .consumer .tail (.load true) ∧ n = pos % 2 ^ k ∧
        (queueOf (log.take i)).start frameLen ≤ pos ∧
        pos < (queueOf (log.take l)).stop frameLen := by
  obtain ⟨rfl, pop, seen, v, mid, pos, cut, slot, low, high⟩ := recorded_at placed found
  obtain ⟨inside, whole, early⟩ := found_before cut
  have acquire : acquiresTail c = true := by
    cases c with
    | push data => cases pop
    | _ => rfl
  have goes := goes_access whole
  simp only [ringTouch, acquire] at goes
  refine ⟨rfl, seen.length, pos, inside, goes, slot, low, ?_⟩
  rw [early]
  exact high

end Accesses

section Pairs
variable {w : Nat} {log : RingLog w} {i j : Nat} {t : Party} {n : Nat} {m : Mode} {l : Cell}

theorem take_early (before : i ≤ j) : log.take i <+: log.take j := by
  rw [← Nat.min_eq_left before, ← List.take_take]
  exact List.take_prefix _ _

/-- If what is collected between two places comes with stores, there is one behind the first. -/
theorem stored_between {β : Type} {f : RingEvent w → Option β}
    (quiet : ∀ t id c o r, f (.access t id c o r) = none)
    (stores : ∀ p e, log[p]? = some e → f e ≠ none →
      ∃ q v o, p = q + 1 ∧ RingGoes log q v l o ∧ o.writes = true)
    (here : RingGoes log i t (.slot n) m) (other : l ≠ .slot n) (before : i ≤ j)
    (moved : (log.take j).filterMap f ≠ (log.take i).filterMap f) :
    ∃ q, i < q ∧ q < j ∧ ∃ v o, RingGoes log q v l o ∧ o.writes = true := by
  obtain ⟨p, e, after, inside, found, contributes⟩ := moved_between before moved
  obtain ⟨q, v, o, rfl, goes, writes⟩ := stores p e found contributes
  obtain ⟨id, c, o', r, at_i, aim⟩ := goes_event here
  have notReturn : i ≠ q + 1 := by
    rintro rfl
    rw [at_i] at found
    cases found
    exact contributes (quiet _ _ _ _ _)
  have notStore : i ≠ q := by
    rintro rfl
    obtain ⟨id', c', o'', r', at_q, aim'⟩ := goes_event goes
    rw [at_i] at at_q
    cases at_q
    rw [aim] at aim'
    cases aim'
    exact other rfl
  exact ⟨q, by omega, by omega, v, o, goes, writes⟩

variable [Target] (placed : Recorded (Placed k) log)
include placed

/-- The return of a push that published stands right behind its store of the tail. -/
theorem published_stores {p : Nat} {e : RingEvent w} (found : log[p]? = some e)
    (contributes : published e ≠ none) :
    ∃ q v o, p = q + 1 ∧ RingGoes log q v .tail o ∧ o.writes = true := by
  have whole := (List.getElem?_eq_some_iff.mp found).1
  cases e with
  | finish u id c r =>
      obtain ⟨seen, v, cut⟩ := (recorded_at placed found).1 contributes
      obtain ⟨-, stored, -⟩ := found_before cut
      have size := congrArg List.length cut
      rw [List.length_take, List.length_append, List.length_singleton] at size
      have push : ∃ data, c = .push data := (recorded_at placed stored).2
      obtain ⟨data, rfl⟩ := push
      exact ⟨seen.length, u, .store true, by omega, goes_access stored, rfl⟩
  | _ => exact absurd rfl contributes

theorem delivery_stores {p : Nat} {e : RingEvent w} (found : log[p]? = some e)
    (contributes : delivery e ≠ none) :
    ∃ q v o, p = q + 1 ∧ RingGoes log q v .head o ∧ o.writes = true := by
  have whole := (List.getElem?_eq_some_iff.mp found).1
  cases e with
  | finish u id c r =>
      obtain ⟨seen, v, cut⟩ := (recorded_at placed found).2 contributes
      obtain ⟨-, stored, -⟩ := found_before cut
      have size := congrArg List.length cut
      rw [List.length_take, List.length_append, List.length_singleton] at size
      have pop : isPop c = true := (recorded_at placed stored).2
      refine ⟨seen.length, u, storesIndex c, by omega, goes_access stored, ?_⟩
      cases c with
      | pop tag => rfl
      | popMixed schema => rfl
      | _ => cases pop
  | _ => exact absurd rfl contributes

/-- A byte is written, then read: the tail was stored in between, and acquired. -/
theorem write_then_read (before : i < j) {id id' : Nat} {c c' : RingCall} {b : UInt8} {r : Unit}
    {r' : UInt8} {u : Party} (first : log[i]? = some (.access t id c (.writeByte n b) r))
    (second : log[j]? = some (.access u id' c' (.readByte n) r')) : Before ringTouch log i j := by
  obtain ⟨rfl, l, pos, sooner, -, slot, low, high⟩ := written_at placed first
  obtain ⟨rfl, l', pos', loaded, acquired, slot', low', high'⟩ := read_at placed second
  have heads : (queueOf (log.take l)).start frameLen ≤ (queueOf (log.take i)).start frameLen :=
    start_mono (take_early (by omega))
  have later : (queueOf (log.take i)).start frameLen ≤ (queueOf (log.take j)).start frameLen :=
    start_mono (take_early (by omega))
  -- a position both free and unread would be two of one slot
  have apart : ¬ pos' < pos := by
    intro below
    have room : pos < pos' + 2 ^ k := by omega
    have same := slot_injective (Nat.le_refl pos') (by omega) (Nat.le_of_lt below) room
      (slot'.symm.trans slot)
    omega
  have tails : l' ≤ i →
    (queueOf (log.take l')).stop frameLen ≤ (queueOf (log.take i)).stop frameLen :=
    fun early => stop_mono (take_early early)
  have behind : i < l' := by
    by_contra early
    have := tails (by omega)
    omega
  have here : RingGoes log i .producer (.slot n) .write := goes_access first
  apply Before.trans
    (before_owned (fun _ _ _ goes => (tail_owned placed goes).2) here acquired rfl ?_)
    (before_program loaded acquired (goes_access second))
  apply stored_between (f := published) (fun _ _ _ _ _ => rfl) (fun _ _ => published_stores placed)
    here (by simp) (Nat.le_of_lt behind)
  intro same
  have := SpscInvariant.stop_same same
  omega

variable (sized : ∀ early, early <+: log → Sized k early)
include sized

/-- A byte is read, then written: the head was stored in between, and acquired. -/
theorem read_then_write (before : i < j) {id id' : Nat} {c c' : RingCall} {b : UInt8} {r : UInt8}
    {r' : Unit} {u : Party} (first : log[i]? = some (.access t id c (.readByte n) r))
    (second : log[j]? = some (.access u id' c' (.writeByte n b) r')) :
    Before ringTouch log i j := by
  obtain ⟨rfl, l, pos, sooner, -, slot, low, high⟩ := read_at placed first
  obtain ⟨rfl, l', pos', loaded, acquired, slot', low', high'⟩ := written_at placed second
  have tails : (queueOf (log.take l)).stop frameLen ≤ (queueOf (log.take j)).stop frameLen :=
    stop_mono (take_early (by omega))
  have apart : (queueOf (log.take l')).start frameLen ≤ (queueOf (log.take i)).start frameLen →
      False := by
    intro below
    have room : pos' < pos + 2 ^ k := by omega
    have same := slot_injective (Nat.le_refl pos) (by omega) (by omega) room (slot.symm.trans slot')
    omega
  have behind : i < l' := by
    by_contra early
    exact apart (start_mono (take_early (by omega)))
  have here : RingGoes log i .consumer (.slot n) .read := goes_access first
  apply Before.trans
    (before_owned (fun _ _ _ goes => (head_owned placed goes).2) here acquired rfl ?_)
    (before_program loaded acquired (goes_access second))
  apply stored_between (f := delivery) (fun _ _ _ _ _ => rfl) (fun _ _ => delivery_stores placed)
    here (by simp) (Nat.le_of_lt behind)
  intro same
  have grown : log.take i <+: log.take l' := take_early (Nat.le_of_lt behind)
  have starts := SpscInvariant.start_same (sized _ (List.take_prefix i log)).counted
    (sized _ (List.take_prefix l' log)).counted (pushed_early grown) same
  exact apart (Nat.le_of_eq starts)

theorem placed_raceFree : RaceFree ringTouch log := by
  intro i j t u l m n before conflict
  obtain ⟨apart, first, second, written, plain⟩ := conflict
  cases l with
  | head =>
      rw [(head_owned placed first).1, (head_owned placed second).1] at plain
      simp at plain
  | tail =>
      rw [(tail_owned placed first).1, (tail_owned placed second).1] at plain
      simp at plain
  | capacity =>
      rw [capacity_kept placed first, capacity_kept placed second] at written
      simp at written
  | slot s =>
      rcases goes_slot first with ⟨rfl, id, c, r, found⟩ | ⟨rfl, id, c, b, r, found⟩
      · rcases goes_slot second with ⟨rfl, _⟩ | ⟨rfl, id', c', b', r', found'⟩
        · simp [Mode.writes] at written
        · exact read_then_write placed sized before found found'
      · rcases goes_slot second with ⟨rfl, id', c', r', found'⟩ | ⟨rfl, id', c', b', r', found'⟩
        · exact write_then_read placed before found found'
        · exact absurd ((written_at placed found).1.trans (written_at placed found').1.symm) apart

end Pairs

section Ring
variable [Target] {views : Party → SpscRingBuffer}

/-- In every run of one producer and one consumer with observers everywhere, any two accesses to
the same word or byte of the ring that conflict, one of them plain, are ordered by the
`Acquire` and `Release` of the indices. -/
theorem ring_race_free {cap : Nat} {ring : RingMem 64} (initialised : Initialised cap ring)
    {cfg : Config Party RingCall (PyResult PyValue) (RingOp 64) RingOp.Res (RingMem 64)}
    (reach : Reachable (ringSystem .release views fun t c => observing t c) ring cfg) :
    RaceFree ringTouch cfg.world.log := by
  obtain ⟨k, rfl, small, fresh⟩ := initialised.fresh
  rw [fresh] at reach
  have noAttach : ∀ t handle mapping, ¬ observing t (.spsc handle mapping) = true := by
    intro t handle mapping may
    cases t <;> cases may
  have placed : Recorded (Placed k) cfg.world.log :=
    (placed_sound (observing_used small) noAttach ring.data).inv reach
  exact placed_raceFree placed ((sound (observing_used small) ring.data).inv reach).always

omit [Target]

/-- A message is pushed, then popped. -/
def pushThenPop : List (Interleaving.Choice Party RingCall) :=
  [[.call .producer (.push (.bytes [104, 105]))], turns .producer 10,
    [.call .consumer (.pop none)], turns .consumer 10].flatten

/-- The length byte in slot 0 is written at place 4 and read at place 16. -/
theorem ring_race_free_pushThenPop :
    ∃ cfg : Config Party RingCall (PyResult PyValue) (RingOp 64) RingOp.Res (RingMem 64),
      Conflict ringTouch cfg.world.log 4 16 .producer .consumer (.slot 0) .write .read ∧
        Before ringTouch cfg.world.log 4 16 := by
  have ran : (schedule (@ringSystem 64 .release littleEndian (fun _ => ⟨40⟩) fun t c =>
      @SpscObservers.observing littleEndian t c) (fun _ _ o ring => RingMem.exec o ring) pushThenPop
      (.initial ⟨0, 0, 16, fun _ => 0⟩)).map (fun cfg =>
        (visit ringTouch cfg.world.log 4, visit ringTouch cfg.world.log 16)) =
      some (some (.producer, .slot 0, .write), some (.consumer, .slot 0, .read)) := by
    decide +kernel
  obtain ⟨cfg, reach, result⟩ := schedule_reaches (@exec_faithful _ _ littleEndian _ _) ran
  simp only [Prod.mk.injEq] at result
  have conflict : Conflict ringTouch cfg.world.log 4 16 .producer .consumer
    (.slot 0) .write .read :=
    ⟨by decide, goes_visit result.1, goes_visit result.2, .inl rfl, .inl rfl⟩
  have initialised : Initialised 16 ⟨0, 0, 16, fun _ => 0⟩ :=
    ⟨by decide, ⟨0, 0, 0, fun _ => 0⟩, new_accepts (by decide) (by decide) _⟩
  exact ⟨cfg, conflict, @ring_race_free littleEndian _ _ _ initialised _ reach _ _ _ _ _ _ _
    (by decide) conflict⟩

end Ring
end Membridge.SpscRaces
