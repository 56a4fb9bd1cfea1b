import Membridge.Linearizability
import Membridge.SpscObservers
import Membridge.WaitFree

/-!
The two ends of a ring see one bounded queue: all they were ever answered is what
that queue answers when their calls are made one after another, in an order that
respects which call had returned before which began.
-/
namespace Membridge.SpscLinearizable
open Program Interleaving Linearizability Python Spsc Queue SpscQueue CyclicBuffer ByteOrder
open SpscProtocol SpscInvariant SpscSound SpscDelivery SpscObservers BoundedCalls WaitFree
open Arithmetic

variable [Target]

section Object

/-- A queue of messages of at most `cap` bytes, their prefixes included. -/
def boundedQueue (cap : Nat) (views : Party → SpscRingBuffer) :
    Object Party RingCall (PyResult PyValue) (List Message)
  | t, .push data, q =>
      match pushPayload data with
      | .error e => (.error e, q)
      | .ok m =>
          if cap < frameLen m then
            (.error (tooLarge (frameLen m) (BitVec.ofNat 64 cap) (views t).mapSize), q)
          else if Fifo.total frameLen q + frameLen m ≤ cap then (.ok (.bool true), q ++ [m])
          else (.ok (.bool false), q)
  | _, .pop tag, q =>
      match q with
      | [] => (.ok .none, [])
      | m :: rest => (popTyped tag m, rest)
  | _, .popMixed schema, q =>
      match q with
      | [] => (.ok .none, [])
      | m :: rest => (popSchema schema m, rest)
  | _, .used, q => (.ok (.int (Fifo.total frameLen q)), q)
  | _, .free, q => (.ok (.int (cap - Fifo.total frameLen q : Nat)), q)
  | _, .isEmpty, q => (.ok (.bool q.isEmpty), q)
  | _, .isFull, q => (.ok (.bool (decide (cap ≤ Fifo.total frameLen q))), q)
  | _, .spsc _ _, q => (.ok .none, q)

variable {cap : Nat} {views : Party → SpscRingBuffer} {t : Party} {c : RingCall}

theorem boundedQueue_empty (pop : isPop c = true) : boundedQueue cap views t c [] =
    (.ok .none, []) := by
  cases c with
  | pop tag => rfl
  | popMixed schema => rfl
  | _ => cases pop

theorem boundedQueue_pop {m : Message} {rest : List Message} (pop : isPop c = true) :
    boundedQueue cap views t c (m :: rest) = (outcome c m, rest) := by
  cases c with
  | pop tag => rfl
  | popMixed schema => rfl
  | _ => cases pop

theorem boundedQueue_push {data : PyValue} {m : Message} {q : List Message}
    (packed : pushPayload data = .ok m) (fits : frameLen m ≤ cap) :
    boundedQueue cap views t (.push data) q =
      if Fifo.total frameLen q + frameLen m ≤ cap then (.ok (.bool true), q ++ [m])
      else (.ok (.bool false), q) := by
  simp only [boundedQueue, packed]
  rw [if_neg (Nat.not_lt.mpr fits)]

end Object

section Instants
variable {k : Nat} {world : RingWorld 64} {pre : RingLog 64} {t : Party} {id : Nat} {c : RingCall}
  {r : PyResult PyValue}

/-- The calls of the two ends: `push`, the pops, and the observers from either side. -/
def atEnds : Party → RingCall → Bool
  | .third _, _ => false
  | t, c => observing t c

/-- An end that computes a distance computes what was queued at one of its loads. -/
theorem distance_instant (small : k < 64) (inv : RingInv k world) (early : pre <+: world.log)
    (ends : ∀ n, t ≠ .third n) {v : BitVec 64} (distance : Distance pre t id c v) :
    ∃ seen, seen <+: pre ∧ id < seen.length ∧ v.toNat = (queueOf seen).queued frameLen := by
  have bound : 2 ^ k < 2 ^ 64 := Nat.pow_lt_pow_right (by decide) small
  obtain ⟨seen, mid, observed, rfl⟩ := distance
  obtain ⟨first, second⟩ := observed.early
  obtain ⟨headBy, tailBy, headAfter, tailAfter⟩ := observed.order
  have mids := inv.always mid (second.trans early)
  have seens := inv.always seen ((first.trans second).trans early)
  have then' := (queueOf seen).start_add_queued frameLen
  have now := (queueOf mid).start_add_queued frameLen
  have roomSeen := seens.room
  have roomMid := mids.room
  cases t with
  | producer =>
      -- nothing was published between the loads
      have stops := stop_same (observed.producer rfl)
      refine ⟨seen, first.trans second, observed.started, ?_⟩
      rw [distance_toNat (by omega) (by omega)]
      omega
  | consumer =>
      have starts := start_same seens.counted (inv.always pre early).counted
        (pushed_early (first.trans second)) (observed.consumer rfl)
      refine ⟨mid, second, Nat.lt_of_lt_of_le observed.started first.length_le, ?_⟩
      rw [distance_toNat (by omega) (by omega)]
      omega
  | third n => exact absurd rfl (ends n)

end Instants

section Effects
variable {k : Nat} {views : Party → SpscRingBuffer} {world : RingWorld 64} {pre post : RingLog 64}
  {t : Party} {id : Nat} {c : RingCall} {r : PyResult PyValue}

def waiting (log : RingLog 64) : List Message := (queueOf log).unread

theorem waiting_silent {e : RingEvent 64} (silent : Silent e) :
    waiting (pre ++ [e]) = waiting pre := by
  rw [waiting, waiting, queueOf_silent silent]

theorem queued_waiting (log : RingLog 64) : (queueOf log).queued frameLen =
    Fifo.total frameLen (waiting log) :=
  rfl

/-- A return that moves nothing answers for an instant of its call. -/
theorem takes_report {seen : RingLog 64} (silent : Silent (.finish t id c r : RingEvent 64))
    (inside : seen <+: pre) (after : id < seen.length)
    (answers : boundedQueue (2 ^ k) views t c (waiting seen) = (r, waiting seen)) :
    Takes (boundedQueue (2 ^ k) views) waiting pre (.finish t id c r) :=
  .inr ⟨waiting_silent silent, seen, inside, after, answers⟩

theorem takes_push {data : PyValue} (inv : RingInv k world)
    (cut : world.log = pre ++ .finish .producer id (.push data) r :: post)
    (begun : Recorded Begun world.log)
    (refuses : ∀ m, pushPayload data = .ok m → 2 ^ k < frameLen m →
      r = .error (tooLarge (frameLen m) (BitVec.ofNat 64 (2 ^ k)) (views .producer).mapSize)) :
    Takes (boundedQueue (2 ^ k) views) waiting pre (.finish .producer id (.push data) r) := by
  have answer : PushAnswer k pre id data r := inv.recorded pre _ post cut rfl
  have started : id < pre.length := (List.getElem?_eq_some_iff.mp (begun pre _ post cut)).1
  cases packed : pushPayload data with
  | error e =>
      cases answer.refused e packed
      refine takes_report (silent_push data _ (by simp)) List.prefix_rfl started ?_
      simp only [boundedQueue, packed]
  | ok m =>
      by_cases large : 2 ^ k < frameLen m
      · cases refuses m packed large
        refine takes_report (silent_push data _ (by simp)) List.prefix_rfl started ?_
        simp only [boundedQueue, packed]
        rw [if_pos large]
      · have fits : frameLen m ≤ 2 ^ k := Nat.not_lt.mp large
        obtain ⟨seen, v, rest, before, -, result⟩ := answer.accepted m packed fits
        have inside : seen <+: pre := ⟨_, before.symm⟩
        have after : id < seen.length := by
          have access : seen[id]? = some (.invoke .producer id (.push data)) :=
            begun seen (.access .producer id (.push data) .loadHead v)
              (rest ++ .finish .producer id (.push data) r :: post) (by rw [cut, before]; simp)
          exact (List.getElem?_eq_some_iff.mp access).1
        rw [queued_waiting] at result
        by_cases room : Fifo.total frameLen (waiting seen) + frameLen m ≤ 2 ^ k
        · -- the return publishes the message, and there still is room for it
          rw [decide_eq_true room] at result
          subst result
          have early :
              pre ++ [.finish .producer id (.push data) (.ok (.bool true))] <+: world.log :=
            ⟨post, by simp [cut]⟩
          have counted := (inv.always pre ((List.prefix_append _ _).trans early)).counted
          have found : published
              (.finish .producer id (.push data) (.ok (.bool true)) : RingEvent 64) =
              some m := by simp [published, packed, Except.toOption]
          have queue := queueOf_publish counted found rfl
          have still := (inv.always _ early).room
          rw [queue, Fifo.publish_queued, queued_waiting] at still
          left
          rw [boundedQueue_push packed fits, if_pos still, waiting,
            waiting, queue, Fifo.publish_unread]
        · rw [decide_eq_false room] at result
          subst result
          refine takes_report (silent_push data _ (by simp)) inside after ?_
          rw [boundedQueue_push packed fits, if_neg room]

theorem popAnswer (pop : isPop c = true) (answered : Answered k pre (.finish .consumer id c r)) :
    PopAnswer pre id c r := by
  cases c with
  | pop tag => exact answered rfl
  | popMixed schema => exact answered rfl
  | _ => cases pop

theorem takes_pop (inv : RingInv k world)
    (cut : world.log = pre ++ .finish .consumer id c r :: post)
    (begun : Recorded Begun world.log) (pop : isPop c = true) :
    Takes (boundedQueue (2 ^ k) views) waiting pre (.finish .consumer id c r) := by
  have noPush : ∀ data, c ≠ .push data := by
    rintro data rfl
    cases pop
  have early : pre ++ [.finish .consumer id c r] <+: world.log := ⟨post, by simp [cut]⟩
  cases nothing : isNone r with
  | true =>
      obtain ⟨seen, v, rfl, empty⟩ := (popAnswer pop (inv.recorded pre _ post cut)).empty nothing
      have access : seen[id]? = some (.invoke .consumer id c) :=
        begun seen (.access .consumer id c .loadTail v) (.finish .consumer id c r :: post)
          (by rw [cut]; simp)
      refine takes_report (silent_none noPush nothing) (List.prefix_append _ _)
        (List.getElem?_eq_some_iff.mp access).1 ?_
      have result : r = .ok .none := by
        unfold isNone at nothing
        split at nothing
        · rfl
        · cases nothing
      rw [waiting, empty, boundedQueue_empty pop, result]
  | false =>
      have counted := (inv.always pre ((List.prefix_append _ _).trans early)).counted
      have after := (inv.always _ early).counted
      have found : delivery (.finish .consumer id c r : RingEvent 64) = some (c, r) := by
        simp [delivery, pop, nothing]
      have only : published (.finish .consumer id c r : RingEvent 64) = none := by
        unfold published
        split
        · next same => cases same
        · rfl
      have taken := taken_eq counted
      cases front : (queueOf pre).unread with
      | nil =>
          have all := (queueOf pre).unread_empty_iff.mp front
          rw [Counted, pops_snoc, pushed_snoc, found, only, List.length_append] at after
          change (queueOf pre).taken = (pushed pre).length at all
          simp at after
          omega
      | cons m rest =>
          obtain ⟨more, -, unread, delivered⟩ := Fifo.unread_cons front
          have queue := queueOf_advance only found more
          -- the answer is that of the message the return took
          have outcomes := inv.earlier early
          rw [queue, delivered, pops_snoc, found, Option.toList_some] at outcomes
          obtain ⟨x, at_end, result⟩ := forall₂_at outcomes
          have place : (queueOf pre).delivered.length = (pops pre).length := by
            rw [Fifo.delivered, List.length_take, Nat.min_eq_left (queueOf pre).taken_le, taken]
          rw [← place, List.getElem?_concat_length] at at_end
          cases at_end
          left
          rw [waiting, front, boundedQueue_pop pop, waiting, queue, unread]
          exact congrArg (·, rest) result.symm

theorem takes_observer (small : k < 64) (inv : RingInv k world)
    (cut : world.log = pre ++ .finish t id c r :: post) (ends : ∀ n, t ≠ .third n)
    (observes : observing t c = true) (noPush : ∀ data, c ≠ .push data) (noPop : isPop c = false) :
    Takes (boundedQueue (2 ^ k) views) waiting pre (.finish t id c r) := by
  have bound : 2 ^ k < 2 ^ 64 := Nat.pow_lt_pow_right (by decide) small
  have early : pre <+: world.log := ⟨_, cut.symm⟩
  have answered := inv.recorded pre _ post cut
  have silent : Silent (.finish t id c r : RingEvent 64) := silent_observer noPush noPop
  cases c with
  | push data => exact absurd rfl (noPush data)
  | pop tag => cases noPop
  | popMixed schema => cases noPop
  | spsc handle mapping => cases t <;> cases observes
  | used =>
      obtain ⟨v, distance, rfl⟩ := answered
      obtain ⟨seen, inside, after, same⟩ := distance_instant small inv early ends distance
      refine takes_report silent inside after ?_
      rw [boundedQueue, word, same]
      rfl
  | free =>
      obtain ⟨v, distance, rfl⟩ := answered
      obtain ⟨seen, inside, after, same⟩ := distance_instant small inv early ends distance
      have room := (inv.always seen (inside.trans early)).room
      have less : v ≤ BitVec.ofNat 64 (2 ^ k) := by
        rw [BitVec.le_def, capacity_toNat small, same]
        exact room
      refine takes_report silent inside after ?_
      rw [if_neg (BitVec.not_lt.mpr less), boundedQueue, word, BitVec.toNat_sub_of_le less,
        capacity_toNat small, same]
      rfl
  | isEmpty =>
      obtain ⟨v, distance, rfl⟩ := answered
      obtain ⟨seen, inside, after, same⟩ := distance_instant small inv early ends distance
      have zero : decide (v = 0) = (waiting seen).isEmpty := by
        rw [Bool.eq_iff_iff, decide_eq_true_iff, List.isEmpty_iff,
          waiting, (queueOf seen).unread_empty_iff,
          ← (queueOf seen).queued_eq_zero_iff frameLen frameLen_pos, ← same, ← BitVec.toNat_inj]
        exact Iff.rfl
      refine takes_report silent inside after ?_
      rw [boundedQueue, zero]
  | isFull =>
      obtain ⟨v, distance, rfl⟩ := answered
      obtain ⟨seen, inside, after, same⟩ := distance_instant small inv early ends distance
      have full : v ≥ BitVec.ofNat 64 (2 ^ k) ↔ 2 ^ k ≤ Fifo.total frameLen (waiting seen) := by
        rw [ge_iff_le, BitVec.le_def, capacity_toNat small, same, queued_waiting]
      refine takes_report silent inside after ?_
      rw [boundedQueue, decide_eq_decide.mpr full]

end Effects

section Runs
variable {k : Nat} {views : Party → SpscRingBuffer}

theorem atEnds_used (small : k < 64) :
    WellUsed k views (ringSystem (w := 64) .release views fun t c => atEnds t c) where
  small := small
  code := rfl
  sem _ _ _ _ _ _ := Iff.rfl
  role t c may := by
    have used : WellUsed k views (ringSystem (w := 64) .release views fun t c => observing t c) :=
      observing_used small
    cases t with
    | third n => cases may
    | _ => exact used.role _ c may
  attach _ t _ _ _ may := by cases t <;> cases may

/-- A load of the capacity word tells the capacity. -/
def Tells (cap : BitVec 64) : (o : RingOp 64) → o.Res → Prop
  | .loadCapacity, r => r = cap
  | _, _ => True

/-- Linearizability. In every run of one producer and one consumer with payloads below 2^32 bytes,
the calls that returned, all pushes and pops with their values and errors and all answers of the
observers among them, are those of one bounded queue, in an order that keeps to real time. -/
theorem ends_linearizable {cap : Nat} {ring : RingMem 64} (initialised : Initialised cap ring)
    {cfg : Config Party RingCall (PyResult PyValue) (RingOp 64) RingOp.Res (RingMem 64)}
    (reach : Reachable (ringSystem .release views fun t c => atEnds t c) ring cfg) :
    Linearizable (boundedQueue cap views) [] cfg.world.log := by
  obtain ⟨k, rfl, small, fresh⟩ := initialised.fresh
  rw [fresh] at reach
  have used : WellUsed k views (ringSystem .release views fun t c => atEnds t c) :=
    atEnds_used small
  have inv : RingInv k cfg.world := (sound used ring.data).inv reach
  have begun := reach.begun.1
  have may := reach.permitted.1
  have told : Bounded (Tells (BitVec.ofNat 64 (2 ^ k)))
    (Told (Tells (BitVec.ofNat 64 (2 ^ k))) views)
      (fun _ => accesses) cfg := by
    refine BoundedCalls.Reachable.bounded ?_ (fun t c _ => ringCode_within .release views t c) reach
    intro now there t c o r after does
    cases o with
    | loadCapacity =>
        have same : now.world.mem.capacity = r := (Prod.mk.inj does).1
        exact same.symm.trans ((sound used ring.data).inv there).represents.capacity
    | _ => trivial
  change Linearizable _ (waiting []) _
  apply linearizable begun
  intro pre e post cut
  cases e with
  | invoke t id c => exact waiting_silent silent_invoke
  | access t id c o r => exact waiting_silent (silent_access o r)
  | finish t id c r =>
      have member : .finish t id c r ∈ cfg.world.log := by
        rw [cut]
        exact List.mem_append_right _ List.mem_cons_self
      have allowed : atEnds t c = true := may _ member
      have ends : ∀ n, t ≠ .third n := by
        rintro n rfl
        cases allowed
      have observes : observing t c = true := by
        cases t with
        | third n => cases allowed
        | _ => exact allowed
      by_cases pop : isPop c = true
      · have consumer : t = .consumer := by
          cases t with
          | consumer => rfl
          | third n => cases allowed
          | producer =>
              cases c with
              | pop tag => cases observes
              | popMixed schema => cases observes
              | _ => cases pop
        subst consumer
        exact takes_pop inv cut begun pop
      · by_cases push : ∃ data, c = .push data
        · obtain ⟨data, rfl⟩ := push
          cases t with
          | producer =>
              refine takes_push inv cut begun ?_
              intro m packed large
              obtain ⟨_, rfl, refuses⟩ := told.answers _ _ _ _ member m packed
              rw [frameLen] at large ⊢
              exact refuses (by rw [capacity_toNat small]; exact large)
          | consumer => cases observes
          | third n => cases allowed
        · exact takes_observer small inv cut ends observes (fun data same => push ⟨data, same⟩)
            (Bool.eq_false_iff.mpr pop)

omit [Target]

/-- The producer asks for the room while a pop is under way. -/
def askInside : List (Interleaving.Choice Party RingCall) :=
  [[.call .producer (.push (.bytes [104, 105]))], turns .producer 10,
    [.call .consumer (.pop none)], turns .consumer 9, [.call .producer .free], turns .producer 3,
    turns .consumer 1].flatten

theorem ends_linearizable_askInside :
    ∃ cfg : Config Party RingCall (PyResult PyValue) (RingOp 64) RingOp.Res (RingMem 64),
      (returns cfg.world.log).map (fun d => (d.start, d.stop)) = [(0, 11), (22, 26), (12, 28)] ∧
      Linearizable (@boundedQueue littleEndian 16 fun _ => ⟨40⟩) [] cfg.world.log := by
  have ran : (schedule (@ringSystem 64 .release littleEndian (fun _ => ⟨40⟩) fun t c =>
      @atEnds littleEndian t c) (fun _ _ o ring => RingMem.exec o ring) askInside
      (.initial ⟨0, 0, 16, fun _ => 0⟩)).map (fun cfg => (returns cfg.world.log).map fun d =>
        (d.start, d.stop)) = some [(0, 11), (22, 26), (12, 28)] := by
    decide +kernel
  obtain ⟨cfg, reach, result⟩ := schedule_reaches (@exec_faithful _ _ littleEndian _ _) ran
  have initialised : Initialised 16 ⟨0, 0, 16, fun _ => 0⟩ :=
    ⟨by decide, ⟨0, 0, 0, fun _ => 0⟩, new_accepts (by decide) (by decide) _⟩
  exact ⟨cfg, result, @ends_linearizable littleEndian _ _ _ initialised _ reach⟩

end Runs
end Membridge.SpscLinearizable
