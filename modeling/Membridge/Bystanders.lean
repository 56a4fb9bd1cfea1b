import Membridge.SpscObservers

/-!
What a process that is neither end sees of the ring. It loads head, then tail;
between the two loads the consumer may free space that the producer fills again,
so the two words it subtracts need never have been in the ring together.
-/
namespace Membridge.Bystanders
open Program Interleaving RelyGuarantee Python Spsc Queue SpscQueue CyclicBuffer ByteOrder
open SpscProtocol SpscInvariant SpscCalls SpscSound SpscDelivery SpscObservers Arithmetic

variable {w k : Nat}

section Answers
variable [Target]

/-- Head and tail are the capacity apart. -/
def Full (ring : RingMem w) : Prop := ring.tail - ring.head = ring.capacity

instance (ring : RingMem w) : Decidable (Full ring) := inferInstanceAs (Decidable (_ = _))

/-- The ring that started as `ring` was full at an instant after call `id` began. -/
def WasFull (ring : RingMem w) (id : Nat) (before : RingLog w) : Prop :=
  ∃ instant, instant <+: before ∧ id < instant.length ∧ Full (replay RingMem.exec ring instant)

/-- What the answer of `used` or `is_full` may be, `before` being the log up to it. -/
def Possible (ring : RingMem w) (id : Nat) (before : RingLog w) (c : RingCall)
    (r : PyResult PyValue) : Prop :=
  match c with
  | .used => ∃ n : Nat, r = .ok (.int n) ∧ n ≤ ring.capacity.toNat
  | .isFull => r = .ok (.bool true) → WasFull ring id before
  | _ => True

/-- The bytes consumed from `seen` to `mid`. -/
def freed (seen mid : RingLog w) : Nat :=
  (queueOf mid).start frameLen - (queueOf seen).start frameLen

/-- What a caller that loaded head after `seen` and tail after `mid` counts: the bytes queued
at its second load and those consumed since its first. -/
def counted (seen mid : RingLog w) : Nat :=
  ((queueOf mid).queued frameLen + freed seen mid) % 2 ^ w

end Answers

section Loads
variable [Target] {pre seen mid before : RingLog w} {world : RingWorld w} {t : Party} {id : Nat}
  {c : RingCall}

theorem distance_counted (observed : Observed pre t id c seen mid) :
    (BitVec.ofNat w ((queueOf mid).stop frameLen) -
      BitVec.ofNat w ((queueOf seen).start frameLen)).toNat = counted seen mid := by
  obtain ⟨starts, stops, -, -⟩ := observed.order
  have later := (queueOf mid).start_add_queued frameLen
  rw [distance_mod (by omega), counted, freed]
  congr 1
  omega

theorem freed_none (inv : RingInv k world) (early : mid <+: world.log) (sooner : seen <+: mid)
    (same : pops mid = pops seen) : freed seen mid = 0 := by
  have starts := start_same (inv.always seen (sooner.trans early)).counted
    (inv.always mid early).counted (pushed_early sooner) same
  rw [freed, starts, Nat.sub_self]

/-- With no pop between the loads the count is what is queued, at most the capacity. -/
theorem counted_quiet (small : k < w) (inv : RingInv k world) (early : mid <+: world.log)
    (sooner : seen <+: mid) (same : pops mid = pops seen) :
    counted seen mid = (queueOf mid).queued frameLen ∧ counted seen mid ≤ 2 ^ k := by
  have bound : 2 ^ k < 2 ^ w := Nat.pow_lt_pow_right (by decide) small
  have room := (inv.always mid early).room
  have count : counted seen mid = (queueOf mid).queued frameLen := by
    rw [counted, freed_none inv early sooner same]
    exact Nat.mod_eq_of_lt (by omega)
  exact ⟨count, by omega⟩

/-- At the instant of an access the ring holds the queue of the log so far. -/
theorem represents_at {views : Party → SpscRingBuffer} {sys : RingSystem w}
    (used : WellUsed k views sys) {data : Nat → UInt8}
    {cfg : Config Party RingCall (PyResult PyValue)
      (RingOp w) RingOp.Res (RingMem w)}
    (reach : Reachable sys ⟨0, 0, BitVec.ofNat w (2 ^ k), data⟩ cfg) {e : RingEvent w}
    (access : e.isAccess = true) (inside : mid ++ [e] <+: cfg.world.log) :
    Represents k (queueOf mid) (replay RingMem.exec ⟨0, 0, BitVec.ofNat w (2 ^ k), data⟩ mid) := by
  obtain ⟨rest, cut⟩ := inside
  obtain ⟨now, reached, rfl⟩ := reach.at_access access (by rw [← cut, List.append_assoc]; rfl)
  have replayed : now.world.mem = replay RingMem.exec _ now.world.log :=
    reached.replayed fun t c ring o r after does => by rw [(used.sem t c ring o r after).mp does]
  rw [← replayed]
  exact ((sound used data).inv reached).represents

end Loads

section Runs
variable [Target] {views : Party → SpscRingBuffer}

/-- While no pop ends between its two loads, an observer finds the ring as it is at the second. -/
theorem possible_quiet {data : Nat → UInt8} (small : k < 64)
    {cfg : Config Party RingCall (PyResult PyValue) (RingOp 64) RingOp.Res (RingMem 64)}
    (reach : Reachable (ringSystem .release views fun t c => observing t c)
      ⟨0, 0, BitVec.ofNat 64 (2 ^ k), data⟩ cfg) {before seen mid : RingLog 64}
        {t : Party} {id : Nat}
    {c : RingCall} (early : before <+: cfg.world.log) (observed : Observed before t id c seen mid)
    (same : pops mid = pops seen) {v : BitVec 64} (value : v.toNat = counted seen mid) :
    Possible ⟨0, 0, BitVec.ofNat 64 (2 ^ k), data⟩ id before .used (.ok (word v)) ∧
      Possible ⟨0, 0, BitVec.ofNat 64 (2 ^ k), data⟩ id before .isFull
        (.ok (.bool (v ≥ BitVec.ofNat 64 (2 ^ k)))) := by
  have inv : RingInv k cfg.world := (sound (observing_used small) data).inv reach
  obtain ⟨sooner, later⟩ := observed.early
  obtain ⟨count, low⟩ := counted_quiet small inv (later.trans early) sooner same
  have cap := capacity_toNat small
  constructor
  · exact ⟨v.toNat, rfl, value.trans_le (low.trans_eq cap.symm)⟩
  · intro said
    have more : v ≥ BitVec.ofNat 64 (2 ^ k) := by simpa using said
    have all : 2 ^ k ≤ v.toNat := cap.symm.trans_le (BitVec.le_def.mp more)
    -- what is queued at the load of tail then fills the ring
    obtain ⟨u, loaded⟩ := observed.tail
    have represents := represents_at (observing_used small) reach rfl (loaded.trans early)
    refine ⟨mid, later, ?_, ?_⟩
    · have longer := sooner.length_le
      have started := observed.started
      omega
    · apply BitVec.eq_of_toNat_eq
      rw [represents.used_toNat small, represents.capacity, cap]
      omega

/-- An answer of `used` or `is_full` is one the ring could give whenever no pop ended between
the two loads of the call. -/
theorem bystanders_told {cap : Nat} {ring : RingMem 64} (initialised : Initialised cap ring)
    {cfg : Config Party RingCall (PyResult PyValue) (RingOp 64) RingOp.Res (RingMem 64)}
    (reach : Reachable (ringSystem .release views fun t c => observing t c) ring cfg) :
    ∀ before p id c r after, cfg.world.log = before ++ .finish (.third p) id c r :: after →
      c = .used ∨ c = .isFull →
      ∃ seen mid, Observed before (.third p) id c seen mid ∧
        (pops mid = pops seen → Possible ring id before c r) := by
  obtain ⟨k, rfl, small, fresh⟩ := initialised.fresh
  rw [fresh] at reach ⊢
  have inv : RingInv k cfg.world := (sound (observing_used small) ring.data).inv reach
  intro before p id c r after cut which
  have early : before <+: cfg.world.log := ⟨_, cut.symm⟩
  -- the two loads are the ones the invariant recorded for this answer
  have answered := inv.recorded before _ after cut
  rcases which with rfl | rfl
  · obtain ⟨v, ⟨seen, mid, observed, rfl⟩, rfl⟩ := answered
    exact ⟨seen, mid, observed, fun same =>
      (possible_quiet small reach early observed same (distance_counted observed)).1⟩
  · obtain ⟨v, ⟨seen, mid, observed, rfl⟩, rfl⟩ := answered
    exact ⟨seen, mid, observed, fun same =>
      (possible_quiet small reach early observed same (distance_counted observed)).2⟩

end Runs

section Examples

/-- What a bystander's `used` answered. -/
def usedAnswer : RingEvent w → Option Nat
  | .finish (.third _) _ .used (.ok (.int n)) => some n.toNat
  | _ => none

/-- A bystander's `is_full` answered `True`. -/
def saidFull : RingEvent w → Bool
  | .finish (.third _) _ .isFull (.ok (.bool true)) => true
  | _ => false

theorem usedAnswer_split {log : RingLog w} {n : Nat} (answers : log.filterMap usedAnswer = [n]) :
    ∃ before p id m after, log = before ++ .finish (.third p) id .used (.ok (.int m)) :: after ∧
      m.toNat = n := by
  have member : n ∈ log.filterMap usedAnswer := by rw [answers]; exact List.mem_singleton_self n
  obtain ⟨e, inLog, found⟩ := List.mem_filterMap.mp member
  obtain ⟨before, after, cut⟩ := List.append_of_mem inLog
  unfold usedAnswer at found
  split at found
  · next p id m =>
      cases found
      exact ⟨before, p, id, m, after, cut, rfl⟩
  · cases found

theorem saidFull_split {log : RingLog w} (said : log.any saidFull = true) :
    ∃ before p id after,
      log = before ++ .finish (.third p) id .isFull (.ok (.bool true)) :: after := by
  obtain ⟨e, inLog, found⟩ := List.any_eq_true.mp said
  obtain ⟨before, after, cut⟩ := List.append_of_mem inLog
  unfold saidFull at found
  split at found
  · next p id => exact ⟨before, p, id, after, cut⟩
  · cases found

/-- Four bytes of payload: a frame of eight. -/
def half : RingCall := .push (.bytes [1, 2, 3, 4])

/-- A bystander looks at a ring that is half full. -/
def lookOn : List (Interleaving.Choice Party RingCall) :=
  [[.call .producer half], turns .producer 12, [.call (.third 0) .used], turns (.third 0) 2].flatten

theorem bystanders_told_lookOn :
    ∃ cfg : Config Party RingCall (PyResult PyValue) (RingOp 64) RingOp.Res (RingMem 64),
      cfg.world.log.filterMap usedAnswer = [8] ∧
      ∀ before p id r after, cfg.world.log = before ++ .finish (.third p) id .used r :: after →
        ∃ seen mid, @Observed 64 littleEndian before (.third p) id .used seen mid ∧
          (pops mid = pops seen → Possible ⟨0, 0, 16, fun _ => 0⟩ id before .used r) := by
  have ran : (schedule (@ringSystem 64 .release littleEndian (fun _ => ⟨40⟩) fun t c =>
      @observing littleEndian t c) (fun _ _ o ring => RingMem.exec o ring) lookOn
      (.initial ⟨0, 0, 16, fun _ => 0⟩)).map (fun cfg => cfg.world.log.filterMap usedAnswer) =
        some [8] := by
    decide +kernel
  obtain ⟨cfg, reach, answers⟩ := schedule_reaches (@exec_faithful _ _ littleEndian _ _) ran
  have initialised : Initialised 16 ⟨0, 0, 16, fun _ => 0⟩ :=
    ⟨by decide, ⟨0, 0, 0, fun _ => 0⟩, new_accepts (by decide) (by decide) _⟩
  refine ⟨cfg, answers, ?_⟩
  intro before p id r after cut
  obtain ⟨seen, mid, observed, quiet⟩ := @bystanders_told littleEndian _ _ _ initialised _ reach
    before p id .used r after cut (.inl rfl)
  exact ⟨seen, mid, observed, quiet⟩

/-- Between the two loads of `used` one message is taken and the next one published. -/
def turnedOver : List (Interleaving.Choice Party RingCall) :=
  [[.call .producer half], turns .producer 12, [.call .producer half], turns .producer 12,
    [.call (.third 0) .used], turns (.third 0) 1, [.call .consumer (.pop none)], turns .consumer 12,
    [.call .producer half], turns .producer 12, turns (.third 0) 1].flatten

/-- The same between the loads of `is_full`, on a ring that is never more than half full. -/
def halfTurnedOver : List (Interleaving.Choice Party RingCall) :=
  [[.call .producer half], turns .producer 12, [.call (.third 0) .isFull], turns (.third 0) 1,
    [.call .consumer (.pop none)], turns .consumer 12, [.call .producer half], turns .producer 12,
    turns (.third 0) 2].flatten

/-- `used` answers 24 on a ring of 16 bytes, and `is_full` answers `True` on one that was
not full at any instant. -/
theorem bystander_miscounts :
    (∃ cfg, Reachable (@ringSystem 64 .release littleEndian (fun _ => ⟨40⟩) fun t c =>
        @observing littleEndian t c) ⟨0, 0, 16, fun _ => 0⟩ cfg ∧
      ∃ before p id r after, cfg.world.log = before ++ .finish (.third p) id .used r :: after ∧
        ¬ Possible ⟨0, 0, 16, fun _ => 0⟩ id before .used r) ∧
    ∃ cfg, Reachable (@ringSystem 64 .release littleEndian (fun _ => ⟨40⟩) fun t c =>
        @observing littleEndian t c) ⟨0, 0, 16, fun _ => 0⟩ cfg ∧
      ∃ before p id r after, cfg.world.log = before ++ .finish (.third p) id .isFull r :: after ∧
        ¬ Possible ⟨0, 0, 16, fun _ => 0⟩ id before .isFull r := by
  constructor
  · have ran : (schedule (@ringSystem 64 .release littleEndian (fun _ => ⟨40⟩) fun t c =>
        @observing littleEndian t c) (fun _ _ o ring => RingMem.exec o ring) turnedOver
        (.initial ⟨0, 0, 16, fun _ => 0⟩)).map (fun cfg => cfg.world.log.filterMap usedAnswer) =
          some [24] := by
      decide +kernel
    obtain ⟨cfg, reach, answers⟩ := schedule_reaches (@exec_faithful _ _ littleEndian _ _) ran
    obtain ⟨before, p, id, m, after, cut, value⟩ := usedAnswer_split answers
    refine ⟨cfg, reach, before, p, id, _, after, cut, ?_⟩
    rintro ⟨n, same, low⟩
    cases same
    rw [Int.toNat_natCast] at value
    subst value
    exact absurd low (by decide)
  · have ran : (schedule (@ringSystem 64 .release littleEndian (fun _ => ⟨40⟩) fun t c =>
        @observing littleEndian t c) (fun _ _ o ring => RingMem.exec o ring) halfTurnedOver
        (.initial ⟨0, 0, 16, fun _ => 0⟩)).map (fun cfg => (cfg.world.log.any saidFull,
          cfg.world.log.inits.all fun instant =>
            !decide (Full (replay RingMem.exec ⟨0, 0, 16, fun _ => 0⟩ instant)))) =
          some (true, true) := by
      decide +kernel
    obtain ⟨cfg, reach, result⟩ := schedule_reaches (@exec_faithful _ _ littleEndian _ _) ran
    simp only [Prod.mk.injEq, List.all_eq_true] at result
    obtain ⟨said, never⟩ := result
    obtain ⟨before, p, id, after, cut⟩ := saidFull_split said
    refine ⟨cfg, reach, before, p, id, _, after, cut, ?_⟩
    intro told
    obtain ⟨instant, early, -, full⟩ := told rfl
    have inside : instant <+: cfg.world.log := early.trans ⟨_, cut.symm⟩
    have not := never instant ((List.mem_inits instant _).mpr inside)
    rw [decide_eq_true full] at not
    cases not

end Examples
end Membridge.Bystanders
