import Membridge.SpscDelivery

/-!
What `used`, `free`, `is_empty` and `is_full` tell their caller while the other
side goes on: how long each answer stays true, and at which instant it was.
-/
namespace Membridge.SpscObservers
open Program Interleaving RelyGuarantee Python Spsc Queue SpscQueue CyclicBuffer ByteOrder
open SpscProtocol SpscInvariant SpscCalls SpscSound SpscDelivery Arithmetic

variable {w k : Nat} {log : RingLog w}

theorem forall₂_at {α β : Type} {R : α → β → Prop} {left right : List α} {x : α} {ys : List β}
    (all : List.Forall₂ R (left ++ x :: right) ys) : ∃ y, ys[left.length]? = some y ∧ R x y := by
  induction left generalizing ys with
  | nil =>
      cases all with
      | cons first _ => exact ⟨_, rfl, first⟩
  | cons head rest ih =>
      cases all with
      | cons _ later => exact ih later

section Memory

/-- The return of a push. -/
def pushReturns : RingEvent w → Bool
  | .finish .producer _ (.push _) _ => true
  | _ => false

/-- The return of a pop. -/
def popReturns : RingEvent w → Bool
  | .finish .consumer _ c _ => isPop c
  | _ => false

theorem credits_kept {n : Nat} {f : Int} {before later : RingLog w}
    (noPush : ∀ e ∈ later, pushReturns e = false) :
    f.toNat ∈ credits (before ++ .finish .producer n .free (.ok (.int f)) :: later) := by
  rw [credits, List.foldl_append, List.foldl_cons]
  -- every later event keeps what `free()` told, but for the return of a push
  have kept : ∀ told, f.toNat ∈ told → f.toNat ∈ later.foldl creditStep told := by
    induction later with
    | nil => exact fun told member => member
    | cons e rest ih =>
        intro told member
        apply ih fun x inside => noPush x (List.mem_cons_of_mem e inside)
        have quiet := noPush e List.mem_cons_self
        unfold creditStep
        split
        · cases quiet
        · exact List.mem_cons_of_mem _ member
        · exact member
  exact kept _ List.mem_cons_self

theorem sawMessage_kept {n : Nat} {before later : RingLog w}
    (noPop : ∀ e ∈ later, popReturns e = false) :
    sawMessage (before ++ .finish .consumer n .isEmpty (.ok (.bool false)) :: later) = true := by
  rw [sawMessage, List.foldl_append, List.foldl_cons]
  change later.foldl sawStep true = true
  induction later with
  | nil => rfl
  | cons e rest ih =>
      have quiet := noPop e List.mem_cons_self
      have kept : sawStep true e = true := by
        unfold sawStep
        split
        · cases quiet
        · cases quiet
        · rfl
        · rfl
      rw [List.foldl_cons, kept]
      exact ih fun x inside => noPop x (List.mem_cons_of_mem e inside)

end Memory

variable [Target] {views : Party → SpscRingBuffer}

/-- One producer, one consumer, and observers everywhere. -/
def observing : Party → RingCall → Bool
  | .producer, .push data => shortPayload data
  | .consumer, .pop _ => true
  | .consumer, .popMixed _ => true
  | _, .used => true
  | _, .free => true
  | _, .isEmpty => true
  | _, .isFull => true
  | _, _ => false

theorem observing_used (small : k < 64) :
    WellUsed k views (ringSystem (w := 64) .release views fun t c => observing t c) where
  small := small
  code := rfl
  sem _ _ _ _ _ _ := Iff.rfl
  role t c may := by
    cases c with
    | push data =>
        cases t with
        | producer => exact shortPayload_fits small may
        | _ => cases may
    | pop tag =>
        cases t with
        | consumer => trivial
        | _ => cases may
    | popMixed schema =>
        cases t with
        | consumer => trivial
        | _ => cases may
    | spsc handle mapping => cases t <;> cases may
    | _ => cases t <;> trivial
  attach _ t _ _ _ may := by cases t <;> cases may

section Answers
variable {world : RingWorld 64} {before between after pre : RingLog 64} {id id' : Nat} {t : Party}
  {c : RingCall} {r : PyResult PyValue} {seen mid : RingLog 64}

/-- Nothing was published between the answer of `free` and the push, so the room is still there. -/
theorem credited_push {f : Int} {data : PyValue} {payload : List UInt8} (small : k < 64)
    (inv : RingInv k world)
    (split : pre = before ++ .finish .producer id .free (.ok (.int f)) :: between)
    (cut : world.log = pre ++ .finish .producer id' (.push data) r :: after)
    (noPush : ∀ e ∈ between, pushReturns e = false) (packed : pushPayload data = .ok payload)
    (enough : (4 + payload.length : Int) ≤ f) : r = .ok (.bool true) := by
  subst split
  have bound : 2 ^ k < 2 ^ 64 := Nat.pow_lt_pow_right (by decide) small
  obtain ⟨v, -, value⟩ := inv.recorded before _ _ (by rw [cut, List.append_assoc, List.cons_append])
  -- what was told is at most the capacity, so the frame is a legal one
  have most : f.toNat ≤ 2 ^ k := by
    simp only [word, Except.ok.injEq, PyValue.int.injEq] at value
    rw [value, Int.toNat_natCast]
    split
    · exact Nat.zero_le _
    · next less =>
        rw [BitVec.toNat_sub_of_le (BitVec.not_lt.mp less), capacity_toNat small]
        exact Nat.sub_le _ _
  have fits : frameLen payload ≤ f.toNat := by
    rw [frameLen]
    omega
  exact (inv.recorded _ _ after cut rfl).credited payload packed (by omega) f.toNat
    (credits_kept noPush) fits

/-- Nothing was taken between the answer of `is_empty` and the pop, so the message is still
there. -/
theorem promised_pop (inv : RingInv k world)
    (split : pre = before ++ .finish .consumer id .isEmpty (.ok (.bool false)) :: between)
    (cut : world.log = pre ++ .finish .consumer id' c r :: after)
    (noPop : ∀ e ∈ between, popReturns e = false) (pop : isPop c = true) :
    isNone r = false ∧ ∃ m, (pushed world.log)[(pops pre).length]? = some m ∧ r = outcome c m := by
  have answered := inv.recorded _ _ after cut
  have notNone : isNone r = false := by
    subst split
    cases c with
    | pop tag => exact (answered rfl).promised (sawMessage_kept noPop)
    | popMixed schema => exact (answered rfl).promised (sawMessage_kept noPop)
    | _ => cases pop
  have taken : pops world.log = pops pre ++ (c, r) :: pops after := by
    rw [cut, pops, List.filterMap_append]
    simp [delivery, pop, notNone, pops]
  have outcomes := inv.outcomes
  rw [taken] at outcomes
  obtain ⟨m, found, result⟩ := forall₂_at outcomes
  refine ⟨notNone, m, ?_, result⟩
  rw [Fifo.delivered, List.getElem?_take] at found
  split at found
  · exact found
  · cases found

/-- The counts are in order at each instant of an observation. -/
theorem observed_sized (inv : RingInv k world) (early : before <+: world.log)
    (observed : Observed before t id c seen mid) : Sized k seen ∧ Sized k before :=
  ⟨inv.always seen (observed.early.1.trans (observed.early.2.trans early)), inv.always before early⟩

/-- The consumer may have freed space since: `used` is at least what is queued. -/
theorem producer_used (small : k < 64) (inv : RingInv k world) (early : before <+: world.log)
    (observed : Observed before .producer id c seen mid) {v : BitVec 64}
    (distance : v = BitVec.ofNat 64 ((queueOf mid).stop frameLen) -
      BitVec.ofNat 64 ((queueOf seen).start frameLen)) :
    (queueOf before).queued frameLen ≤ v.toNat ∧ v.toNat ≤ 2 ^ k := by
  have bound : 2 ^ k < 2 ^ 64 := Nat.pow_lt_pow_right (by decide) small
  have room := (observed_sized inv early observed).1.room
  obtain ⟨headBy, tailBy, headAfter, tailAfter⟩ := observed.order
  have stops := stop_same (observed.producer rfl)
  have then' := (queueOf seen).start_add_queued frameLen
  have now := (queueOf before).start_add_queued frameLen
  have gap : v.toNat = (queueOf seen).queued frameLen := by
    rw [distance, distance_toNat (by omega) (by omega)]
    omega
  omega

/-- The producer may have published since: `used` is at most what is queued. -/
theorem consumer_used (small : k < 64) (inv : RingInv k world) (early : before <+: world.log)
    (observed : Observed before .consumer id c seen mid) {v : BitVec 64}
    (distance : v = BitVec.ofNat 64 ((queueOf mid).stop frameLen) -
      BitVec.ofNat 64 ((queueOf seen).start frameLen)) :
    v.toNat ≤ (queueOf before).queued frameLen ∧ v.toNat ≤ 2 ^ k := by
  have bound : 2 ^ k < 2 ^ 64 := Nat.pow_lt_pow_right (by decide) small
  obtain ⟨sizedSeen, sized⟩ := observed_sized inv early observed
  have room := sized.room
  obtain ⟨headBy, tailBy, headAfter, tailAfter⟩ := observed.order
  have starts := start_same sizedSeen.counted sized.counted
    (pushed_early (observed.early.1.trans observed.early.2)) (observed.consumer rfl)
  have then' := (queueOf seen).start_add_queued frameLen
  have now := (queueOf before).start_add_queued frameLen
  have gap : v.toNat = (queueOf mid).stop frameLen - (queueOf seen).start frameLen := by
    rw [distance, distance_toNat (by omega) (by omega)]
  omega

/-- Equal words were equal positions, unless the indices wrapped between the two loads. -/
theorem seen_empty (small : k < 64) (inv : RingInv k world) (early : before <+: world.log)
    (observed : Observed before t id c seen mid)
    (distance : 0 = BitVec.ofNat 64 ((queueOf mid).stop frameLen) -
      BitVec.ofNat 64 ((queueOf seen).start frameLen))
    (fewer : (queueOf before).stop frameLen - (queueOf (before.take id)).stop frameLen <
      2 ^ 64 - 2 ^ k) : (queueOf seen).unread = [] := by
  have bound : 2 ^ k < 2 ^ 64 := Nat.pow_lt_pow_right (by decide) small
  have room := (observed_sized inv early observed).1.room
  obtain ⟨headBy, tailBy, headAfter, tailAfter⟩ := observed.order
  have inside : before.take id <+: seen := by
    obtain ⟨rest, grown⟩ := observed.early.1.trans observed.early.2
    rw [← grown, List.take_append_of_le_length (Nat.le_of_lt observed.started)]
    exact List.take_prefix _ _
  have since := stop_mono inside
  have then' := (queueOf seen).start_add_queued frameLen
  -- fewer than 2 ^ 64 bytes lie between the two loads, so equal words are equal positions
  have same : (queueOf seen).start frameLen = (queueOf mid).stop frameLen :=
    (word_eq_iff (by omega) (by omega)).mp (word_sub_eq_zero.mp distance.symm)
  rw [(queueOf seen).unread_empty_iff, ← (queueOf seen).queued_eq_zero_iff frameLen frameLen_pos]
  omega

end Answers

/-- What an endpoint observes stays true until it acts. -/
theorem observations_hold {cap : Nat} {ring : RingMem 64} (initialised : Initialised cap ring)
    {cfg : Config Party RingCall (PyResult PyValue) (RingOp 64) RingOp.Res (RingMem 64)}
    (reach : Reachable (ringSystem .release views fun t c => observing t c) ring cfg) :
    (∀ before id f between pre id' data r after payload,
      pre = before ++ .finish .producer id .free (.ok (.int f)) :: between →
      cfg.world.log = pre ++ .finish .producer id' (.push data) r :: after →
      (∀ e ∈ between, pushReturns e = false) → pushPayload data = .ok payload →
      (4 + payload.length : Int) ≤ f → r = .ok (.bool true)) ∧
    (∀ before id between pre id' c r after,
      pre = before ++ .finish .consumer id .isEmpty (.ok (.bool false)) :: between →
      cfg.world.log = pre ++ .finish .consumer id' c r :: after →
      (∀ e ∈ between, popReturns e = false) → isPop c = true →
      isNone r = false ∧
        ∃ m, (pushed cfg.world.log)[(pops pre).length]? = some m ∧ r = outcome c m) ∧
    (∀ before id after r, cfg.world.log = before ++ .finish .producer id .used r :: after →
      ∃ n : Nat, r = .ok (.int n) ∧ (queueOf before).queued frameLen ≤ n ∧ n ≤ cap) ∧
    (∀ before id after r, cfg.world.log = before ++ .finish .consumer id .used r :: after →
      ∃ n : Nat, r = .ok (.int n) ∧ n ≤ (queueOf before).queued frameLen ∧ n ≤ cap) ∧
    (∀ before t id after,
      cfg.world.log = before ++ .finish t id .isEmpty (.ok (.bool true)) :: after →
      (queueOf before).stop frameLen - (queueOf (before.take id)).stop frameLen < 2 ^ 64 - cap →
      ∃ seen, seen <+: before ∧ id < seen.length ∧ (queueOf seen).unread = []) := by
  obtain ⟨k, rfl, small, fresh⟩ := initialised.fresh
  rw [fresh] at reach
  have inv : RingInv k cfg.world := (sound (observing_used small) ring.data).inv reach
  have early : ∀ before rest, cfg.world.log = before ++ rest → before <+: cfg.world.log :=
    fun _ _ cut => ⟨_, cut.symm⟩
  refine ⟨?_, ?_, ?_, ?_, ?_⟩
  · intro before id f between pre id' data r after payload split cut noPush packed enough
    exact credited_push small inv split cut noPush packed enough
  · intro before id between pre id' c r after split cut noPop pop
    exact promised_pop inv split cut noPop pop
  · intro before id after r cut
    obtain ⟨v, ⟨seen, mid, observed, distance⟩, result⟩ := inv.recorded before _ after cut
    exact ⟨v.toNat, result, producer_used small inv (early _ _ cut) observed distance⟩
  · intro before id after r cut
    obtain ⟨v, ⟨seen, mid, observed, distance⟩, result⟩ := inv.recorded before _ after cut
    exact ⟨v.toNat, result, consumer_used small inv (early _ _ cut) observed distance⟩
  · intro before t id after cut fewer
    obtain ⟨v, ⟨seen, mid, observed, distance⟩, result⟩ := inv.recorded before _ after cut
    have zero : v = 0 := by simpa using result
    rw [zero] at distance
    exact ⟨seen, observed.early.1.trans observed.early.2, observed.started,
      seen_empty small inv (early _ _ cut) observed distance fewer⟩

omit [Target]

/-- The consumer is between the loads of `is_empty` while a message is published. -/
def lookAndTake : List (Interleaving.Choice Party RingCall) :=
  [[.call .producer .free], turns .producer 3, [.call .producer (.push (.bytes [104, 105]))],
    [.call .consumer .isEmpty], turns .consumer 1, turns .producer 10, turns .consumer 1,
    [.call .producer .used], turns .producer 1, [.call .consumer (.pop none)],
    turns .consumer 10, turns .producer 1].flatten

theorem observations_hold_lookAndTake :
    ∃ cfg : Config Party RingCall (PyResult PyValue) (RingOp 64) RingOp.Res (RingMem 64),
      returned cfg.world.log = [[104, 105]] ∧
        ∀ before id after r, cfg.world.log = before ++ .finish .producer id .used r :: after →
          ∃ n : Nat, r = .ok (.int n) ∧
            (@queueOf 64 littleEndian before).queued frameLen ≤ n ∧ n ≤ 16 := by
  have ran : (schedule (@ringSystem 64 .release littleEndian (fun _ => ⟨40⟩) fun t c =>
      @observing littleEndian t c) (fun _ _ o ring => RingMem.exec o ring) lookAndTake
      (.initial ⟨0, 0, 16, fun _ => 0⟩)).map (fun cfg => returned cfg.world.log) =
        some [[104, 105]] := by
    decide +kernel
  obtain ⟨cfg, reach, result⟩ := schedule_reaches (@exec_faithful _ _ littleEndian _ _) ran
  have initialised : Initialised 16 ⟨0, 0, 16, fun _ => 0⟩ :=
    ⟨by decide, ⟨0, 0, 0, fun _ => 0⟩, new_accepts (by decide) (by decide) _⟩
  exact ⟨cfg, result, (@observations_hold littleEndian _ _ _ initialised _ reach).2.2.1⟩

end Membridge.SpscObservers
