import Membridge.WeakCalls

/-!
What the two ends of a ring get where a load may miss what was stored last: every
message still arrives once, whole and in order. Every run in which no load misses
anything is among these runs.
-/
namespace Membridge.WeakDelivery
open Program Interleaving RelyGuarantee HappensBefore WeakMemory Python Spsc Queue SpscQueue
open ByteOrder CyclicBuffer Arithmetic SpscProtocol SpscInvariant SpscSound SpscDelivery
open SpscObservers SpscRaces
open WeakRing WeakProtocol WeakCalls

variable {k : Nat} [Target] {views : Party → SpscRingBuffer}

/-- Where nothing was pushed, the blank memory is right. -/
theorem carries_start (data : Nat → UInt8) :
    Carries k [] 0 0 (weakStart ⟨0, 0, BitVec.ofNat 64 (2 ^ k), data⟩) where
  sane := sane_start _
  tails := rfl
  heads := rfl
  tailAt i x found := by
    obtain ⟨inside, rfl⟩ := List.getElem?_eq_some_iff.mp found
    obtain rfl : i = 0 := by simpa [weakStart, Memory.start] using inside
    rfl
  headAt i x found := by
    obtain ⟨inside, rfl⟩ := List.getElem?_eq_some_iff.mp found
    obtain rfl : i = 0 := by simpa [weakStart, Memory.start] using inside
    rfl
  capacityAt i x found := by
    obtain ⟨inside, rfl⟩ := List.getElem?_eq_some_iff.mp found
    obtain rfl : i = 0 := by simpa [weakStart, Memory.start] using inside
    rfl
  ownTail := rfl
  ownHead := rfl
  known _ := whole_without rfl
  tells l i x found := by
    obtain ⟨inside, rfl⟩ := List.getElem?_eq_some_iff.mp found
    obtain rfl : i = 0 := by simpa [weakStart, Memory.start] using inside
    exact whole_without rfl
  front := Nat.le_refl _
  held := stores_nil
  filled q := by simp [weakStart, Memory.start, age]
  behind := Nat.le_refl _
  room := Nat.zero_le _
  written q before := absurd before (Nat.not_lt_zero q)

theorem invoked {t : Party} {n : Nat} {c : RingCall} {a : WeakWorld} (inv : WeakInv k a)
    (known : Remembers k a t) : At k t (a.push (.invoke t n c)) a (a.push (.invoke t n c)) ∧
      Remembers k (a.push (.invoke t n c)) t := by
  have after : WeakInv k (a.push (.invoke t n c)) := inv.silent silent_invoke trivial inv.carries
  refine ⟨⟨since_refl after, fun _ => ⟨after, fun _ _ => ⟨rfl, fun _ _ => rfl⟩⟩⟩, ?_⟩
  cases t with
  | producer =>
      refine ⟨?_, ?_⟩
      · rw [World.push_log, pushed_silent silent_invoke]
        exact known.1
      · intro f member
        rw [World.push_log, pushed_silent silent_invoke]
        exact known.2 f (by simpa [credits, creditStep] using member)
  | consumer =>
      intro saw
      rw [World.push_log, pops_silent silent_invoke]
      exact known (by simpa [sawMessage, sawStep] using saw)
  | third n => trivial

theorem weak_sound (small : k < 64) (data : Nat → UInt8) :
    (weakProtocol k).Sound (weakSystem views)
      (weakStart ⟨0, 0, BitVec.ofNat 64 (2 ^ k), data⟩) where
  known _ _ := trivial
  init := ⟨⟨0, carries_start data⟩, by simp [pushed], .nil, recorded_nil⟩
  idle t := by
    cases t with
    | producer =>
        refine ⟨(carries_start data).filled, ?_⟩
        intro f member
        cases member
    | consumer =>
        intro saw
        cases saw
    | third n => trivial
  call t c world may inv _ known := by
    obtain ⟨here, remembered⟩ := invoked (n := world.log.length) (c := c) inv known
    change observing t c = true at may
    cases c with
    | used => exact wp_usedCall remembered here
    | free => exact wp_free remembered here small
    | isEmpty => exact wp_isEmpty remembered here
    | isFull => exact wp_isFull remembered here
    | spsc handle mapping => cases t <;> cases may
    | push data =>
        cases t with
        | producer => exact wp_push small may remembered here
        | _ => cases may
    | pop tag =>
        cases t with
        | consumer => exact wp_popWith small rfl (by simp) (fun _ => rfl) remembered here
        | _ => cases may
    | popMixed schema =>
        cases t with
        | consumer => exact wp_popWith small rfl (by simp) (fun _ => rfl) remembered here
        | _ => cases may

/-- In every run of one producer and one consumer whose loads may miss what was stored last, pops
return what was pushed, whole, in order and once; a byte that is read is the one published for
its position; a push is refused, declined or accepted by the sizes and by a number of taken
messages that was right at some time; and what `free()` and `is_empty()` told its own side holds
until that side acts. -/
theorem weak_ring_delivers {cap : Nat} {ring : RingMem 64} (initialised : Initialised cap ring)
    {cfg : WeakConfig} (reach : Reachable (weakSystem views) (weakStart ring) cfg) :
    List.Forall₂ (fun (d : RingCall × PyResult PyValue) m => d.2 = outcome d.1 m)
      (pops cfg.world.log) ((pushed cfg.world.log).take (pops cfg.world.log).length) ∧
    Fifo.total frameLen ((pushed cfg.world.log).drop (pops cfg.world.log).length) ≤ cap ∧
    (∀ pre t id c slot b post, cfg.world.log = pre ++ .access t id c (.readByte slot) b :: post →
      ∃ q, slot = q % cap ∧ Fifo.total frameLen ((pushed pre).take (pops pre).length) ≤ q ∧
        (stream (pushed pre))[q]? = some b) ∧
    (∀ pre id data r post payload,
      cfg.world.log = pre ++ .finish .producer id (.push data) r :: post →
      pushPayload data = .ok payload → ((∃ e, r = .error e) ↔ cap < 4 + payload.length) ∧
      (4 + payload.length ≤ cap → ∃ i, i ≤ (pops pre).length ∧ r = .ok (.bool
        (decide (Fifo.total frameLen ((pushed pre).drop i) + (4 + payload.length) ≤ cap))))) ∧
    (∀ before id f between pre id' data r after payload,
      pre = before ++ .finish .producer id .free (.ok (.int f)) :: between →
      cfg.world.log = pre ++ .finish .producer id' (.push data) r :: after →
      (∀ e ∈ between, pushReturns e = false) → pushPayload data = .ok payload →
      (4 + payload.length : Int) ≤ f → r = .ok (.bool true)) ∧
    (∀ before id between pre id' c r after,
      pre = before ++ .finish .consumer id .isEmpty (.ok (.bool false)) :: between →
      cfg.world.log = pre ++ .finish .consumer id' c r :: after →
      (∀ e ∈ between, popReturns e = false) → isPop c = true → isNone r = false) := by
  obtain ⟨k, rfl, small, fresh⟩ := initialised.fresh
  rw [fresh] at reach
  have inv : WeakInv k cfg.world := (weak_sound small ring.data).inv reach
  have told : ∀ pre e post, cfg.world.log = pre ++ e :: post → Told k pre e := inv.told
  refine ⟨inv.outcomes, ?_, ?_, ?_, ?_, ?_⟩
  · obtain ⟨_, carries⟩ := inv.carries
    have close := carries.close carries.freed_le (Nat.le_refl _)
    have rest := upTo_drop (pushed cfg.world.log) (pops cfg.world.log).length
    omega
  · intro pre t id c slot b post cut
    exact told pre _ post cut
  · intro pre id data r post payload cut packed
    have answer := told pre _ post cut
    refine ⟨⟨?_, answer.oversize payload packed⟩, answer.accepted payload packed⟩
    rintro ⟨e, rfl⟩
    -- a payload that fits is answered with a boolean, never with an error
    by_contra fits
    obtain ⟨i, -, result⟩ := answer.accepted payload packed (by rw [frameLen]; omega)
    cases result
  · intro before id f between pre id' data r after payload split cut noPush packed enough
    subst split
    -- what was told is at most the capacity, so the frame is a legal one
    have free : Told k before (.finish .producer id .free (.ok (.int f))) :=
      told before _ _ (by rw [cut, List.append_assoc, List.cons_append])
    have most := free f rfl
    have fits : frameLen payload ≤ f.toNat := by
      rw [frameLen]
      omega
    exact (told _ _ after cut).credited payload packed (Nat.le_trans fits most) f.toNat
      (credits_kept noPush) fits
  · intro before id between pre id' c r after split cut noPop pop
    subst split
    exact told _ _ after cut pop (sawMessage_kept noPop)

section Late
omit [Target]

/-- A load that misses what was stored last if it may. -/
def readLate (s : WeakMem 64) (t : Party) (l : Cell) (m : Mode) (default : CellVal 64 l) :
    CellVal 64 l × WeakMem 64 :=
  let i := max (s.knows t l) ((s.writes l).length - 2)
  match (s.writes l)[i]? with
  | some w =>
      (w.value, { s with knows := Function.update s.knows t (learned (s.knows t) l i m w.view) })
  | none => (default, s)

/-- The accesses of a call, with loads as late as can be but by one write. -/
def late (t : Party) (c : RingCall) : (o : RingOp 64) → WeakMem 64 → o.Res × WeakMem 64
  | .loadHead, s => readLate s t .head (.load (acquiresHead c)) 0
  | .loadTail, s => readLate s t .tail (.load (acquiresTail c)) 0
  | .loadCapacity, s => readLate s t .capacity .read 0
  | .storeHead v, s => ((), s.write t .head (storesIndex c) v)
  | .storeTail v, s => ((), s.write t .tail (storesIndex c) v)
  | .storeCapacity v, s => ((), s.write t .capacity .write v)
  | .readByte slot, s => readLate s t (.slot slot) .read 0
  | .writeByte slot b, s => ((), s.write t (.slot slot) .write b)

theorem readLate_reads {s : WeakMem 64} (sane : Sane s) (t : Party) (l : Cell) (m : Mode)
    (default : CellVal 64 l) :
    Reads t l m s (readLate s t l m default).1 (readLate s t l m default).2 ∧
      Sane (readLate s t l m default).2 := by
  have known := sane.known t l
  have inside : max (s.knows t l) ((s.writes l).length - 2) < (s.writes l).length := by omega
  have reads : Reads t l m s (readLate s t l m default).1 (readLate s t l m default).2 := by
    simp only [readLate, List.getElem?_eq_getElem inside]
    exact .read _ _ (Nat.le_max_left _ _) (List.getElem?_eq_getElem inside)
  obtain ⟨i, w, learns⟩ := reads.learns sane
  exact ⟨reads, learns.sane sane⟩

theorem late_faithful (t : Party) (c : RingCall) (o : RingOp 64) (s : WeakMem 64) (sane : Sane s) :
    weakSem t c s o (late t c o s).1 (late t c o s).2 ∧ Sane (late t c o s).2 := by
  cases o with
  | loadHead => exact readLate_reads sane t .head (.load (acquiresHead c)) 0
  | loadTail => exact readLate_reads sane t .tail (.load (acquiresTail c)) 0
  | loadCapacity => exact readLate_reads sane t .capacity .read 0
  | readByte slot => exact readLate_reads sane t (.slot slot) .read 0
  | storeHead v => exact ⟨rfl, sane.write⟩
  | storeTail v => exact ⟨rfl, sane.write⟩
  | storeCapacity v => exact ⟨rfl, sane.write⟩
  | writeByte slot b => exact ⟨rfl, sane.write⟩

instance (target : Target) (views : Party → SpscRingBuffer) (t : Party) (c : RingCall) :
    Decidable ((@weakSystem target views).allowed t c) :=
  inferInstanceAs (Decidable (@SpscObservers.observing target t c = true))

instance (target : Target) (views : Party → SpscRingBuffer) (world : WeakWorld) (t : Party)
    (c : RingCall) (o : RingOp 64) : Decidable ((@weakSystem target views).enabled world t c o) :=
  inferInstanceAs (Decidable True)

/-- A pop behind a push does not see its message, the next one does. -/
def lateMessage : List (Interleaving.Choice Party RingCall) :=
  [[.call .producer (.push (.bytes [104, 105]))], turns .producer 10, [.call .consumer (.pop none)],
    turns .consumer 2, [.call .producer (.push (.bytes [33]))], turns .producer 9,
    [.call .consumer (.pop none)], turns .consumer 10].flatten

/-- The number of the pop that returns `None` at this place of a log. -/
def popsNone (log : RingLog 64) (i : Nat) : Option Nat :=
  match log[i]? with
  | some (.finish .consumer id (.pop none) (.ok .none)) => some id
  | _ => none

theorem popsNone_cut {log : RingLog 64} {i id : Nat} (here : popsNone log i = some id) :
    log = log.take i ++ .finish .consumer id (.pop none) (.ok .none) :: log.drop (i + 1) := by
  unfold popsNone at here
  split at here
  · next n found =>
      cases here
      obtain ⟨inside, there⟩ := List.getElem?_eq_some_iff.mp found
      rw [← there, List.getElem_cons_drop, List.take_append_drop]
  · cases here

/-- The first pop begins at place 12, behind the first push, and returns `None`; the second one
returns the message. -/
theorem late_run : ∃ cfg : WeakConfig,
    Reachable (@weakSystem littleEndian fun _ => ⟨40⟩) (weakStart ⟨0, 0, 16, fun _ => 0⟩) cfg ∧
    popsNone cfg.world.log 15 = some 12 ∧
    @pushed 64 littleEndian (cfg.world.log.take 12) = [[104, 105]] ∧
    (pops (cfg.world.log.take 15)).length = 0 ∧ returned cfg.world.log = [[104, 105]] := by
  have ran : (schedule (@weakSystem littleEndian fun _ => ⟨40⟩) late lateMessage
      (.initial (weakStart ⟨0, 0, 16, fun _ => 0⟩))).map (fun cfg =>
        (popsNone cfg.world.log 15, @pushed 64 littleEndian (cfg.world.log.take 12),
          (pops (cfg.world.log.take 15)).length, returned cfg.world.log)) =
      some (some 12, [[104, 105]], 0, [[104, 105]]) := by
    decide +kernel
  obtain ⟨cfg, reached, result⟩ := Option.map_eq_some_iff.mp ran
  simp only [Prod.mk.injEq] at result
  exact ⟨cfg, schedule_keeps Sane late_faithful (sane_start _) reached, result⟩

theorem weak_ring_delivers_lateMessage : ∃ cfg : WeakConfig, popsNone cfg.world.log 15 = some 12 ∧
    returned cfg.world.log = [[104, 105]] ∧
    List.Forall₂ (fun (d : RingCall × PyResult PyValue) m => d.2 = @outcome littleEndian d.1 m)
      (pops cfg.world.log)
        ((@pushed 64 littleEndian cfg.world.log).take (pops cfg.world.log).length) := by
  obtain ⟨cfg, reach, missed, -, -, back⟩ := late_run
  have initialised : Initialised 16 ⟨0, 0, 16, fun _ => 0⟩ :=
    ⟨by decide, ⟨0, 0, 0, fun _ => 0⟩, new_accepts (by decide) (by decide) _⟩
  exact ⟨cfg, missed, back, (@weak_ring_delivers littleEndian _ _ _ initialised _ reach).1⟩

end Late

section Interleaved

/-- What was written last to each word and byte is what the ring holds. -/
structure Newest (ring : RingMem 64) (s : WeakMem 64) : Prop where
  sane : Sane s
  last : ∀ l, ((s.writes l).getLast?).map Write.value = some (cellOf ring l)

omit [Target] in
theorem Newest.reads {ring : RingMem 64} {s : WeakMem 64} (newest : Newest ring s)
    (t : Party) (l : Cell)
    (m : Mode) : ∃ after, Reads t l m s (cellOf ring l) after ∧ Newest ring after := by
  obtain ⟨x, found, value⟩ := Option.map_eq_some_iff.mp (newest.last l)
  rw [List.getLast?_eq_getElem?] at found
  have reads := Reads.read (m := m) _ x (Nat.le_sub_one_of_lt (newest.sane.known t l)) found
  rw [value] at reads
  obtain ⟨i, w, learns⟩ := reads.learns newest.sane
  exact ⟨_, reads, learns.sane newest.sane, newest.last⟩

omit [Target] in
theorem Newest.write {ring after : RingMem 64} {s : WeakMem 64} (newest : Newest ring s) (t : Party)
    (l : Cell) (m : Mode) (v : CellVal 64 l) (here : cellOf after l = v)
    (others : ∀ l', l' ≠ l → cellOf after l' = cellOf ring l') :
    Newest after (s.write t l m v) := by
  refine ⟨newest.sane.write, ?_⟩
  intro l'
  by_cases same : l' = l
  · subst same
    rw [write_here, List.getLast?_concat, here]
    rfl
  · rw [write_elsewhere same, others l' same]
    exact newest.last l'

omit [Target] in
theorem newest_does {t : Party} {c : RingCall} {ring after : RingMem 64}
    {s : WeakMem 64} {o : RingOp 64}
    {r : o.Res} (newest : Newest ring s) (does : RingMem.exec o ring = (r, after)) :
    ∃ next, weakSem t c s o r next ∧ Newest after next := by
  cases o with
  | loadHead =>
      cases does
      exact newest.reads t .head (.load (acquiresHead c))
  | loadTail =>
      cases does
      exact newest.reads t .tail (.load (acquiresTail c))
  | loadCapacity =>
      cases does
      exact newest.reads t .capacity .read
  | readByte slot =>
      cases does
      exact newest.reads t (.slot slot) .read
  | storeHead v =>
      cases does
      refine ⟨_, rfl, newest.write t .head _ v rfl ?_⟩
      intro l other
      cases l <;> first | rfl | exact absurd rfl other
  | storeTail v =>
      cases does
      refine ⟨_, rfl, newest.write t .tail _ v rfl ?_⟩
      intro l other
      cases l <;> first | rfl | exact absurd rfl other
  | storeCapacity v =>
      cases does
      refine ⟨_, rfl, newest.write t .capacity _ v rfl ?_⟩
      intro l other
      cases l <;> first | rfl | exact absurd rfl other
  | writeByte slot b =>
      cases does
      refine ⟨_, rfl, newest.write t (.slot slot) _ b (Function.update_self ..) ?_⟩
      intro l other
      cases l with
      | slot n => exact Function.update_of_ne (fun same => other (congrArg Cell.slot same)) _ _
      | _ => rfl

/-- Every interleaved run is a weak one, in which each load takes what was stored last. -/
theorem interleaved_weak {ring : RingMem 64}
    {cfg : Config Party RingCall (PyResult PyValue) (RingOp 64) RingOp.Res (RingMem 64)}
    (reach : Reachable (ringSystem .release views fun t c => observing t c) ring cfg) :
    ∃ cfg' : WeakConfig, Reachable (weakSystem views) (weakStart ring) cfg' ∧
      cfg'.world.log = cfg.world.log ∧ cfg'.running = cfg.running := by
  have start : Newest ring (weakStart ring) := ⟨sane_start _, fun l => rfl⟩
  obtain ⟨cfg', reach', same⟩ :=
    reachable_simulated (ringSystem .release views fun t c => observing t c)
    (weakSystem views) Newest rfl (fun _ _ may => may) (fun _ _ _ _ => trivial)
    (fun _ _ _ _ _ _ _ _ newest does => newest_does newest does) start reach
  exact ⟨cfg', reach', same.log, same.running⟩

/-- An interleaved pop that returns `None` has missed nothing: what was pushed before it began
was taken before it returned. -/
theorem interleaved_none {cap : Nat} {ring : RingMem 64} (initialised : Initialised cap ring)
    {cfg : Config Party RingCall (PyResult PyValue) (RingOp 64) RingOp.Res (RingMem 64)}
    (reach : Reachable (ringSystem .release views fun t c => observing t c) ring cfg)
    {pre post : RingLog 64} {id : Nat} {c : RingCall}
    (cut : cfg.world.log = pre ++ .finish .consumer id c (.ok .none) :: post)
    (pop : isPop c = true) :
    (pushed (pre.take id)).length ≤ (pops pre).length := by
  obtain ⟨k, rfl, small, fresh⟩ := initialised.fresh
  rw [fresh] at reach
  have intact := RingInv.intact small ((sound (observing_used small) ring.data).inv reach)
  obtain ⟨seen, v, loaded, all⟩ := intact.complete pre id c post cut pop
  -- the load of the tail comes behind the beginning of the pop
  have begun : Begun seen (.access .consumer id c .loadTail v) := by
    apply reach.begun.1 seen _ (.finish .consumer id c (.ok .none) :: post)
    rw [cut, loaded, List.append_assoc]
    rfl
  have before : id < seen.length := (List.getElem?_eq_some_iff.mp begun).1
  have sooner : pre.take id <+: seen := by
    rw [loaded, List.take_append_of_le_length (Nat.le_of_lt before)]
    exact List.take_prefix _ _
  calc (pushed (pre.take id)).length
      ≤ (pushed seen).length := (pushed_early sooner).length_le
    _ = (pops seen).length := all.symm
    _ = (pops pre).length := by rw [loaded, pops_silent (silent_access _ _)]

omit [Target]

/-- Interleaved runs are weak runs. Weak is the run in which a pop that begins behind the return
of a push, and before any pop has returned a message, still answers `None`; interleaved is none. -/
theorem weak_exceeds_interleaved :
    (∀ [Target] (views : Party → SpscRingBuffer) (ring : RingMem 64)
      (cfg : Config Party RingCall (PyResult PyValue) (RingOp 64) RingOp.Res (RingMem 64)),
      Reachable (ringSystem .release views fun t c => observing t c) ring cfg →
      ∃ cfg' : WeakConfig, Reachable (weakSystem views) (weakStart ring) cfg' ∧
        cfg'.world.log = cfg.world.log ∧ cfg'.running = cfg.running) ∧
    (∃ (cfg' : WeakConfig) (pre : RingLog 64) (id : Nat) (post : RingLog 64),
      Reachable (@weakSystem littleEndian fun _ => ⟨40⟩) (weakStart ⟨0, 0, 16, fun _ => 0⟩) cfg' ∧
        cfg'.world.log = pre ++ .finish .consumer id (.pop none) (.ok .none) :: post ∧
        @pushed 64 littleEndian (pre.take id) = [[104, 105]] ∧ pops pre = []) ∧
    ∀ [Target] (views : Party → SpscRingBuffer) (cap : Nat) (ring : RingMem 64)
      (cfg : Config Party RingCall (PyResult PyValue) (RingOp 64) RingOp.Res (RingMem 64)),
      Initialised cap ring →
      Reachable (ringSystem .release views fun t c => observing t c) ring cfg →
      ∀ pre id c post, cfg.world.log = pre ++ .finish .consumer id c (.ok .none) :: post →
        isPop c = true → (pushed (pre.take id)).length ≤ (pops pre).length := by
  refine ⟨fun views ring cfg reach => interleaved_weak reach, ?_, ?_⟩
  · obtain ⟨cfg', reach', missed, sent, taken, -⟩ := late_run
    refine ⟨cfg', cfg'.world.log.take 15, 12, cfg'.world.log.drop 16,
      reach', popsNone_cut missed, ?_,
      List.eq_nil_of_length_eq_zero taken⟩
    rw [List.take_take]
    exact sent
  · intro _ views cap ring cfg initialised reach pre id c post cut pop
    exact interleaved_none initialised reach cut pop

end Interleaved

end Membridge.WeakDelivery
