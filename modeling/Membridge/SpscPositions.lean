import Membridge.SpscSound

/-!
Where the accesses to the data area of a ring lie. The producer writes behind what
it has published and before one capacity from where it saw the head; the consumer
reads between the head and where it saw the tail. So much can be told from the
log, which is what a claim about pairs of accesses needs.
-/
namespace Membridge.SpscPositions
open Program Interleaving RelyGuarantee Python Spsc Queue SpscQueue CyclicBuffer ByteOrder
open SpscProtocol SpscInvariant SpscCalls SpscSound Arithmetic

variable {w k : Nat} [Target]

/-- A byte of a push: what it saw of the head leaves the position free. -/
def Writes (k : Nat) (pre : RingLog w) (id slot : Nat) (c : RingCall) : Prop :=
  (∃ data, c = .push data) ∧ ∃ seen v mid pos,
    pre = seen ++ .access .producer id c .loadHead v :: mid ∧ slot = pos % 2 ^ k ∧
    (queueOf pre).stop frameLen ≤ pos ∧ pos < (queueOf seen).start frameLen + 2 ^ k

/-- A byte of a pop: what it saw of the tail has published the position. -/
def Reads (k : Nat) (pre : RingLog w) (id slot : Nat) (c : RingCall) : Prop :=
  isPop c = true ∧ ∃ seen v mid pos,
    pre = seen ++ .access .consumer id c .loadTail v :: mid ∧ slot = pos % 2 ^ k ∧
    (queueOf pre).start frameLen ≤ pos ∧ pos < (queueOf seen).stop frameLen

/-- Who stores what, where bytes are accessed, and what precedes the return of a call that
moved a message. -/
def Placed (k : Nat) (pre : RingLog w) : RingEvent w → Prop
  | .access t id c (.writeByte slot _) _ => t = .producer ∧ Writes k pre id slot c
  | .access t id c (.readByte slot) _ => t = .consumer ∧ Reads k pre id slot c
  | .access t _ c (.storeTail _) _ => t = .producer ∧ ∃ data, c = .push data
  | .access t _ c (.storeHead _) _ => t = .consumer ∧ isPop c = true
  | .access _ _ _ (.storeCapacity _) _ => False
  | .access _ _ _ _ _ => True
  | .invoke _ _ _ => True
  | .finish t id c r =>
      (published (.finish t id c r : RingEvent w) ≠ none →
        ∃ seen v, pre = seen ++ [.access t id c (.storeTail v) ()]) ∧
      (delivery (.finish t id c r : RingEvent w) ≠ none →
        ∃ seen v, pre = seen ++ [.access t id c (.storeHead v) ()])

/-- What is known of the queue, `RingInv`, is a fact of every reachable world here. -/
def placedProtocol (w k : Nat) : Protocol Party RingCall (PyResult PyValue) (RingOp w) RingOp.Res
    (RingMem w) where
  Known := RingInv k
  Inv world := Recorded (Placed k) world.log
  Rely _ _ _ := True
  Idle _ _ := True
  rely_refl _ _ := trivial
  rely_trans _ _ _ _ _ _ := trivial
  idle_stable _ _ _ _ _ _ _ _ _ := trivial

variable {t : Party} {n : Nat} {c : RingCall} {a x y z : RingWorld w}

/-- Since `a`, thread `t` has made accesses only, each in its place. -/
structure Along (k : Nat) (t : Party) (a y : RingWorld w) : Prop where
  placed : Recorded (Placed k) y.log
  quiet : Meanwhile t a.log y.log

theorem Along.here (along : Along k t a y) : Along k t y y := ⟨along.placed, meanwhile_refl⟩

theorem Along.took {o : RingOp w} (along : Along k t a z)
    (fits : Placed k z.log (.access t n c o (RingMem.exec o z.mem).1)) :
    Along k t a (took t n c o z) :=
  ⟨recorded_snoc.mpr ⟨along.placed, fits⟩, meanwhile_trans along.quiet meanwhile_access⟩

theorem Along.commit (along : Along k t a y) : (placedProtocol w k).Commit t x y :=
  fun _ => ⟨along.placed, fun _ _ => trivial⟩

theorem Along.finish {r : PyResult PyValue} (along : Along k t a y)
    (fits : Placed k y.log (.finish t n c r)) : (placedProtocol w k).Finish t n c r x y :=
  ⟨fun _ => ⟨recorded_snoc.mpr ⟨along.placed, fits⟩, fun _ _ => trivial⟩, fun _ => trivial⟩

theorem Along.silent {r : PyResult PyValue} (along : Along k t a y)
    (silent : Silent (.finish t n c r : RingEvent w)) : (placedProtocol w k).Finish t n c r x y :=
  along.finish ⟨fun said => absurd silent.1 said, fun said => absurd silent.2 said⟩

section Rules
variable {views : Party → SpscRingBuffer} {sys : RingSystem w} (used : WellUsed k views sys)
include used

theorem wp_place {α : Type} {o : RingOp w} {next : o.Res → RingProg w α}
    {post : α → RingWorld w → RingWorld w → Prop} (along : Along k t a y)
    (later : ∀ z, RingInv k z → Along k t a z → Along k t y z →
      Placed k z.log (.access t n c o (RingMem.exec o z.mem).1) ∧
      (Along k t a (took t n c o z) → (placedProtocol w k).wp sys t n c
        (next (RingMem.exec o z.mem).1) post z (took t n c o z))) :
    (placedProtocol w k).wp sys t n c (.op o next) post x y := by
  apply Protocol.wp_op along.commit
  intro z env _ r mem does
  have result := (used.sem t c z.mem o r mem).mp does
  have recent : Along k t y z := ⟨env.inv, others_meanwhile env.others⟩
  have here : Along k t a z := ⟨env.inv, meanwhile_trans along.quiet recent.quiet⟩
  obtain ⟨fits, step⟩ := later z env.known here recent
  have step := step (here.took fits)
  rw [took, result] at step
  exact step

/-- A load needs no place. -/
theorem wp_lookHead {α : Type} {next : BitVec w → RingProg w α}
    {post : α → RingWorld w → RingWorld w → Prop} (along : Along k t a y)
    (later : ∀ z, RingInv k z → Along k t y z → Along k t a (took t n c .loadHead z) →
      (placedProtocol w k).wp sys t n c (next z.mem.head) post z (took t n c .loadHead z)) :
    (placedProtocol w k).wp sys t n c (.op .loadHead next) post x y :=
  wp_place used along fun z inv _ recent => ⟨trivial, later z inv recent⟩

theorem wp_lookTail {α : Type} {next : BitVec w → RingProg w α}
    {post : α → RingWorld w → RingWorld w → Prop} (along : Along k t a y)
    (later : ∀ z, RingInv k z → Along k t y z → Along k t a (took t n c .loadTail z) →
      (placedProtocol w k).wp sys t n c (next z.mem.tail) post z (took t n c .loadTail z)) :
    (placedProtocol w k).wp sys t n c (.op .loadTail next) post x y :=
  wp_place used along fun z inv _ recent => ⟨trivial, later z inv recent⟩

theorem wp_lookCapacity {α : Type} {next : BitVec w → RingProg w α}
    {post : α → RingWorld w → RingWorld w → Prop} (along : Along k t a y)
    (later : ∀ z, Along k t a (took t n c .loadCapacity z) →
      (placedProtocol w k).wp sys t n c (next (BitVec.ofNat w (2 ^ k))) post z
        (took t n c .loadCapacity z)) :
    (placedProtocol w k).wp sys t n c (.op .loadCapacity next) post x y := by
  apply wp_place used along
  intro z inv _ _
  refine ⟨trivial, ?_⟩
  intro along
  change Protocol.wp _ _ _ _ _ (next z.mem.capacity) _ _ _
  rw [inv.represents.capacity]
  exact later z along

section Push
variable {s : RingWorld w} {data : PyValue} {v : BitVec w}

/-- The bytes of a frame go to the positions behind the tail, one after the other. -/
theorem wp_writesFrom {bytes : List UInt8} {base i room : Nat}
    (start : a = took .producer n (.push data) .loadHead s)
    (free : (queueOf a.log).stop frameLen + room ≤ (queueOf s.log).start frameLen + 2 ^ k)
    (inside : base + i + bytes.length ≤ room) (along : Along k .producer a y) :
    (placedProtocol w k).wp sys .producer n (.push data)
      (writeFrom .release (BitVec.ofNat w ((queueOf a.log).stop frameLen + base))
        (BitVec.ofNat w (2 ^ k) - 1) i bytes).run
      (fun r _ y' => r = .ok () ∧ Along k .producer a y') x y := by
  induction bytes generalizing i x y with
  | nil => exact ⟨rfl, along⟩
  | cons byte rest ih =>
      rw [List.length_cons] at inside
      simp only [writeFrom, Build.plus, writeByte, Prog.run_bind, Prog.run_pure, Prog.ret_bind,
        Prog.run_access, Prog.op_bind]
      apply wp_place used along
      intro z inv here _
      obtain ⟨mid, grown⟩ := meanwhile_early here.quiet
      have stops := SpscInvariant.stop_same (meanwhile_pushed_of here.quiet rfl)
      refine ⟨⟨rfl, ⟨data, rfl⟩, s.log, s.mem.head, mid,
        (queueOf a.log).stop frameLen + base + i, ?_, ?_, ?_, ?_⟩, ?_⟩
      · rw [← grown, start, took, List.append_assoc]
        rfl
      · exact slot_toNat used.small _ _
      · rw [stops]
        omega
      · omega
      · intro along
        exact ih (i := i + 1) (by omega) along

theorem wp_writes (base : Nat) (src : List UInt8) {room : Nat}
    (start : a = took .producer n (.push data) .loadHead s)
    (free : (queueOf a.log).stop frameLen + room ≤ (queueOf s.log).start frameLen + 2 ^ k)
    (inside : base + src.length ≤ room) (along : Along k .producer a y) :
    (placedProtocol w k).wp sys .producer n (.push data)
      (writeBytes .release (BitVec.ofNat w ((queueOf a.log).stop frameLen + base)) src
        (BitVec.ofNat w (2 ^ k))).run
      (fun r _ y' => r = .ok () ∧ Along k .producer a y') x y := by
  simp only [writeBytes, Build.minus, Prog.run_bind, Prog.run_pure, Prog.ret_bind]
  exact wp_writesFrom used start free (by omega) along

theorem wp_push (fits : Fits w k data) (along : Along k .producer a a) :
    (placedProtocol w k).wp sys .producer n (.push data)
      (ringCode .release views .producer (.push data))
      ((placedProtocol w k).Finish .producer n (.push data)) x a := by
  simp only [ringCode, push, Prog.run_bind, Prog.run_pure]
  cases payload : pushPayload data with
  | error e =>
      simp only [Prog.run_error, Prog.ret_bind, Protocol.wp_ret]
      exact along.silent (silent_push data _ (by simp))
  | ok m =>
      simp only [Prog.run_ok, Prog.ret_bind, capacity, Prog.run_access, Prog.op_bind]
      apply wp_lookCapacity used along
      intro z0 along0
      rw [capacity_toNat used.small]
      by_cases large : 4 + m.length > 2 ^ k
      · simp only [if_pos large, Prog.run_throw, Prog.ret_bind, Protocol.wp_ret]
        exact along0.silent (silent_push data _ (by simp))
      · simp only [if_neg large, loadHead, loadTail, Prog.run_bind, Prog.run_access, Prog.op_bind,
          Prog.ret_bind, Build.plus, Prog.run_pure]
        apply wp_lookHead used along0
        intro z1 inv1 _ along1
        apply wp_lookTail used along1.here
        intro z2 inv2 recent2 along2
        have bounded : frameLen m ≤ 2 ^ k := by
          unfold frameLen
          omega
        obtain ⟨short, wide⟩ := fits m payload bounded
        have stops : (queueOf z2.log).stop frameLen = (queueOf z1.log).stop frameLen := by
          have same := SpscInvariant.stop_same (meanwhile_pushed_of recent2.quiet rfl)
          rwa [took_queue] at same
        have tail : z2.mem.tail = BitVec.ofNat w ((queueOf z1.log).stop frameLen) := by
          rw [inv2.represents.tail, stops]
        have needed := space_check used.small inv1.represents.head tail inv1.represents.room wide
        have positions := (queueOf z1.log).start_add_queued frameLen
        rw [frameLen] at needed
        by_cases full : (queueOf z1.log).queued frameLen + (4 + m.length) ≤ 2 ^ k
        · rw [if_neg (by rwa [needed, not_not]), tail,
            ← took_queue (t := .producer) (n := n) (c := .push data) (o := .loadHead)]
          have prefixLen : (toNeBytes 4 (m.length % 2 ^ 32)).length = 4 := by simp
          have free : (queueOf (took .producer n (.push data) .loadHead z1).log).stop frameLen +
              (4 + m.length) ≤ (queueOf z1.log).start frameLen + 2 ^ k := by
            rw [took_queue]
            omega
          simp only [Prog.run_bind, Prog.run_pure, Prog.ret_bind, storeTail, Prog.run_access,
            Prog.op_bind]
          rw [Protocol.wp_bind, Protocol.wp_bind]
          -- the length prefix, then the payload right behind it
          have first := wp_writes (x := z2) used 0 (toNeBytes 4 (m.length % 2 ^ 32)) rfl free
            (by omega) along2
          rw [Nat.add_zero] at first
          refine Protocol.wp_mono ?_ first
          rintro r1 x1 y1 ⟨rfl, along3⟩
          dsimp only
          rw [Protocol.wp_bind]
          have second := wp_writes (x := x1) used 4 m rfl free (Nat.le_refl _) along3
          rw [BitVec.ofNat_add] at second
          refine Protocol.wp_mono ?_ second
          rintro r2 x2 y2 ⟨rfl, along4⟩
          dsimp only
          apply wp_place used along4
          intro z3 _ _ _
          refine ⟨⟨rfl, data, rfl⟩, ?_⟩
          intro along5
          exact along5.finish ⟨fun _ => ⟨_, _, rfl⟩, fun said => absurd rfl said⟩
        · rw [if_pos (needed.mpr full)]
          simp only [Prog.run_pure, Prog.ret_bind, Protocol.wp_ret]
          exact along2.silent (silent_push data _ (by simp))

end Push

section Pop
variable {s : RingWorld w} {m : Message} {rest : List Message}

/-- The bytes of the front frame, which stays put while it is read. -/
theorem wp_readsFrom {base i count : Nat} (pop : isPop c = true)
    (start : a = took .consumer n c .loadTail s) (before : RingInv k s)
    (front : (queueOf s.log).unread = m :: rest) (inside : base + i + count ≤ (frame m).length)
    (along : Along k .consumer a y) :
    (placedProtocol w k).wp sys .consumer n c
      (readFrom .release (BitVec.ofNat w ((queueOf s.log).start frameLen + base))
        (BitVec.ofNat w (2 ^ k) - 1) i count).run
      (fun r _ y' => r = .ok (((frame m).drop (base + i)).take count) ∧
        Along k .consumer a y') x y := by
  induction count generalizing i x y with
  | zero => exact ⟨by rw [List.take_zero], along⟩
  | succ count ih =>
      simp only [readFrom, Build.plus, readByte, Prog.run_bind, Prog.run_pure, Prog.ret_bind,
        Prog.run_access, Prog.op_bind]
      apply wp_place used along
      intro z inv here _
      have slot := slot_toNat (k := k) used.small ((queueOf s.log).start frameLen + base) i
      have quiet : Meanwhile .consumer s.log z.log := by
        apply meanwhile_trans ?_ here.quiet
        rw [start]
        exact meanwhile_access
      have starts := SpscInvariant.start_same before.counted inv.counted
        (pushed_early (meanwhile_early quiet)) (meanwhile_pops_of quiet rfl)
      -- the front frame is still where it was, though more may have been published
      obtain ⟨later, unread⟩ : ∃ later, (queueOf z.log).unread = m :: later := by
        have grown := unread_grows before.counted inv.counted
          (pushed_early (meanwhile_early quiet)) (meanwhile_pops_of quiet rfl)
        rw [front] at grown
        obtain ⟨more, grown⟩ := grown
        exact ⟨rest ++ more, grown.symm⟩
      have held := inv.represents.front unread (base + i) (by omega)
      rw [starts, ← Nat.add_assoc, ← slot] at held
      obtain ⟨mid, grown⟩ := meanwhile_early here.quiet
      refine ⟨⟨rfl, pop, s.log, s.mem.tail, mid,
        (queueOf s.log).start frameLen + base + i, ?_, slot, ?_, ?_⟩, ?_⟩
      · rw [← grown, start, took, List.append_assoc]
        rfl
      · rw [starts]
        omega
      · have positions := (queueOf s.log).start_add_queued frameLen
        rw [Fifo.queued, front, Fifo.total_cons, ← frame_length] at positions
        omega
      · intro along
        rw [Protocol.wp_bind]
        refine Protocol.wp_mono ?_ (ih (i := i + 1) (by omega) along)
        rintro r x' y' ⟨rfl, along⟩
        refine ⟨?_, along⟩
        simp only [RingMem.exec]
        have inFrame : base + i < (frame m).length := by omega
        rw [held, List.drop_eq_getElem_cons inFrame, List.take_succ_cons]
        rfl

theorem wp_reads (base count : Nat) (pop : isPop c = true)
    (start : a = took .consumer n c .loadTail s) (before : RingInv k s)
    (front : (queueOf s.log).unread = m :: rest) (inside : base + count ≤ (frame m).length)
    (along : Along k .consumer a y) :
    (placedProtocol w k).wp sys .consumer n c
      (readBytes .release (BitVec.ofNat w ((queueOf s.log).start frameLen + base)) count
        (BitVec.ofNat w (2 ^ k))).run
      (fun r _ y' => r = .ok (((frame m).drop base).take count) ∧ Along k .consumer a y') x y := by
  simp only [readBytes, Build.minus, Prog.run_bind, Prog.run_pure, Prog.ret_bind]
  exact wp_readsFrom (i := 0) used pop start before front inside along

theorem wp_popFrame (pop : isPop c = true) (along : Along k .consumer a a) :
    (placedProtocol w k).wp sys .consumer n c (popFrame .release).run
      (fun r _ y' => Recorded (Placed k) y'.log ∧ match r with
        | .ok none => True
        | .ok (some _) => ∃ seen v, y'.log = seen ++ [.access .consumer n c (.storeHead v) ()]
        | .error _ => False) x a := by
  simp only [popFrame, loadHead, loadTail, capacity, storeHead, Build.plus, Prog.run_bind,
    Prog.run_access, Prog.op_bind, Prog.ret_bind]
  apply wp_lookHead used along
  intro z1 inv1 _ along1
  apply wp_lookTail used along1.here
  intro z2 inv2 recent2 along2
  have same : z1.mem.head = z2.mem.head := by
    have quiet : Meanwhile .consumer z1.log z2.log := meanwhile_trans meanwhile_access recent2.quiet
    rw [inv1.represents.head, inv2.represents.head,
      SpscInvariant.start_same inv1.counted inv2.counted
      (pushed_early (meanwhile_early quiet)) (meanwhile_pops_of quiet rfl)]
  rw [same]
  by_cases empty : z2.mem.head = z2.mem.tail
  · rw [if_pos empty]
    exact ⟨along2.placed, trivial⟩
  · rw [if_neg empty]
    cases front : (queueOf z2.log).unread with
    | nil => exact absurd ((inv2.represents.empty_iff used.small).mpr front) empty
    | cons m rest =>
        simp only [Prog.run_bind, Prog.run_access, Prog.run_pure, Prog.op_bind, Prog.ret_bind]
        apply wp_lookCapacity used along2.here
        intro z3 along3
        rw [inv2.represents.head, Protocol.wp_bind]
        have first := wp_reads (x := z3) used 0 4 pop rfl inv2 front
          (by rw [frame_length, frameLen]; omega) along3
        rw [Nat.add_zero] at first
        refine Protocol.wp_mono ?_ first
        rintro r1 x1 y1 ⟨rfl, along4⟩
        have member : m ∈ pushed z2.log := by
          have inUnread : m ∈ (queueOf z2.log).unread := by
            rw [front]
            exact List.mem_cons_self
          exact List.mem_of_mem_drop inUnread
        have room := inv2.represents.room
        rw [Fifo.queued, front, Fifo.total_cons, frameLen] at room
        have bound : 2 ^ k < 2 ^ w := Nat.pow_lt_pow_right (by decide) used.small
        have size : (BitVec.ofNat w m.length).toNat = m.length := by
          rw [BitVec.toNat_ofNat]
          exact Nat.mod_eq_of_lt (by omega)
        rw [List.drop_zero]
        dsimp only
        rw [frame_header (inv2.short m member), size, Protocol.wp_bind]
        have second := wp_reads (x := x1) used 4 m.length pop rfl inv2 front
          (by rw [frame_length, frameLen]) along4
        rw [BitVec.ofNat_add] at second
        refine Protocol.wp_mono ?_ second
        rintro r2 x2 y2 ⟨rfl, along5⟩
        dsimp only
        apply wp_place used along5
        intro z4 _ _ _
        exact ⟨⟨rfl, pop⟩, fun along6 => ⟨along6.placed, _, _, rfl⟩⟩

theorem wp_popWith {make : Message → PyResult PyValue} (pop : isPop c = true)
    (noPush : ∀ data, c ≠ .push data) (along : Along k .consumer a a) :
    (placedProtocol w k).wp sys .consumer n c
      ((do
        let found ← (do
          match ← popFrame .release with
          | none => return none
          | some payload => return some (← make payload) : RingM w (Option PyValue))
        return found.getD .none : RingM w PyValue).run)
      ((placedProtocol w k).Finish .consumer n c) x a := by
  simp only [Prog.run_bind, Prog.bind_assoc]
  rw [Protocol.wp_bind]
  refine Protocol.wp_mono ?_ (wp_popFrame used pop along)
  rintro (e | _ | m) x' y' ⟨placed, found⟩
  · cases found
  · have along' : Along k .consumer y' y' := ⟨placed, meanwhile_refl⟩
    exact along'.silent (silent_none noPush rfl)
  · have along' : Along k .consumer y' y' := ⟨placed, meanwhile_refl⟩
    have ends : ∀ r, (placedProtocol w k).Finish .consumer n c r x' y' := by
      intro r
      exact along'.finish ⟨fun said => absurd rfl said, fun _ => found⟩
    dsimp only
    cases make m with
    | error e => exact ends _
    | ok v => exact ends _

end Pop

section Observers

theorem wp_observed (along : Along k t a y) :
    (placedProtocol w k).wp sys t n c (Spsc.used (w := w)).run
      (fun _ _ y' => Along k t a y') x y := by
  simp only [Spsc.used, loadHead, loadTail, Prog.run_bind, Prog.run_access, Prog.run_pure,
    Prog.op_bind, Prog.ret_bind]
  apply wp_lookHead used along
  intro z1 _ _ along1
  apply wp_lookTail used along1
  intro z2 _ _ along2
  exact along2

theorem wp_observer (noPush : ∀ data, c ≠ .push data) (noPop : isPop c = false)
    (noAttach : ∀ handle mapping, c ≠ .spsc handle mapping) (along : Along k t a a) :
    (placedProtocol w k).wp sys t n c (ringCode .release views t c)
      ((placedProtocol w k).Finish t n c) x a := by
  -- whatever it answers, an observer moves no message
  have quit : ∀ {a x y : RingWorld w} {r : PyResult PyValue}, Along k t a y →
      (placedProtocol w k).Finish t n c r x y :=
    fun along => along.silent (silent_observer noPush noPop)
  cases c with
  | push data => exact absurd rfl (noPush data)
  | pop tag => cases noPop
  | popMixed schema => cases noPop
  | spsc handle mapping => exact absurd rfl (noAttach handle mapping)
  | used =>
      simp only [ringCode, Prog.run_bind, Prog.run_pure]
      rw [Protocol.wp_bind]
      refine Protocol.wp_mono ?_ (wp_observed used along)
      rintro (e | v) x' y' along <;> exact quit along
  | free =>
      simp only [ringCode, free, capacity, Prog.run_bind, Prog.run_access, Prog.run_pure,
        Prog.op_bind, Prog.ret_bind]
      apply wp_lookCapacity used along
      intro z along
      rw [Prog.bind_assoc, Protocol.wp_bind]
      refine Protocol.wp_mono ?_ (wp_observed used along)
      rintro (e | v) x' y' along <;> exact quit along
  | isEmpty =>
      simp only [ringCode, isEmpty, loadHead, loadTail, Prog.run_bind, Prog.run_access,
        Prog.run_pure, Prog.op_bind, Prog.ret_bind]
      apply wp_lookHead used along
      intro z1 _ _ along
      apply wp_lookTail used along
      intro z2 _ _ along
      exact quit along
  | isFull =>
      simp only [ringCode, isFull, capacity, Prog.run_bind, Prog.run_access, Prog.run_pure,
        Prog.op_bind, Prog.ret_bind]
      rw [Prog.bind_assoc, Protocol.wp_bind]
      refine Protocol.wp_mono ?_ (wp_observed used along)
      rintro (e | v) x' y' along
      · exact quit along
      · apply wp_lookCapacity used along
        intro z along
        exact quit along

end Observers

theorem placed_sound (noAttach : ∀ t handle mapping, ¬ sys.allowed t (.spsc handle mapping))
    (data : Nat → UInt8) :
    (placedProtocol w k).Sound sys ⟨0, 0, BitVec.ofNat w (2 ^ k), data⟩ where
  known _ reach := (sound used data).inv reach
  init := recorded_nil
  idle _ := trivial
  call t c world may inv _ _ := by
    have begun : Along k t (world.push (.invoke t world.log.length c))
        (world.push (.invoke t world.log.length c)) :=
      ⟨recorded_snoc.mpr ⟨inv, trivial⟩, meanwhile_refl⟩
    rw [used.code]
    have role := used.role t c may
    cases c with
    | push data =>
        cases t with
        | producer => exact wp_push used role begun
        | _ => cases role
    | pop tag =>
        cases t with
        | consumer => exact wp_popWith used rfl (by simp) begun
        | _ => cases role
    | popMixed schema =>
        cases t with
        | consumer => exact wp_popWith used rfl (by simp) begun
        | _ => cases role
    | spsc handle mapping => exact absurd may (noAttach t handle mapping)
    | _ => exact wp_observer used (by simp) rfl (by simp) begun

end Rules
end Membridge.SpscPositions
