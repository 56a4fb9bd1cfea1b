import Membridge.WeakProtocol

/-!
Every call of `src/spsc.rs` keeps to the weak protocol: the producer writes where the
head it saw leaves room, the consumer reads what the tail it saw has published.
-/
namespace Membridge.WeakCalls
open Program Interleaving RelyGuarantee HappensBefore WeakMemory Python Spsc Queue SpscQueue
open ByteOrder CyclicBuffer Arithmetic SpscProtocol SpscInvariant SpscSound SpscDelivery
open SpscObservers SpscRaces
open WeakRing WeakProtocol

variable {k : Nat} [Target] {t : Party} {n : Nat} {c : RingCall} {a x y z : WeakWorld}
  {views : Party → SpscRingBuffer}

section Push
variable {data : PyValue} {m : Message} {limit : Nat}

/-- The producer between two bytes of a frame: `done` lies behind what is published, and `limit`
is as far as it may go. -/
structure Writing (k : Nat) (a : WeakWorld) (limit : Nat) (done : List UInt8)
    (y : WeakWorld) : Prop where
  inv : WeakInv k y
  quiet : Meanwhile .producer a.log y.log
  filled : Filled k y.mem (stop a.log + done.length)
  stores : Stores k y.mem (stop a.log) done
  free : limit ≤ upTo (pushed a.log) (y.mem.knows .producer .head) + 2 ^ k

theorem Writing.env {done : List UInt8} (writing : Writing k a limit done y)
    (env : (weakProtocol k).Env .producer y z) : Writing k a limit done z := by
  have slots : ∀ q, z.mem.writes (place k q) = y.mem.writes (place k q) := fun q => env.rely.2 rfl _
  refine ⟨env.inv, meanwhile_trans writing.quiet (others_meanwhile env.others), ?_, ?_, ?_⟩
  · intro q
    rw [slots]
    exact writing.filled q
  · intro i inside
    obtain ⟨x, found, value⟩ := writing.stores i inside
    exact ⟨x, by rw [slots]; exact found, value⟩
  · rw [env.rely.1]
    exact writing.free

theorem Writing.step {done : List UInt8} (writing : Writing k a limit done z)
    (n : Nat) (c : RingCall)
    (byte : UInt8) (room : stop a.log + done.length < limit) :
    let slot := (stop a.log + done.length) % 2 ^ k
    let y : WeakWorld := ⟨z.mem.write .producer (.slot slot) .write byte,
      z.log ++ [.access .producer n c (.writeByte slot byte) ()]⟩
    Writing k a limit (done ++ [byte]) y ∧ (weakProtocol k).Commit .producer z y := by
  intro slot y
  obtain ⟨n', carries⟩ := writing.inv.carries
  obtain rfl := carries.filled.unique writing.filled
  have same : pushed z.log = pushed a.log := meanwhile_pushed_of writing.quiet rfl
  have bound := writing.free
  rw [← same] at bound
  obtain ⟨after, stored⟩ := carries.put byte (by omega)
  have inv : WeakInv k y := writing.inv.silent (silent_access _ _) trivial ⟨_, after⟩
  constructor
  · refine ⟨inv, meanwhile_trans writing.quiet meanwhile_access, ?_, ?_, ?_⟩
    · rw [List.length_append, List.length_singleton, ← Nat.add_assoc]
      exact after.filled
    · rw [stores_append]
      refine ⟨writing.stores.write, ?_⟩
      intro i inside
      have first : i = 0 := by simpa using inside
      subst first
      exact stored
    · change limit ≤ upTo _ ((z.mem.write ..).knows .producer .head) + _
      rw [write_knows, Function.update_of_ne (by simp)]
      exact writing.free
  · intro _
    exact ⟨inv, fun u other => ⟨write_others other, fun own => absurd own other⟩⟩

/-- `write_bytes`, byte by byte: each goes behind what was written before it. -/
theorem wp_writeFrom {bytes done : List UInt8} {base i : Nat} (small : k < 64)
    (length : done.length = base + i) (room : stop a.log + (done.length + bytes.length) ≤ limit)
    (writing : Writing k a limit done y) (commit : (weakProtocol k).Commit .producer x y) :
    (weakProtocol k).wp (weakSystem views) .producer n c
      (writeFrom .release (BitVec.ofNat 64 (stop a.log + base))
        (BitVec.ofNat 64 (2 ^ k) - 1) i bytes).run
      (fun r x' y' => r = .ok () ∧ Writing k a limit (done ++ bytes) y' ∧
        (weakProtocol k).Commit .producer x' y') x y := by
  induction bytes generalizing done i x y with
  | nil =>
      refine ⟨rfl, ?_, commit⟩
      rwa [List.append_nil]
  | cons byte rest ih =>
      rw [List.length_cons] at room
      simp only [writeFrom, Build.plus, writeByte, Prog.run_bind, Prog.run_pure, Prog.ret_bind,
        Prog.run_access, Prog.op_bind]
      apply Protocol.wp_op commit
      rintro z env - _ _ rfl
      rw [slot_toNat small, Nat.add_assoc, ← length]
      obtain ⟨writing, commit⟩ := (writing.env env).step n c byte (by omega)
      have tail := ih (i := i + 1)
        (by rw [List.length_append, List.length_singleton]; omega)
        (by rw [List.length_append, List.length_singleton]; omega) writing commit
      rw [List.append_assoc, List.singleton_append] at tail
      exact tail

theorem wp_writeBytes (views : Party → SpscRingBuffer) (src : List UInt8) {done : List UInt8}
    (small : k < 64) (room : stop a.log + (done.length + src.length) ≤ limit)
    (writing : Writing k a limit done y) (commit : (weakProtocol k).Commit .producer x y) :
    (weakProtocol k).wp (weakSystem views) .producer n c
      (writeBytes .release (BitVec.ofNat 64 (stop a.log + done.length)) src
        (BitVec.ofNat 64 (2 ^ k))).run
      (fun r x' y' => r = .ok () ∧ Writing k a limit (done ++ src) y' ∧
        (weakProtocol k).Commit .producer x' y') x y := by
  simp only [writeBytes, Build.minus, Prog.run_bind, Prog.run_pure, Prog.ret_bind]
  exact wp_writeFrom small rfl room writing commit

/-- From the space check on: the frame is written behind the tail, then published. -/
theorem wp_publish (small : k < 64) (payload : pushPayload data = .ok m) (short : m.length < 2 ^ 32)
    (answer : ∀ pre, Meanwhile .producer a.log pre → PushTold k pre data (.ok (.bool true)))
    (writing : Writing k a (stop a.log + frameLen m) [] y)
    (commit : (weakProtocol k).Commit .producer x y) :
    (weakProtocol k).wp (weakSystem views) .producer n (.push data)
      ((do
        writeBytes .release (BitVec.ofNat 64 (stop a.log)) (toNeBytes 4 (m.length % 2 ^ 32))
          (BitVec.ofNat 64 (2 ^ k))
        let body ← pure (BitVec.ofNat 64 (stop a.log) + 4)
        writeBytes .release body m (BitVec.ofNat 64 (2 ^ k))
        storeTail (BitVec.ofNat 64 (stop a.log) + BitVec.ofNat 64 (4 + m.length))
        pure true : RingM 64 Bool).run)
      (fun r x' y' => r = .ok true ∧
        (weakProtocol k).Finish .producer n (.push data) (.ok (.bool true)) x' y') x y := by
  have prefixLen : (toNeBytes 4 (m.length % 2 ^ 32)).length = 4 := by simp
  simp only [Prog.run_bind, Prog.run_pure, Prog.ret_bind, storeTail, Prog.run_access, Prog.op_bind]
  rw [Protocol.wp_bind]
  -- the length prefix, then the payload right behind it
  refine Protocol.wp_mono ?_ (wp_writeBytes views (toNeBytes 4 (m.length % 2 ^ 32)) small
    (by rw [prefixLen, List.length_nil, frameLen]; omega) writing commit)
  rintro r1 x1 y1 ⟨rfl, writing1, commit1⟩
  rw [List.nil_append] at writing1
  dsimp only
  rw [Protocol.wp_bind]
  have next := wp_writeBytes (n := n) (c := .push data) views m small
    (by rw [prefixLen, frameLen]) writing1 commit1
  rw [prefixLen, BitVec.ofNat_add] at next
  refine Protocol.wp_mono ?_ next
  rintro r2 x2 y2 ⟨rfl, writing2, commit2⟩
  -- the store of the tail is what publishes the frame
  apply Protocol.wp_op commit2
  rintro z env - _ _ rfl
  obtain ⟨inv, quiet, filled, stores, -⟩ := writing2.env env
  have same : pushed z.log = pushed a.log := meanwhile_pushed_of quiet rfl
  obtain ⟨n', carries⟩ := inv.carries
  obtain rfl := carries.filled.unique filled
  have ends : stop z.log = stop a.log := by rw [stop, stop, same]
  have frame_eq : toNeBytes 4 (m.length % 2 ^ 32) ++ m = frame m := rfl
  rw [frame_eq, ← ends] at stores
  rw [frame_eq, frame_length, ← ends] at carries
  have after := carries.publish (c := .push data) rfl stores rfl
  rw [BitVec.ofNat_add, frameLen, ends] at after
  have silent : Silent (.access .producer n (.push data)
      (.storeTail (BitVec.ofNat 64 (stop a.log) + BitVec.ofNat 64 (4 + m.length))) () :
        RingEvent 64) :=
    silent_access _ _
  have logged : WeakInv k (⟨z.mem, z.log ++ [.access .producer n (.push data)
      (.storeTail (BitVec.ofNat 64 (stop a.log) + BitVec.ofNat 64 (4 + m.length))) ()]⟩ :
        WeakWorld) :=
    inv.silent silent trivial inv.carries
  have done :=
    logged.publish (n := n) payload short (answer _ (meanwhile_trans quiet meanwhile_access))
    ⟨_, by rw [pushed_silent silent, pops_silent silent]; exact after⟩
  refine ⟨rfl, fun _ => ⟨done, fun u other => ⟨write_others other, fun own => absurd own other⟩⟩,
    ?_⟩
  intro _
  constructor
  · have found : published (.finish .producer n (.push data) (.ok (.bool true)) : RingEvent 64) =
        some m := by simp [published, payload, Except.toOption]
    rw [World.push_log, pushed_snoc, pushed_silent silent, found,
      Option.toList_some, List.length_append,
      List.length_singleton, upTo_snoc]
    have filled := after.filled
    rw [← ends] at filled
    exact filled
  · intro f member
    simp [credits, creditStep] at member

section Answers
variable {pre : RingLog 64}

theorem pushTold_refused {e : PyErr} (payload : pushPayload data = .error e) :
    PushTold k pre data (.error e) := by
  constructor
  · intro e' same
    rw [payload] at same
    cases same
    rfl
  all_goals
    intro m same
    rw [payload] at same
    cases same

theorem pushTold_oversize {e : PyErr} (payload : pushPayload data = .ok m)
    (large : 2 ^ k < frameLen m) :
    PushTold k pre data (.error e) := by
  constructor
  · intro e' same
    rw [payload] at same
    cases same
  · intro m' _ _
    exact ⟨e, rfl⟩
  all_goals
    intro m' same
    rw [payload] at same
    cases same
    intro fits
    omega

/-- The check of a push that saw the head after `i` messages. -/
theorem pushTold_checked {i : Nat} (payload : pushPayload data = .ok m) (fits : frameLen m ≤ 2 ^ k)
    (known : Remembers k a .producer) (fresh : a.mem.knows .producer .head ≤ i)
    (inside : i ≤ (pops pre).length) (quiet : Meanwhile .producer a.log pre) :
    PushTold k pre data (.ok (.bool
      (decide (Fifo.total frameLen ((pushed pre).drop i) + frameLen m ≤ 2 ^ k)))) := by
  constructor
  · intro e same
    rw [payload] at same
    cases same
  · intro m' same large
    rw [payload] at same
    cases same
    omega
  · intro m' same _
    rw [payload] at same
    cases same
    exact ⟨i, inside, rfl⟩
  · intro m' same _ f member enough
    rw [payload] at same
    cases same
    rw [meanwhile_credits quiet rfl] at member
    have room := known.2 f member
    have later := upTo_mono (pushed a.log) fresh
    have rest := upTo_drop (pushed a.log) i
    rw [meanwhile_pushed_of quiet rfl, decide_eq_true (by omega)]

end Answers

theorem wp_push (small : k < 64) (may : observing .producer (.push data) = true)
    (known : Remembers k a .producer) (here : At k .producer a x a) :
    (weakProtocol k).wp (weakSystem views) .producer n (.push data)
      (ringCode .release views .producer (.push data))
      ((weakProtocol k).Finish .producer n (.push data)) x a := by
  simp only [ringCode, push, Prog.run_bind, Prog.run_pure]
  cases payload : pushPayload data with
  | error e =>
      simp only [Prog.run_error, Prog.ret_bind, Protocol.wp_ret]
      exact finish_silent known here (silent_push data _ (by simp)) (pushTold_refused payload)
        (by simp) (by simp)
  | ok m =>
      simp only [Prog.run_ok, Prog.ret_bind, capacity, Prog.run_access, Prog.op_bind]
      apply wp_loadCapacity here
      intro z0 y0 here0
      rw [capacity_toNat small]
      by_cases large : 4 + m.length > 2 ^ k
      · simp only [if_pos large, Prog.run_throw, Prog.ret_bind, Protocol.wp_ret]
        exact finish_silent known here0 (silent_push data _ (by simp))
          (pushTold_oversize payload large)
          (by simp) (by simp)
      · simp only [if_neg large, loadHead, loadTail, Prog.run_bind, Prog.run_access, Prog.op_bind,
          Prog.ret_bind, Build.plus, Prog.run_pure]
        apply wp_loads (.inl rfl) here0
        intro i j x1 s here1 seen
        have fits : frameLen m ≤ 2 ^ k := by
          unfold frameLen
          omega
        obtain ⟨short, wide⟩ := shortPayload_fits small may m payload fits
        obtain ⟨own, close⟩ := seen.producer here.1.inv here1.1
        obtain ⟨_, carries⟩ := here1.1.inv.carries
        have rest := upTo_drop (pushed s.log) i
        have queued : Fifo.total frameLen ((pushed s.log).drop i) ≤ 2 ^ k := by omega
        have answer : ∀ pre, Meanwhile .producer s.log pre → PushTold k pre data (.ok (.bool
            (decide (Fifo.total frameLen ((pushed s.log).drop i) + (4 + m.length) ≤ 2 ^ k)))) := by
          intro pre quiet
          have more := ((meanwhile_early quiet).filterMap (delivery (w := 64))).length_le
          rw [← meanwhile_pushed_of quiet rfl]
          exact pushTold_checked payload fits known seen.fresh (Nat.le_trans seen.taken more)
            (meanwhile_trans here1.1.quiet quiet)
        -- what is queued up to that head
        have needed : BitVec.ofNat 64 (stop s.log) - BitVec.ofNat 64 (upTo (pushed s.log) i) +
            BitVec.ofNat 64 (4 + m.length) > BitVec.ofNat 64 (2 ^ k) ↔
            ¬ Fifo.total frameLen ((pushed s.log).drop i) + (4 + m.length) ≤ 2 ^ k :=
          space_check (q := ⟨pushed s.log, i, Nat.le_trans seen.taken carries.taken_le⟩) small rfl
            (by rw [stop, upTo, List.take_length, Fifo.stop]) queued wide
        rw [own]
        by_cases full : Fifo.total frameLen ((pushed s.log).drop i) + (4 + m.length) ≤ 2 ^ k
        · rw [if_neg (by rwa [needed, not_not]), Protocol.wp_bind]
          rw [decide_eq_true full] at answer
          have later := upTo_mono (pushed s.log) seen.head
          refine Protocol.wp_mono ?_ (wp_publish small payload short answer
            ⟨here1.1.inv, meanwhile_refl, (here1.1.remembers known).1, stores_nil, ?_⟩ here1.2)
          · rintro r x' y' ⟨rfl, done⟩
            exact done
          · rw [stop, frameLen]
            omega
        · rw [if_pos (needed.mpr full)]
          simp only [Prog.run_pure, Prog.ret_bind, Protocol.wp_ret]
          rw [decide_eq_false full] at answer
          exact finish_silent known here1 (silent_push data _ (by simp)) (answer _ meanwhile_refl)
            (by simp) (by simp)

end Push

section Pop
variable {s : WeakWorld} {m : Message}

/-- `read_bytes` over the front frame. -/
theorem wp_readFrom {base i count : Nat} (small : k < 64) (front : Front m s)
    (inside : base + i + count ≤ (frame m).length) (here : At k .consumer s x y) :
    (weakProtocol k).wp (weakSystem views) .consumer n c
      (readFrom .release (BitVec.ofNat 64 (start s.log + base))
        (BitVec.ofNat 64 (2 ^ k) - 1) i count).run
      (fun r x' y' => r = .ok (((frame m).drop (base + i)).take count) ∧
        At k .consumer s x' y') x y := by
  induction count generalizing i x y with
  | zero => exact ⟨by rw [List.take_zero], here⟩
  | succ count ih =>
      simp only [readFrom, Build.plus, readByte, Prog.run_bind, Prog.run_pure, Prog.ret_bind,
        Prog.run_access, Prog.op_bind]
      apply Protocol.wp_op here.2
      rintro z env - b after reads
      have since := here.1.env env
      obtain ⟨now, starts⟩ := since.front front
      obtain ⟨_, carries⟩ := since.inv.carries
      have inFrame : base + i < (frame m).length := by omega
      have slot : ((BitVec.ofNat 64 (start s.log + base) + BitVec.ofNat 64 i) &&&
          (BitVec.ofNat 64 (2 ^ k) - 1)).toNat = (start z.log + (base + i)) % 2 ^ k := by
        rw [slot_toNat small, Nat.add_assoc, starts]
      rw [slot] at reads ⊢
      obtain ⟨j, w, learns⟩ := Reads.learns carries.sane reads
      -- the byte lies before the tail the consumer knows of
      have ends : upTo (pushed z.log) ((pops z.log).length + 1) = start z.log + frameLen m :=
        upTo_next now.found
      have known : upTo (pushed z.log) ((pops z.log).length + 1) ≤
          upTo (pushed z.log) (z.mem.knows .consumer .tail) := upTo_mono _ now.more
      rw [frame_length] at inFrame
      have byte := (carries.byte learns (Nat.le_add_right _ _) (by omega)).2
      have told : ByteTold k z.log ((start z.log + (base + i)) % 2 ^ k) b :=
        ⟨_, rfl, Nat.le_add_right _ _, byte⟩
      rw [← frame_length] at inFrame
      rw [stream_at now.found inFrame, List.getElem?_eq_getElem inFrame, Option.some.injEq] at byte
      rw [Protocol.wp_bind]
      refine Protocol.wp_mono ?_ (ih (i := i + 1) (by omega) (since.learn learns (by simp) told))
      rintro r x' y' ⟨rfl, here⟩
      refine ⟨?_, here⟩
      rw [List.drop_eq_getElem_cons inFrame, List.take_succ_cons, byte]
      rfl

theorem wp_readBytes (views : Party → SpscRingBuffer) (base count : Nat) (small : k < 64)
    (front : Front m s) (inside : base + count ≤ (frame m).length) (here : At k .consumer s x y) :
    (weakProtocol k).wp (weakSystem views) .consumer n c
      (readBytes .release (BitVec.ofNat 64 (start s.log + base)) count
        (BitVec.ofNat 64 (2 ^ k))).run
      (fun r x' y' => r = .ok (((frame m).drop base).take count) ∧ At k .consumer s x' y') x y := by
  simp only [readBytes, Build.minus, Prog.run_bind, Prog.run_pure, Prog.ret_bind]
  exact wp_readFrom small (i := 0) front inside here

theorem told_pop {pre : RingLog 64} {r : PyResult PyValue}
    (promised : sawMessage pre = true → isNone r = false) :
    Told k pre (.finish .consumer n c r) := by
  cases c <;> exact fun _ => promised

/-- What a pop finds: nothing it knows of, or the front message, then consumed. -/
theorem wp_popFrame (small : k < 64) (pop : isPop c = true) (noPush : ∀ data, c ≠ .push data)
    (before : WeakInv k a) (known : Remembers k a .consumer) (here : At k .consumer a x y) :
    (weakProtocol k).wp (weakSystem views) .consumer n c (popFrame .release).run
      (fun r x' y' => match r with
        | .ok none => (weakProtocol k).Finish .consumer n c (.ok .none) x' y'
        | .ok (some m) => (weakProtocol k).Finish .consumer n c (outcome c m) x' y'
        | .error _ => False) x y := by
  simp only [popFrame, loadHead, loadTail, capacity, storeHead, Build.plus, Prog.run_bind,
    Prog.run_access, Prog.op_bind, Prog.ret_bind]
  apply wp_loads (.inr (acquired_tail noPush)) here
  intro i j x1 s here1 seen
  obtain ⟨own, ahead, close⟩ := seen.consumer before here1.1
  have order := upTo_mono (pushed s.log) ahead
  have bound : 2 ^ k < 2 ^ 64 := Nat.pow_lt_pow_right (by decide) small
  by_cases empty : BitVec.ofNat 64 (upTo (pushed s.log) i) = BitVec.ofNat 64 (upTo (pushed s.log) j)
  · rw [if_pos empty]
    refine finish_silent known here1 (silent_none noPush rfl) (told_pop ?_) (by simp) ?_
    · -- the consumer would know of the message that `is_empty` told it of
      intro saw
      have more := here1.1.remembers known saw
      rw [seen.tail, ← own] at more
      have apart := upTo_lt more seen.published
      have same := (word_eq_iff order (by omega)).mp empty
      omega
    · rintro - rfl
      cases pop
  · rw [if_neg empty]
    have more : (pops s.log).length < j := by
      by_contra none
      exact empty (by rw [Nat.le_antisymm ahead (by omega)])
    rw [own]
    obtain ⟨m, found⟩ : ∃ m, (pushed s.log)[(pops s.log).length]? = some m :=
      ⟨_, List.getElem?_eq_getElem (Nat.lt_of_lt_of_le more seen.published)⟩
    have front : Front m s := ⟨found, by rwa [seen.tail]⟩
    simp only [Prog.run_bind, Prog.run_access, Prog.run_pure, Prog.op_bind, Prog.ret_bind]
    apply wp_loadCapacity ⟨since_refl here1.1.inv, here1.2⟩
    intro z3 y3 here3
    rw [Protocol.wp_bind]
    have first := wp_readBytes (n := n) (c := c) views 0 4 small front
      (by rw [frame_length, frameLen]; omega) here3
    rw [Nat.add_zero] at first
    refine Protocol.wp_mono ?_ first
    rintro r x1 y1 ⟨rfl, here4⟩
    have short := here1.1.inv.short m (List.mem_of_getElem? front.found)
    have size : (BitVec.ofNat 64 m.length).toNat = m.length := by
      rw [BitVec.toNat_ofNat]
      exact Nat.mod_eq_of_lt (by omega)
    rw [List.drop_zero]
    dsimp only
    -- the first four bytes are the length of the front message
    rw [frame_header short, size, Protocol.wp_bind]
    have second := wp_readBytes (n := n) (c := c) views 4 m.length small front
      (by rw [frame_length, frameLen]) here4
    rw [BitVec.ofNat_add] at second
    refine Protocol.wp_mono ?_ second
    rintro r x2 y2 ⟨rfl, here5⟩
    rw [frame_payload]
    dsimp only
    apply Protocol.wp_op here5.2
    rintro z4 env - _ _ rfl
    have since4 := here5.1.env env
    obtain ⟨now, starts⟩ := since4.front front
    obtain ⟨n', carries4⟩ := since4.inv.carries
    have after := carries4.advance now.more (releases_pop pop)
    rw [upTo_next now.found, frameLen, BitVec.ofNat_add, BitVec.ofNat_add] at after
    have silent : Silent (.access .consumer n c (.storeHead (BitVec.ofNat 64 (start s.log) +
        (4 + BitVec.ofNat 64 m.length))) () : RingEvent 64) := silent_access _ _
    have logged : WeakInv k (⟨z4.mem, z4.log ++ [.access .consumer n c (.storeHead
        (BitVec.ofNat 64 (start s.log) + (4 + BitVec.ofNat 64 m.length))) ()]⟩ : WeakWorld) :=
      since4.inv.silent silent trivial since4.inv.carries
    have done := logged.take (n := n) (z4.mem.write .consumer .head (storesIndex c)
      (BitVec.ofNat 64 (start s.log) + (4 + BitVec.ofNat 64 m.length)))
      (by rw [pushed_silent silent, pops_silent silent]; exact now.found) pop rfl (outcome_some pop)
      ⟨n', by rw [pushed_silent silent, pops_silent silent, ← starts]; exact after⟩
    refine ⟨fun _ =>
      ⟨done, fun u other => ⟨write_others other, fun _ q => write_elsewhere (by simp)⟩⟩, ?_⟩
    intro _ saw
    change sawMessage (_ ++ [_]) = true at saw
    rw [forgets_pop pop] at saw
    cases saw

/-- `pop` and `pop_mixed` differ in what they make of the payload. -/
theorem wp_popWith {make : Message → PyResult PyValue} (small : k < 64) (pop : isPop c = true)
    (noPush : ∀ data, c ≠ .push data) (agree : ∀ m, outcome c m = make m)
    (known : Remembers k a .consumer) (here : At k .consumer a x a) :
    (weakProtocol k).wp (weakSystem views) .consumer n c
      ((do
        let found ← (do
          match ← popFrame .release with
          | none => return none
          | some payload => return some (← make payload) : RingM 64 (Option PyValue))
        return found.getD .none : RingM 64 PyValue).run)
      ((weakProtocol k).Finish .consumer n c) x a := by
  simp only [Prog.run_bind, Prog.bind_assoc]
  rw [Protocol.wp_bind]
  refine Protocol.wp_mono ?_ (wp_popFrame small pop noPush here.1.inv known here)
  rintro (e | _ | m) x' y' done
  · cases done
  · exact done
  · dsimp only at done ⊢
    rw [agree] at done
    cases made : make m with
    | error e =>
        rw [made] at done
        exact done
    | ok v =>
        rw [made] at done
        exact done

end Pop

section Observers

/-- Nothing is asked of the answers of `used`, `is_empty` and `is_full`. -/
theorem told_observer {pre : RingLog 64} {r : PyResult PyValue} (noPush : ∀ data, c ≠ .push data)
    (noPop : isPop c = false) (noFree : c ≠ .free) : Told k pre (.finish t n c r) := by
  cases t with
  | producer =>
      cases c with
      | push data => exact absurd rfl (noPush data)
      | free => exact absurd rfl noFree
      | _ => trivial
  | consumer =>
      have notNone : isPop c = true → sawMessage pre = true → isNone r = false := by simp [noPop]
      cases c <;> exact notNone
  | third n => trivial

/-- A call that moves no message and tells neither side what it remembers. -/
theorem finish_plain {r : PyResult PyValue} (known : Remembers k a t)
    (noPush : ∀ data, c ≠ .push data) (noPop : isPop c = false) (noFree : c ≠ .free)
    (noEmpty : c ≠ .isEmpty) (ends : At k t a x y) :
    (weakProtocol k).Finish t n c r x y := by
  apply finish_silent known ends (silent_observer noPush noPop) (told_observer noPush noPop noFree)
  · exact fun _ _ same => absurd same noFree
  · exact fun _ same => absurd same noEmpty

variable (known : Remembers k a t) (here : At k t a x a)
include known here

theorem wp_usedCall :
    (weakProtocol k).wp (weakSystem views) t n .used (ringCode .release views t .used)
      ((weakProtocol k).Finish t n .used) x a := by
  simp only [ringCode, Spsc.used, loadHead, loadTail, Prog.run_bind, Prog.run_access, Prog.run_pure,
    Prog.op_bind, Prog.ret_bind]
  apply wp_loads (.inr rfl) here
  intro i j x' y' ends seen
  exact finish_plain known (by simp) rfl (by simp) (by simp) ends

theorem wp_free (small : k < 64) :
    (weakProtocol k).wp (weakSystem views) t n .free (ringCode .release views t .free)
      ((weakProtocol k).Finish t n .free) x a := by
  simp only [ringCode, free, Spsc.used, capacity, loadHead, loadTail,
    Prog.run_bind, Prog.run_access,
    Prog.run_pure, Prog.op_bind, Prog.ret_bind]
  apply wp_loadCapacity here
  intro z0 y0 here0
  apply wp_loads (.inr rfl) here0
  intro i j x' y' ends seen
  have cap := capacity_toNat small
  refine finish_silent known ends (silent_observer (by simp) rfl) ?_ ?_ (by simp)
  · cases t with
    | consumer =>
        intro pop
        cases pop
    | producer =>
        intro f result
        cases result
        rw [Int.toNat_natCast]
        split
        · exact Nat.zero_le _
        · next less =>
            rw [BitVec.toNat_sub_of_le (BitVec.not_lt.mp less), cap]
            exact Nat.sub_le _ _
    | third n => trivial
  · intro f own _ result
    subst own
    obtain ⟨newest, close⟩ := seen.producer here.1.inv ends.1
    have bound : 2 ^ k < 2 ^ 64 := Nat.pow_lt_pow_right (by decide) small
    obtain ⟨_, carries⟩ := ends.1.inv.carries
    have order := upTo_mono (pushed y'.log) (Nat.le_trans seen.taken carries.taken_le)
    have later := upTo_mono (pushed y'.log) seen.head
    subst newest
    have distance := distance_toNat (w := 64) order (by omega)
    rw [if_neg (by rw [BitVec.lt_def, cap, distance]; omega), word,
      BitVec.toNat_sub_of_le (by rw [BitVec.le_def, cap, distance]; omega), cap, distance] at result
    cases result
    rw [Int.toNat_natCast]
    omega

theorem wp_isEmpty :
    (weakProtocol k).wp (weakSystem views) t n .isEmpty (ringCode .release views t .isEmpty)
      ((weakProtocol k).Finish t n .isEmpty) x a := by
  simp only [ringCode, isEmpty, loadHead, loadTail, Prog.run_bind, Prog.run_access, Prog.run_pure,
    Prog.op_bind, Prog.ret_bind]
  apply wp_loads (.inr rfl) here
  intro i j x' y' ends seen
  apply finish_silent known ends (silent_observer (by simp) rfl)
    (told_observer (by simp) rfl (by simp))
    (by simp)
  intro own _ result
  subst own
  obtain ⟨newest, ahead, -⟩ := seen.consumer here.1.inv ends.1
  rw [seen.tail]
  by_contra none
  have same : i = j := by omega
  simp [same] at result

theorem wp_isFull :
    (weakProtocol k).wp (weakSystem views) t n .isFull (ringCode .release views t .isFull)
      ((weakProtocol k).Finish t n .isFull) x a := by
  simp only [ringCode, isFull, Spsc.used, capacity, loadHead,
    loadTail, Prog.run_bind, Prog.run_access,
    Prog.run_pure, Prog.op_bind, Prog.ret_bind]
  apply wp_loads (.inr rfl) here
  intro i j x1 y1 here1 seen
  apply wp_loadCapacity here1
  intro x' y' ends
  exact finish_plain known (by simp) rfl (by simp) (by simp) ends

end Observers

end Membridge.WeakCalls
