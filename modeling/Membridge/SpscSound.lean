import Membridge.Decoding
import Membridge.SpscCalls

/-!
Every ring call answers as the queue demands and leaves the ring fit for the
next one; so the invariant holds in every reachable state.
-/
namespace Membridge.SpscSound
open Program Interleaving RelyGuarantee Python Spsc Queue SpscQueue CyclicBuffer ByteOrder
open ByteReader Mixed Decoding SpscProtocol SpscInvariant SpscCalls Arithmetic

variable {w k : Nat} [Target]
variable {t : Party} {n : Nat} {c : RingCall} {a x y z : RingWorld w}

theorem invoked (inv : RingInv k a) :
    At k t (a.push (.invoke t n c)) a (a.push (.invoke t n c)) := by
  have after : RingInv k (a.push (.invoke t n c)) :=
    inv.silent silent_invoke trivial inv.represents
  exact ⟨since_refl after, fun _ => ⟨after, fun _ _ _ => rfl⟩⟩

theorem remembers_invoke {log : RingLog w} (known : Remembers k log t) :
    Remembers k (log ++ [.invoke t n c]) t := by
  have queue : queueOf (log ++ [.invoke t n c]) = queueOf log := queueOf_silent silent_invoke
  cases t with
  | producer =>
      intro f member
      rw [queue]
      exact known f (by simpa [credits, creditStep] using member)
  | consumer =>
      intro saw
      rw [queue]
      exact known (by simpa [sawMessage, sawStep] using saw)
  | third n => trivial

omit [Target] in
theorem credits_finish (log : RingLog w) (r : PyResult PyValue) :
    credits (log ++ [.finish t n c r]) = credits log ∨
      credits (log ++ [.finish t n c r]) = [] ∨
      ∃ f, t = .producer ∧ c = .free ∧ r = .ok (.int f) ∧
        credits (log ++ [.finish t n c r]) = f.toNat :: credits log := by
  simp only [credits, List.foldl_append, List.foldl_cons, List.foldl_nil, creditStep]
  split
  · exact .inr (.inl rfl)
  · next same =>
      cases same
      exact .inr (.inr ⟨_, rfl, rfl, rfl, rfl⟩)
  · exact .inl rfl

omit [Target] in
theorem sawMessage_finish (log : RingLog w) (r : PyResult PyValue)
    (saw : sawMessage (log ++ [.finish t n c r]) = true) :
    sawMessage log = true ∨ t = .consumer ∧ c = .isEmpty ∧ r = .ok (.bool false) := by
  simp only [sawMessage, List.foldl_append, List.foldl_cons, List.foldl_nil, sawStep] at saw
  split at saw
  · cases saw
  · cases saw
  · next same =>
      cases same
      exact .inr ⟨rfl, rfl, rfl⟩
  · exact .inl saw

/-- A call that moved no message returns: what is remembered grows by its answer. -/
theorem finish_silent {r : PyResult PyValue} (before : RingInv k a) (known : Remembers k a.log t)
    (here : At k t a x y) (silent : Silent (.finish t n c r : RingEvent w))
    (answered : Answered k y.log (.finish t n c r))
    (free : ∀ f, t = .producer → c = .free → r = .ok (.int f) →
      (queueOf y.log).queued frameLen + f.toNat ≤ 2 ^ k)
    (empty : t = .consumer → c = .isEmpty → r = .ok (.bool false) → (queueOf y.log).unread ≠ []) :
    (ringProtocol w k).Finish t n c r x y := by
  have inv : RingInv k (y.push (.finish t n c r)) :=
    here.1.inv.silent silent answered here.1.inv.represents
  refine ⟨fun _ => ⟨inv, (here.2 trivial).2⟩, ?_⟩
  intro _
  have known := here.1.remembers before known
  change Remembers k (y.log ++ [_]) t
  -- only the producer remembers room, and only the consumer a message
  cases t with
  | producer =>
      intro f member
      rw [queueOf_silent silent]
      rcases credits_finish y.log r with same | nothing | ⟨g, own, call, result, grown⟩
      · rw [same] at member
        exact known f member
      · rw [nothing] at member
        cases member
      · rw [grown, List.mem_cons] at member
        rcases member with rfl | old
        · exact free g own call result
        · exact known f old
  | consumer =>
      intro saw
      rw [queueOf_silent silent]
      rcases sawMessage_finish y.log r saw with old | ⟨own, call, result⟩
      · exact known old
      · exact empty own call result
  | third n => trivial

section Push
variable {data : PyValue} {m : Message} {pre : RingLog w}

theorem pushAnswer_refused {e : PyErr} (payload : pushPayload data = .error e) :
    PushAnswer k pre n data (.error e) := by
  constructor
  · intro e' same
    rw [payload] at same
    cases same
    rfl
  all_goals
    intro m same
    rw [payload] at same
    cases same

theorem pushAnswer_oversize {e : PyErr} (payload : pushPayload data = .ok m)
    (large : 2 ^ k < frameLen m) : PushAnswer k pre n data (.error e) := by
  constructor
  · intro e' same
    rw [payload] at same
    cases same
  · intro m' _ _
    exact ⟨e, rfl⟩
  all_goals
    intro m' same
    rw [payload] at same
    cases same
    intro fits
    omega

/-- The space check of a push was made at its load of head, before `pre` went on. -/
theorem pushAnswer_checked (payload : pushPayload data = .ok m) (fits : frameLen m ≤ 2 ^ k)
    (known : Remembers k z.log .producer)
    (quiet : Meanwhile .producer (took .producer n (.push data) .loadHead z).log pre) :
    PushAnswer k pre n data
      (.ok (.bool (decide ((queueOf z.log).queued frameLen + frameLen m ≤ 2 ^ k)))) := by
  have first : Meanwhile .producer z.log (took .producer n (.push data) .loadHead z).log :=
    meanwhile_access
  have all := meanwhile_trans first quiet
  constructor
  · intro e same
    rw [payload] at same
    cases same
  · intro m' same large
    rw [payload] at same
    cases same
    omega
  · intro m' same _
    rw [payload] at same
    cases same
    obtain ⟨rest, cut⟩ := meanwhile_early quiet
    refine ⟨z.log, z.mem.head, rest, ?_, meanwhile_pushed_of all rfl, rfl⟩
    rw [← cut, took, List.append_assoc, List.singleton_append]
    rfl
  · intro m' same _ f member enough
    rw [payload] at same
    cases same
    rw [meanwhile_credits all rfl] at member
    have room := known f member
    rw [decide_eq_true (by omega)]

end Push

section Pop
variable {m : Message} {rest : List Message}

theorem popTyped_some {tag : Option String} : isNone (popTyped tag m) = false := by
  cases tag with
  | none => rfl
  | some t =>
      change isNone ((decode _ (unpackOne m.length t)).bind _) = false
      cases decoded : decode (fun i => m.getD i 0) (unpackOne m.length t) with
      | error e => rfl
      | ok pair =>
          have notNone := decode_unpackOne_some decoded
          obtain ⟨v, size⟩ := pair
          cases v <;> first | rfl | exact absurd rfl notNone

theorem popSchema_some {schema : List PyValue} : isNone (popSchema schema m) = false := by
  change isNone ((decode _ (unpackMixedCounted m.length schema)).bind _) = false
  cases decode (fun i => m.getD i 0) (unpackMixedCounted m.length schema) <;> rfl

theorem outcome_some (pop : isPop c = true) : isNone (outcome c m) = false := by
  cases c with
  | pop tag => exact popTyped_some
  | popMixed schema => exact popSchema_some
  | _ => cases pop

theorem answered_pop {pre : RingLog w} {r : PyResult PyValue} (pop : isPop c = true)
    (answer : PopAnswer pre n c r) : Answered k pre (.finish .consumer n c r) := by
  cases c with
  | pop tag => exact fun _ => answer
  | popMixed schema => exact fun _ => answer
  | _ => cases pop

omit [Target] in
theorem forgets_pop {pre : RingLog w} {r : PyResult PyValue} (pop : isPop c = true) :
    sawMessage (pre ++ [.finish .consumer n c r]) = false := by
  cases c with
  | pop tag => simp [sawMessage, sawStep]
  | popMixed schema => simp [sawMessage, sawStep]
  | _ => cases pop

/-- A pop that found head and tail equal returns `None`. -/
theorem finish_none (before : RingInv k a) (known : Remembers k a.log .consumer)
    (pop : isPop c = true) (noPush : ∀ data, c ≠ .push data) (since : Since k .consumer a z)
    (empty : (queueOf z.log).unread = []) :
    (ringProtocol w k).Finish .consumer n c (.ok .none) z (took .consumer n c .loadTail z) := by
  have here := since.took (n := n) (c := c) (o := .loadTail) rfl
  have remembered := since.remembers before known
  have known' := here.1.remembers before known
  refine finish_silent before known here (silent_none noPush rfl) (answered_pop pop ?_) ?_ ?_
  · constructor
    · intro _
      exact ⟨z.log, z.mem.tail, rfl, empty⟩
    · intro saw
      exact absurd (by rwa [took_queue]) (known' saw)
  · simp
  · simp

/-- Storing head hands the front message to the caller. -/
theorem finish_take (pop : isPop c = true) (since : Since k .consumer a z)
    (front : (queueOf z.log).unread = m :: rest) :
    (ringProtocol w k).Finish .consumer n c (outcome c m) z
      (took .consumer n c (.storeHead (z.mem.head + BitVec.ofNat w (frameLen m))) z) := by
  have logged : RingInv k (⟨z.mem, z.log ++ [.access .consumer n c
      (.storeHead (z.mem.head + BitVec.ofNat w (frameLen m))) ()]⟩ : RingWorld w) :=
    since.inv.access _ _
  have queue : queueOf (z.log ++ [.access .consumer n c
      (.storeHead (z.mem.head + BitVec.ofNat w (frameLen m))) ()]) = queueOf z.log :=
    queueOf_silent (silent_access _ _)
  have notNone : isNone (outcome c m) = false := outcome_some pop
  have taken := logged.take (by rw [queue]; exact front) pop rfl notNone
    (answered_pop (n := n) pop ⟨fun answeredNone => absurd answeredNone (by simp [notNone]),
      fun _ => notNone⟩)
  refine ⟨fun _ => ⟨taken, fun u _ _ => rfl⟩, ?_⟩
  intro _ saw
  change sawMessage (_ ++ [_]) = true at saw
  rw [forgets_pop pop] at saw
  cases saw

end Pop

section Calls
variable {views : Party → SpscRingBuffer} {sys : RingSystem w} (used : WellUsed k views sys)
include used

/-- From the space check on: the frame is written behind `tail`, then published. -/
theorem wp_publish {s : RingWorld w} {data : PyValue} {m : Message}
    (payload : pushPayload data = .ok m) (short : m.length < 2 ^ 32)
    (room : (queueOf s.log).queued frameLen + frameLen m ≤ 2 ^ k)
    (answer : ∀ pre, Meanwhile .producer s.log pre →
      PushAnswer k pre n data (.ok (.bool true)))
    (writing : Writing k s [] y) (commit : (ringProtocol w k).Commit .producer x y) :
    (ringProtocol w k).wp sys .producer n (.push data)
      ((do
        writeBytes .release (BitVec.ofNat w ((queueOf s.log).stop frameLen))
          (toNeBytes 4 (m.length % 2 ^ 32)) (BitVec.ofNat w (2 ^ k))
        let body ← pure (BitVec.ofNat w ((queueOf s.log).stop frameLen) + 4)
        writeBytes .release body m (BitVec.ofNat w (2 ^ k))
        storeTail (BitVec.ofNat w ((queueOf s.log).stop frameLen) + BitVec.ofNat w (4 + m.length))
        pure true : RingM w Bool).run)
      (fun r x' y' => r = .ok true ∧
        (ringProtocol w k).Finish .producer n (.push data) (.ok (.bool true)) x' y') x y := by
  have prefixLen : (toNeBytes 4 (m.length % 2 ^ 32)).length = 4 := by simp
  simp only [Prog.run_bind, Prog.run_pure, Prog.ret_bind, storeTail, Prog.run_access, Prog.op_bind]
  rw [Protocol.wp_bind]
  have space : (queueOf s.log).queued frameLen +
      (([] : List UInt8).length + (toNeBytes 4 (m.length % 2 ^ 32)).length) ≤ 2 ^ k := by
    rw [frameLen] at room
    rw [prefixLen, List.length_nil]
    omega
  -- the length prefix, then the payload right behind it
  refine Protocol.wp_mono ?_ (wp_writeBytes used space writing commit)
  rintro r1 x1 y1 ⟨rfl, writing1, commit1⟩
  rw [List.nil_append] at writing1
  dsimp only
  rw [Protocol.wp_bind]
  have space1 : (queueOf s.log).queued frameLen +
      ((toNeBytes 4 (m.length % 2 ^ 32)).length + m.length) ≤ 2 ^ k := by
    rw [prefixLen]
    exact room
  have next := wp_writeBytes (n := n) (c := .push data) used space1 writing1 commit1
  rw [prefixLen, BitVec.ofNat_add] at next
  refine Protocol.wp_mono ?_ next
  rintro r2 x2 y2 ⟨rfl, writing2, commit2⟩
  -- the store of the tail is what publishes the frame
  apply wp_access used commit2
  intro z env _
  obtain ⟨inv, quiet, written⟩ := writing2.env env
  have stops := SpscInvariant.stop_same (meanwhile_pushed_of quiet rfl)
  have fewer := queued_antitone (meanwhile_early quiet) (meanwhile_pushed_of quiet rfl)
  have tail : z.mem.tail = BitVec.ofNat w ((queueOf s.log).stop frameLen) := by
    rw [inv.represents.tail, stops]
  have logged : RingInv k (⟨z.mem, z.log ++ [.access .producer n (.push data)
      (.storeTail (BitVec.ofNat w ((queueOf s.log).stop frameLen) + BitVec.ofNat w (4 + m.length)))
      ()]⟩ : RingWorld w) := inv.access _ _
  have queue : queueOf (z.log ++ [.access .producer n (.push data)
      (.storeTail (BitVec.ofNat w ((queueOf s.log).stop frameLen) + BitVec.ofNat w (4 + m.length)))
      ()]) = queueOf z.log := queueOf_silent (silent_access _ _)
  have published := logged.publish payload (by rw [queue]; omega) short
    (by rw [queue, stops]; exact written)
    (answer _ (meanwhile_trans quiet meanwhile_access))
  rw [tail] at published
  refine ⟨rfl, fun _ => ⟨published, fun u other own => absurd own other⟩, ?_⟩
  intro _ f member
  simp [credits, creditStep] at member

theorem wp_push {data : PyValue} (fits : Fits w k data) (before : RingInv k a)
    (known : Remembers k a.log .producer) (here : At k .producer a x a) :
    (ringProtocol w k).wp sys .producer n (.push data)
      (ringCode .release views .producer (.push data))
      ((ringProtocol w k).Finish .producer n (.push data)) x a := by
  simp only [ringCode, push, Prog.run_bind, Prog.run_pure]
  cases payload : pushPayload data with
  | error e =>
      simp only [Prog.run_error, Prog.ret_bind, Protocol.wp_ret]
      exact finish_silent before known here (silent_push data _ (by simp))
        (fun _ => pushAnswer_refused payload) (by simp) (by simp)
  | ok m =>
      simp only [Prog.run_ok, Prog.ret_bind, capacity, Prog.run_access, Prog.op_bind]
      apply wp_loadCapacity used here
      intro z0 since0 _ here0
      rw [capacity_toNat used.small]
      by_cases large : 4 + m.length > 2 ^ k
      · simp only [if_pos large, Prog.run_throw, Prog.ret_bind, Protocol.wp_ret]
        exact finish_silent before known here0 (silent_push data _ (by simp))
          (fun _ => pushAnswer_oversize payload large) (by simp) (by simp)
      · simp only [if_neg large, loadHead, loadTail, Prog.run_bind, Prog.run_access, Prog.op_bind,
          Prog.ret_bind, Build.plus, Prog.run_pure]
        apply wp_loadHead used here0
        intro z1 since1 _ here1
        apply wp_loadTail used here1
        intro z2 since2 recent2 here2
        have bounded : frameLen m ≤ 2 ^ k := by
          unfold frameLen
          omega
        obtain ⟨short, wide⟩ := fits m payload bounded
        have recent : Since k .producer (took .producer n (.push data) .loadHead z1)
            (took .producer n (.push data) .loadTail z2) :=
          recent2.trans ((since_refl recent2.inv).took rfl).1
        have answer : ∀ pre, Meanwhile .producer _ pre → PushAnswer k pre n data _ :=
          fun pre quiet => pushAnswer_checked payload bounded (since1.remembers before known) quiet
        have head : z1.mem.head = BitVec.ofNat w ((queueOf z1.log).start frameLen) :=
          since1.inv.represents.head
        have tail : z2.mem.tail = BitVec.ofNat w ((queueOf z1.log).stop frameLen) := by
          rw [since2.inv.represents.tail, recent2.stop_same rfl, took_queue]
        -- the head may have moved since it was loaded, which only leaves more room
        have positions := (queueOf z1.log).start_add_queued frameLen
        have room := since1.inv.represents.room
        have needed := space_check used.small head tail room wide
        rw [frameLen] at needed
        by_cases full : (queueOf z1.log).queued frameLen + (4 + m.length) ≤ 2 ^ k
        · rw [if_neg (by rwa [needed, not_not]), tail]
          rw [frameLen, decide_eq_true full] at answer
          rw [← took_queue (t := .producer) (n := n) (c := .push data) (o := .loadHead)] at full ⊢
          rw [Protocol.wp_bind]
          refine Protocol.wp_mono ?_ (wp_publish used payload short full answer
            ⟨recent.inv, recent.quiet, holds_nil _ _ _⟩ here2.2)
          rintro r x' y' ⟨rfl, done⟩
          exact done
        · rw [if_pos (needed.mpr full)]
          simp only [Prog.run_pure, Prog.ret_bind, Protocol.wp_ret]
          rw [frameLen, decide_eq_false full] at answer
          exact finish_silent before known here2 (silent_push data _ (by simp))
            (fun _ => answer _ recent.quiet)
            (by simp) (by simp)

/-- What a pop finds: an empty ring, or the front message, then consumed. -/
theorem wp_popFrame (before : RingInv k a) (here : At k .consumer a x y) :
    (ringProtocol w k).wp sys .consumer n c (popFrame .release).run
      (fun r x' y' => match r with
        | .ok none => Since k .consumer a x' ∧ y' = took .consumer n c .loadTail x' ∧
            (queueOf x'.log).unread = []
        | .ok (some m) => Since k .consumer a x' ∧
            y' = took .consumer n c (.storeHead (x'.mem.head + BitVec.ofNat w (frameLen m))) x' ∧
            ∃ rest, (queueOf x'.log).unread = m :: rest
        | .error _ => False) x y := by
  simp only [popFrame, loadHead, loadTail, capacity, storeHead, Build.plus, Prog.run_bind,
    Prog.run_access, Prog.op_bind, Prog.ret_bind]
  apply wp_loadHead used here
  intro z1 since1 _ here1
  apply wp_loadTail used here1
  intro z2 since2 recent2 here2
  -- nobody but the consumer moves the head
  have same : z1.mem.head = z2.mem.head := by
    rw [since1.inv.represents.head, since2.inv.represents.head, since1.start_same before rfl,
      since2.start_same before rfl]
  rw [same]
  by_cases empty : z2.mem.head = z2.mem.tail
  · rw [if_pos empty]
    exact ⟨since2, rfl, (since2.inv.represents.empty_iff used.small).mp empty⟩
  · rw [if_neg empty]
    cases front : (queueOf z2.log).unread with
    | nil => exact absurd ((since2.inv.represents.empty_iff used.small).mpr front) empty
    | cons m rest =>
        have head := since2.inv.represents.head
        simp only [Prog.run_bind, Prog.run_access, Prog.run_pure, Prog.op_bind, Prog.ret_bind]
        apply wp_loadCapacity used ((since_refl since2.inv).took (n := n)
          (c := c) (o := .loadTail) rfl)
        intro z3 since3 _ here3
        rw [Protocol.wp_bind]
        have first := wp_readBytes (n := n) (c := c) used 0 4 since2.inv front
          (by rw [frame_length, frameLen]; omega) here3
        rw [Nat.add_zero, ← head] at first
        refine Protocol.wp_mono ?_ first
        rintro r x1 y1 ⟨rfl, here4⟩
        have member : m ∈ pushed z2.log := by
          have inUnread : m ∈ (queueOf z2.log).unread := by
            rw [front]
            exact List.mem_cons_self
          exact List.mem_of_mem_drop inUnread
        have room := since2.inv.represents.room
        rw [Fifo.queued, front, Fifo.total_cons, frameLen] at room
        have bound : 2 ^ k < 2 ^ w := Nat.pow_lt_pow_right (by decide) used.small
        have size : (BitVec.ofNat w m.length).toNat = m.length := by
          rw [BitVec.toNat_ofNat]
          exact Nat.mod_eq_of_lt (by omega)
        rw [List.drop_zero]
        dsimp only
        -- the first four bytes are the length of the front message
        rw [frame_header (since2.inv.short m member), size, Protocol.wp_bind]
        have second := wp_readBytes (n := n) (c := c) used 4 m.length since2.inv front
          (by rw [frame_length, frameLen]) here4
        rw [BitVec.ofNat_add, ← head] at second
        refine Protocol.wp_mono ?_ second
        rintro r x2 y2 ⟨rfl, here5⟩
        rw [frame_payload]
        dsimp only
        apply wp_access used here5.2
        intro z4 env _
        -- until the head is stored the frame is not overwritten
        have since4 := here5.1.env env
        have still : z2.mem.head = z4.mem.head := by
          rw [head, since4.inv.represents.head, since4.start_same since2.inv rfl]
        have length : BitVec.ofNat w 4 + BitVec.ofNat w m.length = BitVec.ofNat w (frameLen m) := by
          rw [frameLen, BitVec.ofNat_add]
        refine ⟨since2.trans since4, ?_, since4.front since2.inv rfl front⟩
        rw [still]
        change took _ _ _
          (.storeHead (z4.mem.head + (BitVec.ofNat w 4 + BitVec.ofNat w m.length))) _ = _
        rw [length]

/-- `pop` and `pop_mixed` differ in what they make of the payload. -/
theorem wp_popWith {make : Message → PyResult PyValue} (pop : isPop c = true)
    (noPush : ∀ data, c ≠ .push data) (agree : ∀ m, outcome c m = make m) (before : RingInv k a)
    (known : Remembers k a.log .consumer) (here : At k .consumer a x a) :
    (ringProtocol w k).wp sys .consumer n c
      ((do
        let found ← (do
          match ← popFrame .release with
          | none => return none
          | some payload => return some (← make payload) : RingM w (Option PyValue))
        return found.getD .none : RingM w PyValue).run)
      ((ringProtocol w k).Finish .consumer n c) x a := by
  simp only [Prog.run_bind, Prog.bind_assoc]
  rw [Protocol.wp_bind]
  refine Protocol.wp_mono ?_ (wp_popFrame used before here)
  rintro (e | _ | m) x' y' found
  · cases found
  · obtain ⟨since, rfl, empty⟩ := found
    exact finish_none before known pop noPush since empty
  · obtain ⟨since, rfl, rest, front⟩ := found
    have done := finish_take (n := n) pop since front
    rw [agree] at done
    dsimp only
    cases made : make m with
    | error e =>
        rw [made] at done
        exact done
    | ok v =>
        rw [made] at done
        exact done

theorem wp_pop {tag : Option String} (before : RingInv k a)
    (known : Remembers k a.log .consumer) (here : At k .consumer a x a) :
    (ringProtocol w k).wp sys .consumer n (.pop tag) (ringCode .release views .consumer (.pop tag))
      ((ringProtocol w k).Finish .consumer n (.pop tag)) x a :=
  wp_popWith used rfl (by simp) (fun _ => rfl) before known here

theorem wp_popMixed {schema : List PyValue} (before : RingInv k a)
    (known : Remembers k a.log .consumer) (here : At k .consumer a x a) :
    (ringProtocol w k).wp sys .consumer n (.popMixed schema)
      (ringCode .release views .consumer (.popMixed schema))
      ((ringProtocol w k).Finish .consumer n (.popMixed schema)) x a :=
  wp_popWith used rfl (by simp) (fun _ => rfl) before known here

section Observers

/-- Two loads in the order head, tail, and what was known then. -/
structure Loaded (k : Nat) (t : Party) (n : Nat) (c : RingCall) (a z1 z2 y : RingWorld w) :
    Prop where
  first : Since k t a z1
  second : Since k t (took t n c .loadHead z1) z2
  third : Since k t (took t n c .loadTail z2) y

omit used in
theorem Loaded.distance {z1 z2 : RingWorld w} (loaded : Loaded k t n c a z1 z2 y)
    (started : n < a.log.length) :
    Distance y.log t n c (z2.mem.tail - z1.mem.head) := by
  obtain ⟨first, second, third⟩ := loaded
  have quiet : Meanwhile t z1.log y.log :=
    meanwhile_trans (meanwhile_trans meanwhile_access second.quiet)
      (meanwhile_trans meanwhile_access third.quiet)
  refine ⟨z1.log, z2.log, ⟨?_, ⟨_, meanwhile_early second.quiet⟩,
    ⟨_, meanwhile_early third.quiet⟩, meanwhile_pushed_of quiet, meanwhile_pops_of quiet⟩, ?_⟩
  · have longer := (meanwhile_early first.quiet).length_le
    omega
  · rw [first.inv.represents.head, second.inv.represents.tail]

/-- The distance the producer computed is what was queued when it loaded head. -/
theorem Loaded.producer {z1 z2 : RingWorld w} (loaded : Loaded k .producer n c a z1 z2 y) :
    (z2.mem.tail - z1.mem.head).toNat = (queueOf z1.log).queued frameLen ∧
      (queueOf y.log).queued frameLen ≤ (queueOf z1.log).queued frameLen := by
  obtain ⟨first, second, third⟩ := loaded
  have quiet : Meanwhile .producer z1.log y.log :=
    meanwhile_trans (meanwhile_trans meanwhile_access second.quiet)
      (meanwhile_trans meanwhile_access third.quiet)
  have bound : 2 ^ k < 2 ^ w := Nat.pow_lt_pow_right (by decide) used.small
  have room := first.inv.represents.room
  have positions := (queueOf z1.log).start_add_queued frameLen
  constructor
  · have stops := second.stop_same rfl
    rw [took_queue] at stops
    rw [first.inv.represents.head, second.inv.represents.tail, stops,
      distance_toNat (by omega) (by omega)]
    omega
  · exact queued_antitone (meanwhile_early quiet) (meanwhile_pushed_of quiet rfl)

/-- To the consumer, unequal loads mean a message it has not taken. -/
theorem Loaded.consumer {z1 z2 : RingWorld w} (loaded : Loaded k .consumer n c a z1 z2 y)
    (inv : RingInv k z1) (apart : z2.mem.tail - z1.mem.head ≠ 0) :
    (queueOf y.log).unread ≠ [] := by
  obtain ⟨first, second, third⟩ := loaded
  have head : z2.mem.head = z1.mem.head := by
    have starts := second.start_same (inv.access _ _) rfl
    rw [took_queue] at starts
    rw [first.inv.represents.head, second.inv.represents.head, starts]
  have unread : (queueOf z2.log).unread ≠ [] := by
    intro empty
    have equal := (second.inv.represents.empty_iff used.small).mpr empty
    rw [← equal, head, BitVec.sub_self] at apart
    exact apart rfl
  cases front : (queueOf z2.log).unread with
  | nil => exact absurd front unread
  | cons m rest =>
      rw [← took_queue (t := .consumer) (n := n) (c := c) (o := .loadTail)] at front
      obtain ⟨later, unread⟩ := third.front (second.inv.access _ _) rfl front
      rw [unread]
      exact List.cons_ne_nil m later

/-- The loads inside `used()`, wherever it is called from. -/
theorem wp_used (here : At k t a x y) :
    (ringProtocol w k).wp sys t n c (Spsc.used (w := w)).run
      (fun r x' y' => ∃ z, Since k t a z ∧ Loaded k t n c a z x' y' ∧ At k t a x' y' ∧
        r = .ok (x'.mem.tail - z.mem.head)) x y := by
  simp only [Spsc.used, loadHead, loadTail, Prog.run_bind, Prog.run_access, Prog.run_pure,
    Prog.op_bind, Prog.ret_bind]
  apply wp_loadHead used here
  intro z1 since1 _ here1
  apply wp_loadTail used here1
  intro z2 since2 recent2 here2
  exact ⟨z1, since1, ⟨since1, recent2, since_refl here2.1.inv⟩, here2, rfl⟩

variable (before : RingInv k a) (known : Remembers k a.log t) (here : At k t a x a)
  (started : n < a.log.length)
include before known here started

theorem wp_usedCall :
    (ringProtocol w k).wp sys t n .used (ringCode .release views t .used)
      ((ringProtocol w k).Finish t n .used) x a := by
  simp only [ringCode, Prog.run_bind, Prog.run_pure]
  rw [Protocol.wp_bind]
  refine Protocol.wp_mono ?_ (wp_used used here)
  rintro r x' y' ⟨z, _, loaded, here, rfl⟩
  exact finish_silent before known here (silent_observer (by simp) rfl)
    ⟨_, loaded.distance started, rfl⟩ (by simp) (by simp)

theorem wp_free :
    (ringProtocol w k).wp sys t n .free (ringCode .release views t .free)
      ((ringProtocol w k).Finish t n .free) x a := by
  simp only [ringCode, free, capacity, Prog.run_bind, Prog.run_access, Prog.run_pure, Prog.op_bind,
    Prog.ret_bind]
  apply wp_loadCapacity used here
  intro z0 _ _ here0
  rw [Prog.bind_assoc, Protocol.wp_bind]
  refine Protocol.wp_mono ?_ (wp_used used here0)
  rintro r x' y' ⟨z, since, loaded, here, rfl⟩
  refine finish_silent before known here (silent_observer (by simp) rfl)
    ⟨_, loaded.distance started, rfl⟩ ?_ (by simp)
  intro f own _ result
  subst own
  obtain ⟨distance, fewer⟩ := loaded.producer used
  have room := since.inv.represents.room
  have cap := capacity_toNat used.small
  have notMore : ¬ BitVec.ofNat w (2 ^ k) < x'.mem.tail - z.mem.head := by
    rw [BitVec.lt_def, cap, distance]
    omega
  rw [if_neg notMore, word,
    BitVec.toNat_sub_of_le (by rw [BitVec.le_def, cap, distance]; exact room),
    cap, distance] at result
  cases result
  rw [Int.toNat_natCast]
  omega

theorem wp_isEmpty :
    (ringProtocol w k).wp sys t n .isEmpty (ringCode .release views t .isEmpty)
      ((ringProtocol w k).Finish t n .isEmpty) x a := by
  simp only [ringCode, isEmpty, loadHead, loadTail, Prog.run_bind, Prog.run_access, Prog.run_pure,
    Prog.op_bind, Prog.ret_bind]
  apply wp_loadHead used here
  intro z1 since1 _ here1
  apply wp_loadTail used here1
  intro z2 since2 recent2 here2
  have loaded : Loaded k t n .isEmpty a z1 z2 (took t n .isEmpty .loadTail z2) :=
    ⟨since1, recent2, since_refl here2.1.inv⟩
  have done : (ringProtocol w k).Finish t n .isEmpty
      (.ok (.bool (decide (z2.mem.tail - z1.mem.head = 0)))) z2
      (took t n .isEmpty .loadTail z2) := by
    refine finish_silent before known here2 (silent_observer (by simp) rfl)
      ⟨_, loaded.distance started, rfl⟩ (by simp) ?_
    intro own _ result
    subst own
    apply loaded.consumer used since1.inv
    intro zero
    simp [zero] at result
  rw [decide_eq_decide.mpr word_sub_eq_zero] at done
  exact done

theorem wp_isFull :
    (ringProtocol w k).wp sys t n .isFull (ringCode .release views t .isFull)
      ((ringProtocol w k).Finish t n .isFull) x a := by
  simp only [ringCode, isFull, capacity, Prog.run_bind, Prog.run_access, Prog.run_pure,
    Prog.op_bind, Prog.ret_bind]
  rw [Prog.bind_assoc, Protocol.wp_bind]
  refine Protocol.wp_mono ?_ (wp_used used here)
  rintro r x' y' ⟨z, _, ⟨first, second, third⟩, here, rfl⟩
  apply wp_loadCapacity used here
  intro z3 _ recent3 here3
  have loaded : Loaded k t n .isFull a z x' (took t n .isFull .loadCapacity z3) :=
    ⟨first, second, (third.trans recent3).trans ((since_refl recent3.inv).took rfl).1⟩
  exact finish_silent before known here3 (silent_observer (by simp) rfl)
    ⟨_, loaded.distance started, rfl⟩ (by simp) (by simp)

omit started in
/-- Attaching: every header store it makes writes what is there. -/
theorem wp_spsc {handle : Segment.SharedMemory} {mapping : PyResult Unit}
    (allowed : sys.allowed t (.spsc handle mapping)) :
    (ringProtocol w k).wp sys t n (.spsc handle mapping)
      (ringCode .release views t (.spsc handle mapping))
      ((ringProtocol w k).Finish t n (.spsc handle mapping)) x a := by
  -- every way out leaves the queue alone
  have quit : ∀ {x y : RingWorld w} {r : PyResult PyValue}, At k t a x y →
      (ringProtocol w k).Finish t n (.spsc handle mapping) r x y := by
    intro x y r here
    exact finish_silent before known here (silent_observer (by simp) rfl) trivial (by simp)
      (by simp)
  -- a store of the header finds the value it stores
  have store : ∀ {x y : RingWorld w} {o : RingOp w} {next : o.Res → RingProg w (PyResult PyValue)},
      o ∈ headerStores handle → At k t a x y →
      (∀ z, At k t a z (took t n (.spsc handle mapping) o z) →
        (ringProtocol w k).wp sys t n (.spsc handle mapping) (next (RingMem.exec o z.mem).1)
          ((ringProtocol w k).Finish t n (.spsc handle mapping)) z
          (took t n (.spsc handle mapping) o z)) →
      (ringProtocol w k).wp sys t n (.spsc handle mapping) (.op o next)
        ((ringProtocol w k).Finish t n (.spsc handle mapping)) x y := by
    intro x y o next header here later
    have noData : ∀ slot b, o ≠ .writeByte slot b := by
      rintro slot b rfl
      simp [headerStores] at header
    apply wp_access used here.2
    intro z env may
    exact later z ((here.1.env env).took
      (exec_keeps noData (used.attach z t handle mapping o allowed may header)))
  simp only [ringCode, spsc, new, Prog.run_bind, Prog.bind_assoc]
  cases mapping with
  | error e => exact quit here
  | ok _ =>
      simp only [Prog.run_ok, Prog.ret_bind]
      split
      · exact quit here
      · split
        · split
          · exact quit here
          · simp only [storeHead, storeTail, Prog.run_bind, Prog.run_access, Prog.op_bind,
              Prog.ret_bind]
            refine store (by simp [headerStores]) here ?_
            intro z1 here1
            refine store (by simp [headerStores]) here1 ?_
            intro z2 here2
            refine store (by simp [headerStores]) here2 ?_
            intro z3 here3
            exact quit here3
        · exact quit here

end Observers

/-- A ring that starts as `SpscRingBuffer::new` leaves it stays a queue. -/
theorem sound (data : Nat → UInt8) :
    (ringProtocol w k).Sound sys ⟨0, 0, BitVec.ofNat w (2 ^ k), data⟩ where
  known _ _ := trivial
  init := by
    refine ⟨?_, fresh_represents data, by simp [pushed], .nil, recorded_nil⟩
    intro early inside
    cases List.prefix_nil.mp inside
    exact ⟨Nat.le_refl 0, Nat.zero_le _⟩
  idle t := by
    cases t with
    | producer =>
        intro f member
        cases member
    | consumer =>
        intro saw
        cases saw
    | third n => trivial
  call t c world may inv _ known := by
    -- each call is reasoned about from its own start
    have here := invoked (t := t) (n := world.log.length) (c := c) inv
    have before := here.1.inv
    have remembered : Remembers k (world.push (.invoke t world.log.length c)).log t :=
      remembers_invoke known
    have started : world.log.length < (world.push (.invoke t world.log.length c)).log.length := by
      simp
    rw [used.code]
    have role := used.role t c may
    cases c with
    | used => exact wp_usedCall used before remembered here started
    | free => exact wp_free used before remembered here started
    | isEmpty => exact wp_isEmpty used before remembered here started
    | isFull => exact wp_isFull used before remembered here started
    | spsc handle mapping => exact wp_spsc used before remembered here may
    | push data =>
        cases t with
        | producer => exact wp_push used role before remembered here
        | _ => cases role
    | pop tag =>
        cases t with
        | consumer => exact wp_pop used before remembered here
        | _ => cases role
    | popMixed schema =>
        cases t with
        | consumer => exact wp_popMixed used before remembered here
        | _ => cases role

end Calls
end Membridge.SpscSound
