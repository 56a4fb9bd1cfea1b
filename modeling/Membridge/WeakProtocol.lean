import Membridge.WeakRing

/-!
Producer and consumer of a ring where a load may miss what was stored last. A
thread counts on its own view, the producer also on the data area; the two loads
with which calls begin give a head and a tail that were the newest at some time.
-/
namespace Membridge.WeakProtocol
open Program Interleaving RelyGuarantee HappensBefore WeakMemory Python Spsc Queue SpscQueue
open ByteOrder CyclicBuffer Arithmetic SpscProtocol SpscInvariant SpscSound SpscDelivery
open SpscObservers SpscRaces
open WeakRing

variable {k : Nat}

abbrev WeakWorld := World Party RingCall (PyResult PyValue) (RingOp 64) RingOp.Res (WeakMem 64)

abbrev WeakConfig := Config Party RingCall (PyResult PyValue) (RingOp 64) RingOp.Res (WeakMem 64)

/-- The ring as its creator left it, known to all. -/
def weakStart (ring : RingMem 64) : WeakMem 64 := .start (cellOf ring)

variable [Target]

def weakSystem (views : Party → SpscRingBuffer) :
    System Party RingCall (PyResult PyValue) (RingOp 64) RingOp.Res (WeakMem 64) where
  code := ringCode .release views
  sem := weakSem
  allowed t c := observing t c
  enabled _ _ _ _ := True

/-- The end of what is published. -/
abbrev stop (log : RingLog 64) : Nat := upTo (pushed log) (pushed log).length

/-- Where the first message that was not taken begins. -/
abbrev start (log : RingLog 64) : Nat := upTo (pushed log) (pops log).length

section Invariant

/-- The answer of a push rests on a number of taken messages that may have grown since. -/
structure PushTold (k : Nat) (pre : RingLog 64) (data : PyValue) (r : PyResult PyValue) : Prop where
  refused : ∀ e, pushPayload data = .error e → r = .error e
  oversize : ∀ m, pushPayload data = .ok m → 2 ^ k < frameLen m → ∃ e, r = .error e
  accepted : ∀ m, pushPayload data = .ok m → frameLen m ≤ 2 ^ k → ∃ i, i ≤ (pops pre).length ∧
    r = .ok (.bool (decide (Fifo.total frameLen ((pushed pre).drop i) + frameLen m ≤ 2 ^ k)))
  credited : ∀ m, pushPayload data = .ok m → frameLen m ≤ 2 ^ k →
    ∀ f ∈ credits pre, frameLen m ≤ f → r = .ok (.bool true)

/-- A byte that is read is one of the stream, at a position that was not taken. -/
def ByteTold (k : Nat) (pre : RingLog 64) (slot : Nat) (b : UInt8) : Prop :=
  ∃ q, slot = q % 2 ^ k ∧ upTo (pushed pre) (pops pre).length ≤ q ∧
    (stream (pushed pre))[q]? = some b

def Told (k : Nat) (pre : RingLog 64) : RingEvent 64 → Prop
  | .finish .producer _ (.push data) r => PushTold k pre data r
  | .finish .producer _ .free r => ∀ f, r = .ok (.int f) → f.toNat ≤ 2 ^ k
  | .finish .consumer _ c r => isPop c = true → sawMessage pre = true → isNone r = false
  | .access _ _ _ (.readByte slot) b => ByteTold k pre slot b
  | _ => True

structure WeakInv (k : Nat) (world : WeakWorld) : Prop where
  carries : ∃ n, Carries k (pushed world.log) (pops world.log).length n world.mem
  short : ∀ m ∈ pushed world.log, m.length < 2 ^ 32
  outcomes : List.Forall₂ (fun (d : RingCall × PyResult PyValue) m => d.2 = outcome d.1 m)
    (pops world.log) ((pushed world.log).take (pops world.log).length)
  told : Recorded (Told k) world.log

/-- Between its calls the producer has written what it published and no more; it knows of the
room that `free()` told it, the consumer of the message that `is_empty()` told it. -/
def Remembers (k : Nat) (world : WeakWorld) : Party → Prop
  | .producer => Filled k world.mem (upTo (pushed world.log) (pushed world.log).length) ∧
      ∀ f ∈ credits world.log, upTo (pushed world.log) (pushed world.log).length + f ≤
        upTo (pushed world.log) (world.mem.knows .producer .head) + 2 ^ k
  | .consumer => sawMessage world.log = true →
      (pops world.log).length < world.mem.knows .consumer .tail
  | .third _ => True

/-- Since `a`, thread `t` has made accesses only and written no byte. -/
structure Since (k : Nat) (t : Party) (a y : WeakWorld) : Prop where
  inv : WeakInv k y
  quiet : Meanwhile t a.log y.log
  grows : ∀ l, a.mem.knows t l ≤ y.mem.knows t l
  slots : t = .producer → ∀ n, y.mem.writes (.slot n) = a.mem.writes (.slot n)

variable {t : Party} {n : Nat} {c : RingCall} {a x y z : WeakWorld}

theorem since_refl (inv : WeakInv k a) : Since k t a a :=
  ⟨inv, meanwhile_refl, fun _ => Nat.le_refl _, fun _ _ => rfl⟩

theorem Since.trans (first : Since k t a y) (second : Since k t y z) : Since k t a z :=
  ⟨second.inv, meanwhile_trans first.quiet second.quiet,
    fun l => Nat.le_trans (first.grows l) (second.grows l),
    fun own n => (second.slots own n).trans (first.slots own n)⟩

theorem Since.remembers (since : Since k t a y) (known : Remembers k a t) : Remembers k y t := by
  cases t with
  | producer =>
      obtain ⟨filled, room⟩ := known
      rw [Remembers, meanwhile_pushed_of since.quiet rfl, meanwhile_credits since.quiet rfl]
      constructor
      · intro q
        rw [since.slots rfl]
        exact filled q
      · intro f member
        exact Nat.le_trans (room f member)
          (Nat.add_le_add_right (upTo_mono _ (since.grows .head)) _)
  | consumer =>
      intro saw
      rw [meanwhile_sawMessage since.quiet rfl] at saw
      rw [meanwhile_pops_of since.quiet rfl]
      exact Nat.lt_of_lt_of_le (known saw) (since.grows .tail)
  | third n => trivial

/-- A thread counts on its view, and the producer on the data area. -/
def weakProtocol (k : Nat) :
    Protocol Party RingCall (PyResult PyValue) (RingOp 64) RingOp.Res (WeakMem 64) where
  Known _ := True
  Inv := WeakInv k
  Rely t a b := b.mem.knows t = a.mem.knows t ∧
    (t = .producer → ∀ n, b.mem.writes (.slot n) = a.mem.writes (.slot n))
  Idle t world := Remembers k world t
  rely_refl _ _ := ⟨rfl, fun _ _ => rfl⟩
  rely_trans _ _ _ _ first second :=
    ⟨second.1.trans first.1, fun own n => (second.2 own n).trans (first.2 own n)⟩
  idle_stable _ _ _ _ known inv _ rely far := by
    refine Since.remembers ⟨inv, others_meanwhile far, ?_, rely.2⟩ known
    intro l
    rw [rely.1]

theorem Since.env (since : Since k t a y) (env : (weakProtocol k).Env t y z) : Since k t a z := by
  refine since.trans ⟨env.inv, others_meanwhile env.others, ?_, env.rely.2⟩
  intro l
  rw [env.rely.1]

/-- `Since`, with a step of `t` in flight that may be committed. -/
def At (k : Nat) (t : Party) (a x y : WeakWorld) : Prop :=
  Since k t a y ∧ (weakProtocol k).Commit t x y

/-- The counts of published and taken messages at one instant of a call, seen from a later one. -/
theorem Since.grown (since : Since k t a y) : pushed a.log <+: pushed y.log :=
  pushed_early (meanwhile_early since.quiet)

theorem Since.upTo_same (since : Since k t a y) {i : Nat} (inside : i ≤ (pushed a.log).length) :
    upTo (pushed y.log) i = upTo (pushed a.log) i := by
  obtain ⟨more, grown⟩ := since.grown
  rw [← grown, upTo_append inside]

end Invariant

section Steps
variable {t : Party} {n : Nat} {c : RingCall} {a x y z : WeakWorld} {o : RingOp 64} {r : o.Res}

theorem WeakInv.silent {e : RingEvent 64} {mem : WeakMem 64} (inv : WeakInv k z) (silent : Silent e)
    (told : Told k z.log e)
    (carries : ∃ n, Carries k (pushed z.log) (pops z.log).length n mem) :
    WeakInv k (⟨mem, z.log ++ [e]⟩ : WeakWorld) := by
  refine ⟨?_, ?_, ?_, recorded_snoc.mpr ⟨inv.told, told⟩⟩
  · rw [pushed_silent silent, pops_silent silent]
    exact carries
  · rw [pushed_silent silent]
    exact inv.short
  · rw [pushed_silent silent, pops_silent silent]
    exact inv.outcomes

/-- A read can be committed as it is. -/
theorem Since.learn {l : Cell} {m : Mode} {after : WeakMem 64} {v : CellVal 64 l} {i : Nat}
    {w : Write Cell (CellVal 64 l)} (since : Since k t a z)
    (learns : Learns t l m z.mem after v i w)
    (acquired : l = .tail → t = .producer ∨ m.acquires = true)
    (told : Told k z.log (.access t n c o r)) :
    At k t a z ⟨after, z.log ++ [.access t n c o r]⟩ := by
  have inv : WeakInv k (⟨after, z.log ++ [.access t n c o r]⟩ : WeakWorld) := by
    obtain ⟨n, carries⟩ := since.inv.carries
    exact since.inv.silent (silent_access o r) told ⟨n, carries.read learns acquired⟩
  refine ⟨⟨inv, meanwhile_trans since.quiet meanwhile_access, ?_, ?_⟩, ?_⟩
  · intro l'
    exact Nat.le_trans (since.grows l') (learns.more l')
  · intro own n
    change after.writes _ = _
    rw [learns.writes]
    exact since.slots own n
  · intro _
    refine ⟨inv, fun u other => ⟨learns.others u other, fun _ n => ?_⟩⟩
    change after.writes _ = _
    rw [learns.writes]

theorem At.since (since : Since k t a z) (here : At k t z z y) : At k t a z y :=
  ⟨since.trans here.1, here.2⟩

/-- The return of a push that wrote `m` publishes it. -/
theorem WeakInv.publish {data : PyValue} {m : Message} (inv : WeakInv k z)
    (payload : pushPayload data = .ok m) (short : m.length < 2 ^ 32)
    (told : PushTold k z.log data (.ok (.bool true))) {mem : WeakMem 64}
    (carries : ∃ n', Carries k (pushed z.log ++ [m]) (pops z.log).length n' mem) :
    WeakInv k
      (⟨mem, z.log ++ [.finish .producer n (.push data) (.ok (.bool true))]⟩ : WeakWorld) := by
  have found : published (.finish .producer n (.push data) (.ok (.bool true)) : RingEvent 64) =
    some m := by
    simp [published, payload, Except.toOption]
  have only : delivery (.finish .producer n (.push data) (.ok (.bool true)) : RingEvent 64) =
    none := rfl
  have taken : (pops z.log).length ≤ (pushed z.log).length := by
    obtain ⟨_, before⟩ := inv.carries
    exact before.taken_le
  refine ⟨?_, ?_, ?_, recorded_snoc.mpr ⟨inv.told, told⟩⟩
  · rw [pushed_snoc, pops_snoc, found, only, Option.toList_none, List.append_nil]
    exact carries
  · intro x member
    rw [pushed_snoc, found, Option.toList_some, List.mem_append, List.mem_singleton] at member
    rcases member with early | rfl
    · exact inv.short x early
    · exact short
  · rw [pushed_snoc, pops_snoc, found, only, Option.toList_none, List.append_nil,
      List.take_append_of_le_length taken]
    exact inv.outcomes

/-- A message the consumer knew of is taken by the return of the pop that read it. -/
theorem WeakInv.take {m : Message} {r : PyResult PyValue} (mem : WeakMem 64) (inv : WeakInv k z)
    (found : (pushed z.log)[(pops z.log).length]? = some m) (pop : isPop c = true)
    (result : r = outcome c m) (notNone : isNone r = false)
    (carries : ∃ n', Carries k (pushed z.log) ((pops z.log).length + 1) n' mem) :
    WeakInv k (⟨mem, z.log ++ [.finish .consumer n c r]⟩ : WeakWorld) := by
  have delivered : delivery (.finish .consumer n c r : RingEvent 64) = some (c, r) := by
    simp [delivery, pop, notNone]
  have only : published (.finish .consumer n c r : RingEvent 64) = none := rfl
  refine ⟨?_, ?_, ?_, recorded_snoc.mpr ⟨inv.told, fun _ _ => notNone⟩⟩
  · rw [pushed_snoc, pops_snoc, only, delivered, Option.toList_none, Option.toList_some,
      List.append_nil, List.length_append, List.length_singleton]
    exact carries
  · rw [pushed_snoc, only, Option.toList_none, List.append_nil]
    exact inv.short
  · rw [pushed_snoc, pops_snoc, only, delivered, Option.toList_none, Option.toList_some,
      List.append_nil, List.length_append, List.length_singleton, List.take_add_one, found,
      Option.toList_some]
    exact List.rel_append (R := fun (d : RingCall × PyResult PyValue) m => d.2 = outcome d.1 m)
      inv.outcomes (.cons result .nil)

/-- The consumer knows of message `m` and has not taken it. -/
structure Front (m : Message) (s : WeakWorld) : Prop where
  found : (pushed s.log)[(pops s.log).length]? = some m
  more : (pops s.log).length < s.mem.knows .consumer .tail

theorem Since.front {m : Message} {s : WeakWorld} (since : Since k .consumer s y)
    (front : Front m s) :
    Front m y ∧ start y.log = start s.log := by
  have same : pops y.log = pops s.log := meanwhile_pops_of since.quiet rfl
  have inside := (List.getElem?_eq_some_iff.mp front.found).1
  refine ⟨⟨?_, ?_⟩, ?_⟩
  · obtain ⟨more, grown⟩ := since.grown
    rw [same, ← grown, List.getElem?_append_left inside]
    exact front.found
  · rw [same]
    exact Nat.lt_of_lt_of_le front.more (since.grows .tail)
  · rw [start, same, since.upTo_same (Nat.le_of_lt inside)]

end Steps

section Rules
variable {t : Party} {n : Nat} {c : RingCall} {a x y z : WeakWorld} {views : Party → SpscRingBuffer}

omit [Target] in
/-- Only a push loads the tail without acquiring it. -/
theorem acquired_tail (noPush : ∀ data, c ≠ .push data) :
    (Mode.load (acquiresTail c)).acquires = true := by
  cases c with
  | push data => exact absurd rfl (noPush data)
  | _ => rfl

omit [Target] in
theorem releases_pop (pop : isPop c = true) : (storesIndex c).releases = true := by
  cases c with
  | spsc handle mapping => cases pop
  | _ => rfl

theorem wp_loadHead {α : Type} {next : BitVec 64 → RingProg 64 α}
    {post : α → WeakWorld → WeakWorld → Prop}
    (here : At k t a x y)
    (later : ∀ z i y', Since k t a z → At k t z z y' → z.mem.knows t .head ≤ i →
      i ≤ (pops z.log).length → y'.mem.knows t .head = i →
      (weakProtocol k).wp (weakSystem views) t n c (next (BitVec.ofNat 64 (upTo (pushed z.log) i)))
        post z y') :
    (weakProtocol k).wp (weakSystem views) t n c (.op .loadHead next) post x y := by
  apply Protocol.wp_op here.2
  rintro z env - v after reads
  obtain ⟨_, carries⟩ := env.inv.carries
  obtain ⟨i, w, learns⟩ := Reads.learns carries.sane reads
  have inside := learns.inside
  rw [carries.heads] at inside
  rw [learns.value, carries.headAt i w learns.found]
  exact later z i _ (here.1.env env) ((since_refl env.inv).learn learns nofun trivial) learns.fresh
    (by omega) learns.here

theorem wp_loadTail {α : Type} {next : BitVec 64 → RingProg 64 α}
    {post : α → WeakWorld → WeakWorld → Prop}
    (acquired : t = .producer ∨ (Mode.load (acquiresTail c)).acquires = true) (here : At k t a x y)
    (later : ∀ z i y', Since k t a z → Since k t y z → At k t z z y' → z.mem.knows t .tail ≤ i →
      i ≤ (pushed z.log).length → y'.mem.knows t .tail = i →
      (weakProtocol k).wp (weakSystem views) t n c (next (BitVec.ofNat 64 (upTo (pushed z.log) i)))
        post z y') :
    (weakProtocol k).wp (weakSystem views) t n c (.op .loadTail next) post x y := by
  apply Protocol.wp_op here.2
  rintro z env - v after reads
  obtain ⟨_, carries⟩ := env.inv.carries
  obtain ⟨i, w, learns⟩ := Reads.learns carries.sane reads
  have inside := learns.inside
  rw [carries.tails] at inside
  rw [learns.value, carries.tailAt i w learns.found]
  exact later z i _ (here.1.env env) ((since_refl here.1.inv).env env)
    ((since_refl env.inv).learn learns (fun _ => acquired) trivial) learns.fresh (by omega)
    learns.here

theorem wp_loadCapacity {α : Type} {next : BitVec 64 → RingProg 64 α}
    {post : α → WeakWorld → WeakWorld → Prop} (here : At k t a x y)
    (later : ∀ z y', At k t a z y' →
      (weakProtocol k).wp (weakSystem views) t n c (next (BitVec.ofNat 64 (2 ^ k))) post z y') :
    (weakProtocol k).wp (weakSystem views) t n c (.op .loadCapacity next) post x y := by
  apply Protocol.wp_op here.2
  rintro z env - v after reads
  obtain ⟨_, carries⟩ := env.inv.carries
  obtain ⟨i, w, learns⟩ := Reads.learns carries.sane reads
  rw [learns.value, carries.capacityAt i w learns.found]
  exact later z _ ((here.1.env env).learn learns nofun trivial)

/-- The two indices a call loads, in messages: the head lies between what the thread knew before
and what it knows now, the tail is the one it knows now. -/
structure Seen (t : Party) (a y : WeakWorld) (i j : Nat) : Prop where
  fresh : a.mem.knows t .head ≤ i
  head : i ≤ y.mem.knows t .head
  taken : i ≤ (pops y.log).length
  tail : y.mem.knows t .tail = j
  published : j ≤ (pushed y.log).length

/-- To the producer its tail is the newest, and the head not so old that a capacity would not do. -/
theorem Seen.producer {i j : Nat} (seen : Seen .producer a y i j) (before : WeakInv k a)
    (since : Since k .producer a y) : j = (pushed y.log).length ∧
      upTo (pushed y.log) (pushed y.log).length ≤ upTo (pushed y.log) i + 2 ^ k := by
  obtain ⟨_, carries⟩ := before.carries
  obtain ⟨_, now⟩ := since.inv.carries
  rw [meanwhile_pushed_of since.quiet rfl, ← seen.tail, now.ownTail,
    meanwhile_pushed_of since.quiet rfl]
  exact ⟨rfl, carries.close seen.fresh (Nat.le_refl _)⟩

/-- To the consumer its head is the newest, and no tail lies before it. -/
theorem Seen.consumer {i j : Nat} (seen : Seen .consumer a y i j) (before : WeakInv k a)
    (since : Since k .consumer a y) : i = (pops y.log).length ∧ i ≤ j ∧
      upTo (pushed y.log) j ≤ upTo (pushed y.log) i + 2 ^ k := by
  obtain ⟨_, carries⟩ := before.carries
  obtain ⟨_, now⟩ := since.inv.carries
  have least := seen.fresh
  have most := seen.taken
  rw [carries.ownHead] at least
  rw [meanwhile_pops_of since.quiet rfl] at most
  have own : i = (pops y.log).length := by
    rw [meanwhile_pops_of since.quiet rfl]
    omega
  refine ⟨own, ?_, now.close (by rw [own]; exact now.freed_le) seen.published⟩
  rw [own, ← seen.tail]
  exact now.front

/-- The loads of head and tail that all calls but the attaching one begin with. -/
theorem wp_loads {α : Type} {next : BitVec 64 → BitVec 64 → RingProg 64 α}
    {post : α → WeakWorld → WeakWorld → Prop}
    (acquired : t = .producer ∨ (Mode.load (acquiresTail c)).acquires = true) (here : At k t a x y)
    (later : ∀ i j x' y', At k t a x' y' → Seen t a y' i j →
      (weakProtocol k).wp (weakSystem views) t n c (next (BitVec.ofNat 64 (upTo (pushed y'.log) i))
        (BitVec.ofNat 64 (upTo (pushed y'.log) j))) post x' y') :
    (weakProtocol k).wp (weakSystem views) t n c
      (.op .loadHead fun h => .op .loadTail (next h)) post
      x y := by
  apply wp_loadHead here
  intro z1 i y1 since1 step1 fresh inside learned
  apply wp_loadTail acquired (step1.since since1)
  intro z2 j y2 since2 recent step2 _ bounded last
  obtain ⟨_, carries⟩ := since1.inv.carries
  have later1 := recent.trans step2.1
  have grown := (meanwhile_early (meanwhile_trans step1.1.quiet later1.quiet)).filterMap
    (delivery (w := 64))
  rw [← (step1.1.trans later1).upTo_same (Nat.le_trans inside carries.taken_le),
    ← step2.1.upTo_same bounded]
  refine later i j z2 y2 (step2.since since2) ⟨?_, ?_, ?_, last, ?_⟩
  · exact Nat.le_trans (since1.grows .head) fresh
  · rw [← learned]
    exact later1.grows .head
  · exact Nat.le_trans inside grown.length_le
  · exact Nat.le_trans bounded step2.1.grown.length_le

/-- A call that moved no message returns: what is remembered grows by its answer. -/
theorem finish_silent {r : PyResult PyValue} (known : Remembers k a t) (here : At k t a x y)
    (silent : Silent (.finish t n c r : RingEvent 64)) (told : Told k y.log (.finish t n c r))
    (free : ∀ f, t = .producer → c = .free → r = .ok (.int f) →
      upTo (pushed y.log) (pushed y.log).length + f.toNat ≤
        upTo (pushed y.log) (y.mem.knows .producer .head) + 2 ^ k)
    (empty : t = .consumer → c = .isEmpty → r = .ok (.bool false) →
      (pops y.log).length < y.mem.knows .consumer .tail) :
    (weakProtocol k).Finish t n c r x y := by
  have inv : WeakInv k (y.push (.finish t n c r)) :=
    here.1.inv.silent silent told here.1.inv.carries
  refine ⟨fun _ => ⟨inv, (here.2 trivial).2⟩, ?_⟩
  intro _
  have known := here.1.remembers known
  change Remembers k ⟨y.mem, y.log ++ [_]⟩ t
  cases t with
  | producer =>
      rw [Remembers, pushed_silent silent]
      refine ⟨known.1, ?_⟩
      intro f member
      rcases credits_finish y.log r with same | nothing | ⟨g, own, call, result, grown⟩
      · rw [same] at member
        exact known.2 f member
      · rw [nothing] at member
        cases member
      · rw [grown, List.mem_cons] at member
        rcases member with rfl | old
        · exact free g own call result
        · exact known.2 f old
  | consumer =>
      intro saw
      rw [pops_silent silent]
      rcases sawMessage_finish y.log r saw with old | ⟨own, call, result⟩
      · exact known old
      · exact empty own call result
  | third n => trivial

end Rules
end Membridge.WeakProtocol
