import Membridge.SpscInvariant

/-!
Every call of `src/spsc.rs` keeps to the ring protocol: the byte loops first,
then push, the two pops, the observers and attaching.
-/
namespace Membridge.SpscCalls
open Program Interleaving RelyGuarantee Python Spsc Queue SpscQueue CyclicBuffer ByteOrder
open SpscProtocol SpscInvariant Arithmetic

variable {w k : Nat} [Target]

/-- The world after `t` performed `o` in `z`. -/
def took (t : Party) (n : Nat) (c : RingCall) (o : RingOp w) (z : RingWorld w) : RingWorld w :=
  ⟨(RingMem.exec o z.mem).2, z.log ++ [.access t n c o (RingMem.exec o z.mem).1]⟩

/-- Since `a`, thread `t` has only made accesses and left the data area alone. -/
structure Since (k : Nat) (t : Party) (a y : RingWorld w) : Prop where
  inv : RingInv k y
  quiet : Meanwhile t a.log y.log
  data : t = .producer → y.mem.data = a.mem.data

/-- `Since`, with a step of `t` in flight that may be committed. -/
def At (k : Nat) (t : Party) (a x y : RingWorld w) : Prop :=
  Since k t a y ∧ (ringProtocol w k).Commit t x y

variable {t : Party} {n : Nat} {c : RingCall} {a x y z : RingWorld w}

theorem since_refl (inv : RingInv k a) : Since k t a a := ⟨inv, meanwhile_refl, fun _ => rfl⟩

theorem Since.env (since : Since k t a y) (env : (ringProtocol w k).Env t y z) :
    Since k t a z :=
  ⟨env.inv, meanwhile_trans since.quiet (others_meanwhile env.others),
    fun own => (env.rely own).trans (since.data own)⟩

theorem Since.trans (first : Since k t a y) (second : Since k t y z) : Since k t a z :=
  ⟨second.inv, meanwhile_trans first.quiet second.quiet,
    fun own => (second.data own).trans (first.data own)⟩

/-- An access that changes nothing can be committed as it is. -/
theorem Since.took {o : RingOp w} (since : Since k t a z)
    (same : (RingMem.exec o z.mem).2 = z.mem) : At k t a z (took t n c o z) := by
  have inv : RingInv k (SpscCalls.took t n c o z) := by
    unfold SpscCalls.took
    rw [same]
    exact since.inv.access o _
  constructor
  · refine ⟨inv, meanwhile_trans since.quiet meanwhile_access, ?_⟩
    intro own
    rw [← since.data own]
    exact congrArg RingMem.data same
  · intro _
    refine ⟨inv, ?_⟩
    intro u _ _
    exact congrArg RingMem.data same

theorem took_queue {o : RingOp w} : queueOf (took t n c o z).log = queueOf z.log :=
  queueOf_silent (silent_access o _)

section Facts
variable (since : Since k t a y)
include since

theorem Since.stop_same (own : t = .producer) :
    (queueOf y.log).stop frameLen = (queueOf a.log).stop frameLen :=
  SpscInvariant.stop_same (meanwhile_pushed_of since.quiet own)

variable (before : RingInv k a)
include before

theorem Since.start_same (own : t = .consumer) :
    (queueOf y.log).start frameLen = (queueOf a.log).start frameLen :=
  SpscInvariant.start_same before.counted since.inv.counted
    (pushed_early (meanwhile_early since.quiet)) (meanwhile_pops_of since.quiet own)

theorem Since.front {m : Message} {rest : List Message} (own : t = .consumer)
    (front : (queueOf a.log).unread = m :: rest) :
    ∃ later, (queueOf y.log).unread = m :: later := by
  have grown := unread_grows before.counted since.inv.counted
    (pushed_early (meanwhile_early since.quiet)) (meanwhile_pops_of since.quiet own)
  rw [front] at grown
  obtain ⟨more, grown⟩ := grown
  exact ⟨rest ++ more, grown.symm⟩

theorem Since.remembers (known : Remembers k a.log t) : Remembers k y.log t :=
  remembers_meanwhile before.counted since.inv.counted since.quiet known

end Facts

section Rules
variable {views : Party → SpscRingBuffer} {sys : RingSystem w} (used : WellUsed k views sys)
include used

/-- One access of a ring call. -/
theorem wp_access {α : Type} {o : RingOp w} {next : o.Res → RingProg w α}
    {post : α → RingWorld w → RingWorld w → Prop} (commit : (ringProtocol w k).Commit t x y)
    (later : ∀ z, (ringProtocol w k).Env t y z → sys.enabled z t c o →
      (ringProtocol w k).wp sys t n c (next (RingMem.exec o z.mem).1) post z (took t n c o z)) :
    (ringProtocol w k).wp sys t n c (.op o next) post x y := by
  apply Protocol.wp_op commit
  intro z env may r mem does
  have result := (used.sem t c z.mem o r mem).mp does
  have step := later z env may
  rw [took, result] at step
  exact step

/-- A load: nothing is changed, and what was known still is. -/
theorem wp_load {α : Type} {o : RingOp w} {next : o.Res → RingProg w α}
    {post : α → RingWorld w → RingWorld w → Prop} (pure : ∀ ring, (RingMem.exec o ring).2 = ring)
    (here : At k t a x y)
    (later : ∀ z, Since k t a z → Since k t y z → At k t a z (took t n c o z) →
      (ringProtocol w k).wp sys t n c (next (RingMem.exec o z.mem).1) post z (took t n c o z)) :
    (ringProtocol w k).wp sys t n c (.op o next) post x y := by
  apply wp_access used here.2
  intro z env _
  have since := here.1.env env
  exact later z since ((since_refl here.1.inv).env env) (since.took (pure z.mem))

theorem wp_loadHead {α : Type} {next : BitVec w → RingProg w α}
    {post : α → RingWorld w → RingWorld w → Prop} (here : At k t a x y)
    (later : ∀ z, Since k t a z → Since k t y z → At k t a z (took t n c .loadHead z) →
      (ringProtocol w k).wp sys t n c (next z.mem.head) post z (took t n c .loadHead z)) :
    (ringProtocol w k).wp sys t n c (.op .loadHead next) post x y :=
  wp_load used (fun _ => rfl) here later

theorem wp_loadTail {α : Type} {next : BitVec w → RingProg w α}
    {post : α → RingWorld w → RingWorld w → Prop} (here : At k t a x y)
    (later : ∀ z, Since k t a z → Since k t y z → At k t a z (took t n c .loadTail z) →
      (ringProtocol w k).wp sys t n c (next z.mem.tail) post z (took t n c .loadTail z)) :
    (ringProtocol w k).wp sys t n c (.op .loadTail next) post x y :=
  wp_load used (fun _ => rfl) here later

theorem wp_loadCapacity {α : Type} {next : BitVec w → RingProg w α}
    {post : α → RingWorld w → RingWorld w → Prop} (here : At k t a x y)
    (later : ∀ z, Since k t a z → Since k t y z → At k t a z (took t n c .loadCapacity z) →
      (ringProtocol w k).wp sys t n c (next (BitVec.ofNat w (2 ^ k))) post z
        (took t n c .loadCapacity z)) :
    (ringProtocol w k).wp sys t n c (.op .loadCapacity next) post x y := by
  apply wp_load used (fun _ => rfl) here
  intro z since recent here
  change Protocol.wp _ _ _ _ _ (next z.mem.capacity) _ _ _
  rw [since.inv.represents.capacity]
  exact later z since recent here

section Loops

/-- The producer between two bytes of a frame: `done` lies where `tail` points. -/
structure Writing (k : Nat) (a : RingWorld w) (done : List UInt8) (y : RingWorld w) : Prop where
  inv : RingInv k y
  quiet : Meanwhile .producer a.log y.log
  written : Holds y.mem.data (2 ^ k) ((queueOf a.log).stop frameLen) done

omit used in
theorem Writing.env {done : List UInt8} (writing : Writing k a done y)
    (env : (ringProtocol w k).Env .producer y z) : Writing k a done z := by
  refine ⟨env.inv, meanwhile_trans writing.quiet (others_meanwhile env.others), ?_⟩
  rw [show z.mem.data = y.mem.data from env.rely rfl]
  exact writing.written

omit used in
theorem Writing.step {done : List UInt8} (writing : Writing k a done z) (n : Nat) (c : RingCall)
    (byte : UInt8) (room : (queueOf a.log).queued frameLen + done.length < 2 ^ k) :
    let o : RingOp w := .writeByte (((queueOf a.log).stop frameLen + done.length) % 2 ^ k) byte
    Writing k a (done ++ [byte]) (took .producer n c o z) ∧
      (ringProtocol w k).Commit .producer z (took .producer n c o z) := by
  intro o
  have stops := SpscInvariant.stop_same (meanwhile_pushed_of writing.quiet rfl)
  have fewer := queued_antitone (meanwhile_early writing.quiet)
    (meanwhile_pushed_of writing.quiet rfl)
  have kept : Represents k (queueOf z.log) (RingMem.exec o z.mem).2 := by
    have free : (queueOf z.log).queued frameLen + done.length < 2 ^ k := by omega
    have rep := writing.inv.represents.write_free (b := byte) free
    rwa [stops] at rep
  have inv : RingInv k (took .producer n c o z) :=
    writing.inv.silent (silent_access _ _) trivial kept
  constructor
  · refine ⟨inv, meanwhile_trans writing.quiet meanwhile_access, ?_⟩
    exact holds_update_next writing.written (by omega)
  · intro _
    refine ⟨inv, ?_⟩
    intro u other own
    exact absurd own other

/-- `write_bytes`, byte by byte: each goes behind what was written before it. -/
theorem wp_writeFrom {bytes done : List UInt8} {base i : Nat}
    (length : done.length = base + i)
    (room : (queueOf a.log).queued frameLen + (done.length + bytes.length) ≤ 2 ^ k)
    (writing : Writing k a done y) (commit : (ringProtocol w k).Commit .producer x y) :
    (ringProtocol w k).wp sys .producer n c
      (writeFrom .release (BitVec.ofNat w ((queueOf a.log).stop frameLen + base))
        (BitVec.ofNat w (2 ^ k) - 1) i bytes).run
      (fun r x' y' => r = .ok () ∧ Writing k a (done ++ bytes) y' ∧
        (ringProtocol w k).Commit .producer x' y') x y := by
  induction bytes generalizing done i x y with
  | nil =>
      refine ⟨rfl, ?_, commit⟩
      rwa [List.append_nil]
  | cons byte rest ih =>
      rw [List.length_cons] at room
      simp only [writeFrom, Build.plus, writeByte, Prog.run_bind, Prog.run_pure, Prog.ret_bind,
        Prog.run_access, Prog.op_bind]
      apply wp_access used commit
      intro z env _
      have slot : (((BitVec.ofNat w ((queueOf a.log).stop frameLen + base) + BitVec.ofNat w i) &&&
          (BitVec.ofNat w (2 ^ k) - 1)).toNat) =
          ((queueOf a.log).stop frameLen + done.length) % 2 ^ k := by
        rw [slot_toNat used.small, length, Nat.add_assoc]
      rw [slot]
      -- the slot is free: what is queued and what was written before do not reach it
      obtain ⟨writing, commit⟩ := (writing.env env).step n c byte (by omega)
      have tail := ih (i := i + 1)
        (by rw [List.length_append, List.length_singleton]; omega)
        (by rw [List.length_append, List.length_singleton]; omega) writing commit
      rw [List.append_assoc, List.singleton_append] at tail
      exact tail

theorem wp_writeBytes {src done : List UInt8}
    (room : (queueOf a.log).queued frameLen + (done.length + src.length) ≤ 2 ^ k)
    (writing : Writing k a done y) (commit : (ringProtocol w k).Commit .producer x y) :
    (ringProtocol w k).wp sys .producer n c
      (writeBytes .release (BitVec.ofNat w ((queueOf a.log).stop frameLen + done.length)) src
        (BitVec.ofNat w (2 ^ k))).run
      (fun r x' y' => r = .ok () ∧ Writing k a (done ++ src) y' ∧
        (ringProtocol w k).Commit .producer x' y') x y := by
  simp only [writeBytes, Build.minus, Prog.run_bind, Prog.run_pure, Prog.ret_bind]
  exact wp_writeFrom used rfl room writing commit

/-- `read_bytes` over the front frame: its bytes stay put while they are read. -/
theorem wp_readFrom {m : Message} {rest : List Message} {base i count : Nat}
    (before : RingInv k a) (front : (queueOf a.log).unread = m :: rest)
    (inside : base + i + count ≤ (frame m).length) (here : At k .consumer a x y) :
    (ringProtocol w k).wp sys .consumer n c
      (readFrom .release (BitVec.ofNat w ((queueOf a.log).start frameLen + base))
        (BitVec.ofNat w (2 ^ k) - 1) i count).run
      (fun r x' y' => r = .ok (((frame m).drop (base + i)).take count) ∧
        At k .consumer a x' y') x y := by
  induction count generalizing i x y with
  | zero => exact ⟨by rw [List.take_zero], here⟩
  | succ count ih =>
      simp only [readFrom, Build.plus, readByte, Prog.run_bind, Prog.run_pure, Prog.ret_bind,
        Prog.run_access, Prog.op_bind]
      apply wp_load used (fun _ => rfl) here
      intro z since _ here
      have slot : (((BitVec.ofNat w ((queueOf a.log).start frameLen + base) + BitVec.ofNat w i) &&&
          (BitVec.ofNat w (2 ^ k) - 1)).toNat) =
          ((queueOf a.log).start frameLen + (base + i)) % 2 ^ k := by
        rw [slot_toNat used.small, Nat.add_assoc]
      -- the front frame is still where it was, though more may have been published
      have byte : z.mem.data (((queueOf a.log).start frameLen + (base + i)) % 2 ^ k) =
          (frame m)[base + i] := by
        obtain ⟨later, unread⟩ := since.front before rfl front
        have held := since.inv.represents.front unread
        rw [since.start_same before rfl] at held
        exact held (base + i) (by omega)
      rw [Protocol.wp_bind]
      refine Protocol.wp_mono ?_ (ih (i := i + 1) (by omega) here)
      rintro r x' y' ⟨rfl, here⟩
      refine ⟨?_, here⟩
      simp only [RingMem.exec]
      have inFrame : base + i < (frame m).length := by omega
      rw [slot, byte, List.drop_eq_getElem_cons inFrame, List.take_succ_cons]
      rfl

theorem wp_readBytes {m : Message} {rest : List Message} (base count : Nat)
    (before : RingInv k a) (front : (queueOf a.log).unread = m :: rest)
    (inside : base + count ≤ (frame m).length) (here : At k .consumer a x y) :
    (ringProtocol w k).wp sys .consumer n c
      (readBytes .release (BitVec.ofNat w ((queueOf a.log).start frameLen + base)) count
        (BitVec.ofNat w (2 ^ k))).run
      (fun r x' y' => r = .ok (((frame m).drop base).take count) ∧
        At k .consumer a x' y') x y := by
  simp only [readBytes, Build.minus, Prog.run_bind, Prog.run_pure, Prog.ret_bind]
  exact wp_readFrom used (i := 0) before front inside here

end Loops
end Rules
end Membridge.SpscCalls
