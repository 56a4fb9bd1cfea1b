import Membridge.BoundedCalls
import Membridge.Spsc

/-!
Every call of a ring ends after so many accesses of its own, whatever the header and
the data area respond and whatever the other side does meanwhile. A length prefix has
32 bits, so even a forged one keeps a pop that short.
-/
namespace Membridge.WaitFree
open Program Interleaving BoundedCalls Python ByteOrder Mixed Arithmetic Spsc

variable {w : Nat} {ok : (o : RingOp w) → o.Res → Prop}

section Loops
variable (build : Build)

theorem plus_within (x y : BitVec w) :
    Within ok (fun _ => True) 0 (build.plus x y : RingM w (BitVec w)).run := by
  cases build with
  | release => trivial
  | debug =>
      rw [Build.plus]
      split <;> trivial

theorem minus_within (x y : BitVec w) :
    Within ok (fun _ => True) 0 (build.minus x y : RingM w (BitVec w)).run := by
  cases build with
  | release => trivial
  | debug =>
      rw [Build.minus]
      split <;> trivial

theorem writeFrom_within (pos mask : BitVec w) (i : Nat) (src : List UInt8) :
    Within ok (fun _ => True) src.length (writeFrom build pos mask i src).run := by
  induction src generalizing i with
  | nil => trivial
  | cons byte rest ih =>
      rw [writeFrom]
      refine within_run_still (plus_within build _ _) (fun _ _ => trivial) fun slot _ => ?_
      exact within_run_access fun _ _ => ih (i + 1)

theorem writeBytes_within (pos cap : BitVec w) (src : List UInt8) :
    Within ok (fun _ => True) src.length (writeBytes build pos src cap).run := by
  rw [writeBytes]
  exact within_run_still (minus_within build _ _) (fun _ _ => trivial)
    fun mask _ => writeFrom_within build pos mask 0 src

/-- If bytes are read, as many as were asked for. -/
def Long (count : Nat) (r : PyResult (List UInt8)) : Prop :=
  ∀ bytes, r = .ok bytes → bytes.length = count

theorem readFrom_within (pos mask : BitVec w) (i count : Nat) :
    Within ok (Long count) count (readFrom build pos mask i count).run := by
  induction count generalizing i with
  | zero =>
      rintro bytes ⟨⟩
      rfl
  | succ count ih =>
      rw [readFrom]
      refine within_run_still (plus_within build _ _) (fun _ _ _ => nofun) fun slot _ => ?_
      refine within_run_access fun byte _ => ?_
      refine within_run_bind (m := 0) (ih (i + 1)) (fun _ _ _ => nofun) fun rest length => ?_
      rintro bytes ⟨⟩
      rw [List.length_cons, length rest rfl]

theorem readBytes_within (pos cap : BitVec w) (count : Nat) :
    Within ok (Long count) count (readBytes build pos count cap).run := by
  rw [readBytes]
  exact within_run_still (minus_within build _ _) (fun _ _ _ => nofun)
    fun mask _ => readFrom_within build pos mask 0 count

end Loops

variable [Target]

/-- How many accesses a call needs at most. -/
def accesses : RingCall → Nat
  | .push data =>
      match pushPayload data with
      | .ok payload => 8 + payload.length
      | .error _ => 0
  | .pop _ => 7 + 2 ^ 32
  | .popMixed _ => 7 + 2 ^ 32
  | .used => 2
  | .free => 3
  | .isEmpty => 2
  | .isFull => 3
  | .spsc _ _ => 3

section Calls
variable (build : Build)

/-- A push too large for the capacity it loaded says so, with that capacity. -/
def Refuses {α : Type} (ok : (o : RingOp w) → o.Res → Prop) (self : SpscRingBuffer) (data : PyValue)
    (r : PyResult α) : Prop :=
  ∀ payload, pushPayload data = .ok payload → ∃ cap, ok .loadCapacity cap ∧
    (cap.toNat < 4 + payload.length → r = .error (tooLarge (4 + payload.length) cap self.mapSize))

theorem push_within (self : SpscRingBuffer) (data : PyValue) :
    Within ok (Refuses ok self data) (accesses (.push data)) (push build self data).run := by
  rw [push, accesses]
  cases packed : pushPayload data with
  | error e =>
      intro payload same
      cases packed.symm.trans same
  | ok payload =>
      have header : ∀ pos cap : BitVec w, Within ok (fun _ => True) 4
          (writeBytes build pos (toNeBytes 4 (payload.length % 2 ^ 32)) cap).run := by
        intro pos cap
        have within : Within ok (fun _ => True) (toNeBytes 4 (payload.length % 2 ^ 32)).length
            (writeBytes build pos (toNeBytes 4 (payload.length % 2 ^ 32)) cap).run :=
          writeBytes_within build pos cap _
        rwa [toNeBytes_length] at within
      have count : 8 + payload.length = 4 + (payload.length + 1) + 1 + 1 + 1 := by omega
      dsimp only
      rw [count]
      have packs : Within ok (fun r => r = .ok payload) 0
          (liftM (.ok payload : PyResult (List UInt8)) : RingM w (List UInt8)).run :=
            within_ret.mpr rfl
      refine within_run_still packs nofun ?_
      rintro _ ⟨⟩
      refine within_run_access fun cap told => ?_
      have refuses : ∀ r : PyResult Bool, ¬ 4 + payload.length > cap.toNat →
        Refuses ok self data r := by
        intro r fits other same
        cases packed.symm.trans same
        exact ⟨cap, told, fun large => absurd large fits⟩
      split
      · next large =>
          rw [Prog.run_throw, within_ret]
          intro other same
          cases packed.symm.trans same
          exact ⟨cap, told, fun _ => rfl⟩
      · next fits =>
          refine within_run_access fun head _ => within_run_access fun tail _ => ?_
          refine within_run_still (plus_within build _ _)
            (fun _ _ => refuses _ fits) fun needed _ => ?_
          split
          · exact within_ret.mpr (refuses _ fits)
          · refine within_run_bind (header _ _) (fun _ _ => refuses _ fits) fun _ _ => ?_
            refine within_run_still (plus_within build _ _)
              (fun _ _ => refuses _ fits) fun body _ => ?_
            refine within_run_bind (writeBytes_within build _ _ _)
              (fun _ _ => refuses _ fits) fun _ _ => ?_
            exact within_run_access fun _ _ => within_ret.mpr (refuses _ fits)

theorem popFrame_within :
    Within ok (fun _ => True) (7 + 2 ^ 32) (popFrame (w := w) build).run := by
  rw [popFrame, show 7 + 2 ^ 32 = 4 + (2 ^ 32 - 1 + 1) + 1 + 1 + 1 by rfl]
  refine within_run_access fun head _ => within_run_access fun tail _ => ?_
  split
  · exact within_ret.mpr trivial
  · refine within_run_access fun cap _ => ?_
    refine within_run_bind (readBytes_within build head cap 4)
      (fun _ _ => trivial) fun lenBytes length => ?_
    refine within_run_still (plus_within build _ _) (fun _ _ => trivial) fun body _ => ?_
    -- four bytes say less than 2 ^ 32
    have short : (BitVec.ofNat w (fromNeBytes lenBytes)).toNat ≤ 2 ^ 32 - 1 := by
      have bound := fromNeBytes_lt lenBytes
      rw [length lenBytes rfl] at bound
      have less := Nat.mod_le (fromNeBytes lenBytes) (2 ^ w)
      rw [BitVec.toNat_ofNat]
      omega
    refine within_run_bind (within_mono (readBytes_within build body cap _) short)
      (fun _ _ => trivial)
      fun payload _ => ?_
    refine within_run_still (plus_within build _ _) (fun _ _ => trivial) fun frameLen _ => ?_
    exact within_run_access fun _ _ => within_ret.mpr trivial

omit [Target] in
/-- A result that is only wrapped or decoded costs no access. -/
theorem within_then {α β : Type} {n : Nat} {p : RingM w α} {f : α → RingM w β}
    (first : Within ok (fun _ => True) n p.run)
    (later : ∀ a, Within ok (fun _ => True) 0 (f a).run) :
    Within ok (fun _ => True) n (p >>= f).run :=
  within_run_bind (m := 0) first (fun _ _ => trivial) fun a _ => later a

omit [Target] in
theorem used_within : Within ok (fun _ => True) 2 (used (w := w)).run :=
  within_run_access fun _ _ => within_run_access fun _ _ => within_ret.mpr trivial

theorem popWith_within (decoder : List UInt8 → PyResult PyValue) :
    Within ok (fun _ => True) (7 + 2 ^ 32) (do
      let popped ← (do
        match ← popFrame build with
        | none => return none
        | some payload => return some (← decoder payload) : RingM w (Option PyValue))
      return popped.getD .none : RingM w PyValue).run := by
  refine within_then (within_then (popFrame_within build) fun front => ?_) fun _ =>
    within_ret.mpr trivial
  cases front with
  | none => exact within_ret.mpr trivial
  | some payload =>
      have decodes :
        Within ok (fun _ => True) 0 (liftM (decoder payload) : RingM w PyValue).run := by
        cases decoder payload <;> exact within_ret.mpr trivial
      exact within_then decodes fun _ => within_ret.mpr trivial

omit [Target] in
theorem new_within (mapSize : Nat) (isCreator : Bool) :
    Within ok (fun _ => True) 3 (new (w := w) mapSize isCreator).run := by
  rw [new]
  split
  · exact within_ret.mpr trivial
  · split
    · dsimp only
      split
      · exact within_ret.mpr trivial
      · exact within_run_access fun _ _ => within_run_access fun _ _ => fun _ _ =>
          within_ret.mpr trivial
    · exact within_ret.mpr trivial

omit [Target] in
theorem spsc_within (handle : Segment.SharedMemory) (mapping : PyResult Unit) :
    Within ok (fun _ => True) 3 (spsc (w := w) handle mapping).run := by
  have mapped : Within ok (fun _ => True) 0 (liftM mapping : RingM w Unit).run := by
    cases mapping <;> exact within_ret.mpr trivial
  refine within_run_still mapped (fun _ _ => trivial) fun _ _ => ?_
  exact within_then (new_within _ _) fun _ => within_ret.mpr trivial

/-- What a call gives back, of the memory it saw. -/
def Told (ok : (o : RingOp w) → o.Res → Prop) (self : Party → SpscRingBuffer) (t : Party) :
    RingCall → PyResult PyValue → Prop
  | .push data, r => Refuses ok (self t) data r
  | _, _ => True

theorem ringCode_within (self : Party → SpscRingBuffer) (t : Party) (c : RingCall) :
    Within ok (Told ok self t c) (accesses c) (ringCode build self t c) := by
  cases c with
  | push data =>
      refine within_run_bind (m := 0) (push_within build (self t) data) ?_ ?_
      · intro e refuses payload packed
        obtain ⟨cap, told, large⟩ := refuses payload packed
        exact ⟨cap, told, fun beyond => congrArg _ (Except.error.inj (large beyond))⟩
      · intro pushed refuses
        rw [Prog.run_pure, within_ret]
        intro payload packed
        obtain ⟨cap, told, large⟩ := refuses payload packed
        exact ⟨cap, told, fun beyond => nomatch large beyond⟩
  | pop tag => exact popWith_within build (popTyped tag)
  | popMixed schema => exact popWith_within build (popSchema schema)
  | used => exact within_then used_within fun _ => within_ret.mpr trivial
  | free =>
      refine within_then (within_run_access fun cap _ => ?_) fun _ => within_ret.mpr trivial
      exact within_then used_within fun _ => within_ret.mpr trivial
  | isEmpty =>
      refine within_then (within_run_access fun head _ => ?_) fun _ => within_ret.mpr trivial
      exact within_run_access fun _ _ => within_ret.mpr trivial
  | isFull =>
      refine within_then ?_ fun _ => within_ret.mpr trivial
      refine within_run_bind (m := 1) used_within (fun _ _ => trivial) fun taken _ => ?_
      exact within_run_access fun _ _ => within_ret.mpr trivial
  | spsc handle mapping =>
      exact within_then (spsc_within handle mapping) fun _ => within_ret.mpr trivial

end Calls

section Runs
variable {build : Build} {views : Party → SpscRingBuffer}
  {sem : Party → RingCall → RingMem w → (o : RingOp w) → o.Res → RingMem w → Prop}
  {allowed : Party → RingCall → Prop} {enabled : RingWorld w → Party → RingCall → RingOp w → Prop}
  {ring : RingMem w}

/-- Wait-freedom. Whatever the memory responds (`sem` is any relation) and whatever the other
parties do, a call makes at most the accesses counted for it, and one that has made them all
has returned. -/
theorem ring_wait_free
    {cfg : Config Party RingCall (PyResult PyValue) (RingOp w) RingOp.Res (RingMem w)}
    (reach : Reachable ⟨ringCode build views, sem, allowed, enabled⟩ ring cfg) :
    (∀ t id c, cfg.world.log[id]? = some (.invoke t id c) →
      made cfg.world.log t id ≤ accesses c) ∧
    ∀ t run, cfg.running t = some run → made cfg.world.log t run.id < accesses run.call := by
  have bounded : Bounded (fun _ _ => True) (Told (fun _ _ => True) views) (fun _ => accesses) cfg :=
    Reachable.bounded (fun _ _ _ _ _ _ _ _ => trivial)
      (fun t c _ => ringCode_within build views t c) reach
  refine ⟨bounded.made, ?_⟩
  intro t run busy
  obtain ⟨n, _, more, left⟩ := bounded.running t run busy
  omega

omit [Target]

/-- The start of a push of bytes by the producer. -/
def pushStarted : RingEvent w → Option (Nat × List UInt8)
  | .invoke .producer id (.push (.bytes content)) => some (id, content)
  | _ => none

theorem pushStarted_eq {e : RingEvent w} {id : Nat} {content : List UInt8}
    (started : pushStarted e = some (id, content)) :
    e = .invoke .producer id (.push (.bytes content)) := by
  unfold pushStarted at started
  split at started
  · cases started
    rfl
  · cases started

/-- A push of two bytes: ten accesses. -/
theorem ring_wait_free_twoBytes :
    ∃ cfg : Config Party RingCall (PyResult PyValue) (RingOp 64) RingOp.Res (RingMem 64),
      made cfg.world.log .producer 0 = 10 ∧
      made cfg.world.log .producer 0 ≤ @accesses littleEndian (.push (.bytes [104, 105])) := by
  have ran : (schedule (@ringSystem 64 .release littleEndian (fun _ => ⟨40⟩) fun _ _ => True)
      (fun _ _ o ring => RingMem.exec o ring)
      (.call .producer (.push (.bytes [104, 105])) :: turns .producer 10)
      (.initial ⟨0, 0, 16, fun _ => 0⟩)).map (fun cfg => (made cfg.world.log .producer 0,
        cfg.world.log[0]?.bind pushStarted)) = some (10, some (0, [104, 105])) := by
    decide +kernel
  obtain ⟨cfg, reach, result⟩ := schedule_reaches (@exec_faithful _ _ littleEndian _ _) ran
  obtain ⟨count, first⟩ := Prod.mk.inj result
  obtain ⟨e, there, started⟩ := Option.bind_eq_some_iff.mp first
  cases pushStarted_eq started
  exact ⟨cfg, count, (@ring_wait_free _ littleEndian _ _ _ _ _ _ _ reach).1 _ _ _ there⟩

end Runs
end Membridge.WaitFree
