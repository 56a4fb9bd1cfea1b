import Membridge.RingBounds
import Membridge.RingFailures
import Membridge.WordDecoders

/-!
Sessions on one ring in an overflow-checked build, on machines of 32 and of 64 bits.
The published indices wrap, but `tail + 4`, `pos + i` and the other sums on the way do
not: a call panics where one of them leaves the word, and nowhere else.
-/
namespace Membridge.IndexWrap
open Program Python ByteOrder ByteReader Mixed Decoding Arithmetic CyclicBuffer Spsc
open SpscProtocol SpscInvariant RingAlone RingChecked RingFailures RingBounds SpscDelivery
open WordDecoders

variable {w : Nat} [Target]

section Calls
variable (w)

def popTyped (tag : Option String) (payload : List UInt8) : PyResult PyValue :=
  match tag with
  | none => .ok (.bytes payload)
  | some t => do
      let (v, _) ← decodeBuffer payload fun len => unpackOne w len t
      return v

def popSchema (schema : List PyValue) (payload : List UInt8) : PyResult PyValue := do
  let (result, _) ← decodeBuffer payload fun len => unpackMixedCounted w len schema
  return .list result

variable {w}

def pop (tag : Option String) : RingM w (Option PyValue) := do
  match ← popFrame .debug with
  | none => return none
  | some payload => return some (← popTyped w tag payload)

def popMixed (schema : List PyValue) : RingM w (Option PyValue) := do
  match ← popFrame .debug with
  | none => return none
  | some payload => return some (← popSchema w schema payload)

/-- The calls of a checked build, its decoders included. -/
def checkedCode (self : Party → SpscRingBuffer) (t : Party) : RingCall →
    RingProg w (PyResult PyValue)
  | .pop tag => (do return (← pop tag).getD .none : RingM w PyValue).run
  | .popMixed schema => (do return (← popMixed schema).getD .none : RingM w PyValue).run
  | c => ringCode .debug self t c

/-- What the decoder of a pop makes of the payload. -/
def decoded (w : Nat) (c : RingCall) (payload : List UInt8) : PyResult PyValue :=
  match c with
  | .pop tag => popTyped w tag payload
  | .popMixed schema => popSchema w schema payload
  | _ => .ok .none

theorem pop_checked {self : Party → SpscRingBuffer} {t : Party}
    {c : RingCall} (pop : isPop c = true)
    (ring : RingMem w) :
    Prog.solo RingMem.exec (checkedCode self t c) ring =
      (Prog.solo RingMem.exec (popFrame .debug).run ring).map fun result =>
        (result.1.bind fun front => front.elim (.ok .none) (decoded w c), result.2) := by
  cases c with
  | pop tag => exact popWith_decodes .debug ring (popTyped w tag)
  | popMixed schema => exact popWith_decodes .debug ring (popSchema w schema)
  | _ => cases pop

end Calls

section Conditions

/-- Decoding the payload comes to a sum that leaves the word: the end of a string that
its prefix announces, or the end of a value that would begin at the last bytes of a
payload as long as the address space. -/
def PayloadOverruns (w : Nat) (payload : List UInt8) : RingCall → Prop
  | .pop (some tag) => tag = "str" ∧ StrOverruns w (fun i => payload.getD i 0) payload.length
  | .popMixed schema => EntriesOverrun w (fun i => payload.getD i 0) payload.length schema 0
  | _ => False

/-- A sum on the way of the call leaves the word. -/
def Overflows (ring : RingMem w) : RingCall → Prop
  | .push data => ∃ payload, pushPayload data = .ok payload ∧
      4 + payload.length ≤ ring.capacity.toNat ∧
        (2 ^ w ≤ needed ring payload ∨
          needed ring payload ≤ ring.capacity.toNat ∧ Straddles ring.tail payload.length)
  | c => isPop c = true ∧ ring.head ≠ ring.tail ∧
      ((Straddles ring.head (prefixAt ring) ∨ 2 ^ w ≤ 4 + prefixAt ring) ∨
        PayloadOverruns w (frontFrame ring) c)

omit [Target] in
/-- Whether an error is a panic does not depend on what was expected. -/
theorem calm_error_iff {α β : Type} {e : PyErr} :
    Calm (.error e : PyResult α) ↔ Calm (.error e : PyResult β) := by
  constructor
  · rintro calm message ⟨⟩
    exact calm message rfl
  · rintro calm message ⟨⟩
    exact calm message rfl

omit [Target] in
theorem calm_value_iff {α β : Type} {result : PyResult α} {f : α → β} :
    Calm (result.bind fun value => .ok (f value)) ↔ Calm result := by
  cases result with
  | ok value => exact ⟨fun _ => calm_ok _, fun _ => calm_ok _⟩
  | error e => exact calm_error_iff

theorem decoded_calm_iff (c : RingCall) (payload : List UInt8) :
    Calm (decoded w c payload) ↔ ¬ PayloadOverruns w payload c := by
  cases c with
  | pop tag =>
      cases tag with
      | none => exact ⟨fun _ => id, fun _ => calm_ok _⟩
      | some tag => exact calm_value_iff.trans (unpackOne_calm_iff tag)
  | popMixed schema => exact calm_value_iff.trans (unpackMixedCounted_calm_iff schema)
  | _ => exact ⟨fun _ => id, fun _ => calm_ok _⟩

end Conditions

section Steps
variable {ring : RingMem w} {self : Party → SpscRingBuffer} {t : Party} {c : RingCall}

/-- A call alone comes to an end, keeps the capacity, and panics exactly where a sum on
its way leaves the word. -/
def Judged (self : Party → SpscRingBuffer) (t : Party) (c : RingCall) (ring : RingMem w) : Prop :=
  ∃ r after, Prog.solo RingMem.exec (checkedCode self t c) ring = some (r, after) ∧
    after.capacity = ring.capacity ∧ (Calm r ↔ ¬ Overflows ring c)

omit [Target] in
/-- A transfer that panics exactly if `bad`, and what its answer is made of. -/
theorem transfer_judged {α : Type} {p : RingM w α} {bad : Prop} {value : α} {after : RingMem w}
    (frame : PanicsIf RingMem.exec (fun last => last.capacity = ring.capacity)
      p ring bad value after)
    (kept : after.capacity = ring.capacity) (answer : α → PyResult PyValue) :
    ∃ r last, (Prog.solo RingMem.exec p.run ring).map
      (fun result => (result.1.bind answer, result.2)) =
        some (r, last) ∧
      last.capacity = ring.capacity ∧ (Calm r ↔ ¬ bad ∧ Calm (answer value)) := by
  by_cases wraps : bad
  · obtain ⟨text, last, stopped, left⟩ := frame.panics wraps
    rw [stopped]
    refine ⟨_, _, rfl, left, fun calm => absurd rfl (calm text), ?_⟩
    exact fun fine => absurd wraps fine.1
  · rw [frame.runs wraps]
    exact ⟨_, _, rfl, kept, fun calm => ⟨wraps, calm⟩, And.right⟩

theorem push_checked (data : PyValue) :
    Prog.solo RingMem.exec (checkedCode self t (.push data)) ring =
      (Prog.solo RingMem.exec (push .debug (self t) data).run ring).map fun result =>
        (result.1.bind fun pushed => .ok (.bool pushed), result.2) := by
  have code : checkedCode self t (.push data) =
      (push .debug (self t) data >>= fun pushed => pure (.bool pushed) : RingM w PyValue).run := rfl
  rw [code, Prog.run_bind, Prog.solo_bind]
  cases Prog.solo RingMem.exec (push .debug (self t) data).run ring with
  | none => rfl
  | some result =>
      obtain ⟨pushed, after⟩ := result
      cases pushed with
      | ok pushed => rfl
      | error e => rfl

theorem push_judged (wide : 32 ≤ w) (positive : 1 ≤ ring.capacity) (data : PyValue) :
    Judged self t (.push data) ring := by
  unfold Judged
  rw [push_checked]
  cases packed : pushPayload data with
  | error e =>
      have fails : Prog.solo RingMem.exec (push .debug (self t) data).run ring =
          some (.error e, ring) := by
        rw [push, packed]
        rfl
      have calm := pushPayload_calm data
      rw [packed] at calm
      rw [fails]
      refine ⟨_, _, rfl, rfl, ?_, fun _ => calm_error_iff.mp calm⟩
      rintro _ ⟨payload, same, _⟩
      cases packed.symm.trans same
  | ok payload =>
      by_cases fits : 4 + payload.length ≤ ring.capacity.toNat
      · have frame : PanicsIf RingMem.exec (fun last => last.capacity = ring.capacity)
            (push .debug (self t) data) ring _ _ _ :=
          push_panicsIf (self t) packed fits (fun _ => rfl) wide positive
        obtain ⟨r, last, ran, kept, judged⟩ := transfer_judged frame (by split <;> rfl)
          fun pushed => .ok (.bool pushed)
        refine ⟨r, last, ran, kept, judged.trans ?_⟩
        constructor
        · rintro ⟨calm, _⟩ ⟨other, same, _, wrong⟩
          cases packed.symm.trans same
          exact calm wrong
        · exact fun fine => ⟨fun wraps => fine ⟨payload, packed, fits, wraps⟩, calm_ok _⟩
      · have fails : Prog.solo RingMem.exec (push .debug (self t) data).run ring =
            some (.error (tooLarge (4 + payload.length) ring.capacity (self t).mapSize), ring) := by
          rw [push, packed, Prog.solo_run_ok (except_alone payload ring),
            Prog.solo_run_ok (capacity_alone _), if_pos (Nat.lt_of_not_le fits)]
          rfl
        rw [fails]
        refine ⟨_, _, rfl, rfl, ?_, fun _ => calm_invalid _⟩
        rintro _ ⟨other, same, room, _⟩
        cases packed.symm.trans same
        exact fits room

theorem pop_judged (wide : 32 ≤ w) (positive : 1 ≤ ring.capacity) (pop : isPop c = true) :
    Judged self t c ring := by
  have same : Overflows ring c ↔ ring.head ≠ ring.tail ∧
      ((Straddles ring.head (prefixAt ring) ∨ 2 ^ w ≤ 4 + prefixAt ring) ∨
        PayloadOverruns w (frontFrame ring) c) := by
    cases c with
    | push data => cases pop
    | _ => simp [Overflows, pop]
  unfold Judged
  rw [pop_checked pop, same]
  by_cases message : ring.head = ring.tail
  · rw [popFrame_empty .debug message]
    exact ⟨_, _, rfl, rfl, fun _ wrong => wrong.1 message, fun _ => calm_ok _⟩
  · have frame : PanicsIf RingMem.exec (fun last => last.capacity = ring.capacity)
      (popFrame .debug) ring
        _ _ _ := popFrame_panicsIf rfl wide positive message
    obtain ⟨r, last, ran, kept, judged⟩ := transfer_judged frame rfl
      fun front => front.elim (.ok .none) (decoded w c)
    refine ⟨r, last, ran, kept, judged.trans ?_⟩
    change _ ∧ Calm (decoded w c (frontFrame ring)) ↔ _
    rw [decoded_calm_iff, ← not_or, not_and]
    exact ⟨fun calm _ => calm, fun calm => calm message⟩

theorem call_judged (wide : 32 ≤ w) (positive : 1 ≤ ring.capacity) (moves : transfers c = true) :
    Judged self t c ring := by
  rcases transfers_cases moves with ⟨data, rfl⟩ | pop
  · exact push_judged wide positive data
  · exact pop_judged wide positive pop

/-- On 64 bits the decoders do not show the machine: these are the calls of `ringCode`. -/
theorem checked_plain {ring : RingMem 64} {self : Party → SpscRingBuffer} {t : Party}
    (positive : 1 ≤ ring.capacity) (moves : transfers c = true) :
    Prog.solo RingMem.exec (checkedCode self t c) ring =
      Prog.solo RingMem.exec (ringCode .debug self t c) ring := by
  rcases transfers_cases moves with ⟨data, rfl⟩ | pop
  · rfl
  · have decoders : decoded 64 c (frontFrame ring) = outcome c (frontFrame ring) := by
      have short : (frontFrame ring).length < 2 ^ 32 := by
        rw [frontFrame, gather_length]
        exact prefixAt_lt
      cases c with
      | pop tag =>
          cases tag with
          | none => rfl
          | some tag => exact congrArg (Except.map Prod.fst) (unpackOne_plain tag)
      | popMixed schema => exact congrArg (Except.map _) (unpackMixedCounted_plain short schema)
      | _ => cases pop
    rw [pop_checked pop, pop_decodes pop]
    by_cases message : ring.head = ring.tail
    · rw [popFrame_empty .debug message]
      rfl
    · have frame : PanicsIf RingMem.exec (fun _ => True) (popFrame .debug) ring _ _ _ :=
        popFrame_panicsIf trivial (by decide) positive message
      by_cases wraps : Straddles ring.head (prefixAt ring) ∨ 2 ^ 64 ≤ 4 + prefixAt ring
      · obtain ⟨text, last, stopped, _⟩ := frame.panics wraps
        rw [stopped]
        rfl
      · rw [frame.runs wraps]
        exact congrArg (fun r => some (r, consumed ring)) decoders

end Steps

section Runs
variable {self : Party → SpscRingBuffer}

/-- The calls in order, each run to completion. -/
def session (self : Party → SpscRingBuffer) :
    List (Party × RingCall) → RingMem w → Option (List (PyResult PyValue) × RingMem w)
  | [], ring => some ([], ring)
  | (t, c) :: rest, ring => do
      let (result, after) ← Prog.solo RingMem.exec (checkedCode self t c) ring
      let (results, last) ← session self rest after
      return (result :: results, last)

/-- In the state in which it is made, no call of the session overflows. -/
def Clear (self : Party → SpscRingBuffer) : List (Party × RingCall) → RingMem w → Prop
  | [], _ => True
  | (t, c) :: rest, ring =>
      ¬ Overflows ring c ∧
        ∀ r after, Prog.solo RingMem.exec (checkedCode self t c) ring = some (r, after) →
          Clear self rest after

theorem session_cons {t : Party} {c : RingCall} {rest : List (Party × RingCall)}
    {ring after last : RingMem w}
    {r : PyResult PyValue} {results : List (PyResult PyValue)}
    (ran : Prog.solo RingMem.exec (checkedCode self t c) ring = some (r, after))
    (later : session self rest after = some (results, last)) :
    session self ((t, c) :: rest) ring = some (r :: results, last) := by
  simp [session, ran, later]

theorem session_judged (wide : 32 ≤ w) {calls : List (Party × RingCall)}
    (moves : ∀ call ∈ calls, transfers call.2 = true) {ring : RingMem w}
    (positive : 1 ≤ ring.capacity) :
    ∃ results last, session self calls ring = some (results, last) ∧
      ((∀ r ∈ results, Calm r) ↔ Clear self calls ring) := by
  induction calls generalizing ring with
  | nil => exact ⟨[], ring, rfl, fun _ => trivial, fun _ => nofun⟩
  | cons call rest ih =>
      obtain ⟨t, c⟩ := call
      obtain ⟨r, after, ran, kept, judged⟩ : Judged self t c ring :=
        call_judged wide positive (moves (t, c) List.mem_cons_self)
      obtain ⟨results, last, later, clear⟩ := ih
        (fun call member => moves call (List.mem_cons_of_mem _ member)) (kept ▸ positive)
      refine ⟨r :: results, last, session_cons ran later, ?_⟩
      · rw [List.forall_mem_cons, judged, clear, Clear]
        apply and_congr_right
        intro _
        constructor
        · intro good r' after' ran'
          cases ran.symm.trans ran'
          exact good
        · exact fun good => good r after ran

/-- A ring as `SpscRingBuffer::new` leaves it for a creator whose data area has `cap` bytes,
over whatever the segment held before. -/
def Created (cap : Nat) (ring : RingMem w) : Prop :=
  headerSize + cap < 2 ^ w ∧
    ∃ before, Prog.solo RingMem.exec (new (headerSize + cap) true).run before = some (.ok (), ring)

/-- In an overflow-checked build, any calls on a new ring come to an end, and none of them
panics exactly where every one is made in a state in which no sum on its way leaves the word. -/
theorem sessions_panic_free (width : w = 32 ∨ w = 64) {cap : Nat} {ring : RingMem w}
    (created : Created cap ring) (self : Party → SpscRingBuffer) (calls : List (Party × RingCall))
    (moves : ∀ call ∈ calls, transfers call.2 = true) :
    ∃ results last, session self calls ring = some (results, last) ∧
      ((∀ r ∈ results, Calm r) ↔ Clear self calls ring) := by
  obtain ⟨fits, before, ran⟩ := created
  obtain ⟨k, _, small, start⟩ := new_fresh fits ran
  have wide : 32 ≤ w := by omega
  have positive : 1 ≤ ring.capacity := by
    rw [start]
    exact one_le_capacity small
  exact session_judged wide moves positive

end Runs

section Limits
variable {ring : RingMem w} (self : Party → SpscRingBuffer)

/-- A byte in, a byte out: five bytes of index each time. -/
def rounds : Nat → List (Party × RingCall) → List (Party × RingCall)
  | 0, rest => rest
  | n + 1, rest => (.producer, .push (.bool true)) :: (.consumer, .pop none) :: rounds n rest

/-- An empty ring of 16 bytes whose indices stand at `p`. -/
def At (p : Nat) (ring : RingMem w) : Prop :=
  ring.head = BitVec.ofNat w p ∧ ring.tail = BitVec.ofNat w p ∧
    ring.capacity = BitVec.ofNat w (2 ^ 4)

theorem push_at (wide : 32 ≤ w) (ours : SpscRingBuffer) {p : Nat}
    (here : At p ring) (below : p < 2 ^ w) :
    PanicsIf RingMem.exec (fun _ => True) (push .debug ours (.bool true)) ring (2 ^ w ≤ p + 4) true
      (appended ring [1]) := by
  obtain ⟨head, tail, power⟩ := here
  have small : 4 < w := by omega
  have words : 2 ^ 32 ≤ 2 ^ w := Nat.pow_le_pow_right (by decide) wide
  have size : ring.capacity.toNat = 16 := by
    rw [power]
    exact capacity_toNat small
  have packed : pushPayload (.bool true) = .ok [1] := rfl
  have asked : needed ring [1] = 5 := by
    rw [needed, head, tail, BitVec.sub_self]
    rfl
  have index : ring.tail.toNat = p := by
    rw [tail, BitVec.toNat_ofNat]
    exact Nat.mod_eq_of_lt below
  have frame : PanicsIf RingMem.exec (fun _ => True) (push .debug ours (.bool true)) ring _ _ _ :=
    push_panicsIf ours packed (by rw [size]; decide)
      (fun _ => trivial) wide (capacity_pos small power)
  rw [size, asked, decide_eq_true (by decide : 5 ≤ 16), if_pos (by decide)] at frame
  apply frame.congr
  rw [Straddles, index, List.length_singleton]
  omega

/-- One byte is pushed and popped. -/
theorem round_runs (wide : 32 ≤ w) {p : Nat} (here : At p ring) (below : p + 5 < 2 ^ w) :
    ∃ payload middle last,
      Prog.solo RingMem.exec (checkedCode self .producer (.push (.bool true))) ring =
        some (.ok (.bool true), middle) ∧
      Prog.solo RingMem.exec (checkedCode self .consumer (.pop none)) middle =
        some (.ok (.bytes payload), last) ∧
      At (p + 5) last := by
  have pushed := (push_at wide (self .producer) here (by omega)).runs (by omega)
  obtain ⟨head, tail, power⟩ := here
  have small : 4 < w := by omega
  have words : 2 ^ 32 ≤ 2 ^ w := Nat.pow_le_pow_right (by decide) wide
  have next : (appended ring [1]).tail = BitVec.ofNat w (p + 5) := by
    rw [BitVec.ofNat_add, ← tail]
    rfl
  have length : prefixAt (appended ring [1]) = 1 := by
    have room : 4 + ([1] : List UInt8).length ≤ 2 ^ 4 := by decide
    have front := appended_prefix small power room
    rw [tail, ← head] at front
    exact front
  have index : ring.head.toNat = p := by
    rw [head, BitVec.toNat_ofNat]
    exact Nat.mod_eq_of_lt (by omega)
  have message : (appended ring [1]).head ≠ (appended ring [1]).tail := by
    rw [next]
    intro same
    have equal := (word_eq_iff (Nat.le_add_right p 5) (by omega)).mp (head.symm.trans same)
    omega
  have frame : PanicsIf RingMem.exec (fun _ => True) (popFrame .debug) (appended ring [1]) _ _ _ :=
    popFrame_panicsIf trivial wide (capacity_pos small power) message
  have calm : ¬ (Straddles (appended ring [1]).head (prefixAt (appended ring [1])) ∨
      2 ^ w ≤ 4 + prefixAt (appended ring [1])) := by
    have same : (appended ring [1]).head.toNat = p := index
    rw [length, Straddles, same]
    omega
  have moved : ring.head + BitVec.ofNat w (4 + prefixAt (appended ring [1])) =
    BitVec.ofNat w (p + 5) := by
    rw [length, head]
    exact (BitVec.ofNat_add p 5).symm
  have popped : Prog.solo RingMem.exec (checkedCode self .consumer (.pop none))
    (appended ring [1]) =
      some (.ok (.bytes (frontFrame (appended ring [1]))), consumed (appended ring [1])) := by
    rw [pop_checked rfl, frame.runs calm]
    rfl
  exact ⟨_, _, _, Prog.solo_run_ok pushed, popped, moved, next, power⟩

theorem rounds_run (wide : 32 ≤ w) {n p : Nat} (here : At p ring) (below : p + 5 * n < 2 ^ w)
    (rest : List (Party × RingCall)) :
    ∃ results later, At (p + 5 * n) later ∧ ∀ more last, session self rest later =
      some (more, last) →
      session self (rounds n rest) ring = some (results ++ more, last) := by
  induction n generalizing p ring with
  | zero => exact ⟨[], ring, here, fun _ _ ran => ran⟩
  | succ n ih =>
      obtain ⟨payload, middle, after, pushed, popped, there⟩ :=
        round_runs self wide here (by omega)
      obtain ⟨results, later, ends, runs⟩ := ih there (by omega)
      refine ⟨.ok (.bool true) :: .ok (.bytes payload) :: results, later, ?_, ?_⟩
      · have sum : p + 5 * (n + 1) = p + 5 + 5 * n := by omega
        rwa [sum]
      · intro more last ran
        exact session_cons pushed (session_cons popped (runs more last ran))

/-- Where the indices stand at the last one, a push panics. -/
theorem last_index_panics (wide : 32 ≤ w) (here : At (2 ^ w - 1) ring) :
    ∃ text last, Prog.solo RingMem.exec (checkedCode self .producer (.push (.bool true))) ring =
      some (.error (.panic text), last) := by
  have positive := Nat.two_pow_pos w
  have frame := push_at wide (self .producer) here (by omega)
  obtain ⟨text, last, stopped, _⟩ := frame.panics (by omega)
  exact ⟨text, last, Prog.solo_run_fails stopped⟩

omit [Target] in
theorem created_small (wide : 32 ≤ w) (data : Nat → UInt8) :
    Created 16 (⟨0, 0, BitVec.ofNat w 16, data⟩ : RingMem w) := by
  have words : 2 ^ 32 ≤ 2 ^ w := Nat.pow_le_pow_right (by decide) wide
  refine ⟨?_, ⟨0, 0, 0, data⟩, new_accepts (by decide) (by decide) _⟩
  rw [headerSize]
  omega

/-- After as many bytes as the indices can count, a push panics on a ring that is empty. -/
theorem indices_run_out (wide : 32 ≤ w) {q : Nat} (count : 5 * q = 2 ^ w - 1) (data : Nat → UInt8) :
    ∃ results text last,
      session anyRing (rounds q [(.producer, .push (.bool true))])
        (⟨0, 0, BitVec.ofNat w 16, data⟩ : RingMem w) =
          some (results ++ [.error (.panic text)], last) := by
  have start : At 0 (⟨0, 0, BitVec.ofNat w 16, data⟩ : RingMem w) := ⟨rfl, rfl, rfl⟩
  have positive := Nat.two_pow_pos w
  obtain ⟨results, later, there, runs⟩ :=
    rounds_run anyRing wide (n := q) start (by omega) [(.producer, .push (.bool true))]
  rw [Nat.zero_add, count] at there
  obtain ⟨text, last, stopped⟩ := last_index_panics anyRing wide there
  exact ⟨results, text, last, runs _ _ (session_cons stopped rfl)⟩

omit [Target]

/-- A byte at a time, to the last index of a machine of 32 bits and of one of 64. -/
theorem last_push_panics :
    (Created 16 (⟨0, 0, 16, fun _ => 0⟩ : RingMem 32) ∧ ∃ results text last,
      @session 32 littleEndian anyRing (rounds 858993459 [(.producer, .push (.bool true))])
        ⟨0, 0, 16, fun _ => 0⟩ = some (results ++ [.error (.panic text)], last)) ∧
    Created 16 (⟨0, 0, 16, fun _ => 0⟩ : RingMem 64) ∧ ∃ results text last,
      @session 64 littleEndian anyRing
        (rounds 3689348814741910323 [(.producer, .push (.bool true))])
        ⟨0, 0, 16, fun _ => 0⟩ = some (results ++ [.error (.panic text)], last) := by
  have narrow : 32 ≤ 32 := Nat.le_refl 32
  have large : 32 ≤ 64 := by decide
  exact ⟨⟨created_small narrow _, @indices_run_out 32 littleEndian narrow _ (by decide) _⟩,
    created_small large _, @indices_run_out 64 littleEndian large _ (by decide) _⟩

/-- One byte through a new ring of a 32-bit machine. -/
theorem sessions_panic_free_oneByte :
    ∃ results last, @session 32 littleEndian anyRing
        [(.producer, .push (.bool true)), (.consumer, .pop (some "bool"))] ⟨0, 0, 16, fun _ => 0⟩ =
          some (results, last) ∧
      ∀ r ∈ results, Calm r := by
  have created : Created 16 (⟨0, 0, 16, fun _ => 0⟩ : RingMem 32) :=
    created_small (Nat.le_refl 32) _
  have moves : ∀ call ∈ [(Party.producer, RingCall.push (.bool true)),
    (.consumer, .pop (some "bool"))],
      transfers call.2 = true := by decide
  have clear : @Clear 32 littleEndian anyRing
      [(.producer, .push (.bool true)), (.consumer, .pop (some "bool"))]
        ⟨0, 0, 16, fun _ => 0⟩ := by
    constructor
    · rintro ⟨payload, ⟨⟩, _, wraps | ⟨_, wraps⟩⟩
      · exact absurd wraps (by decide)
      · exact absurd wraps (by decide)
    · intro r after ran
      have pushed : Prog.solo RingMem.exec
          (@checkedCode 32 littleEndian anyRing .producer (.push (.bool true)))
            ⟨0, 0, 16, fun _ => 0⟩ =
            some (.ok (.bool true), @appended 32 littleEndian ⟨0, 0, 16, fun _ => 0⟩ [1]) := rfl
      cases pushed.symm.trans ran
      refine ⟨?_, fun _ _ _ => trivial⟩
      rintro ⟨_, _, (wraps | wraps) | ⟨isStr, _⟩⟩
      · exact absurd wraps (by decide)
      · exact absurd wraps (by decide)
      · exact absurd isStr (by decide)
  obtain ⟨results, last, ran, judged⟩ := @sessions_panic_free 32 littleEndian (.inl rfl) _ _ created
    anyRing _ moves
  exact ⟨results, last, ran, judged.mpr clear⟩

end Limits
end Membridge.IndexWrap
