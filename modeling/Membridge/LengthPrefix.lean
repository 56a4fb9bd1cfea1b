import Membridge.Consumption
import Membridge.Encoding

/-!
Length prefixes of strings and of ring frames. Both are a `usize` narrowed with
`as u32`, so they tell the truth below `2 ^ 32` bytes and nowhere else.
-/
namespace Membridge.LengthPrefix
open Program Python ByteOrder ByteReader Mixed Decoding Encoding Arithmetic CyclicBuffer Spsc
open SpscProtocol (isPop)
open RingAlone RingChecked CopyLaw Consumption

variable [Target]

/-- The four bytes in front tell how many follow. -/
def Tells (framed : List UInt8) : Prop := 4 + fromNeBytes (framed.take 4) = framed.length

theorem tells_iff (content : List UInt8) :
    Tells (toNeBytes 4 (content.length % 2 ^ 32) ++ content) ↔ content.length < 2 ^ 32 := by
  have front : (toNeBytes 4 (content.length % 2 ^ 32) ++ content).take 4 =
      toNeBytes 4 (content.length % 2 ^ 32) := by
    rw [List.take_append_of_le_length (by simp), List.take_of_length_le (by simp)]
  have number : fromNeBytes (toNeBytes 4 (content.length % 2 ^ 32)) = content.length % 2 ^ 32 := by
    rw [fromNeBytes_toNeBytes]
    exact Nat.mod_eq_of_lt (Nat.lt_of_lt_of_eq (Nat.mod_lt _ (by decide)) (by decide))
  rw [Tells, front, number, List.length_append, toNeBytes_length]
  omega

section Strings

/-- What the decoders make of a packed string, wherever it lies. -/
structure StringTold (packed : List UInt8) : Prop where
  tells : Tells packed
  one : ∀ mem len, Reader.span mem 0 packed.length = packed → packed.length ≤ len →
    ∃ v, decode mem (unpackOne len "str") = .ok (v, packed.length)
  counted : ∀ mem len cursor, Reader.span mem cursor packed.length = packed →
    cursor + packed.length ≤ len →
    ∃ v, decode mem (unpackEntries len [.tuple [.ofString "str", .int 1]] [] cursor) =
      .ok ([v], cursor + packed.length)

theorem str_packed {points : List CodePoint} {chars : List Char}
    (valid : toChars points = .ok chars)
    (out : List UInt8) : packValue (.str points) out =
      .ok (out ++ (toNeBytes 4 ((Utf8.encode chars).length % 2 ^ 32) ++ Utf8.encode chars)) := by
  simp [packValue, valid, bind, Except.bind, pure, Except.pure]

theorem stringTold_of_short {chars : List Char} (short : (Utf8.encode chars).length < 2 ^ 32) :
    StringTold (toNeBytes 4 ((Utf8.encode chars).length % 2 ^ 32) ++ Utf8.encode chars) where
  tells := (tells_iff _).mpr short
  one mem len there fits := ⟨_, str_back short rfl there fits⟩
  counted mem len cursor there fits := by
    have entry : schemaEntry (.tuple [.ofString "str", .int 1]) = .ok ("str", 1) := by
      have name := extractString_ofString "str"
      simp [schemaEntry, bind, Except.bind, pure, Except.pure, name, PyValue.extractUsize]
    refine ⟨.str (chars.map .scalar), ?_⟩
    simp [unpackEntries, entry, repetition, repeated, strAt_back short rfl there fits, Except.bind,
      entryValue]

/-- The prefix of a packed string is right exactly below 2 ^ 32 bytes. -/
theorem strings_told (points : List CodePoint) :
    (∀ out packed, packValue (.str points) out = .ok (out ++ packed) → StringTold packed) ↔
      ∀ chars, toChars points = .ok chars → (Utf8.encode chars).length < 2 ^ 32 := by
  constructor
  · intro told chars valid
    exact (tells_iff _).mp (told [] _ (str_packed valid [])).tells
  · intro short out packed done
    cases valid : toChars points with
    | error e => simp [packValue, valid, bind, Except.bind] at done
    | ok chars =>
        rw [str_packed valid out, Except.ok.injEq, List.append_cancel_left_eq] at done
        subst done
        exact stringTold_of_short (short chars valid)

end Strings

section Frames
variable {build : Build} {self : Party → SpscRingBuffer} {t : Party} {data : PyValue}
  {payload : List UInt8} {ring after : RingMem 64} {k : Nat}

/-- `later` has the frame at its front that `after` has behind the tail of `ring`. -/
structure Front (ring after later : RingMem 64) : Prop where
  head : later.head = ring.tail
  capacity : later.capacity = after.capacity
  message : later.head ≠ later.tail
  bytes : ∀ i, i < (after.tail - ring.tail).toNat →
    later.data (slotOf (after.capacity - 1) ring.tail i) =
      after.data (slotOf (after.capacity - 1) ring.tail i)

/-- What a push from `ring` to `after` left for the consumer. -/
structure FrameTold (build : Build) (ring after : RingMem 64) : Prop where
  tells : Tells (gather after.data (after.capacity - 1) ring.tail 0 (after.tail - ring.tail).toNat)
  consumed : ∀ self t c later last r, isPop c = true → Front ring after later →
    Prog.solo RingMem.exec (ringCode build self t c) later = some (r, last) →
      last.head = after.tail

/-- In an overflow-checked build, an index on the way of the push does not fit a word. -/
def Wraps (build : Build) (ring : RingMem 64) (length : Nat) : Prop :=
  build = .debug ∧ (2 ^ 64 ≤ (ring.tail - ring.head).toNat + (4 + length) ∨
    2 ^ 64 ≤ ring.tail.toNat + 4 + (length - 1))

omit [Target] in
theorem accepted_fits (small : k < 64) (power : ring.capacity = BitVec.ofNat 64 (2 ^ k))
    (accepted : Accepted ring payload) :
    4 + payload.length ≤ 2 ^ k ∧ (BitVec.ofNat 64 (4 + payload.length)).toNat =
      4 + payload.length := by
  have bound : 2 ^ k < 2 ^ 64 := Nat.pow_lt_pow_right (by decide) small
  have room := accepted.1
  rw [power, capacity_toNat small] at room
  rw [BitVec.toNat_ofNat]
  exact ⟨room, Nat.mod_eq_of_lt (by omega)⟩

theorem frame_length (small : k < 64) (power : ring.capacity = BitVec.ofNat 64 (2 ^ k))
    (accepted : Accepted ring payload) :
    ((published ring payload).tail - ring.tail).toNat = 4 + payload.length := by
  have added : (published ring payload).tail - ring.tail =
    BitVec.ofNat 64 (4 + payload.length) := by
    simp only [published]
    grind
  rw [added, (accepted_fits small power accepted).2]

/-- The frame lies in the ring as it was written, also where it wraps around the end. -/
theorem frame_written (small : k < 64) (power : ring.capacity = BitVec.ofNat 64 (2 ^ k))
    (accepted : Accepted ring payload) :
    gather (published ring payload).data (ring.capacity - 1) ring.tail 0 (4 + payload.length) =
      toNeBytes 4 (payload.length % 2 ^ 32) ++ payload := by
  have room := (accepted_fits small power accepted).1
  have whole : gather (published ring payload).data (ring.capacity - 1) ring.tail 0
    (4 + payload.length) =
      (toNeBytes 4 (payload.length % 2 ^ 32) ++ payload).take (4 + payload.length) :=
    appended_read small power room (Nat.le_refl _)
  rw [whole, List.take_of_length_le (by simp)]

/-- What a pop takes for the length of the frame. -/
theorem frame_front (small : k < 64) (power : ring.capacity = BitVec.ofNat 64 (2 ^ k))
    (accepted : Accepted ring payload) :
    frontLength { published ring payload with head := ring.tail } = payload.length % 2 ^ 32 :=
  appended_prefix small power (accepted_fits small power accepted).1

theorem frame_tells (small : k < 64) (power : ring.capacity = BitVec.ofNat 64 (2 ^ k))
    (accepted : Accepted ring payload) :
    Tells (gather (published ring payload).data ((published ring payload).capacity - 1) ring.tail 0
      ((published ring payload).tail - ring.tail).toNat) ↔ payload.length < 2 ^ 32 := by
  have kept : (published ring payload).capacity = ring.capacity := rfl
  rw [frame_length small power accepted, kept, frame_written small power accepted]
  exact tells_iff payload

/-- A push that finds room, in an overflow-checked build. -/
theorem debug_panicsIf (small : k < 64) (power : ring.capacity = BitVec.ofNat 64 (2 ^ k))
    (packed : pushPayload data = .ok payload) (accepted : Accepted ring payload) :
    PanicsIf RingMem.exec (fun _ => True) (push .debug (self t) data) ring
      (Wraps .debug ring payload.length) true (published ring payload) := by
  obtain ⟨room, word⟩ := accepted_fits small power accepted
  have pushed : PanicsIf RingMem.exec (fun _ => True) (push .debug (self t) data) ring _ _ _ :=
    push_panicsIf (self t) packed accepted.1 (fun _ => trivial)
      (by decide) (capacity_pos small power)
  by_cases wraps : 2 ^ 64 ≤ needed ring payload
  · constructor
    · exact fun _ => pushed.panics (.inl wraps)
    · exact fun calm => absurd ⟨rfl, .inl wraps⟩ calm
  · -- the sum is the number it stands for, and the ring has room for it
    have total : ((ring.tail - ring.head) + BitVec.ofNat 64 (4 + payload.length)).toNat =
        needed ring payload := by
      rw [BitVec.toNat_add, word]
      exact Nat.mod_eq_of_lt (Nat.lt_of_not_le wraps)
    have fits : needed ring payload ≤ ring.capacity.toNat := by
      rw [← total]
      exact Nat.not_lt.mp accepted.2
    rw [decide_eq_true fits, if_pos fits] at pushed
    apply pushed.congr
    rw [Wraps, Straddles, eq_self, true_and, ← needed]
    omega

/-- The run of a push that finds room, in either build. -/
theorem push_calm (small : k < 64) (power : ring.capacity = BitVec.ofNat 64 (2 ^ k))
    (packed : pushPayload data = .ok payload) (accepted : Accepted ring payload)
    (calm : ¬ Wraps build ring payload.length) :
    Prog.solo RingMem.exec (ringCode build self t (.push data)) ring =
      some (.ok (.bool true), published ring payload) := by
  cases build with
  | release =>
      rw [push_alone, packed]
      dsimp only
      rw [if_neg (Nat.not_lt.mpr accepted.1), if_neg accepted.2]
  | debug => exact Prog.solo_run_ok ((debug_panicsIf small power packed accepted).runs calm)

/-- Where an index does not fit, the checked build does not get to the end. -/
theorem push_wraps (small : k < 64) (power : ring.capacity = BitVec.ofNat 64 (2 ^ k))
    (packed : pushPayload data = .ok payload) (accepted : Accepted ring payload)
    (wraps : Wraps build ring payload.length) :
    ∃ text last, Prog.solo RingMem.exec (ringCode build self t (.push data)) ring =
      some (.error (.panic text), last) := by
  obtain ⟨rfl, wraps⟩ := wraps
  obtain ⟨text, last, stopped, _⟩ :=
    (debug_panicsIf small power packed accepted).panics ⟨rfl, wraps⟩
  exact ⟨text, last, Prog.solo_run_fails stopped⟩

theorem pushed_ok (small : k < 64) (power : ring.capacity = BitVec.ofNat 64 (2 ^ k))
    (ran : Prog.solo RingMem.exec (ringCode build self t (.push data)) ring =
      some (.ok (.bool true), after)) :
    ∃ payload, pushPayload data = .ok payload ∧ Accepted ring payload ∧
      ¬ Wraps build ring payload.length ∧ after = published ring payload := by
  have released : Prog.solo RingMem.exec (ringCode .release self t (.push data)) ring =
      some (.ok (.bool true), after) := by
    rcases ring_sharpens build self t (.push data) ring _ _ ran with ⟨message, same⟩ | same
    · cases same
    · exact same
  rw [push_alone] at released
  cases packed : pushPayload data with
  | error e => simp [packed] at released
  | ok payload =>
      simp only [packed] at released
      split at released
      · cases released
      · next fits =>
          split at released
          · cases released
          · next room =>
              cases released
              have accepted : Accepted ring payload := ⟨Nat.not_lt.mp fits, room⟩
              refine ⟨payload, rfl, accepted, ?_, rfl⟩
              intro wraps
              obtain ⟨text, last, stopped⟩ := push_wraps small power packed accepted wraps
              cases stopped.symm.trans ran

/-- A frame whose prefix is right is consumed as it was published. -/
theorem frame_consumed (small : k < 64) (power : ring.capacity = BitVec.ofNat 64 (2 ^ k))
    (accepted : Accepted ring payload) (calm : ¬ Wraps build ring payload.length)
    (short : payload.length < 2 ^ 32) {self : Party → SpscRingBuffer} {t : Party} {c : RingCall}
    {later last : RingMem 64} {r : PyResult PyValue} (pop : isPop c = true)
    (front : Front ring (published ring payload) later)
    (ran : Prog.solo RingMem.exec (ringCode build self t c) later = some (r, last)) :
    last.head = (published ring payload).tail := by
  obtain ⟨head, capacity, message, bytes⟩ := front
  have kept : later.capacity = ring.capacity := capacity
  have positive := capacity_pos small (kept.trans power)
  have length : frontLength later = payload.length := by
    rw [frame_length small power accepted] at bytes
    have same : gather later.data ((published ring payload).capacity - 1) ring.tail 0 4 =
        gather (published ring payload).data
          ((published ring payload).capacity - 1) ring.tail 0 4 :=
      gather_congr fun j inside => bytes j (by omega)
    rw [frontLength, capacity, head, same]
    exact (frame_front small power accepted).trans (Nat.mod_eq_of_lt short)
  rcases pop_ends pop positive ran with ⟨_, empty | panics⟩ | ⟨rfl, _, _⟩
  · exact absurd empty message
  · -- the push would have panicked at the same index
    exfalso
    apply calm
    obtain ⟨checked, wraps⟩ := panics
    rw [head, length] at wraps
    exact ⟨checked, .inr wraps⟩
  · simp only [popped, published, head, length]

theorem frames_told (small : k < 64) (power : ring.capacity = BitVec.ofNat 64 (2 ^ k)) :
    (∀ after, Prog.solo RingMem.exec (ringCode build self t (.push data)) ring =
        some (.ok (.bool true), after) → FrameTold build ring after) ↔
      ∀ payload, pushPayload data = .ok payload → Accepted ring payload →
        ¬ Wraps build ring payload.length → payload.length < 2 ^ 32 := by
  constructor
  · intro told payload packed accepted calm
    have pushed := told _ (push_calm small power packed accepted calm)
    exact (frame_tells small power accepted).mp pushed.tells
  · intro short after ran
    obtain ⟨payload, packed, accepted, calm, rfl⟩ := pushed_ok small power ran
    have below := short payload packed accepted calm
    constructor
    · exact (frame_tells small power accepted).mpr below
    · intro self t c later last r pop front popped
      exact frame_consumed small power accepted calm below pop front popped

/-- Both prefixes are right exactly where the number they hold fits 32 bits. -/
theorem prefixes_told (build : Build) :
    (∀ points : List CodePoint,
      (∀ out packed, packValue (.str points) out = .ok (out ++ packed) → StringTold packed) ↔
        ∀ chars, toChars points = .ok chars → (Utf8.encode chars).length < 2 ^ 32) ∧
    ∀ self t data (ring : RingMem 64) k, k < 64 → ring.capacity = BitVec.ofNat 64 (2 ^ k) →
      ((∀ after, Prog.solo RingMem.exec (ringCode build self t (.push data)) ring =
          some (.ok (.bool true), after) → FrameTold build ring after) ↔
        ∀ payload, pushPayload data = .ok payload → Accepted ring payload →
          ¬ Wraps build ring payload.length → payload.length < 2 ^ 32) :=
  ⟨strings_told, fun _ _ _ _ _ small power => frames_told small power⟩

end Frames

section Limits
omit [Target]

theorem prefixes_told_short :
    (∀ out packed, @packValue littleEndian (.str [.scalar 'a']) out = .ok (out ++ packed) →
      @StringTold littleEndian packed) ∧
    ∀ after, Prog.solo RingMem.exec
      (@ringCode _ .debug littleEndian (fun _ => ⟨40⟩) .producer (.push (.bool true)))
        ⟨0, 0, 16, fun _ => 0⟩ = some (.ok (.bool true), after) →
      @FrameTold littleEndian .debug ⟨0, 0, 16, fun _ => 0⟩ after := by
  constructor
  · apply ((@prefixes_told littleEndian .debug).1 [.scalar 'a']).mpr
    rintro chars same
    cases same
    decide
  · apply ((@prefixes_told littleEndian .debug).2 _ _ _ _ 4 (by decide) rfl).mpr
    rintro payload same _ _
    cases same
    decide

theorem encode_replicate (n : Nat) :
    (Utf8.encode (List.replicate n 'a')).length = n := by
  induction n with
  | zero => rfl
  | succ n ih =>
      rw [List.replicate_succ, Utf8.encode_cons, List.length_append, ih]
      exact Nat.add_comm 1 n

/-- A multiple of 2 ^ 32 characters is packed with the length 0. -/
theorem long_string {n : Nat} (multiple : n % 2 ^ 32 = 0) :
    ∃ packed, @packValue littleEndian (.str ((List.replicate n 'a').map .scalar)) [] = .ok packed ∧
      packed.length = 4 + n ∧
      @decode _ (fun i => packed.getD i 0) (@unpackOne littleEndian packed.length "str") =
        .ok (.str [], 4) := by
  have packed := @str_packed littleEndian _ _ (toChars_scalars (List.replicate n 'a')) []
  have zero : @toNeBytes littleEndian 4 (n % 2 ^ 32) = [0, 0, 0, 0] := by
    rw [multiple]
    rfl
  rw [encode_replicate, zero] at packed
  refine ⟨_, packed, ?_, ?_⟩
  · simp [encode_replicate]
    omega
  · rw [@decode_str littleEndian, if_neg (by simp)]
    have front : @fromNeBytes littleEndian (Reader.span
        (fun i => ([] ++ ([0, 0, 0, 0] ++ Utf8.encode (List.replicate n 'a'))).getD i 0) 0 4) = 0 :=
          rfl
    simp only [front]
    rw [if_neg (by simp)]
    rfl

/-- A payload of a multiple of 2 ^ 32 bytes is published whole and consumed as an empty one. -/
theorem long_payload {n k : Nat} (small : k < 64) (multiple : n % 2 ^ 32 = 0)
    (room : 4 + n ≤ 2 ^ k) :
    ∃ after last : RingMem 64,
      Prog.solo RingMem.exec
        (@ringCode _ .release littleEndian (fun _ => ⟨40⟩) .producer
          (.push (.bytes (List.replicate n 0))))
          ⟨0, 0, BitVec.ofNat 64 (2 ^ k), fun _ => 0⟩ = some (.ok (.bool true), after) ∧
      after.tail = BitVec.ofNat 64 (4 + n) ∧
      Prog.solo RingMem.exec
        (@ringCode _ .release littleEndian (fun _ => ⟨40⟩) .consumer (.pop none)) after =
          some (.ok (.bytes []), last) ∧ last.head = 4 := by
  generalize start : (⟨0, 0, BitVec.ofNat 64 (2 ^ k), fun _ => 0⟩ : RingMem 64) = ring
  generalize body : List.replicate n (0 : UInt8) = payload
  have length : payload.length = n := by
    rw [← body, List.length_replicate]
  have power : ring.capacity = BitVec.ofNat 64 (2 ^ k) := by
    rw [← start]
  have bound : 2 ^ k < 2 ^ 64 := Nat.pow_lt_pow_right (by decide) small
  have word : (BitVec.ofNat 64 (4 + n)).toNat = 4 + n := by
    rw [BitVec.toNat_ofNat]
    exact Nat.mod_eq_of_lt (by omega)
  have accepted : Accepted ring payload := by
    constructor
    · rw [power, capacity_toNat small, length]
      exact room
    · have used : ring.tail - ring.head = 0 := by
        rw [← start]
        exact BitVec.sub_self _
      have needed : (0 : BitVec 64) + BitVec.ofNat 64 (4 + n) = BitVec.ofNat 64 (4 + n) :=
        BitVec.zero_add _
      rw [used, length, power, needed, gt_iff_lt, BitVec.lt_def, word, capacity_toNat small]
      omega
  have calm : ¬ Wraps .release ring payload.length := by
    rintro ⟨checked, _⟩
    cases checked
  have front : @frontLength littleEndian (@published littleEndian ring payload) = 0 := by
    have same : { @published littleEndian ring payload with head := ring.tail } =
        @published littleEndian ring payload := by
      rw [← start]
      rfl
    rw [← same, @frame_front littleEndian _ _ _ small power accepted, length, multiple]
  have tail : (@published littleEndian ring payload).tail = BitVec.ofNat 64 (4 + n) := by
    rw [← length, ← start]
    exact BitVec.zero_add _
  have head : (@published littleEndian ring payload).head = 0 := by
    rw [← start]
    rfl
  have packed : @pushPayload littleEndian (.bytes payload) = .ok payload := rfl
  refine ⟨_, @popped littleEndian (@published littleEndian ring payload),
    @push_calm littleEndian _ _ _ _ _ _ _ small power packed accepted calm, tail, ?_, ?_⟩
  · have message : (@published littleEndian ring payload).head ≠
        (@published littleEndian ring payload).tail := by
      rw [head, tail]
      intro same
      have zero : 0 = 4 + n := (congrArg BitVec.toNat same).trans word
      omega
    have empty : @frontPayload littleEndian (@published littleEndian ring payload) = [] := by
      unfold frontPayload
      rw [front]
      rfl
    rw [@pop_alone littleEndian _ _ (.pop none) rfl, if_neg message, empty]
    rfl
  · unfold popped
    rw [head, front]
    rfl

/-- Four gigabytes: a string whose prefix is 0, and a frame whose prefix is. -/
theorem long_lengths_lost :
    (∃ packed, @packValue littleEndian (.str ((List.replicate (2 ^ 32) 'a').map .scalar)) [] =
        .ok packed ∧ packed.length = 4 + 2 ^ 32 ∧
      @decode _ (fun i => packed.getD i 0) (@unpackOne littleEndian packed.length "str") =
        .ok (.str [], 4)) ∧
    ∃ after last : RingMem 64,
      Prog.solo RingMem.exec
        (@ringCode _ .release littleEndian (fun _ => ⟨40⟩) .producer
          (.push (.bytes (List.replicate (2 ^ 32) 0))))
          ⟨0, 0, BitVec.ofNat 64 (2 ^ 33), fun _ => 0⟩ = some (.ok (.bool true), after) ∧
      after.tail = BitVec.ofNat 64 (4 + 2 ^ 32) ∧
      Prog.solo RingMem.exec
        (@ringCode _ .release littleEndian (fun _ => ⟨40⟩) .consumer (.pop none)) after =
          some (.ok (.bytes []), last) ∧ last.head = 4 :=
  ⟨long_string (Nat.mod_self _), long_payload (by decide) (Nat.mod_self _) (by decide)⟩

end Limits
end Membridge.LengthPrefix
