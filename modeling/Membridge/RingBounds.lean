import Membridge.RingChecked
import Membridge.SpscDelivery
import Membridge.Typestate

/-!
Where the calls of a ring go. The slots come from the capacity word of the
segment, the length of the mapping from the handle; `new` compares the two for a
creator only. What keeps the calls inside is the header found and the capacities
that later creators store: all of them fit, or the ring rests and lets no call
past its first tests.
-/
namespace Membridge.RingBounds
open Program Interleaving Typestate Python ByteOrder ByteReader Mixed Decoding Segment Arithmetic
open Spsc RingAlone SpscDelivery

/-- What `capacity - 1` answers in an overflow-checked build if the capacity is 0. -/
def borrow : PyErr := .panic "attempt to subtract with overflow"

/-- A byte access inside the mapping, behind the header. -/
def InMapping (mapSize : Nat) : RingOp 64 → Prop
  | .readByte slot => headerSize + slot < mapSize
  | .writeByte slot _ => headerSize + slot < mapSize
  | _ => True

/-- Capacities that have a mask, and only slots that are mapped. -/
def Fits (mapSize : Nat) (cap : BitVec 64) : Prop := 1 ≤ cap ∧ headerSize + cap.toNat ≤ mapSize

instance (mapSize : Nat) (cap : BitVec 64) : Decidable (Fits mapSize cap) :=
  inferInstanceAs (Decidable (_ ∧ _))

/-- A pop finds this ring empty, and no frame is as short as its capacity. -/
def Rests (still : BitVec 64) (ring : RingMem 64) : Prop :=
  ring.head = still ∧ ring.tail = still ∧ ring.capacity < 4

instance (still : BitVec 64) (ring : RingMem 64) : Decidable (Rests still ring) :=
  inferInstanceAs (Decidable (_ ∧ _ ∧ _))

/-- The constructor. All other calls are made on a ring that is there. -/
def isSpsc : RingCall → Bool
  | .spsc _ _ => true
  | _ => false

section Bounds
variable (mapSize : Nat) (handles : SharedMemory → Prop)

/-- Any party makes any call; rings are attached by the handles given. -/
def attachedBy : RingCall → Prop
  | .spsc handle _ => handles handle ∧ handle.size < 2 ^ 64
  | _ => True

/-- The capacities that the creators among the handles write. -/
def Stores (cap : BitVec 64) : Prop :=
  ∃ handle, handles handle ∧ handle.size < 2 ^ 64 ∧ Resets handle (.ok ()) ∧
    cap = BitVec.ofNat 64 (handle.size - headerSize)

/-- No byte outside the mapping is touched, no mask of an empty ring is computed. -/
def Inside : RingEvent 64 → Prop
  | .invoke _ _ _ => True
  | .access _ _ _ o _ => InMapping mapSize o
  | .finish _ _ c value => isSpsc c = false → value ≠ .error borrow

/-- Whoever runs on the segment, and whatever attaches to it later, the calls on `ring` stay
inside its mapping. -/
def StaysInside [Target] (ring : SpscRingBuffer) (found : RingMem 64) : Prop :=
  ∀ (build : Build) (self : Party → SpscRingBuffer)
    (cfg : Config Party RingCall (PyResult PyValue) (RingOp 64) RingOp.Res (RingMem 64)),
    Reachable (ringSystem build self fun _ c => attachedBy handles c) found cfg →
      ∀ e ∈ cfg.world.log, self e.thread = ring → Inside ring.mapSize e

/-- The header found and what later creators store never lead a call outside. -/
def Contained (found : RingMem 64) : Prop :=
  (∀ cap, Stores handles cap → Fits mapSize cap) ∧ (Fits mapSize found.capacity ∨ Rests 0 found) ∨
    (∀ cap, Stores handles cap → cap < 4 ∧ found.head = 0) ∧ Rests found.head found

end Bounds

/-- What the callers of a ring count on: the capacities there may be once the ring is in use,
and where head and tail are until then. -/
structure Terms (mapSize : Nat) where
  fits : BitVec 64 → Prop
  still : BitVec 64
  mapped : ∀ cap, fits cap → Fits mapSize cap

/-- A creator may write what fits, or leave a ring at rest at rest. -/
def Terms.Admits {mapSize : Nat} (terms : Terms mapSize) (cap : BitVec 64) : Prop :=
  terms.fits cap ∨ (∀ other, ¬ terms.fits other) ∧ cap < 4

section Rules
variable {mapSize : Nat} (terms : Terms mapSize) {build : Build} {α β : Type}

/-- The responses that show a ring in use. -/
def wakes : (o : RingOp 64) → o.Res → Bool
  | .loadHead, v => v ≠ terms.still
  | .loadTail, v => v ≠ terms.still
  | .loadCapacity, v => 4 ≤ v
  | _, _ => false

/-- Indices move in a ring in use only. -/
def May (sure : Bool) : RingOp 64 → Prop
  | .storeHead v => sure = true ∨ v = terms.still
  | .storeTail v => sure = true ∨ v = terms.still
  | .storeCapacity v => terms.Admits v
  | o => InMapping mapSize o

def Sees (sure : Bool) : (o : RingOp 64) → o.Res → Prop
  | .loadCapacity, v => sure = true ∨ 4 ≤ v → terms.fits v
  | _, _ => True

/-- A caller is sure that the ring is in use once it has seen so. -/
def ringDiscipline : Discipline (RingOp 64) RingOp.Res Bool where
  enter sure o r := sure || wakes terms o r
  may := May terms
  sees := Sees terms

/-- The ring fits or rests, and fits if anyone is sure that it is in use. -/
def Holds (sure : Party → Bool) (ring : RingMem 64) : Prop :=
  (terms.fits ring.capacity ∨ Rests terms.still ring) ∧
    ∀ t, sure t = true → terms.fits ring.capacity

variable {terms} {sure : Party → Bool} {ring after : RingMem 64}

theorem holds_wakes (holds : Holds terms sure ring) {t : Party} {woken : Bool}
    (seen : woken = true → terms.fits ring.capacity) :
    Holds terms (Function.update sure t (sure t || woken)) ring := by
  refine ⟨holds.1, ?_⟩
  intro u now
  by_cases same : u = t
  · subst same
    rw [Function.update_self] at now
    rcases Bool.or_eq_true_iff.mp now with before | new
    · exact holds.2 u before
    · exact seen new
  · rw [Function.update_of_ne same] at now
    exact holds.2 u now

/-- A ring that does not rest fits. -/
theorem fits_of_awake (holds : Holds terms sure ring) (awake : ¬ Rests terms.still ring) :
    terms.fits ring.capacity := holds.1.resolve_right awake

theorem ring_governed {t : Party} {o : RingOp 64} {r : o.Res} (holds : Holds terms sure ring)
    (may : May terms (sure t) o) (does : RingMem.exec o ring = (r, after)) :
    Sees terms (sure t) o r ∧
      Holds terms (Function.update sure t (sure t || wakes terms o r)) after := by
  cases o with
  | loadHead =>
      cases does
      refine ⟨trivial, holds_wakes holds fun moved => ?_⟩
      exact fits_of_awake holds fun rests => of_decide_eq_true moved rests.1
  | loadTail =>
      cases does
      refine ⟨trivial, holds_wakes holds fun moved => ?_⟩
      exact fits_of_awake holds fun rests => of_decide_eq_true moved rests.2.1
  | loadCapacity =>
      cases does
      have room : 4 ≤ ring.capacity → terms.fits ring.capacity := fun room =>
        fits_of_awake holds fun rests => BitVec.not_le.mpr rests.2.2 room
      refine ⟨?_, holds_wakes holds fun large => room (of_decide_eq_true large)⟩
      rintro (known | large)
      · exact holds.2 t known
      · exact room large
  | storeHead v =>
      cases does
      have kept : Holds terms sure { ring with head := v } := by
        refine ⟨?_, holds.2⟩
        rcases may with known | rfl
        · exact .inl (holds.2 t known)
        · exact holds.1.imp id fun rests => ⟨rfl, rests.2⟩
      exact ⟨trivial, holds_wakes kept nofun⟩
  | storeTail v =>
      cases does
      have kept : Holds terms sure { ring with tail := v } := by
        refine ⟨?_, holds.2⟩
        rcases may with known | rfl
        · exact .inl (holds.2 t known)
        · exact holds.1.imp id fun rests => ⟨rests.1, rfl, rests.2.2⟩
      exact ⟨trivial, holds_wakes kept nofun⟩
  | storeCapacity v =>
      cases does
      have kept : Holds terms sure { ring with capacity := v } := by
        rcases may with fits | ⟨never, small⟩
        · exact ⟨.inl fits, fun _ _ => fits⟩
        · have rests : Rests terms.still ring := holds.1.resolve_left (never _)
          exact ⟨.inr ⟨rests.1, rests.2.1, small⟩,
            fun u known => absurd (holds.2 u known) (never _)⟩
      exact ⟨trivial, holds_wakes kept nofun⟩
  | readByte slot =>
      cases does
      exact ⟨trivial, holds_wakes holds nofun⟩
  | writeByte slot byte =>
      cases does
      exact ⟨trivial, holds_wakes holds nofun⟩

variable (terms)

/-- The program keeps to the rules, and `cap - 1` does not borrow on the way. -/
def Keeps (sure : Bool) (p : RingM 64 α) (post : α → Bool → Prop) : Prop :=
  (ringDiscipline terms).Follows sure p.run fun result later =>
    match result with
    | .ok value => post value later
    | .error e => e ≠ borrow

variable {terms} {known : Bool} {post : α → Bool → Prop}

theorem keeps_pure {value : α} (holds : post value known) : Keeps terms known (pure value) post :=
  holds

theorem invalid_other (message : String) : invalidArg message ≠ borrow := nofun

theorem keeps_throw {e : PyErr} (other : e ≠ borrow) :
    Keeps terms known (throw e : RingM 64 α) post := other

theorem keeps_except {result : PyResult α} (calm : Calm result) :
    Keeps terms known (liftM result : RingM 64 α) fun _ later => later = known := by
  cases result with
  | ok value => rfl
  | error e => exact fun same => calm _ (congrArg Except.error same)

theorem keeps_bind {p : RingM 64 α} {f : α → RingM 64 β} {later : β → Bool → Prop}
    (first : Keeps terms known p post)
    (then_f : ∀ value now, post value now → Keeps terms now (f value) later) :
    Keeps terms known (p >>= f) later := by
  unfold Keeps
  rw [Discipline.follows_run_bind]
  apply Discipline.follows_mono ?_ first
  intro result now after
  cases result with
  | ok value => exact then_f value now after
  | error e => exact after

end Rules

section Parts
variable {mapSize : Nat} {terms : Terms mapSize} {build : Build} {α β : Type} {known : Bool}
  {cap : BitVec 64}

theorem plus_keeps (x y : BitVec 64) :
    Keeps terms known (build.plus x y) fun _ later => later = known := by
  cases build with
  | release => exact keeps_pure rfl
  | debug =>
      rw [Build.plus]
      split
      · exact keeps_pure rfl
      · exact keeps_throw (by decide)

theorem mask_keeps (positive : 1 ≤ cap) :
    Keeps terms known (build.minus cap 1) fun mask later => mask = cap - 1 ∧ later = known := by
  rw [build.minus_ok positive]
  exact keeps_pure ⟨rfl, rfl⟩

theorem loadHead_keeps : Keeps terms known loadHead
    fun head later => later = (known || decide (head ≠ terms.still)) :=
  ⟨trivial, fun _ _ => rfl⟩

theorem loadTail_keeps : Keeps terms known loadTail
    fun tail later => later = (known || decide (tail ≠ terms.still)) :=
  ⟨trivial, fun _ _ => rfl⟩

theorem capacity_keeps : Keeps terms known capacity
    fun cap later => later = (known || decide (4 ≤ cap)) ∧
      (known = true ∨ 4 ≤ cap → terms.fits cap) :=
  ⟨trivial, fun _ seen => ⟨rfl, seen⟩⟩

theorem storeHead_keeps {v : BitVec 64} (may : known = true ∨ v = terms.still) :
    Keeps terms known (storeHead v) fun _ later => later = known :=
  ⟨may, fun _ _ => Bool.or_false known⟩

theorem storeTail_keeps {v : BitVec 64} (may : known = true ∨ v = terms.still) :
    Keeps terms known (storeTail v) fun _ later => later = known :=
  ⟨may, fun _ _ => Bool.or_false known⟩

theorem readByte_keeps {slot : BitVec 64} (inside : headerSize + slot.toNat < mapSize) :
    Keeps terms known (readByte slot) fun _ later => later = known :=
  ⟨inside, fun _ _ => Bool.or_false known⟩

theorem writeByte_keeps {slot : BitVec 64} (inside : headerSize + slot.toNat < mapSize)
    (byte : UInt8) : Keeps terms known (writeByte slot byte) fun _ later => later = known :=
  ⟨inside, fun _ _ => Bool.or_false known⟩

theorem mask_lt (positive : 1 ≤ cap) (x : BitVec 64) : (x &&& (cap - 1)).toNat < cap.toNat := by
  have mask : (cap - 1).toNat = cap.toNat - 1 := BitVec.toNat_sub_of_le positive
  have low : (x &&& (cap - 1)).toNat ≤ (cap - 1).toNat := by
    rw [BitVec.toNat_and]
    exact Nat.and_le_right
  have some_slot : 1 ≤ cap.toNat := positive
  omega

/-- Every slot of a capacity that fits is mapped. -/
theorem slot_mapped (fits : Fits mapSize cap) (x : BitVec 64) :
    headerSize + (x &&& (cap - 1)).toNat < mapSize :=
  Nat.lt_of_lt_of_le (Nat.add_lt_add_left (mask_lt fits.1 x) headerSize) fits.2

theorem writeFrom_keeps (fits : Fits mapSize cap) (pos : BitVec 64) (i : Nat) (bytes : List UInt8) :
    Keeps terms known (writeFrom build pos (cap - 1) i bytes) fun _ later => later = known := by
  induction bytes generalizing i with
  | nil => exact keeps_pure rfl
  | cons byte rest ih =>
      apply keeps_bind (plus_keeps _ _)
      rintro at_i _ rfl
      apply keeps_bind (writeByte_keeps (slot_mapped fits at_i) byte)
      rintro _ _ rfl
      exact ih (i + 1)

theorem readFrom_keeps (fits : Fits mapSize cap) (pos : BitVec 64) (i count : Nat) :
    Keeps terms known (readFrom build pos (cap - 1) i count) fun _ later => later = known := by
  induction count generalizing i with
  | zero => exact keeps_pure rfl
  | succ count ih =>
      apply keeps_bind (plus_keeps _ _)
      rintro at_i _ rfl
      apply keeps_bind (readByte_keeps (slot_mapped fits at_i))
      rintro byte _ rfl
      apply keeps_bind (ih (i + 1))
      rintro _ _ rfl
      exact keeps_pure rfl

theorem writeBytes_keeps (fits : Fits mapSize cap) (pos : BitVec 64) (bytes : List UInt8) :
    Keeps terms known (writeBytes build pos bytes cap) fun _ later => later = known := by
  apply keeps_bind (mask_keeps fits.1)
  rintro _ _ ⟨rfl, rfl⟩
  exact writeFrom_keeps fits pos 0 bytes

theorem readBytes_keeps (fits : Fits mapSize cap) (pos : BitVec 64) (count : Nat) :
    Keeps terms known (readBytes build pos count cap) fun _ later => later = known := by
  apply keeps_bind (mask_keeps fits.1)
  rintro _ _ ⟨rfl, rfl⟩
  exact readFrom_keeps fits pos 0 count

theorem used_keeps : Keeps terms known used fun _ _ => True := by
  apply keeps_bind loadHead_keeps
  rintro head _ -
  apply keeps_bind loadTail_keeps
  exact fun _ _ _ => keeps_pure trivial

theorem free_keeps : Keeps terms known free fun _ _ => True := by
  apply keeps_bind capacity_keeps
  rintro cap _ -
  apply keeps_bind used_keeps
  exact fun _ _ _ => keeps_pure trivial

theorem isEmpty_keeps : Keeps terms known isEmpty fun _ _ => True := by
  apply keeps_bind loadHead_keeps
  rintro head _ -
  apply keeps_bind loadTail_keeps
  exact fun _ _ _ => keeps_pure trivial

theorem isFull_keeps : Keeps terms known isFull fun _ _ => True := by
  apply keeps_bind used_keeps
  rintro taken _ -
  apply keeps_bind capacity_keeps
  exact fun _ _ _ => keeps_pure trivial

/-- The creator's three stores. -/
theorem new_keeps {size : Nat} {creator : Bool}
    (stores : creator = true → headerSize < size → isPowerOfTwo (size - headerSize) = true →
      terms.still = 0 ∧ terms.Admits (BitVec.ofNat 64 (size - headerSize))) :
    Keeps terms known (new size creator) fun _ _ => True := by
  rw [new]
  split
  · exact keeps_throw (invalid_other _)
  · next large =>
      split
      · next made =>
          dsimp only
          split
          · exact keeps_throw (invalid_other _)
          · next power =>
              obtain ⟨still, may⟩ :=
                stores made (Nat.not_le.mp large) (Bool.of_not_eq_false (by simpa using power))
              apply keeps_bind (storeHead_keeps (.inr still.symm))
              rintro _ _ rfl
              apply keeps_bind (storeTail_keeps (.inr still.symm))
              rintro _ _ rfl
              exact ⟨may, fun _ _ => trivial⟩
      · exact keeps_pure trivial

/-- A call answers what its program does. -/
theorem answer_keeps {p : RingM 64 α} {f : α → PyValue}
    (keeps : Keeps terms known p fun _ _ => True) :
    (ringDiscipline terms).Follows known (p >>= fun value => pure (f value)).run
      fun result _ => result ≠ .error borrow := by
  have whole : Keeps terms known (p >>= fun value => pure (f value)) fun _ _ => True :=
    keeps_bind keeps fun _ _ _ => keeps_pure trivial
  apply Discipline.follows_mono ?_ whole
  intro result _ after
  cases result with
  | ok value => exact nofun
  | error e => exact fun same => after (Except.error.inj same)

end Parts

section Calls
variable [Target] {mapSize : Nat} {terms : Terms mapSize} {build : Build} {known : Bool}

theorem pushPayload_calm (data : PyValue) : Calm (pushPayload data) := by
  unfold pushPayload
  split
  · exact packEach_calm _ _
  · exact packValue_calm _ _

theorem push_keeps (self : SpscRingBuffer) (data : PyValue) :
    Keeps terms known (push build self data) fun _ _ => True := by
  apply keeps_bind (keeps_except (pushPayload_calm data))
  rintro payload _ rfl
  apply keeps_bind capacity_keeps
  rintro cap _ ⟨rfl, seen⟩
  dsimp only
  split
  · exact keeps_throw (invalid_other _)
  · next short =>
      -- a frame is no shorter than its prefix: this ring is in use
      have room : 4 ≤ cap := by
        rw [BitVec.le_def]
        exact Nat.le_trans (Nat.le_add_right 4 _) (Nat.not_lt.mp short)
      have fits : Fits mapSize cap := terms.mapped cap (seen (.inr room))
      rw [decide_eq_true room, Bool.or_true]
      apply keeps_bind loadHead_keeps
      rintro head _ rfl
      apply keeps_bind loadTail_keeps
      rintro tail _ rfl
      apply keeps_bind (plus_keeps _ _)
      rintro needed _ rfl
      split
      · exact keeps_pure trivial
      · apply keeps_bind (writeBytes_keeps fits tail _)
        rintro _ _ rfl
        apply keeps_bind (plus_keeps _ _)
        rintro body _ rfl
        apply keeps_bind (writeBytes_keeps fits body payload)
        rintro _ _ rfl
        apply keeps_bind (storeTail_keeps (.inl rfl))
        exact fun _ _ _ => keeps_pure trivial

theorem popFrame_keeps : Keeps terms known (popFrame build) fun _ _ => True := by
  apply keeps_bind loadHead_keeps
  rintro head _ rfl
  apply keeps_bind loadTail_keeps
  rintro tail _ rfl
  dsimp only
  split
  · exact keeps_pure trivial
  · next apart =>
      -- head and tail are not both where a ring at rest has them
      have moved : (decide (head ≠ terms.still) || decide (tail ≠ terms.still)) = true := by
        rw [← Bool.decide_or, decide_eq_true_iff]
        by_contra same
        rw [not_or, not_not, not_not] at same
        exact apart (same.1.trans same.2.symm)
      rw [Bool.or_assoc, moved, Bool.or_true]
      apply keeps_bind capacity_keeps
      rintro cap _ ⟨rfl, seen⟩
      have fits : Fits mapSize cap := terms.mapped cap (seen (.inl rfl))
      apply keeps_bind (readBytes_keeps fits head 4)
      rintro lenBytes _ rfl
      apply keeps_bind (plus_keeps _ _)
      rintro body _ rfl
      apply keeps_bind (readBytes_keeps fits body _)
      rintro payload _ rfl
      apply keeps_bind (plus_keeps _ _)
      rintro frameLen _ rfl
      apply keeps_bind (storeHead_keeps (.inl rfl))
      exact fun _ _ _ => keeps_pure trivial

theorem popTyped_calm (tag : Option String) (payload : List UInt8) :
    Calm (popTyped tag payload) := by
  cases tag with
  | none => exact calm_ok _
  | some t => exact calm_bind (unpackOne_calm t) fun _ => calm_ok _

theorem popSchema_calm (schema : List PyValue) (payload : List UInt8) :
    Calm (popSchema schema payload) :=
  calm_bind (unpackEntries_calm schema [] 0) fun _ => calm_ok _

theorem popWith_keeps {decoder : List UInt8 → PyResult PyValue}
    (calm : ∀ payload, Calm (decoder payload)) :
    Keeps terms known (do
      match ← popFrame build with
      | none => return none
      | some payload => return some (← decoder payload) : RingM 64 (Option PyValue))
      fun _ _ => True := by
  apply keeps_bind popFrame_keeps
  rintro front _ -
  cases front with
  | none => exact keeps_pure trivial
  | some payload =>
      apply keeps_bind (keeps_except (calm payload))
      exact fun _ _ _ => keeps_pure trivial

variable {handles : SharedMemory → Prop}

/-- Every call keeps to the rules, if what a creator stores does. -/
theorem ringCode_keeps
    (stores : ∀ cap, Stores handles cap → terms.still = 0 ∧ terms.Admits cap)
    (self : Party → SpscRingBuffer) (t : Party) {c : RingCall} (may : attachedBy handles c) :
    (ringDiscipline terms).Follows known (ringCode build self t c)
      fun result _ => isSpsc c = false → result ≠ .error borrow := by
  -- what a call on the ring does not end in, it does not end in either way
  have weaker : ∀ {p : RingProg 64 (PyResult PyValue)},
      (ringDiscipline terms).Follows known p (fun result _ => result ≠ .error borrow) →
        (ringDiscipline terms).Follows known p
          fun result _ => isSpsc c = false → result ≠ .error borrow :=
    fun follows => Discipline.follows_mono (fun _ _ after _ => after) follows
  cases c with
  | push data => exact weaker (answer_keeps (push_keeps (self t) data))
  | pop tag => exact weaker (answer_keeps (popWith_keeps (popTyped_calm tag)))
  | popMixed schema => exact weaker (answer_keeps (popWith_keeps (popSchema_calm schema)))
  | used => exact weaker (answer_keeps used_keeps)
  | free => exact weaker (answer_keeps free_keeps)
  | isEmpty => exact weaker (answer_keeps isEmpty_keeps)
  | isFull => exact weaker (answer_keeps isFull_keeps)
  | spsc handle mapping =>
      cases mapping with
      | error e => exact nofun
      | ok _ =>
          have attached : Keeps terms known (spsc handle (.ok ())) fun _ _ => True := by
            apply keeps_bind (keeps_except (calm_ok ()))
            rintro _ _ rfl
            apply keeps_bind (new_keeps fun made large power =>
              stores _ ⟨handle, may.1, may.2, ⟨rfl, made, large, power⟩, rfl⟩)
            exact fun _ _ _ => keeps_pure trivial
          exact weaker (answer_keeps attached)

end Calls

section Runs
variable [Target] {handles : SharedMemory → Prop} {ring : SpscRingBuffer} {found : RingMem 64}

/-- A ring that fits or rests on terms that later creators keep stays inside its mapping. -/
theorem inside_on_terms (terms : Terms ring.mapSize)
    (stores : ∀ cap, Stores handles cap → terms.still = 0 ∧ terms.Admits cap)
    (start : terms.fits found.capacity ∨ Rests terms.still found) :
    StaysInside handles ring found := by
  intro build self cfg reach e member _
  have first : Holds terms (fun _ => false) found := ⟨start, nofun⟩
  have codes : ∀ (known : Bool) (t : Party) (c : RingCall), attachedBy handles c →
      (ringDiscipline terms).Follows known (ringCode build self t c)
        fun result _ => isSpsc c = false → result ≠ .error borrow :=
    fun _ t _ may => ringCode_keeps stores self t may
  have governed := Discipline.governed (J := Holds terms)
    (fun _ _ _ _ _ _ _ holds may does => ring_governed holds may does) codes first reach
  have ruled := governed.2 e member
  cases e with
  | invoke t id c => trivial
  | access t id c o r =>
      obtain ⟨sure, may⟩ := ruled
      cases o with
      | readByte slot => exact may
      | writeByte slot byte => exact may
      | _ => trivial
  | finish t id c value => exact ruled

theorem inside_of_contained (contained : Contained ring.mapSize handles found) :
    StaysInside handles ring found := by
  rcases contained with ⟨fit, held⟩ | ⟨small, rests⟩
  · exact inside_on_terms ⟨Fits ring.mapSize, 0, fun _ fits => fits⟩
      (fun cap stored => ⟨rfl, .inl (fit cap stored)⟩) held
  · exact inside_on_terms ⟨fun _ => False, found.head, nofun⟩
      (fun cap stored => ⟨(small cap stored).2, .inr ⟨fun _ => id, (small cap stored).1⟩⟩)
      (.inr rests)

end Runs
end Membridge.RingBounds
