import Membridge.Arithmetic
import Membridge.Interleaving
import Membridge.Mixed
import Membridge.Segment

/-!
`src/spsc.rs`: the ring buffer of one segment. Head, tail and capacity are words
of `w` bits; the data area is addressed by slot. Every load, store and byte
access of the source is one operation, in program order.
-/
namespace Membridge.Spsc
open Program Interleaving Python ByteOrder ByteReader Mixed Segment Arithmetic

variable {w : Nat}

def headerSize : Nat := 24

inductive RingOp (w : Nat) where
  | loadHead
  | loadTail
  | loadCapacity
  | storeHead (v : BitVec w)
  | storeTail (v : BitVec w)
  | storeCapacity (v : BitVec w)
  | readByte (slot : Nat)
  | writeByte (slot : Nat) (byte : UInt8)

abbrev RingOp.Res : RingOp w → Type
  | .loadHead => BitVec w
  | .loadTail => BitVec w
  | .loadCapacity => BitVec w
  | .storeHead _ => Unit
  | .storeTail _ => Unit
  | .storeCapacity _ => Unit
  | .readByte _ => UInt8
  | .writeByte _ _ => Unit

structure RingMem (w : Nat) where
  head : BitVec w
  tail : BitVec w
  capacity : BitVec w
  data : Nat → UInt8

def RingMem.exec : (o : RingOp w) → RingMem w → o.Res × RingMem w
  | .loadHead, ring => (ring.head, ring)
  | .loadTail, ring => (ring.tail, ring)
  | .loadCapacity, ring => (ring.capacity, ring)
  | .storeHead v, ring => ((), { ring with head := v })
  | .storeTail v, ring => ((), { ring with tail := v })
  | .storeCapacity v, ring => ((), { ring with capacity := v })
  | .readByte slot, ring => (ring.data slot, ring)
  | .writeByte slot byte, ring => ((), { ring with data := Function.update ring.data slot byte })

abbrev RingProg (w : Nat) := Prog (RingOp w) RingOp.Res

abbrev RingM (w : Nat) := ExceptT PyErr (RingProg w)

def loadHead : RingM w (BitVec w) := Prog.access RingOp.loadHead

def loadTail : RingM w (BitVec w) := Prog.access RingOp.loadTail

def storeHead (v : BitVec w) : RingM w Unit := Prog.access (RingOp.storeHead v)

def storeTail (v : BitVec w) : RingM w Unit := Prog.access (RingOp.storeTail v)

def readByte (slot : BitVec w) : RingM w UInt8 := Prog.access (RingOp.readByte slot.toNat)

def writeByte (slot : BitVec w) (byte : UInt8) : RingM w Unit :=
  Prog.access (RingOp.writeByte slot.toNat byte)

/-- The handle of one mapping of the ring. -/
structure SpscRingBuffer where
  mapSize : Nat

variable (build : Build)

def capacity : RingM w (BitVec w) := Prog.access RingOp.loadCapacity

def writeFrom (pos mask : BitVec w) : Nat → List UInt8 → RingM w Unit
  | _, [] => return ()
  | i, byte :: rest => do
      let at_i ← build.plus pos (BitVec.ofNat w i)
      writeByte (at_i &&& mask) byte
      writeFrom pos mask (i + 1) rest

def writeBytes (pos : BitVec w) (src : List UInt8) (cap : BitVec w) : RingM w Unit := do
  let mask ← build.minus cap 1
  writeFrom build pos mask 0 src

/-- Fills `count` slots of the destination, the first of them at index `i`. -/
def readFrom (pos mask : BitVec w) : Nat → Nat → RingM w (List UInt8)
  | _, 0 => return []
  | i, count + 1 => do
      let at_i ← build.plus pos (BitVec.ofNat w i)
      let byte ← readByte (at_i &&& mask)
      let rest ← readFrom pos mask (i + 1) count
      return byte :: rest

def readBytes (pos : BitVec w) (count : Nat) (cap : BitVec w) : RingM w (List UInt8) := do
  let mask ← build.minus cap 1
  readFrom build pos mask 0 count

variable [Target]

/-- The payload of a push: a list is packed element by element. -/
def pushPayload (data : PyValue) : PyResult (List UInt8) :=
  match data with
  | .list items => packEach items []
  | data => packValue data []

def tooLarge (frameLen : Nat) (cap : BitVec w) (mapSize : Nat) : PyErr :=
  invalidArg s!"message too large: frame_len={frameLen} > capacity={cap.toNat}                  (map_size={mapSize})"

def push (self : SpscRingBuffer) (data : PyValue) : RingM w Bool := do
  let payload ← pushPayload data
  -- a Vec holds at most `isize::MAX` bytes: this sum does not wrap
  let frameLen := 4 + payload.length
  let cap ← capacity
  if frameLen > cap.toNat then throw (tooLarge frameLen cap self.mapSize)
  else
    let head ← loadHead
    let tail ← loadTail
    let used := tail - head
    let needed ← build.plus used (BitVec.ofNat w frameLen)
    if needed > cap then return false
    else
      writeBytes build tail (toNeBytes 4 (payload.length % 2 ^ 32)) cap
      let body ← build.plus tail 4
      writeBytes build body payload cap
      storeTail (tail + BitVec.ofNat w frameLen)
      return true

/-- What `pop` and `pop_mixed` share: the payload of the front message, consumed. -/
def popFrame : RingM w (Option (List UInt8)) := do
  let head ← loadHead
  let tail ← loadTail
  if head = tail then return none
  else
    let cap ← capacity
    let lenBytes ← readBytes build head 4 cap
    let payloadLen := BitVec.ofNat w (fromNeBytes lenBytes)
    let body ← build.plus head 4
    let payload ← readBytes build body payloadLen.toNat cap
    let frameLen ← build.plus 4 payloadLen
    storeHead (head + frameLen)
    return some payload

/-- A decoder run on a private buffer. -/
def decodeBuffer {α : Type} (payload : List UInt8) (decoder : Nat → Decoder α) : PyResult α :=
  Reader.run (fun i => payload.getD i 0) (decoder payload.length).run

def popTyped (tag : Option String) (payload : List UInt8) : PyResult PyValue :=
  match tag with
  | none => .ok (.bytes payload)
  | some t => do
      let (v, _) ← decodeBuffer payload fun len => unpackOne len t
      return v

def popSchema (schema : List PyValue) (payload : List UInt8) : PyResult PyValue := do
  let (result, _) ← decodeBuffer payload fun len => unpackMixedCounted len schema
  return .list result

def pop (tag : Option String) : RingM w (Option PyValue) := do
  match ← popFrame build with
  | none => return none
  | some payload => return some (← popTyped tag payload)

def popMixed (schema : List PyValue) : RingM w (Option PyValue) := do
  match ← popFrame build with
  | none => return none
  | some payload => return some (← popSchema schema payload)

def used : RingM w (BitVec w) := do
  let head ← loadHead
  let tail ← loadTail
  return tail - head

def free : RingM w (BitVec w) := do
  let cap ← capacity
  let taken ← used
  -- `saturating_sub`
  return if cap < taken then 0 else cap - taken

def isEmpty : RingM w Bool := do
  let head ← loadHead
  let tail ← loadTail
  return head = tail

def isFull : RingM w Bool := do
  let taken ← used
  let cap ← capacity
  return taken ≥ cap

def isPowerOfTwo (n : Nat) : Bool := 2 ^ Nat.log2 n = n

def nextPowerOfTwo (n : Nat) : Nat := if isPowerOfTwo n then n else 2 ^ (Nat.log2 n + 1)

def notPowerOfTwo (w capacity : Nat) : PyErr :=
  invalidArg s!"data capacity ({capacity}) must be a power of two; try {nextPowerOfTwo capacity % 2 ^ w / 2} or {nextPowerOfTwo capacity % 2 ^ w}"

/-- `SpscRingBuffer::new`. -/
def new (mapSize : Nat) (isCreator : Bool) : RingM w Unit :=
  if mapSize ≤ headerSize then
    throw (invalidArg s!"map_size must be > {headerSize} bytes (spsc header)")
  else if isCreator then
    let cap := mapSize - headerSize
    if ¬ isPowerOfTwo cap then throw (notPowerOfTwo w cap)
    else do
      storeHead 0
      storeTail 0
      Prog.access (RingOp.storeCapacity (BitVec.ofNat w cap))
  else return ()

/-- `SharedMemory::spsc`; `mapping` is what the operating system answered to `mmap`. -/
def spsc (self : SharedMemory) (mapping : PyResult Unit) : RingM w SpscRingBuffer := do
  mapping
  new self.size self.isCreator
  return ⟨self.size⟩

section Calls

inductive Party where
  | producer
  | consumer
  | third (n : Nat)
  deriving DecidableEq

inductive RingCall where
  | push (data : PyValue)
  | pop (tag : Option String)
  | popMixed (schema : List PyValue)
  | used
  | free
  | isEmpty
  | isFull
  | spsc (handle : SharedMemory) (mapping : PyResult Unit)

def word (v : BitVec w) : PyValue := .int v.toNat

/-- The Python result of a call; `spsc` gives an object of its own, `None` here. -/
def ringCode (self : Party → SpscRingBuffer) (t : Party) :
    RingCall → RingProg w (PyResult PyValue)
  | .push data => (do return .bool (← push build (self t) data) : RingM w PyValue).run
  | .pop tag => (do return (← pop build tag).getD .none : RingM w PyValue).run
  | .popMixed schema => (do return (← popMixed build schema).getD .none : RingM w PyValue).run
  | .used => (do return word (← used) : RingM w PyValue).run
  | .free => (do return word (← free) : RingM w PyValue).run
  | .isEmpty => (do return .bool (← isEmpty) : RingM w PyValue).run
  | .isFull => (do return .bool (← isFull) : RingM w PyValue).run
  | .spsc handle mapping => (do let _ ← spsc handle mapping; return .none : RingM w PyValue).run

abbrev RingEvent (w : Nat) := Event Party RingCall (PyResult PyValue) (RingOp w) RingOp.Res

abbrev RingWorld (w : Nat) :=
  World Party RingCall (PyResult PyValue) (RingOp w) RingOp.Res (RingMem w)

abbrev RingSystem (w : Nat) :=
  System Party RingCall (PyResult PyValue) (RingOp w) RingOp.Res (RingMem w)

/-- Any number of parties on one ring; `allowed` says who makes which calls. -/
def ringSystem (self : Party → SpscRingBuffer) (allowed : Party → RingCall → Prop) :
    RingSystem w where
  code := ringCode build self
  sem := fun _ _ ring o r after => RingMem.exec o ring = (r, after)
  allowed := allowed
  enabled := fun _ _ _ _ => True

theorem exec_faithful {self : Party → SpscRingBuffer}
    {allowed : Party → RingCall → Prop} (t : Party)
    (c : RingCall) (o : RingOp w) (ring : RingMem w) :
    (ringSystem build self allowed).sem t c ring o
      (RingMem.exec o ring).1 (RingMem.exec o ring).2 := rfl

omit [Target]
variable (target : Target) (self : Party → SpscRingBuffer) (allowed : Party → RingCall → Prop)

instance [∀ t c, Decidable (allowed t c)] (t : Party) (c : RingCall) :
    Decidable ((@ringSystem w build target self allowed).allowed t c) :=
  inferInstanceAs (Decidable (allowed t c))

instance (world : RingWorld w) (t : Party) (c : RingCall) (o : RingOp w) :
    Decidable ((@ringSystem w build target self allowed).enabled world t c o) :=
  inferInstanceAs (Decidable True)

end Calls
end Membridge.Spsc
