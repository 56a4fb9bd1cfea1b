import Membridge.Arithmetic
import Membridge.Mixed
import Membridge.RwLock
import Membridge.Segment

/-!
`src/mapped_view.rs`: views of a segment, and `SharedMemory::map`. Every lock
step, every byte copied and every cursor access of the source is one operation,
in program order. Offsets are `usize` values; a region, and so every slice of
it, is at most `isize::MAX` bytes long.
-/
namespace Membridge.View
open Program Python ByteOrder ByteReader Mixed Segment Arithmetic RwLock

structure MappedView where
  /-- The name of the view's cursor among those of all views. -/
  id : Nat
  size : Nat
  large : rwlockSize < size

/-- The offset in the region of a position in the data area. -/
def dataPtr (pos : Nat) : Nat := rwlockSize + pos

def MappedView.dataSize (view : MappedView) : Nat := view.size - rwlockSize

def checkBounds (view : MappedView) (offset length : Nat) : PyResult Unit :=
  if length = 0 then .error (invalidArg "length cannot be zero")
  -- `saturating_add`
  else if min (offset + length) (2 ^ 64 - 1) > view.dataSize then
    .error (invalidArg
      s!"out of bounds: offset={offset} + length={length} > data_size={view.dataSize}")
  else .ok ()

def loadCursor (view : MappedView) : SegM (BitVec 64) := Prog.access (SegOp.loadCursor view.id)

/-- The offset given, or else the cursor. -/
def position (view : MappedView) : Option Nat → SegM Nat
  | some offset => return offset
  | none => do return (← loadCursor view).toNat

def fetchAdd (view : MappedView) (n : Nat) : SegM Unit := do
  let _ ← Prog.access (SegOp.fetchAddCursor view.id (BitVec.ofNat 64 n))

/-- The cursor moves only when no offset was given. -/
def advance (view : MappedView) (offset : Option Nat) (n : Nat) : SegM Unit :=
  if offset.isNone then fetchAdd view n else return ()

def copyTo : Nat → List UInt8 → SegM Unit
  | _, [] => return ()
  | at_i, byte :: rest => do
      Prog.access (SegOp.writeByte at_i byte)
      copyTo (at_i + 1) rest

/-- A reader on the slice that begins at `pos` of the data area. -/
def onSlice {α : Type} (pos : Nat) (reader : Reader α) : SegProg α :=
  reader.program fun index => Prog.perform (SegOp.readByte (dataPtr pos + index))

def readAll (view : MappedView) : SegM (List UInt8) :=
  withReadGuard (ExceptT.lift (onSlice 0 (Reader.slice 0 view.dataSize)))

def readRange (view : MappedView) (offset length : Nat) : SegM (List UInt8) := do
  checkBounds view offset length
  withReadGuard (ExceptT.lift (onSlice offset (Reader.slice 0 length)))

/-- What `write` and `write_mixed` do with the packed bytes. -/
def place (view : MappedView) (bytes : List UInt8) (offset : Option Nat) : SegM Unit := do
  let pos ← position view offset
  checkBounds view pos bytes.length
  withWriteGuard do
    copyTo (dataPtr pos) bytes
    advance view offset bytes.length

def seekError (view : MappedView) (pos : Nat) : PyErr :=
  invalidArg s!"seek position {pos} exceeds data_size {view.dataSize}"

def seek (view : MappedView) (pos : Nat) : SegM Unit :=
  if pos > view.dataSize then throw (seekError view pos)
  else Prog.access (SegOp.storeCursor view.id (BitVec.ofNat 64 pos))

def tell (view : MappedView) : SegM (BitVec 64) := loadCursor view

def zero (view : MappedView) : SegM Unit :=
  withWriteGuard (copyTo (dataPtr 0) (List.replicate view.dataSize 0))

section Packed
variable [Target]

def write (view : MappedView) (data : PyValue) (offset : Option Nat) : SegM Unit := do
  let bytes ← packValue data []
  place view bytes offset

def writeMixed (view : MappedView) (items : List PyValue) (offset : Option Nat) : SegM Unit := do
  let bytes ← packMixed items
  place view bytes offset

/-- The slice is as long as `data_size - pos`, whatever that subtraction gives. -/
def read (build : Build) (view : MappedView) (tag : String) : SegM PyValue := do
  let pos ← loadCursor view
  withReadGuard do
    let len ← build.minus (BitVec.ofNat 64 view.dataSize) pos
    let (value, bytesRead) ← ExceptT.mk (onSlice pos.toNat (unpackOne len.toNat tag).run)
    fetchAdd view bytesRead
    return value

def noData : PyErr := invalidArg "read_mixed: no data available at current cursor position"

def readMixed (view : MappedView) (schema : List PyValue) (offset : Option Nat) :
    SegM (List PyValue) := do
  let pos ← position view offset
  -- `saturating_sub`
  let available := view.dataSize - pos
  if available = 0 then throw noData
  else
    withReadGuard do
      let (result, bytesRead) ← ExceptT.mk (onSlice pos (unpackMixedCounted available schema).run)
      advance view offset bytesRead
      return result

end Packed

def tooSmall : PyErr := invalidArg s!"segment size must be > {rwlockSize} bytes (rwlock header)"

/-- `MappedView::new`; `id` names the new cursor. -/
def new (id size : Nat) (isCreator : Bool) : SegM MappedView :=
  if small : size ≤ rwlockSize then throw tooSmall
  else do
    if isCreator then RwLock.init
    Prog.access (SegOp.storeCursor id 0)
    return ⟨id, size, by omega⟩

/-- `SharedMemory::map`; `mapping` is what the operating system answered to `mmap`. -/
def map (handle : SharedMemory) (mapping : PyResult Unit) (id : Nat) : SegM MappedView := do
  mapping
  new id handle.size handle.isCreator

section Calls

inductive ViewCall where
  | write (data : PyValue) (offset : Option Nat)
  | writeMixed (items : List PyValue) (offset : Option Nat)
  | read (tag : String)
  | readMixed (schema : List PyValue) (offset : Option Nat)
  | readRange (offset length : Nat)
  | readAll
  | zero
  | seek (pos : Nat)
  | tell
  | readerCount
  | isWriteLocked
  | map (handle : SharedMemory) (mapping : PyResult Unit) (id : Nat)

/-- Not a call of a view, but of a handle: it may store the lock word outside a guard. -/
def isMap : ViewCall → Bool
  | .map _ _ _ => true
  | _ => false

variable [Target] (build : Build)

/-- The Python result of a call; `map` gives an object of its own, `None` here. -/
def viewCall (view : MappedView) : ViewCall → SegM PyValue
  | .write data offset => do
      write view data offset
      return .none
  | .writeMixed items offset => do
      writeMixed view items offset
      return .none
  | .read tag => read build view tag
  | .readMixed schema offset => do return .list (← readMixed view schema offset)
  | .readRange offset length => do return .bytes (← readRange view offset length)
  | .readAll => do return .bytes (← readAll view)
  | .zero => do
      zero view
      return .none
  | .seek pos => do
      seek view pos
      return .none
  | .tell => do return .int (← tell view).toNat
  | .readerCount => do return .int (← RwLock.readerCount).toInt
  | .isWriteLocked => do return .bool (← RwLock.isWriteLocked)
  | .map handle mapping id => do
      let _ ← map handle mapping id
      return .none

def viewCode (view : MappedView) (c : ViewCall) : SegProg (PyResult PyValue) :=
  (viewCall build view c).run

end Calls
end Membridge.View
