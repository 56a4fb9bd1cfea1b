import Membridge.Segment

/-!
`src/rwlock.rs`: the lock word and its guards. Dropping a guard is the end of
its scope, on errors too.
-/
namespace Membridge.RwLock
open Program Python Segment

/-- `RWLOCK_SIZE`. -/
def rwlockSize : Nat := 4

def init : SegProg Unit := Prog.perform (SegOp.storeState 0)

/-- `cur + 1` is written as it wraps; that it never does is a theorem about the runs. -/
def readLock : SegProg Unit :=
  .loop .loadState
    (fun cur : BitVec 32 =>
      if 0 ≤ cur.toInt then Prog.perform (SegOp.compareExchange cur (cur + 1)) else .ret false)
    (.ret ())

def readUnlock : SegProg Unit := do
  let _ ← Prog.perform (SegOp.fetchSub 1)
  return ()

def writeLock : SegProg Unit :=
  .loop (.compareExchange 0 (-1)) (fun exchanged => .ret exchanged) (.ret ())

def writeUnlock : SegProg Unit := Prog.perform (SegOp.storeState 0)

def readerCount : SegProg (BitVec 32) := do
  let v : BitVec 32 ← Prog.perform SegOp.loadState
  return if 0 < v.toInt then v else 0

def isWriteLocked : SegProg Bool := do
  let v : BitVec 32 ← Prog.perform SegOp.loadState
  return v = -1

/-- A scope that begins with `ReadGuard::new`. -/
def withReadGuard {α : Type} (body : SegM α) : SegM α :=
  ExceptT.mk do
    readLock
    let result ← body.run
    readUnlock
    return result

/-- A scope that begins with `WriteGuard::new`. -/
def withWriteGuard {α : Type} (body : SegM α) : SegM α :=
  ExceptT.mk do
    writeLock
    let result ← body.run
    writeUnlock
    return result

end Membridge.RwLock
