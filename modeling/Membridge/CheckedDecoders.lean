import Membridge.Arithmetic
import Membridge.DecodeBounds

/-!
The decoders of `src/mixed.rs` with what the machine does in their steps: sums of
64-bit words, which wrap or panic, and slices and indices that are tested against
the length. On slices that fit the address space none of it shows.
-/
namespace Membridge.CheckedDecoders
open Python ByteOrder ByteReader Mixed DecodeBounds Arithmetic

/-- `x + y` on `usize`. -/
def add (build : Build) (x y : Nat) : Decoder Nat :=
  match build with
  | .release => return (x + y) % 2 ^ 64
  | .debug =>
      if x + y < 2 ^ 64 then return x + y else throw (.panic "attempt to add with overflow")

/-- `data[start..stop]`. -/
def slice (len start stop : Nat) : Decoder (List UInt8) :=
  if start > stop then throw (.panic s!"slice index starts at {start} but ends at {stop}")
  else if stop > len then
    throw (.panic s!"range end index {stop} out of range for slice of length {len}")
  else rawSlice start (stop - start)

/-- `data[index]`. -/
def byte (len index : Nat) : Decoder UInt8 :=
  if index < len then ExceptT.lift (Reader.byteAt index)
  else throw (.panic s!"index out of bounds: the len is {len} but the index is {index}")

def checkBounds (build : Build) (cursor needed total : Nat) : Decoder Unit := do
  let sum ← add build cursor needed
  if sum > total then
    throw (invalidArg s!"out of bounds: cursor={cursor} + needed={needed} > data_len={total}")
  else return ()

variable [Target] (build : Build) (len : Nat)

def readFixed (tag : String) (size : Nat) (make : Nat → PyValue) : Decoder (PyValue × Nat) :=
  if len < size then throw (tooShort len tag size)
  else do
    let raw ← slice len 0 size
    return (make (fromNeBytes raw), size)

def unpackOne (tag : String) : Decoder (PyValue × Nat) :=
  match tag with
  | "bool" =>
      if len = 0 then throw (invalidArg "not enough data to read 'bool'")
      else do
        let first ← byte len 0
        return (.bool (first != 0), 1)
  | "u8" => readFixed len "u8" 1 ofUnsigned
  | "f32" => readFixed len "f32" 4 ofF32
  | "i32" => readFixed len "i32" 4 ofI32
  | "u32" => readFixed len "u32" 4 ofUnsigned
  | "float" => readFixed len "float" 8 ofF64
  | "f64" => readFixed len "f64" 8 ofF64
  | "u64" => readFixed len "u64" 8 ofUnsigned
  | "int" => readFixed len "int" 8 ofI64
  | "i64" => readFixed len "i64" 8 ofI64
  | "str" =>
      if len < 4 then throw (invalidArg "not enough data to read str length prefix")
      else do
        let front ← slice len 0 4
        let size := fromNeBytes front
        let total ← add build 4 size
        if len < total then
          throw (invalidArg
            s!"not enough data to read str payload: need {total}, have {len}")
        else
          let raw ← slice len 4 total
          return (ofLossy raw, total)
  | other => throw (invalidArg
      s!"unknown type tag '{other}'; supported: bool, int, float, f32, f64, i32, i64, u8, u32, u64, str")

def boolAt (cursor : Nat) : Decoder (PyValue × Nat) := do
  checkBounds build cursor 1 len
  let first ← byte len cursor
  let next ← add build cursor 1
  return (.bool (first != 0), next)

def fixedAt (size : Nat) (make : Nat → PyValue) (cursor : Nat) : Decoder (PyValue × Nat) := do
  checkBounds build cursor size len
  let stop ← add build cursor size
  let raw ← slice len cursor stop
  let next ← add build cursor size
  return (make (fromNeBytes raw), next)

def strAt (cursor : Nat) : Decoder (PyValue × Nat) := do
  checkBounds build cursor 4 len
  let body ← add build cursor 4
  let front ← slice len cursor body
  let size := fromNeBytes front
  let cursor ← add build cursor 4
  checkBounds build cursor size len
  let stop ← add build cursor size
  let raw ← slice len cursor stop
  let next ← add build cursor size
  return (ofLossy raw, next)

def repetition (tag : String) : Option (Nat → Decoder (PyValue × Nat)) :=
  match tag with
  | "bool" => some (boolAt build len)
  | "u8" => some (fixedAt build len 1 ofUnsigned)
  | "f32" => some (fixedAt build len 4 ofF32)
  | "i32" => some (fixedAt build len 4 ofI32)
  | "u32" => some (fixedAt build len 4 ofUnsigned)
  | "int" => some (fixedAt build len 8 ofI64)
  | "i64" => some (fixedAt build len 8 ofI64)
  | "float" => some (fixedAt build len 8 ofF64)
  | "f64" => some (fixedAt build len 8 ofF64)
  | "u64" => some (fixedAt build len 8 ofUnsigned)
  | "str" => some (strAt build len)
  | _ => none

def unpackEntries : List PyValue → List PyValue → Nat → Decoder (List PyValue × Nat)
  | [], result, cursor => return (result, cursor)
  | item :: rest, result, cursor => do
      let (tag, count) ← schemaEntry item
      match repetition build len tag with
      | none => throw (invalidArg s!"unknown type tag '{tag}'")
      | some one =>
          let (group, cursor) ← repeated one count [] cursor
          let v ← entryValue count group
          unpackEntries rest (result ++ [v]) cursor

def unpackMixedCounted (schema : List PyValue) : Decoder (List PyValue × Nat) :=
  unpackEntries build len schema [] 0

section Rules
variable {α β : Type} {build : Build} {len : Nat}

omit [Target] in
theorem add_fits {x y : Nat} (fits : x + y < 2 ^ 64) : add build x y = pure (x + y) := by
  cases build with
  | release => rw [add, Nat.mod_eq_of_lt fits]
  | debug => rw [add, if_pos fits]

omit [Target] in
theorem slice_fits {start stop : Nat} (ordered : start ≤ stop) (inside : stop ≤ len) :
    slice len start stop = rawSlice start (stop - start) := by
  rw [slice, if_neg (Nat.not_lt.mpr ordered), if_neg (Nat.not_lt.mpr inside)]

omit [Target] in
theorem pure_step (value : α) (f : α → Decoder β) : (pure value : Decoder α) >>= f = f value := rfl

omit [Target] in
/-- Behind a first part, two rests need only agree on the values it may give. -/
theorem bind_congr {decoder : Decoder α} {f g : α → Decoder β} {post : α → Prop}
    (reads : Reads len decoder post) (same : ∀ value, post value → f value = g value) :
    decoder >>= f = decoder >>= g := by
  have runs : ∀ (p : Reader (Except PyErr α)) (k l : Except PyErr α → Reader (Except PyErr β)),
      Reader.Within len p (fun result => k result = l result) → p.bind k = p.bind l := by
    intro p k l within
    induction p with
    | done value => exact within
    | load index next ih =>
        simp only [Reader.bind]
        congr 1
        funext b
        exact ih b (within.2 b)
  change Reader.bind decoder.run _ = Reader.bind decoder.run _
  apply runs
  apply Reader.within_mono ?_ reads
  intro result holds
  cases result with
  | ok value => exact same value (holds value rfl)
  | error e => rfl

omit [Target] in
theorem rawSlice_reads {start width : Nat} (fits : start + width ≤ len) :
    Reads len (rawSlice start width) fun raw => raw.length = width := by
  change Reader.Within len ((Reader.slice start width).bind _) _
  rw [Reader.within_bind]
  apply Reader.within_mono ?_ (Reader.within_slice fits)
  rintro raw length value same
  cases same
  exact length

/-- A number is read as a slice. -/
theorem number_step (start width : Nat) (f : Nat → Decoder β) :
    number start width >>= f = rawSlice start width >>= fun raw => f (fromNeBytes raw) := by
  have runs : ∀ p : Reader (List UInt8),
      (p.bind fun raw => .done (.ok (fromNeBytes raw))).bind (ExceptT.bindCont f) =
        (p.bind fun raw => .done (.ok raw)).bind
          (ExceptT.bindCont fun raw => f (fromNeBytes raw)) := by
    intro p
    induction p with
    | done raw => rfl
    | load index next ih =>
        simp only [Reader.bind]
        congr 1
        funext b
        exact ih b
  exact runs (Reader.slice start width)

theorem fromNeBytes_one (b : UInt8) : fromNeBytes [b] = b.toNat := by
  unfold fromNeBytes
  split <;> simp [leValue]

/-- A byte is read as a number of one byte. -/
theorem byte_step {index : Nat} (inside : index < len) {f : UInt8 → Decoder β} {g : Nat → Decoder β}
    (same : ∀ b, f b = g b.toNat) : byte len index >>= f = number index 1 >>= g := by
  have loads : ExceptT.lift (Reader.byteAt index) >>= f =
      (ExceptT.mk (.load index fun b => (f b).run) : Decoder β) := rfl
  have reads : number index 1 >>= g =
      (ExceptT.mk (.load index fun b => (g (fromNeBytes [b])).run) : Decoder β) := rfl
  rw [byte, if_pos inside, loads, reads]
  congr 2
  funext b
  rw [same, fromNeBytes_one]

end Rules

section Same
variable {build : Build} {len : Nat}

theorem readFixed_same (tag : String) (size : Nat) (make : Nat → PyValue) :
    readFixed len tag size make = Mixed.readFixed len tag size make := by
  unfold readFixed Mixed.readFixed
  split
  · rfl
  · next enough =>
      rw [slice_fits (Nat.zero_le _) (Nat.not_lt.mp enough), number_step]
      rfl

theorem length_small {raw : List UInt8} (length : raw.length = 4) : fromNeBytes raw < 2 ^ 32 := by
  have small := fromNeBytes_lt raw
  rw [length] at small
  exact Nat.lt_of_lt_of_eq small (by decide)

omit [Target] in
theorem nonzero_toNat (b : UInt8) : (b != 0) = (b.toNat != 0) := by
  rw [Bool.eq_iff_iff, bne_iff_ne, bne_iff_ne]
  exact not_congr UInt8.toNat_inj.symm

theorem unpackOne_same (tag : String) :
    unpackOne build len tag = Mixed.unpackOne len tag := by
  unfold unpackOne Mixed.unpackOne
  split
  case h_1 =>
    split
    · rfl
    · next nonzero =>
        apply byte_step (Nat.pos_of_ne_zero nonzero)
        intro b
        rw [nonzero_toNat]
  case h_11 =>
    by_cases short : len < 4
    · rw [if_pos short]
      exact (if_pos short).symm
    · rw [if_neg short]
      refine Eq.trans ?_ (if_neg short).symm
      have header : 4 ≤ len := Nat.not_lt.mp short
      rw [slice_fits (Nat.zero_le _) header, number_step]
      apply bind_congr (rawSlice_reads header)
      intro front length
      have small := length_small length
      dsimp only
      rw [add_fits (by omega), pure_step]
      split
      · rfl
      · next whole =>
          rw [slice_fits (by omega) (Nat.not_lt.mp whole), Nat.add_sub_cancel_left]
  case h_12 =>
    -- the second table falls through as the first did
    simp [*]
  all_goals exact readFixed_same _ _ _

omit [Target] in
theorem checkBounds_same {cursor needed total : Nat} (fits : cursor + needed < 2 ^ 64) :
    checkBounds build cursor needed total = liftM (Mixed.checkBounds cursor needed total) := by
  rw [checkBounds, add_fits fits, pure_step, Mixed.checkBounds]
  split <;> rfl

omit [Target] in
/-- Behind a bounds check. -/
theorem check_step {β : Type} {cursor needed : Nat} {f g : Unit → Decoder β}
    (fits : cursor + needed < 2 ^ 64) (same : cursor + needed ≤ len → f () = g ()) :
    checkBounds build cursor needed len >>= f =
      liftM (Mixed.checkBounds cursor needed len) >>= g := by
  rw [checkBounds_same fits]
  have passes : Reads len (liftM (Mixed.checkBounds cursor needed len) : Decoder Unit)
      fun _ => cursor + needed ≤ len := reads_except fun _ passed => checkBounds_ok passed
  exact bind_congr passes fun _ inside => same inside

theorem fixedAt_same {size cursor : Nat} (usize : len < 2 ^ 63) (narrow : size ≤ 8)
    (make : Nat → PyValue) (inside : cursor ≤ len) :
    fixedAt build len size make cursor = Mixed.fixedAt len size make cursor := by
  apply check_step (by omega)
  intro room
  rw [add_fits (by omega), pure_step, slice_fits (by omega) room,
    Nat.add_sub_cancel_left, number_step]
  rfl

theorem boolAt_same {cursor : Nat} (usize : len < 2 ^ 63) (inside : cursor ≤ len) :
    boolAt build len cursor = Mixed.fixedAt len 1 (fun raw => .bool (raw != 0)) cursor := by
  apply check_step (by omega)
  intro room
  apply byte_step room
  intro b
  rw [add_fits (by omega), pure_step, nonzero_toNat]

theorem strAt_same {cursor : Nat} (usize : len < 2 ^ 63) (inside : cursor ≤ len) :
    strAt build len cursor = Mixed.strAt len cursor := by
  apply check_step (by omega)
  intro header
  rw [add_fits (by omega), pure_step, slice_fits (by omega) header,
    Nat.add_sub_cancel_left, number_step]
  apply bind_congr (rawSlice_reads header)
  intro front length
  have small := length_small length
  rw [pure_step]
  apply check_step (by omega)
  intro whole
  rw [add_fits (by omega), pure_step, slice_fits (by omega) whole, Nat.add_sub_cancel_left]
  rfl

omit [Target] in
theorem repeated_same {one other : Nat → Decoder (PyValue × Nat)} {cursor : Nat}
    (same : ∀ cursor, cursor ≤ len → one cursor = other cursor)
    (reads : ∀ cursor, Reads len (other cursor) fun result => result.2 ≤ len) (count : Nat)
    (group : List PyValue) (inside : cursor ≤ len) :
    repeated one count group cursor = repeated other count group cursor := by
  induction count generalizing group cursor with
  | zero => rfl
  | succ count ih =>
      rw [repeated, repeated, same cursor inside]
      apply bind_congr (reads cursor)
      rintro ⟨v, next⟩ inside
      exact ih (group ++ [v]) inside

/-- Both tables hold the same repetitions, as long as the cursor is inside the data. -/
theorem repetition_same (build : Build) (usize : len < 2 ^ 63) (tag : String) :
    Option.Rel (fun one other => ∀ cursor, cursor ≤ len → one cursor = other cursor)
      (repetition build len tag) (Mixed.repetition len tag) := by
  unfold repetition Mixed.repetition
  split
  case h_1 => exact .some fun cursor inside => boolAt_same usize inside
  case h_11 => exact .some fun cursor inside => strAt_same usize inside
  case h_12 =>
    -- the second table falls through as the first did
    simp [*]
  all_goals exact .some fun cursor inside => fixedAt_same usize (by decide) _ inside

theorem unpackEntries_same (usize : len < 2 ^ 63) (schema result : List PyValue) {cursor : Nat}
    (inside : cursor ≤ len) :
    unpackEntries build len schema result cursor =
      Mixed.unpackEntries len schema result cursor := by
  induction schema generalizing result cursor with
  | nil => rfl
  | cons item rest ih =>
      have any : Reads len (liftM (schemaEntry item) : Decoder (String × Nat)) fun _ => True :=
        reads_except fun _ _ => trivial
      apply bind_congr any
      rintro ⟨tag, count⟩ -
      have tables := repetition_same build usize tag
      dsimp only
      cases checked : repetition build len tag with
      | none =>
          rw [checked] at tables
          generalize Mixed.repetition len tag = plain at tables
          cases tables
          rfl
      | some one =>
          cases plain : Mixed.repetition len tag with
          | none =>
              rw [checked, plain] at tables
              cases tables
          | some other =>
              rw [checked, plain] at tables
              cases tables with
              | some same =>
                  have reads := repetition_reads plain
                  dsimp only
                  rw [repeated_same same reads count [] inside]
                  apply bind_congr (repeated_reads reads count [] inside)
                  rintro ⟨group, next⟩ inside
                  have any : Reads len (liftM (entryValue count group) : Decoder PyValue)
                      fun _ => True := reads_except fun _ _ => trivial
                  apply bind_congr any
                  intro v _
                  exact ih (result ++ [v]) inside

/-- On a slice that fits the address space no step of the decoder shows the machine. -/
theorem unpackMixedCounted_same (usize : len < 2 ^ 63) (schema : List PyValue) :
    unpackMixedCounted build len schema = Mixed.unpackMixedCounted len schema :=
  unpackEntries_same usize schema [] (Nat.zero_le len)

end Same
end Membridge.CheckedDecoders
