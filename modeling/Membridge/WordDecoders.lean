import Membridge.DecodeBounds

/-!
The decoders of `src/mixed.rs` where `usize` has `w` bits and sums are checked. A
length prefix has 32 bits: on a machine of that width the end it announces need not
be a number the machine has.
-/
namespace Membridge.WordDecoders
open Python ByteOrder ByteReader Mixed Decoding DecodeBounds

section Checks
variable {α β : Type} {checked plain : PyResult α} {bad other : Prop}

/-- A checked computation panics if `bad`, and if not it does what the plain one does. -/
structure Checks (checked plain : PyResult α) (bad : Prop) : Prop where
  panics : bad → ∃ message, checked = .error (.panic message)
  same : ¬ bad → checked = plain

theorem checks_refl (result : PyResult α) : Checks result result False :=
  ⟨False.elim, fun _ => rfl⟩

/-- What comes behind a first part matters if the plain one gets there. -/
theorem checks_bind {f g : α → PyResult β} {later : α → Prop} (first : Checks checked plain bad)
    (rest : ∀ value, plain = .ok value → Checks (f value) (g value) (later value)) :
    Checks (checked.bind f) (plain.bind g) (bad ∨ ∃ value, plain = .ok value ∧ later value) := by
  by_cases now : bad
  · obtain ⟨message, stopped⟩ := first.panics now
    refine ⟨fun _ => ⟨message, ?_⟩, fun calm => absurd (.inl now) calm⟩
    rw [stopped]
    rfl
  · rw [first.same now]
    cases plain with
    | error e =>
        constructor
        · rintro (wrong | ⟨value, same, _⟩)
          · exact absurd wrong now
          · cases same
        · exact fun _ => rfl
    | ok value =>
        have tail := rest value rfl
        constructor
        · rintro (wrong | ⟨_, same, wrong⟩)
          · exact absurd wrong now
          · cases same
            exact tail.panics wrong
        · exact fun calm => tail.same fun wrong => calm (.inr ⟨value, rfl, wrong⟩)

theorem bind_ok {result : PyResult α} {f : α → PyResult β} {value : β}
    (done : result.bind f = .ok value) : ∃ first, result = .ok first ∧ f first = .ok value := by
  cases result with
  | ok first => exact ⟨first, rfl, done⟩
  | error e => cases done

theorem Checks.congr (checks : Checks checked plain bad) (same : bad ↔ other) :
    Checks checked plain other :=
  ⟨fun wrong => checks.panics (same.mpr wrong),
    fun calm => checks.same fun wrong => calm (same.mp wrong)⟩

/-- Where the plain computation does not panic, the checked one does on `bad` only. -/
theorem Checks.calm_iff (checks : Checks checked plain bad) (calm : Calm plain) :
    Calm checked ↔ ¬ bad := by
  constructor
  · intro quiet wrong
    obtain ⟨message, stopped⟩ := checks.panics wrong
    exact quiet message stopped
  · intro fine
    rw [checks.same fine]
    exact calm

end Checks

section Decoders
variable (w len : Nat)

/-- `x + y` on `usize`. -/
def add (x y : Nat) : PyResult Nat :=
  if x + y < 2 ^ w then .ok (x + y) else .error (.panic "attempt to add with overflow")

def checkBounds (cursor needed total : Nat) : PyResult Unit := do
  let sum ← add w cursor needed
  if sum > total then
    .error (invalidArg s!"out of bounds: cursor={cursor} + needed={needed} > data_len={total}")
  else .ok ()

/-- `(tag, count)` of a schema entry; the count is extracted as a `usize`. -/
def schemaEntry (item : PyValue) : PyResult (String × Nat) := do
  let (tag, count) ← Mixed.schemaEntry item
  if count < 2 ^ w then .ok (tag, count) else .error .overflow

variable [Target]

/-- `unpack_one`; the slices of its fixed-width arms start at 0 and take no sum. -/
def unpackOne (tag : String) : Decoder (PyValue × Nat) :=
  match tag with
  | "str" =>
      if len < 4 then throw (invalidArg "not enough data to read str length prefix")
      else do
        let size ← number 0 4
        let total ← add w 4 size
        if len < total then
          throw (invalidArg
            s!"not enough data to read str payload: need {total}, have {len}")
        else
          let raw ← rawSlice 4 size
          return (ofLossy raw, total)
  | tag => Mixed.unpackOne len tag

def fixedAt (size : Nat) (make : Nat → PyValue) (cursor : Nat) : Decoder (PyValue × Nat) := do
  checkBounds w cursor size len
  let raw ← number cursor size
  let next ← add w cursor size
  return (make raw, next)

def strAt (cursor : Nat) : Decoder (PyValue × Nat) := do
  checkBounds w cursor 4 len
  let size ← number cursor 4
  let cursor ← add w cursor 4
  checkBounds w cursor size len
  let raw ← rawSlice cursor size
  let next ← add w cursor size
  return (ofLossy raw, next)

/-- Size and value of the fixed-width tags. -/
def fixedTag (tag : String) : Option (Nat × (Nat → PyValue)) :=
  match tag with
  | "bool" => some (1, fun raw => .bool (raw != 0))
  | "u8" => some (1, ofUnsigned)
  | "f32" => some (4, ofF32)
  | "i32" => some (4, ofI32)
  | "u32" => some (4, ofUnsigned)
  | "int" => some (8, ofI64)
  | "i64" => some (8, ofI64)
  | "float" => some (8, ofF64)
  | "f64" => some (8, ofF64)
  | "u64" => some (8, ofUnsigned)
  | _ => none

def repetition (tag : String) : Option (Nat → Decoder (PyValue × Nat)) :=
  match fixedTag tag with
  | some (size, make) => some (fixedAt w len size make)
  | none => if tag = "str" then some (strAt w len) else none

omit [Target] in
/-- The loop over the schema, for any table of tags. -/
def unpackEntries (table : String → Option (Nat → Decoder (PyValue × Nat))) :
    List PyValue → List PyValue → Nat → Decoder (List PyValue × Nat)
  | [], result, cursor => return (result, cursor)
  | item :: rest, result, cursor => do
      let (tag, count) ← schemaEntry w item
      match table tag with
      | none => throw (invalidArg s!"unknown type tag '{tag}'")
      | some one =>
          let (group, cursor) ← repeated one count [] cursor
          let v ← entryValue count group
          unpackEntries table rest (result ++ [v]) cursor

def unpackMixedCounted (schema : List PyValue) : Decoder (List PyValue × Nat) :=
  unpackEntries w (repetition w len) schema [] 0

end Decoders

section Rules
variable {w len : Nat} {mem : Nat → UInt8} {α β : Type} {later : Prop}

@[simp] theorem decode_lift (result : PyResult α) :
    decode mem (liftM result : Decoder α) = result := by
  cases result <;> rfl

/-- A sum, where the plain decoder goes on with the number. -/
theorem checks_add {x y : Nat} {f : Nat → Decoder β} {g : Decoder β}
    (rest : Checks (decode mem (f (x + y))) (decode mem g) later) :
    Checks (decode mem (liftM (add w x y) >>= f)) (decode mem g) (2 ^ w ≤ x + y ∨ later) := by
  rw [decode_bind, decode_lift, add]
  by_cases fits : x + y < 2 ^ w
  · rw [if_pos fits]
    exact rest.congr (by simp [Nat.not_le.mpr fits])
  · rw [if_neg fits]
    exact ⟨fun _ => ⟨_, rfl⟩, fun calm => absurd (.inl (Nat.not_lt.mp fits)) calm⟩

/-- A bounds check in both: its sum, then what is left of the slice. -/
theorem checks_check {cursor needed : Nat} {f g : Unit → Decoder β}
    (rest : cursor + needed ≤ len → Checks (decode mem (f ())) (decode mem (g ())) later) :
    Checks (decode mem (liftM (checkBounds w cursor needed len) >>= f))
      (decode mem (liftM (Mixed.checkBounds cursor needed len) >>= g))
      (2 ^ w ≤ cursor + needed ∨ cursor + needed ≤ len ∧ later) := by
  simp only [decode_bind, decode_lift, checkBounds, add, Mixed.checkBounds]
  by_cases fits : cursor + needed < 2 ^ w
  · rw [if_pos fits]
    by_cases inside : cursor + needed ≤ len
    · have passes : ¬ cursor + needed > len := Nat.not_lt.mpr inside
      simp only [bind, Except.bind, if_neg passes]
      exact (rest inside).congr (by simp [Nat.not_le.mpr fits, inside])
    · have refuses : cursor + needed > len := Nat.lt_of_not_le inside
      simp only [bind, Except.bind, if_pos refuses]
      exact (checks_refl _).congr (by simp [Nat.not_le.mpr fits, inside])
  · rw [if_neg fits]
    exact ⟨fun _ => ⟨_, rfl⟩, fun calm => absurd (.inl (Nat.not_lt.mp fits)) calm⟩

theorem checks_then {p q : Decoder α} {f g : α → Decoder β} {bad : Prop} {after : α → Prop}
    (first : Checks (decode mem p) (decode mem q) bad)
    (rest : ∀ value, decode mem q = .ok value →
      Checks (decode mem (f value)) (decode mem (g value)) (after value)) :
    Checks (decode mem (p >>= f)) (decode mem (q >>= g))
      (bad ∨ ∃ value, decode mem q = .ok value ∧ after value) := by
  rw [decode_bind, decode_bind]
  exact checks_bind first rest

/-- The same read in both. -/
theorem checks_read {p : Decoder α} {value : α} {f g : α → Decoder β}
    (reads : decode mem p = .ok value)
    (rest : Checks (decode mem (f value)) (decode mem (g value)) later) :
    Checks (decode mem (p >>= f)) (decode mem (p >>= g)) later := by
  rw [decode_bind, decode_bind, reads]
  exact rest

end Rules

section Sums
variable [Target] {w len : Nat} {mem : Nat → UInt8}

/-- The string at the front, with its prefix, ends beyond the numbers of the machine. -/
def StrOverruns (w : Nat) (mem : Nat → UInt8) (len : Nat) : Prop :=
  4 ≤ len ∧ 2 ^ w ≤ 4 + fromNeBytes (Reader.span mem 0 4)

theorem str_checks :
    Checks (decode mem (unpackOne w len "str")) (decode mem (Mixed.unpackOne len "str"))
      (StrOverruns w mem len) := by
  by_cases header : len < 4
  · have same : decode mem (unpackOne w len "str") = decode mem (Mixed.unpackOne len "str") := by
      simp only [unpackOne, Mixed.unpackOne, if_pos header]
    rw [same]
    refine (checks_refl _).congr ⟨False.elim, ?_⟩
    rintro ⟨enough, _⟩
    omega
  · have sums : Checks (decode mem (unpackOne w len "str")) (decode mem (Mixed.unpackOne len "str"))
        (2 ^ w ≤ 4 + fromNeBytes (Reader.span mem 0 4) ∨ False) := by
      simp only [unpackOne, Mixed.unpackOne, if_neg header]
      apply checks_read (decode_number 0 4)
      exact checks_add (checks_refl _)
    apply sums.congr
    rw [or_false, StrOverruns]
    omega

theorem fixedAt_checks (size : Nat) (make : Nat → PyValue) (cursor : Nat) :
    Checks (decode mem (fixedAt w len size make cursor))
      (decode mem (Mixed.fixedAt len size make cursor))
      (2 ^ w ≤ cursor + size) := by
  have sums : Checks (decode mem (fixedAt w len size make cursor))
      (decode mem (Mixed.fixedAt len size make cursor))
      (2 ^ w ≤ cursor + size ∨ cursor + size ≤ len ∧ (2 ^ w ≤ cursor + size ∨ False)) := by
    apply checks_check
    intro _
    exact checks_read (decode_number cursor size) (checks_add (checks_refl _))
  apply sums.congr
  constructor
  · rintro (wide | ⟨_, wide | wrong⟩)
    · exact wide
    · exact wide
    · exact wrong.elim
  · exact .inl

/-- A string at the cursor: its prefix ends beyond the numbers of the machine, or it does. -/
def StrAtOverruns (w : Nat) (mem : Nat → UInt8) (len cursor : Nat) : Prop :=
  2 ^ w ≤ cursor + 4 ∨
    cursor + 4 ≤ len ∧ 2 ^ w ≤ cursor + 4 + fromNeBytes (Reader.span mem cursor 4)

theorem strAt_checks (cursor : Nat) :
    Checks (decode mem (strAt w len cursor)) (decode mem (Mixed.strAt len cursor))
      (StrAtOverruns w mem len cursor) := by
  generalize prefixed : fromNeBytes (Reader.span mem cursor 4) = size
  have sums : Checks (decode mem (strAt w len cursor)) (decode mem (Mixed.strAt len cursor))
      (2 ^ w ≤ cursor + 4 ∨ cursor + 4 ≤ len ∧ (2 ^ w ≤ cursor + 4 ∨
        (2 ^ w ≤ cursor + 4 + size ∨
          cursor + 4 + size ≤ len ∧ (2 ^ w ≤ cursor + 4 + size ∨ False)))) := by
    apply checks_check
    intro _
    apply checks_read (decode_number cursor 4)
    rw [prefixed]
    apply checks_add
    apply checks_check
    intro _
    exact checks_read (decode_rawSlice _ _) (checks_add (checks_refl _))
  apply sums.congr
  rw [StrAtOverruns, prefixed]
  tauto

/-- One repetition of a tag overruns the numbers of the machine. -/
def Overruns (w : Nat) (mem : Nat → UInt8) (len : Nat) (tag : String) (cursor : Nat) : Prop :=
  match fixedTag tag with
  | some (size, _) => 2 ^ w ≤ cursor + size
  | none => StrAtOverruns w mem len cursor

/-- The table of the plain decoders, told the same way. -/
theorem table_plain (len : Nat) (tag : String) :
    Mixed.repetition len tag =
      match fixedTag tag with
      | some (size, make) => some (Mixed.fixedAt len size make)
      | none => if tag = "str" then some (Mixed.strAt len) else none := by
  cases known : fixedTag tag with
  | some arm =>
      unfold fixedTag at known
      split at known
      case h_11 => cases known
      all_goals
        cases known
        rfl
  | none =>
      unfold fixedTag at known
      split at known
      case h_11 =>
        -- of the tags only "str" is left
        unfold Mixed.repetition
        split
        case h_11 => rfl
        case h_12 isStr => exact (if_neg isStr).symm
        all_goals contradiction
      all_goals cases known

/-- Both tables hold the same tags. -/
theorem repetition_checks (w len : Nat) (mem : Nat → UInt8) (tag : String) :
    repetition w len tag = none ∧ Mixed.repetition len tag = none ∨
      ∃ one plain, repetition w len tag = some one ∧ Mixed.repetition len tag = some plain ∧
        ∀ cursor, Checks (decode mem (one cursor)) (decode mem (plain cursor))
          (Overruns w mem len tag cursor) := by
  rw [table_plain]
  unfold repetition Overruns
  cases fixedTag tag with
  | some arm => exact .inr ⟨_, _, rfl, rfl, fun cursor => fixedAt_checks arm.1 arm.2 cursor⟩
  | none =>
      by_cases isStr : tag = "str"
      · rw [if_pos isStr, if_pos isStr]
        exact .inr ⟨_, _, rfl, rfl, strAt_checks⟩
      · rw [if_neg isStr, if_neg isStr]
        exact .inl ⟨rfl, rfl⟩

end Sums

section Loops
variable {w len : Nat} {mem : Nat → UInt8}

/-- One of `count` repetitions from the cursor on is `bad` where it starts. -/
def RepeatedOverruns (mem : Nat → UInt8) (one : Nat → Decoder (PyValue × Nat)) (bad : Nat → Prop) :
    Nat → Nat → Prop
  | 0, _ => False
  | count + 1, cursor =>
      bad cursor ∨
        ∃ read, decode mem (one cursor) = .ok read ∧ RepeatedOverruns mem one bad count read.2

theorem repeated_checks {one plain : Nat → Decoder (PyValue × Nat)} {bad : Nat → Prop}
    (each : ∀ cursor, Checks (decode mem (one cursor)) (decode mem (plain cursor)) (bad cursor))
    (count : Nat) (group : List PyValue) (cursor : Nat) :
    Checks (decode mem (repeated one count group cursor))
      (decode mem (repeated plain count group cursor))
      (RepeatedOverruns mem plain bad count cursor) := by
  induction count generalizing group cursor with
  | zero => exact checks_refl _
  | succ count ih =>
      apply checks_then (each cursor)
      rintro ⟨v, next⟩ _
      exact ih (group ++ [v]) next

variable [Target]

/-- Decoding a schema with numbers in place of words comes to a sum the machine does not have. -/
def EntriesOverrun (w : Nat) (mem : Nat → UInt8) (len : Nat) : List PyValue → Nat → Prop
  | [], _ => False
  | item :: rest, cursor =>
      ∃ entry one, schemaEntry w item = .ok entry ∧ Mixed.repetition len entry.1 = some one ∧
        (RepeatedOverruns mem one (Overruns w mem len entry.1) entry.2 cursor ∨
          ∃ read, decode mem (repeated one entry.2 [] cursor) = .ok read ∧
            ∃ v, entryValue entry.2 read.1 = .ok v ∧ EntriesOverrun w mem len rest read.2)

theorem entries_checks (schema result : List PyValue) (cursor : Nat) :
    Checks (decode mem (unpackEntries w (repetition w len) schema result cursor))
      (decode mem (unpackEntries w (Mixed.repetition len) schema result cursor))
      (EntriesOverrun w mem len schema cursor) := by
  induction schema generalizing result cursor with
  | nil => exact checks_refl _
  | cons item rest ih =>
      rw [unpackEntries, unpackEntries]
      cases entry : schemaEntry w item with
      | error e => exact (checks_refl _).congr (by simp [EntriesOverrun, entry])
      | ok pair =>
          obtain ⟨tag, count⟩ := pair
          apply checks_read (decode_lift _)
          rcases repetition_checks w len mem tag with
            ⟨checked, known⟩ | ⟨one, plain, checked, known, each⟩
          · simp only [checked, known]
            exact (checks_refl _).congr (by simp [EntriesOverrun, entry, known])
          · simp only [checked, known]
            have value : ∀ read : List PyValue × Nat, Checks
                (decode mem (do
                  let v ← entryValue count read.1
                  unpackEntries w (repetition w len) rest (result ++ [v]) read.2))
                (decode mem (do
                  let v ← entryValue count read.1
                  unpackEntries w (Mixed.repetition len) rest (result ++ [v]) read.2))
                (∃ v, entryValue count read.1 = .ok v ∧ EntriesOverrun w mem len rest read.2) := by
              intro read
              have both := checks_then (checks_refl (decode mem (liftM (entryValue count read.1))))
                fun v _ => ih (result ++ [v]) read.2
              exact both.congr (by simp)
            have both := checks_then (repeated_checks each count [] cursor) fun read _ => value read
            apply both.congr
            constructor
            · exact fun wrong => ⟨(tag, count), plain, entry, known, wrong⟩
            · rintro ⟨_, _, same, there, wrong⟩
              cases entry.symm.trans same
              cases known.symm.trans there
              exact wrong

end Loops

section Answers
variable [Target] {w len : Nat} {mem : Nat → UInt8}

omit [Target] in
theorem schemaEntry_calm (item : PyValue) : Calm (schemaEntry w item) := by
  apply calm_bind (Decoding.schemaEntry_calm item)
  rintro ⟨tag, count⟩
  dsimp only
  split
  · exact calm_ok _
  · exact nofun

theorem entries_calm (schema result : List PyValue) (cursor : Nat) :
    Calm (decode mem (unpackEntries w (Mixed.repetition len) schema result cursor)) := by
  induction schema generalizing result cursor with
  | nil => exact calm_ok _
  | cons item rest ih =>
      simp only [unpackEntries, decode_bind, decode_lift]
      apply calm_bind (schemaEntry_calm item)
      rintro ⟨tag, count⟩
      dsimp only
      split
      · exact calm_invalid _
      · next one known =>
          rw [decode_bind]
          apply calm_bind (repeated_calm (repetition_calm known) count [] cursor)
          rintro ⟨group, cursor⟩
          rw [decode_bind, decode_lift]
          exact calm_bind (entryValue_calm count group) fun v => ih (result ++ [v]) cursor

theorem unpackOne_other {tag : String} (other : tag ≠ "str") :
    unpackOne w len tag = Mixed.unpackOne len tag := by
  unfold unpackOne
  split
  · exact absurd rfl other
  · rfl

/-- `unpack_one` ends in a panic for strings only. -/
theorem unpackOne_calm_iff (tag : String) :
    Calm (decode mem (unpackOne w len tag)) ↔ ¬ (tag = "str" ∧ StrOverruns w mem len) := by
  by_cases isStr : tag = "str"
  · subst isStr
    rw [str_checks.calm_iff (unpackOne_calm _)]
    simp
  · rw [unpackOne_other isStr]
    exact ⟨fun _ wrong => isStr wrong.1, fun _ => unpackOne_calm tag⟩

theorem unpackMixedCounted_calm_iff (schema : List PyValue) :
    Calm (decode mem (unpackMixedCounted w len schema)) ↔ ¬ EntriesOverrun w mem len schema 0 :=
  (entries_checks schema [] 0).calm_iff (entries_calm schema [] 0)

end Answers

section Wide
variable [Target] {len : Nat} {mem : Nat → UInt8}

theorem number_lt (mem : Nat → UInt8) (start : Nat) :
    fromNeBytes (Reader.span mem start 4) < 2 ^ 32 := by
  have small := fromNeBytes_lt (Reader.span mem start 4)
  rw [Reader.span_length] at small
  exact Nat.lt_of_lt_of_eq small (by decide)

theorem str_fits : ¬ StrOverruns 64 mem len := by
  rintro ⟨_, wide⟩
  have small := number_lt mem 0
  omega

theorem fixedTag_narrow {tag : String} {arm : Nat × (Nat → PyValue)}
    (known : fixedTag tag = some arm) :
    arm.1 ≤ 8 := by
  unfold fixedTag at known
  split at known
  case h_11 => cases known
  all_goals
    cases known
    dsimp only
    decide

theorem repetition_fits (short : len < 2 ^ 32) (tag : String)
    {cursor : Nat} (inside : cursor ≤ len) :
    ¬ Overruns 64 mem len tag cursor := by
  unfold Overruns StrAtOverruns
  have small := number_lt mem cursor
  split
  · next size make known =>
      have narrow : size ≤ 8 := fixedTag_narrow known
      omega
  · omega

omit [Target] in
theorem repeated_fits {one : Nat → Decoder (PyValue × Nat)} {bad : Nat → Prop}
    (each : ∀ cursor, cursor ≤ len → ¬ bad cursor)
    (reads : ∀ cursor, Reads len (one cursor) fun read => read.2 ≤ len) (count : Nat) {cursor : Nat}
    (inside : cursor ≤ len) : ¬ RepeatedOverruns mem one bad count cursor := by
  induction count generalizing cursor with
  | zero => exact id
  | succ count ih =>
      rintro (wrong | ⟨read, decoded, later⟩)
      · exact each cursor inside wrong
      · have further := reads_ok (reads cursor) decoded
        exact ih further later

/-- On 64 bits no decoder comes to such a sum: a prefix and a cursor both have 32. -/
theorem entries_fit (short : len < 2 ^ 32) (schema : List PyValue)
    {cursor : Nat} (inside : cursor ≤ len) :
    ¬ EntriesOverrun 64 mem len schema cursor := by
  induction schema generalizing cursor with
  | nil => exact id
  | cons item rest ih =>
      rintro ⟨entry, one, _, known, wrong | ⟨read, decoded, v, _, later⟩⟩
      · have each : ∀ cursor, cursor ≤ len → ¬ Overruns 64 mem len entry.1 cursor :=
          fun cursor inside => repetition_fits short entry.1 inside
        exact repeated_fits each (repetition_reads known) entry.2 inside wrong
      · have further := reads_ok (repeated_reads (repetition_reads known) entry.2 [] inside) decoded
        exact ih further later

omit [Target] in
theorem extractUsize_lt {v : PyValue} {n : Nat} (extracted : v.extractUsize = .ok n) :
    n < 2 ^ 64 := by
  cases v with
  | int i =>
      simp only [PyValue.extractUsize] at extracted
      split at extracted
      · cases extracted
        omega
      · cases extracted
  | bool b =>
      cases extracted
      cases b <;> decide
  | other typeName index =>
      cases index with
      | none => cases extracted
      | some i =>
          simp only [PyValue.extractUsize] at extracted
          split at extracted
          · cases extracted
            omega
          · cases extracted
  | _ => cases extracted

omit [Target] in
/-- The count of an entry is the `usize` its second field holds. -/
theorem schemaEntry_count {item : PyValue} {entry : String × Nat}
    (done : Mixed.schemaEntry item = .ok entry) : ∃ v : PyValue, v.extractUsize = .ok entry.2 := by
  cases item with
  | tuple fields =>
      obtain ⟨first, _, done⟩ := bind_ok done
      obtain ⟨tag, _, done⟩ := bind_ok done
      obtain ⟨second, _, done⟩ := bind_ok done
      obtain ⟨count, extracted, done⟩ := bind_ok done
      cases done
      exact ⟨second, extracted⟩
  | _ => cases done

omit [Target] in
theorem schemaEntry_plain (item : PyValue) : schemaEntry 64 item = Mixed.schemaEntry item := by
  rw [schemaEntry]
  cases entry : Mixed.schemaEntry item with
  | error e => rfl
  | ok pair =>
      obtain ⟨v, extracted⟩ := schemaEntry_count entry
      exact if_pos (extractUsize_lt extracted)

/-- There the decoders are the plain ones. -/
theorem unpackOne_plain (tag : String) :
    decode mem (unpackOne 64 len tag) = decode mem (Mixed.unpackOne len tag) := by
  by_cases isStr : tag = "str"
  · subst isStr
    exact str_checks.same str_fits
  · rw [unpackOne_other isStr]

theorem entries_plain (schema result : List PyValue) (cursor : Nat) :
    unpackEntries 64 (Mixed.repetition len) schema result cursor =
      Mixed.unpackEntries len schema result cursor := by
  induction schema generalizing result cursor with
  | nil => rfl
  | cons item rest ih =>
      rw [unpackEntries, Mixed.unpackEntries, schemaEntry_plain]
      congr 1
      funext entry
      obtain ⟨tag, count⟩ := entry
      dsimp only
      cases Mixed.repetition len tag with
      | none => rfl
      | some one =>
          exact congrArg (repeated one count [] cursor >>= ·)
            (funext fun read => congrArg (liftM (entryValue count read.1) >>= ·)
              (funext fun v => ih (result ++ [v]) read.2))

theorem unpackMixedCounted_plain (short : len < 2 ^ 32) (schema : List PyValue) :
    decode mem (unpackMixedCounted 64 len schema) =
      decode mem (Mixed.unpackMixedCounted len schema) := by
  have same : decode mem (unpackEntries 64 (repetition 64 len) schema [] 0) =
      decode mem (unpackEntries 64 (Mixed.repetition len) schema [] 0) :=
    (entries_checks schema [] 0).same (entries_fit short schema (Nat.zero_le len))
  rw [entries_plain] at same
  exact same

end Wide
end Membridge.WordDecoders
