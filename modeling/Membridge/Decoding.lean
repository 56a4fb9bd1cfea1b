import Membridge.Mixed

/-!
What a decoder computes from the bytes it reads, as equations: a decoder run on
`mem` is an ordinary fallible function of `mem`.
-/
namespace Membridge.Decoding
open Python ByteOrder ByteReader Mixed

variable [Target] {α β : Type} {mem : Nat → UInt8} {len : Nat}

def decode (mem : Nat → UInt8) (decoder : Decoder α) : PyResult α := Reader.run mem decoder.run

omit [Target] in
@[simp] theorem decode_pure (value : α) : decode mem (pure value : Decoder α) = .ok value := rfl

omit [Target] in
@[simp] theorem decode_throw (e : PyErr) : decode mem (throw e : Decoder α) = .error e := rfl

omit [Target] in
@[simp] theorem decode_bind (p : Decoder α) (f : α → Decoder β) :
    decode mem (p >>= f) = (decode mem p).bind fun value => decode mem (f value) := by
  have split : decode mem (p >>= f) =
      Reader.run mem (match Reader.run mem p.run with
        | .ok value => (f value).run
        | .error e => .done (.error e)) := by
    change Reader.run mem (Reader.bind p.run _) = _
    rw [Reader.run_bind]
    congr 1
    cases Reader.run mem p.run <;> rfl
  rw [split]
  unfold decode
  cases Reader.run mem p.run <;> rfl

omit [Target] in
@[simp] theorem decode_ok (value : α) :
    decode mem (liftM (Except.ok value : PyResult α) : Decoder α) = .ok value := rfl

omit [Target] in
@[simp] theorem decode_error (e : PyErr) :
    decode mem (liftM (Except.error e : PyResult α) : Decoder α) = .error e := rfl

@[simp] theorem decode_number (start width : Nat) :
    decode mem (number start width) = .ok (fromNeBytes (Reader.span mem start width)) := by
  simp [decode, number, ExceptT.run, ExceptT.mk]

omit [Target] in
@[simp] theorem decode_rawSlice (start width : Nat) :
    decode mem (rawSlice start width) = .ok (Reader.span mem start width) := by
  simp [decode, rawSlice, ExceptT.run, ExceptT.mk]

/-- A fixed-width arm: too short, or the value of the first `size` bytes. -/
theorem decode_readFixed (tag : String) (size : Nat) (make : Nat → PyValue) :
    decode mem (readFixed len tag size make) =
      if len < size then .error (tooShort len tag size)
      else .ok (make (fromNeBytes (Reader.span mem 0 size)), size) := by
  unfold readFixed
  split
  · rfl
  · simp [Except.bind]

theorem decode_bool :
    decode mem (unpackOne len "bool") =
      if len = 0 then .error (invalidArg "not enough data to read 'bool'")
      else .ok (.bool (fromNeBytes (Reader.span mem 0 1) != 0), 1) := by
  simp only [unpackOne]
  split
  · rfl
  · simp [Except.bind]

theorem decode_str :
    decode mem (unpackOne len "str") =
      if len < 4 then .error (invalidArg "not enough data to read str length prefix")
      else
        let size := fromNeBytes (Reader.span mem 0 4)
        if len < 4 + size then
          .error (invalidArg
            s!"not enough data to read str payload: need {4 + size}, have {len}")
        else .ok (ofLossy (Reader.span mem 4 size), 4 + size) := by
  simp only [unpackOne]
  split
  · rfl
  · simp only [decode_bind, decode_number, Except.bind]
    split
    · rfl
    · simp [Except.bind]

/-- The arms of `unpack_one`: two tags of their own, the fixed-width tags, and all others. -/
inductive UnpackArm : String → Prop
  | bool : UnpackArm "bool"
  | str : UnpackArm "str"
  | fixed {tag : String} (size : Nat) (make : Nat → PyValue) (positive : 0 < size)
      (value : ∀ raw, make raw ≠ .none)
      (reads : ∀ len, unpackOne len tag = readFixed len tag size make) : UnpackArm tag
  | unknown {tag : String} (message : String)
      (throws : ∀ len, unpackOne len tag = throw (invalidArg message)) : UnpackArm tag

theorem unpackOne_arm (tag : String) : UnpackArm tag := by
  fun_cases unpackOne 0 tag
  case case1 => exact .bool
  case case2 => exact .bool
  case case12 => exact .str
  case case13 => exact .str
  case case14 =>
    refine .unknown
      s!"unknown type tag '{tag}'; supported: bool, int, float, f32, f64, i32, i64, u8, u32, u64, str"
      fun len => ?_
    unfold unpackOne
    split <;> first | rfl | contradiction
  all_goals
    refine .fixed _ _ ?_ ?_ fun _ => rfl
    · decide
    · exact fun _ => nofun

/-- A known tag repeats a fixed-width value or a string. -/
theorem repetition_arm {tag : String} {one : Nat → Decoder (PyValue × Nat)}
    (known : repetition len tag = some one) :
    (∃ size make, one = fixedAt len size make) ∨ one = strAt len := by
  unfold repetition at known
  split at known
  case h_11 =>
    cases known
    exact .inr rfl
  case h_12 => cases known
  all_goals
    cases known
    exact .inl ⟨_, _, rfl⟩

/-- No tag decodes to Python's `None`. -/
theorem decode_unpackOne_some {tag : String} {v : PyValue} {size : Nat}
    (decoded : decode mem (unpackOne len tag) = .ok (v, size)) : v ≠ .none := by
  cases unpackOne_arm tag with
  | bool =>
      rw [decode_bool] at decoded
      split at decoded
      · cases decoded
      · cases decoded
        simp
  | str =>
      rw [decode_str] at decoded
      split at decoded
      · cases decoded
      · dsimp only at decoded
        split at decoded
        · cases decoded
        · cases decoded
          simp [ofLossy]
  | fixed size make some value reads =>
      rw [reads, decode_readFixed] at decoded
      split at decoded
      · cases decoded
      · cases decoded
        exact value _
  | unknown message throws =>
      rw [throws] at decoded
      cases decoded

section Calm

/-- A result that is no panic. -/
def Calm (result : PyResult α) : Prop := ∀ message, result ≠ .error (.panic message)

omit [Target] in
theorem calm_ok (value : α) : Calm (.ok value) := nofun

omit [Target] in
theorem calm_invalid (message : String) : Calm (.error (invalidArg message) : PyResult α) := nofun

omit [Target] in
theorem calm_bind {result : PyResult α} {f : α → PyResult β} (first : Calm result)
    (later : ∀ value, Calm (f value)) : Calm (result.bind f) := by
  cases result with
  | ok value => exact later value
  | error e => exact fun message same => first message (by simpa [Except.bind] using same)

omit [Target] in
theorem calm_map {result : PyResult α} {f : α → β} (first : Calm result) :
    Calm (result.map f) := by
  cases result with
  | ok value => exact calm_ok _
  | error e => exact fun message same => first message (by simpa [Except.map] using same)

omit [Target] in
theorem toChars_calm (points : List CodePoint) : Calm (toChars points) := by
  induction points with
  | nil => exact calm_ok _
  | cons point rest ih =>
      cases point with
      | scalar c => exact calm_map ih
      | surrogate index => exact nofun

omit [Target] in
theorem extractString_calm (v : PyValue) : Calm v.extractString := by
  cases v with
  | str points => exact calm_map (toChars_calm points)
  | _ => exact nofun

omit [Target] in
theorem extractUsize_calm (v : PyValue) : Calm v.extractUsize := by
  unfold PyValue.extractUsize
  split
  · split <;> exact nofun
  · exact calm_ok _
  · split <;> exact nofun
  · exact nofun

omit [Target] in
theorem checkBounds_calm (cursor needed total : Nat) : Calm (checkBounds cursor needed total) := by
  unfold checkBounds
  split
  · exact calm_invalid _
  · exact calm_ok _

omit [Target] in
theorem schemaEntry_calm (item : PyValue) : Calm (schemaEntry item) := by
  have field : ∀ fields : List PyValue, ∀ i : Nat,
      Calm (fields[i]?.elim (.error .index) .ok : PyResult PyValue) := by
    intro fields i
    cases fields[i]? <;> exact nofun
  cases item with
  | tuple fields =>
      apply calm_bind (field fields 0)
      intro first
      apply calm_bind (extractString_calm first)
      intro tag
      apply calm_bind (field fields 1)
      intro second
      apply calm_bind (extractUsize_calm second)
      exact fun count => calm_ok _
  | _ => exact calm_invalid _

omit [Target] in
theorem entryValue_calm (count : Nat) (group : List PyValue) : Calm (entryValue count group) := by
  unfold entryValue
  split
  · cases group[0]? <;> exact nofun
  · exact calm_ok _

theorem packValue_calm (v : PyValue) (out : List UInt8) : Calm (packValue v out) := by
  cases v with
  | int i =>
      have extracted : Calm (PyValue.extractI64 i) := by
        unfold PyValue.extractI64
        split <;> exact nofun
      exact calm_bind extracted fun _ => calm_ok _
  | str points => exact calm_bind (toChars_calm points) fun _ => calm_ok _
  | bool b => exact calm_ok _
  | float bits => exact calm_ok _
  | bytes content => exact calm_ok _
  | bytearray content => exact calm_ok _
  | _ => exact calm_invalid _

theorem packEach_calm (items : List PyValue) (out : List UInt8) : Calm (packEach items out) := by
  induction items generalizing out with
  | nil => exact calm_ok _
  | cons item rest ih => exact calm_bind (packValue_calm item out) ih

theorem readFixed_calm (tag : String) (size : Nat) (make : Nat → PyValue) :
    Calm (decode mem (readFixed len tag size make)) := by
  rw [decode_readFixed]
  split
  · exact calm_invalid _
  · exact calm_ok _

theorem unpackOne_calm (tag : String) : Calm (decode mem (unpackOne len tag)) := by
  cases unpackOne_arm tag with
  | bool =>
      rw [decode_bool]
      split
      · exact calm_invalid _
      · exact calm_ok _
  | str =>
      rw [decode_str]
      split
      · exact calm_invalid _
      · dsimp only
        split
        · exact calm_invalid _
        · exact calm_ok _
  | fixed size make some value reads =>
      rw [reads]
      exact readFixed_calm _ _ _
  | unknown message throws =>
      rw [throws]
      exact calm_invalid _

theorem fixedAt_calm (size : Nat) (make : Nat → PyValue) (cursor : Nat) :
    Calm (decode mem (fixedAt len size make cursor)) := by
  simp only [fixedAt, decode_bind]
  apply calm_bind (checkBounds_calm _ _ _)
  intro _
  rw [decode_number]
  exact calm_ok _

theorem strAt_calm (cursor : Nat) : Calm (decode mem (strAt len cursor)) := by
  simp only [strAt, decode_bind]
  apply calm_bind (checkBounds_calm _ _ _)
  intro _
  rw [decode_number]
  apply calm_bind (checkBounds_calm _ _ _)
  intro _
  rw [decode_rawSlice]
  exact calm_ok _

theorem repetition_calm {tag : String} {one : Nat → Decoder (PyValue × Nat)}
    (known : repetition len tag = some one) (cursor : Nat) : Calm (decode mem (one cursor)) := by
  rcases repetition_arm known with ⟨size, make, rfl⟩ | rfl
  · exact fixedAt_calm size make cursor
  · exact strAt_calm cursor

omit [Target] in
theorem repeated_calm {one : Nat → Decoder (PyValue × Nat)}
    (each : ∀ cursor, Calm (decode mem (one cursor))) (count : Nat) (group : List PyValue)
    (cursor : Nat) : Calm (decode mem (repeated one count group cursor)) := by
  induction count generalizing group cursor with
  | zero => exact calm_ok _
  | succ count ih =>
      simp only [repeated, decode_bind]
      exact calm_bind (each cursor) fun value => ih (group ++ [value.1]) value.2

theorem unpackEntries_calm (schema result : List PyValue) (cursor : Nat) :
    Calm (decode mem (unpackEntries len schema result cursor)) := by
  induction schema generalizing result cursor with
  | nil => exact calm_ok _
  | cons item rest ih =>
      simp only [unpackEntries, decode_bind]
      apply calm_bind (schemaEntry_calm item)
      rintro ⟨tag, count⟩
      dsimp only
      split
      · exact calm_invalid _
      · next one known =>
          rw [decode_bind]
          apply calm_bind (repeated_calm (repetition_calm known) count [] cursor)
          rintro ⟨group, cursor⟩
          rw [decode_bind]
          exact calm_bind (entryValue_calm count group) fun v => ih (result ++ [v]) cursor

end Calm
end Membridge.Decoding
