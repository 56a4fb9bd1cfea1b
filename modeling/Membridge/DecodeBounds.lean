import Membridge.Decoding

/-!
Where decoders look and how far they get, whatever the bytes are: never past the
length they were given. The length tests of `unpack_one` and the running cursor
of `unpack_mixed_counted` are what makes it so.
-/
namespace Membridge.DecodeBounds
open Python ByteOrder ByteReader Mixed Decoding

variable {α β : Type} {len : Nat}

/-- Every load is at an index below `len`, and a value decoded meets `post`. -/
def Reads (len : Nat) (decoder : Decoder α) (post : α → Prop) : Prop :=
  Reader.Within len decoder.run fun result => ∀ value, result = .ok value → post value

section Rules
variable {post : α → Prop} {later : β → Prop}

theorem reads_ok {decoder : Decoder α} {mem : Nat → UInt8} {value : α}
    (reads : Reads len decoder post) (decoded : decode mem decoder = .ok value) : post value :=
  Reader.within_run reads mem value decoded

theorem reads_mono {weaker : α → Prop} {decoder : Decoder α}
    (weaken : ∀ value, post value → weaker value)
    (reads : Reads len decoder post) : Reads len decoder weaker :=
  Reader.within_mono (fun _ holds value same => weaken value (holds value same)) reads

theorem reads_pure {value : α} (holds : post value) : Reads len (pure value) post := by
  intro v same
  cases same
  exact holds

theorem reads_throw (e : PyErr) : Reads len (throw e : Decoder α) post := by
  intro v same
  cases same

theorem reads_bind {decoder : Decoder α} {f : α → Decoder β} (first : Reads len decoder post)
    (then_f : ∀ value, post value → Reads len (f value) later) :
    Reads len (decoder >>= f) later := by
  change Reader.Within len (decoder.run.bind _) _
  rw [Reader.within_bind]
  apply Reader.within_mono ?_ first
  intro result holds
  cases result with
  | ok value => exact then_f value (holds value rfl)
  | error e =>
      intro v same
      cases same

theorem reads_except {q : α → Prop} {result : PyResult α}
    (holds : ∀ value, result = .ok value → q value) : Reads len (liftM result) q := by
  cases result with
  | ok value => exact reads_pure (holds value rfl)
  | error e => exact reads_throw e

theorem reads_rawSlice {start width : Nat} (fits : start + width ≤ len) :
    Reads len (rawSlice start width) fun _ => True := by
  change Reader.Within len ((Reader.slice start width).bind _) _
  rw [Reader.within_bind]
  exact Reader.within_mono (fun _ _ _ _ => trivial) (Reader.within_slice fits)

variable [Target]

theorem reads_number {start width : Nat} (fits : start + width ≤ len) :
    Reads len (number start width) fun _ => True := by
  change Reader.Within len ((Reader.slice start width).bind _) _
  rw [Reader.within_bind]
  exact Reader.within_mono (fun _ _ _ _ => trivial) (Reader.within_slice fits)

end Rules

theorem checkBounds_ok {cursor needed total : Nat}
    (passed : checkBounds cursor needed total = .ok ()) : cursor + needed ≤ total := by
  unfold checkBounds at passed
  split at passed
  · cases passed
  · omega

variable [Target]

section One

theorem readFixed_reads (tag : String) {size : Nat} (make : Nat → PyValue) (positive : 0 < size) :
    Reads len (readFixed len tag size make) fun result => 0 < result.2 ∧ result.2 ≤ len := by
  unfold readFixed
  split
  · exact reads_throw _
  · apply reads_bind (reads_number (by omega))
    intro raw _
    exact reads_pure ⟨positive, by omega⟩

theorem unpackOne_reads (tag : String) :
    Reads len (unpackOne len tag) fun result => 0 < result.2 ∧ result.2 ≤ len := by
  cases unpackOne_arm tag with
  | bool =>
      simp only [unpackOne]
      split
      · exact reads_throw _
      · apply reads_bind (reads_number (by omega))
        intro raw _
        exact reads_pure ⟨Nat.one_pos, by omega⟩
  | str =>
      simp only [unpackOne]
      split
      · exact reads_throw _
      · apply reads_bind (reads_number (by omega))
        intro size _
        split
        · exact reads_throw _
        · apply reads_bind (reads_rawSlice (by omega))
          intro raw _
          exact reads_pure ⟨by omega, by omega⟩
  | fixed size make some value reads =>
      rw [reads]
      exact readFixed_reads _ _ some
  | unknown message throws =>
      rw [throws]
      exact reads_throw _

end One
section Mixed

theorem fixedAt_reads (size : Nat) (make : Nat → PyValue) (cursor : Nat) :
    Reads len (fixedAt len size make cursor) fun result => result.2 ≤ len := by
  apply reads_bind (reads_except (q := fun _ => cursor + size ≤ len) fun _ passed =>
    checkBounds_ok passed)
  intro _ fits
  apply reads_bind (reads_number fits)
  intro raw _
  exact reads_pure fits

theorem strAt_reads (cursor : Nat) :
    Reads len (strAt len cursor) fun result => result.2 ≤ len := by
  apply reads_bind (reads_except (q := fun _ => cursor + 4 ≤ len) fun _ passed =>
    checkBounds_ok passed)
  intro _ fits
  apply reads_bind (reads_number fits)
  intro size _
  apply reads_bind (reads_except (q := fun _ => cursor + 4 + size ≤ len) fun _ passed =>
    checkBounds_ok passed)
  intro _ whole
  apply reads_bind (reads_rawSlice whole)
  intro raw _
  exact reads_pure whole

omit [Target] in
theorem repeated_reads {one : Nat → Decoder (PyValue × Nat)}
    (each : ∀ cursor, Reads len (one cursor) fun result => result.2 ≤ len) (count : Nat)
    (group : List PyValue) {cursor : Nat} (inside : cursor ≤ len) :
    Reads len (repeated one count group cursor) fun result => result.2 ≤ len := by
  induction count generalizing group cursor with
  | zero => exact reads_pure inside
  | succ count ih =>
      apply reads_bind (each cursor)
      rintro ⟨v, next⟩ inside
      exact ih (group ++ [v]) inside

theorem repetition_reads {tag : String} {one : Nat → Decoder (PyValue × Nat)}
    (known : repetition len tag = some one) (cursor : Nat) :
    Reads len (one cursor) fun result => result.2 ≤ len := by
  rcases repetition_arm known with ⟨size, make, rfl⟩ | rfl
  · exact fixedAt_reads size make cursor
  · exact strAt_reads cursor

theorem unpackEntries_reads (schema result : List PyValue) {cursor : Nat} (inside : cursor ≤ len) :
    Reads len (unpackEntries len schema result cursor) fun result => result.2 ≤ len := by
  induction schema generalizing result cursor with
  | nil => exact reads_pure inside
  | cons item rest ih =>
      unfold unpackEntries
      apply reads_bind (reads_except (q := fun _ => True) fun _ _ => trivial)
      rintro ⟨tag, count⟩ _
      dsimp only
      split
      · exact reads_throw _
      · next one known =>
          apply reads_bind (repeated_reads (repetition_reads known) count [] inside)
          rintro ⟨group, next⟩ inside
          apply reads_bind (reads_except (q := fun _ => True) fun _ _ => trivial)
          intro v _
          exact ih (result ++ [v]) inside

theorem unpackMixedCounted_reads (schema : List PyValue) :
    Reads len (unpackMixedCounted len schema) fun result => result.2 ≤ len :=
  unpackEntries_reads schema [] (Nat.zero_le len)

end Mixed
end Membridge.DecodeBounds
