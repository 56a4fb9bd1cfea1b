import Membridge.CheckedDecoders
import Membridge.DecoderAgreement

/-!
The decoders on untrusted bytes. Lengths and counts come out of shared memory and
from the caller; neither leads a decoder outside its slice, and a count that the
slice cannot hold ends in an error soon.
-/
namespace Membridge.DecoderSafety
open Python ByteOrder ByteReader Mixed Decoding DecodeBounds Membridge.Stream Arithmetic
open DecoderAgreement

variable {α : Type} {mem other : Nat → UInt8} {len wide cursor : Nat} {tag : String}

/-- The same first `n` bytes. -/
def SameBelow (n : Nat) (mem other : Nat → UInt8) : Prop := ∀ i < n, mem i = other i

theorem sameBelow_mono {m n : Nat} (less : m ≤ n) (same : SameBelow n mem other) :
    SameBelow m mem other :=
  fun i below => same i (Nat.lt_of_lt_of_le below less)

theorem sameBelow_span {start width : Nat} (same : SameBelow (start + width) mem other) :
    Reader.span mem start width = Reader.span other start width :=
  Reader.span_congr fun i _ below => same i below

theorem sameBelow_front {width : Nat} (same : SameBelow width mem other) :
    Reader.span mem 0 width = Reader.span other 0 width :=
  Reader.span_congr fun i _ below => same i (by omega)

theorem sameBelow_remaining {n : Nat} (same : SameBelow (cursor + n) mem other) :
    SameBelow n (remaining mem cursor) (remaining other cursor) :=
  fun i below => same (cursor + i) (Nat.add_lt_add_left below cursor)

variable [Target]

section Prefix
variable {v : PyValue} {n : Nat}

theorem readFixed_prefix {size : Nat} {make : Nat → PyValue}
    (decoded : decode mem (readFixed len tag size make) = .ok (v, n)) (room : n ≤ wide)
    (same : SameBelow n mem other) : decode other (readFixed wide tag size make) = .ok (v, n) := by
  rw [decode_readFixed] at decoded ⊢
  split at decoded
  · cases decoded
  · cases decoded
    rw [if_neg (Nat.not_lt.mpr room), sameBelow_front same]

theorem unpackOne_prefix (decoded : decode mem (unpackOne len tag) = .ok (v, n)) (room : n ≤ wide)
    (same : SameBelow n mem other) : decode other (unpackOne wide tag) = .ok (v, n) := by
  cases unpackOne_arm tag with
  | bool =>
      rw [decode_bool] at decoded ⊢
      split at decoded
      · cases decoded
      · cases decoded
        rw [if_neg (by omega), sameBelow_front same]
  | str =>
      rw [decode_str] at decoded ⊢
      split at decoded
      · cases decoded
      · dsimp only at decoded
        split at decoded
        · cases decoded
        · cases decoded
          -- the prefix is among the bytes consumed, so both slices announce one length
          have prefixed : Reader.span mem 0 4 = Reader.span other 0 4 :=
            sameBelow_front (sameBelow_mono (by omega) same)
          rw [if_neg (by omega), ← prefixed, if_neg (by omega), sameBelow_span same]
  | fixed size make some value reads =>
      rw [reads] at decoded ⊢
      exact readFixed_prefix decoded room same
  | unknown message throws =>
      rw [throws] at decoded
      cases decoded

theorem oneByOne_prefix {count : Nat} {values : List (PyValue × Nat)}
    (decoded : oneByOne mem len tag count cursor = .ok values) (room : cursor + taken values ≤ wide)
    (same : SameBelow (cursor + taken values) mem other) :
    oneByOne other wide tag count cursor = .ok values := by
  induction count generalizing cursor values with
  | zero =>
      cases decoded
      rfl
  | succ count ih =>
      obtain ⟨v, n, more, one, tail, rfl⟩ := oneByOne_succ.mp decoded
      have total : taken ((v, n) :: more) = n + taken more := by simp [taken]
      rw [total, ← Nat.add_assoc] at room same
      have first : decode (remaining other cursor) (unpackOne (wide - cursor) tag) = .ok (v, n) :=
        unpackOne_prefix one (by omega)
          (sameBelow_remaining (sameBelow_mono (Nat.le_add_right _ _) same))
      exact oneByOne_succ.mpr ⟨v, n, more, first, ih tail room same, rfl⟩

theorem leftToRight_prefix {pairs : List (String × Nat)} {groups : List (List (PyValue × Nat))}
    (decoded : leftToRight mem len pairs cursor = .ok groups)
    (room : cursor + (groups.map taken).sum ≤ wide)
    (same : SameBelow (cursor + (groups.map taken).sum) mem other) :
    leftToRight other wide pairs cursor = .ok groups := by
  induction pairs generalizing cursor groups with
  | nil =>
      cases decoded
      rfl
  | cons pair pairs ih =>
      obtain ⟨tag, count⟩ := pair
      obtain ⟨known, group, more, first, later, rfl⟩ := leftToRight_cons.mp decoded
      rw [List.map_cons, List.sum_cons, ← Nat.add_assoc] at room same
      have group_same : oneByOne other wide tag count cursor = .ok group :=
        oneByOne_prefix first (by omega) (sameBelow_mono (Nat.le_add_right _ _) same)
      exact leftToRight_cons.mpr ⟨known, group, more, group_same, ih later room same, rfl⟩

/-- A schema that decodes is well formed. -/
theorem entries_read {schema before : List PyValue} {result : List PyValue}
    (decoded : decode mem (unpackEntries len schema before cursor) = .ok (result, n)) :
    ∃ pairs, List.Forall₂ (fun item pair => schemaEntry item = .ok pair) schema pairs := by
  induction schema generalizing before cursor with
  | nil => exact ⟨[], .nil⟩
  | cons item schema ih =>
      rw [unpackEntries, decode_bind] at decoded
      cases entry : schemaEntry item with
      | error e =>
          rw [entry] at decoded
          cases decoded
      | ok pair =>
          obtain ⟨tag, count⟩ := pair
          simp only [entry, decode_ok, Except.bind] at decoded
          cases table : repetition len tag with
          | none =>
              rw [table] at decoded
              cases decoded
          | some one =>
              simp only [table, decode_bind] at decoded
              cases group : decode mem (repeated one count [] cursor) with
              | error e =>
                  rw [group] at decoded
                  cases decoded
              | ok both =>
                  simp only [group, Except.bind] at decoded
                  cases value : entryValue count both.1 with
                  | error e =>
                      rw [value] at decoded
                      cases decoded
                  | ok v =>
                      simp only [value, decode_ok] at decoded
                      obtain ⟨pairs, rest⟩ := ih decoded
                      exact ⟨(tag, count) :: pairs, .cons entry rest⟩

theorem unpackMixedCounted_prefix {schema result : List PyValue}
    (decoded : decode mem (unpackMixedCounted len schema) = .ok (result, n)) (room : n ≤ wide)
    (same : SameBelow n mem other) :
    decode other (unpackMixedCounted wide schema) = .ok (result, n) := by
  obtain ⟨pairs, entries⟩ := entries_read decoded
  obtain ⟨groups, all, shown, total⟩ := (entries_agree entries [] (Nat.zero_le len)).mp decoded
  subst total
  exact (entries_agree entries [] (Nat.zero_le wide)).mpr
    ⟨groups, leftToRight_prefix all room same, shown, rfl⟩

end Prefix

section Rounds
variable {one : Nat → Decoder (PyValue × Nat)}

/-- A repetition takes at least a byte, and none past the end. -/
def Advances (mem : Nat → UInt8) (len : Nat) (one : Nat → Decoder (PyValue × Nat)) : Prop :=
  ∀ cursor v next, cursor ≤ len → decode mem (one cursor) = .ok (v, next) →
    cursor < next ∧ next ≤ len

theorem repetition_advances (known : repetition len tag = some one) : Advances mem len one := by
  intro cursor v next inside decoded
  obtain ⟨n, rfl, single⟩ := (repetition_agrees known mem cursor v next inside).mp decoded
  obtain ⟨positive, within⟩ := reads_ok (unpackOne_reads tag) single
  dsimp only at positive within
  omega

omit [Target] in
theorem repeated_short (advances : Advances mem len one) {count : Nat} (group : List PyValue)
    (inside : cursor ≤ len) (short : len - cursor < count) :
    ∃ e, decode mem (repeated one count group cursor) = .error e := by
  induction count generalizing group cursor with
  | zero => omega
  | succ count ih =>
      rw [repeated, decode_bind]
      cases decoded : decode mem (one cursor) with
      | error e => exact ⟨e, rfl⟩
      | ok result =>
          obtain ⟨v, next⟩ := result
          obtain ⟨further, within⟩ := advances cursor v next inside decoded
          exact ih (group ++ [v]) within (by omega)

/-- A schema is decoded up to an entry, then from there. -/
theorem unpackEntries_append (before rest result : List PyValue) :
    decode mem (unpackEntries len (before ++ rest) result cursor) =
      (decode mem (unpackEntries len before result cursor)).bind fun found =>
        decode mem (unpackEntries len rest found.1 found.2) := by
  induction before generalizing result cursor with
  | nil => rfl
  | cons item before ih =>
      rw [List.cons_append, unpackEntries, unpackEntries, decode_bind, decode_bind]
      cases schemaEntry item with
      | error e => rfl
      | ok pair =>
          obtain ⟨tag, count⟩ := pair
          simp only [decode_ok, Except.bind]
          cases repetition len tag with
          | none => rfl
          | some one =>
              simp only [decode_bind]
              cases decode mem (repeated one count [] cursor) with
              | error e => rfl
              | ok both =>
                  simp only [Except.bind]
                  cases entryValue count both.1 with
                  | error e => rfl
                  | ok v => exact ih (result ++ [v])

/-- The rounds of `for _ in 0..count`: all of them, or up to the one that fails. -/
def rounds (mem : Nat → UInt8) (one : Nat → Decoder (PyValue × Nat)) : Nat → Nat → Nat
  | 0, _ => 0
  | count + 1, cursor =>
      match decode mem (one cursor) with
      | .ok (_, next) => rounds mem one count next + 1
      | .error _ => 1

omit [Target] in
/-- The loop with fewer rounds to make, if it leaves early, is the same. -/
theorem rounds_enough (count : Nat) (group : List PyValue) :
    decode mem (repeated one (rounds mem one count cursor) group cursor) =
      decode mem (repeated one count group cursor) := by
  induction count generalizing group cursor with
  | zero => rfl
  | succ count ih =>
      rw [rounds]
      cases decoded : decode mem (one cursor) with
      | error e => simp [repeated, decoded, Except.bind]
      | ok result => simp [repeated, decoded, Except.bind, ih]

omit [Target] in
theorem rounds_le (advances : Advances mem len one) (count : Nat) (inside : cursor ≤ len) :
    rounds mem one count cursor ≤ len - cursor + 1 := by
  induction count generalizing cursor with
  | zero => exact Nat.zero_le _
  | succ count ih =>
      rw [rounds]
      cases decoded : decode mem (one cursor) with
      | error e => exact Nat.le_add_left 1 _
      | ok result =>
          obtain ⟨v, next⟩ := result
          obtain ⟨further, within⟩ := advances cursor v next inside decoded
          have later := ih within
          dsimp only
          omega

end Rounds

section Safety

/-- A decoder over a slice of `len` bytes: it looks at no other byte, ends in no panic,
and its answer depends on no byte behind those it reports as consumed. -/
structure Safe (decoder : Nat → Decoder (α × Nat)) : Prop where
  inside : ∀ len, len < 2 ^ 63 → Reads len (decoder len) fun result => result.2 ≤ len
  calm : ∀ len mem, len < 2 ^ 63 → Calm (decode mem (decoder len))
  prefixed : ∀ len wide mem other value n, len < 2 ^ 63 → wide < 2 ^ 63 →
    decode mem (decoder len) = .ok (value, n) → n ≤ wide → SameBelow n mem other →
    decode other (decoder wide) = .ok (value, n)

theorem unpackOne_safe (build : Build) (tag : String) :
    Safe fun len => CheckedDecoders.unpackOne build len tag := by
  simp only [CheckedDecoders.unpackOne_same]
  constructor
  · intro len _
    exact reads_mono (fun _ bounds => bounds.2) (unpackOne_reads tag)
  · intro len mem _
    exact unpackOne_calm tag
  · intro len wide mem other v n _ _ decoded room same
    exact unpackOne_prefix decoded room same

theorem unpackMixedCounted_safe (build : Build) (schema : List PyValue) :
    Safe fun len => CheckedDecoders.unpackMixedCounted build len schema := by
  constructor
  · intro len usize
    rw [CheckedDecoders.unpackMixedCounted_same usize]
    exact unpackMixedCounted_reads schema
  · intro len mem usize
    rw [CheckedDecoders.unpackMixedCounted_same usize]
    exact unpackEntries_calm schema [] 0
  · intro len wide mem other result n usize usize' decoded room same
    rw [CheckedDecoders.unpackMixedCounted_same usize] at decoded
    rw [CheckedDecoders.unpackMixedCounted_same usize']
    exact unpackMixedCounted_prefix decoded room same

theorem checked_advances {build : Build} {one : Nat → Decoder (PyValue × Nat)}
    (usize : len < 2 ^ 63)
    (known : CheckedDecoders.repetition build len tag = some one) : Advances mem len one := by
  have tables := CheckedDecoders.repetition_same build usize tag
  rw [known] at tables
  cases table : repetition len tag with
  | none =>
      rw [table] at tables
      cases tables
  | some plain =>
      rw [table] at tables
      cases tables with
      | some same =>
          intro cursor v next inside decoded
          rw [same cursor inside] at decoded
          exact repetition_advances table cursor v next inside decoded

/-- Untrusted bytes, tags and counts do no harm: both decoders are safe, and a count that
cannot be served is an error after no more rounds than there are bytes left, and one. -/
theorem decoders_safe :
    (∀ build tag, Safe fun len => CheckedDecoders.unpackOne build len tag) ∧
    (∀ build schema, Safe fun len => CheckedDecoders.unpackMixedCounted build len schema) ∧
    (∀ build len mem before item rest tag count found cursor, len < 2 ^ 63 →
      decode mem (CheckedDecoders.unpackMixedCounted build len before) = .ok (found, cursor) →
      schemaEntry item = .ok (tag, count) → tag ∈ supportedTags → len - cursor < count →
      ∃ e, decode mem (CheckedDecoders.unpackMixedCounted build len (before ++ item :: rest)) =
        .error e) ∧
    ∀ build len mem tag one count group cursor, len < 2 ^ 63 →
      CheckedDecoders.repetition build len tag = some one → cursor ≤ len →
      rounds mem one count cursor ≤ len + 1 ∧
        decode mem (repeated one (rounds mem one count cursor) group cursor) =
          decode mem (repeated one count group cursor) := by
  refine ⟨unpackOne_safe, unpackMixedCounted_safe, ?_, ?_⟩
  · intro build len mem before item rest tag count found cursor usize decoded entry known short
    rw [CheckedDecoders.unpackMixedCounted_same usize] at decoded ⊢
    have inside := reads_ok (unpackMixedCounted_reads before) decoded
    dsimp only at inside
    obtain ⟨one, table⟩ : ∃ one, repetition len tag = some one := supported known
    have advances : Advances mem len one := repetition_advances table
    obtain ⟨e, failed⟩ := repeated_short advances [] inside short
    refine ⟨e, ?_⟩
    rw [unpackMixedCounted] at decoded
    rw [unpackMixedCounted, unpackEntries_append, decoded]
    simp [unpackEntries, entry, table, failed, Except.bind]
  · intro build len mem tag one count group cursor usize known inside
    have advances : Advances mem len one := checked_advances usize known
    have few := rounds_le advances count inside
    exact ⟨by omega, rounds_enough count group⟩

omit [Target]

/-- Four strings in three bytes, a byte with another one behind it, and a count no slice holds. -/
theorem decoders_safe_short :
    (∃ e, decode (fun _ => 1) (@CheckedDecoders.unpackMixedCounted littleEndian .debug 3
      ([] ++ [.tuple [.ofString "str", .int 4]])) = .error e) ∧
    decode (fun i => if i = 0 then 7 else 9)
      (@CheckedDecoders.unpackOne littleEndian .debug 2 "u8") =
      .ok (.int 7, 1) ∧
    ∃ one, @CheckedDecoders.repetition littleEndian .debug 1 "bool" = some one ∧
      rounds (fun _ => 1) one (2 ^ 64 - 1) 0 ≤ 1 + 1 := by
  have entry : schemaEntry (.tuple [.ofString "str", .int 4]) = .ok ("str", 4) :=
    schemaEntry_tuple "str" (by decide)
  have same : SameBelow 1 (fun _ => 7) fun i => if i = 0 then 7 else 9 := by
    intro i below
    exact (if_pos (Nat.lt_one_iff.mp below)).symm
  obtain ⟨ones, _, short, loops⟩ := @decoders_safe littleEndian
  refine ⟨?_, ?_, _, rfl, ?_⟩
  · exact short .debug 3 _ [] _ [] "str" 4 [] 0 (by decide) rfl entry (by decide) (by decide)
  · exact (ones .debug "u8").prefixed 1 2 _ _ (.int 7) 1 (by decide)
      (by decide) rfl (by decide) same
  · exact (loops .debug 1 _ "bool" _ _ [] 0 (by decide) rfl (by decide)).1

end Safety
end Membridge.DecoderSafety
