import Membridge.RingAlone
import Membridge.Stream
import Membridge.ViewRuns

/-!
`unpack_mixed_counted` against `unpack_one`. The two decoders are written apart,
one with a length, the other with a running cursor; here the second is shown to
be the first, used left to right on what is left of the slice.
-/
namespace Membridge.DecoderAgreement
open Program Interleaving Python ByteOrder ByteReader Mixed Decoding DecodeBounds Membridge.Stream
open Segment View ViewRuns Arithmetic Alone Spsc SpscProtocol SpscInvariant RingAlone

/-- What is left of a slice from `cursor` on. -/
def remaining (mem : Nat → UInt8) (cursor : Nat) : Nat → UInt8 := fun index => mem (cursor + index)

theorem span_remaining (mem : Nat → UInt8) (cursor start count : Nat) :
    Reader.span (remaining mem cursor) start count = Reader.span mem (cursor + start) count :=
  Reader.span_shift mem cursor start count

variable [Target] {mem : Nat → UInt8} {len cursor : Nat} {tag : String}

section Repetition

/-- A repetition reads at its cursor what `unpack_one` reads from the rest of the slice. -/
def Agrees (len : Nat) (tag : String) (one : Nat → Decoder (PyValue × Nat)) : Prop :=
  ∀ mem cursor v next, cursor ≤ len →
    (decode mem (one cursor) = .ok (v, next) ↔
      ∃ n, next = cursor + n ∧
        decode (remaining mem cursor) (unpackOne (len - cursor) tag) = .ok (v, n))

theorem decode_fixedAt (size : Nat) (make : Nat → PyValue) :
    decode mem (fixedAt len size make cursor) =
      if cursor + size > len then .error (invalidArg
        s!"out of bounds: cursor={cursor} + needed={size} > data_len={len}")
      else .ok (make (fromNeBytes (Reader.span mem cursor size)), cursor + size) := by
  simp only [fixedAt, Mixed.checkBounds, decode_bind]
  split
  · rfl
  · simp [Except.bind]

theorem fixedAt_agrees {size : Nat} {make : Nat → PyValue}
    (arm : ∀ left, unpackOne left tag = readFixed left tag size make) :
    Agrees len tag (fixedAt len size make) := by
  intro mem cursor v next inside
  rw [decode_fixedAt, arm, decode_readFixed, span_remaining, Nat.add_zero]
  by_cases fits : cursor + size > len
  · rw [if_pos fits, if_pos (by omega)]
    simp
  · rw [if_neg fits, if_neg (by omega)]
    constructor
    · intro same
      cases same
      exact ⟨size, rfl, rfl⟩
    · rintro ⟨n, rfl, same⟩
      cases same
      rfl

theorem bool_agrees : Agrees len "bool" (fixedAt len 1 fun raw => .bool (raw != 0)) := by
  intro mem cursor v next inside
  rw [decode_fixedAt, decode_bool, span_remaining, Nat.add_zero]
  by_cases fits : cursor + 1 > len
  · rw [if_pos fits, if_pos (by omega)]
    simp
  · rw [if_neg fits, if_neg (by omega)]
    constructor
    · intro same
      cases same
      exact ⟨1, rfl, rfl⟩
    · rintro ⟨n, rfl, same⟩
      cases same
      rfl

/-- The two tests of `unpack_mixed_counted` against the one of `unpack_one`. -/
theorem strAt_agrees : Agrees len "str" (strAt len) := by
  intro mem cursor v next inside
  rw [decode_str]
  simp only [strAt, Mixed.checkBounds, decode_bind, span_remaining, Nat.add_zero]
  by_cases header : cursor + 4 > len
  · rw [if_pos header, if_pos (by omega)]
    simp [Except.bind]
  · rw [if_neg header, if_neg (by omega)]
    simp only [decode_ok, Except.bind, decode_number]
    generalize fromNeBytes (Reader.span mem cursor 4) = size
    by_cases payload : cursor + 4 + size > len
    · rw [if_pos payload, if_pos (by omega)]
      simp
    · rw [if_neg payload, if_neg (by omega)]
      simp only [decode_ok, decode_rawSlice, decode_pure]
      constructor
      · intro same
        cases same
        exact ⟨4 + size, Nat.add_assoc _ _ _, rfl⟩
      · rintro ⟨n, rfl, same⟩
        cases same
        rw [Nat.add_assoc]

theorem repetition_agrees {one : Nat → Decoder (PyValue × Nat)}
    (known : repetition len tag = some one) :
    Agrees len tag one := by
  unfold repetition at known
  split at known
  case h_1 =>
    cases known
    exact bool_agrees
  case h_11 =>
    cases known
    exact strAt_agrees
  case h_12 => cases known
  all_goals
    cases known
    exact fixedAt_agrees fun _ => rfl

/-- Both tables know the same tags. -/
theorem supported_iff : (∃ one, repetition len tag = some one) ↔ tag ∈ supportedTags := by
  constructor
  · rintro ⟨one, known⟩
    unfold repetition at known
    split at known
    case h_12 => cases known
    all_goals decide
  · exact supported

end Repetition

section LeftToRight

/-- `unpack_one`, `count` times on what is left of the slice: each value with the bytes it took. -/
def oneByOne (mem : Nat → UInt8) (len : Nat) (tag : String) :
    Nat → Nat → PyResult (List (PyValue × Nat))
  | 0, _ => .ok []
  | count + 1, cursor => do
      let (v, n) ← decode (remaining mem cursor) (unpackOne (len - cursor) tag)
      let more ← oneByOne mem len tag count (cursor + n)
      return (v, n) :: more

def taken (group : List (PyValue × Nat)) : Nat := (group.map Prod.snd).sum

/-- The entries of a schema in order. An unknown tag is an error even with no repetitions. -/
def leftToRight (mem : Nat → UInt8) (len : Nat) :
    List (String × Nat) → Nat → PyResult (List (List (PyValue × Nat)))
  | [], _ => .ok []
  | (tag, count) :: rest, cursor =>
      if tag ∈ supportedTags then do
        let group ← oneByOne mem len tag count cursor
        let more ← leftToRight mem len rest (cursor + taken group)
        return group :: more
      else .error .type

theorem oneByOne_succ {count : Nat} {values : List (PyValue × Nat)} :
    oneByOne mem len tag (count + 1) cursor = .ok values ↔
      ∃ v n more, decode (remaining mem cursor) (unpackOne (len - cursor) tag) = .ok (v, n) ∧
        oneByOne mem len tag count (cursor + n) = .ok more ∧ values = (v, n) :: more := by
  simp only [oneByOne, bind, Except.bind]
  cases decode (remaining mem cursor) (unpackOne (len - cursor) tag) with
  | error e => simp
  | ok result =>
      obtain ⟨v, n⟩ := result
      dsimp only
      cases later : oneByOne mem len tag count (cursor + n) with
      | error e =>
          constructor
          · intro same
            cases same
          · rintro ⟨_, _, more, same, tail, -⟩
            cases same
            cases later.symm.trans tail
      | ok more =>
          constructor
          · intro same
            cases same
            exact ⟨v, n, more, rfl, later, rfl⟩
          · rintro ⟨_, _, more, same, tail, rfl⟩
            cases same
            cases later.symm.trans tail
            rfl

theorem oneByOne_length {count : Nat} {values : List (PyValue × Nat)}
    (decoded : oneByOne mem len tag count cursor = .ok values) : values.length = count := by
  induction count generalizing cursor values with
  | zero =>
      cases decoded
      rfl
  | succ count ih =>
      obtain ⟨v, n, more, _, tail, rfl⟩ := oneByOne_succ.mp decoded
      rw [List.length_cons, ih tail]

theorem oneByOne_inside {count : Nat} {values : List (PyValue × Nat)} (inside : cursor ≤ len)
    (decoded : oneByOne mem len tag count cursor = .ok values) : cursor + taken values ≤ len := by
  induction count generalizing cursor values with
  | zero =>
      cases decoded
      exact inside
  | succ count ih =>
      obtain ⟨v, n, more, one, tail, rfl⟩ := oneByOne_succ.mp decoded
      have within : n ≤ len - cursor := (reads_ok (unpackOne_reads tag) one).2
      have later := ih (by omega) tail
      simp only [taken, List.map_cons, List.sum_cons] at later ⊢
      omega

theorem repeated_agrees {one : Nat → Decoder (PyValue × Nat)} (agrees : Agrees len tag one)
    (count : Nat) (before : List PyValue) {group : List PyValue}
    {next : Nat} (inside : cursor ≤ len) :
    decode mem (repeated one count before cursor) = .ok (group, next) ↔
      ∃ values, oneByOne mem len tag count cursor = .ok values ∧
        group = before ++ values.map Prod.fst ∧ next = cursor + taken values := by
  induction count generalizing before cursor with
  | zero =>
      simp only [repeated, decode_pure, oneByOne, Except.ok.injEq, Prod.mk.injEq]
      constructor
      · rintro ⟨rfl, rfl⟩
        exact ⟨[], rfl, by simp [taken]⟩
      · rintro ⟨values, rfl, rfl, rfl⟩
        simp
  | succ count ih =>
      simp only [repeated, decode_bind]
      cases decoded : decode mem (one cursor) with
      | error e =>
          -- what one refuses, so does the other
          constructor
          · intro same
            cases same
          · rintro ⟨values, all, -⟩
            obtain ⟨v, n, more, same, -⟩ := oneByOne_succ.mp all
            have also := (agrees mem cursor v (cursor + n) inside).mpr ⟨n, rfl, same⟩
            cases decoded.symm.trans also
      | ok result =>
          obtain ⟨v, middle⟩ := result
          obtain ⟨n, rfl, same⟩ := (agrees mem cursor v middle inside).mp decoded
          have within : n ≤ len - cursor := (reads_ok (unpackOne_reads tag) same).2
          simp only [Except.bind]
          rw [ih (before ++ [v]) (by omega)]
          constructor
          · rintro ⟨values, more, rfl, rfl⟩
            exact ⟨(v, n) :: values, oneByOne_succ.mpr ⟨v, n, values, same, more, rfl⟩, by simp,
              by simp [taken, Nat.add_assoc]⟩
          · rintro ⟨values, all, rfl, rfl⟩
            obtain ⟨v', n', more, again, tail, rfl⟩ := oneByOne_succ.mp all
            cases same.symm.trans again
            exact ⟨more, tail, by simp, by simp [taken, Nat.add_assoc]⟩

theorem leftToRight_cons {count : Nat} {pairs : List (String × Nat)}
    {groups : List (List (PyValue × Nat))} :
    leftToRight mem len ((tag, count) :: pairs) cursor = .ok groups ↔
      tag ∈ supportedTags ∧ ∃ group more, oneByOne mem len tag count cursor = .ok group ∧
        leftToRight mem len pairs (cursor + taken group) = .ok more ∧ groups = group :: more := by
  rw [leftToRight]
  -- the tag is looked up before anything is decoded
  by_cases known : tag ∈ supportedTags
  · simp only [if_pos known, bind, Except.bind]
    cases first : oneByOne mem len tag count cursor with
    | error e => simp
    | ok group =>
        dsimp only
        cases later : leftToRight mem len pairs (cursor + taken group) with
        | error e =>
            constructor
            · intro same
              cases same
            · rintro ⟨_, _, more, same, tail, -⟩
              cases same
              cases later.symm.trans tail
        | ok more =>
            constructor
            · intro same
              cases same
              exact ⟨known, group, more, rfl, later, rfl⟩
            · rintro ⟨_, _, more, same, tail, rfl⟩
              cases same
              cases later.symm.trans tail
              rfl
  · simp [known]

/-- What a schema shows of the values, entry by entry. -/
def shownGroups (groups : List (List (PyValue × Nat))) : List PyValue :=
  groups.map fun group => shown (group.map Prod.fst)

theorem entries_agree {schema : List PyValue} {pairs : List (String × Nat)}
    (entries : List.Forall₂ (fun item pair => schemaEntry item = .ok pair) schema pairs)
    (before : List PyValue) {result : List PyValue} {n : Nat} (inside : cursor ≤ len) :
    decode mem (unpackEntries len schema before cursor) = .ok (result, n) ↔
      ∃ groups, leftToRight mem len pairs cursor = .ok groups ∧
        result = before ++ shownGroups groups ∧ n = cursor + (groups.map taken).sum := by
  -- along the schema; what the entries before it gave is a prefix of the result
  induction entries generalizing before cursor with
  | nil =>
      simp only [unpackEntries, decode_pure, leftToRight, Except.ok.injEq, Prod.mk.injEq]
      constructor
      · rintro ⟨rfl, rfl⟩
        exact ⟨[], rfl, by simp [shownGroups]⟩
      · rintro ⟨groups, rfl, rfl, rfl⟩
        simp [shownGroups]
  | @cons item pair schema pairs entry _ ih =>
      obtain ⟨tag, count⟩ := pair
      simp only [unpackEntries, decode_bind, entry, decode_ok, Except.bind]
      cases table : repetition len tag with
      | none =>
          -- an unknown tag stops both, even with a count of zero
          have unknown : tag ∉ supportedTags := by
            intro known
            obtain ⟨one, same⟩ : ∃ one, repetition len tag = some one := supported known
            cases table.symm.trans same
          constructor
          · intro same
            cases same
          · rintro ⟨groups, all, -⟩
            exact absurd (leftToRight_cons.mp all).1 unknown
      | some one =>
          have known : tag ∈ supportedTags := supported_iff.mp ⟨one, table⟩
          have agrees := repetition_agrees table
          simp only [decode_bind]
          cases decoded : decode mem (repeated one count [] cursor) with
          | error e =>
              constructor
              -- the count was cut short: then so is the decoding one by one
              · intro same
                cases same
              · rintro ⟨groups, all, -⟩
                obtain ⟨_, values, more, first, -⟩ := leftToRight_cons.mp all
                have also := (repeated_agrees agrees count [] inside).mpr ⟨values, first, rfl, rfl⟩
                cases decoded.symm.trans also
          | ok both =>
              obtain ⟨group, next⟩ := both
              obtain ⟨values, first, rfl, rfl⟩ :=
                (repeated_agrees agrees count [] inside).mp decoded
              have length : (values.map Prod.fst).length = count := by
                rw [List.length_map, oneByOne_length first]
              have value : entryValue count (values.map Prod.fst) =
                .ok (shown (values.map Prod.fst)) := by
                rw [← length]
                exact entryValue_shown _
              simp only [Except.bind, List.nil_append, value, decode_ok]
              rw [ih _ (oneByOne_inside inside first)]
              constructor
              · rintro ⟨groups, more, rfl, rfl⟩
                exact ⟨values :: groups,
                  leftToRight_cons.mpr ⟨known, values, groups, first, more, rfl⟩,
                  by simp [shownGroups], by simp [Nat.add_assoc]⟩
              · rintro ⟨groups, all, rfl, rfl⟩
                obtain ⟨_, values', more, again, tail, rfl⟩ := leftToRight_cons.mp all
                cases first.symm.trans again
                exact ⟨more, tail, by simp [shownGroups], by simp [Nat.add_assoc]⟩

end LeftToRight

section Single
variable {item : PyValue}

theorem unpackOne_supported {result : PyValue × Nat}
    (decoded : decode mem (unpackOne len tag) = .ok result) : tag ∈ supportedTags := by
  unfold unpackOne at decoded
  split at decoded
  case h_12 => cases decoded
  all_goals decide

omit [Target] in
theorem remaining_zero (mem : Nat → UInt8) : remaining mem 0 = mem := by
  funext index
  rw [remaining, Nat.zero_add]

/-- A schema of one tag, once. -/
theorem single_agrees (entry : schemaEntry item = .ok (tag, 1)) {result : List PyValue} {n : Nat} :
    decode mem (unpackMixedCounted len [item]) = .ok (result, n) ↔
      ∃ v, result = [v] ∧ decode mem (unpackOne len tag) = .ok (v, n) := by
  rw [unpackMixedCounted, entries_agree (.cons entry .nil) [] (Nat.zero_le len)]
  constructor
  · rintro ⟨groups, all, rfl, rfl⟩
    obtain ⟨_, group, more, first, last, rfl⟩ := leftToRight_cons.mp all
    obtain ⟨v, n, tail, one, nothing, rfl⟩ := oneByOne_succ.mp first
    cases nothing
    cases last
    rw [remaining_zero] at one
    exact ⟨v, rfl, by simpa [taken] using one⟩
  · rintro ⟨v, rfl, one⟩
    have first : oneByOne mem len tag 1 0 = .ok [(v, n)] :=
      oneByOne_succ.mpr ⟨v, n, [], by rw [remaining_zero]; exact one, rfl, rfl⟩
    exact ⟨[[(v, n)]], leftToRight_cons.mpr ⟨unpackOne_supported one, _, [], first, rfl, rfl⟩, rfl,
      by simp [taken]⟩

/-- Both fail, or the second answers with the value of the first as its only one. -/
def Matches (one mixed : PyResult PyValue) : Prop :=
  (∃ v, one = .ok v ∧ mixed = .ok (.list [v])) ∨ ∃ e e', one = .error e ∧ mixed = .error e'

theorem single_cases (entry : schemaEntry item = .ok (tag, 1)) (mem : Nat → UInt8) (len : Nat) :
    (∃ v n, decode mem (unpackOne len tag) = .ok (v, n) ∧
        decode mem (unpackMixedCounted len [item]) = .ok ([v], n)) ∨
      ∃ e e', decode mem (unpackOne len tag) = .error e ∧
        decode mem (unpackMixedCounted len [item]) = .error e' := by
  cases one : decode mem (unpackOne len tag) with
  | ok result =>
      obtain ⟨v, n⟩ := result
      exact .inl ⟨v, n, rfl, (single_agrees entry).mpr ⟨v, rfl, one⟩⟩
  | error e =>
      cases mixed : decode mem (unpackMixedCounted len [item]) with
      | error e' => exact .inr ⟨e, e', rfl, rfl⟩
      | ok result =>
          obtain ⟨values, n⟩ := result
          obtain ⟨v, _, same⟩ := (single_agrees entry).mp mixed
          cases one.symm.trans same

/-- `read(t)` and `read_mixed([(t, 1)])` from one state. -/
theorem reads_agree {build : Build} {view : MappedView} {m a b : SegMem} {r s : PyResult PyValue}
    (usize : view.size < 2 ^ 64) (low : (m.cursors view.id).toNat ≤ view.dataSize)
    (entry : schemaEntry item = .ok (tag, 1))
    (one : Prog.solo SegMem.exec (viewCode build view (.read tag)) m = some (r, a))
    (mixed : Prog.solo SegMem.exec (viewCode build view (.readMixed [item] none)) m = some (s, b)) :
    Matches r s ∧ a = b := by
  change Prog.solo SegMem.exec (View.read build view tag).run m = _ at one
  change Prog.solo SegMem.exec ((readMixed view [item] none) >>= fun values =>
    pure (.list values) : SegM PyValue).run m = _ at mixed
  rw [read_alone build tag usize low] at one
  rw [Prog.run_bind, Prog.solo_bind, readMixed_alone] at mixed
  simp only [Option.getD_none] at mixed
  split at one
  · next free =>
      rcases single_cases entry (fun index => m.bytes (dataPtr (m.cursors view.id).toNat + index))
          (view.dataSize - (m.cursors view.id).toNat) with
            ⟨v, n, first, second⟩ | ⟨e, e', first, second⟩
      · -- a value takes at least a byte
        obtain ⟨positive, within⟩ := reads_ok (unpackOne_reads tag) first
        have available : view.dataSize - (m.cursors view.id).toNat ≠ 0 := by
          intro exhausted
          dsimp only at positive within
          omega
        rw [first] at one
        rw [if_neg available, if_pos free, second] at mixed
        cases one
        cases mixed
        exact ⟨.inl ⟨v, rfl, rfl⟩, rfl⟩
      · rw [first] at one
        cases one
        -- nothing left to decode: `read_mixed` refuses before it takes the lock
        split at mixed
        · cases mixed
          exact ⟨.inr ⟨e, _, rfl, rfl⟩, rfl⟩
        · rw [second] at mixed
          cases mixed
          exact ⟨.inr ⟨e, e', rfl, rfl⟩, rfl⟩
  · cases one

/-- How many bytes `unpack_one` takes for a tag that it knows. -/
def asked (mem : Nat → UInt8) (tag : String) : Option Nat :=
  match tag with
  | "bool" => some 1
  | "u8" => some 1
  | "f32" => some 4
  | "i32" => some 4
  | "u32" => some 4
  | "float" => some 8
  | "f64" => some 8
  | "u64" => some 8
  | "int" => some 8
  | "i64" => some 8
  | "str" => some (4 + fromNeBytes (Reader.span mem 0 4))
  | _ => none

theorem readFixed_fails {size : Nat} {make : Nat → PyValue} :
    (∃ e, decode mem (readFixed len tag size make) = .error e) ↔
      ∀ n, some size = some n → len < n := by
  rw [decode_readFixed]
  split <;> simp [*]

/-- `unpack_one` fails where the slice is shorter than that, and for every other tag. -/
theorem unpackOne_fails :
    (∃ e, decode mem (unpackOne len tag) = .error e) ↔
      ∀ n, asked mem tag = some n → len < n := by
  unfold asked
  split
  case h_1 =>
    rw [decode_bool]
    split <;> simp [*]
  case h_11 =>
    rw [decode_str]
    dsimp only
    split
    · simp
      omega
    · split <;> simp <;> omega
  case h_12 =>
    unfold unpackOne
    split <;> first | contradiction | simp
  all_goals exact readFixed_fails

/-- The length that `read` decodes with does not wrap, or an overflow-checked build says so,
or it is, being close to 2^64 away, still shorter than what the tag asks for. -/
def Clear (build : Build) (view : MappedView) (tag : String) (m : SegMem) : Prop :=
  (m.cursors view.id).toNat ≤ view.dataSize ∨ build = .debug ∨
    ∀ n, asked (fun index => m.bytes (dataPtr (m.cursors view.id).toNat + index)) tag = some n →
      2 ^ 64 + view.dataSize - (m.cursors view.id).toNat < n

/-- Behind the data area `read_mixed` has nothing left to decode. -/
theorem readMixed_refuses {build : Build} {view : MappedView} {m : SegMem} (schema : List PyValue)
    (high : view.dataSize ≤ (m.cursors view.id).toNat) :
    Prog.solo SegMem.exec (viewCode build view (.readMixed schema none)) m =
      some (.error noData, m) := by
  change Prog.solo SegMem.exec ((readMixed view schema none) >>= fun values =>
    pure (.list values) : SegM PyValue).run m = _
  rw [Prog.run_bind, Prog.solo_bind, readMixed_alone]
  simp only [Option.getD_none]
  rw [if_pos (Nat.sub_eq_zero_of_le high)]
  rfl

/-- `read` takes `data_size - pos` where `read_mixed` takes `saturating_sub`: behind the data
area they part if the bytes found there decode. -/
theorem reads_agree_iff {build : Build} {view : MappedView} {m a b : SegMem}
    {r s : PyResult PyValue}
    (usize : view.size < 2 ^ 64) (entry : schemaEntry item = .ok (tag, 1))
    (one : Prog.solo SegMem.exec (viewCode build view (.read tag)) m = some (r, a))
    (mixed : Prog.solo SegMem.exec (viewCode build view (.readMixed [item] none)) m = some (s, b)) :
    (Matches r s ∧ a = b) ↔ Clear build view tag m := by
  by_cases low : (m.cursors view.id).toNat ≤ view.dataSize
  · exact ⟨fun _ => .inl low, fun _ => reads_agree usize low entry one mixed⟩
  · have high : view.dataSize < (m.cursors view.id).toNat := Nat.not_le.mp low
    rw [readMixed_refuses _ (Nat.le_of_lt high)] at mixed
    cases mixed
    change Prog.solo SegMem.exec (View.read build view tag).run m = _ at one
    rw [read_beyond build tag usize high] at one
    split at one
    · cases build with
      | debug =>
          cases one
          exact ⟨fun _ => .inr (.inl rfl), fun _ => ⟨.inr ⟨_, _, rfl, rfl⟩, rfl⟩⟩
      | release =>
          dsimp only at one
          cases decoded : decode (fun index => m.bytes (dataPtr (m.cursors view.id).toNat + index))
              (unpackOne (2 ^ 64 + view.dataSize - (m.cursors view.id).toNat) tag) with
          | error e =>
              rw [decoded] at one
              cases one
              exact ⟨fun _ => .inr (.inr (unpackOne_fails.mp ⟨e, decoded⟩)),
                fun _ => ⟨.inr ⟨_, _, rfl, rfl⟩, rfl⟩⟩
          | ok result =>
              rw [decoded] at one
              cases one
              constructor
              · rintro ⟨⟨v, -, same⟩ | ⟨e, e', same, -⟩, -⟩
                · cases same
                · cases same
              · rintro (inside | checked | short)
                · exact absurd inside low
                · cases checked
                · obtain ⟨e, fails⟩ := unpackOne_fails.mpr short
                  cases decoded.symm.trans fails
    · cases one

/-- `pop(t)` and `pop_mixed([(t, 1)])` from one ring. -/
theorem pops_agree {build : Build} {self : Party → SpscRingBuffer}
    {t : Party} {ring a b : RingMem 64}
    {r s : PyResult PyValue} (entry : schemaEntry item = .ok (tag, 1))
    (one : Prog.solo RingMem.exec (ringCode build self t (.pop (some tag))) ring = some (r, a))
    (mixed : Prog.solo RingMem.exec (ringCode build self t (.popMixed [item])) ring = some (s, b)) :
    (r = .ok .none ∧ s = .ok .none ∨ Matches r s) ∧ a = b := by
  have typed : isPop (.pop (some tag)) = true := rfl
  have listed : isPop (.popMixed [item]) = true := rfl
  rw [pop_decodes typed] at one
  rw [pop_decodes listed] at mixed
  -- both take the frame first, so the head moves equally whatever is decoded
  cases framed : Prog.solo RingMem.exec (popFrame build).run ring with
  | none =>
      rw [framed] at one
      cases one
  | some frame =>
      obtain ⟨front, after⟩ := frame
      rw [framed] at one mixed
      cases one
      cases mixed
      refine ⟨?_, rfl⟩
      cases front with
      | error e => exact .inr (.inr ⟨e, e, rfl, rfl⟩)
      | ok front =>
          cases front with
          | none => exact .inl ⟨rfl, rfl⟩
          | some payload =>
              right
              change Matches (popTyped (some tag) payload) (popSchema [item] payload)
              have both := single_cases entry (fun i => payload.getD i 0) payload.length
              simp only [popTyped, popSchema, bind]
              rcases both with ⟨v, n, first, second⟩ | ⟨e, e', first, second⟩
              · rw [show decodeBuffer payload (fun len => unpackOne len tag) = _ from first,
                  show decodeBuffer payload (fun len => unpackMixedCounted len [item]) =
                    _ from second]
                exact .inl ⟨v, rfl, rfl⟩
              · rw [show decodeBuffer payload (fun len => unpackOne len tag) = _ from first,
                  show decodeBuffer payload (fun len => unpackMixedCounted len [item]) =
                    _ from second]
                exact .inr ⟨e, e', rfl, rfl⟩

/-- The counted decoder is `unpack_one` from left to right. So a typed pop agrees with the mixed
one of the same single entry on every ring; a typed read agrees with the mixed one in
exactly the states of a view that are clear, among them all with the cursor in the data area. -/
theorem decoders_agree :
    (∀ mem len schema pairs result n,
      List.Forall₂ (fun item pair => schemaEntry item = .ok pair) schema pairs →
      (decode mem (unpackMixedCounted len schema) = .ok (result, n) ↔
        ∃ groups, leftToRight mem len pairs 0 = .ok groups ∧ result = shownGroups groups ∧
          n = (groups.map taken).sum)) ∧
    (∀ (build : Build) (view : MappedView) m item tag r s a b, view.size < 2 ^ 64 →
      schemaEntry item = .ok (tag, 1) →
      Prog.solo SegMem.exec (viewCode build view (.read tag)) m = some (r, a) →
      Prog.solo SegMem.exec (viewCode build view (.readMixed [item] none)) m = some (s, b) →
      ((Matches r s ∧ a = b) ↔ Clear build view tag m)) ∧
    ∀ (build : Build) (self : Party → SpscRingBuffer) t (ring : RingMem 64) item tag r s a b,
      schemaEntry item = .ok (tag, 1) →
      Prog.solo RingMem.exec (ringCode build self t (.pop (some tag))) ring = some (r, a) →
      Prog.solo RingMem.exec (ringCode build self t (.popMixed [item])) ring = some (s, b) →
      (r = .ok .none ∧ s = .ok .none ∨ Matches r s) ∧ a = b := by
  refine ⟨?_, ?_, ?_⟩
  · intro mem len schema pairs result n entries
    rw [unpackMixedCounted, entries_agree entries [] (Nat.zero_le len)]
    simp only [List.nil_append, Nat.zero_add]
  · intro build view m item tag r s a b usize entry one mixed
    exact reads_agree_iff usize entry one mixed
  · intro build self t ring item tag r s a b entry one mixed
    exact pops_agree entry one mixed

omit [Target]

def boolEntry : PyValue := .tuple [.ofString "bool", .int 1]

def oneBool : RingMem 64 := ⟨0, 5, 16, fun slot => if slot = 0 then 1 else 0⟩

theorem byte_behind : RwLock.rwlockSize < 5 := by decide

/-- A view of one byte, and a segment all of zeros. -/
def oneByteView : MappedView := ⟨0, 5, byte_behind⟩

def zeros : SegMem := ⟨0, fun _ => 0, fun _ => 0⟩

/-- One byte, decoded from a slice, from a fresh view and from a ring. -/
theorem decoders_agree_oneByte :
    (∃ groups, @leftToRight littleEndian (fun _ => 1) 3 [("bool", 1)] 0 = .ok groups ∧
      [.bool true] = shownGroups groups ∧ 1 = (groups.map taken).sum) ∧
    (∃ r s a b,
      Prog.solo SegMem.exec (@viewCode littleEndian .debug oneByteView (.read "bool")) zeros =
        some (r, a) ∧
      Prog.solo SegMem.exec
        (@viewCode littleEndian .debug oneByteView (.readMixed [boolEntry] none)) zeros =
        some (s, b) ∧ Matches r s ∧ a = b) ∧
    ∃ r s a b,
      Prog.solo RingMem.exec (@ringCode _ .debug littleEndian (fun _ => ⟨40⟩) .consumer
        (.pop (some "bool"))) oneBool = some (r, a) ∧
      Prog.solo RingMem.exec (@ringCode _ .debug littleEndian (fun _ => ⟨40⟩) .consumer
        (.popMixed [boolEntry])) oneBool = some (s, b) ∧
      (r = .ok .none ∧ s = .ok .none ∨ Matches r s) ∧ a = b := by
  have entry : schemaEntry boolEntry = .ok ("bool", 1) := schemaEntry_tuple "bool" (by decide)
  obtain ⟨slices, views, rings⟩ := @decoders_agree littleEndian
  refine ⟨(slices _ _ _ _ _ _ (.cons entry .nil)).mp rfl, ⟨_, _, _, _, rfl, rfl, ?_⟩,
    _, _, _, _, rfl, rfl, ?_⟩
  · exact (views .debug oneByteView zeros boolEntry "bool" _ _ _ _ (by decide) entry rfl rfl).mpr
      (.inl (by decide))
  · exact rings .debug (fun _ => ⟨40⟩) .consumer oneBool boolEntry "bool" _ _ _ _ entry rfl rfl

/-- Two threads write one byte each to a view of one byte, both from a cursor of 0. -/
def bothWrite : List (Interleaving.Choice (Fin 2) ViewCall) :=
  [[.call thread0 (.write (.bool true) none)], turns thread0 1,
    [.call thread1 (.write (.bool false) none)], turns thread1 1, turns thread0 4,
    turns thread1 4].flatten

abbrev bothWriting : ViewSystem (Fin 2) :=
  @viewSystem (Fin 2) littleEndian .release (fun _ => oneByteView) fun _ _ => True

/-- That leaves the cursor behind the data area: there `read` answers with a byte that is not
the view's, and moves on, while `read_mixed` refuses. -/
theorem decoders_part_behind_data :
    ∃ cfg a b, Reachable bothWriting zeros cfg ∧ (∀ t, cfg.running t = none) ∧
      oneByteView.dataSize = 1 ∧ cfg.world.mem.cursors 0 = 2 ∧
      schemaEntry boolEntry = .ok ("bool", 1) ∧
      Prog.solo SegMem.exec (@viewCode littleEndian .release oneByteView (.read "bool"))
        cfg.world.mem = some (.ok (.bool false), a) ∧ a.cursors 0 = 3 ∧
      Prog.solo SegMem.exec
        (@viewCode littleEndian .release oneByteView (.readMixed [boolEntry] none))
        cfg.world.mem = some (.error noData, b) ∧ b.cursors 0 = 2 := by
  have ran : (schedule bothWriting (fun _ _ o m => SegMem.exec o m) bothWrite (.initial zeros)).map
      (fun cfg => ((cfg.running 0).isNone && (cfg.running 1).isNone, cfg.world.mem.state,
        cfg.world.mem.cursors 0, cfg.world.mem.bytes 6)) = some (true, 0, 2, 0) := by
    decide +kernel
  obtain ⟨cfg, reach, result⟩ := schedule_reaches (@view_faithful _ littleEndian _ _ _) ran
  simp only [Prod.mk.injEq, Bool.and_eq_true, Option.isNone_iff_eq_none] at result
  obtain ⟨⟨first, second⟩, lock, place, byte⟩ := result
  have idle : ∀ t, cfg.running t = none := by
    intro t
    match t with
    | 0 => exact first
    | 1 => exact second
  have high : oneByteView.dataSize < (cfg.world.mem.cursors oneByteView.id).toNat := by
    change 1 < (cfg.world.mem.cursors 0).toNat
    rw [place]
    decide
  have free : 0 ≤ cfg.world.mem.state.toInt := by
    rw [lock]
    decide
  have byte_there : Reader.span (fun index =>
      cfg.world.mem.bytes (dataPtr (cfg.world.mem.cursors oneByteView.id).toNat + index)) 0 1 =
        [0] := by
    change [cfg.world.mem.bytes (dataPtr (cfg.world.mem.cursors 0).toNat + 0)] = _
    rw [place]
    exact congrArg (fun x => [x]) byte
  have one : Prog.solo SegMem.exec (@View.read littleEndian .release oneByteView "bool").run
      cfg.world.mem = some (.ok (.bool false), advanced oneByteView none 1 cfg.world.mem) := by
    rw [@read_beyond _ littleEndian .release "bool" _ (by decide) high, if_pos free]
    dsimp only
    rw [@decode_bool littleEndian, if_neg (by omega), byte_there]
    rfl
  have mixed : Prog.solo SegMem.exec
      (@viewCode littleEndian .release oneByteView (.readMixed [boolEntry] none)) cfg.world.mem =
        some (.error noData, cfg.world.mem) :=
    @readMixed_refuses littleEndian _ _ _ _ (Nat.le_of_lt high)
  refine ⟨cfg, _, _, reach, idle, rfl, place, schemaEntry_tuple "bool" (by decide), one, ?_, mixed,
    place⟩
  change cfg.world.mem.cursors 0 + 1 = 3
  rw [place]
  rfl

end Single
end Membridge.DecoderAgreement
