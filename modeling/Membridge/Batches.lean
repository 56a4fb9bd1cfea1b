import Membridge.DecoderAgreement

/-!
`write_mixed` and `read_mixed` against the single calls. A mixed write is the
writes of its values in a row, at the cursor or from an offset on; a mixed read is
the reads its schema counts, with the results gathered by entry.
-/
namespace Membridge.Batches
open Program Python ByteOrder ByteReader Mixed Decoding DecodeBounds Arithmetic Segment View
open ViewBounds Encoding Alone Sessions Membridge.Stream DecoderAgreement

variable [Target]

section Writes
variable {build : Build} {view : MappedView} {offset : Option Nat} {m last : SegMem}

/-- The values one after the other, each behind the bytes of those before it. -/
def writeRow : Option Nat → List PyValue → List ViewCall
  | _, [] => []
  | offset, v :: rest =>
      .write v offset :: writeRow (offset.map fun start => start + (encoded v).length) rest

/-- What a write of these bytes does, if it may. -/
structure Placed (view : MappedView) (offset : Option Nat) (bytes : List UInt8) (m last : SegMem) :
    Prop where
  positive : 0 < bytes.length
  fits : offset.getD (m.cursors view.id).toNat + bytes.length ≤ view.dataSize
  free : m.state = 0
  after : last = advanced view offset bytes.length
    { m with
      bytes := Reader.overwrite m.bytes (dataPtr (offset.getD (m.cursors view.id).toNat)) bytes }

omit [Target] in
theorem checkBounds_iff (usize : view.size < 2 ^ 64) {start length : Nat} :
    View.checkBounds view start length = .ok () ↔ 0 < length ∧ start + length ≤ view.dataSize := by
  constructor
  · exact checkBounds_fits usize
  · rintro ⟨positive, fits⟩
    unfold View.checkBounds
    rw [if_neg (by omega), if_neg (by omega)]

theorem packed_placed (usize : view.size < 2 ^ 64) {c : ViewCall} {bytes : List UInt8}
    (packs : packed c = some (bytes, offset)) :
    Prog.solo SegMem.exec (viewCode build view c) m = some (.ok .none, last) ↔
      Placed view offset bytes m last := by
  constructor
  · intro ran
    obtain ⟨free, inside, after⟩ := packed_effect packs ran
    obtain ⟨positive, fits⟩ := checkBounds_fits usize inside
    exact ⟨positive, fits, free, after⟩
  · rintro ⟨positive, fits, free, rfl⟩
    rw [packed_alone packs, place_alone, (checkBounds_iff usize).mpr ⟨positive, fits⟩]
    dsimp only
    rw [if_pos free]
    rfl

theorem write_placed (usize : view.size < 2 ^ 64) (v : PyValue) :
    Prog.solo SegMem.exec (viewCode build view (.write v offset)) m = some (.ok .none, last) ↔
      ∃ bytes, packValue v [] = .ok bytes ∧ Placed view offset bytes m last := by
  cases packs : packValue v [] with
  | error e =>
      constructor
      · intro ran
        simp [viewCode, viewCall, View.write, packs] at ran
      · rintro ⟨_, same, _⟩
        cases same
  | ok bytes =>
      have same : packed (.write v offset) = some (bytes, offset) := by
        simp [packed, packs, Except.toOption]
      rw [packed_placed usize same]
      simp

theorem writeMixed_placed (usize : view.size < 2 ^ 64) (items : List PyValue) :
    Prog.solo SegMem.exec (viewCode build view (.writeMixed items offset)) m =
      some (.ok .none, last) ↔
      ∃ bytes, packMixed items = .ok bytes ∧ Placed view offset bytes m last := by
  cases packs : packMixed items with
  | error e =>
      constructor
      · intro ran
        simp [viewCode, viewCall, View.writeMixed, packs] at ran
      · rintro ⟨_, same, _⟩
        cases same
  | ok bytes =>
      have same : packed (.writeMixed items offset) = some (bytes, offset) := by
        simp [packed, packs, Except.toOption]
      rw [packed_placed usize same]
      simp

omit [Target] in
/-- The position of the next write: the cursor has moved, or the offset has. -/
theorem advanced_position (usize : view.size < 2 ^ 64) {n : Nat}
    (fits : offset.getD (m.cursors view.id).toNat + n ≤ view.dataSize) :
    (offset.map fun start => start + n).getD ((advanced view offset n m).cursors view.id).toNat =
      offset.getD (m.cursors view.id).toNat + n := by
  cases offset with
  | none =>
      simp only [Option.getD_none] at fits
      have passed := advanced_passed usize fits
      simpa using passed.cursor
  | some start => rfl

omit [Target] in
theorem advanced_twice (offset : Option Nat) (k n : Nat) (m : SegMem) (bytes : Nat → UInt8) :
    advanced view (offset.map fun start => start + k) n
        { advanced view offset k m with bytes := bytes } =
      advanced view offset (k + n) { m with bytes := bytes } := by
  cases offset with
  | none =>
      simp [advanced, BitVec.add_assoc, BitVec.ofNat_add]
  | some start => rfl

omit [Target] in
theorem advanced_bytes (offset : Option Nat) (n : Nat) (m : SegMem) :
    (advanced view offset n m).bytes = m.bytes ∧ (advanced view offset n m).state = m.state := by
  unfold advanced
  split
  · exact ⟨rfl, rfl⟩
  · exact ⟨rfl, rfl⟩

omit [Target] in
/-- Bytes placed in two parts are the bytes placed at once. -/
theorem placed_append (usize : view.size < 2 ^ 64) {first second : List UInt8}
    (positive : 0 < first.length)
    (more : 0 < second.length) :
    (∃ mid, Placed view offset first m mid ∧
      Placed view (offset.map fun start => start + first.length) second mid last) ↔
      Placed view offset (first ++ second) m last := by
  constructor
  · rintro ⟨mid, ⟨_, fits, free, rfl⟩, ⟨_, room, _, rfl⟩⟩
    have position := advanced_position (m := { m with
      bytes := Reader.overwrite m.bytes (dataPtr (offset.getD (m.cursors view.id).toNat)) first })
        usize fits
    rw [position] at room
    refine ⟨by simp [positive], ?_, free, ?_⟩
    · rw [List.length_append]
      dsimp only at room
      omega
    · rw [position, (advanced_bytes _ _ _).1, advanced_twice,
        List.length_append, Reader.overwrite_append]
      simp only [dataPtr, Nat.add_assoc]
  · rintro ⟨_, fits, free, rfl⟩
    rw [List.length_append] at fits
    have front : offset.getD (m.cursors view.id).toNat + first.length ≤ view.dataSize := by omega
    have position := advanced_position (m := { m with
      bytes := Reader.overwrite m.bytes (dataPtr (offset.getD (m.cursors view.id).toNat)) first })
        usize front
    refine ⟨_, ⟨positive, front, free, rfl⟩, ⟨more, ?_, ?_, ?_⟩⟩
    · rw [position]
      dsimp only
      omega
    · exact (advanced_bytes _ _ _).2.trans free
    · rw [position, (advanced_bytes _ _ _).1, advanced_twice,
        List.length_append, Reader.overwrite_append]
      simp only [dataPtr, Nat.add_assoc]

theorem packEach_cons {v : PyValue} {rest : List PyValue} {bytes : List UInt8} :
    packEach (v :: rest) [] = .ok bytes ↔
      ∃ front back, packValue v [] = .ok front ∧ packEach rest [] = .ok back ∧
        bytes = front ++ back := by
  rw [packEach]
  simp only [bind, Except.bind]
  cases packValue v [] with
  | error e => simp
  | ok front =>
      dsimp only
      rw [packEach_append]
      cases packEach rest [] with
      | error e => simp [Except.map]
      | ok back => simp [Except.map, eq_comm]

theorem packed_pos {v : PyValue} {front : List UInt8} (nonempty : packValue v [] ≠ .ok [])
    (packs : packValue v [] = .ok front) : 0 < front.length := by
  apply List.length_pos_iff.mpr
  rintro rfl
  exact nonempty packs

theorem packEach_pos {v : PyValue} {rest : List PyValue} {bytes : List UInt8}
    (nonempty : packValue v [] ≠ .ok []) (packed : packEach (v :: rest) [] = .ok bytes) :
    0 < bytes.length := by
  obtain ⟨front, back, packs, _, rfl⟩ := packEach_cons.mp packed
  have positive := packed_pos nonempty packs
  rw [List.length_append]
  omega

theorem session_ok {c : ViewCall} {rest : List ViewCall} {value : PyValue}
    {values : List (PyResult PyValue)} :
    session build view (c :: rest) m = some (.ok value :: values, last) ↔
      ∃ mid, Prog.solo SegMem.exec (viewCode build view c) m = some (.ok value, mid) ∧
        session build view rest mid = some (values, last) := by
  constructor
  · intro ran
    obtain ⟨result, mid, more, first, later, same⟩ := session_cons ran
    cases same
    exact ⟨mid, first, later⟩
  · rintro ⟨mid, first, later⟩
    simp [session, first, later]

/-- A row of writes that all answer places the bytes of its values. -/
theorem row_placed (usize : view.size < 2 ^ 64) {v : PyValue} {rest : List PyValue}
    (nonempty : ∀ x ∈ v :: rest, packValue x [] ≠ .ok []) :
    session build view (writeRow offset (v :: rest)) m =
        some (List.replicate (v :: rest).length (.ok .none), last) ↔
      ∃ bytes, packEach (v :: rest) [] = .ok bytes ∧ Placed view offset bytes m last := by
  rw [writeRow, List.length_cons, List.replicate_succ, session_ok]
  induction rest generalizing v offset m with
  | nil =>
      simp only [writeRow, session, write_placed usize, packEach_cons]
      constructor
      · rintro ⟨mid, ⟨bytes, packs, placed⟩, same⟩
        cases same
        exact ⟨bytes, ⟨bytes, [], packs, rfl, (List.append_nil _).symm⟩, placed⟩
      · rintro ⟨_, ⟨front, back, packs, nothing, rfl⟩, placed⟩
        cases nothing
        rw [List.append_nil] at placed
        exact ⟨last, ⟨front, packs, placed⟩, rfl⟩
  | cons x rest ih =>
      have tail : ∀ y ∈ x :: rest, packValue y [] ≠ .ok [] :=
        fun y member => nonempty y (List.mem_cons_of_mem v member)
      simp only [writeRow, List.length_cons, List.replicate_succ, session_ok]
      simp only [ih tail]
      simp only [write_placed usize]
      constructor
      · rintro ⟨mid, ⟨front, packs, placed⟩, back, packed, behind⟩
        have positive := packed_pos (nonempty v List.mem_cons_self) packs
        rw [packed_ok packs] at behind
        exact ⟨front ++ back, packEach_cons.mpr ⟨front, back, packs, packed, rfl⟩,
          (placed_append usize positive behind.positive).mp ⟨mid, placed, behind⟩⟩
      · rintro ⟨_, packed, placed⟩
        obtain ⟨front, back, packs, more, rfl⟩ := packEach_cons.mp packed
        have positive := packed_pos (nonempty v List.mem_cons_self) packs
        have later := packEach_pos (tail x List.mem_cons_self) more
        obtain ⟨mid, here, behind⟩ := (placed_append usize positive later).mpr placed
        rw [packed_ok packs]
        exact ⟨mid, ⟨front, packs, here⟩, back, more, behind⟩

end Writes

section InTurn
variable {mem : Nat → UInt8} {len cursor : Nat} {tags : List String} {values : List (PyValue × Nat)}

/-- `unpack_one` with each tag in turn, every time on what is left: the values, and the bytes
each took. -/
inductive InTurn (mem : Nat → UInt8) (len : Nat) : Nat → List String →
    List (PyValue × Nat) → Prop where
  | nil {cursor : Nat} : InTurn mem len cursor [] []
  | cons {cursor n : Nat} {tag : String} {v : PyValue} {tags : List String}
      {values : List (PyValue × Nat)}
      (one : decode (remaining mem cursor) (unpackOne (len - cursor) tag) = .ok (v, n))
      (more : InTurn mem len (cursor + n) tags values) :
      InTurn mem len cursor (tag :: tags) ((v, n) :: values)

theorem inTurn_nil : InTurn mem len cursor [] values ↔ values = [] := by
  constructor
  · intro turn
    cases turn
    rfl
  · rintro rfl
    exact .nil

theorem inTurn_cons {tag : String} :
    InTurn mem len cursor (tag :: tags) values ↔
      ∃ v n rest, decode (remaining mem cursor) (unpackOne (len - cursor) tag) = .ok (v, n) ∧
        InTurn mem len (cursor + n) tags rest ∧ values = (v, n) :: rest := by
  constructor
  · intro turn
    cases turn with
    | cons one more => exact ⟨_, _, _, one, more, rfl⟩
  · rintro ⟨v, n, rest, one, more, rfl⟩
    exact .cons one more

theorem inTurn_length (turn : InTurn mem len cursor tags values) : values.length = tags.length := by
  induction turn with
  | nil => rfl
  | cons _ _ ih => rw [List.length_cons, List.length_cons, ih]

theorem inTurn_replicate (tag : String) (count : Nat) :
    InTurn mem len cursor (List.replicate count tag) values ↔
      oneByOne mem len tag count cursor = .ok values := by
  induction count generalizing cursor values with
  | zero => simp [inTurn_nil, oneByOne, eq_comm]
  | succ count ih => simp only [List.replicate_succ, inTurn_cons, oneByOne_succ, ih]

theorem inTurn_append {more : List String} :
    InTurn mem len cursor (tags ++ more) values ↔
      ∃ first second, InTurn mem len cursor tags first ∧
        InTurn mem len (cursor + taken first) more second ∧ values = first ++ second := by
  induction tags generalizing cursor values with
  | nil => simp [inTurn_nil, taken]
  | cons tag tags ih =>
      simp only [List.cons_append, inTurn_cons, ih]
      constructor
      · rintro ⟨v, n, _, one, ⟨first, second, front, back, rfl⟩, rfl⟩
        refine ⟨(v, n) :: first, second, ⟨v, n, first, one, front, rfl⟩, ?_, rfl⟩
        simpa [taken, Nat.add_assoc] using back
      · rintro ⟨_, second, ⟨v, n, first, one, front, rfl⟩, back, rfl⟩
        refine ⟨v, n, _, one, ⟨first, second, front, ?_, rfl⟩, rfl⟩
        simpa [taken, Nat.add_assoc] using back

/-- A later start of the slice, with the cursor counted from there. -/
theorem inTurn_shift (start : Nat) :
    InTurn (remaining mem start) (len - start) cursor tags values ↔
      InTurn mem len (start + cursor) tags values := by
  induction tags generalizing cursor values with
  | nil => simp only [inTurn_nil]
  | cons tag tags ih =>
      have same : remaining (remaining mem start) cursor = remaining mem (start + cursor) := by
        funext index
        simp only [remaining, Nat.add_assoc]
      simp only [inTurn_cons, ih, same, Nat.sub_sub, Nat.add_assoc]

/-- The tags of a schema, each as often as it counts. -/
def tagsIn (pairs : List (String × Nat)) : List String :=
  pairs.flatMap fun pair => List.replicate pair.2 pair.1

/-- The loop over a schema is the loop over its tags, cut into groups. -/
theorem leftToRight_inTurn {pairs : List (String × Nat)} {groups : List (List (PyValue × Nat))} :
    leftToRight mem len pairs cursor = .ok groups ↔
      (∀ pair ∈ pairs, pair.1 ∈ supportedTags) ∧ groups.map List.length = pairs.map Prod.snd ∧
        InTurn mem len cursor (tagsIn pairs) groups.flatten := by
  induction pairs generalizing cursor groups with
  | nil =>
      simp only [leftToRight, tagsIn, List.flatMap_nil, inTurn_nil]
      cases groups <;> simp
  | cons pair pairs ih =>
      obtain ⟨tag, count⟩ := pair
      rw [leftToRight_cons]
      constructor
      · rintro ⟨known, group, more, first, later, rfl⟩
        obtain ⟨others, lengths, turn⟩ := ih.mp later
        refine ⟨?_, ?_, ?_⟩
        · rintro pair (_ | ⟨_, there⟩)
          · exact known
          · exact others pair there
        · simp [lengths, oneByOne_length first]
        · rw [tagsIn, List.flatMap_cons, List.flatten_cons]
          exact inTurn_append.mpr ⟨group, more.flatten,
            (inTurn_replicate tag count).mpr first, turn, rfl⟩
      · rintro ⟨known, lengths, turn⟩
        cases groups with
        | nil => simp at lengths
        | cons group groups =>
            simp only [List.map_cons, List.cons.injEq] at lengths
            rw [tagsIn, List.flatMap_cons, List.flatten_cons] at turn
            obtain ⟨first, second, front, back, same⟩ := inTurn_append.mp turn
            have length : group.length = first.length := by
              rw [lengths.1, inTurn_length front, List.length_replicate]
            obtain ⟨rfl, rfl⟩ := List.append_inj same length
            exact ⟨known _ List.mem_cons_self, group, groups, (inTurn_replicate tag count).mp front,
              ih.mpr ⟨fun pair there => known pair (List.mem_cons_of_mem _ there), lengths.2, back⟩,
                rfl⟩

omit [Target] in
theorem taken_flatten (groups : List (List (PyValue × Nat))) :
    taken groups.flatten = (groups.map taken).sum := by
  induction groups with
  | nil => rfl
  | cons group groups ih => simp [taken, ← ih]

end InTurn

section Reads
variable {build : Build} {view : MappedView} {m last : SegMem}

/-- The slice a read at the cursor decodes. -/
def ahead (view : MappedView) (m : SegMem) : Nat → UInt8 :=
  fun index => m.bytes (dataPtr (m.cursors view.id).toNat + index)

def left (view : MappedView) (m : SegMem) : Nat := view.dataSize - (m.cursors view.id).toNat

omit [Target] in
theorem advanced_zero (m : SegMem) : advanced view none 0 m = m := by
  simp [advanced]

theorem read_inTurn (usize : view.size < 2 ^ 64) (low : (m.cursors view.id).toNat ≤ view.dataSize)
    (shared : 0 ≤ m.state.toInt) (tag : String) {v : PyValue} :
    Prog.solo SegMem.exec (viewCode build view (.read tag)) m = some (.ok v, last) ↔
      ∃ n, decode (ahead view m) (unpackOne (left view m) tag) = .ok (v, n) ∧
        last = advanced view none n m := by
  change Prog.solo SegMem.exec (View.read build view tag).run m = _ ↔ _
  rw [read_alone build tag usize low, if_pos shared]
  have same : decode (fun index => m.bytes (dataPtr (m.cursors view.id).toNat + index))
      (unpackOne (view.dataSize - (m.cursors view.id).toNat) tag) =
        decode (ahead view m) (unpackOne (left view m) tag) := rfl
  rw [same]
  cases decode (ahead view m) (unpackOne (left view m) tag) with
  | error e => simp
  | ok result =>
      obtain ⟨x, n⟩ := result
      simp only [Option.some.injEq, Prod.mk.injEq, Except.ok.injEq]
      constructor
      · rintro ⟨rfl, rfl⟩
        exact ⟨n, ⟨rfl, rfl⟩, rfl⟩
      · rintro ⟨_, ⟨rfl, rfl⟩, rfl⟩
        exact ⟨rfl, rfl⟩

omit [Target] in
/-- Behind `n` more bytes the slice is what is left of it. -/
theorem ahead_advanced (usize : view.size < 2 ^ 64) {n : Nat}
    (fits : (m.cursors view.id).toNat + n ≤ view.dataSize) :
    ahead view (advanced view none n m) = remaining (ahead view m) n ∧
      left view (advanced view none n m) = left view m - n := by
  have passed := advanced_passed usize fits
  constructor
  · funext index
    simp only [ahead, remaining, passed.cursor, passed.bytes, dataPtr, Nat.add_assoc]
  · rw [left, left, passed.cursor, Nat.sub_sub]

/-- A row of typed reads that all answer decodes the tags in turn. -/
theorem readRow_inTurn (usize : view.size < 2 ^ 64)
    (low : (m.cursors view.id).toNat ≤ view.dataSize)
    (shared : 0 ≤ m.state.toInt) (tags : List String) {values : List PyValue} :
    session build view (tags.map .read) m = some (values.map .ok, last) ↔
      ∃ steps, InTurn (ahead view m) (left view m) 0 tags steps ∧ values = steps.map Prod.fst ∧
        last = advanced view none (taken steps) m := by
  induction tags generalizing m last values with
  | nil =>
      simp only [List.map_nil, session, inTurn_nil]
      cases values with
      | nil => simp [taken, advanced_zero, eq_comm]
      | cons v rest => simp
  | cons tag tags ih =>
      have inside : ∀ {v n}, decode (ahead view m) (unpackOne (left view m) tag) = .ok (v, n) →
          (m.cursors view.id).toNat + n ≤ view.dataSize := by
        intro v n decoded
        have within : n ≤ left view m := (reads_ok (unpackOne_reads tag) decoded).2
        rw [left] at within
        omega
      -- the rest is read from where the first value ends
      have rest : ∀ {v n more last},
          decode (ahead view m) (unpackOne (left view m) tag) = .ok (v, n) →
          (session build view (tags.map .read) (advanced view none n m) =
              some (more.map .ok, last) ↔
            ∃ steps, InTurn (ahead view m) (left view m) n tags steps ∧ more = steps.map Prod.fst ∧
              last = advanced view none (n + taken steps) m) := by
        intro v n more last decoded
        have fits := inside decoded
        obtain ⟨slice, size⟩ := ahead_advanced usize fits
        have cursor := (advanced_passed usize fits).cursor
        rw [ih (by omega : ((advanced view none n m).cursors view.id).toNat ≤ view.dataSize) shared,
          slice, size]
        have twice : ∀ k, advanced view none k (advanced view none n m) =
          advanced view none (n + k) m :=
          fun k => advanced_twice none n k m m.bytes
        simp only [inTurn_shift, Nat.add_zero, twice]
      simp only [List.map_cons]
      cases values with
      | nil =>
          constructor
          · intro ran
            obtain ⟨_, _, _, _, _, same⟩ := session_cons ran
            cases same
          · rintro ⟨steps, turn, nothing, _⟩
            obtain ⟨_, _, _, _, _, rfl⟩ := inTurn_cons.mp turn
            cases nothing
      | cons v more =>
          rw [List.map_cons, session_ok]
          simp only [read_inTurn usize low shared]
          constructor
          · rintro ⟨_, ⟨n, decoded, rfl⟩, later⟩
            obtain ⟨steps, turn, rfl, rfl⟩ := (rest decoded).mp later
            refine ⟨(v, n) :: steps, inTurn_cons.mpr ⟨v, n, steps, ?_, ?_, rfl⟩, rfl, ?_⟩
            · rw [remaining_zero, Nat.sub_zero]
              exact decoded
            · rw [Nat.zero_add]
              exact turn
            · simp [taken]
          · rintro ⟨_, turn, same, rfl⟩
            obtain ⟨v', n, steps, decoded, later, rfl⟩ := inTurn_cons.mp turn
            rw [remaining_zero, Nat.sub_zero] at decoded
            rw [Nat.zero_add] at later
            simp only [List.map_cons, List.cons.injEq] at same
            obtain ⟨rfl, rfl⟩ := same
            refine ⟨_, ⟨n, decoded, rfl⟩, (rest decoded).mpr ⟨steps, later, rfl, ?_⟩⟩
            simp [taken]

omit [Target] in
theorem flatten_lift {α β : Type} (f : α → β) {groups : List (List β)} {steps : List α}
    (same : groups.flatten = steps.map f) :
    ∃ cut : List (List α), steps = cut.flatten ∧ groups = cut.map (List.map f) := by
  induction groups generalizing steps with
  | nil =>
      obtain rfl := List.map_eq_nil_iff.mp same.symm
      exact ⟨[], rfl, rfl⟩
  | cons group groups ih =>
      rw [List.flatten_cons] at same
      obtain ⟨front, back, rfl, rfl, rest⟩ := List.map_eq_append_iff.mp same.symm
      obtain ⟨cut, rfl, rfl⟩ := ih rest.symm
      exact ⟨front :: cut, rfl, rfl⟩

omit [Target] in
theorem tagsIn_some {pairs : List (String × Nat)} (counted : ∃ pair ∈ pairs, 0 < pair.2) :
    tagsIn pairs ≠ [] := by
  obtain ⟨pair, there, positive⟩ := counted
  intro untagged
  have empty := List.flatMap_eq_nil_iff.mp untagged pair there
  rw [List.replicate_eq_nil_iff] at empty
  omega

/-- A writer inside keeps the first read of a row from answering. -/
theorem readRow_held (usize : view.size < 2 ^ 64) (low : (m.cursors view.id).toNat ≤ view.dataSize)
    (held : ¬ 0 ≤ m.state.toInt) {tags : List String} (nonempty : tags ≠ []) :
    session build view (tags.map .read) m = none := by
  obtain ⟨tag, tags, rfl⟩ := List.exists_cons_of_ne_nil nonempty
  have waits : Prog.solo SegMem.exec (viewCode build view (.read tag)) m = none := by
    change Prog.solo SegMem.exec (View.read build view tag).run m = none
    rw [read_alone build tag usize low, if_neg held]
  simp [session, waits]

theorem readMixed_ok (schema : List PyValue) {result : List PyValue} :
    Prog.solo SegMem.exec (viewCode build view (.readMixed schema none)) m =
        some (.ok (.list result), last) ↔
      left view m ≠ 0 ∧ 0 ≤ m.state.toInt ∧
        ∃ n, decode (ahead view m) (unpackMixedCounted (left view m) schema) = .ok (result, n) ∧
          last = advanced view none n m := by
  simp only [viewCode, viewCall, Prog.run_bind, Prog.solo_bind, readMixed_alone, Option.getD_none]
  rw [show view.dataSize - (m.cursors view.id).toNat = left view m from rfl]
  by_cases exhausted : left view m = 0
  · simp [exhausted]
  · rw [if_neg exhausted]
    by_cases shared : 0 ≤ m.state.toInt
    · rw [if_pos shared]
      rw [show (fun index => m.bytes (dataPtr (m.cursors view.id).toNat + index)) =
        ahead view m from rfl]
      cases decode (ahead view m) (unpackMixedCounted (left view m) schema) with
      | error e => simp
      | ok both =>
          obtain ⟨values, n⟩ := both
          simp [exhausted, shared, and_assoc, eq_comm]
    · simp [shared]

/-- A mixed read answers exactly when the reads it counts do. -/
theorem readMixed_row (usize : view.size < 2 ^ 64) (low : (m.cursors view.id).toNat ≤ view.dataSize)
    {schema : List PyValue} {pairs : List (String × Nat)}
    (entries : List.Forall₂ (fun item pair => schemaEntry item = .ok pair) schema pairs)
    (known : ∀ pair ∈ pairs, pair.1 ∈ supportedTags) (counted : ∃ pair ∈ pairs, 0 < pair.2)
    {result : List PyValue} :
    Prog.solo SegMem.exec (viewCode build view (.readMixed schema none)) m =
        .some (.ok (.list result), last) ↔
      ∃ groups : List (List PyValue), groups.map List.length = pairs.map Prod.snd ∧
        result = groups.map shown ∧
        session build view ((tagsIn pairs).map .read) m = .some (groups.flatten.map .ok, last) := by
  rw [readMixed_ok]
  by_cases shared : 0 ≤ m.state.toInt
  · simp only [readRow_inTurn usize low shared, unpackMixedCounted,
      entries_agree entries [] (Nat.zero_le _), List.nil_append, Nat.zero_add]
    constructor
    · rintro ⟨_, _, _, ⟨groups, decoded, rfl, rfl⟩, rfl⟩
      obtain ⟨_, lengths, turn⟩ := leftToRight_inTurn.mp decoded
      refine ⟨groups.map fun group => group.map Prod.fst, ?_, ?_, groups.flatten, turn, ?_, ?_⟩
      · rw [← lengths, List.map_map]
        exact List.map_congr_left fun group _ => List.length_map _
      · rw [shownGroups, List.map_map]
        rfl
      · rw [List.map_flatten]
      · rw [taken_flatten]
    · rintro ⟨values, lengths, rfl, steps, turn, same, rfl⟩
      -- the steps are cut where the values are
      obtain ⟨groups, rfl, rfl⟩ := flatten_lift Prod.fst same
      have lengths : groups.map List.length = pairs.map Prod.snd := by
        rw [← lengths, List.map_map]
        exact List.map_congr_left fun group _ => (List.length_map _).symm
      refine ⟨?_, shared, _, ⟨groups, leftToRight_inTurn.mpr ⟨known, lengths, turn⟩, ?_, rfl⟩, ?_⟩
      · obtain ⟨tag, tags, first⟩ := List.exists_cons_of_ne_nil (tagsIn_some counted)
        rw [first] at turn
        obtain ⟨v, n, _, one, _⟩ := inTurn_cons.mp turn
        have bounds := reads_ok (unpackOne_reads tag) one
        dsimp only at bounds
        omega
      · rw [shownGroups, List.map_map]
        rfl
      · rw [taken_flatten]
  · rw [readRow_held usize low shared (tagsIn_some counted)]
    simp [shared]

end Reads

section Rows
variable {build : Build} {view : MappedView}

/-- In every state of a view that its calls can lead to, a mixed write answers exactly when the
row of its values' writes does, and a mixed read exactly when the row of reads it counts does;
they leave the same bytes, cursor and lock, and the read shows the values of the row. -/
theorem batches_are_rows {id size : Nat} {isCreator : Bool} {region start m : SegMem}
    (usize : size < 2 ^ 64)
    (built : Prog.solo SegMem.exec (new id size isCreator).run region = some (.ok view, start))
    {calls : List ViewCall} (own : ∀ c ∈ calls, isMap c = false)
    {results : List (PyResult PyValue)} (ran : session build view calls start = some (results, m)) :
    (∀ items offset last, leaves items ≠ [] → (∀ v ∈ leaves items, packValue v [] ≠ .ok []) →
      (Prog.solo SegMem.exec (viewCode build view (.writeMixed items offset)) m =
          some (.ok .none, last) ↔
        session build view (writeRow offset (leaves items)) m =
          some (List.replicate (leaves items).length (.ok .none), last))) ∧
    ∀ schema pairs result last,
      List.Forall₂ (fun item pair => schemaEntry item = .ok pair) schema pairs →
      (∀ pair ∈ pairs, pair.1 ∈ supportedTags) → (∃ pair ∈ pairs, 0 < pair.2) →
      (Prog.solo SegMem.exec (viewCode build view (.readMixed schema none)) m =
          some (.ok (.list result), last) ↔
        ∃ groups : List (List PyValue), groups.map List.length = pairs.map Prod.snd ∧
          result = groups.map shown ∧
          session build view ((tagsIn pairs).map .read) m =
            some (groups.flatten.map .ok, last)) := by
  obtain ⟨rfl, fresh, _, _, _⟩ := new_built built
  have low := session_low usize own (by simp [fresh]) ran
  constructor
  · intro items offset last present nonempty
    rw [writeMixed_placed usize, packMixed_leaves]
    obtain ⟨v, rest, split⟩ := List.exists_cons_of_ne_nil present
    rw [split] at nonempty ⊢
    exact (row_placed usize nonempty).symm
  · intro schema pairs result last entries known counted
    exact readMixed_row usize low entries known counted

omit [Target]

/-- A flag and, nested, two numbers; written from offset 1 on by one call, or by three. -/
def nestedItems : List PyValue := [.bool true, .list [.int 5, .int (-1)]]

def flagThenInts : List PyValue :=
  [.tuple [.ofString "bool", .int 1], .tuple [.ofString "int", .int 2]]

theorem batches_are_rows_nested :
    ∃ view start last after,
      Prog.solo SegMem.exec (new 0 32 true).run ⟨5, fun _ => 9, fun _ => 6⟩ =
        some (.ok view, start) ∧
      @session littleEndian .release view
        (@writeRow littleEndian (some 0) (leaves nestedItems)) start =
        some ([.ok .none, .ok .none, .ok .none], last) ∧
      ∃ groups : List (List PyValue), groups.map List.length = [1, 2] ∧
        [.bool true, .list [.int 5, .int (-1)]] = groups.map shown ∧
        @session littleEndian .release view ((tagsIn [("bool", 1), ("int", 2)]).map .read) last =
          some (groups.flatten.map .ok, after) := by
  have built : Prog.solo SegMem.exec (new 0 32 true).run ⟨5, fun _ => 9, fun _ => 6⟩ =
      some (.ok ⟨0, 32, by decide⟩, ⟨0, fun _ => 9, Function.update (fun _ => 6) 0 0⟩) := rfl
  obtain ⟨last, wrote⟩ : ∃ last, Prog.solo SegMem.exec
      (@viewCode littleEndian .release ⟨0, 32, by decide⟩ (.writeMixed nestedItems (some 0)))
        ⟨0, fun _ => 9, Function.update (fun _ => 6) 0 0⟩ = some (.ok .none, last) ∧
      ∃ after, Prog.solo SegMem.exec
        (@viewCode littleEndian .release ⟨0, 32, by decide⟩ (.readMixed flagThenInts none)) last =
          some (.ok (.list [.bool true, .list [.int 5, .int (-1)]]), after) := ⟨_, rfl, _, rfl⟩
  obtain ⟨wrote, after, read⟩ := wrote
  have ran : @session littleEndian .release ⟨0, 32, by decide⟩ [.writeMixed nestedItems (some 0)]
      ⟨0, fun _ => 9, Function.update (fun _ => 6) 0 0⟩ = some ([.ok .none], last) :=
    (@session_ok littleEndian _ _ _ _ _ _ _ _).mpr ⟨last, wrote, rfl⟩
  have nonempty : ∀ v ∈ leaves nestedItems, @packValue littleEndian v [] ≠ .ok [] := by
    intro v member
    simp only [nestedItems, leaves, List.flatMap_cons, List.flatMap_nil, List.append_nil,
      List.singleton_append, List.mem_cons, List.not_mem_nil, or_false] at member
    rcases member with rfl | rfl | rfl <;> simp [packValue, PyValue.extractI64, toNeBytes, leBytes]
  have rows := (@batches_are_rows littleEndian .release _ _ _ _ _ _ _ (by decide) built [] (by simp)
    _ rfl).1 nestedItems (some 0) last (by simp [nestedItems, leaves]) nonempty
  have reads := (@batches_are_rows littleEndian .release _ _ _ _ _ _ _ (by decide) built _
    (by simp [isMap]) _ ran).2 flagThenInts [("bool", 1), ("int", 2)]
      [.bool true, .list [.int 5, .int (-1)]] after
      (.cons (schemaEntry_tuple "bool" (by decide))
        (.cons (schemaEntry_tuple "int" (by decide)) .nil))
      (by decide) ⟨("bool", 1), by decide, by decide⟩
  exact ⟨_, _, last, after, built, rows.mp wrote, reads.mp read⟩

end Rows
end Membridge.Batches
