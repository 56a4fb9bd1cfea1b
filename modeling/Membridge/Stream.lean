import Membridge.Encoding
import Membridge.Sessions

/-!
A view as a typed stream. What a session of writes leaves in the data area is the
encodings of its values, one after the other; a session of reads that covers the
same values gets them back. How either side splits the list does not matter.
-/
namespace Membridge.Stream
open Program Python ByteOrder ByteReader Mixed Decoding Encoding Arithmetic Segment RwLock View
open ViewBounds Alone Sessions

section Values

/-- The elements of `items`, those of a sublist in its place. -/
def leaves (items : List PyValue) : List PyValue :=
  items.flatMap fun item =>
    match item with
    | .list sub => sub
    | item => [item]

/-- The values a call writes. -/
def written : ViewCall → List PyValue
  | .write data _ => [data]
  | .writeMixed items _ => leaves items
  | _ => []

/-- A write at the cursor. -/
def streams : ViewCall → Bool
  | .write _ none => true
  | .writeMixed _ none => true
  | _ => false

variable [Target]

def encoded (v : PyValue) : List UInt8 := (packValue v []).toOption.getD []

def encodeAll (values : List PyValue) : List UInt8 := values.flatMap encoded

/-- Every value has a tag and packs. -/
def Packable (values : List PyValue) : Prop := ∀ v ∈ values, Packs v (encoded v)

theorem encodeAll_append (first second : List PyValue) :
    encodeAll (first ++ second) = encodeAll first ++ encodeAll second := by
  simp [encodeAll]

theorem packed_ok {v : PyValue} {bytes : List UInt8} (packed : packValue v [] = .ok bytes) :
    encoded v = bytes := by
  rw [encoded, packed]
  rfl

theorem packable_append {first second : List PyValue} :
    Packable (first ++ second) ↔ Packable first ∧ Packable second := by
  simp only [Packable, List.mem_append]
  constructor
  · intro all
    exact ⟨fun v member => all v (.inl member), fun v member => all v (.inr member)⟩
  · rintro ⟨left, right⟩ v (member | member)
    · exact left v member
    · exact right v member

theorem packEach_ok {items : List PyValue} {bytes : List UInt8}
    (tagged : ∀ v ∈ items, tagsOf v ≠ []) (packed : packEach items [] = .ok bytes) :
    bytes = encodeAll items ∧ Packable items := by
  induction items generalizing bytes with
  | nil =>
      cases packed
      exact ⟨rfl, by simp [Packable]⟩
  | cons v rest ih =>
      simp only [packEach, bind, Except.bind] at packed
      cases first : packValue v [] with
      | error e =>
          rw [first] at packed
          cases packed
      | ok front =>
          rw [first] at packed
          dsimp only at packed
          -- what is already in the buffer does not matter to what follows
          rw [packEach_append] at packed
          cases later : packEach rest [] with
          | error e =>
              rw [later] at packed
              cases packed
          | ok back =>
              rw [later] at packed
              cases packed
              obtain ⟨rfl, packs⟩ :=
                ih (fun x member => tagged x (List.mem_cons_of_mem v member)) later
              have whole : encoded v = front := packed_ok first
              have head : Packs v (encoded v) := by
                rw [whole]
                exact packs_of_ok (tagged v List.mem_cons_self) first
              refine ⟨by simp [encodeAll, whole], ?_⟩
              intro x member
              rcases List.mem_cons.mp member with rfl | inside
              · exact head
              · exact packs x inside

theorem packEach_split (first second : List PyValue) (out : List UInt8) :
    packEach (first ++ second) out = (packEach first out).bind (packEach second) := by
  induction first generalizing out with
  | nil => rfl
  | cons v rest ih =>
      simp only [List.cons_append, packEach, bind, Except.bind]
      cases packValue v out with
      | error e => rfl
      | ok bytes => exact ih bytes

/-- Nesting does not show in the bytes. -/
theorem packMixed_leaves (items : List PyValue) :
    packMixed items = packEach (leaves items) [] := by
  have each : ∀ out, packItems items out = packEach (leaves items) out := by
    induction items with
    | nil => exact fun _ => rfl
    | cons item rest ih =>
        intro out
        have first : packItem item out = packEach (leaves [item]) out := by
          cases item with
          | list sub => simp [packItem, leaves]
          | _ => simp [packItem, leaves, packEach, bind, Except.bind]; split <;> simp_all
        have split : leaves (item :: rest) = leaves [item] ++ leaves rest := by
          simp [leaves]
        rw [split, packEach_split, ← first]
        simp only [packItems, bind, Except.bind]
        cases packItem item out with
        | error e => rfl
        | ok bytes => exact ih bytes
  exact each []

end Values

section Writes
variable [Target] {build : Build} {view : MappedView} {c : ViewCall} {m after last : SegMem}

/-- A stream write that answers without an error packed its values. -/
theorem streams_packed {value : PyValue} (at_cursor : streams c = true)
    (tagged : ∀ v ∈ written c, tagsOf v ≠ [])
    (ran : Prog.solo SegMem.exec (viewCode build view c) m = some (.ok value, after)) :
    packed c = some (encodeAll (written c), none) ∧ Packable (written c) := by
  cases c with
  | write data offset =>
      cases offset with
      | some o => cases at_cursor
      | none =>
          cases packs : packValue data [] with
          | error e =>
              simp [viewCode, viewCall, View.write, packs] at ran
          | ok bytes =>
              have whole := packed_ok packs
              refine ⟨by simp [packed, packs, Except.toOption, written, encodeAll, whole], ?_⟩
              intro v member
              obtain rfl := List.mem_singleton.mp member
              rw [whole]
              exact packs_of_ok (tagged v member) packs
  | writeMixed items offset =>
      cases offset with
      | some o => cases at_cursor
      | none =>
          cases packs : packMixed items with
          | error e =>
              simp [viewCode, viewCall, View.writeMixed, packs] at ran
          | ok bytes =>
              -- a list is packed item by item
              have each := packs
              rw [packMixed_leaves] at each
              obtain ⟨rfl, packable⟩ := packEach_ok tagged each
              exact ⟨by simp [packed, packs, Except.toOption, written], packable⟩
  | _ => cases at_cursor

/-- What a session of stream writes leaves behind: the encodings of all its values. -/
structure Written (view : MappedView) (values : List PyValue) (m last : SegMem) : Prop where
  packable : Packable values
  fits : (m.cursors view.id).toNat + (encodeAll values).length ≤ view.dataSize
  bytes : last.bytes =
    Reader.overwrite m.bytes (dataPtr (m.cursors view.id).toNat) (encodeAll values)
  cursor : (last.cursors view.id).toNat = (m.cursors view.id).toNat + (encodeAll values).length
  others : ∀ id, id ≠ view.id → last.cursors id = m.cursors id
  state : last.state = m.state
  free : values ≠ [] → m.state = 0

theorem write_leaves (usize : view.size < 2 ^ 64) {value : PyValue} (at_cursor : streams c = true)
    (tagged : ∀ v ∈ written c, tagsOf v ≠ [])
    (ran : Prog.solo SegMem.exec (viewCode build view c) m = some (.ok value, after)) :
    Written view (written c) m after := by
  obtain ⟨packs, packable⟩ := streams_packed at_cursor tagged ran
  obtain ⟨free, inside, rfl⟩ := packed_effect packs ran
  obtain ⟨_, fits⟩ := checkBounds_fits usize inside
  have small := fits_word usize fits
  refine ⟨packable, fits, rfl, ?_, ?_, rfl, fun _ => free⟩
  · simp only [Option.getD_none] at small
    simp only [advanced, Option.isNone_none, if_true, Function.update_self, BitVec.toNat_add,
      BitVec.toNat_ofNat, Nat.add_mod_mod]
    exact Nat.mod_eq_of_lt small
  · intro id other
    simp [advanced, other]

theorem writes_leave (usize : view.size < 2 ^ 64) {calls : List ViewCall}
    (at_cursor : ∀ c ∈ calls, streams c = true)
    (tagged : ∀ v ∈ calls.flatMap written, tagsOf v ≠ [])
    (low : (m.cursors view.id).toNat ≤ view.dataSize)
    {results : List (PyResult PyValue)} (ok : ∀ r ∈ results, r.isOk = true)
    (ran : session build view calls m = some (results, last)) :
    Written view (calls.flatMap written) m last := by
  induction calls generalizing m results with
  | nil =>
      cases ran
      exact ⟨by simp [Packable], low, rfl, rfl, fun _ _ => rfl, rfl, fun said => absurd rfl said⟩
  | cons c rest ih =>
      obtain ⟨result, after, more, first, later, rfl⟩ := session_cons ran
      rw [List.flatMap_cons] at tagged ⊢
      cases result with
      | error e => cases ok _ List.mem_cons_self
      | ok value =>
          -- the first write, then the rest from where it left the cursor
          have one := write_leaves usize (at_cursor c List.mem_cons_self)
            (fun v member => tagged v (List.mem_append_left _ member)) first
          have low : (after.cursors view.id).toNat ≤ view.dataSize := by
            rw [one.cursor]
            exact one.fits
          have all := ih (fun x member => at_cursor x (List.mem_cons_of_mem c member))
            (fun v member => tagged v (List.mem_append_right _ member)) low
            (fun r member => ok r (List.mem_cons_of_mem _ member)) later
          refine ⟨packable_append.mpr ⟨one.packable, all.packable⟩, ?_, ?_, ?_, ?_, ?_, ?_⟩
          · have fits := all.fits
            rw [one.cursor] at fits
            rw [encodeAll_append, List.length_append]
            omega
          · rw [all.bytes, one.bytes, one.cursor, encodeAll_append, Reader.overwrite_append]
            simp only [dataPtr, Nat.add_assoc]
          · rw [all.cursor, one.cursor, encodeAll_append, List.length_append, Nat.add_assoc]
          · exact fun id other => (all.others id other).trans (one.others id other)
          · exact all.state.trans one.state
          · intro nonempty
            -- a call that writes nothing leaves it to the rest to show the lock free
            by_cases silent : written c = []
            · have more : rest.flatMap written ≠ [] := by
                rw [silent, List.nil_append] at nonempty
                exact nonempty
              exact one.state.symm.trans (all.free more)
            · exact one.free silent

end Writes

section Reads

theorem schemaEntry_pair (first second : PyValue) :
    schemaEntry (.tuple [first, second]) =
      first.extractString.bind fun tag => second.extractUsize.bind fun count => .ok (tag, count) :=
        rfl

/-- An entry as a caller writes it. -/
theorem schemaEntry_tuple (tag : String) {count : Nat} (fits : count < 2 ^ 64) :
    schemaEntry (.tuple [.ofString tag, .int count]) = .ok (tag, count) := by
  rw [schemaEntry_pair, extractString_ofString, extractUsize_nat count fits]
  rfl

/-- The tags that a schema entry may have. -/
def supportedTags : List String :=
  ["bool", "u8", "f32", "i32", "u32", "int", "i64", "float", "f64", "u64", "str"]

/-- How an entry shows its values: one alone as it is, any other number as a list. -/
def shown : List PyValue → PyValue
  | [v] => v
  | group => .list group

/-- A schema that covers the values, entry by entry, and what it shows of them. -/
inductive Entries : List PyValue → List PyValue → List PyValue → Prop where
  | nil : Entries [] [] []
  | cons {item : PyValue} {tag : String} {group rest values result : List PyValue}
      (entry : schemaEntry item = .ok (tag, group.length)) (known : tag ∈ supportedTags)
      (types : ∀ v ∈ group, tag ∈ tagsOf v) (more : Entries rest values result) :
      Entries (item :: rest) (group ++ values) (shown group :: result)

/-- Calls that read the values in order, each at least one of them, and their results. -/
inductive ReadsBack : List ViewCall → List PyValue → List (PyResult PyValue) → Prop where
  | nil : ReadsBack [] [] []
  | read {tag : String} {v : PyValue} {rest : List ViewCall} {values : List PyValue}
      {results : List (PyResult PyValue)} (type : tag ∈ tagsOf v)
      (more : ReadsBack rest values results) :
      ReadsBack (.read tag :: rest) (v :: values) (.ok v :: results)
  | readMixed {schema group result : List PyValue} {rest : List ViewCall} {values : List PyValue}
      {results : List (PyResult PyValue)} (entries : Entries schema group result)
      (nonempty : group ≠ []) (more : ReadsBack rest values results) :
      ReadsBack (.readMixed schema none :: rest) (group ++ values) (.ok (.list result) :: results)

variable [Target] {build : Build} {view : MappedView} {mem : Nat → UInt8} {len : Nat}

theorem supported {tag : String} (known : tag ∈ supportedTags) :
    ∃ one, repetition len tag = some one := by
  simp only [supportedTags, List.mem_cons, List.not_mem_nil, or_false] at known
  rcases known with rfl | rfl | rfl | rfl | rfl | rfl | rfl | rfl | rfl | rfl | rfl <;>
    exact ⟨_, rfl⟩

/-- The repetitions of one entry read the group that lies at the cursor. -/
theorem repeated_back {tag : String} {one : Nat → Decoder (PyValue × Nat)} {group : List PyValue}
    (known : repetition len tag = some one) (types : ∀ v ∈ group, tag ∈ tagsOf v)
    (packable : Packable group) (small : len ≤ 2 ^ 32) (before : List PyValue) {cursor : Nat}
    (there : Reader.span mem cursor (encodeAll group).length = encodeAll group)
    (fits : cursor + (encodeAll group).length ≤ len) :
    decode mem (repeated one group.length before cursor) =
      .ok (before ++ group, cursor + (encodeAll group).length) := by
  induction group generalizing before cursor with
  | nil => simp [repeated, encodeAll]
  | cons v rest ih =>
      have split : encodeAll (v :: rest) = encoded v ++ encodeAll rest := by
        simp [encodeAll]
      rw [split] at there fits ⊢
      obtain ⟨front, back⟩ := Reader.span_split there
      rw [List.length_append] at fits ⊢
      obtain ⟨one', same, first⟩ := repetition_back (packable v List.mem_cons_self)
        (types v List.mem_cons_self) front (by omega) small
      rw [known, Option.some.injEq] at same
      subst same
      simp only [List.length_cons, repeated, decode_bind, first, Except.bind]
      rw [ih (fun x member => types x (List.mem_cons_of_mem v member))
        (fun x member => packable x (List.mem_cons_of_mem v member))
          (before ++ [v]) back (by omega)]
      simp [Nat.add_assoc]

omit [Target] in
theorem entryValue_shown (group : List PyValue) : entryValue group.length group =
    .ok (shown group) := by
  match group with
  | [] => rfl
  | [v] => rfl
  | v :: x :: rest => simp [entryValue, shown]

theorem entries_back {schema group result : List PyValue} (entries : Entries schema group result)
    (packable : Packable group) (small : len ≤ 2 ^ 32) (before : List PyValue) {cursor : Nat}
    (there : Reader.span mem cursor (encodeAll group).length = encodeAll group)
    (fits : cursor + (encodeAll group).length ≤ len) :
    decode mem (unpackEntries len schema before cursor) =
      .ok (before ++ result, cursor + (encodeAll group).length) := by
  induction entries generalizing before cursor with
  | nil => simp [unpackEntries, encodeAll]
  | @cons item tag group rest values result entry known types more ih =>
      rw [encodeAll_append] at there fits ⊢
      obtain ⟨front, back⟩ := Reader.span_split there
      rw [List.length_append] at fits ⊢
      obtain ⟨here, later⟩ := packable_append.mp packable
      have listed : ∃ one, repetition len tag = some one := supported known
      obtain ⟨one, table⟩ := listed
      simp only [unpackEntries, decode_bind, entry, decode_ok, Except.bind, table]
      rw [repeated_back table types here small [] front (by omega)]
      simp only [List.nil_append, entryValue_shown, decode_ok]
      rw [ih later (before ++ [shown group]) back (by omega)]
      simp [Nat.add_assoc]

/-- A view whose cursor is where the encodings of `values` begin. -/
structure Ahead (view : MappedView) (values : List PyValue) (m : SegMem) : Prop where
  free : m.state = 0
  packable : Packable values
  there : Reader.span m.bytes (dataPtr (m.cursors view.id).toNat) (encodeAll values).length =
    encodeAll values
  fits : (m.cursors view.id).toNat + (encodeAll values).length ≤ view.dataSize

/-- Only the cursor of `view` moved, by `n`. -/
structure Passed (view : MappedView) (n : Nat) (m last : SegMem) : Prop where
  bytes : last.bytes = m.bytes
  state : last.state = m.state
  cursor : (last.cursors view.id).toNat = (m.cursors view.id).toNat + n
  others : ∀ id, id ≠ view.id → last.cursors id = m.cursors id

omit [Target] in
theorem advanced_passed {m : SegMem} {n : Nat} (usize : view.size < 2 ^ 64)
    (fits : (m.cursors view.id).toNat + n ≤ view.dataSize) :
    Passed view n m (advanced view none n m) := by
  refine ⟨rfl, rfl, ?_, ?_⟩
  · have small := fits_word usize fits
    simp only [advanced, Option.isNone_none, if_true, Function.update_self, BitVec.toNat_add,
      BitVec.toNat_ofNat, Nat.add_mod_mod]
    exact Nat.mod_eq_of_lt small
  · intro id other
    simp [advanced, other]

omit [Target] in
theorem Passed.trans {m after last : SegMem} {k n : Nat} (first : Passed view k m after)
    (second : Passed view n after last) : Passed view (k + n) m last := by
  refine ⟨second.bytes.trans first.bytes, second.state.trans first.state, ?_, ?_⟩
  · rw [second.cursor, first.cursor, Nat.add_assoc]
  · exact fun id other => (second.others id other).trans (first.others id other)

/-- After the first values the rest are ahead. -/
theorem Ahead.next {group values : List PyValue} {m after : SegMem}
    (ahead : Ahead view (group ++ values) m)
    (passed : Passed view (encodeAll group).length m after) : Ahead view values after := by
  obtain ⟨free, packable, there, fits⟩ := ahead
  rw [encodeAll_append] at there fits
  rw [List.length_append] at fits
  refine ⟨passed.state.trans free, (packable_append.mp packable).2, ?_, ?_⟩
  · rw [passed.bytes, passed.cursor]
    have back := (Reader.span_split there).2
    rw [dataPtr, Nat.add_assoc] at back
    exact back
  · rw [passed.cursor]
    omega

/-- The first values, where a decoder on the rest of the data area finds them. -/
theorem Ahead.front {group values : List PyValue} {m : SegMem}
    (ahead : Ahead view (group ++ values) m) :
    Packable group ∧
      Reader.span (fun index => m.bytes (dataPtr (m.cursors view.id).toNat + index)) 0
        (encodeAll group).length = encodeAll group ∧
      (m.cursors view.id).toNat + (encodeAll group).length ≤ view.dataSize := by
  obtain ⟨free, packable, there, fits⟩ := ahead
  rw [encodeAll_append] at there fits
  rw [List.length_append] at fits
  refine ⟨(packable_append.mp packable).1, ?_, by omega⟩
  rw [Reader.span_shift]
  exact (Reader.span_split there).1

theorem read_back {tag : String} {v : PyValue} {values : List PyValue} {m : SegMem}
    (usize : view.size < 2 ^ 64) (small : view.dataSize ≤ 2 ^ 32) (type : tag ∈ tagsOf v)
    (ahead : Ahead view ([v] ++ values) m) :
    Prog.solo SegMem.exec (viewCode build view (.read tag)) m =
      some (.ok v, advanced view none (encodeAll [v]).length m) := by
  obtain ⟨packable, there, fits⟩ := ahead.front
  have one : encodeAll [v] = encoded v := by simp [encodeAll]
  rw [one] at there fits ⊢
  change Prog.solo SegMem.exec (View.read build view tag).run m = _
  rw [read_alone build tag usize (by omega), ahead.free, if_pos (by decide),
    unpackOne_back (packable v List.mem_cons_self) type there (by omega) (by omega)]

theorem readMixed_back {schema group result values : List PyValue} {m : SegMem}
    (small : view.dataSize ≤ 2 ^ 32) (entries : Entries schema group result) (nonempty : group ≠ [])
    (ahead : Ahead view (group ++ values) m) :
    Prog.solo SegMem.exec (viewCode build view (.readMixed schema none)) m =
      .some (.ok (.list result), advanced view none (encodeAll group).length m) := by
  obtain ⟨packable, there, fits⟩ := ahead.front
  have positive : 0 < (encodeAll group).length := by
    obtain ⟨v, rest, rfl⟩ := List.exists_cons_of_ne_nil nonempty
    have front := (packable v List.mem_cons_self).pos
    simp only [encodeAll, List.flatMap_cons, List.length_append]
    omega
  simp only [viewCode, viewCall, Prog.run_bind, Prog.solo_bind]
  rw [readMixed_alone, ahead.free]
  simp only [Option.getD_none]
  rw [if_neg (by omega), if_pos (by decide)]
  simp only [unpackMixedCounted]
  rw [entries_back entries packable (by omega) [] there (by omega)]
  simp

/-- A session of reads gets back the values that lie ahead, and its cursor ends behind them. -/
theorem reads_back (usize : view.size < 2 ^ 64) (small : view.dataSize ≤ 2 ^ 32)
    {calls : List ViewCall} {values : List PyValue} {results : List (PyResult PyValue)}
    (reading : ReadsBack calls values results) {m : SegMem} (ahead : Ahead view values m) :
    ∃ last, session build view calls m = some (results, last) ∧
      Passed view (encodeAll values).length m last := by
  induction reading generalizing m with
  | nil => exact ⟨m, rfl, rfl, rfl, rfl, fun _ _ => rfl⟩
  | @read tag v rest values results type more ih =>
      have here : Ahead view ([v] ++ values) m := ahead
      have passed := advanced_passed usize here.front.2.2
      obtain ⟨last, later, behind⟩ := ih (here.next passed)
      refine ⟨last, ?_, ?_⟩
      · simp [session, read_back usize small type ahead, later]
      · rw [← List.singleton_append, encodeAll_append, List.length_append]
        exact passed.trans behind
  | readMixed entries some more ih =>
      have passed := advanced_passed usize ahead.front.2.2
      obtain ⟨last, later, behind⟩ := ih (ahead.next passed)
      refine ⟨last, ?_, ?_⟩
      · simp [session, readMixed_back small entries some ahead, later]
      · rw [encodeAll_append, List.length_append]
        exact passed.trans behind

end Reads

section RoundTrip
variable [Target] {build : Build} {W R : MappedView}

/-- The view is fresh when the reads begin: unused since before `start`, or made of `mid`. -/
def Opened (view : MappedView) (start mid after : SegMem) : Prop :=
  start.cursors view.id = 0 ∧ after = mid ∨
    ∃ isCreator, Prog.solo SegMem.exec (new view.id view.size isCreator).run mid =
      some (.ok view, after)

/-- Whatever a fresh view writes at its cursor, another fresh view reads back: split into
other calls, under either tag of each type, whatever bytes follow. Both cursors end behind
the encodings. -/
theorem stream_round_trip (apart : W.id ≠ R.id) (same : R.size = W.size)
    (small : W.dataSize ≤ 2 ^ 32) {start mid after : SegMem} (fresh : start.cursors W.id = 0)
    {values : List PyValue} (nonempty : values ≠ []) (typed : ∀ v ∈ values, tagsOf v ≠ [])
    {writes : List ViewCall} (at_cursor : ∀ c ∈ writes, streams c = true)
    (split : writes.flatMap written = values) {results : List (PyResult PyValue)}
    (wrote : session build W writes start = .some (results, mid))
    (ok : ∀ r ∈ results, r.isOk = true) (opened : Opened R start mid after)
    {reads : List ViewCall} {expected : List (PyResult PyValue)}
    (reading : ReadsBack reads values expected) :
    ∃ last, session build R reads after = .some (expected, last) ∧
      Prog.solo SegMem.exec (viewCode build R .tell) last =
        .some (.ok (.int (values.map fun v => (encoded v).length).sum), last) ∧
      Prog.solo SegMem.exec (viewCode build W .tell) last =
        .some (.ok (.int (values.map fun v => (encoded v).length).sum), last) := by
  subst split
  have wide : W.size < 2 ^ 64 := by
    rw [MappedView.dataSize, rwlockSize] at small
    omega
  have data : R.dataSize = W.dataSize := by
    rw [MappedView.dataSize, MappedView.dataSize, same]
  have start_zero : (start.cursors W.id).toNat = 0 := by
    rw [fresh]
    rfl
  have left := writes_leave wide at_cursor typed (by omega) ok wrote
  have free : mid.state = 0 := left.state.trans (left.free nonempty)
  have total : (encodeAll (writes.flatMap written)).length =
      ((writes.flatMap written).map fun v => (encoded v).length).sum := by
    simp [encodeAll, List.length_flatMap]
  -- the second view is at zero, the bytes and the first view's cursor as they were left
  obtain ⟨zero, bytes, state, cursor⟩ : after.cursors R.id = 0 ∧ after.bytes = mid.bytes ∧
      after.state = 0 ∧ after.cursors W.id = mid.cursors W.id := by
    rcases opened with ⟨unused, rfl⟩ | ⟨isCreator, built⟩
    · exact ⟨(left.others R.id apart.symm).trans unused, rfl, free, rfl⟩
    · obtain ⟨_, zero, bytes, state, others⟩ := new_built built
      refine ⟨zero, bytes, ?_, others W.id apart⟩
      rw [state]
      split
      · rfl
      · exact free
  have ahead : Ahead R (writes.flatMap written) after := by
    refine ⟨state, left.packable, ?_, ?_⟩
    · rw [bytes, left.bytes, zero, start_zero]
      exact Reader.span_overwrite _ _ _
    · have fits := left.fits
      rw [start_zero] at fits
      rw [zero, data]
      exact fits
  obtain ⟨last, ran, passed⟩ := reads_back (same ▸ wide) (data ▸ small) reading ahead
  have readCursor : (last.cursors R.id).toNat = ((writes.flatMap written).map fun v =>
      (encoded v).length).sum := by
    rw [passed.cursor, zero, ← total]
    exact Nat.zero_add _
  have writeCursor : (last.cursors W.id).toNat = ((writes.flatMap written).map fun v =>
      (encoded v).length).sum := by
    rw [passed.others W.id apart, cursor, left.cursor, start_zero, ← total]
    exact Nat.zero_add _
  refine ⟨last, ran, ?_, ?_⟩
  · rw [← readCursor]
    rfl
  · rw [← writeCursor]
    rfl

omit [Target]

/-- Three calls write a flag, a number nested with a word, and a float. -/
def threeWrites : List ViewCall :=
  [.write (.bool true) none, .writeMixed [.list [.int (-2), .str [.scalar 'h']]] none,
    .write (.float 7) none]

/-- Two calls read them, the first three at once. -/
def twoReads : List ViewCall :=
  [.readMixed [.tuple [.ofString "bool", .int 1], .tuple [.ofString "i64", .int 1],
    .tuple [.ofString "str", .int 1]] none, .read "f64"]

theorem stream_round_trip_threeWrites :
    ∃ mid last, @session littleEndian .release ⟨0, 64, by decide⟩ threeWrites
        ⟨0, fun _ => 9, fun _ => 0⟩ = some ([.ok .none, .ok .none, .ok .none], mid) ∧
      @session littleEndian .release ⟨1, 64, by decide⟩ twoReads mid =
        some ([.ok (.list [.bool true, .int (-2), .str [.scalar 'h']]), .ok (.float 7)], last) := by
  obtain ⟨mid, wrote⟩ : ∃ mid, @session littleEndian .release ⟨0, 64, by decide⟩ threeWrites
      ⟨0, fun _ => 9, fun _ => 0⟩ = some ([.ok .none, .ok .none, .ok .none], mid) := ⟨_, rfl⟩
  have entries : Entries [.tuple [.ofString "bool", .int 1], .tuple [.ofString "i64", .int 1],
      .tuple [.ofString "str", .int 1]]
      ([.bool true] ++ ([.int (-2)] ++ ([.str [.scalar 'h']] ++ [])))
      [.bool true, .int (-2), .str [.scalar 'h']] :=
    .cons (schemaEntry_tuple "bool" (by decide)) (by decide) (by simp [tagsOf]) <|
      .cons (schemaEntry_tuple "i64" (by decide)) (by decide) (by simp [tagsOf]) <|
        .cons (schemaEntry_tuple "str" (by decide)) (by decide) (by simp [tagsOf]) .nil
  have reading : ReadsBack twoReads
      (([.bool true] ++ ([.int (-2)] ++ ([.str [.scalar 'h']] ++ []))) ++ [.float 7])
      [.ok (.list [.bool true, .int (-2), .str [.scalar 'h']]), .ok (.float 7)] :=
    .readMixed entries (by simp) (.read (by simp [tagsOf]) .nil)
  obtain ⟨last, ran, _⟩ := @stream_round_trip littleEndian .release ⟨0, 64, by decide⟩
    ⟨1, 64, by decide⟩ (by decide) rfl (by decide) _ mid mid rfl _
    (by simp [threeWrites, written]) (by simp [threeWrites, written, leaves, tagsOf])
    threeWrites (by simp [threeWrites, streams]) rfl _ wrote (by simp [Except.isOk, Except.toBool])
    (.inl ⟨rfl, rfl⟩) _ _ reading
  exact ⟨mid, last, wrote, ran⟩

end RoundTrip
end Membridge.Stream
