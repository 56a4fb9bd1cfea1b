import Membridge.Batches

/-!
What `unpack_mixed_counted` gives, packed again. The decoders admit more than the
encoders write: a `bool` byte of any value, text that is no UTF-8, widths that
Python does not keep. Packing brings all that to one form.
-/
namespace Membridge.Reencoding
open Python ByteOrder ByteReader Mixed Decoding DecodeBounds Encoding Membridge.Stream
open DecoderAgreement Batches

section Text

theorem encode_length_cons (c : Char) (chars : List Char) :
    (Utf8.encode (c :: chars)).length = c.utf8Size + (Utf8.encode chars).length := by
  rw [Utf8.encode_cons, List.length_append, String.length_utf8EncodeChar]

theorem malformedLength_bounds (bytes : List UInt8) :
    0 < Utf8.malformedLength bytes ∧ Utf8.malformedLength bytes ≤ 3 := by
  unfold Utf8.malformedLength
  split <;> (repeat' split) <;> omega

/-- Each U+FFFD is at least as long as what it replaces. -/
theorem decodeFrom_grows (fuel : Nat) (bytes : List UInt8) (enough : bytes.length ≤ fuel) :
    bytes.length ≤ (Utf8.encode (Utf8.decodeFrom fuel bytes)).length := by
  induction fuel generalizing bytes with
  | zero => omega
  | succ fuel ih =>
      cases bytes with
      | nil => exact Nat.zero_le _
      | cons byte rest =>
          have step : ∀ {c : Char} {size : Nat}, size ≤ c.utf8Size → 0 < size →
              (byte :: rest).length ≤
                (Utf8.encode (c :: Utf8.decodeFrom fuel ((byte :: rest).drop size))).length := by
            intro c size wide positive
            have later := ih ((byte :: rest).drop size) (by rw [List.length_drop]; omega)
            rw [List.length_drop] at later
            rw [encode_length_cons]
            omega
          simp only [Utf8.decodeFrom]
          split
          · next c _ => exact step (Nat.le_refl _) c.utf8Size_pos
          · obtain ⟨positive, short⟩ := malformedLength_bounds (byte :: rest)
            exact step (by rw [show '\uFFFD'.utf8Size = 3 from rfl]; exact short) positive

theorem lossy_grows (bytes : List UInt8) :
    bytes.length ≤ (Utf8.encode (Utf8.fromUtf8Lossy bytes)).length :=
  decodeFrom_grows _ _ (Nat.le_refl _)

/-- Decoding loses nothing exactly if the bytes are UTF-8. -/
theorem lossy_exact (bytes : List UInt8) :
    Utf8.encode (Utf8.fromUtf8Lossy bytes) = bytes ↔ ∃ chars, Utf8.encode chars = bytes := by
  constructor
  · exact fun same => ⟨_, same⟩
  · rintro ⟨chars, rfl⟩
    rw [Utf8.fromUtf8Lossy_encode]

end Text

section Words

theorem leBytes_leValue (bytes : List UInt8) : leBytes bytes.length (leValue bytes) = bytes := by
  induction bytes with
  | nil => rfl
  | cons byte rest ih =>
      have small : byte.toNat < 256 := byte.toNat_lt
      have digit : (byte.toNat + 256 * leValue rest) % 256 = byte.toNat := by omega
      have rest' : (byte.toNat + 256 * leValue rest) / 256 = leValue rest := by omega
      rw [List.length_cons, leValue, leBytes, digit, rest', ih]
      simp

variable [Target]

theorem toNeBytes_fromNeBytes (bytes : List UInt8) :
    toNeBytes bytes.length (fromNeBytes bytes) = bytes := by
  unfold toNeBytes fromNeBytes
  split
  · have back := leBytes_leValue bytes.reverse
    rw [List.length_reverse] at back
    rw [back, List.reverse_reverse]
  · exact leBytes_leValue bytes

end Words

section Values
variable [Target] {mem : Nat → UInt8} {len : Nat} {tag : String}
  {v : PyValue} {n : Nat} {raw bytes : List UInt8}

/-- Bytes that are what packing the value read from them gives. -/
def Canonical (tag : String) (raw : List UInt8) : Prop :=
  match tag with
  | "bool" => raw = [0] ∨ raw = [1]
  | "int" => True
  | "i64" => True
  | "u64" => True
  | "float" => True
  | "f64" => True
  | "str" => ∃ chars, Utf8.encode chars = raw.drop 4
  | _ => False

/-- The tag under which the packed value is read back. -/
def packedTag (tag : String) : String :=
  match tag with
  | "u8" => "int"
  | "i32" => "int"
  | "u32" => "int"
  | "u64" => "int"
  | "f32" => "float"
  | tag => tag

/-- All ints that a decoder gives have an `i64`, but for the upper half of `u64`. -/
def InRange (v : PyValue) : Prop := ∀ i, v = .int i → i < 2 ^ 63

/-- A value read under `tag` from `raw`, when it is packed again. -/
structure Repacks (tag : String) (raw : List UInt8) (v : PyValue) : Prop where
  tagged : packedTag tag ∈ tagsOf v
  packs : (∃ bytes, packValue v [] = .ok bytes) ↔ InRange v
  grows : ∀ bytes, packValue v [] = .ok bytes → raw.length ≤ bytes.length
  same : ∀ bytes, packValue v [] = .ok bytes → (bytes = raw ↔ Canonical tag raw)

theorem repacks_bool (byte : UInt8) : Repacks "bool" [byte] (.bool (fromNeBytes [byte] != 0)) := by
  have value : fromNeBytes [byte] = byte.toNat := by
    simp [fromNeBytes, leValue]
  have packed : packValue (.bool (fromNeBytes [byte] != 0)) [] =
    .ok [if byte = 0 then 0 else 1] := by
    rw [value]
    by_cases zero : byte = 0
    · subst zero
      rfl
    · have nonzero : byte.toNat ≠ 0 := fun same => zero (UInt8.toNat_inj.mp same)
      simp [packValue, zero, nonzero]
  refine ⟨List.mem_singleton.mpr rfl, ?_, ?_, ?_⟩
  · exact ⟨fun _ => by rintro i ⟨⟩, fun _ => ⟨_, packed⟩⟩
  · intro bytes same
    cases packed.symm.trans same
    exact Nat.le_refl _
  · intro bytes same
    cases packed.symm.trans same
    change _ ↔ [byte] = [0] ∨ [byte] = [1]
    by_cases zero : byte = 0
    · simp [zero]
    · simp [zero, eq_comm]

/-- An int read from fewer than eight bytes is packed in eight. -/
theorem repacks_int {i : Int} (small : packedTag tag = "int") (short : raw.length < 8)
    (never : ¬ Canonical tag raw) (low : -2 ^ 63 ≤ i) (high : i < 2 ^ 63) :
    Repacks tag raw (.int i) := by
  have packed : packValue (.int i) [] = .ok (toNeBytes 8 (BitVec.ofInt 64 i).toNat) := by
    simp only [packValue, PyValue.extractI64, if_pos (And.intro low high)]
    rfl
  refine ⟨by simp [small, tagsOf], ?_, ?_, ?_⟩
  · refine ⟨fun _ => ?_, fun _ => ⟨_, packed⟩⟩
    rintro _ ⟨⟩
    exact high
  · intro bytes same
    cases packed.symm.trans same
    rw [toNeBytes_length]
    omega
  · intro bytes same
    cases packed.symm.trans same
    refine ⟨fun equal => ?_, fun canonical => absurd canonical never⟩
    have length := congrArg List.length equal
    rw [toNeBytes_length] at length
    omega

/-- Eight bytes that are packed as they were read. -/
theorem repacks_exact (tagged : packedTag tag ∈ tagsOf v) (canonical : Canonical tag raw)
    (packs : (∃ bytes, packValue v [] = .ok bytes) ↔ InRange v)
    (whole : ∀ bytes, packValue v [] = .ok bytes → bytes = raw) : Repacks tag raw v := by
  refine ⟨tagged, packs, ?_, ?_⟩
  · intro bytes packed
    rw [whole bytes packed]
  · exact fun bytes packed => ⟨fun _ => canonical, fun _ => whole bytes packed⟩

theorem raw_word (width : raw.length = 8) : fromNeBytes raw < 2 ^ 64 ∧
    toNeBytes 8 (fromNeBytes raw) = raw := by
  constructor
  · have small := fromNeBytes_lt raw
    rw [width] at small
    exact small
  · rw [← width]
    exact toNeBytes_fromNeBytes raw

theorem repacks_i64 (width : raw.length = 8)
    (tagged : packedTag tag ∈ tagsOf (ofI64 (fromNeBytes raw)))
    (canonical : Canonical tag raw) : Repacks tag raw (ofI64 (fromNeBytes raw)) := by
  obtain ⟨small, back⟩ := raw_word width
  have low := BitVec.le_toInt (BitVec.ofNat 64 (fromNeBytes raw))
  have high := BitVec.toInt_lt (x := BitVec.ofNat 64 (fromNeBytes raw))
  have packed : packValue (ofI64 (fromNeBytes raw)) [] = .ok raw := by
    simp only [packValue, ofI64, PyValue.extractI64]
    rw [if_pos ⟨low, high⟩]
    change Except.ok
      (toNeBytes 8 (BitVec.ofInt 64 (BitVec.ofNat 64 (fromNeBytes raw)).toInt).toNat) = _
    rw [BitVec.ofInt_toInt, BitVec.toNat_ofNat, Nat.mod_eq_of_lt small, back]
  refine repacks_exact tagged canonical ⟨fun _ => ?_, fun _ => ⟨_, packed⟩⟩ ?_
  · rintro _ ⟨⟩
    exact high
  · intro bytes same
    cases packed.symm.trans same
    rfl

theorem repacks_f64 (width : raw.length = 8)
    (tagged : packedTag tag ∈ tagsOf (ofF64 (fromNeBytes raw)))
    (canonical : Canonical tag raw) : Repacks tag raw (ofF64 (fromNeBytes raw)) := by
  obtain ⟨small, back⟩ := raw_word width
  have packed : packValue (ofF64 (fromNeBytes raw)) [] = .ok raw := by
    simp only [packValue, ofF64, List.nil_append]
    rw [BitVec.toNat_ofNat, Nat.mod_eq_of_lt small, back]
  refine repacks_exact tagged canonical ⟨fun _ => ?_, fun _ => ⟨_, packed⟩⟩ ?_
  · rintro _ ⟨⟩
  · intro bytes same
    cases packed.symm.trans same
    rfl

/-- The upper half of `u64` is no `i64`; the lower half has the same bytes. -/
theorem repacks_u64 (width : raw.length = 8) :
    Repacks "u64" raw (ofUnsigned (fromNeBytes raw)) := by
  obtain ⟨small, back⟩ := raw_word width
  have nonneg : (-2 ^ 63 : Int) ≤ (fromNeBytes raw : Int) := by omega
  have packed : ∀ below : (fromNeBytes raw : Int) < 2 ^ 63,
      packValue (ofUnsigned (fromNeBytes raw)) [] = .ok raw := by
    intro below
    simp only [packValue, ofUnsigned, PyValue.extractI64]
    rw [if_pos ⟨nonneg, below⟩]
    change Except.ok (toNeBytes 8 (BitVec.ofInt 64 (fromNeBytes raw : Int)).toNat) = _
    rw [BitVec.ofInt_natCast, BitVec.toNat_ofNat, Nat.mod_eq_of_lt small, back]
  have only : ∀ bytes, packValue (ofUnsigned (fromNeBytes raw)) [] = .ok bytes →
      (fromNeBytes raw : Int) < 2 ^ 63 := by
    intro bytes same
    by_contra above
    simp only [packValue, ofUnsigned, PyValue.extractI64] at same
    rw [if_neg fun both => above both.2] at same
    cases same
  refine repacks_exact (by simp [packedTag, ofUnsigned, tagsOf]) trivial ⟨?_, ?_⟩ ?_
  · rintro ⟨bytes, same⟩ _ ⟨⟩
    exact only bytes same
  · exact fun fits => ⟨raw, packed (fits _ rfl)⟩
  · intro bytes same
    cases (packed (only bytes same)).symm.trans same
    rfl

/-- A float of 32 bits is packed in 64. -/
theorem repacks_f32 (width : raw.length = 4) : Repacks "f32" raw (ofF32 (fromNeBytes raw)) := by
  have packed : packValue (ofF32 (fromNeBytes raw)) [] =
      .ok (toNeBytes 8 (Target.f32AsF64 (BitVec.ofNat 32 (fromNeBytes raw))).toNat) := rfl
  refine ⟨by simp [packedTag, ofF32, tagsOf], ?_, ?_, ?_⟩
  · refine ⟨fun _ => ?_, fun _ => ⟨_, packed⟩⟩
    rintro _ ⟨⟩
  · intro bytes same
    cases packed.symm.trans same
    rw [toNeBytes_length]
    omega
  · intro bytes same
    cases packed.symm.trans same
    refine ⟨fun equal => ?_, fun canonical => canonical.elim⟩
    have length := congrArg List.length equal
    rw [toNeBytes_length] at length
    omega

/-- A string, its length in front. -/
theorem repacks_str {front content : List UInt8} (header : front.length = 4)
    (size : fromNeBytes front = content.length) :
    Repacks "str" (front ++ content) (ofLossy content) := by
  have short : content.length < 2 ^ 32 := by
    have small := fromNeBytes_lt front
    rw [header, size] at small
    exact small
  have packed : packValue (ofLossy content) [] =
      .ok (toNeBytes 4 ((Utf8.encode (Utf8.fromUtf8Lossy content)).length % 2 ^ 32) ++
        Utf8.encode (Utf8.fromUtf8Lossy content)) := by
    simp [packValue, ofLossy, bind, Except.bind, pure, Except.pure]
  refine ⟨by simp [packedTag, ofLossy, tagsOf], ?_, ?_, ?_⟩
  · refine ⟨fun _ => ?_, fun _ => ⟨_, packed⟩⟩
    rintro _ ⟨⟩
  · intro bytes same
    cases packed.symm.trans same
    have grows := lossy_grows content
    rw [List.length_append, List.length_append, toNeBytes_length]
    omega
  · intro bytes same
    cases packed.symm.trans same
    have behind : (front ++ content).drop 4 = content := List.drop_left' header
    change _ ↔ ∃ chars, Utf8.encode chars = (front ++ content).drop 4
    rw [behind, ← lossy_exact]
    constructor
    · intro equal
      exact (List.append_inj equal (by rw [toNeBytes_length, header])).2
    · intro exact_
      have back := toNeBytes_fromNeBytes front
      rw [header, size] at back
      rw [exact_, Nat.mod_eq_of_lt short, back]

theorem readFixed_value {size : Nat} {make : Nat → PyValue}
    (decoded : decode mem (readFixed len tag size make) = .ok (v, n)) :
    n = size ∧ v = make (fromNeBytes (Reader.span mem 0 size)) := by
  rw [decode_readFixed] at decoded
  split at decoded
  · cases decoded
  · cases decoded
    exact ⟨rfl, rfl⟩

theorem span_number_lt (mem : Nat → UInt8) (size : Nat) :
    fromNeBytes (Reader.span mem 0 size) < 256 ^ size := by
  have small := fromNeBytes_lt (Reader.span mem 0 size)
  rw [Reader.span_length] at small
  exact small

/-- A value that was read, packed again: each arm of `unpack_one`. -/
theorem unpackOne_repacks (decoded : decode mem (unpackOne len tag) = .ok (v, n)) :
    Repacks tag (Reader.span mem 0 n) v := by
  have known := unpackOne_supported decoded
  simp only [supportedTags, List.mem_cons, List.not_mem_nil, or_false] at known
  have small := span_number_lt mem
  rcases known with rfl | rfl | rfl | rfl | rfl | rfl | rfl | rfl | rfl | rfl | rfl
  · rw [decode_bool] at decoded
    split at decoded
    · cases decoded
    · cases decoded
      exact repacks_bool (mem 0)
  · obtain ⟨rfl, rfl⟩ := readFixed_value decoded
    have bound := small 1
    exact repacks_int rfl (by simp) (fun canonical => canonical) (by omega) (by omega)
  · obtain ⟨rfl, rfl⟩ := readFixed_value decoded
    exact repacks_f32 (Reader.span_length mem 0 4)
  · obtain ⟨rfl, rfl⟩ := readFixed_value decoded
    have low := BitVec.le_toInt (BitVec.ofNat 32 (fromNeBytes (Reader.span mem 0 4)))
    have high := BitVec.toInt_lt (x := BitVec.ofNat 32 (fromNeBytes (Reader.span mem 0 4)))
    exact repacks_int rfl (by simp) (fun canonical => canonical) (by omega) (by omega)
  · obtain ⟨rfl, rfl⟩ := readFixed_value decoded
    have bound := small 4
    exact repacks_int rfl (by simp) (fun canonical => canonical) (by omega) (by omega)
  · obtain ⟨rfl, rfl⟩ := readFixed_value decoded
    exact repacks_i64 (Reader.span_length mem 0 8) (by simp [packedTag, ofI64, tagsOf]) trivial
  · obtain ⟨rfl, rfl⟩ := readFixed_value decoded
    exact repacks_i64 (Reader.span_length mem 0 8) (by simp [packedTag, ofI64, tagsOf]) trivial
  · obtain ⟨rfl, rfl⟩ := readFixed_value decoded
    exact repacks_f64 (Reader.span_length mem 0 8) (by simp [packedTag, ofF64, tagsOf]) trivial
  · obtain ⟨rfl, rfl⟩ := readFixed_value decoded
    exact repacks_f64 (Reader.span_length mem 0 8) (by simp [packedTag, ofF64, tagsOf]) trivial
  · obtain ⟨rfl, rfl⟩ := readFixed_value decoded
    exact repacks_u64 (Reader.span_length mem 0 8)
  · rw [decode_str] at decoded
    split at decoded
    · cases decoded
    · dsimp only at decoded
      split at decoded
      · cases decoded
      · cases decoded
        rw [Reader.span_append]
        exact repacks_str (Reader.span_length mem 0 4) (by rw [Nat.zero_add, Reader.span_length])

end Values

section Whole
variable [Target] {mem : Nat → UInt8} {len cursor : Nat} {tags : List String}
  {steps : List (PyValue × Nat)}

/-- The bytes of each step, with its tag. -/
def pieces (mem : Nat → UInt8) : Nat → List String → List (PyValue × Nat) →
    List (String × List UInt8)
  | cursor, tag :: tags, (_, n) :: steps =>
      (tag, Reader.span mem cursor n) :: pieces mem (cursor + n) tags steps
  | _, _, _ => []

theorem step_repacks {tag : String} {v : PyValue} {n : Nat}
    (one : decode (remaining mem cursor) (unpackOne (len - cursor) tag) = .ok (v, n)) :
    Repacks tag (Reader.span mem cursor n) v := by
  have repacks := unpackOne_repacks one
  rw [span_remaining, Nat.add_zero] at repacks
  exact repacks

theorem inTurn_tagged (turn : InTurn mem len cursor tags steps) :
    ∀ v ∈ steps.map Prod.fst, ∃ tag ∈ tags, packedTag tag ∈ tagsOf v := by
  induction turn with
  | nil => simp
  | @cons cursor n tag v tags steps one _ ih =>
      rw [List.map_cons, List.forall_mem_cons]
      constructor
      · exact ⟨tag, List.mem_cons_self, (step_repacks one).tagged⟩
      · intro x there
        obtain ⟨tag', listed, tagged⟩ := ih x there
        exact ⟨tag', List.mem_cons_of_mem _ listed, tagged⟩

/-- The values pack unless one of them is no `i64`. -/
theorem inTurn_packs (turn : InTurn mem len cursor tags steps) :
    (∃ bytes, packEach (steps.map Prod.fst) [] = .ok bytes) ↔
      ∀ v ∈ steps.map Prod.fst, InRange v := by
  induction turn with
  | nil => exact ⟨fun _ => by simp, fun _ => ⟨[], rfl⟩⟩
  | @cons cursor n tag v tags steps one _ ih =>
      simp only [List.map_cons, List.forall_mem_cons, ← ih,
        ← (step_repacks one).packs, packEach_cons]
      constructor
      · rintro ⟨_, front, back, first, rest, rfl⟩
        exact ⟨⟨front, first⟩, back, rest⟩
      · rintro ⟨⟨front, first⟩, back, rest⟩
        exact ⟨_, front, back, first, rest, rfl⟩

/-- What was packed is no shorter than what was read, and the same exactly if every piece is
canonical. -/
theorem inTurn_same (turn : InTurn mem len cursor tags steps) {bytes : List UInt8}
    (packed : packEach (steps.map Prod.fst) [] = .ok bytes) :
    taken steps ≤ bytes.length ∧
      (bytes = Reader.span mem cursor (taken steps) ↔
        ∀ piece ∈ pieces mem cursor tags steps, Canonical piece.1 piece.2) := by
  induction turn generalizing bytes with
  | nil =>
      cases packed
      simp [taken, pieces, Reader.span]
  | @cons cursor n tag v tags steps one _ ih =>
      obtain ⟨front, back, first, rest, rfl⟩ := packEach_cons.mp packed
      obtain ⟨longer, same⟩ := ih rest
      have repacks := step_repacks one
      have grows := repacks.grows front first
      rw [Reader.span_length] at grows
      have sum : taken ((v, n) :: steps) = n + taken steps := by
        simp [taken]
      rw [sum, List.length_append]
      refine ⟨by omega, ?_⟩
      rw [pieces, List.forall_mem_cons, ← same, ← repacks.same front first, Reader.span_append]
      constructor
      · intro equal
        -- no part is shorter than its bytes, so all parts have their length
        have lengths := congrArg List.length equal
        simp only [List.length_append, Reader.span_length] at lengths
        exact List.append_inj equal (by rw [Reader.span_length]; omega)
      · rintro ⟨rfl, rfl⟩
        rfl

omit [Target] in
/-- No value that was read is a list, so a group shows its values and nothing else. -/
theorem leaves_shown {groups : List (List PyValue)} (typed : ∀ v ∈ groups.flatten, tagsOf v ≠ []) :
    leaves (groups.map shown) = groups.flatten := by
  induction groups with
  | nil => rfl
  | cons group groups ih =>
      rw [List.flatten_cons] at typed ⊢
      have rest := ih fun v there => typed v (List.mem_append_right _ there)
      have first : leaves [shown group] = group := by
        match group with
        | [] => rfl
        | [v] =>
            have single := typed v (List.mem_append_left _ List.mem_cons_self)
            cases v with
            | list sub => exact absurd rfl single
            | _ => rfl
        | v :: x :: more => simp [shown, leaves]
      have split : leaves (shown group :: groups.map shown) =
        leaves [shown group] ++ leaves (groups.map shown) := by
        simp [leaves]
      rw [List.map_cons, split, first, rest]

omit [Target] in
theorem packedTag_supported : ∀ tag ∈ supportedTags, packedTag tag ∈ supportedTags := by decide

/-- The schema with the tags of the packed values covers what was read. -/
theorem entries_again {pairs : List (String × Nat)} {groups : List (List (PyValue × Nat))}
    (decoded : leftToRight mem len pairs cursor = .ok groups) {again : List PyValue}
    (entries : List.Forall₂ (fun item pair => schemaEntry item =
      .ok (packedTag pair.1, pair.2)) again pairs) :
    Entries again (groups.flatten.map Prod.fst) (shownGroups groups) := by
  induction entries generalizing cursor groups with
  | nil =>
      cases decoded
      exact .nil
  | @cons item pair again pairs entry _ ih =>
      obtain ⟨tag, count⟩ := pair
      obtain ⟨known, group, more, first, later, rfl⟩ := leftToRight_cons.mp decoded
      have typed : ∀ v ∈ group.map Prod.fst, packedTag tag ∈ tagsOf v := by
        intro v there
        obtain ⟨tag', listed, tagged⟩ :=
          inTurn_tagged ((inTurn_replicate tag count).mpr first) v there
        rw [List.eq_of_mem_replicate listed] at tagged
        exact tagged
      have length : (group.map Prod.fst).length = count := by
        rw [List.length_map, oneByOne_length first]
      rw [List.flatten_cons, List.map_append]
      subst length
      exact .cons entry (packedTag_supported tag known) typed (ih later)

/-- Whatever a schema reads from a slice, packed again: the values pack unless one is no `i64`,
in no fewer bytes than they were read from, in the same ones exactly if those were canonical,
and they are read back from them. -/
theorem repacking {schema result : List PyValue} {pairs : List (String × Nat)} {n : Nat}
    (entries : List.Forall₂ (fun item pair => schemaEntry item = .ok pair) schema pairs)
    (decoded : decode mem (unpackMixedCounted len schema) = .ok (result, n)) :
    ∃ steps, InTurn mem len 0 (tagsIn pairs) steps ∧ leaves result = steps.map Prod.fst ∧
      n = taken steps ∧
      ((∃ bytes, packMixed result = .ok bytes) ↔ ∀ v ∈ leaves result, InRange v) ∧
      ∀ bytes, packMixed result = .ok bytes →
        n ≤ bytes.length ∧
        (bytes = Reader.span mem 0 n ↔
          ∀ piece ∈ pieces mem 0 (tagsIn pairs) steps, Canonical piece.1 piece.2) ∧
        ∀ again other length,
          List.Forall₂ (fun item pair => schemaEntry item =
            .ok (packedTag pair.1, pair.2)) again pairs →
          Reader.span other 0 bytes.length = bytes → bytes.length ≤ length → length ≤ 2 ^ 32 →
          decode other (unpackMixedCounted length again) = .ok (result, bytes.length) := by
  rw [unpackMixedCounted, entries_agree entries [] (Nat.zero_le len)] at decoded
  obtain ⟨groups, found, rfl, rfl⟩ := decoded
  obtain ⟨_, _, turn⟩ := leftToRight_inTurn.mp found
  have typed : ∀ v ∈ groups.flatten.map Prod.fst, tagsOf v ≠ [] := by
    intro v there untagged
    obtain ⟨tag, _, tagged⟩ := inTurn_tagged turn v there
    rw [untagged] at tagged
    cases tagged
  have values : leaves ([] ++ shownGroups groups) = groups.flatten.map Prod.fst := by
    have flat := List.map_flatten (f := Prod.fst) (L := groups)
    rw [flat] at typed ⊢
    rw [List.nil_append, shownGroups, ← leaves_shown typed, List.map_map]
    rfl
  have sum : 0 + (groups.map taken).sum = taken groups.flatten := by
    rw [taken_flatten, Nat.zero_add]
  refine ⟨groups.flatten, turn, values, sum, ?_, ?_⟩
  · rw [packMixed_leaves, values]
    exact inTurn_packs turn
  · intro bytes packed
    rw [packMixed_leaves, values] at packed
    obtain ⟨longer, same⟩ := inTurn_same turn packed
    rw [sum]
    refine ⟨longer, same, ?_⟩
    intro again other length listed there fits small
    obtain ⟨rfl, packable⟩ := packEach_ok typed packed
    have back := entries_back (entries_again found listed) packable small [] there (by omega)
    rw [unpackMixedCounted, back, Nat.zero_add]

omit [Target]

/-- A flag of value two, and a byte. -/
def looseBytes (index : Nat) : UInt8 := if index = 0 then 2 else 5

theorem repacking_loose :
    ∃ bytes, @packMixed littleEndian [.bool true, .int 5] = .ok bytes ∧
      bytes ≠ Reader.span looseBytes 0 2 ∧
      ∀ other length, Reader.span other 0 bytes.length = bytes →
        bytes.length ≤ length → length ≤ 2 ^ 32 →
        decode other (@unpackMixedCounted littleEndian length
            [.tuple [.ofString "bool", .int 1], .tuple [.ofString "int", .int 1]]) =
          .ok ([.bool true, .int 5], bytes.length) := by
  have entries : List.Forall₂ (fun item pair => schemaEntry item = .ok pair)
      [.tuple [.ofString "bool", .int 1], .tuple [.ofString "u8", .int 1]]
        [("bool", 1), ("u8", 1)] :=
    .cons (schemaEntry_tuple "bool" (by decide)) (.cons (schemaEntry_tuple "u8" (by decide)) .nil)
  have decoded : decode looseBytes (@unpackMixedCounted littleEndian 2
      [.tuple [.ofString "bool", .int 1], .tuple [.ofString "u8", .int 1]]) =
        .ok ([.bool true, .int 5], 2) := rfl
  obtain ⟨steps, _, _, _, packs, exact_⟩ := @repacking littleEndian _ _ _ _ _ _ entries decoded
  have fits : ∀ v ∈ leaves [.bool true, .int 5], InRange v := by
    intro v there
    simp only [leaves, List.flatMap_cons, List.flatMap_nil, List.append_nil, List.singleton_append,
      List.mem_cons, List.not_mem_nil, or_false] at there
    rcases there with rfl | rfl
    · rintro _ ⟨⟩
    · rintro _ ⟨⟩
      decide
  obtain ⟨bytes, packed⟩ := packs.mpr fits
  obtain ⟨_, _, back⟩ := exact_ bytes packed
  have differs : bytes ≠ Reader.span looseBytes 0 2 := by
    rintro rfl
    have first : @packMixed littleEndian [.bool true, .int 5] =
      .ok [1, 5, 0, 0, 0, 0, 0, 0, 0] := rfl
    cases packed.symm.trans first
  refine ⟨bytes, packed, differs, ?_⟩
  intro other length there fit small
  exact back _ other length
    (.cons (schemaEntry_tuple "bool" (by decide))
      (.cons (schemaEntry_tuple "int" (by decide)) .nil))
    there fit small

end Whole
end Membridge.Reencoding
