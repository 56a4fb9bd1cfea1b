import Membridge.SpscObservers
import Membridge.Stream

/-!
Typed values through a ring. A pop that names the type of what was pushed, by a
tag or by a schema, answers the pushed values themselves, whatever the two ends
and the observers do meanwhile.
-/
namespace Membridge.TypedMessages
open Program Interleaving RelyGuarantee Python Spsc Queue SpscQueue ByteOrder ByteReader
open Mixed Decoding
open Encoding Membridge.Stream SpscProtocol SpscInvariant SpscSound SpscDelivery SpscObservers

section Payload

/-- The values a push packs: the elements of a list, in order, or one value. -/
def parts : PyValue → List PyValue
  | .list items => items
  | data => [data]

/-- Pops that name the types of `values` or of some of the first of them, with what they answer:
a tag asks for the first value, a schema for as many as it has room for. -/
inductive Asks : List PyValue → RingCall → PyValue → Prop
  | raw (content : List UInt8) : Asks [.bytes content] (.pop none) (.bytes content)
  | tag {tag : String} {v : PyValue} {rest : List PyValue} (type : tag ∈ tagsOf v) :
      Asks (v :: rest) (.pop (some tag)) v
  | schema {schema group result rest : List PyValue} (entries : Entries schema group result) :
      Asks (group ++ rest) (.popMixed schema) (.list result)

variable [Target] {data v : PyValue} {payload : List UInt8} {tag : String}
  {schema group rest result : List PyValue}

theorem pushPayload_parts (data : PyValue) : pushPayload data = packEach (parts data) [] := by
  have one : ∀ v, packEach [v] [] = packValue v [] := by
    intro v
    simp only [packEach, bind, Except.bind]
    cases packValue v [] <;> rfl
  cases data with
  | list items => rfl
  | _ =>
      symm
      apply one

/-- The first values of a message lie at the front of its payload. -/
theorem packed_front (tagged : ∀ v ∈ group, tagsOf v ≠ [])
    (packed : packEach (group ++ rest) [] = .ok payload) :
    Packable group ∧ ∃ behind, payload = encodeAll group ++ behind := by
  rw [packEach_split] at packed
  cases front : packEach group [] with
  | error e =>
      rw [front] at packed
      cases packed
  | ok bytes =>
      rw [front] at packed
      obtain ⟨rfl, packable⟩ := packEach_ok tagged front
      -- what the rest appends does not touch what is there
      change packEach rest (encodeAll group) = .ok payload at packed
      rw [packEach_append] at packed
      cases back : packEach rest [] with
      | error e =>
          rw [back] at packed
          cases packed
      | ok behind =>
          rw [back] at packed
          cases packed
          exact ⟨packable, behind, rfl⟩

omit [Target] in
theorem span_payload (front behind : List UInt8) :
    Reader.span (fun i => (front ++ behind).getD i 0) 0 front.length = front := by
  apply List.ext_getElem
  · simp
  · intro i _ inside
    rw [Reader.span_getElem, Nat.zero_add, List.getD_eq_getElem?_getD,
      List.getElem?_append_left inside, List.getElem?_eq_getElem inside, Option.getD_some]

omit [Target] in
theorem entries_tagged (entries : Entries schema group result) : ∀ v ∈ group, tagsOf v ≠ [] := by
  induction entries with
  | nil => exact fun _ member => nomatch member
  | cons entry known types more ih =>
      intro v member
      rcases List.mem_append.mp member with here | later
      · exact List.ne_nil_of_mem (types v here)
      · exact ih v later

theorem popTyped_back (type : tag ∈ tagsOf v) (small : payload.length ≤ 2 ^ 32)
    (packed : packEach (v :: rest) [] = .ok payload) : popTyped (some tag) payload = .ok v := by
  have tagged : ∀ x ∈ [v], tagsOf x ≠ [] := by
    intro x member
    cases List.mem_singleton.mp member
    exact List.ne_nil_of_mem type
  obtain ⟨packable, behind, rfl⟩ := packed_front tagged packed
  have one : encodeAll [v] = encoded v := by simp [encodeAll]
  rw [one] at small ⊢
  have back : decode (fun i => (encoded v ++ behind).getD i 0)
      (unpackOne (encoded v ++ behind).length tag) = .ok (v, (encoded v).length) :=
    unpackOne_back (packable v List.mem_cons_self) type (span_payload _ _) (by simp) small
  change (decode _ _).bind _ = _
  rw [back]
  rfl

theorem popSchema_back (entries : Entries schema group result) (small : payload.length ≤ 2 ^ 32)
    (packed : packEach (group ++ rest) [] = .ok payload) :
    popSchema schema payload = .ok (.list result) := by
  obtain ⟨packable, behind, rfl⟩ := packed_front (entries_tagged entries) packed
  have back : decode (fun i => (encodeAll group ++ behind).getD i 0)
      (unpackEntries (encodeAll group ++ behind).length schema [] 0) =
        .ok ([] ++ result, 0 + (encodeAll group).length) :=
    entries_back entries packable small [] (span_payload _ _) (by simp)
  change (decode _ _).bind _ = _
  simp only [unpackMixedCounted, back]
  rfl

/-- A pop of the right types answers the values. -/
theorem asks_outcome {c : RingCall} {answer : PyValue} (asks : Asks (parts data) c answer)
    (small : payload.length < 2 ^ 32) (packed : pushPayload data = .ok payload) :
    outcome c payload = .ok answer := by
  rw [pushPayload_parts] at packed
  generalize parts data = values at asks packed
  cases asks with
  | raw content =>
      cases packed
      rfl
  | tag type => exact popTyped_back type (by omega) packed
  | schema entries => exact popSchema_back entries (by omega) packed

end Payload

section Runs
variable [Target] {views : Party → SpscRingBuffer}

/-- The data of a push that returned `True`. -/
def taken : RingEvent 64 → Option PyValue
  | .finish .producer _ (.push data) (.ok (.bool true)) => some data
  | _ => none

/-- What was accepted, in order. -/
def accepted (log : RingLog 64) : List PyValue := log.filterMap taken

/-- Every accepted push packed, and its payload is the message. -/
theorem accepted_payloads {k : Nat} {log : RingLog 64} (recorded : Recorded (Answered k) log) :
    List.Forall₂ (fun data m => pushPayload data = .ok m) (accepted log) (pushed log) := by
  induction log using List.reverseRecOn with
  | nil => exact .nil
  | append_singleton before e ih =>
      obtain ⟨early, answered⟩ := recorded_snoc.mp recorded
      rw [accepted, pushed, List.filterMap_append, List.filterMap_append]
      apply List.rel_append (ih early)
      by_cases push : ∃ id data, e = .finish .producer id (.push data) (.ok (.bool true))
      · obtain ⟨id, data, rfl⟩ := push
        cases packed : pushPayload data with
        | error problem =>
            have refused := (answered rfl).refused problem packed
            cases refused
        | ok payload =>
            simp only [List.filterMap_cons, List.filterMap_nil, taken, published, packed,
              Except.toOption]
            exact .cons packed .nil
      · have nothing : taken e = .none := by
          unfold taken
          split
          · exact absurd ⟨_, _, rfl⟩ push
          · rfl
        have silent : published e = .none := by
          unfold published
          split
          · exact absurd ⟨_, _, rfl⟩ push
          · rfl
        simp only [List.filterMap_cons, List.filterMap_nil, nothing, silent]
        exact .nil

/-- Typed values arrive as they were sent. In every run the pop that takes the `i`-th message
takes it from the `i`-th accepted push, and answers the values of that push if its tag or its
schema names their types. -/
theorem typed_delivery {cap : Nat} {ring : RingMem 64} (initialised : Initialised cap ring)
    {cfg : Config Party RingCall (PyResult PyValue) (RingOp 64) RingOp.Res (RingMem 64)}
    (reach : Reachable (ringSystem .release views fun t c => observing t c) ring cfg)
    {i : Nat} {c : RingCall} {r : PyResult PyValue}
    (popped : (pops cfg.world.log)[i]? = some (c, r)) :
    ∃ data, (accepted cfg.world.log)[i]? = some data ∧
      ∀ answer, Asks (parts data) c answer → r = .ok answer := by
  obtain ⟨k, rfl, small, fresh⟩ := initialised.fresh
  rw [fresh] at reach
  have inv : RingInv k cfg.world := (sound (observing_used small) ring.data).inv reach
  -- the message the pop took, then the push it came from
  obtain ⟨m, inOrder, result⟩ : ∃ m, (queueOf cfg.world.log).delivered[i]? = some m ∧
      r = outcome c m := by
    have related := List.forall₂_iff_get.mp inv.outcomes
    obtain ⟨inside, here⟩ := List.getElem?_eq_some_iff.mp popped
    have there : i < (queueOf cfg.world.log).delivered.length := related.1 ▸ inside
    refine ⟨(queueOf cfg.world.log).delivered[i], List.getElem?_eq_getElem there, ?_⟩
    have same := related.2 i inside there
    rw [List.get_eq_getElem, here] at same
    exact same
  have message : (pushed cfg.world.log)[i]? = some m := by
    rw [Fifo.delivered, List.getElem?_take] at inOrder
    split at inOrder
    · exact inOrder
    · cases inOrder
  have payloads := List.forall₂_iff_get.mp (accepted_payloads inv.recorded)
  obtain ⟨inside, here⟩ := List.getElem?_eq_some_iff.mp message
  have there : i < (accepted cfg.world.log).length := payloads.1 ▸ inside
  have packed := payloads.2 i there inside
  rw [List.get_eq_getElem, List.get_eq_getElem, here] at packed
  refine ⟨_, List.getElem?_eq_getElem there, ?_⟩
  intro answer asks
  rw [result]
  exact asks_outcome asks (inv.short m (List.mem_of_getElem? message)) packed

omit [Target]

/-- The tag of a pop. -/
def tagOf : RingCall → Option String
  | .pop tag => tag
  | _ => none

def wordOf : PyValue → Option (List CodePoint)
  | .str points => some points
  | _ => none

theorem tagOf_eq {c : RingCall} {tag : String} (same : tagOf c = some tag) :
    c = .pop (some tag) := by
  cases c with
  | pop t =>
      cases same
      rfl
  | _ => cases same

theorem wordOf_eq {v : PyValue} {points : List CodePoint} (same : wordOf v = some points) :
    v = .str points := by
  cases v with
  | str p =>
      cases same
      rfl
  | _ => cases same

/-- A list of three and a word are pushed; a schema takes the list, with the word half
written, and a tag takes the word. -/
def listThenWord : List (Interleaving.Choice Party RingCall) :=
  [[.call .producer (.push (.list [.bool true, .int (-2), .int 3]))], turns .producer 25,
    [.call .producer (.push (.str [.scalar 'h', .scalar 'i']))], turns .producer 7,
    [.call .consumer
      (.popMixed [.tuple [.ofString "bool", .int 1], .tuple [.ofString "i64", .int 2]])],
    turns .consumer 25, turns .producer 7,
    [.call .consumer (.pop (some "str"))], turns .consumer 14].flatten

theorem typed_delivery_listThenWord :
    ∃ cfg : Config Party RingCall (PyResult PyValue) (RingOp 64) RingOp.Res (RingMem 64),
      (pops cfg.world.log)[1]? =
        some (.pop (some "str"), .ok (.str [.scalar 'h', .scalar 'i'])) := by
  have ran : (schedule (@ringSystem 64 .release littleEndian (fun _ => ⟨88⟩) fun t c =>
      @observing littleEndian t c) (fun _ _ o ring => RingMem.exec o ring) listThenWord
      (.initial ⟨0, 0, 64, fun _ => 0⟩)).map (fun cfg =>
        ((pops cfg.world.log)[1]?.bind fun d => tagOf d.1,
          (accepted cfg.world.log)[1]?.bind wordOf)) =
        some (some "str", some [.scalar 'h', .scalar 'i']) := by
    decide +kernel
  obtain ⟨cfg, reach, result⟩ := schedule_reaches (@exec_faithful _ _ littleEndian _ _) ran
  obtain ⟨call, sent⟩ := Prod.mk.inj result
  have initialised : Initialised 64 ⟨0, 0, 64, fun _ => 0⟩ :=
    ⟨by decide, ⟨0, 0, 0, fun _ => 0⟩, new_accepts (by decide) (by decide) _⟩
  obtain ⟨⟨c, r⟩, popped, tagged⟩ := Option.bind_eq_some_iff.mp call
  obtain ⟨word, there, letters⟩ := Option.bind_eq_some_iff.mp sent
  obtain ⟨data, same, typed⟩ := @typed_delivery littleEndian _ _ _ initialised _ reach _ _ _ popped
  cases tagOf_eq tagged
  cases wordOf_eq letters
  cases there.symm.trans same
  have answered := typed _ (.tag (by simp [tagsOf]))
  exact ⟨cfg, answered ▸ popped⟩

end Runs
end Membridge.TypedMessages
