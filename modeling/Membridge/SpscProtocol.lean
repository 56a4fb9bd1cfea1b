import Membridge.RelyGuarantee
import Membridge.SpscQueue

/-!
The producer and the consumer of one ring, interleaved. The log says which
messages were published and which pops took one; the invariant is that the ring
represents that queue between any two accesses, and that every call that
returned gave the answer the queue owed it.
-/
namespace Membridge.SpscProtocol
open Program Interleaving RelyGuarantee Python Spsc Queue SpscQueue CyclicBuffer ByteOrder
open ByteReader Mixed

variable {w k : Nat} [Target]

abbrev RingLog (w : Nat) := List (RingEvent w)

section Log

/-- The message of a push that returned `True`. -/
def published : RingEvent w → Option Message
  | .finish .producer _ (.push data) (.ok (.bool true)) => (pushPayload data).toOption
  | _ => none

def isPop : RingCall → Bool
  | .pop _ => true
  | .popMixed _ => true
  | _ => false

def isNone : PyResult PyValue → Bool
  | .ok .none => true
  | _ => false

/-- A pop that found a message, and what it returned. -/
def delivery : RingEvent w → Option (RingCall × PyResult PyValue)
  | .finish .consumer _ c r => if isPop c && !isNone r then some (c, r) else none
  | _ => none

def pushed (log : RingLog w) : List Message := log.filterMap published

omit [Target] in
def pops (log : RingLog w) : List (RingCall × PyResult PyValue) := log.filterMap delivery

/-- The queue a log leaves behind. -/
def queueOf (log : RingLog w) : Fifo Message where
  published := pushed log
  taken := min (pops log).length (pushed log).length
  taken_le := Nat.min_le_right _ _

def creditStep (seen : List Nat) : RingEvent w → List Nat
  | .finish .producer _ (.push _) _ => []
  | .finish .producer _ .free (.ok (.int f)) => f.toNat :: seen
  | _ => seen

/-- What `free()` told the producer since its last push returned. -/
def credits (log : RingLog w) : List Nat := log.foldl creditStep []

def sawStep (seen : Bool) : RingEvent w → Bool
  | .finish .consumer _ (.pop _) _ => false
  | .finish .consumer _ (.popMixed _) _ => false
  | .finish .consumer _ .isEmpty (.ok (.bool false)) => true
  | _ => seen

/-- Whether `is_empty()` told the consumer `False` since its last pop returned. -/
def sawMessage (log : RingLog w) : Bool := log.foldl sawStep false

variable {log after : RingLog w} {t : Party} {id : Nat} {c : RingCall}

/-- Steps that start a call or touch memory leave the queue of the log alone. -/
def Silent (e : RingEvent w) : Prop := published e = none ∧ delivery e = none

theorem silent_access (o : RingOp w) (r : o.Res) :
    Silent (.access t id c o r : RingEvent w) := ⟨rfl, rfl⟩

theorem silent_invoke : Silent (.invoke t id c : RingEvent w) := ⟨rfl, rfl⟩

theorem silent_push (data : PyValue) (r : PyResult PyValue) (no : r ≠ .ok (.bool true)) :
    Silent (.finish .producer id (.push data) r : RingEvent w) := by
  refine ⟨?_, by simp [delivery]⟩
  unfold published
  split
  · next same =>
      cases same
      exact absurd rfl no
  · rfl

theorem silent_observer {r : PyResult PyValue} (noPush : ∀ data, c ≠ .push data)
    (noPop : isPop c = false) : Silent (.finish t id c r : RingEvent w) := by
  constructor
  · unfold published
    split
    · next same =>
        cases same
        exact absurd rfl (noPush _)
    · rfl
  · cases t <;> simp [delivery, noPop]

theorem silent_none {r : PyResult PyValue} (noPush : ∀ data, c ≠ .push data)
    (answeredNone : isNone r = true) : Silent (.finish t id c r : RingEvent w) := by
  constructor
  · unfold published
    split
    · next same =>
        cases same
        exact absurd rfl (noPush _)
    · rfl
  · cases t <;> simp [delivery, answeredNone]

omit [Target] in
theorem pops_snoc (e : RingEvent w) : pops (log ++ [e]) = pops log ++ (delivery e).toList := by
  cases found : delivery e <;> simp [pops, found]

theorem pushed_snoc (e : RingEvent w) :
    pushed (log ++ [e]) = pushed log ++ (published e).toList := by
  cases found : published e <;> simp [pushed, found]

theorem pushed_silent {e : RingEvent w} (silent : Silent e) : pushed (log ++ [e]) = pushed log := by
  rw [pushed_snoc, silent.1, Option.toList_none, List.append_nil]

theorem pops_silent {e : RingEvent w} (silent : Silent e) : pops (log ++ [e]) = pops log := by
  rw [pops_snoc, silent.2, Option.toList_none, List.append_nil]

theorem queueOf_silent {e : RingEvent w} (silent : Silent e) :
    queueOf (log ++ [e]) = queueOf log := by
  ext1
  · exact pushed_silent silent
  · change min _ _ = min _ _
    rw [pushed_silent silent, pops_silent silent]

theorem queueOf_publish {e : RingEvent w} {m : Message}
    (counted : (pops log).length ≤ (pushed log).length)
    (found : published e = some m) (only : delivery e = none) :
    queueOf (log ++ [e]) = (queueOf log).publish m := by
  ext1
  · change pushed (log ++ [e]) = pushed log ++ [m]
    rw [pushed_snoc, found, Option.toList_some]
  · change min _ _ = min _ _
    rw [pushed_snoc, pops_snoc, found, only, Option.toList_none, List.append_nil,
      Option.toList_some, List.length_append]
    omega

theorem queueOf_advance {e : RingEvent w} {d : RingCall × PyResult PyValue}
    (only : published e = none) (found : delivery e = some d)
    (more : (queueOf log).taken < (queueOf log).published.length) :
    queueOf (log ++ [e]) = (queueOf log).advance more := by
  have less : (pops log).length < (pushed log).length := by
    change min _ _ < (pushed log).length at more
    omega
  ext1
  · change pushed (log ++ [e]) = pushed log
    rw [pushed_snoc, only, Option.toList_none, List.append_nil]
  · change min _ _ = min _ _ + 1
    rw [pushed_snoc, pops_snoc, found, only, Option.toList_none, List.append_nil,
      Option.toList_some, List.length_append]
    simp only [List.length_cons, List.length_nil]
    omega

section Meanwhile
variable (quiet : Meanwhile t log after)
include quiet

omit [Target] in
theorem meanwhile_pops_of (own : t = .consumer) : pops after = pops log := by
  subst own
  apply meanwhile_filterMap _ quiet
  intro e other
  unfold delivery
  split
  · simp [Event.isAccess] at other
  · rfl

theorem meanwhile_pushed_of (own : t = .producer) : pushed after = pushed log := by
  subst own
  apply meanwhile_filterMap _ quiet
  intro e other
  unfold published
  split
  · simp [Event.isAccess] at other
  · rfl

omit [Target] in
theorem meanwhile_credits (own : t = .producer) : credits after = credits log := by
  subst own
  apply meanwhile_foldl _ quiet
  intro seen e other
  unfold creditStep
  split
  · simp [Event.isAccess] at other
  · simp [Event.isAccess] at other
  · rfl

omit [Target] in
theorem meanwhile_sawMessage (own : t = .consumer) : sawMessage after = sawMessage log := by
  subst own
  apply meanwhile_foldl _ quiet
  intro seen e other
  unfold sawStep
  split
  · simp [Event.isAccess] at other
  · simp [Event.isAccess] at other
  · simp [Event.isAccess] at other
  · rfl

end Meanwhile

/-- Positions only grow along a log. -/
theorem stop_mono (early : log <+: after) :
    (queueOf log).stop frameLen ≤ (queueOf after).stop frameLen :=
  Fifo.total_mono frameLen (early.filterMap published)

theorem taken_mono (early : log <+: after) : (queueOf log).taken ≤ (queueOf after).taken := by
  have more := (early.filterMap published).length_le
  have later := (early.filterMap (delivery (w := w))).length_le
  change min (pops log).length (pushed log).length ≤ min (pops after).length (pushed after).length
  simp only [pops, pushed]
  omega

theorem start_mono (early : log <+: after) :
    (queueOf log).start frameLen ≤ (queueOf after).start frameLen := by
  apply Fifo.total_mono
  have grown : pushed log <+: pushed after := early.filterMap published
  have bound : (queueOf log).taken ≤ (pushed log).length := (queueOf log).taken_le
  change (pushed log).take _ <+: (pushed after).take _
  rw [List.prefix_take_iff]
  constructor
  · exact (List.take_prefix _ _).trans grown
  · rw [List.length_take]
    have := taken_mono early
    omega

end Log
end Membridge.SpscProtocol
