import Mathlib.Data.List.Sort
import Membridge.Interleaving

/-!
Linearizability of a log: the calls that returned, one after another, answer as a
sequential object does, and a call that returned before another began comes before
it. A call may change the object where it returns, or leave it as it is and answer
for any instant since its start.
-/
namespace Membridge.Linearizability
open Program Interleaving

variable {T Call Ret Op Q : Type} {Res : Op → Type}

/-- What a call answers in a state of the object, and the state it leaves. -/
abbrev Object (T Call Ret Q : Type) := T → Call → Q → Ret × Q

/-- A call that returned; `start` and `stop` are the places of its two events in the log. -/
structure Done (T Call Ret : Type) where
  thread : T
  call : Call
  value : Ret
  start : Nat
  stop : Nat

def returned (place : Nat) : Event T Call Ret Op Res → Option (Done T Call Ret)
  | .finish t id c value => some ⟨t, c, value, id, place⟩
  | _ => none

def returns (log : List (Event T Call Ret Op Res)) : List (Done T Call Ret) :=
  log.zipIdx.filterMap fun e => returned e.2 e.1

/-- The calls in this order are a run of the object. -/
def Legal (object : Object T Call Ret Q) : Q → List (Done T Call Ret) → Prop
  | _, [] => True
  | q, d :: rest =>
      (object d.thread d.call q).1 = d.value ∧ Legal object (object d.thread d.call q).2 rest

structure Linearizes (object : Object T Call Ret Q) (q : Q) (log : List (Event T Call Ret Op Res))
    (order : List (Done T Call Ret)) : Prop where
  calls : order.Perm (returns log)
  legal : Legal object q order
  real_time : order.Pairwise fun a b => ¬ b.stop < a.start

def Linearizable (object : Object T Call Ret Q) (q : Q)
    (log : List (Event T Call Ret Op Res)) : Prop :=
  ∃ order, Linearizes object q log order

section Points
variable {object : Object T Call Ret Q} {state : List (Event T Call Ret Op Res) → Q}
  {log : List (Event T Call Ret Op Res)}

/-- How an event moves the state: a return may do what the object does, or report what the
object would have done at an earlier instant of the call; nothing else moves it. -/
def Takes (object : Object T Call Ret Q) (state : List (Event T Call Ret Op Res) → Q)
    (pre : List (Event T Call Ret Op Res)) : Event T Call Ret Op Res → Prop
  | .finish t id c value =>
      object t c (state pre) = (value, state (pre ++ [.finish t id c value])) ∨
        state (pre ++ [.finish t id c value]) = state pre ∧
          ∃ seen, seen <+: pre ∧ id < seen.length ∧ object t c (state seen) = (value, state seen)
  | e => state (pre ++ [e]) = state pre

theorem returns_snoc (e : Event T Call Ret Op Res) :
    returns (log ++ [e]) = returns log ++ (returned log.length e).toList := by
  rw [returns, List.zipIdx_append, List.filterMap_append]
  congr 1
  rw [List.zipIdx_singleton, Nat.zero_add]
  cases found : returned log.length e <;> simp [found]

theorem returned_stop {e : Event T Call Ret Op Res} {place : Nat} {d : Done T Call Ret}
    (found : returned place e = some d) : d.stop = place := by
  cases e <;> cases found
  rfl

/-- A call with its place among the instants: twice the length of the log then, and one more
if the return itself moved the state. -/
structure Placed (T Call Ret : Type) extends Done T Call Ret where
  place : Nat

/-- The place is one of the call, and there the object does what the log says. -/
structure Fits (object : Object T Call Ret Q) (state : List (Event T Call Ret Op Res) → Q)
    (log : List (Event T Call Ret Op Res)) (x : Placed T Call Ret) : Prop where
  after : 2 * x.start < x.place
  before : x.place ≤ 2 * x.stop + 1
  odd : x.place % 2 = 1 → x.place = 2 * x.stop + 1
  inside : x.stop < log.length
  takes : object x.thread x.call (state (log.take (x.place / 2))) =
    (x.value, state (log.take ((x.place + 1) / 2)))

/-- Every call has a place, those that moved the state have one each, and nothing else moved it. -/
structure Places (object : Object T Call Ret Q) (state : List (Event T Call Ret Op Res) → Q)
    (log : List (Event T Call Ret Op Res)) (xs : List (Placed T Call Ret)) : Prop where
  calls : xs.map Placed.toDone = returns log
  fits : ∀ x ∈ xs, Fits object state log x
  apart : xs.Pairwise fun x y => x.place = y.place → x.place % 2 = 0
  moves : ∀ i < log.length, state (log.take (i + 1)) ≠ state (log.take i) →
    ∃ x ∈ xs, x.place = 2 * i + 1

theorem Fits.snoc {x : Placed T Call Ret} (fits : Fits object state log x)
    (e : Event T Call Ret Op Res) :
    Fits object state (log ++ [e]) x := by
  obtain ⟨after, before, odd, inside, takes⟩ := fits
  refine ⟨after, before, odd, ?_, ?_⟩
  · rw [List.length_append]
    omega
  · rw [List.take_append_of_le_length (by omega), List.take_append_of_le_length (by omega)]
    exact takes

/-- One more event whose call, if it ends one, has the place `x`. -/
theorem Places.snoc {xs new : List (Placed T Call Ret)} {e : Event T Call Ret Op Res}
    (places : Places object state log xs)
    (calls : new.map Placed.toDone = (returned log.length e).toList)
    (fits : ∀ x ∈ new, Fits object state (log ++ [e]) x)
    (moves : state (log ++ [e]) ≠ state log → ∃ x ∈ new, x.place = 2 * log.length + 1) :
    Places object state (log ++ [e]) (xs ++ new) := by
  have short : new.length ≤ 1 := by
    rw [← List.length_map (f := Placed.toDone), calls]
    cases returned log.length e <;> simp
  constructor
  · rw [List.map_append, places.calls, calls, returns_snoc]
  · intro x member
    rcases List.mem_append.mp member with old | fresh
    · exact (places.fits x old).snoc e
    · exact fits x fresh
  · rw [List.pairwise_append]
    refine ⟨places.apart, ?_, ?_⟩
    · match new with
      | [] => exact .nil
      | [x] => exact List.pairwise_singleton _ x
      | _ :: _ :: _ => simp at short
    · -- an odd place is that of a return, and the earlier ones are smaller
      intro x old y fresh same
      have before := (places.fits x old).before
      have inside := (places.fits x old).inside
      have odd := (fits y fresh).odd
      have stop : y.stop = log.length := by
        have member : y.toDone ∈ new.map Placed.toDone := List.mem_map_of_mem fresh
        rw [calls, Option.mem_toList] at member
        exact returned_stop member
      omega
  · intro i within moved
    rw [List.length_append, List.length_singleton] at within
    by_cases last : i = log.length
    · subst last
      rw [List.take_append_of_le_length (Nat.le_refl _), List.take_length,
        List.take_of_length_le (by simp)] at moved
      obtain ⟨x, member, at_end⟩ := moves moved
      exact ⟨x, List.mem_append_right _ member, at_end⟩
    · rw [List.take_append_of_le_length (by omega),
        List.take_append_of_le_length (by omega)] at moved
      obtain ⟨x, member, at_i⟩ := places.moves i (by omega) moved
      exact ⟨x, List.mem_append_left _ member, at_i⟩

/-- Every call of such a log finds its place. -/
theorem places (begun : Recorded Begun log) (takes : Recorded (Takes object state) log) :
    ∃ xs, Places object state log xs := by
  induction log using List.reverseRecOn with
  | nil => exact ⟨[], rfl, by simp, .nil, by simp⟩
  | append_singleton pre e ih =>
      obtain ⟨begun, began⟩ := recorded_snoc.mp begun
      obtain ⟨takes, now⟩ := recorded_snoc.mp takes
      obtain ⟨xs, places⟩ := ih begun takes
      have whole : (pre ++ [e]).take (pre.length + 1) = pre ++ [e] :=
        List.take_of_length_le (by simp)
      have start : (pre ++ [e]).take pre.length = pre := List.take_left
      cases e with
      | invoke t id c => exact ⟨xs ++ [], places.snoc rfl (by simp) (fun moved => absurd now moved)⟩
      | access t id c o r =>
          exact ⟨xs ++ [], places.snoc rfl (by simp) (fun moved => absurd now moved)⟩
      | finish t id c value =>
          have early : id < pre.length := (List.getElem?_eq_some_iff.mp began).1
          rcases now with moves | ⟨still, seen, inside, after, answers⟩
          · refine ⟨xs ++ [⟨⟨t, c, value, id, pre.length⟩, 2 * pre.length + 1⟩],
              places.snoc rfl ?_ fun _ => ⟨_, List.mem_singleton_self _, rfl⟩⟩
            intro x new
            cases List.mem_singleton.mp new
            refine ⟨by dsimp only; omega, Nat.le_refl _, fun _ => rfl, by simp, ?_⟩
            have half : (2 * pre.length + 1) / 2 = pre.length := by omega
            have next : (2 * pre.length + 1 + 1) / 2 = pre.length + 1 := by omega
            rw [half, next, start, whole]
            exact moves
          · have size := inside.length_le
            refine ⟨xs ++ [⟨⟨t, c, value, id, pre.length⟩, 2 * seen.length⟩],
              places.snoc rfl ?_ fun moved => absurd still moved⟩
            intro x new
            cases List.mem_singleton.mp new
            refine ⟨by dsimp only; omega, by dsimp only; omega, by dsimp only; omega, by simp, ?_⟩
            have half : 2 * seen.length / 2 = seen.length := by omega
            have next : (2 * seen.length + 1) / 2 = seen.length := by omega
            have there : (pre ++ [Event.finish t id c value]).take seen.length = seen :=
              (List.prefix_iff_eq_take.mp (inside.trans (List.prefix_append _ _))).symm
            rw [half, next, there]
            exact answers

/-- Calls in the order of their places are a run of the object. -/
theorem legal_sorted (now : Nat → Q) {xs : List (Placed T Call Ret)} {i : Nat}
    (sorted : xs.Pairwise fun x y => x.place ≤ y.place) (low : ∀ x ∈ xs, 2 * i ≤ x.place)
    (apart : xs.Pairwise fun x y => x.place = y.place → x.place % 2 = 0)
    (takes : ∀ x ∈ xs, object x.thread x.call (now (x.place / 2)) =
      (x.value, now ((x.place + 1) / 2)))
    (moves : ∀ j, i ≤ j → (∃ x ∈ xs, j < x.place / 2) → now (j + 1) ≠ now j →
      ∃ x ∈ xs, x.place = 2 * j + 1) :
    Legal object (now i) (xs.map Placed.toDone) := by
  induction xs generalizing i with
  | nil => trivial
  | cons x rest ih =>
      obtain ⟨first, sorted⟩ := List.pairwise_cons.mp sorted
      obtain ⟨own, apart⟩ := List.pairwise_cons.mp apart
      have least : ∀ y ∈ x :: rest, x.place ≤ y.place := by
        intro y member
        rcases List.mem_cons.mp member with rfl | later
        · exact Nat.le_refl _
        · exact first y later
      -- nothing moved the state between the last place and this one
      have still : ∀ j, i ≤ j → j ≤ x.place / 2 → now j = now i := by
        intro j from_i to_x
        induction j, from_i using Nat.le_induction with
        | base => rfl
        | succ j from_i same =>
            rw [← same (by omega)]
            by_contra moved
            obtain ⟨y, member, at_j⟩ := moves j from_i ⟨x, List.mem_cons_self, to_x⟩ moved
            have := least y member
            omega
      have below := low x List.mem_cons_self
      have step := takes x List.mem_cons_self
      rw [still (x.place / 2) (by omega) (Nat.le_refl _)] at step
      have next : Legal object (now ((x.place + 1) / 2)) (rest.map Placed.toDone) := by
        refine ih sorted ?_ apart (fun y later => takes y (List.mem_cons_of_mem x later)) ?_
        · intro y later
          have := first y later
          have := own y later
          omega
        · rintro j from_x ⟨y, later, below⟩ moved
          obtain ⟨z, member, at_j⟩ :=
            moves j (by omega) ⟨y, List.mem_cons_of_mem x later, below⟩ moved
          rcases List.mem_cons.mp member with rfl | later
          · omega
          · exact ⟨z, later, at_j⟩
      refine ⟨?_, ?_⟩
      · rw [step]
      · rw [step]
        exact next

/-- A log whose returns take effect where they stand, or report an instant of the call. -/
theorem linearizable (begun : Recorded Begun log) (takes : Recorded (Takes object state) log) :
    Linearizable object (state []) log := by
  obtain ⟨xs, calls, fits, apart, moves⟩ := places begun takes
  obtain ⟨sorted, same, ordered⟩ : ∃ sorted : List (Placed T Call Ret), sorted.Perm xs ∧
      sorted.Pairwise fun x y => x.place ≤ y.place := by
    refine ⟨xs.mergeSort fun x y => decide (x.place ≤ y.place), List.mergeSort_perm _ _, ?_⟩
    refine (List.pairwise_mergeSort ?_ ?_ xs).imp of_decide_eq_true
    · intro x y z first second
      exact decide_eq_true ((of_decide_eq_true first).trans (of_decide_eq_true second))
    · intro x y
      rw [Bool.or_eq_true, decide_eq_true_iff, decide_eq_true_iff]
      exact Nat.le_total _ _
  have distinct : sorted.Pairwise fun x y => x.place = y.place → x.place % 2 = 0 := by
    apply same.symm.pairwise apart
    intro x y even equal
    rw [← even equal.symm, equal]
  refine ⟨sorted.map Placed.toDone, ?_, ?_, ?_⟩
  · rw [← calls]
    exact same.map _
  · have takes : ∀ x ∈ sorted, object x.thread x.call (state (log.take (x.place / 2))) =
        (x.value, state (log.take ((x.place + 1) / 2))) :=
      fun x member => (fits x (same.mem_iff.mp member)).takes
    refine legal_sorted (i := 0) (fun i => state (log.take i)) ordered (by simp) distinct takes ?_
    rintro j - ⟨x, member, below⟩ moved
    have before := (fits x (same.mem_iff.mp member)).before
    have inside := (fits x (same.mem_iff.mp member)).inside
    obtain ⟨y, found, at_j⟩ := moves j (by omega) moved
    exact ⟨y, same.mem_iff.mpr found, at_j⟩
  · rw [List.pairwise_map]
    apply ordered.imp_of_mem
    intro x y first second later
    have after := (fits x (same.mem_iff.mp first)).after
    have before := (fits y (same.mem_iff.mp second)).before
    omega

end Points
end Membridge.Linearizability
