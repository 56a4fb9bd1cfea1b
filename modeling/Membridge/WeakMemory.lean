import Mathlib.Logic.Function.Basic
import Membridge.HappensBefore

/-!
Release and acquire without one order of all accesses. A location keeps the writes
made to it, each with what its writer knew of all locations; a thread knows one write
of each location and may read that one or any later one. An acquire learns what the
writer knew. A new write is the newest of its location: that is so where every
location has one writer, and nowhere else is this memory meant.
-/
namespace Membridge.WeakMemory
open HappensBefore

/-- The place of one write of each location. -/
abbrev View (Loc : Type) := Loc → Nat

structure Write (Loc V : Type) where
  value : V
  view : View Loc

structure Memory (T Loc : Type) (Val : Loc → Type) where
  writes : (l : Loc) → List (Write Loc (Val l))
  knows : T → View Loc

variable {T Loc : Type} {Val : Loc → Type}

/-- One write to every location, and everybody knows it. -/
def Memory.start (value : (l : Loc) → Val l) : Memory T Loc Val :=
  ⟨fun l => [⟨value l, fun _ => 0⟩], fun _ _ => 0⟩

variable [DecidableEq T] [DecidableEq Loc]

/-- What a reader knows that knew `known` and reads write `i` of `l`. -/
def learned (known : View Loc) (l : Loc) (i : Nat) (m : Mode) (view : View Loc) : View Loc :=
  if m.acquires then fun l' => max (Function.update known l i l') (view l')
  else Function.update known l i

inductive Reads (t : T) (l : Loc) (m : Mode) (s : Memory T Loc Val) :
    Val l → Memory T Loc Val → Prop where
  | read (i : Nat) (w : Write Loc (Val l)) (fresh : s.knows t l ≤ i)
      (found : (s.writes l)[i]? = some w) :
      Reads t l m s w.value
        { s with knows := Function.update s.knows t (learned (s.knows t) l i m w.view) }

/-- What write `place` of `l` tells its readers: without a release, of nothing but itself. -/
def told (known : View Loc) (l : Loc) (place : Nat) (m : Mode) : View Loc :=
  Function.update (if m.releases then known else fun _ => 0) l place

def Memory.write (s : Memory T Loc Val) (t : T) (l : Loc) (m : Mode) (v : Val l) :
    Memory T Loc Val :=
  let place := (s.writes l).length
  ⟨Function.update s.writes l (s.writes l ++ [⟨v, told (s.knows t) l place m⟩]),
    Function.update s.knows t (Function.update (s.knows t) l place)⟩

/-- Views are of writes that were made, and a write knows its own place. -/
structure Sane (s : Memory T Loc Val) : Prop where
  known : ∀ t l, s.knows t l < (s.writes l).length
  views : ∀ l (i : Nat) (w : Write Loc (Val l)), (s.writes l)[i]? = some w →
    ∀ l', w.view l' < (s.writes l').length
  own : ∀ l (i : Nat) (w : Write Loc (Val l)), (s.writes l)[i]? = some w → w.view l = i

omit [DecidableEq T] [DecidableEq Loc] in
theorem sane_start (value : (l : Loc) → Val l) : Sane (Memory.start value : Memory T Loc Val) := by
  refine ⟨fun _ _ => Nat.zero_lt_one, fun _ _ _ found _ => ?_, ?_⟩
  · obtain ⟨_, rfl⟩ := List.getElem?_eq_some_iff.mp found
    simp [Memory.start]
  · intro l i w found
    obtain ⟨inside, rfl⟩ := List.getElem?_eq_some_iff.mp found
    simp only [Memory.start, List.length_singleton, Nat.lt_one_iff] at inside
    simp [Memory.start, inside]

section Reading
variable {t : T} {l l' : Loc} {m : Mode} {s after : Memory T Loc Val} {v : Val l} {i : Nat}
  {w : Write Loc (Val l)} {known view : View Loc}

/-- What is known afterwards if write `i` knows its own place. -/
def joined (known view : View Loc) (l : Loc) (i : Nat) (m : Mode) : View Loc :=
  if m.acquires then fun l' => max (known l') (view l') else Function.update known l i

omit [DecidableEq T] in
theorem learned_joined (fresh : known l ≤ i) (own : view l = i) :
    learned known l i m view = joined known view l i m := by
  unfold learned joined
  split
  · funext l'
    by_cases same : l' = l
    · subst same
      rw [Function.update_self, own, Nat.max_self, Nat.max_eq_right fresh]
    · rw [Function.update_of_ne same]
  · rfl

omit [DecidableEq T] in
theorem joined_here (fresh : known l ≤ i) (own : view l = i) : joined known view l i m l = i := by
  unfold joined
  split
  · change max (known l) (view l) = i
    rw [own]
    exact Nat.max_eq_right fresh
  · exact Function.update_self ..

omit [DecidableEq T] in
theorem joined_more (fresh : known l ≤ i) : known l' ≤ joined known view l i m l' := by
  unfold joined
  split
  · exact Nat.le_max_left _ _
  · by_cases same : l' = l
    · subst same
      rwa [Function.update_self]
    · rw [Function.update_of_ne same]

/-- A read of write `i` by `t`: the writes stay, and `t` knows more. -/
structure Learns (t : T) (l : Loc) (m : Mode) (s after : Memory T Loc Val) (v : Val l) (i : Nat)
    (w : Write Loc (Val l)) : Prop where
  fresh : s.knows t l ≤ i
  found : (s.writes l)[i]? = some w
  own : w.view l = i
  value : v = w.value
  writes : after.writes = s.writes
  others : ∀ u, u ≠ t → after.knows u = s.knows u
  knows : after.knows t = joined (s.knows t) w.view l i m

theorem Reads.learns (sane : Sane s) (reads : Reads t l m s v after) :
    ∃ i w, Learns t l m s after v i w := by
  obtain ⟨i, w, fresh, found⟩ := reads
  have own := sane.own l i w found
  refine ⟨i, w, fresh, found, own, rfl, rfl, fun u other => Function.update_of_ne other _ _, ?_⟩
  rw [← learned_joined fresh own]
  exact Function.update_self ..

omit [DecidableEq T] in
theorem Learns.inside (learns : Learns t l m s after v i w) : i < (s.writes l).length :=
  (List.getElem?_eq_some_iff.mp learns.found).1

omit [DecidableEq T] in
theorem Learns.here (learns : Learns t l m s after v i w) : after.knows t l = i := by
  rw [learns.knows]
  exact joined_here learns.fresh learns.own

omit [DecidableEq T] in
theorem Learns.more (learns : Learns t l m s after v i w) (l' : Loc) :
    s.knows t l' ≤ after.knows t l' := by
  rw [learns.knows]
  exact joined_more learns.fresh

theorem Learns.sane (learns : Learns t l m s after v i w) (sane : Sane s) : Sane after := by
  refine ⟨?_, by rw [learns.writes]; exact sane.views, by rw [learns.writes]; exact sane.own⟩
  intro u l'
  rw [learns.writes]
  by_cases same : u = t
  · subst same
    rw [learns.knows, joined]
    split
    · exact Nat.max_lt.mpr ⟨sane.known u l', sane.views l i w learns.found l'⟩
    · by_cases here : l' = l
      · subst here
        rw [Function.update_self]
        exact learns.inside
      · rw [Function.update_of_ne here]
        exact sane.known u l'
  · rw [learns.others u same]
    exact sane.known u l'

/-- Who knows the newest write of a location still does after a read. -/
theorem Learns.newest {u : T} (learns : Learns t l m s after v i w) (sane : Sane s)
    (owned : s.knows u l' + 1 = (s.writes l').length) : after.knows u l' = s.knows u l' := by
  by_cases same : u = t
  · subst same
    have more := learns.more l'
    have known := (learns.sane sane).known u l'
    rw [learns.writes] at known
    omega
  · rw [learns.others u same]

end Reading

section Writing
variable {t u : T} {l l' : Loc} {m : Mode} {s : Memory T Loc Val} {v : Val l} {i : Nat}

theorem write_here : (s.write t l m v).writes l =
    s.writes l ++ [⟨v, told (s.knows t) l (s.writes l).length m⟩] := by
  simp [Memory.write]

theorem write_elsewhere (other : l' ≠ l) : (s.write t l m v).writes l' = s.writes l' := by
  simp [Memory.write, other]

theorem write_length : ((s.write t l m v).writes l).length = (s.writes l).length + 1 := by
  simp [write_here]

theorem write_grows : (s.writes l').length ≤ ((s.write t l m v).writes l').length := by
  by_cases same : l' = l
  · subst same
    rw [write_length]
    exact Nat.le_succ _
  · rw [write_elsewhere same]

theorem write_knows : (s.write t l m v).knows t =
    Function.update (s.knows t) l (s.writes l).length := by
  simp [Memory.write]

theorem write_others (other : u ≠ t) : (s.write t l m v).knows u = s.knows u := by
  simp [Memory.write, other]

theorem write_more (sane : Sane s) : s.knows u l' ≤ (s.write t l m v).knows u l' := by
  by_cases own : u = t
  · subst own
    rw [write_knows]
    by_cases same : l' = l
    · subst same
      rw [Function.update_self]
      exact Nat.le_of_lt (sane.known u l')
    · rw [Function.update_of_ne same]
  · rw [write_others own]

/-- What was written stays where it is. -/
theorem write_keeps {w : Write Loc (Val l')} (found : (s.writes l')[i]? = some w) :
    ((s.write t l m v).writes l')[i]? = some w := by
  by_cases same : l' = l
  · subst same
    rw [write_here, List.getElem?_append_left (List.getElem?_eq_some_iff.mp found).1]
    exact found
  · rw [write_elsewhere same]
    exact found

/-- A write is an old one or the new one. -/
theorem write_found {w : Write Loc (Val l)} (found : ((s.write t l m v).writes l)[i]? = some w) :
    (s.writes l)[i]? = some w ∨ i = (s.writes l).length ∧ w.value = v ∧
      w.view = told (s.knows t) l (s.writes l).length m := by
  rw [write_here] at found
  by_cases old : i < (s.writes l).length
  · rw [List.getElem?_append_left old] at found
    exact .inl found
  · rw [List.getElem?_append_right (Nat.not_lt.mp old)] at found
    obtain ⟨inside, rfl⟩ := List.getElem?_eq_some_iff.mp found
    rw [List.length_singleton] at inside
    refine .inr ⟨by omega, ?_⟩
    simp

/-- What all views satisfy stays so if the new one does. -/
theorem write_views (ok : Loc → Nat → View Loc → Prop)
    (old : ∀ l i (w : Write Loc (Val l)), (s.writes l)[i]? = some w → ok l i w.view)
    (new : ok l (s.writes l).length (told (s.knows t) l (s.writes l).length m)) :
    ∀ l' i (w : Write Loc (Val l')), ((s.write t l m v).writes l')[i]? = some w →
      ok l' i w.view := by
  intro l' i w found
  by_cases same : l' = l
  · subst same
    rcases write_found found with before | ⟨rfl, -, view⟩
    · exact old _ i w before
    · rw [view]
      exact new
  · rw [write_elsewhere same] at found
    exact old l' i w found

theorem Sane.write (sane : Sane s) : Sane (s.write t l m v) := by
  have grown : ∀ known : View Loc, (∀ l', known l' < (s.writes l').length) →
      ∀ l', Function.update known l (s.writes l).length l' <
        ((s.write t l m v).writes l').length := by
    intro known inside l'
    by_cases same : l' = l
    · subst same
      rw [Function.update_self, write_length]
      exact Nat.lt_succ_self _
    · rw [Function.update_of_ne same, write_elsewhere same]
      exact inside l'
  refine ⟨?_, write_views
      (fun _ _ view => ∀ l', view l' < ((s.write t l m v).writes l').length) ?_ ?_,
    write_views (fun l i view => view l = i) sane.own (Function.update_self ..)⟩
  · intro u l'
    by_cases same : u = t
    · subst same
      rw [write_knows]
      exact grown _ (sane.known u) l'
    · rw [write_others same]
      exact Nat.lt_of_lt_of_le (sane.known u l') write_grows
  · intro l₁ i w found l'
    exact Nat.lt_of_lt_of_le (sane.views _ i w found l') write_grows
  · apply grown
    intro l'
    split
    · exact sane.known t l'
    · exact Nat.lt_of_le_of_lt (Nat.zero_le _) (sane.known t l')

end Writing
end Membridge.WeakMemory
