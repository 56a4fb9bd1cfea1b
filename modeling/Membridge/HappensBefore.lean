import Mathlib.Logic.Relation
import Membridge.Interleaving

/-!
Data races in a log. Each access is plain or atomic, and an atomic one acquires,
releases or is relaxed. Happens-before is program order together with the
releases that are read from: a release is, by an acquire behind it, as long as
only read-modify-writes stored to the location in between. A log is free of races
if it orders every plain access and every access it conflicts with.
-/
namespace Membridge.HappensBefore
open Interleaving

inductive Mode where
  | read
  | write
  | load (acquire : Bool)
  | store (release : Bool)
  | update (acquire release : Bool)
  deriving DecidableEq

namespace Mode

def plain : Mode → Bool
  | read => true
  | write => true
  | _ => false

def writes : Mode → Bool
  | write => true
  | store _ => true
  | update _ _ => true
  | _ => false

/-- A read-modify-write: what was released before it can still be acquired behind it. -/
def updates : Mode → Bool
  | update _ _ => true
  | _ => false

def acquires : Mode → Bool
  | load acquire => acquire
  | update acquire _ => acquire
  | _ => false

def releases : Mode → Bool
  | store release => release
  | update _ release => release
  | _ => false

end Mode

section Order
variable {T Call Ret Op Loc : Type} {Res : Op → Type} (touch : Call → (o : Op) → Res o → Loc × Mode)

/-- Which location an event goes to, and how. -/
def touched : Event T Call Ret Op Res → Option (Loc × Mode)
  | .access _ _ c o r => some (touch c o r)
  | _ => none

/-- At place `i` thread `t` goes to `l` by `m`. -/
def Goes (log : List (Event T Call Ret Op Res)) (i : Nat) (t : T) (l : Loc) (m : Mode) : Prop :=
  ∃ e, log[i]? = some e ∧ e.thread = t ∧ touched touch e = some (l, m)

/-- Who goes where at a place of a log, and how. -/
def visit (log : List (Event T Call Ret Op Res)) (i : Nat) : Option (T × Loc × Mode) :=
  log[i]?.bind fun e => (touched touch e).map fun a => (e.thread, a)

variable (log : List (Event T Call Ret Op Res))

inductive Edge : Nat → Nat → Prop where
  | program {i j : Nat} {t : T} {l l' : Loc} {m m' : Mode} (before : i < j)
      (first : Goes touch log i t l m)
      (second : Goes touch log j t l' m') : Edge i j
  | synchronizes {i j : Nat} {t u : T} {l : Loc} {m n : Mode} (before : i < j)
      (first : Goes touch log i t l m) (releases : m.releases = true)
      (second : Goes touch log j u l n)
      (acquires : n.acquires = true)
      (between : ∀ k v o, i < k → k < j → Goes touch log k v l o →
        o.writes = true → o.updates = true) :
      Edge i j

def Before : Nat → Nat → Prop := Relation.TransGen (Edge touch log)

/-- Two accesses to one location by different threads, one of them a write, one of them plain. -/
structure Conflict (i j : Nat) (t u : T) (l : Loc) (m n : Mode) : Prop where
  apart : t ≠ u
  first : Goes touch log i t l m
  second : Goes touch log j u l n
  written : m.writes = true ∨ n.writes = true
  plain : m.plain = true ∨ n.plain = true

def RaceFree : Prop :=
  ∀ i j t u l m n, i < j → Conflict touch log i j t u l m n → Before touch log i j

/-- What is right about an event is so at its place. -/
theorem recorded_at {ok : List (Event T Call Ret Op Res) → Event T Call Ret Op Res → Prop}
    {log : List (Event T Call Ret Op Res)} {i : Nat} {e : Event T Call Ret Op Res}
    (all : Recorded ok log) (found : log[i]? = some e) : ok (log.take i) e := by
  obtain ⟨inside, rfl⟩ := List.getElem?_eq_some_iff.mp found
  apply all _ _ (log.drop (i + 1))
  rw [List.getElem_cons_drop, List.take_append_drop]

/-- An event of a part of a log is one of the log. -/
theorem found_before {log seen mid : List (Event T Call Ret Op Res)} {i : Nat}
    {e : Event T Call Ret Op Res} (cut : log.take i = seen ++ e :: mid) :
    seen.length < i ∧ log[seen.length]? = some e ∧ log.take seen.length = seen := by
  have inside : seen.length < i := by
    have size := congrArg List.length cut
    rw [List.length_take, List.length_append, List.length_cons] at size
    omega
  refine ⟨inside, ?_, ?_⟩
  · rw [← List.getElem?_take_of_lt inside, cut, List.getElem?_append_right (Nat.le_refl _),
      Nat.sub_self, List.getElem?_cons_zero]
  · rw [← Nat.min_eq_left (Nat.le_of_lt inside), ← List.take_take, cut, List.take_left]

/-- What a log collects changes between two places only by an event there. -/
theorem moved_between {β : Type} {f : Event T Call Ret Op Res → Option β}
    {log : List (Event T Call Ret Op Res)} {i j : Nat} (before : i ≤ j)
    (moved : (log.take j).filterMap f ≠ (log.take i).filterMap f) :
    ∃ k e, i ≤ k ∧ k < j ∧ log[k]? = some e ∧ f e ≠ none := by
  induction j, before using Nat.le_induction with
  | base => exact absurd rfl moved
  | succ j before ih =>
      rw [List.take_add_one, List.filterMap_append] at moved
      by_cases same : (log.take j).filterMap f = (log.take i).filterMap f
      · cases found : log[j]? with
        | none => simp [found, same] at moved
        | some e =>
            refine ⟨j, e, before, Nat.lt_succ_self j, found, ?_⟩
            intro absent
            simp [found, same, absent] at moved
      · obtain ⟨k, e, after, inside, found, contributes⟩ := ih same
        exact ⟨k, e, after, by omega, found, contributes⟩

variable {touch log} {i j : Nat} {t u : T} {l l' : Loc} {m n : Mode}

theorem goes_visit (visited : visit touch log i = some (t, l, m)) : Goes touch log i t l m := by
  obtain ⟨e, found, went⟩ := Option.bind_eq_some_iff.mp visited
  obtain ⟨a, aim, same⟩ := Option.map_eq_some_iff.mp went
  cases same
  exact ⟨e, found, rfl, aim⟩

theorem Before.trans {k : Nat} (first : Before touch log i j) (second : Before touch log j k) :
    Before touch log i k := Relation.TransGen.trans first second

theorem before_program (before : i < j) (first : Goes touch log i t l m)
    (second : Goes touch log j t l' n) :
    Before touch log i j := .single (.program before first second)

/-- What holds at one place and not at a later one ends at a place in between. -/
theorem ends_between (ok : Nat → Prop) (before : i ≤ j) (first : ok i) (last : ¬ ok j) :
    ∃ k, i ≤ k ∧ k < j ∧ ok k ∧ ¬ ok (k + 1) := by
  induction j, before using Nat.le_induction with
  | base => exact absurd first last
  | succ j before ih =>
      by_cases still : ok j
      · exact ⟨j, before, Nat.lt_succ_self j, still, last⟩
      · obtain ⟨k, after, inside, now, then_not⟩ := ih still
        exact ⟨k, after, by omega, now, then_not⟩

/-- Of the places between `i` and `j` that are `ok`, the last one. -/
theorem last_between {ok : Nat → Prop} (present : ∃ k, i < k ∧ k < j ∧ ok k) :
    ∃ k, i < k ∧ k < j ∧ ok k ∧ ∀ k', k < k' → k' < j → ¬ ok k' := by
  induction j with
  | zero =>
      obtain ⟨k, -, inside, -⟩ := present
      exact absurd inside (Nat.not_lt_zero k)
  | succ j ih =>
      by_cases last : i < j ∧ ok j
      · exact ⟨j, last.1, Nat.lt_succ_self j, last.2, by omega⟩
      · obtain ⟨k, after, inside, fine⟩ := present
        have below : k < j := by
          by_contra top
          have same : k = j := by omega
          exact last ⟨same ▸ after, same ▸ fine⟩
        obtain ⟨k, after, inside, fine, noneAfter⟩ := ih ⟨k, after, below, fine⟩
        refine ⟨k, after, by omega, fine, ?_⟩
        intro k' later within ok'
        by_cases top : k' = j
        · exact last ⟨by omega, top ▸ ok'⟩
        · exact noneAfter k' later (by omega) ok'

/-- A location that one thread writes, always releasing: what this thread did before one of
its writes happens before an acquire that comes behind that write. -/
theorem before_owned (owned : ∀ k v o, Goes touch log k v l o →
      o.writes = true → v = t ∧ o.releases = true)
    (first : Goes touch log i t l' m) (second : Goes touch log j u l n)
    (acquires : n.acquires = true)
    (stored : ∃ k, i < k ∧ k < j ∧ ∃ v o, Goes touch log k v l o ∧ o.writes = true) :
    Before touch log i j := by
  obtain ⟨k, after, inside, ⟨v, o, goes, writes⟩, noneAfter⟩ := last_between stored
  obtain ⟨rfl, releases⟩ := owned k v o goes writes
  apply (before_program after first goes).trans
  refine .single (.synchronizes inside goes releases second acquires ?_)
  intro k' v' o' later within goes' writes'
  exact absurd ⟨v', o', goes', writes'⟩ (noneAfter k' later within)

/-- A location of a lock: plain stores to it are releases of threads that acquired it after `i`.
A release of it at `i` then happens before every later acquire. -/
theorem before_locked {v : T} {o : Mode} (first : Goes touch log i v l o)
    (releases : o.releases = true)
    (regained : ∀ k t m, i < k → Goes touch log k t l m → m.writes = true → m.updates = false →
      m.releases = true ∧ ∃ k' n, i < k' ∧ k' < k ∧ Goes touch log k' t l n ∧ n.acquires = true)
    (second : Goes touch log j u l n) (acquires : n.acquires = true) (before : i < j) :
    Before touch log i j := by
  induction j using Nat.strong_induction_on generalizing u n with
  | _ j ih =>
      by_cases stored : ∃ k, i < k ∧ k < j ∧
          ∃ t m, Goes touch log k t l m ∧ m.writes = true ∧ m.updates = false
      · obtain ⟨k, after, inside, ⟨t, m, goes, writes, stores⟩, noneAfter⟩ := last_between stored
        obtain ⟨released, k', n', later, sooner, entry, gained⟩ :=
          regained k t m after goes writes stores
        -- the last thread that stored had itself acquired before
        apply (ih k' (by omega) entry gained later).trans
        apply (before_program sooner entry goes).trans
        refine .single (.synchronizes inside goes released second acquires ?_)
        intro x v' o' above below goes' writes'
        by_contra plain
        exact noneAfter x above below ⟨v', o', goes', writes', by simpa using plain⟩
      · refine .single (.synchronizes before first releases second acquires ?_)
        intro x v' o' above below goes' writes'
        by_contra plain
        exact stored ⟨x, above, below, v', o', goes', writes', by simpa using plain⟩

end Order
end Membridge.HappensBefore
