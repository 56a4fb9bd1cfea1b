import Mathlib.Logic.Relation
import Mathlib.Tactic.Common

/-!
Programs over the atomic operations of a shared object. One constructor is one
atomic access; `loop` is a spin loop whose body starts with an access and says
whether to leave. Nothing here knows which object is shared: the operations,
their responses and their meaning are parameters.
-/
namespace Membridge.Program

inductive Prog (Op : Type) (Res : Op → Type) : Type → Type 1 where
  | ret {α : Type} (value : α) : Prog Op Res α
  | op {α : Type} (o : Op) (next : Res o → Prog Op Res α) : Prog Op Res α
  | loop {α : Type} (o : Op) (body : Res o → Prog Op Res Bool) (next : Prog Op Res α) :
      Prog Op Res α

variable {Op : Type} {Res : Op → Type} {S α β γ : Type}

namespace Prog

def bind {α β : Type} : Prog Op Res α → (α → Prog Op Res β) → Prog Op Res β
  | .ret value, f => f value
  | .op o next, f => .op o fun r => bind (next r) f
  | .loop o body next, f => .loop o body (bind next f)

instance : Monad (Prog Op Res) where
  pure := .ret
  bind := bind

/-- One access whose response is the program's value. -/
def perform (o : Op) : Prog Op Res (Res o) := .op o .ret

@[simp] theorem pure_eq (value : α) : (pure value : Prog Op Res α) = .ret value := rfl

@[simp] theorem bind_eq (p : Prog Op Res α) (f : α → Prog Op Res β) :
    (p >>= f) = p.bind f := rfl

@[simp] theorem ret_bind (value : α) (f : α → Prog Op Res β) :
    (Prog.ret value : Prog Op Res α).bind f = f value := rfl

@[simp] theorem op_bind (o : Op) (next : Res o → Prog Op Res α) (f : α → Prog Op Res β) :
    (Prog.op o next).bind f = .op o fun r => (next r).bind f := rfl

@[simp] theorem loop_bind (o : Op) (body : Res o → Prog Op Res Bool) (next : Prog Op Res α)
    (f : α → Prog Op Res β) :
    (Prog.loop o body next).bind f = .loop o body (next.bind f) := rfl

@[simp] theorem perform_bind (o : Op) (f : Res o → Prog Op Res β) :
    (perform o).bind f = .op o f := rfl

theorem bind_assoc (p : Prog Op Res α) (f : α → Prog Op Res β) (g : β → Prog Op Res γ) :
    (p.bind f).bind g = p.bind fun a => (f a).bind g := by
  induction p with
  | ret value => rfl
  | op o next ih =>
      simp only [op_bind]
      congr 1
      funext r
      exact ih r f
  | loop o body next _ ih =>
      simp only [loop_bind]
      rw [ih f]

theorem bind_ret (p : Prog Op Res α) : p.bind .ret = p := by
  induction p with
  | ret value => rfl
  | op o next ih => simp only [op_bind, ih]
  | loop o body next _ ih => simp only [loop_bind, ih]

/-- What a program does next: deliver its value, or perform an access and go on.
A loop that is not left starts again from its first access. -/
def head : Prog Op Res α → α ⊕ (Σ o : Op, Res o → Prog Op Res α)
  | .ret value => .inl value
  | .op o next => .inr ⟨o, next⟩
  | .loop o body next =>
      .inr ⟨o, fun r => (body r).bind fun leave => if leave then next else .loop o body next⟩

theorem head_ret {p : Prog Op Res α} {value : α} (stop : p.head = .inl value) :
    p = .ret value := by
  cases p with
  | ret a =>
      simp only [head, Sum.inl.injEq] at stop
      rw [stop]
  | op o next => simp [head] at stop
  | loop o body next => simp [head] at stop

/-- Runs a program with nobody else taking steps. A spin loop that is not left at
its first attempt would then never be left: no result. -/
def solo (exec : (o : Op) → S → Res o × S) {α : Type} : Prog Op Res α → S → Option (α × S)
  | .ret value, s => some (value, s)
  | .op o next, s => solo exec (next (exec o s).1) (exec o s).2
  | .loop o body next, s =>
      match solo exec (body (exec o s).1) (exec o s).2 with
      | some (true, after) => solo exec next after
      | _ => none

section Solo
variable (exec : (o : Op) → S → Res o × S)

@[simp] theorem solo_ret (value : α) (s : S) :
    solo exec (.ret value) s = some (value, s) := rfl

@[simp] theorem solo_op (o : Op) (next : Res o → Prog Op Res α) (s : S) :
    solo exec (.op o next) s = solo exec (next (exec o s).1) (exec o s).2 := rfl

theorem solo_bind (p : Prog Op Res α) (f : α → Prog Op Res β) (s : S) :
    solo exec (p.bind f) s = (solo exec p s).bind fun result =>
      solo exec (f result.1) result.2 := by
  induction p generalizing s with
  | ret value => rfl
  | op o next ih => exact ih _ f _
  | loop o body next _ ih =>
      simp only [loop_bind, solo]
      split
      · exact ih f _
      · rfl

/-- The accesses of that run with their responses, in order. -/
def accesses {α : Type} : Prog Op Res α → S → List (Σ o : Op, Res o)
  | .ret _, _ => []
  | .op o next, s => ⟨o, (exec o s).1⟩ :: accesses (next (exec o s).1) (exec o s).2
  | .loop o body next, s =>
      let inside := accesses (body (exec o s).1) (exec o s).2
      match solo exec (body (exec o s).1) (exec o s).2 with
      | some (true, after) => ⟨o, (exec o s).1⟩ :: inside ++ accesses next after
      | _ => ⟨o, (exec o s).1⟩ :: inside

end Solo
section Straight
variable {ok : Op → Prop}

/-- No loops, and every access is one that `ok` says. -/
def Straight (ok : Op → Prop) {α : Type} : Prog Op Res α → Prop
  | .ret _ => True
  | .op o next => ok o ∧ ∀ r, Straight ok (next r)
  | .loop _ _ _ => False

@[simp] theorem straight_ret (value : α) : Straight ok (.ret value : Prog Op Res α) := trivial

theorem straight_bind {p : Prog Op Res α} {f : α → Prog Op Res β} (first : Straight ok p)
    (later : ∀ a, Straight ok (f a)) : Straight ok (p.bind f) := by
  induction p with
  | ret value => exact later value
  | op o next ih => exact ⟨first.1, fun r => ih r (first.2 r) later⟩
  | loop o body next _ _ => exact first.elim

/-- Such a program always ends, and what it does with a part of the state depends on that
part only, as long as its accesses do. -/
theorem straight_solo {V : Type} {exec : (o : Op) → S → Res o × S} {part : S → V}
    (same : ∀ o s s', ok o → part s = part s' →
      (exec o s).1 = (exec o s').1 ∧ part (exec o s).2 = part (exec o s').2)
    {p : Prog Op Res α} (straight : Straight ok p) {s s' : S} (agree : part s = part s') :
    ∃ value after after', solo exec p s = some (value, after) ∧
      solo exec p s' = some (value, after') ∧ part after = part after' := by
  induction p generalizing s s' with
  | ret value => exact ⟨value, s, s', rfl, rfl, agree⟩
  | op o next ih =>
      obtain ⟨answer, left⟩ := same o s s' straight.1 agree
      obtain ⟨value, after, after', ran, ran', ends⟩ := ih _ (straight.2 _) left
      refine ⟨value, after, after', ran, ?_, ends⟩
      rw [solo_op, ← answer]
      exact ran'
  | loop o body next _ _ => exact straight.elim

theorem straight_accesses {exec : (o : Op) → S → Res o × S} {p : Prog Op Res α}
    (straight : Straight ok p) {s : S} {a : Σ o : Op, Res o} (made : a ∈ accesses exec p s) :
    ok a.1 := by
  induction p generalizing s with
  | ret value => cases made
  | op o next ih =>
      rcases List.mem_cons.mp made with rfl | later
      · exact straight.1
      · exact ih _ (straight.2 _) later
  | loop o body next _ _ => exact straight.elim

end Straight

/-- Every access is one that `ok` says, in a spin loop too. -/
def Only (ok : Op → Prop) {α : Type} : Prog Op Res α → Prop
  | .ret _ => True
  | .op o next => ok o ∧ ∀ r, Only ok (next r)
  | .loop o body next => ok o ∧ (∀ r, Only ok (body r)) ∧ Only ok next

section Fallible
variable {ε : Type}

/-- One access of a program that may also fail. -/
def access (o : Op) : ExceptT ε (Prog Op Res) (Res o) := ExceptT.lift (perform o)

@[simp] theorem run_bind (p : ExceptT ε (Prog Op Res) α) (f : α → ExceptT ε (Prog Op Res) β) :
    (p >>= f).run = p.run.bind fun result =>
      match result with
      | .ok value => (f value).run
      | .error e => .ret (.error e) := by
  change Prog.bind p _ = Prog.bind p _
  congr 1
  funext result
  cases result <;> rfl

@[simp] theorem run_pure (value : α) :
    (pure value : ExceptT ε (Prog Op Res) α).run = .ret (.ok value) := rfl

@[simp] theorem run_throw (e : ε) :
    (throw e : ExceptT ε (Prog Op Res) α).run = .ret (.error e) := rfl

@[simp] theorem run_ok (value : α) :
    (liftM (Except.ok value : Except ε α) : ExceptT ε (Prog Op Res) α).run = .ret (.ok value) := rfl

@[simp] theorem run_error (e : ε) :
    (liftM (Except.error e : Except ε α) : ExceptT ε (Prog Op Res) α).run = .ret (.error e) := rfl

@[simp] theorem run_lift (p : Prog Op Res α) :
    (ExceptT.lift p : ExceptT ε (Prog Op Res) α).run = p.bind fun value => .ret (.ok value) := rfl

@[simp] theorem run_liftM (p : Prog Op Res α) :
    (liftM p : ExceptT ε (Prog Op Res) α).run = p.bind fun value => .ret (.ok value) := rfl

@[simp] theorem run_access (o : Op) :
    (access o : ExceptT ε (Prog Op Res) (Res o)).run = .op o fun r => .ret (.ok r) := rfl

/-- A sequence ends in its first part with an error, or in its second. -/
theorem solo_run_bind {exec : (o : Op) → S → Res o × S} {p : ExceptT ε (Prog Op Res) α}
    {f : α → ExceptT ε (Prog Op Res) β} {s after : S} {result : Except ε β}
    (ran : solo exec (p >>= f).run s = some (result, after)) :
    (∃ e, solo exec p.run s = some (.error e, after) ∧ result = .error e) ∨
      ∃ value middle, solo exec p.run s = some (.ok value, middle) ∧
        solo exec (f value).run middle = some (result, after) := by
  rw [run_bind, solo_bind] at ran
  obtain ⟨⟨first, middle⟩, early, late⟩ := Option.bind_eq_some_iff.mp ran
  cases first with
  | ok value => exact .inr ⟨value, middle, early, late⟩
  | error e =>
      cases late
      exact .inl ⟨e, early, rfl⟩

/-- A first part whose outcome is known. -/
theorem solo_run_ok {exec : (o : Op) → S → Res o × S} {p : ExceptT ε (Prog Op Res) α}
    {f : α → ExceptT ε (Prog Op Res) β} {s middle : S} {value : α}
    (first : solo exec p.run s = some (.ok value, middle)) :
    solo exec (p >>= f).run s = solo exec (f value).run middle := by
  rw [run_bind, solo_bind, first]
  rfl

theorem solo_run_fails {exec : (o : Op) → S → Res o × S} {p : ExceptT ε (Prog Op Res) α}
    {f : α → ExceptT ε (Prog Op Res) β} {s middle : S} {e : ε}
    (first : solo exec p.run s = some (.error e, middle)) :
    solo exec (p >>= f).run s = some (.error e, middle) := by
  rw [run_bind, solo_bind, first]
  rfl

theorem accesses_bind (exec : (o : Op) → S → Res o × S) (p : Prog Op Res α)
    (f : α → Prog Op Res β) (s : S) :
    accesses exec (p.bind f) s = accesses exec p s ++
      match solo exec p s with
      | some (value, after) => accesses exec (f value) after
      | none => [] := by
  induction p generalizing s with
  | ret value => rfl
  | op o next ih =>
      simp only [op_bind, accesses, ih, solo_op]
      rfl
  | loop o body next _ ih =>
      simp only [loop_bind, accesses, solo]
      split
      · simp only [ih, List.append_assoc, List.cons_append]
      · simp

theorem straight_access {ok : Op → Prop} {o : Op} (may : ok o) :
    Straight ok (access o : ExceptT ε (Prog Op Res) (Res o)).run := ⟨may, fun _ => trivial⟩

theorem straight_run_bind {ok : Op → Prop} {p : ExceptT ε (Prog Op Res) α}
    {f : α → ExceptT ε (Prog Op Res) β} (first : Straight ok p.run)
    (later : ∀ value, Straight ok (f value).run) : Straight ok (p >>= f).run := by
  rw [run_bind]
  apply straight_bind first
  intro result
  cases result with
  | ok value => exact later value
  | error e => exact straight_ret _

/-- A sequence makes the accesses of its first part, -/
theorem accesses_first {exec : (o : Op) → S → Res o × S} {p : ExceptT ε (Prog Op Res) α}
    (f : α → ExceptT ε (Prog Op Res) β) {s : S} {a : Σ o : Op, Res o}
    (made : a ∈ accesses exec p.run s) : a ∈ accesses exec (p >>= f).run s := by
  rw [run_bind, accesses_bind]
  exact List.mem_append_left _ made

/-- and, if that has a value, those of the rest. -/
theorem accesses_later {exec : (o : Op) → S → Res o × S} {p : ExceptT ε (Prog Op Res) α}
    {f : α → ExceptT ε (Prog Op Res) β} {s middle : S} {value : α} {a : Σ o : Op, Res o}
    (first : solo exec p.run s = some (.ok value, middle))
    (made : a ∈ accesses exec (f value).run middle) : a ∈ accesses exec (p >>= f).run s := by
  rw [run_bind, accesses_bind, first]
  exact List.mem_append_right _ made

end Fallible
section Runs

/-- The runs of a program on its own, where an access may have several outcomes. A spin
loop is repeated until its body leaves. -/
def Runs (sem : S → (o : Op) → Res o → S → Prop) {α : Type} : Prog Op Res α → S → α → S → Prop
  | .ret value, s, result, last => result = value ∧ last = s
  | .op o next, s, result, last => ∃ r middle, sem s o r middle ∧
      Runs sem (next r) middle result last
  | .loop o body next, s, result, last =>
      ∃ top r middle after,
        Relation.ReflTransGen (fun a b => ∃ r m, sem a o r m ∧ Runs sem (body r) m false b) s top ∧
          sem top o r middle ∧ Runs sem (body r) middle true after ∧ Runs sem next after result last

variable {sem : S → (o : Op) → Res o → S → Prop}

@[simp] theorem runs_ret {value result : α} {s last : S} :
    Runs sem (.ret value) s result last ↔ result = value ∧ last = s := Iff.rfl

theorem runs_bind {p : Prog Op Res α} {f : α → Prog Op Res β} {s last : S} {result : β} :
    Runs sem (p.bind f) s result last ↔
      ∃ value middle, Runs sem p s value middle ∧ Runs sem (f value) middle result last := by
  induction p generalizing s with
  | ret value =>
      constructor
      · intro ran
        exact ⟨value, s, ⟨rfl, rfl⟩, ran⟩
      · rintro ⟨_, _, ⟨rfl, rfl⟩, ran⟩
        exact ran
  | op o next ih =>
      constructor
      · rintro ⟨r, middle, does, ran⟩
        obtain ⟨value, there, first, later⟩ := (ih r).mp ran
        exact ⟨value, there, ⟨r, middle, does, first⟩, later⟩
      · rintro ⟨value, there, ⟨r, middle, does, first⟩, later⟩
        exact ⟨r, middle, does, (ih r).mpr ⟨value, there, first, later⟩⟩
  | loop o body next _ ih =>
      constructor
      · rintro ⟨top, r, middle, after, repeats, does, leaves, ran⟩
        obtain ⟨value, there, first, later⟩ := ih.mp ran
        exact ⟨value, there, ⟨top, r, middle, after, repeats, does, leaves, first⟩, later⟩
      · rintro ⟨value, there, ⟨top, r, middle, after, repeats, does, leaves, first⟩, later⟩
        exact ⟨top, r, middle, after, repeats, does, leaves, ih.mpr ⟨value, there, first, later⟩⟩

/-- A sequence fails in its first part, or its second goes on from what the first left. -/
theorem runs_run_bind {ε : Type} {p : ExceptT ε (Prog Op Res) α} {f : α → ExceptT ε (Prog Op Res) β}
    {s last : S} {result : Except ε β} :
    Runs sem (p >>= f).run s result last ↔
      (∃ e, Runs sem p.run s (.error e) last ∧ result = .error e) ∨
        ∃ value middle, Runs sem p.run s (.ok value) middle ∧
          Runs sem (f value).run middle result last := by
  rw [run_bind, runs_bind]
  constructor
  · rintro ⟨first, middle, early, late⟩
    cases first with
    | ok value => exact .inr ⟨value, middle, early, late⟩
    | error e =>
        obtain ⟨rfl, rfl⟩ := late
        exact .inl ⟨e, early, rfl⟩
  · rintro (⟨e, early, rfl⟩ | ⟨value, middle, early, late⟩)
    · exact ⟨.error e, last, early, rfl, rfl⟩
    · exact ⟨.ok value, middle, early, late⟩

/-- A run with the responses of one choice is one of them. -/
theorem solo_runs {exec : (o : Op) → S → Res o × S}
    (faithful : ∀ s o, sem s o (exec o s).1 (exec o s).2) {p : Prog Op Res α}
    {s last : S} {result : α}
    (ran : solo exec p s = some (result, last)) : Runs sem p s result last := by
  induction p generalizing s last with
  | ret value =>
      cases ran
      exact ⟨rfl, rfl⟩
  | op o next ih => exact ⟨_, _, faithful s o, ih _ ran⟩
  | loop o body next bodyIh ih =>
      simp only [solo] at ran
      split at ran
      · next after leaves => exact ⟨s, _, _, after, .refl, faithful s o, bodyIh _ leaves, ih ran⟩
      · cases ran

end Runs
end Prog

section Sequence
variable {Call : Type} {step : S → Call → S → Prop} {may : S → Call → Prop} {start : S}

/-- What calls made one after another lead to, each of them one that `may` allows in the
state it is made in. -/
inductive Sequence (step : S → Call → S → Prop) (may : S → Call → Prop) (start : S) : S → Prop where
  | start : Sequence step may start start
  | snoc {s after : S} (run : Sequence step may start s) (c : Call) (allowed : may s c)
      (made : step s c after) : Sequence step may start after

/-- What holds at the start and is kept by every call holds after every sequence of them. -/
theorem Sequence.invariant (inv : S → Prop) (init : inv start)
    (keeps : ∀ s c after, inv s → may s c → step s c after → inv after) {last : S}
    (run : Sequence step may start last) : inv last := by
  induction run with
  | start => exact init
  | snoc _ c allowed made ih => exact keeps _ c _ ih allowed made

end Sequence
end Membridge.Program
