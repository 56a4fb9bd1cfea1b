import Mathlib.Data.List.Infix
import Mathlib.Logic.Function.Basic
import Mathlib.Tactic.Common
import Membridge.Program

/-!
Threads that call programs over one shared object, interleaved access by access.
Starting a call is a step; returning is part of the call's last access, so a
caller sees a result at the very step that produced it. The log keeps every
step: a call is named by the number of events that precede its start.
-/
namespace Membridge.Interleaving
open Program

inductive Event (T Call Ret Op : Type) (Res : Op → Type) where
  | invoke (thread : T) (id : Nat) (call : Call)
  | access (thread : T) (id : Nat) (call : Call) (o : Op) (r : Res o)
  | finish (thread : T) (id : Nat) (call : Call) (value : Ret)

structure World (T Call Ret Op : Type) (Res : Op → Type) (S : Type) where
  mem : S
  log : List (Event T Call Ret Op Res)

structure Running (Call Ret Op : Type) (Res : Op → Type) where
  id : Nat
  call : Call
  rest : Prog Op Res Ret

structure Config (T Call Ret Op : Type) (Res : Op → Type) (S : Type) where
  world : World T Call Ret Op Res S
  running : T → Option (Running Call Ret Op Res)

/-- `sem` is what an access of a call may do, `allowed` which calls a thread makes;
`enabled` is a condition on the runs considered, `True` for all of them. -/
structure System (T Call Ret Op : Type) (Res : Op → Type) (S : Type) where
  code : T → Call → Prog Op Res Ret
  sem : T → Call → S → (o : Op) → Res o → S → Prop
  allowed : T → Call → Prop
  enabled : World T Call Ret Op Res S → T → Call → Op → Prop

variable {T Call Ret Op S : Type} {Res : Op → Type}

def Event.thread : Event T Call Ret Op Res → T
  | .invoke t _ _ => t
  | .access t _ _ _ _ => t
  | .finish t _ _ _ => t

def Event.call : Event T Call Ret Op Res → Call
  | .invoke _ _ c => c
  | .access _ _ c _ _ => c
  | .finish _ _ c _ => c

@[simp] theorem Event.thread_invoke (t : T) (id : Nat) (c : Call) :
    (Event.invoke t id c : Event T Call Ret Op Res).thread = t := rfl

@[simp] theorem Event.thread_access (t : T) (id : Nat) (c : Call) (o : Op) (r : Res o) :
    (Event.access t id c o r : Event T Call Ret Op Res).thread = t := rfl

@[simp] theorem Event.thread_finish (t : T) (id : Nat) (c : Call) (value : Ret) :
    (Event.finish t id c value : Event T Call Ret Op Res).thread = t := rfl

def Event.isAccess : Event T Call Ret Op Res → Bool
  | .access _ _ _ _ _ => true
  | _ => false

/-- From `before` to `after` the thread `t` made accesses only: no call of its started or ended. -/
def Meanwhile (t : T) (before after : List (Event T Call Ret Op Res)) : Prop :=
  ∃ more, after = before ++ more ∧ ∀ e ∈ more, e.thread = t → e.isAccess = true

/-- Every event of a log is right about what precedes it. -/
def Recorded (ok : List (Event T Call Ret Op Res) → Event T Call Ret Op Res → Prop)
    (log : List (Event T Call Ret Op Res)) : Prop :=
  ∀ before e after, log = before ++ e :: after → ok before e

section Logs
variable {ok : List (Event T Call Ret Op Res) → Event T Call Ret Op Res → Prop}
  {a b c : List (Event T Call Ret Op Res)} {t : T}

theorem recorded_nil : Recorded ok [] := by
  intro before e after cut
  simp at cut

theorem recorded_snoc {e : Event T Call Ret Op Res} :
    Recorded ok (a ++ [e]) ↔ Recorded ok a ∧ ok a e := by
  constructor
  · intro all
    constructor
    · intro before x after cut
      exact all before x (after ++ [e]) (by simp [cut])
    · exact all a e [] rfl
  · rintro ⟨early, last⟩ before x after cut
    rcases List.eq_nil_or_concat after with rfl | ⟨rest, y, rfl⟩
    · obtain ⟨rfl, same⟩ := List.append_inj' cut rfl
      cases same
      exact last
    · have inner : a ++ [e] = (before ++ x :: rest) ++ [y] := by simp [cut]
      obtain ⟨rfl, -⟩ := List.append_inj' inner rfl
      exact early before x rest rfl

theorem recorded_early (all : Recorded ok b) (early : a <+: b) : Recorded ok a := by
  obtain ⟨more, rfl⟩ := early
  intro before e after cut
  exact all before e (after ++ more) (by simp [cut])

theorem meanwhile_refl : Meanwhile t a a := ⟨[], by simp, by simp⟩

theorem meanwhile_trans (first : Meanwhile t a b) (second : Meanwhile t b c) :
    Meanwhile t a c := by
  obtain ⟨x, rfl, quietX⟩ := first
  obtain ⟨y, rfl, quietY⟩ := second
  refine ⟨x ++ y, by rw [List.append_assoc], ?_⟩
  intro e member
  rcases List.mem_append.mp member with inX | inY
  · exact quietX e inX
  · exact quietY e inY

theorem meanwhile_access {id : Nat} {call : Call} {o : Op} {r : Res o} :
    Meanwhile t a (a ++ [.access t id call o r]) :=
  ⟨_, rfl, by simp [Event.isAccess]⟩

theorem meanwhile_early (quiet : Meanwhile t a b) : a <+: b := by
  obtain ⟨more, rfl, -⟩ := quiet
  exact List.prefix_append a more

/-- What a thread's own calls contribute does not change meanwhile. -/
theorem meanwhile_filterMap {β : Type} {f : Event T Call Ret Op Res → Option β}
    (own : ∀ e, e.thread ≠ t ∨ e.isAccess = true → f e = none) (quiet : Meanwhile t a b) :
    b.filterMap f = a.filterMap f := by
  obtain ⟨more, rfl, quiet⟩ := quiet
  have nothing : more.filterMap f = [] := by
    rw [List.filterMap_eq_nil_iff]
    intro e member
    by_cases same : e.thread = t
    · exact own e (.inr (quiet e member same))
    · exact own e (.inl same)
  rw [List.filterMap_append, nothing, List.append_nil]

theorem meanwhile_foldl {β : Type} {f : β → Event T Call Ret Op Res → β} {start : β}
    (own : ∀ s e, e.thread ≠ t ∨ e.isAccess = true → f s e = s) (quiet : Meanwhile t a b) :
    b.foldl f start = a.foldl f start := by
  obtain ⟨more, rfl, quiet⟩ := quiet
  rw [List.foldl_append]
  generalize a.foldl f start = s
  induction more with
  | nil => rfl
  | cons e rest ih =>
      have skip : f s e = s := by
        by_cases same : e.thread = t
        · exact own s e (.inr (quiet e List.mem_cons_self same))
        · exact own s e (.inl same)
      rw [List.foldl_cons, skip]
      exact ih fun x member => quiet x (List.mem_cons_of_mem e member)

end Logs

def World.push (w : World T Call Ret Op Res S) (e : Event T Call Ret Op Res) :
    World T Call Ret Op Res S := ⟨w.mem, w.log ++ [e]⟩

@[simp] theorem World.push_mem (w : World T Call Ret Op Res S) (e : Event T Call Ret Op Res) :
    (w.push e).mem = w.mem := rfl

@[simp] theorem World.push_log (w : World T Call Ret Op Res S) (e : Event T Call Ret Op Res) :
    (w.push e).log = w.log ++ [e] := rfl

/-- The calls of `sys`, over the runs whose accesses all meet `cond`. -/
def System.under (sys : System T Call Ret Op Res S)
    (cond : World T Call Ret Op Res S → T → Call → Op → Prop) : System T Call Ret Op Res S :=
  { sys with enabled := fun w t c o => sys.enabled w t c o ∧ cond w t c o }

instance {sys : System T Call Ret Op Res S}
    {cond : World T Call Ret Op Res S → T → Call → Op → Prop}
    (w : World T Call Ret Op Res S) (t : T) (c : Call) (o : Op)
    [Decidable (sys.enabled w t c o)] [Decidable (cond w t c o)] :
    Decidable ((sys.under cond).enabled w t c o) :=
  inferInstanceAs (Decidable (_ ∧ _))

instance {sys : System T Call Ret Op Res S}
    {cond : World T Call Ret Op Res S → T → Call → Op → Prop} (t : T) (c : Call)
    [Decidable (sys.allowed t c)] : Decidable ((sys.under cond).allowed t c) :=
  inferInstanceAs (Decidable (sys.allowed t c))

def Config.initial (mem : S) : Config T Call Ret Op Res S := ⟨⟨mem, []⟩, fun _ => none⟩

variable [DecidableEq T]

/-- What becomes of a call whose rest is `rest`: it returns, or stays running. -/
def Config.settle (cfg : Config T Call Ret Op Res S) (w : World T Call Ret Op Res S)
    (t : T) (id : Nat) (c : Call) (rest : Prog Op Res Ret) : Config T Call Ret Op Res S :=
  match rest.head with
  | .inl value => ⟨w.push (.finish t id c value), Function.update cfg.running t none⟩
  | .inr _ => ⟨w, Function.update cfg.running t (some ⟨id, c, rest⟩)⟩

theorem settle_world (cfg : Config T Call Ret Op Res S) (w : World T Call Ret Op Res S)
    (t : T) (id : Nat) (c : Call) (rest : Prog Op Res Ret) :
    (cfg.settle w t id c rest).world =
      match rest.head with
      | .inl value => w.push (.finish t id c value)
      | .inr _ => w := by
  unfold Config.settle
  cases rest.head <;> rfl

theorem settle_mem (cfg : Config T Call Ret Op Res S) (w : World T Call Ret Op Res S) (t : T)
    (id : Nat) (c : Call) (rest : Prog Op Res Ret) :
    (cfg.settle w t id c rest).world.mem = w.mem := by
  rw [settle_world]
  cases rest.head <;> rfl

theorem settle_other {t u : T} (other : u ≠ t) (cfg : Config T Call Ret Op Res S)
    (w : World T Call Ret Op Res S) (id : Nat) (c : Call) (rest : Prog Op Res Ret) :
    (cfg.settle w t id c rest).running u = cfg.running u := by
  unfold Config.settle
  cases rest.head <;> exact Function.update_of_ne other _ _

theorem settle_settle {cfg : Config T Call Ret Op Res S} {w : World T Call Ret Op Res S} {t : T}
    {id : Nat} {c : Call} (w' : World T Call Ret Op Res S) (p q : Prog Op Res Ret) :
    (cfg.settle w t id c p).settle w' t id c q = cfg.settle w' t id c q := by
  unfold Config.settle
  cases p.head <;> cases q.head <;> simp

theorem settle_self {cfg : Config T Call Ret Op Res S} {t : T} {run : Running Call Ret Op Res}
    (busy : cfg.running t = some run) {o : Op} {next : Res o → Prog Op Res Ret}
    (at_op : run.rest.head = .inr ⟨o, next⟩) :
    cfg.settle cfg.world t run.id run.call run.rest = cfg := by
  have same : Function.update cfg.running t (some run) = cfg.running := by
    rw [← busy, Function.update_eq_self]
  simp only [Config.settle, at_op, same]

def Config.start (cfg : Config T Call Ret Op Res S) (t : T) (c : Call)
    (code : Prog Op Res Ret) : Config T Call Ret Op Res S :=
  cfg.settle (cfg.world.push (.invoke t cfg.world.log.length c)) t cfg.world.log.length c code

def Config.advance (cfg : Config T Call Ret Op Res S) (t : T) (run : Running Call Ret Op Res)
    (o : Op) (r : Res o) (mem : S) (rest : Prog Op Res Ret) : Config T Call Ret Op Res S :=
  cfg.settle ⟨mem, cfg.world.log ++ [.access t run.id run.call o r]⟩ t run.id run.call rest

inductive Step (sys : System T Call Ret Op Res S) :
    Config T Call Ret Op Res S → Config T Call Ret Op Res S → Prop where
  | call (cfg) (t : T) (c : Call) (idle : cfg.running t = none) (may : sys.allowed t c) :
      Step sys cfg (cfg.start t c (sys.code t c))
  | go (cfg) (t : T) (run : Running Call Ret Op Res) (o : Op) (next : Res o → Prog Op Res Ret)
      (r : Res o) (mem : S) (busy : cfg.running t = some run)
      (at_op : run.rest.head = .inr ⟨o, next⟩) (may : sys.enabled cfg.world t run.call o)
      (does : sys.sem t run.call cfg.world.mem o r mem) :
      Step sys cfg (cfg.advance t run o r mem (next r))

inductive Steps (sys : System T Call Ret Op Res S) (start : Config T Call Ret Op Res S) :
    Config T Call Ret Op Res S → Prop where
  | refl : Steps sys start start
  | tail {cfg after} : Steps sys start cfg → Step sys cfg after → Steps sys start after

/-- The states of every run from `mem` with no call in progress. -/
def Reachable (sys : System T Call Ret Op Res S) (mem : S)
    (cfg : Config T Call Ret Op Res S) : Prop := Steps sys (.initial mem) cfg

theorem Steps.trans {sys : System T Call Ret Op Res S} {a b c : Config T Call Ret Op Res S}
    (first : Steps sys a b) (second : Steps sys b c) : Steps sys a c := by
  induction second with
  | refl => exact first
  | tail _ step ih => exact ih.tail step

/-- Threads make allowed calls only. -/
def Permitted (sys : System T Call Ret Op Res S) (cfg : Config T Call Ret Op Res S) : Prop :=
  (∀ e ∈ cfg.world.log, sys.allowed e.thread e.call) ∧
    ∀ t run, cfg.running t = some run → sys.allowed t run.call

theorem settle_permitted {sys : System T Call Ret Op Res S} {cfg : Config T Call Ret Op Res S}
    {w : World T Call Ret Op Res S} {t : T} {id : Nat} {c : Call} {rest : Prog Op Res Ret}
    (before : Permitted sys cfg) (may : sys.allowed t c)
    (log : ∀ e ∈ w.log, sys.allowed e.thread e.call) :
    Permitted sys (cfg.settle w t id c rest) := by
  unfold Config.settle
  cases rest.head with
  | inl value =>
      constructor
      · intro e member
        rcases List.mem_append.mp member with old | new
        · exact log e old
        · cases List.mem_singleton.mp new
          exact may
      · intro u run busy
        by_cases same : u = t
        · simp [same] at busy
        · exact before.2 u run (by simpa [same] using busy)
  | inr o =>
      constructor
      · exact log
      · intro u run busy
        by_cases same : u = t
        · subst same
          simp only [Function.update_self, Option.some.injEq] at busy
          subst busy
          exact may
        · exact before.2 u run (by simpa [same] using busy)

theorem Reachable.permitted {sys : System T Call Ret Op Res S} {mem : S}
    {cfg : Config T Call Ret Op Res S} (reach : Reachable sys mem cfg) : Permitted sys cfg := by
  induction reach with
  | refl => exact ⟨by simp [Config.initial], by simp [Config.initial]⟩
  | tail _ step ih =>
      cases step with
      | call t c idle may =>
          apply settle_permitted ih may
          intro e member
          rcases List.mem_append.mp member with old | new
          · exact ih.1 e old
          · cases List.mem_singleton.mp new
            exact may
      | go t run o next r mem busy at_op enabled does =>
          apply settle_permitted ih (ih.2 t run busy)
          intro e member
          rcases List.mem_append.mp member with old | new
          · exact ih.1 e old
          · cases List.mem_singleton.mp new
            exact ih.2 t run busy

section Replay
variable (exec : (o : Op) → S → Res o × S)

def Event.replay (s : S) : Event T Call Ret Op Res → S
  | .access _ _ _ o _ => (exec o s).2
  | _ => s

/-- The memory that the accesses of a log lead to. -/
def replay (start : S) (log : List (Event T Call Ret Op Res)) : S :=
  log.foldl (Event.replay exec) start

/-- Accesses and returns belong to the call that began where their number says. -/
def Begun (before : List (Event T Call Ret Op Res)) : Event T Call Ret Op Res → Prop
  | .invoke _ id _ => id = before.length
  | .access t id c _ _ => before[id]? = some (.invoke t id c)
  | .finish t id c _ => before[id]? = some (.invoke t id c)

variable {exec} {sys : System T Call Ret Op Res S} {mem : S} {cfg : Config T Call Ret Op Res S}

omit [DecidableEq T] in
theorem replay_snoc {log : List (Event T Call Ret Op Res)} {e : Event T Call Ret Op Res} :
    replay exec mem (log ++ [e]) = e.replay exec (replay exec mem log) := by
  simp [replay]

theorem settle_replay {w : World T Call Ret Op Res S} {t : T} {id : Nat} {c : Call}
    {rest : Prog Op Res Ret} (so_far : w.mem = replay exec mem w.log) :
    (cfg.settle w t id c rest).world.mem =
      replay exec mem (cfg.settle w t id c rest).world.log := by
  rw [settle_world]
  cases rest.head with
  | inl value =>
      rw [World.push_log, replay_snoc]
      exact so_far
  | inr o => exact so_far

theorem Reachable.replayed
    (does : ∀ t c s o r after, sys.sem t c s o r after → after = (exec o s).2)
    (reach : Reachable sys mem cfg) : cfg.world.mem = replay exec mem cfg.world.log := by
  induction reach with
  | refl => rfl
  | tail _ step ih =>
      cases step with
      | call t c idle may =>
          apply settle_replay
          rw [World.push_log, replay_snoc]
          exact ih
      | go t run o next r after busy at_op may did =>
          apply settle_replay
          rw [replay_snoc, ← ih]
          exact does t run.call _ o r after did

theorem settle_begun {w : World T Call Ret Op Res S} {t : T} {id : Nat} {c : Call}
    {rest : Prog Op Res Ret} (so_far : Recorded Begun w.log)
    (grown : ∃ e, w.log = cfg.world.log ++ [e])
    (began : w.log[id]? = some (.invoke t id c))
    (busy : ∀ u run, cfg.running u = some run →
      cfg.world.log[run.id]? = some (.invoke u run.id run.call)) :
    Recorded Begun (cfg.settle w t id c rest).world.log ∧
      ∀ u run, (cfg.settle w t id c rest).running u = some run →
        (cfg.settle w t id c rest).world.log[run.id]? = some (.invoke u run.id run.call) := by
  -- what has happened stays where it is in the log
  have kept : ∀ {log : List (Event T Call Ret Op Res)} {i : Nat} {e : Event T Call Ret Op Res}
      (x : Event T Call Ret Op Res), log[i]? = some e → (log ++ [x])[i]? = some e := by
    intro log i e x found
    rw [List.getElem?_append_left (List.getElem?_eq_some_iff.mp found).1]
    exact found
  obtain ⟨e, grown⟩ := grown
  unfold Config.settle
  cases rest.head with
  | inl value =>
      constructor
      · exact recorded_snoc.mpr ⟨so_far, began⟩
      · intro u run at_u
        by_cases same : u = t
        · simp [same] at at_u
        · rw [World.push_log, grown]
          exact kept _ (kept _ (busy u run (by simpa [same] using at_u)))
  | inr o =>
      constructor
      · exact so_far
      · intro u run at_u
        by_cases same : u = t
        · subst same
          simp only [Function.update_self, Option.some.injEq] at at_u
          subst at_u
          exact began
        · rw [grown]
          exact kept _ (busy u run (by simpa [same] using at_u))

omit [DecidableEq T] in
/-- An access is one of a call whose number is below the length of the log. -/
theorem begun_early {log : List (Event T Call Ret Op Res)} (begun : Recorded Begun log) {t : T}
    {id : Nat} {c : Call} {o : Op} {r : Res o} (member : .access t id c o r ∈ log) :
    id < log.length := by
  obtain ⟨pre, post, rfl⟩ := List.append_of_mem member
  have began : pre[id]? = some (.invoke t id c) := begun pre _ post rfl
  have early := (List.getElem?_eq_some_iff.mp began).1
  rw [List.length_append]
  omega

theorem Reachable.begun (reach : Reachable sys mem cfg) : Recorded Begun cfg.world.log ∧
    ∀ u run, cfg.running u = some run →
      cfg.world.log[run.id]? = some (.invoke u run.id run.call) := by
  induction reach with
  | refl => exact ⟨recorded_nil, by simp [Config.initial]⟩
  | tail _ step ih =>
      cases step with
      | call t c idle may =>
          exact settle_begun (recorded_snoc.mpr ⟨ih.1, rfl⟩) ⟨_, rfl⟩ (by simp) ih.2
      | go t run o next r after busy at_op may did =>
          have began := ih.2 t run busy
          refine settle_begun (recorded_snoc.mpr ⟨ih.1, began⟩) ⟨_, rfl⟩ ?_ ih.2
          rw [List.getElem?_append_left (List.getElem?_eq_some_iff.mp began).1]
          exact began

end Replay

section Instants
variable {sys : System T Call Ret Op Res S} {mem : S} {cfg after : Config T Call Ret Op Res S}

/-- One step logs one event, and the return behind it if it ends the call. -/
theorem Step.logged (step : Step sys cfg after) :
    ∃ e rest, after.world.log = cfg.world.log ++ e :: rest ∧ ∀ x ∈ rest, x.isAccess = false := by
  have settled : ∀ (w : World T Call Ret Op Res S) (e : Event T Call Ret Op Res) (t : T) (id : Nat)
      (c : Call) (code : Prog Op Res Ret), w.log = cfg.world.log ++ [e] →
      ∃ e' rest, (cfg.settle w t id c code).world.log = cfg.world.log ++ e' :: rest ∧
        ∀ x ∈ rest, x.isAccess = false := by
    intro w e t id c code logged
    rw [settle_world]
    cases code.head with
    | inl value =>
        refine ⟨e, [.finish t id c value], ?_, by simp [Event.isAccess]⟩
        rw [World.push_log, logged, List.append_assoc]
        rfl
    | inr _ => exact ⟨e, [], logged, by simp⟩
  cases step with
  | call t c idle may => exact settled _ _ t _ c _ rfl
  | go t run o next r mem busy at_op may does => exact settled ⟨mem, _⟩ _ t run.id run.call _ rfl

/-- The state an access was made in is one the run was in. -/
theorem Reachable.at_access {before rest : List (Event T Call Ret Op Res)}
    {e : Event T Call Ret Op Res}
    (reach : Reachable sys mem cfg) (access : e.isAccess = true)
    (cut : cfg.world.log = before ++ e :: rest) :
    ∃ now, Reachable sys mem now ∧ now.world.log = before := by
  induction reach generalizing rest with
  | refl => simp [Config.initial] at cut
  | @tail cfg after run step ih =>
      obtain ⟨first, more, logged, quiet⟩ := step.logged
      rw [logged] at cut
      rcases List.append_eq_append_iff.mp cut with ⟨gap, same, late⟩ | ⟨gap, same, early⟩
      · -- the access is among the events of this step, so it is the first of them
        cases gap with
        | nil => exact ⟨cfg, run, by simpa using same.symm⟩
        | cons x gap =>
            simp only [List.cons_append, List.cons.injEq] at late
            have silent := quiet e (by rw [late.2]; simp)
            rw [access] at silent
            cases silent
      · cases gap with
        | nil => exact ⟨cfg, run, by simpa using same⟩
        | cons x gap =>
            simp only [List.cons_append, List.cons.injEq] at early
            exact ih (by rw [same, ← early.1])

end Instants

section Alone
variable {exec : (o : Op) → S → Res o × S} {sys : System T Call Ret Op Res S} {t : T} {id : Nat}
  {c : Call}

/-- The program has run alone from `w` to its end, and the log shows it. -/
structure RanAlone (exec : (o : Op) → S → Res o × S) (t : T) (id : Nat) (c : Call)
    (p : Prog Op Res Ret) (w after : World T Call Ret Op Res S) : Prop where
  grown : w.log <+: after.log
  made : ∀ a ∈ p.accesses exec w.mem, .access t id c a.1 a.2 ∈ after.log
  ended : ∃ value, p.solo exec w.mem = some (value, after.mem) ∧ .finish t id c value ∈ after.log

/-- One access of a call in progress. -/
theorem settle_step (faithful : ∀ s o, sys.sem t c s o (exec o s).1 (exec o s).2)
    (free : ∀ w o, sys.enabled w t c o) (cfg : Config T Call Ret Op Res S)
    (w : World T Call Ret Op Res S) (o : Op) (next : Res o → Prog Op Res Ret) :
    Step sys (cfg.settle w t id c (.op o next))
      (cfg.settle ⟨(exec o w.mem).2, w.log ++ [.access t id c o (exec o w.mem).1]⟩ t id c
        (next (exec o w.mem).1)) := by
  have step : Step sys (cfg.settle w t id c (.op o next))
      ((cfg.settle w t id c (.op o next)).settle
        ⟨(exec o w.mem).2, w.log ++ [.access t id c o (exec o w.mem).1]⟩ t id c
        (next (exec o w.mem).1)) :=
    .go _ t ⟨id, c, .op o next⟩ o next _ _ (by simp [Config.settle, Prog.head]) rfl (free _ _)
      (faithful _ _)
  rwa [settle_settle] at step

/-- A call without loops can run to its end while the others rest. -/
theorem settle_alone (faithful : ∀ s o, sys.sem t c s o (exec o s).1 (exec o s).2)
    (free : ∀ w o, sys.enabled w t c o) {p : Prog Op Res Ret} (straight : p.Straight fun _ => True)
    (cfg : Config T Call Ret Op Res S) (w : World T Call Ret Op Res S) :
    ∃ after, Steps sys (cfg.settle w t id c p) after ∧
      after.running = Function.update cfg.running t none ∧
        RanAlone exec t id c p w after.world := by
  induction p with
  | ret value =>
      refine ⟨_, .refl, rfl, List.prefix_append _ _, by simp [Prog.accesses], value, rfl, ?_⟩
      exact List.mem_append_right _ List.mem_cons_self
  | op o next ih =>
      obtain ⟨after, steps, rests, ran⟩ := ih (exec o w.mem).1 faithful free (straight.2 _)
        cfg ⟨(exec o w.mem).2, w.log ++ [.access t id c o (exec o w.mem).1]⟩
      refine ⟨after, (Steps.refl.tail (settle_step faithful free cfg w o next)).trans steps, rests,
        (List.prefix_append _ _).trans ran.grown, ?_, ran.ended⟩
      intro a member
      rcases List.mem_cons.mp member with rfl | later
      · exact ran.grown.subset (List.mem_append_right _ List.mem_cons_self)
      · exact ran.made a later
  | loop o body next _ _ => exact straight.elim

/-- A call can begin with its first access, -/
theorem Steps.begins (faithful : ∀ s o, sys.sem t c s o (exec o s).1 (exec o s).2)
    (free : ∀ w o, sys.enabled w t c o) (may : sys.allowed t c) {o : Op}
    {next : Res o → Prog Op Res Ret} (code : sys.code t c = .op o next)
    {cfg : Config T Call Ret Op Res S} (idle : cfg.running t = none) :
    ∃ after id, Steps sys cfg after ∧ after.world.mem = (exec o cfg.world.mem).2 ∧
      (∀ u, u ≠ t → after.running u = cfg.running u) ∧
      ∀ first, (next (exec o cfg.world.mem).1).head = .inr first →
        after.running t = some ⟨id, c, next (exec o cfg.world.mem).1⟩ := by
  have begun : Step sys cfg (cfg.start t c (sys.code t c)) := .call _ t c idle may
  rw [code] at begun
  have step : Step sys (cfg.start t c (.op o next)) _ := settle_step faithful free cfg _ o next
  refine ⟨_, cfg.world.log.length, (Steps.refl.tail begun).tail step, settle_mem _ _ _ _ _ _,
    fun u other => settle_other other _ _ _ _ _, ?_⟩
  intro first at_op
  simp only [Config.settle, World.push_mem, at_op, Function.update_self]

/-- and run to its end while the others rest; -/
theorem Steps.resume {run : Running Call Ret Op Res}
    (faithful : ∀ s o, sys.sem t run.call s o (exec o s).1 (exec o s).2)
    (free : ∀ w o, sys.enabled w t run.call o) {cfg : Config T Call Ret Op Res S}
    (busy : cfg.running t = some run) {o : Op} {next : Res o → Prog Op Res Ret}
    (at_op : run.rest.head = .inr ⟨o, next⟩) (straight : run.rest.Straight fun _ => True) :
    ∃ after, Steps sys cfg after ∧ after.running = Function.update cfg.running t none ∧
      RanAlone exec t run.id run.call run.rest cfg.world after.world := by
  obtain ⟨after, steps, ran⟩ : ∃ after,
      Steps sys (cfg.settle cfg.world t run.id run.call run.rest) after ∧
        after.running = Function.update cfg.running t none ∧
          RanAlone exec t run.id run.call run.rest cfg.world after.world :=
    settle_alone faithful free straight cfg cfg.world
  rw [settle_self busy at_op] at steps
  exact ⟨after, steps, ran⟩

/-- both in one, for a call that is yet to begin. -/
theorem Steps.alone (faithful : ∀ s o, sys.sem t c s o (exec o s).1 (exec o s).2)
    (free : ∀ w o, sys.enabled w t c o) (may : sys.allowed t c)
    (straight : (sys.code t c).Straight fun _ => True) {cfg : Config T Call Ret Op Res S}
    (idle : cfg.running t = none) :
    ∃ after id, Steps sys cfg after ∧ after.running = cfg.running ∧
      cfg.world.log <+: after.world.log ∧
      (∀ a ∈ (sys.code t c).accesses exec cfg.world.mem,
        .access t id c a.1 a.2 ∈ after.world.log) ∧
      ∃ value, (sys.code t c).solo exec cfg.world.mem = some (value, after.world.mem) ∧
        .finish t id c value ∈ after.world.log := by
  have begun : Step sys cfg (cfg.start t c (sys.code t c)) := .call _ t c idle may
  obtain ⟨after, steps, rests, ran⟩ := settle_alone faithful free straight cfg
    (cfg.world.push (.invoke t cfg.world.log.length c))
  refine ⟨after, cfg.world.log.length, (Steps.refl.tail begun).trans steps, ?_,
    (List.prefix_append _ _).trans ran.grown, ran.made, ran.ended⟩
  rw [rests, ← idle, Function.update_eq_self]

end Alone

theorem Step.under {sys : System T Call Ret Op Res S}
    {cond : World T Call Ret Op Res S → T → Call → Op → Prop}
    {a b : Config T Call Ret Op Res S} (step : Step (sys.under cond) a b) : Step sys a b := by
  cases step with
  | call t c idle may => exact .call a t c idle may
  | go t run o next r mem busy at_op may does =>
      exact .go a t run o next r mem busy at_op may.1 does

theorem Steps.under {sys : System T Call Ret Op Res S}
    {cond : World T Call Ret Op Res S → T → Call → Op → Prop}
    {a b : Config T Call Ret Op Res S} (steps : Steps (sys.under cond) a b) : Steps sys a b := by
  induction steps with
  | refl => exact .refl
  | tail _ step ih => exact ih.tail step.under

theorem under_faithful {T Call Ret Op S : Type} {Res : Op → Type} {sys : System T Call Ret Op Res S}
    {exec : T → Call → (o : Op) → S → Res o × S}
    {cond : World T Call Ret Op Res S → T → Call → Op → Prop}
    (faithful : ∀ t c o s, sys.sem t c s o (exec t c o s).1 (exec t c o s).2) :
    ∀ t c o s, (sys.under cond).sem t c s o (exec t c o s).1 (exec t c o s).2 := faithful

section Simulation
variable {S' : Type}

/-- The state `cfg'` is `cfg` with another memory, related to its own. -/
structure Mirrors (rel : S → S' → Prop) (cfg : Config T Call Ret Op Res S)
    (cfg' : Config T Call Ret Op Res S') : Prop where
  mem : rel cfg.world.mem cfg'.world.mem
  log : cfg'.world.log = cfg.world.log
  running : cfg'.running = cfg.running

theorem mirrors_settle {rel : S → S' → Prop} {cfg : Config T Call Ret Op Res S}
    {cfg' : Config T Call Ret Op Res S'} {w : World T Call Ret Op Res S}
    {w' : World T Call Ret Op Res S'}
    (mem : rel w.mem w'.mem) (log : w'.log = w.log) (running : cfg'.running = cfg.running) (t : T)
    (id : Nat) (c : Call) (rest : Prog Op Res Ret) :
    Mirrors rel (cfg.settle w t id c rest) (cfg'.settle w' t id c rest) := by
  unfold Config.settle
  cases rest.head with
  | inl value => exact ⟨mem, congrArg (· ++ _) log, by rw [running]⟩
  | inr o => exact ⟨mem, log, by rw [running]⟩

/-- A system whose accesses can do what those of another do has all its runs. -/
theorem reachable_simulated (sys : System T Call Ret Op Res S) (sys' : System T Call Ret Op Res S')
    (rel : S → S' → Prop) (code : sys'.code = sys.code)
    (may : ∀ t c, sys.allowed t c → sys'.allowed t c)
    (free : ∀ w t c o, sys'.enabled w t c o)
    (does : ∀ t c s s' o r after, sys.allowed t c → rel s s' → sys.sem t c s o r after →
      ∃ after', sys'.sem t c s' o r after' ∧ rel after after')
    {mem : S} {mem' : S'} (start : rel mem mem') {cfg : Config T Call Ret Op Res S}
    (reach : Reachable sys mem cfg) : ∃ cfg', Reachable sys' mem' cfg' ∧ Mirrors rel cfg cfg' := by
  induction reach with
  | refl => exact ⟨_, .refl, start, rfl, rfl⟩
  | @tail cfg after steps step ih =>
      obtain ⟨cfg', reach', same⟩ := ih
      cases step with
      | call t c idle allowed =>
          have next : Step sys' cfg' (cfg'.start t c (sys'.code t c)) :=
            .call cfg' t c (by rw [same.running]; exact idle) (may t c allowed)
          refine ⟨_, reach'.tail next, ?_⟩
          rw [Config.start, Config.start, same.log, code]
          refine mirrors_settle ?_ ?_ same.running ..
          · exact same.mem
          · rw [World.push_log, World.push_log, same.log]
      | go t run o next r mem busy at_op enabled did =>
          have permitted := (Reachable.permitted steps).2 t run busy
          obtain ⟨after', did', still⟩ := does t run.call _ _ o r mem permitted same.mem did
          have step' : Step sys' cfg' (cfg'.advance t run o r after' (next r)) :=
            .go cfg' t run o next r after' (by rw [same.running]; exact busy) at_op
              (free _ _ _ _) did'
          refine ⟨_, reach'.tail step', ?_⟩
          refine mirrors_settle ?_ ?_ same.running ..
          · exact still
          · rw [same.log]

end Simulation

section Driver
variable (sys : System T Call Ret Op Res S) (exec : T → Call → (o : Op) → S → Res o × S)

inductive Choice (T Call : Type) where
  | call (thread : T) (call : Call)
  | go (thread : T)

/-- `count` steps of one thread in a row. -/
def turns (t : T) (count : Nat) : List (Choice T Call) := List.replicate count (.go t)

/-- The threads of a schedule of two. -/
def thread0 : Fin 2 := 0

def thread1 : Fin 2 := 1

/-- One scheduled step of a system whose accesses are given by a function. -/
def drive [∀ t c, Decidable (sys.allowed t c)] [∀ w t c o, Decidable (sys.enabled w t c o)]
    (cfg : Config T Call Ret Op Res S) : Choice T Call → Option (Config T Call Ret Op Res S)
  | .call t c =>
      if (cfg.running t).isNone ∧ sys.allowed t c then some (cfg.start t c (sys.code t c)) else none
  | .go t =>
      match cfg.running t with
      | none => none
      | some run =>
          match run.rest.head with
          | .inl _ => none
          | .inr ⟨o, next⟩ =>
              if sys.enabled cfg.world t run.call o then
                let result := exec t run.call o cfg.world.mem
                some (cfg.advance t run o result.1 result.2 (next result.1))
              else none

def schedule [∀ t c, Decidable (sys.allowed t c)] [∀ w t c o, Decidable (sys.enabled w t c o)] :
    List (Choice T Call) → Config T Call Ret Op Res S → Option (Config T Call Ret Op Res S)
  | [], cfg => some cfg
  | choice :: rest, cfg => (drive sys exec cfg choice).bind (schedule rest)

variable {sys exec}
variable [∀ t c, Decidable (sys.allowed t c)] [∀ w t c o, Decidable (sys.enabled w t c o)]

/-- A scheduled step is one of the system if the access it may make is faithful; it leaves the
memory alone or as that access does. -/
theorem drive_at {cfg after : Config T Call Ret Op Res S} {choice : Choice T Call}
    (faithful : ∀ t c o,
      sys.sem t c cfg.world.mem o (exec t c o cfg.world.mem).1 (exec t c o cfg.world.mem).2)
    (driven : drive sys exec cfg choice = some after) : Step sys cfg after ∧
      (after.world.mem = cfg.world.mem ∨ ∃ t c o,
        after.world.mem = (exec t c o cfg.world.mem).2) := by
  have settled : ∀ (w : World T Call Ret Op Res S) t id c code,
      (cfg.settle w t id c code).world.mem = w.mem := by
    intro w t id c code
    rw [settle_world]
    cases code.head <;> rfl
  cases choice with
  | call t c =>
      simp only [drive] at driven
      split at driven
      · next may =>
          cases driven
          exact ⟨.call cfg t c (by simpa using may.1) may.2, .inl (settled ..)⟩
      · cases driven
  | go t =>
      simp only [drive] at driven
      split at driven
      · cases driven
      · next run busy =>
          split at driven
          · cases driven
          · next o next at_op =>
              split at driven
              · next may =>
                  cases driven
                  exact ⟨.go cfg t run o next _ _ busy at_op may (faithful t run.call o),
                    .inr ⟨t, run.call, o, settled ..⟩⟩
              · cases driven

theorem drive_step (faithful : ∀ t c o s, sys.sem t c s o (exec t c o s).1 (exec t c o s).2)
    {cfg after : Config T Call Ret Op Res S} {choice : Choice T Call}
    (driven : drive sys exec cfg choice = some after) : Step sys cfg after :=
  (drive_at (fun t c o => faithful t c o cfg.world.mem) driven).1

theorem schedule_steps (faithful : ∀ t c o s, sys.sem t c s o (exec t c o s).1 (exec t c o s).2)
    {choices : List (Choice T Call)} {cfg after : Config T Call Ret Op Res S}
    (ran : schedule sys exec choices cfg = some after) : Steps sys cfg after := by
  induction choices generalizing cfg with
  | nil =>
      cases ran
      exact .refl
  | cons choice rest ih =>
      obtain ⟨middle, driven, later⟩ := Option.bind_eq_some_iff.mp ran
      exact (Steps.refl.tail (drive_step faithful driven)).trans (ih later)

/-- A schedule need be faithful only on the memories that occur. -/
theorem schedule_keeps (ok : S → Prop)
    (faithful : ∀ t c o s, ok s →
      sys.sem t c s o (exec t c o s).1 (exec t c o s).2 ∧ ok (exec t c o s).2)
    {choices : List (Choice T Call)} {cfg after : Config T Call Ret Op Res S}
    (fine : ok cfg.world.mem)
    (ran : schedule sys exec choices cfg = some after) : Steps sys cfg after := by
  induction choices generalizing cfg with
  | nil =>
      cases ran
      exact .refl
  | cons choice rest ih =>
      obtain ⟨middle, driven, later⟩ := Option.bind_eq_some_iff.mp ran
      obtain ⟨step, same | ⟨t, c, o, moved⟩⟩ :=
        drive_at (fun t c o => (faithful t c o _ fine).1) driven
      · exact (Steps.refl.tail step).trans (ih (same ▸ fine) later)
      · have kept := (faithful t c o _ fine).2
        rw [← moved] at kept
        exact (Steps.refl.tail step).trans (ih kept later)

/-- What an explicit schedule ends in is reachable. -/
theorem schedule_reaches {α : Type} {f : Config T Call Ret Op Res S → α} {v : α} {mem : S}
    (faithful : ∀ t c o s, sys.sem t c s o (exec t c o s).1 (exec t c o s).2)
    {choices : List (Choice T Call)}
    (ran : (schedule sys exec choices (.initial mem)).map f = some v) :
    ∃ cfg, Reachable sys mem cfg ∧ f cfg = v := by
  obtain ⟨cfg, reached, result⟩ := Option.map_eq_some_iff.mp ran
  exact ⟨cfg, schedule_steps faithful reached, result⟩

end Driver
end Membridge.Interleaving
