import Mathlib.Data.Fintype.Basic
import Membridge.Typestate

/-!
Calls that can be brought to an end. A spin loop may keep a thread for ever; but if a
thread spins only while it holds nothing, and gets through when nobody holds anything,
then from every state of a run some schedule ends all calls in progress. Threads that
take no more steps do not matter, as long as they hold nothing.
-/
namespace Membridge.Completion
open Program Interleaving RelyGuarantee Typestate

variable {T Call Ret Op S Φ α β : Type} {Res : Op → Type}

section Loops
variable {L : (o : Op) → (Res o → Prog Op Res Bool) → Prop}

/-- Every spin loop is one that `L` says. -/
def Loops (L : (o : Op) → (Res o → Prog Op Res Bool) → Prop) : {α : Type} → Prog Op Res α → Prop
  | _, .ret _ => True
  | _, .op _ next => ∀ r, Loops L (next r)
  | _, .loop o body next => L o body ∧ (∀ r, Loops L (body r)) ∧ Loops L next

theorem loops_bind {p : Prog Op Res α} {f : α → Prog Op Res β} (first : Loops L p)
    (later : ∀ a, Loops L (f a)) : Loops L (p.bind f) := by
  induction p with
  | ret value => exact later value
  | op o next ih => exact fun r => ih r (first r) later
  | loop o body next _ ih => exact ⟨first.1, first.2.1, ih first.2.2 later⟩

theorem loops_straight {ok : Op → Prop} {p : Prog Op Res α} (straight : p.Straight ok) :
    Loops L p := by
  induction p with
  | ret value => trivial
  | op o next ih => exact fun r => ih r (straight.2 r)
  | loop o body next _ _ => exact straight.elim

theorem loops_head {p : Prog Op Res α} (loops : Loops L p) {o : Op} {next : Res o → Prog Op Res α}
    (at_op : p.head = .inr ⟨o, next⟩) (r : Res o) : Loops L (next r) := by
  cases p with
  | ret value => simp [Prog.head] at at_op
  | op o' next' =>
      simp only [Prog.head, Sum.inr.injEq, Sigma.mk.injEq] at at_op
      obtain ⟨rfl, same⟩ := at_op
      cases same
      exact loops r
  | loop o' body after =>
      simp only [Prog.head, Sum.inr.injEq, Sigma.mk.injEq] at at_op
      obtain ⟨rfl, same⟩ := at_op
      cases same
      apply loops_bind (loops.2.1 r)
      intro leave
      cases leave with
      | true => exact loops.2.2
      | false => exact loops

end Loops

section Rest
variable {D : Discipline Op Res Φ} {ph still : Φ} {L : (o : Op) → (Res o → Prog Op Res Bool) → Prop}

/-- The rest of a program that keeps to a discipline keeps to it. -/
theorem follows_head {p : Prog Op Res α} {post : α → Φ → Prop} (keeps : D.Follows ph p post)
    {o : Op} {next : Res o → Prog Op Res α} (at_op : p.head = .inr ⟨o, next⟩) :
    D.may ph o ∧ ∀ r, D.sees ph o r → D.Follows (D.enter ph o r) (next r) post := by
  cases p with
  | ret value => simp [Prog.head] at at_op
  | op o' next' =>
      simp only [Prog.head, Sum.inr.injEq, Sigma.mk.injEq] at at_op
      obtain ⟨rfl, same⟩ := at_op
      cases same
      exact keeps
  | loop o' body after =>
      simp only [Prog.head, Sum.inr.injEq, Sigma.mk.injEq] at at_op
      obtain ⟨rfl, same⟩ := at_op
      cases same
      refine ⟨keeps.1, ?_⟩
      intro r seen
      rw [Discipline.follows_bind]
      apply Discipline.follows_mono ?_ (keeps.2 r seen)
      intro leave later here
      cases leave with
      | true => exact here
      | false =>
          cases here
          exact keeps

/-- Alone, a program that spins only on loops that let it through comes to its end. -/
theorem solo_ends {J : Φ → S → Prop} {exec : (o : Op) → S → Res o × S} (governs : D.Governs exec J)
    (spins : ∀ ph o body, L o body → D.may ph o → ph = still)
    (opens : ∀ o body s, L o body → J still s →
      ∃ after, Prog.solo exec (body (exec o s).1) (exec o s).2 = some (true, after))
    {p : Prog Op Res α} {post : α → Φ → Prop} (keeps : D.Follows ph p post) (loops : Loops L p)
    {s : S} (now : J ph s) : ∃ value after, Prog.solo exec p s = some (value, after) := by
  induction p generalizing ph s with
  | ret value => exact ⟨value, s, rfl⟩
  | op o next ih =>
      obtain ⟨seen, kept⟩ := governs ph s o now keeps.1
      exact ih _ (keeps.2 _ seen) (loops _) kept
  | loop o body next _ ih =>
      obtain ⟨seen, kept⟩ := governs ph s o now keeps.1
      obtain rfl := spins ph o body loops.1 keeps.1
      obtain ⟨middle, left⟩ := opens o body s loops.1 now
      obtain ⟨⟨later, go, at_middle⟩, _⟩ :=
        Discipline.follows_solo governs (keeps.2 _ seen) kept left
      obtain ⟨value, after, ran⟩ := ih go loops.2.2 at_middle
      refine ⟨value, after, ?_⟩
      simp only [Prog.solo, left]
      exact ran

end Rest

section Runs
variable [DecidableEq T]

/-- The runs that go on without new calls. -/
def closing (sys : System T Call Ret Op Res S) : System T Call Ret Op Res S :=
  { sys with allowed := fun _ _ => False }

variable {sys : System T Call Ret Op Res S} {cfg after : Config T Call Ret Op Res S}
  {t : T} {id : Nat}
  {c : Call} {w : World T Call Ret Op Res S}

theorem closing_steps (steps : Steps (closing sys) cfg after) : Steps sys cfg after := by
  induction steps with
  | refl => exact .refl
  | tail _ step ih =>
      cases step with
      | call t c idle may => exact may.elim
      | go t run o next r mem busy at_op may does =>
          exact ih.tail (.go _ t run o next r mem busy at_op may does)

theorem closing_logged (steps : Steps (closing sys) cfg after) :
    ∃ more, after.world.log = cfg.world.log ++ more ∧ ∀ e ∈ more, ∀ t id c, e ≠ .invoke t id c := by
  induction steps with
  | refl => exact ⟨[], by simp, by simp⟩
  | tail _ step ih =>
      obtain ⟨more, grown, silent⟩ := ih
      cases step with
      | call t c idle may => exact may.elim
      | go t run o next r mem busy at_op may does =>
          simp only [Config.advance, settle_world]
          cases (next r).head with
          | inl value =>
              refine ⟨more ++ [.access t run.id run.call o r, .finish t run.id run.call value],
                by simp [grown], ?_⟩
              simpa [or_imp, forall_and] using silent
          | inr _ =>
              refine ⟨more ++ [.access t run.id run.call o r], by simp [grown], ?_⟩
              simpa [or_imp, forall_and] using silent

/-- From `cfg` to `after` only `t` took steps, and it started no call. -/
structure Moves (sys : System T Call Ret Op Res S) (t : T)
    (cfg after : Config T Call Ret Op Res S) :
    Prop where
  steps : Steps (closing sys) cfg after
  logged : ∃ more, after.world.log = cfg.world.log ++ more ∧ ∀ e ∈ more, e.thread = t
  others : ∀ u, u ≠ t → after.running u = cfg.running u

theorem Moves.refl (sys : System T Call Ret Op Res S) (t : T) (cfg : Config T Call Ret Op Res S) :
    Moves sys t cfg cfg := ⟨.refl, ⟨[], by simp, by simp⟩, fun _ _ => rfl⟩

theorem Moves.trans {last : Config T Call Ret Op Res S} (first : Moves sys t cfg after)
    (second : Moves sys t after last) : Moves sys t cfg last := by
  obtain ⟨x, xlog, xown⟩ := first.logged
  obtain ⟨y, ylog, yown⟩ := second.logged
  refine ⟨first.steps.trans second.steps, ⟨x ++ y, by rw [ylog, xlog, List.append_assoc], ?_⟩, ?_⟩
  · intro e member
    rcases List.mem_append.mp member with inX | inY
    · exact xown e inX
    · exact yown e inY
  · exact fun u other => (second.others u other).trans (first.others u other)

theorem Moves.far (moves : Moves sys t cfg after) {u : T} (other : u ≠ t) :
    Others u cfg.world after.world := by
  obtain ⟨more, grown, own⟩ := moves.logged
  exact ⟨more, grown, fun e member same => other (same.symm.trans (own e member))⟩

/-- One access of a call in progress. -/
theorem settle_moves (cfg : Config T Call Ret Op Res S) (id : Nat)
    {p : Prog Op Res Ret} {o : Op} {next : Res o → Prog Op Res Ret} {r : Res o} {mem : S}
    (at_op : p.head = .inr ⟨o, next⟩) (may : sys.enabled w t c o)
    (does : sys.sem t c w.mem o r mem) :
    Moves sys t (cfg.settle w t id c p)
      (cfg.settle ⟨mem, w.log ++ [.access t id c o r]⟩ t id c (next r)) := by
  have world : (cfg.settle w t id c p).world = w := by rw [settle_world, at_op]
  have busy : (cfg.settle w t id c p).running t = some ⟨id, c, p⟩ := by
    simp only [Config.settle, at_op, Function.update_self]
  have step : Step (closing sys) (cfg.settle w t id c p)
      ((cfg.settle w t id c p).advance t ⟨id, c, p⟩ o r mem (next r)) :=
    .go _ t ⟨id, c, p⟩ o next r mem busy at_op (world.symm ▸ may) (world.symm ▸ does)
  rw [Config.advance, settle_settle, world] at step
  refine ⟨Steps.refl.tail step, ?_, ?_⟩
  · rw [world, settle_world]
    cases (next r).head with
    | inl value => exact ⟨[.access t id c o r, .finish t id c value], by simp, by simp⟩
    | inr _ => exact ⟨[.access t id c o r], by simp, by simp⟩
  · intro u other
    unfold Config.settle
    cases (next r).head <;> cases p.head <;> simp [other]

variable {exec : (o : Op) → S → Res o × S}

/-- A part of a call that ends alone is run to its end while the others rest. -/
theorem settle_solo (cfg : Config T Call Ret Op Res S) (t : T) (id : Nat) (c : Call)
    (free : ∀ w t c o, sys.enabled w t c o)
    (faithful : ∀ t c s o, sys.sem t c s o (exec o s).1 (exec o s).2) {p : Prog Op Res α}
    {f : α → Prog Op Res Ret} {value : α} {m : S} (ran : Prog.solo exec p w.mem = some (value, m)) :
    ∃ log, Moves sys t (cfg.settle w t id c (p.bind f)) (cfg.settle ⟨m, log⟩ t id c (f value)) := by
  induction p generalizing w m with
  | ret a =>
      cases ran
      exact ⟨w.log, Moves.refl _ _ _⟩
  | op o next ih =>
      have first : Moves sys t (cfg.settle w t id c ((Prog.op o next).bind f))
          (cfg.settle ⟨(exec o w.mem).2, w.log ++ [.access t id c o (exec o w.mem).1]⟩ t id c
            ((next (exec o w.mem).1).bind f)) :=
        settle_moves cfg id (p := (Prog.op o next).bind f) rfl (free w t c o) (faithful t c w.mem o)
      obtain ⟨log, later⟩ := ih (w := ⟨(exec o w.mem).2, _⟩) _ ran
      exact ⟨log, first.trans later⟩
  | loop o body next bodyIh nextIh =>
      simp only [Prog.solo] at ran
      split at ran
      · next middle left =>
          -- the first round, left at its end, then what follows the loop
          have first := settle_moves cfg id
            (p := (Prog.loop o body next).bind f) rfl (free w t c o) (faithful t c w.mem o)
          obtain ⟨log, round⟩ := bodyIh (w := ⟨(exec o w.mem).2, _⟩) _
            (f := fun leave => if leave then next.bind f else .loop o body (next.bind f)) left
          obtain ⟨last, later⟩ := nextIh (w := ⟨middle, log⟩) ran
          exact ⟨last, first.trans (round.trans later)⟩
      · cases ran

/-- A call in progress stays in progress until it returns. -/
theorem ended {run : Running Call Ret Op Res} (steps : Steps sys cfg after)
    (busy : cfg.running t = some run) :
    (∃ rest, after.running t = some ⟨run.id, run.call, rest⟩) ∨
      ∃ value, .finish t run.id run.call value ∈ after.world.log := by
  induction steps with
  | refl => exact .inl ⟨run.rest, busy⟩
  | @tail middle last _ step ih =>
      rcases ih with ⟨rest, now⟩ | ⟨value, member⟩
      · cases step with
        | call u d idle may =>
            have other : t ≠ u := by
              rintro rfl
              rw [idle] at now
              cases now
            refine .inl ⟨rest, ?_⟩
            simp only [Config.start, Config.settle]
            cases (sys.code u d).head <;> simp [other, now]
        | go u turn o next r mem at_u at_op may does =>
            simp only [Config.advance, Config.settle]
            by_cases same : t = u
            · subst same
              rw [now, Option.some.injEq] at at_u
              subst at_u
              cases (next r).head with
              | inl value => exact .inr ⟨value, by simp⟩
              | inr _ => exact .inl ⟨next r, by simp⟩
            · refine .inl ⟨rest, ?_⟩
              cases (next r).head <;> simp [same, now]
      · obtain ⟨e, more, logged, _⟩ := step.logged
        exact .inr ⟨value, logged ▸ List.mem_append_left _ member⟩

end Runs

section Returning
variable {last : Op → Prop} {good : α → Prop}

/-- A good value comes right behind an access that `last` says. -/
def Behind (last : Op → Prop) (good : α → Prop) : Prog Op Res α → Prop
  | .ret value => ¬ good value
  | .op o next => ∀ r, Behind last good (next r) ∨ last o ∧ ∃ value, next r = .ret value
  | .loop _ _ next => Behind last good next

theorem behind_bind {p : Prog Op Res β} {f : β → Prog Op Res α}
    (later : ∀ b, Behind last good (f b)) : Behind last good (p.bind f) := by
  induction p with
  | ret value => exact later value
  | op o next ih => exact fun r => .inl (ih r later)
  | loop o body next _ ih => exact ih later

theorem behind_mono {weaker : α → Prop} {p : Prog Op Res α}
    (entails : ∀ value, weaker value → good value)
    (behind : Behind last good p) : Behind last weaker p := by
  induction p with
  | ret value => exact fun holds => behind (entails value holds)
  | op o next ih => exact fun r => (behind r).imp_left (ih r entails)
  | loop o body next _ ih => exact ih entails behind

theorem behind_never {p : Prog Op Res α} (never : ∀ value, ¬ good value) : Behind last good p := by
  induction p with
  | ret value => exact never value
  | op o next ih => exact fun r => .inl (ih r never)
  | loop o body next _ ih => exact ih never

theorem behind_head {p : Prog Op Res α} (behind : Behind last good p) {o : Op}
    {next : Res o → Prog Op Res α} (at_op : p.head = .inr ⟨o, next⟩) (r : Res o) :
    Behind last good (next r) ∨ last o ∧ ∃ value, next r = .ret value := by
  cases p with
  | ret value => simp [Prog.head] at at_op
  | op o' next' =>
      simp only [Prog.head, Sum.inr.injEq, Sigma.mk.injEq] at at_op
      obtain ⟨rfl, same⟩ := at_op
      cases same
      exact behind r
  | loop o' body after =>
      simp only [Prog.head, Sum.inr.injEq, Sigma.mk.injEq] at at_op
      obtain ⟨rfl, same⟩ := at_op
      cases same
      refine .inl (behind_bind ?_)
      intro leave
      cases leave with
      | true => exact behind
      | false => exact behind

variable [DecidableEq T] {sys : System T Call Ret Op Res S} {mem : S}
  {cfg after : Config T Call Ret Op Res S} {last : Call → Op → Prop} {good : Call → Ret → Prop}

/-- The return that `settle` logs is no good one, or follows its access. -/
theorem settle_behind {w : World T Call Ret Op Res S} {t : T} {id : Nat} {c : Call}
    {rest : Prog Op Res Ret} (before : ∀ u run, cfg.running u = some run →
      Behind (last run.call) (good run.call) run.rest)
    (behind : Behind (last c) (good c) rest ∨ ∃ value, rest = .ret value) (u : T)
    (run : Running Call Ret Op Res) (busy : (cfg.settle w t id c rest).running u = some run) :
    Behind (last run.call) (good run.call) run.rest := by
  unfold Config.settle at busy
  cases at_head : rest.head with
  | inl value =>
      rw [at_head] at busy
      by_cases same : u = t
      · simp [same] at busy
      · exact before u run (by simpa [same] using busy)
  | inr next =>
      rw [at_head] at busy
      by_cases same : u = t
      · subst same
        simp only [Function.update_self, Option.some.injEq] at busy
        subst busy
        rcases behind with holds | ⟨value, rfl⟩
        · exact holds
        · cases at_head
      · exact before u run (by simpa [same] using busy)

theorem Reachable.behind
    (codes : ∀ t c, sys.allowed t c → Behind (last c) (good c) (sys.code t c))
    (reach : Reachable sys mem cfg) (u : T) (run : Running Call Ret Op Res)
    (busy : cfg.running u = some run) : Behind (last run.call) (good run.call) run.rest := by
  induction reach generalizing u run with
  | refl => cases busy
  | tail _ step ih =>
      cases step with
      | call t c idle may => exact settle_behind ih (.inl (codes t c may)) u run busy
      | go t turn o next r m at_t at_op may does =>
          refine settle_behind ih ?_ u run busy
          exact (behind_head (ih t turn at_t) at_op r).imp_right And.right

/-- Every good return in these events follows its access. -/
def Closed (last : Call → Op → Prop) (good : Call → Ret → Prop)
    (more : List (Event T Call Ret Op Res)) : Prop :=
  ∀ t id c value, .finish t id c value ∈ more → good c value →
    ∃ o r, last c o ∧ .access t id c o r ∈ more

omit [DecidableEq T] in
theorem closed_snoc {more : List (Event T Call Ret Op Res)} {e : Event T Call Ret Op Res}
    (closed : Closed last good more)
    (returns : ∀ t id c value, e = .finish t id c value → good c value →
      ∃ o r, last c o ∧ .access t id c o r ∈ more) : Closed last good (more ++ [e]) := by
  intro t id c value member fine
  rcases List.mem_append.mp member with early | new
  · obtain ⟨o, r, closes, there⟩ := closed t id c value early fine
    exact ⟨o, r, closes, List.mem_append_left _ there⟩
  · obtain ⟨o, r, closes, there⟩ := returns t id c value (List.mem_singleton.mp new).symm fine
    exact ⟨o, r, closes, List.mem_append_left _ there⟩

theorem settle_closed {log more : List (Event T Call Ret Op Res)}
    {w : World T Call Ret Op Res S} {t : T}
    {id : Nat} {c : Call} {rest : Prog Op Res Ret} (grown : w.log = log ++ more)
    (closed : Closed last good more)
    (returns : ∀ value, rest = .ret value → good c value →
      ∃ o r, last c o ∧ .access t id c o r ∈ more) :
    ∃ more, (cfg.settle w t id c rest).world.log = log ++ more ∧ Closed last good more := by
  rw [settle_world]
  cases at_head : rest.head with
  | inr _ => exact ⟨more, grown, closed⟩
  | inl value =>
      refine ⟨more ++ [.finish t id c value], by simp [grown], closed_snoc closed ?_⟩
      rintro t' id' c' value' same fine
      cases same
      exact returns value (Prog.head_ret at_head) fine

/-- Between two states of a run every good return follows its access between them. -/
theorem returns_behind
    (codes : ∀ t c, sys.allowed t c → Behind (last c) (good c) (sys.code t c))
    (reach : Reachable sys mem cfg) (steps : Steps sys cfg after) :
    ∃ more, after.world.log = cfg.world.log ++ more ∧ Closed last good more := by
  induction steps with
  | refl => exact ⟨[], by simp, by simp [Closed]⟩
  | tail run step ih =>
      obtain ⟨more, grown, closed⟩ := ih
      cases step with
      | call u d idle may =>
          refine settle_closed
            (show _ = _ ++ (more ++ [.invoke u _ d]) by
              rw [World.push_log, grown, List.append_assoc]) (closed_snoc closed nofun) ?_
          intro value same fine
          have code := codes u d may
          rw [same] at code
          exact absurd fine code
      | go u turn o next r m busy at_op may does =>
          refine settle_closed
            (show _ = _ ++ (more ++ [.access u turn.id turn.call o r]) by
              rw [grown, List.append_assoc]) (closed_snoc closed nofun) ?_
          intro value same fine
          rcases behind_head (Reachable.behind codes (reach.trans run) u turn busy) at_op r with
            holds | ⟨closes, _⟩
          · rw [same] at holds
            exact absurd fine holds
          · exact ⟨o, r, closes, by simp⟩

end Returning

section Tracking
variable {D : Discipline Op Res Φ} {sys : System T Call Ret Op Res S} {mem : S} {still : Φ}
  {state : List (Event T Call Ret Op Res) → T → Φ}
  {L : (o : Op) → (Res o → Prog Op Res Bool) → Prop} {cfg : Config T Call Ret Op Res S} {t : T}

variable [DecidableEq T]

/-- The log of a run tells where a discipline has brought each caller. -/
structure Tracks (D : Discipline Op Res Φ) (sys : System T Call Ret Op Res S) (mem : S)
    (state : List (Event T Call Ret Op Res) → T → Φ) (still : Φ) : Prop where
  start : ∀ t, state [] t = still
  others : ∀ (t : T) (a b : World T Call Ret Op Res S), Others t a b → state b.log t = state a.log t
  invoke : ∀ log t id c, state (log ++ [.invoke t id c]) t = state log t
  finish : ∀ log t id c value, state (log ++ [.finish t id c value]) t = state log t
  access : ∀ cfg, Reachable sys mem cfg → ∀ t id c o r m, D.may (state cfg.world.log t) o →
    sys.sem t c cfg.world.mem o r m → D.sees (state cfg.world.log t) o r ∧
      state (cfg.world.log ++ [.access t id c o r]) t = D.enter (state cfg.world.log t) o r

/-- Where a thread stands: at rest, or in a call whose rest keeps to the discipline. -/
def Stands (D : Discipline Op Res Φ) (L : (o : Op) → (Res o → Prog Op Res Bool) → Prop)
    (state : List (Event T Call Ret Op Res) → T → Φ) (still : Φ) (cfg : Config T Call Ret Op Res S)
    (t : T) : Prop :=
  match cfg.running t with
  | none => state cfg.world.log t = still
  | some run => (∃ o next, run.rest.head = .inr ⟨o, next⟩) ∧ Loops L run.rest ∧
      D.Follows (state cfg.world.log t) run.rest fun _ ph => ph = still

omit [DecidableEq T] in
theorem Stands.idle (stands : Stands D L state still cfg t) (resting : cfg.running t = none) :
    state cfg.world.log t = still := by
  unfold Stands at stands
  rwa [resting] at stands

omit [DecidableEq T] in
theorem Stands.busy (stands : Stands D L state still cfg t) {run : Running Call Ret Op Res}
    (calling : cfg.running t = some run) : (∃ o next, run.rest.head = .inr ⟨o, next⟩) ∧
      Loops L run.rest ∧
      D.Follows (state cfg.world.log t) run.rest fun _ ph => ph = still := by
  unfold Stands at stands
  rwa [calling] at stands

theorem settle_stands (tracks : Tracks D sys mem state still)
    {w : World T Call Ret Op Res S} {id : Nat}
    {c : Call} {rest : Prog Op Res Ret} (before : ∀ u, Stands D L state still cfg u)
    (grown : ∃ e : Event T Call Ret Op Res, e.thread = t ∧ w.log = cfg.world.log ++ [e])
    (loops : Loops L rest) (keeps : D.Follows (state w.log t) rest fun _ ph => ph = still) (u : T) :
    Stands D L state still (cfg.settle w t id c rest) u := by
  obtain ⟨e, own, grown⟩ := grown
  by_cases same : u = t
  · subst same
    unfold Stands Config.settle
    cases at_head : rest.head with
    | inl value =>
        cases Prog.head_ret at_head
        simp only [Function.update_self, World.push_log]
        rw [tracks.finish]
        exact keeps
    | inr next =>
        simp only [Function.update_self]
        exact ⟨⟨next.1, next.2, at_head⟩, loops, keeps⟩
  · have was := before u
    have far : Others u cfg.world (cfg.settle w t id c rest).world := by
      rw [settle_world]
      cases rest.head with
      | inl value =>
          refine ⟨[e, .finish t id c value], by simp [grown], ?_⟩
          simpa [own] using fun same' : t = u => same same'.symm
      | inr _ => exact ⟨[e], grown, by simpa [own] using fun same' : t = u => same same'.symm⟩
    have running : (cfg.settle w t id c rest).running u = cfg.running u := by
      unfold Config.settle
      cases rest.head <;> simp [same]
    unfold Stands at was ⊢
    rw [running, tracks.others u _ _ far]
    exact was

/-- In every state of a run each thread is at rest or keeps to the discipline. -/
theorem Reachable.stands (tracks : Tracks D sys mem state still)
    (codes : ∀ t c, sys.allowed t c →
      Loops L (sys.code t c) ∧ D.Follows still (sys.code t c) fun _ ph => ph = still)
    (reach : Reachable sys mem cfg) (u : T) : Stands D L state still cfg u := by
  induction reach generalizing u with
  | refl => exact tracks.start u
  | @tail middle last run step ih =>
      cases step with
      | call t c idle may =>
          obtain ⟨loops, keeps⟩ := codes t c may
          refine settle_stands tracks ih ⟨.invoke t _ c, rfl, rfl⟩ loops ?_ u
          rw [World.push_log, Event.thread_invoke, tracks.invoke, (ih t).idle idle]
          exact keeps
      | go t turn o next r after busy at_op may does =>
          obtain ⟨_, loops, keeps⟩ := (ih t).busy busy
          obtain ⟨admitted, goes⟩ := follows_head keeps at_op
          obtain ⟨seen, moved⟩ := tracks.access _ run t turn.id turn.call o r after admitted does
          refine settle_stands tracks ih ⟨.access t turn.id turn.call o r, rfl, rfl⟩
            (loops_head loops at_op r) ?_ u
          simp only [Event.thread_access, moved]
          exact goes r seen

end Tracking

section Ending
variable [DecidableEq T] {D : Discipline Op Res Φ} {sys : System T Call Ret Op Res S} {mem : S}
  {state : List (Event T Call Ret Op Res) → T → Φ} {still : Φ}
  {L : (o : Op) → (Res o → Prog Op Res Bool) → Prop} {exec : (o : Op) → S → Res o × S}
  {J : T → Φ → S → Prop} {cfg : Config T Call Ret Op Res S} {t : T}

/-- What makes every call of a system come to its end: calls that keep to the discipline, spin
loops only where a thread holds nothing, and no loop that holds a thread back when nobody
holds anything. -/
structure Ends (D : Discipline Op Res Φ) (sys : System T Call Ret Op Res S) (mem : S)
    (state : List (Event T Call Ret Op Res) → T → Φ) (still : Φ)
    (L : (o : Op) → (Res o → Prog Op Res Bool) → Prop) (exec : (o : Op) → S → Res o × S)
    (J : T → Φ → S → Prop) : Prop where
  tracks : Tracks D sys mem state still
  codes : ∀ t c, sys.allowed t c →
    Loops L (sys.code t c) ∧ D.Follows still (sys.code t c) fun _ ph => ph = still
  free : ∀ w t c o, sys.enabled w t c o
  faithful : ∀ t c s o, sys.sem t c s o (exec o s).1 (exec o s).2
  spins : ∀ ph o body, L o body → D.may ph o → ph = still
  governs : ∀ t, D.Governs exec (J t)
  quiet : ∀ cfg, Reachable sys mem cfg → (∀ u, state cfg.world.log u = still) →
    ∀ t, J t still cfg.world.mem
  opens : ∀ t o body s, L o body → J t still s →
    ∃ after, Prog.solo exec (body (exec o s).1) (exec o s).2 = some (true, after)

/-- Whatever a thread holds, it gives up by steps of its own. -/
theorem Ends.leave (ends : Ends D sys mem state still L exec J) {p : Prog Op Res Ret} {id : Nat}
    {c : Call} {w : World T Call Ret Op Res S} (reach : Reachable sys mem (cfg.settle w t id c p))
    (loops : Loops L p) (keeps : D.Follows (state w.log t) p fun _ ph => ph = still) :
    ∃ after, Moves sys t (cfg.settle w t id c p) after ∧ state after.world.log t = still := by
  induction p with
  | ret value =>
      refine ⟨_, Moves.refl _ _ _, ?_⟩
      rw [settle_world, Prog.head, World.push_log, ends.tracks.finish]
      exact keeps
  | op o next ih =>
      have moves := settle_moves cfg id (p := Prog.op o next) rfl
        (ends.free w t c o) (ends.faithful t c w.mem o)
      have world : (cfg.settle w t id c (.op o next)).world = w := rfl
      have access := ends.tracks.access _ reach t id c o (exec o w.mem).1 (exec o w.mem).2
      rw [world] at access
      obtain ⟨seen, moved⟩ := access keeps.1 (ends.faithful t c w.mem o)
      obtain ⟨after, later, left⟩ := ih (exec o w.mem).1 ends
        (reach.trans (closing_steps moves.steps)) (loops _) (by
          simp only [moved]
          exact keeps.2 _ seen)
      exact ⟨after, moves.trans later, left⟩
  | loop o body next _ _ =>
      refine ⟨_, Moves.refl _ _ _, ?_⟩
      exact ends.spins _ o body loops.1 keeps.1

/-- Where nobody holds anything, a call in progress is run to its return. -/
theorem Ends.complete (ends : Ends D sys mem state still L exec J) (reach : Reachable sys mem cfg)
    (quiet : ∀ u, state cfg.world.log u = still) :
    ∃ after, Moves sys t cfg after ∧ after.running t = none := by
  have stands : Stands D L state still cfg t := Reachable.stands ends.tracks ends.codes reach t
  cases busy : cfg.running t with
  | none => exact ⟨cfg, Moves.refl _ _ _, busy⟩
  | some run =>
      obtain ⟨⟨o, next, at_op⟩, loops, keeps⟩ := stands.busy busy
      obtain ⟨value, m, ran⟩ := solo_ends (ends.governs t) ends.spins (ends.opens t) keeps loops
        (quiet t ▸ ends.quiet cfg reach quiet t)
      obtain ⟨log, moves⟩ := settle_solo cfg t run.id run.call
        (f := Prog.ret) (w := cfg.world) ends.free ends.faithful ran
      rw [Prog.bind_ret, settle_self busy at_op] at moves
      refine ⟨_, moves, ?_⟩
      simp [Config.settle, Prog.head]

/-- What each thread can bring about by itself, once and for all, all of them can. -/
theorem one_by_one (Good : T → Config T Call Ret Op Res S → Prop)
    (Kept : Config T Call Ret Op Res S → Prop) (live : T → Prop)
    (each : ∀ t cfg, Reachable sys mem cfg → Kept cfg → live t → ∃ after, Moves sys t cfg after ∧
      Kept after ∧ Good t after ∧ ∀ u, u ≠ t → Good u cfg → Good u after)
    (ts : List T) (reach : Reachable sys mem cfg) (kept : Kept cfg) :
    ∃ after, Steps (closing sys) cfg after ∧
      (∃ more, after.world.log = cfg.world.log ++ more ∧ ∀ e ∈ more, live e.thread) ∧
      Kept after ∧ ∀ t ∈ ts, live t → Good t after := by
  induction ts with
  | nil => exact ⟨cfg, .refl, ⟨[], by simp, by simp⟩, kept, by simp⟩
  | cons t rest ih =>
      obtain ⟨middle, steps, ⟨more, grown, alive⟩, kept, good⟩ := ih
      by_cases may : live t
      · obtain ⟨after, moves, kept, here, stays⟩ :=
          each t middle (reach.trans (closing_steps steps)) kept may
        obtain ⟨own, added, by_t⟩ := moves.logged
        refine ⟨after, steps.trans moves.steps,
          ⟨more ++ own, by rw [added, grown, List.append_assoc], ?_⟩,
          kept, ?_⟩
        · intro e member
          rcases List.mem_append.mp member with early | late
          · exact alive e early
          · rw [by_t e late]
            exact may
        · intro u member aliveU
          by_cases same : u = t
          · exact same ▸ here
          · rcases List.mem_cons.mp member with first | later
            · exact absurd first same
            · exact stays u same (good u later aliveU)
      · refine ⟨middle, steps, ⟨more, grown, alive⟩, kept, ?_⟩
        intro u member aliveU
        rcases List.mem_cons.mp member with rfl | later
        · exact absurd aliveU may
        · exact good u later aliveU

/-- From every state of a run the calls in progress can be ended, without new calls and
without a step of the threads that stand still, as long as these hold nothing. -/
theorem Ends.all [Fintype T] (ends : Ends D sys mem state still L exec J) (live : T → Prop)
    (reach : Reachable sys mem cfg) (empty : ∀ t, ¬ live t → state cfg.world.log t = still) :
    ∃ after, Steps (closing sys) cfg after ∧
      (∃ more, after.world.log = cfg.world.log ++ more ∧ ∀ e ∈ more, live e.thread) ∧
      ∀ t, live t → after.running t = none := by
  -- first everybody lets go, then one call after another is run to its end
  obtain ⟨middle, early, ⟨more, grown, alive⟩, -, left⟩ := one_by_one
    (fun t cfg => state cfg.world.log t = still) (fun _ => True) live (by
      intro t now reach _ _
      have stands : Stands D L state still now t := Reachable.stands ends.tracks ends.codes reach t
      have moved : ∃ after, Moves sys t now after ∧ state after.world.log t = still := by
        cases busy : now.running t with
        | none => exact ⟨now, Moves.refl _ _ _, stands.idle busy⟩
        | some run =>
            obtain ⟨⟨o, next, at_op⟩, loops, keeps⟩ := stands.busy busy
            have self := settle_self busy at_op
            obtain ⟨after, moves, left⟩ := ends.leave (self ▸ reach) loops keeps
            exact ⟨after, self ▸ moves, left⟩
      obtain ⟨after, moves, left⟩ := moved
      exact ⟨after, moves, trivial, left, fun u other still =>
        (ends.tracks.others u _ _ (moves.far other)).trans still⟩)
    Finset.univ.toList reach trivial
  have reach' : Reachable sys mem middle := reach.trans (closing_steps early)
  have quiet : ∀ u, state middle.world.log u = still := by
    intro u
    by_cases may : live u
    · exact left u (by simp) may
    · have far : Others u cfg.world middle.world :=
        ⟨more, grown, fun e member same => may (same ▸ alive e member)⟩
      rw [ends.tracks.others u _ _ far]
      exact empty u may
  obtain ⟨after, late, ⟨added, grown', alive'⟩, -, done⟩ := one_by_one
    (fun t cfg => cfg.running t = none)
    (fun cfg => ∀ u, state cfg.world.log u = still) live (by
      intro t now reach quiet _
      obtain ⟨after, moves, done⟩ := ends.complete (t := t) reach quiet
      have stands : Stands D L state still after t :=
        Reachable.stands ends.tracks ends.codes (reach.trans (closing_steps moves.steps)) t
      refine ⟨after, moves, ?_, done, fun u other idle => (moves.others u other).trans idle⟩
      intro u
      by_cases same : u = t
      · exact same ▸ stands.idle done
      · exact (ends.tracks.others u _ _ (moves.far same)).trans (quiet u))
    Finset.univ.toList reach' quiet
  refine ⟨after, early.trans late, ⟨more ++ added, by rw [grown', grown, List.append_assoc], ?_⟩,
    fun t may => done t (by simp) may⟩
  intro e member
  rcases List.mem_append.mp member with first | second
  · exact alive e first
  · exact alive' e second

end Ending
end Membridge.Completion
