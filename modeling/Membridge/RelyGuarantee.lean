import Membridge.Interleaving

/-!
Rely-guarantee reasoning for interleaved programs. A protocol fixes what holds
between any two accesses (`Inv`), what each thread may count on while the others
run (`Rely`) and what a thread knows between its calls (`Idle`). `wp` follows a
program access by access. An access and the return it leads to are one step, so
`wp` carries the step in flight, from `w` to `now`, and commits it when the next
access begins or the call returns.
-/
namespace Membridge.RelyGuarantee
open Program Interleaving

variable {T Call Ret Op S : Type} {Res : Op → Type}

/-- Between `w` and `w'` only other threads took steps. -/
def Others (t : T) (w w' : World T Call Ret Op Res S) : Prop :=
  ∃ more, w'.log = w.log ++ more ∧ ∀ e ∈ more, e.thread ≠ t

theorem others_refl (t : T) (w : World T Call Ret Op Res S) : Others t w w :=
  ⟨[], by simp, by simp⟩

theorem others_trans {t : T} {a b c : World T Call Ret Op Res S}
    (first : Others t a b) (second : Others t b c) : Others t a c := by
  obtain ⟨x, xlog, xfar⟩ := first
  obtain ⟨y, ylog, yfar⟩ := second
  refine ⟨x ++ y, by rw [ylog, xlog, List.append_assoc], ?_⟩
  intro e member
  rcases List.mem_append.mp member with inX | inY
  · exact xfar e inX
  · exact yfar e inY

theorem others_meanwhile {t : T} {a b : World T Call Ret Op Res S} (far : Others t a b) :
    Meanwhile t a.log b.log := by
  obtain ⟨more, log, far⟩ := far
  exact ⟨more, log, fun e member same => absurd same (far e member)⟩

/-- `Known` are facts of every reachable world that were proved before. -/
structure Protocol (T Call Ret Op : Type) (Res : Op → Type) (S : Type) where
  Known : World T Call Ret Op Res S → Prop
  Inv : World T Call Ret Op Res S → Prop
  Rely : T → World T Call Ret Op Res S → World T Call Ret Op Res S → Prop
  Idle : T → World T Call Ret Op Res S → Prop
  rely_refl : ∀ t w, Rely t w w
  rely_trans : ∀ t a b c, Rely t a b → Rely t b c → Rely t a c
  idle_stable : ∀ t w w', Inv w → Idle t w → Inv w' → Known w' → Rely t w w' → Others t w w' →
    Idle t w'

namespace Protocol
variable (P : Protocol T Call Ret Op Res S) (sys : System T Call Ret Op Res S)

/-- What thread `t`, at rest in `w`, finds when it is scheduled again. -/
structure Env (t : T) (w w' : World T Call Ret Op Res S) : Prop where
  inv : P.Inv w'
  known : P.Known w'
  rely : P.Rely t w w'
  others : Others t w w'

/-- A step of `t` from `w` to `now` keeps the invariant and what the others count on. -/
def Commit (t : T) (w now : World T Call Ret Op Res S) : Prop :=
  P.Known now → P.Inv now ∧ ∀ u, u ≠ t → P.Rely u w now

/-- The step in flight ends the call: the return is logged, and `t` is idle again. -/
def Finish (t : T) (id : Nat) (c : Call) (value : Ret) (w now : World T Call Ret Op Res S) : Prop :=
  P.Commit t w (now.push (.finish t id c value)) ∧
    (P.Known (now.push (.finish t id c value)) → P.Idle t (now.push (.finish t id c value)))

def wp (t : T) (id : Nat) (c : Call) :
    {α : Type} → Prog Op Res α →
      (α → World T Call Ret Op Res S → World T Call Ret Op Res S → Prop) →
      World T Call Ret Op Res S → World T Call Ret Op Res S → Prop
  | _, .ret value, post, w, now => post value w now
  | _, .op o next, post, w, now =>
      P.Commit t w now ∧ ∀ w', P.Env t now w' → sys.enabled w' t c o →
        ∀ r mem, sys.sem t c w'.mem o r mem →
          wp t id c (next r) post w' ⟨mem, w'.log ++ [.access t id c o r]⟩
  | _, .loop o body next, post, w, now =>
      ∃ Loop : World T Call Ret Op Res S → World T Call Ret Op Res S → Prop, Loop w now ∧
        ∀ x y, Loop x y → P.Commit t x y ∧ ∀ w', P.Env t y w' → sys.enabled w' t c o →
          ∀ r mem, sys.sem t c w'.mem o r mem →
            wp t id c (body r)
              (fun leave x' y' => if leave then wp t id c next post x' y' else Loop x' y')
              w' ⟨mem, w'.log ++ [.access t id c o r]⟩

variable {P sys} {t : T} {id : Nat} {c : Call} {α β : Type}

@[simp] theorem wp_ret (value : α)
    (post : α → World T Call Ret Op Res S → World T Call Ret Op Res S → Prop)
    (w now : World T Call Ret Op Res S) :
    P.wp sys t id c (.ret value) post w now = post value w now := rfl

theorem wp_mono {p : Prog Op Res α}
    {post weaker : α → World T Call Ret Op Res S → World T Call Ret Op Res S → Prop}
    {w now : World T Call Ret Op Res S} (entails : ∀ a x y, post a x y → weaker a x y)
    (holds : P.wp sys t id c p post w now) : P.wp sys t id c p weaker w now := by
  induction p generalizing w now with
  | ret value => exact entails _ _ _ holds
  | op o next ih =>
      refine ⟨holds.1, ?_⟩
      intro w' env may r mem does
      exact ih r entails (holds.2 w' env may r mem does)
  | loop o body next bodyIh nextIh =>
      obtain ⟨Loop, enter, again⟩ := holds
      refine ⟨Loop, enter, ?_⟩
      intro x y at_top
      refine ⟨(again x y at_top).1, ?_⟩
      intro w' env may r mem does
      refine bodyIh r ?_ ((again x y at_top).2 w' env may r mem does)
      intro leave x' y' after
      cases leave with
      | false => exact after
      | true => exact nextIh entails after

theorem wp_bind (p : Prog Op Res α) (f : α → Prog Op Res β)
    (post : β → World T Call Ret Op Res S → World T Call Ret Op Res S → Prop)
    (w now : World T Call Ret Op Res S) :
    P.wp sys t id c (p.bind f) post w now =
      P.wp sys t id c p (fun a x y => P.wp sys t id c (f a) post x y) w now := by
  induction p generalizing w now with
  | ret value => rfl
  | op o next ih => simp only [Prog.op_bind, wp, ih]
  | loop o body next _ ih => simp only [Prog.loop_bind, wp, ih]

/-- The rule for one access. -/
theorem wp_op {o : Op} {next : Res o → Prog Op Res α}
    {post : α → World T Call Ret Op Res S → World T Call Ret Op Res S → Prop}
    {w now : World T Call Ret Op Res S} (commit : P.Commit t w now)
    (later : ∀ w', P.Env t now w' → sys.enabled w' t c o → ∀ r mem, sys.sem t c w'.mem o r mem →
      P.wp sys t id c (next r) post w' ⟨mem, w'.log ++ [.access t id c o r]⟩) :
    P.wp sys t id c (.op o next) post w now := ⟨commit, later⟩

/-- A program without loops, on a part of the memory that nobody else touches while `J`
holds, does among others what it does alone. -/
theorem wp_straight {ok : Op → Prop} {exec : (o : Op) → S → Res o × S} {V : Type} {part : S → V}
    {J : World T Call Ret Op Res S → Prop}
    (same : ∀ o s s', ok o → part s = part s' →
      (exec o s).1 = (exec o s').1 ∧ part (exec o s).2 = part (exec o s').2)
    (stable : ∀ w w', J w → P.Env t w w' → J w' ∧ part w'.mem = part w.mem)
    (step : ∀ o w r mem, ok o → J w → P.Inv w → sys.sem t c w.mem o r mem →
      r = (exec o w.mem).1 ∧ mem = (exec o w.mem).2 ∧
        J ⟨mem, w.log ++ [.access t id c o r]⟩ ∧ P.Commit t w ⟨mem, w.log ++ [.access t id c o r]⟩)
    {p : Prog Op Res α} (straight : p.Straight ok) {w now : World T Call Ret Op Res S}
    (commit : P.Commit t w now) (inside : J now) :
    P.wp sys t id c p (fun value x y => P.Commit t x y ∧ J y ∧
      ∃ after, Prog.solo exec p now.mem = some (value, after) ∧ part after = part y.mem) w now := by
  induction p generalizing w now with
  | ret value => exact ⟨commit, inside, now.mem, rfl, rfl⟩
  | op o next ih =>
      refine wp_op commit ?_
      intro w' env may r mem does
      obtain ⟨still, part_kept⟩ := stable now w' inside env
      obtain ⟨rfl, rfl, after, committed⟩ := step o w' r mem straight.1 still env.inv does
      refine wp_mono ?_ (ih _ (straight.2 _) committed after)
      rintro value x y ⟨commit, at_y, last, ran, ends⟩
      obtain ⟨answer, left⟩ := same o w'.mem now.mem straight.1 part_kept
      obtain ⟨_, _, other, here, there, agree⟩ :=
        Prog.straight_solo same (straight.2 (exec o w'.mem).1) left
      cases here.symm.trans ran
      refine ⟨commit, at_y, other, ?_, agree.symm.trans ends⟩
      rw [Prog.solo_op, ← answer]
      exact there
  | loop o body next _ _ => exact straight.elim

/-- A program whose accesses all keep `J`, whether its loops are ever left or not. -/
theorem wp_only {ok : Op → Prop} {J : World T Call Ret Op Res S → Prop}
    (stable : ∀ w w', J w → P.Env t w w' → J w')
    (step : ∀ o w r mem, ok o → J w → P.Inv w → sys.sem t c w.mem o r mem →
      J ⟨mem, w.log ++ [.access t id c o r]⟩ ∧ P.Commit t w ⟨mem, w.log ++ [.access t id c o r]⟩)
    {p : Prog Op Res α} (only : p.Only ok) {w now : World T Call Ret Op Res S}
    (commit : P.Commit t w now) (inside : J now) :
    P.wp sys t id c p (fun _ x y => P.Commit t x y ∧ J y) w now := by
  induction p generalizing w now with
  | ret value => exact ⟨commit, inside⟩
  | op o next ih =>
      refine wp_op commit ?_
      intro w' env _ r mem does
      obtain ⟨after, committed⟩ := step o w' r mem only.1 (stable now w' inside env) env.inv does
      exact ih r (only.2 r) committed after
  | loop o body next bodyIh nextIh =>
      -- `J` is the invariant of the loop
      refine ⟨fun x y => P.Commit t x y ∧ J y, ⟨commit, inside⟩, ?_⟩
      rintro x y ⟨commit, inside⟩
      refine ⟨commit, ?_⟩
      intro w' env _ r mem does
      obtain ⟨after, committed⟩ := step o w' r mem only.1 (stable y w' inside env) env.inv does
      refine wp_mono ?_ (bodyIh r (only.2.1 r) committed after)
      rintro leave x' y' ⟨commit, inside⟩
      cases leave with
      | false => exact ⟨commit, inside⟩
      | true => exact nextIh only.2.2 commit inside

/-- The rule for a sequence that may fail in its first part. -/
theorem wp_run_bind {ε : Type} (p : ExceptT ε (Prog Op Res) α) (f : α → ExceptT ε (Prog Op Res) β)
    (post : Except ε β → World T Call Ret Op Res S → World T Call Ret Op Res S → Prop)
    (w now : World T Call Ret Op Res S) :
    P.wp sys t id c (p >>= f).run post w now =
      P.wp sys t id c p.run (fun result x y =>
        match result with
        | .ok value => P.wp sys t id c (f value).run post x y
        | .error e => post (.error e) x y) w now := by
  rw [Prog.run_bind, wp_bind]
  congr 1
  funext result
  cases result <;> rfl

theorem env_refl {w : World T Call Ret Op Res S} (inv : P.Inv w) (known : P.Known w) :
    P.Env t w w := ⟨inv, known, P.rely_refl t w, others_refl t w⟩

theorem env_trans {a b d : World T Call Ret Op Res S} (first : P.Env t a b)
    (second : P.Env t b d) : P.Env t a d :=
  ⟨second.inv, second.known, P.rely_trans t a b d first.rely second.rely,
    others_trans first.others second.others⟩

theorem wp_head {p : Prog Op Res α}
    {post : α → World T Call Ret Op Res S → World T Call Ret Op Res S → Prop}
    {w now : World T Call Ret Op Res S} (holds : P.wp sys t id c p post w now)
    {o : Op} {next : Res o → Prog Op Res α} (at_op : p.head = .inr ⟨o, next⟩) :
    P.Commit t w now ∧ ∀ w', P.Env t now w' → sys.enabled w' t c o →
      ∀ r mem, sys.sem t c w'.mem o r mem →
        P.wp sys t id c (next r) post w' ⟨mem, w'.log ++ [.access t id c o r]⟩ := by
  cases p with
  | ret value => simp [Prog.head] at at_op
  | op o' next' =>
      simp only [Prog.head, Sum.inr.injEq, Sigma.mk.injEq] at at_op
      obtain ⟨rfl, same⟩ := at_op
      cases same
      exact holds
  | loop o' body after =>
      simp only [Prog.head, Sum.inr.injEq, Sigma.mk.injEq] at at_op
      obtain ⟨rfl, same⟩ := at_op
      cases same
      obtain ⟨Loop, enter, again⟩ := holds
      refine ⟨(again w now enter).1, ?_⟩
      intro w' env may r mem does
      rw [wp_bind]
      refine wp_mono ?_ ((again w now enter).2 w' env may r mem does)
      intro leave x y settled
      cases leave with
      | true => exact settled
      | false => exact ⟨Loop, settled, again⟩

variable [DecidableEq T] (P sys)

/-- What has to be shown of a protocol: it starts well, and every allowed call keeps to it. -/
structure Sound (mem : S) : Prop where
  known : ∀ cfg, Reachable sys mem cfg → P.Known cfg.world
  init : P.Inv ⟨mem, []⟩
  idle : ∀ t, P.Idle t ⟨mem, []⟩
  call : ∀ t c w, sys.allowed t c → P.Inv w → P.Known w → P.Idle t w →
    P.wp sys t w.log.length c (sys.code t c) (P.Finish t w.log.length c) w
      (w.push (.invoke t w.log.length c))

/-- A running call: its next access, and what is known of the rest whenever it is taken. -/
def Pending (t : T) (run : Running Call Ret Op Res) (w : World T Call Ret Op Res S) : Prop :=
  ∃ o next, run.rest.head = .inr ⟨o, next⟩ ∧
    ∀ w', P.Env t w w' → sys.enabled w' t run.call o → ∀ r mem, sys.sem t run.call w'.mem o r mem →
      P.wp sys t run.id run.call (next r) (P.Finish t run.id run.call) w'
        ⟨mem, w'.log ++ [.access t run.id run.call o r]⟩

def Holds (cfg : Config T Call Ret Op Res S) : Prop :=
  P.Inv cfg.world ∧ ∀ t,
    match cfg.running t with
    | none => P.Idle t cfg.world
    | some run => P.Pending sys t run cfg.world

variable {P sys}

/-- One step of `t`, from a world its assertion was about to one that `wp` describes. -/
theorem settle_holds {cfg : Config T Call Ret Op Res S} {now : World T Call Ret Op Res S}
    {rest : Prog Op Res Ret} (before : P.Holds sys cfg)
    (known : P.Known (cfg.settle now t id c rest).world)
    (ext : ∃ e : Event T Call Ret Op Res, e.thread = t ∧ now.log = cfg.world.log ++ [e])
    (holds : P.wp sys t id c rest (P.Finish t id c) cfg.world now) :
    P.Holds sys (cfg.settle now t id c rest) := by
  obtain ⟨inv, each⟩ := before
  obtain ⟨e, own, grown⟩ := ext
  -- every other thread sees a step it relies on
  have carried : ∀ after : World T Call Ret Op Res S, P.Known after → P.Commit t cfg.world after →
      (∃ more, after.log = cfg.world.log ++ more ∧ ∀ x ∈ more, x.thread = t) →
      ∀ u, u ≠ t → match cfg.running u with
        | none => P.Idle u after
        | some run => P.Pending sys u run after := by
    intro after knownAfter commit grown u other
    obtain ⟨more, log, byT⟩ := grown
    have far : Others u cfg.world after :=
      ⟨more, log, fun x member same => other (same.symm.trans (byT x member))⟩
    have rely := (commit knownAfter).2 u other
    have invAfter := (commit knownAfter).1
    have was := each u
    cases busy : cfg.running u with
    | none =>
        rw [busy] at was
        exact P.idle_stable u _ _ inv was invAfter knownAfter rely far
    | some run =>
        rw [busy] at was
        obtain ⟨o, next, at_op, later⟩ := was
        exact ⟨o, next, at_op, fun w' env =>
          later w' (env_trans ⟨invAfter, knownAfter, rely, far⟩ env)⟩
  cases next : rest.head with
  | inl value =>
      have isRet := Prog.head_ret next
      subst isRet
      obtain ⟨commit, idle⟩ := holds
      rw [settle_world, next] at known
      simp only [Config.settle, Prog.head]
      refine ⟨(commit known).1, ?_⟩
      intro u
      by_cases same : u = t
      · subst same
        simpa using idle known
      · simpa [same] using carried _ known commit
          ⟨[e, .finish t id c value], by simp [grown], by simp [own]⟩ u same
  | inr o =>
      have inFlight := wp_head holds next
      rw [settle_world, next] at known
      simp only [Config.settle, next]
      refine ⟨(inFlight.1 known).1, ?_⟩
      intro u
      by_cases same : u = t
      · subst same
        simpa using ⟨o.1, o.2, next, inFlight.2⟩
      · simpa [same] using carried _ known inFlight.1 ⟨[e], grown, by simp [own]⟩ u same

theorem Sound.holds {mem : S} (sound : P.Sound sys mem) {cfg : Config T Call Ret Op Res S}
    (reach : Reachable sys mem cfg) : P.Holds sys cfg := by
  induction reach with
  | refl => exact ⟨sound.init, sound.idle⟩
  | tail steps step ih =>
      have known := sound.known _ steps
      have knownAfter := sound.known _ (steps.tail step)
      cases step with
      | call t c idle may =>
          have was := ih.2 t
          rw [idle] at was
          exact settle_holds ih knownAfter ⟨_, rfl, rfl⟩ (sound.call t c _ may ih.1 known was)
      | go t run o next r mem' busy at_op may does =>
          have was := ih.2 t
          rw [busy] at was
          obtain ⟨o', next', at_op', later⟩ := was
          rw [at_op] at at_op'
          simp only [Sum.inr.injEq, Sigma.mk.injEq] at at_op'
          obtain ⟨rfl, same⟩ := at_op'
          cases same
          exact settle_holds ih knownAfter ⟨_, rfl, rfl⟩
            (later _ (env_refl ih.1 known) may r mem' does)

theorem Sound.inv {mem : S} (sound : P.Sound sys mem) {cfg : Config T Call Ret Op Res S}
    (reach : Reachable sys mem cfg) : P.Inv cfg.world := (sound.holds reach).1

theorem Sound.idle_of {mem : S} (sound : P.Sound sys mem) {cfg : Config T Call Ret Op Res S}
    (reach : Reachable sys mem cfg) {t : T} (free : cfg.running t = none) :
    P.Idle t cfg.world := by
  have was := (sound.holds reach).2 t
  rwa [free] at was

end Protocol
end Membridge.RelyGuarantee
