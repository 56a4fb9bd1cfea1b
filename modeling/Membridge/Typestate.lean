import Membridge.RelyGuarantee

/-!
Programs that keep to a discipline: a state of the caller that every access
moves on, which accesses that state admits and which responses they can get
there. One check of a program then serves runs alone and runs among others.
-/
namespace Membridge.Typestate
open Program Interleaving RelyGuarantee

structure Discipline (Op : Type) (Res : Op → Type) (Φ : Type) where
  enter : Φ → (o : Op) → Res o → Φ
  may : Φ → Op → Prop
  sees : Φ → (o : Op) → Res o → Prop

variable {T Call Ret Op S Φ α β : Type} {Res : Op → Type}

namespace Discipline
variable (D : Discipline Op Res Φ)

/-- A loop has to come back to the state it started from when it goes round. -/
def Follows : {α : Type} → Φ → Prog Op Res α → (α → Φ → Prop) → Prop
  | _, ph, .ret value, post => post value ph
  | _, ph, .op o next, post =>
      D.may ph o ∧ ∀ r, D.sees ph o r → Follows (D.enter ph o r) (next r) post
  | _, ph, .loop o body next, post =>
      D.may ph o ∧ ∀ r, D.sees ph o r →
        Follows (D.enter ph o r) (body r)
          fun leave later => if leave then Follows later next post else later = ph

variable {D} {ph : Φ}

@[simp] theorem follows_ret (value : α) (post : α → Φ → Prop) :
    D.Follows ph (.ret value) post = post value ph := rfl

@[simp] theorem follows_op (o : Op) (next : Res o → Prog Op Res α) (post : α → Φ → Prop) :
    D.Follows ph (.op o next) post =
      (D.may ph o ∧ ∀ r, D.sees ph o r → D.Follows (D.enter ph o r) (next r) post) := rfl

theorem follows_mono {p : Prog Op Res α} {post weaker : α → Φ → Prop}
    (entails : ∀ a later, post a later → weaker a later) (keeps : D.Follows ph p post) :
    D.Follows ph p weaker := by
  induction p generalizing ph with
  | ret value => exact entails _ _ keeps
  | op o next ih => exact ⟨keeps.1, fun r seen => ih r entails (keeps.2 r seen)⟩
  | loop o body next bodyIh nextIh =>
      refine ⟨keeps.1, ?_⟩
      intro r seen
      refine bodyIh r ?_ (keeps.2 r seen)
      intro leave later after
      cases leave with
      | false => exact after
      | true => exact nextIh entails after

theorem follows_bind (p : Prog Op Res α) (f : α → Prog Op Res β) (post : β → Φ → Prop) :
    D.Follows ph (p.bind f) post =
      D.Follows ph p fun a later => D.Follows later (f a) post := by
  induction p generalizing ph with
  | ret value => rfl
  | op o next ih => simp only [Prog.op_bind, follows_op, ih]
  | loop o body next _ ih => simp only [Prog.loop_bind, Follows, ih]

/-- No rule at all: every program keeps to it. -/
def anything : Discipline Op Res Unit := ⟨fun _ _ _ => (), fun _ _ => True, fun _ _ _ => True⟩

theorem anything_follows (p : Prog Op Res α) :
    (anything : Discipline Op Res Unit).Follows () p fun _ _ => True := by
  induction p with
  | ret value => trivial
  | op o next ih => exact ⟨trivial, fun r _ => ih r⟩
  | loop o body next bodyIh nextIh =>
      refine ⟨trivial, ?_⟩
      intro r _
      apply follows_mono ?_ (bodyIh r)
      intro leave _ _
      cases leave with
      | false => rfl
      | true => exact nextIh

section Fallible
variable {ε : Type}

theorem follows_run_bind (p : ExceptT ε (Prog Op Res) α) (f : α → ExceptT ε (Prog Op Res) β)
    (post : Except ε β → Φ → Prop) :
    D.Follows ph (p >>= f).run post =
      D.Follows ph p.run fun result later =>
        match result with
        | .ok value => D.Follows later (f value).run post
        | .error e => post (.error e) later := by
  rw [Prog.run_bind, follows_bind]
  congr 1
  funext result later
  cases result <;> rfl

/-- An error leaves the state as it was; a value comes with a state that meets `post`. -/
def Ends (D : Discipline Op Res Φ) (ph : Φ) (p : ExceptT ε (Prog Op Res) α)
    (post : α → Φ → Prop) : Prop :=
  D.Follows ph p.run fun result later =>
    match result with
    | .ok value => post value later
    | .error _ => later = ph

section Ends
variable {post : α → Φ → Prop}

theorem ends_pure {value : α} (holds : post value ph) :
    D.Ends ph (pure value : ExceptT ε (Prog Op Res) α) post := holds

theorem ends_except {result : Except ε α} (holds : ∀ value, result = .ok value → post value ph) :
    D.Ends ph (liftM result : ExceptT ε (Prog Op Res) α) post := by
  cases result with
  | ok value => exact holds value rfl
  | error e => rfl

theorem ends_access {o : Op} {post : Res o → Φ → Prop} (admitted : D.may ph o)
    (holds : ∀ r, D.sees ph o r → post r (D.enter ph o r)) :
    D.Ends ph (Prog.access o : ExceptT ε (Prog Op Res) (Res o)) post := ⟨admitted, holds⟩

theorem ends_mono {p : ExceptT ε (Prog Op Res) α} {weaker : α → Φ → Prop}
    (entails : ∀ value later, post value later → weaker value later) (ends : D.Ends ph p post) :
    D.Ends ph p weaker := by
  apply follows_mono ?_ ends
  intro result later after
  cases result with
  | ok value => exact entails value later after
  | error e => exact after

/-- Only the last part of a program may move the state. -/
theorem ends_bind {q : α → Prop} {post : β → Φ → Prop} {p : ExceptT ε (Prog Op Res) α}
    {f : α → ExceptT ε (Prog Op Res) β}
    (first : D.Ends ph p fun value later => later = ph ∧ q value)
    (then_f : ∀ value, q value → D.Ends ph (f value) post) : D.Ends ph (p >>= f) post := by
  unfold Ends
  rw [follows_run_bind]
  apply follows_mono ?_ first
  intro result later after
  cases result with
  | ok value =>
      obtain ⟨rfl, holds⟩ := after
      exact then_f value holds
  | error e => exact after

/-- What comes after the last part only looks at its value. -/
theorem ends_map {post : β → Φ → Prop} {p : ExceptT ε (Prog Op Res) α} {f : α → β}
    (first : D.Ends ph p fun value later => post (f value) later) :
    D.Ends ph (p >>= fun value => pure (f value)) post := by
  unfold Ends
  rw [follows_run_bind]
  apply follows_mono ?_ first
  intro result later after
  cases result with
  | ok value => exact after
  | error e => exact after

end Ends

/-- Whatever it answers, the program ends in the state it began in. -/
def Stays (D : Discipline Op Res Φ) (ph : Φ) (p : ExceptT ε (Prog Op Res) α) : Prop :=
  D.Follows ph p.run fun _ later => later = ph

theorem stays_except (result : Except ε α) :
    D.Stays ph (liftM result : ExceptT ε (Prog Op Res) α) := by
  cases result <;> rfl

theorem stays_access {o : Op} (admitted : D.may ph o)
    (same : ∀ r, D.sees ph o r → D.enter ph o r = ph) :
    D.Stays ph (Prog.access o : ExceptT ε (Prog Op Res) (Res o)) := ⟨admitted, same⟩

theorem stays_bind {p : ExceptT ε (Prog Op Res) α} {f : α → ExceptT ε (Prog Op Res) β}
    (first : D.Stays ph p) (later : ∀ value, D.Stays ph (f value)) : D.Stays ph (p >>= f) := by
  unfold Stays
  rw [follows_run_bind]
  apply follows_mono ?_ first
  rintro result _ rfl
  cases result with
  | ok value => exact later value
  | error e => rfl

theorem stays_lift {p : Prog Op Res α} (inside : D.Follows ph p fun _ later => later = ph) :
    D.Stays ph (liftM p : ExceptT ε (Prog Op Res) α) := by
  unfold Stays
  rw [Prog.run_liftM, follows_bind]
  exact inside

end Fallible

section Alone
variable {exec : (o : Op) → S → Res o × S}

/-- A discipline is sound for `J` when admitted accesses get admitted responses and
keep `J` between the state of the caller and the memory. -/
def Governs (D : Discipline Op Res Φ) (exec : (o : Op) → S → Res o × S) (J : Φ → S → Prop) : Prop :=
  ∀ ph s o, J ph s → D.may ph o →
    D.sees ph o (exec o s).1 ∧ J (D.enter ph o (exec o s).1) (exec o s).2

/-- A program that keeps to a sound discipline, run alone: every access it makes is
admitted, and answered, in some state on the way. -/
theorem follows_solo {J : Φ → S → Prop} (governs : D.Governs exec J) {p : Prog Op Res α}
    {post : α → Φ → Prop} {s after : S} {value : α} (keeps : D.Follows ph p post) (now : J ph s)
    (ran : Prog.solo exec p s = some (value, after)) :
    (∃ later, post value later ∧ J later after) ∧
      ∀ a ∈ Prog.accesses exec p s, ∃ q x, J q x ∧ D.may q a.1 ∧ D.sees q a.1 a.2 := by
  induction p generalizing ph s after with
  | ret a =>
      cases ran
      exact ⟨⟨ph, keeps, now⟩, by simp [Prog.accesses]⟩
  | op o next ih =>
      obtain ⟨seen, kept⟩ := governs ph s o now keeps.1
      obtain ⟨ends, inside⟩ := ih _ (keeps.2 _ seen) kept ran
      refine ⟨ends, ?_⟩
      intro x member
      rcases List.mem_cons.mp member with rfl | later
      · exact ⟨ph, s, now, keeps.1, seen⟩
      · exact inside x later
  | loop o body next bodyIh nextIh =>
      obtain ⟨seen, kept⟩ := governs ph s o now keeps.1
      simp only [Prog.solo] at ran
      split at ran
      -- alone, a loop is left after its first round or never
      · next middle left =>
          obtain ⟨⟨q, go, at_q⟩, within⟩ := bodyIh _ (keeps.2 _ seen) kept left
          obtain ⟨ends, inside⟩ := nextIh go at_q ran
          refine ⟨ends, ?_⟩
          intro x member
          simp only [Prog.accesses, left, List.mem_cons, List.mem_append] at member
          rcases member with (rfl | early) | later
          · exact ⟨ph, s, now, keeps.1, seen⟩
          · exact within x early
          · exact inside x later
      · cases ran

end Alone

section Among

/-- The state of the caller can be told from the log, and what the discipline admits
is what the protocol lets a thread do. -/
structure Fits (D : Discipline Op Res Φ) (P : Protocol T Call Ret Op Res S)
    (sys : System T Call Ret Op Res S) (state : List (Event T Call Ret Op Res) → T → Φ)
    (c : Call) : Prop where
  others : ∀ (t : T) (a b : World T Call Ret Op Res S), Others t a b → state b.log t = state a.log t
  step : ∀ t id w o r mem, P.Inv w → P.Known w → D.may (state w.log t) o →
    sys.enabled w t c o → sys.sem t c w.mem o r mem →
      D.sees (state w.log t) o r ∧
      state (w.log ++ [.access t id c o r]) t = D.enter (state w.log t) o r ∧
      P.Commit t w ⟨mem, w.log ++ [.access t id c o r]⟩

variable {P : Protocol T Call Ret Op Res S} {sys : System T Call Ret Op Res S}
  {t : T} {id : Nat} {c : Call} {w now : World T Call Ret Op Res S}

/-- A program that keeps to the discipline keeps to the protocol. -/
theorem follows_wp {state : List (Event T Call Ret Op Res) → T → Φ} (fits : D.Fits P sys state c)
    {p : Prog Op Res α} {post : α → Φ → Prop} (keeps : D.Follows ph p post)
    (at_ph : state now.log t = ph) (commit : P.Commit t w now) :
    P.wp sys t id c p (fun v x y => post v (state y.log t) ∧ P.Commit t x y) w now := by
  induction p generalizing ph w now with
  | ret value =>
      subst at_ph
      exact ⟨keeps, commit⟩
  | op o next ih =>
      refine ⟨commit, ?_⟩
      intro w' env may r mem does
      have same := (fits.others t _ _ env.others).trans at_ph
      obtain ⟨seen, moves, committed⟩ := fits.step t id w' o r mem env.inv env.known
        (same ▸ keeps.1) may does
      rw [same] at seen moves
      exact ih r (keeps.2 r seen) moves committed
  | loop o body next bodyIh nextIh =>
      -- every round starts in `ph`
      refine ⟨fun x y => state y.log t = ph ∧ P.Commit t x y, ⟨at_ph, commit⟩, ?_⟩
      rintro x y ⟨at_top, commit⟩
      refine ⟨commit, ?_⟩
      intro w' env may r mem does
      have same := (fits.others t _ _ env.others).trans at_top
      obtain ⟨seen, moves, committed⟩ := fits.step t id w' o r mem env.inv env.known
        (same ▸ keeps.1) may does
      rw [same] at seen moves
      refine Protocol.wp_mono ?_ (bodyIh r (keeps.2 r seen) moves committed)
      intro leave x' y' after
      cases leave with
      | true => exact nextIh after.1 rfl after.2
      | false => exact after

section Phases
variable [DecidableEq T] (D)

def moved (t : T) (ph : Φ) : Event T Call Ret Op Res → Φ
  | .access u _ _ o r => if u = t then D.enter ph o r else ph
  | _ => ph

/-- Where a caller stands: the state its accesses have led to. -/
def phase (start : Φ) (log : List (Event T Call Ret Op Res)) (t : T) : Φ :=
  log.foldl (D.moved t) start

/-- What the log of a governed run shows: admitted accesses, and calls that end as they may. -/
def Ruled (ends : T → Call → Ret → Prop) : Event T Call Ret Op Res → Prop
  | .invoke _ _ _ => True
  | .access _ _ _ o _ => ∃ ph, D.may ph o
  | .finish t _ c value => ends t c value

def governedProtocol (start : Φ) (J : (T → Φ) → S → Prop) (ends : T → Call → Ret → Prop) :
    Protocol T Call Ret Op Res S where
  Known _ := True
  Inv w := J (D.phase start w.log) w.mem ∧ ∀ e ∈ w.log, D.Ruled ends e
  Rely _ _ _ := True
  Idle _ _ := True
  rely_refl _ _ := trivial
  rely_trans _ _ _ _ _ _ := trivial
  idle_stable _ _ _ _ _ _ _ _ _ := trivial

variable {D} {start : Φ} {log : List (Event T Call Ret Op Res)}

theorem phase_snoc (e : Event T Call Ret Op Res) :
    D.phase start (log ++ [e]) t = D.moved t (D.phase start log t) e := by
  rw [phase, List.foldl_append]
  rfl

theorem phase_others (far : Others t w now) : D.phase start now.log t = D.phase start w.log t := by
  obtain ⟨more, grown, far⟩ := far
  rw [grown]
  clear grown
  induction more using List.reverseRecOn with
  | nil => rw [List.append_nil]
  | append_singleton more e ih =>
      rw [← List.append_assoc, phase_snoc, ih fun x member => far x (List.mem_append_left _ member)]
      have other : e.thread ≠ t := far e (List.mem_append_right _ List.mem_cons_self)
      cases e with
      | access u id c o r => exact if_neg other
      | _ => rfl

theorem phase_access {o : Op} {r : Res o} :
    D.phase start (log ++ [.access t id c o r]) =
      Function.update (D.phase start log) t (D.enter (D.phase start log t) o r) := by
  funext u
  rw [phase_snoc]
  by_cases same : u = t
  · subst same
    rw [Function.update_self]
    exact if_pos rfl
  · rw [Function.update_of_ne same]
    exact if_neg (Ne.symm same)

theorem phase_rest {e : Event T Call Ret Op Res} (rest : e.isAccess = false) :
    D.phase start (log ++ [e]) = D.phase start log := by
  funext u
  rw [phase_snoc]
  cases e with
  | access u id c o r => cases rest
  | _ => rfl

/-- A discipline that is sound for an invariant of the callers' states and the memory, among
others. -/
theorem governed {J : (T → Φ) → S → Prop} {ends : T → Call → Ret → Prop}
    (governs : ∀ ph t c s o r after, J ph s → D.may (ph t) o → sys.sem t c s o r after →
      D.sees (ph t) o r ∧ J (Function.update ph t (D.enter (ph t) o r)) after)
    (codes : ∀ ph t c, sys.allowed t c →
      D.Follows ph (sys.code t c) fun value _ => ends t c value)
    {mem : S} (first : J (fun _ => start) mem) {cfg : Config T Call Ret Op Res S}
    (reach : Reachable sys mem cfg) :
    J (D.phase start cfg.world.log) cfg.world.mem ∧ ∀ e ∈ cfg.world.log, D.Ruled ends e := by
  -- an event added to a log that keeps to the rules
  have grows : ∀ {w : World T Call Ret Op Res S} {e : Event T Call Ret Op Res},
      (∀ x ∈ w.log, D.Ruled ends x) → D.Ruled ends e → ∀ x ∈ w.log ++ [e], D.Ruled ends x := by
    intro w e old new x member
    rcases List.mem_append.mp member with early | last
    · exact old x early
    · cases List.mem_singleton.mp last
      exact new
  have fits : ∀ c, D.Fits (D.governedProtocol start J ends) sys (D.phase start) c := by
    intro c
    constructor
    · exact fun _ _ _ far => phase_others far
    · intro t id w o r after inv _ may _ does
      obtain ⟨seen, kept⟩ := governs _ t c w.mem o r after inv.1 may does
      refine ⟨seen, ?_, ?_⟩
      · rw [phase_access, Function.update_self]
      · refine fun _ => ⟨⟨?_, grows inv.2 ⟨_, may⟩⟩, fun _ _ => trivial⟩
        rw [phase_access]
        exact kept
  have sound : (D.governedProtocol start J ends).Sound sys mem := by
    constructor
    · exact fun _ _ => trivial
    · exact ⟨first, fun _ member => by cases member⟩
    · exact fun _ => trivial
    · intro t c w may inv _ _
      have begun : (D.governedProtocol start J ends).Commit t w
          (w.push (.invoke t w.log.length c)) := by
        refine fun _ => ⟨⟨?_, grows inv.2 trivial⟩, fun _ _ => trivial⟩
        rw [World.push_log, phase_rest rfl]
        exact inv.1
      apply Protocol.wp_mono ?_ (follows_wp (fits c) (codes _ t c may) rfl begun)
      rintro value x y ⟨ended, commit⟩
      have now := (commit trivial).1
      refine ⟨fun _ => ⟨⟨?_, grows now.2 ended⟩, fun _ _ => trivial⟩, fun _ => trivial⟩
      rw [World.push_log, phase_rest rfl]
      exact now.1
  exact sound.inv reach

end Phases
end Among
end Discipline
end Membridge.Typestate
