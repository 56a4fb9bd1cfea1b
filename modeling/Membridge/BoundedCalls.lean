import Membridge.Interleaving

/-!
Calls that their code alone bounds: how many accesses they make and what they can
answer, whatever the memory responds and the other threads do meanwhile.
-/
namespace Membridge.BoundedCalls
open Program Interleaving

variable {T Call Ret Op S α β : Type} {Res : Op → Type} {ok : (o : Op) → Res o → Prop}

/-- At most `n` accesses and then a `good` value, as long as the responses are `ok`. -/
def Within (ok : (o : Op) → Res o → Prop) (good : α → Prop) : Nat → Prog Op Res α → Prop
  | _, .ret value => good value
  | 0, .op _ _ => False
  | n + 1, .op o next => ∀ r, ok o r → Within ok good n (next r)
  | _, .loop _ _ _ => False

section Rules
variable {good : α → Prop} {post : β → Prop} {n m : Nat} {p : Prog Op Res α}

@[simp] theorem within_ret {value : α} : Within ok good n (.ret value : Prog Op Res α) ↔
    good value := by
  cases n <;> exact Iff.rfl

@[simp] theorem within_op {o : Op} {next : Res o → Prog Op Res α} :
    Within ok good (n + 1) (.op o next) ↔ ∀ r, ok o r → Within ok good n (next r) := Iff.rfl

theorem within_mono (within : Within ok good n p) (more : n ≤ m) : Within ok good m p := by
  induction p generalizing n m with
  | ret value => exact within_ret.mpr (within_ret.mp within)
  | op o next ih =>
      cases n with
      | zero => exact within.elim
      | succ n =>
          cases m with
          | zero => omega
          | succ m => exact fun r fine => ih r (within r fine) (by omega)
  | loop o body next _ _ => cases n <;> exact within.elim

theorem within_bind {f : α → Prog Op Res β} (first : Within ok good n p)
    (later : ∀ a, good a → Within ok post m (f a)) : Within ok post (n + m) (p.bind f) := by
  induction p generalizing n with
  | ret value => exact within_mono (later value (within_ret.mp first)) (by omega)
  | op o next ih =>
      cases n with
      | zero => exact first.elim
      | succ n =>
          rw [Nat.succ_add]
          exact fun r fine => ih r (first r fine) later
  | loop o body next _ _ => cases n <;> exact first.elim

/-- A program that does not return at once still has accesses to its credit. -/
theorem within_head {o : Op} {next : Res o → Prog Op Res α} (within : Within ok good n p)
    (at_op : p.head = .inr ⟨o, next⟩) : ∃ k, n = k + 1 ∧ ∀ r, ok o r →
      Within ok good k (next r) := by
  cases p with
  | ret value => cases at_op
  | op o next =>
      cases at_op
      cases n with
      | zero => exact within.elim
      | succ n => exact ⟨n, rfl, within⟩
  | loop o body next => cases n <;> exact within.elim

section Fallible
variable {ε : Type} {p : ExceptT ε (Prog Op Res) α} {f : α → ExceptT ε (Prog Op Res) β}
  {good : Except ε α → Prop} {post : Except ε β → Prop}

theorem within_run_bind (first : Within ok good n p.run)
    (fails : ∀ e, good (.error e) → post (.error e))
    (later : ∀ a, good (.ok a) → Within ok post m (f a).run) :
    Within ok post (n + m) (p >>= f).run := by
  rw [Prog.run_bind]
  apply within_bind first
  intro result fine
  cases result with
  | ok value => exact later value fine
  | error e => exact within_ret.mpr (fails e fine)

/-- A first part without accesses. -/
theorem within_run_still (first : Within ok good 0 p.run)
    (fails : ∀ e, good (.error e) → post (.error e))
    (later : ∀ a, good (.ok a) → Within ok post m (f a).run) : Within ok post m (p >>= f).run := by
  rw [← Nat.zero_add m]
  exact within_run_bind first fails later

theorem within_run_access {o : Op} {f : Res o → ExceptT ε (Prog Op Res) β}
    (later : ∀ r, ok o r → Within ok post m (f r).run) :
    Within ok post (m + 1) (Prog.access o >>= f).run := by
  rw [Prog.run_bind, Prog.run_access]
  exact fun r fine => later r fine

end Fallible
end Rules

variable [DecidableEq T]

def isAccessOf (t : T) (id : Nat) : Event T Call Ret Op Res → Bool
  | .access u i _ _ _ => u = t ∧ i = id
  | _ => false

/-- How many accesses a call has made. -/
def made (log : List (Event T Call Ret Op Res)) (t : T) (id : Nat) : Nat :=
  log.countP (isAccessOf t id)

section Made
variable {log : List (Event T Call Ret Op Res)} {t u : T} {id i : Nat}
  {c : Call} {o : Op} {r : Res o}

@[simp] theorem made_invoke : made (log ++ [.invoke u i c]) t id = made log t id := by
  simp [made, isAccessOf]

@[simp] theorem made_finish {value : Ret} : made (log ++ [.finish u i c value]) t id =
    made log t id := by
  simp [made, isAccessOf]

theorem made_access : made (log ++ [.access u i c o r]) t id =
    made log t id + if u = t ∧ i = id then 1 else 0 := by
  simp [made, isAccessOf, List.countP_cons]

omit [DecidableEq T] in
/-- The start of a call is no other event of the log. -/
theorem invoke_early {e : Event T Call Ret Op Res} (other : ∀ u i c, e ≠ .invoke u i c)
    (began : (log ++ [e])[i]? = some (.invoke u i c)) : log[i]? = some (.invoke u i c) := by
  rw [List.getElem?_append] at began
  split at began
  · exact began
  · rw [List.getElem?_singleton] at began
    split at began
    · exact absurd (Option.some.inj began) (other u i c)
    · cases began

theorem made_fresh (begun : Recorded Begun log) (fresh : log.length ≤ id) : made log t id = 0 := by
  rw [made, List.countP_eq_zero]
  intro e member isAccess
  cases e with
  | access u i c o r =>
      have early := begun_early begun member
      simp only [isAccessOf, decide_eq_true_eq] at isAccess
      omega
  | _ => cases isAccess

end Made

/-- Every call has kept to its bound, and every answer is one its code can give. -/
structure Bounded (ok : (o : Op) → Res o → Prop) (good : T → Call → Ret → Prop)
    (bound : T → Call → Nat)
    (cfg : Config T Call Ret Op Res S) : Prop where
  made : ∀ t id c, cfg.world.log[id]? = some (.invoke t id c) → made cfg.world.log t id ≤ bound t c
  answers : ∀ t id c value, .finish t id c value ∈ cfg.world.log → good t c value
  running : ∀ t run, cfg.running t = some run → ∃ n,
    Within ok (good t run.call) n run.rest ∧ 0 < n ∧
      BoundedCalls.made cfg.world.log t run.id + n ≤ bound t run.call

section Runs
variable {good : T → Call → Ret → Prop} {bound : T → Call → Nat} {sys : System T Call Ret Op Res S}
  {mem : S} {cfg : Config T Call Ret Op Res S}

/-- A step of one call: it returns or stays running, with what it has left. -/
theorem settle_bounded {w : World T Call Ret Op Res S} {t : T} {id n : Nat} {c : Call}
    {rest : Prog Op Res Ret}
    (calls : ∀ u i d, w.log[i]? = some (.invoke u i d) → made w.log u i ≤ bound u d)
    (answers : ∀ u i d value, .finish u i d value ∈ w.log → good u d value)
    (others : ∀ u run, cfg.running u = some run → u ≠ t → ∃ n,
      Within ok (good u run.call) n run.rest ∧ 0 < n ∧ made w.log u run.id + n ≤ bound u run.call)
    (within : Within ok (good t c) n rest) (left : made w.log t id + n ≤ bound t c) :
    Bounded ok good bound (cfg.settle w t id c rest) := by
  unfold Config.settle
  cases next : rest.head with
  | inl value =>
      rw [Prog.head_ret next, within_ret] at within
      constructor
      · intro u i d began
        rw [World.push_log] at began ⊢
        rw [made_finish]
        exact calls u i d (invoke_early (by simp) began)
      · intro u i d result member
        rcases List.mem_append.mp member with old | new
        · exact answers u i d result old
        · cases List.mem_singleton.mp new
          exact within
      · intro u run busy
        by_cases same : u = t
        · simp [same] at busy
        · rw [World.push_log, made_finish]
          exact others u run (by simpa [same] using busy) same
  | inr access =>
      refine ⟨calls, answers, ?_⟩
      intro u run busy
      by_cases same : u = t
      · subst same
        simp only [Function.update_self, Option.some.injEq] at busy
        subst busy
        obtain ⟨k, rfl, _⟩ := within_head within next
        exact ⟨k + 1, within, Nat.succ_pos k, left⟩
      · exact others u run (by simpa [same] using busy) same

theorem Reachable.bounded
    (fine : ∀ now, Reachable sys mem now → ∀ t c o r after,
      sys.sem t c now.world.mem o r after → ok o r)
    (code : ∀ t c, sys.allowed t c → Within ok (good t c) (bound t c) (sys.code t c))
    (reach : Reachable sys mem cfg) : Bounded ok good bound cfg := by
  induction reach with
  | refl => exact ⟨by simp [Config.initial], by simp [Config.initial], by simp [Config.initial]⟩
  | @tail cfg after steps step ih =>
      have begun := Interleaving.Reachable.begun steps
      cases step with
      | call t c idle may =>
          apply settle_bounded ?_ ?_ ?_ (code t c may)
          · rw [World.push_log, made_invoke, made_fresh begun.1 (Nat.le_refl _)]
            omega
          · intro u i d began
            rw [World.push_log] at began ⊢
            rw [made_invoke]
            rw [List.getElem?_append] at began
            split at began
            · exact ih.made u i d began
            · rw [made_fresh begun.1 (by omega)]
              exact Nat.zero_le _
          · intro u i d value member
            rcases List.mem_append.mp member with old | new
            · exact ih.answers u i d value old
            · cases List.mem_singleton.mp new
          · intro u run busy _
            rw [World.push_log, made_invoke]
            exact ih.running u run busy
      | go t run o next r mem busy at_op may does =>
          obtain ⟨n, within, _, left⟩ := ih.running t run busy
          obtain ⟨k, rfl, later⟩ := within_head within at_op
          have own : made (cfg.world.log ++ [.access t run.id run.call o r]) t run.id =
              made cfg.world.log t run.id + 1 := by
            rw [made_access, if_pos ⟨rfl, rfl⟩]
          apply settle_bounded ?_ ?_ ?_ (later r (fine cfg steps t run.call o r mem does))
          · rw [own]
            omega
          · intro u i d began
            have early := invoke_early (by simp) began
            rw [made_access]
            split
            · next same =>
                -- the call that made the access had one left
                obtain ⟨rfl, rfl⟩ := same
                cases (begun.2 t run busy).symm.trans early
                omega
            · exact ih.made u i d early
          · intro u i d value member
            rcases List.mem_append.mp member with old | new
            · exact ih.answers u i d value old
            · cases List.mem_singleton.mp new
          · intro u other busy apart
            rw [made_access, if_neg fun same => apart same.1.symm]
            exact ih.running u other busy

end Runs
end Membridge.BoundedCalls
