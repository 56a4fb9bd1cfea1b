import Membridge.Program

/-!
Fallible programs that fail without a trace. `E` says which errors count; a
program is fail-safe if none of these leaves the state other than it was. What
comes before a possible failure must not change the state, and what comes after
a change must not fail.
-/
namespace Membridge.FailSafe
open Program

variable {Op S ε α β : Type} {Res : Op → Type} (exec : (o : Op) → S → Res o × S) (E : ε → Prop)

/-- However it ends, the state is what it was. -/
def Still (p : ExceptT ε (Prog Op Res) α) : Prop :=
  ∀ s result after, Prog.solo exec p.run s = some (result, after) → after = s

/-- No error that counts. -/
def Certain (p : ExceptT ε (Prog Op Res) α) : Prop :=
  ∀ s e after, Prog.solo exec p.run s = some (.error e, after) → ¬ E e

def NoTrace (p : ExceptT ε (Prog Op Res) α) : Prop :=
  ∀ s e after, E e → Prog.solo exec p.run s = some (.error e, after) → after = s

variable {exec E} {p : ExceptT ε (Prog Op Res) α} {f : α → ExceptT ε (Prog Op Res) β}

section Still

theorem still_pure (value : α) : Still exec (pure value : ExceptT ε (Prog Op Res) α) := by
  intro s result after ran
  cases ran
  rfl

theorem still_throw (e : ε) : Still exec (throw e : ExceptT ε (Prog Op Res) α) := by
  intro s result after ran
  cases ran
  rfl

theorem still_except (result : Except ε α) :
    Still exec (liftM result : ExceptT ε (Prog Op Res) α) := by
  cases result with
  | ok value => exact still_pure value
  | error e => exact still_throw e

theorem still_access {o : Op} (same : ∀ s, (exec o s).2 = s) :
    Still exec (Prog.access o : ExceptT ε (Prog Op Res) (Res o)) := by
  intro s result after ran
  rw [Prog.run_access, Prog.solo_op, Prog.solo_ret] at ran
  cases ran
  exact same s

theorem still_bind (first : Still exec p) (later : ∀ value, Still exec (f value)) :
    Still exec (p >>= f) := by
  intro s result after ran
  rcases Prog.solo_run_bind ran with ⟨e, early, _⟩ | ⟨value, middle, early, late⟩
  · exact first s _ after early
  · exact (later value middle _ after late).trans (first s _ middle early)

end Still

section Certain

theorem certain_pure (value : α) : Certain exec E (pure value : ExceptT ε (Prog Op Res) α) := by
  intro s e after ran
  cases ran

theorem certain_access (o : Op) :
    Certain exec E (Prog.access o : ExceptT ε (Prog Op Res) (Res o)) := by
  intro s e after ran
  rw [Prog.run_access, Prog.solo_op, Prog.solo_ret] at ran
  cases ran

theorem certain_lift (p : Prog Op Res α) :
    Certain exec E (liftM p : ExceptT ε (Prog Op Res) α) := by
  intro s e after ran
  rw [Prog.run_liftM, Prog.solo_bind] at ran
  obtain ⟨_, _, late⟩ := Option.bind_eq_some_iff.mp ran
  cases late

theorem certain_bind (first : Certain exec E p) (later : ∀ value, Certain exec E (f value)) :
    Certain exec E (p >>= f) := by
  intro s e after ran
  rcases Prog.solo_run_bind ran with ⟨e', early, same⟩ | ⟨value, middle, _, late⟩
  · cases same
    exact first s e after early
  · exact later value middle e after late

end Certain

section NoTrace

theorem Still.noTrace (still : Still exec p) : NoTrace exec E p :=
  fun s _ after _ ran => still s _ after ran

theorem Certain.noTrace (certain : Certain exec E p) : NoTrace exec E p :=
  fun s _ after counts ran => absurd counts (certain s _ after ran)

theorem noTrace_bind (first : Still exec p) (later : ∀ value, NoTrace exec E (f value)) :
    NoTrace exec E (p >>= f) := by
  intro s e after counts ran
  rcases Prog.solo_run_bind ran with ⟨e', early, _⟩ | ⟨value, middle, early, late⟩
  · exact first s _ after early
  · obtain rfl := first s _ middle early
    exact later value middle e after counts late

theorem noTrace_then (first : NoTrace exec E p) (later : ∀ value, Certain exec E (f value)) :
    NoTrace exec E (p >>= f) := by
  intro s e after counts ran
  rcases Prog.solo_run_bind ran with ⟨e', early, same⟩ | ⟨value, middle, _, late⟩
  · cases same
    exact first s e after counts early
  · exact absurd counts (later value middle e after late)

end NoTrace
end Membridge.FailSafe
