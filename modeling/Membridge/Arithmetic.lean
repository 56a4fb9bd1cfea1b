import Membridge.Program
import Membridge.Python

/-!
Plain `+` and `-` on machine words, for programs over any object: they wrap in a
release build and panic on overflow in a debug one.
-/
namespace Membridge.Arithmetic
open Program Python

variable {Op : Type} {Res : Op → Type} {w : Nat}

inductive Build where
  | release
  | debug

def Build.plus (build : Build) (x y : BitVec w) : ExceptT PyErr (Prog Op Res) (BitVec w) :=
  match build with
  | .release => return x + y
  | .debug =>
      if x.toNat + y.toNat < 2 ^ w then return x + y
      else throw (.panic "attempt to add with overflow")

def Build.minus (build : Build) (x y : BitVec w) : ExceptT PyErr (Prog Op Res) (BitVec w) :=
  match build with
  | .release => return x - y
  | .debug =>
      if y ≤ x then return x - y
      else throw (.panic "attempt to subtract with overflow")

/-- Without a borrow both builds subtract. -/
theorem Build.minus_ok (build : Build) {x y : BitVec w} (fits : y ≤ x) :
    (build.minus x y : ExceptT PyErr (Prog Op Res) (BitVec w)) = pure (x - y) := by
  cases build with
  | release => rfl
  | debug => simp [Build.minus, fits]

section Builds
variable {S α β : Type} (exec : (o : Op) → S → Res o × S)

/-- Run alone, the first program panics or does what the second does. -/
def Sharpens (p q : ExceptT PyErr (Prog Op Res) α) : Prop :=
  ∀ s result after, Prog.solo exec p.run s = some (result, after) →
    (∃ message, result = .error (.panic message)) ∨ Prog.solo exec q.run s = some (result, after)

variable {exec}

theorem sharpens_refl (p : ExceptT PyErr (Prog Op Res) α) : Sharpens exec p p :=
  fun _ _ _ ran => .inr ran

theorem sharpens_bind {p q : ExceptT PyErr (Prog Op Res) α}
    {f g : α → ExceptT PyErr (Prog Op Res) β} (first : Sharpens exec p q)
    (later : ∀ value, Sharpens exec (f value) (g value)) :
    Sharpens exec (p >>= f) (q >>= g) := by
  intro s result after ran
  rcases Prog.solo_run_bind ran with ⟨e, early, rfl⟩ | ⟨value, middle, early, late⟩
  · rcases first s _ after early with ⟨message, same⟩ | also
    · cases same
      exact .inl ⟨message, rfl⟩
    · right
      rw [Prog.run_bind, Prog.solo_bind, also]
      rfl
  · rcases first s _ middle early with ⟨message, same⟩ | also
    · cases same
    · rw [Prog.solo_run_ok also]
      exact later value middle result after late

theorem Build.plus_sharpens (build : Build) (x y : BitVec w) :
    Sharpens exec (build.plus x y : ExceptT PyErr (Prog Op Res) (BitVec w))
      (Build.release.plus x y) := by
  cases build with
  | release => exact sharpens_refl _
  | debug =>
      simp only [Build.plus]
      split
      · exact sharpens_refl _
      · intro s result after ran
        cases ran
        exact .inl ⟨_, rfl⟩

theorem Build.minus_sharpens (build : Build) (x y : BitVec w) :
    Sharpens exec (build.minus x y : ExceptT PyErr (Prog Op Res) (BitVec w))
      (Build.release.minus x y) := by
  cases build with
  | release => exact sharpens_refl _
  | debug =>
      simp only [Build.minus]
      split
      · exact sharpens_refl _
      · intro s result after ran
        cases ran
        exact .inl ⟨_, rfl⟩

end Builds

section Panics
variable {S α β : Type} (exec : (o : Op) → S → Res o × S) (kept : S → Prop)

/-- Run alone from `s`, the program panics if `bad`, and leaves a state that is `kept`; if not,
it gives `value` and leaves `after`. -/
structure PanicsIf (p : ExceptT PyErr (Prog Op Res) α) (s : S)
    (bad : Prop) (value : α) (after : S) :
    Prop where
  panics : bad → ∃ message last,
    Prog.solo exec p.run s = some (.error (.panic message), last) ∧ kept last
  runs : ¬ bad → Prog.solo exec p.run s = some (.ok value, after)

variable {exec kept} {p : ExceptT PyErr (Prog Op Res) α} {f : α → ExceptT PyErr (Prog Op Res) β}
  {s middle after : S} {bad later : Prop} {value : α} {result : β}

theorem panicsIf_runs (ran : Prog.solo exec p.run s = some (.ok value, after)) :
    PanicsIf exec kept p s False value after := ⟨False.elim, fun _ => ran⟩

/-- A first part that cannot panic. -/
theorem panicsIf_after (ran : Prog.solo exec p.run s = some (.ok value, middle))
    (rest : PanicsIf exec kept (f value) middle later result after) :
    PanicsIf exec kept (p >>= f) s later result after := by
  constructor
  · rw [Prog.solo_run_ok ran]
    exact rest.panics
  · rw [Prog.solo_run_ok ran]
    exact rest.runs

theorem panicsIf_bind (first : PanicsIf exec kept p s bad value middle)
    (rest : ¬ bad → PanicsIf exec kept (f value) middle later result after) :
    PanicsIf exec kept (p >>= f) s (bad ∨ later) result after := by
  by_cases now : bad
  · obtain ⟨message, last, stopped, left⟩ := first.panics now
    exact ⟨fun _ => ⟨message, last, Prog.solo_run_fails stopped, left⟩,
      fun calm => absurd (.inl now) calm⟩
  · have both := panicsIf_after (first.runs now) (rest now)
    exact ⟨fun either => both.panics (either.resolve_left now),
      fun calm => both.runs fun after => calm (.inr after)⟩

theorem PanicsIf.congr (program : PanicsIf exec kept p s bad value after) (same : bad ↔ later) :
    PanicsIf exec kept p s later value after :=
  ⟨fun bad => program.panics (same.mpr bad), fun calm => program.runs fun bad => calm (same.mp bad)⟩

theorem plus_panicsIf (x y : BitVec w) (left : kept s) :
    PanicsIf exec kept (Build.debug.plus x y) s (2 ^ w ≤ x.toNat + y.toNat) (x + y) s := by
  constructor
  · intro past
    refine ⟨"attempt to add with overflow", s, ?_, left⟩
    rw [Build.plus, if_neg (Nat.not_lt.mpr past)]
    rfl
  · intro fits
    rw [Build.plus, if_pos (Nat.lt_of_not_le fits)]
    rfl

end Panics
end Membridge.Arithmetic
