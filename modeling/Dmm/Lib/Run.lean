import Mathlib

/-!
# Runs of a labelled system

A system takes a step for each action it is offered, or refuses it. `Runs act may s t` is a run
from `s` to `t` whose actions all meet the condition `may` in the state they are taken in. What
holds at the start and is kept by each such step holds in every state reached.
-/

namespace Dmm

universe u v

variable {σ : Type u} {α : Type v} {act : σ → α → Option σ} {may may' : σ → α → Prop}
  {s t : σ}

/-- Runs whose actions all meet a condition. -/
inductive Runs (act : σ → α → Option σ) (may : σ → α → Prop) (s : σ) : σ → Prop
  | start : Runs act may s s
  | step {t u : σ} (a : α) (before : Runs act may s t) (meets : may t a)
    (taken : act t a = some u) : Runs act may s u

theorem Runs.invariant {P : σ → Prop} (initial : P s)
    (kept : ∀ t a u, P t → may t a → act t a = some u → P u) (run : Runs act may s t) : P t := by
  induction run with
  | start => exact initial
  | step a before meets taken ih => exact kept _ a _ ih meets taken

theorem Runs.trans {u : σ} (first : Runs act may s t) (second : Runs act may t u) :
    Runs act may s u := by
  induction second with
  | start => exact first
  | step a before meets taken ih => exact ih.step a meets taken

theorem of_guarded {c : Prop} [Decidable c] {next : σ}
    (taken : (if c then some next else none) = some t) : c ∧ next = t := by
  obtain ⟨holds, same⟩ := Option.ite_none_right_eq_some.mp taken
  exact ⟨holds, Option.some.inj same⟩

/-- A step that is refused under a condition is taken only where that fails. -/
theorem of_unrefused {c : Prop} [Decidable c] {next : σ}
    (taken : (if c then none else some next) = some t) : ¬c ∧ next = t := by
  obtain ⟨fails, same⟩ := Option.ite_none_left_eq_some.mp taken
  exact ⟨fails, Option.some.inj same⟩

/-- Take the actions of a list that meet a condition; stop at one that does not. -/
def execute (act : σ → α → Option σ) (guard : σ → α → Bool) : σ → List α → Option σ
  | s, [] => some s
  | s, a :: rest => if guard s a then (act s a).bind (execute act guard · rest) else none

theorem execute_runs {guard : σ → α → Bool} {actions : List α}
    (sound : ∀ s a, guard s a = true → may s a)
    (done : execute act guard s actions = some t) : Runs act may s t := by
  induction actions generalizing s with
  | nil =>
    cases done
    exact .start
  | cons a rest ih =>
    rw [execute] at done
    split at done
    case isTrue met =>
      obtain ⟨middle, taken, later⟩ := Option.bind_eq_some_iff.mp done
      have first : Runs act may s middle := Runs.start.step a (sound s a met) taken
      exact first.trans (ih later)
    case isFalse => contradiction

theorem exists_runs_of_execute (guard : σ → α → Bool) {test : σ → Bool} (actions : List α)
    (sound : ∀ s a, guard s a = true → may s a)
    (passed : (execute act guard s actions).any test = true) :
    ∃ t, Runs act may s t ∧ test t = true := by
  cases done : execute act guard s actions with
  | none => simp [done] at passed
  | some t => exact ⟨t, execute_runs sound done, by simpa [done] using passed⟩

end Dmm
