import Mathlib.Tactic.ByContra

/-!
# Runs — systems that are driven by actions

A step says what an action does in a state, if it can happen there. A run is a list of actions and
goes as far as they can happen. What is asked of a run is asked of its states, or of its actions
together with the states before them.

* `throughout_of_step`: what each step of a run preserves holds throughout the run.
-/

namespace Support

variable {σ α : Type} (step : σ → α → Option σ)

/-- The state that a run ends in, if all its actions can happen. -/
def run : σ → List α → Option σ
  | s, [] => some s
  | s, a :: actions => (step s a).bind fun s' => run s' actions

/-- Every action that happens is as asked, in the state before it. -/
def Along (P : σ → α → Prop) : σ → List α → Prop
  | _, [] => True
  | s, a :: actions =>
      match step s a with
      | none => True
      | some s' => P s a ∧ Along P s' actions

/-- Every state of a run is as asked, the first and the last included. -/
def Throughout (Q : σ → Prop) : σ → List α → Prop
  | s, [] => Q s
  | s, a :: actions =>
      match step s a with
      | none => Q s
      | some s' => Q s ∧ Throughout Q s' actions

variable {step} {J Q : σ → Prop} {P : σ → α → Prop}

/-- **Invariants.** What each step preserves holds throughout a run. -/
theorem throughout_of_step (hstep : ∀ s a s', J s → step s a = some s' → P s a → J s')
    (hgood : ∀ s, J s → Q s) {s : σ} (hs : J s) {actions : List α}
    (halong : Along step P s actions) : Throughout step Q s actions := by
  induction actions generalizing s with
  | nil => exact hgood s hs
  | cons a actions ih =>
      rw [Along] at halong
      rw [Throughout]
      cases hnext : step s a with
      | none => exact hgood s hs
      | some s' =>
          rw [hnext] at halong
          exact ⟨hgood s hs, ih (hstep s a s' hs hnext halong.1) halong.2⟩

theorem along_of_forall (hP : ∀ s a, P s a) (s : σ) (actions : List α) : Along step P s actions := by
  induction actions generalizing s with
  | nil => trivial
  | cons a actions ih =>
      rw [Along]
      cases step s a with
      | none => trivial
      | some s' => exact ⟨hP s a, ih s'⟩

end Support
