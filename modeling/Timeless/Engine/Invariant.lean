import Timeless.Engine.Session

/-!
# Invariant — properties of engines that hold throughout a session

A property of engines holds in every reachable session if each operation keeps it and it depends
only on the rows of the store and on the memory of the engine, the index as a set: then it also
survives a rollback, which brings both back. `Inductive` is what has to be shown for each operation;
`Reachable.holds` is the induction over the session, done once.
-/

namespace Timeless.Engine

open Support Blocks Program

variable {E R : Type}

/-- What each operation does for a property `P` of engines. Configurations are those of a `kind`,
and `allows` says which entries are pushed. -/
structure Inductive (env : StoreEnv) (kind : Signal E R → Prop) (allows : Op E R → Prop)
    (P : BlockEngine E R → Prop) : Prop where
  same : ∀ {e e' : BlockEngine E R}, P e → e'.store.rows = e.store.rows →
    e'.memory.Same e.memory → P e'
  reopen : ∀ {sig e} (interval : Nat), kind sig → P e → P (.create sig e.store interval)
  push : ∀ {sig saves entry}, kind sig → allows (.push entry) →
    Triple (fun e => Good saves e ∧ P e) (push sig env entry) (fun _ => P) P
  pushBatch : ∀ {sig saves entries}, kind sig → allows (.pushBatch entries) →
    Triple (fun e => Good saves e ∧ P e) (pushBatch sig env entries) (fun _ => P) P
  flush : ∀ {sig saves}, kind sig →
    Triple (fun e => Good saves e ∧ P e) (flush sig env) (fun _ => P) P
  optimize : ∀ {sig saves} (budget : Option Nat), kind sig →
    Triple (fun e => Good saves e ∧ P e) (optimizeWithBudget sig env budget) (fun _ => P) P
  prune : ∀ {sig saves} (cutoff : Int64), kind sig →
    Triple (fun e => Good saves e ∧ P e) (prune sig env cutoff) (fun _ => P) P

/-- A property of the engine of a session and of all engines that may come back. -/
structure Holds (kind : Signal E R → Prop) (P : BlockEngine E R → Prop) (s : Session E R) :
    Prop where
  kind : kind s.sig
  engine : P s.engine
  base : ∀ v ∈ s.saves, P v.base
  opened : ∀ v ∈ s.saves, ∀ p ∈ v.opened, P p.2

variable {env : StoreEnv} {kind : Signal E R → Prop} {allows : Op E R → Prop}
  {starts : Signal E R → Store R → Prop} {P : BlockEngine E R → Prop} {s s' : Session E R}

theorem Holds.withEngine (h : Holds kind P s) {e : BlockEngine E R} (he : P e) :
    Holds kind P { s with engine := e } :=
  ⟨h.kind, he, h.base, h.opened⟩

theorem Inductive.step (hP : Inductive env kind allows P)
    (hreopen : ∀ sig interval, allows (.reopen sig interval) → kind sig) {op : Op E R}
    (h : Holds kind P s) (hsound : Sound s) (hop : allows op)
    (hstep : s.step env op = some s') : Holds kind P s' := by
  have hboth : Good s.saves s.engine ∧ P s.engine := ⟨hsound.good, h.engine⟩
  cases op with
  | push entry =>
      cases hstep
      exact h.withEngine ((hP.push h.kind hop).exec hboth)
  | pushBatch entries =>
      cases hstep
      exact h.withEngine ((hP.pushBatch h.kind hop).exec hboth)
  | flush =>
      cases hstep
      exact h.withEngine ((hP.flush h.kind).exec hboth)
  | optimize =>
      cases hstep
      exact h.withEngine ((hP.optimize none h.kind).exec hboth)
  | optimizeBudgeted n =>
      cases hstep
      refine h.withEngine (Triple.exec (P := fun e => Good s.saves e ∧ P e) ?_ hboth)
      exact Triple.ite (fun _ => Triple.throw fun _ he => he.2) fun _ =>
        hP.optimize (some n) h.kind
  | prune cutoff =>
      cases hstep
      exact h.withEngine ((hP.prune cutoff h.kind).exec hboth)
  | setRetention native =>
      cases hstep
      exact h.withEngine (hP.same h.engine rfl (.refl _))
  | setAutoOptimizeInterval n =>
      cases hstep
      exact h.withEngine (hP.same h.engine rfl (.refl _))
  | begin =>
      rw [Session.step] at hstep
      split at hstep <;> cases hstep
      refine ⟨h.kind, hP.same h.engine rfl (.refl _), ?_, ?_⟩
      · rintro v ⟨⟩
        exact h.engine
      · rintro v ⟨⟩ p hp
        exact absurd hp List.not_mem_nil
  | commit =>
      rw [Session.step] at hstep
      split at hstep <;> cases hstep
      refine ⟨h.kind, hP.same h.engine rfl (.refl _), ?_, ?_⟩ <;> rintro _ ⟨⟩
  | rollback =>
      rw [Session.step] at hstep
      split at hstep <;> cases hstep
      next v hsaves =>
        have hsame := txnRollback_same (hsaves ▸ hsound.good : Good (some v) s.engine)
        refine ⟨h.kind, hP.same (h.base v hsaves) rfl hsame, ?_, ?_⟩ <;> rintro _ ⟨⟩
  | savepoint id =>
      rw [Session.step] at hstep
      split at hstep
      · cases hstep
      next v hsaves =>
        split_ifs at hstep with hid
        cases hstep
        refine ⟨h.kind, hP.same h.engine rfl (txnSavepoint_memory s.engine id ▸ .refl _), ?_, ?_⟩
        · rintro _ ⟨⟩
          exact h.base v hsaves
        · rintro _ ⟨⟩ p hp
          rcases List.mem_cons.mp hp with rfl | hp
          · exact h.engine
          · exact h.opened v hsaves p hp
  | release id =>
      rw [Session.step] at hstep
      split at hstep <;> cases hstep
      next v hsaves =>
        refine ⟨h.kind, hP.same h.engine rfl (txnRelease_memory s.engine id ▸ .refl _), ?_, ?_⟩
        · rintro _ ⟨⟩
          exact v.release_base id ▸ h.base v hsaves
        · rintro _ ⟨⟩ p hp
          exact h.opened v hsaves p ((v.release_sublist id).subset hp)
  | rollbackTo id =>
      rw [Session.step] at hstep
      split at hstep
      · cases hstep
      next v hsaves =>
        split at hstep <;> cases hstep
        next b hfind =>
          have hsame := txnRollbackTo_same (hsaves ▸ hsound.good : Good (some v) s.engine) id
          rw [hfind] at hsame
          have hb := h.opened v hsaves _ (Journal.Saves.mem_of_find hfind)
          refine ⟨h.kind, hP.same hb rfl hsame, ?_, ?_⟩
          · rintro _ ⟨⟩
            exact v.rollbackTo_base id ▸ h.base v hsaves
          · rintro _ ⟨⟩ p hp
            exact h.opened v hsaves p ((v.rollbackTo_sublist id).subset hp)
  | reopen sig interval =>
      rw [Session.step] at hstep
      split at hstep <;> cases hstep
      have hkind := hreopen sig interval hop
      refine ⟨hkind, hP.reopen interval hkind h.engine, ?_, ?_⟩ <;> rintro _ ⟨⟩

/-- A property that every operation keeps holds in every reachable session. -/
theorem Reachable.holds (hP : Inductive env kind allows P)
    (hreopen : ∀ sig interval, allows (.reopen sig interval) → kind sig)
    (hstart : ∀ sig store interval, starts sig store → kind sig ∧ P (.create sig store interval))
    (h : Reachable env starts allows s) : Holds kind P s := by
  induction h with
  | start interval h =>
      obtain ⟨hkind, he⟩ := hstart _ _ interval h
      refine ⟨hkind, he, ?_, ?_⟩ <;> rintro _ ⟨⟩
  | step before hop hstep ih => exact hP.step hreopen ih before.sound hop hstep

end Timeless.Engine
