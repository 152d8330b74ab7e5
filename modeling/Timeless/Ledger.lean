import Timeless.Blocks.Maintenance
import Timeless.Spans.Maintenance

/-!
# Ledger — what is left of a table if one only looks at its queries

To its clients a table is a bag of entries inside the transactions of its host: what is admitted is
added, an undo goes back, and flushing and merging do nothing. `Ledger` is this machine. A session
over a store that never fails follows it.

* `Shows`: engine and saved engines hold what the ledger and its saved states hold;
* `Shows.step`, `Shows.run`: an operation, and a run, of the session is one of the ledger;
* `Blocks.logs_after_run`, `Spans.spans_after_run`: so a query returns the entries of the ledger
  that match, none lost and none twice, whatever was flushed, merged or undone on the way.

Deleting by age, and reopening, which gives up the buffer, are not operations of a ledger.
-/

namespace Timeless.Engine

open Support Program

variable {E R V : Type}

/-! ### The abstract machine -/

/-- What is held, and what was saved. -/
structure Ledger (V : Type) where
  held : Multiset V
  saves : Option (Journal.Saves Int (Multiset V))

/-- One operation, on multisets. -/
def Ledger.step (accept : E → Except String E) (view : E → V) (l : Ledger V) :
    Op E R → Option (Ledger V)
  | .push e => some { l with held := l.held + admitted accept view [e] }
  | .pushBatch es => some { l with held := l.held + admitted accept view es }
  | .begin => if l.saves.isSome then none else some { l with saves := some (.start l.held) }
  | .commit => l.saves.map fun _ => ⟨l.held, none⟩
  | .rollback => l.saves.map fun v => ⟨v.base, none⟩
  | .savepoint id => l.saves.bind fun v =>
      if id ∉ v.opened.map Prod.fst then some ⟨l.held, some (v.savepoint id l.held)⟩ else none
  | .release id => l.saves.map fun v => ⟨l.held, some (v.release id)⟩
  | .rollbackTo id => l.saves.bind fun v =>
      (v.find id).map fun held => ⟨held, some (v.rollbackTo id)⟩
  | _ => some l

/-- Operations that a ledger has, with entries that fit. -/
def Op.Adds (m : Reading E R V) : Op E R → Prop
  | .push e => m.Fit e
  | .pushBatch es => ∀ e ∈ es, m.Fit e
  | .prune _ | .setRetention _ | .reopen _ _ => False
  | _ => True

/-! ### A session follows it -/

/-- Saved engines hold what is saved in the ledger. -/
structure SavesShow (m : Reading E R V) (v : Journal.Saves Int (BlockEngine E R))
    (w : Journal.Saves Int (Multiset V)) : Prop where
  base : Carries m (some w.base) v.base
  opened : List.Forall₂ (fun p q => p.1 = q.1 ∧ Carries m (some q.2) p.2) v.opened w.opened

/-- A session and its ledger show the same. -/
structure Shows (m : Reading E R V) (s : Session E R) (l : Ledger V) : Prop where
  engine : Carries m (some l.held) s.engine
  saves : Option.Rel (SavesShow m) s.saves l.saves

variable {m : Reading E R V} {env : StoreEnv} {W : Multiset V}
  {v : Journal.Saves Int (BlockEngine E R)} {w : Journal.Saves Int (Multiset V)}
  {s s' : Session E R} {l : Ledger V}

theorem SavesShow.names (h : SavesShow m v w) : v.opened.map Prod.fst = w.opened.map Prod.fst := by
  obtain ⟨-, hopened⟩ := h
  generalize v.opened = vs, w.opened = ws at hopened ⊢
  induction hopened with
  | nil => rfl
  | cons hpq _ ih => exact congrArg₂ List.cons hpq.1 ih

/-- The outermost savepoints of a name, and those around them, show the same. -/
theorem SavesShow.find (h : SavesShow m v w) (id : Int) :
    Option.Rel (fun b W => Carries m (some W) b) (v.find id) (w.find id) ∧
      List.Forall₂ (fun p q => p.1 = q.1 ∧ Carries m (some q.2) p.2) (v.around id) (w.around id) := by
  rw [Journal.Saves.find, Journal.Saves.find, Journal.Saves.around, Journal.Saves.around,
    List.forall₂_reverse_iff]
  have hopened := List.forall₂_reverse_iff.mpr h.opened
  generalize v.opened.reverse = vs, w.opened.reverse = ws at hopened ⊢
  induction hopened with
  | nil => exact ⟨.none, .nil⟩
  | @cons p q _ _ hpq _ ih =>
      rw [List.lookup_cons, List.lookup_cons, List.takeWhile_cons, List.takeWhile_cons, hpq.1]
      by_cases hid : q.1 = id
      · simpa [hid] using hpq.2
      · rw [beq_eq_false_iff_ne.mpr (Ne.symm hid), decide_eq_true hid]
        exact ⟨ih.1, .cons hpq ih.2⟩

theorem SavesShow.release (h : SavesShow m v w) (id : Int) :
    SavesShow m (v.release id) (w.release id) := by
  obtain ⟨hfind, haround⟩ := h.find id
  rw [Journal.Saves.release, Journal.Saves.release]
  generalize v.find id = found, w.find id = held at hfind ⊢
  cases hfind with
  | none => exact h
  | some _ => exact ⟨h.base, haround⟩

theorem SavesShow.rollbackTo (h : SavesShow m v w) (id : Int) :
    SavesShow m (v.rollbackTo id) (w.rollbackTo id) := by
  obtain ⟨hfind, haround⟩ := h.find id
  rw [Journal.Saves.rollbackTo, Journal.Saves.rollbackTo]
  generalize v.find id = found, w.find id = held at hfind ⊢
  cases hfind with
  | none => exact h
  | some hb => exact ⟨h.base, .cons ⟨rfl, hb⟩ haround⟩

/-- Back at a saved engine; retention is off in both. -/
theorem Carries.restored {W' : Multiset V} {e e' b : BlockEngine E R} (h : Carries m (some W) b)
    (he : Carries m (some W') e) (hrows : e'.store.rows = b.store.rows)
    (hsame : e'.memory.Same b.memory) (hret : e'.retentionNative = e.retentionNative) :
    Carries m (some W) e' := by
  obtain ⟨_, -, hb⟩ := h.rows
  obtain ⟨_, -, he⟩ := he.rows
  exact h.congr hrows hsame.buffer (hret.trans ((he _ rfl).2.trans (hb _ rfl).2.symm))

/-- **One operation.** What a session does its ledger does, and both show the same again. -/
theorem Shows.step (h : Shows m s l) (hm : m.Honors s.sig) (hnf : env.NeverFails) (hs : Sound s)
    {op : Op E R} (hop : op.Adds m) (hstep : s.step env op = some s') :
    s'.sig = s.sig ∧ ∃ l', l.step s.sig.accept m.view op = some l' ∧ Shows m s' l' := by
  obtain ⟨sig, e, _⟩ := s
  obtain ⟨held, _⟩ := l
  obtain ⟨he, hsaves⟩ := h
  have hx : Excuse env (some held) (some held) := .inr ⟨rfl, hnf⟩
  have hadds (f : Multiset V → Multiset V) :
      Excuse env ((some held).map f) ((some held).map f) := .inr ⟨rfl, hnf⟩
  have hboth := And.intro hs.good he
  cases op with
  | push x =>
      cases hstep
      exact ⟨rfl, _, rfl, (carries_push hm hadds hop).exec hboth, hsaves⟩
  | pushBatch xs =>
      cases hstep
      exact ⟨rfl, _, rfl, (carries_pushBatch hm hadds hop).exec hboth, hsaves⟩
  | flush =>
      cases hstep
      exact ⟨rfl, _, rfl, (carries_maintained hm hx).flush.exec hboth, hsaves⟩
  | optimize =>
      cases hstep
      exact ⟨rfl, _, rfl, ((carries_maintained hm hx).optimizeWithBudget none).exec hboth, hsaves⟩
  | optimizeBudgeted n =>
      cases hstep
      exact ⟨rfl, _, rfl, ((carries_maintained hm hx).optimizeBudgeted n).exec hboth, hsaves⟩
  | prune | setRetention | reopen => exact hop.elim
  | setAutoOptimizeInterval n =>
      cases hstep
      exact ⟨rfl, _, rfl, he.congr rfl rfl rfl, hsaves⟩
  | begin =>
      cases hsaves <;> cases hstep
      exact ⟨rfl, _, rfl, he.congr rfl rfl rfl, .some ⟨he, .nil⟩⟩
  | commit =>
      cases hsaves <;> cases hstep
      exact ⟨rfl, _, rfl, he.congr rfl rfl rfl, .none⟩
  | rollback =>
      cases hsaves <;> cases hstep
      next hv => exact ⟨rfl, _, rfl, hv.base.restored he rfl (txnRollback_same hs.good) rfl, .none⟩
  | savepoint id =>
      cases hsaves with
      | none => cases hstep
      | some hv =>
          dsimp only [Session.step] at hstep
          split_ifs at hstep with hid
          cases hstep
          exact ⟨rfl, _, if_pos (hv.names ▸ hid),
            he.congr rfl (congrArg (·.buffer) (txnSavepoint_memory e id)) rfl,
            .some ⟨hv.base, .cons ⟨rfl, he⟩ hv.opened⟩⟩
  | release id =>
      cases hsaves <;> cases hstep
      next hv =>
        exact ⟨rfl, _, rfl, he.congr rfl (congrArg (·.buffer) (txnRelease_memory e id)) rfl,
          .some (hv.release id)⟩
  | rollbackTo id =>
      cases hsaves with
      | none => cases hstep
      | @some v w hv =>
          have hsame := txnRollbackTo_same hs.good id
          have hfind := (hv.find id).1
          dsimp only [Session.step] at hstep
          generalize hb : v.find id = found, hW : w.find id = held at hstep hsame hfind
          cases hfind with
          | none => cases hstep
          | @some b W hcarries =>
              cases hstep
              refine ⟨rfl, ⟨W, some (w.rollbackTo id)⟩, ?_, hcarries.restored he rfl hsame rfl,
                .some (hv.rollbackTo id)⟩
              change (w.find id).map _ = _
              rw [hW]
              rfl

/-- **Runs.** A session follows its ledger through any number of operations. -/
theorem Shows.run (hnf : env.NeverFails) {ops : List (Op E R)} (hops : ∀ op ∈ ops, op.Adds m)
    (h : Shows m s l) (hm : m.Honors s.sig) (hs : Sound s)
    (hrun : ops.foldlM (fun s op => s.step env op) s = some s') :
    ∃ l', ops.foldlM (fun l op => l.step s.sig.accept m.view op) l = some l' ∧ Shows m s' l' := by
  induction ops generalizing s l with
  | nil =>
      cases hrun
      exact ⟨l, rfl, h⟩
  | cons op ops ih =>
      obtain ⟨next, hstep, hrun⟩ := Option.bind_eq_some_iff.mp hrun
      obtain ⟨hsig, l', hl', hshows⟩ := h.step hm hnf hs (hops op List.mem_cons_self) hstep
      obtain ⟨last, hlast, hfinal⟩ := ih (fun op hop => hops op (List.mem_cons_of_mem _ hop))
        hshows (hsig ▸ hm) (hs.step hstep) hrun
      refine ⟨last, ?_, hfinal⟩
      rw [List.foldlM_cons, hl', ← hsig]
      exact hlast

end Timeless.Engine

namespace Timeless.Blocks

open Support Codec Engine

variable {c : Compressors} {N : Type} {js : SerdeJson N} {keys : List Text} {env : StoreEnv}
  {s s' : Session LogEntry (List Text)} {ops : List (Op LogEntry (List Text))}

/-- **Log queries after a run.** From any session of a log table outside a transaction, with plain
keys, without retention and with blocks within the caps, any run of operations over a store that
never fails is one of the ledger that starts with the entries of the table; and every query then
returns the entries of the ledger that match. -/
theorem logs_after_run (hc : c.Lossless) (hjs : js.Lawful) (hkeys : ∀ k ∈ keys, Plain k)
    (hnf : env.NeverFails) (hs : LogSession env c js keys s) (hsaves : s.saves = none)
    (hret : s.engine.retentionNative = 0)
    (hbefore : ∀ r ∈ s.engine.store.rows, WithinCaps c js r.toEncoded)
    (hops : ∀ op ∈ ops, op.Adds (logReading c js keys))
    (hrun : ops.foldlM (fun s op => s.step env op) s = some s')
    (hafter : ∀ r ∈ s'.engine.store.rows, WithinCaps c js r.toEncoded) :
    ∃ l, ops.foldlM (fun l op => l.step s.sig.accept LogEntry.view op)
        (⟨shown (allEntries c js s.engine), none⟩ : Ledger EntryView) = some l ∧
      ∀ lowercase, ∀ q : LogQuery, q.Checked → q.messageLikePrune = none →
        (query c js lowercase keys s'.engine q).map shown =
          (lookupTerms keys q).map fun _ =>
            l.held.filter fun v => viewMatches lowercase q v = true := by
  have hintact := LogSession.intact hc hjs hkeys hs
  obtain ⟨M, hM, -⟩ := hintact.engine.rows
  have hheld : M + (s.engine.buffer.map LogEntry.view : List EntryView) =
      shown (allEntries c js s.engine) := by
    rw [← rowsHold_entries hc hM hbefore, shown, shown, allEntries, List.map_append]
    rfl
  have hshows : Shows (logReading c js keys) s ⟨shown (allEntries c js s.engine), none⟩ :=
    ⟨⟨hintact.engine.ok, M, hM, by rintro _ ⟨⟩; exact ⟨hheld, hret⟩⟩, hsaves ▸ .none⟩
  obtain ⟨l, hl, hfinal⟩ := hshows.run hnf hops hintact.kind hs.sound hrun
  exact ⟨l, hl, fun lowercase q hq hlike =>
    query_shown hc hfinal.engine hafter lowercase hq hlike⟩

theorem logs_after_run_undone : ∃ s', ∃ l : Ledger EntryView,
    [.flush, .begin, .push (helloEntry "service" "db"), .rollback].foldlM
        (fun s op => s.step .reliable op)
        (pushedSession (withKey "service") (helloEntry "service" "api")) = some s' ∧
      l.held = {(helloEntry "service" "api").view} ∧
      (query .storing taggedJson id ["service".toList] s'.engine helloQuery).map shown =
        (lookupTerms ["service".toList] helloQuery).map fun _ =>
          l.held.filter fun v => viewMatches id helloQuery v = true := by
  have hops : ∀ op ∈ [Op.flush, .begin, .push (helloEntry "service" "db"), .rollback],
      op.Adds (logReading .storing taggedJson (withKey "service").indexKeys) := by
    simpa [Op.Adds, logReading] using helloEntry_fit "service" "db"
  have hcaps : ∀ r ∈
      (flushedSession (withKey "service") (helloEntry "service" "api")).engine.store.rows,
      WithinCaps .storing taggedJson r.toEncoded := flushedSession_caps (by decide +kernel)
  obtain ⟨l, hl, hquery⟩ := logs_after_run Compressors.storing_lossless taggedJson_lawful
    (by decide) StoreEnv.reliable_neverFails
    (pushedSession_session (withKey "service") (helloEntry_fit "service" "api")) rfl rfl
    (fun r hr => absurd hr List.not_mem_nil) hops rfl hcaps
  cases hl
  exact ⟨_, _, rfl, rfl, hquery id helloQuery (by rintro _ ⟨⟩; decide +kernel) rfl⟩

end Timeless.Blocks

namespace Timeless.Spans

open Support Codec Engine
open Blocks (SerdeJson)

variable {c : Compressors} {js : SerdeJson JsonNumber} {P : Span → Prop} {env : StoreEnv}
  {s s' : Session Span (SpanIndex (List BloomRow))}
  {ops : List (Op Span (SpanIndex (List BloomRow)))}

/-- **Span queries after a run.** The same for span tables, with attribute filters: of spans whose
attributes can be read a query returns those of the ledger that match. -/
theorem spans_after_run (hc : c.Lossless) (hnf : env.NeverFails) (hs : SpanSession env c js P s)
    (hsaves : s.saves = none) (hret : s.engine.retentionNative = 0)
    (hbefore : ∀ r ∈ s.engine.store.rows, WithinCaps c r.toEncoded)
    (hops : ∀ op ∈ ops, op.Adds (spanReading c js P))
    (hrun : ops.foldlM (fun s op => s.step env op) s = some s')
    (hafter : ∀ r ∈ s'.engine.store.rows, WithinCaps c r.toEncoded) :
    ∃ l, ops.foldlM (fun l op => l.step s.sig.accept id op)
        (⟨shown (allSpans c s.engine), none⟩ : Ledger Span) = some l ∧
      ∀ indexes, ∀ q : SpanQuery js, (∀ x, P x → Judged q x) → q.Sure →
        ∀ durationMin durationMax order,
          (queryOrderedWithDuration c indexes s'.engine q durationMin durationMax order).map shown =
            (validateQuery indexes q).map fun _ =>
              l.held.filter fun x => spanMatches q durationMin durationMax x = true := by
  have hintact := hs.intact hc
  obtain ⟨M, hM, -⟩ := hintact.engine.rows
  have hcarries : Carries (spanReading c js P)
      (some (M + (s.engine.buffer.map id : List Span))) s.engine :=
    ⟨hintact.engine.ok, M, hM, by rintro _ ⟨⟩; exact ⟨rfl, hret⟩⟩
  have hshows : Shows (spanReading c js P) s ⟨shown (allSpans c s.engine), none⟩ :=
    ⟨carries_allSpans hc hcarries hbefore ▸ hcarries, hsaves ▸ .none⟩
  obtain ⟨l, hl, hfinal⟩ := hshows.run hnf hops hintact.kind hs.sound hrun
  exact ⟨l, hl, fun indexes q hjudged hsure durationMin durationMax order =>
    query_shown hc hfinal.engine hafter indexes hjudged hsure durationMin durationMax order⟩

theorem spans_after_run_undone : ∃ s', ∃ l : Ledger Span,
    [.flush, .begin, .push rootSpan, .rollback].foldlM (fun s op => s.step .reliable op)
        (pushedSession noJson [] rootSpan) = some s' ∧ l.held = {rootSpan} ∧
      (query .storing [] s'.engine (everyQuery noJson)).map shown =
        (validateQuery [] (everyQuery noJson)).map fun _ => l.held.filter fun x =>
          spanMatches (everyQuery noJson) Int64.minValue Int64.maxValue x = true := by
  have hops : ∀ op ∈ [Op.flush, .begin, .push rootSpan, .rollback],
      op.Adds (spanReading .storing noJson fun _ => True) := by
    simp [Op.Adds, spanReading]
  obtain ⟨l, hl, hquery⟩ := spans_after_run Compressors.storing_lossless
    StoreEnv.reliable_neverFails (pushedSession_session noJson [] (e := rootSpan) trivial) rfl rfl
    (fun r hr => absurd hr List.not_mem_nil) hops rfl (withinCaps_of_all (by decide +kernel))
  cases hl
  exact ⟨_, _, rfl, rfl, hquery [] (everyQuery noJson) (by rintro _ - _ ⟨⟩)
    ⟨fun _ => nofun, nofun⟩ _ _ _⟩

end Timeless.Spans
