import Timeless.Blocks.Engine
import Timeless.Spans.Engine

/-!
# Undo — transactions of logs and traces

The two engines that keep blocks are instances of one engine, so what a session restores holds for
both: whatever happened in a transaction, rolling back to its begin or to one of its savepoints
gives back the memory of that moment.
-/

namespace Timeless.Engine

open Support Codec Blocks Spans

variable {E R : Type}

/-- A host that opens the engine only with configurations of some kind. -/
def Op.OpensWith (kind : Signal E R → Prop) : Op E R → Prop
  | .reopen sig _ => kind sig
  | _ => True

/-- Undoing leads back to what is saved: the buffer as it was, the index up to its order. -/
structure Restores (e : BlockEngine E R) (v : Journal.Saves Int (BlockEngine E R)) : Prop where
  rollback : e.txnRollback.memory.Same v.base.memory
  rollbackTo : ∀ id b, (id, b) ∈ v.opened → (e.txnRollbackTo id).memory.Same b.memory

/-- The sessions of engines of some kind, over any store. -/
abbrev SessionOf (env : StoreEnv) (kind : Signal E R → Prop) : Session E R → Prop :=
  Reachable env (fun sig _ => kind sig) (Op.OpensWith kind)

variable {N D B : Type} (c : Compressors) (js : SerdeJson N) (sc : SpanCodec D B)

def IsLogs (sig : Signal LogEntry (List Text)) : Prop :=
  ∃ cfg, sig = logSignal c js cfg

def IsSpans (sig : Signal (SpanEntry D) (SpanIndex B)) : Prop :=
  ∃ cfg, sig = spanSignal sc cfg

/-- **Undo.** In every session of a log engine or of a span engine, with any configurations and
over any store, rolling back restores the memory that was saved. -/
theorem txn_restores (env : StoreEnv) :
    (∀ s v, SessionOf env (IsLogs c js) s → s.saves = some v → Restores s.engine v) ∧
      ∀ s v, SessionOf env (IsSpans sc) s → s.saves = some v → Restores s.engine v := by
  refine ⟨fun s v h hv => ?_, fun s v h hv => ?_⟩
  · obtain ⟨hback, hto⟩ := h.restores hv
    exact ⟨hback, hto⟩
  · obtain ⟨hback, hto⟩ := h.restores hv
    exact ⟨hback, hto⟩

/-- A session in a transaction with one savepoint, and an entry pushed before and after it. -/
theorem exists_savepoint (env : StoreEnv) (kind : Signal E R → Prop) {sig : Signal E R}
    (h : kind sig) (entry : E) :
    ∃ s v, SessionOf env kind s ∧ s.saves = some v ∧ v.opened.map Prod.fst = [1] := by
  have hstart : SessionOf env kind ⟨sig, .create sig .empty 0, none⟩ := .start 0 h
  have hbegin := hstart.step (show Op.OpensWith kind .begin from trivial) rfl
  have hpush := hbegin.step (show Op.OpensWith kind (.push entry) from trivial) rfl
  have hsave := hpush.step (show Op.OpensWith kind (.savepoint 1) from trivial) rfl
  have hagain := hsave.step (show Op.OpensWith kind (.push entry) from trivial) rfl
  exact ⟨_, _, hagain, rfl, rfl⟩

/-- The byte format of no spans at all. -/
def emptySpanCodec : SpanCodec Unit Unit where
  encode _ _ _ := .error "encode_span_block: refusing to encode an empty block"
  decode _ := .error "span block: truncated"
  blooms _ := .ok ()

def someSpan : SpanEntry Unit :=
  ⟨⟨List.replicate 16 9, rfl⟩, "GET /".toList, "api".toList, 1, 1, [], 10, 5, "\x7b\x7d".toList,
    "[]".toList, "\x7b\x7d".toList, "\x7b\x7d".toList, ()⟩

theorem txn_restores_pushes :
    (∃ s v, SessionOf .reliable (IsLogs .storing emptyObjectJson) s ∧ s.saves = some v ∧
      v.opened.map Prod.fst = [1] ∧ Restores s.engine v) ∧
      ∃ s v, SessionOf .reliable (IsSpans emptySpanCodec) s ∧ s.saves = some v ∧
        v.opened.map Prod.fst = [1] ∧ Restores s.engine v := by
  obtain ⟨hlogs, hspans⟩ := txn_restores .storing emptyObjectJson emptySpanCodec .reliable
  obtain ⟨s, v, hs, hv, hopen⟩ := exists_savepoint .reliable
    (IsLogs .storing emptyObjectJson) ⟨.default, rfl⟩ (plainEntry 10 "disk full".toList)
  obtain ⟨s', v', hs', hv', hopen'⟩ := exists_savepoint .reliable
    (IsSpans emptySpanCodec) ⟨.default, rfl⟩ someSpan
  exact ⟨⟨s, v, hs, hv, hopen, hlogs s v hs hv⟩, s', v', hs', hv', hopen', hspans s' v' hs' hv'⟩

end Timeless.Engine
