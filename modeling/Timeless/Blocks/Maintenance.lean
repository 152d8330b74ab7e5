import Timeless.Blocks.Pruning

/-!
# Maintenance — flushing and optimizing cannot be seen in queries

Entries move from the buffer to raw blocks and from there to merged blocks in other codecs. What
they show stays (`Timeless.Engine.Content`), and a query finds what matches wherever it is
(`Timeless.Blocks.Pruning`). So the rows that a query returns are the same before and after
(`maintenance_invisible`), under the conditions of both: plain index keys, short inner digit runs,
JSON that survives, blocks within the caps.
-/

namespace Timeless.Blocks

open Support Codec Engine

/-! ### Operations -/

/-- What maintenance a host can ask for. -/
inductive Maintenance where
  | flush
  | optimize
  | optimizeBudgeted (maxEntries : Nat)

def Maintenance.run {E R : Type} (sig : Signal E R) (env : StoreEnv) :
    Maintenance → EngineM E R Unit
  | .flush => do
      let _ ← Engine.flush sig env
      return ()
  | .optimize => do
      let _ ← Engine.optimize sig env
      return ()
  | .optimizeBudgeted maxEntries => do
      let _ ← Engine.optimizeBudgeted sig env maxEntries
      return ()

theorem run_flush {E R : Type} (sig : Signal E R) (env : StoreEnv) (e : BlockEngine E R) :
    ((Maintenance.flush.run sig env).exec e).2 = ((Engine.flush sig env).exec e).2 := by
  cases hrun : (Engine.flush sig env).exec e with
  | mk r e' =>
      cases r with
      | ok n => exact congrArg Prod.snd (Program.exec_bind_ok hrun)
      | error err => exact congrArg Prod.snd (Program.exec_bind_error hrun)

open Program in
theorem carries_maintenance {E R V : Type} {m : Reading E R V} {sig : Signal E R} {env : StoreEnv}
    {want lost : Option (Multiset V)} {saves : Option (Journal.Saves Int (BlockEngine E R))}
    (hm : m.Honors sig) (hx : Excuse env want lost) (op : Maintenance) :
    Triple (fun e => Good saves e ∧ Carries m want e) (op.run sig env) (fun _ => Carries m want)
      (Carries m lost) := by
  cases op with
  | flush => exact (carries_maintained hm hx).flush.discard
  | optimize => exact ((carries_maintained hm hx).optimizeWithBudget none).discard
  | optimizeBudgeted n => exact ((carries_maintained hm hx).optimizeBudgeted n).discard

/-! ### Queries see the content -/

variable {c : Compressors} {N : Type} {js : SerdeJson N} {keys : List Text}

/-- Whether an entry matches, as far as it shows. -/
def viewMatches (lowercase : Text → Text) (q : LogQuery) (v : EntryView) : Bool :=
  entryMatches lowercase q ⟨v.ts, v.level, some v.severity, v.message, v.metadata, none⟩

theorem entryMatches_eq (lowercase : Text → Text) (q : LogQuery) (e : LogEntry) :
    entryMatches lowercase q e = viewMatches lowercase q e.view :=
  entryMatches_congr rfl

/-- The rows of a result, in any order. -/
def shown (out : List LogEntry) : Multiset EntryView :=
  (out.map LogEntry.view : List EntryView)

/-- Within the caps, the rows hold what is decoded from them. -/
theorem rowsHold_entries (hc : c.Lossless) {rows : List (Row (List Text))} {M : Multiset EntryView}
    (h : RowsHold (logReading c js keys) rows M)
    (hcaps : ∀ r ∈ rows, WithinCaps c js r.toEncoded) :
    shown (rows.flatMap fun r => entriesOf c js r.data) = M := by
  obtain ⟨ann, ⟨rfl, hwritten⟩, rfl⟩ := h
  refine congrArg Multiset.ofList ?_
  rw [List.flatMap_map, List.map_flatMap, List.map_flatMap]
  refine List.flatMap_congr fun p hp => ?_
  obtain ⟨-, codec, hentries⟩ := LogWritten.decodes hc (hwritten p hp)
    (hcaps p.1 (List.mem_map_of_mem hp))
  rw [hentries]
  exact view_of_readAs codec p.2

theorem lookupTerms_error {q : LogQuery} {err : String} (h : lookupTerms keys q = .error err)
    (lowercase : Text → Text) (e : BlockEngine LogEntry (List Text)) :
    query c js lowercase keys e q = .error err := by
  rw [query, candidateBlocks_eq, h]
  rfl

/-- What a query shows depends on the content only. -/
theorem query_shown (hc : c.Lossless) {e : BlockEngine LogEntry (List Text)}
    {M : Multiset EntryView} (h : Carries (logReading c js keys) (some M) e)
    (hcaps : ∀ r ∈ e.store.rows, WithinCaps c js r.toEncoded) (lowercase : Text → Text)
    {q : LogQuery} (hq : q.Checked) (hlike : q.messageLikePrune = none) :
    (query c js lowercase keys e q).map shown =
      (lookupTerms keys q).map fun _ => M.filter fun v => viewMatches lowercase q v = true := by
  cases hterms : lookupTerms keys q with
  | error err =>
      rw [lookupTerms_error hterms]
      rfl
  | ok terms =>
      obtain ⟨N, hN, hM⟩ := h.rows
      obtain ⟨rfl, -⟩ := hM _ rfl
      obtain ⟨out, hout, hperm⟩ := query_perm hc
        (exists_rowsHold_iff.mp ⟨N, hN⟩) hcaps lowercase hq hlike hterms
      rw [hout]
      refine congrArg Except.ok ?_
      rw [← rowsHold_entries hc hN hcaps]
      change ((out.map LogEntry.view : List EntryView) : Multiset EntryView) =
        Multiset.filter _ ((_ : List EntryView) +
          (e.buffer.map LogEntry.view : List EntryView) : Multiset EntryView)
      rw [Multiset.coe_add, ← List.map_append, Multiset.filter_coe, List.filter_map]
      refine Multiset.coe_eq_coe.mpr ((hperm.map _).trans (.of_eq (congrArg _ ?_)))
      exact List.filter_congr fun e _ => by simp [entryMatches_eq]

/-! ### The theorem -/

/-- **Maintenance is invisible.** In every session of a log table with plain index keys and without
retention, maintenance that succeeds, or that fails over a store that does not, leaves the rows that
a query returns as they were. -/
theorem maintenance_invisible (hc : c.Lossless) (hjs : js.Lawful) (hkeys : ∀ k ∈ keys, Plain k)
    {env : StoreEnv} {s : Session LogEntry (List Text)} (hs : LogSession env c js keys s)
    (hret : s.engine.retentionNative = 0) (op : Maintenance)
    {result : Except String Unit} {after : BlockEngine LogEntry (List Text)}
    (hrun : (op.run s.sig env).exec s.engine = (result, after))
    (hdone : result = .ok () ∨ ∀ call, env.fault call = none)
    (hbefore : ∀ r ∈ s.engine.store.rows, WithinCaps c js r.toEncoded)
    (hafter : ∀ r ∈ after.store.rows, WithinCaps c js r.toEncoded)
    (lowercase : Text → Text) {q : LogQuery} (hq : q.Checked)
    (hlike : q.messageLikePrune = none) :
    (query c js lowercase keys after q).map shown =
      (query c js lowercase keys s.engine q).map shown := by
  have hintact := LogSession.intact hc hjs hkeys hs
  obtain ⟨N, hN, -⟩ := hintact.engine.rows
  have hcarries : Carries (logReading c js keys)
      (some (N + (s.engine.buffer.map LogEntry.view : List EntryView))) s.engine :=
    ⟨hintact.engine.ok, N, hN, by rintro _ ⟨⟩; exact ⟨rfl, hret⟩⟩
  have hboth := And.intro hs.sound.good hcarries
  have hkept : Carries (logReading c js keys)
      (some (N + (s.engine.buffer.map LogEntry.view : List EntryView))) after := by
    cases result with
    | ok _ =>
        have hmade := carries_maintenance hintact.kind (excuse_none env _) op s.engine hboth
        rwa [hrun] at hmade
    | error err =>
        have hreliable := hdone.resolve_left nofun
        have hmade := carries_maintenance hintact.kind (.inr ⟨rfl, hreliable⟩) op s.engine hboth
        rwa [hrun] at hmade
  rw [query_shown hc hcarries hbefore lowercase hq hlike,
    query_shown hc hkept hafter lowercase hq hlike]

theorem maintenance_invisible_flush :
    (pushedSession (withKey "service") (helloEntry "service" "api")).engine.store.rows = [] ∧
      (flushedSession (withKey "service") (helloEntry "service" "api")).engine.buffer = [] ∧
      (query .storing taggedJson id ["service".toList]
          (flushedSession (withKey "service") (helloEntry "service" "api")).engine
          helloQuery).map shown =
        (query .storing taggedJson id ["service".toList]
          (pushedSession (withKey "service") (helloEntry "service" "api")).engine
          helloQuery).map shown := by
  refine ⟨by decide +kernel, by decide +kernel, ?_⟩
  obtain ⟨result, hrun⟩ : ∃ result, (Maintenance.flush.run
      (pushedSession (withKey "service") (helloEntry "service" "api")).sig .reliable).exec
        (pushedSession (withKey "service") (helloEntry "service" "api")).engine =
      (result, (flushedSession (withKey "service") (helloEntry "service" "api")).engine) :=
    ⟨_, Prod.ext rfl (run_flush _ _ _)⟩
  exact maintenance_invisible Compressors.storing_lossless taggedJson_lawful (by decide)
    (pushedSession_session (withKey "service") (helloEntry_fit "service" "api")) rfl .flush
    hrun (.inr fun _ => rfl) (fun r hr => absurd hr List.not_mem_nil)
    (flushedSession_caps (by decide +kernel)) id (by rintro _ ⟨⟩; decide +kernel) rfl

/-- With the index key `tg` an entry is found in the buffer and lost by a flush. -/
theorem flush_hides_marker_key :
    LogSession .reliable .storing taggedJson ["tg".toList]
        (pushedSession (withKey "tg") (helloEntry "tg" "")) ∧
      (pushedSession (withKey "tg") (helloEntry "tg" "")).engine.retentionNative = 0 ∧
      (flushedSession (withKey "tg") (helloEntry "tg" "")).engine =
        ((Maintenance.flush.run (pushedSession (withKey "tg") (helloEntry "tg" "")).sig
          .reliable).exec (pushedSession (withKey "tg") (helloEntry "tg" "")).engine).2 ∧
      (∀ r ∈ (flushedSession (withKey "tg") (helloEntry "tg" "")).engine.store.rows,
        WithinCaps .storing taggedJson r.toEncoded) ∧
      query .storing taggedJson id ["tg".toList]
        (pushedSession (withKey "tg") (helloEntry "tg" "")).engine helloQuery =
          .ok [helloEntry "tg" ""] ∧
      query .storing taggedJson id ["tg".toList]
        (flushedSession (withKey "tg") (helloEntry "tg" "")).engine helloQuery = .ok [] :=
  ⟨pushedSession_session (withKey "tg") (helloEntry_fit "tg" ""), rfl,
    (run_flush _ _ _).symm, flushedSession_caps (by decide +kernel), by decide +kernel, by decide +kernel⟩

end Timeless.Blocks
