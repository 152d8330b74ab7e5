import Timeless.Engine.Store

/-!
# Engine — buffering, flushing and maintenance of blocks

The engine that logs and traces share. `Signal` is what differs: the entries and how they are
admitted, the codec and the index data of a block, and the configuration. Entries are appended to
the buffer; a full buffer is flushed into one raw block for each partition; maintenance rewrites
the groups that the planner finds, and retention deletes blocks and buffered entries that are too
old. In memory the engine keeps the buffer and the index of blocks under a journal
(`Support.Journal`), so that a transaction of the host can be undone.

An operation is a `Program` over the engine: when it fails, what it did before stays done.
-/

namespace Timeless.Engine

open Support Blocks

/-- How blocks that lack some index data are given it later. -/
structure Backfill (E R : Type) where
  missing : R → Bool
  fill : List E → Except String (R → R)

/-- One kind of data: its entries, codec and configuration. -/
structure Signal (E R : Type) where
  flushThreshold : Nat
  autoOptimizeBudget : Nat
  plan : PlanConfig
  /-- check an entry and bring it to its normal form -/
  accept : E → Except String E
  ts : E → Int64
  part : E → UInt8
  rawIngestBytes : E → Nat
  /-- encode the entries of one partition at a flush -/
  encodeRun : List E → Except String (Encoded R)
  /-- encode the entries of a group of blocks -/
  encodeGroup : List E → Except String (Encoded R)
  decode : List UInt8 → Except String (List E)
  budgetError : String
  /-- index data to drop at the first maintenance -/
  purge : Option (R → R)
  backfill : Option (Backfill E R)
  /-- the partition of a block that is found in the store -/
  partitionOf : R → Option UInt8

/-- The engine with its store. -/
structure BlockEngine (E R : Type) where
  journal : Journal.State E IndexEntry Int Int
  store : Store R
  autoOptimizeInterval : Nat
  flushesSinceAutoOptimize : Nat
  /-- 0 if there is no retention -/
  retentionNative : Int64
  retentionFloor : Int64
  purgeChecked : Bool

variable {E R : Type}

namespace BlockEngine

/-- The entries that wait for a flush. -/
def buffer (e : BlockEngine E R) : List E := e.journal.buffer

/-- What is known in memory of the stored blocks. -/
def index (e : BlockEngine E R) : List IndexEntry := e.journal.index

/-- An engine over a store, with the index found there. -/
def create (sig : Signal E R) (store : Store R) (autoOptimizeInterval : Nat) : BlockEngine E R where
  journal := {
    buffer := []
    index := store.rows.map fun r => ⟨r.blockMeta, r.id, sig.partitionOf r.extra⟩
    frames := [] }
  store := store
  autoOptimizeInterval := autoOptimizeInterval
  flushesSinceAutoOptimize := 0
  retentionNative := 0
  retentionFloor := Int64.minValue
  purgeChecked := false

/-- A change to buffer and index. -/
def onJournal (f : Journal.State E IndexEntry Int Int → Journal.State E IndexEntry Int Int)
    (e : BlockEngine E R) : BlockEngine E R :=
  { e with journal := f e.journal }

/-- A change to the store. -/
def onStore (f : Store R → Store R) (e : BlockEngine E R) : BlockEngine E R :=
  { e with store := f e.store }

end BlockEngine

/-- Operations of an engine, which keep its changes when they fail. -/
abbrev EngineM (E R : Type) := Program (BlockEngine E R)

variable (sig : Signal E R) (env : StoreEnv)

/-! ### Store calls -/

/-- A call that may fail, with a text made of the store's, and otherwise changes the store. -/
def storeCallOr (text : String → String) (f : Store R → Store R) : EngineM E R Unit := do
  let e ← get
  match env.fault e.store.calls with
  | some err => do
      modify (BlockEngine.onStore Store.called)
      throw (text err)
  | none => modify (BlockEngine.onStore f)

/-- A call that changes the store, or fails and leaves it alone. -/
def storeCall (f : Store R → Store R) : EngineM E R Unit :=
  storeCallOr env id f

/-- Write new rows; a failing call may have written some of them. -/
def putBlocks (blocks : List (Encoded R)) : EngineM E R (List Int) := do
  let e ← get
  match env.fault e.store.calls with
  | some err => do
      modify (BlockEngine.onStore fun s => s.insert env blocks (env.written s.calls))
      throw err
  | none => do
      modify (BlockEngine.onStore fun s => s.insert env blocks blocks.length)
      return env.newIds e.store.calls e.store.ids blocks.length

/-- The bytes of one row. -/
def readBlock (loc : Int) : EngineM E R (List UInt8) := do
  storeCall env Store.called
  let e ← get
  Program.lift (okOr ((e.store.find loc).map fun r => r.data)
    s!"block row {loc} read failed: Query returned no rows")

/-- Add to the lifetime counter of ingested bytes. -/
def persistIngestRawTotal (added : Nat) : EngineM E R Unit :=
  if added = 0 then pure ()
  else do
    storeCall env Store.called
    storeCall env fun s =>
      { s.called with ingestRawTotal := usizeAdd s.ingestRawTotal added }

/-- Add to the totals of what compression read and wrote. -/
def persistCompressionTotals (rawIn rawOut mergeIn mergeOut : Nat) : EngineM E R Unit :=
  if rawIn = 0 ∧ mergeIn = 0 then pure ()
  else do
    storeCall env Store.called
    storeCall env fun s =>
      { s.called with compressionTotals :=
          (usizeAdd s.compressionTotals.1 rawIn,
            usizeAdd (usizeAdd s.compressionTotals.2 rawOut) mergeOut - mergeIn) }

/-! ### Flush -/

/-- The order in which the buffer is flushed: by partition, then by time. -/
def FlushLe (a b : E) : Prop :=
  sig.part a < sig.part b ∨ sig.part a = sig.part b ∧ sig.ts a ≤ sig.ts b

instance : DecidableRel (FlushLe sig) := fun a b => by unfold FlushLe; infer_instance

/-- Append index entries for new blocks. -/
def addAll : List IndexEntry → EngineM E R Unit
  | [] => pure ()
  | e :: es => do
      modify (BlockEngine.onJournal fun j => j.add IndexEntry.loc e)
      addAll es

/-- The index entries of new rows. -/
def indexEntries (blocks : List (Encoded R × Option UInt8)) (locs : List Int) : List IndexEntry :=
  List.zipWith (fun b loc => ⟨b.1.blockMeta, loc, b.2⟩) blocks locs

/-- One block for each run of entries of a partition. -/
def encodeRuns (buffer : List E) : Except String (List (Encoded R × Option UInt8)) :=
  (buffer.splitBy fun a b => sig.part a == sig.part b).mapM fun run => do
    let block ← sig.encodeRun run
    return (block, run.head?.map sig.part)

/-- Sort the buffer, write it in blocks and list them; the buffer empties last. -/
def flushInner : EngineM E R Nat := do
  let e ← get
  if e.buffer.isEmpty then return 0
  else do
    let sorted := e.buffer.insertionSort (FlushLe sig)
    modify (BlockEngine.onJournal fun j => j.disturb sorted)
    let blocks ← Program.lift (encodeRuns sig sorted)
    let locs ← putBlocks env (blocks.map Prod.fst)
    persistIngestRawTotal env (sorted.map sig.rawIngestBytes).sum
    addAll (indexEntries blocks locs)
    modify (BlockEngine.onJournal fun j => j.disturb [])
    return sorted.length

/-! ### Retention -/

/-- Drop what is older than a time, from the buffer, the store and the index. -/
def prune (cutoff : Int64) : EngineM E R Nat := do
  let e ← get
  let victims := (e.index.filter fun i => i.tsMax < cutoff).map IndexEntry.loc
  modify (BlockEngine.onJournal fun j => j.disturb (j.buffer.filter fun x => cutoff ≤ sig.ts x))
  if victims.isEmpty then return 0
  else do
    storeCallOr env (fun err => s!"prune errors: {err}") fun s => s.delete victims
    modify (BlockEngine.onJournal fun j => j.remove IndexEntry.loc fun i => i.tsMax < cutoff)
    return victims.length

/-- The newest timestamp in the index or the buffer. -/
def tsRangeMax (e : BlockEngine E R) : Option Int64 :=
  (e.index.map IndexEntry.tsMax ++ e.buffer.map sig.ts).max?

/-- Drop what is further behind the newest entry than is to be kept. -/
def applyRetention : EngineM E R Nat := do
  let e ← get
  if e.retentionNative = 0 then return 0
  else match tsRangeMax sig e with
    | none => return 0
    | some highWater => do
        let cutoff := satSub highWater e.retentionNative
        let slice := max (e.retentionNative / 16) 1
        if e.retentionFloor ≠ Int64.minValue ∧ cutoff < satAdd e.retentionFloor slice then return 0
        else do
          let pruned ← prune sig env cutoff
          modify fun e => { e with retentionFloor := cutoff }
          return pruned

/-! ### Maintenance -/

/-- What one maintenance pass did. -/
structure OptimizeOutcome where
  blocksRemoved : Nat
  blocksWritten : Nat
  budgetLimited : Bool
  rawEntries : Nat
  rawInputBytes : Nat
  rawOutputBytes : Nat
  mergeEntries : Nat
  mergeInputBytes : Nat
  mergeOutputBytes : Nat

/-- No group was selected. -/
def OptimizeOutcome.nothing : OptimizeOutcome := ⟨0, 0, false, 0, 0, 0, 0, 0, 0⟩

/-- A group and the block that takes its place. -/
structure Rewritten (R : Type) where
  group : OptimizeGroup
  block : Encoded R
  entries : Nat
  inputBytes : Nat

/-- Read the sources of a group: their entries and the bytes read. -/
def readSources : List IndexEntry → EngineM E R (List E × Nat)
  | [] => return ([], 0)
  | source :: rest => do
      let bytes ← readBlock env source.loc
      let entries ← Program.lift (sig.decode bytes)
      let more ← readSources rest
      return (entries ++ more.1, bytes.length + more.2)

/-- One new block out of the entries of a group, in the order of time. -/
def rewriteGroup (group : OptimizeGroup) : EngineM E R (Rewritten R) := do
  let read ← readSources sig env group.sources
  let entries := read.1.insertionSort fun a b => sig.ts a ≤ sig.ts b
  let block ← Program.lift (sig.encodeGroup entries)
  return ⟨group, block, entries.length, read.2⟩

/-- New blocks out of groups, none of which is stored yet. -/
def rewriteGroups : List OptimizeGroup → EngineM E R (List (Rewritten R))
  | [] => return []
  | group :: rest => do
      let first ← rewriteGroup sig env group
      let more ← rewriteGroups rest
      return first :: more

/-- What a pass has done. -/
def outcomeOf (budgetLimited : Bool) (done : List (Rewritten R)) : OptimizeOutcome :=
  let raw := done.filter fun r => r.group.kind = .rawCompression
  let merged := done.filter fun r => r.group.kind = .compressedMerge
  let total (f : Rewritten R → Nat) (rs : List (Rewritten R)) := (rs.map f).foldl usizeAdd 0
  { blocksRemoved := (done.map fun r => r.group.sources.length).sum
    blocksWritten := done.length
    budgetLimited := budgetLimited
    rawEntries := total Rewritten.entries raw
    rawInputBytes := total Rewritten.inputBytes raw
    rawOutputBytes := total (fun r => r.block.data.length) raw
    mergeEntries := total Rewritten.entries merged
    mergeInputBytes := total Rewritten.inputBytes merged
    mergeOutputBytes := total (fun r => r.block.data.length) merged }

/-- Put new blocks in the place of their sources: first the new rows, then the index, then the old
rows go. -/
def replaceBlocks (done : List (Rewritten R)) : EngineM E R Unit := do
  let removes := done.flatMap fun r => r.group.sources.map IndexEntry.loc
  let locs ← putBlocks env (done.map Rewritten.block)
  modify (BlockEngine.onJournal fun j => j.remove IndexEntry.loc fun i => removes.contains i.loc)
  addAll (indexEntries (done.map fun r => (r.block, r.group.partition)) locs)
  storeCall env fun s => s.delete removes

/-- One pass: plan, rewrite, replace, and add to the totals. -/
def optimizeInner (budget : Option Nat) : EngineM E R OptimizeOutcome := do
  let e ← get
  let candidates := candidatesOf sig.plan e.index
  let selected := selectGroups budget [] 0 (planOptimize sig.plan e.index candidates)
  if selected.1.isEmpty then return .nothing
  else do
    let done ← rewriteGroups sig env selected.1
    replaceBlocks env done
    let out := outcomeOf selected.2 done
    persistCompressionTotals env out.rawInputBytes out.rawOutputBytes out.mergeInputBytes
      out.mergeOutputBytes
    return out

/-- Drop index data that the configuration does not ask for, once. -/
def maybePurge : EngineM E R Unit := do
  let e ← get
  match sig.purge with
  | none => return ()
  | some keep =>
      if e.purgeChecked then return ()
      else do
        modify fun e => { e with purgeChecked := true }
        storeCall env fun s => s.mapExtra fun r => keep r.extra

/-- The blocks that a budget lets be filled in. -/
def selectRows (budget : Option Nat) (selected : List (Row R)) (entries : Nat) :
    List (Row R) → List (Row R)
  | [] => selected
  | r :: rs =>
      if budget = some 0 ∨
          !selected.isEmpty ∧ budget.any (· < usizeAdd entries r.blockMeta.entryCount) then
        selected
      else selectRows budget (selected ++ [r]) (usizeAdd entries r.blockMeta.entryCount) rs

/-- What is to be filled in, read off the payloads. -/
def fillRows (b : Backfill E R) : List (Row R) → EngineM E R (List (Int × (R → R)))
  | [] => return []
  | r :: rs => do
      let bytes ← readBlock env r.id
      let entries ← Program.lift (sig.decode bytes)
      let _ ← Program.lift (rejectIf (entries.length ≠ r.blockMeta.entryCount)
        s!"span block {r.id} metadata declares {r.blockMeta.entryCount} entries but payload decoded {entries.length}")
      let fill ← Program.lift (b.fill entries)
      let more ← fillRows b rs
      return (r.id, fill) :: more

/-- Fill in index data of blocks that were written without it. -/
def backfillDurationBounds (budget : Option Nat) : EngineM E R Unit :=
  match sig.backfill with
  | none => return ()
  | some b => do
      storeCall env Store.called
      let e ← get
      let missing := e.store.rows.filter fun r => b.missing r.extra
      if missing.isEmpty then return ()
      else do
        let updates ← fillRows sig env b (selectRows budget [] 0 missing)
        storeCall env fun s => s.mapExtra fun r =>
          ((updates.find? fun u => u.1 = r.id).map fun u => u.2 r.extra).getD r.extra

/-- A pass with all that goes along with it. -/
def optimizeWithBudget (budget : Option Nat) : EngineM E R (Nat × Nat) := do
  maybePurge sig env
  let out ← optimizeInner sig env budget
  backfillDurationBounds sig env
    (budget.map fun b => b - usizeAdd out.rawEntries out.mergeEntries)
  let _ ← applyRetention sig env
  return (out.blocksRemoved, out.blocksWritten)

/-- A pass over everything. -/
def optimize : EngineM E R (Nat × Nat) :=
  optimizeWithBudget sig env none

/-- A pass over so many entries at most. -/
def optimizeBudgeted (maxEntries : Nat) : EngineM E R (Nat × Nat) :=
  if maxEntries = 0 then throw sig.budgetError
  else optimizeWithBudget sig env (some maxEntries)

/-- Does the planner find anything to do? -/
def hasBacklog (index : List IndexEntry) : Bool :=
  !(planOptimize sig.plan index (candidatesOf sig.plan index)).isEmpty

/-- A budgeted pass after so many flushes, or when enough raw entries are there. -/
def maybeAutoOptimize : EngineM E R Unit := do
  let e ← get
  if e.autoOptimizeInterval = 0 then return ()
  else do
    let calls := e.flushesSinceAutoOptimize + 1
    modify fun e => { e with flushesSinceAutoOptimize := calls }
    let rawEntries :=
      ((e.index.filter fun i => sig.plan.isRaw i.blockMeta.codec).map IndexEntry.count).sum
    if calls < e.autoOptimizeInterval ∧ rawEntries < sig.autoOptimizeBudget then return ()
    else do
      modify fun e => { e with flushesSinceAutoOptimize := 0 }
      if hasBacklog sig e.index then do
        let _ ← optimizeBudgeted sig env sig.autoOptimizeBudget
        return ()
      else return ()

/-- Flush, then retention, then a pass if one is due. -/
def flush : EngineM E R Nat := do
  let out ← flushInner sig env
  let _ ← applyRetention sig env
  maybeAutoOptimize sig env
  return out

/-! ### Ingest -/

/-- Flush when the buffer is full. -/
def autoFlush : EngineM E R Unit := do
  let e ← get
  if sig.flushThreshold ≤ e.buffer.length then do
    let _ ← flush sig env
    return ()
  else return ()

/-- Admit an entry and let it wait. -/
def push (entry : E) : EngineM E R Unit := do
  let entry ← Program.lift (sig.accept entry)
  modify (BlockEngine.onJournal fun j => j.push [entry])
  autoFlush sig env

/-- All entries or, if one is not admitted, none. -/
def pushBatch (entries : List E) : EngineM E R Nat := do
  let admitted ← Program.lift (entries.mapM sig.accept)
  modify (BlockEngine.onJournal fun j => j.push admitted)
  autoFlush sig env
  return admitted.length

/-- How far back to keep entries; 0 keeps all. -/
def setRetention (native : Option Int64) (e : BlockEngine E R) : BlockEngine E R :=
  { e with retentionNative := max (native.getD 0) 0 }

/-- How many flushes to wait for a pass; 0 makes none. -/
def setAutoOptimizeInterval (interval : Nat) (e : BlockEngine E R) : BlockEngine E R :=
  { e with autoOptimizeInterval := interval }

end Timeless.Engine
