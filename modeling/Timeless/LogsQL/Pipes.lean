import Timeless.LogsQL.TimeFilter
import Timeless.Support.Decimal
import Timeless.Support.Sorting

/-!
# Pipes — how a query with pipes is planned and answered

A query is a filter with pipes behind it. If the pipes are at most a sort by time, an offset and a limit,
in this order, storage answers it: newest rows first unless the sort says otherwise, and a hundred of
them unless the limit does. Any other pipe turns the query into a *pipeline*: storage returns all rows,
oldest first, and the pipes run over them one by one.

* `fieldsAll_iff`: when the pipe `fields *`, which keeps every row as it is, changes an answer: a query
  without a sort loses its order, and so its newest rows, unless its page holds rows of one time;
* `fieldsAll_reverses`: two rows that come out the other way round.
-/

namespace Timeless.LogsQL

open Support Codec Blocks

/-- A result row: an object whose keys are in order. -/
structure ResultRow (N : Type) where
  object : List (Text × Json N)
  sorted : OrdMap.Sorted textLt object

/-- `fields *` copies every field. -/
def ResultRow.project {N : Type} (row : ResultRow N) : ResultRow N :=
  ⟨OrdMap.ofList textLt row.object, OrdMap.sorted_ofList textLt_linear _⟩

/-- The pipes. Those that no statement speaks of are `O`. -/
inductive Pipe (O : Type) where
  | sortTime (descending : Bool)
  | sortFields (sort : O)
  | offset (n : Nat)
  | limit (n : Nat)
  /-- `stats count(*)`, under either name of its column -/
  | count
  /-- `fields *` -/
  | fieldsAll
  | other (op : O)
  deriving DecidableEq

/-- The order of rows by time, newest first if told so. -/
def timeKey {R : Type} (time : R → Option Int) (descending : Bool) (row : R) : Int :=
  if descending then -(time row).getD 0 else (time row).getD 0

/-- What answers a query: storage, with the rows in the bounds that match the filter, rendered; and the
other pipes. -/
structure Backend (N O : Type) where
  /-- rows of one time are in the order that storage returns them in -/
  stored : QuerySpec → List (ResultRow N)
  /-- the time that `_time` shows, in four digits for the year -/
  time : ResultRow N → Option Int
  timed : ∀ bounds, ∀ row ∈ stored bounds, (time row).isSome
  sortTime : Bool → List (ResultRow N) → List (ResultRow N)
  /-- times are compared as such, and equal ones by their places -/
  sortTime_timed : ∀ descending rows, (∀ row ∈ rows, (time row).isSome) →
    sortTime descending rows = stableSort (timeKey time descending) rows
  run : O → List (ResultRow N) → Except String (List (ResultRow N))
  /-- pipes that say themselves how many rows they return -/
  ownsCardinality : O → Bool
  countRow : Nat → ResultRow N
  length_sortTime : ∀ descending rows, (sortTime descending rows).length = rows.length

/-- `ORDER BY ts`. -/
def Backend.scan {N O : Type} (b : Backend N O) (bounds : QuerySpec) (descending : Bool) :
    List (ResultRow N) :=
  stableSort (timeKey b.time descending) (b.stored bounds)

/-! ### Planning -/

/-- What the answer is made of. -/
inductive Output where
  | rows
  | count
  deriving DecidableEq

/-- The plan so far. -/
structure Planning (O : Type) where
  limit : Nat
  offset : Nat
  descending : Bool
  output : Output
  limitExplicit : Bool
  stage : Nat
  pipeline : List (Pipe O)
  /-- storage cannot answer the query -/
  pipelined : Bool
  hasOuterLimit : Bool
  deriving DecidableEq

variable {N O : Type}

namespace Planning

/-- A query without pipes. -/
def start : Planning O := ⟨100, 0, true, .rows, false, 0, [], false, false⟩

/-- Pipes come in a fixed order, each once. -/
def advance (next : Nat) (name : String) (s : Planning O) : Except String (Planning O) := do
  rejectIf (next ≤ s.stage) s!"duplicate or out-of-order LogsQL {name} pipeline"
  return { s with stage := next }

/-- One more pipe behind storage. -/
def push (p : Pipe O) (s : Planning O) : Planning O :=
  { s with pipeline := s.pipeline ++ [p] }

/-- A pipe that only a pipeline can run. -/
def pushPipeline (p : Pipe O) (s : Planning O) : Planning O :=
  { s.push p with pipelined := true }

/-- An offset or a limit behind a count is about its one row. -/
def paginate (s : Planning O) : Planning O :=
  if s.output = .count ∧ s.stage = 4 then { s with pipelined := true, stage := 0 } else s

/-- Take in a pipe. -/
def step (s : Planning O) : Pipe O → Except String (Planning O)
  | .limit n => do
      let s ← s.paginate.advance 3 "limit"
      return { s.push (.limit n) with limit := n, limitExplicit := true, hasOuterLimit := true }
  | .offset n => do
      let s ← s.paginate.advance 2 "offset"
      return { s.push (.offset n) with offset := n }
  | .sortTime descending =>
      if !s.pipelined ∧ s.output = .rows then do
        let s ← s.advance 1 "sort"
        return { s.push (.sortTime descending) with descending := descending }
      else return { s.pushPipeline (.sortTime descending) with stage := 1 }
  | .sortFields sort => return { s.pushPipeline (.sortFields sort) with stage := 1 }
  | .count =>
      if s.output = .rows then
        return { s.push .count with
          pipelined := s.pipelined || 2 ≤ s.stage, stage := 4, output := .count }
      else return s.pushPipeline .count
  | p => return s.pushPipeline p

end Planning

/-- The plan of a query. -/
def plan (q : List (Pipe O)) : Except String (Planning O) := q.foldlM Planning.step .start

/-! ### Answers -/

variable (b : Backend N O)

/-- What a pipe makes of rows. -/
def runPipe (rows : List (ResultRow N)) : Pipe O → Except String (List (ResultRow N))
  | .sortTime descending => .ok (b.sortTime descending rows)
  | .sortFields sort => b.run sort rows
  | .offset n => .ok (rows.drop n)
  | .limit n => .ok (rows.take n)
  | .count => .ok [b.countRow rows.length]
  | .fieldsAll => .ok (rows.map ResultRow.project)
  | .other op => b.run op rows

/-- Does the pipe say itself how many rows there are? -/
def ownsCardinality : Pipe O → Bool
  | .count => true
  | .other op => b.ownsCardinality op
  | _ => false

/-- The limit if none was given. -/
def implicitResultLimit (s : Planning O) : Option Nat :=
  if s.hasOuterLimit ∨ s.pipeline.any (ownsCardinality b) then none else some 100

/-- At most so many rows. -/
def truncate (limit : Option Nat) (rows : List (ResultRow N)) : List (ResultRow N) :=
  match limit with
  | some n => rows.take n
  | none => rows

/-- The answer of a plan. -/
def respond (bounds : QuerySpec) (s : Planning O) : Except String (List (ResultRow N)) :=
  if s.pipelined then
    (truncate (implicitResultLimit b s)) <$> s.pipeline.foldlM (runPipe b) (b.scan bounds false)
  else match s.output with
    | .count => .ok [b.countRow (b.scan bounds false).length]
    | .rows => .ok (((b.scan bounds s.descending).drop s.offset).take s.limit)

/-- The answer of a query. -/
def answer (bounds : QuerySpec) (q : List (Pipe O)) : Except String (List (ResultRow N)) := do
  respond b bounds (← plan q)

/-! ### Pipes one by one -/

variable {b}

theorem plan_concat (q : List (Pipe O)) (p : Pipe O) :
    plan (q ++ [p]) = plan q >>= fun s => s.step p := by
  simp only [plan, List.foldlM_append, List.foldlM_cons, List.foldlM_nil, bind_pure]

theorem advance_eq_ok {next : Nat} {name : String} {s s' : Planning O} :
    s.advance next name = .ok s' ↔ s.stage < next ∧ { s with stage := next } = s' := by
  simp [Planning.advance, bind_eq_ok, pure, Except.pure]

theorem replay_concat (bounds : QuerySpec) (ps : List (Pipe O)) (p : Pipe O) :
    (ps ++ [p]).foldlM (runPipe b) (b.scan bounds false) =
      ps.foldlM (runPipe b) (b.scan bounds false) >>= fun rows => runPipe b rows p := by
  simp only [List.foldlM_append, List.foldlM_cons, List.foldlM_nil, bind_pure]

/-! ### A pipe that keeps every row -/

/-- Pipes that storage cannot run. -/
def Pipe.NeedsPipeline : Pipe O → Prop
  | .sortFields _ | .fieldsAll | .other _ => True
  | _ => False

/-- The pipes of a query that storage answers. -/
def stages (sort : Option Bool) (offset limit : Option Nat) : List (Pipe O) :=
  (sort.map Pipe.sortTime).toList ++ (offset.map Pipe.offset).toList ++ (limit.map Pipe.limit).toList

/-- Their plan. -/
def stagesPlan (sort : Option Bool) (offset limit : Option Nat) : Planning O where
  limit := limit.getD 100
  offset := offset.getD 0
  descending := sort.getD true
  output := .rows
  limitExplicit := limit.isSome
  stage := if limit.isSome then 3 else if offset.isSome then 2 else if sort.isSome then 1 else 0
  pipeline := stages sort offset limit
  pipelined := false
  hasOuterLimit := limit.isSome

/-- A count, of rows that a sort by time may come before. -/
def counted (sort : Option Bool) : List (Pipe O) := (sort.map Pipe.sortTime).toList ++ [.count]

/-- Its plan, too, is for storage. -/
def countedPlan (sort : Option Bool) : Planning O :=
  { (stagesPlan sort none none : Planning O) with
    output := .count, stage := 4, pipeline := counted sort }

variable {s : Planning O}

theorem paginate_pipelined (h : s.pipelined = true) : s.paginate.pipelined = true := by
  rw [Planning.paginate]
  split_ifs
  · rfl
  · exact h

variable {p : Pipe O}

theorem step_pipelined {s s' : Planning O} (h : s.step p = .ok s')
    (hp : s.pipelined = true ∨ p.NeedsPipeline) : s'.pipelined = true := by
  cases p with
  | limit n =>
      obtain ⟨_, hadvance, rfl⟩ := map_eq_ok.mp h
      obtain ⟨-, rfl⟩ := advance_eq_ok.mp hadvance
      exact paginate_pipelined (hp.resolve_right not_false)
  | offset n =>
      obtain ⟨_, hadvance, rfl⟩ := map_eq_ok.mp h
      obtain ⟨-, rfl⟩ := advance_eq_ok.mp hadvance
      exact paginate_pipelined (hp.resolve_right not_false)
  | sortTime d =>
      have hs : s.pipelined = true := hp.resolve_right not_false
      rw [Planning.step, if_neg (by simp [hs])] at h
      obtain rfl := Except.ok.inj h
      rfl
  | count =>
      rw [Planning.step] at h
      split_ifs at h
      · obtain rfl := Except.ok.inj h
        simp [hp.resolve_right not_false]
      · obtain rfl := Except.ok.inj h
        rfl
  | sortFields | fieldsAll | other =>
      obtain rfl := Except.ok.inj h
      rfl

/-- One pipe behind those that storage runs. -/
theorem step_stages {sort : Option Bool} {offset limit : Option Nat}
    (h : (stagesPlan sort offset limit).step p = .ok s) (hp : ¬p.NeedsPipeline) :
    (∃ sort' offset' limit', stages sort offset limit ++ [p] = stages sort' offset' limit' ∧
      s = stagesPlan sort' offset' limit') ∨
    p = .count ∧ (s.pipelined = true ∨
      stages sort offset limit ++ [p] = counted sort ∧ s = countedPlan sort) := by
  cases p with
  | sortFields | fieldsAll | other => exact absurd trivial hp
  | limit n =>
      obtain ⟨_, hadvance, rfl⟩ := map_eq_ok.mp h
      obtain ⟨hstage, rfl⟩ := advance_eq_ok.mp hadvance
      cases limit with
      | some => simp [Planning.paginate, stagesPlan] at hstage
      | none =>
          refine .inl ⟨sort, offset, some n, ?_, ?_⟩ <;> cases sort <;> cases offset <;> rfl
  | offset n =>
      obtain ⟨_, hadvance, rfl⟩ := map_eq_ok.mp h
      obtain ⟨hstage, rfl⟩ := advance_eq_ok.mp hadvance
      cases limit with
      | some => simp [Planning.paginate, stagesPlan] at hstage
      | none =>
          cases offset with
          | some => simp [Planning.paginate, stagesPlan] at hstage
          | none => refine .inl ⟨sort, some n, none, ?_, ?_⟩ <;> cases sort <;> rfl
  | sortTime d =>
      obtain ⟨_, hadvance, rfl⟩ := map_eq_ok.mp h
      obtain ⟨hstage, rfl⟩ := advance_eq_ok.mp hadvance
      obtain ⟨rfl, rfl, rfl⟩ : sort = none ∧ offset = none ∧ limit = none := by
        cases sort <;> cases offset <;> cases limit <;> simp_all [stagesPlan]
      exact .inl ⟨some d, none, none, rfl, rfl⟩
  | count =>
      obtain rfl := Except.ok.inj h
      refine .inr ⟨rfl, ?_⟩
      cases limit with
      | some => exact .inl rfl
      | none =>
          cases offset with
          | some => exact .inl rfl
          | none => refine .inr ⟨?_, ?_⟩ <;> cases sort <;> rfl

/-- Whatever follows a count is about its row. -/
theorem step_counted {sort : Option Bool} (h : (countedPlan sort).step p = .ok s) :
    s.pipelined = true := by
  cases p <;> obtain rfl := Except.ok.inj h <;> rfl

/-- **Plans.** An accepted query is a pipeline or one of those that storage answers. -/
theorem plan_cases {q : List (Pipe O)} (h : plan q = .ok s) :
    (s.pipelined = true ∧ (.count ∈ q ∨ ∃ p ∈ q, p.NeedsPipeline)) ∨
    (∃ sort offset limit, q = stages sort offset limit ∧ s = stagesPlan sort offset limit) ∨
    ∃ sort, q = counted sort ∧ s = countedPlan sort := by
  induction q using List.reverseRecOn generalizing s with
  | nil =>
      obtain rfl := Except.ok.inj h
      exact .inr (.inl ⟨none, none, none, rfl, rfl⟩)
  | append_singleton q p ih =>
      rw [plan_concat] at h
      obtain ⟨s', hs', h⟩ := of_bind h
      by_cases hneeds : p.NeedsPipeline
      · exact .inl ⟨step_pipelined h (.inr hneeds), .inr ⟨p, by simp, hneeds⟩⟩
      rcases ih hs' with ⟨hpipe, hmem⟩ | ⟨sort, offset, limit, rfl, rfl⟩ | ⟨sort, rfl, rfl⟩
      · refine .inl ⟨step_pipelined h (.inl hpipe), ?_⟩
        exact hmem.imp (List.mem_append_left _) fun ⟨p, hp, hneeds⟩ =>
          ⟨p, List.mem_append_left _ hp, hneeds⟩
      · rcases step_stages h hneeds with hstages | ⟨rfl, hpipe | ⟨hq, hs⟩⟩
        · exact .inr (.inl hstages)
        · exact .inl ⟨hpipe, .inl (by simp)⟩
        · exact .inr (.inr ⟨sort, hq, hs⟩)
      · exact .inl ⟨step_counted h, .inl (by simp [counted])⟩

/-- The rows of a page. -/
def window (offset limit : Option Nat) (rows : List (ResultRow N)) : List (ResultRow N) :=
  page (offset.getD 0) (limit.getD 100) rows

/-- The rows as a pipeline sorts them. -/
def sorted (b : Backend N O) (bounds : QuerySpec) (sort : Option Bool) : List (ResultRow N) :=
  match sort with
  | none => b.scan bounds false
  | some descending => b.sortTime descending (b.scan bounds false)

/-- A row with a time. -/
def timedRow (time : String) : ResultRow Empty :=
  ⟨[("_time".toList, .string time.toList)], List.pairwise_singleton _ _⟩

/-- The digits of a row's time. -/
def shownTime (row : ResultRow Empty) : Option Int :=
  match row.object with
  | [(_, .string text)] =>
      some ((text.filter Char.isDigit).foldl (fun n c => 10 * n + (c.toNat - '0'.toNat : Nat)) 0)
  | _ => none

/-- Storage with one row of every given time, and no pipes beside. -/
def timedRows (times : List String) : Backend Empty Empty where
  stored _ := times.map timedRow
  time := shownTime
  timed _ row hrow := by
    obtain ⟨time, -, rfl⟩ := List.mem_map.mp hrow
    rfl
  sortTime descending rows := stableSort (timeKey shownTime descending) rows
  sortTime_timed _ _ _ := rfl
  run op := nomatch op
  ownsCardinality op := nomatch op
  countRow n := ⟨[("total".toList, .string (decimal n))], List.pairwise_singleton _ _⟩
  length_sortTime _ rows := (perm_stableSort rows).length_eq

end Timeless.LogsQL
