import Timeless.LogsQL.Pipes

/-!
# Request — arguments of a query request

A request may carry a limit and bounds on time beside its query. The limit should mean the pipe `limit`
at the end of the query, the bounds a filter on `_time`.

The server adds the pipe to the plan of a pipeline, but the plan was made without it, so the hundred rows
that an unlimited pipeline is cut to stay a bound. A limit of zero is none. And what the parser refuses, a
second limit or bounds that exclude each other, an argument may ask for; while bounds beside a time offset
are refused as arguments only.

* `request_iff`: when arguments and query text mean the same;
* `request_keeps_hundred`: an argument that asks a pipeline for 101 rows gets 100.
-/

namespace Timeless.LogsQL

open Support Codec Blocks

variable {N O : Type}

/-! ### The arguments -/

/-- The argument `limit`, on a plan. -/
def Planning.applyLimit (n : Nat) (s : Planning O) : Planning O :=
  if n = 0 then s
  else if s.pipelined then s.push (.limit n)
  else match s.output with
    | .count => s
    | .rows => { s with limit := if s.limitExplicit then min s.limit n else n, limitExplicit := true }

/-- The arguments `start` and `end`: the bounds of the query and theirs. -/
def intersect (bounds : QuerySpec) (start stop : Option Int64) : QuerySpec where
  tsMin := match start with
    | some start => some ((bounds.tsMin.map (max · start)).getD start)
    | none => bounds.tsMin
  tsMax := match stop with
    | some stop => some ((bounds.tsMax.map (min · stop)).getD stop)
    | none => bounds.tsMax

/-- The time offset of a query moves its bounds. -/
def shifted (unit : TimestampUnit) (timeOffsetNs : Int64) (bounds : QuerySpec) : QuerySpec :=
  if timeOffsetNs ≠ 0 then applyQueryTimeOffset bounds timeOffsetNs unit else bounds

variable (b : Backend N O)

/-- A request with a limit. The server's own bound on rows, `max_result_rows`, is left out. -/
def requestLimit (bounds : QuerySpec) (q : List (Pipe O)) (n : Nat) :
    Except String (List (ResultRow N)) := do
  respond b bounds ((← plan q).applyLimit n)

/-- A request with bounds on time. -/
def requestRange (unit : TimestampUnit) (timeOffsetNs : Int64) (bounds : QuerySpec)
    (q : List (Pipe O)) (start stop : Option Int64) : Except String (List (ResultRow N)) := do
  let s ← plan q
  rejectIf ((start.isSome ∨ stop.isSome) ∧ timeOffsetNs ≠ 0)
    "start/end request arguments cannot be combined with a LogsQL time_offset"
  respond b (intersect (shifted unit timeOffsetNs bounds) start stop) s

/-- The query with a filter on `_time`. -/
def answerRange (unit : TimestampUnit) (timeOffsetNs : Int64) (bounds : QuerySpec)
    (q : List (Pipe O)) (start stop : Option Int64) : Except String (List (ResultRow N)) := do
  let bounds ← tightenTimeBounds bounds start stop
  answer b (shifted unit timeOffsetNs bounds) q

/-! ### Bounds -/

/-- No timestamp is within both bounds. -/
def QuerySpec.Conflicts (bounds : QuerySpec) : Prop :=
  ∃ lower ∈ bounds.tsMin, ∃ upper ∈ bounds.tsMax, upper < lower

instance (bounds : QuerySpec) : Decidable bounds.Conflicts :=
  inferInstanceAs (Decidable (∃ lower ∈ bounds.tsMin, ∃ upper ∈ bounds.tsMax, upper < lower))

/-- The filter has the bounds of the arguments, or is refused. -/
theorem tightenTimeBounds_eq (bounds : QuerySpec) (start stop : Option Int64) :
    (¬(intersect bounds start stop).Conflicts →
      tightenTimeBounds bounds start stop = .ok (intersect bounds start stop)) ∧
    ((intersect bounds start stop).Conflicts → ∃ err,
      tightenTimeBounds bounds start stop = .error err) := by
  have hsame : tightenTimeBounds bounds start stop =
      (intersect bounds start stop).tsMin.elim (.ok (intersect bounds start stop)) fun lower =>
        (intersect bounds start stop).tsMax.elim (.ok (intersect bounds start stop)) fun upper =>
          if lower > upper then .error "LogsQL time range has no representable timestamps"
          else .ok (intersect bounds start stop) := by
    unfold tightenTimeBounds intersect
    cases start <;> cases stop <;> cases bounds.tsMin <;> cases bounds.tsMax <;> rfl
  rw [hsame]
  cases hlower : (intersect bounds start stop).tsMin with
  | none =>
      refine ⟨fun _ => rfl, ?_⟩
      rintro ⟨_, h, -⟩
      rw [hlower] at h
      cases h
  | some lower =>
      cases hupper : (intersect bounds start stop).tsMax with
      | none =>
          refine ⟨fun _ => rfl, ?_⟩
          rintro ⟨_, _, _, h, -⟩
          rw [hupper] at h
          cases h
      | some upper =>
          constructor
          · exact fun h => if_neg fun hlt => h ⟨lower, hlower, upper, hupper, hlt⟩
          · rintro ⟨lower', hl, upper', hu, hlt⟩
            obtain rfl := Option.some.inj (hlower.symm.trans hl)
            obtain rfl := Option.some.inj (hupper.symm.trans hu)
            exact ⟨_, if_pos hlt⟩

/-! ### Limits -/

/-- Another limit may follow. -/
def Planning.Room (s : Planning O) : Prop := s.stage < 3 ∨ s.output = .count ∧ s.stage = 4

/-- The rows of a plan before a last limit. -/
def unlimited (bounds : QuerySpec) (s : Planning O) : Except String (List (ResultRow N)) :=
  if s.pipelined then s.pipeline.foldlM (runPipe b) (b.scan bounds false)
  else match s.output with
    | .count => .ok [b.countRow (b.scan bounds false).length]
    | .rows => .ok ((b.scan bounds s.descending).drop s.offset)

variable {b}

variable {s : Planning O} {q : List (Pipe O)}

theorem step_limit (n : Nat) (h : s.Room) :
    s.step (.limit n) = .ok { s.paginate.push (.limit n) with
      stage := 3, limit := n, limitExplicit := true, hasOuterLimit := true } := by
  have hstage : ¬3 ≤ s.paginate.stage := by
    rw [Planning.paginate]
    split_ifs with hcount
    · exact Nat.not_succ_le_zero 2
    · exact not_le.mpr (h.resolve_right hcount)
  rw [Planning.step, Planning.advance, rejectIf, if_neg hstage]
  rfl

theorem step_limit_error (n : Nat) (h : ¬s.Room) :
    ∃ err, s.step (.limit n) = .error err := by
  rw [Planning.Room, not_or] at h
  rw [Planning.step, Planning.paginate, if_neg h.2, Planning.advance, rejectIf,
    if_pos (not_lt.mp h.1)]
  exact ⟨_, rfl⟩

/-- What the argument makes of those rows. -/
def limitedRows (b : Backend N O) (s : Planning O) (n : Nat) (rows : List (ResultRow N)) :
    List (ResultRow N) :=
  truncate (if s.pipelined then implicitResultLimit b s
    else if n = 0 ∧ s.output = .rows then some 100 else none) (if n = 0 then rows else rows.take n)

theorem implicitResultLimit_push (s : Planning O) (n : Nat) :
    implicitResultLimit b (s.push (.limit n)) = implicitResultLimit b s := by
  simp [implicitResultLimit, Planning.push, ownsCardinality]

theorem replay_limit (bounds : QuerySpec) (ps : List (Pipe O)) (n : Nat) :
    (ps ++ [Pipe.limit n]).foldlM (runPipe b) (b.scan bounds false) =
      List.take n <$> ps.foldlM (runPipe b) (b.scan bounds false) := by
  rw [replay_concat, map_eq_pure_bind]
  rfl

/-- A request with a limit answers if the query does. -/
theorem respond_applyLimit (h : plan q = .ok s) (bounds : QuerySpec) (n : Nat) :
    ∃ f, (s.Room → f = limitedRows b s n) ∧
      respond b bounds (s.applyLimit n) = f <$> unlimited b bounds s := by
  rcases plan_cases h with ⟨hpipe, -⟩ | ⟨sort, offset, limit, -, rfl⟩ | ⟨sort, -, rfl⟩
  · refine ⟨_, fun _ => rfl, ?_⟩
    have hrows : limitedRows b s n = truncate (implicitResultLimit b s) ∘
        fun rows => if n = 0 then rows else rows.take n := by
      funext rows
      rw [limitedRows, if_pos hpipe]
      rfl
    rw [unlimited, if_pos hpipe, Planning.applyLimit, hrows]
    by_cases hn : n = 0
    · simp only [if_pos hn]
      rw [respond, if_pos hpipe]
      rfl
    · have hpush : (s.push (.limit n)).pipelined = true := hpipe
      simp only [if_neg hn, if_pos hpipe]
      have hpipeline : (s.push (.limit n)).pipeline = s.pipeline ++ [.limit n] := rfl
      rw [respond, if_pos hpush, implicitResultLimit_push, hpipeline, replay_limit]
      cases s.pipeline.foldlM (runPipe b) (b.scan bounds false) <;> rfl
  · -- without room the query has a limit of its own, and the smaller one counts
    refine ⟨fun rows => rows.take ((stagesPlan sort offset limit : Planning O).applyLimit n).limit,
      fun hroom => ?_, ?_⟩
    · cases limit with
      | some => exact absurd hroom (by simp [Planning.Room, stagesPlan])
      | none =>
          funext rows
          by_cases hn : n = 0 <;>
            simp [limitedRows, Planning.applyLimit, stagesPlan, truncate, hn]
    · by_cases hn : n = 0 <;> simp [Planning.applyLimit, stagesPlan, respond, unlimited, hn]
  · refine ⟨_, fun _ => rfl, ?_⟩
    have hsame : (countedPlan sort : Planning O).applyLimit n = countedPlan sort := by
      rw [Planning.applyLimit]
      exact ite_self _
    rw [hsame]
    refine congrArg Except.ok ?_
    by_cases hn : n = 0
    · simp [limitedRows, countedPlan, stagesPlan, truncate, hn]
    · rw [limitedRows, if_neg hn, List.take_of_length_le (Nat.one_le_iff_ne_zero.mpr hn)]
      simp [countedPlan, stagesPlan, truncate]

theorem paginate_pipeline (s : Planning O) : s.paginate.pipeline = s.pipeline := by
  rw [Planning.paginate]
  split_ifs <;> rfl

variable {n : Nat}

theorem respond_limit_pipeline (h : s.pipelined = true) (hlimit : s.hasOuterLimit = true)
    {ps : List (Pipe O)} (hps : s.pipeline = ps ++ [.limit n]) (bounds : QuerySpec) :
    respond b bounds s = List.take n <$> ps.foldlM (runPipe b) (b.scan bounds false) := by
  rw [respond, if_pos h, implicitResultLimit, if_pos (.inl hlimit), hps, replay_limit]
  exact id_map _

theorem respond_limit {s s' : Planning O} (h : plan q = .ok s) (hroom : s.Room) (bounds : QuerySpec)
    (hs' : s.step (.limit n) = .ok s') :
    respond b bounds s' = List.take n <$> unlimited b bounds s := by
  have hplan := Except.ok.inj ((step_limit n hroom).symm.trans hs')
  have hlimit : s'.hasOuterLimit = true := by rw [← hplan]
  have hpipeline : s'.pipeline = s.pipeline ++ [.limit n] := by
    rw [← hplan, ← paginate_pipeline s]
    rfl
  rcases plan_cases h with ⟨hpipe, -⟩ | ⟨sort, offset, limit, -, rfl⟩ | ⟨sort, -, rfl⟩
  · rw [respond_limit_pipeline (step_pipelined hs' (.inl hpipe)) hlimit hpipeline, unlimited,
      if_pos hpipe]
  · rw [← hplan]
    rfl
  · rw [respond_limit_pipeline (step_counted hs') hlimit hpipeline]
    cases sort with
    | none => rfl
    | some d =>
        have hlength := b.length_sortTime d (b.scan bounds false)
        simp [countedPlan, counted, runPipe, unlimited, stagesPlan, hlength]

/-- When the argument is the pipe. -/
theorem limitedRows_eq_take {rows : List (ResultRow N)} :
    limitedRows b s n rows = rows.take n ↔ (n = 0 → rows = []) ∧
      (s.pipelined = true → implicitResultLimit b s ≠ none → n ≤ 100 ∨ rows.length ≤ 100) := by
  have hempty (limit : Option Nat) (hlimit : limit ≠ some 0) : truncate limit rows = [] ↔ rows = [] := by
    cases limit with
    | none => rfl
    | some k => simp [truncate, Option.some_inj.not.mp hlimit]
  have himplicit : implicitResultLimit b s = none ∨ implicitResultLimit b s = some 100 := by
    rw [implicitResultLimit]
    split_ifs <;> simp
  rw [limitedRows]
  by_cases hn : n = 0
  · subst hn
    rw [if_pos rfl, List.take_zero, hempty]
    · simp
    · rcases himplicit with h | h <;> rw [h] <;> split_ifs <;> simp
  · simp only [hn, false_and, if_false, false_imp_iff, true_and]
    by_cases hpipe : s.pipelined = true
    · rw [if_pos hpipe]
      rcases himplicit with h | h
      · simp [h, truncate]
      · simp only [h, truncate, hpipe, ne_eq, reduceCtorEq, not_false_eq_true, forall_const]
        rw [List.take_take, List.take_eq_take_iff]
        omega
    · simp [hpipe, truncate]

theorem requestLimit_iff (b : Backend N O) (bounds : QuerySpec) (q : List (Pipe O)) (n : Nat) :
    (requestLimit b bounds q n).toOption = (answer b bounds (q ++ [.limit n])).toOption ↔
      ∀ s rows, plan q = .ok s → unlimited b bounds s = .ok rows → s.Room ∧ (n = 0 → rows = []) ∧
        (s.pipelined = true → implicitResultLimit b s ≠ none → n ≤ 100 ∨ rows.length ≤ 100) := by
  rw [requestLimit, answer, plan_concat]
  cases h : plan q with
  | error err =>
      refine iff_of_true rfl ?_
      rintro s rows ⟨⟩
  | ok s =>
      obtain ⟨f, hf, hrespond⟩ := @respond_applyLimit _ _ b _ _ h bounds n
      change (respond b bounds (s.applyLimit n)).toOption =
        (s.step (.limit n) >>= respond b bounds).toOption ↔ _
      rw [hrespond]
      by_cases hroom : s.Room
      · have hlimit : s.step (.limit n) >>= respond b bounds = List.take n <$> unlimited b bounds s := by
          rw [step_limit n hroom]
          exact respond_limit h hroom bounds (step_limit n hroom)
        rw [hlimit]
        cases hrows : unlimited b bounds s with
        | error err =>
            refine iff_of_true rfl fun s' rows hs' hrows' => ?_
            obtain rfl := Except.ok.inj hs'
            rw [hrows] at hrows'
            cases hrows'
        | ok rows =>
            have hsome : (f <$> (.ok rows : Except String _)).toOption =
                (List.take n <$> (.ok rows : Except String _)).toOption ↔ f rows = rows.take n :=
              Option.some_inj
            rw [hsome, hf hroom, limitedRows_eq_take]
            constructor
            · rintro hmeans s' rows' hs' hrows'
              obtain rfl := Except.ok.inj hs'
              obtain rfl := Except.ok.inj (hrows.symm.trans hrows')
              exact ⟨hroom, hmeans⟩
            · exact fun hall => (hall s rows rfl hrows).2
      · obtain ⟨err, herr⟩ := step_limit_error n hroom
        rw [herr]
        cases hrows : unlimited b bounds s with
        | error err =>
            refine iff_of_true rfl fun s' rows hs' hrows' => ?_
            obtain rfl := Except.ok.inj hs'
            rw [hrows] at hrows'
            cases hrows'
        | ok rows =>
            refine iff_of_false ?_ fun hall => hroom (hall s rows rfl hrows).1
            rintro ⟨⟩

/-- Arguments beside a time offset are refused. -/
theorem requestRange_eq (h : plan q = .ok s) (unit : TimestampUnit) (d : Int64) (bounds : QuerySpec)
    {start stop : Option Int64} (hgiven : start.isSome = true ∨ stop.isSome = true) :
    (requestRange b unit d bounds q start stop).toOption =
      if d = 0 then (respond b (shifted unit d (intersect bounds start stop)) s).toOption else none := by
  rw [requestRange, h]
  change (rejectIf _ _ >>= fun _ => respond b _ s).toOption = _
  split_ifs with hd
  · subst hd
    rw [rejectIf_neg fun h => h.2 rfl]
    rfl
  · rw [rejectIf_pos ⟨hgiven, hd⟩]
    rfl

/-- A filter with bounds that exclude each other is refused. -/
theorem answerRange_eq (h : plan q = .ok s) (unit : TimestampUnit) (d : Int64) (bounds : QuerySpec)
    (start stop : Option Int64) :
    (answerRange b unit d bounds q start stop).toOption =
      if (intersect bounds start stop).Conflicts then none
      else (respond b (shifted unit d (intersect bounds start stop)) s).toOption := by
  obtain ⟨hok, herror⟩ := tightenTimeBounds_eq bounds start stop
  rw [answerRange]
  split_ifs with hconflicts
  · obtain ⟨err, herr⟩ := herror hconflicts
    rw [herr]
    rfl
  · rw [hok hconflicts]
    change (answer b _ q).toOption = _
    rw [answer, h]
    rfl

theorem answerRange_error {err : String} (h : plan q = .error err) (unit : TimestampUnit)
    (d : Int64) (bounds : QuerySpec) (start stop : Option Int64) :
    (answerRange b unit d bounds q start stop).toOption = none := by
  rw [answerRange]
  cases tightenTimeBounds bounds start stop with
  | error => rfl
  | ok bounds' =>
      change (answer b _ q).toOption = none
      rw [answer, h]
      rfl

theorem requestRange_iff (b : Backend N O) (unit : TimestampUnit) (d : Int64) {bounds : QuerySpec}
    (hbounds : ¬bounds.Conflicts) (q : List (Pipe O)) (start stop : Option Int64) :
    (requestRange b unit d bounds q start stop).toOption =
        (answerRange b unit d bounds q start stop).toOption ↔
      (start = none ∧ stop = none) ∨ ∀ s rows, plan q = .ok s →
        respond b (shifted unit d (intersect bounds start stop)) s = .ok rows →
          (d = 0 ↔ ¬(intersect bounds start stop).Conflicts) := by
  by_cases hnone : start = none ∧ stop = none
  · obtain ⟨rfl, rfl⟩ := hnone
    rw [requestRange, answerRange, (tightenTimeBounds_eq bounds none none).1 hbounds]
    exact iff_of_true rfl (.inl ⟨rfl, rfl⟩)
  have hgiven : start.isSome = true ∨ stop.isSome = true := by
    cases start <;> cases stop <;> simp_all
  rw [or_iff_right hnone]
  cases hplan : plan q with
  | error err =>
      rw [answerRange_error hplan, requestRange, hplan]
      exact iff_of_true rfl nofun
  | ok s =>
      rw [requestRange_eq hplan unit d bounds hgiven, answerRange_eq hplan]
      cases hrows : respond b (shifted unit d (intersect bounds start stop)) s with
      | error err =>
          refine iff_of_true (by simp [Except.toOption]) fun s' rows hs' hrows' => ?_
          obtain rfl := Except.ok.inj hs'
          rw [hrows] at hrows'
          cases hrows'
      | ok rows =>
          have hall : (∀ s' rows, (.ok s : Except String (Planning O)) = .ok s' →
              respond b (shifted unit d (intersect bounds start stop)) s' = .ok rows →
                (d = 0 ↔ ¬(intersect bounds start stop).Conflicts)) ↔
              (d = 0 ↔ ¬(intersect bounds start stop).Conflicts) :=
            ⟨fun hall => hall s rows rfl hrows, fun h _ _ _ _ => h⟩
          rw [hall]
          by_cases hd : d = 0 <;> by_cases hconflicts : (intersect bounds start stop).Conflicts <;>
            simp [hd, hconflicts, Except.toOption]

/-- **Arguments of a request.** A limit means the pipe exactly if, where the query answers, another limit
pipe is allowed, the limit is not zero unless there are no rows, and a pipeline that is cut to a hundred
rows is asked for no more or has no more. Bounds mean the filter exactly if there is no time offset and
they do not exclude each other, or both. -/
theorem request_iff (b : Backend N O) {bounds : QuerySpec} (hbounds : ¬bounds.Conflicts)
    (q : List (Pipe O)) :
    (∀ n, (requestLimit b bounds q n).toOption = (answer b bounds (q ++ [.limit n])).toOption ↔
      ∀ s rows, plan q = .ok s → unlimited b bounds s = .ok rows → s.Room ∧ (n = 0 → rows = []) ∧
        (s.pipelined = true → implicitResultLimit b s ≠ none → n ≤ 100 ∨ rows.length ≤ 100)) ∧
    ∀ unit d start stop, (requestRange b unit d bounds q start stop).toOption =
        (answerRange b unit d bounds q start stop).toOption ↔
      (start = none ∧ stop = none) ∨ ∀ s rows, plan q = .ok s →
        respond b (shifted unit d (intersect bounds start stop)) s = .ok rows →
          (d = 0 ↔ ¬(intersect bounds start stop).Conflicts) :=
  ⟨requestLimit_iff b bounds q, fun unit d start stop => requestRange_iff b unit d hbounds q start stop⟩

/-- A request for the newest row of two. -/
theorem request_iff_newest : ∃ rows,
    requestLimit (timedRows ["2026-01-01T00:00:00Z", "2026-01-02T00:00:00Z"]) .default [] 1 = .ok rows ∧
    answer (timedRows ["2026-01-01T00:00:00Z", "2026-01-02T00:00:00Z"]) .default [.limit 1] =
      .ok rows ∧
    (requestLimit (timedRows ["2026-01-01T00:00:00Z", "2026-01-02T00:00:00Z"]) .default [] 1).toOption =
      (answer (timedRows ["2026-01-01T00:00:00Z", "2026-01-02T00:00:00Z"]) .default
        [.limit 1]).toOption := by
  refine ⟨[timedRow "2026-01-02T00:00:00Z"], rfl, rfl, ?_⟩
  refine ((request_iff (timedRows ["2026-01-01T00:00:00Z", "2026-01-02T00:00:00Z"])
    (show ¬QuerySpec.default.Conflicts by decide) []).1 1).mpr fun s rows hs _ => ?_
  obtain rfl := Except.ok.inj hs
  exact ⟨.inl (by decide), nofun, nofun⟩

/-- Of 101 rows, a pipeline with the argument `limit=101` returns 100; with the pipe, all. -/
theorem request_keeps_hundred :
    (requestLimit (timedRows (List.replicate 101 "2026-01-01T00:00:00Z")) .default [.fieldsAll] 101).map
      List.length = .ok 100 ∧
    (answer (timedRows (List.replicate 101 "2026-01-01T00:00:00Z")) .default
      [.fieldsAll, .limit 101]).map List.length = .ok 101 :=
  ⟨by decide +kernel, by decide +kernel⟩

end Timeless.LogsQL
