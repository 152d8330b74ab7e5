import Timeless.Support.Runs
import Mathlib.Data.List.Perm.Basic

/-!
# WriterGate — one writer or many readers, over connections that share an engine

Connections that share an engine take a gate before they write and a permit before they read. The
gate is a monitor: a small state under a lock, and a condition variable on which writers wait for it
to be free. Each critical section is one step here, from taking the lock to giving it up at a return
or a wait; a waiting thread that gets the lock back goes on with its loop. Threads may be woken at
any time, and whether a deadline has passed by the time it is looked at is up to the schedule.

`System` is the gate with everything outside that the gate keeps count of: the threads that wait,
the permits that were handed out and not dropped, and the connections that were let write and have
not released. `gate_correct` says for every schedule that the gate keeps count correctly, lets
nobody in beside a writer, and never leaves a waiting writer asleep in front of a free gate.
-/

namespace Timeless.Shared

open Support

/-- A connection; addresses are reused, and the generation tells its lifetimes apart. -/
structure ConnectionIdentity where
  address : UInt64
  generation : UInt64
  deriving DecidableEq

/-! ### The gate -/

/-- What the lock guards. -/
structure GateState where
  /-- the connection whose write transaction holds the gate -/
  writer : Option ConnectionIdentity
  readers : Nat
  waitingWriters : Nat
  deriving DecidableEq

namespace GateState

/-- There is something that a writer has to wait for. -/
def blocked (s : GateState) : Bool := s.writer.isSome || 0 < s.readers

end GateState

/-- How a critical section of an acquisition ends. -/
inductive Acquisition where
  | returns (result : Except String Unit)
  | waits

/-- What a writer asks for; `table` and `timeout` are as they are shown. -/
structure Request where
  connection : ConnectionIdentity
  table : String
  timeout : String
  deriving DecidableEq

def busyError (r : Request) (s : GateState) : String :=
  let writer := if s.writer.isSome then "another" else "no"
  s!"table {r.table} is busy (timed out after {r.timeout} waiting for {writer} writer and {s.readers} active reader(s) — retry, as for SQLITE_BUSY)"

/-- The loop of `acquireTimeout`, from the check at its head to the next wait or the return. -/
def acquireLoop (r : Request) (waited expired : Bool) (s : GateState) : Acquisition × GateState :=
  if s.blocked then
    if expired then
      let s := { s with waitingWriters := s.waitingWriters - 1 }
      (.returns (.error (busyError r s)), s)
    else (.waits, s)
  else
    let s := if waited then { s with waitingWriters := s.waitingWriters - 1 } else s
    (.returns (.ok ()), { s with writer := some r.connection })

/-- A writer comes to the gate. -/
def acquireTimeout (r : Request) (expired : Bool) (s : GateState) : Acquisition × GateState :=
  if s.writer = some r.connection then (.returns (.ok ()), s)
  else if s.blocked then
    acquireLoop r true expired { s with waitingWriters := s.waitingWriters + 1 }
  else acquireLoop r false expired s

/-- A permit to read; it is active unless the reader is the writer itself. -/
def acquireRead (connection : ConnectionIdentity) (table : String) (s : GateState) :
    Except String Bool × GateState :=
  match s.writer with
  | some writer =>
      if writer = connection then (.ok false, s)
      else
        (.error s!"table {table} read is blocked by another connection's active write transaction — retry, as for SQLITE_BUSY", s)
  | none =>
      if s.waitingWriters = 0 then (.ok true, { s with readers := s.readers + 1 })
      else
        (.error s!"table {table} read is blocked by a pending writer transaction — retry, as for SQLITE_BUSY", s)

/-- Dropping a permit: the new state, and whether all waiting threads are notified. -/
def dropPermit (active : Bool) (s : GateState) : GateState × Bool :=
  if active then ({ s with readers := s.readers - 1 }, true) else (s, false)

def release (connection : ConnectionIdentity) (s : GateState) : GateState × Bool :=
  if s.writer = some connection then ({ s with writer := none }, true) else (s, false)

/-! ### The system -/

/-- A thread that waits for the gate; `awake` if it has been woken and waits for the lock only. -/
structure Waiter where
  request : Request
  awake : Bool

structure Permit where
  connection : ConnectionIdentity
  active : Bool

/-- The gate, with the threads that wait for it, the permits that were not dropped, and the
connections that were let write and have not released. -/
structure System where
  gate : GateState
  waiters : List Waiter
  permits : List Permit
  holding : List ConnectionIdentity

def System.start : System := ⟨⟨none, 0, 0⟩, [], [], []⟩

/-- The steps of a schedule. -/
inductive Event where
  | acquire (r : Request) (expired : Bool)
  /-- a wait of a thread ends, for whatever reason -/
  | wake (i : Nat)
  /-- a woken thread gets the lock back -/
  | resume (i : Nat) (expired : Bool)
  | read (connection : ConnectionIdentity) (table : String)
  | drop (i : Nat)
  | release (connection : ConnectionIdentity)

def notifyAll (waiters : List Waiter) : List Waiter :=
  waiters.map fun w => { w with awake := true }

def hold (c : ConnectionIdentity) (holding : List ConnectionIdentity) : List ConnectionIdentity :=
  if c ∈ holding then holding else c :: holding

/-- One critical section, or the end of a wait. -/
def step (s : System) : Event → Option System
  | .acquire r expired =>
      match acquireTimeout r expired s.gate with
      | (.waits, gate) => some { s with gate, waiters := s.waiters ++ [⟨r, false⟩] }
      | (.returns (.ok ()), gate) => some { s with gate, holding := hold r.connection s.holding }
      | (.returns (.error _), gate) => some { s with gate }
  | .wake i =>
      match s.waiters[i]? with
      | none => none
      | some w => some { s with waiters := s.waiters.set i { w with awake := true } }
  | .resume i expired =>
      match s.waiters[i]? with
      | none => none
      | some w =>
          if w.awake then
            match acquireLoop w.request true expired s.gate with
            | (.waits, gate) =>
                some { s with gate, waiters := s.waiters.set i { w with awake := false } }
            | (.returns (.ok ()), gate) =>
                some { s with
                  gate
                  waiters := s.waiters.eraseIdx i
                  holding := hold w.request.connection s.holding }
            | (.returns (.error _), gate) => some { s with gate, waiters := s.waiters.eraseIdx i }
          else none
  | .read c table =>
      match acquireRead c table s.gate with
      | (.ok active, gate) => some { s with gate, permits := s.permits ++ [⟨c, active⟩] }
      | (.error _, gate) => some { s with gate }
  | .drop i =>
      match s.permits[i]? with
      | none => none
      | some p =>
          let out := dropPermit p.active s.gate
          some { s with
            gate := out.1
            waiters := if out.2 then notifyAll s.waiters else s.waiters
            permits := s.permits.eraseIdx i }
  | .release c =>
      let out := release c s.gate
      some { s with
        gate := out.1
        waiters := if out.2 then notifyAll s.waiters else s.waiters
        holding := s.holding.filter (· ≠ c) }

/-! ### What a step can do -/

/-- The steps, each with the state it is taken in. -/
inductive Step : System → Event → System → Prop
  | reenter {s : System} {r : Request} {expired : Bool} (h : s.gate.writer = some r.connection) :
      Step s (.acquire r expired) { s with holding := hold r.connection s.holding }
  | giveUp {s : System} {r : Request} (h : s.gate.blocked = true) : Step s (.acquire r true) s
  | wait {s : System} {r : Request} (h : s.gate.blocked = true) :
      Step s (.acquire r false)
        { s with
          gate := { s.gate with waitingWriters := s.gate.waitingWriters + 1 }
          waiters := s.waiters ++ [⟨r, false⟩] }
  | enter {s : System} {r : Request} {expired : Bool} (h : s.gate.blocked = false) :
      Step s (.acquire r expired)
        { s with
          gate := { s.gate with writer := some r.connection }
          holding := hold r.connection s.holding }
  | wake {s : System} {i : Nat} {w : Waiter} (hw : s.waiters[i]? = some w) :
      Step s (.wake i) { s with waiters := s.waiters.set i { w with awake := true } }
  | waitOn {s : System} {i : Nat} {w : Waiter} (hw : s.waiters[i]? = some w)
      (hawake : w.awake = true) (h : s.gate.blocked = true) :
      Step s (.resume i false) { s with waiters := s.waiters.set i { w with awake := false } }
  | timeOut {s : System} {i : Nat} {w : Waiter} (hw : s.waiters[i]? = some w)
      (hawake : w.awake = true) (h : s.gate.blocked = true) :
      Step s (.resume i true)
        { s with
          gate := { s.gate with waitingWriters := s.gate.waitingWriters - 1 }
          waiters := s.waiters.eraseIdx i }
  | proceed {s : System} {i : Nat} {w : Waiter} {expired : Bool} (hw : s.waiters[i]? = some w)
      (hawake : w.awake = true) (h : s.gate.blocked = false) :
      Step s (.resume i expired)
        { s with
          gate := ⟨some w.request.connection, s.gate.readers, s.gate.waitingWriters - 1⟩
          waiters := s.waiters.eraseIdx i
          holding := hold w.request.connection s.holding }
  | readOwn {s : System} {c : ConnectionIdentity} {table : String} (h : s.gate.writer = some c) :
      Step s (.read c table) { s with permits := s.permits ++ [⟨c, false⟩] }
  | read {s : System} {c : ConnectionIdentity} {table : String} (h : s.gate.writer = none)
      (hwaiting : s.gate.waitingWriters = 0) :
      Step s (.read c table)
        { s with
          gate := { s.gate with readers := s.gate.readers + 1 }
          permits := s.permits ++ [⟨c, true⟩] }
  | refuse {s : System} {c : ConnectionIdentity} {table : String} : Step s (.read c table) s
  | drop {s : System} {i : Nat} {p : Permit} (hp : s.permits[i]? = some p) (h : p.active = true) :
      Step s (.drop i)
        { s with
          gate := { s.gate with readers := s.gate.readers - 1 }
          waiters := notifyAll s.waiters
          permits := s.permits.eraseIdx i }
  | dropOwn {s : System} {i : Nat} {p : Permit} (hp : s.permits[i]? = some p)
      (h : p.active = false) : Step s (.drop i) { s with permits := s.permits.eraseIdx i }
  | release {s : System} {c : ConnectionIdentity} (h : s.gate.writer = some c) :
      Step s (.release c)
        { s with
          gate := { s.gate with writer := none }
          waiters := notifyAll s.waiters
          holding := s.holding.filter (· ≠ c) }
  | ignore {s : System} {c : ConnectionIdentity} (h : s.gate.writer ≠ some c) :
      Step s (.release c) { s with holding := s.holding.filter (· ≠ c) }

theorem acquireLoop_cases (r : Request) (waited expired : Bool) (s : GateState) :
    (s.blocked = true ∧ expired = true ∧ ∃ err, acquireLoop r waited expired s =
      (.returns (.error err), { s with waitingWriters := s.waitingWriters - 1 })) ∨
    (s.blocked = true ∧ expired = false ∧ acquireLoop r waited expired s = (.waits, s)) ∨
    (s.blocked = false ∧ acquireLoop r waited expired s = (.returns (.ok ()),
      ⟨some r.connection, s.readers,
        if waited then s.waitingWriters - 1 else s.waitingWriters⟩)) := by
  unfold acquireLoop
  cases s.blocked <;> cases expired <;> cases waited <;> simp

variable {s s' : System}

theorem acquire_inv {r : Request} {expired : Bool} (h : step s (.acquire r expired) = some s') :
    Step s (.acquire r expired) s' := by
  rw [step, acquireTimeout] at h
  by_cases hown : s.gate.writer = some r.connection
  · rw [if_pos hown] at h
    cases h
    exact .reenter hown
  rw [if_neg hown] at h
  by_cases hblocked : s.gate.blocked = true
  · rw [if_pos hblocked] at h
    rcases acquireLoop_cases r true expired { s.gate with waitingWriters := s.gate.waitingWriters + 1 }
      with ⟨-, rfl, err, hloop⟩ | ⟨-, rfl, hloop⟩ | ⟨hfree, -⟩
    · rw [hloop] at h
      cases h
      exact .giveUp hblocked
    · rw [hloop] at h
      cases h
      exact .wait hblocked
    · exact absurd (hblocked.symm.trans hfree) (by decide)
  · rw [if_neg hblocked] at h
    rcases acquireLoop_cases r false expired s.gate
      with ⟨hb, -⟩ | ⟨hb, -⟩ | ⟨hfree, hloop⟩
    · exact absurd hb hblocked
    · exact absurd hb hblocked
    · rw [hloop] at h
      cases h
      exact .enter hfree

variable {i : Nat} {e : Event} {s : System}

theorem resume_inv {expired : Bool} (h : step s (.resume i expired) = some s') :
    Step s (.resume i expired) s' := by
  unfold step at h
  cases hw : s.waiters[i]? with
  | none => simp [hw] at h
  | some w =>
      simp only [hw] at h
      split_ifs at h with hawake
      rcases acquireLoop_cases w.request true expired s.gate
        with ⟨hblocked, rfl, err, hloop⟩ | ⟨hblocked, rfl, hloop⟩ | ⟨hfree, hloop⟩
      · rw [hloop] at h
        cases h
        exact .timeOut hw hawake hblocked
      · rw [hloop] at h
        cases h
        exact .waitOn hw hawake hblocked
      · rw [hloop] at h
        cases h
        exact .proceed hw hawake hfree

theorem acquireRead_cases (c : ConnectionIdentity) (table : String) (s : GateState) :
    (s.writer = some c ∧ acquireRead c table s = (.ok false, s)) ∨
    (s.writer = none ∧ s.waitingWriters = 0 ∧
      acquireRead c table s = (.ok true, { s with readers := s.readers + 1 })) ∨
    ((∀ writer, s.writer = some writer → writer ≠ c) ∧ (s.writer = none → s.waitingWriters ≠ 0) ∧
      ∃ err, acquireRead c table s = (.error err, s)) := by
  obtain ⟨writer, readers, waitingWriters⟩ := s
  unfold acquireRead
  cases writer with
  | some writer => by_cases hown : writer = c <;> simp [hown]
  | none => by_cases hwaiting : waitingWriters = 0 <;> simp [hwaiting]

theorem read_inv {c : ConnectionIdentity} {table : String} (h : step s (.read c table) = some s') :
    Step s (.read c table) s' := by
  rw [step] at h
  rcases acquireRead_cases c table s.gate
    with ⟨hown, hread⟩ | ⟨hfree, hwaiting, hread⟩ | ⟨-, -, err, hread⟩
  · rw [hread] at h
    cases h
    exact .readOwn hown
  · rw [hread] at h
    cases h
    exact .read hfree hwaiting
  · rw [hread] at h
    cases h
    exact .refuse

theorem step_inv (h : step s e = some s') : Step s e s' := by
  cases e with
  | acquire r expired => exact acquire_inv h
  | wake i =>
      unfold step at h
      cases hw : s.waiters[i]? with
      | none => simp [hw] at h
      | some w =>
          simp only [hw, Option.some.injEq] at h
          exact h ▸ .wake hw
  | resume i expired => exact resume_inv h
  | read c table => exact read_inv h
  | drop i =>
      unfold step dropPermit at h
      cases hp : s.permits[i]? with
      | none => simp [hp] at h
      | some p =>
          simp only [hp] at h
          by_cases hactive : p.active = true
          · rw [if_pos hactive] at h
            cases h
            exact .drop hp hactive
          · rw [if_neg hactive] at h
            cases h
            exact .dropOwn hp (Bool.eq_false_iff.mpr hactive)
  | release c =>
      rw [step, Shared.release] at h
      by_cases hown : s.gate.writer = some c
      · rw [if_pos hown] at h
        cases h
        exact .release hown
      · rw [if_neg hown] at h
        cases h
        exact .ignore hown

/-! ### The invariant -/

/-- The counts are right, a writer is alone, and nobody sleeps in front of a free gate. -/
structure Monitored (s : System) : Prop where
  holding : s.holding = s.gate.writer.toList
  readers : s.gate.readers = s.permits.countP Permit.active
  waiting : s.gate.waitingWriters = s.waiters.length
  alone : s.gate.writer ≠ none → s.gate.readers = 0
  awake : s.gate.blocked = false → ∀ w ∈ s.waiters, w.awake = true

theorem blocked_eq_false {s : GateState} :
    s.blocked = false ↔ s.writer = none ∧ s.readers = 0 := by
  simp [GateState.blocked]

theorem length_notifyAll (waiters : List Waiter) : (notifyAll waiters).length = waiters.length :=
  List.length_map _

theorem awake_of_mem_notifyAll {waiters : List Waiter} {w : Waiter} (h : w ∈ notifyAll waiters) :
    w.awake = true := by
  obtain ⟨w', -, rfl⟩ := List.mem_map.mp h
  rfl

theorem hold_self (c : ConnectionIdentity) : hold c [c] = [c] := by simp [hold]

/-- What is taken out of a list is counted no more. -/
theorem countP_eraseIdx {α : Type} (p : α → Bool) {xs : List α} {x : α} (h : xs[i]? = some x) :
    xs.countP p = (xs.eraseIdx i).countP p + if p x then 1 else 0 := by
  obtain ⟨hi, rfl⟩ := List.getElem?_eq_some_iff.mp h
  have hperm : xs.Perm (xs[i] :: xs.eraseIdx i) := (List.getElem_cons_eraseIdx_perm hi).symm
  rw [hperm.countP_eq, List.countP_cons]

theorem length_eraseIdx_of_some {α : Type} {xs : List α} {x : α} (h : xs[i]? = some x) :
    (xs.eraseIdx i).length = xs.length - 1 := by
  obtain ⟨hi, -⟩ := List.getElem?_eq_some_iff.mp h
  exact List.length_eraseIdx_of_lt hi

theorem monitored_step (hs : Monitored s) (h : Step s e s') :
    Monitored s' := by
  cases h with
  | reenter h =>
      refine ⟨?_, hs.readers, hs.waiting, hs.alone, hs.awake⟩
      change hold _ s.holding = s.gate.writer.toList
      rw [hs.holding, h]
      exact hold_self _
  | giveUp h => exact hs
  | wait h =>
      refine ⟨hs.holding, hs.readers, ?_, hs.alone, fun hfree => ?_⟩
      · simp [hs.waiting]
      · exact absurd (h.symm.trans hfree) (by decide)
  | enter h =>
      obtain ⟨hwriter, hreaders⟩ := blocked_eq_false.mp h
      refine ⟨?_, hs.readers, hs.waiting, fun _ => hreaders, fun hfree => ?_⟩
      · change hold _ s.holding = _
        rw [hs.holding, hwriter]
        rfl
      · exact absurd (blocked_eq_false.mp hfree).1 (by simp)
  | wake hw =>
      refine ⟨hs.holding, hs.readers, ?_, hs.alone, fun hfree w hmem => ?_⟩
      · simpa using hs.waiting
      · rcases List.mem_or_eq_of_mem_set hmem with hmem | rfl
        · exact hs.awake hfree w hmem
        · rfl
  | waitOn hw hawake h =>
      refine ⟨hs.holding, hs.readers, ?_, hs.alone, fun hfree => ?_⟩
      · simpa using hs.waiting
      · exact absurd (h.symm.trans hfree) (by decide)
  | timeOut hw hawake h =>
      refine ⟨hs.holding, hs.readers, ?_, hs.alone, fun hfree => ?_⟩
      · change s.gate.waitingWriters - 1 = _
        rw [length_eraseIdx_of_some hw, hs.waiting]
      · exact absurd (h.symm.trans hfree) (by decide)
  | proceed hw hawake h =>
      obtain ⟨hwriter, hreaders⟩ := blocked_eq_false.mp h
      refine ⟨?_, hs.readers, ?_, fun _ => hreaders, fun hfree => ?_⟩
      · change hold _ s.holding = _
        rw [hs.holding, hwriter]
        rfl
      · change s.gate.waitingWriters - 1 = _
        rw [length_eraseIdx_of_some hw, hs.waiting]
      · exact absurd (blocked_eq_false.mp hfree).1 (by simp)
  | readOwn h =>
      refine ⟨hs.holding, ?_, hs.waiting, hs.alone, hs.awake⟩
      rw [List.countP_append, ← hs.readers]
      rfl
  | read h hwaiting =>
      refine ⟨hs.holding, ?_, hs.waiting, fun hwriter => absurd h hwriter, fun hfree => ?_⟩
      · rw [List.countP_append, ← hs.readers]
        rfl
      · exact absurd (blocked_eq_false.mp hfree).2 (by simp)
  | refuse => exact hs
  | drop hp h =>
      have hcount := countP_eraseIdx Permit.active hp
      rw [if_pos h, ← hs.readers] at hcount
      refine ⟨hs.holding, ?_, ?_, fun hwriter => ?_, fun _ w hw => awake_of_mem_notifyAll hw⟩
      · exact Nat.sub_eq_of_eq_add hcount
      · rw [length_notifyAll]
        exact hs.waiting
      · change s.gate.readers - 1 = 0
        rw [hs.alone hwriter]
  | dropOwn hp h =>
      have hcount := countP_eraseIdx Permit.active hp
      rw [if_neg (by simp [h]), ← hs.readers] at hcount
      exact ⟨hs.holding, hcount, hs.waiting, hs.alone, hs.awake⟩
  | release h =>
      refine ⟨?_, hs.readers, ?_, fun hwriter => absurd rfl hwriter,
        fun _ w hw => awake_of_mem_notifyAll hw⟩
      · change s.holding.filter _ = []
        rw [hs.holding, h]
        simp
      · rw [length_notifyAll]
        exact hs.waiting
  | @ignore c h =>
      refine ⟨?_, hs.readers, hs.waiting, hs.alone, hs.awake⟩
      change s.holding.filter (· ≠ c) = s.gate.writer.toList
      rw [List.filter_eq_self.mpr, hs.holding]
      intro d hd
      rw [hs.holding, Option.mem_toList] at hd
      exact decide_eq_true fun heq => h (heq ▸ hd)

/-! ### Correctness -/

/-- What the gate is for. -/
structure Correct (s : System) : Prop where
  /-- at most one connection writes -/
  oneWriter : ∀ c ∈ s.holding, ∀ d ∈ s.holding, c = d
  /-- no active permit beside a writer -/
  noReader : ∀ c ∈ s.holding, ∀ p ∈ s.permits, p.active = false
  /-- a permit is active and nobody writes or waits to, or it is the writer's own -/
  granted : ∀ c table active gate, acquireRead c table s.gate = (.ok active, gate) →
    active = true ∧ s.holding = [] ∧ s.waiters = [] ∨ active = false ∧ s.holding = [c]
  /-- there is nothing left that could keep readers out -/
  admits : s.holding = [] → s.waiters = [] → ∀ c table, (acquireRead c table s.gate).1 = .ok true
  readers : s.gate.readers = s.permits.countP Permit.active
  waiting : s.gate.waitingWriters = s.waiters.length
  /-- the holder stays until it releases -/
  released : ∀ c, s.gate.writer = some c → ∀ e s', step s e = some s' →
    s'.gate.writer = some c ∨ e = .release c ∧ s'.gate.writer = none
  /-- every waiting writer is awake and gets a free gate -/
  proceeds : s.holding = [] → (∀ p ∈ s.permits, p.active = false) →
    ∀ i w, s.waiters[i]? = some w → ∀ expired, ∃ s', step s (.resume i expired) = some s' ∧
      s'.holding = [w.request.connection] ∧ s'.waiters = s.waiters.eraseIdx i

theorem Monitored.writer_eq_none (h : Monitored s) :
    s.holding = [] ↔ s.gate.writer = none := by
  rw [h.holding, Option.toList_eq_nil_iff]

theorem Monitored.waiters_eq_nil (h : Monitored s) :
    s.waiters = [] ↔ s.gate.waitingWriters = 0 := by
  rw [h.waiting, List.length_eq_zero_iff]

/-- The gate changes hands only over a release. -/
theorem Step.keeps_writer (h : Step s e s') {c : ConnectionIdentity} (hc : s.gate.writer = some c) :
    s'.gate.writer = some c ∨ e = .release c ∧ s'.gate.writer = none := by
  have hblocked : s.gate.blocked = true := by simp [GateState.blocked, hc]
  cases h with
  | enter h => exact absurd (hblocked.symm.trans h) (by decide)
  | proceed _ _ h => exact absurd (hblocked.symm.trans h) (by decide)
  | release h => exact .inr ⟨by rw [Option.some.inj (hc.symm.trans h)], rfl⟩
  | _ => exact .inl hc

theorem Monitored.correct (h : Monitored s) : Correct s where
  oneWriter c hc d hd := by
    rw [h.holding, Option.mem_toList] at hc hd
    exact Option.some.inj (hc.symm.trans hd)
  noReader c hc p hp := by
    rw [h.holding, Option.mem_toList] at hc
    have hnone := h.readers.symm.trans (h.alone (by simp [hc]))
    simpa using List.countP_eq_zero.mp hnone p hp
  granted c table active gate hread := by
    rcases acquireRead_cases c table s.gate
      with ⟨hown, hcase⟩ | ⟨hfree, hwaiting, hcase⟩ | ⟨-, -, err, hcase⟩
    · obtain ⟨hactive, -⟩ := Prod.mk.inj (hread.symm.trans hcase)
      refine .inr ⟨Except.ok.inj hactive, ?_⟩
      rw [h.holding, hown]
      rfl
    · obtain ⟨hactive, -⟩ := Prod.mk.inj (hread.symm.trans hcase)
      exact .inl ⟨Except.ok.inj hactive, h.writer_eq_none.mpr hfree, h.waiters_eq_nil.mpr hwaiting⟩
    · cases hread.symm.trans hcase
  admits hfree hwaiting c table := by
    rcases acquireRead_cases c table s.gate
      with ⟨hown, hcase⟩ | ⟨-, -, hcase⟩ | ⟨-, hpending, -⟩
    · rw [h.writer_eq_none.mp hfree] at hown
      cases hown
    · rw [hcase]
    · exact absurd (h.waiters_eq_nil.mp hwaiting) (hpending (h.writer_eq_none.mp hfree))
  readers := h.readers
  waiting := h.waiting
  released c hc e s' hstep := (step_inv hstep).keeps_writer hc
  proceeds hfree hpermits i w hw expired := by
    have hreaders : s.gate.readers = 0 := by
      rw [h.readers, List.countP_eq_zero]
      exact fun p hp => by simp [hpermits p hp]
    have hopen : s.gate.blocked = false :=
      blocked_eq_false.mpr ⟨h.writer_eq_none.mp hfree, hreaders⟩
    have hawake := h.awake hopen w (List.mem_of_getElem? hw)
    rcases acquireLoop_cases w.request true expired s.gate
      with ⟨hblocked, -⟩ | ⟨hblocked, -⟩ | ⟨-, hloop⟩
    · exact absurd (hblocked.symm.trans hopen) (by decide)
    · exact absurd (hblocked.symm.trans hopen) (by decide)
    · have hstep : step s (.resume i expired) =
          some ⟨⟨some w.request.connection, s.gate.readers, s.gate.waitingWriters - 1⟩,
            s.waiters.eraseIdx i, s.permits, hold w.request.connection s.holding⟩ := by
        simp only [step, hw, if_pos hawake, hloop, if_true]
      refine ⟨_, hstep, ?_, rfl⟩
      change hold _ s.holding = _
      rw [hfree]
      rfl

theorem monitored_start : Monitored .start :=
  ⟨rfl, rfl, rfl, fun h => absurd rfl h, fun _ _ hw => absurd hw List.not_mem_nil⟩

/-- **The gate is a correct monitor.** In every state of every schedule of any number of
connections the counts are those of the permits and of the threads that wait, at most one connection
writes and no other reads beside it, readers are let in exactly while nobody writes or waits to, only
the holder frees the gate, and a free gate is taken by whichever waiting writer comes first. -/
theorem gate_correct (events : List Event) : Throughout step Correct .start events :=
  throughout_of_step (fun _ _ _ hs h _ => monitored_step hs (step_inv h))
    (fun _ hs => hs.correct) monitored_start (along_of_forall (fun _ _ => trivial) _ _)

end Timeless.Shared
