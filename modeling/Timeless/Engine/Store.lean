import Timeless.Engine.Plan
import Timeless.Support.Journal
import Timeless.Support.Program

/-!
# Store — the table of blocks

An engine persists through a table of blocks with row ids, inside a transaction of its host. The
table hands out row ids that no present row has; an id of a deleted row may come again. Every call
may fail: `StoreEnv` fixes for each call, counted over the life of the store, whether it does and
which ids it hands out. A failed insertion may leave some of its rows behind, any other call that
fails changes nothing.

Two lifetime counters are kept beside the rows, in the same transaction.
-/

namespace Timeless.Engine

open Support Blocks

variable {E R : Type}

/-- A block as it goes to the store: what is known of it, its bytes and its index data. -/
structure Encoded (R : Type) where
  blockMeta : BlockMeta
  data : List UInt8
  extra : R

/-- A block in the store. -/
structure Row (R : Type) extends Encoded R where
  id : Int

/-- The persistent side; `calls` counts the calls made so far and is not part of what is stored. -/
structure Store (R : Type) where
  rows : List (Row R)
  distinct : (rows.map Row.id).Nodup
  ingestRawTotal : Nat
  compressionTotals : Nat × Nat
  calls : Nat

/-- The ids of the rows. -/
def Store.ids (s : Store R) : List Int :=
  s.rows.map Row.id

/-- How the store answers: failures, and the ids of new rows. -/
structure StoreEnv where
  fault : Nat → Option String
  /-- rows an insertion has written before it fails -/
  written : Nat → Nat
  newIds : Nat → List Int → Nat → List Int
  length_newIds : ∀ call ids n, (newIds call ids n).length = n
  nodup_newIds : ∀ call ids n, (newIds call ids n).Nodup
  fresh_newIds : ∀ call ids n, ∀ id ∈ newIds call ids n, id ∉ ids

theorem le_foldl_max (ids : List Int) (m : Int) :
    m ≤ ids.foldl max m ∧ ∀ id ∈ ids, id ≤ ids.foldl max m := by
  induction ids generalizing m with
  | nil => simp
  | cons id ids ih =>
      obtain ⟨hm, hids⟩ := ih (max m id)
      refine ⟨(le_max_left m id).trans hm, ?_⟩
      rintro id' (_ | ⟨_, hid'⟩)
      · exact (le_max_right m id).trans hm
      · exact hids id' hid'

/-- A store that never fails; a new row gets the number after the largest there is. -/
def StoreEnv.reliable : StoreEnv where
  fault _ := none
  written _ := 0
  newIds _ ids n := (List.range n).map fun i : Nat => ids.foldl max 0 + 1 + (i : Int)
  length_newIds _ _ n := by simp
  nodup_newIds _ ids n := by
    refine (List.nodup_range).map fun i j h => ?_
    simpa using h
  fresh_newIds _ ids n := by
    rintro id hid hold
    obtain ⟨i, -, rfl⟩ := List.mem_map.mp hid
    have := (le_foldl_max ids 0).2 _ hold
    omega

/-- A store that was never called. -/
def Store.empty : Store R := ⟨[], List.nodup_nil, 0, (0, 0), 0⟩

namespace Store

variable (s : Store R) (env : StoreEnv)

/-- Count a call. -/
def called : Store R :=
  { s with calls := s.calls + 1 }

/-- The rows that an insertion would add. -/
def newRows (blocks : List (Encoded R)) : List (Row R) :=
  List.zipWith (fun b id => ⟨b, id⟩) blocks (env.newIds s.calls s.ids blocks.length)

theorem newRows_ids (blocks : List (Encoded R)) :
    (s.newRows env blocks).map Row.id = env.newIds s.calls s.ids blocks.length := by
  rw [newRows, List.map_zipWith]
  have hlen := env.length_newIds s.calls s.ids blocks.length
  generalize env.newIds s.calls s.ids blocks.length = ids at hlen
  induction blocks generalizing ids with
  | nil => simpa using (List.length_eq_zero_iff.mp hlen).symm
  | cons b blocks ih =>
      obtain _ | ⟨id, ids⟩ := ids
      · simp at hlen
      · simpa using ih ids (by simpa using hlen)

/-- Insert the first `n` of some blocks. -/
def insert (blocks : List (Encoded R)) (n : Nat) : Store R :=
  { s with
    rows := s.rows ++ (s.newRows env blocks).take n
    distinct := by
      rw [List.map_append, List.nodup_append', List.map_take, s.newRows_ids]
      refine ⟨s.distinct, (env.nodup_newIds _ _ _).sublist (List.take_sublist _ _), ?_⟩
      exact fun id hid hnew => env.fresh_newIds _ _ _ id (List.mem_of_mem_take hnew) hid
    calls := s.calls + 1 }

/-- Delete rows, all or, in a failing call, none. The shadow store deletes the terms, then the rows, in
two statements: that only the second fails is not modelled. -/
def delete (ids : List Int) : Store R :=
  { s with
    rows := s.rows.filter fun r => r.id ∉ ids
    distinct := s.distinct.sublist (List.filter_sublist.map _)
    calls := s.calls + 1 }

/-- Change the index data of the rows, leaving the blocks alone. -/
def mapExtra (f : Row R → R) : Store R :=
  { s with
    rows := s.rows.map fun r => { r with extra := f r }
    distinct := by simpa [Function.comp_def] using s.distinct
    calls := s.calls + 1 }

/-- The row of an id. -/
def find (id : Int) : Option (Row R) :=
  s.rows.find? fun r => r.id = id

/-- What the host brings back when it undoes a transaction. -/
def restore (saved : Store R) : Store R :=
  { saved with calls := s.calls }

end Store

end Timeless.Engine
