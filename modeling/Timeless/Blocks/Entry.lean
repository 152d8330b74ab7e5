import Timeless.Codec.Column
import Timeless.Support.OrdMap

/-!
# Entry — log entries and their metadata

A log entry is a timestamp, a level byte, a message and metadata. A *rich* entry also keeps its
exact severity, or its metadata as a typed JSON object; a legacy entry has only the flat pairs.

JSON itself is a library's: `SerdeJson` is what the blocks use of it, a parser and a printer over a
type of values whose numbers are left abstract.
-/

namespace Timeless.Blocks

open Support Codec

/-! ### Levels -/

/-- The names of the levels 0 to 3. -/
def levelNames : List Text :=
  ["debug".toList, "info".toList, "warning".toList, "error".toList]

/-- The error for another name. -/
def unknownLevel (name : Text) : String :=
  let shown := String.ofList name
  s!"unknown log level \"{shown}\"; expected one of: debug, info, notice, warning, warn, error, critical, alert, emergency"

/-- The spelling under which an accepted severity is kept. -/
def canonicalSeverity (name : Text) : Except String Text :=
  if name ∈ ["debug".toList, "info".toList, "notice".toList, "warning".toList, "error".toList,
      "critical".toList, "alert".toList, "emergency".toList] then .ok name
  else if name = "warn".toList then .ok "warning".toList
  else .error (unknownLevel name)

/-- The level of a severity. -/
def levelFromName (name : Text) : Except String UInt8 :=
  if name = "debug".toList then .ok 0
  else if name ∈ ["info".toList, "notice".toList] then .ok 1
  else if name ∈ ["warning".toList, "warn".toList] then .ok 2
  else if name ∈ ["error".toList, "critical".toList, "alert".toList, "emergency".toList] then .ok 3
  else .error (unknownLevel name)

/-- The name of a level. -/
def levelName (level : UInt8) : Text :=
  levelNames.getD level.toNat []

/-! ### Entries -/

/-- One log entry: what the buffer holds and blocks store. -/
structure LogEntry where
  ts : Int64
  level : UInt8
  severity : Option Text
  message : Text
  metadata : List (Text × Text)
  metadataJson : Option Text
  deriving DecidableEq

namespace LogEntry

/-- The severity, or the name of the level. -/
def severityName (e : LogEntry) : Text :=
  e.severity.getD (levelName e.level)

/-- Does the entry need a rich codec? -/
def isRich (e : LogEntry) : Bool :=
  e.severity.isSome || e.metadataJson.isSome

end LogEntry

/-- What the store and the index know of a block. -/
structure BlockMeta where
  tsMin : Int64
  tsMax : Int64
  entryCount : Nat
  codec : UInt8
  deriving DecidableEq

/-! ### JSON -/

/-- A JSON value over an abstract type of numbers; an object lists its fields in key order. -/
inductive Json (N : Type) where
  | null
  | bool (b : Bool)
  | number (n : N)
  | string (s : Text)
  | array (xs : List (Json N))
  | object (fields : List (Text × Json N))

/-- The JSON library: a parser and a printer. -/
structure SerdeJson (N : Type) where
  fromStr : Text → Except String (Json N)
  toStr : Json N → Except String Text

variable {N : Type} (js : SerdeJson N)

/-- Strict order of `str`. -/
def textLt (a b : Text) : Bool :=
  !textLe b a

theorem textLe_total (a b : Text) : textLe a b = true ∨ textLe b a = true := by
  induction a generalizing b with
  | nil => exact .inl (by simp [textLe])
  | cons x s ih =>
      cases b with
      | nil => exact .inr (by simp [textLe])
      | cons y t =>
          simp only [textLe, Bool.or_eq_true, Bool.and_eq_true, decide_eq_true_eq, beq_iff_eq]
          rcases Nat.lt_trichotomy x.toNat y.toNat with h | h | h
          · exact .inl (.inl h)
          · obtain rfl := Char.toNat_inj.mp h
            rcases ih t with h | h
            · exact .inl (.inr ⟨rfl, h⟩)
            · exact .inr (.inr ⟨rfl, h⟩)
          · exact .inr (.inl h)

theorem textLe_trans {a b c : Text} (hab : textLe a b = true) (hbc : textLe b c = true) :
    textLe a c = true := by
  induction a generalizing b c with
  | nil => simp [textLe]
  | cons x s ih =>
      cases b with
      | nil => simp [textLe] at hab
      | cons y t =>
          cases c with
          | nil => simp [textLe] at hbc
          | cons z u =>
              simp only [textLe, Bool.or_eq_true, Bool.and_eq_true, decide_eq_true_eq,
                beq_iff_eq] at *
              rcases hab with hlt | ⟨rfl, hab⟩
              · rcases hbc with hlt' | ⟨rfl, -⟩
                · exact .inl (by omega)
                · exact .inl hlt
              · rcases hbc with hlt' | ⟨rfl, hbc⟩
                · exact .inl hlt'
                · exact .inr ⟨rfl, ih hab hbc⟩

theorem textLe_antisymm {a b : Text} (hab : textLe a b = true) (hba : textLe b a = true) :
    a = b := by
  induction a generalizing b with
  | nil =>
      cases b with
      | nil => rfl
      | cons y t => simp [textLe] at hba
  | cons x s ih =>
      cases b with
      | nil => simp [textLe] at hab
      | cons y t =>
          simp only [textLe, Bool.or_eq_true, Bool.and_eq_true, decide_eq_true_eq, beq_iff_eq] at *
          rcases hab with hlt | ⟨rfl, hab⟩
          · rcases hba with hlt' | ⟨rfl, -⟩ <;> omega
          · rcases hba with hlt' | ⟨-, hba⟩
            · omega
            · rw [ih hab hba]

theorem textLt_linear : OrdMap.Linear textLt where
  irrefl a := by
    rcases textLe_total a a with h | h <;> simp [textLt, h]
  trans a b c hab hbc := by
    simp only [textLt, Bool.not_eq_true', ← Bool.not_eq_true] at *
    intro hca
    rcases textLe_total b c with h | h
    · exact hab (textLe_trans h hca)
    · exact hbc h
  total a b hab hba := by
    simp only [textLt, Bool.not_eq_false'] at hab hba
    exact textLe_antisymm hba hab

theorem sorted_sortedKeys (strs : List Text) :
    (sortedKeys strs).Pairwise fun a b => textLe a b = true := by
  have : Std.Total fun a b => textLe a b = true := ⟨textLe_total⟩
  have : IsTrans Text fun a b => textLe a b = true := ⟨fun _ _ _ => textLe_trans⟩
  exact List.pairwise_insertionSort _ _

theorem pairwise_sortedKeys (strs : List Text) :
    (sortedKeys strs).Pairwise fun a b => textLt a b = true := by
  have hnodup : (sortedKeys strs).Nodup :=
    (List.perm_insertionSort _ _).nodup_iff.mpr (List.nodup_dedup strs)
  refine ((sorted_sortedKeys strs).and hnodup).imp fun {a b} ⟨hle, hne⟩ => ?_
  rw [textLt, Bool.not_eq_true', ← Bool.not_eq_true]
  exact fun hba => hne (textLe_antisymm hle hba)

theorem sortedKeys_congr {xs ys : List Text} (h : ∀ t, t ∈ xs ↔ t ∈ ys) :
    sortedKeys xs = sortedKeys ys := by
  have hperm : xs.dedup.Perm ys.dedup :=
    (List.perm_ext_iff_of_nodup (List.nodup_dedup xs) (List.nodup_dedup ys)).mpr fun t => by
      rw [List.mem_dedup, List.mem_dedup, h]
  refine List.Perm.eq_of_pairwise (fun _ _ _ _ hab hba => textLe_antisymm hab hba)
    (sorted_sortedKeys xs) (sorted_sortedKeys ys) ?_
  exact (List.perm_insertionSort _ _).trans (hperm.trans (List.perm_insertionSort _ _).symm)

/-- An object with its keys in order. -/
def canonicalMetadataJson (json : Text) : Except String Text := do
  match ← (js.fromStr json).mapError (fun e => s!"metadata JSON: {e}") with
  | .object fields =>
      (js.toStr (.object (OrdMap.ofList textLt fields))).mapError
        fun e => s!"metadata JSON encode: {e}"
  | _ => throw "metadata JSON must be an object"

/-- Pairs as an object of strings. -/
def pairsMetadataJson (metadata : List (Text × Text)) : Except String Text :=
  (js.toStr (.object (OrdMap.ofList textLt (metadata.map fun p => (p.1, .string p.2))))).mapError
    fun e => s!"metadata JSON encode: {e}"

/-- The text of a value as a metadata value: a string verbatim, anything else printed. -/
def metadataValue : Json N → Text
  | .string s => s
  | other => ((js.toStr other).toOption).getD []

/-- The fields of an object as pairs of texts. -/
def metadataPairsFromJson (json : Text) : Except String (List (Text × Text)) := do
  match ← (js.fromStr json).mapError (fun e => s!"metadata JSON: {e}") with
  | .object fields => return fields.map fun p => (p.1, metadataValue js p.2)
  | _ => throw "metadata JSON must be an object"

end Timeless.Blocks
