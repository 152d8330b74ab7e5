import Mathlib.Data.List.TakeWhile
import Timeless.Blocks.Metadata

/-!
# Time — native timestamps of log tables

A log table stores timestamps in milliseconds or microseconds. Filters speak of instants, in
nanoseconds from the epoch; this module has the units and the pieces of text that the filters on time
are parsed with.
-/

namespace Timeless.LogsQL

open Support Codec Blocks

inductive TimestampUnit where
  | milliseconds
  | microseconds
  deriving DecidableEq

def timestampUnitNanoseconds : TimestampUnit → Int
  | .milliseconds => 1000000
  | .microseconds => 1000

/-- The instant of a native timestamp. -/
def instant (unit : TimestampUnit) (timestamp : Int64) : Int :=
  timestamp.toInt * timestampUnitNanoseconds unit

/-- A row as storage returns it. -/
structure QueryRow where
  ts : Int64
  level : Text
  message : Text
  metadataJson : Text
  deriving DecidableEq

def saturatingAdd (a b : Int64) : Int64 := .ofIntClamp (a.toInt + b.toInt)

/-- A sum in the range of the type is not clamped. -/
theorem saturatingAdd_exact {a b : Int64} (hlow : Int64.minValue.toInt ≤ a.toInt + b.toInt)
    (hhigh : a.toInt + b.toInt ≤ Int64.maxValue.toInt) :
    (saturatingAdd a b).toInt = a.toInt + b.toInt :=
  Int64.toInt_ofIntClamp hlow hhigh

/-! ### Texts -/

/-- The property `White_Space` of a character. -/
def isWhiteSpace (ch : Char) : Bool :=
  let n := ch.toNat
  (9 ≤ n && n ≤ 13) || n == 0x20 || n == 0x85 || n == 0xA0 || n == 0x1680 ||
    (0x2000 ≤ n && n ≤ 0x200A) || n == 0x2028 || n == 0x2029 || n == 0x202F || n == 0x205F ||
    n == 0x3000

def trim (t : Text) : Text :=
  ((t.dropWhile isWhiteSpace).reverse.dropWhile isWhiteSpace).reverse

/-- Trimming starts at the first character if that is not a space. -/
theorem trim_cons {ch : Char} (h : isWhiteSpace ch = false) (t : Text) :
    ∃ rest, trim (ch :: t) = ch :: rest := by
  rw [trim, List.dropWhile_cons_of_neg (by simp [h]), List.reverse_cons]
  have hkeep : ∀ xs : Text, ∃ ys, (xs ++ [ch]).dropWhile isWhiteSpace = ys ++ [ch] := by
    intro xs
    induction xs with
    | nil => exact ⟨[], by simp [h]⟩
    | cons x xs ih =>
        by_cases hx : isWhiteSpace x = true
        · rw [List.cons_append, List.dropWhile_cons_of_pos hx]
          exact ih
        · exact ⟨x :: xs, by rw [List.cons_append, List.dropWhile_cons_of_neg hx]⟩
  obtain ⟨ys, hys⟩ := hkeep t.reverse
  exact ⟨ys.reverse, by rw [hys]; simp⟩

theorem mem_trim {ch : Char} (h : isWhiteSpace ch = false) {t : Text} : ch ∈ trim t ↔ ch ∈ t := by
  have hdrop : ∀ xs : Text, ch ∈ xs.dropWhile isWhiteSpace ↔ ch ∈ xs := by
    intro xs
    refine ⟨fun hmem => (List.dropWhile_sublist _).subset hmem, fun hmem => ?_⟩
    rw [← List.takeWhile_append_dropWhile (p := isWhiteSpace) (l := xs)] at hmem
    rcases List.mem_append.mp hmem with hspace | hrest
    · rw [List.mem_takeWhile_imp hspace] at h
      cases h
    · exact hrest
  rw [trim, List.mem_reverse, hdrop, List.mem_reverse, hdrop]

/-- The text before the first `sep` and the text after it. -/
def splitOnce (sep : Char) (t : Text) : Option (Text × Text) :=
  match t.dropWhile (· ≠ sep) with
  | [] => none
  | _ :: rest => some (t.takeWhile (· ≠ sep), rest)

/-- Words between blanks, behind a part of the first one. -/
def wordsFrom (blank : Char → Bool) (word : Text) : Text → List Text
  | [] => if word = [] then [] else [word]
  | ch :: t =>
      if blank ch then
        if word = [] then wordsFrom blank [] t else word :: wordsFrom blank [] t
      else wordsFrom blank (word ++ [ch]) t

/-- The words between white space. -/
def splitWhitespace : Text → List Text :=
  wordsFrom isWhiteSpace []

end Timeless.LogsQL
