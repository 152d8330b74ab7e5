import Timeless.LogsQL.Time

/-!
# Pairs — lists of `name=value`

Logfmt texts and the parameters of syslog's structured data are read by one loop. A name ends at `=` or
a blank; a value that begins with a quote is read by the format's own reader of quoted texts, and any
other value ends at a blank.
-/

namespace Timeless.LogsQL

open Support Codec Blocks

/-- What is read behind a blank. -/
def behindBlank (read : Text → List (Text × Text)) : Text → List (Text × Text)
  | ' ' :: rest => read rest
  | _ => []

/-- Every turn of the loop takes a character off the text. -/
def readPairs (unquote : Text → Option (Text × Text)) (add : Text → Text → List (Text × Text)) :
    (fuel : Nat) → Text → List (Text × Text)
  | 0, _ => []
  | fuel + 1, source =>
      let name := source.takeWhile fun ch => ch ≠ '=' && ch ≠ ' '
      match source.dropWhile fun ch => ch ≠ '=' && ch ≠ ' ' with
      | [] => add source []
      | separator :: source =>
          if separator = ' ' then add name [] ++ readPairs unquote add fuel source
          else if source.isEmpty then add name []
          else match unquote source with
            | some (value, rest) =>
                add name value ++ behindBlank (readPairs unquote add fuel) rest
            | none =>
                match source.dropWhile (· ≠ ' ') with
                | [] => add name source
                | _ :: rest =>
                    add name (source.takeWhile (· ≠ ' ')) ++ readPairs unquote add fuel rest

section

variable {unquote : Text → Option (Text × Text)} {add : Text → Text → List (Text × Text)}
  {name : Text}

/-- A turn of the loop at a name: the value behind it is read. -/
theorem readPairs_name (h : ∀ ch ∈ name, ch ≠ '=' ∧ ch ≠ ' ') (fuel : Nat) (source : Text) :
    readPairs unquote add (fuel + 1) (name ++ '=' :: source) =
      if source.isEmpty then add name []
      else match unquote source with
        | some (value, rest) =>
            add name value ++ behindBlank (readPairs unquote add fuel) rest
        | none =>
            match source.dropWhile (· ≠ ' ') with
            | [] => add name source
            | _ :: rest =>
                add name (source.takeWhile (· ≠ ' ')) ++ readPairs unquote add fuel rest := by
  have hname : ∀ ch ∈ name, (decide (ch ≠ '=') && decide (ch ≠ ' ')) = true := by
    intro ch hch
    simp [h ch hch]
  rw [readPairs, List.takeWhile_append_of_pos hname, List.dropWhile_append_of_pos hname]
  simp

theorem readPairs_quoted {source value rest : Text} (h : ∀ ch ∈ name, ch ≠ '=' ∧ ch ≠ ' ')
    (fuel : Nat) (hsome : unquote source = some (value, rest)) (hne : source ≠ []) :
    readPairs unquote add (fuel + 1) (name ++ '=' :: source) =
      add name value ++ behindBlank (readPairs unquote add fuel) rest := by
  rw [readPairs_name h, if_neg (by simp [hne]), hsome]

/-- A value that is no quoted text ends at a blank. -/
theorem readPairs_bare {source : Text} (h : ∀ ch ∈ name, ch ≠ '=' ∧ ch ≠ ' ') (fuel : Nat)
    (hnone : unquote source = none) (hne : source ≠ []) :
    ∃ more, readPairs unquote add (fuel + 1) (name ++ '=' :: source) =
      add name (source.takeWhile (· ≠ ' ')) ++ more := by
  rw [readPairs_name h, if_neg (by simp [hne]), hnone]
  cases hdrop : source.dropWhile (· ≠ ' ') with
  | nil =>
      have htake := List.takeWhile_append_dropWhile (p := (· ≠ ' ')) (l := source)
      rw [hdrop, List.append_nil] at htake
      exact ⟨[], by rw [htake, List.append_nil]⟩
  | cons ch rest => exact ⟨_, rfl⟩

end

theorem length_mul_le_flatMap {α β : Type} {f : α → List β} {n : Nat} (h : ∀ a, n ≤ (f a).length)
    (l : List α) : l.length * n ≤ (l.flatMap f).length := by
  induction l with
  | nil => simp
  | cons a l ih =>
      rw [List.flatMap_cons, List.length_append, List.length_cons, Nat.succ_mul]
      have := h a
      omega

theorem length_le_flatMap {α β : Type} {f : α → List β} (h : ∀ a, f a ≠ []) (l : List α) :
    l.length ≤ (l.flatMap f).length := by
  simpa using length_mul_le_flatMap (fun a => List.length_pos_iff.mpr (h a)) l

theorem trim_eq_self {t : Text} (h : ∀ ch ∈ t, isWhiteSpace ch = false) : trim t = t := by
  have hdrop : ∀ t : Text, (∀ ch ∈ t, isWhiteSpace ch = false) → t.dropWhile isWhiteSpace = t := by
    intro t ht
    cases t with
    | nil => rfl
    | cons ch t => rw [List.dropWhile_cons_of_neg (by simp [ht ch List.mem_cons_self])]
  rw [trim, hdrop t h, hdrop _ fun ch hch => h ch (List.mem_reverse.mp hch), List.reverse_reverse]

end Timeless.LogsQL
