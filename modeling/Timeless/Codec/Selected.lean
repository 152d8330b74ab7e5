import Timeless.Codec.Column
import Mathlib.Data.List.GetD
import Mathlib.Data.List.TakeWhile

/-!
# Selected — some rows of a string column

A caller that has judged the rows by cheaper columns decodes only the strings it needs. The whole
column is still checked, but only the rows asked for are kept. They are asked for in increasing order
(`RowsIn`), and one walk over the column meets them all:

* `decodeStrSelected_eq_ok`: whatever the bytes, the walk accepts rows in increasing order of bytes
  that hold strings, as the whole decoder does, and returns the strings of those rows;
* `decodeStrSelected_encodeStr`: so the rows come back, whichever strategy wrote the column;
* `decodeStrSelected_over`: and a column over the decoder's cap is an error.
-/

namespace Timeless.Codec

open Support

/-! ### Decoding -/

/-- Rows to be read have to increase within the column. -/
def checkSelected (n : Nat) (selected : List Nat) : Except String Unit :=
  rejectIf ((selected.zip selected.tail).any (fun pair => pair.2 ≤ pair.1) = true ∨
      selected.getLast?.any (fun i => n ≤ i) = true)
    "string column: selected rows must be strictly increasing and in range"

/-- Walk over strings; `row` is the number of the next one. -/
def readSelected : (n row : Nat) → (selected : List Nat) → ReadM (List Text)
  | 0, _, _ => return []
  | n + 1, row, selected => do
      let len ← u32 "string length"
      let b ← take len "string bytes"
      match fromUtf8 b with
      | none => throw s!"string column: value {row} is not valid UTF-8"
      | some value =>
          if selected.head? = some row then
            return value :: (← readSelected n (row + 1) selected.tail)
          else readSelected n (row + 1) selected

/-- Walk over runs of dictionary codes; also returns the number of rows that were passed. -/
def pickRuns (dict : List Text) (n : Nat) :
    (row : Nat) → (selected : List Nat) → List (Nat × Nat) → Except String (List Text × Nat)
  | row, _, [] => .ok ([], row)
  | row, selected, (run, code) :: pairs => do
      let dictLen := dict.length
      rejectIf (dictLen ≤ code) s!"string column: code {code} out of range (dict has {dictLen})"
      rejectIf (run = 0 ∨ n < row + run) s!"string column: RLE runs sum past expected count {n}"
      let here := selected.takeWhile (· < row + run)
      let (out, passed) ←
        pickRuns dict n (row + run) (selected.dropWhile (· < row + run)) pairs
      return (here.map (fun _ => dict.getD code []) ++ out, passed)

/-- The texts of some rows of a column. -/
def decodeStrSelected (c : Compressors) (bytes : List UInt8) (n : Nat) (selected : List Nat) :
    Except String (List Text) := do
  checkSelected n selected
  let (enc, payload) ← readColumnFrame bytes "string column"
  if enc = encStrZstd then
    let raw ← zstdDecompressCapped c payload "string column" decompressMaxBytes
    Reader.run raw do
      let out ← readSelected n 0 selected
      let left ← remaining
      rejectIf (left ≠ 0) "string column: trailing bytes after last string"
      return out
  else if enc = encStrDict then
    let (dictCount, dictZstd, codesZstd) ← readDictPayload payload
    let dictRaw ← zstdDecompressCapped c dictZstd "string dictionary" decompressMaxBytes
    validateMinimumEncodedLen dictCount 4 dictRaw.length "string dictionary"
    let dict ← readDict dictCount dictRaw
    let codesRaw ← zstdDecompressCapped c codesZstd "string codes" decompressMaxBytes
    let pairs ← readCodeRuns codesRaw
    let (out, row) ← pickRuns dict n 0 selected pairs
    rejectIf (row ≠ n) s!"string column: RLE expanded to {row} values, expected {n}"
    return out
  else throw s!"string column: unknown encoding id {enc}"

/-! ### The rows that are met -/

/-- Increasing row numbers within `n` rows from `row` on. -/
structure RowsIn (row n : Nat) (selected : List Nat) : Prop where
  increasing : selected.Pairwise (· < ·)
  bounds : ∀ i ∈ selected, row ≤ i ∧ i < row + n

variable {selected : List Nat} {row n : Nat}

theorem RowsIn.tail {i : Nat} (h : RowsIn row (n + 1) (i :: selected)) :
    RowsIn (row + 1) n selected := by
  obtain ⟨hi, hsel⟩ := List.pairwise_cons.mp h.increasing
  refine ⟨hsel, fun j hj => ?_⟩
  have := h.bounds i List.mem_cons_self
  have := h.bounds j (List.mem_cons_of_mem _ hj)
  have := hi j hj
  omega

/-- Rows that do not start with the next one are all after it. -/
theorem RowsIn.after (h : RowsIn row (n + 1) selected) (hhead : selected.head? ≠ some row) :
    RowsIn (row + 1) n selected := by
  cases selected with
  | nil => exact ⟨h.increasing, by simp⟩
  | cons i selected =>
      have hne : i ≠ row := fun heq => hhead (by rw [heq, List.head?_cons])
      have hi := h.bounds i List.mem_cons_self
      have hrest := h.tail
      refine ⟨h.increasing, fun j hj => ?_⟩
      rcases List.mem_cons.mp hj with rfl | hj
      · omega
      · have := hrest.bounds j hj
        omega

/-- Neighbours that increase, and a last row within the count, are increasing rows. -/
theorem checkSelected_eq_ok {u : Unit} :
    checkSelected n selected = .ok u ↔ RowsIn 0 n selected := by
  have hpairs : (selected.zip selected.tail).any (fun pair => pair.2 ≤ pair.1) = false ↔
      selected.Pairwise (· < ·) := by
    rw [← List.isChain_iff_pairwise]
    induction selected with
    | nil => simp
    | cons i selected ih =>
        cases selected with
        | nil => simp
        | cons j selected =>
            rw [List.isChain_cons_cons, ← ih]
            simp
  have hlast (hinc : selected.Pairwise (· < ·)) : selected.getLast?.any (fun i => n ≤ i) = false ↔
      ∀ i ∈ selected, i < n := by
    rcases List.eq_nil_or_concat' selected with rfl | ⟨front, last, rfl⟩
    · simp
    · have hle : ∀ i ∈ front, i < last := fun i hi =>
        (List.pairwise_append.mp hinc).2.2 i hi last (List.mem_singleton_self last)
      rw [List.getLast?_concat]
      simp only [Option.any_some, decide_eq_false_iff_not, not_le, List.mem_append,
        List.mem_singleton]
      refine ⟨fun hlast i hi => ?_, fun h => h last (.inr rfl)⟩
      rcases hi with hi | rfl
      · exact (hle i hi).trans hlast
      · exact hlast
  rw [checkSelected, rejectIf_eq_ok, not_or, Bool.not_eq_true, Bool.not_eq_true, hpairs]
  constructor
  · rintro ⟨hinc, h⟩
    refine ⟨hinc, fun i hi => ⟨Nat.zero_le i, ?_⟩⟩
    rw [Nat.zero_add]
    exact (hlast hinc).mp h i hi
  · rintro ⟨hinc, h⟩
    refine ⟨hinc, (hlast hinc).mpr fun i hi => ?_⟩
    have := (h i hi).2
    omega

/-- The walk over strings reads them all, and keeps the rows asked for. -/
theorem readSelected_eq (h : RowsIn row n selected) :
    readSelected n row selected = do
      let ts ← readTexts "string length" "string bytes"
        (fun i => s!"string column: value {i} is not valid UTF-8") n row
      return selected.map fun i => ts.getD (i - row) [] := by
  induction n generalizing row selected with
  | zero =>
      have hnone : selected = [] := List.eq_nil_iff_forall_not_mem.mpr fun i hi => by
        have := h.bounds i hi
        omega
      rw [hnone]
      rfl
  | succ n ih =>
      rw [readSelected, readTexts]
      simp only [bind_assoc]
      congr 1
      funext len
      congr 1
      funext b
      cases fromUtf8 b with
      | none => rfl
      | some t =>
          have hafter (ts : List Text) {i : Nat} (hi : row + 1 ≤ i) :
              (t :: ts).getD (i - row) [] = ts.getD (i - (row + 1)) [] := by
            rw [show i - row = i - (row + 1) + 1 by omega, List.getD_cons_succ]
          dsimp only
          split_ifs with hhead
          · cases selected with
            | nil => cases hhead
            | cons i selected =>
                obtain rfl := Option.some.inj hhead
                have hsel := h.tail
                rw [List.tail_cons, ih hsel]
                simp only [bind_assoc, pure_bind]
                congr 1
                funext ts
                rw [List.map_cons, Nat.sub_self, List.getD_cons_zero,
                  List.map_congr_left fun j hj => hafter ts (hsel.bounds j hj).1]
          · have hsel := h.after hhead
            rw [ih hsel]
            simp only [bind_assoc, pure_bind]
            congr 1
            funext ts
            rw [List.map_congr_left fun j hj => hafter ts (hsel.bounds j hj).1]

/-- What is left of increasing rows after those below a bound. -/
theorem RowsIn.dropWhile {run : Nat} (h : RowsIn row (run + n) selected) :
    RowsIn (row + run) n (selected.dropWhile (· < row + run)) := by
  have hsub := List.dropWhile_sublist (l := selected) (p := (· < row + run))
  refine ⟨h.increasing.sublist hsub, fun j hj => ?_⟩
  have hj' := h.bounds j (hsub.subset hj)
  have hinc := h.increasing.sublist hsub
  have hhead := List.head?_dropWhile_not (p := (· < row + run)) selected
  generalize selected.dropWhile (· < row + run) = rest at hj hinc hhead
  cases rest with
  | nil => cases hj
  | cons i rest =>
      rw [List.head?_cons] at hhead
      simp only [decide_eq_false_iff_not] at hhead
      have hle : i ≤ j := by
        rcases List.mem_cons.mp hj with rfl | hj
        · exact le_refl _
        · exact ((List.pairwise_cons.mp hinc).1 j hj).le
      omega

theorem pickRuns_eq {dict : List Text} {pairs : List (Nat × Nat)}
    (hp : ∀ r ∈ pairs, 0 < r.1 ∧ r.2 < dict.length) (hn : row + (expand pairs).length ≤ n)
    (h : RowsIn row (expand pairs).length selected) :
    pickRuns dict n row selected pairs =
      .ok (selected.map fun i => ((expand pairs).map fun code => dict.getD code []).getD (i - row) [],
        row + (expand pairs).length) := by
  induction pairs generalizing row selected with
  | nil =>
      have hnone : selected = [] := List.eq_nil_iff_forall_not_mem.mpr fun i hi => by
        have := h.bounds i hi
        simp only [expand, List.flatMap_nil, List.length_nil] at this
        omega
      rw [hnone]
      rfl
  | cons r pairs ih =>
      obtain ⟨run, code⟩ := r
      obtain ⟨hpos, hcode⟩ := hp _ List.mem_cons_self
      have hexp : (expand ((run, code) :: pairs)).length = run + (expand pairs).length := by
        simp [expand_cons]
      rw [hexp] at hn h ⊢
      simp only at hpos hcode
      have hrest := ih (fun r hr => hp r (List.mem_cons_of_mem _ hr)) (by omega) h.dropWhile
      simp only [pickRuns]
      rw [rejectIf_neg (by omega), ok_bind, rejectIf_neg (by omega), ok_bind, hrest, ok_bind]
      refine congrArg Except.ok (Prod.ext ?_ (Nat.add_assoc _ _ _))
      have hwhole : (expand ((run, code) :: pairs)).map (fun code => dict.getD code []) =
          List.replicate run (dict.getD code []) ++
            (expand pairs).map fun code => dict.getD code [] := by
        rw [expand_cons, List.map_append, List.map_replicate]
      dsimp only
      rw [hwhole]
      conv_rhs => rw [← List.takeWhile_append_dropWhile (p := (· < row + run)) (l := selected)]
      rw [List.map_append]
      refine congrArg₂ (· ++ ·) (List.map_congr_left fun i hi => ?_)
        (List.map_congr_left fun i hi => ?_)
      · have hlt : i < row + run := by simpa using List.mem_takeWhile_imp hi
        have := h.bounds i (List.takeWhile_sublist _ |>.subset hi)
        rw [List.getD_append _ _ _ _ (by rw [List.length_replicate]; omega),
          List.getD_replicate _ (by omega)]
      · have := h.dropWhile.bounds i hi
        rw [List.getD_append_right _ _ _ _ (by rw [List.length_replicate]; omega),
          List.length_replicate, Nat.sub_sub]

/-- The walk over runs passes those that the decoder's check passes. -/
theorem pickRuns_passed (dict : List Text) (n row : Nat) (selected : List Nat)
    (pairs : List (Nat × Nat)) :
    (pickRuns dict n row selected pairs).map Prod.snd = checkCodeRuns dict.length n row pairs := by
  induction pairs generalizing row selected with
  | nil => rfl
  | cons r pairs ih =>
      obtain ⟨run, code⟩ := r
      rw [pickRuns, checkCodeRuns]
      by_cases hcode : dict.length ≤ code
      · rw [rejectIf_pos hcode]
        rfl
      by_cases hrun : run = 0 ∨ n < row + run
      · rw [rejectIf_neg hcode, ok_bind, rejectIf_pos hrun]
        rfl
      simp only [rejectIf_neg hcode, rejectIf_neg hrun, ok_bind,
        ← ih (row + run) (selected.dropWhile (· < row + run))]
      cases pickRuns dict n (row + run) (selected.dropWhile (· < row + run)) pairs <;> rfl

/-! ### Columns -/

variable {c : Compressors}

/-- **Selected strings.** Of whatever bytes, the rows asked for are returned exactly if they increase
within the count and the bytes hold as many strings. -/
theorem decodeStrSelected_eq_ok {bytes : List UInt8} {out : List Text} :
    decodeStrSelected c bytes n selected = .ok out ↔ RowsIn 0 n selected ∧
      ∃ strs, decodeStr c bytes n = .ok strs ∧ out = selected.map fun i => strs.getD i [] := by
  rw [decodeStrSelected, bind_eq_ok]
  simp only [checkSelected_eq_ok, decodeStr_eq_ok, and_assoc]
  refine (exists_const Unit).trans (and_congr_right fun hsel => ?_)
  refine stringColumn_eq_ok
    (Q := fun ts out => ts.length = n ∧ out = selected.map fun i => ts.getD i [])
    (fun dict _ => ?_) (fun raw => ?_) fun dict pairs _ => ?_
  · exact validateMinimum_lenPrefixed dict _
  · rw [readSelected_eq hsel]
    simp only [bind_assoc, pure_bind, run_texts_eq_ok]
    refine exists_congr fun ts => ?_
    rw [eq_comm (a := out)]
    tauto
  · rw [List.length_map, bind_eq_ok]
    simp only [rejectIf_bind_eq_ok, not_not, pure_eq_ok, Except.ok.injEq, Prod.exists]
    constructor
    · rintro ⟨picked, row, hpicked, rfl, rfl⟩
      have hcheck := pickRuns_passed dict row 0 selected pairs
      rw [hpicked] at hcheck
      obtain ⟨hruns, hrow, -⟩ := (checkCodeRuns_eq_ok (Nat.zero_le _)).mp hcheck.symm
      rw [Nat.zero_add] at hrow
      rw [pickRuns_eq hruns (by omega) (hrow ▸ hsel)] at hpicked
      obtain ⟨rfl, -⟩ := Prod.mk.inj (Except.ok.inj hpicked)
      exact ⟨hruns, hrow.symm, rfl⟩
    · rintro ⟨hruns, rfl, rfl⟩
      exact ⟨_, _, pickRuns_eq hruns (by omega) hsel, by simp, rfl⟩

/-- The rows asked for come back, whichever strategy won. -/
theorem decodeStrSelected_encodeStr (hc : c.Lossless) {strs : List Text} {level : Int}
    {e : ColumnEnc} {b : List UInt8} (he : encodeStr c strs n level = .ok e)
    (hb : e.toBytes = .ok b) (hfit : StrColumnFits strs) (hsel : RowsIn 0 n selected) :
    decodeStrSelected c b n selected = .ok (selected.map fun i => strs.getD i []) :=
  decodeStrSelected_eq_ok.mpr ⟨hsel, strs, decodeStr_encodeStr hc he hb hfit, rfl⟩

theorem decodeStrSelected_over (hc : c.Lossless) {strs : List Text} {level : Int} {e : ColumnEnc}
    {b : List UInt8} (he : encodeStr c strs n level = .ok e) (hb : e.toBytes = .ok b)
    (hfit : ¬StrColumnFits strs) (selected : List Nat) :
    ∃ err, decodeStrSelected c b n selected = .error err := by
  refine error_of_not_ok fun out h => ?_
  obtain ⟨-, strs', h, -⟩ := decodeStrSelected_eq_ok.mp h
  exact not_holdsStrings_over hc he hb hfit strs' (decodeStr_eq_ok.mp h).1

end Timeless.Codec
