import Timeless.Blocks.Block
import Timeless.Codec.Selected

/-!
# Scan — looking for a needle in a string column

A filter on messages may be decided from a block's message column without building the messages: the
scan walks the column's layout by itself, looks at each string in place, or at each dictionary entry
once, and then at the runs that refer to it. It stops at other places than the decoder and with other
texts, but it is no more and no less demanding:

* `columnarMessageFeasible_eq_ok`: whatever the bytes, the scan answers exactly if they hold as many
  strings as it is told, and the answer is whether one of them is a hit;
* `stringDecoders_agree`: so the scan, the decoder of selected rows and the decoder of all rows accept
  the same bytes and agree on what they hold.
-/

namespace Timeless.Blocks

open Support Codec

variable {c : Compressors}

/-! ### The rule for messages -/

theorem utf8_isEmpty (t : Text) : (utf8 t).isEmpty = t.isEmpty := by
  cases t with
  | nil => rfl
  | cons ch t =>
      have : utf8 (ch :: t) ≠ [] := utf8_ne_nil (by simp)
      exact List.isEmpty_eq_false_iff.mpr this

theorem scanContains_iff {needle : Text} (hn : Checkable needle) {text : List UInt8} :
    scanContains needle text = true ↔ low (utf8 needle) <:+: low text :=
  any_windows_iff (by simpa using hn.1)

/-- For a needle the check looks at, the engine's rule is containment up to ASCII case. -/
theorem messageContainsCi_iff (lowercase : Text → Text) {message needle : Text}
    (hn : Checkable needle) :
    messageContainsCi lowercase message needle = true ↔ ContainsLow message needle := by
  have hne : needle.isEmpty = false := by rw [← utf8_isEmpty]; exact hn.1
  rw [messageContainsCi, hne, if_neg (by simp), if_pos hn.2]
  exact scanContains_iff hn

/-! ### Concatenated strings -/

/-- Scanning a concatenated column finds what a string of it holds. -/
theorem reads_scanStrings (contains : List UInt8 → Bool) {ts : List Text}
    (hts : ∀ t ∈ ts, (utf8 t).length ≤ u32Max) {fuel : Nat} (hfuel : ts.length ≤ fuel) (count : Nat)
    (found : Bool) :
    Reads (scanStrings contains fuel count found) (ts.flatMap lenPrefixed) []
      (count + ts.length, found || ts.any fun t => contains (utf8 t)) := by
  induction ts generalizing fuel count found with
  | nil =>
      cases fuel with
      | zero => simpa [scanStrings] using Reads.pure (count, found) []
      | succ fuel =>
          rw [scanStrings]
          refine (reads_remaining []).bind_nil ?_
          simpa using Reads.pure (count, found) []
  | cons t ts ih =>
      obtain ⟨fuel, rfl⟩ : ∃ k, fuel = k + 1 := Nat.exists_eq_succ_of_ne_zero (by
        rw [List.length_cons] at hfuel; omega)
      rw [List.length_cons] at hfuel
      have hfuel' : ts.length ≤ fuel := by omega
      have hrest := ih (fun s hs => hts s (List.mem_cons_of_mem _ hs)) hfuel' (count + 1)
        (found || contains (utf8 t))
      have hval : (count + (t :: ts).length,
          found || (t :: ts).any fun t => contains (utf8 t)) =
          (count + 1 + ts.length,
            (found || contains (utf8 t)) || ts.any fun t => contains (utf8 t)) := by
        rw [List.length_cons, List.any_cons, Bool.or_assoc]
        congr 1
        omega
      rw [scanStrings, hval]
      refine (reads_remaining _).bind_nil ?_
      rw [if_neg (by simp [lenPrefixed])]
      rw [List.flatMap_cons, lenPrefixed, List.append_assoc]
      refine (reads_u32 (lt_of_le_u32Max (hts t List.mem_cons_self)) _ _).bind ?_
      refine (reads_take rfl _ _).bind ?_
      refine (reads_lift (okOr_eq_ok.mpr (fromUtf8_utf8 t)) _).bind_nil ?_
      exact hrest

variable {contains : List UInt8 → Bool}

/-- A scan that got to the end has met the strings that the bytes are made of. -/
theorem scanStrings_eq_ok {fuel count k : Nat} {found hit : Bool} {r r' : Reader}
    (hfuel : r.rest.length ≤ fuel)
    (h : scanStrings contains fuel count found r = .ok ((k, hit), r')) :
    ∃ ts : List Text, r.rest = ts.flatMap lenPrefixed ∧ (∀ t ∈ ts, (utf8 t).length ≤ u32Max) ∧
      k = count + ts.length ∧ hit = (found || ts.any fun t => contains (utf8 t)) := by
  induction fuel generalizing count found r with
  | zero =>
      obtain ⟨heq, -⟩ := read_pure_eq_ok.mp h
      obtain ⟨rfl, rfl⟩ := Prod.mk.inj heq
      exact ⟨[], List.length_eq_zero_iff.mp (Nat.le_zero.mp hfuel), by simp, rfl, by simp⟩
  | succ fuel ih =>
      obtain ⟨left, r₁, hleft, h⟩ := of_read h
      obtain ⟨rfl, rfl⟩ := remaining_eq_ok hleft
      split_ifs at h with hnone
      · obtain ⟨heq, -⟩ := read_pure_eq_ok.mp h
        obtain ⟨rfl, rfl⟩ := Prod.mk.inj heq
        exact ⟨[], List.length_eq_zero_iff.mp hnone, by simp, rfl, by simp⟩
      · obtain ⟨len, r₂, hlen, h⟩ := of_read h
        obtain ⟨b, r₃, hb, h⟩ := of_read h
        obtain ⟨t, r₄, hlift, hscan⟩ := of_read h
        obtain ⟨ht, rfl⟩ := read_lift_eq_ok.mp hlift
        obtain ⟨hlt, hrest⟩ := u32_eq_ok hlen
        obtain ⟨rfl, hrest'⟩ := take_eq_ok hb
        rw [← utf8_of_fromUtf8 (okOr_eq_ok.mp ht)] at hlt hrest hrest'
        have hwhole : r₁.rest = lenPrefixed t ++ r₃.rest := by
          rw [hrest, hrest', lenPrefixed, List.append_assoc]
        have hfuel' : r₃.rest.length ≤ fuel := by
          rw [hwhole, List.length_append, lenPrefixed, List.length_append, length_leBytes] at hfuel
          omega
        obtain ⟨ts, hts, hshort, rfl, rfl⟩ := ih hfuel' hscan
        refine ⟨t :: ts, ?_, ?_, ?_, ?_⟩
        · rw [hwhole, hts, List.flatMap_cons]
        · exact List.forall_mem_cons.mpr ⟨Nat.le_of_lt_succ hlt, hshort⟩
        · rw [List.length_cons]
          omega
        · rw [List.any_cons, Bool.or_assoc]

/-! ### Runs of codes -/

/-- Something holds of a value that runs stand for if it does of a run's value. -/
theorem any_expand {α : Type} {runs : List (Nat × α)} (hpos : ∀ r ∈ runs, 0 < r.1)
    (f : α → Bool) : (expand runs).any f = runs.any fun r => f r.2 := by
  induction runs with
  | nil => rfl
  | cons r runs ih =>
      have hr : (List.replicate r.1 r.2).any f = f r.2 := by
        rw [List.any_replicate, if_neg (hpos r List.mem_cons_self).ne']
      rw [expand_cons, List.any_append, hr, List.any_cons,
        ih fun r hr => hpos r (List.mem_cons_of_mem _ hr)]

/-- A run refers to a hit exactly if one of the strings is one. -/
theorem any_hits {dict : List Text} {pairs : List (Nat × Nat)}
    (hruns : ∀ r ∈ pairs, 0 < r.1 ∧ r.2 < dict.length) (contains : List UInt8 → Bool) :
    (pairs.any fun pair => (dict.map fun s => contains (utf8 s)).getD pair.2 false) =
      ((expand pairs).map fun code => dict.getD code []).any fun s => contains (utf8 s) := by
  rw [List.any_map, any_expand fun r hr => (hruns r hr).1, Bool.eq_iff_iff, List.any_eq_true,
    List.any_eq_true]
  refine exists_congr fun r => and_congr_right fun hr => ?_
  have hlt := (hruns r hr).2
  simp [List.getD_eq_getElem?_getD, List.getElem?_eq_getElem hlt]

/-! ### Columns -/

/-- **The scan of a column.** -/
theorem columnarMessageFeasible_eq_ok {bytes : List UInt8} {n : Nat} {found : Bool} :
    columnarMessageFeasible c bytes n contains = .ok found ↔
      ∃ strs, decodeStr c bytes n = .ok strs ∧ found = strs.any fun s => contains (utf8 s) := by
  simp only [decodeStr_eq_ok, and_assoc]
  rw [columnarMessageFeasible]
  refine stringColumn_eq_ok (v := fun _ _ => pure ())
    (Q := fun ts found => ts.length = n ∧ found = ts.any fun s => contains (utf8 s))
    (fun dict _ => ?_) (fun raw => ?_) fun dict pairs _ => ?_
  · rfl
  · rw [bind_eq_ok]
    simp only [rejectIf_bind_eq_ok, not_not, pure_eq_ok, Except.ok.injEq, Prod.exists]
    constructor
    · rintro ⟨count, hit, hscan, rfl, rfl⟩
      obtain ⟨r, hscan⟩ := run_eq_ok.mp hscan
      have hfuel : (Reader.new raw).rest.length ≤ raw.length := le_refl _
      obtain ⟨ts, hts, hshort, hlen, hany⟩ := scanStrings_eq_ok hfuel hscan
      exact ⟨ts, hshort, hts, by rw [hlen, Nat.zero_add], by rw [hany, Bool.false_or]⟩
    · rintro ⟨ts, hshort, rfl, rfl, rfl⟩
      -- every string takes four bytes, so there is fuel for all of them
      have hfuel : ts.length ≤ (ts.flatMap lenPrefixed).length := by
        have := rejectIf_eq_ok.mp (validateMinimum_lenPrefixed ts "")
        omega
      exact ⟨_, _, (reads_scanStrings contains hshort hfuel 0 false).run, Nat.zero_add _,
        Bool.false_or _⟩
  · rw [checkedRuns_eq_ok, List.length_map]
    exact and_congr_right fun hruns => and_congr_right fun _ => by rw [any_hits hruns]

/-- The scan of a string column within the caps is the scan of its strings. -/
theorem columnarMessageFeasible_eq (hc : c.Lossless) {msgs : List Text} {level : Int}
    {e : ColumnEnc} {col : List UInt8} (he : encodeStr c msgs msgs.length level = .ok e)
    (hb : e.toBytes = .ok col) (hfit : StrColumnFits msgs) (contains : List UInt8 → Bool) :
    columnarMessageFeasible c col msgs.length contains =
      .ok (msgs.any fun msg => contains (utf8 msg)) :=
  columnarMessageFeasible_eq_ok.mpr ⟨msgs, decodeStr_encodeStr hc he hb hfit, rfl⟩

/-- A string column over the caps is an error for the scan too. -/
theorem columnarMessageFeasible_over (hc : c.Lossless) {msgs : List Text} {level : Int}
    {e : ColumnEnc} {col : List UInt8} (he : encodeStr c msgs msgs.length level = .ok e)
    (hb : e.toBytes = .ok col) (hfit : ¬StrColumnFits msgs) (contains : List UInt8 → Bool) :
    ∃ err, columnarMessageFeasible c col msgs.length contains = .error err := by
  refine error_of_not_ok fun found h => ?_
  obtain ⟨strs, h, -⟩ := columnarMessageFeasible_eq_ok.mp h
  exact not_holdsStrings_over hc he hb hfit strs (decodeStr_eq_ok.mp h).1

/-! ### Agreement -/

/-- What a decoder accepts and returns is told by the decoder of all rows. -/
theorem toOption_eq_map {α : Type} {x : Except String α} {y : Except String (List Text)}
    {f : List Text → α} (h : ∀ a, x = .ok a ↔ ∃ strs, y = .ok strs ∧ a = f strs) :
    x.toOption = y.toOption.map f := by
  cases y with
  | ok strs =>
      rw [(h (f strs)).mpr ⟨strs, rfl, rfl⟩]
      rfl
  | error err =>
      obtain ⟨e, rfl⟩ := error_of_not_ok fun a ha => by
        obtain ⟨strs, hstrs, -⟩ := (h a).mp ha
        cases hstrs
      rfl

/-- **String decoders agree.** Whatever the bytes and the number of rows: the decoder of selected rows
succeeds exactly if the decoder of all rows does, and returns its strings at those rows; and the scan
for a needle errs exactly if that decoder does, and else says whether one of its strings contains the
needle up to ASCII case, which for ASCII needles is the engine's rule for messages. -/
theorem stringDecoders_agree (c : Compressors) (bytes : List UInt8) (n : Nat) {selected : List Nat}
    (hsel : RowsIn 0 n selected) {needle : Text} (hneedle : needle ≠ []) :
    (decodeStrSelected c bytes n selected).toOption =
        (decodeStr c bytes n).toOption.map (fun strs => selected.map fun i => strs.getD i []) ∧
      (columnarMessageFeasible c bytes n (scanContains needle)).toOption =
        (decodeStr c bytes n).toOption.map (fun strs => strs.any fun s =>
          scanContains needle (utf8 s)) ∧
      (∀ s, scanContains needle (utf8 s) = true ↔ ContainsLow s needle) ∧
      (isAscii (utf8 needle) = true → ∀ lowercase s,
        scanContains needle (utf8 s) = messageContainsCi lowercase s needle) := by
  have hne := utf8_ne_nil hneedle
  refine ⟨toOption_eq_map fun out => ?_, toOption_eq_map fun found => ?_, fun s => ?_, ?_⟩
  · rw [decodeStrSelected_eq_ok]
    exact and_iff_right hsel
  · exact columnarMessageFeasible_eq_ok
  · exact any_windows_iff hne
  · intro hascii lowercase s
    have hcheck : Checkable needle := ⟨List.isEmpty_eq_false_iff.mpr hne, hascii⟩
    rw [Bool.eq_iff_iff, messageContainsCi_iff lowercase hcheck]
    exact any_windows_iff hne

/-- A column of two strings, stored as it is. -/
def upDown : List UInt8 :=
  [6, 14, 0, 0, 0, 2, 0, 0, 0, 117, 112, 4, 0, 0, 0, 100, 111, 119, 110]

theorem stringDecoders_agree_upDown :
    (decodeStrSelected .storing upDown 2 [1]).toOption = some ["down".toList] ∧
      (columnarMessageFeasible .storing upDown 2 (scanContains "OWN".toList)).toOption =
        some true := by
  have hall : decodeStr .storing upDown 2 = .ok ["up".toList, "down".toList] := by
    refine decodeStr_eq_ok.mpr ⟨?_, rfl⟩
    exact @HoldsStrings.concat _ _ (upDown.drop 5) _ rfl (by decide +kernel) (by decide +kernel)
  obtain ⟨hrows, hscan, -⟩ := @stringDecoders_agree .storing upDown 2 [1]
    ⟨by decide, by decide⟩ "OWN".toList (by decide)
  rw [hrows, hscan, hall]
  exact ⟨rfl, by decide +kernel⟩

end Timeless.Blocks
