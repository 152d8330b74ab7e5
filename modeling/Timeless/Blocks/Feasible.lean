import Timeless.Blocks.Tokens

/-!
# Feasible — what the feasibility check of a template column proves

The check splits the needle into digit runs and the fragments between them and asks, for each, if
the block's templates and variables can account for it. Here the check is compared with the
messages themselves. For a message that contains the needle (up to ASCII case):

* every fragment is accounted for (`fragment_explained`);
* every inner digit run of at most 19 digits is accounted for, and a longer one exactly if some
  string variable of the block holds it as a maximal run (`innerRun_explained`,
  `runExplained_long`);
* in whole-token mode a needle confined to one token is found in a string variable.

So on a block with a matching message the check can only fail through a digit run of more than 19
digits that the block keeps as a number (`needleExplained_false_iff`).
-/

namespace Timeless.Blocks

open Support Codec

/-! ### The searches, as statements about lower-case bytes -/

variable {haystack : List UInt8} {msg : Text} {vs : List Var}

theorem containsCi_iff {needle : List UInt8} :
    containsCi haystack needle = true ↔ low needle <:+: low haystack := by
  unfold containsCi
  split_ifs with h
  · obtain rfl : needle = [] := by simpa using h
    simp
  · exact any_windows_iff (by simpa using h)

theorem endsWithCi_iff {suffix : List UInt8} :
    endsWithCi haystack suffix = true ↔ low suffix <:+ low haystack := by
  simp only [endsWithCi, eqIgnoreAsciiCase, Bool.and_eq_true, decide_eq_true_eq, beq_iff_eq]
  constructor
  · rintro ⟨-, h⟩
    rw [low, ← h]
    exact (List.drop_suffix _ _).map _
  · intro h
    have hle : suffix.length ≤ haystack.length := by simpa using h.length_le
    refine ⟨hle, ?_⟩
    rw [List.suffix_iff_eq_drop] at h
    rw [List.map_drop]
    simpa [low] using h.symm

theorem startsWithCi_iff {start : List UInt8} :
    startsWithCi haystack start = true ↔ low start <+: low haystack := by
  simp only [startsWithCi, eqIgnoreAsciiCase, Bool.and_eq_true, decide_eq_true_eq, beq_iff_eq]
  constructor
  · rintro ⟨-, h⟩
    rw [low, ← h]
    exact (List.take_prefix _ _).map _
  · intro h
    have hle : start.length ≤ haystack.length := by simpa using h.length_le
    refine ⟨hle, ?_⟩
    rw [List.prefix_iff_eq_take] at h
    rw [List.map_take]
    simpa [low] using h.symm

theorem hasMaximalDigitRun_of_maxRun {text run : List UInt8} (h : MaxRun isAsciiDigit run text) :
    hasMaximalDigitRun text run = true := by
  obtain ⟨a, b, rfl, ha, hb⟩ := h
  refine List.any_eq_true.mpr ⟨a.length, by simp; omega, ?_⟩
  simp only [Bool.and_eq_true, Bool.or_eq_true, beq_iff_eq, Bool.not_eq_true']
  refine ⟨⟨by simp, ?_⟩, ?_⟩
  · cases a using List.reverseRecOn with
    | nil => exact .inl rfl
    | append_singleton a y =>
        right
        simpa using ha y (by simp)
  · cases b with
    | nil => left; simp
    | cons y b =>
        right
        simpa [← List.append_assoc] using hb y (by simp)

/-! ### Fragments -/

variable {nums : List (UInt8 × Int64)} {segments strs : List (List UInt8)} {nb r : List UInt8}

/-- The parts the fragment search looks for suffice for it. -/
theorem fragmentFeasible_of_parts {frag : List UInt8} (h : (∃ v ∈ strs, low frag <:+: low v) ∨
      ∃ x m y, low frag = x ++ m ++ y ∧ (x = [] ∨ ∃ v ∈ strs, x <:+ low v) ∧
        (m = [] ∨ ∃ s ∈ segments, m <:+: low s) ∧ (y = [] ∨ ∃ v ∈ strs, y <+: low v)) :
    fragmentFeasible frag segments strs = true := by
  unfold fragmentFeasible
  split_ifs with hemp hlong hstr
  · rfl
  · rfl
  · rfl
  · rcases h with ⟨v, hv, hin⟩ | ⟨x, m, y, heq, hx, hm, hy⟩
    · exact (hstr (List.any_eq_true.mpr ⟨v, hv, containsCi_iff.mpr hin⟩)).elim
    · have hlen : frag.length = x.length + (m.length + y.length) := by
        simpa using congrArg List.length heq
      -- the cuts lie behind `x` and in front of `y`
      have hpre : low (frag.take x.length) = x := by
        rw [low, List.map_take]
        show (low frag).take x.length = x
        simp [heq]
      have hmid : low ((frag.drop x.length).take m.length) = m := by
        rw [low, List.map_take, List.map_drop]
        show ((low frag).drop x.length).take m.length = m
        simp [heq]
      have hsuf : low (frag.drop (x.length + m.length)) = y := by
        rw [low, List.map_drop]
        show (low frag).drop (x.length + m.length) = y
        rw [heq, ← List.length_append, List.drop_left]
      simp only [List.any_eq_true, List.mem_cons, List.mem_filter, List.mem_append,
        decide_eq_true_eq, Bool.or_eq_true]
      refine ⟨x.length, ?_, x.length + m.length, ⟨?_, by omega⟩, ?_⟩
      · rcases hx with rfl | ⟨v, hv, hxv⟩
        · exact .inl rfl
        · by_cases hx0 : x.length = 0
          · exact .inl hx0
          · refine .inr ⟨by simp; omega, v, hv, ?_⟩
            rwa [endsWithCi_iff, hpre]
      · rcases hy with rfl | ⟨v, hv, hyv⟩
        · right
          simpa using hlen.symm
        · by_cases hy0 : y.length = 0
          · right
            omega
          · refine .inl ⟨by simp; omega, v, hv, ?_⟩
            rwa [startsWithCi_iff, hsuf]
      · rw [Nat.add_sub_cancel_left]
        rcases hm with rfl | ⟨s, hs, hms⟩
        · left; simp
        · right
          refine ⟨s, hs, ?_⟩
          rwa [containsCi_iff, hmid]

/-- The string variables of a message. -/
def strTexts (splitRuns : Bool) (msg : Text) : List Text :=
  strColumn (tokenize msg splitRuns).2

theorem mem_strTexts {splitRuns : Bool} {t : Text} :
    t ∈ strTexts splitRuns msg ↔ .var ⟨.str, t⟩ ∈ items splitRuns msg := by
  rw [strTexts, tokenize_eq]
  simp only [strColumn, List.mem_map, List.mem_filter, decide_eq_true_eq, List.mem_flatMap]
  constructor
  · rintro ⟨⟨kind, text⟩, ⟨⟨i, hi, hv⟩, hk⟩, rfl⟩
    cases i with
    | lit ch => simp [Item.vars] at hv
    | var w =>
        obtain rfl : (⟨kind, text⟩ : Var) = w := by simpa [Item.vars] using hv
        simp only at hk
        rwa [hk] at hi
  · intro h
    exact ⟨⟨.str, t⟩, ⟨⟨_, h, by simp [Item.vars]⟩, rfl⟩, rfl⟩

/-- **Fragments.** A digit-free text found in a message is accounted for by the message's template
and string variables. -/
theorem fragment_explained (splitRuns : Bool) {frag : List UInt8}
    (hseg : ∀ s ∈ templateSegments (tokenize msg splitRuns).1, utf8 s ∈ segments)
    (hstr : ∀ t ∈ strTexts splitRuns msg, utf8 t ∈ strs) (hfree : Free isAsciiDigit frag)
    (h : low frag <:+: low (utf8 msg)) : fragmentFeasible frag segments strs = true := by
  by_cases hne : frag = []
  · subst hne
    rfl
  have hfree' : Free isAsciiDigit (low frag) := free_low isAsciiDigit_lower hfree
  obtain ⟨s, ps, hst⟩ : ∃ s ps, stretches (items splitRuns msg) = (s, ps) := ⟨_, _, rfl⟩
  have hvar : ∀ {v t}, (v, t) ∈ ps → .var v ∈ items splitRuns msg := fun {v t} hv =>
    mem_vars_stretches.mp ⟨t, by rw [hst]; exact hv⟩
  -- the message as stretches and variables, in lower-case bytes
  have hglue : low (utf8 msg) = glue (low (utf8 s))
      (ps.map fun p => (low (utf8 p.1.text), low (utf8 p.2))) := by
    conv_lhs => rw [← text_items splitRuns msg, text_stretches, hst]
    simp only [glue, utf8_append, low_append, List.flatMap_map]
    congr 1
    clear hst hvar
    induction ps with
    | nil => rfl
    | cons p ps ih => simp [ih]
  rw [hglue] at h
  have hdigit : ∀ q ∈ ps.map (fun p => (low (utf8 p.1.text), low (utf8 p.2))),
      ∃ b ∈ q.1, isAsciiDigit b = true := by
    intro q hq
    obtain ⟨⟨v, t⟩, hv, rfl⟩ := List.mem_map.mp hq
    have hs := (sound_items splitRuns msg _ (hvar hv)).1
    rw [← any_digit_utf8, List.any_eq_true] at hs
    obtain ⟨b, hb, hd⟩ := hs
    exact ⟨_, List.mem_map_of_mem hb, by rw [isAsciiDigit_lower, hd]⟩
  -- a free text overlaps no number
  have hnum : ∀ {v t} {x : List UInt8}, (v, t) ∈ ps → Free isAsciiDigit x → x ≠ [] →
      x <:+: low (utf8 v.text) → utf8 v.text ∈ strs := by
    intro v t x hv hxf hx hxv
    refine hstr _ (mem_strTexts.mpr ?_)
    have hk : v.kind = .str := by
      cases hkind : v.kind with
      | str => rfl
      | num =>
          exfalso
          have hall := ((sound_items splitRuns msg _ (hvar hv)).2 hkind).1
          obtain ⟨b, x, rfl⟩ := List.exists_cons_of_ne_nil hx
          have hb := hxf b List.mem_cons_self
          obtain ⟨a, ha, rfl⟩ := List.mem_map.mp (hxv.subset List.mem_cons_self)
          rw [isAsciiDigit_lower, forall_utf8_of_lead isAsciiDigit_high hall a ha] at hb
          exact absurd hb (by simp)
    have hmem := hvar hv
    rwa [← hk]
  have hmem : ∀ t ∈ s :: ps.map Prod.snd, t ≠ [] → utf8 t ∈ segments := by
    intro t ht hne
    refine hseg t ?_
    rw [tokenize_eq, templateSegments_items, stretchTexts, hst]
    exact List.mem_filter.mpr ⟨ht, by simpa using hne⟩
  refine fragmentFeasible_of_parts ?_
  rcases free_infix_glue hfree' hdigit h with ⟨q, hq, hin⟩ | ⟨x, m, y, heq, hx, ⟨t, ht, hm⟩, hy⟩
  · obtain ⟨⟨v, t⟩, hv, rfl⟩ := List.mem_map.mp hq
    exact .inl ⟨_, hnum hv hfree' (low_eq_nil.not.mpr hne) hin, hin⟩
  · have hxf : Free isAsciiDigit x := fun b hb => hfree' b (by rw [heq]; simp [hb])
    have hyf : Free isAsciiDigit y := fun b hb => hfree' b (by rw [heq]; simp [hb])
    refine .inr ⟨x, m, y, heq, ?_, ?_, ?_⟩
    · rcases hx with rfl | ⟨q, hq, hxq⟩
      · exact .inl rfl
      · obtain ⟨⟨v, u⟩, hv, rfl⟩ := List.mem_map.mp hq
        by_cases hx0 : x = []
        · exact .inl hx0
        · exact .inr ⟨_, hnum hv hxf hx0 hxq.isInfix, hxq⟩
    · by_cases hm0 : m = []
      · exact .inl hm0
      · have ht' : ∃ t' ∈ s :: ps.map Prod.snd, t = low (utf8 t') := by
          rcases List.mem_cons.mp ht with rfl | ht
          · exact ⟨s, List.mem_cons_self, rfl⟩
          · simp only [List.map_map, List.mem_map, Function.comp_apply] at ht
            obtain ⟨p, hp, rfl⟩ := ht
            exact ⟨p.2, List.mem_cons_of_mem _ (List.mem_map_of_mem hp), rfl⟩
        obtain ⟨t', ht', rfl⟩ := ht'
        have hne' : t' ≠ [] := by
          rintro rfl
          simp at hm
          exact hm0 hm
        exact .inr ⟨_, hmem t' ht' hne', hm⟩
    · rcases hy with rfl | ⟨q, hq, hyq⟩
      · exact .inl rfl
      · obtain ⟨⟨v, u⟩, hv, rfl⟩ := List.mem_map.mp hq
        by_cases hy0 : y = []
        · exact .inl hy0
        · exact .inr ⟨_, hnum hv hyf hy0 hyq.isInfix, hyq⟩

/-! ### Digit runs -/

/-- The digit runs of a needle that are neither its first nor its last piece. -/
def innerRuns (nb : List UInt8) : List (List UInt8) :=
  (needlePieces nb).tail.dropLast.filter fun piece => piece.any isAsciiDigit

theorem mem_needlePieces_cases {nb piece : List UInt8} (h : piece ∈ needlePieces nb) :
    (∀ b ∈ piece, isAsciiDigit b = true) ∨ Free isAsciiDigit piece :=
  splitBy_beq_cases h

theorem innerRuns_spec (h : r ∈ innerRuns nb) :
    r ≠ [] ∧ (∀ b ∈ r, isAsciiDigit b = true) ∧ InnerRun isAsciiDigit r nb := by
  obtain ⟨hmem, hd⟩ := List.mem_filter.mp h
  obtain ⟨p, rest, hp⟩ : ∃ p rest, needlePieces nb = p :: rest := by
    cases hnp : needlePieces nb with
    | nil => simp [innerRuns, hnp] at h
    | cons p rest => exact ⟨p, rest, rfl⟩
  rw [hp, List.tail_cons] at hmem
  have hrest : rest ≠ [] := by
    rintro rfl
    simp at hmem
  obtain ⟨M₁, M₂, hM⟩ := List.append_of_mem hmem
  have hpieces : needlePieces nb = (p :: M₁) ++ r :: (M₂ ++ [rest.getLast hrest]) := by
    have hsplit : M₁ ++ r :: M₂ ++ [rest.getLast hrest] = rest := by
      rw [← hM, List.dropLast_append_getLast]
    rw [hp]
    simpa using hsplit.symm
  have hr : r ∈ needlePieces nb := by rw [hpieces]; simp
  have hall : ∀ b ∈ r, isAsciiDigit b = true := by
    rcases mem_needlePieces_cases hr with hall | hfree
    · exact hall
    · obtain ⟨b, hb, hbd⟩ := List.any_eq_true.mp hd
      rw [hfree b hb] at hbd
      exact absurd hbd (by simp)
  exact ⟨List.ne_nil_of_mem_splitBy hr, hall, innerRun_splitBy hpieces (by simp) (by simp) hall⟩

/-- Dropping from the right stops at an element to keep. -/
theorem rdropWhile_keep {p : UInt8 → Bool} {z : UInt8} (hz : p z = false) (l b : List UInt8) :
    ∃ b', (l ++ z :: b).rdropWhile p = l ++ z :: b' := by
  induction b using List.reverseRecOn with
  | nil => exact ⟨[], List.rdropWhile_concat_neg p l z (by simp [hz])⟩
  | append_singleton b w ih =>
      rw [← List.cons_append, ← List.append_assoc, List.rdropWhile_concat]
      split_ifs
      · exact ih
      · exact ⟨b ++ [w], by simp⟩

/-- An inner run makes the check decode the number columns. -/
theorem hasInnerRun_of_innerRun (hne : r ≠ []) (hall : ∀ b ∈ r, isAsciiDigit b = true)
    (h : InnerRun isAsciiDigit r nb) :
    hasInnerRun nb = true := by
  obtain ⟨a, b, rfl, ⟨y, hy, hyd⟩, z, hz, hzd⟩ := h
  obtain ⟨x, r, rfl⟩ := List.exists_cons_of_ne_nil hne
  obtain ⟨a, rfl⟩ : ∃ a', a = a' ++ [y] := by
    cases a using List.reverseRecOn with
    | nil => simp at hy
    | append_singleton a w =>
        obtain rfl : w = y := by simpa using hy
        exact ⟨a, rfl⟩
  obtain ⟨b, rfl⟩ : ∃ b', b = z :: b' := by
    cases b with
    | nil => simp at hz
    | cons w b =>
        obtain rfl : w = z := by simpa using hz
        exact ⟨b, rfl⟩
  have hdrop : ∃ a', (a ++ [y] ++ (x :: r ++ z :: b)).dropWhile isAsciiDigit =
      a' ++ (x :: r ++ z :: b) := by
    rw [List.dropWhile_append]
    split_ifs with hemp
    · exact absurd hemp (by simp [List.dropWhile_eq_nil_iff, hyd])
    · exact ⟨_, rfl⟩
  obtain ⟨a', ha'⟩ := hdrop
  obtain ⟨b', hb'⟩ := rdropWhile_keep hzd (a' ++ (x :: r)) b
  rw [hasInnerRun, ha', ← List.append_assoc, hb']
  exact List.any_eq_true.mpr ⟨x, by simp, hall x List.mem_cons_self⟩

/-- The number variables of a message, as width and value. -/
theorem numColumns_mem (h : numColumns vs = .ok nums) {v : Var} (hv : v ∈ vs) (hk : v.kind = .num) :
    ∃ x, parseI64 (utf8 v.text) = some x ∧ (UInt8.ofNat (utf8 v.text).length, x) ∈ nums := by
  induction vs generalizing nums with
  | nil => simp at hv
  | cons w vs ih =>
      rw [numColumns] at h
      cases hw : w.kind with
      | str =>
          rw [hw] at h
          have hv' : v ∈ vs := by
            rcases List.mem_cons.mp hv with rfl | hv
            · rw [hw] at hk
              exact absurd hk (by decide)
            · exact hv
          exact ih h hv'
      | num =>
          rw [hw] at h
          obtain ⟨x, hx, h₁⟩ := of_bind h
          obtain ⟨rest, hrest, rfl⟩ := bind_pure_eq_ok.mp h₁
          rcases List.mem_cons.mp hv with rfl | hv
          · exact ⟨x, okOr_eq_ok.mp hx, List.mem_cons_self⟩
          · obtain ⟨y, hy, hmem⟩ := ih hrest hv
            exact ⟨y, hy, List.mem_cons_of_mem _ hmem⟩

/-- An inner run of a needle that a message contains is explained by one of its variables. -/
theorem innerRun_var (splitRuns : Bool) (hr : r ∈ innerRuns nb) (h : low nb <:+: low (utf8 msg)) :
    ∃ v ∈ (tokenize msg splitRuns).2, ExplainsRun r v := by
  obtain ⟨hne, hdig, hin⟩ := innerRuns_spec hr
  have hlow : MaxRun isAsciiDigit r (low (utf8 msg)) := by
    have := (hin.map isAsciiDigit_lower).maxRun h
    rwa [show r.map toAsciiLowercase = r from low_of_digits hdig] at this
  have hrun : MaxRun isAsciiDigit r (utf8 msg) := maxRun_of_low hdig hlow
  obtain ⟨v, hv, hex⟩ := maxRun_var splitRuns hdig hne hrun
  refine ⟨v, ?_, hex⟩
  rw [tokenize_eq]
  exact List.mem_flatMap.mpr ⟨.var v, hv, List.mem_singleton.mpr rfl⟩

theorem mem_strColumn {t : Text} : t ∈ strColumn vs ↔ ⟨.str, t⟩ ∈ vs := by
  simp only [strColumn, List.mem_map, List.mem_filter, decide_eq_true_eq]
  constructor
  · rintro ⟨⟨kind, text⟩, ⟨hv, rfl⟩, rfl⟩
    exact hv
  · intro h
    exact ⟨_, ⟨h, rfl⟩, rfl⟩

/-- **Inner runs.** A block whose variables include those of a message that contains the needle
explains an inner run of at most 19 digits. -/
theorem innerRun_explained (splitRuns : Bool) (hvs : ∀ v ∈ (tokenize msg splitRuns).2, v ∈ vs)
    (hnums : numColumns vs = .ok nums) (hr : r ∈ innerRuns nb) (h : low nb <:+: low (utf8 msg))
    (hlen : r.length ≤ 19) :
    runExplained nums ((strColumn vs).map utf8) r = true := by
  obtain ⟨v, hv, hex⟩ := innerRun_var splitRuns hr h
  simp only [runExplained, Bool.or_eq_true, Bool.and_eq_true, decide_eq_true_eq, List.any_eq_true]
  rcases hex with ⟨hk, rfl⟩ | ⟨hk, hrun⟩
  · obtain ⟨x, hx, hmem⟩ := numColumns_mem hnums (hvs v hv) hk
    exact .inl ⟨hlen, by simpa [hx] using hmem⟩
  · refine .inr ⟨utf8 v.text, List.mem_map_of_mem (mem_strColumn.mpr ?_),
      hasMaximalDigitRun_of_maxRun hrun⟩
    rw [← hk]
    exact hvs v hv

/-- A longer run is only looked for among the strings. -/
theorem runExplained_long {strs : List (List UInt8)} {r : List UInt8} (hlen : 19 < r.length) :
    runExplained nums strs r = strs.any fun s => hasMaximalDigitRun s r := by
  have hle : ¬r.length ≤ 19 := by omega
  simp [runExplained, hle]

/-! ### The whole needle -/

theorem needleExplained_false_iff {ps : List (List UInt8)} :
    needleExplained segments strs nums false ps = true ↔
      (∀ p ∈ ps, p.any isAsciiDigit = false → fragmentFeasible p segments strs = true) ∧
        ∀ p ∈ ps.dropLast, p.any isAsciiDigit = true → runExplained nums strs p = true := by
  induction ps with
  | nil => simp [needleExplained]
  | cons p ps ih =>
      rw [needleExplained, Bool.and_eq_true, ih]
      cases ps with
      | nil =>
          simp only [List.forall_mem_cons, List.isEmpty_nil, List.dropLast_singleton]
          cases p.any isAsciiDigit <;> simp
      | cons q ps =>
          simp only [List.dropLast_cons_cons, List.forall_mem_cons, List.isEmpty_cons]
          cases p.any isAsciiDigit <;> simp [and_assoc, and_left_comm]

/-- The needle is explained if its fragments and its inner runs are. -/
theorem needleExplained_iff {nb : List UInt8} :
    needleExplained segments strs nums true (needlePieces nb) = true ↔
      (∀ p ∈ needlePieces nb, p.any isAsciiDigit = false →
        fragmentFeasible p segments strs = true) ∧
        ∀ r ∈ innerRuns nb, runExplained nums strs r = true := by
  unfold innerRuns
  cases hp : needlePieces nb with
  | nil => simp [needleExplained]
  | cons p ps =>
      rw [needleExplained, Bool.and_eq_true, needleExplained_false_iff]
      simp only [List.forall_mem_cons, List.tail_cons, List.mem_filter, and_imp]
      cases p.any isAsciiDigit <;> simp [and_assoc]

end Timeless.Blocks
