import Timeless.Blocks.TemplateRound

/-!
# TemplateFilter — only the messages that contain a needle

The filtered decoder renders the messages of templates that can contain the needle and moves the
cursors past the others. The question it asks of a template is the feasibility check of the whole
column, with the template's own text and variables; it has the same blind spot, inner digit runs of
more than 19 digits.

* `feasibleTemplate_iff`: the template of a message that contains the needle is passed over exactly
  if such a run is in none of the template's string variables (`PassedOver`);
* `decodeTemplateStrFiltered_encodeMode`: the rows are those of the matching messages that are not
  passed over.
-/

namespace Timeless.Blocks

open Support Codec

/-- No inner run of the needle has more than 19 digits. -/
def ShortRuns (needle : Text) : Prop :=
  ∀ r ∈ innerRuns (utf8 needle), r.length ≤ 19

instance (needle : Text) : Decidable (ShortRuns needle) := by
  unfold ShortRuns
  infer_instance

variable {splitRuns : Bool} {needle msg t : Text} {ms : List (Nat × List Var)}

/-- The check of one template with the text and variables of a message that contains the needle. -/
theorem templateFeasible_iff {segments strs : List (List UInt8)} {nums : List (UInt8 × Int64)}
    (hseg : ∀ s ∈ templateSegments (tokenize msg splitRuns).1, utf8 s ∈ segments)
    (hstr : ∀ t ∈ strTexts splitRuns msg, utf8 t ∈ strs)
    (hnum : ∀ v ∈ (tokenize msg splitRuns).2, ∀ p, numOf v = some p → p ∈ nums)
    (h : ContainsLow msg needle) :
    templateFeasible (utf8 needle) (needleParts (utf8 needle)) (!splitRuns) segments strs nums =
      true ↔
    (!splitRuns && (needleParts (utf8 needle)).tokenConfinedMixed) = false →
      ∀ r ∈ innerRuns (utf8 needle), 19 < r.length → ∃ s ∈ strs, hasMaximalDigitRun s r = true := by
  unfold templateFeasible
  split_ifs with hconf
  · refine iff_of_true ?_ fun hno => ?_
    · simp only [needleParts, Bool.and_eq_true, Bool.not_eq_true'] at hconf
      obtain ⟨rfl, -, hmix⟩ := hconf
      obtain ⟨v, hv, hk, hsub⟩ := confined_var hmix h
      refine List.any_eq_true.mpr
        ⟨utf8 v.text, hstr _ (mem_strTexts.mpr ?_), containsCi_iff.mpr hsub⟩
      rw [← hk]
      exact hv
    · rw [hconf] at hno
      cases hno
  · rw [Bool.and_eq_true, List.all_eq_true, List.all_eq_true]
    constructor
    · rintro ⟨-, hruns⟩ - r hr hlong
      have hrun := hruns r hr
      rw [Bool.or_eq_true, Bool.and_eq_true, decide_eq_true_eq] at hrun
      rcases hrun with ⟨hle, -⟩ | hany
      · exact absurd hle (not_le.mpr hlong)
      · exact List.any_eq_true.mp hany
    · intro hlong
      have hlong := hlong (by simpa using hconf)
      refine ⟨fun p hp => ?_, fun r hr => ?_⟩
      · obtain ⟨hp, hd⟩ := List.mem_filter.mp hp
        have hfree : Free isAsciiDigit p := fun b hb => by
          simpa using List.any_eq_false.mp (by simpa using hd) b hb
        exact fragment_explained splitRuns hseg hstr hfree (h.piece hp)
      · obtain ⟨v, hv, hex⟩ := innerRun_var splitRuns hr h
        rw [Bool.or_eq_true, Bool.and_eq_true, decide_eq_true_eq]
        by_cases hle : r.length ≤ 19
        swap
        · exact .inr (List.any_eq_true.mpr (hlong r hr (not_le.mp hle)))
        rcases hex with ⟨hk, rfl⟩ | ⟨hk, hrun⟩
        · obtain ⟨p, hp⟩ := Option.isSome_iff_exists.mp (writable_tokenize hv hk)
          have hmem := hnum v hv p hp
          simp only [numOf, hk] at hp
          obtain ⟨x, hx, rfl⟩ := Option.map_eq_some_iff.mp hp
          refine .inl ⟨hle, ?_⟩
          rw [hx, Option.any_some, List.any_eq_true]
          refine ⟨_, hmem, ?_⟩
          simp only [UInt8.toNat_ofNat', beq_self_eq_true, Bool.and_true, beq_iff_eq]
          exact Nat.mod_eq_of_lt (by omega)
        · refine .inr (List.any_eq_true.mpr
            ⟨utf8 v.text, hstr _ (mem_strColumn.mpr ?_), hasMaximalDigitRun_of_maxRun hrun⟩)
          rw [← hk]
          exact hv

theorem mem_of_some_mem_map {α : Type} {a : α} {l : List α} (h : some a ∈ l.map some) : a ∈ l := by
  obtain ⟨b, hb, heq⟩ := List.mem_map.mp h
  exact Option.some.inj heq ▸ hb

variable {d : TemplateData} {m : Nat × List Var}

theorem mem_templateVars (h : Laid d ms) (hm : m ∈ ms) {place : Nat}
    (hplace : d.layout.base m.1 = some place) {v : Var} (hv : v ∈ m.2) :
    (∀ t, strOf v = some t → t ∈ (templateVars d place (d.kinds m.1).length).1) ∧
      ∀ p, numOf v = some p → p ∈ (templateVars d place (d.kinds m.1).length).2 := by
  obtain ⟨slot, hslot, rfl⟩ := List.getElem_of_mem hv
  have hlen : m.2.length = (d.kinds m.1).length := by
    rw [← h.arities m hm, List.length_map]
  obtain ⟨place', hplace', hat⟩ := slotGroups_place h.arities m.1 (List.mem_map_of_mem hm) (by omega)
  rw [h.base, hplace', Option.some.injEq] at hplace
  subst hplace
  have hg := hat slot (by omega)
  obtain ⟨grp, hgrp, hkind, hglen, hslice⟩ := forall₂_getElem? h.groups hg
  have hmem : grp ∈ (d.layout.groups.drop place').take (d.kinds m.1).length := by
    refine List.mem_of_getElem? (i := slot) ?_
    rw [List.getElem?_take, if_pos (by omega), List.getElem?_drop, hgrp]
  have hslotVars : m.2[slot] ∈ slotVars (m.1, slot) ms :=
    List.mem_filterMap.mpr ⟨m, hm, by simp [hslot]⟩
  have hk : m.2[slot].kind = grp.kind :=
    (kind_of_mem_slotVars h.arities hslotVars).trans hkind.symm
  constructor
  · intro t ht
    have hstr : grp.kind = .str := by
      rw [← hk]
      by_contra hnum
      cases hc : m.2[slot].kind <;> simp [strOf, hc] at ht hnum
    rw [hstr] at hslice
    refine List.mem_flatMap.mpr ⟨grp, hmem, ?_⟩
    have hin : some t ∈ ((d.strs.drop grp.start).take grp.len).map some := by
      rw [hslice, ← ht]
      exact List.mem_map_of_mem hslotVars
    simp only [hstr]
    exact mem_of_some_mem_map hin
  · intro p hp
    have hnum : grp.kind = .num := by
      rw [← hk]
      by_contra hstr
      cases hc : m.2[slot].kind <;> simp [numOf, hc] at hp hstr
    rw [hnum] at hslice
    refine List.mem_flatMap.mpr ⟨grp, hmem, ?_⟩
    have hin : some p ∈ (((d.widths.zip d.values).drop grp.start).take grp.len).map some := by
      rw [hslice, ← hp]
      exact List.mem_map_of_mem hslotVars
    simp only [hnum]
    have hzip := mem_of_some_mem_map hin
    rwa [List.zip, List.drop_zipWith, List.take_zipWith] at hzip

/-- The string variables of the slots of a template are those of its messages only. -/
theorem exists_of_mem_templateVars (h : Laid d ms) {id : Nat} (hid : id ∈ ms.map Prod.fst)
    (hslots : 0 < (d.kinds id).length) {place : Nat} (hplace : d.layout.base id = some place)
    (ht : t ∈ (templateVars d place (d.kinds id).length).1) :
    ∃ m ∈ ms, m.1 = id ∧ ∃ v ∈ m.2, strOf v = some t := by
  obtain ⟨place', hplace', hat⟩ := slotGroups_place h.arities id hid hslots
  rw [h.base, hplace', Option.some.injEq] at hplace
  subst hplace
  obtain ⟨grp, hgrp, ht⟩ := List.mem_flatMap.mp ht
  obtain ⟨slot, hslot⟩ := List.mem_iff_getElem?.mp hgrp
  rw [List.getElem?_take] at hslot
  split_ifs at hslot with hlt
  rw [List.getElem?_drop] at hslot
  obtain ⟨grp', hgrp', -, -, hslice⟩ := forall₂_getElem? h.groups (hat slot hlt)
  obtain rfl := Option.some.inj (hslot.symm.trans hgrp')
  cases hk : grp.kind with
  | num => simp [hk] at ht
  | str =>
      simp only [hk] at ht hslice
      have hin := List.mem_map_of_mem (f := some) ht
      rw [hslice] at hin
      obtain ⟨v, hv, hvt⟩ := List.mem_map.mp hin
      obtain ⟨m, hm, hmv⟩ := List.mem_filterMap.mp hv
      split_ifs at hmv with hmid
      exact ⟨m, hm, hmid, v, List.mem_of_getElem? hmv, hvt⟩

/-- The template of a message fails the check if the message contains the needle: an inner run of
more than 19 digits is a maximal run of no string variable of the template. -/
def PassedOver (msgs : List Text) (splitRuns : Bool) (needle msg : Text) : Prop :=
  (!splitRuns && (needleParts (utf8 needle)).tokenConfinedMixed) = false ∧
    ∃ r ∈ innerRuns (utf8 needle), 19 < r.length ∧ ∀ other ∈ msgs,
      (tokenize other splitRuns).1 = (tokenize msg splitRuns).1 →
        ∀ t ∈ strTexts splitRuns other, hasMaximalDigitRun (utf8 t) r = false

instance (msgs : List Text) (splitRuns : Bool) (needle msg : Text) :
    Decidable (PassedOver msgs splitRuns needle msg) := by
  unfold PassedOver
  infer_instance

theorem not_passedOver_of_shortRuns (h : ShortRuns needle) (msgs : List Text) (splitRuns : Bool)
    (msg : Text) : ¬PassedOver msgs splitRuns needle msg := by
  rintro ⟨-, r, hr, hlong, -⟩
  exact absurd (h r hr) (not_le.mpr hlong)

/-- A column taken apart, with the messages that its ids and variables stand for. -/
structure Held (d : TemplateData) (ms : List (Nat × List Var)) (msgs : List Text)
    (splitRuns : Bool) : Prop where
  laid : Laid d ms
  mode : d.mode = if splitRuns then 0 else 1
  distinct : d.dict.Nodup
  messages : List.Forall₂ (fun m msg => d.dict[m.1]? = some (tokenize msg splitRuns).1 ∧
    m.2 = (tokenize msg splitRuns).2) ms msgs

namespace Held

variable {d : TemplateData} {ms : List (Nat × List Var)} {msgs : List Text} {splitRuns : Bool}

theorem exists_message (h : Held d ms msgs splitRuns) (hm : m ∈ ms) :
    ∃ msg ∈ msgs, d.dict[m.1]? = some (tokenize msg splitRuns).1 ∧
      m.2 = (tokenize msg splitRuns).2 := by
  obtain ⟨i, hi⟩ := List.mem_iff_getElem?.mp hm
  obtain ⟨msg, hmsg, hspec⟩ := forall₂_getElem? h.messages hi
  exact ⟨msg, List.mem_of_getElem? hmsg, hspec⟩

theorem exists_id (h : Held d ms msgs splitRuns) (hmsg : msg ∈ msgs) :
    ∃ m ∈ ms, d.dict[m.1]? = some (tokenize msg splitRuns).1 ∧
      m.2 = (tokenize msg splitRuns).2 := by
  obtain ⟨i, hi⟩ := List.mem_iff_getElem?.mp hmsg
  obtain ⟨m, hm, hspec⟩ := forall₂_getElem? h.messages.flip hi
  exact ⟨m, List.mem_of_getElem? hm, hspec⟩

theorem id_eq (h : Held d ms msgs splitRuns) {i j : Nat} (hi : d.dict[i]? = some t)
    (hj : d.dict[j]? = some t) : i = j := by
  obtain ⟨hlt, -⟩ := List.getElem?_eq_some_iff.mp hi
  exact (List.getElem?_inj hlt h.distinct).mp (hi.trans hj.symm)

theorem mem_strTexts_iff :
    t ∈ strTexts splitRuns msg ↔ ∃ v ∈ (tokenize msg splitRuns).2, strOf v = some t := by
  rw [strTexts, strColumn_eq, List.mem_filterMap]

/-- The string variables of the messages with one template are those under its id. -/
theorem mem_sameTemplate_iff (h : Held d ms msgs splitRuns)
    (htemplate : d.dict[m.1]? = some (tokenize msg splitRuns).1) :
    (∃ other ∈ msgs, (tokenize other splitRuns).1 = (tokenize msg splitRuns).1 ∧
      t ∈ strTexts splitRuns other) ↔ ∃ m' ∈ ms, m'.1 = m.1 ∧ ∃ v ∈ m'.2, strOf v = some t := by
  constructor
  · rintro ⟨other, hother, hsame, ht⟩
    obtain ⟨m', hm', ht', hvars'⟩ := h.exists_id hother
    rw [hsame] at ht'
    exact ⟨m', hm', h.id_eq ht' htemplate, hvars' ▸ mem_strTexts_iff.mp ht⟩
  · rintro ⟨m', hm', hid, ht⟩
    obtain ⟨other, hother, ht', hvars'⟩ := h.exists_message hm'
    rw [hid, htemplate] at ht'
    exact ⟨other, hother, (Option.some.inj ht').symm, mem_strTexts_iff.mpr (hvars' ▸ ht)⟩

/-- **The check of a template.** Of messages that contain the needle exactly those are missed whose
template is passed over. -/
theorem feasibleTemplate_iff (h : Held d ms msgs splitRuns) (hm : m ∈ ms) (hmsg : msg ∈ msgs)
    (htemplate : d.dict[m.1]? = some (tokenize msg splitRuns).1)
    (hvars : m.2 = (tokenize msg splitRuns).2) (hin : ContainsLow msg needle) :
    feasibleTemplate d (utf8 needle) m.1 = true ↔ ¬PassedOver msgs splitRuns needle msg := by
  have hwhole : (d.mode == 1) = !splitRuns := by
    rw [h.mode]
    cases splitRuns <;> rfl
  have hlen : m.2.length = (d.kinds m.1).length := by
    rw [← h.laid.arities m hm, List.length_map]
  have hget : d.dict.getD m.1 [] = (tokenize msg splitRuns).1 := by
    rw [List.getD_eq_getElem?_getD, htemplate, Option.getD_some]
  have hseg : ∀ s ∈ templateSegments (tokenize msg splitRuns).1,
      utf8 s ∈ (templateSegments (d.dict.getD m.1 [])).map utf8 := fun s hs => by
    rw [hget]
    exact List.mem_map_of_mem hs
  -- the string variables the check is given are those of the messages with this template
  have hiff : ∀ (strs : List Text) (nums : List (UInt8 × Int64)),
      (∀ t, t ∈ strs ↔ ∃ other ∈ msgs, (tokenize other splitRuns).1 = (tokenize msg splitRuns).1 ∧
        t ∈ strTexts splitRuns other) →
      (∀ v ∈ (tokenize msg splitRuns).2, ∀ p, numOf v = some p → p ∈ nums) →
      (templateFeasible (utf8 needle) (needleParts (utf8 needle)) (!splitRuns)
        ((templateSegments (d.dict.getD m.1 [])).map utf8) (strs.map utf8) nums = true ↔
          ¬PassedOver msgs splitRuns needle msg) := by
    intro strs nums hstrs hnums
    rw [templateFeasible_iff hseg
      (fun t ht => List.mem_map_of_mem ((hstrs t).mpr ⟨msg, hmsg, rfl, ht⟩)) hnums hin]
    simp only [PassedOver, not_and, not_exists, not_forall, Bool.not_eq_false]
    refine forall_congr' fun _ => forall_congr' fun r => forall_congr' fun _ =>
      forall_congr' fun _ => ?_
    constructor
    · rintro ⟨s, hs, hrun⟩
      obtain ⟨t, ht, rfl⟩ := List.mem_map.mp hs
      obtain ⟨other, hother, hsame, ht⟩ := (hstrs t).mp ht
      exact ⟨other, hother, hsame, t, ht, hrun⟩
    · rintro ⟨other, hother, hsame, t, ht, hrun⟩
      exact ⟨utf8 t, List.mem_map_of_mem ((hstrs t).mpr ⟨other, hother, hsame, ht⟩), hrun⟩
  unfold feasibleTemplate
  dsimp only
  rw [hwhole]
  split_ifs with hslots
  · refine hiff [] [] (fun t => ?_) (fun v hv => ?_)
    · rw [h.mem_sameTemplate_iff htemplate]
      refine iff_of_false List.not_mem_nil ?_
      rintro ⟨m', hm', hid, v, hv, -⟩
      have hlen' := congrArg List.length (h.laid.arities m' hm')
      rw [List.length_map, hid, hslots, List.length_eq_zero_iff] at hlen'
      rw [hlen'] at hv
      cases hv
    · rw [← hvars, List.length_eq_zero_iff.mp (hlen.trans hslots)] at hv
      cases hv
  · have hpos : 0 < (d.kinds m.1).length := Nat.pos_of_ne_zero hslots
    have hid : m.1 ∈ ms.map Prod.fst := List.mem_map_of_mem hm
    obtain ⟨place, hplace, -⟩ := slotGroups_place h.laid.arities m.1 hid hpos
    rw [← h.laid.base] at hplace
    rw [hplace]
    refine hiff _ _ (fun t => ?_) (fun v hv p hp => ?_)
    · rw [h.mem_sameTemplate_iff htemplate]
      constructor
      · exact exists_of_mem_templateVars h.laid hid hpos hplace
      · rintro ⟨m', hm', hid', v, hv, hvt⟩
        rw [← hid'] at hplace ⊢
        exact (mem_templateVars h.laid hm' hplace hv).1 t hvt
    · exact (mem_templateVars h.laid hm hplace (hvars ▸ hv)).2 p hp

end Held

/-- Passing over a message moves the cursors as rendering it does. -/
theorem skipVars_of_takeVars {base : Option Nat} {kinds : List VarKind} {slot : Nat}
    {cursors cursors' : List Nat} {vars : MsgVars}
    (h : takeVars d base slot kinds cursors = .ok (vars, cursors')) :
    skipVars base slot kinds cursors = .ok cursors' := by
  induction kinds generalizing slot cursors vars with
  | nil =>
      obtain ⟨-, rfl⟩ := Prod.mk.inj (Except.ok.inj h)
      rfl
  | cons kind kinds ih =>
      rw [takeVars] at h
      obtain ⟨place, hplace, h⟩ := of_bind h
      obtain ⟨cur, hcur, h⟩ := of_bind h
      obtain ⟨rest, hrest, h⟩ := of_bind h
      have hcursors : rest.2 = cursors' := by
        cases kind with
        | num =>
            obtain ⟨w, -, h⟩ := of_bind h
            obtain ⟨v, -, h⟩ := of_bind h
            exact (Prod.mk.inj (Except.ok.inj h)).2
        | str =>
            obtain ⟨s, -, h⟩ := of_bind h
            exact (Prod.mk.inj (Except.ok.inj h)).2
      obtain ⟨vars', next⟩ := rest
      obtain rfl : next = cursors' := hcursors
      rw [skipVars, hplace, ok_bind, hcur, ok_bind, ih hrest]

theorem skipVars_of_renderMsg {id : Nat} {cursors cursors' : List Nat}
    (h : renderMsg d id cursors = .ok (msg, cursors')) :
    skipVars (d.layout.base id) 0 (d.kinds id) cursors = .ok cursors' := by
  obtain ⟨⟨vars, next⟩, htake, h⟩ := of_bind h
  obtain ⟨text, -, h⟩ := of_bind h
  obtain ⟨-, rfl⟩ := Prod.mk.inj (Except.ok.inj h)
  exact skipVars_of_takeVars htake

/-- The rows whose messages are kept. -/
def matchingRows (keep : Text → Bool) : (row : Nat) → List Text → List (Nat × Text)
  | _, [] => []
  | row, msg :: msgs =>
      if keep msg then (row, msg) :: matchingRows keep (row + 1) msgs
      else matchingRows keep (row + 1) msgs

/-- The messages that a filtered decode gives. -/
def shownIn (msgs : List Text) (splitRuns : Bool) (needle msg : Text) : Bool :=
  containsCi (utf8 msg) (utf8 needle) && !decide (PassedOver msgs splitRuns needle msg)

theorem renderMatching_spec {todo : List (Nat × List Var)} {msgs rest : List Text}
    (h : Held d ms msgs splitRuns) (needle : Text) (done : List (Nat × List Var))
    (hms : ms = done ++ todo) (hsub : ∀ msg ∈ rest, msg ∈ msgs) (row : Nat)
    (hmsgs : List.Forall₂ (fun m msg => d.dict[m.1]? = some (tokenize msg splitRuns).1 ∧
      m.2 = (tokenize msg splitRuns).2) todo rest) :
    ∃ found, renderMatching d (utf8 needle) row (todo.map Prod.fst)
        (cursorsAt d ms fun key => uses done key.1) = .ok found ∧
      found.rows = matchingRows (shownIn msgs splitRuns needle) row rest := by
  induction hmsgs generalizing done row with
  | nil => exact ⟨_, rfl, rfl⟩
  | @cons m msg todo rest hm _ ih =>
      obtain ⟨id, vars⟩ := m
      obtain ⟨htemplate, hvars⟩ := hm
      simp only at htemplate hvars
      have hfill : fillTemplate (d.dict.getD id []) vars = .ok msg := by
        rw [List.getD_eq_getElem?_getD, htemplate, Option.getD_some, hvars]
        exact fillTemplate_tokenize msg splitRuns
      subst hms
      obtain ⟨found, hfound, hrows⟩ := ih (done ++ [(id, vars)]) (by simp)
        (fun msg hmsg => hsub msg (List.mem_cons_of_mem _ hmsg)) (row + 1)
      have hrender := renderMsg_spec h.laid hfill
      have hfeasible := fun (hin : containsCi (utf8 msg) (utf8 needle) = true) =>
        h.feasibleTemplate_iff (m := (id, vars)) (by simp) (hsub msg List.mem_cons_self) htemplate
          hvars (containsCi_iff.mp hin)
      simp only [List.map_cons, renderMatching, matchingRows, shownIn, Bool.and_eq_true,
        Bool.not_eq_true', decide_eq_false_iff_not]
      by_cases hin : containsCi (utf8 msg) (utf8 needle) = true
      · by_cases hover : PassedOver msgs splitRuns needle msg
        · rw [if_neg fun hyes => (hfeasible hin).mp hyes hover, if_neg fun hyes => hyes.2 hover]
          simp only [skipVars_of_renderMsg hrender, ok_bind, hfound]
          exact ⟨_, rfl, hrows⟩
        · rw [if_pos ((hfeasible hin).mpr hover), if_pos ⟨hin, hover⟩]
          simp only [hrender, ok_bind, hfound]
          exact ⟨_, rfl, by simp [hin, hrows]⟩
      · rw [if_neg (c := _ ∧ _) fun hyes => hin hyes.1]
        split_ifs
        · simp only [hrender, ok_bind, hfound]
          exact ⟨_, rfl, by simp [hin, hrows]⟩
        · simp only [skipVars_of_renderMsg hrender, ok_bind, hfound]
          exact ⟨_, rfl, hrows⟩

variable {c : Compressors}

/-- Templates are interned, so each is in the dictionary once. -/
theorem nodup_dict (msgs : List Text) (splitRuns : Bool) :
    (tokenizeBlock msgs splitRuns).dict.Nodup := by
  have hstep : ∀ (tk : Tokenized) (msg : Text), tk.dict.Nodup →
      (tokenizeMsg splitRuns tk msg).dict.Nodup := by
    intro tk msg h
    unfold tokenizeMsg
    dsimp only
    split
    · exact h
    · next hnone =>
        refine h.append (List.nodup_singleton _) ?_
        rw [List.disjoint_singleton]
        exact List.idxOf?_eq_none_iff.mp hnone
  have hrun : ∀ tk : Tokenized, tk.dict.Nodup →
      (msgs.foldl (tokenizeMsg splitRuns) tk).dict.Nodup := by
    induction msgs with
    | nil => exact fun _ h => h
    | cons msg msgs ih => exact fun tk h => ih _ (hstep tk msg h)
  exact hrun _ List.nodup_nil

/-- **Filtered round trip.** The rows are those of the messages that contain the needle and whose
template is not passed over. -/
theorem decodeTemplateStrFiltered_encodeMode (hc : c.Lossless) {msgs : List Text} {level : Int}
    {bytes : List UInt8} (h : encodeMode c msgs splitRuns level = .ok bytes)
    (hfit : TemplateFits msgs splitRuns) (hn : Checkable needle) :
    ∃ found, decodeTemplateStrFiltered c bytes msgs.length needle = .ok found ∧
      found.rows = matchingRows (shownIn msgs splitRuns needle) 0 msgs := by
  obtain ⟨d, hd, hlaid, hdict, hids, hmode⟩ := readTemplate_encodeMode hc h hfit
  have hspec := blockMsgs_spec msgs splitRuns
  rw [← hdict] at hspec
  have hheld : Held d (blockMsgs msgs splitRuns) msgs splitRuns :=
    ⟨hlaid, hmode, hdict ▸ nodup_dict msgs splitRuns, hspec⟩
  obtain ⟨found, hfound, hrows⟩ := renderMatching_spec hheld needle [] (List.nil_append _).symm
    (fun _ hmsg => hmsg) 0 hspec
  rw [map_fst_blockMsgs, ← hids, ← startCursors_eq hlaid] at hfound
  refine ⟨found, ?_, hrows⟩
  have hask : ¬(needle.isEmpty = true ∨ isAscii (utf8 needle) = false) := by
    rintro (hempty | hascii)
    · obtain rfl : needle = [] := by simpa using hempty
      exact absurd hn.1 (by decide)
    · simp [hn.2] at hascii
  simp only [decodeTemplateStrFiltered, rejectIf_neg hask, hd, ok_bind, hfound]

end Timeless.Blocks
