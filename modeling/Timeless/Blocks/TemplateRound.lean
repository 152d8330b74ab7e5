import Timeless.Blocks.TemplateDecode

/-!
# TemplateRound — template columns are read back

The decoder renders every message from its template and the variables it finds at the cursors of
the template's slots. Two facts make that the message again:

* a template filled with the variables of a message is the message (`fillTemplate_tokenize`);
* the `k`-th time a template occurs, the cursor of each of its slots stands at the variable that
  the `k`-th message of the template has there (`takeVars_spec`).

So a column within the decoder's caps gives its messages back (`decodeTemplateStr_encodeMode`).
-/

namespace Timeless.Blocks

open Support Codec

/-! ### Filling a template -/

variable {ch : Char}

theorem digitChar_toNat (h : digitChar ch = true) :
    ch.toNat = (lead ch).toNat ∧ 48 ≤ ch.toNat ∧ ch.toNat ≤ 57 := by
  have hdigit : 48 ≤ (lead ch).toNat ∧ (lead ch).toNat ≤ 57 := by
    simpa [digitChar, isAsciiDigit] using h
  have hval : ch.toNat = (lead ch).toNat := by
    have hlead : (lead ch).toNat < 128 := by omega
    simp only [lead, String.utf8EncodeChar] at hlead hdigit ⊢
    split_ifs at hlead hdigit ⊢ with h₁ h₂ h₃
    · simp only [List.headD_cons, UInt8.toNat_ofNat']
      have : ch.val.toNat = ch.toNat := rfl
      omega
    all_goals
      simp only [List.headD_cons, UInt8.toNat_ofNat'] at hlead
      omega
  omega

variable {t msg : Text}

theorem utf8_digits (h : ∀ ch ∈ t, digitChar ch = true) : utf8 t = t.map lead := by
  rw [utf8, List.map_eq_flatMap]
  refine List.flatMap_congr fun ch hch => utf8_ascii ?_
  have := digitChar_toNat (h ch hch)
  omega

theorem parseDigits_digits (hne : t ≠ []) (h : ∀ ch ∈ t, digitChar ch = true) :
    parseDigits (utf8 t) = some (decimalValue t) := by
  have hdigits : (utf8 t).all isAsciiDigit = true := by
    rw [utf8_digits h, List.all_map, List.all_eq_true]
    exact h
  have hvalue : (utf8 t).foldl (fun n b => n * 10 + (b.toNat - 48)) 0 = decimalValue t := by
    rw [utf8_digits h, List.foldl_map, decimalValue]
    refine List.foldl_ext _ _ _ fun n ch hch => ?_
    rw [(digitChar_toNat (h ch hch)).1]
  have hempty : (utf8 t).isEmpty = false := by
    simpa using utf8_ne_nil hne
  simp [parseDigits, hdigits, hempty, hvalue]

theorem parseI64_digits (hne : t ≠ []) (h : ∀ ch ∈ t, digitChar ch = true) {v : Int64}
    (hv : parseI64 (utf8 t) = some v) :
    decimalValue t < 2 ^ 63 ∧ v = Int64.ofNat (decimalValue t) := by
  have hparse := parseDigits_digits hne h
  obtain ⟨ch, t, rfl⟩ := List.exists_cons_of_ne_nil hne
  have hch := digitChar_toNat (h ch List.mem_cons_self)
  rw [utf8_digits h, List.map_cons] at hv hparse
  have hsign : lead ch ≠ 45 ∧ lead ch ≠ 43 := by
    constructor <;>
    · intro heq
      rw [heq] at hch
      simp at hch
      omega
  unfold parseI64 at hv
  split at hv
  · next heq => exact absurd (List.cons.inj heq).1 hsign.1
  · next heq => exact absurd (List.cons.inj heq).1 hsign.2
  · rw [hparse, Option.bind_some] at hv
    split_ifs at hv with hlt
    exact ⟨hlt, (Option.some.inj hv).symm⟩

theorem padded_parseI64 (hne : t ≠ []) (h : ∀ ch ∈ t, digitChar ch = true) {v : Int64}
    (hv : parseI64 (utf8 t) = some v) : padded v (utf8 t).length = t := by
  obtain ⟨hlt, rfl⟩ := parseI64_digits hne h hv
  have hpos : ¬(Int64.ofNat (decimalValue t) < 0) := by
    rw [Int64.lt_iff_toInt_lt, Int64.toInt_ofNat_of_lt hlt]
    simp
  rw [padded, if_neg hpos, Int64.toNatClampNeg_ofNat_of_lt hlt, utf8_digits h, List.length_map]
  exact padded_value hne fun ch hch => (digitChar_toNat (h ch hch)).2

/-- What a variable is in the number columns. -/
def numOf (v : Var) : Option (UInt8 × Int64) :=
  match v.kind with
  | .num => (parseI64 (utf8 v.text)).map fun x => (UInt8.ofNat (utf8 v.text).length, x)
  | .str => none

/-- What a variable is in the string column. -/
def strOf (v : Var) : Option Text :=
  match v.kind with
  | .num => none
  | .str => some v.text

variable {d : TemplateData} {done todo : List (Nat × List Var)} {vs vars : List Var}
  {msgs : List Text} {splitRuns : Bool}
  {nums : List (UInt8 × Int64)} {used : Nat × Nat → Nat} {ms : List (Nat × List Var)}

theorem numColumns_eq (h : numColumns vs = .ok nums) :
    nums = vs.filterMap numOf := by
  induction vs generalizing nums with
  | nil => exact (Except.ok.inj h).symm
  | cons v vs ih =>
      rw [numColumns] at h
      cases hk : v.kind with
      | num =>
          simp only [hk] at h
          obtain ⟨x, hx, h⟩ := of_bind h
          obtain ⟨rest, hrest, rfl⟩ := bind_pure_eq_ok.mp h
          rw [okOr_eq_ok] at hx
          rw [ih hrest, List.filterMap_cons_some (by rw [numOf, hk, hx]; rfl)]
      | str =>
          simp only [hk] at h
          rw [ih h, List.filterMap_cons_none (by rw [numOf, hk])]

theorem strColumn_eq (vs : List Var) : strColumn vs = vs.filterMap strOf := by
  induction vs with
  | nil => rfl
  | cons v vs ih =>
      unfold strColumn at ih ⊢
      cases hk : v.kind with
      | num => rw [List.filter_cons_of_neg (by simp [hk]), ih,
          List.filterMap_cons_none (by rw [strOf, hk])]
      | str => rw [List.filter_cons_of_pos (by simp [hk]), List.map_cons, ih,
          List.filterMap_cons_some (by rw [strOf, hk])]

/-- Fill a template with a message's variables. -/
def fillTemplate (template : Text) (vars : List Var) : Except String Text :=
  detokenize template ((vars.filterMap numOf).map Prod.fst) ((vars.filterMap numOf).map Prod.snd)
    (vars.filterMap strOf)

theorem detokenize_lit (h : ch ≠ sentinel) (t : Text) (ws : List UInt8) (vs : List Int64)
    (ss : List Text) : detokenize (ch :: t) ws vs ss =
      (do return ch :: (← detokenize t ws vs ss)) := by
  cases t with
  | nil =>
      conv_lhs => unfold detokenize
      rw [rejectIf_neg h, ok_bind]
  | cons k t =>
      conv_lhs => unfold detokenize
      rw [if_neg h]

theorem fillTemplate_item {i : Item} (hi : i.Sound) {is : List Item}
    (h : fillTemplate (is.flatMap Item.template) (is.flatMap Item.vars) = .ok msg) :
    fillTemplate (i.template ++ is.flatMap Item.template) (i.vars ++ is.flatMap Item.vars) =
      .ok (i.text ++ msg) := by
  unfold fillTemplate at h ⊢
  cases i with
  | lit ch =>
      by_cases hs : ch = sentinel
      · subst hs
        simp only [Item.template, Item.vars, Item.text, if_true, List.cons_append, List.nil_append,
          detokenize, h]
        rfl
      · simp only [Item.template, Item.vars, Item.text, if_neg hs, List.cons_append, List.nil_append,
          detokenize_lit hs, h]
        rfl
  | var v =>
      obtain ⟨kind, text⟩ := v
      obtain ⟨hany, hnum⟩ := hi
      cases kind with
      | str =>
          simp only [Item.template, Item.vars, Item.text, List.cons_append, List.nil_append,
            kindTag, List.filterMap_cons, numOf, strOf, detokenize, h]
          rfl
      | num =>
          obtain ⟨hdigits, hok⟩ := hnum rfl
          rw [numRunOk, Bool.and_eq_true, decide_eq_true_eq, Option.isSome_iff_exists] at hok
          obtain ⟨hlen, x, hx⟩ := hok
          have hne : text ≠ [] := by
            rintro rfl
            simp at hany
          have hwidth : (UInt8.ofNat (utf8 text).length).toNat = (utf8 text).length := by
            rw [UInt8.toNat_ofNat', Nat.mod_eq_of_lt (Nat.lt_of_le_of_lt hlen (by decide))]
          simp only [Item.template, Item.vars, Item.text, List.cons_append, List.nil_append,
            kindTag, List.filterMap_cons, numOf, strOf, hx, Option.map_some, List.map_cons,
            detokenize, h, hwidth, padded_parseI64 hne hdigits hx]
          rfl

theorem fillTemplate_items {is : List Item} (hs : ∀ i ∈ is, i.Sound) :
    fillTemplate (is.flatMap Item.template) (is.flatMap Item.vars) =
      .ok (is.flatMap Item.text) := by
  induction is with
  | nil => rfl
  | cons i is ih =>
      rw [List.flatMap_cons, List.flatMap_cons, List.flatMap_cons]
      exact fillTemplate_item (hs i List.mem_cons_self)
        (ih fun j hj => hs j (List.mem_cons_of_mem _ hj))

/-- **Filling.** A template filled with the variables of a message is the message. -/
theorem fillTemplate_tokenize (msg : Text) (splitRuns : Bool) :
    fillTemplate (tokenize msg splitRuns).1 (tokenize msg splitRuns).2 = .ok msg := by
  rw [tokenize_eq]
  exact (fillTemplate_items (sound_items splitRuns msg)).trans
    (congrArg Except.ok (text_items splitRuns msg))

theorem slotKinds_lit (h : ch ≠ sentinel) (t : Text) :
    slotKinds (ch :: t) = slotKinds t := by
  cases t with
  | nil => rfl
  | cons k t =>
      conv_lhs => unfold slotKinds
      rw [if_neg h]

theorem slotKinds_item (i : Item) (t : Text) :
    slotKinds (i.template ++ t) = i.vars.map Var.kind ++ slotKinds t := by
  cases i with
  | lit ch =>
      by_cases hs : ch = sentinel
      · subst hs
        rfl
      · simp only [Item.template, if_neg hs, Item.vars]
        exact slotKinds_lit hs t
  | var v =>
      obtain ⟨kind, text⟩ := v
      cases kind <;> rfl

/-- The slots of a template are the message's variables, in order. -/
theorem slotKinds_tokenize (msg : Text) (splitRuns : Bool) :
    slotKinds (tokenize msg splitRuns).1 = (tokenize msg splitRuns).2.map Var.kind := by
  rw [tokenize_eq]
  induction items splitRuns msg with
  | nil => rfl
  | cons i is ih =>
      rw [List.flatMap_cons, List.flatMap_cons, slotKinds_item, List.map_append]
      exact congrArg _ ih

/-! ### Slots -/

theorem slotLt_iff (a b : Nat × Nat) : slotLt a b = true ↔ a.1 < b.1 ∨ a.1 = b.1 ∧ a.2 < b.2 := by
  simp [slotLt]

theorem slotLt_linear : OrdMap.Linear slotLt where
  irrefl a := by simp [slotLt]
  trans a b c hab hbc := by
    rw [slotLt_iff] at *
    omega
  total a b hab hba := by
    rw [← Bool.not_eq_true, slotLt_iff] at hab hba
    exact Prod.ext (by omega) (by omega)

/-- The variables of messages with their template and slot. -/
def slotPairs (ms : List (Nat × List Var)) : List ((Nat × Nat) × Var) :=
  ms.flatMap fun m => m.2.zipIdx.map fun v => ((m.1, v.2), v.1)

theorem varGroups_eq (tk : Tokenized) :
    varGroups tk = OrdMap.group slotLt (slotPairs (tk.ids.zip tk.msgVars)) := by
  rw [OrdMap.group, slotPairs, List.foldl_flatMap]
  simp only [List.foldl_map]
  rfl

/-- The variables the messages of a template have in one of its slots. -/
def slotVars (key : Nat × Nat) (ms : List (Nat × List Var)) : List Var :=
  ms.filterMap fun m => if m.1 = key.1 then m.2[key.2]? else none

theorem filter_zipIdx (vs : List Var) (slot k : Nat) :
    ((vs.zipIdx k).filter fun v => v.2 = k + slot).map Prod.fst = (vs[slot]?).toList := by
  induction vs generalizing slot k with
  | nil => rfl
  | cons v vs ih =>
      rw [List.zipIdx_cons]
      cases slot with
      | zero =>
          have hrest : ((vs.zipIdx (k + 1)).filter fun v => v.2 = k) = [] := by
            refine List.filter_eq_nil_iff.mpr fun w hw => ?_
            have := List.le_snd_of_mem_zipIdx hw
            simp only [decide_eq_true_eq]
            omega
          simp [hrest]
      | succ slot =>
          rw [List.filter_cons_of_neg (by simp)]
          have := ih slot (k + 1)
          rw [Nat.add_assoc, Nat.add_comm 1] at this
          rw [this, List.getElem?_cons_succ]

theorem valuesOf_slotPairs (key : Nat × Nat) (ms : List (Nat × List Var)) :
    OrdMap.valuesOf key (slotPairs ms) = slotVars key ms := by
  induction ms with
  | nil => rfl
  | cons m ms ih =>
      have hmsg : OrdMap.valuesOf key (m.2.zipIdx.map fun v => ((m.1, v.2), v.1)) =
          (if m.1 = key.1 then m.2[key.2]? else none).toList := by
        have := filter_zipIdx m.2 key.2 0
        rw [OrdMap.valuesOf, List.filter_map, List.map_map]
        split_ifs with hid
        · rw [← this]
          simp only [Nat.zero_add]
          congr 1
          refine List.filter_congr fun v _ => ?_
          simp [Prod.ext_iff, hid]
        · rw [List.filter_eq_nil_iff.mpr, List.map_nil, Option.toList_none]
          intro v _
          simp [Prod.ext_iff, hid]
      have happend : OrdMap.valuesOf key (slotPairs (m :: ms)) =
          OrdMap.valuesOf key (m.2.zipIdx.map fun v => ((m.1, v.2), v.1)) ++
            OrdMap.valuesOf key (slotPairs ms) := by
        simp [OrdMap.valuesOf, slotPairs]
      rw [happend, hmsg, ih, slotVars, slotVars, List.filterMap_cons]
      cases (if m.1 = key.1 then m.2[key.2]? else none) <;> rfl

/-- The groups of a block's messages. -/
def slotGroups (ms : List (Nat × List Var)) : List ((Nat × Nat) × List Var) :=
  OrdMap.group slotLt (slotPairs ms)

variable {ms : List (Nat × List Var)} {kinds : Nat → List VarKind}

theorem mem_slotGroups {key : Nat × Nat} :
    (key, vs) ∈ slotGroups ms ↔ vs ≠ [] ∧ vs = slotVars key ms := by
  rw [slotGroups, OrdMap.mem_group slotLt_linear, valuesOf_slotPairs]

/-- Templates and the kinds of the variables their messages have. -/
def Arities (kinds : Nat → List VarKind) (ms : List (Nat × List Var)) : Prop :=
  ∀ m ∈ ms, m.2.map Var.kind = kinds m.1

theorem slotVars_ne_nil (har : Arities kinds ms) (key : Nat × Nat) :
    slotVars key ms ≠ [] ↔ key.1 ∈ ms.map Prod.fst ∧ key.2 < (kinds key.1).length := by
  rw [slotVars, Ne, List.filterMap_eq_nil_iff]
  push Not
  constructor
  · rintro ⟨m, hm, hne⟩
    have hid : m.1 = key.1 := by
      by_contra hid
      exact hne (if_neg hid)
    rw [if_pos hid] at hne
    have hlen : m.2.length = (kinds m.1).length := by rw [← har m hm, List.length_map]
    refine ⟨hid ▸ List.mem_map_of_mem hm, ?_⟩
    rw [← hid, ← hlen]
    by_contra hlt
    exact hne (List.getElem?_eq_none (not_lt.mp hlt))
  · rintro ⟨hid, hlt⟩
    obtain ⟨m, hm, hid⟩ := List.mem_map.mp hid
    have hlen : m.2.length = (kinds m.1).length := by rw [← har m hm, List.length_map]
    refine ⟨m, hm, ?_⟩
    rw [if_pos hid, List.getElem?_eq_getElem (by rw [hlen, hid]; exact hlt)]
    simp

variable {v : Var}

/-- Variables of a group have the kind of its slot. -/
theorem kind_of_mem_slotVars (har : Arities kinds ms) {key : Nat × Nat} (h : v ∈ slotVars key ms) :
    v.kind = (kinds key.1).getD key.2 .str := by
  obtain ⟨m, hm, hv⟩ := List.mem_filterMap.mp h
  split_ifs at hv with hid
  rw [← hid, ← har m hm, List.getD_eq_getElem?_getD, List.getElem?_map, hv]
  rfl

/-- The slots of a template lie side by side, in order. -/
theorem slotGroups_place (har : Arities kinds ms) (id : Nat) (hid : id ∈ ms.map Prod.fst)
    (hk : 0 < (kinds id).length) :
    ∃ place, (slotGroups ms).findIdx? (fun g => g.1.1 = id) = some place ∧
      ∀ slot < (kinds id).length,
        (slotGroups ms)[place + slot]? = some ((id, slot), slotVars (id, slot) ms) := by
  have hmem : ∀ slot < (kinds id).length,
      ((id, slot), slotVars (id, slot) ms) ∈ slotGroups ms := fun slot hslot =>
    mem_slotGroups.mpr ⟨(slotVars_ne_nil har _).mpr ⟨hid, hslot⟩, rfl⟩
  have hsorted := List.pairwise_iff_getElem.mp (OrdMap.sorted_group slotLt_linear (slotPairs ms))
  change ∀ (i j : Nat) (hi : i < (slotGroups ms).length) (hj : j < (slotGroups ms).length),
    i < j → slotLt (slotGroups ms)[i].1 (slotGroups ms)[j].1 = true at hsorted
  simp only [slotLt_iff] at hsorted
  obtain ⟨place, hplace⟩ : ∃ place,
      (slotGroups ms).findIdx? (fun g => g.1.1 = id) = some place := by
    rw [← Option.isSome_iff_exists, List.findIdx?_isSome, List.any_eq_true]
    exact ⟨_, hmem 0 hk, by simp⟩
  refine ⟨place, hplace, ?_⟩
  obtain ⟨hlt, hfirst, hbefore⟩ := List.findIdx?_eq_some_iff_getElem.mp hplace
  simp only [decide_eq_true_eq] at hfirst hbefore
  intro slot
  induction slot with
  | zero =>
      intro _
      obtain ⟨q, hq, heq⟩ := List.getElem_of_mem (hmem 0 hk)
      have hge : place ≤ q := by
        by_contra hlt'
        exact hbefore q (by omega) (by rw [heq])
      rcases Nat.eq_or_lt_of_le hge with rfl | hgt
      · rw [Nat.add_zero, List.getElem?_eq_getElem hq, heq]
      · have := hsorted place q hlt hq hgt
        rw [heq] at this
        simp only at this
        omega
  | succ slot ih =>
      intro hslot
      obtain ⟨hprev, hprevEq⟩ := List.getElem?_eq_some_iff.mp (ih (by omega))
      obtain ⟨q, hq, heq⟩ := List.getElem_of_mem (hmem (slot + 1) hslot)
      have hgt : place + slot < q := by
        by_contra hle
        rcases Nat.eq_or_lt_of_le (not_lt.mp hle) with rfl | hlt'
        · rw [hprevEq] at heq
          simp at heq
        · have := hsorted q (place + slot) hq hprev hlt'
          rw [heq, hprevEq] at this
          simp only at this
          omega
      rcases Nat.eq_or_lt_of_le (Nat.succ_le_of_lt hgt) with heq' | hgt'
      · rw [← Nat.add_assoc, List.getElem?_eq_some_iff]
        exact ⟨by omega, by simpa [← heq'] using heq⟩
      · -- nothing is between two slots next to each other
        have h₁ := hsorted (place + slot) (place + slot + 1) hprev (by omega) (by omega)
        have h₂ := hsorted (place + slot + 1) q (by omega) hq hgt'
        rw [hprevEq] at h₁
        rw [heq] at h₂
        simp only at h₁ h₂
        omega

/-! ### Where the variables are -/

/-- A group of the layout and what its part of the typed columns holds. -/
def GroupAt (nums : List (UInt8 × Int64)) (strs : List Text) (kinds : Nat → List VarKind)
    (g : (Nat × Nat) × List Var) (grp : Group) : Prop :=
  grp.kind = (kinds g.1.1).getD g.1.2 .str ∧ grp.len = g.2.length ∧
    match grp.kind with
    | .num => ((nums.drop grp.start).take grp.len).map some = g.2.map numOf
    | .str => ((strs.drop grp.start).take grp.len).map some = g.2.map strOf

/-- Variables that can be written: a number variable parses. -/
def Writable (v : Var) : Prop :=
  v.kind = .num → (numOf v).isSome = true

variable {α : Type}

theorem filterMap_all_some {β : Type} {f : α → Option β} {l : List α}
    (h : ∀ a ∈ l, (f a).isSome = true) : (l.filterMap f).map some = l.map f := by
  induction l with
  | nil => rfl
  | cons a l ih =>
      obtain ⟨b, hb⟩ := Option.isSome_iff_exists.mp (h a List.mem_cons_self)
      rw [List.filterMap_cons_some hb, List.map_cons, List.map_cons, hb,
        ih fun a ha => h a (List.mem_cons_of_mem _ ha)]

theorem drop_take_middle (a b l : List α) :
    ((a ++ (b ++ l)).drop a.length).take b.length = b := by
  simp

theorem num_columns (hkind : ∀ v ∈ vs, v.kind = .num) (hw : ∀ v ∈ vs, Writable v) :
    (vs.filterMap numOf).map some = vs.map numOf ∧ vs.filterMap strOf = [] := by
  refine ⟨filterMap_all_some fun v hv => hw v hv (hkind v hv), ?_⟩
  refine List.filterMap_eq_nil_iff.mpr fun v hv => ?_
  rw [strOf, hkind v hv]

theorem str_columns (hkind : ∀ v ∈ vs, v.kind = .str) :
    (vs.filterMap strOf).map some = vs.map strOf ∧ vs.filterMap numOf = [] := by
  refine ⟨filterMap_all_some fun v hv => ?_, ?_⟩
  · rw [strOf, hkind v hv]
    rfl
  · refine List.filterMap_eq_nil_iff.mpr fun v hv => ?_
    rw [numOf, hkind v hv]

/-- Offsets follow the groups through the columns. -/
theorem layoutFrom_spec (kindsById : List (List VarKind)) (gs : List ((Nat × Nat) × List Var))
    (hkind : ∀ g ∈ gs, ∀ v ∈ g.2, v.kind = (kindsById.getD g.1.1 []).getD g.1.2 .str)
    (hw : ∀ g ∈ gs, ∀ v ∈ g.2, Writable v) (nums : List (UInt8 × Int64)) (strs : List Text) :
    (layoutFrom kindsById nums.length strs.length (gs.map (Prod.map id List.length))).2 =
        ((nums ++ (gs.flatMap Prod.snd).filterMap numOf).length,
          (strs ++ (gs.flatMap Prod.snd).filterMap strOf).length) ∧
      List.Forall₂ (GroupAt (nums ++ (gs.flatMap Prod.snd).filterMap numOf)
          (strs ++ (gs.flatMap Prod.snd).filterMap strOf) fun id => kindsById.getD id []) gs
        (layoutFrom kindsById nums.length strs.length (gs.map (Prod.map id List.length))).1 := by
  induction gs generalizing nums strs with
  | nil => simp [layoutFrom]
  | cons g gs ih =>
      obtain ⟨⟨tid, slot⟩, vs⟩ := g
      have hhead := hkind _ List.mem_cons_self
      have ih := ih (fun g hg => hkind g (List.mem_cons_of_mem _ hg))
        (fun g hg => hw g (List.mem_cons_of_mem _ hg))
      simp only [List.map_cons, Prod.map_apply, id_eq, layoutFrom, List.flatMap_cons,
        List.filterMap_append]
      simp only at hhead
      cases hk : (kindsById.getD tid []).getD slot .str with
      | num =>
          rw [hk] at hhead
          obtain ⟨hnum, hstr⟩ := num_columns hhead (hw _ List.mem_cons_self)
          have hlen : (vs.filterMap numOf).length = vs.length := by
            simpa using congrArg List.length hnum
          have ih := ih (nums ++ vs.filterMap numOf) strs
          rw [List.length_append, hlen] at ih
          rw [hstr, List.nil_append, ← List.append_assoc]
          refine ⟨ih.1, .cons ⟨hk.symm, rfl, ?_⟩ ih.2⟩
          change List.map some (List.take vs.length (List.drop nums.length _)) = _
          rw [← hlen, List.append_assoc, drop_take_middle, hnum]
      | str =>
          rw [hk] at hhead
          obtain ⟨hstr, hnum⟩ := str_columns hhead
          have hlen : (vs.filterMap strOf).length = vs.length := by
            simpa using congrArg List.length hstr
          have hsum : (strs ++ vs.filterMap strOf).length = strs.length + vs.length := by
            rw [List.length_append, hlen]
          have ih := ih nums (strs ++ vs.filterMap strOf)
          rw [hsum] at ih
          rw [hnum, List.nil_append, ← List.append_assoc]
          refine ⟨ih.1, .cons ⟨hk.symm, rfl, ?_⟩ ih.2⟩
          change List.map some (List.take vs.length (List.drop strs.length _)) = _
          rw [← hlen, List.append_assoc, drop_take_middle, hstr]

theorem groupSizes_eq {kindsById : List (List VarKind)}
    (har : Arities (fun id => kindsById.getD id []) ms) :
    groupSizes (ms.map Prod.fst) kindsById = (slotGroups ms).map (Prod.map id List.length) := by
  have hslots : ∀ (tid : Nat) (vs : List (Var × Nat)) (gs : List ((Nat × Nat) × List Var)),
      (vs.map Prod.snd).foldl (fun sizes slot =>
          OrdMap.alter slotLt (tid, slot) (fun n => n.getD 0 + 1) sizes)
        (gs.map (Prod.map id List.length)) =
      (vs.foldl (fun gs v => OrdMap.push slotLt (tid, v.2) v.1 gs) gs).map
        (Prod.map id List.length) := by
    intro tid vs
    induction vs with
    | nil => exact fun _ => rfl
    | cons v vs ih =>
        intro gs
        rw [List.map_cons, List.foldl_cons, List.foldl_cons, ← ih, OrdMap.push,
          OrdMap.map_alter fun o => ?_]
        cases o <;> simp
  have hmsgs : ∀ gs : List ((Nat × Nat) × List Var),
      (ms.map Prod.fst).foldl (fun sizes tid => (List.range (kindsById.getD tid []).length).foldl
          (fun sizes slot => OrdMap.alter slotLt (tid, slot) (fun n => n.getD 0 + 1) sizes) sizes)
        (gs.map (Prod.map id List.length)) =
      (ms.foldl (fun gs m => m.2.zipIdx.foldl
        (fun gs v => OrdMap.push slotLt (m.1, v.2) v.1 gs) gs) gs).map (Prod.map id List.length) := by
    induction ms with
    | nil => exact fun _ => rfl
    | cons m ms ih =>
        intro gs
        have hlen : (kindsById.getD m.1 []).length = m.2.length := by
          rw [← List.length_map (f := Var.kind), har m List.mem_cons_self]
        have hrange : List.range (kindsById.getD m.1 []).length = m.2.zipIdx.map Prod.snd := by
          rw [hlen, List.zipIdx_map_snd, List.range_eq_range']
        rw [List.map_cons, List.foldl_cons, List.foldl_cons, hrange, hslots,
          ih fun m hm => har m (List.mem_cons_of_mem _ hm)]
  have := hmsgs []
  rw [slotGroups, OrdMap.group, slotPairs, List.foldl_flatMap]
  simp only [List.foldl_map]
  exact this

/-! ### Rendering -/

/-- A column taken apart that holds the given messages as templates and variables. -/
structure Laid (d : TemplateData) (ms : List (Nat × List Var)) : Prop where
  arities : Arities d.kinds ms
  base : ∀ id, d.layout.base id = (slotGroups ms).findIdx? fun g => g.1.1 = id
  groups : List.Forall₂ (GroupAt (d.widths.zip d.values) d.strs d.kinds) (slotGroups ms)
    d.layout.groups

/-- The cursors after some variables of each group were used. -/
def cursorsAt (d : TemplateData) (ms : List (Nat × List Var)) (used : Nat × Nat → Nat) : List Nat :=
  (slotGroups ms).zipWith (fun g grp => grp.start + used g.1) d.layout.groups

theorem cursorsAt_congr {used' : Nat × Nat → Nat} (h : ∀ g ∈ slotGroups ms, used g.1 = used' g.1) :
    cursorsAt d ms used = cursorsAt d ms used' := by
  unfold cursorsAt
  generalize d.layout.groups = grps
  generalize slotGroups ms = gs at h
  induction gs generalizing grps with
  | nil => rfl
  | cons g gs ih =>
      cases grps with
      | nil => rfl
      | cons grp grps =>
          rw [List.zipWith_cons_cons, List.zipWith_cons_cons, h g List.mem_cons_self,
            ih grps fun g hg => h g (List.mem_cons_of_mem _ hg)]

theorem nodup_slotGroups (ms : List (Nat × List Var)) : ((slotGroups ms).map Prod.fst).Nodup := by
  rw [List.nodup_iff_pairwise_ne, List.pairwise_map]
  refine (OrdMap.sorted_group slotLt_linear (slotPairs ms)).imp fun h heq => ?_
  rw [heq, slotLt_linear.irrefl] at h
  simp at h

/-- Using one variable of a group moves its cursor. -/
theorem cursorsAt_set {i : Nat} {g : (Nat × Nat) × List Var} {grp : Group}
    (hg : (slotGroups ms)[i]? = some g) (hgrp : d.layout.groups[i]? = some grp) :
    (cursorsAt d ms used).set i (grp.start + used g.1 + 1) =
      cursorsAt d ms fun key => used key + if key = g.1 then 1 else 0 := by
  refine List.ext_getElem? fun j => ?_
  rw [List.getElem?_set]
  by_cases hij : i = j
  · subst hij
    have hlt : i < (cursorsAt d ms used).length := by
      rw [cursorsAt, List.length_zipWith]
      exact lt_min (List.getElem?_eq_some_iff.mp hg).1 (List.getElem?_eq_some_iff.mp hgrp).1
    rw [if_pos rfl, if_pos hlt, cursorsAt, List.getElem?_zipWith, hg, hgrp]
    simp [Nat.add_assoc]
  · rw [if_neg hij, cursorsAt, cursorsAt, List.getElem?_zipWith, List.getElem?_zipWith]
    cases hgj : (slotGroups ms)[j]? with
    | none => rfl
    | some g' =>
        -- another place has another key
        have hne : g'.1 ≠ g.1 := by
          intro heq
          have hi : ((slotGroups ms).map Prod.fst)[i]? = some g.1 := by
            rw [List.getElem?_map, hg]
            rfl
          have hj : ((slotGroups ms).map Prod.fst)[j]? = some g.1 := by
            rw [List.getElem?_map, hgj, ← heq]
            rfl
          have hlt := (List.getElem?_eq_some_iff.mp hi).1
          exact hij ((List.getElem?_inj hlt (nodup_slotGroups ms)).mp (hi.trans hj.symm))
        cases d.layout.groups[j]? <;> simp [hne]

/-- How many of the messages have a template. -/
def uses (ms : List (Nat × List Var)) (id : Nat) : Nat :=
  (ms.map Prod.fst).count id

variable {id : Nat}

theorem length_slotVars (har : Arities kinds ms) {slot : Nat} (hslot : slot < (kinds id).length) :
    (slotVars (id, slot) ms).length = uses ms id := by
  induction ms with
  | nil => rfl
  | cons m ms ih =>
      have hm : m.2.length = (kinds m.1).length := by
        rw [← har m List.mem_cons_self, List.length_map]
      have ih := ih fun m hm => har m (List.mem_cons_of_mem _ hm)
      rw [slotVars, uses] at ih ⊢
      rw [List.map_cons, List.count_cons]
      by_cases hid : m.1 = id
      · have hsome : m.2[slot]? = some (m.2.get ⟨slot, by rw [hm, hid]; exact hslot⟩) :=
          List.getElem?_eq_getElem _
        rw [List.filterMap_cons_some (by rw [if_pos hid]; exact hsome), List.length_cons, ih]
        simp [hid]
      · rw [List.filterMap_cons_none (by rw [if_neg hid]), ih]
        simp [hid]

/-- A message's variable in a slot stands in the slot's group behind those of the earlier messages
of its template. -/
theorem slotVars_split (har : Arities kinds (done ++ (id, vars) :: todo)) {slot : Nat}
    (hv : vars[slot]? = some v) :
    (slotVars (id, slot) (done ++ (id, vars) :: todo))[uses done id]? = some v := by
  have hkinds : vars.map Var.kind = kinds id := har (id, vars) (by simp)
  have hslot : slot < (kinds id).length := by
    rw [← hkinds, List.length_map]
    exact (List.getElem?_eq_some_iff.mp hv).1
  have hdone : Arities kinds done := fun m hm => har m (by simp [hm])
  have happ : slotVars (id, slot) (done ++ (id, vars) :: todo) =
      slotVars (id, slot) done ++ v :: slotVars (id, slot) todo := by
    simp [slotVars, hv]
  rw [happ, ← length_slotVars hdone hslot, List.getElem?_append_right (Nat.le_refl _), Nat.sub_self]
  rfl

theorem getElem?_slice {f : Var → Option α} {col : List α} {start len : Nat}
    (h : ((col.drop start).take len).map some = vs.map f) {j : Nat} (hv : vs[j]? = some v) :
    (f v).isSome = true ∧ col[start + j]? = f v := by
  have hj := congrArg (fun l => l[j]?) h
  simp only [List.getElem?_map, hv, Option.map_some] at hj
  obtain ⟨x, hx, hfx⟩ := Option.map_eq_some_iff.mp hj
  rw [List.getElem?_take] at hx
  split_ifs at hx
  rw [List.getElem?_drop] at hx
  exact ⟨by rw [← hfx]; rfl, by rw [hx, hfx]⟩

theorem forall₂_getElem? {β : Type} {R : α → β → Prop} {l : List α} {k : List β}
    (h : List.Forall₂ R l k) {i : Nat} {a : α} (ha : l[i]? = some a) :
    ∃ b, k[i]? = some b ∧ R a b := by
  obtain ⟨hlt, hget⟩ := List.getElem?_eq_some_iff.mp ha
  have hlt' : i < k.length := h.length_eq ▸ hlt
  refine ⟨_, List.getElem?_eq_getElem hlt', ?_⟩
  have := h.get hlt hlt'
  rw [List.get_eq_getElem, List.get_eq_getElem, hget] at this
  exact this

/-- The variables of one message are taken from where its slots stand. -/
theorem takeVars_spec (h : Laid d (done ++ (id, vars) :: todo)) (vs : List Var) (slot : Nat)
    (hvs : vars.drop slot = vs) (used : Nat × Nat → Nat)
    (hused : ∀ s, slot ≤ s → used (id, s) = uses done id) :
    takeVars d (d.layout.base id) slot (vs.map Var.kind)
        (cursorsAt d (done ++ (id, vars) :: todo) used) =
      .ok (⟨(vs.filterMap numOf).map Prod.fst, (vs.filterMap numOf).map Prod.snd,
        vs.filterMap strOf⟩, cursorsAt d (done ++ (id, vars) :: todo)
          fun key => used key + if key.1 = id ∧ slot ≤ key.2 then 1 else 0) := by
  have hkinds : vars.map Var.kind = d.kinds id := h.arities (id, vars) (by simp)
  induction vs generalizing slot used with
  | nil =>
      -- no slot of the template is left
      have hcursors : cursorsAt d (done ++ (id, vars) :: todo) used =
          cursorsAt d (done ++ (id, vars) :: todo)
            fun key => used key + if key.1 = id ∧ slot ≤ key.2 then 1 else 0 := by
        refine cursorsAt_congr fun g hg => ?_
        obtain ⟨hne, heq⟩ := mem_slotGroups.mp hg
        have hslot := ((slotVars_ne_nil h.arities g.1).mp (heq ▸ hne)).2
        have hlen : vars.length ≤ slot := List.drop_eq_nil_iff.mp hvs
        rw [if_neg]
        · rfl
        · rintro ⟨hid, hle⟩
          rw [hid, ← hkinds, List.length_map] at hslot
          omega
      rw [← hcursors]
      rfl
  | cons v vs ih =>
      have hv : vars[slot]? = some v := by
        rw [← Nat.add_zero slot, ← List.getElem?_drop, hvs]
        rfl
      have hslot : slot < (d.kinds id).length := by
        rw [← hkinds, List.length_map]
        exact (List.getElem?_eq_some_iff.mp hv).1
      obtain ⟨place, hplace, hat⟩ := slotGroups_place h.arities id (by simp) (by omega)
      have hg := hat slot hslot
      obtain ⟨grp, hgrp, hgroup⟩ := forall₂_getElem? h.groups hg
      have hcur : (cursorsAt d (done ++ (id, vars) :: todo) used)[place + slot]? =
          some (grp.start + used (id, slot)) := by
        rw [cursorsAt, List.getElem?_zipWith, hg, hgrp]
      have hvar := slotVars_split h.arities hv
      rw [← hused slot (Nat.le_refl _)] at hvar
      have hnext := ih (slot + 1) (by rw [← List.drop_drop, hvs]; rfl)
        (fun key => used key + if key = (id, slot) then 1 else 0) (fun s hs => by
          have hne : (id, s) ≠ (id, slot) := by
            intro heq
            have := (Prod.mk.inj heq).2
            omega
          rw [if_neg hne, hused s (by omega)]
          rfl)
      have hcursors : cursorsAt d (done ++ (id, vars) :: todo) (fun key =>
            (used key + if key = (id, slot) then 1 else 0) +
              if key.1 = id ∧ slot + 1 ≤ key.2 then 1 else 0) =
          cursorsAt d (done ++ (id, vars) :: todo)
            fun key => used key + if key.1 = id ∧ slot ≤ key.2 then 1 else 0 := by
        refine cursorsAt_congr fun g _ => ?_
        obtain ⟨⟨gid, gslot⟩, gvs⟩ := g
        simp only [Prod.mk.injEq]
        split_ifs <;> omega
      rw [hcursors] at hnext
      simp only [takeVars, List.map_cons, h.base, hplace, okOr, ok_bind, hcur,
        cursorsAt_set hg hgrp]
      rw [h.base, hplace] at hnext
      simp only [hnext, ok_bind]
      obtain ⟨hkind, -, hslice⟩ := hgroup
      have hv' : v.kind = grp.kind :=
        (kind_of_mem_slotVars h.arities (List.mem_of_getElem? hvar)).trans hkind.symm
      cases hk : v.kind with
      | num =>
          rw [← hv', hk] at hslice
          obtain ⟨hsome, hget⟩ := getElem?_slice hslice hvar
          obtain ⟨⟨w, x⟩, hx⟩ := Option.isSome_iff_exists.mp hsome
          rw [hx, List.getElem?_zip_eq_some] at hget
          rw [List.filterMap_cons_some hx, List.filterMap_cons_none (by rw [strOf, hk])]
          simp only [hget.1, hget.2, ok_bind]
          rfl
      | str =>
          rw [← hv', hk] at hslice
          obtain ⟨hsome, hget⟩ := getElem?_slice hslice hvar
          obtain ⟨t, ht⟩ := Option.isSome_iff_exists.mp hsome
          rw [ht] at hget
          rw [List.filterMap_cons_some ht, List.filterMap_cons_none (by rw [numOf, hk])]
          simp only [hget, ok_bind]
          rfl

/-- Past a message, one more variable of each slot of its template is used. -/
theorem cursorsAt_uses {done : List (Nat × List Var)} :
    (cursorsAt d ms fun key => uses done key.1 + if key.1 = id ∧ 0 ≤ key.2 then 1 else 0) =
      cursorsAt d ms fun key => uses (done ++ [(id, vars)]) key.1 := by
  refine cursorsAt_congr fun g _ => ?_
  by_cases hid : g.1.1 = id
  · simp [uses, hid]
  · simp [uses, hid, Ne.symm hid]

theorem renderMsg_spec (h : Laid d (done ++ (id, vars) :: todo))
    (hmsg : fillTemplate (d.dict.getD id []) vars = .ok msg) :
    renderMsg d id (cursorsAt d (done ++ (id, vars) :: todo) fun key => uses done key.1) =
      .ok (msg, cursorsAt d (done ++ (id, vars) :: todo)
        fun key => uses (done ++ [(id, vars)]) key.1) := by
  have hkinds : vars.map Var.kind = d.kinds id := h.arities (id, vars) (by simp)
  have htake := takeVars_spec h vars 0 rfl (fun key => uses done key.1) fun _ _ => rfl
  rw [cursorsAt_uses, hkinds] at htake
  rw [fillTemplate] at hmsg
  simp only [renderMsg, htake, ok_bind, hmsg]
  rfl

/-- The messages of a column from the cursors of the messages before. -/
theorem renderAll_spec {todo : List (Nat × List Var)} (h : Laid d ms) (done : List (Nat × List Var))
    (hms : ms = done ++ todo)
    (hmsgs : List.Forall₂ (fun m msg => fillTemplate (d.dict.getD m.1 []) m.2 = .ok msg) todo msgs) :
    renderAll d (todo.map Prod.fst) (cursorsAt d ms fun key => uses done key.1) = .ok msgs := by
  induction hmsgs generalizing done with
  | nil => rfl
  | @cons m msg todo msgs hm _ ih =>
      obtain ⟨id, vars⟩ := m
      subst hms
      have hrest := ih (done ++ [(id, vars)]) (by simp)
      simp only [List.map_cons, renderAll, renderMsg_spec h hm, ok_bind, hrest]
      rfl

/-! ### A written column -/

variable {c : Compressors}

theorem checkIds_ok {dictN : Nat} (hdict : dictN < 2 ^ 32) (ids : List Nat)
    (h : ∀ id ∈ ids, id < dictN) (i : Nat) :
    checkIds dictN i (ids.map fun id => Int64.ofNat id) = .ok ids := by
  induction ids generalizing i with
  | nil => rfl
  | cons id ids ih =>
      have hid := h id List.mem_cons_self
      have hvalue : (Int64.ofNat id).toNatClampNeg = id :=
        Int64.toNatClampNeg_ofNat_of_lt (by omega)
      have hpos : ¬(Int64.ofNat id < 0) := by
        rw [Int64.lt_iff_toInt_lt, Int64.toInt_ofNat_of_lt (by omega)]
        simp
      simp only [List.map_cons, checkIds]
      rw [rejectIf_neg (by rw [hvalue]; simp [hpos, hid]), ok_bind,
        ih (fun id hid => h id (List.mem_cons_of_mem _ hid)), hvalue]
      rfl

/-- The messages of a block as template ids and variables. -/
def blockMsgs (msgs : List Text) (splitRuns : Bool) : List (Nat × List Var) :=
  (tokenizeBlock msgs splitRuns).ids.zip (tokenizeBlock msgs splitRuns).msgVars

/-- A message of the block has the template its id names. -/
theorem blockMsgs_spec (msgs : List Text) (splitRuns : Bool) :
    List.Forall₂ (fun m msg => (tokenizeBlock msgs splitRuns).dict[m.1]? =
        some (tokenize msg splitRuns).1 ∧ m.2 = (tokenize msg splitRuns).2)
      (blockMsgs msgs splitRuns) msgs := by
  have htk := tokenizeBlock_tokenizedAs msgs splitRuns
  have htemplates := htk.templates
  rw [blockMsgs, htk.vars]
  generalize (tokenizeBlock msgs splitRuns).ids = ids at htemplates
  generalize (tokenizeBlock msgs splitRuns).dict = dict at htemplates ⊢
  clear htk
  induction msgs generalizing ids with
  | nil =>
      rw [List.map_nil, List.zip_nil_right]
      exact .nil
  | cons msg msgs ih =>
      cases ids with
      | nil => simp at htemplates
      | cons id ids =>
          rw [List.map_cons, List.map_cons, List.cons.injEq] at htemplates
          rw [List.map_cons, List.zip_cons_cons]
          exact .cons ⟨htemplates.1, rfl⟩ (ih ids htemplates.2)

theorem map_fst_blockMsgs (msgs : List Text) (splitRuns : Bool) :
    (blockMsgs msgs splitRuns).map Prod.fst = (tokenizeBlock msgs splitRuns).ids := by
  have htk := tokenizeBlock_tokenizedAs msgs splitRuns
  rw [blockMsgs, List.map_fst_zip]
  rw [htk.length_ids, htk.vars, List.length_map]

theorem exists_of_mem_blockMsgs {m : Nat × List Var} (hm : m ∈ blockMsgs msgs splitRuns) :
    ∃ msg ∈ msgs,
      (tokenizeBlock msgs splitRuns).dict[m.1]? = some (tokenize msg splitRuns).1 ∧
        m.2 = (tokenize msg splitRuns).2 := by
  obtain ⟨i, hi, rfl⟩ := List.getElem_of_mem hm
  obtain ⟨msg, hmsg, hspec⟩ := forall₂_getElem? (blockMsgs_spec msgs splitRuns)
    (List.getElem?_eq_getElem hi)
  exact ⟨msg, List.mem_of_getElem? hmsg, hspec⟩

theorem arities_blockMsgs (msgs : List Text) (splitRuns : Bool) :
    Arities (fun id => slotKinds ((tokenizeBlock msgs splitRuns).dict.getD id []))
      (blockMsgs msgs splitRuns) := by
  intro m hm
  obtain ⟨msg, -, htemplate, hvars⟩ := exists_of_mem_blockMsgs hm
  simp only [List.getD_eq_getElem?_getD, htemplate, Option.getD_some, hvars]
  exact (slotKinds_tokenize msg splitRuns).symm

theorem writable_tokenize (hv : v ∈ (tokenize msg splitRuns).2) :
    Writable v := by
  intro hk
  rw [tokenize_eq] at hv
  obtain ⟨i, hi, hv⟩ := List.mem_flatMap.mp hv
  have hsound := sound_items splitRuns msg i hi
  cases i with
  | lit ch => simp [Item.vars] at hv
  | var w =>
      obtain rfl : v = w := by simpa [Item.vars] using hv
      have hok := (hsound.2 hk).2
      rw [numRunOk, Bool.and_eq_true] at hok
      simp [numOf, hk, hok.2]

theorem groupLayout_blockMsgs (msgs : List Text) (splitRuns : Bool)
    (hnums : numColumns (orderedVars (tokenizeBlock msgs splitRuns)) = .ok nums) :
    ∃ layout, groupLayout (tokenizeBlock msgs splitRuns).ids
        ((tokenizeBlock msgs splitRuns).dict.map slotKinds) nums.length
        (strColumn (orderedVars (tokenizeBlock msgs splitRuns))).length = .ok layout ∧
      (∀ id, layout.base id = (slotGroups (blockMsgs msgs splitRuns)).findIdx? fun g => g.1.1 = id) ∧
      List.Forall₂ (GroupAt nums (strColumn (orderedVars (tokenizeBlock msgs splitRuns)))
          fun id => slotKinds ((tokenizeBlock msgs splitRuns).dict.getD id []))
        (slotGroups (blockMsgs msgs splitRuns)) layout.groups := by
  have hkinds : (fun id => ((tokenizeBlock msgs splitRuns).dict.map slotKinds).getD id []) =
      fun id => slotKinds ((tokenizeBlock msgs splitRuns).dict.getD id []) := by
    funext id
    rw [List.getD_eq_getElem?_getD, List.getD_eq_getElem?_getD, List.getElem?_map]
    cases (tokenizeBlock msgs splitRuns).dict[id]? <;> rfl
  have har := arities_blockMsgs msgs splitRuns
  rw [← hkinds] at har
  have hsizes := groupSizes_eq har
  rw [map_fst_blockMsgs] at hsizes
  have hvars : (slotGroups (blockMsgs msgs splitRuns)).flatMap Prod.snd =
      orderedVars (tokenizeBlock msgs splitRuns) := by
    rw [orderedVars, varGroups_eq]
    rfl
  have hlay := layoutFrom_spec ((tokenizeBlock msgs splitRuns).dict.map slotKinds)
    (slotGroups (blockMsgs msgs splitRuns))
    (fun g hg v hv => by
      obtain ⟨-, heq⟩ := mem_slotGroups.mp hg
      exact kind_of_mem_slotVars har (heq ▸ hv))
    (fun g hg v hv => by
      obtain ⟨-, heq⟩ := mem_slotGroups.mp hg
      rw [heq] at hv
      obtain ⟨m, hm, hv⟩ := List.mem_filterMap.mp hv
      split_ifs at hv
      obtain ⟨msg, -, -, hvars⟩ := exists_of_mem_blockMsgs hm
      rw [hvars] at hv
      exact writable_tokenize (List.mem_of_getElem? hv)) [] []
  rw [hvars, List.nil_append, List.nil_append, ← numColumns_eq hnums, ← strColumn_eq, hkinds,
    ← hsizes] at hlay
  obtain ⟨htotals, hgroups⟩ := hlay
  refine ⟨⟨fun id => (groupSizes (tokenizeBlock msgs splitRuns).ids
    ((tokenizeBlock msgs splitRuns).dict.map slotKinds)).findIdx? fun e => e.1.1 = id, _⟩, ?_,
    fun id => ?_, hgroups⟩
  · obtain ⟨hnum, hstr⟩ := Prod.mk.inj htotals
    rw [List.length_nil, List.length_nil] at hnum hstr
    simp only [groupLayout, hnum, hstr]
    rw [rejectIf_neg (by simp)]
    rfl
  · simp only [hsizes, List.findIdx?_map]
    rfl

variable {bytes : List UInt8}

/-- Nothing stands behind the sub-columns. -/
theorem run_templateColumns {cols : TemplateColumns}
    (hread : Reads readTemplateColumns bytes [] cols) :
    Reader.run bytes (do
      let cols ← readTemplateColumns
      let left ← remaining
      rejectIf (left ≠ 0) s!"template column: {left} trailing byte(s) after last sub-column"
      return cols) = .ok cols := by
  refine Reads.run (hread.bind_last ?_)
  exact reads_end cols
    fun left => s!"template column: {left} trailing byte(s) after last sub-column"

/-- **A written column, taken apart.** Within the decoder's caps it is read as the templates and
variables of the messages. -/
theorem readTemplate_encodeMode (hc : c.Lossless) {level : Int}
    (h : encodeMode c msgs splitRuns level = .ok bytes) (hfit : TemplateFits msgs splitRuns) :
    ∃ d, readTemplate c bytes msgs.length = .ok d ∧ Laid d (blockMsgs msgs splitRuns) ∧
      d.dict = (tokenizeBlock msgs splitRuns).dict ∧ d.ids = (tokenizeBlock msgs splitRuns).ids ∧
      d.mode = if splitRuns then 0 else 1 := by
  obtain ⟨nums, cols, hst, hread⟩ := encodeMode_ok h
  obtain ⟨ed, hed, hbd⟩ := hst.dict_col
  obtain ⟨es, hes, hbs⟩ := hst.strs_col
  obtain ⟨hids, hws, hvs⟩ := hst.numbers hc
  have hdict := decodeStr_encodeStr hc hed hbd hfit.1
  have hstrs := decodeStr_encodeStr hc hes hbs hfit.2
  have hcols := run_templateColumns hread
  have hchecked := checkIds_ok hst.dictN_lt (tokenizeBlock msgs splitRuns).ids
    (fun id hid => by
      rw [← map_fst_blockMsgs] at hid
      obtain ⟨m, hm, rfl⟩ := List.mem_map.mp hid
      obtain ⟨msg, -, htemplate, -⟩ := exists_of_mem_blockMsgs hm
      rw [hst.dictN_eq]
      exact (List.getElem?_eq_some_iff.mp htemplate).1) 0
  obtain ⟨layout, hlayout, hbase, hgroups⟩ :=
    groupLayout_blockMsgs msgs splitRuns hst.nums_ok
  rw [← hst.numN_eq, ← hst.strN_eq] at hlayout
  have hd : readTemplate c bytes msgs.length = .ok ⟨cols.mode, (tokenizeBlock msgs splitRuns).ids,
      (tokenizeBlock msgs splitRuns).dict, nums.map Prod.fst, nums.map Prod.snd,
      strColumn (orderedVars (tokenizeBlock msgs splitRuns)), layout⟩ := by
    simp only [readTemplate, hcols, hids, hdict, hws, hvs, hstrs, hchecked, hlayout, ok_bind]
    rfl
  refine ⟨_, hd, ⟨arities_blockMsgs msgs splitRuns, hbase, ?_⟩, rfl, rfl, hst.mode_eq⟩
  have hzip : (nums.map Prod.fst).zip (nums.map Prod.snd) = nums := by
    rw [List.zip_map', List.map_id']
  simp only [hzip]
  exact hgroups

theorem startCursors_eq (h : Laid d ms) :
    startCursors d = cursorsAt d ms fun key => uses [] key.1 := by
  rw [startCursors, cursorsAt]
  have hgroups := h.groups
  generalize slotGroups ms = gs at hgroups
  generalize d.layout.groups = grps at hgroups
  induction hgroups with
  | nil => rfl
  | cons _ _ ih =>
      rw [List.map_cons, List.zipWith_cons_cons, ih]
      rfl

theorem fillTemplate_blockMsgs (msgs : List Text) (splitRuns : Bool) :
    List.Forall₂ (fun m msg => fillTemplate ((tokenizeBlock msgs splitRuns).dict.getD m.1 []) m.2 =
      .ok msg) (blockMsgs msgs splitRuns) msgs := by
  refine (blockMsgs_spec msgs splitRuns).imp fun m msg ⟨htemplate, hvars⟩ => ?_
  rw [List.getD_eq_getElem?_getD, htemplate, hvars, Option.getD_some]
  exact fillTemplate_tokenize msg splitRuns

/-- **Round trip.** A written template column within the caps is its messages. -/
theorem decodeTemplateStr_encodeMode (hc : c.Lossless) {level : Int}
    (h : encodeMode c msgs splitRuns level = .ok bytes) (hfit : TemplateFits msgs splitRuns) :
    decodeTemplateStr c bytes msgs.length = .ok msgs := by
  obtain ⟨d, hd, hlaid, hdict, hids, -⟩ := readTemplate_encodeMode hc h hfit
  have hmsgs := fillTemplate_blockMsgs msgs splitRuns
  rw [← hdict] at hmsgs
  have hall := renderAll_spec hlaid [] (List.nil_append _).symm hmsgs
  rw [map_fst_blockMsgs, ← hids, ← startCursors_eq hlaid] at hall
  simp only [decodeTemplateStr, hd, ok_bind, hall]

end Timeless.Blocks
