import Timeless.Blocks.Feasible

/-!
# TemplateColumn — what a template column keeps of a block

The encoder reads every message of a block as a template and variables, numbers the templates in
the order they are first seen and writes the variables in columns. `encodeMode_ok` says what a
written column is: its sub-columns, and that they are read back as they were written.

With that the feasibility check can be told from the messages alone. On a column within the
decoder's caps `columnMayContain` answers, and

* `needleExplained_contains`: if some message contains the needle, the answer is `true`, except for
  an inner run of more than 19 digits that no string variable of the block holds;
* `columnMayContain_false_iff`: when the answer is `false`.
-/

namespace Timeless.Blocks

open Support Codec

/-! ### Templates and variables of a block -/

/-- Messages read so far, as templates and variables. -/
structure TokenizedAs (splitRuns : Bool) (tk : Tokenized) (msgs : List Text) : Prop where
  templates : tk.ids.map (fun id => tk.dict[id]?) =
    msgs.map fun msg => some (tokenize msg splitRuns).1
  vars : tk.msgVars = msgs.map fun msg => (tokenize msg splitRuns).2

variable {splitRuns : Bool} {msgs : List Text} {tk : Tokenized} {v : Var} {level : Int}
  {needle : Text}

theorem TokenizedAs.length_ids (h : TokenizedAs splitRuns tk msgs) :
    tk.ids.length = msgs.length := by
  simpa using congrArg List.length h.templates

theorem TokenizedAs.template_mem (h : TokenizedAs splitRuns tk msgs) {msg : Text}
    (hmsg : msg ∈ msgs) :
    (tokenize msg splitRuns).1 ∈ tk.dict := by
  have hmem : some (tokenize msg splitRuns).1 ∈ tk.ids.map fun id => tk.dict[id]? := by
    rw [h.templates]
    exact List.mem_map_of_mem hmsg
  obtain ⟨id, -, hid⟩ := List.mem_map.mp hmem
  exact List.mem_of_getElem? hid

/-- Ids of a dictionary stay what they are when it grows. -/
theorem getElem?_append_of_some {dict : List Text} {ids : List Nat} {ts : List Text}
    (h : ids.map (fun id => dict[id]?) = ts.map some) (more : List Text) :
    ids.map (fun id => (dict ++ more)[id]?) = ts.map some := by
  rw [← h]
  refine List.map_congr_left fun id hid => ?_
  have hsome : dict[id]? ∈ ts.map some := by
    rw [← h]
    exact List.mem_map_of_mem hid
  obtain ⟨t, -, ht⟩ := List.mem_map.mp hsome
  obtain ⟨hlt, -⟩ := List.getElem?_eq_some_iff.mp ht.symm
  exact List.getElem?_append_left hlt

theorem tokenizeMsg_tokenizedAs (h : TokenizedAs splitRuns tk msgs) (msg : Text) :
    TokenizedAs splitRuns (tokenizeMsg splitRuns tk msg) (msgs ++ [msg]) := by
  have hold : tk.ids.map (fun id => tk.dict[id]?) =
      (msgs.map fun msg => (tokenize msg splitRuns).1).map some := by
    rw [h.templates, List.map_map]
    rfl
  unfold tokenizeMsg
  dsimp only
  split
  · next id hid =>
      obtain ⟨hlt, hget, -⟩ := List.idxOf?_eq_some_iff.mp hid
      exact ⟨by simp [h.templates, hlt, hget], by simp [h.vars]⟩
  · refine ⟨?_, by simp [h.vars]⟩
    simp only [List.map_append, getElem?_append_of_some hold]
    simp

theorem tokenizeBlock_tokenizedAs (msgs : List Text) (splitRuns : Bool) :
    TokenizedAs splitRuns (tokenizeBlock msgs splitRuns) msgs := by
  have hrun : ∀ tk done, TokenizedAs splitRuns tk done →
      TokenizedAs splitRuns (msgs.foldl (tokenizeMsg splitRuns) tk) (done ++ msgs) := by
    induction msgs with
    | nil => exact fun tk done h => by simpa using h
    | cons msg msgs ih =>
        intro tk done h
        have := ih _ _ (tokenizeMsg_tokenizedAs h msg)
        simpa using this
  exact hrun ⟨[], [], []⟩ [] ⟨rfl, rfl⟩

/-! ### The order of the variables -/

variable {groups : List ((Nat × Nat) × List Var)}

theorem mem_push_slots {id : Nat} {vs : List (Var × Nat)} :
    v ∈ (vs.foldl (fun groups w => OrdMap.push slotLt (id, w.2) w.1 groups) groups).flatMap
        Prod.snd ↔ v ∈ groups.flatMap Prod.snd ∨ v ∈ vs.map Prod.fst := by
  induction vs generalizing groups with
  | nil => simp
  | cons w vs ih =>
      rw [List.foldl_cons, ih, OrdMap.mem_values_push, List.map_cons, List.mem_cons]
      tauto

theorem mem_push_messages {ms : List (Nat × List Var)} :
    v ∈ (ms.foldl (fun groups m => m.2.zipIdx.foldl
      (fun groups v => OrdMap.push slotLt (m.1, v.2) v.1 groups) groups) groups).flatMap Prod.snd ↔
      v ∈ groups.flatMap Prod.snd ∨ ∃ m ∈ ms, v ∈ m.2 := by
  induction ms generalizing groups with
  | nil => simp
  | cons m ms ih =>
      rw [List.foldl_cons, ih, mem_push_slots]
      simp only [List.zipIdx_map_fst, List.exists_mem_cons_iff]
      tauto

/-- The columns hold the variables of the messages and no others. -/
theorem mem_orderedVars :
    v ∈ orderedVars (tokenizeBlock msgs splitRuns) ↔ ∃ msg ∈ msgs, v ∈ (tokenize msg splitRuns).2 := by
  have htk := tokenizeBlock_tokenizedAs msgs splitRuns
  rw [orderedVars, varGroups, mem_push_messages]
  have hlen : (tokenizeBlock msgs splitRuns).msgVars.length ≤
      (tokenizeBlock msgs splitRuns).ids.length := by
    rw [htk.length_ids, htk.vars, List.length_map]
  have hsnd : ((tokenizeBlock msgs splitRuns).ids.zip (tokenizeBlock msgs splitRuns).msgVars).map
      Prod.snd = msgs.map fun msg => (tokenize msg splitRuns).2 := by
    rw [List.map_snd_zip hlen, htk.vars]
  constructor
  · rintro (h | ⟨m, hm, hv⟩)
    · simp at h
    · have := List.mem_map_of_mem (f := Prod.snd) hm
      rw [hsnd] at this
      obtain ⟨msg, hmsg, heq⟩ := List.mem_map.mp this
      exact ⟨msg, hmsg, by rwa [heq]⟩
  · rintro ⟨msg, hmsg, hv⟩
    have : (tokenize msg splitRuns).2 ∈ ((tokenizeBlock msgs splitRuns).ids.zip
        (tokenizeBlock msgs splitRuns).msgVars).map Prod.snd := by
      rw [hsnd]
      exact List.mem_map_of_mem (f := fun msg => (tokenize msg splitRuns).2) hmsg
    obtain ⟨m, hm, heq⟩ := List.mem_map.mp this
    exact .inr ⟨m, hm, by rwa [heq]⟩

/-! ### The sub-columns -/

variable {c : Compressors}

/-- The sub-columns of a template column are those of the block's templates and variables. -/
structure ModeStored (c : Compressors) (msgs : List Text) (splitRuns : Bool) (level : Int)
    (nums : List (UInt8 × Int64)) (cols : TemplateColumns) : Prop where
  nums_ok : numColumns (orderedVars (tokenizeBlock msgs splitRuns)) = .ok nums
  mode_eq : cols.mode = if splitRuns then 0 else 1
  dictN_eq : cols.dictN = (tokenizeBlock msgs splitRuns).dict.length
  dictN_lt : cols.dictN < 2 ^ 32
  numN_eq : cols.numN = nums.length
  strN_eq : cols.strN = (strColumn (orderedVars (tokenizeBlock msgs splitRuns))).length
  ids_col : ∃ e, encodeI64 c ((tokenizeBlock msgs splitRuns).ids.map fun id => Int64.ofNat id)
    level = .ok e ∧ e.toBytes = .ok cols.ids
  dict_col : ∃ e, encodeStr c (tokenizeBlock msgs splitRuns).dict cols.dictN level = .ok e ∧
    e.toBytes = .ok cols.dict
  widths_col : ∃ e, encodeU8 c (nums.map Prod.fst) level = .ok e ∧ e.toBytes = .ok cols.widths
  values_col : ∃ e, encodeI64 c (nums.map Prod.snd) level = .ok e ∧ e.toBytes = .ok cols.values
  strs_col : ∃ e, encodeStr c (strColumn (orderedVars (tokenizeBlock msgs splitRuns))) cols.strN
    level = .ok e ∧ e.toBytes = .ok cols.strs

variable {nums : List (UInt8 × Int64)} {bytes : List UInt8} {needle msg : Text}

/-- What a template column is that was written. -/
theorem encodeMode_ok (h : encodeMode c msgs splitRuns level = .ok bytes) :
    ∃ nums cols, ModeStored c msgs splitRuns level nums cols ∧
      Reads readTemplateColumns bytes [] cols := by
  obtain ⟨nums, hnums, h⟩ := of_bind h
  obtain ⟨ids, hids, h⟩ := of_bind h
  obtain ⟨idsCol, hidsCol, h⟩ := of_bind h
  obtain ⟨dict, hdict, h⟩ := of_bind h
  obtain ⟨dictCol, hdictCol, h⟩ := of_bind h
  obtain ⟨ws, hws, h⟩ := of_bind h
  obtain ⟨wCol, hwCol, h⟩ := of_bind h
  obtain ⟨vs, hvs, h⟩ := of_bind h
  obtain ⟨vCol, hvCol, h⟩ := of_bind h
  obtain ⟨strs, hstrs, h⟩ := of_bind h
  obtain ⟨sCol, hsCol, h⟩ := of_bind h
  obtain ⟨hdictN, h⟩ := rejectIf_bind_eq_ok.mp h
  obtain ⟨hnumN, h⟩ := rejectIf_bind_eq_ok.mp h
  obtain ⟨hstrN, h⟩ := rejectIf_bind_eq_ok.mp h
  obtain ⟨hcols, h⟩ := rejectIf_bind_eq_ok.mp h
  obtain ⟨rfl⟩ := Except.ok.inj h
  have hlen : ∀ col ∈ [idsCol, dictCol, wCol, vCol, sCol], col.length < 2 ^ 32 := by
    intro col hcol
    refine lt_of_le_u32Max (not_lt.mp fun hlt => hcols (List.any_eq_true.mpr ⟨col, hcol, ?_⟩))
    simpa using hlt
  refine ⟨nums, ⟨if splitRuns then 0 else 1, _, _, _, idsCol, dictCol, wCol, vCol, sCol⟩,
    ⟨hnums, rfl, rfl, lt_of_le_u32Max (not_lt.mp hdictN), rfl, rfl, ⟨ids, hids, hidsCol⟩,
      ⟨dict, hdict, hdictCol⟩, ⟨ws, hws, hwCol⟩,
      ⟨vs, hvs, hvCol⟩, ⟨strs, hstrs, hsCol⟩⟩, ?_⟩
  simp only [List.flatMap_cons, List.flatMap_nil, List.flatten_cons, List.flatten_nil,
    List.append_nil, List.append_assoc]
  refine (reads_u8 _ _ _).bind ?_
  refine (reads_u32 (lt_of_le_u32Max (not_lt.mp hdictN)) _ _).bind ?_
  refine (reads_u32 (lt_of_le_u32Max (not_lt.mp hnumN)) _ _).bind ?_
  refine (reads_u32 (lt_of_le_u32Max (not_lt.mp hstrN)) _ _).bind ?_
  refine (reads_u32 (hlen idsCol (by simp)) _ _).bind ?_
  refine (reads_u32 (hlen dictCol (by simp)) _ _).bind ?_
  refine (reads_u32 (hlen wCol (by simp)) _ _).bind ?_
  refine (reads_u32 (hlen vCol (by simp)) _ _).bind ?_
  refine (reads_u32 (hlen sCol (by simp)) _ _).bind ?_
  refine (reads_take rfl _ _).bind ?_
  refine (reads_take rfl _ _).bind ?_
  refine (reads_take rfl _ _).bind ?_
  refine (reads_take rfl _ _).bind ?_
  exact (reads_take rfl _ _).map fun strs => TemplateColumns.mk _ _ _ _ idsCol dictCol wCol vCol strs

/-! ### The check on a written column -/

/-- The string variables of a block. -/
def blockStrs (msgs : List Text) (splitRuns : Bool) : List Text :=
  strColumn (orderedVars (tokenizeBlock msgs splitRuns))

theorem mem_blockStrs {t : Text} :
    t ∈ blockStrs msgs splitRuns ↔ ∃ msg ∈ msgs, t ∈ strTexts splitRuns msg := by
  simp only [blockStrs, strTexts, mem_strColumn, mem_orderedVars]

/-- The string sub-columns of a template column are within the decoder's caps. -/
def TemplateFits (msgs : List Text) (splitRuns : Bool) : Prop :=
  StrColumnFits (tokenizeBlock msgs splitRuns).dict ∧ StrColumnFits (blockStrs msgs splitRuns)

instance (msgs : List Text) (splitRuns : Bool) : Decidable (TemplateFits msgs splitRuns) := by
  unfold TemplateFits
  infer_instance

/-- The literal text of a block's templates. -/
def blockSegments (msgs : List Text) (splitRuns : Bool) : List (List UInt8) :=
  ((tokenizeBlock msgs splitRuns).dict.flatMap templateSegments).map utf8

/-- A needle the check looks at: not empty, and ASCII only. -/
def Checkable (needle : Text) : Prop :=
  (utf8 needle).isEmpty = false ∧ isAscii (utf8 needle) = true

theorem columnMayContain_unchecked (h : ¬Checkable needle) (bytes : List UInt8) :
    columnMayContain c bytes needle = .ok true := by
  have hskip : ((utf8 needle).isEmpty || !isAscii (utf8 needle)) = true := by
    by_contra hno
    simp only [Bool.or_eq_true, Bool.not_eq_true', not_or, Bool.not_eq_true,
      Bool.not_eq_false] at hno
    exact h hno
  simp only [columnMayContain, hskip, if_true]
  rfl

/-- The numbers come back, whatever the caps. -/
theorem ModeStored.numbers {cols : TemplateColumns} (hc : c.Lossless)
    (hst : ModeStored c msgs splitRuns level nums cols) :
    decodeI64 c cols.ids msgs.length =
        .ok ((tokenizeBlock msgs splitRuns).ids.map fun id => Int64.ofNat id) ∧
      decodeU8 c cols.widths cols.numN = .ok (nums.map Prod.fst) ∧
      decodeI64 c cols.values cols.numN = .ok (nums.map Prod.snd) := by
  obtain ⟨ei, hei, hbi⟩ := hst.ids_col
  obtain ⟨ew, hew, hbw⟩ := hst.widths_col
  obtain ⟨ev, hev, hbv⟩ := hst.values_col
  have hids := decodeI64_encodeI64 hc hei hbi
  have hws := decodeU8_encodeU8 hc hew hbw
  have hvs := decodeI64_encodeI64 hc hev hbv
  rw [List.length_map, (tokenizeBlock_tokenizedAs msgs splitRuns).length_ids] at hids
  rw [List.length_map, ← hst.numN_eq] at hws hvs
  exact ⟨hids, hws, hvs⟩

theorem columnMayContain_eq (hc : c.Lossless) {cols : TemplateColumns}
    (hst : ModeStored c msgs splitRuns level nums cols)
    (hread : Reader.run bytes readTemplateColumns = .ok cols) (hfit : TemplateFits msgs splitRuns)
    (hn : Checkable needle) :
    columnMayContain c bytes needle = .ok
      (if !splitRuns && tokenConfinedMixed (utf8 needle) then
        ((blockStrs msgs splitRuns).map utf8).any fun v => containsCi v (utf8 needle)
      else needleExplained (blockSegments msgs splitRuns) ((blockStrs msgs splitRuns).map utf8)
        (if hasInnerRun (utf8 needle) then nums else []) true (needlePieces (utf8 needle))) := by
  obtain ⟨ed, hed, hbd⟩ := hst.dict_col
  obtain ⟨es, hes, hbs⟩ := hst.strs_col
  obtain ⟨-, hws, hvs⟩ := hst.numbers hc
  have hdict := decodeStr_encodeStr hc hed hbd hfit.1
  have hstrs := decodeStr_encodeStr hc hes hbs hfit.2
  have hmode : (cols.mode == 1) = !splitRuns := by
    rw [hst.mode_eq]
    cases splitRuns <;> rfl
  have hskip : ((utf8 needle).isEmpty || !isAscii (utf8 needle)) = false := by
    simp [hn.1, hn.2]
  have hzip : (nums.map Prod.fst).zip (nums.map Prod.snd) = nums := by
    rw [List.zip_map', List.map_id']
  simp only [columnMayContain, hskip, hread, hdict, hstrs, ok_bind, hmode, Bool.false_eq_true,
    if_false]
  split_ifs
  · rfl
  · simp only [hws, hvs, ok_bind, pure_eq_ok, hzip]
    rfl
  · rfl

theorem columnMayContain_over (hc : c.Lossless) {cols : TemplateColumns}
    (hst : ModeStored c msgs splitRuns level nums cols)
    (hread : Reader.run bytes readTemplateColumns = .ok cols) (hfit : ¬TemplateFits msgs splitRuns)
    (hn : Checkable needle) :
    ∃ err, columnMayContain c bytes needle = .error err := by
  obtain ⟨ed, hed, hbd⟩ := hst.dict_col
  obtain ⟨es, hes, hbs⟩ := hst.strs_col
  have hskip : ((utf8 needle).isEmpty || !isAscii (utf8 needle)) = false := by
    simp [hn.1, hn.2]
  simp only [columnMayContain, hskip, hread, ok_bind, Bool.false_eq_true, if_false]
  by_cases hd : StrColumnFits (tokenizeBlock msgs splitRuns).dict
  · rw [decodeStr_encodeStr hc hed hbd hd, ok_bind]
    exact bind_error _ (decodeStr_over hc hes hbs fun hs => hfit ⟨hd, hs⟩)
  · exact bind_error _ (decodeStr_over hc hed hbd hd)

/-! ### The check and the messages -/

/-- The message contains the needle, up to ASCII case. -/
def ContainsLow (msg needle : Text) : Prop :=
  low (utf8 needle) <:+: low (utf8 msg)

/-- Some inner run of the needle has more than 19 digits and is a maximal digit run of no string
variable of the block: nothing the check looks at accounts for it. -/
def OverlooksRun (msgs : List Text) (splitRuns : Bool) (needle : Text) : Prop :=
  ∃ r ∈ innerRuns (utf8 needle), 19 < r.length ∧
    ∀ t ∈ blockStrs msgs splitRuns, hasMaximalDigitRun (utf8 t) r = false

theorem ContainsLow.piece {msg : Text} (h : ContainsLow msg needle) {p : List UInt8}
    (hp : p ∈ needlePieces (utf8 needle)) : low p <:+: low (utf8 msg) := by
  have hin : p <:+: utf8 needle := by
    have hflat : (needlePieces (utf8 needle)).flatten = utf8 needle := List.flatten_splitBy _ _
    rw [← hflat]
    obtain ⟨ps, qs, hps⟩ := List.append_of_mem hp
    exact ⟨ps.flatten, qs.flatten, by simp [hps]⟩
  exact (hin.map _).trans h

/-- Fragments of a needle some message contains are accounted for by the block. -/
theorem fragments_explained (hmsg : msg ∈ msgs) (h : ContainsLow msg needle) {p : List UInt8}
    (hp : p ∈ needlePieces (utf8 needle)) (hd : p.any isAsciiDigit = false) :
    fragmentFeasible p (blockSegments msgs splitRuns) ((blockStrs msgs splitRuns).map utf8) =
      true := by
  have hfree : Free isAsciiDigit p := fun b hb => by simpa using List.any_eq_false.mp hd b hb
  have hseg : ∀ s ∈ templateSegments (tokenize msg splitRuns).1,
      utf8 s ∈ blockSegments msgs splitRuns := by
    intro s hs
    have htpl := (tokenizeBlock_tokenizedAs msgs splitRuns).template_mem hmsg
    exact List.mem_map_of_mem (List.mem_flatMap.mpr ⟨_, htpl, hs⟩)
  have hstr : ∀ t ∈ strTexts splitRuns msg, utf8 t ∈ (blockStrs msgs splitRuns).map utf8 :=
    fun t ht => List.mem_map_of_mem (mem_blockStrs.mpr ⟨msg, hmsg, ht⟩)
  exact fragment_explained splitRuns hseg hstr hfree (h.piece hp)

/-- An inner run of a needle some message contains is explained unless it is overlooked. -/
theorem innerRun_explained_iff
    (hnums : numColumns (orderedVars (tokenizeBlock msgs splitRuns)) = .ok nums) (hmsg : msg ∈ msgs)
    (h : ContainsLow msg needle) {r : List UInt8} (hr : r ∈ innerRuns (utf8 needle)) :
    runExplained nums ((blockStrs msgs splitRuns).map utf8) r = true ↔
      (19 < r.length → ∃ t ∈ blockStrs msgs splitRuns, hasMaximalDigitRun (utf8 t) r = true) := by
  by_cases hlen : r.length ≤ 19
  · have hvs : ∀ v ∈ (tokenize msg splitRuns).2, v ∈ orderedVars (tokenizeBlock msgs splitRuns) :=
      fun v hv => mem_orderedVars.mpr ⟨msg, hmsg, hv⟩
    have hex := innerRun_explained splitRuns hvs hnums hr h hlen
    exact iff_of_true hex fun hlt => absurd hlen (not_le.mpr hlt)
  · rw [runExplained_long (not_le.mp hlen), List.any_map, List.any_eq_true]
    simp [not_le.mp hlen]

/-- Whether the whole needle is explained, by a block with a message that contains it. -/
theorem needleExplained_contains
    (hnums : numColumns (orderedVars (tokenizeBlock msgs splitRuns)) = .ok nums) (hmsg : msg ∈ msgs)
    (h : ContainsLow msg needle) :
    needleExplained (blockSegments msgs splitRuns) ((blockStrs msgs splitRuns).map utf8)
        (if hasInnerRun (utf8 needle) then nums else []) true (needlePieces (utf8 needle)) = false ↔
      OverlooksRun msgs splitRuns needle := by
  have hfrag : ∀ p ∈ needlePieces (utf8 needle), p.any isAsciiDigit = false →
      fragmentFeasible p (blockSegments msgs splitRuns) ((blockStrs msgs splitRuns).map utf8) =
        true :=
    fun p hp hd => fragments_explained hmsg h hp hd
  have hinner : ∀ r ∈ innerRuns (utf8 needle), hasInnerRun (utf8 needle) = true := fun r hr =>
    let ⟨hne, hdig, hin⟩ := innerRuns_spec hr
    hasInnerRun_of_innerRun hne hdig hin
  rw [← Bool.not_eq_true, needleExplained_iff, and_iff_right hfrag]
  constructor
  · intro hno
    push Not at hno
    obtain ⟨r, hr, hunex⟩ := hno
    rw [if_pos (hinner r hr), Ne, innerRun_explained_iff hnums hmsg h hr] at hunex
    push Not at hunex
    exact ⟨r, hr, hunex.1, fun t ht => by simpa using hunex.2 t ht⟩
  · rintro ⟨r, hr, hlen, hno⟩ hall
    have hex := hall r hr
    rw [if_pos (hinner r hr), innerRun_explained_iff hnums hmsg h hr] at hex
    obtain ⟨t, ht, hrun⟩ := hex hlen
    exact absurd hrun (by simp [hno t ht])

/-- **The check, on a matching block.** With a message that contains the needle the answer is
`false` exactly for an overlooked run, outside the confined case of whole-token mode. -/
theorem columnMayContain_false_iff (hc : c.Lossless)
    (h : encodeMode c msgs splitRuns level = .ok bytes) (hmsg : msg ∈ msgs)
    (hin : ContainsLow msg needle) :
    columnMayContain c bytes needle = .ok false ↔
      TemplateFits msgs splitRuns ∧ Checkable needle ∧
        (!splitRuns && tokenConfinedMixed (utf8 needle)) = false ∧
        OverlooksRun msgs splitRuns needle := by
  obtain ⟨nums, cols, hst, hread⟩ := encodeMode_ok h
  by_cases hn : Checkable needle
  swap
  · simp [columnMayContain_unchecked hn, hn]
  by_cases hfit : TemplateFits msgs splitRuns
  swap
  · obtain ⟨err, herr⟩ := columnMayContain_over hc hst hread.run hfit hn
    simp [herr, hfit]
  rw [columnMayContain_eq hc hst hread.run hfit hn, Except.ok.injEq]
  by_cases hconf : (!splitRuns && tokenConfinedMixed (utf8 needle)) = true
  · -- the needle lies inside a string variable of the message
    rw [if_pos hconf, hconf]
    simp only [Bool.and_eq_true, Bool.not_eq_true'] at hconf
    obtain ⟨rfl, hmix⟩ := hconf
    obtain ⟨v, hv, hk, hsub⟩ := confined_var hmix hin
    have hmem : v.text ∈ blockStrs msgs false := by
      refine mem_blockStrs.mpr ⟨msg, hmsg, mem_strTexts.mpr ?_⟩
      rw [← hk]
      exact hv
    have hany : (((blockStrs msgs false).map utf8).any fun v => containsCi v (utf8 needle)) = true :=
      List.any_eq_true.mpr ⟨_, List.mem_map_of_mem hmem, containsCi_iff.mpr hsub⟩
    simp [hany]
  · rw [if_neg hconf, needleExplained_contains hst.nums_ok hmsg hin]
    simp [hfit, hn, Bool.not_eq_true _ ▸ hconf]

end Timeless.Blocks
