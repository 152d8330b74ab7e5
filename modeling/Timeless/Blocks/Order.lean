import Timeless.Blocks.Pruning
import Timeless.Support.Comparator

/-!
# Order — the order of entries with one timestamp

Equal timestamps are ordered by message, severity and metadata. The metadata of two entries is
compared by the text of their JSON if both have one, and by their pairs otherwise, so which key is
used depends on both sides. A legacy entry can then lie, by its pairs, between two rich ones whose
texts are ordered the other way, and the comparison has a cycle.

* `canonicalEntryCmp_preorder_iff`: it has none exactly if no legacy entry is `Misplaced` between two
  rich ones of its message and severity;
* `consistent_of_uniform`: so it has none among entries that all have JSON, and among entries that
  all have none.
-/

namespace Timeless.Blocks

open Support Codec Engine
open Std (TransCmp OrientedCmp ReflCmp)

/-! ### Keys -/

theorem textCmp_isLE {a b : Text} : (textCmp a b).isLE ↔ textLt b a = false := by
  unfold textCmp
  split_ifs with hab hba
  · have hba : textLt b a = false := by
      rw [← Bool.not_eq_true]
      intro hba
      have := textLt_linear.trans _ _ _ hab hba
      rw [textLt_linear.irrefl] at this
      cases this
    simpa using hba
  · simpa using hba
  · simpa using hba

instance : TransCmp textCmp where
  eq_swap {a b} := by
    unfold textCmp
    split_ifs with hab hba
    · have := textLt_linear.trans _ _ _ hab hba
      rw [textLt_linear.irrefl] at this
      cases this
    all_goals rfl
  isLE_trans {a b c} hab hbc := by
    rw [textCmp_isLE] at *
    rw [← Bool.not_eq_true] at *
    intro hca
    by_cases hcb : textLt c b = true
    · exact hbc hcb
    · by_cases hbc' : textLt b c = true
      · exact hab (textLt_linear.trans _ _ _ hbc' hca)
      · rw [Bool.not_eq_true] at hcb hbc'
        exact hab (textLt_linear.total _ _ hcb hbc' ▸ hca)

theorem textCmp_eq_eq {a b : Text} : textCmp a b = .eq ↔ a = b := by
  constructor
  · intro h
    have hab : (textCmp a b).isLE := Ordering.isLE_of_eq_eq h
    have hba : (textCmp b a).isLE := Ordering.isLE_of_eq_eq (OrientedCmp.eq_symm h)
    exact textLt_linear.total _ _ (textCmp_isLE.mp hba) (textCmp_isLE.mp hab)
  · rintro rfl
    exact ReflCmp.compare_self

def pairCmp (p q : Text × Text) : Ordering :=
  (textCmp p.1 q.1).then (textCmp p.2 q.2)

instance : TransCmp pairCmp :=
  have := transCmp_key textCmp (Prod.fst (α := Text) (β := Text))
  have := transCmp_key textCmp (Prod.snd (α := Text) (β := Text))
  inferInstanceAs (TransCmp (compareLex (fun p q : Text × Text => textCmp p.1 q.1)
    fun p q => textCmp p.2 q.2))

theorem pairsCmp_eq (ps qs : Pairs) : pairsCmp ps qs = List.compareLex pairCmp ps qs := by
  induction ps generalizing qs with
  | nil => cases qs <;> rfl
  | cons p ps ih =>
      cases qs with
      | nil => rfl
      | cons q qs =>
          rw [pairsCmp, List.compareLex_cons_cons, ih, ← Ordering.then_assoc]
          change (pairCmp p q).then _ = _
          cases pairCmp p q <;> rfl

instance : TransCmp pairsCmp := by
  have heq : pairsCmp = List.compareLex pairCmp := by
    funext ps qs
    exact pairsCmp_eq ps qs
  rw [heq]
  infer_instance

/-! ### The comparison -/

/-- Message, then severity. -/
def headCmp (a b : LogEntry) : Ordering :=
  (textCmp a.message b.message).then (textCmp a.severityName b.severityName)

/-- JSON if both have it, else pairs. -/
def metadataCmp : LogEntry → LogEntry → Ordering :=
  switchCmp LogEntry.metadataJson textCmp fun a b => pairsCmp a.metadata b.metadata

theorem canonicalEntryCmp_eq (a b : LogEntry) :
    canonicalEntryCmp a b = (headCmp a b).then (metadataCmp a b) := by
  rw [canonicalEntryCmp, headCmp, Ordering.then_assoc, metadataCmp, switchCmp]
  cases a.metadataJson <;> cases b.metadataJson <;> rfl

instance : TransCmp headCmp :=
  have := transCmp_key textCmp LogEntry.message
  have := transCmp_key textCmp LogEntry.severityName
  inferInstanceAs (TransCmp (compareLex (fun a b : LogEntry => textCmp a.message b.message)
    fun a b => textCmp a.severityName b.severityName))

theorem transCmp_pairs : TransCmp fun a b : LogEntry => pairsCmp a.metadata b.metadata :=
  transCmp_key pairsCmp LogEntry.metadata

instance : OrientedCmp metadataCmp :=
  have := transCmp_pairs
  orientedCmp_switch

/-- Whatever the entries, swapping two of them swaps the result. -/
instance : OrientedCmp canonicalEntryCmp := by
  have heq : canonicalEntryCmp = fun a b => (headCmp a b).then (metadataCmp a b) := by
    funext a b
    exact canonicalEntryCmp_eq a b
  rw [heq]
  exact orientedCmp_lex headCmp metadataCmp

theorem headCmp_eq_eq {a b : LogEntry} :
    headCmp a b = .eq ↔ a.message = b.message ∧ a.severityName = b.severityName := by
  rw [headCmp, Ordering.then_eq_eq, textCmp_eq_eq, textCmp_eq_eq]

/-- A legacy entry between two rich ones with its message and severity: by their pairs it comes
after `a` and before `b`, and the JSON texts of these two are not ordered so. -/
structure Misplaced (a l b : LogEntry) : Prop where
  message : a.message = l.message ∧ l.message = b.message
  severity : a.severityName = l.severityName ∧ l.severityName = b.severityName
  legacy : l.metadataJson = none
  after : pairsCmp a.metadata l.metadata ≠ .gt
  before : pairsCmp l.metadata b.metadata ≠ .gt
  texts : ∃ s t, a.metadataJson = some s ∧ b.metadataJson = some t ∧
    textCmp s t ≠ (pairsCmp a.metadata l.metadata).then (pairsCmp l.metadata b.metadata)

theorem misplaced_iff {a l b : LogEntry} :
    Misplaced a l b ↔ headCmp l a = .eq ∧ headCmp l b = .eq ∧
      Crosses LogEntry.metadataJson textCmp (fun a b => pairsCmp a.metadata b.metadata) a l b := by
  rw [headCmp_eq_eq, headCmp_eq_eq]
  constructor
  · rintro ⟨hmsg, hsev, hlegacy, hafter, hbefore, htexts⟩
    exact ⟨⟨hmsg.1.symm, hsev.1.symm⟩, ⟨hmsg.2, hsev.2⟩, hlegacy,
      Ordering.isLE_iff_ne_gt.mpr hafter, Ordering.isLE_iff_ne_gt.mpr hbefore, htexts⟩
  · rintro ⟨ha, hb, hlegacy, hafter, hbefore, htexts⟩
    exact ⟨⟨ha.1.symm, hb.1⟩, ⟨ha.2.symm, hb.2⟩, hlegacy, Ordering.isLE_iff_ne_gt.mp hafter,
      Ordering.isLE_iff_ne_gt.mp hbefore, htexts⟩

theorem consistentOn_canonical_iff (S : Set LogEntry) :
    ConsistentOn canonicalEntryCmp S ↔ ∀ a ∈ S, ∀ l ∈ S, ∀ b ∈ S, ¬Misplaced a l b := by
  have := transCmp_pairs
  have hcmp : canonicalEntryCmp = fun a b => (headCmp a b).then (metadataCmp a b) := by
    funext a b
    exact canonicalEntryCmp_eq a b
  rw [hcmp, consistentOn_lex]
  unfold metadataCmp
  simp only [consistentOn_switch]
  constructor
  · intro h a ha l hl b hb hmis
    obtain ⟨hla, hlb, hcross⟩ := misplaced_iff.mp hmis
    exact h l hl a ⟨ha, hla⟩ l ⟨hl, ReflCmp.compare_self⟩ b ⟨hb, hlb⟩ hcross
  · rintro h d hd a ⟨ha, hda⟩ l ⟨hl, hdl⟩ b ⟨hb, hdb⟩ hcross
    have hld := OrientedCmp.eq_symm hdl
    exact h a ha l hl b hb (misplaced_iff.mpr
      ⟨TransCmp.eq_trans hld hda, TransCmp.eq_trans hld hdb, hcross⟩)

/-- Entries that all have JSON, or that all have none, are ordered consistently. -/
theorem consistent_of_uniform {S : Set LogEntry}
    (h : (∀ e ∈ S, e.metadataJson.isSome = true) ∨ ∀ e ∈ S, e.metadataJson = none) :
    ConsistentOn canonicalEntryCmp S := by
  refine (consistentOn_canonical_iff S).mpr fun a ha l hl b hb hmis => ?_
  rcases h with h | h
  · have := h l hl
    rw [hmis.legacy] at this
    cases this
  · obtain ⟨s, t, hs, -⟩ := hmis.texts
    rw [h a ha] at hs
    cases hs

/-- **Canonical order.** On any set of entries the comparison is reflexive, and antisymmetric in that
swapping the entries swaps the result. It is transitive exactly if no legacy entry of the set is
misplaced between two rich ones. -/
theorem canonicalEntryCmp_preorder_iff (S : Set LogEntry) :
    (∀ a ∈ S, canonicalEntryCmp a a = .eq) ∧
      (∀ a ∈ S, ∀ b ∈ S, canonicalEntryCmp b a = (canonicalEntryCmp a b).swap) ∧
      ((∀ a ∈ S, ∀ b ∈ S, ∀ c ∈ S, canonicalEntryCmp a b ≠ .gt → canonicalEntryCmp b c ≠ .gt →
          canonicalEntryCmp a c ≠ .gt) ↔
        ∀ a ∈ S, ∀ l ∈ S, ∀ b ∈ S, ¬Misplaced a l b) := by
  refine ⟨fun a _ => ReflCmp.compare_self, fun a _ b _ => OrientedCmp.eq_swap, ?_⟩
  rw [← consistentOn_canonical_iff, consistentOn_iff]
  simp only [Ordering.isLE_iff_ne_gt, ne_eq]

/-! ### A cycle -/

/-- The metadata object of an SQL `INSERT`, empty if none is given. -/
def insertedObject {N : Type} (js : SerdeJson N) : Option Text → Except String (List (Text × Json N))
  | none => .ok []
  | some json =>
      match js.fromStr json with
      | .error e => .error s!"invalid JSON: {e}"
      | .ok (.object fields) => .ok (OrdMap.ofList textLt fields)
      | .ok _ => .error "expected a JSON object"

def Json.isString {N : Type} : Json N → Bool
  | .string _ => true
  | _ => false

/-- The entry of an SQL `INSERT`: rich if its severity is not the name of its level or some value of
its metadata is not a string. `columns` are the index-key columns that are given. -/
def insertedEntry {N : Type} (js : SerdeJson N) (ts : Int64) (levelText message : Text)
    (metadataJson : Option Text) (columns : Pairs) : Except String LogEntry := do
  let severity ← canonicalSeverity levelText
  let level ← levelFromName severity
  let parsed ← insertedObject js metadataJson
  let sorted := columns.foldl (fun fields p => OrdMap.insert textLt p.1 (.string p.2) fields) parsed
  let metadata := columns.foldl (fun pairs p => pairs.filter (fun q => q.1 ≠ p.1) ++ [p])
    (parsed.map fun p => (p.1, metadataValue js p.2))
  let canonical ← (js.toStr (.object sorted)).mapError fun e => s!"encode metadata JSON: {e}"
  let rich := severity != levelName level || !sorted.all fun p => p.2.isString
  return ⟨ts, level, if rich then some severity else none, message, metadata,
    if rich then some canonical else none⟩

/-- The objects `a: 1`, `a: "2", b: 1` and `a: "1x"`, and no others. -/
def threeObjects : SerdeJson Unit where
  fromStr t :=
    if t = "\x7b\"a\":1\x7d".toList then .ok (.object [("a".toList, .number ())])
    else if t = "\x7b\"a\":\"2\",\"b\":1\x7d".toList then
      .ok (.object [("a".toList, .string "2".toList), ("b".toList, .number ())])
    else if t = "\x7b\"a\":\"1x\"\x7d".toList then
      .ok (.object [("a".toList, .string "1x".toList)])
    else .error "expected value"
  toStr
    | .object [(_, .number _)] => .ok "\x7b\"a\":1\x7d".toList
    | .object [_, _] => .ok "\x7b\"a\":\"2\",\"b\":1\x7d".toList
    | .object _ => .ok "\x7b\"a\":\"1x\"\x7d".toList
    | _ => .ok "1".toList

def insertedInfo (json : String) : Except String LogEntry :=
  insertedEntry threeObjects 5 "info".toList "started".toList (some json.toList) []

def numberEntry : LogEntry :=
  ⟨5, 1, some "info".toList, "started".toList, [("a".toList, "1".toList)],
    some "\x7b\"a\":1\x7d".toList⟩

def stringEntry : LogEntry :=
  ⟨5, 1, none, "started".toList, [("a".toList, "1x".toList)], none⟩

def mixedEntry : LogEntry :=
  ⟨5, 1, some "info".toList, "started".toList,
    [("a".toList, "2".toList), ("b".toList, "1".toList)],
    some "\x7b\"a\":\"2\",\"b\":1\x7d".toList⟩

theorem inserted_three :
    insertedInfo "\x7b\"a\":1\x7d" = .ok numberEntry ∧
      insertedInfo "\x7b\"a\":\"1x\"\x7d" = .ok stringEntry ∧
      insertedInfo "\x7b\"a\":\"2\",\"b\":1\x7d" = .ok mixedEntry := by
  refine ⟨?_, ?_, ?_⟩ <;> decide +kernel

theorem numberEntry_fit : JsonFit threeObjects numberEntry where
  pairs := by
    rintro _ ⟨⟩
    rfl
  survives := by
    rintro _ _ ⟨⟩ hv
    obtain rfl := Except.ok.inj ((rfl : threeObjects.fromStr _ = .ok _).symm.trans hv)
    exact ⟨_, rfl, rfl⟩

theorem mixedEntry_fit : JsonFit threeObjects mixedEntry where
  pairs := by
    rintro _ ⟨⟩
    rfl
  survives := by
    rintro _ _ ⟨⟩ hv
    obtain rfl := Except.ok.inj ((rfl : threeObjects.fromStr _ = .ok _).symm.trans hv)
    exact ⟨_, rfl, rfl⟩

def threeSignal : Signal LogEntry (List Text) :=
  logSignal .storing threeObjects .default

/-- A log table with the three entries in its buffer. -/
def threePushed : Session LogEntry (List Text) :=
  ⟨threeSignal, ((pushBatch threeSignal .reliable [numberEntry, stringEntry, mixedEntry]).exec
    (.create threeSignal .empty 0)).2, none⟩

theorem threePushed_session : LogSession .reliable .storing threeObjects [] threePushed := by
  have hstart : LogSession .reliable .storing threeObjects []
      ⟨threeSignal, .create threeSignal .empty 0, none⟩ :=
    .start 0 ⟨⟨.default, rfl, rfl⟩, fun r hr => absurd hr List.not_mem_nil⟩
  have hfit : ∀ e ∈ [numberEntry, stringEntry, mixedEntry], JsonFit threeObjects e := by
    intro e he
    simp only [List.mem_cons, List.not_mem_nil, or_false] at he
    rcases he with rfl | rfl | rfl
    · exact numberEntry_fit
    · exact ⟨by rintro _ ⟨⟩, by rintro _ _ ⟨⟩⟩
    · exact mixedEntry_fit
  exact hstart.step (show LogOp .storing threeObjects [] (.pushBatch _) from hfit) rfl

/-- Three rows of plain `INSERT`s, each before the next and the last before the first. -/
theorem canonicalEntryCmp_cycle :
    (insertedInfo "\x7b\"a\":1\x7d" = .ok numberEntry ∧
      insertedInfo "\x7b\"a\":\"1x\"\x7d" = .ok stringEntry ∧
      insertedInfo "\x7b\"a\":\"2\",\"b\":1\x7d" = .ok mixedEntry) ∧
    LogSession .reliable .storing threeObjects [] threePushed ∧
    threePushed.engine.buffer = [numberEntry, stringEntry, mixedEntry] ∧
    canonicalEntryCmp numberEntry stringEntry = .lt ∧
    canonicalEntryCmp stringEntry mixedEntry = .lt ∧
    canonicalEntryCmp mixedEntry numberEntry = .lt ∧
    ¬ConsistentOn canonicalEntryCmp {e | e ∈ threePushed.engine.buffer} := by
  have hbuffer : threePushed.engine.buffer = [numberEntry, stringEntry, mixedEntry] := by
    decide +kernel
  have hfirst : canonicalEntryCmp numberEntry stringEntry = .lt := by decide +kernel
  have hsecond : canonicalEntryCmp stringEntry mixedEntry = .lt := by decide +kernel
  have hthird : canonicalEntryCmp mixedEntry numberEntry = .lt := by decide +kernel
  refine ⟨inserted_three, threePushed_session, hbuffer, hfirst, hsecond, hthird, fun h => ?_⟩
  rw [hbuffer, consistentOn_iff] at h
  have hle := h numberEntry (by simp) stringEntry (by simp) mixedEntry (by simp)
    (Ordering.isLE_of_eq_lt hfirst) (Ordering.isLE_of_eq_lt hsecond)
  exact OrientedCmp.not_isLE_of_lt hthird hle

end Timeless.Blocks
