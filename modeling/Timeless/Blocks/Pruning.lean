import Timeless.Blocks.Content
import Timeless.Blocks.FilteredDecode
import Timeless.Blocks.Query

/-!
# Pruning — a query skips only blocks without a match

For a block whose terms cover its entries, each step by which a query passes over it is a proof
that nothing in it matches: its time range, its terms, its trigrams and the check of its message
column. What is decoded is filtered exactly. So, over blocks within the decoder's caps, the result
of a query is what matches among all stored and buffered entries (`query_perm`).

The check of the message column is right for needles whose inner digit runs are short (`ShortRuns`),
and the terms of a block cover its entries if no index key can be taken for a trigram (`Plain`).
-/

namespace Timeless.Blocks

open Support Codec Engine

variable {c : Compressors} {N : Type} {js : SerdeJson N} {keys : List Text} {q : LogQuery}
  {lowercase : Text → Text}

/-- A block that the decoder's caps let through, whatever it was encoded from. -/
def WithinCaps (c : Compressors) (js : SerdeJson N) (b : Encoded (List Text)) : Prop :=
  ∀ entries codec level, encodeBlock c js entries codec level = .ok (b.data, b.blockMeta) →
    BlockFits c js entries b.blockMeta.codec level

/-- The entries of a block, none if it cannot be read. -/
def entriesOf (c : Compressors) (js : SerdeJson N) (bytes : List UInt8) : List LogEntry :=
  (decodeBlock c js bytes).toOption.getD []

/-- A needle that the check of a message column is right about. -/
def LogQuery.Checked (q : LogQuery) : Prop :=
  ∀ needle, q.messageContains = some needle → ShortRuns needle

/-! ### Matches -/

variable {e : LogEntry} {entries : List LogEntry}

theorem entryMatches_iff :
    entryMatches lowercase q e = true ↔
      (q.tsMin ≤ e.ts ∧ e.ts ≤ q.tsMax) ∧ (∀ level, q.level = some level → e.level = level) ∧
        (∀ severity, q.severity = some severity → e.severityName = severity) ∧
        (∀ p ∈ q.metadataEq, pairValue p.1 e.metadata = some p.2) ∧
        ∀ needle, q.messageContains = some needle →
          messageContainsCi lowercase e.message needle = true := by
  simp only [entryMatches, Bool.and_eq_true, Bool.not_eq_true', Bool.or_eq_false_iff,
    decide_eq_false_iff_not, Int64.not_lt, List.all_eq_true, beq_iff_eq, Option.all_eq_true,
    and_assoc]

theorem mem_of_pairValue {k v : Text} {pairs : Pairs} (h : pairValue k pairs = some v) :
    (k, v) ∈ pairs := by
  induction pairs with
  | nil => cases h
  | cons p pairs ih =>
      rw [pairValue, List.lookup_cons] at h
      by_cases hk : k = p.1
      · rw [beq_iff_eq.mpr hk] at h
        obtain rfl := Option.some.inj h
        exact hk ▸ List.mem_cons_self
      · rw [beq_false_of_ne hk] at h
        exact List.mem_cons_of_mem _ (ih h)

/-! ### Time -/

variable {b : Encoded (List Text)}

theorem LogWritten.in_range (h : LogWritten c js keys b entries) (he : e ∈ entries) :
    b.blockMeta.tsMin ≤ e.ts ∧ e.ts ≤ b.blockMeta.tsMax := by
  obtain ⟨codec, level, henc⟩ := h.encoded
  obtain ⟨cols, hst⟩ := encodeBlock_ok henc
  rw [hst.meta_eq]
  exact ⟨tsMinOf_le (List.mem_map_of_mem he), le_tsMaxOf (List.mem_map_of_mem he)⟩

/-! ### Candidates -/

variable {terms : List Text}

theorem mem_blocksWith {rows : List (Row (List Text))} {lo hi : Int64} {r : Row (List Text)} :
    r ∈ blocksWith rows terms lo hi ↔ r ∈ rows ∧
      (r.blockMeta.tsMin ≤ hi ∧ lo ≤ r.blockMeta.tsMax) ∧ ∀ t ∈ terms, t ∈ r.extra := by
  simp [blocksWith, List.mem_insertionSort, List.mem_filter]

variable (rows : List (Row (List Text)))

theorem blocksWith_perm (terms : List Text) (lo hi : Int64) :
    ∃ p : Row (List Text) → Bool, (blocksWith rows terms lo hi).Perm (rows.filter p) :=
  ⟨_, List.perm_insertionSort _ _⟩

/-- What a query asks of blocks with trigrams, beside the terms of its filters. -/
def markedTerms (q : LogQuery) : List Text :=
  if (requiredTrigrams q).isEmpty then [] else tgMarker :: requiredTrigrams q

/-- The terms of a query's filters, if it does not ask for too many in all. -/
def lookupTerms (keys : List Text) (q : LogQuery) : Except String (List Text) := do
  let terms ← filterTerms keys q
  rejectIf (maxCompoundSelect < terms.length + (markedTerms q).length)
    "prepare term query failed: too many terms in compound SELECT"
  return terms

/-- The blocks to be decoded, given those terms. -/
def candidatesOf (q : LogQuery) (terms : List Text) :
    List (Row (List Text)) :=
  if (requiredTrigrams q).isEmpty then blocksWith rows terms q.tsMin q.tsMax
  else (blocksWith rows terms q.tsMin q.tsMax).filter fun r =>
    !((blocksWith rows (terms ++ [tgMarker]) q.tsMin q.tsMax).map Row.id).contains r.id ||
      ((blocksWith rows (terms ++ [tgMarker] ++ requiredTrigrams q) q.tsMin q.tsMax).map
        Row.id).contains r.id

theorem queryTerms_cases (terms : List Text) (lo hi : Int64) :
    terms.length ≤ maxCompoundSelect ∧ queryTerms rows terms lo hi = .ok (blocksWith rows terms lo hi) ∨
    maxCompoundSelect < terms.length ∧ queryTerms rows terms lo hi =
      .error "prepare term query failed: too many terms in compound SELECT" := by
  rcases le_or_gt terms.length maxCompoundSelect with h | h
  · exact .inl ⟨h, by rw [queryTerms, rejectIf_neg (not_lt.mpr h)]; rfl⟩
  · exact .inr ⟨h, by rw [queryTerms, rejectIf_pos h]; rfl⟩

/-- Whether the store is asked for too much depends on the query only. -/
theorem candidateBlocks_eq :
    candidateBlocks keys rows q = candidatesOf rows q <$> lookupTerms keys q := by
  unfold candidateBlocks lookupTerms candidatesOf markedTerms
  cases filterTerms keys q with
  | error err => rfl
  | ok terms =>
      simp only [ok_bind]
      rcases queryTerms_cases rows terms q.tsMin q.tsMax with ⟨hfew, hlocs⟩ | ⟨hmany, hlocs⟩
      · rw [hlocs, ok_bind]
        split_ifs with hrequired
        · rw [List.length_nil, Nat.add_zero, rejectIf_neg (not_lt.mpr hfew)]
          rfl
        · -- the last of the lookups asks for the most
          have hlength : (terms ++ [tgMarker] ++ requiredTrigrams q).length =
              terms.length + (tgMarker :: requiredTrigrams q).length := by simp
          rcases queryTerms_cases rows (terms ++ [tgMarker]) q.tsMin q.tsMax with
            ⟨-, hindexed⟩ | ⟨hmany, hindexed⟩
          · rw [hindexed, ok_bind]
            rcases queryTerms_cases rows (terms ++ [tgMarker] ++ requiredTrigrams q) q.tsMin q.tsMax with
              ⟨hfew, hmatching⟩ | ⟨hmany, hmatching⟩
            · rw [hmatching, rejectIf_neg (by omega)]
              rfl
            · rw [hmatching, rejectIf_pos (by omega)]
              rfl
          · rw [List.length_append, List.length_singleton] at hmany
            rw [hindexed, rejectIf_pos (by rw [List.length_cons]; omega)]
            rfl
      · rw [hlocs, rejectIf_pos (by omega)]
        rfl

theorem filterTerms_of_lookup (h : lookupTerms keys q = .ok terms) :
    filterTerms keys q = .ok terms := by
  obtain ⟨_, hterms, h⟩ := of_bind h
  obtain rfl := Except.ok.inj (rejectIf_bind_eq_ok.mp h).2
  exact hterms

theorem mem_of_filterTerms {extra : List Text} (hcov : Covers keys extra entries) (he : e ∈ entries)
    (hmatch : entryMatches lowercase q e = true) (h : filterTerms keys q = .ok terms) :
    ∀ t ∈ terms, t ∈ extra := by
  obtain ⟨-, hlevel, -, hpairs, -⟩ := entryMatches_iff.mp hmatch
  obtain ⟨levels, hlevels, rfl⟩ := bind_pure_eq_ok.mp h
  intro t ht
  rcases List.mem_append.mp ht with ht | ht
  · unfold levelFilterTerms at hlevels
    cases hq : q.level with
    | none =>
        rw [hq] at hlevels
        obtain rfl := Except.ok.inj hlevels
        cases ht
    | some level =>
        rw [hq] at hlevels
        obtain ⟨-, hlevels⟩ := rejectIf_bind_eq_ok.mp hlevels
        obtain rfl := Except.ok.inj hlevels
        obtain rfl := List.mem_singleton.mp ht
        exact hlevel level hq ▸ hcov.level e he
  · obtain ⟨p, hp, rfl⟩ := List.mem_map.mp ht
    obtain ⟨hp, hkey⟩ := List.mem_filter.mp hp
    exact hcov.pair e he p (mem_of_pairValue (hpairs p hp)) (by simpa using hkey)

/-- A match in a block that has trigrams has those of the needle. -/
theorem mem_of_requiredTrigrams {extra : List Text} (hcov : Covers keys extra entries)
    (hmarker : tgMarker ∈ extra) (he : e ∈ entries) (hlike : q.messageLikePrune = none)
    (hmatch : entryMatches lowercase q e = true) : ∀ t ∈ requiredTrigrams q, t ∈ extra := by
  obtain ⟨-, -, -, -, hcontains⟩ := entryMatches_iff.mp hmatch
  intro t ht
  rw [requiredTrigrams, mem_sortedKeys, hlike, Option.map_none, Option.getD_none,
    List.append_nil] at ht
  cases hq : q.messageContains with
  | none =>
      rw [hq] at ht
      cases ht
  | some needle =>
      rw [hq, Option.map_some, Option.getD_some, messageContainsTrigrams] at ht
      split_ifs at ht with hascii
      · obtain ⟨w, hw, rfl⟩ := List.mem_map.mp ht
        refine hcov.trigram hmarker e he w (mem_messageTrigramsOf_of_contains ?_ hw)
        refine (messageContainsCi_iff lowercase ⟨?_, hascii⟩).mp (hcontains needle hq)
        -- a needle with a trigram is not empty
        obtain ⟨u, hu, -⟩ := List.mem_map.mp hw
        cases hbytes : utf8 needle with
        | nil =>
            rw [hbytes] at hu
            cases hu
        | cons b bs => rfl
      · cases ht

theorem mem_of_candidateBlocks {rows blocks : List (Row (List Text))}
    (h : candidateBlocks keys rows q = .ok blocks) {r : Row (List Text)} (hr : r ∈ blocks) :
    r ∈ rows := by
  rw [candidateBlocks_eq] at h
  obtain ⟨terms, -, rfl⟩ := map_eq_ok.mp h
  have hlocs : ∀ r ∈ blocksWith rows terms q.tsMin q.tsMax, r ∈ rows := fun r hr =>
    (mem_blocksWith.mp hr).1
  rw [candidatesOf] at hr
  split_ifs at hr
  · exact hlocs r hr
  · exact hlocs r (List.mem_of_mem_filter hr)

/-- **Candidates.** What a query decodes is a part of the rows, and every row with a match is in
it. -/
theorem candidateBlocks_spec (c : Compressors) (js : SerdeJson N) (lowercase : Text → Text)
    {rows blocks : List (Row (List Text))} (hdistinct : (rows.map Row.id).Nodup)
    (hlike : q.messageLikePrune = none) (h : candidateBlocks keys rows q = .ok blocks) :
    ∃ p : Row (List Text) → Bool, blocks.Perm (rows.filter p) ∧
      ∀ r ∈ rows, ∀ entries, LogWritten c js keys r.toEncoded entries →
        (∃ e ∈ entries, entryMatches lowercase q e = true) → r ∈ blocks := by
  rw [candidateBlocks_eq] at h
  obtain ⟨terms, hlookup, rfl⟩ := map_eq_ok.mp h
  have hterms := filterTerms_of_lookup hlookup
  obtain ⟨p, hp⟩ := blocksWith_perm rows terms q.tsMin q.tsMax
  -- a row with a match overlaps the time range and has the terms of the filters
  have hfound : ∀ r ∈ rows, ∀ entries, LogWritten c js keys r.toEncoded entries →
      ∀ e ∈ entries, entryMatches lowercase q e = true → ∀ more : List Text,
        (∀ t ∈ more, t ∈ r.extra) → r ∈ blocksWith rows (terms ++ more) q.tsMin q.tsMax := by
    intro r hr entries hw e he hmatch more hmore
    obtain ⟨hmin, hmax⟩ := hw.in_range he
    obtain ⟨⟨hlo, hhi⟩, -⟩ := entryMatches_iff.mp hmatch
    refine mem_blocksWith.mpr ⟨hr, ⟨Int64.le_trans hmin hhi, Int64.le_trans hlo hmax⟩, ?_⟩
    intro t ht
    rcases List.mem_append.mp ht with ht | ht
    · exact mem_of_filterTerms hw.covers he hmatch hterms t ht
    · exact hmore t ht
  rw [candidatesOf]
  split_ifs with hrequired
  · refine ⟨p, hp, fun r hr entries hw ⟨e, he, hmatch⟩ => ?_⟩
    simpa using hfound r hr entries hw e he hmatch [] (by simp)
  · refine ⟨_, (hp.filter _).trans (by rw [List.filter_filter]), ?_⟩
    intro r hr entries hw ⟨e, he, hmatch⟩
    refine List.mem_filter.mpr ⟨by simpa using hfound r hr entries hw e he hmatch [] (by simp), ?_⟩
    rw [Bool.or_eq_true, Bool.not_eq_true', ← Bool.not_eq_true]
    refine Classical.or_iff_not_imp_left.mpr fun hindexed => ?_
    rw [not_not, List.contains_iff_mem] at hindexed
    obtain ⟨r', hr', hid⟩ := List.mem_map.mp hindexed
    obtain ⟨hr'rows, -, hmarker⟩ := mem_blocksWith.mp hr'
    obtain rfl := List.inj_on_of_nodup_map hdistinct hr'rows hr hid
    have hmarker : tgMarker ∈ r'.extra := hmarker _ (by simp)
    rw [List.contains_iff_mem, List.append_assoc]
    refine List.mem_map_of_mem (hfound r' hr entries hw e he hmatch _ fun t ht => ?_)
    rcases List.mem_append.mp ht with ht | ht
    · rwa [List.mem_singleton.mp ht]
    · exact mem_of_requiredTrigrams hw.covers hmarker he hlike hmatch t ht

/-! ### One block -/

section

variable {b : Encoded (List Text)} {entries : List LogEntry}

theorem LogWritten.decodes (hc : c.Lossless) (h : LogWritten c js keys b entries)
    (hcaps : WithinCaps c js b) :
    decodeBlock c js b.data = .ok (entriesOf c js b.data) ∧
      ∃ codec, entriesOf c js b.data = entries.map (readAs js codec) := by
  obtain ⟨codec, level, henc⟩ := h.encoded
  obtain ⟨cols, hst⟩ := encodeBlock_ok henc
  have hdecode := hst.decodeBlock_eq hc (hcaps _ _ _ henc) fun _ => h.stable
  have hentries : entriesOf c js b.data = entries.map (readAs js codec) := by
    rw [entriesOf, hdecode]
    rfl
  exact ⟨hentries ▸ hdecode, codec, hentries⟩

/-- Only what an entry shows decides whether it matches. -/
theorem entryMatches_congr {e e' : LogEntry} (h : e.view = e'.view) :
    entryMatches lowercase q e = entryMatches lowercase q e' := by
  obtain ⟨hts, hlevel, hsev, hmsg, hmeta⟩ := EntryView.mk.inj h
  simp only [entryMatches, hts, hlevel, hsev, hmsg, hmeta]

/-- Entries of the block and entries it was written from match together. -/
theorem LogWritten.exists_match (hc : c.Lossless) (h : LogWritten c js keys b entries)
    (hcaps : WithinCaps c js b) (he : e ∈ entriesOf c js b.data)
    (hmatch : entryMatches lowercase q e = true) :
    ∃ e' ∈ entries, e'.message = e.message ∧ entryMatches lowercase q e' = true := by
  obtain ⟨-, codec, hentries⟩ := h.decodes hc hcaps
  rw [hentries] at he
  obtain ⟨e', he', rfl⟩ := List.mem_map.mp he
  refine ⟨e', he', (readAs_message js codec e').symm, ?_⟩
  rwa [entryMatches_congr (readAs_view codec e')] at hmatch

/-- With short inner runs the check of the message column rules out only blocks without a match. -/
theorem LogWritten.infeasible (hc : c.Lossless) (h : LogWritten c js keys b entries)
    (lowercase : Text → Text) {needle : Text} (hshort : ShortRuns needle)
    (hfalse : blockMessageFeasible c b.data needle = .ok false) :
    ∀ e ∈ entries, messageContainsCi lowercase e.message needle = false := by
  intro e he
  by_contra hin
  rw [Bool.not_eq_false] at hin
  by_cases hn : Checkable needle
  · obtain ⟨codec, level, henc⟩ := h.encoded
    obtain ⟨cols, hst⟩ := encodeBlock_ok henc
    have hcontains := (messageContainsCi_iff lowercase hn).mp hin
    obtain ⟨_, _, -, -, hrun⟩ :=
      ((feasible_false_iff hc hst hn (List.mem_map_of_mem he) hcontains).mp hfalse).column
    obtain ⟨r, hr, hlong, -⟩ := hrun
    exact absurd (hshort r hr) (not_le.mpr hlong)
  · rw [blockMessageFeasible_unchecked hn] at hfalse
    cases hfalse

/-- **One block.** The matches of a block are found exactly. -/
theorem LogWritten.blockMatches_eq (hc : c.Lossless) (h : LogWritten c js keys b entries)
    (hcaps : WithinCaps c js b) (hq : q.Checked) :
    blockMatches c js lowercase q b.data =
      .ok ((entriesOf c js b.data).filter (entryMatches lowercase q)) := by
  unfold blockMatches
  cases hneedle : q.messageContains.filter fun needle => !needle.isEmpty with
  | none =>
      change (decodeBlock c js b.data >>= _) = _
      rw [(h.decodes hc hcaps).1]
      rfl
  | some needle =>
      have hsome : q.messageContains = some needle := (Option.filter_eq_some_iff.mp hneedle).1
      dsimp only
      split_ifs with hfeasible
      · refine congrArg Except.ok (List.filter_eq_nil_iff.mpr fun e he hmatch => ?_).symm
        obtain ⟨e', he', hmsg, hmatch'⟩ := h.exists_match hc hcaps he hmatch
        have hno := h.infeasible hc lowercase (hq needle hsome) hfeasible e' he'
        rw [(entryMatches_iff.mp hmatch').2.2.2.2 needle hsome] at hno
        cases hno
      · obtain ⟨codec, level, henc⟩ := h.encoded
        obtain ⟨cols, hst⟩ := encodeBlock_ok henc
        obtain ⟨found, hfound, hrows⟩ := hst.decodeBlockFiltered_eq hc (hcaps _ _ _ henc)
          (fun _ => h.stable) lowercase (hq needle hsome)
        have hentries : entriesOf c js b.data = entries.map (readAs js codec) := by
          rw [entriesOf, hst.decodeBlock_eq hc (hcaps _ _ _ henc) fun _ => h.stable]
          rfl
        rw [hfound, ok_bind, hrows, hentries, List.filter_filter]
        refine congrArg Except.ok (List.filter_congr fun e _ => ?_)
        -- what matches contains the needle
        cases hmatch : entryMatches lowercase q e with
        | false => rfl
        | true => exact (entryMatches_iff.mp hmatch).2.2.2.2 needle hsome

end

/-! ### All blocks -/

/-- The entries that an engine holds: those of its blocks and of its buffer. -/
def allEntries (c : Compressors) (js : SerdeJson N) (e : BlockEngine LogEntry (List Text)) :
    List LogEntry :=
  (e.store.rows.flatMap fun r => entriesOf c js r.data) ++ e.buffer

/-- The number of terms that a query asks for. -/
def LogQuery.termCount (keys : List Text) (q : LogQuery) : Nat :=
  q.level.toList.length + (q.metadataEq.filter fun p => keys.contains p.1).length +
    (markedTerms q).length

theorem lookupTerms_ok (hlevel : ∀ level, q.level = some level → level.toNat ≤ 3)
    (hfew : q.termCount keys ≤ maxCompoundSelect) : ∃ terms, lookupTerms keys q = .ok terms := by
  obtain ⟨levels, hlevels, hcount⟩ : ∃ levels, levelFilterTerms q = .ok levels ∧
      levels.length = q.level.toList.length := by
    unfold levelFilterTerms
    cases hq : q.level with
    | none => exact ⟨_, rfl, rfl⟩
    | some level =>
        dsimp only
        rw [rejectIf_neg (not_lt.mpr (hlevel level hq))]
        exact ⟨_, rfl, rfl⟩
  have hfew : ¬maxCompoundSelect < (levels ++ (q.metadataEq.filter fun p => keys.contains p.1).map
      fun p => pairTerm p.1 p.2).length + (markedTerms q).length := by
    rwa [List.length_append, List.length_map, hcount, not_lt]
  rw [lookupTerms, filterTerms, hlevels]
  exact ⟨_, by simp only [ok_bind, pure_eq_ok, rejectIf_neg hfew]; rfl⟩

/-- **A query.** Over written blocks within the caps it finds what matches among all entries. -/
theorem query_perm (hc : c.Lossless) {e : BlockEngine LogEntry (List Text)}
    (hrows : ∀ r ∈ e.store.rows, ∃ es, LogWritten c js keys r.toEncoded es)
    (hcaps : ∀ r ∈ e.store.rows, WithinCaps c js r.toEncoded) (lowercase : Text → Text)
    (hq : q.Checked) (hlike : q.messageLikePrune = none) (hterms : lookupTerms keys q = .ok terms) :
    ∃ out, query c js lowercase keys e q = .ok out ∧
      out.Perm ((allEntries c js e).filter (entryMatches lowercase q)) := by
  obtain ⟨blocks, hblocks⟩ : ∃ blocks, candidateBlocks keys e.store.rows q = .ok blocks :=
    ⟨_, by rw [candidateBlocks_eq, hterms]; rfl⟩
  obtain ⟨p, hperm, hmatch⟩ := candidateBlocks_spec c js lowercase e.store.distinct hlike
    hblocks
  let matchesOf (r : Row (List Text)) : List LogEntry :=
    (entriesOf c js r.data).filter (entryMatches lowercase q)
  have hfound : blocks.mapM (fun r => blockMatches c js lowercase q r.data) =
      .ok (blocks.map matchesOf) := by
    refine mapM_ok_of_forall fun r hr => ?_
    have hr : r ∈ e.store.rows := List.mem_of_mem_filter (hperm.subset hr)
    obtain ⟨es, hes⟩ := hrows r hr
    exact hes.blockMatches_eq hc (hcaps r hr) hq
  -- the rows that are left out have no match
  have hskipped : ∀ r ∈ e.store.rows, p r = false → matchesOf r = [] := by
    intro r hr hp
    refine List.filter_eq_nil_iff.mpr fun x hx hxm => ?_
    obtain ⟨es, hes⟩ := hrows r hr
    obtain ⟨x', hx', -, hxm'⟩ := hes.exists_match hc (hcaps r hr) hx hxm
    have hblock := hperm.subset (hmatch r hr es hes ⟨x', hx', hxm'⟩)
    rw [(List.mem_filter.mp hblock).2] at hp
    cases hp
  refine ⟨_, by rw [query, hblocks, ok_bind, hfound, ok_bind]; rfl, ?_⟩
  refine (List.perm_insertionSort _ _).trans ?_
  rw [allEntries, List.filter_append, List.filter_flatMap, ← List.flatMap_def]
  refine List.Perm.append_right _ ?_
  refine (hperm.flatMap_right matchesOf).trans ?_
  rw [Keyed.flatMap_filter_of_nil hskipped]

/-- **Pruning loses nothing.** In every session of a log table with plain index keys, whose blocks
are within the decoder's caps, every block is read and a query gives exactly the entries that match,
if its level is one, the inner digit runs of its needle are short and its terms not too many. -/
theorem query_exact (hc : c.Lossless) (hjs : js.Lawful) (hkeys : ∀ k ∈ keys, Plain k)
    {env : StoreEnv} {s : Session LogEntry (List Text)} (hs : LogSession env c js keys s)
    (hcaps : ∀ r ∈ s.engine.store.rows, WithinCaps c js r.toEncoded) (lowercase : Text → Text)
    {q : LogQuery} (hq : q.Checked) (hlike : q.messageLikePrune = none)
    (hlevel : ∀ level, q.level = some level → level.toNat ≤ 3)
    (hfew : q.termCount keys ≤ maxCompoundSelect) :
    (∀ r ∈ s.engine.store.rows, decodeBlock c js r.data = .ok (entriesOf c js r.data)) ∧
      ∃ out, query c js lowercase keys s.engine q = .ok out ∧
        out.Perm ((allEntries c js s.engine).filter (entryMatches lowercase q)) := by
  obtain ⟨N, hN, -⟩ := (LogSession.intact hc hjs hkeys hs).engine.rows
  have hrows := exists_rowsHold_iff.mp ⟨N, hN⟩
  obtain ⟨terms, hterms⟩ := lookupTerms_ok hlevel hfew
  refine ⟨fun r hr => ?_, query_perm hc hrows hcaps lowercase hq hlike hterms⟩
  obtain ⟨es, hes⟩ := hrows r hr
  exact (LogWritten.decodes hc hes (hcaps r hr)).1

/-- A log table that was opened empty, after one entry was pushed. -/
def pushedSession (cfg : BlockEngineConfig) (e : LogEntry) : Session LogEntry (List Text) :=
  let sig := logSignal .storing taggedJson cfg
  ⟨sig, ((push sig .reliable e).exec (.create sig .empty 0)).2, none⟩

/-- The table after a flush. -/
def flushedSession (cfg : BlockEngineConfig) (e : LogEntry) : Session LogEntry (List Text) :=
  { pushedSession cfg e with
    engine := ((flush (pushedSession cfg e).sig .reliable).exec (pushedSession cfg e).engine).2 }

theorem pushedSession_session (cfg : BlockEngineConfig) (h : JsonFit taggedJson e) :
    LogSession .reliable .storing taggedJson cfg.indexKeys (pushedSession cfg e) := by
  have hstart : LogSession .reliable .storing taggedJson cfg.indexKeys
      ⟨logSignal .storing taggedJson cfg, .create (logSignal .storing taggedJson cfg) .empty 0,
        none⟩ := .start 0 ⟨⟨cfg, rfl, rfl⟩, fun r hr => absurd hr List.not_mem_nil⟩
  exact hstart.step (show LogOp .storing taggedJson cfg.indexKeys (.push e) from h) rfl

theorem flushedSession_session (cfg : BlockEngineConfig) (h : JsonFit taggedJson e) :
    LogSession .reliable .storing taggedJson cfg.indexKeys (flushedSession cfg e) :=
  (pushedSession_session cfg h).step
    (show LogOp .storing taggedJson cfg.indexKeys .flush from trivial) rfl

def withKey (key : String) : BlockEngineConfig :=
  { BlockEngineConfig.default with indexKeys := [key.toList] }

def helloEntry (key value : String) : LogEntry :=
  ⟨10, 1, none, "hello world".toList, [(key.toList, value.toList)], none⟩

theorem helloEntry_fit (key value : String) : JsonFit taggedJson (helloEntry key value) :=
  ⟨by rintro _ ⟨⟩, by rintro _ _ ⟨⟩⟩

def helloQuery : LogQuery :=
  ⟨Int64.minValue, Int64.maxValue, none, none, [], some "hello".toList, none⟩

theorem withinCaps_of_raw (hraw : isRawCodec b.blockMeta.codec = true)
    (hcount : b.blockMeta.entryCount ≤ maxBlockEntries) : WithinCaps c js b := by
  intro entries codec level henc
  obtain ⟨cols, hst⟩ := encodeBlock_ok henc
  exact blockFits_of_raw hraw (hst.entryCount_eq ▸ hcount) level

theorem flushedSession_caps {cfg : BlockEngineConfig}
    (h : ((flushedSession cfg e).engine.store.rows.all fun r => isRawCodec r.blockMeta.codec &&
      decide (r.blockMeta.entryCount ≤ maxBlockEntries)) = true) :
    ∀ r ∈ (flushedSession cfg e).engine.store.rows, WithinCaps c js r.toEncoded := by
  intro r hr
  obtain ⟨hraw, hcount⟩ := Bool.and_eq_true_iff.mp (List.all_eq_true.mp h r hr)
  exact withinCaps_of_raw hraw (of_decide_eq_true hcount)

theorem query_exact_service :
    (flushedSession (withKey "service") (helloEntry "service" "api")).engine.store.rows.length = 1 ∧
      ∃ out, query .storing taggedJson id ["service".toList]
          (flushedSession (withKey "service") (helloEntry "service" "api")).engine helloQuery =
            .ok out ∧
        out.Perm ((allEntries .storing taggedJson
          (flushedSession (withKey "service") (helloEntry "service" "api")).engine).filter
            (entryMatches id helloQuery)) := by
  refine ⟨by decide +kernel, ?_⟩
  exact (query_exact Compressors.storing_lossless taggedJson_lawful (by decide)
    (flushedSession_session (withKey "service") (helloEntry_fit "service" "api"))
    (flushedSession_caps (by decide +kernel)) id
    (by rintro _ ⟨⟩; decide +kernel) rfl (by rintro _ ⟨⟩) (by decide +kernel)).2

/-- An index key `tg` makes a flushed entry look as if its block had trigrams, and the entry is not
found. -/
theorem query_loses_marker_key :
    LogSession .reliable .storing taggedJson ["tg".toList]
        (flushedSession (withKey "tg") (helloEntry "tg" "")) ∧
      allEntries .storing taggedJson (flushedSession (withKey "tg") (helloEntry "tg" "")).engine =
        [helloEntry "tg" ""] ∧
      entryMatches id helloQuery (helloEntry "tg" "") = true ∧
      query .storing taggedJson id ["tg".toList]
        (flushedSession (withKey "tg") (helloEntry "tg" "")).engine helloQuery = .ok [] :=
  ⟨flushedSession_session (withKey "tg") (helloEntry_fit "tg" ""), by decide +kernel,
    by decide +kernel, by decide +kernel⟩

end Timeless.Blocks
