import Timeless.Blocks.Engine
import Timeless.Blocks.Absence

/-!
# Terms — what the terms of a block promise

A query looks only at blocks whose terms allow a match, so the terms of a block must cover its
entries (`Covers`): every level, every indexed pair, and, if the block carries the marker of
trigrams, every trigram of every message. The terms of levels, pairs and trigrams share one name
space. A key is `Plain` if no pair with it can be taken for a term of trigrams.

* `covers_extractTerms`: with plain keys, the terms a block is written with cover its entries;
* `Covers.purge`: and they still do when the terms of trigrams are dropped;
* `mem_messageTrigramsOf_of_contains`: a message that contains an ASCII needle has its trigrams.
-/

namespace Timeless.Blocks

open Support Codec

/-- A key whose pairs do not look like a term of trigrams. -/
def Plain (k : Text) : Prop :=
  ¬tgMarker <+: k ++ ":".toList

instance : DecidablePred Plain := fun k => by unfold Plain; infer_instance

/-- Terms that allow every match in some entries. -/
structure Covers (keys : List Text) (terms : List Text) (entries : List LogEntry) : Prop where
  level : ∀ e ∈ entries, levelTerm e.level ∈ terms
  pair : ∀ e ∈ entries, ∀ p ∈ e.metadata, p.1 ∈ keys → pairTerm p.1 p.2 ∈ terms
  trigram : tgMarker ∈ terms → ∀ e ∈ entries, ∀ w ∈ messageTrigramsOf e.message, tgTerm w ∈ terms

/-! ### The name space -/

theorem tgMarker_eq : tgMarker = ['t', 'g', ':'] := rfl

theorem colon_eq : ":".toList = [':'] := rfl

theorem levelTerm_apart (level : UInt8) : ¬tgMarker <+: levelTerm level := by
  simp [tgMarker, levelTerm]

/-- A pair looks like a term of trigrams only because of its key. -/
theorem pairTerm_apart {k : Text} (hk : Plain k) (v : Text) : ¬tgMarker <+: pairTerm k v := by
  intro h
  refine hk ?_
  rw [pairTerm, colon_eq, tgMarker_eq] at h
  rw [colon_eq, tgMarker_eq]
  -- the colon of the marker is the first in the term, so it is in the key or right behind it
  match k with
  | [] => simp at h
  | [a] => simp at h
  | [a, b] => simpa [List.cons_prefix_cons] using h
  | a :: b :: d :: k => simpa [List.cons_prefix_cons] using h

/-! ### Writing -/

/-- A collection within the budget is complete. -/
theorem collectTrigrams_complete {msgs : List Text} {set : List (List UInt8)}
    (h : (collectTrigrams msgs set).length ≤ maxBlockTrigrams) :
    (∀ w ∈ set, w ∈ collectTrigrams msgs set) ∧
      ∀ msg ∈ msgs, ∀ w ∈ messageTrigramsOf msg, w ∈ collectTrigrams msgs set := by
  induction msgs generalizing set with
  | nil => exact ⟨fun w hw => hw, by simp⟩
  | cons msg msgs ih =>
      rw [collectTrigrams] at h ⊢
      split_ifs at h ⊢ with hover
      · exact absurd h (not_le.mpr hover)
      · obtain ⟨hset, hmsgs⟩ := ih h
        refine ⟨fun w hw => hset w ?_, ?_⟩
        · exact List.mem_dedup.mpr (List.mem_append_left _ hw)
        · rintro msg' (_ | ⟨_, hmsg'⟩) w hw
          · exact hset w (List.mem_dedup.mpr (List.mem_append_right _ hw))
          · exact hmsgs msg' hmsg' w hw

variable {t : Text} {cfg : BlockEngineConfig} {entries : List LogEntry}

theorem mem_extractTerms :
    t ∈ extractTerms cfg entries ↔
      (∃ e ∈ entries, t ∈ entryTerms cfg.indexKeys e) ∨
        t ∈ trigramTerms cfg.messageTrigrams entries := by
  rw [extractTerms, mem_sortedKeys, List.mem_append, List.mem_flatMap]

/-- With plain keys only trigrams look like terms of trigrams. -/
theorem entryTerms_apart {keys : List Text} (hkeys : ∀ k ∈ keys, Plain k) {e : LogEntry}
    (h : t ∈ entryTerms keys e) : ¬tgMarker <+: t := by
  rcases List.mem_cons.mp h with rfl | h
  · exact levelTerm_apart _
  · obtain ⟨p, hp, rfl⟩ := List.mem_map.mp h
    have hindexed : p.1 ∈ keys := by simpa using (List.mem_filter.mp hp).2
    exact pairTerm_apart (hkeys p.1 hindexed) _

/-- **Writing.** The terms of a block cover its entries. -/
theorem covers_extractTerms (hkeys : ∀ k ∈ cfg.indexKeys, Plain k) (entries : List LogEntry) :
    Covers cfg.indexKeys (extractTerms cfg entries) entries := by
  refine ⟨fun e he => ?_, fun e he p hp hkey => ?_, fun hmarker e he w hw => ?_⟩
  · exact mem_extractTerms.mpr (.inl ⟨e, he, List.mem_cons_self⟩)
  · refine mem_extractTerms.mpr (.inl ⟨e, he, List.mem_cons_of_mem _ ?_⟩)
    exact List.mem_map.mpr ⟨p, List.mem_filter.mpr ⟨hp, by simpa using hkey⟩, rfl⟩
  · -- the marker comes with all trigrams, or not at all
    have htg : tgMarker ∈ trigramTerms cfg.messageTrigrams entries := by
      rcases mem_extractTerms.mp hmarker with ⟨e', -, hterm⟩ | htg
      · exact absurd List.prefix_rfl (entryTerms_apart hkeys hterm)
      · exact htg
    refine mem_extractTerms.mpr (.inr ?_)
    dsimp only [trigramTerms] at htg ⊢
    split_ifs at htg ⊢ with hwanted
    · refine List.mem_cons_of_mem _ (List.mem_map_of_mem ?_)
      exact (collectTrigrams_complete hwanted.2).2 _ (List.mem_map_of_mem he) w hw
    · cases htg

/-! ### Later -/

theorem mem_purgeTrigrams {terms : List Text} :
    t ∈ purgeTrigrams terms ↔ t ∈ terms ∧ ¬tgMarker <+: t := by
  rw [purgeTrigrams, List.mem_filter, Bool.not_eq_true', ← Bool.not_eq_true,
    List.isPrefixOf_iff_prefix]

/-- **Purging.** What is left still covers the entries. -/
theorem Covers.purge {keys terms : List Text} (h : Covers keys terms entries)
    (hkeys : ∀ k ∈ keys, Plain k) :
    Covers keys (purgeTrigrams terms) entries := by
  refine ⟨fun e he => ?_, fun e he p hp hkey => ?_, fun hmarker => ?_⟩
  · exact mem_purgeTrigrams.mpr ⟨h.level e he, levelTerm_apart _⟩
  · exact mem_purgeTrigrams.mpr ⟨h.pair e he p hp hkey, pairTerm_apart (hkeys p.1 hkey) _⟩
  · exact absurd List.prefix_rfl (mem_purgeTrigrams.mp hmarker).2

/-- A message that contains a needle up to ASCII case has the needle's trigrams. -/
theorem mem_messageTrigramsOf_of_contains {message needle : Text} (h : ContainsLow message needle)
    {w : List UInt8} (hw : w ∈ messageTrigramsOf needle) : w ∈ messageTrigramsOf message := by
  obtain ⟨u, hu, rfl⟩ := List.mem_map.mp hw
  obtain ⟨hwindow, hlen⟩ := (mem_windows (by decide)).mp hu
  obtain ⟨v, hv, hmap⟩ := infix_map.mp ((hwindow.map toAsciiLowercase).trans h)
  refine List.mem_map.mpr ⟨v, (mem_windows (by decide)).mpr ⟨hv, ?_⟩, hmap⟩
  rw [← hlen]
  simpa using congrArg List.length hmap

end Timeless.Blocks
