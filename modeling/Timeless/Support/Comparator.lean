import Mathlib.Data.Set.Subsingleton

/-!
# Comparator — comparison functions that are consistent on a set

Sorting and heaps rely on a comparison being one of a total preorder. `ConsistentOn cmp S` says so
for the members of a set, in the sense of `Std.TransCmp`.

* `consistentOn_lex`: a lexicographic comparison is consistent if its second key is consistent
  within the classes of the first;
* `consistentOn_switch`: a comparison that uses one key if both sides have it and another key
  otherwise is consistent exactly if no element without the key lies, by the other key, between two
  elements that have it and are ordered differently by it.
-/

namespace Support

open Std (TransCmp OrientedCmp ReflCmp)

variable {α β : Type}

/-- A comparison is that of a total preorder on a set. -/
def ConsistentOn (cmp : α → α → Ordering) (S : Set α) : Prop :=
  TransCmp fun a b : S => cmp a b

variable {S : Set α}

theorem consistentOn_iff {cmp : α → α → Ordering} [OrientedCmp cmp] :
    ConsistentOn cmp S ↔ ∀ a ∈ S, ∀ b ∈ S, ∀ c ∈ S,
      (cmp a b).isLE → (cmp b c).isLE → (cmp a c).isLE := by
  constructor
  · intro h a ha b hb c hc hab hbc
    exact h.isLE_trans (a := ⟨a, ha⟩) (b := ⟨b, hb⟩) (c := ⟨c, hc⟩) hab hbc
  · intro h
    refine { eq_swap := OrientedCmp.eq_swap, isLE_trans := ?_ }
    intro a b c hab hbc
    exact h a a.2 b b.2 c c.2 hab hbc

theorem consistentOn_of_trans (cmp : α → α → Ordering) [TransCmp cmp] (S : Set α) :
    ConsistentOn cmp S :=
  consistentOn_iff.mpr fun _ _ _ _ _ _ hab hbc => TransCmp.isLE_trans hab hbc

theorem ConsistentOn.key {cmp : β → β → Ordering} {T : Set β} (h : ConsistentOn cmp T) (key : α → β)
    (hkey : ∀ a ∈ S, key a ∈ T) :
    ConsistentOn (fun a b => cmp (key a) (key b)) S where
  eq_swap {a b} := h.eq_swap (a := ⟨key a, hkey a a.2⟩) (b := ⟨key b, hkey b b.2⟩)
  isLE_trans {a b c} hab hbc := h.isLE_trans (a := ⟨key a, hkey a a.2⟩)
    (b := ⟨key b, hkey b b.2⟩) (c := ⟨key c, hkey c c.2⟩) hab hbc

theorem ConsistentOn.then {f g : α → α → Ordering} (hf : ConsistentOn f S) (hg : ConsistentOn g S) :
    ConsistentOn (fun a b => (f a b).then (g a b)) S :=
  have : TransCmp fun a b : S => f a b := hf
  have : TransCmp fun a b : S => g a b := hg
  inferInstanceAs (TransCmp (compareLex (fun a b : S => f a b) fun a b => g a b))

theorem transCmp_key (cmp : β → β → Ordering) [TransCmp cmp] (key : α → β) :
    TransCmp fun a b => cmp (key a) (key b) where
  eq_swap := OrientedCmp.eq_swap
  isLE_trans hab hbc := TransCmp.isLE_trans hab hbc

theorem orientedCmp_lex (k s : α → α → Ordering) [OrientedCmp k] [OrientedCmp s] :
    OrientedCmp fun a b => (k a b).then (s a b) :=
  inferInstanceAs (OrientedCmp (compareLex k s))

/-- Only elements with the same first key are told apart by the second. -/
theorem consistentOn_lex {k s : α → α → Ordering} [TransCmp k] [OrientedCmp s] :
    ConsistentOn (fun a b => (k a b).then (s a b)) S ↔
      ∀ d ∈ S, ConsistentOn s {a | a ∈ S ∧ k d a = .eq} := by
  have := orientedCmp_lex k s
  rw [consistentOn_iff]
  constructor
  · intro h d hd
    rw [consistentOn_iff]
    rintro a ⟨ha, hda⟩ b ⟨hb, hdb⟩ c ⟨hc, hdc⟩ hab hbc
    have heq : ∀ {x y : α}, k d x = .eq → k d y = .eq → k x y = .eq := fun hx hy =>
      TransCmp.eq_trans (OrientedCmp.eq_symm hx) hy
    have hac := h a ha b hb c hc (by rwa [heq hda hdb]) (by rwa [heq hdb hdc])
    rwa [heq hda hdc] at hac
  · intro h a ha b hb c hc hab hbc
    rw [Ordering.isLE_then_iff_or] at hab hbc ⊢
    rcases hab with hab | ⟨hab, hsab⟩
    · rcases hbc with hbc | ⟨hbc, -⟩
      · exact .inl (TransCmp.lt_trans hab hbc)
      · exact .inl (TransCmp.lt_of_lt_of_eq hab hbc)
    · rcases hbc with hbc | ⟨hbc, hsbc⟩
      · exact .inl (TransCmp.lt_of_eq_of_lt hab hbc)
      · refine .inr ⟨TransCmp.eq_trans hab hbc, ?_⟩
        exact consistentOn_iff.mp (h a ha) a ⟨ha, ReflCmp.compare_self⟩ b ⟨hb, hab⟩ c
          ⟨hc, TransCmp.eq_trans hab hbc⟩ hsab hsbc

/-- Compare by a key that some elements have, if both sides have it, and else by another. -/
def switchCmp (key : α → Option β) (f : β → β → Ordering) (g : α → α → Ordering) (a b : α) :
    Ordering :=
  match key a, key b with
  | some x, some y => f x y
  | _, _ => g a b

section Switch

variable {key : α → Option β} {f : β → β → Ordering} {g : α → α → Ordering} {a b : α}

theorem switchCmp_some {x y : β} (ha : key a = some x) (hb : key b = some y) :
    switchCmp key f g a b = f x y := by
  rw [switchCmp, ha, hb]

theorem switchCmp_none_left (ha : key a = none) (b : α) :
    switchCmp key f g a b = g a b := by
  rw [switchCmp, ha]

theorem switchCmp_none_right (a : α) (hb : key b = none) :
    switchCmp key f g a b = g a b := by
  rw [switchCmp, hb]
  cases key a <;> rfl

theorem orientedCmp_switch [OrientedCmp f] [OrientedCmp g] : OrientedCmp (switchCmp key f g) where
  eq_swap {a b} := by
    cases ha : key a with
    | none =>
        rw [switchCmp_none_left ha, switchCmp_none_right b ha]
        exact OrientedCmp.eq_swap
    | some x =>
        cases hb : key b with
        | none =>
            rw [switchCmp_none_right a hb, switchCmp_none_left hb]
            exact OrientedCmp.eq_swap
        | some y =>
            rw [switchCmp_some ha hb, switchCmp_some hb ha]
            exact OrientedCmp.eq_swap

theorem isLE_then_lt {o : Ordering} (h : o.isLE) : o.then .lt = .lt := by
  rcases Ordering.isLE_iff_eq_lt_or_eq_eq.mp h with h | h <;> rw [h] <;> rfl

/-- `l`, which has no key, lies between `a` and `b`, and their keys are ordered differently. -/
structure Crosses (key : α → Option β) (f : β → β → Ordering) (g : α → α → Ordering)
    (a l b : α) : Prop where
  keyless : key l = none
  lower : (g a l).isLE
  upper : (g l b).isLE
  keys : ∃ x y, key a = some x ∧ key b = some y ∧ f x y ≠ (g a l).then (g l b)

/-- The elements of a set that have a key. -/
def keyed (key : α → Option β) (S : Set α) : Set α :=
  {a | a ∈ S ∧ key a ≠ none}

/-- Among elements of which at most one has the key, the key plays no part. -/
theorem switchCmp_of_few [ReflCmp f] [ReflCmp g] {T : Set α} (h : (keyed key T).Subsingleton)
    (ha : a ∈ T) (hb : b ∈ T) : switchCmp key f g a b = g a b := by
  cases hx : key a with
  | none => exact switchCmp_none_left hx b
  | some x =>
      cases hy : key b with
      | none => exact switchCmp_none_right a hy
      | some y =>
          obtain rfl : a = b := h ⟨ha, by simp [hx]⟩ ⟨hb, by simp [hy]⟩
          exact (switchCmp_some hx hx).trans (ReflCmp.compare_self.trans ReflCmp.compare_self.symm)

/-- Nothing crosses a pair with keys, and the other comparison is consistent where it decides. -/
theorem consistentOn_switch_parts [TransCmp f] [OrientedCmp g] :
    ConsistentOn (switchCmp key f g) S ↔ (∀ a ∈ S, ∀ l ∈ S, ∀ b ∈ S, ¬Crosses key f g a l b) ∧
      ∀ T ⊆ S, (keyed key T).Subsingleton → ConsistentOn g T := by
  have : OrientedCmp (switchCmp key f g) := orientedCmp_switch
  rw [consistentOn_iff]
  constructor
  · intro h
    refine ⟨?_, fun T hT hfew => ?_⟩
    rotate_left
    · rw [consistentOn_iff]
      intro a ha b hb c hc hab hbc
      have hsame : ∀ {x y}, x ∈ T → y ∈ T → switchCmp key f g x y = g x y := switchCmp_of_few hfew
      rw [← hsame ha hb] at hab
      rw [← hsame hb hc] at hbc
      rw [← hsame ha hc]
      exact h a (hT ha) b (hT hb) c (hT hc) hab hbc
    rintro a ha l hl b hb ⟨hkey, hlower, hupper, x, y, hx, hy, hne⟩
    have hal : switchCmp key f g a l = g a l := switchCmp_none_right a hkey
    have hla : switchCmp key f g l a = g l a := switchCmp_none_left hkey a
    have hlb : switchCmp key f g l b = g l b := switchCmp_none_left hkey b
    have hbl : switchCmp key f g b l = g b l := switchCmp_none_right b hkey
    have hab : switchCmp key f g a b = f x y := switchCmp_some hx hy
    have hba : switchCmp key f g b a = f y x := switchCmp_some hy hx
    have hle : (f x y).isLE := hab ▸ h a ha l hl b hb (hal ▸ hlower) (hlb ▸ hupper)
    -- if the keys were the other way round, `a` and `b` would both be equal to `l`
    have hsame : (f y x).isLE → g a l = .eq ∧ g l b = .eq := by
      intro hge
      have hback : (g b l).isLE := hbl ▸ h b hb a ha l hl (hba ▸ hge) (hal ▸ hlower)
      have hback' : (g l a).isLE := hla ▸ h l hl b hb a ha (hlb ▸ hupper) (hba ▸ hge)
      exact ⟨OrientedCmp.isLE_antisymm hlower hback', OrientedCmp.isLE_antisymm hupper hback⟩
    by_cases heq : g a l = .eq ∧ g l b = .eq
    · have hge : (f y x).isLE := by
        refine hba ▸ h b hb l hl a ha ?_ ?_
        · rw [hbl]
          exact Ordering.isLE_of_eq_eq (OrientedCmp.eq_symm heq.2)
        · rw [hla]
          exact Ordering.isLE_of_eq_eq (OrientedCmp.eq_symm heq.1)
      refine hne ?_
      rw [OrientedCmp.isLE_antisymm hle hge, heq.1, heq.2]
      rfl
    · refine hne ((OrientedCmp.lt_of_not_isLE fun hge => heq (hsame hge)).trans ?_)
      rw [Ordering.isLE_iff_eq_lt_or_eq_eq] at hlower hupper
      rcases hlower with hlower | hlower
      · rw [hlower]
        rfl
      · rcases hupper with hupper | hupper
        · rw [hlower, hupper]
          rfl
        · exact absurd ⟨hlower, hupper⟩ heq
  · rintro ⟨h, hparts⟩ a ha b hb c hc hab hbc
    have hfew : ∀ d, (∀ x, x = a ∨ x = b ∨ x = c → key x ≠ none → x = d) →
        (g a b).isLE → (g b c).isLE → (g a c).isLE := by
      intro d hd hab hbc
      have hcons := hparts {x | x = a ∨ x = b ∨ x = c}
        (by rintro x (rfl | rfl | rfl) <;> assumption)
        (fun x hx y hy => (hd x hx.1 hx.2).trans (hd y hy.1 hy.2).symm)
      exact consistentOn_iff.mp hcons a (.inl rfl) b (.inr (.inl rfl)) c (.inr (.inr rfl)) hab hbc
    have hbetween : ∀ {a l b : α} {x y : β}, a ∈ S → l ∈ S → b ∈ S → key l = none →
        key a = some x → key b = some y → (g a l).isLE → (g l b).isLE →
        f x y = (g a l).then (g l b) := by
      intro a l b x y ha hl hb hkey hx hy hlower hupper
      by_contra hne
      exact h a ha l hl b hb ⟨hkey, hlower, hupper, x, y, hx, hy, hne⟩
    cases hx : key a with
    | some x =>
        cases hy : key b with
        | some y =>
            rw [switchCmp_some hx hy] at hab
            cases hz : key c with
            | some z =>
                rw [switchCmp_some hy hz] at hbc
                rw [switchCmp_some hx hz]
                exact TransCmp.isLE_trans hab hbc
            | none =>
                rw [switchCmp_none_right b hz] at hbc
                rw [switchCmp_none_right a hz]
                by_contra hac
                have hca := OrientedCmp.lt_of_not_isLE hac
                have hkeys := hbetween hb hc ha hz hy hx hbc (Ordering.isLE_of_eq_lt hca)
                rw [hca, isLE_then_lt hbc] at hkeys
                exact OrientedCmp.not_isLE_of_lt hkeys hab
        | none =>
            rw [switchCmp_none_right a hy] at hab
            rw [switchCmp_none_left hy] at hbc
            cases hz : key c with
            | some z =>
                rw [switchCmp_some hx hz, hbetween ha hb hc hy hx hz hab hbc,
                  Ordering.isLE_then_iff_and]
                exact ⟨hab, .inr hbc⟩
            | none =>
                rw [switchCmp_none_right a hz]
                refine hfew a ?_ hab hbc
                rintro x (rfl | rfl | rfl) hne <;> first | rfl | contradiction
    | none =>
        rw [switchCmp_none_left hx] at hab ⊢
        cases hy : key b with
        | some y =>
            cases hz : key c with
            | some z =>
                rw [switchCmp_some hy hz] at hbc
                by_contra hac
                have hca := OrientedCmp.lt_of_not_isLE hac
                have hkeys := hbetween hc ha hb hx hz hy (Ordering.isLE_of_eq_lt hca) hab
                rw [hca] at hkeys
                exact OrientedCmp.not_isLE_of_lt hkeys hbc
            | none =>
                rw [switchCmp_none_right b hz] at hbc
                refine hfew b ?_ hab hbc
                rintro x (rfl | rfl | rfl) hne <;> first | rfl | contradiction
        | none =>
            rw [switchCmp_none_left hy] at hbc
            refine hfew c ?_ hab hbc
            rintro x (rfl | rfl | rfl) hne <;> first | rfl | contradiction

/-- A switch is consistent exactly if nothing crosses a pair with keys. -/
theorem consistentOn_switch [TransCmp f] [TransCmp g] :
    ConsistentOn (switchCmp key f g) S ↔ ∀ a ∈ S, ∀ l ∈ S, ∀ b ∈ S, ¬Crosses key f g a l b := by
  rw [consistentOn_switch_parts, and_iff_left_iff_imp]
  exact fun _ T _ _ => consistentOn_of_trans g T

end Switch

end Support
