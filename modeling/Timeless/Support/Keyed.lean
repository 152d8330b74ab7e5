import Mathlib.Data.List.Perm.Basic
import Mathlib.Data.List.Nodup

/-!
# Keyed — elements with distinct keys, and what each of them holds

A table is a list of elements with distinct keys; every element holds some items. Taking the
elements under some keys out of the table takes out the items that are found under these keys, one
key after another (`flatMap_under_perm`).
-/

namespace Support.Keyed

variable {α κ β : Type} [DecidableEq κ] (key : α → κ) (held : α → List β)

/-- The items that are found under a key. -/
def under (l : List α) (k : κ) : List β :=
  ((l.find? fun a => key a = k).map held).getD []

variable {key held}

theorem under_cons_self (a : α) (l : List α) : under key held (a :: l) (key a) = held a := by
  simp [under]

theorem under_cons_ne {a : α} {k : κ} (h : key a ≠ k) (l : List α) :
    under key held (a :: l) k = under key held l k := by
  simp [under, h]

theorem under_of_mem {l : List α} (hl : (l.map key).Nodup) {a : α} (ha : a ∈ l) :
    under key held l (key a) = held a := by
  induction l with
  | nil => cases ha
  | cons b l ih =>
      obtain ⟨hnew, hl⟩ := List.nodup_cons.mp hl
      rcases List.mem_cons.mp ha with rfl | ha
      · exact under_cons_self a l
      · have hne : key b ≠ key a := fun heq => hnew (heq ▸ List.mem_map_of_mem ha)
        rw [under_cons_ne hne, ih hl ha]

/-- The items of the elements that have one of some distinct keys. -/
theorem flatMap_under_perm {l : List α} (hl : (l.map key).Nodup) {ks : List κ} (hks : ks.Nodup) :
    (ks.flatMap (under key held l)).Perm ((l.filter fun a => key a ∈ ks).flatMap held) := by
  induction l generalizing ks with
  | nil =>
      have hnone : ks.flatMap (under key held []) = [] := by simp [under]
      rw [hnone]
      exact .refl _
  | cons a l ih =>
      obtain ⟨hnew, hl⟩ := List.nodup_cons.mp hl
      have hother : ∀ b ∈ l, key b ≠ key a := fun b hb heq => hnew (heq ▸ List.mem_map_of_mem hb)
      by_cases ha : key a ∈ ks
      · -- the key of the head is looked up once; the other lookups go on to the tail
        have hrest : (ks.erase (key a)).flatMap (under key held (a :: l)) =
            (ks.erase (key a)).flatMap (under key held l) :=
          List.flatMap_congr fun k hk =>
            under_cons_ne (fun heq => hks.not_mem_erase (heq ▸ hk)) l
        have hfilter : (l.filter fun b => key b ∈ ks) =
            l.filter fun b => key b ∈ ks.erase (key a) :=
          List.filter_congr fun b hb => decide_eq_decide.mpr
            (List.mem_erase_of_ne (hother b hb)).symm
        rw [List.filter_cons_of_pos (by simpa using ha), List.flatMap_cons, hfilter]
        refine ((List.perm_cons_erase ha).flatMap_right _).trans ?_
        rw [List.flatMap_cons, under_cons_self, hrest]
        exact (ih hl (hks.erase _)).append_left _
      · have hrest : ks.flatMap (under key held (a :: l)) = ks.flatMap (under key held l) :=
          List.flatMap_congr fun k hk => under_cons_ne (fun heq : key a = k => ha (heq ▸ hk)) l
        rw [List.filter_cons_of_neg (by simpa using ha), hrest]
        exact ih hl hks

/-- What is left in the table and what is found under the keys is everything. -/
theorem filter_append_under_perm (held : α → List β) {l : List α} (hl : (l.map key).Nodup)
    {ks : List κ} (hks : ks.Nodup) :
    ((l.filter fun a => key a ∉ ks).flatMap held ++ ks.flatMap (under key held l)).Perm
      (l.flatMap held) := by
  refine ((flatMap_under_perm hl hks).append_left _).trans ?_
  rw [← List.flatMap_append]
  refine List.Perm.flatMap_right _ ?_
  have := List.filter_append_perm (fun a => decide (key a ∉ ks)) l
  simpa using this

/-- Leaving out what gives nothing. -/
theorem flatMap_filter_of_nil {α β : Type} {p : α → Bool} {f : α → List β} {l : List α}
    (h : ∀ a ∈ l, p a = false → f a = []) : (l.filter p).flatMap f = l.flatMap f := by
  induction l with
  | nil => rfl
  | cons a l ih =>
      have ih := ih fun a' ha' => h a' (List.mem_cons_of_mem _ ha')
      cases hp : p a with
      | true => rw [List.filter_cons_of_pos hp, List.flatMap_cons, List.flatMap_cons, ih]
      | false =>
          rw [List.filter_cons_of_neg (by simp [hp]), List.flatMap_cons,
            h a List.mem_cons_self hp, List.nil_append, ih]

end Support.Keyed
