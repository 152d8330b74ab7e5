import Mathlib.Data.List.Induction
import Mathlib.Data.List.Sort
import Mathlib.Algebra.Order.BigOperators.Group.List
import Mathlib.Algebra.Order.Group.Nat

/-!
# OrdMap — a map as the list of its entries in key order

A search tree is used through two things: where an entry goes and in which order the entries come
out. Both are the list of its entries in increasing key order, for a strict order given as a
Boolean function. `alter` replaces or creates one entry; `insert` and `ofList` are the usual
special cases (a later entry for a key replaces an earlier one).

* `mem_values_push`: what a map of lists holds after one more element was pushed under a key;
* `get?_alter`, `sorted_alter`: over a strict linear order the entries stay in order, and only the
  entry of the key changes;
* `ofList_of_sorted`: a list in key order is a map already;
* `mem_group`: the map of lists that pairs are pushed into holds, under every key that occurs, the
  values of that key in their order.
-/

namespace Support.OrdMap

variable {κ β : Type}

/-- Replace the entry of a key by what `f` makes of it, or create it in its place. -/
def alter (lt : κ → κ → Bool) (k : κ) (f : Option β → β) : List (κ × β) → List (κ × β)
  | [] => [(k, f none)]
  | (k', b) :: m =>
      if lt k k' then (k, f none) :: (k', b) :: m
      else if lt k' k then (k', b) :: alter lt k f m
      else (k, f (some b)) :: m

def insert (lt : κ → κ → Bool) (k : κ) (b : β) : List (κ × β) → List (κ × β) :=
  alter lt k fun _ => b

/-- The map of a list of entries. -/
def ofList (lt : κ → κ → Bool) (entries : List (κ × β)) : List (κ × β) :=
  entries.foldl (fun m e => insert lt e.1 e.2 m) []

/-- Push an element onto the list held under a key. -/
def push (lt : κ → κ → Bool) (k : κ) (x : β) : List (κ × List β) → List (κ × List β) :=
  alter lt k fun old => old.getD [] ++ [x]

variable {k : κ} {lt : κ → κ → Bool}

theorem mem_values_push {x y : β} {m : List (κ × List β)} :
    y ∈ (push lt k x m).flatMap Prod.snd ↔ y = x ∨ y ∈ m.flatMap Prod.snd := by
  unfold push
  induction m with
  | nil => simp [alter]
  | cons e m ih =>
      obtain ⟨k', b⟩ := e
      rw [alter]
      split_ifs
      · simp
      · rw [List.flatMap_cons, List.mem_append, ih]
        simp only [List.flatMap_cons, List.mem_append]
        tauto
      · simp only [Option.getD_some, List.flatMap_cons, List.mem_append, List.mem_singleton]
        tauto

/-- What `f` and `f'` make of an entry agrees up to a function of the values. -/
theorem map_alter {γ : Type} {f : Option β → β} {f' : Option γ → γ} {g : β → γ}
    (h : ∀ o, g (f o) = f' (o.map g)) (m : List (κ × β)) :
    (alter lt k f m).map (Prod.map id g) = alter lt k f' (m.map (Prod.map id g)) := by
  induction m with
  | nil => simp [alter, h]
  | cons e m ih =>
      obtain ⟨k', b⟩ := e
      simp only [alter, List.map_cons, Prod.map_apply, id_eq]
      split_ifs
      · simp [h]
      · rw [List.map_cons, ih]
        rfl
      · simp [h]

/-! ### Sorted maps -/

/-- A strict linear order, as a Boolean function. -/
structure Linear (lt : κ → κ → Bool) : Prop where
  irrefl : ∀ a, lt a a = false
  trans : ∀ a b c, lt a b = true → lt b c = true → lt a c = true
  total : ∀ a b, lt a b = false → lt b a = false → a = b

/-- The keys increase. -/
def Sorted (lt : κ → κ → Bool) (m : List (κ × β)) : Prop :=
  m.Pairwise fun a b => lt a.1 b.1 = true

variable {lt : κ → κ → Bool}

/-- The value under a key. -/
def get? (lt : κ → κ → Bool) (k : κ) : List (κ × β) → Option β
  | [] => none
  | (k', b) :: m => if lt k k' then none else if lt k' k then get? lt k m else some b

theorem get?_alter [DecidableEq κ] (hlt : Linear lt) (k k' : κ) (f : Option β → β)
    (m : List (κ × β)) :
    get? lt k' (alter lt k f m) = if k' = k then some (f (get? lt k m)) else get? lt k' m := by
  induction m with
  | nil =>
      rw [alter, get?, get?, get?]
      by_cases heq : k' = k
      · simp [heq, hlt.irrefl]
      · have hne : ¬(lt k' k = false ∧ lt k k' = false) := fun h => heq (hlt.total _ _ h.1 h.2)
        cases h₁ : lt k' k <;> cases h₂ : lt k k' <;> simp_all [get?]
  | cons e m ih =>
      obtain ⟨a, b⟩ := e
      rw [alter]
      by_cases heq : k' = k
      · subst heq
        simp only [if_true] at ih ⊢
        cases h₁ : lt k' a <;> cases h₂ : lt a k' <;> simp [get?, h₁, h₂, hlt.irrefl, ih]
      · have hne : lt k' k = false → lt k k' = true := by
          intro h
          by_contra h'
          exact heq (hlt.total _ _ h (by simpa using h'))
        simp only [if_neg heq] at ih ⊢
        cases h₁ : lt k a with
        | true =>
            rw [if_pos rfl]
            cases h₂ : lt k' k with
            | true => simp [get?, h₂, hlt.trans _ _ _ h₂ h₁]
            | false =>
                rw [get?, h₂, hne h₂]
                rfl
        | false =>
            cases h₂ : lt a k with
            | true => simp only [Bool.false_eq_true, if_false, if_true, get?, ih]
            | false =>
                obtain rfl := hlt.total _ _ h₁ h₂
                simp only [Bool.false_eq_true, if_false, get?]
                cases h₃ : lt k' k with
                | true => rfl
                | false => simp [hne h₃]

variable {m : List (κ × β)}

theorem mem_keys_alter {k' : κ} {f : Option β → β} (h : k' ∈ (alter lt k f m).map Prod.fst) :
    k' = k ∨ k' ∈ m.map Prod.fst := by
  induction m with
  | nil => simpa [alter] using h
  | cons e m ih =>
      obtain ⟨a, b⟩ := e
      rw [alter] at h
      split_ifs at h
      · simpa using h
      · rw [List.map_cons, List.mem_cons] at h ⊢
        rcases h with h | h
        · exact .inr (.inl h)
        · rcases ih h with h | h
          · exact .inl h
          · exact .inr (.inr h)
      · rw [List.map_cons, List.mem_cons] at h ⊢
        rcases h with h | h
        · exact .inl h
        · exact .inr (.inr h)

theorem sorted_alter (hlt : Linear lt) (k : κ) (f : Option β → β) (h : Sorted lt m) :
    Sorted lt (alter lt k f m) := by
  induction m with
  | nil => simp [alter, Sorted]
  | cons e m ih =>
      obtain ⟨a, b⟩ := e
      obtain ⟨hhead, htail⟩ := List.pairwise_cons.mp h
      rw [alter]
      split_ifs with h₁ h₂
      · refine List.pairwise_cons.mpr ⟨fun e he => ?_, h⟩
        rcases List.mem_cons.mp he with rfl | he
        · exact h₁
        · exact hlt.trans _ _ _ h₁ (hhead e he)
      · refine List.pairwise_cons.mpr ⟨fun e he => ?_, ih htail⟩
        rcases mem_keys_alter (List.mem_map_of_mem he) with hk | hk
        · rw [hk]
          exact h₂
        · obtain ⟨e', he', heq⟩ := List.mem_map.mp hk
          rw [← heq]
          exact hhead e' he'
      · obtain rfl := hlt.total _ _ (by simpa using h₁) (by simpa using h₂)
        exact List.pairwise_cons.mpr ⟨hhead, htail⟩

theorem insert_of_gt (hlt : Linear lt) (b : β) (h : ∀ e ∈ m, lt e.1 k = true) :
    insert lt k b m = m ++ [(k, b)] := by
  unfold insert
  induction m with
  | nil => rfl
  | cons e m ih =>
      have hgt := h e List.mem_cons_self
      have hle : lt k e.1 = false := by
        by_contra hle
        have := hlt.trans _ _ _ hgt (by simpa using hle)
        rw [hlt.irrefl] at this
        cases this
      rw [alter, hle, hgt, if_neg (by simp), if_pos rfl,
        ih fun e' he' => h e' (List.mem_cons_of_mem _ he')]
      rfl

theorem ofList_concat (m : List (κ × β)) (e : κ × β) :
    ofList lt (m ++ [e]) = insert lt e.1 e.2 (ofList lt m) := by
  simp [ofList]

theorem ofList_of_sorted (hlt : Linear lt) (h : Sorted lt m) :
    ofList lt m = m := by
  induction m using List.reverseRecOn with
  | nil => rfl
  | append_singleton m e ih =>
      obtain ⟨hm, -, hlast⟩ := List.pairwise_append.mp h
      rw [ofList_concat, ih hm, insert_of_gt hlt e.2 fun e' he' => hlast e' he' e (by simp)]

theorem sorted_ofList (hlt : Linear lt) (m : List (κ × β)) : Sorted lt (ofList lt m) := by
  induction m using List.reverseRecOn with
  | nil => exact List.Pairwise.nil
  | append_singleton m e ih =>
      rw [ofList_concat]
      exact sorted_alter hlt _ _ ih

theorem mem_iff_get? (hlt : Linear lt) (h : Sorted lt m) {b : β} :
    (k, b) ∈ m ↔ get? lt k m = some b := by
  induction m with
  | nil => simp [get?]
  | cons e m ih =>
      obtain ⟨a, b'⟩ := e
      obtain ⟨hhead, htail⟩ := List.pairwise_cons.mp h
      rw [List.mem_cons, ih htail, get?]
      split_ifs with h₁ h₂
      · -- the key is below all others
        have hnone : ¬get? lt k m = some b := by
          intro hget
          have := hlt.trans _ _ _ h₁ (hhead _ ((ih htail).mpr hget))
          simp [hlt.irrefl] at this
        have hne : k ≠ a := by
          rintro rfl
          simp [hlt.irrefl] at h₁
        simp [hnone, hne]
      · have hne : k ≠ a := by
          rintro rfl
          simp [hlt.irrefl] at h₂
        simp [hne]
      · obtain rfl := hlt.total _ _ (by simpa using h₁) (by simpa using h₂)
        have hnone : ¬get? lt k m = some b := by
          intro hget
          have := hhead _ ((ih htail).mpr hget)
          simp [hlt.irrefl] at this
        simp [hnone, eq_comm]

/-! ### Grouping -/

/-- Push pairs into a map of lists. -/
def group (lt : κ → κ → Bool) (pairs : List (κ × β)) : List (κ × List β) :=
  pairs.foldl (fun m p => push lt p.1 p.2 m) []

/-- The values of a key. -/
def valuesOf [DecidableEq κ] (k : κ) (pairs : List (κ × β)) : List β :=
  (pairs.filter fun p => p.1 = k).map Prod.snd

theorem sorted_group (hlt : Linear lt) (pairs : List (κ × β)) : Sorted lt (group lt pairs) := by
  induction pairs using List.reverseRecOn with
  | nil => simp [group, Sorted]
  | append_singleton pairs p ih =>
      rw [group, List.foldl_append, List.foldl_cons, List.foldl_nil]
      exact sorted_alter hlt _ _ ih

theorem get?_group [DecidableEq κ] (hlt : Linear lt) (k : κ) (pairs : List (κ × β)) :
    get? lt k (group lt pairs) =
      if valuesOf k pairs = [] then none else some (valuesOf k pairs) := by
  induction pairs using List.reverseRecOn with
  | nil => rfl
  | append_singleton pairs p ih =>
      have hold : (get? lt k (group lt pairs)).getD [] = valuesOf k pairs := by
        rw [ih]
        split_ifs with hnil
        · exact hnil.symm
        · rfl
      rw [group, List.foldl_append, List.foldl_cons, List.foldl_nil, push, get?_alter hlt]
      by_cases hk : k = p.1
      · subst hk
        have hvalues : valuesOf p.1 (pairs ++ [p]) = valuesOf p.1 pairs ++ [p.2] := by
          simp [valuesOf]
        rw [if_pos rfl, hvalues, if_neg (by simp)]
        exact congrArg (fun vs => some (vs ++ [p.2])) hold
      · have hvalues : valuesOf k (pairs ++ [p]) = valuesOf k pairs := by
          simp [valuesOf, Ne.symm hk]
        rw [if_neg hk, hvalues]
        exact ih

/-- **Grouping.** Under every key that occurs, the values of that key in their order. -/
theorem mem_group [DecidableEq κ] (hlt : Linear lt) {vs : List β} {pairs : List (κ × β)} :
    (k, vs) ∈ group lt pairs ↔ vs ≠ [] ∧ vs = valuesOf k pairs := by
  rw [mem_iff_get? hlt (sorted_group hlt pairs), get?_group hlt]
  split_ifs with hnil
  · simp only [hnil, false_iff, not_and]
    exact fun hne heq => hne heq
  · constructor
    · rintro h
      obtain rfl := Option.some.inj h
      exact ⟨hnil, rfl⟩
    · rintro ⟨-, rfl⟩
      rfl

end Support.OrdMap
