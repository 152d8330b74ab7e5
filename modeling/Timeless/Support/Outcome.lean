import Mathlib.Data.List.Forall2
import Mathlib.Tactic.Common

/-!
# Outcome — computations that may fail

A fallible step is a value of `Except`. A computation that succeeded is taken apart step by step
with `of_bind`, and one whose steps are known is put together with `ok_bind` and `error_bind`.
An early return on a bad value is `rejectIf`, which succeeds exactly if the value is not bad, and
`okOr` turns a missing value into a failure.
-/

namespace Support

variable {ε α β : Type}

@[simp] theorem ok_bind (a : α) (f : α → Except ε β) : (Except.ok a >>= f) = f a := rfl

@[simp] theorem error_bind (e : ε) (f : α → Except ε β) :
    (Except.error e >>= f) = Except.error e := rfl

@[simp] theorem pure_eq_ok (a : α) : (pure a : Except ε α) = .ok a := rfl

@[simp] theorem throw_eq_error (e : ε) : (throw e : Except ε α) = .error e := rfl

variable {f : α → Except ε β} {l : List α} {x : Except ε α} {R : α → β → Prop} {b : β} {a : α}
  {bad : Prop} {bs l' : List β}

theorem bind_eq_ok :
    (x >>= f) = .ok b ↔ ∃ a, x = .ok a ∧ f a = .ok b := by
  cases x with
  | error e => simp
  | ok a => simp

/-- A step that was taken, and the rest. -/
theorem of_bind (h : (x >>= f) = .ok b) : ∃ a, x = .ok a ∧ f a = .ok b :=
  bind_eq_ok.mp h

theorem bind_pure_eq_ok {f : α → β} :
    (x >>= fun a => pure (f a)) = .ok b ↔ ∃ a, x = .ok a ∧ f a = b := by
  rw [bind_eq_ok]
  simp

theorem error_of_not_ok (h : ∀ a, x ≠ .ok a) : ∃ e, x = .error e := by
  cases x with
  | error e => exact ⟨e, rfl⟩
  | ok a => exact absurd rfl (h a)

theorem bind_error (f : α → Except ε β) (h : ∃ e, x = .error e) :
    ∃ e, (x >>= f) = .error e := by
  obtain ⟨e, rfl⟩ := h
  exact ⟨e, rfl⟩

@[simp] theorem mapError_eq_ok {ε' : Type} {x : Except ε α} {g : ε → ε'} :
    x.mapError g = .ok a ↔ x = .ok a := by
  cases x <;> simp [Except.mapError]

theorem map_eq_ok {f : α → β} :
    x.map f = .ok b ↔ ∃ a, x = .ok a ∧ f a = b := by
  cases x <;> simp [Except.map]

/-- Fail with a text if a condition holds. -/
def rejectIf {m : Type → Type} [Monad m] [MonadExceptOf String m] (bad : Prop) [Decidable bad]
    (e : String) : m Unit :=
  if bad then throw e else pure ()

@[simp] theorem rejectIf_eq_ok [Decidable bad] {e : String} {u : Unit} :
    (rejectIf bad e : Except String Unit) = .ok u ↔ ¬bad := by
  unfold rejectIf
  split_ifs with h <;> simp [h]

@[simp] theorem rejectIf_false (e : String) :
    (rejectIf False e : Except String Unit) = .ok () := rfl

/-- Past an early return, the value was not bad. -/
theorem rejectIf_bind_eq_ok [Decidable bad] {e : String} {f : Unit → Except String β} :
    (rejectIf bad e >>= f) = .ok b ↔ ¬bad ∧ f () = .ok b := by
  unfold rejectIf
  split_ifs with h <;> simp [h]

theorem rejectIf_neg [Decidable bad] (h : ¬bad) (e : String) :
    (rejectIf bad e : Except String Unit) = .ok () := by
  simp [h]

theorem rejectIf_pos [Decidable bad] (h : bad) (e : String) :
    (rejectIf bad e : Except String Unit) = .error e := by
  simp [rejectIf, h]

/-- The value of an option, or fail with a text. -/
def okOr (o : Option α) (e : ε) : Except ε α :=
  match o with
  | some a => .ok a
  | none => .error e

@[simp] theorem okOr_eq_ok {o : Option α} {e : ε} : okOr o e = .ok a ↔ o = some a := by
  cases o <;> simp [okOr]

theorem mapError_error {ε' : Type} (g : ε → ε') (h : ∃ e, x = .error e) :
    ∃ e, x.mapError g = .error e := by
  obtain ⟨e, rfl⟩ := h
  exact ⟨g e, rfl⟩

theorem mapM_eq_ok :
    l.mapM f = .ok bs ↔ List.Forall₂ (fun a b => f a = .ok b) l bs := by
  induction l generalizing bs with
  | nil =>
      cases bs with
      | nil => simp
      | cons b bs => constructor <;> intro h <;> cases h
  | cons a l ih =>
      rw [List.mapM_cons, bind_eq_ok]
      constructor
      · rintro ⟨b, hb, h⟩
        obtain ⟨bs', hbs, h⟩ := of_bind h
        obtain rfl := Except.ok.inj h
        exact .cons hb (ih.mp hbs)
      · rintro (_ | ⟨hb, hbs⟩)
        exact ⟨_, hb, bind_eq_ok.mpr ⟨_, ih.mpr hbs, rfl⟩⟩

theorem exists_of_forall₂_right (h : List.Forall₂ R l l') (hb : b ∈ l') :
    ∃ a ∈ l, R a b := by
  induction h with
  | nil => exact absurd hb List.not_mem_nil
  | cons hab _ ih =>
      rcases List.mem_cons.mp hb with rfl | hb
      · exact ⟨_, List.mem_cons_self, hab⟩
      · obtain ⟨a, ha, h⟩ := ih hb
        exact ⟨a, List.mem_cons_of_mem _ ha, h⟩

theorem exists_of_forall₂_left (h : List.Forall₂ R l l') (ha : a ∈ l) :
    ∃ b ∈ l', R a b :=
  exists_of_forall₂_right h.flip ha

theorem forall_mem_iff_of_forall₂ (h : List.Forall₂ R l l') {p : α → Prop} {q : β → Prop}
    (hpq : ∀ a b, R a b → (p a ↔ q b)) :
    (∀ a ∈ l, p a) ↔ ∀ b ∈ l', q b := by
  induction h with
  | nil => simp
  | cons hab _ ih => rw [List.forall_mem_cons, List.forall_mem_cons, hpq _ _ hab, ih]

/-- Every call of a traversal that succeeds succeeds. -/
theorem ok_of_mapM (h : l.mapM f = .ok bs) (ha : a ∈ l) :
    ∃ b, f a = .ok b := by
  obtain ⟨b, -, hb⟩ := exists_of_forall₂_left (mapM_eq_ok.mp h) ha
  exact ⟨b, hb⟩

theorem mapM_ok_of_forall {g : α → β} (h : ∀ a ∈ l, f a = .ok (g a)) :
    l.mapM f = .ok (l.map g) := by
  rw [mapM_eq_ok, List.forall₂_map_right_iff]
  exact List.forall₂_same.mpr h

/-- A traversal whose calls follow those of another. -/
theorem mapM_ok_map {γ : Type} {g : α → Except ε γ} {k : β → γ} (h : l.mapM f = .ok bs)
    (hg : ∀ a ∈ l, ∀ b, f a = .ok b → g a = .ok (k b)) :
    l.mapM g = .ok (bs.map k) := by
  rw [mapM_eq_ok] at h ⊢
  induction h with
  | nil => exact List.Forall₂.nil
  | cons hab _ ih =>
      exact List.Forall₂.cons (hg _ List.mem_cons_self _ hab)
        (ih fun a ha => hg a (List.mem_cons_of_mem _ ha))

theorem getD_of_mapM (h : l.mapM f = .ok bs) (d : β) {i : Nat} (hi : i < l.length) :
    f l[i] = .ok (bs.getD i d) := by
  obtain ⟨hlen, hget⟩ := List.forall₂_iff_get.mp (mapM_eq_ok.mp h)
  have hi' : i < bs.length := hlen ▸ hi
  rw [List.getD_eq_getElem?_getD, List.getElem?_eq_getElem hi', Option.getD_some]
  exact hget i hi hi'

end Support
