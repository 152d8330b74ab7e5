import Mathlib.Data.List.Infix
import Mathlib.Data.List.SplitBy
import Timeless.Support.Bytes

/-!
# Search — where a pattern can lie in a text made of pieces

A text is often known only as a concatenation: fixed stretches and variable parts in turn. These
are the facts that say where an occurrence of a pattern can then lie, over any element type and
any predicate `p` that marks the elements of interest (digits, say).

* `mem_windows`: the windows of width `k` are the infixes of length `k`;
* `any_windows_iff`: a case-insensitive window search finds exactly the infixes up to case;
* `free_infix_glue`: a `p`-free pattern found in stretches and parts glued together, each part
  holding a `p`, overlaps at most the end of one part, one stretch and the start of another part;
* `maxRun_pieces`: a maximal run of `p`s is a maximal run of one piece, if no two neighbouring
  pieces touch with `p`s;
* `infix_of_pieces`: then a pattern of `p`s lies inside one piece;
* `splitBy_and_cases`, `apart_splitBy_and`: cutting a list at the ends of its runs of `p`s gives
  such pieces.
-/

namespace Support

variable {α : Type}

variable {p : α → Bool}

/-! ### Windows -/

/-- The windows of width `k` of a list, in order. -/
def windows (k : Nat) : List α → List (List α)
  | [] => []
  | a :: l => if k ≤ l.length + 1 then (a :: l).take k :: windows k l else []

variable {w l f v r : List α} {L : List (List α)}

theorem mem_windows {k : Nat} (hk : 0 < k) :
    w ∈ windows k l ↔ w <:+: l ∧ w.length = k := by
  induction l with
  | nil =>
      simp only [windows, List.not_mem_nil, List.infix_nil, false_iff, not_and]
      rintro rfl h
      simp at h
      omega
  | cons a l ih =>
      rw [windows, List.infix_cons_iff]
      split_ifs with hle
      · rw [List.mem_cons, ih]
        constructor
        · rintro (rfl | ⟨h, hlen⟩)
          · exact ⟨.inl (List.take_prefix _ _), by simp; omega⟩
          · exact ⟨.inr h, hlen⟩
        · rintro ⟨h | h, hlen⟩
          · exact .inl (hlen ▸ List.prefix_iff_eq_take.mp h)
          · exact .inr ⟨h, hlen⟩
      · -- the list is shorter than a window
        simp only [List.not_mem_nil, false_iff, not_and]
        rintro (h | h) hlen
        · have := h.length_le
          simp at this
          omega
        · have := h.length_le
          omega

/-! ### ASCII case -/

/-- The lower-case form of an ASCII capital; any other byte as it is. -/
def toAsciiLowercase (b : UInt8) : UInt8 :=
  if 65 ≤ b.toNat ∧ b.toNat ≤ 90 then b + 32 else b

/-- Equality up to ASCII case. -/
def eqIgnoreAsciiCase (a b : List UInt8) : Bool :=
  a.map toAsciiLowercase == b.map toAsciiLowercase

theorem infix_map {β : Type} {f : α → β} {w : List β} :
    w <:+: l.map f ↔ ∃ u, u <:+: l ∧ u.map f = w := by
  constructor
  · rintro ⟨s, t, h⟩
    obtain ⟨l₁, l₂, rfl, h₁, rfl⟩ := List.map_eq_append_iff.mp h.symm
    obtain ⟨l₃, l₄, rfl, rfl, rfl⟩ := List.map_eq_append_iff.mp h₁
    exact ⟨l₄, ⟨l₃, l₂, rfl⟩, rfl⟩
  · rintro ⟨u, h, rfl⟩
    exact h.map f

/-- A window search up to ASCII case finds the infixes up to ASCII case. -/
theorem any_windows_iff {text pat : List UInt8} (hp : pat ≠ []) :
    ((windows pat.length text).any fun w => eqIgnoreAsciiCase w pat) = true ↔
      pat.map toAsciiLowercase <:+: text.map toAsciiLowercase := by
  have hk : 0 < pat.length := List.length_pos_iff.mpr hp
  rw [List.any_eq_true, infix_map]
  constructor
  · rintro ⟨w, hw, heq⟩
    exact ⟨w, ((mem_windows hk).mp hw).1, by simpa [eqIgnoreAsciiCase] using heq⟩
  · rintro ⟨u, hu, heq⟩
    have hlen : u.length = pat.length := by simpa using congrArg List.length heq
    exact ⟨u, (mem_windows hk).mpr ⟨hu, hlen⟩, by simpa [eqIgnoreAsciiCase] using heq⟩

/-! ### Stretches and parts -/

/-- A stretch followed by parts, each with the stretch behind it. -/
def glue (s : List α) (ps : List (List α × List α)) : List α :=
  s ++ ps.flatMap fun p => p.1 ++ p.2

@[simp] theorem glue_nil (s : List α) : glue s [] = s := by
  simp [glue]

@[simp] theorem glue_cons (s v t : List α) (ps : List (List α × List α)) :
    glue s ((v, t) :: ps) = s ++ (v ++ glue t ps) := by
  simp [glue]

/-- No element of a list satisfies `p`. -/
def Free (p : α → Bool) (l : List α) : Prop :=
  ∀ x ∈ l, p x = false

theorem Free.of_infix {u : List α} (h : Free p l) (hu : u <:+: l) : Free p u :=
  fun x hx => h x (hu.subset hx)

/-- A prefix of a concatenation ends in the first list or goes on into the second. -/
theorem prefix_append_cases (h : f <+: v ++ w) :
    f <+: v ∨ ∃ z, f = v ++ z ∧ z <+: w := by
  obtain ⟨t, ht⟩ := h
  rcases List.append_eq_append_iff.mp ht with ⟨z, rfl, rfl⟩ | ⟨z, rfl, rfl⟩
  · exact .inl (List.prefix_append f z)
  · exact .inr ⟨z, rfl, List.prefix_append z t⟩

/-- A `p`-free prefix of a list that goes on with a part holding a `p` ends within the part. -/
theorem free_prefix_append (hf : Free p f) (hv : ∃ x ∈ v, p x = true) (h : f <+: v ++ w) :
    f <+: v := by
  rcases prefix_append_cases h with h | ⟨z, rfl, _⟩
  · exact h
  · obtain ⟨x, hx, hpx⟩ := hv
    simp [hf x (List.mem_append_left z hx)] at hpx

variable {ps : List (List α × List α)}

/-- A `p`-free prefix of glued text: the start of a stretch, then the start of a part. -/
theorem free_prefix_glue {s : List α} (hf : Free p f) (hps : ∀ q ∈ ps, ∃ x ∈ q.1, p x = true)
    (h : f <+: glue s ps) :
    ∃ m y, f = m ++ y ∧ m <+: s ∧ (y = [] ∨ ∃ q ∈ ps, y <+: q.1) := by
  cases ps with
  | nil => exact ⟨f, [], by simp, by simpa using h, .inl rfl⟩
  | cons q ps =>
      obtain ⟨v, t⟩ := q
      rw [glue_cons] at h
      rcases prefix_append_cases h with h | ⟨y, rfl, hy⟩
      · exact ⟨f, [], by simp, h, .inl rfl⟩
      · have hy' : y <+: v :=
          free_prefix_append (hf.of_infix (List.suffix_append _ _).isInfix)
            (hps _ List.mem_cons_self) hy
        exact ⟨s, y, rfl, List.prefix_rfl, .inr ⟨_, List.mem_cons_self, hy'⟩⟩

/-- **Free patterns.** A `p`-free pattern in glued text lies in one part, or is the end of a part,
a piece of one stretch and the start of a part, each possibly empty. -/
theorem free_infix_glue {s : List α} (hf : Free p f) (hps : ∀ q ∈ ps, ∃ x ∈ q.1, p x = true)
    (h : f <:+: glue s ps) :
    (∃ q ∈ ps, f <:+: q.1) ∨
      ∃ x m y, f = x ++ m ++ y ∧ (x = [] ∨ ∃ q ∈ ps, x <:+ q.1) ∧
        (∃ t ∈ s :: ps.map Prod.snd, m <:+: t) ∧ (y = [] ∨ ∃ q ∈ ps, y <+: q.1) := by
  induction ps generalizing s with
  | nil =>
      rw [glue_nil] at h
      exact .inr ⟨[], f, [], by simp, .inl rfl, ⟨s, by simp, h⟩, .inl rfl⟩
  | cons q ps ih =>
      obtain ⟨v, t⟩ := q
      have hv := hps (v, t) List.mem_cons_self
      have hps' : ∀ q ∈ ps, ∃ x ∈ q.1, p x = true :=
        fun q hq => hps q (List.mem_cons_of_mem _ hq)
      rw [glue_cons] at h
      rcases List.infix_append_iff.mp h with h | h | ⟨x, y, rfl, hx, hy⟩
      · exact .inr ⟨[], f, [], by simp, .inl rfl, ⟨s, by simp, h⟩, .inl rfl⟩
      · rcases List.infix_append_iff.mp h with h | h | ⟨x, z, rfl, hx, hz⟩
        · exact .inl ⟨(v, t), List.mem_cons_self, h⟩
        · rcases ih hps' h with ⟨q, hq, hfq⟩ | ⟨x, m, y, rfl, hx, ⟨u, hu, hm⟩, hy⟩
          · exact .inl ⟨q, List.mem_cons_of_mem _ hq, hfq⟩
          · refine .inr ⟨x, m, y, rfl, ?_, ⟨u, ?_, hm⟩, ?_⟩
            · exact hx.imp_right fun ⟨q, hq, h⟩ => ⟨q, List.mem_cons_of_mem _ hq, h⟩
            · exact List.mem_cons_of_mem _ hu
            · exact hy.imp_right fun ⟨q, hq, h⟩ => ⟨q, List.mem_cons_of_mem _ hq, h⟩
        · -- across the end of the part: what follows is a free prefix of the rest
          obtain ⟨m, y, rfl, hm, hy⟩ :=
            free_prefix_glue (hf.of_infix (List.suffix_append _ _).isInfix) hps' hz
          refine .inr ⟨x, m, y, by simp, .inr ⟨_, List.mem_cons_self, hx⟩, ⟨t, by simp, hm.isInfix⟩, ?_⟩
          exact hy.imp_right fun ⟨q, hq, h⟩ => ⟨q, List.mem_cons_of_mem _ hq, h⟩
      · -- across the end of the stretch: what follows stays in the part
        have hy' := free_prefix_append (hf.of_infix (List.suffix_append _ _).isInfix) hv hy
        exact .inr ⟨[], x, y, by simp, .inl rfl, ⟨s, by simp, hx.isInfix⟩,
          .inr ⟨_, List.mem_cons_self, hy'⟩⟩

/-! ### Maximal runs -/

/-- `r` occurs in `l` with no `p` right before it and none right after it. -/
def MaxRun (p : α → Bool) (r l : List α) : Prop :=
  ∃ a b, l = a ++ (r ++ b) ∧ (∀ x ∈ a.getLast?, p x = false) ∧ (∀ x ∈ b.head?, p x = false)

/-- A list of `p`s is its only maximal run. -/
theorem maxRun_all (hl : ∀ x ∈ l, p x = true) (h : MaxRun p r l) :
    r = l := by
  obtain ⟨a, b, rfl, ha, hb⟩ := h
  have ha' : a = [] := by
    cases a using List.reverseRecOn with
    | nil => rfl
    | append_singleton a y =>
        have hy := ha y (by simp)
        simp [hl y (by simp)] at hy
  have hb' : b = [] := by
    cases b with
    | nil => rfl
    | cons y b =>
        have hy := hb y (by simp)
        simp [hl y (by simp)] at hy
  simp [ha', hb']

/-- At a seam, no `p` on one side or none on the other. -/
def Apart (p : α → Bool) (v t : List α) : Prop :=
  ∀ y ∈ v.getLast?, ∀ z ∈ t.head?, ¬(p y = true ∧ p z = true)

/-- A maximal run of a list that is cut at such a seam lies on one side of it. -/
theorem maxRun_append {t : List α} (hr : ∀ x ∈ r, p x = true) (hseam : Apart p v t)
    (h : MaxRun p r (v ++ t)) : MaxRun p r v ∨ MaxRun p r t := by
  obtain ⟨a, b, heq, ha, hb⟩ := h
  rcases List.append_eq_append_iff.mp heq with ⟨a', rfl, rfl⟩ | ⟨z, rfl, heq'⟩
  · exact .inr ⟨a', b, rfl, fun x hx => ha x (List.mem_getLast?_append_of_mem_getLast? hx), hb⟩
  · rcases List.append_eq_append_iff.mp heq' with ⟨b', rfl, rfl⟩ | ⟨u, rfl, rfl⟩
    · exact .inl ⟨a, b', rfl, ha, fun x hx => hb x (List.mem_head?_append_of_mem_head? hx)⟩
    · cases z using List.reverseRecOn with
      | nil => exact .inr ⟨[], b, rfl, by simp, hb⟩
      | append_singleton z y =>
          cases u with
          | nil => exact .inl ⟨a, [], by simp, ha, by simp⟩
          | cons w u =>
              -- the run would cross the seam
              exact absurd ⟨hr y (by simp), hr w (by simp)⟩
                (hseam y (by simp [← List.append_assoc]) w (by simp))

/-! ### Pieces -/

theorem apart_flatten (hne : ∀ m ∈ L, m ≠ []) (hL : (l :: L).IsChain (Apart p)) :
    Apart p l L.flatten := by
  cases L with
  | nil => simp [Apart]
  | cons m L =>
      obtain ⟨x, m', rfl⟩ := List.exists_cons_of_ne_nil (hne m List.mem_cons_self)
      intro y hy z hz
      exact (List.isChain_cons_cons.mp hL).1 y hy z (by simpa using hz)

/-- **Maximal runs.** Where no two neighbouring pieces touch with `p`s, a maximal run is one of a
piece. -/
theorem maxRun_pieces (hr : ∀ x ∈ r, p x = true) (hr' : r ≠ []) (hne : ∀ l ∈ L, l ≠ [])
    (hL : L.IsChain (Apart p)) (h : MaxRun p r L.flatten) :
    ∃ l ∈ L, MaxRun p r l := by
  induction L with
  | nil =>
      obtain ⟨a, b, heq, -, -⟩ := h
      simp [hr'] at heq
  | cons l L ih =>
      have hne' : ∀ l ∈ L, l ≠ [] := fun l hl => hne l (List.mem_cons_of_mem _ hl)
      rcases maxRun_append hr (apart_flatten hne' hL) h with h | h
      · exact ⟨l, List.mem_cons_self, h⟩
      · obtain ⟨m, hm, hrm⟩ := ih hne' hL.tail h
        exact ⟨m, List.mem_cons_of_mem _ hm, hrm⟩

/-- **Confinement.** Where no two neighbouring pieces touch with `p`s, a pattern of `p`s lies inside
one piece. -/
theorem infix_of_pieces {x : List α} (hx : x ≠ []) (hall : ∀ y ∈ x, p y = true)
    (hne : ∀ l ∈ L, l ≠ []) (hL : L.IsChain (Apart p)) (h : x <:+: L.flatten) :
    ∃ l ∈ L, x <:+: l := by
  induction L with
  | nil => exact absurd (by simpa using h) hx
  | cons l L ih =>
      have hne' : ∀ l ∈ L, l ≠ [] := fun l hl => hne l (List.mem_cons_of_mem _ hl)
      have hrest : x <:+: L.flatten → ∃ l' ∈ l :: L, x <:+: l' := fun h =>
        have ⟨m, hm, hxm⟩ := ih hne' hL.tail h
        ⟨m, List.mem_cons_of_mem _ hm, hxm⟩
      rw [List.flatten_cons] at h
      rcases List.infix_append_iff.mp h with h | h | ⟨x₁, x₂, rfl, h₁, h₂⟩
      · exact ⟨l, List.mem_cons_self, h⟩
      · exact hrest h
      · cases x₁ using List.reverseRecOn with
        | nil => exact hrest (by simpa using h₂.isInfix)
        | append_singleton x₁ y =>
            cases x₂ with
            | nil => exact ⟨l, List.mem_cons_self, by simpa using h₁.isInfix⟩
            | cons z x₂ =>
                -- the pattern would cross a seam with a `p` on either side
                obtain ⟨w, rfl⟩ := h₁
                obtain ⟨t, ht⟩ := h₂
                exact absurd ⟨hall y (by simp), hall z (by simp)⟩
                  (apart_flatten hne' hL y (by simp [← List.append_assoc]) z (by simp [← ht]))

/-- The pieces of a list cut wherever two neighbours are not both `p`: runs of `p`s, and single
elements that are none. -/
theorem splitBy_and_cases {m : List α} (h : m ∈ l.splitBy fun a b => p a && p b) :
    (∀ x ∈ m, p x = true) ∨ ∃ x, m = [x] ∧ p x = false := by
  have hchain := List.isChain_of_mem_splitBy h
  have hne := List.ne_nil_of_mem_splitBy h
  match m with
  | [x] =>
      cases hx : p x with
      | true => exact .inl (by simpa using hx)
      | false => exact .inr ⟨x, rfl, hx⟩
  | x :: y :: m =>
      -- a neighbour on either side makes every element a `p`
      refine .inl ?_
      clear h hne
      induction m generalizing x y with
      | nil => simpa using hchain
      | cons z m ih =>
          rw [List.isChain_cons_cons] at hchain
          have hx : p x = true := by
            have := hchain.1
            simp only [Bool.and_eq_true] at this
            exact this.1
          exact List.forall_mem_cons.mpr ⟨hx, ih y z hchain.2⟩

theorem apart_splitBy_and (l : List α) :
    (l.splitBy fun a b => p a && p b).IsChain (Apart p) := by
  refine (List.isChain_getLast_head_splitBy _ l).imp ?_
  rintro a b ⟨ha, hb, hab⟩ y hy z hz ⟨hpy, hpz⟩
  rw [List.getLast?_eq_getLast_of_ne_nil ha] at hy
  rw [List.head?_eq_some_head hb] at hz
  obtain rfl : a.getLast ha = y := by simpa using hy
  obtain rfl : b.head hb = z := by simpa using hz
  simp [hpy, hpz] at hab

/-! ### Inner runs -/

/-- `r` occurs in `l` between two elements that are not `p`. -/
def InnerRun (p : α → Bool) (r l : List α) : Prop :=
  ∃ a b, l = a ++ (r ++ b) ∧ (∃ x ∈ a.getLast?, p x = false) ∧ (∃ x ∈ b.head?, p x = false)

/-- An inner run of a pattern is a maximal run wherever the pattern is found. -/
theorem InnerRun.maxRun {x : List α} (h : InnerRun p r x) (hx : x <:+: l) :
    MaxRun p r l := by
  obtain ⟨a, b, rfl, ⟨y, hy, hpy⟩, z, hz, hpz⟩ := h
  obtain ⟨s, t, rfl⟩ := hx
  refine ⟨s ++ a, b ++ t, by simp, ?_, ?_⟩
  · intro w hw
    rw [List.mem_getLast?_append_of_mem_getLast? hy] at hw
    exact Option.some.inj hw ▸ hpy
  · intro w hw
    rw [List.mem_head?_append_of_mem_head? hz] at hw
    exact Option.some.inj hw ▸ hpz

theorem InnerRun.map {β : Type} {q : β → Bool} {f : α → β} (hf : ∀ x, q (f x) = p x)
    (h : InnerRun p r l) :
    InnerRun q (r.map f) (l.map f) := by
  obtain ⟨a, b, rfl, ⟨y, hy, hpy⟩, z, hz, hpz⟩ := h
  refine ⟨a.map f, b.map f, by simp, ⟨f y, ?_, by rw [hf, hpy]⟩, f z, ?_, by rw [hf, hpz]⟩
  · rw [List.getLast?_map]
    exact Option.mem_map_of_mem f hy
  · rw [List.head?_map]
    exact Option.mem_map_of_mem f hz

/-- The pieces of a list cut wherever `p` changes: all `p`, or `p`-free. -/
theorem splitBy_beq_cases {m : List α} (h : m ∈ l.splitBy fun a b => p a == p b) :
    (∀ x ∈ m, p x = true) ∨ Free p m := by
  have hchain := List.isChain_of_mem_splitBy h
  clear h
  induction m with
  | nil => exact .inl (by simp)
  | cons x m ih =>
      cases m with
      | nil =>
          cases hx : p x with
          | true => exact .inl (by simpa using hx)
          | false => exact .inr (by simpa [Free] using hx)
      | cons y m =>
          rw [List.isChain_cons_cons, beq_iff_eq] at hchain
          rcases ih hchain.2 with hall | hfree
          · exact .inl (List.forall_mem_cons.mpr ⟨hchain.1.trans (hall y List.mem_cons_self), hall⟩)
          · exact .inr
              (List.forall_mem_cons.mpr ⟨hchain.1.trans (hfree y List.mem_cons_self), hfree⟩)

/-- A run of `p`s that is neither the first nor the last piece is an inner run. -/
theorem innerRun_splitBy {L₁ L₂ : List (List α)}
    (h : (l.splitBy fun a b => p a == p b) = L₁ ++ r :: L₂) (h₁ : L₁ ≠ []) (h₂ : L₂ ≠ [])
    (hr : ∀ x ∈ r, p x = true) : InnerRun p r l := by
  have hchain := List.isChain_getLast_head_splitBy (fun a b => p a == p b) l
  have hflat := List.flatten_splitBy (fun a b => p a == p b) l
  rw [h] at hchain hflat
  obtain ⟨s, L₁, rfl⟩ : ∃ s L, L₁ = L ++ [s] :=
    ⟨_, _, (List.dropLast_append_getLast h₁).symm⟩
  obtain ⟨t, L₂, rfl⟩ := List.exists_cons_of_ne_nil h₂
  rw [List.append_assoc, List.singleton_append] at hchain
  have hmid := (hchain.right_of_append : List.IsChain _ (s :: r :: t :: L₂))
  rw [List.isChain_cons_cons, List.isChain_cons_cons] at hmid
  obtain ⟨⟨hs, hr', hsr⟩, ⟨_, ht, hrt⟩, -⟩ := hmid
  rw [hr _ (List.head_mem hr')] at hsr
  rw [hr _ (List.getLast_mem hr')] at hrt
  refine ⟨L₁.flatten ++ s, t ++ L₂.flatten, by simp [← hflat], ⟨s.getLast hs, ?_, ?_⟩,
    t.head ht, ?_, ?_⟩
  · rw [List.getLast?_append_of_ne_nil _ hs, List.getLast?_eq_getLast_of_ne_nil hs]
    rfl
  · simpa using hsr
  · rw [List.head?_append_of_ne_nil _ ht, List.head?_eq_some_head ht]
    rfl
  · simpa using hrt

end Support
