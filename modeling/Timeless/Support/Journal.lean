import Mathlib.Data.Finset.Basic
import Mathlib.Data.List.Perm.Basic
import Mathlib.Data.List.Nodup

/-!
# Journal — nested undo frames over a buffer and an index

A component keeps two things in memory: a buffer that grows at its end, and an index of entries
with distinct keys. Inside a transaction it records how to undo what it does, in a stack of frames
(innermost first), one per open savepoint and one for the transaction.

A frame does not copy the buffer. It remembers how long the buffer was; what is appended later is
cut off again. Only an operation that disturbs the remembered prefix copies it first (`protect`).
Of the index a frame keeps the keys that were added and the entries that were removed; an entry
that was added and removed under one frame leaves no trace.

`Restores` says that undoing the frames one after another leads back through given snapshots, the
index up to order. The results are its invariance under everything a component does:

* `Restores.push`, `Restores.disturb`, `Restores.add`, `Restores.remove`: working inside;
* `Restores.cons`: opening a frame;
* `Restores.merge`: giving up a savepoint, whose frame goes into the one around it;
* `Restores.unwind`: rolling back, one frame or many.
-/

namespace Support.Journal

variable {α ι κ σ : Type}

/-- What is kept in memory. -/
@[ext] structure Memory (α ι : Type) where
  buffer : List α
  index : List ι

/-- Equal buffers, and indexes with the same entries. -/
structure Memory.Same (m n : Memory α ι) : Prop where
  buffer : m.buffer = n.buffer
  index : m.index.Perm n.index

theorem Memory.Same.refl (m : Memory α ι) : m.Same m :=
  ⟨rfl, .refl _⟩

variable {m n s : Memory α ι}

theorem Memory.Same.symm (h : m.Same n) : n.Same m :=
  ⟨h.buffer.symm, h.index.symm⟩

theorem Memory.Same.trans {k : Memory α ι} (h₁ : m.Same n) (h₂ : n.Same k) : m.Same k :=
  ⟨h₁.buffer.trans h₂.buffer, h₁.index.trans h₂.index⟩

/-- One undo frame. -/
structure Frame (α ι κ σ : Type) where
  savepoint : Option σ
  bufferMark : Nat
  saved : List α
  added : Finset κ
  removed : List ι

namespace Frame

/-- A frame with nothing to undo. -/
def reset (savepoint : Option σ) (m : Memory α ι) : Frame α ι κ σ :=
  ⟨savepoint, m.buffer.length, [], ∅, []⟩

/-- Copy the remembered prefix of the buffer before it is disturbed. -/
def protect (f : Frame α ι κ σ) (buffer : List α) : Frame α ι κ σ :=
  if 0 < f.bufferMark then
    { f with saved := f.saved ++ buffer.take f.bufferMark, bufferMark := 0 }
  else f

variable [DecidableEq κ] (key : ι → κ)

/-- Remember one entry that is removed from the index, or forget that it was added. -/
def drop (f : Frame α ι κ σ) (e : ι) : Frame α ι κ σ :=
  if key e ∈ f.added then { f with added := f.added.erase (key e) }
  else { f with removed := f.removed ++ [e] }

def dropAll (f : Frame α ι κ σ) (es : List ι) : Frame α ι κ σ :=
  es.foldl (drop key) f

/-- Undo a frame. -/
def rollback (f : Frame α ι κ σ) (m : Memory α ι) : Memory α ι :=
  ⟨m.buffer.take f.bufferMark ++ f.saved, m.index.filter (fun e => key e ∉ f.added) ++ f.removed⟩

/-- Take what an inner frame saved, as far as it is not saved already. -/
def mergeSaved (parent child : Frame α ι κ σ) : Frame α ι κ σ :=
  if 0 < parent.bufferMark ∧ child.saved ≠ [] then
    { parent with saved := parent.saved ++ child.saved.take parent.bufferMark, bufferMark := 0 }
  else parent

/-- Give an inner frame up to the one around it. -/
def merge (parent child : Frame α ι κ σ) : Frame α ι κ σ :=
  let parent := (mergeSaved parent child).dropAll key child.removed
  { parent with added := parent.added ∪ child.added }

end Frame

/-! ### Removing entries under a frame -/

section

variable [DecidableEq κ] {key : ι → κ}

@[simp] theorem dropAll_nil (f : Frame α ι κ σ) : f.dropAll key [] = f := rfl

theorem dropAll_cons (f : Frame α ι κ σ) (e : ι) (es : List ι) :
    f.dropAll key (e :: es) = (f.drop key e).dropAll key es := rfl

/-- What a frame is after entries with distinct keys were removed under it. -/
theorem dropAll_eq (f : Frame α ι κ σ) {es : List ι} (hes : (es.map key).Nodup) :
    f.dropAll key es = { f with
      added := f.added \ (es.map key).toFinset
      removed := f.removed ++ es.filter fun e => key e ∉ f.added } := by
  induction es generalizing f with
  | nil => simp
  | cons e es ih =>
      rw [List.map_cons, List.nodup_cons] at hes
      -- the later entries have other keys, so taking this one out changes nothing for them
      have hother : ∀ e' ∈ es, key e' ≠ key e := fun e' he' heq =>
        hes.1 (heq ▸ List.mem_map_of_mem he')
      rw [dropAll_cons, ih _ hes.2, Frame.drop]
      split_ifs with hmem
      · have hfilter : es.filter (fun e' => key e' ∉ f.added.erase (key e)) =
            es.filter fun e' => key e' ∉ f.added :=
          List.filter_congr fun e' he' => by simp [hother e' he']
        simp only [hfilter, List.filter_cons, hmem, not_true_eq_false, decide_false,
          Bool.false_eq_true, if_false]
        congr 1
        ext k
        simp only [Finset.mem_sdiff, Finset.mem_erase, List.mem_toFinset, List.map_cons,
          List.mem_cons, not_or]
        tauto
      · simp only [List.filter_cons, hmem, not_false_eq_true, decide_true, if_true,
          List.append_assoc, List.singleton_append]
        congr 1
        ext k
        simp only [Finset.mem_sdiff, List.mem_toFinset, List.map_cons, List.mem_cons, not_or]
        constructor
        · rintro ⟨hk, hes'⟩
          exact ⟨hk, fun heq => hmem (heq ▸ hk), hes'⟩
        · rintro ⟨hk, -, hes'⟩
          exact ⟨hk, hes'⟩

end

/-! ### Frames that restore -/

/-- The remembered prefix is there, and nothing was copied while it is. -/
structure Frame.Fits (f : Frame α ι κ σ) (m : Memory α ι) : Prop where
  mark_le : f.bufferMark ≤ m.buffer.length
  saved_nil : 0 < f.bufferMark → f.saved = []

/-- The keys of an index are distinct. -/
def Memory.Distinct (key : ι → κ) (m : Memory α ι) : Prop :=
  (m.index.map key).Nodup

theorem Memory.Distinct.of_perm {key : ι → κ} (h : m.Distinct key) (hp : m.index.Perm n.index) :
    n.Distinct key :=
  (hp.map key).nodup_iff.mp h

variable {m : Memory α ι} {p c : Frame α ι κ σ} {pre fs : List (Frame α ι κ σ)}
  {f : Frame α ι κ σ} {spre ss : List (Memory α ι)}

theorem Frame.Fits.of_same (h : f.Fits m) (hs : m.Same n) :
    f.Fits n :=
  ⟨hs.buffer ▸ h.mark_le, h.saved_nil⟩

/-- Change the innermost frame. -/
def onTop (g : Frame α ι κ σ → Frame α ι κ σ) : List (Frame α ι κ σ) → List (Frame α ι κ σ)
  | [] => []
  | f :: fs => g f :: fs

theorem protect_mark (f : Frame α ι κ σ) (buffer : List α) : (f.protect buffer).bufferMark = 0 := by
  rw [Frame.protect]
  split_ifs with hmark
  · rfl
  · exact Nat.eq_zero_of_not_pos hmark

theorem protect_saved (fits : f.Fits m) :
    (f.protect m.buffer).saved = m.buffer.take f.bufferMark ++ f.saved := by
  rw [Frame.protect]
  split_ifs with hmark
  · simp [fits.saved_nil hmark]
  · simp [Nat.eq_zero_of_not_pos hmark]

theorem protect_index (f : Frame α ι κ σ) (buffer : List α) :
    (f.protect buffer).added = f.added ∧ (f.protect buffer).removed = f.removed := by
  rw [Frame.protect]
  split_ifs <;> exact ⟨rfl, rfl⟩

/-- The buffer two nested frames restore is restored by the merged frame. -/
theorem mergeSaved_buffer (hc : c.Fits m) (hs : s.buffer = m.buffer.take c.bufferMark ++ c.saved)
    (hp : p.Fits s) :
    (p.mergeSaved c).Fits m ∧
      m.buffer.take (p.mergeSaved c).bufferMark ++ (p.mergeSaved c).saved =
        s.buffer.take p.bufferMark ++ p.saved := by
  rw [Frame.mergeSaved]
  split_ifs with hmerge
  · obtain ⟨hmark, hsaved⟩ := hmerge
    -- the inner frame copied its prefix, so it restores its whole buffer from the copy
    have hcmark : c.bufferMark = 0 := by
      by_contra h
      exact hsaved (hc.saved_nil (Nat.pos_of_ne_zero h))
    refine ⟨⟨Nat.zero_le _, fun h => absurd h (lt_irrefl 0)⟩, ?_⟩
    simp [hs, hcmark, hp.saved_nil hmark]
  · rw [not_and_or, not_not] at hmerge
    rcases hmerge with hmark | hsaved
    · have hzero : p.bufferMark = 0 := Nat.eq_zero_of_not_pos hmark
      exact ⟨⟨by simp [hzero], fun h => absurd h hmark⟩, by simp [hzero]⟩
    · have hle := hp.mark_le
      rw [hs, hsaved, List.append_nil, List.length_take] at hle
      refine ⟨⟨by omega, hp.saved_nil⟩, ?_⟩
      rw [hs, hsaved, List.append_nil, List.take_take, min_eq_left (by omega)]

theorem mergeSaved_index (p c : Frame α ι κ σ) :
    (p.mergeSaved c).added = p.added ∧ (p.mergeSaved c).removed = p.removed := by
  rw [Frame.mergeSaved]
  split_ifs <;> exact ⟨rfl, rfl⟩

variable [DecidableEq κ] (key : ι → κ)

/-- Undoing the frames one after another leads back through the snapshots. -/
inductive Restores : Memory α ι → List (Frame α ι κ σ) → List (Memory α ι) → Prop
  | nil (m : Memory α ι) : Restores m [] []
  | cons {m s : Memory α ι} {f : Frame α ι κ σ} {fs : List (Frame α ι κ σ)}
      {ss : List (Memory α ι)} (fits : f.Fits m) (same : (f.rollback key m).Same s)
      (distinct : s.Distinct key) (rest : Restores s fs ss) : Restores m (f :: fs) (s :: ss)

variable {key}

variable {fs : List (Frame α ι κ σ)} {ss : List (Memory α ι)}

theorem rollback_same (h : m.Same n) :
    (f.rollback key m).Same (f.rollback key n) :=
  ⟨by simp [Frame.rollback, h.buffer], (h.index.filter _).append_right _⟩

/-- Only the buffer and the set of index entries matter. -/
theorem Restores.of_same (h : Restores key m fs ss) (hs : m.Same n) :
    Restores key n fs ss := by
  cases h with
  | nil => exact .nil n
  | cons fits same distinct rest =>
      exact .cons (fits.of_same hs) ((rollback_same hs.symm).trans same) distinct rest

theorem Restores.distinct (h : Restores key m fs ss) (hs : s ∈ ss) :
    s.Distinct key := by
  induction h with
  | nil => exact absurd hs (List.not_mem_nil)
  | cons fits same distinct rest ih =>
      rcases List.mem_cons.mp hs with rfl | hs
      · exact distinct
      · exact ih hs

/-- A step under the innermost frame that keeps what undoing that frame gives. -/
theorem Restores.step {m' : Memory α ι} {f f' : Frame α ι κ σ}
    (h : Restores key m (f :: fs) (s :: ss)) (fits : f.Fits m → f'.Fits m')
    (same : f.Fits m → (f'.rollback key m').Same (f.rollback key m)) :
    Restores key m' (f' :: fs) (s :: ss) := by
  cases h with
  | cons hfits hsame hdistinct hrest =>
      exact .cons (fits hfits) ((same hfits).trans hsame) hdistinct hrest

/-- Undo frames one after another. -/
def unwind (key : ι → κ) (m : Memory α ι) (fs : List (Frame α ι κ σ)) : Memory α ι :=
  fs.foldl (fun m f => f.rollback key m) m

/-- Undoing some frames leads to the last of their snapshots, with the others still in place. -/
theorem Restores.unwind (h : Restores key m (pre ++ fs) (spre ++ ss))
    (hlen : pre.length = spre.length) :
    (unwind key m pre).Same (spre.getLast?.getD m) ∧ Restores key (unwind key m pre) fs ss := by
  induction pre generalizing m spre with
  | nil =>
      obtain rfl : spre = [] := List.length_eq_zero_iff.mp hlen.symm
      exact ⟨.refl m, h⟩
  | cons f pre ih =>
      obtain _ | ⟨s, spre⟩ := spre
      · exact absurd hlen (by simp)
      cases h with
      | cons fits same distinct rest =>
          have hrest := ih (rest.of_same same.symm) (by simpa using hlen)
          refine ⟨hrest.1.trans ?_, hrest.2⟩
          rw [List.getLast?_cons, Option.getD_some]
          cases spre with
          | nil => exact same
          | cons _ _ => simpa [List.getLast?_cons] using .refl _

/-! ### Working inside -/

/-- A buffer that only grows keeps what undoing gives. -/
theorem Restores.push (h : Restores key m fs ss) (es : List α) :
    Restores key { m with buffer := m.buffer ++ es } fs ss := by
  cases h with
  | nil => exact .nil _
  | cons fits same distinct rest =>
      have hmark := fits.mark_le
      refine (Restores.cons fits same distinct rest).step (fun _ => ?_) (fun _ => ?_)
      · exact ⟨by simp only [List.length_append]; omega, fits.saved_nil⟩
      · exact ⟨by simp [Frame.rollback, List.take_append_of_le_length hmark], .refl _⟩

/-- Behind a copy of the remembered prefix the buffer may become anything. -/
theorem Restores.disturb (h : Restores key m fs ss) (buffer : List α) :
    Restores key { m with buffer := buffer } (onTop (·.protect m.buffer) fs) ss := by
  cases h with
  | nil => exact .nil _
  | @cons _ _ f _ _ fits same distinct rest =>
      refine (Restores.cons fits same distinct rest).step (fun _ => ?_) (fun _ => ?_)
      · refine ⟨by simp [protect_mark], fun hmark => ?_⟩
        exact absurd (protect_mark _ _) hmark.ne'
      · obtain ⟨hadded, hremoved⟩ := protect_index f m.buffer
        refine ⟨?_, ?_⟩
        · simp [Frame.rollback, protect_mark, protect_saved fits]
        · simp only [Frame.rollback, hadded, hremoved]
          exact .refl _

/-- A new index entry is forgotten by undoing. -/
theorem Restores.add (h : Restores key m fs ss) {e : ι} (hnew : key e ∉ m.index.map key) :
    Restores key { m with index := m.index ++ [e] }
      (onTop (fun f => { f with added := insert (key e) f.added }) fs) ss := by
  cases h with
  | nil => exact .nil _
  | @cons _ _ f _ _ fits same distinct rest =>
      refine (Restores.cons fits same distinct rest).step (fun _ => ⟨fits.mark_le, fits.saved_nil⟩)
        (fun _ => ⟨rfl, ?_⟩)
      have hkeep : m.index.filter (fun e' => key e' ∉ insert (key e) f.added) =
          m.index.filter fun e' => key e' ∉ f.added :=
        List.filter_congr fun e' he' => by
          have hne : key e' ≠ key e := fun heq => hnew (heq ▸ List.mem_map_of_mem he')
          simp [hne]
      simp only [Frame.rollback, List.filter_append, hkeep]
      simp

/-- Entries taken out of the index come back by undoing. -/
theorem Restores.remove (h : Restores key m fs ss) (hm : m.Distinct key) (p : ι → Bool) :
    Restores key { m with index := m.index.filter (fun e => !p e) }
      (onTop (·.dropAll key (m.index.filter p)) fs) ss := by
  cases h with
  | nil => exact .nil _
  | @cons _ _ f _ _ fits same distinct rest =>
      have hgone : ((m.index.filter p).map key).Nodup :=
        hm.sublist (List.filter_sublist.map key)
      -- the keys of what stays and of what goes are different
      have hstays : ∀ e ∈ m.index.filter (fun e => !p e), key e ∉ (m.index.filter p).map key := by
        intro e he hkey
        obtain ⟨e', he', heq⟩ := List.mem_map.mp hkey
        obtain ⟨hmem, hp⟩ := List.mem_filter.mp he
        obtain ⟨hmem', hp'⟩ := List.mem_filter.mp he'
        obtain rfl := List.inj_on_of_nodup_map hm hmem' hmem heq
        simp [hp'] at hp
      rw [show onTop (·.dropAll key (m.index.filter p)) (f :: _) = f.dropAll key _ :: _ from rfl,
        dropAll_eq f hgone]
      refine (Restores.cons fits same distinct rest).step (fun _ => ⟨fits.mark_le, fits.saved_nil⟩)
        (fun _ => ⟨rfl, ?_⟩)
      have hkeep : (m.index.filter (fun e => !p e)).filter
          (fun e => key e ∉ f.added \ ((m.index.filter p).map key).toFinset) =
          (m.index.filter (fun e => key e ∉ f.added)).filter fun e => !p e := by
        rw [List.filter_comm (fun e => !p e)]
        refine List.filter_congr fun e he => ?_
        have hkey := hstays e he
        rw [← List.mem_toFinset] at hkey
        simp only [Finset.mem_sdiff, hkey, not_false_eq_true, and_true]
      simp only [Frame.rollback, hkeep]
      rw [List.filter_comm (fun e => decide (key e ∉ f.added)) p, ← List.append_assoc]
      refine List.perm_append_comm.trans ?_
      rw [← List.append_assoc]
      exact (List.filter_append_perm p _).append_right _

/-! ### Giving up a savepoint -/

theorem merge_eq (hc : (c.removed.map key).Nodup) :
    p.merge key c = { p.mergeSaved c with
      added := p.added \ (c.removed.map key).toFinset ∪ c.added
      removed := p.removed ++ c.removed.filter fun e => key e ∉ p.added } := by
  obtain ⟨hadded, hremoved⟩ := mergeSaved_index p c
  rw [Frame.merge, dropAll_eq _ hc, hadded, hremoved]

theorem removed_nodup {c : Frame α ι κ σ} (hs : (c.rollback key m).Same s)
    (hdistinct : s.Distinct key) : (c.removed.map key).Nodup :=
  (hdistinct.of_perm hs.index.symm).sublist ((List.sublist_append_right _ _).map key)

/-- The merged frame restores the index that the two frames restore one after the other. -/
theorem merge_index (hs : (c.rollback key m).Same s) (hdistinct : s.Distinct key) :
    ((p.merge key c).rollback key m).index.Perm (p.rollback key s).index := by
  have hnodup : ((m.index.filter (fun e => key e ∉ c.added) ++ c.removed).map key).Nodup :=
    hdistinct.of_perm hs.index.symm
  rw [List.map_append, List.nodup_append'] at hnodup
  obtain ⟨-, -, hdisjoint⟩ := hnodup
  -- an entry that the inner frame does not take out was not removed under it
  have hkeep : m.index.filter
      (fun e => key e ∉ p.added \ (c.removed.map key).toFinset ∪ c.added) =
      (m.index.filter fun e => key e ∉ c.added).filter fun e => key e ∉ p.added := by
    rw [List.filter_filter]
    refine List.filter_congr fun e he => ?_
    by_cases hadded : key e ∈ c.added
    · simp [hadded]
    · have hmem : key e ∈ (m.index.filter fun e => key e ∉ c.added).map key :=
        List.mem_map_of_mem (List.mem_filter.mpr ⟨he, by simpa using hadded⟩)
      have hkey : key e ∉ (c.removed.map key).toFinset := by
        rw [List.mem_toFinset]
        exact fun h => hdisjoint hmem h
      simp only [Finset.mem_union, Finset.mem_sdiff, hkey, hadded, not_false_eq_true, and_true,
        or_false, decide_true, Bool.and_true]
  rw [merge_eq (removed_nodup hs hdistinct)]
  refine .trans ?_ ((hs.index.filter fun e => decide (key e ∉ p.added)).append_right _)
  simp only [Frame.rollback, hkeep, List.filter_append, List.append_assoc]
  exact List.perm_append_comm.append_left _

/-- A savepoint that is given up leaves its changes to the frame around it. -/
theorem Restores.merge (h : Restores key m (pre ++ c :: p :: fs) (spre ++ s :: ss))
    (hlen : pre.length = spre.length) :
    Restores key m (pre ++ p.merge key c :: fs) (spre ++ ss) := by
  induction pre generalizing m spre with
  | nil =>
      obtain rfl : spre = [] := List.length_eq_zero_iff.mp hlen.symm
      obtain _ | ⟨hc, hs, hdistinct, hrest⟩ := h
      obtain _ | ⟨hp, hs', hdistinct', hrest'⟩ := hrest
      obtain ⟨hfits, hbuffer⟩ := mergeSaved_buffer hc hs.buffer.symm hp
      have hindex := merge_index (p := p) hs hdistinct
      rw [merge_eq (removed_nodup hs hdistinct)] at hindex ⊢
      exact .cons ⟨hfits.mark_le, hfits.saved_nil⟩
        ⟨hbuffer.trans hs'.buffer, hindex.trans hs'.index⟩ hdistinct' hrest'
  | cons f pre ih =>
      obtain _ | ⟨s', spre⟩ := spre
      · exact absurd hlen (by simp)
      cases h with
      | cons fits same distinct rest => exact .cons fits same distinct (ih rest (by simpa using hlen))

theorem dropAll_savepoint (f : Frame α ι κ σ) (es : List ι) :
    (f.dropAll key es).savepoint = f.savepoint := by
  induction es generalizing f with
  | nil => rfl
  | cons e es ih =>
      rw [dropAll_cons, ih, Frame.drop]
      split_ifs <;> rfl

theorem merge_savepoint (p c : Frame α ι κ σ) : (p.merge key c).savepoint = p.savepoint := by
  rw [Frame.merge, dropAll_savepoint, Frame.mergeSaved]
  split_ifs <;> rfl

/-- Merge released frames, the outermost first, into the frame around them. -/
def mergeAll (key : ι → κ) (parent : Frame α ι κ σ) (released : List (Frame α ι κ σ)) :
    Frame α ι κ σ :=
  released.reverse.foldl (Frame.merge key) parent

theorem Restores.mergeAll {p : Frame α ι κ σ} (h : Restores key m (pre ++ p :: fs) (spre ++ ss))
    (hlen : pre.length = spre.length) :
    Restores key m (mergeAll key p pre :: fs) ss := by
  -- the outermost released frame is the last of the list, and is merged first
  induction pre using List.reverseRecOn generalizing p spre with
  | nil =>
      obtain rfl : spre = [] := List.length_eq_zero_iff.mp hlen.symm
      exact h
  | append_singleton pre c ih =>
      obtain rfl | ⟨spre, s, rfl⟩ := List.eq_nil_or_concat spre
      · simp at hlen
      have hlen' : pre.length = spre.length := by simpa using hlen
      rw [List.concat_eq_append, List.append_assoc, List.append_assoc] at h
      have hmerged := ih (h.merge hlen') hlen'
      rwa [Journal.mergeAll, List.reverse_append, List.reverse_singleton, List.singleton_append,
        List.foldl_cons]

theorem mergeAll_savepoint (p : Frame α ι κ σ) (released : List (Frame α ι κ σ)) :
    (mergeAll key p released).savepoint = p.savepoint := by
  rw [mergeAll]
  induction released.reverse generalizing p with
  | nil => rfl
  | cons c cs ih => rw [List.foldl_cons, ih, merge_savepoint]

/-! ### Opening a frame -/

omit [DecidableEq κ] in
theorem reset_fits (name : Option σ) (m : Memory α ι) :
    (Frame.reset name m : Frame α ι κ σ).Fits m :=
  ⟨le_refl _, fun _ => rfl⟩

theorem rollback_reset (name : Option σ) (m : Memory α ι) :
    (Frame.reset name m : Frame α ι κ σ).rollback key m = m := by
  simp [Frame.rollback, Frame.reset]

/-- A fresh frame leads back to the memory it is opened on. -/
theorem Restores.reset (h : Restores key m fs ss) (hm : m.Distinct key) (hn : m.Same n)
    (name : Option σ) :
    Restores key m (Frame.reset name m :: fs) (n :: ss) :=
  .cons (reset_fits name m) (by rwa [rollback_reset]) (hm.of_perm hn.index) (h.of_same hn)

/-! ### Named savepoints -/

/-- The memory with its frames. -/
structure State (α ι κ σ : Type) extends Memory α ι where
  frames : List (Frame α ι κ σ)

variable [DecidableEq σ]

/-- Where a savepoint is, counted from the outermost frame. -/
def position (id : σ) (fs : List (Frame α ι κ σ)) : Option Nat :=
  fs.reverse.findIdx? fun f => decide (f.savepoint = some id)

variable {id : σ}

omit [DecidableEq κ] in
theorem position_eq {pre post : List (Frame α ι κ σ)} (hf : f.savepoint = some id)
    (hpost : ∀ g ∈ post, g.savepoint ≠ some id) :
    position id (pre ++ f :: post) = some post.length := by
  have hnone : post.reverse.findIdx? (fun f => decide (f.savepoint = some id)) = none :=
    List.findIdx?_eq_none_iff.mpr fun g hg => by simpa using hpost g (List.mem_reverse.mp hg)
  simp [position, List.findIdx?_append, hnone, List.findIdx?_cons, hf]

namespace State

variable (key) (id : σ) (s : State α ι κ σ)

/-- Append to the buffer. -/
def push (es : List α) : State α ι κ σ :=
  { s with buffer := s.buffer ++ es }

/-- Put another buffer in place of the buffer. -/
def disturb (buffer : List α) : State α ι κ σ :=
  { s with buffer := buffer, frames := onTop (·.protect s.buffer) s.frames }

/-- Append an entry to the index. -/
def add (e : ι) : State α ι κ σ :=
  { s with
    index := s.index ++ [e]
    frames := onTop (fun f => { f with added := insert (key e) f.added }) s.frames }

/-- Take entries out of the index. -/
def remove (p : ι → Bool) : State α ι κ σ :=
  { s with
    index := s.index.filter fun e => !p e
    frames := onTop (·.dropAll key (s.index.filter p)) s.frames }

/-- Start a transaction. -/
def start : State α ι κ σ :=
  { s with frames := [Frame.reset none s.toMemory] }

def commit : State α ι κ σ :=
  { s with frames := [] }

/-- Undo the whole transaction. -/
def rollback : State α ι κ σ :=
  { unwind key s.toMemory s.frames with frames := [] }

/-- Open a savepoint; nothing happens outside a transaction. -/
def savepoint : State α ι κ σ :=
  match s.frames with
  | [] => s
  | _ :: _ => { s with frames := Frame.reset (some id) s.toMemory :: s.frames }

/-- Give up a savepoint and all inside it; an unknown one is ignored. -/
def release : State α ι κ σ :=
  match position id s.frames with
  | none => s
  | some pos =>
      let n := s.frames.length - pos
      match s.frames.drop n with
      | [] => s
      | parent :: rest => { s with frames := mergeAll key parent (s.frames.take n) :: rest }

/-- Undo back to a savepoint, which stays open; an unknown one is ignored. -/
def rollbackTo : State α ι κ σ :=
  match position id s.frames with
  | none => s
  | some pos =>
      let n := s.frames.length - pos
      let m := unwind key s.toMemory (s.frames.take n)
      { m with frames := Frame.reset (some id) m :: s.frames.drop n }

omit [DecidableEq κ] [DecidableEq σ] in
theorem savepoint_toMemory : (s.savepoint id).toMemory = s.toMemory := by
  rw [savepoint]
  split <;> rfl

theorem release_toMemory : (s.release key id).toMemory = s.toMemory := by
  rw [release]
  split
  · rfl
  · dsimp only
    split <;> rfl

end State

/-- What a transaction and its open savepoints (innermost first) should lead back to. -/
structure Saves (σ β : Type) where
  opened : List (σ × β)
  base : β

namespace Saves

variable {β : Type} {v : Saves σ β} {id : σ} {b : β}

def start (b : β) : Saves σ β :=
  ⟨[], b⟩

def savepoint (v : Saves σ β) (id : σ) (b : β) : Saves σ β :=
  ⟨(id, b) :: v.opened, v.base⟩

/-- What the outermost savepoint of a name saved. -/
def find (v : Saves σ β) (id : σ) : Option β :=
  v.opened.reverse.lookup id

/-- The savepoints around it. -/
def around (v : Saves σ β) (id : σ) : List (σ × β) :=
  (v.opened.reverse.takeWhile fun p => decide (p.1 ≠ id)).reverse

/-- The savepoints from one outwards; an unknown one is ignored. -/
def rollbackTo (v : Saves σ β) (id : σ) : Saves σ β :=
  match v.find id with
  | none => v
  | some b => ⟨(id, b) :: v.around id, v.base⟩

/-- The savepoints around one; an unknown one is ignored. -/
def release (v : Saves σ β) (id : σ) : Saves σ β :=
  match v.find id with
  | none => v
  | some _ => ⟨v.around id, v.base⟩

theorem find_eq_none : v.find id = none ↔ id ∉ v.opened.map Prod.fst := by
  rw [find, List.lookup_eq_none_iff, List.mem_map]
  constructor
  · rintro h ⟨p, hp, rfl⟩
    exact bne_iff_ne.mp (h p (List.mem_reverse.mpr hp)) rfl
  · exact fun h p hp => bne_iff_ne.mpr fun heq => h ⟨p, List.mem_reverse.mp hp, heq.symm⟩

theorem opened_split (h : v.find id = some b) :
    ∃ pre, v.opened = pre ++ (id, b) :: v.around id ∧ id ∉ (v.around id).map Prod.fst := by
  have hsplit : ∀ l : List (σ × β), l.lookup id = some b →
      ∃ post, l = l.takeWhile (fun p => decide (p.1 ≠ id)) ++ (id, b) :: post := by
    intro l hl
    induction l with
    | nil => cases hl
    | cons p l ih =>
        rw [List.lookup_cons] at hl
        by_cases hp : p.1 = id
        · rw [beq_iff_eq.mpr hp.symm] at hl
          exact ⟨l, by simp [← Option.some.inj hl, ← hp]⟩
        · rw [beq_eq_false_iff_ne.mpr (Ne.symm hp)] at hl
          obtain ⟨post, hpost⟩ := ih hl
          exact ⟨post, by rw [List.takeWhile_cons_of_pos (by simpa using hp), List.cons_append, ← hpost]⟩
  obtain ⟨post, hpost⟩ := hsplit _ h
  refine ⟨post.reverse, ?_, ?_⟩
  · rw [← List.reverse_reverse v.opened, hpost]
    simp [around]
  · rintro hmem
    obtain ⟨p, hp, hname⟩ := List.mem_map.mp hmem
    have hne := List.all_eq_true.mp List.all_takeWhile p (List.mem_reverse.mp hp)
    simp [hname] at hne

theorem mem_of_find (h : v.find id = some b) : (id, b) ∈ v.opened := by
  obtain ⟨pre, hopened, -⟩ := opened_split h
  simp [hopened]

/-- With distinct names, the outermost savepoint of a name is the only one. -/
theorem find_of_mem (hv : (v.opened.map Prod.fst).Nodup) (h : (id, b) ∈ v.opened) :
    v.find id = some b := by
  cases hfind : v.find id with
  | none => exact absurd (List.mem_map_of_mem h) (find_eq_none.mp hfind)
  | some b' =>
      have := List.inj_on_of_nodup_map hv (mem_of_find hfind) h rfl
      rw [(Prod.mk.inj this).2]

theorem rollbackTo_base (v : Saves σ β) (id : σ) : (v.rollbackTo id).base = v.base := by
  rw [rollbackTo]
  split <;> rfl

theorem release_base (v : Saves σ β) (id : σ) : (v.release id).base = v.base := by
  rw [release]
  split <;> rfl

theorem rollbackTo_sublist (v : Saves σ β) (id : σ) : (v.rollbackTo id).opened.Sublist v.opened := by
  rw [rollbackTo]
  cases h : v.find id with
  | none => exact .refl _
  | some b =>
      obtain ⟨pre, hopened, -⟩ := opened_split h
      exact hopened ▸ List.sublist_append_right pre _

theorem release_sublist (v : Saves σ β) (id : σ) : (v.release id).opened.Sublist v.opened := by
  refine List.Sublist.trans ?_ (v.rollbackTo_sublist id)
  rw [release, rollbackTo]
  cases v.find id with
  | none => exact .refl _
  | some b => exact List.sublist_cons_self _ _

end Saves

variable {β : Type}

/-- The frames are those of the open savepoints, and undo to them. -/
structure Tracks (key : ι → κ) (view : β → Memory α ι) (s : State α ι κ σ) (v : Saves σ β) :
    Prop where
  names : s.frames.map (·.savepoint) = v.opened.map (fun p => some p.1) ++ [none]
  restores : Restores key s.toMemory s.frames (v.opened.map (fun p => view p.2) ++ [view v.base])

namespace Tracks

variable {view : β → Memory α ι} {s : State α ι κ σ} {v : Saves σ β} {b : β}

omit [DecidableEq σ] in
theorem start (hs : s.Distinct key) (hb : view b = s.toMemory) :
    Tracks key view s.start (Saves.start b) :=
  ⟨rfl, Restores.reset (.nil _) hs (hb ▸ .refl _) none⟩

omit [DecidableEq σ] in
theorem frames_ne_nil (h : Tracks key view s v) : s.frames ≠ [] := fun hnil => by
  simpa [hnil] using h.names

omit [DecidableEq σ] in
theorem savepoint (h : Tracks key view s v) (hs : s.Distinct key) (hb : view b = s.toMemory)
    (id : σ) :
    Tracks key view (s.savepoint id) (v.savepoint id b) := by
  obtain ⟨f, fs, hfs⟩ := List.exists_cons_of_ne_nil h.frames_ne_nil
  have hnames := h.names
  have hrestores := h.restores
  rw [hfs] at hnames hrestores
  simp only [State.savepoint, hfs]
  exact ⟨by simp [Saves.savepoint, Frame.reset, hnames],
    hrestores.reset hs (hb ▸ .refl _) (some id)⟩

/-- The frames down to that of an open savepoint, and the frames around it. -/
theorem split (h : Tracks key view s v) (hid : v.find id = some b) :
    ∃ (inner outer : List (Frame α ι κ σ)) (pre : List (Memory α ι)),
      s.frames = inner ++ outer ∧ position id s.frames = some outer.length ∧
      outer.map (·.savepoint) = (v.around id).map (fun p => some p.1) ++ [none] ∧
      inner.length = (pre ++ [view b]).length ∧
      Restores key s.toMemory (inner ++ outer)
        ((pre ++ [view b]) ++ ((v.around id).map (fun p => view p.2) ++ [view v.base])) := by
  obtain ⟨pre, hopened, hpost⟩ := Saves.opened_split hid
  have hnames := h.names
  rw [hopened, List.map_append, List.map_cons, List.append_assoc, List.cons_append] at hnames
  obtain ⟨fpre, rest, hframes, hfpre, hrest⟩ := List.map_eq_append_iff.mp hnames
  obtain ⟨f, outer, rfl, hf, houter⟩ := List.map_eq_cons_iff.mp hrest
  have hlen : fpre.length = pre.length := by simpa using congrArg List.length hfpre
  have hrestores := h.restores
  rw [hframes, hopened] at hrestores
  refine ⟨fpre ++ [f], outer, pre.map fun p => view p.2, by simp [hframes], ?_, houter,
    by simp [hlen], by simpa using hrestores⟩
  rw [hframes]
  refine position_eq hf fun g hg hname => ?_
  have hmem : g.savepoint ∈ (v.around id).map (fun p => some p.1) ++ [none] :=
    houter ▸ List.mem_map_of_mem hg
  rw [hname] at hmem
  exact hpost (by simpa using hmem)

/-- A savepoint that was not saved has no frame. -/
theorem position_eq_none (h : Tracks key view s v) (hid : v.find id = none) :
    position id s.frames = none := by
  rw [position, List.findIdx?_eq_none_iff]
  intro f hf
  have hmem : f.savepoint ∈ v.opened.map (fun p => some p.1) ++ [none] :=
    h.names ▸ List.mem_map_of_mem (List.mem_reverse.mp hf)
  rw [decide_eq_false_iff_not]
  intro hname
  rw [hname] at hmem
  exact Saves.find_eq_none.mp hid (by simpa using hmem)

/-- Undoing to a savepoint gives back what was saved there; an unknown one is ignored. -/
theorem rollbackTo (h : Tracks key view s v) (id : σ) :
    (s.rollbackTo key id).Same (((v.find id).map view).getD s.toMemory) ∧
      Tracks key view (s.rollbackTo key id) (v.rollbackTo id) := by
  cases hid : v.find id with
  | none =>
      have hstate : s.rollbackTo key id = s := by rw [State.rollbackTo, h.position_eq_none hid]
      have hsaves : v.rollbackTo id = v := by rw [Saves.rollbackTo, hid]
      rw [hstate, hsaves]
      exact ⟨.refl _, h⟩
  | some b =>
      obtain ⟨inner, outer, pre, hframes, hpos, hnames, hlen, hrestores⟩ := h.split hid
      have hinner : s.frames.length - outer.length = inner.length := by simp [hframes]
      have htake : s.frames.take inner.length = inner := by rw [hframes, List.take_left]
      have hdrop : s.frames.drop inner.length = outer := by rw [hframes, List.drop_left]
      have hstate : s.rollbackTo key id = { unwind key s.toMemory inner with
          frames := Frame.reset (some id) (unwind key s.toMemory inner) :: outer } := by
        simp only [State.rollbackTo, hpos, hinner, htake, hdrop]
      have hdistinct : (view b).Distinct key := hrestores.distinct (by simp)
      obtain ⟨hsame, hrest⟩ := hrestores.unwind hlen
      rw [List.getLast?_concat, Option.getD_some] at hsame
      rw [hstate, Saves.rollbackTo, hid]
      exact ⟨hsame, by simp [Frame.reset, hnames],
        hrest.reset (hdistinct.of_perm hsame.index.symm) hsame (some id)⟩

/-- A savepoint that is given up leaves the others where they are. -/
theorem release (h : Tracks key view s v) (id : σ) :
    Tracks key view (s.release key id) (v.release id) := by
  cases hid : v.find id with
  | none =>
      have hstate : s.release key id = s := by rw [State.release, h.position_eq_none hid]
      rwa [hstate, Saves.release, hid]
  | some b =>
      obtain ⟨inner, outer, pre, hframes, hpos, hnames, hlen, hrestores⟩ := h.split hid
      obtain _ | ⟨parent, rest⟩ := outer
      · simp at hnames
      have hinner : s.frames.length - (parent :: rest).length = inner.length := by simp [hframes]
      have htake : s.frames.take inner.length = inner := by rw [hframes, List.take_left]
      have hdrop : s.frames.drop inner.length = parent :: rest := by rw [hframes, List.drop_left]
      have hstate : s.release key id = { s with frames := mergeAll key parent inner :: rest } := by
        simp only [State.release, hpos, hinner, htake, hdrop]
      rw [hstate, Saves.release, hid]
      refine ⟨?_, hrestores.mergeAll hlen⟩
      rw [List.map_cons, mergeAll_savepoint, ← List.map_cons, hnames]

omit [DecidableEq σ] in
/-- Undoing the transaction gives back what was there when it started. -/
theorem rollback (h : Tracks key view s v) : (s.rollback key).Same (view v.base) := by
  have hlen : s.frames.length = (v.opened.map (fun p => view p.2) ++ [view v.base]).length := by
    simpa using congrArg List.length h.names
  have hrestores := h.restores
  rw [← List.append_nil s.frames, ← List.append_nil (_ ++ [view v.base])] at hrestores
  have hsame := (hrestores.unwind hlen).1
  rwa [List.getLast?_concat, Option.getD_some] at hsame

end Tracks

/-! ### Runs -/

/-- Inside a transaction the frames lead back to what is saved; outside there are none. -/
def Follows (key : ι → κ) (view : β → Memory α ι) (s : State α ι κ σ) : Option (Saves σ β) → Prop
  | none => s.frames = []
  | some v => Tracks key view s v

namespace Follows

variable {view : β → Memory α ι} {s : State α ι κ σ} {o : Option (Saves σ β)}

omit [DecidableEq σ] in
/-- A step that leaves the names of the frames and whatever they restore. -/
theorem step {s' : State α ι κ σ} (h : Follows key view s o)
    (hnames : s'.frames.map (·.savepoint) = s.frames.map (·.savepoint))
    (hrestores : ∀ ss, Restores key s.toMemory s.frames ss →
      Restores key s'.toMemory s'.frames ss) : Follows key view s' o := by
  cases o with
  | none =>
      rw [show s.frames = [] from h] at hnames
      exact List.map_eq_nil_iff.mp hnames
  | some v => exact ⟨hnames.trans h.names, hrestores _ h.restores⟩

omit [DecidableEq κ] [DecidableEq σ] in
theorem onTop_savepoint {g : Frame α ι κ σ → Frame α ι κ σ}
    (hg : ∀ f, (g f).savepoint = f.savepoint) (fs : List (Frame α ι κ σ)) :
    (onTop g fs).map (·.savepoint) = fs.map (·.savepoint) := by
  cases fs with
  | nil => rfl
  | cons f fs => simp [onTop, hg]

omit [DecidableEq σ] in
theorem push (h : Follows key view s o) (es : List α) : Follows key view (s.push es) o :=
  h.step rfl fun _ hr => hr.push es

omit [DecidableEq σ] in
theorem disturb (h : Follows key view s o) (buffer : List α) :
    Follows key view (s.disturb buffer) o := by
  refine h.step (onTop_savepoint (fun f => ?_) _) fun _ hr => hr.disturb buffer
  rw [Frame.protect]
  split_ifs <;> rfl

omit [DecidableEq σ] in
theorem add (h : Follows key view s o) {e : ι} (hnew : key e ∉ s.index.map key) :
    Follows key view (s.add key e) o := by
  refine h.step ?_ fun _ hr => hr.add hnew
  cases hframes : s.frames <;> simp [State.add, onTop, hframes]

omit [DecidableEq σ] in
theorem remove (h : Follows key view s o) (hs : s.Distinct key) (p : ι → Bool) :
    Follows key view (s.remove key p) o :=
  h.step (onTop_savepoint (fun f => dropAll_savepoint f _) _) fun _ hr => hr.remove hs p

end Follows

end Support.Journal
