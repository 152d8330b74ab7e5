import Timeless.Support.Bytes
import Timeless.Support.Outcome

/-!
# Reader — the bounds-checked byte cursor

`timeless-codec`'s `Reader` walks a byte string from the front. Every read names the field it was
reading, so that a truncated buffer is an error about that field. A read is a state transformer
over the cursor that may fail with a text (`ReadM`); `Reader.run` reads a whole buffer.

Proofs never follow the cursor. `Reads p bs tail a` says that wherever the unread bytes are `bs`
followed by `tail`, `p` returns `a` and leaves `tail`; it composes along `bind` by concatenating
the bytes, so that a decoder is read off the layout its encoder wrote.

* `Reads.bind`, `Reads.run`: composition, and the use on a whole buffer;
* `reads_take`, `reads_u8`, `reads_u16`, `reads_u32`, `reads_i64`: the primitive reads invert the
  primitive writes;
* `reads_texts`: a loop over length-prefixed strings returns the strings;
* `take_eq_ok`, `u32_eq_ok`, `readTexts_eq_ok`: conversely, what a read accepted is what it returned,
  as it is written.
-/

namespace Timeless.Codec

open Support

/-- Read cursor: a buffer and how much of it has been read. -/
structure Reader where
  buf : List UInt8
  pos : Nat
  pos_le : pos ≤ buf.length

/-- A computation that reads from a cursor and may fail with an error text. -/
abbrev ReadM := StateT Reader (Except String)

namespace Reader

/-- At the start of the bytes. -/
def new (buf : List UInt8) : Reader :=
  ⟨buf, 0, Nat.zero_le _⟩

/-- The bytes not yet read. -/
def rest (r : Reader) : List UInt8 :=
  r.buf.drop r.pos

/-- Run a reading computation over a whole buffer. -/
def run {α : Type} (buf : List UInt8) (p : ReadM α) : Except String α :=
  match p (new buf) with
  | .ok (a, _) => .ok a
  | .error e => .error e

end Reader

/-- How many bytes are left. -/
def remaining : ReadM Nat :=
  fun r => .ok (r.buf.length - r.pos, r)

/-- The next `n` bytes, or an error naming `what` was being read. -/
def take (n : Nat) (what : String) : ReadM (List UInt8) := fun r =>
  if h : r.pos + n ≤ r.buf.length then
    .ok ((r.buf.drop r.pos).take n, ⟨r.buf, r.pos + n, h⟩)
  else
    let pos := r.pos
    let left := r.buf.length - r.pos
    .error s!"truncated: need {n} byte(s) for {what} at offset {pos}, only {left} remain"

/-- One byte. -/
def u8 (what : String) : ReadM UInt8 := do
  return (← take 1 what).headD 0

/-- A number in two bytes. -/
def u16 (what : String) : ReadM Nat := do
  return leNat (← take 2 what)

/-- A number in four bytes. -/
def u32 (what : String) : ReadM Nat := do
  return leNat (← take 4 what)

/-- A signed number in eight bytes. -/
def i64 (what : String) : ReadM Int64 := do
  return i64OfLe (← take 8 what)

/-- One framed column, frame included, of several packed back to back. -/
def framedColumn (what : String) : ReadM (List UInt8) := fun r => do
  let (enc, r₁) ← u8 what r
  let (len, r₂) ← u32 what r₁
  let (payload, r₃) ← take len what r₂
  return (enc :: (leBytes 4 len ++ payload), r₃)

/-- A loop over `count` strings, each a four-byte length and that many bytes of UTF-8. The texts
name the two reads, and the `i`-th value when it is not UTF-8. -/
def readTexts (lenWhat bytesWhat : String) (notUtf8 : Nat → String) :
    (count i : Nat) → ReadM (List Text)
  | 0, _ => return []
  | count + 1, i => do
      let len ← u32 lenWhat
      let b ← take len bytesWhat
      match fromUtf8 b with
      | none => throw (notUtf8 i)
      | some s => return s :: (← readTexts lenWhat bytesWhat notUtf8 count (i + 1))

/-! ### What was read -/

variable {α β : Type} {p : ReadM α}

variable {r r' : Reader} {f : α → ReadM β} {a : α} {bs : List UInt8} {n : Nat}

theorem run_eq_ok {buf : List UInt8} :
    Reader.run buf p = .ok a ↔ ∃ r, p (.new buf) = .ok (a, r) := by
  unfold Reader.run
  cases p (.new buf) with
  | error e => simp
  | ok x =>
      obtain ⟨a', r⟩ := x
      simp

variable {b : β} {x : Except String α} {tail bs : List UInt8} {what : String}

theorem read_bind_eq_ok :
    (p >>= f) r = .ok (b, r') ↔ ∃ a r₁, p r = .ok (a, r₁) ∧ f a r₁ = .ok (b, r') := by
  change (p r >>= fun x => f x.1 x.2) = _ ↔ _
  rw [Support.bind_eq_ok]
  exact Prod.exists

theorem of_read (h : (p >>= f) r = .ok (b, r')) :
    ∃ a r₁, p r = .ok (a, r₁) ∧ f a r₁ = .ok (b, r') :=
  read_bind_eq_ok.mp h

theorem read_pure_eq_ok {a b : α} :
    (pure a : ReadM α) r = .ok (b, r') ↔ a = b ∧ r = r' := by
  change Except.ok (a, r) = Except.ok (b, r') ↔ _
  rw [Except.ok.injEq, Prod.mk.injEq]

theorem read_lift_eq_ok :
    (liftM x : ReadM α) r = .ok (a, r') ↔ x = .ok a ∧ r = r' := by
  cases x with
  | error e =>
      refine ⟨fun h => ?_, fun h => ?_⟩
      · cases h
      · cases h.1
  | ok b =>
      change Except.ok (b, r) = Except.ok (a, r') ↔ _
      rw [Except.ok.injEq, Prod.mk.injEq, Except.ok.injEq]

/-! ### Reading what was written -/

/-- Where the unread bytes are `bs ++ tail`, `p` returns `a` and leaves `tail`. -/
def Reads {α : Type} (p : ReadM α) (bs tail : List UInt8) (a : α) : Prop :=
  ∀ r : Reader, r.rest = bs ++ tail → ∃ r', p r = .ok (a, r') ∧ r'.rest = tail

theorem Reader.length_rest (r : Reader) : r.rest.length = r.buf.length - r.pos := by
  simp [rest]

theorem Reads.pure (a : α) (tail : List UInt8) :
    Reads (pure a : ReadM α) [] tail a :=
  fun r h => ⟨r, rfl, h⟩

/-- Reads compose as the bytes they read do. -/
theorem Reads.bind {bs₁ bs₂ : List UInt8} (hp : Reads p bs₁ (bs₂ ++ tail) a)
    (hf : Reads (f a) bs₂ tail b) :
    Reads (p >>= f) (bs₁ ++ bs₂) tail b := by
  intro r h
  obtain ⟨r₁, h₁, hrest⟩ := hp r (by rw [h, List.append_assoc])
  obtain ⟨r₂, h₂, hrest₂⟩ := hf r₁ hrest
  refine ⟨r₂, ?_, hrest₂⟩
  show (p r >>= fun x => f x.1 x.2) = _
  rw [h₁]
  exact h₂

/-- A step that reads nothing before the rest of the computation. -/
theorem Reads.bind_nil (hp : Reads p [] (bs ++ tail) a) (hf : Reads (f a) bs tail b) :
    Reads (p >>= f) bs tail b := by
  have h := hp.bind hf
  rwa [List.nil_append] at h

/-- The last bytes are read first, and what follows reads nothing. -/
theorem Reads.bind_last (hp : Reads p bs tail a) (hf : Reads (f a) [] tail b) :
    Reads (p >>= f) bs tail b := by
  have h : Reads (p >>= f) (bs ++ []) tail b := Reads.bind hp hf
  rwa [List.append_nil] at h

theorem Reads.map (f : α → β) (hp : Reads p bs tail a) :
    Reads (p >>= fun x => Pure.pure (f x)) bs tail (f a) := by
  intro r h
  obtain ⟨r', h', hrest⟩ := hp r h
  refine ⟨r', ?_, hrest⟩
  show (p r >>= fun x => Except.ok (f x.1, x.2)) = _
  rw [h']
  rfl

theorem Reads.run_append (h : Reads p bs tail a) :
    Reader.run (bs ++ tail) p = .ok a := by
  obtain ⟨r', hr, -⟩ := h (Reader.new (bs ++ tail)) (by simp [Reader.rest, Reader.new])
  simp [Reader.run, hr]

/-- A decoder that reads all of its buffer returns. -/
theorem Reads.run (h : Reads p bs [] a) :
    Reader.run bs p = .ok a := by
  simpa using h.run_append

/-- Where the unread bytes are `bs`, `p` fails. -/
def Fails {α : Type} (p : ReadM α) (bs : List UInt8) : Prop :=
  ∀ r : Reader, r.rest = bs → ∃ e, p r = .error e

theorem Fails.bind (hp : Fails p bs) (f : α → ReadM β) : Fails (p >>= f) bs := by
  intro r h
  obtain ⟨e, he⟩ := hp r h
  refine ⟨e, ?_⟩
  show (p r >>= fun x => f x.1 x.2) = _
  rw [he]
  rfl

theorem Reads.bind_fails {bs₁ bs₂ : List UInt8} (hp : Reads p bs₁ bs₂ a) (hf : Fails (f a) bs₂) :
    Fails (p >>= f) (bs₁ ++ bs₂) := by
  intro r h
  obtain ⟨r₁, h₁, hrest⟩ := hp r h
  obtain ⟨e, he⟩ := hf r₁ hrest
  refine ⟨e, ?_⟩
  show (p r >>= fun x => f x.1 x.2) = _
  rw [h₁]
  exact he

theorem Reads.bind_nil_fails (hp : Reads p [] bs a) (hf : Fails (f a) bs) : Fails (p >>= f) bs := by
  have h := hp.bind_fails hf
  rwa [List.nil_append] at h

theorem Fails.run (h : Fails p bs) :
    ∃ e, Reader.run bs p = .error e := by
  obtain ⟨e, he⟩ := h (Reader.new bs) (by simp [Reader.rest, Reader.new])
  exact ⟨e, by simp [Reader.run, he]⟩

theorem fails_lift (h : ∃ e, x = .error e) (bs : List UInt8) :
    Fails (liftM x : ReadM α) bs := by
  obtain ⟨e, rfl⟩ := h
  exact fun r _ => ⟨e, rfl⟩

theorem reads_lift (h : x = .ok a) (tail : List UInt8) :
    Reads (liftM x : ReadM α) [] tail a := by
  subst h
  exact fun r hr => ⟨r, rfl, hr⟩

theorem reads_rejectIf {bad : Prop} [Decidable bad] (h : ¬bad) (e : String) (tail : List UInt8) :
    Reads (rejectIf bad e : ReadM Unit) [] tail () := by
  rw [rejectIf, if_neg h]
  exact Reads.pure () tail

/-- The usual last step of a decoder: nothing may be left. -/
theorem reads_end (a : α) (e : Nat → String) :
    Reads (do let left ← remaining; rejectIf (left ≠ 0) (e left); return a : ReadM α) [] [] a := by
  intro r h
  refine ⟨r, ?_, h⟩
  have hlen := r.length_rest
  rw [h, List.append_nil, List.length_nil] at hlen
  show (rejectIf (r.buf.length - r.pos ≠ 0) (e (r.buf.length - r.pos)) >>= fun _ => pure a :
    ReadM α) r = _
  rw [rejectIf, if_neg (by omega)]
  rfl

theorem reads_remaining (tail : List UInt8) : Reads remaining [] tail tail.length := by
  intro r h
  refine ⟨r, ?_, h⟩
  have hlen := r.length_rest
  rw [h] at hlen
  simp [remaining, ← hlen]

theorem reads_take (hn : bs.length = n) (what : String) (tail : List UInt8) :
    Reads (take n what) bs tail bs := by
  intro r h
  have hlen := r.length_rest
  rw [h, List.length_append] at hlen
  have hle : r.pos + n ≤ r.buf.length := by have := r.pos_le; omega
  have hrest : r.buf.drop r.pos = bs ++ tail := h
  refine ⟨⟨r.buf, r.pos + n, hle⟩, ?_, ?_⟩
  · subst hn
    rw [take, dif_pos hle, hrest, List.take_left]
  · show r.buf.drop (r.pos + n) = tail
    rw [← List.drop_drop, hrest, ← hn, List.drop_left]

theorem reads_u8 (b : UInt8) (what : String) (tail : List UInt8) :
    Reads (u8 what) [b] tail b := by
  have h : Reads (take 1 what) [b] tail [b] := reads_take rfl what tail
  exact h.map fun bs : List UInt8 => bs.headD 0

theorem reads_u16 (hn : n < 2 ^ 16) (what : String) (tail : List UInt8) :
    Reads (u16 what) (leBytes 2 n) tail n := by
  have h := (reads_take (length_leBytes 2 n) what tail).map leNat
  rwa [leNat_leBytes (by omega)] at h

theorem reads_u32 (hn : n < 2 ^ 32) (what : String) (tail : List UInt8) :
    Reads (u32 what) (leBytes 4 n) tail n := by
  have h := (reads_take (length_leBytes 4 n) what tail).map leNat
  rwa [leNat_leBytes (by omega)] at h

theorem reads_i64 (v : Int64) (what : String) (tail : List UInt8) :
    Reads (i64 what) (i64Le v) tail v := by
  have h := (reads_take (length_i64Le v) what tail).map i64OfLe
  rwa [i64OfLe_i64Le] at h

/-- A string as written: the four-byte length of its bytes, and the bytes. -/
def lenPrefixed (t : Text) : List UInt8 :=
  leBytes 4 (utf8 t).length ++ utf8 t

/-- Texts that were written are read back. -/
theorem reads_texts (lenWhat bytesWhat : String) (notUtf8 : Nat → String) {ts : List Text}
    (hts : ∀ t ∈ ts, (utf8 t).length < 2 ^ 32) (i : Nat) (tail : List UInt8) :
    Reads (readTexts lenWhat bytesWhat notUtf8 ts.length i) (ts.flatMap lenPrefixed) tail ts := by
  induction ts generalizing i with
  | nil => exact Reads.pure [] tail
  | cons t ts ih =>
      have hrest := ih (fun s hs => hts s (List.mem_cons_of_mem _ hs)) (i + 1)
      rw [List.flatMap_cons, lenPrefixed, List.append_assoc, List.length_cons, readTexts]
      refine (reads_u32 (hts t List.mem_cons_self) _ _).bind ?_
      refine (reads_take rfl _ _).bind ?_
      rw [fromUtf8_utf8]
      exact hrest.map (t :: ·)

/-! ### What was accepted -/

/-- Bytes that were taken are the front of the unread ones. -/
theorem take_eq_ok {b : List UInt8} (h : take n what r = .ok (b, r')) :
    b.length = n ∧ r.rest = b ++ r'.rest := by
  unfold take at h
  split_ifs at h with hle
  obtain ⟨rfl, rfl⟩ := Prod.mk.inj (Except.ok.inj h)
  refine ⟨?_, ?_⟩
  · rw [List.length_take, List.length_drop]
    omega
  · show r.buf.drop r.pos = _ ++ r.buf.drop (r.pos + n)
    rw [← List.drop_drop, List.take_append_drop]

theorem u8_eq_ok {b : UInt8} (h : u8 what r = .ok (b, r')) :
    r.rest = b :: r'.rest := by
  obtain ⟨bs, r₁, htake, h⟩ := of_read h
  obtain ⟨rfl, rfl⟩ := read_pure_eq_ok.mp h
  obtain ⟨hlen, hrest⟩ := take_eq_ok htake
  obtain ⟨b, rfl⟩ := List.length_eq_one_iff.mp hlen
  exact hrest

/-- A number that was read was there, and is a `u32`. -/
theorem u32_eq_ok (h : u32 what r = .ok (n, r')) :
    n < 2 ^ 32 ∧ r.rest = leBytes 4 n ++ r'.rest := by
  obtain ⟨bs, r₁, htake, h⟩ := of_read h
  obtain ⟨rfl, rfl⟩ := read_pure_eq_ok.mp h
  obtain ⟨hlen, hrest⟩ := take_eq_ok htake
  have hlt := leNat_lt bs
  rw [hlen] at hlt
  refine ⟨hlt, ?_⟩
  rw [← hlen, leBytes_leNat, hrest]

theorem remaining_eq_ok (h : remaining r = .ok (n, r')) :
    n = r.rest.length ∧ r' = r := by
  obtain ⟨rfl, rfl⟩ := Prod.mk.inj (Except.ok.inj h)
  exact ⟨r.length_rest.symm, rfl⟩

theorem read_rejectIf_eq_ok {bad : Prop} [Decidable bad] {e : String} {u : Unit} :
    (rejectIf bad e : ReadM Unit) r = .ok (u, r') ↔ ¬bad ∧ r = r' := by
  unfold rejectIf
  split_ifs with h
  · refine ⟨fun h' => ?_, fun h' => absurd h h'.1⟩
    cases h'
  · exact read_pure_eq_ok.trans ⟨fun h' => ⟨h, h'.2⟩, fun h' => ⟨rfl, h'.2⟩⟩

/-- A decoder that ends with `reads_end`'s check has read everything. -/
theorem end_eq_ok {a b : α} {e : Nat → String}
    (h : (do let left ← remaining; rejectIf (left ≠ 0) (e left); return a : ReadM α) r =
      .ok (b, r')) : a = b ∧ r.rest = [] := by
  obtain ⟨left, r₁, hleft, h⟩ := of_read h
  obtain ⟨_, r₂, hnone, h⟩ := of_read h
  obtain ⟨rfl, rfl⟩ := read_pure_eq_ok.mp h
  obtain ⟨rfl, rfl⟩ := remaining_eq_ok hleft
  exact ⟨rfl, List.length_eq_zero_iff.mp (not_not.mp (read_rejectIf_eq_ok.mp hnone).1)⟩

/-- Texts that were read are the front of the unread bytes, as they are written. -/
theorem readTexts_eq_ok {lenWhat bytesWhat : String} {notUtf8 : Nat → String} {count i : Nat}
    {ts : List Text} (h : readTexts lenWhat bytesWhat notUtf8 count i r = .ok (ts, r')) :
    ts.length = count ∧ (∀ t ∈ ts, (utf8 t).length < 2 ^ 32) ∧
      r.rest = ts.flatMap lenPrefixed ++ r'.rest := by
  induction count generalizing i r ts with
  | zero =>
      obtain ⟨rfl, rfl⟩ := read_pure_eq_ok.mp h
      exact ⟨rfl, by simp, rfl⟩
  | succ count ih =>
      obtain ⟨len, r₁, hlen, h⟩ := of_read h
      obtain ⟨b, r₂, hb, h⟩ := of_read h
      obtain ⟨hlt, hrest⟩ := u32_eq_ok hlen
      obtain ⟨hsize, hrest₁⟩ := take_eq_ok hb
      cases hs : fromUtf8 b with
      | none =>
          rw [hs] at h
          cases h
      | some s =>
          rw [hs] at h
          obtain ⟨ss, r₃, hss, h⟩ := of_read h
          obtain ⟨rfl, rfl⟩ := read_pure_eq_ok.mp h
          obtain ⟨hcount, hshort, hrest₂⟩ := ih hss
          rw [← utf8_of_fromUtf8 hs] at hsize hrest₁
          refine ⟨by rw [List.length_cons, hcount],
            List.forall_mem_cons.mpr ⟨hsize.trans_lt hlt, hshort⟩, ?_⟩
          rw [hrest, hrest₁, hrest₂, ← hsize, List.flatMap_cons, lenPrefixed, List.append_assoc,
            List.append_assoc]

end Timeless.Codec
