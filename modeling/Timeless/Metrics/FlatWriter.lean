import Mathlib.Data.List.TakeWhile
import Timeless.Metrics.FlatJson

/-!
# FlatWriter — flat JSON objects are read as they were written

Two writers print an object of strings: the one of the extension, for labels and for the metadata of
log entries, and the JSON library. They differ in how they spell two control characters. The parser
reads both.

* `Spells`: what the parser reads as a character;
* `parseLabelsJson_flatObject`: an object is read back, whichever spelling is used;
* `parseLabelsJson_labelsToJson`: the labels of a series are read back.
-/

namespace Timeless.Metrics

open Support Blocks

/-! ### Writers -/

def controlEscape (ch : Char) : Text :=
  "\\u".toList ++ (hex 4 ch.toNat).toList

/-- The spelling of a character in a string of the extension. -/
def jsonEscape (ch : Char) : Text :=
  if ch = '"' then "\\\"".toList
  else if ch = '\\' then "\\\\".toList
  else if ch = '\n' then "\\n".toList
  else if ch = '\r' then "\\r".toList
  else if ch = '\t' then "\\t".toList
  else if ch.toNat < 0x20 then controlEscape ch
  else [ch]

/-- The spelling of a character in a string of the JSON library, which has short forms for the
backspace and the form feed too. -/
def serdeEscape (ch : Char) : Text :=
  if ch = '\x08' then "\\b".toList
  else if ch = '\x0c' then "\\f".toList
  else jsonEscape ch

variable (escape : Char → Text)

/-- A member of an object. -/
def flatMember (p : Text × Text) : Text :=
  "\"".toList ++ p.1.flatMap escape ++ "\":\"".toList ++ p.2.flatMap escape ++ "\"".toList

/-- The members of an object, each behind a comma unless it is the first one. -/
def flatMembers (escape : Char → Text) (first : Bool) : Labels → Text
  | [] => []
  | p :: pairs =>
      (if first then [] else [',']) ++ flatMember escape p ++ flatMembers escape false pairs

def flatObject (pairs : Labels) : Text :=
  ['\x7b'] ++ flatMembers escape true pairs ++ ['\x7d']

def labelsToJson (labels : Labels) : Text :=
  flatObject jsonEscape labels

def pairsToJson (pairs : Labels) : Text :=
  flatObject jsonEscape pairs

/-! ### Spellings -/

/-- The bytes are read as a character: as themselves, by a letter behind a backslash, or by four
digits. -/
inductive Spells (ch : Char) : List UInt8 → Prop where
  | raw (hquote : ch ≠ '"') (hbackslash : ch ≠ '\\') : Spells ch (utf8 [ch])
  | short {b : UInt8} (hb : b ≠ 117) (h : simpleEscape b = some ch) : Spells ch [92, b]
  | code {a b c d : UInt8} (h : unicodeEscape a b c d = .ok ch) : Spells ch [92, 117, a, b, c, d]

/-- The byte of a hexadecimal digit. -/
def hexDigit (n : Nat) : UInt8 :=
  (Nat.digitChar n).toNat.toUInt8

theorem controlEscape_digits : ∀ n < 32,
    utf8 (controlEscape (Char.ofNat n)) = [92, 117, 48, 48, hexDigit (n / 16), hexDigit (n % 16)] ∧
      (unicodeEscape 48 48 (hexDigit (n / 16)) (hexDigit (n % 16))).toOption =
        some (Char.ofNat n) := by
  decide +kernel

theorem controlEscape_spells {ch : Char} (h : ch.toNat < 32) :
    Spells ch (utf8 (controlEscape ch)) := by
  obtain ⟨hbytes, hcode⟩ := controlEscape_digits ch.toNat h
  rw [Char.ofNat_toNat] at hbytes hcode
  rw [hbytes]
  refine .code ?_
  cases hresult : unicodeEscape 48 48 (hexDigit (ch.toNat / 16)) (hexDigit (ch.toNat % 16)) with
  | error e => rw [hresult] at hcode; cases hcode
  | ok c => rw [hresult] at hcode; exact congrArg _ (Option.some.inj hcode)

/-- **The extension's spellings are read.** -/
theorem jsonEscape_spells (ch : Char) : Spells ch (utf8 (jsonEscape ch)) := by
  rw [jsonEscape]
  split_ifs with hquote hbackslash hn hr ht hcontrol
  · exact hquote ▸ @Spells.short '"' 34 (by decide) (by decide)
  · exact hbackslash ▸ @Spells.short '\\' 92 (by decide) (by decide)
  · exact hn ▸ @Spells.short '\n' 110 (by decide) (by decide)
  · exact hr ▸ @Spells.short '\r' 114 (by decide) (by decide)
  · exact ht ▸ @Spells.short '\t' 116 (by decide) (by decide)
  · exact controlEscape_spells hcontrol
  · exact .raw hquote hbackslash

/-- **So are the library's.** -/
theorem serdeEscape_spells (ch : Char) : Spells ch (utf8 (serdeEscape ch)) := by
  rw [serdeEscape]
  split_ifs with hb hf
  · exact hb ▸ @Spells.short '\x08' 98 (by decide) (by decide)
  · exact hf ▸ @Spells.short '\x0c' 102 (by decide) (by decide)
  · exact jsonEscape_spells ch

/-! ### Strings are read -/

theorem rawText_utf8 (s : Text) : rawText (utf8 s) = .ok s := by
  rw [rawText, fromUtf8_utf8]
  rfl

/-- A character that is neither a quote nor a backslash has no byte of either. -/
theorem plain_of_mem_utf8 {ch : Char} (hquote : ch ≠ '"') (hbackslash : ch ≠ '\\') :
    ∀ b ∈ utf8 [ch], b ≠ 34 ∧ b ≠ 92 := by
  intro b hb
  rw [utf8_cons, utf8_nil, List.append_nil] at hb
  by_cases hascii : (lead ch).toNat < 128
  · rw [utf8_ascii hascii, List.mem_singleton] at hb
    have hsame : ∀ q : Char, utf8 [q] = [b] → ch = q := fun q hq => by
      have heq : utf8 [ch] = utf8 [q] := by
        rw [hq, hb, utf8_cons, utf8_ascii hascii]
        rfl
      simpa using utf8_injective heq
    exact ⟨fun h => hquote (hsame '"' (h ▸ by decide)), fun h => hbackslash (hsame '\\' (h ▸ by decide))⟩
  · have hhigh := high_of_mem_utf8EncodeChar (not_lt.mp hascii) b hb
    constructor <;> rintro rfl <;> exact absurd hhigh (by decide)

theorem decodeEscaped_raw {raw' : List UInt8} (h : ∀ b ∈ raw', b ≠ 34 ∧ b ≠ 92) (out : Text)
    (raw rest : List UInt8) :
    decodeEscaped out raw (raw' ++ rest) = decodeEscaped out (raw ++ raw') rest := by
  induction raw' generalizing raw with
  | nil => rw [List.nil_append, List.append_nil]
  | cons b raw' ih =>
      obtain ⟨hquote, hbackslash⟩ := h b List.mem_cons_self
      rw [List.cons_append, decodeEscaped.eq_def]
      dsimp only
      rw [if_neg hquote, if_neg hbackslash, ih fun b hb => h b (List.mem_cons_of_mem _ hb),
        List.append_assoc, List.singleton_append]

/-- **A string with escapes is read.** -/
theorem decodeEscaped_flatMap {escape : Char → Text} (hspells : ∀ ch, Spells ch (utf8 (escape ch)))
    (out r s : Text) (rest : List UInt8) :
    decodeEscaped out (utf8 r) (utf8 (s.flatMap escape) ++ 34 :: rest) = .ok (out ++ r ++ s, rest) := by
  induction s generalizing out r with
  | nil =>
      rw [List.flatMap_nil, utf8_nil, List.nil_append, decodeEscaped.eq_def]
      dsimp only
      rw [if_pos rfl, rawText_utf8, List.append_nil]
      rfl
  | cons ch s ih =>
      rw [List.flatMap_cons, utf8_append, List.append_assoc]
      have hch := hspells ch
      generalize utf8 (escape ch) = bytes at hch
      cases hch with
      | raw hquote hbackslash =>
          rw [decodeEscaped_raw (plain_of_mem_utf8 hquote hbackslash), ← utf8_append, ih]
          simp
      | @short b hb h =>
          rw [decodeEscaped.eq_def]
          dsimp only [List.cons_append, List.nil_append]
          rw [if_neg (by decide), if_pos rfl, if_neg hb, rawText_utf8, ok_bind, h]
          change decodeEscaped (out ++ r ++ [ch]) (utf8 []) _ = _
          rw [ih]
          simp
      | code h =>
          rw [decodeEscaped.eq_def]
          dsimp only [List.cons_append, List.nil_append]
          rw [if_neg (by decide), if_pos rfl, if_pos rfl, rawText_utf8, ok_bind, h, ok_bind]
          change decodeEscaped (out ++ r ++ [ch]) (utf8 []) _ = _
          rw [ih]
          simp

variable {rest : List UInt8} {s : Text}

/-- The bytes in front of an escape belong to the text before it. -/
theorem decodeEscaped_escape {out head : Text} {raw : List UInt8} (h : rawText raw = .ok head) :
    decodeEscaped out raw (92 :: rest) = decodeEscaped (out ++ head) [] (92 :: rest) := by
  rw [decodeEscaped.eq_def, decodeEscaped.eq_def]
  dsimp only
  rw [if_neg (by decide), if_pos rfl, if_neg (by decide), if_pos rfl, h,
    show rawText [] = .ok [] from rawText_utf8 []]
  simp only [ok_bind, List.append_nil]

theorem exists_rawText {out : Text} {raw rest' : List UInt8}
    (h : decodeEscaped out raw (92 :: rest) = .ok (s, rest')) : ∃ head, rawText raw = .ok head := by
  rw [decodeEscaped.eq_def] at h
  dsimp only at h
  rw [if_neg (by decide), if_pos rfl] at h
  cases rest with
  | nil =>
      obtain ⟨head, hhead, -⟩ := of_bind h
      exact ⟨head, hhead⟩
  | cons e rest =>
      dsimp only at h
      split_ifs at h with hu
      · split at h
        all_goals
          obtain ⟨head, hhead, -⟩ := of_bind h
          exact ⟨head, hhead⟩
      · obtain ⟨head, hhead, -⟩ := of_bind h
        exact ⟨head, hhead⟩

/-- What stands before the first escape can be read at once. -/
theorem parseString_of_decodeEscaped {bs : List UInt8} (h : decodeEscaped [] [] bs = .ok (s, rest)) :
    parseString (34 :: bs) = .ok (s, rest) := by
  have hraw : ∀ b ∈ bs.takeWhile (fun b => decide (b ≠ 34 ∧ b ≠ 92)), b ≠ 34 ∧ b ≠ 92 := by
    intro b hb
    have hplain := List.mem_takeWhile_imp hb
    exact of_decide_eq_true hplain
  have hsplit := @List.takeWhile_append_dropWhile _ (fun b : UInt8 => decide (b ≠ 34 ∧ b ≠ 92)) bs
  have hdrop := congrArg (List.drop (bs.takeWhile fun b => decide (b ≠ 34 ∧ b ≠ 92)).length) hsplit
  have hfirst := @List.head?_dropWhile_not _ (fun b : UInt8 => decide (b ≠ 34 ∧ b ≠ 92)) bs
  rw [List.drop_left] at hdrop
  rw [← hsplit, decodeEscaped_raw hraw, List.nil_append] at h
  rw [parseString, expect_eq_ok.mpr rfl, ok_bind]
  dsimp only
  rw [← hdrop]
  generalize bs.takeWhile (fun b => decide (b ≠ 34 ∧ b ≠ 92)) = raw at h
  generalize bs.dropWhile (fun b => decide (b ≠ 34 ∧ b ≠ 92)) = after at h hfirst
  cases after with
  | nil =>
      obtain ⟨-, -, h⟩ := of_bind h
      cases h
  | cons b after =>
      dsimp only
      by_cases hquote : b = 34
      · rw [decodeEscaped.eq_def] at h
        dsimp only at h
        rw [if_pos hquote] at h ⊢
        exact h
      · have hbackslash : b = 92 := by
          by_contra hb
          simp [hquote, hb] at hfirst
        rw [hbackslash] at h ⊢
        rw [if_neg (by decide)]
        obtain ⟨head, hhead⟩ := exists_rawText h
        rw [decodeEscaped_escape hhead, List.nil_append] at h
        rw [hhead, ok_bind, h]

/-! ### Objects are read -/

theorem parseValue_quote (key : Text) (bs : List UInt8) :
    parseValue key (34 :: bs) = parseString (34 :: bs) := rfl

theorem length_le_flatMembers (first : Bool) (pairs : Labels) :
    pairs.length ≤ (utf8 (flatMembers escape first pairs)).length := by
  induction pairs generalizing first with
  | nil => exact Nat.zero_le _
  | cons p pairs ih =>
      have hquote : (utf8 "\"".toList).length = 1 := by decide
      have := ih false
      simp only [flatMembers, flatMember, utf8_append, List.length_append, List.length_cons, hquote]
      omega

section

variable {escape : Char → Text} (hspells : ∀ ch, Spells ch (utf8 (escape ch)))

include hspells

/-- **A string is read.** -/
theorem parseString_flatMap (s : Text) (rest : List UInt8) :
    parseString (34 :: (utf8 (s.flatMap escape) ++ 34 :: rest)) = .ok (s, rest) :=
  parseString_of_decodeEscaped (decodeEscaped_flatMap hspells [] [] s rest)

/-- **A member is read**, in front of a comma or of the brace. -/
theorem parseMember_flatMember (out : Labels) (p : Text × Text) {b : UInt8} (rest : List UInt8)
    (hb : b = 44 ∨ b = 125) : parseMember out (utf8 (flatMember escape p) ++ b :: rest) =
      .ok (OrdMap.insert textLt p.1 p.2 out, decide (b = 44), rest) := by
  have hbytes : utf8 (flatMember escape p) ++ b :: rest =
      34 :: (utf8 (p.1.flatMap escape) ++ 34 :: (58 :: 34 :: (utf8 (p.2.flatMap escape) ++
        34 :: b :: rest))) := by
    simp only [flatMember, utf8_append, show utf8 "\"".toList = [34] by decide,
      show utf8 "\":\"".toList = [34, 58, 34] by decide, List.append_assoc,
      List.cons_append, List.nil_append]
  rw [hbytes, parseMember, show ∀ l, skipWs (34 :: l) = 34 :: l from fun _ => rfl,
    parseString_flatMap hspells, ok_bind]
  dsimp only
  rw [show ∀ l, skipWs (58 :: l) = 58 :: l from fun _ => rfl, expect_eq_ok.mpr rfl, ok_bind,
    show ∀ l, skipWs (34 :: l) = 34 :: l from fun _ => rfl, parseValue_quote,
    parseString_flatMap hspells, ok_bind]
  rcases hb with rfl | rfl <;> rfl

/-- **The members are read**, and filed one after the other. -/
theorem parseMembers_flatMembers {pairs : Labels} (hpairs : pairs ≠ []) (out : Labels) {n : Nat}
    (hn : pairs.length ≤ n) (rest : List UInt8) :
    parseMembers n out (utf8 (flatMembers escape true pairs) ++ 125 :: rest) =
      .ok (pairs.foldl (fun out p => OrdMap.insert textLt p.1 p.2 out) out, rest) := by
  induction pairs generalizing out n with
  | nil => exact absurd rfl hpairs
  | cons p pairs ih =>
      obtain ⟨n, rfl⟩ := Nat.exists_eq_succ_of_ne_zero (Nat.ne_of_gt (Nat.lt_of_lt_of_le
        (Nat.succ_pos _) hn))
      rw [flatMembers, if_pos rfl, List.nil_append, utf8_append, List.append_assoc, parseMembers]
      cases pairs with
      | nil =>
          rw [flatMembers, utf8_nil, List.nil_append,
            parseMember_flatMember hspells out p rest (Or.inr rfl)]
          rfl
      | cons q pairs =>
          have hcomma : utf8 (flatMembers escape false (q :: pairs)) ++ 125 :: rest =
              44 :: (utf8 (flatMembers escape true (q :: pairs)) ++ 125 :: rest) := by
            simp [flatMembers, show String.utf8EncodeChar ',' = [44] by decide]
          rw [hcomma, parseMember_flatMember hspells out p _ (Or.inl rfl), ok_bind]
          exact ih (List.cons_ne_nil _ _) _ (Nat.le_of_succ_le_succ hn)

/-- **An object is read**: of several values of a key, the last one. -/
theorem parseLabelsJson_flatObject (pairs : Labels) :
    parseLabelsJson (flatObject escape pairs) = .ok (OrdMap.ofList textLt pairs) := by
  have hbytes : utf8 (flatObject escape pairs) =
      123 :: (utf8 (flatMembers escape true pairs) ++ [125]) := by
    simp [flatObject, show String.utf8EncodeChar '\x7b' = [123] by decide,
      show String.utf8EncodeChar '\x7d' = [125] by decide]
  rw [parseLabelsJson, hbytes, show ∀ l, skipWs (123 :: l) = 123 :: l from fun _ => rfl,
    expect_eq_ok.mpr rfl, ok_bind]
  cases pairs with
  | nil => rfl
  | cons p pairs =>
      have hlength := length_le_flatMembers escape true (p :: pairs)
      have hread := parseMembers_flatMembers hspells (List.cons_ne_nil p pairs) []
        (hlength.trans (Nat.le_add_right _ 1)) []
      obtain ⟨bs, hbs⟩ : ∃ bs, utf8 (flatMembers escape true (p :: pairs)) ++ [125] = 34 :: bs := by
        simp [flatMembers, flatMember, show String.utf8EncodeChar '"' = [34] by decide]
      have hfuel : (34 :: bs).length = (utf8 (flatMembers escape true (p :: pairs))).length + 1 := by
        rw [← hbs, List.length_append]
        rfl
      rw [hbs] at hread ⊢
      rw [show skipWs (34 :: bs) = 34 :: bs from rfl]
      dsimp only
      rw [if_neg (by simp), hfuel, hread, ok_bind]
      rfl

end

/-- **The labels of a series are read back.** -/
theorem parseLabelsJson_labelsToJson {labels : Labels} (h : OrdMap.Sorted textLt labels) :
    parseLabelsJson (labelsToJson labels) = .ok labels := by
  rw [labelsToJson, parseLabelsJson_flatObject jsonEscape_spells, OrdMap.ofList_of_sorted textLt_linear h]

/-! ### Lengths -/

/-- The characters that are spelled in two ways. -/
def twice (s : Text) : Nat :=
  s.countP fun ch => ch = '\x08' ∨ ch = '\x0c'

theorem length_escape (ch : Char) : (jsonEscape ch).length =
    (serdeEscape ch).length + if ch = '\x08' ∨ ch = '\x0c' then 4 else 0 := by
  rw [serdeEscape]
  by_cases hb : ch = '\x08'
  · rw [hb]
    decide
  by_cases hf : ch = '\x0c'
  · rw [hf]
    decide
  rw [if_neg hb, if_neg hf, if_neg (by simp [hb, hf]), Nat.add_zero]

theorem length_flatMap_escape (s : Text) :
    (s.flatMap jsonEscape).length = (s.flatMap serdeEscape).length + 4 * twice s := by
  induction s with
  | nil => rfl
  | cons ch s ih =>
      rw [List.flatMap_cons, List.flatMap_cons, List.length_append, List.length_append, ih,
        length_escape, twice, twice, List.countP_cons]
      simp only [decide_eq_true_eq]
      split_ifs <;> omega

/-- **The texts of the two writers** differ by four characters for each one that is spelled in two
ways. -/
theorem length_flatObject (pairs : Labels) : (flatObject jsonEscape pairs).length =
    (flatObject serdeEscape pairs).length +
      4 * (pairs.map fun p => twice p.1 + twice p.2).sum := by
  have hmembers : ∀ first, (flatMembers jsonEscape first pairs).length =
      (flatMembers serdeEscape first pairs).length +
        4 * (pairs.map fun p => twice p.1 + twice p.2).sum := by
    induction pairs with
    | nil => exact fun _ => rfl
    | cons p pairs ih =>
        intro first
        simp only [flatMembers, flatMember, List.length_append, length_flatMap_escape, ih false,
          List.map_cons, List.sum_cons]
        omega
  simp only [flatObject, List.length_append, hmembers true]
  omega

theorem flatMap_escape_eq (h : twice s = 0) :
    s.flatMap serdeEscape = s.flatMap jsonEscape := by
  refine List.flatMap_congr fun ch hch => ?_
  have hnot := List.countP_eq_zero.mp h ch hch
  simp only [decide_eq_true_eq, not_or] at hnot
  rw [serdeEscape, if_neg hnot.1, if_neg hnot.2]

/-- **The writers agree** exactly on objects without a backspace or a form feed. -/
theorem flatObject_eq_iff (pairs : Labels) :
    flatObject serdeEscape pairs = flatObject jsonEscape pairs ↔
      ∀ p ∈ pairs, twice p.1 = 0 ∧ twice p.2 = 0 := by
  constructor
  · intro h p hp
    have hlength := length_flatObject pairs
    rw [← h] at hlength
    have hsum : (pairs.map fun p => twice p.1 + twice p.2).sum = 0 := by omega
    have hterm := List.sum_eq_zero_iff.mp hsum _ (List.mem_map_of_mem hp)
    omega
  · intro h
    have hmembers : ∀ first, flatMembers serdeEscape first pairs = flatMembers jsonEscape first pairs := by
      induction pairs with
      | nil => exact fun _ => rfl
      | cons p pairs ih =>
          intro first
          obtain ⟨hkey, hvalue⟩ := h p List.mem_cons_self
          rw [flatMembers, flatMembers, flatMember, flatMember, flatMap_escape_eq hkey,
            flatMap_escape_eq hvalue, ih fun q hq => h q (List.mem_cons_of_mem _ hq)]
    rw [flatObject, flatObject, hmembers]

end Timeless.Metrics
