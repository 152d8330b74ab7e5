import Mathlib.Data.Bool.AllAny
import Timeless.LogsQL.Pairs
import Timeless.Metrics.FlatJson

/-!
# Logfmt — packed fields and what is unpacked from them

`pack_logfmt` writes fields as `name=value`, with blanks between them. A value with a blank, a control
character, a quote or a backslash is written in quotes and escaped; any other value is written as it
is. `unpack_logfmt` looks at the first character behind `=`: behind one of three quotes it reads up to
the closing one, and it falls back to the next blank only if there is none.

The two decisions differ for values that begin with an apostrophe or a backtick. The writer leaves them
bare; the reader takes the character for a quote, and its closing counterpart may stand in the same
value or in a later field.

* `tryUnquote_quoted`: a value in quotes is read back, whatever it holds;
* `parseLogfmt_iff`: fields are unpacked as they were packed exactly if no bare value is mistaken for
  a quoted one (`Clear`);
* `parseLogfmt_drops_quotes`: `a='abc'` is unpacked as `abc`.
-/

namespace Timeless.LogsQL

open Support Codec Blocks
open Metrics (digitValue)

/-! ### Packing -/

/-- Characters that have an escape of their own in a quoted value, with what is behind its
backslash. -/
def jsonEscapes : List (Char × String) :=
  [('\n', "n"), ('\r', "r"), ('\t', "t"), ('\x08', "b"), ('\x0c', "f"), ('"', "\""), ('\\', "\\"),
    ('<', "u003c"), ('\'', "u0027")]

/-- A character in a quoted value. -/
def logfmtEscape (ch : Char) : Text :=
  match jsonEscapes.lookup ch with
  | some escape => '\\' :: escape.toList
  | none =>
      if ch.toNat < 0x20 then
        "\\u00".toList ++ [Nat.digitChar (ch.toNat / 16), Nat.digitChar (ch.toNat % 16)]
      else [ch]

def logfmtNeedsQuote (value : Text) : Bool :=
  value.any fun ch => ch.toNat ≤ 0x20 || ch = '"' || ch = '\\'

def logfmtValue (value : Text) : Text :=
  if logfmtNeedsQuote value then '"' :: (value.flatMap logfmtEscape ++ ['"']) else value

def logfmtField (field : Text × Text) : Text :=
  field.1 ++ '=' :: logfmtValue field.2

/-- Fields behind the first one. -/
def logfmtRest (fields : List (Text × Text)) : Text :=
  fields.flatMap fun field => ' ' :: logfmtField field

def boundedLogfmt : List (Text × Text) → Text
  | [] => []
  | field :: fields => logfmtField field ++ logfmtRest fields

/-! ### Unpacking -/

/-- How bytes that need not be UTF-8 are made a text (`String::from_utf8_lossy`): what is valid is
kept. -/
structure LossyUtf8 where
  decode : List UInt8 → Text
  decode_nil : decode [] = []
  decode_utf8_append : ∀ t bytes, decode (utf8 t ++ bytes) = t ++ decode bytes

/-- A number of exactly `count` digits, and what is behind it. -/
def decodeLogfmtDigits (count radix : Nat) (t : Text) : Option (Nat × Text) :=
  if t.length < count then none
  else do
    let digits ← (t.take count).mapM (digitValue radix)
    return (digits.foldl (fun value digit => value * radix + digit) 0, t.drop count)

/-- The character whose number has `count` hexadecimal digits. -/
def decodeCodePoint (count : Nat) (t : Text) : Option (List UInt8 × Text) := do
  let (value, rest) ← decodeLogfmtDigits count 16 t
  if value.isValidChar then return (utf8 [Char.ofNat value], rest) else none

def shortEscape (delimiter escape : Char) : Option UInt8 :=
  if escape = 'a' then some 0x07
  else if escape = 'b' then some 0x08
  else if escape = 'f' then some 0x0c
  else if escape = 'n' then some 0x0a
  else if escape = 'r' then some 0x0d
  else if escape = 't' then some 0x09
  else if escape = 'v' then some 0x0b
  else if escape = '\\' then some 0x5c
  else if escape = '\'' ∧ delimiter = '\'' then some 0x27
  else if escape = '"' ∧ delimiter = '"' then some 0x22
  else none

/-- The bytes of an escape, behind its backslash, and the text behind it. -/
def readEscape (delimiter : Char) : Text → Option (List UInt8 × Text)
  | [] => none
  | escape :: t =>
      match shortEscape delimiter escape with
      | some byte => some ([byte], t)
      | none =>
          if escape = 'x' then do
            let (value, rest) ← decodeLogfmtDigits 2 16 t
            return ([UInt8.ofNat value], rest)
          else if escape = 'u' then decodeCodePoint 4 t
          else if escape = 'U' then decodeCodePoint 8 t
          else if '0' ≤ escape ∧ escape ≤ '7' then do
            let (value, rest) ← decodeLogfmtDigits 3 8 (escape :: t)
            if 255 < value then none else return ([UInt8.ofNat value], rest)
          else none

/-- The bytes up to the closing quote, and the text behind it. -/
def unquoteFrom (delimiter : Char) :
    (fuel : Nat) → (decoded : List UInt8) → Text → Option (List UInt8 × Text)
  | 0, _, _ => none
  | _ + 1, _, [] => none
  | fuel + 1, decoded, ch :: t =>
      if ch = delimiter then some (decoded, t)
      else if ch = '\n' then none
      else if ch = '\\' then
        (readEscape delimiter t).bind fun escaped =>
          unquoteFrom delimiter fuel (decoded ++ escaped.1) escaped.2
      else unquoteFrom delimiter fuel (decoded ++ utf8 [ch]) t

variable (lossy : LossyUtf8)

/-- A quoted value at the front of a text, and what is behind it. -/
def tryUnquoteLogfmtPrefix : Text → Option (Text × Text)
  | [] => none
  | delimiter :: t =>
      if delimiter = '\x60' then
        match t.dropWhile (· ≠ '\x60') with
        | [] => none
        | _ :: rest => some ((t.takeWhile (· ≠ '\x60')).filter (· ≠ '\r'), rest)
      else if delimiter = '"' ∨ delimiter = '\'' then
        (unquoteFrom delimiter (t.length + 1) [] t).map fun r => (lossy.decode r.1, r.2)
      else none

def addLogfmtField (name value : Text) : List (Text × Text) :=
  if (trim name).isEmpty && value.isEmpty then [] else [(trim name, value)]

def parseLogfmtFields (source : Text) : List (Text × Text) :=
  readPairs (tryUnquoteLogfmtPrefix lossy) addLogfmtField (source.length + 1) source

/-! ### Quoted values -/

theorem digitValue_digitChar : ∀ n < 16, digitValue 16 (Nat.digitChar n) = some n := by
  decide

/-- The four digits of a control character. -/
theorem readEscape_control {n : Nat} (hn : n < 32) (t : Text) :
    readEscape '"' ('u' :: '0' :: '0' :: Nat.digitChar (n / 16) :: Nat.digitChar (n % 16) :: t) =
      some (utf8 [Char.ofNat n], t) := by
  have hhigh := digitValue_digitChar (n / 16) (by omega)
  have hlow := digitValue_digitChar (n % 16) (by omega)
  have hzero : digitValue 16 '0' = some 0 := by decide
  have hvalid : n.isValidChar := .inl (by omega)
  have hvalue : n / 16 * 16 + n % 16 = n := by omega
  have hdigits : decodeLogfmtDigits 4 16
      ('0' :: '0' :: Nat.digitChar (n / 16) :: Nat.digitChar (n % 16) :: t) = some (n, t) := by
    simp [decodeLogfmtDigits, hzero, hhigh, hlow, hvalue]
  have hcode (t : Text) : readEscape '"' ('u' :: t) = decodeCodePoint 4 t := rfl
  rw [hcode, decodeCodePoint, hdigits]
  exact if_pos hvalid

theorem readEscape_short : ∀ escape ∈ jsonEscapes, ∀ t,
    readEscape '"' (escape.2.toList ++ t) = some (utf8 [escape.1], t) := by
  simp only [jsonEscapes, List.forall_mem_cons]
  exact ⟨fun _ => rfl, fun _ => rfl, fun _ => rfl, fun _ => rfl, fun _ => rfl, fun _ => rfl,
    fun _ => rfl, fun _ => rfl, fun _ => rfl, by simp⟩

/-- A character of a quoted value is read back by one turn of the loop. -/
theorem unquote_escape (ch : Char) (fuel : Nat) (decoded : List UInt8) (t : Text) :
    unquoteFrom '"' (fuel + 1) decoded (logfmtEscape ch ++ t) =
      unquoteFrom '"' fuel (decoded ++ utf8 [ch]) t := by
  have hescaped (escape : Text) (h : readEscape '"' (escape ++ t) = some (utf8 [ch], t)) :
      unquoteFrom '"' (fuel + 1) decoded ('\\' :: (escape ++ t)) =
        unquoteFrom '"' fuel (decoded ++ utf8 [ch]) t := by
    rw [unquoteFrom, if_neg (by decide), if_neg (by decide), if_pos rfl, h]
    rfl
  rw [logfmtEscape]
  cases hlookup : jsonEscapes.lookup ch with
  | some escape =>
      obtain ⟨before, after, heq, -⟩ := List.lookup_eq_some_iff.mp hlookup
      have hmem : (ch, escape) ∈ jsonEscapes := heq ▸ List.mem_append_right _ List.mem_cons_self
      exact hescaped escape.toList (readEscape_short _ hmem t)
  | none =>
      rw [List.lookup_eq_none_iff] at hlookup
      simp only [jsonEscapes, List.forall_mem_cons, bne_iff_ne] at hlookup
      obtain ⟨hline, -, -, -, -, hquote, hbackslash, -⟩ := hlookup
      dsimp only
      split_ifs with hcontrol
      · have hread := readEscape_control hcontrol t
        rw [Char.ofNat_toNat] at hread
        exact hescaped ['u', '0', '0', _, _] hread
      · rw [List.singleton_append, unquoteFrom, if_neg hquote, if_neg hline, if_neg hbackslash]

variable {value name : Text} {fuel : Nat}

theorem unquoteFrom_quoted (hfuel : value.length < fuel) (decoded : List UInt8) (rest : Text) :
    unquoteFrom '"' fuel decoded (value.flatMap logfmtEscape ++ '"' :: rest) =
      some (decoded ++ utf8 value, rest) := by
  induction value generalizing fuel decoded with
  | nil =>
      obtain ⟨fuel, rfl⟩ := Nat.exists_eq_succ_of_ne_zero (Nat.ne_of_gt hfuel)
      rw [List.flatMap_nil, List.nil_append, unquoteFrom, if_pos rfl, utf8_nil, List.append_nil]
  | cons ch value ih =>
      obtain ⟨fuel, rfl⟩ := Nat.exists_eq_succ_of_ne_zero (Nat.ne_of_gt (Nat.zero_lt_of_lt hfuel))
      rw [List.flatMap_cons, List.append_assoc, Nat.succ_eq_add_one, unquote_escape,
        ih (Nat.lt_of_succ_lt_succ hfuel)]
      simp

theorem LossyUtf8.decode_utf8 (t : Text) : lossy.decode (utf8 t) = t := by
  have h := lossy.decode_utf8_append t []
  rwa [List.append_nil, lossy.decode_nil, List.append_nil] at h

/-- **Quoted values.** They are read back, whatever they hold and whatever is behind them. -/
theorem tryUnquote_quoted (value rest : Text) :
    tryUnquoteLogfmtPrefix lossy ('"' :: (value.flatMap logfmtEscape ++ '"' :: rest)) =
      some (value, rest) := by
  have hone : ∀ ch, logfmtEscape ch ≠ [] := by
    intro ch
    rw [logfmtEscape]
    split
    · simp
    · split_ifs <;> simp
  have hfuel : value.length < (value.flatMap logfmtEscape ++ '"' :: rest).length + 1 := by
    have := length_le_flatMap hone value
    rw [List.length_append]
    omega
  rw [tryUnquoteLogfmtPrefix, if_neg (by decide), if_pos (.inl rfl), unquoteFrom_quoted hfuel]
  simp [lossy.decode_utf8]

/-! ### Bare values -/

theorem bare_iff : logfmtNeedsQuote value = false ↔
    ∀ ch ∈ value, 0x20 < ch.toNat ∧ ch ≠ '"' ∧ ch ≠ '\\' := by
  simp [logfmtNeedsQuote, and_assoc]

variable {fields : List (Text × Text)} {t rest : Text} {bytes : List UInt8}

/-- What was decoded stands in front of what is decoded after it. -/
theorem unquoteFrom_decoded {delimiter : Char} {decoded : List UInt8}
    (h : unquoteFrom delimiter fuel decoded t = some (bytes, rest)) :
    ∃ more, bytes = decoded ++ more := by
  induction fuel generalizing decoded t with
  | zero => cases h
  | succ fuel ih =>
      cases t with
      | nil => cases h
      | cons ch t =>
          rw [unquoteFrom] at h
          split_ifs at h
          · obtain ⟨rfl, -⟩ := Prod.mk.inj (Option.some.inj h)
            exact ⟨[], (List.append_nil _).symm⟩
          · obtain ⟨escaped, -, h⟩ := Option.bind_eq_some_iff.mp h
            obtain ⟨more, rfl⟩ := ih h
            exact ⟨_, List.append_assoc _ _ _⟩
          · obtain ⟨more, rfl⟩ := ih h
            exact ⟨_, List.append_assoc _ _ _⟩

theorem logfmtRest_cons (field : Text × Text) (fields : List (Text × Text)) :
    logfmtRest (field :: fields) = ' ' :: boundedLogfmt (field :: fields) := by
  rw [logfmtRest, List.flatMap_cons, boundedLogfmt, logfmtRest, List.cons_append]

/-- A text that is read as quoted, though it is a bare value with other fields behind it, is not read
as that value: what is read is empty or begins with another character. -/
theorem ne_of_tryUnquote (hbare : logfmtNeedsQuote value = false) {read rest : Text}
    (h : tryUnquoteLogfmtPrefix lossy (value ++ logfmtRest fields) = some (read, rest)) :
    read ≠ value := by
  rw [bare_iff] at hbare
  have hhead : ∀ t : Text, (∀ ch ∈ t, ch ≠ '\\') → (t ++ logfmtRest fields).head? ≠ some '\\' := by
    intro t ht
    cases t with
    | cons ch t => simpa using ht ch List.mem_cons_self
    | nil =>
        cases fields with
        | nil => simp [logfmtRest]
        | cons field fields => simp [logfmtRest_cons]
  cases value with
  | nil =>
      cases fields with
      | nil => cases h
      | cons field fields =>
          rw [List.nil_append, logfmtRest_cons, tryUnquoteLogfmtPrefix, if_neg (by decide),
            if_neg (by decide)] at h
          cases h
  | cons quote value =>
      rw [List.forall_mem_cons] at hbare
      rw [List.cons_append, tryUnquoteLogfmtPrefix] at h
      split_ifs at h with hbacktick hquote
      · -- what stands before the closing backtick holds none
        split at h
        · cases h
        · obtain ⟨rfl, -⟩ := Prod.mk.inj (Option.some.inj h)
          intro heq
          have hmem := List.mem_of_mem_filter (heq ▸ List.mem_cons_self)
          exact absurd hbacktick (by simpa using List.mem_takeWhile_imp hmem)
      · obtain ⟨r, hr, heq⟩ := Option.map_eq_some_iff.mp h
        obtain ⟨rfl, -⟩ := Prod.mk.inj heq
        have hhead' := hhead value fun ch hch => (hbare.2 ch hch).2.2
        generalize value ++ logfmtRest fields = t at hr hhead'
        cases t with
        | nil => cases hr
        | cons ch t =>
            rw [List.head?_cons] at hhead'
            rw [unquoteFrom] at hr
            split_ifs at hr with hclose hline hbackslash
            · obtain rfl := Option.some.inj hr
              rw [lossy.decode_nil]
              exact (List.cons_ne_nil _ _).symm
            · exact absurd (congrArg some hbackslash) hhead'
            · obtain ⟨bytes, rest⟩ := r
              obtain ⟨more, rfl⟩ := unquoteFrom_decoded hr
              rw [List.nil_append, lossy.decode_utf8_append, List.singleton_append]
              exact fun heq => hclose (List.cons.inj heq).1

/-! ### Fields -/

/-- A name that is written as it is: not empty, and without `=`, quotes, backticks and white space. -/
def LegalName (name : Text) : Prop :=
  name ≠ [] ∧ ∀ ch ∈ name, ch ≠ '=' ∧ ch ≠ '"' ∧ ch ≠ '\'' ∧ ch ≠ '\x60' ∧ isWhiteSpace ch = false

/-- A text in which an apostrophe before it is closed: no line ends before the closing one, and every
backslash before it begins an escape. -/
inductive Closed : Text → Prop
  | quote (t : Text) : Closed ('\'' :: t)
  | plain {ch : Char} {t : Text} : ch ≠ '\n' → ch ≠ '\\' → Closed t → Closed (ch :: t)
  | escape {t rest : Text} {bytes : List UInt8} :
      readEscape '\'' t = some (bytes, rest) → Closed rest → Closed ('\\' :: t)

/-- A value that is written bare though it begins with a quote that is closed behind it, in the value
or in a field after it. -/
def Mistaken (value : Text) (fields : List (Text × Text)) : Prop :=
  logfmtNeedsQuote value = false ∧
    ((∃ t, value = '\x60' :: t ∧ '\x60' ∈ t ++ logfmtRest fields) ∨
      ∃ t, value = '\'' :: t ∧ Closed (t ++ logfmtRest fields))

/-- No value is mistaken. -/
def Clear : List (Text × Text) → Prop
  | [] => True
  | field :: fields => ¬Mistaken field.2 fields ∧ Clear fields

theorem rest_of_decodeLogfmtDigits {count radix value : Nat}
    (h : decodeLogfmtDigits count radix t = some (value, rest)) : rest = t.drop count := by
  unfold decodeLogfmtDigits at h
  split_ifs at h
  obtain ⟨digits, -, h⟩ := Option.bind_eq_some_iff.mp h
  exact (Prod.mk.inj (Option.some.inj h)).2.symm

theorem rest_of_decodeCodePoint {count : Nat} (h : decodeCodePoint count t = some (bytes, rest)) :
    rest = t.drop count := by
  obtain ⟨⟨value, behind⟩, hdigits, h⟩ := Option.bind_eq_some_iff.mp h
  dsimp only at h
  split_ifs at h
  obtain ⟨-, rfl⟩ := Prod.mk.inj (Option.some.inj h)
  exact rest_of_decodeLogfmtDigits hdigits

/-- An escape takes a character off the text. -/
theorem readEscape_lt {delimiter : Char} (h : readEscape delimiter t = some (bytes, rest)) :
    rest.length < t.length := by
  cases t with
  | nil => cases h
  | cons escape t =>
      rw [readEscape] at h
      split at h
      · obtain ⟨-, rfl⟩ := Prod.mk.inj (Option.some.inj h)
        exact Nat.lt_succ_self _
      · split_ifs at h
        · obtain ⟨⟨value, behind⟩, hdigits, h⟩ := Option.bind_eq_some_iff.mp h
          obtain ⟨-, rfl⟩ := Prod.mk.inj (Option.some.inj h)
          rw [rest_of_decodeLogfmtDigits hdigits, List.length_drop, List.length_cons]
          omega
        · rw [rest_of_decodeCodePoint h, List.length_drop, List.length_cons]
          omega
        · rw [rest_of_decodeCodePoint h, List.length_drop, List.length_cons]
          omega
        · obtain ⟨⟨value, behind⟩, hdigits, h⟩ := Option.bind_eq_some_iff.mp h
          dsimp only at h
          split_ifs at h
          obtain ⟨-, rfl⟩ := Prod.mk.inj (Option.some.inj h)
          rw [rest_of_decodeLogfmtDigits hdigits, List.length_drop, List.length_cons]
          omega

/-- The scan finds the closing apostrophe exactly if there is one. -/
theorem isSome_unquoteFrom {t : Text} (hfuel : t.length < fuel) (decoded : List UInt8) :
    (unquoteFrom '\'' fuel decoded t).isSome ↔ Closed t := by
  induction fuel generalizing t decoded with
  | zero => exact absurd hfuel (Nat.not_lt_zero _)
  | succ fuel ih =>
      cases t with
      | nil => exact iff_of_false (by simp [unquoteFrom]) (by rintro ⟨⟩)
      | cons ch t =>
          have ht : t.length < fuel := Nat.lt_of_succ_lt_succ hfuel
          rw [unquoteFrom]
          split_ifs with hclose hline hbackslash
          · subst hclose
            exact iff_of_true rfl (.quote t)
          · subst hline
            refine iff_of_false (by simp) ?_
            rintro (_ | ⟨hne, -, -⟩)
            exact hne rfl
          · subst hbackslash
            cases hescape : readEscape '\'' t with
            | none =>
                refine iff_of_false (by simp) ?_
                rintro (_ | ⟨-, hne, -⟩ | ⟨hread, -⟩)
                · exact hne rfl
                · rw [hescape] at hread
                  cases hread
            | some escaped =>
                have hlt := readEscape_lt hescape
                rw [Option.bind_some, ih (by omega)]
                refine ⟨.escape hescape, ?_⟩
                rintro (_ | ⟨-, hne, -⟩ | ⟨hread, hrest⟩)
                · exact absurd rfl hne
                · rw [hescape] at hread
                  obtain rfl := Option.some.inj hread
                  exact hrest
          · rw [ih ht]
            refine ⟨.plain hline hbackslash, ?_⟩
            rintro (_ | ⟨-, -, ht⟩)
            · exact absurd rfl hclose
            · exact ht
            · exact absurd rfl hbackslash

/-- A bare value is read as quoted exactly if it is mistaken. -/
theorem tryUnquote_bare (hbare : logfmtNeedsQuote value = false) (fields : List (Text × Text)) :
    (tryUnquoteLogfmtPrefix lossy (value ++ logfmtRest fields)).isSome ↔ Mistaken value fields := by
  rw [Mistaken, and_iff_right hbare]
  cases value with
  | nil =>
      refine iff_of_false ?_ (by simp)
      cases fields with
      | nil => simp [logfmtRest, tryUnquoteLogfmtPrefix]
      | cons field fields => simp [logfmtRest_cons, tryUnquoteLogfmtPrefix]
  | cons quote t =>
      have hquote := (bare_iff.mp hbare quote List.mem_cons_self).2.1
      rw [List.cons_append, tryUnquoteLogfmtPrefix]
      by_cases hbacktick : quote = '\x60'
      · subst hbacktick
        rw [if_pos rfl]
        cases hdrop : (t ++ logfmtRest fields).dropWhile (· ≠ '\x60') with
        | nil =>
            have hnone := List.dropWhile_eq_nil_iff.mp hdrop
            refine iff_of_false (by simp) ?_
            rintro (⟨_, heq, hmem⟩ | ⟨_, heq, -⟩)
            · obtain rfl := (List.cons.inj heq).2
              exact absurd (hnone _ hmem) (by simp)
            · exact absurd (List.cons.inj heq).1 (by decide)
        | cons ch rest =>
            have hhead := List.head_dropWhile_not (· ≠ '\x60') (hdrop ▸ List.cons_ne_nil _ _)
            have hmem : ch ∈ t ++ logfmtRest fields :=
              (List.dropWhile_sublist _).subset (hdrop ▸ List.mem_cons_self)
            simp only [hdrop, List.head_cons, decide_eq_false_iff_not, not_not] at hhead
            exact iff_of_true rfl (.inl ⟨t, rfl, hhead ▸ hmem⟩)
      · by_cases happ : quote = '\''
        · subst happ
          rw [if_neg (by decide), if_pos (.inr rfl), Option.isSome_map,
            isSome_unquoteFrom (Nat.lt_succ_self _)]
          simp
        · rw [if_neg hbacktick, if_neg (by simp [hquote, happ])]
          simp [hbacktick, happ]

theorem addLogfmtField_legal (h : LegalName name) (value : Text) :
    addLogfmtField name value = [(name, value)] := by
  have htrim : trim name = name := trim_eq_self fun ch hch => (h.2 ch hch).2.2.2.2
  rw [addLogfmtField, htrim, if_neg (by simp [h.1])]

theorem boundedLogfmt_cons (name value : Text) (fields : List (Text × Text)) :
    boundedLogfmt ((name, value) :: fields) =
      name ++ '=' :: (logfmtValue value ++ logfmtRest fields) := by
  rw [boundedLogfmt, logfmtField, List.append_assoc, List.cons_append]

theorem LegalName.apart (h : LegalName name) : ∀ ch ∈ name, ch ≠ '=' ∧ ch ≠ ' ' := by
  intro ch hch
  obtain ⟨hequals, -, -, -, hspace⟩ := h.2 ch hch
  refine ⟨hequals, ?_⟩
  rintro rfl
  exact absurd hspace (by decide)

theorem readPairs_nil (fuel : Nat) :
    readPairs (tryUnquoteLogfmtPrefix lossy) addLogfmtField fuel [] = [] := by
  cases fuel <;> rfl

variable {lossy : LossyUtf8}

/-- A field that is not mistaken is read, and the others after it. -/
theorem parse_field (hname : LegalName name) (hclear : ¬Mistaken value fields) (fuel : Nat) :
    readPairs (tryUnquoteLogfmtPrefix lossy) addLogfmtField (fuel + 1) (boundedLogfmt ((name, value) :: fields)) =
      (name, value) :: readPairs (tryUnquoteLogfmtPrefix lossy) addLogfmtField fuel (boundedLogfmt fields) := by
  rw [boundedLogfmt_cons, logfmtValue]
  cases hquote : logfmtNeedsQuote value with
  | true =>
      rw [if_pos rfl, List.cons_append, List.append_assoc, List.singleton_append,
        readPairs_quoted hname.apart fuel (tryUnquote_quoted lossy value _) (List.cons_ne_nil _ _),
        addLogfmtField_legal hname]
      cases fields with
      | nil => rw [boundedLogfmt, readPairs_nil]; rfl
      | cons field fields => rw [logfmtRest_cons]; rfl
  | false =>
      have hnone : tryUnquoteLogfmtPrefix lossy (value ++ logfmtRest fields) = none := by
        rwa [← tryUnquote_bare lossy hquote, Option.not_isSome_iff_eq_none] at hclear
      have hvalue : ∀ ch ∈ value, decide (ch ≠ ' ') = true := by
        intro ch hch
        rw [decide_eq_true_eq]
        rintro rfl
        exact absurd (bare_iff.mp hquote _ hch).1 (by decide)
      rw [if_neg Bool.false_ne_true, readPairs_name hname.apart, hnone,
        List.takeWhile_append_of_pos hvalue, List.dropWhile_append_of_pos hvalue]
      simp only [addLogfmtField_legal hname]
      cases fields with
      | nil =>
          rw [boundedLogfmt, readPairs_nil]
          cases value <;> simp [logfmtRest]
      | cons field fields => simp [logfmtRest_cons]

/-- For a mistaken one another value is read. -/
theorem parse_mistaken (hname : LegalName name) (hmistaken : Mistaken value fields) (fuel : Nat) :
    ∃ read more, read ≠ value ∧
      readPairs (tryUnquoteLogfmtPrefix lossy) addLogfmtField (fuel + 1) (boundedLogfmt ((name, value) :: fields)) =
        (name, read) :: more := by
  obtain ⟨⟨read, rest⟩, hread⟩ :=
    Option.isSome_iff_exists.mp ((tryUnquote_bare lossy hmistaken.1 fields).mpr hmistaken)
  have hsource : value ++ logfmtRest fields ≠ [] := by
    intro h
    rw [h] at hread
    cases hread
  rw [boundedLogfmt_cons, logfmtValue, hmistaken.1, if_neg Bool.false_ne_true,
    readPairs_quoted hname.apart fuel hread hsource, addLogfmtField_legal hname]
  exact ⟨read, _, ne_of_tryUnquote lossy hmistaken.1 hread, rfl⟩

theorem parse_iff (hnames : ∀ field ∈ fields, LegalName field.1) (hfuel : fields.length ≤ fuel) :
    readPairs (tryUnquoteLogfmtPrefix lossy) addLogfmtField fuel (boundedLogfmt fields) = fields ↔ Clear fields := by
  induction fields generalizing fuel with
  | nil => simp [boundedLogfmt, readPairs_nil, Clear]
  | cons field fields ih =>
      obtain ⟨fuel, rfl⟩ := Nat.exists_eq_succ_of_ne_zero (Nat.ne_of_gt (Nat.zero_lt_of_lt hfuel))
      rw [List.forall_mem_cons] at hnames
      by_cases hmistaken : Mistaken field.2 fields
      · obtain ⟨read, more, hne, hread⟩ := parse_mistaken hnames.1 hmistaken fuel
        rw [Nat.succ_eq_add_one, hread]
        refine iff_of_false (fun heq => ?_) (fun hclear => hclear.1 hmistaken)
        exact hne (congrArg Prod.snd (List.cons.inj heq).1)
      · rw [Nat.succ_eq_add_one, parse_field hnames.1 hmistaken, List.cons.injEq,
          ih hnames.2 (Nat.le_of_succ_le_succ hfuel), Clear]
        simp [hmistaken]

/-- The loop has fuel for every field. -/
theorem length_le_boundedLogfmt (fields : List (Text × Text)) :
    fields.length ≤ (boundedLogfmt fields).length := by
  cases fields with
  | nil => simp
  | cons field fields =>
      have : fields.length ≤ (logfmtRest fields).length :=
        length_le_flatMap (fun _ => List.cons_ne_nil _ _) fields
      simp only [boundedLogfmt, logfmtField, List.length_append, List.length_cons]
      omega

/-- **Packed fields.** They are unpacked as they were packed exactly if no value is mistaken for a
quoted one. -/
theorem parseLogfmt_iff (lossy : LossyUtf8) (fields : List (Text × Text))
    (hnames : ∀ field ∈ fields, LegalName field.1) :
    parseLogfmtFields lossy (boundedLogfmt fields) = fields ↔ Clear fields :=
  parse_iff hnames (Nat.le_succ_of_le (length_le_boundedLogfmt fields))

/-- Bytes made a text: what stands at no character's front is replaced by `U+FFFD`. -/
def replaceBytes : (skip : Nat) → List UInt8 → Text
  | _, [] => []
  | skip + 1, _ :: bytes => replaceBytes skip bytes
  | 0, byte :: bytes =>
      match (byte :: bytes).toByteArray.utf8DecodeChar? 0 with
      | some ch => ch :: replaceBytes (ch.utf8Size - 1) bytes
      | none => '\uFFFD' :: replaceBytes 0 bytes

theorem replaceBytes_skip (skipped bytes : List UInt8) :
    replaceBytes skipped.length (skipped ++ bytes) = replaceBytes 0 bytes := by
  induction skipped with
  | nil => rfl
  | cons byte skipped ih => exact ih

theorem replaceBytes_char (ch : Char) (bytes : List UInt8) :
    replaceBytes 0 (String.utf8EncodeChar ch ++ bytes) = ch :: replaceBytes 0 bytes := by
  have hdecode : (String.utf8EncodeChar ch ++ bytes).toByteArray.utf8DecodeChar? 0 = some ch := by
    rw [List.toByteArray_append]
    exact ByteArray.utf8DecodeChar?_utf8EncodeChar_append
  have hsize := String.length_utf8EncodeChar ch
  obtain ⟨byte, more, hmore⟩ := List.exists_cons_of_ne_nil (String.utf8EncodeChar_ne_nil (c := ch))
  rw [hmore] at hdecode hsize ⊢
  rw [List.cons_append] at hdecode ⊢
  rw [replaceBytes, hdecode]
  change ch :: replaceBytes (ch.utf8Size - 1) (more ++ bytes) = _
  rw [← hsize]
  exact congrArg (ch :: ·) (replaceBytes_skip more bytes)

def LossyUtf8.replacing : LossyUtf8 where
  decode := replaceBytes 0
  decode_nil := rfl
  decode_utf8_append t bytes := by
    induction t with
    | nil => rfl
    | cons ch t ih => rw [utf8_cons, List.append_assoc, replaceBytes_char, ih, List.cons_append]

/-- A value in quotes and a bare one. -/
theorem parseLogfmt_iff_quoted :
    parseLogfmtFields .replacing
        (boundedLogfmt [("a".toList, "'b\" \\".toList), ("c".toList, "d'".toList)]) =
      [("a".toList, "'b\" \\".toList), ("c".toList, "d'".toList)] := by
  have hnames : ∀ field ∈ [("a".toList, "'b\" \\".toList), ("c".toList, "d'".toList)],
      LegalName field.1 := by
    have hlegal (name : Text) (hne : name ≠ []) (hall : (name.all fun ch => ch ≠ '=' ∧ ch ≠ '"' ∧
        ch ≠ '\'' ∧ ch ≠ '\x60' ∧ isWhiteSpace ch = false) = true) : LegalName name :=
      ⟨hne, List.all_iff_forall_prop.mp hall⟩
    intro field hfield
    rcases List.mem_pair.mp hfield with rfl | rfl
    · exact hlegal _ (by decide) (by decide +kernel)
    · exact hlegal _ (by decide) (by decide +kernel)
  refine (parseLogfmt_iff .replacing _ hnames).mpr ⟨?_, ?_, trivial⟩
  · exact fun h => absurd h.1 (by decide)
  · rintro ⟨-, ⟨_, heq, -⟩ | ⟨_, heq, -⟩⟩
    · exact absurd (List.cons.inj heq).1 (by decide)
    · exact absurd (List.cons.inj heq).1 (by decide)

/-- The apostrophes of a value are lost. -/
theorem parseLogfmt_drops_quotes :
    boundedLogfmt [("a".toList, "'abc'".toList)] = "a='abc'".toList ∧
      parseLogfmtFields .replacing "a='abc'".toList = [("a".toList, "abc".toList)] := by
  decide +kernel

end Timeless.LogsQL
