import Mathlib.Data.Bool.AllAny
import Timeless.LogsQL.Pairs
import Timeless.Support.Decimal

/-!
# Syslog — RFC 5424 lines and the fields unpacked from them

A line has a priority, five header fields, structured data and a message. `unpack_syslog` finds the end
of an element of structured data by one scan and its parameters by another. Both take a quote for
escaped if the character before it is a backslash, whatever stands before that one; the value between
the quotes is then read as a JSON string.

* `parse_render_iff`: a rendered record is parsed to its fields exactly if it is `Plain`: no parameter
  value ends in a backslash or holds a control character;
* `parse_loses_message`: after a value that ends in a backslash the message is lost.
-/

namespace Timeless.LogsQL

open Support Codec Blocks

/-! ### JSON strings -/

variable (special : List Char)

/-- Characters with a backslash before those that are special. -/
def escapeWith (ch : Char) : Text :=
  if ch ∈ special then ['\\', ch] else [ch]

/-- The characters RFC 5424 escapes in a value, and those JSON does. -/
def rfcSpecial : List Char := ['"', '\\', ']']

/-- What is escaped in a JSON string. -/
def jsonSpecial : List Char := ['"', '\\']

/-- White space between JSON tokens. -/
def isJsonBlank (ch : Char) : Bool :=
  ch = ' ' || ch = '\t' || ch = '\n' || ch = '\r'

/-- A text between quotes, with the quotes and backslashes in it escaped. -/
def jsonQuoted (value : Text) : Text :=
  '"' :: (value.flatMap (escapeWith jsonSpecial) ++ ['"'])

/-- `serde_json::from_str` for one string, and what is known of it. -/
structure JsonStrings where
  fromStr : Text → Option Text
  reads_quoted : ∀ value, (∀ ch ∈ value, 0x20 ≤ ch.toNat) → fromStr (jsonQuoted value) = some value
  refuses_control : ∀ value, ¬(∀ ch ∈ value, 0x20 ≤ ch.toNat) → fromStr (jsonQuoted value) = none
  refuses_trailing : ∀ value t, t.all isJsonBlank = false → fromStr (jsonQuoted value ++ t) = none

variable (json : JsonStrings)

/-! ### Structured data -/

/-- A name and a value. -/
abbrev SyslogField := Text × Text

/-- Whether the character behind a text counts as escaped. -/
def isBackslashEscaped (before : Text) : Bool :=
  before.getLast? = some '\\'

/-- What has been scanned up to the next quote that does not count as escaped, and the text behind. -/
def scanQuoted (before : Text) : Text → Option (Text × Text)
  | [] => none
  | ch :: t =>
      if ch = '"' ∧ isBackslashEscaped before = false then some (before ++ [ch], t)
      else scanQuoted (before ++ [ch]) t

/-- A quoted value, and the rest of the text. -/
def decodeQuotedPrefix : Text → Option (Text × Text)
  | '"' :: t =>
      (scanQuoted ['"'] t).bind fun (quoted, rest) =>
        (json.fromStr quoted).map fun value => (value, rest)
  | _ => none

/-- What stands in an element up to its closing bracket, and the text behind. -/
def scanParameters : (fuel : Nat) → (before : Text) → Text → Option (Text × Text)
  | 0, _, _ => none
  | _ + 1, _, [] => none
  | fuel + 1, before, ch :: t =>
      if ch = ']' ∧ isBackslashEscaped before = false then some (before, t)
      else if ch = ' ' then scanParameters fuel (before ++ [ch]) t
      else
        let before := before ++ (ch :: t).takeWhile (· ≠ '=') ++ ['=']
        match (ch :: t).dropWhile (· ≠ '=') with
        | [] => none
        | _ :: [] => none
        | _ :: '"' :: value =>
            (scanQuoted (before ++ ['"']) value).bind fun (before, t) => scanParameters fuel before t
        | _ :: value =>
            match value.dropWhile fun ch => ch ≠ ' ' && ch ≠ ']' with
            | [] => none
            | tail =>
                scanParameters fuel (before ++ value.takeWhile fun ch => ch ≠ ' ' && ch ≠ ']') tail

/-- `replace(r"\]", "]")`. -/
def unescapeBrackets : Text → Text
  | [] => []
  | [ch] => [ch]
  | ch :: next :: t =>
      if ch = '\\' ∧ next = ']' then ']' :: unescapeBrackets t
      else ch :: unescapeBrackets (next :: t)

/-- The field of a parameter, under the name of its element. -/
def addStructuredField (structuredId name value : Text) : List SyslogField :=
  if name.isEmpty && value.isEmpty then
    if structuredId.isEmpty then [] else [(structuredId, [])]
  else if structuredId.isEmpty then [(name, value)]
  else [(structuredId ++ '.' :: name, value)]

/-- The parameters of an element. -/
def parseStructuredParameters (structuredId source : Text) : List SyslogField :=
  readPairs (decodeQuotedPrefix json) (fun name => addStructuredField structuredId (trim name))
    (source.length + 1) source

/-- The fields of an element, and the text behind it. -/
def structuredLine : Text → List SyslogField × Option Text
  | '[' :: rest =>
      let structuredId := rest.takeWhile fun ch => ch ≠ ' ' && ch ≠ ']'
      match rest.dropWhile fun ch => ch ≠ ' ' && ch ≠ ']' with
      | [] => ([], none)
      | rest =>
          let (fields, structuredId) := match structuredId.dropWhile (· ≠ '=') with
            | [] => ([], structuredId)
            | _ :: value => ([(structuredId.takeWhile (· ≠ '='), value)], [])
          match scanParameters (rest.length + 1) [] rest with
          | none => (fields, none)
          | some (scanned, tail) =>
              (fields ++ parseStructuredParameters json structuredId (unescapeBrackets (trim scanned)),
                some tail)
  | _ => ([], none)

/-- Every turn of the loop takes an element off the text. -/
def structuredLines : (fuel : Nat) → Text → List SyslogField × Option Text
  | 0, _ => ([], none)
  | fuel + 1, source =>
      match structuredLine json source with
      | (fields, none) => (fields, none)
      | (fields, some (' ' :: message)) => (fields, some message)
      | (fields, some tail) =>
          let (more, message) := structuredLines fuel tail
          (fields ++ more, message)

/-- The elements of a line, and the message behind them. -/
def structuredData (source : Text) : List SyslogField × Option Text :=
  if "- ".toList.isPrefixOf source then ([], some (source.drop 2))
  else if "@cee:".toList.isPrefixOf source then ([], some source)
  else structuredLines json (source.length + 1) source

/-! ### Lines -/

/-- What is left out: the other format of a line, and the two formats of a message. -/
structure SyslogFormats where
  rfc3164 : Text → List SyslogField
  cef : Text → Option (List SyslogField)
  cee : Text → Option (List SyslogField)

/-- The name of a severity. -/
def severityLevel (severity : Nat) : Text :=
  (["emerg", "alert", "critical", "error", "warning", "notice", "info", "debug"].getD severity
    "unknown").toList

/-- The name of a facility. -/
def facilityKeyword (facility : Nat) : Text :=
  (["kern", "user", "mail", "daemon", "auth", "syslog", "lpr", "news", "uucp", "cron", "authpriv",
    "ftp", "ntp", "security", "console", "solaris-cron", "local0", "local1", "local2", "local3",
    "local4", "local5", "local6", "local7"].getD facility "unknown").toList

variable (formats : SyslogFormats)

/-- The message, or its fields if it is in a format of its own. -/
def addMessage (source : Text) : List SyslogField :=
  let parsed :=
    if "CEF:".toList.isPrefixOf source then formats.cef (source.drop 4)
    else if "@cee:".toList.isPrefixOf source then formats.cee (source.drop 5)
    else none
  parsed.getD [("message".toList, source)]

/-- Fields with a blank behind each, and what is behind them. -/
def headerFields : List String → Text → List SyslogField × Option Text
  | [], source => ([], some source)
  | field :: fields, source =>
      match source.dropWhile (· ≠ ' ') with
      | [] => ([(field.toList, source)], none)
      | _ :: rest =>
          let (more, tail) := headerFields fields rest
          ((field.toList, source.takeWhile (· ≠ ' ')) :: more, tail)

/-- Fields, and those of the text behind them. -/
def andThen (fields : List SyslogField × Option Text) (parse : Text → List SyslogField) :
    List SyslogField :=
  fields.1 ++ fields.2.elim [] parse

/-- The line behind its version. -/
def parseRfc5424 (source : Text) : List SyslogField :=
  ("format".toList, "rfc5424".toList) ::
    if source.isEmpty then []
    else andThen (headerFields ["timestamp", "hostname", "app_name", "proc_id", "msg_id"] source)
      fun source => andThen (structuredData json source) (addMessage formats)

/-- The line behind its priority. -/
def parseNoHeader (source : Text) : List SyslogField :=
  if source.isEmpty then []
  else if "1 ".toList.isPrefixOf source then parseRfc5424 json formats (source.drop 2)
  else formats.rfc3164 source

/-- What the priority says. -/
def priorityFields (priority : Nat) : List SyslogField :=
  [("facility_keyword".toList, facilityKeyword (priority / 8)),
    ("level".toList, severityLevel (priority % 8)),
    ("facility".toList, decimal (priority / 8)), ("severity".toList, decimal (priority % 8))]

/-- The fields of a line. -/
def parseSyslog : Text → List SyslogField
  | [] => []
  | '<' :: t =>
      match t.dropWhile (· ≠ '>') with
      | [] => []
      | _ :: source =>
          ("priority".toList, t.takeWhile (· ≠ '>')) ::
            match parseU64 (t.takeWhile (· ≠ '>')) with
            | none => []
            | some priority => priorityFields priority ++ parseNoHeader json formats source
  | source => parseNoHeader json formats source

/-! ### Records -/

/-- The id of an element, or the name of a parameter: printable ASCII without `=`, `]` and quotes. -/
structure SdName where
  text : Text
  ne_nil : text ≠ []
  legal : ∀ ch ∈ text, 33 ≤ ch.toNat ∧ ch.toNat ≤ 126 ∧ ch ≠ '=' ∧ ch ≠ ']' ∧ ch ≠ '"'

/-- A header field, without blanks. -/
structure HeaderField where
  text : Text
  ne_nil : text ≠ []
  no_blank : ∀ ch ∈ text, ch ≠ ' '

/-- An element of structured data. -/
structure Element where
  id : SdName
  parameters : List (SdName × Text)

/-- What a line is written from. -/
structure SyslogRecord where
  priority : UInt64
  timestamp : HeaderField
  hostname : HeaderField
  appName : HeaderField
  procId : HeaderField
  msgId : HeaderField
  elements : List Element
  message : Text
  no_cef : "CEF:".toList.isPrefixOf message = false
  no_cee : "@cee:".toList.isPrefixOf message = false

/-- A parameter, with its value escaped. -/
def pair (parameter : SdName × Text) : Text :=
  parameter.1.text ++ '=' :: '"' :: (parameter.2.flatMap (escapeWith special) ++ ['"'])

/-- The text of an element. -/
def Element.render (e : Element) : Text :=
  '[' :: (e.id.text ++ (e.parameters.flatMap fun p => ' ' :: pair rfcSpecial p) ++ [']'])

/-- The header fields in their order. -/
def SyslogRecord.header (r : SyslogRecord) : List HeaderField :=
  [r.timestamp, r.hostname, r.appName, r.procId, r.msgId]

/-- The line of a record. -/
def SyslogRecord.render (r : SyslogRecord) : Text :=
  '<' :: (decimal r.priority.toNat ++ '>' :: '1' :: ' ' ::
    ((r.header.flatMap fun f => f.text ++ [' ']) ++
      ((if r.elements.isEmpty then ['-'] else r.elements.flatMap Element.render) ++
        ' ' :: r.message)))

/-- The fields of an element: one for each parameter, and its id if it has none. -/
def Element.fields (e : Element) : List SyslogField :=
  if e.parameters.isEmpty then [(e.id.text, [])]
  else e.parameters.map fun p => (e.id.text ++ '.' :: p.1.text, p.2)

/-- The fields that a record should give. -/
def SyslogRecord.fields (r : SyslogRecord) : List SyslogField :=
  ("priority".toList, decimal r.priority.toNat) :: (priorityFields r.priority.toNat ++
    ("format".toList, "rfc5424".toList) ::
      ([("timestamp".toList, r.timestamp.text), ("hostname".toList, r.hostname.text),
        ("app_name".toList, r.appName.text), ("proc_id".toList, r.procId.text),
        ("msg_id".toList, r.msgId.text)] ++
      (r.elements.flatMap Element.fields ++ [("message".toList, r.message)])))

/-- A value that no scan mistakes: it does not end in a backslash, and it has no control characters. -/
structure PlainValue (value : Text) : Prop where
  last : value.getLast? ≠ some '\\'
  printable : ∀ ch ∈ value, 0x20 ≤ ch.toNat

/-- Values that come back. -/
def SyslogRecord.Plain (r : SyslogRecord) : Prop :=
  ∀ e ∈ r.elements, ∀ p ∈ e.parameters, PlainValue p.2

variable {json}

/-! ### Values -/

theorem escapeWith_ne_nil (ch : Char) : escapeWith special ch ≠ [] := by
  unfold escapeWith
  split_ifs <;> simp

/-- Escaped characters are scanned, if a quote is one of them. -/
theorem scanQuoted_escaped {special : List Char} (hquote : '"' ∈ special) (value before t : Text) :
    scanQuoted before (value.flatMap (escapeWith special) ++ t) =
      scanQuoted (before ++ value.flatMap (escapeWith special)) t := by
  induction value generalizing before with
  | nil => rw [List.flatMap_nil, List.nil_append, List.append_nil]
  | cons ch value ih =>
      rw [List.flatMap_cons, List.append_assoc, ← List.append_assoc before, ← ih, escapeWith]
      split_ifs with hch
      · rw [List.cons_append, scanQuoted, if_neg (by simp), List.cons_append, scanQuoted,
          if_neg (by simp [isBackslashEscaped]), List.append_assoc]
        rfl
      · have hne : ch ≠ '"' := fun h => hch (h ▸ hquote)
        rw [List.singleton_append, scanQuoted, if_neg (by simp [hne])]

theorem getLast?_escaped (value : Text) :
    (value.flatMap (escapeWith special)).getLast? = value.getLast? := by
  induction value with
  | nil => rfl
  | cons ch value ih =>
      rw [List.flatMap_cons, List.getLast?_append, ih]
      cases value with
      | nil =>
          rw [List.getLast?_nil, Option.none_or, escapeWith]
          split_ifs <;> rfl
      | cons ch' value =>
          rw [List.getLast?_cons_cons, List.getLast?_eq_some_getLast (List.cons_ne_nil _ _),
            Option.some_or]

/-- The quote behind a value is taken for escaped exactly if the value ends in a backslash. -/
theorem isBackslashEscaped_value (before value : Text) :
    isBackslashEscaped (before ++ '"' :: value.flatMap (escapeWith special)) =
      decide (value.getLast? = some '\\') := by
  rw [isBackslashEscaped, List.getLast?_append, List.getLast?_cons, getLast?_escaped]
  cases value.getLast? <;> simp

/-- A scan over a value: it stops behind it, or goes on if the value ends in a backslash. -/
theorem scanQuoted_value {special : List Char} (hquote : '"' ∈ special) (before value t : Text) :
    scanQuoted (before ++ ['"']) (value.flatMap (escapeWith special) ++ '"' :: t) =
      if value.getLast? = some '\\' then
        scanQuoted (before ++ '"' :: (value.flatMap (escapeWith special) ++ ['"'])) t
      else some (before ++ '"' :: (value.flatMap (escapeWith special) ++ ['"']), t) := by
  have hescaped := isBackslashEscaped_value special before value
  rw [scanQuoted_escaped hquote, scanQuoted, List.append_assoc, List.singleton_append, hescaped,
    List.append_assoc, List.cons_append]
  split_ifs <;> simp_all

variable {before t scanned rest : Text} {fuel : Nat}

theorem scanQuoted_before (h : scanQuoted before t = some (scanned, rest)) :
    ∃ more, scanned = before ++ more ++ ['"'] := by
  induction t generalizing before with
  | nil => cases h
  | cons ch t ih =>
      rw [scanQuoted] at h
      split_ifs at h with hch
      · obtain ⟨rfl, -⟩ := Prod.mk.inj (Option.some.inj h)
        exact ⟨[], by rw [hch.1, List.append_nil]⟩
      · obtain ⟨more, rfl⟩ := ih h
        exact ⟨ch :: more, by simp⟩

/-- The prefix of a plain value is that value. -/
theorem decodeQuotedPrefix_plain {value : Text} (h : PlainValue value) (t : Text) :
    decodeQuotedPrefix json ('"' :: (value.flatMap (escapeWith jsonSpecial) ++ '"' :: t)) =
      some (value, t) := by
  have hscan := scanQuoted_value (show '"' ∈ jsonSpecial by simp [jsonSpecial]) [] value t
  rw [if_neg h.last, List.nil_append, List.nil_append] at hscan
  rw [decodeQuotedPrefix, hscan, Option.bind_some]
  simp only
  rw [← jsonQuoted, json.reads_quoted value h.printable]
  rfl

/-- Any other value is not read as a quoted one, whatever is behind it. -/
theorem decodeQuotedPrefix_mistaken {value : Text} (h : ¬PlainValue value) (t : Text) :
    decodeQuotedPrefix json ('"' :: (value.flatMap (escapeWith jsonSpecial) ++ '"' :: t)) = none := by
  have hscan := scanQuoted_value (show '"' ∈ jsonSpecial by simp [jsonSpecial]) [] value t
  rw [List.nil_append, List.nil_append] at hscan
  rw [decodeQuotedPrefix, hscan]
  split_ifs with hlast
  · cases hmore : scanQuoted ('"' :: (value.flatMap (escapeWith jsonSpecial) ++ ['"'])) t with
    | none => rfl
    | some scanned =>
        obtain ⟨more, hscanned⟩ := scanQuoted_before hmore
        rw [Option.bind_some]
        -- behind the value there is another quote
        simp only [hscanned]
        rw [← jsonQuoted, List.append_assoc, json.refuses_trailing _ _ (by simp [isJsonBlank])]
        rfl
  · rw [Option.bind_some]
    simp only
    rw [← jsonQuoted, json.refuses_control value fun hprint => h ⟨hlast, hprint⟩]
    rfl

/-- What is read in its place is another value. -/
theorem takeWhile_escaped_ne (value t : Text) :
    (('"' :: (value.flatMap (escapeWith special) ++ '"' :: t)).takeWhile (· ≠ ' ')) ≠ value := by
  intro heq
  by_cases hblank : ' ' ∈ value
  · rw [← heq] at hblank
    exact absurd (List.mem_takeWhile_imp hblank) (by simp)
  · have hescaped : ∀ ch ∈ value.flatMap (escapeWith special), decide (ch ≠ ' ') = true := by
      intro ch hch
      obtain ⟨ch', hmem, hch⟩ := List.mem_flatMap.mp hch
      have hne : ch' ≠ ' ' := fun h => hblank (h ▸ hmem)
      rw [escapeWith] at hch
      split_ifs at hch <;> simp at hch <;> aesop
    have hlong := length_le_flatMap (escapeWith_ne_nil special) value
    have hlength := congrArg List.length heq
    rw [List.takeWhile_cons_of_pos (by decide), List.takeWhile_append_of_pos hescaped,
      List.length_cons, List.length_append] at hlength
    omega

/-! ### Elements -/

theorem SdName.apart (name : SdName) : ∀ ch ∈ name.text, ch ≠ '=' ∧ ch ≠ ' ' := by
  intro ch hch
  obtain ⟨hlow, -, hequals, -, -⟩ := name.legal ch hch
  refine ⟨hequals, ?_⟩
  rintro rfl
  exact absurd hlow (by decide)

theorem SdName.not_space (name : SdName) : ∀ ch ∈ name.text, isWhiteSpace ch = false := by
  intro ch hch
  obtain ⟨hlow, hhigh, -⟩ := name.legal ch hch
  simp [isWhiteSpace]
  omega

theorem pair_append (p : SdName × Text) (t : Text) :
    pair special p ++ t =
      p.1.text ++ '=' :: '"' :: (p.2.flatMap (escapeWith special) ++ '"' :: t) := by
  simp [pair]

theorem pair_concat (p : SdName × Text) : pair special p =
    p.1.text ++ '=' :: '"' :: p.2.flatMap (escapeWith special) ++ ['"'] := by
  simp [pair]

theorem scanParameters_before (h : scanParameters fuel before t = some (scanned, rest)) :
    ∃ more, scanned = before ++ more := by
  induction fuel generalizing before t with
  | zero => cases h
  | succ fuel ih =>
      cases t with
      | nil => cases h
      | cons ch t =>
          rw [scanParameters] at h
          split_ifs at h
          · obtain ⟨rfl, -⟩ := Prod.mk.inj (Option.some.inj h)
            exact ⟨[], (List.append_nil _).symm⟩
          · obtain ⟨more, rfl⟩ := ih h
            exact ⟨_, List.append_assoc _ _ _⟩
          · dsimp only at h
            split at h
            · cases h
            · cases h
            · obtain ⟨⟨quoted, t⟩, hquoted, h⟩ := Option.bind_eq_some_iff.mp h
              obtain ⟨more, rfl⟩ := scanQuoted_before hquoted
              obtain ⟨more', rfl⟩ := ih h
              simp only [List.append_assoc]
              exact ⟨_, rfl⟩
            · split at h
              · cases h
              · obtain ⟨more, rfl⟩ := ih h
                simp only [List.append_assoc]
                exact ⟨_, rfl⟩

/-- The scan over a parameter: it is behind it, or still in its value if that ends in a backslash. -/
theorem scanParameters_pair (p : SdName × Text) (fuel : Nat) (before t : Text) :
    scanParameters (fuel + 2) before (' ' :: (pair rfcSpecial p ++ t)) =
      (if p.2.getLast? = some '\\' then scanQuoted (before ++ ' ' :: pair rfcSpecial p) t
        else some (before ++ ' ' :: pair rfcSpecial p, t)).bind
          fun (before, t) => scanParameters fuel before t := by
  have hname : ∀ ch ∈ p.1.text, decide (ch ≠ '=') = true := by
    intro ch hch
    simpa using (p.1.apart ch hch).1
  obtain ⟨ch, name, htext⟩ := List.exists_cons_of_ne_nil p.1.ne_nil
  have hmem : ch ∈ p.1.text := htext ▸ List.mem_cons_self
  have hscan := scanQuoted_value (show '"' ∈ rfcSpecial by simp [rfcSpecial])
    (before ++ [' '] ++ p.1.text ++ ['=']) p.2 t
  have htake : (pair rfcSpecial p ++ t).takeWhile (· ≠ '=') = p.1.text := by
    rw [pair_append, List.takeWhile_append_of_pos hname]
    simp
  have hdrop : (pair rfcSpecial p ++ t).dropWhile (· ≠ '=') =
      '=' :: '"' :: (p.2.flatMap (escapeWith rfcSpecial) ++ '"' :: t) := by
    rw [pair_append, List.dropWhile_append_of_pos hname]
    simp
  obtain ⟨tail, htail⟩ : ∃ tail, pair rfcSpecial p ++ t = ch :: tail := by
    rw [pair_append, htext]
    exact ⟨_, List.cons_append⟩
  rw [scanParameters, if_neg (by simp), if_pos rfl]
  rw [htail] at htake hdrop ⊢
  rw [scanParameters, if_neg (fun h => (p.1.legal ch hmem).2.2.2.1 h.1),
    if_neg (p.1.apart ch hmem).2]
  simp only [htake, hdrop, hscan]
  simp [pair]

theorem fuel_elements (ps : List (SdName × Text)) (t : Text) :
    2 * ps.length < ((ps.flatMap fun p => ' ' :: pair rfcSpecial p) ++ ']' :: t).length + 1 := by
  have hlong : ps.length * 2 ≤ (ps.flatMap fun p => ' ' :: pair rfcSpecial p).length :=
    length_mul_le_flatMap (fun p => by simp [pair]; omega) ps
  rw [List.length_append]
  omega

variable {ps : List (SdName × Text)}

/-- Up to its closing bracket an element is scanned, if no value ends in a backslash. -/
theorem scanParameters_plain (h : ∀ p ∈ ps, p.2.getLast? ≠ some '\\') (hfuel : 2 * ps.length < fuel)
    {before : Text} (hbefore : isBackslashEscaped before = false) (t : Text) :
    scanParameters fuel before ((ps.flatMap fun p => ' ' :: pair rfcSpecial p) ++ ']' :: t) =
      some (before ++ ps.flatMap fun p => ' ' :: pair rfcSpecial p, t) := by
  induction ps generalizing fuel before with
  | nil =>
      obtain ⟨fuel, rfl⟩ := Nat.exists_eq_succ_of_ne_zero (Nat.ne_of_gt hfuel)
      rw [List.flatMap_nil, List.nil_append, scanParameters, if_pos ⟨rfl, hbefore⟩, List.append_nil]
  | cons p ps ih =>
      rw [List.length_cons] at hfuel
      obtain ⟨fuel, rfl⟩ := Nat.exists_eq_add_of_le (show 2 ≤ fuel by omega)
      rw [List.forall_mem_cons] at h
      have hquote : isBackslashEscaped (before ++ ' ' :: pair rfcSpecial p) = false := by
        rw [pair_concat, ← List.cons_append, ← List.append_assoc, isBackslashEscaped,
          List.getLast?_concat]
        rfl
      rw [List.flatMap_cons, List.append_assoc, List.cons_append, Nat.add_comm 2,
        scanParameters_pair, if_neg h.1, Option.bind_some]
      simp only
      rw [ih h.2 (by omega) hquote, List.append_assoc, List.cons_append]

/-- With a value that ends in a backslash, what is scanned holds that value and more. -/
theorem scanParameters_mistaken (h : ∃ p ∈ ps, p.2.getLast? = some '\\')
    (hscan : scanParameters fuel before
      ((ps.flatMap fun p => ' ' :: pair rfcSpecial p) ++ t) = some (scanned, rest)) :
    ∃ ps' more, ps' <+: ps ∧ (∃ p ∈ ps', p.2.getLast? = some '\\') ∧
      scanned = before ++ (ps'.flatMap fun p => ' ' :: pair rfcSpecial p) ++ more := by
  induction ps generalizing fuel before with
  | nil => simp at h
  | cons p ps ih =>
      rw [List.flatMap_cons, List.append_assoc, List.cons_append] at hscan
      obtain _ | _ | fuel := fuel
      · cases hscan
      · rw [scanParameters, if_neg (by simp), if_pos rfl] at hscan
        cases hscan
      rw [scanParameters_pair] at hscan
      split_ifs at hscan with hlast
      · obtain ⟨⟨quoted, t⟩, hquoted, hscan⟩ := Option.bind_eq_some_iff.mp hscan
        obtain ⟨more, rfl⟩ := scanQuoted_before hquoted
        obtain ⟨more', rfl⟩ := scanParameters_before hscan
        refine ⟨[p], more ++ ['"'] ++ more', by simp, ⟨p, by simp, hlast⟩, ?_⟩
        simp
      · obtain ⟨q, hq, hqlast⟩ := h
        obtain rfl | hq := List.mem_cons.mp hq
        · exact absurd hqlast hlast
        · obtain ⟨ps', more, hsub, hbad, rfl⟩ := ih ⟨q, hq, hqlast⟩ hscan
          obtain ⟨p', hp', hlast'⟩ := hbad
          refine ⟨p :: ps', more, List.cons_prefix_cons.mpr ⟨rfl, hsub⟩,
            ⟨p', List.mem_cons_of_mem _ hp', hlast'⟩, ?_⟩
          simp

/-! ### Parameters -/

/-- The text of an element between its id and its bracket, without the blank at its front. -/
def pairs : List (SdName × Text) → Text
  | [] => []
  | p :: ps => pair special p ++ ps.flatMap fun p => ' ' :: pair special p

theorem blank_pairs (h : ps ≠ []) :
    (ps.flatMap fun p => ' ' :: pair special p) = ' ' :: pairs special ps := by
  cases ps with
  | nil => exact absurd rfl h
  | cons p ps => rw [List.flatMap_cons, List.cons_append, pairs]

theorem dropWhile_append_of_stop {p : Char → Bool} (xs : Text) {ys : Text} (h : ys.dropWhile p = ys) :
    ∃ zs, (xs ++ ys).dropWhile p = zs ++ ys ∧ (xs = [] → zs = []) := by
  induction xs with
  | nil => exact ⟨[], by simpa using h, fun _ => rfl⟩
  | cons x xs ih =>
      by_cases hx : p x = true
      · obtain ⟨zs, heq, -⟩ := ih
        exact ⟨zs, by rw [List.cons_append, List.dropWhile_cons_of_pos hx, heq], by simp⟩
      · exact ⟨x :: xs, by rw [List.cons_append, List.dropWhile_cons_of_neg hx], by simp⟩

theorem pairs_concat (h : ps ≠ []) :
    ∃ init, pairs special ps = init ++ ['"'] := by
  obtain ⟨p, ps, rfl⟩ := List.exists_cons_of_ne_nil h
  obtain rfl | ⟨ps, q, rfl⟩ := List.eq_nil_or_concat ps
  · exact ⟨_, by rw [pairs, List.flatMap_nil, List.append_nil, pair_concat]⟩
  · refine ⟨pair special p ++ ((ps.flatMap fun p => ' ' :: pair special p) ++
      ' ' :: (q.1.text ++ '=' :: '"' :: q.2.flatMap (escapeWith special))), ?_⟩
    rw [pairs]
    simp [pair_concat]

/-- Trimming takes the blank off the front of parameters, and at most what is behind them off the
end. -/
theorem trim_pairs (h : ps ≠ []) (t : Text) :
    ∃ t', trim (' ' :: (pairs special ps ++ t)) = pairs special ps ++ t' ∧ (t = [] → t' = []) := by
  obtain ⟨init, hinit⟩ := pairs_concat special h
  obtain ⟨p, ps, rfl⟩ := List.exists_cons_of_ne_nil h
  obtain ⟨ch, name, hname⟩ := List.exists_cons_of_ne_nil p.1.ne_nil
  have hspace := p.1.not_space ch (hname ▸ List.mem_cons_self)
  have hfront : (pairs special (p :: ps) ++ t).dropWhile isWhiteSpace =
      pairs special (p :: ps) ++ t := by
    rw [pairs, pair, hname]
    simp [hspace]
  have hstop : (pairs special (p :: ps)).reverse.dropWhile isWhiteSpace =
      (pairs special (p :: ps)).reverse := by
    rw [hinit, List.reverse_append]
    exact List.dropWhile_cons_of_neg (by decide)
  obtain ⟨kept, hkept, hnil⟩ := dropWhile_append_of_stop t.reverse hstop
  refine ⟨kept.reverse, ?_, fun ht => by rw [hnil (by rw [ht]; rfl)]; rfl⟩
  rw [trim, List.dropWhile_cons_of_pos (by decide), hfront, List.reverse_append, hkept,
    List.reverse_append, List.reverse_reverse]

variable {t : Text}

theorem unescapeBrackets_cons {ch : Char} (h : ch ≠ '\\' ∨ t.head? ≠ some ']') :
    unescapeBrackets (ch :: t) = ch :: unescapeBrackets t := by
  cases t with
  | nil => rfl
  | cons next t =>
      rw [unescapeBrackets, if_neg]
      rintro ⟨rfl, rfl⟩
      exact h.elim (· rfl) (· rfl)

theorem unescapeBrackets_append {s : Text} (hs : ∀ ch ∈ s, ch ≠ ']') (ht : t.head? ≠ some ']') :
    unescapeBrackets (s ++ t) = s ++ unescapeBrackets t := by
  induction s with
  | nil => rfl
  | cons ch s ih =>
      rw [List.forall_mem_cons] at hs
      rw [List.cons_append, unescapeBrackets_cons, ih hs.2]
      · rfl
      · right
        cases s with
        | nil => exact ht
        | cons next s => simpa using hs.2 next List.mem_cons_self

/-- A value escaped for RFC 5424 becomes one escaped for JSON. -/
theorem unescapeBrackets_value (value t : Text) :
    unescapeBrackets (value.flatMap (escapeWith rfcSpecial) ++ '"' :: t) =
      value.flatMap (escapeWith jsonSpecial) ++ '"' :: unescapeBrackets t := by
  have hhead : ∀ value : Text,
      (value.flatMap (escapeWith rfcSpecial) ++ '"' :: t).head? ≠ some ']' := by
    intro value
    cases value with
    | nil => simp
    | cons ch value =>
        rw [List.flatMap_cons, escapeWith]
        split_ifs with hch
        · simp
        · have : ch ≠ ']' := fun h => hch (h ▸ by simp [rfcSpecial])
          simpa using this
  induction value with
  | nil => exact unescapeBrackets_cons (.inl (by decide))
  | cons ch value ih =>
      rw [List.flatMap_cons, List.flatMap_cons, List.append_assoc, List.append_assoc, ← ih]
      have hrest := hhead value
      generalize value.flatMap (escapeWith rfcSpecial) ++ '"' :: t = rest at hrest
      by_cases hspecial : ch ∈ jsonSpecial
      · have hrfc : ch ∈ rfcSpecial := by
          simp only [jsonSpecial, rfcSpecial, List.mem_cons] at hspecial ⊢
          tauto
        have hbracket : ch ≠ ']' := by
          rintro rfl
          simp [jsonSpecial] at hspecial
        rw [escapeWith, escapeWith, if_pos hrfc, if_pos hspecial, List.cons_append,
          unescapeBrackets_cons (.inr (by simpa using hbracket)), List.singleton_append,
          unescapeBrackets_cons (.inr hrest)]
        rfl
      · rw [escapeWith, escapeWith, if_neg hspecial, List.singleton_append]
        split_ifs with hrfc
        · obtain rfl : ch = ']' := by
            simp only [jsonSpecial, rfcSpecial, List.mem_cons] at hspecial hrfc
            tauto
          rfl
        · have hbackslash : ch ≠ '\\' := fun h => hspecial (h ▸ by simp [jsonSpecial])
          rw [List.singleton_append, unescapeBrackets_cons (.inl hbackslash)]

theorem unescapeBrackets_pair (p : SdName × Text) (t : Text) :
    unescapeBrackets (pair rfcSpecial p ++ t) = pair jsonSpecial p ++ unescapeBrackets t := by
  rw [pair_append, pair_append, unescapeBrackets_append (fun ch hch => (p.1.legal ch hch).2.2.2.1)
    (by simp), unescapeBrackets_cons (.inl (by decide)), unescapeBrackets_cons (.inl (by decide)),
    unescapeBrackets_value]

theorem unescapeBrackets_pairs (ps : List (SdName × Text)) (t : Text) :
    unescapeBrackets (pairs rfcSpecial ps ++ t) = pairs jsonSpecial ps ++ unescapeBrackets t := by
  have hmore : ∀ ps : List (SdName × Text),
      unescapeBrackets ((ps.flatMap fun p => ' ' :: pair rfcSpecial p) ++ t) =
        (ps.flatMap fun p => ' ' :: pair jsonSpecial p) ++ unescapeBrackets t := by
    intro ps
    induction ps with
    | nil => rfl
    | cons p ps ih =>
        rw [List.flatMap_cons, List.flatMap_cons, List.append_assoc, List.append_assoc,
          List.cons_append, unescapeBrackets_cons (.inl (by decide)), unescapeBrackets_pair, ih]
        rfl
  cases ps with
  | nil => rfl
  | cons p ps => rw [pairs, pairs, List.append_assoc, List.append_assoc, unescapeBrackets_pair, hmore]

/-- Fields that are not the first ones of others, whatever is put behind both. -/
def Deviates (fields expected : List SyslogField) : Prop :=
  ∀ s t, fields ++ s ≠ expected ++ t

theorem Deviates.cons {fields expected : List SyslogField} (h : Deviates fields expected)
    (field : SyslogField) : Deviates (field :: fields) (field :: expected) :=
  fun s t heq => h s t (List.cons.inj heq).2

theorem addStructuredField_name (id name : SdName) (value : Text) :
    addStructuredField id.text (trim name.text) value = [(id.text ++ '.' :: name.text, value)] := by
  rw [trim_eq_self name.not_space, addStructuredField, if_neg (by simp [name.ne_nil]),
    if_neg (by simp [id.ne_nil])]

section

variable (id : SdName)

theorem readPairs_plain (hne : ps ≠ []) (h : ∀ p ∈ ps, PlainValue p.2) (hfuel : ps.length ≤ fuel) :
    readPairs (decodeQuotedPrefix json) (fun name => addStructuredField id.text (trim name)) fuel
        (pairs jsonSpecial ps) = ps.map fun p => (id.text ++ '.' :: p.1.text, p.2) := by
  induction ps generalizing fuel with
  | nil => exact absurd rfl hne
  | cons p ps ih =>
      obtain ⟨fuel, rfl⟩ := Nat.exists_eq_succ_of_ne_zero (Nat.ne_of_gt (Nat.zero_lt_of_lt hfuel))
      rw [List.forall_mem_cons] at h
      rw [pairs, pair_append, Nat.succ_eq_add_one, readPairs_quoted p.1.apart fuel
        (decodeQuotedPrefix_plain h.1 _) (List.cons_ne_nil _ _), addStructuredField_name]
      cases ps with
      | nil => rfl
      | cons q ps =>
          rw [blank_pairs _ (List.cons_ne_nil q ps), behindBlank,
            ih (List.cons_ne_nil _ _) h.2 (Nat.le_of_succ_le_succ hfuel)]
          rfl

/-- Of others, the first that is not plain is read with another value. -/
theorem readPairs_mistaken (h : ∃ p ∈ ps, ¬PlainValue p.2) (hfuel : ps.length ≤ fuel) (t : Text) :
    Deviates
      (readPairs (decodeQuotedPrefix json) (fun name => addStructuredField id.text (trim name)) fuel
        (pairs jsonSpecial ps ++ t))
      (ps.map fun p => (id.text ++ '.' :: p.1.text, p.2)) := by
  induction ps generalizing fuel with
  | nil => simp at h
  | cons p ps ih =>
      obtain ⟨fuel, rfl⟩ := Nat.exists_eq_succ_of_ne_zero (Nat.ne_of_gt (Nat.zero_lt_of_lt hfuel))
      rw [pairs, List.append_assoc, pair_append, Nat.succ_eq_add_one]
      by_cases hp : PlainValue p.2
      · obtain ⟨q, hq, hbad⟩ := h
        obtain rfl | hq := List.mem_cons.mp hq
        · exact absurd hp hbad
        · rw [readPairs_quoted p.1.apart fuel (decodeQuotedPrefix_plain hp _) (List.cons_ne_nil _ _),
            addStructuredField_name, blank_pairs _ (List.ne_nil_of_mem hq)]
          exact (ih ⟨q, hq, hbad⟩ (Nat.le_of_succ_le_succ hfuel)).cons _
      · obtain ⟨more, hmore⟩ := @readPairs_bare _ (fun name => addStructuredField id.text (trim name))
          _ _ p.1.apart fuel
          (decodeQuotedPrefix_mistaken hp ((ps.flatMap fun p => ' ' :: pair jsonSpecial p) ++ t))
          (List.cons_ne_nil _ _)
        rw [hmore, addStructuredField_name]
        intro s t' heq
        exact takeWhile_escaped_ne _ _ _ (Prod.mk.inj (List.cons.inj heq).1).2

end

/-! ### Lines of elements -/

/-- What is done with an element: its id is found, and then it is scanned. -/
theorem structuredLine_render (e : Element) (t : Text) :
    structuredLine json (e.render ++ t) =
      let body := (e.parameters.flatMap fun p => ' ' :: pair rfcSpecial p) ++ ']' :: t
      match scanParameters (body.length + 1) [] body with
      | none => ([], none)
      | some (scanned, tail) =>
          (parseStructuredParameters json e.id.text (unescapeBrackets (trim scanned)), some tail) := by
  obtain ⟨ch, tail, hbody, hch⟩ : ∃ ch tail,
      (e.parameters.flatMap fun p => ' ' :: pair rfcSpecial p) ++ ']' :: t = ch :: tail ∧
        (ch = ' ' ∨ ch = ']') := by
    cases e.parameters with
    | nil => exact ⟨']', t, rfl, .inr rfl⟩
    | cons p ps => exact ⟨' ', _, rfl, .inl rfl⟩
  have hid : ∀ ch ∈ e.id.text, (decide (ch ≠ ' ') && decide (ch ≠ ']')) = true := by
    intro ch hch
    simp [(e.id.apart ch hch).2, (e.id.legal ch hch).2.2.2.1]
  have hequals : e.id.text.dropWhile (· ≠ '=') = [] := by
    rw [List.dropWhile_eq_nil_iff]
    intro ch hch
    simpa using (e.id.apart ch hch).1
  have htake : (e.id.text ++ ch :: tail).takeWhile (fun ch => ch ≠ ' ' && ch ≠ ']') = e.id.text := by
    rw [List.takeWhile_append_of_pos hid]
    obtain rfl | rfl := hch <;> simp
  have hdrop : (e.id.text ++ ch :: tail).dropWhile (fun ch => ch ≠ ' ' && ch ≠ ']') =
      ch :: tail := by
    rw [List.dropWhile_append_of_pos hid]
    obtain rfl | rfl := hch <;> simp
  have hrender : e.render ++ t = '[' :: (e.id.text ++ ch :: tail) := by
    rw [← hbody]
    simp [Element.render]
  rw [hrender, hbody, structuredLine, htake, hdrop, hequals]
  dsimp only
  cases scanParameters ((ch :: tail).length + 1) [] (ch :: tail) <;> rfl

theorem length_le_pairs (ps : List (SdName × Text)) :
    ps.length ≤ (pairs special ps).length := by
  cases ps with
  | nil => exact Nat.le_refl _
  | cons p ps =>
      have hmore : ps.length ≤ (ps.flatMap fun p => ' ' :: pair special p).length :=
        length_le_flatMap (fun _ => List.cons_ne_nil _ _) ps
      have hone : 1 ≤ (pair special p).length := by
        rw [pair_concat, List.length_append]
        exact Nat.le_add_left _ _
      rw [pairs, List.length_append, List.length_cons]
      omega

theorem structuredLine_plain {e : Element} (h : ∀ p ∈ e.parameters, PlainValue p.2) (t : Text) :
    structuredLine json (e.render ++ t) = (e.fields, some t) := by
  rw [structuredLine_render]
  dsimp only
  rw [scanParameters_plain (fun p hp => (h p hp).last) (fuel_elements _ _) rfl, List.nil_append]
  dsimp only
  rw [Element.fields]
  by_cases hne : e.parameters = []
  · have hnil : trim [] = [] := rfl
    simp [hne, hnil, unescapeBrackets, parseStructuredParameters, readPairs, addStructuredField,
      e.id.ne_nil]
  · obtain ⟨t', htrim, hnil⟩ := trim_pairs rfcSpecial hne []
    rw [List.append_nil, hnil rfl] at htrim
    rw [blank_pairs _ hne, htrim, unescapeBrackets_pairs, parseStructuredParameters,
      unescapeBrackets, List.append_nil, if_neg (by simpa using hne),
      readPairs_plain e.id hne h (Nat.le_succ_of_le (length_le_pairs jsonSpecial _))]

/-- What is scanned of parameters of which one is not plain is read as other fields. -/
theorem parseStructuredParameters_mistaken (json : JsonStrings) (id : SdName)
    (h : ∃ p ∈ ps, ¬PlainValue p.2)
    (more : Text) :
    Deviates
      (parseStructuredParameters json id.text
        (unescapeBrackets (trim ((ps.flatMap fun p => ' ' :: pair rfcSpecial p) ++ more))))
      (ps.map fun p => (id.text ++ '.' :: p.1.text, p.2)) := by
  have hne : ps ≠ [] := by
    obtain ⟨p, hp, -⟩ := h
    exact List.ne_nil_of_mem hp
  obtain ⟨t, htrim, -⟩ := trim_pairs rfcSpecial hne more
  rw [blank_pairs _ hne, List.cons_append, htrim, unescapeBrackets_pairs, parseStructuredParameters]
  refine readPairs_mistaken id h ?_ _
  have := length_le_pairs jsonSpecial ps
  rw [List.length_append]
  omega

/-- An element that is not plain is not found, or its fields are others. -/
theorem structuredLine_mistaken {e : Element} (h : ∃ p ∈ e.parameters, ¬PlainValue p.2) (t : Text) :
    structuredLine json (e.render ++ t) = ([], none) ∨
      ∃ fields tail, structuredLine json (e.render ++ t) = (fields, some tail) ∧
        Deviates fields e.fields := by
  have hfields : e.fields = e.parameters.map fun p => (e.id.text ++ '.' :: p.1.text, p.2) := by
    obtain ⟨p, hp, -⟩ := h
    exact if_neg (by simpa using List.ne_nil_of_mem hp)
  rw [structuredLine_render]
  dsimp only
  by_cases hlast : ∃ p ∈ e.parameters, p.2.getLast? = some '\\'
  · cases hscan : scanParameters _ []
        ((e.parameters.flatMap fun p => ' ' :: pair rfcSpecial p) ++ ']' :: t) with
    | none => exact .inl rfl
    | some r =>
        -- the scan has gone past the value
        obtain ⟨scanned, tail⟩ := r
        obtain ⟨ps, more, ⟨rest, hrest⟩, ⟨p, hp, hplast⟩, rfl⟩ := scanParameters_mistaken hlast hscan
        refine .inr ⟨_, tail, rfl, fun s t heq => ?_⟩
        rw [List.nil_append, hfields, ← hrest, List.map_append, List.append_assoc] at heq
        exact parseStructuredParameters_mistaken json e.id ⟨p, hp, fun hplain => hplain.last hplast⟩ more
          _ _ heq
  · have hplain := scanParameters_plain (fun p hp hp' => hlast ⟨p, hp, hp'⟩)
      (fuel_elements e.parameters t) (show isBackslashEscaped [] = false from rfl) t
    have hdeviates := parseStructuredParameters_mistaken json e.id h []
    rw [List.append_nil] at hdeviates
    rw [hplain, hfields]
    exact .inr ⟨_, t, rfl, hdeviates⟩

theorem structuredLines_some {source tail : Text} {fields : List SyslogField} (fuel : Nat)
    (h : structuredLine json source = (fields, some tail)) :
    ∃ more rest, structuredLines json (fuel + 1) source = (fields ++ more, rest) := by
  rw [structuredLines, h]
  split
  · rename_i heq
    cases (Prod.mk.inj heq).2
  · rename_i heq
    obtain ⟨rfl, -⟩ := Prod.mk.inj heq
    exact ⟨[], _, by rw [List.append_nil]⟩
  · rename_i heq
    obtain ⟨rfl, -⟩ := Prod.mk.inj heq
    exact ⟨_, _, rfl⟩

/-- **Elements.** They are read one after the other, with what is behind them, exactly if all are
plain. -/
theorem structuredLines_iff {parse : Text → List SyslogField} {message : Text}
    (hparse : parse message ≠ []) {es : List Element} (hne : es ≠ []) (hfuel : es.length ≤ fuel) :
    andThen (structuredLines json fuel (es.flatMap Element.render ++ ' ' :: message)) parse =
        es.flatMap Element.fields ++ parse message ↔
      ∀ e ∈ es, ∀ p ∈ e.parameters, PlainValue p.2 := by
  induction es generalizing fuel with
  | nil => exact absurd rfl hne
  | cons e es ih =>
      obtain ⟨fuel, rfl⟩ := Nat.exists_eq_succ_of_ne_zero (Nat.ne_of_gt (Nat.zero_lt_of_lt hfuel))
      rw [List.flatMap_cons, List.flatMap_cons, List.append_assoc, List.append_assoc,
        List.forall_mem_cons, Nat.succ_eq_add_one]
      by_cases hplain : ∀ p ∈ e.parameters, PlainValue p.2
      · rw [structuredLines, structuredLine_plain hplain, and_iff_right hplain]
        cases es with
        | nil => simp [andThen]
        | cons e' es =>
            rw [← ih (List.cons_ne_nil _ _) (Nat.le_of_succ_le_succ hfuel)]
            obtain ⟨tail, htail⟩ : ∃ tail,
                (e' :: es).flatMap Element.render ++ ' ' :: message = '[' :: tail := ⟨_, rfl⟩
            rw [htail]
            change (e.fields ++ (structuredLines json fuel ('[' :: tail)).1) ++ _ = _ ↔ _
            rw [List.append_assoc, List.append_cancel_left_eq]
            rfl
      · refine iff_of_false ?_ (fun h => hplain h.1)
        have hbad : ∃ p ∈ e.parameters, ¬PlainValue p.2 := by simpa using hplain
        obtain hnone | ⟨fields, tail, hline, hdeviates⟩ := structuredLine_mistaken hbad
          (es.flatMap Element.render ++ ' ' :: message)
        · rw [structuredLines, hnone]
          simp [andThen, hparse]
        · obtain ⟨more, rest, hlines⟩ := structuredLines_some fuel hline
          rw [hlines, andThen, List.append_assoc]
          exact hdeviates _ _

/-! ### Records -/

/-- Header fields are read up to the blank behind each. -/
theorem headerFields_render {names : List String} {fs : List HeaderField}
    (h : names.length = fs.length) (t : Text) :
    headerFields names ((fs.flatMap fun f => f.text ++ [' ']) ++ t) =
      (names.zipWith (fun name f => (name.toList, f.text)) fs, some t) := by
  induction names generalizing fs with
  | nil =>
      obtain rfl := List.length_eq_zero_iff.mp h.symm
      rfl
  | cons name names ih =>
      cases fs with
      | nil => cases h
      | cons f fs =>
          have hblank : ∀ ch ∈ f.text, decide (ch ≠ ' ') = true := by
            intro ch hch
            simpa using f.no_blank ch hch
          rw [List.flatMap_cons, List.append_assoc, List.append_assoc, List.singleton_append,
            headerFields, List.takeWhile_append_of_pos hblank, List.dropWhile_append_of_pos hblank]
          have ih := ih (Nat.succ.inj h)
          simp [ih]

theorem addMessage_record (r : SyslogRecord) :
    addMessage formats r.message = [("message".toList, r.message)] := by
  rw [addMessage, r.no_cef, r.no_cee]
  rfl

theorem structuredData_iff (json : JsonStrings) (formats : SyslogFormats) (r : SyslogRecord) :
    andThen (structuredData json ((if r.elements.isEmpty then ['-']
        else r.elements.flatMap Element.render) ++ ' ' :: r.message)) (addMessage formats) =
        r.elements.flatMap Element.fields ++ [("message".toList, r.message)] ↔ r.Plain := by
  rw [← addMessage_record formats]
  by_cases hne : r.elements = []
  · simp [hne, SyslogRecord.Plain, structuredData, andThen]
  · obtain ⟨tail, htail⟩ : ∃ tail, r.elements.flatMap Element.render = '[' :: tail := by
      obtain ⟨e, es, hes⟩ := List.exists_cons_of_ne_nil hne
      rw [hes]
      exact ⟨_, rfl⟩
    have hlong : r.elements.length ≤ (r.elements.flatMap Element.render).length :=
      length_le_flatMap (fun _ => List.cons_ne_nil _ _) _
    have hmessage : addMessage formats r.message ≠ [] := by simp [addMessage_record]
    rw [if_neg (by simpa using hne), structuredData, if_neg (by simp [htail]),
      if_neg (by simp [htail])]
    exact structuredLines_iff hmessage hne (by rw [List.length_append]; omega)

/-- **RFC 5424.** A rendered record is parsed to its fields exactly if it is plain. -/
theorem parse_render_iff (json : JsonStrings) (formats : SyslogFormats) (r : SyslogRecord) :
    parseSyslog json formats r.render = r.fields ↔ r.Plain := by
  have hpriority : ∀ ch ∈ decimal r.priority.toNat, decide (ch ≠ '>') = true := by
    intro ch hch
    rw [decide_eq_true_eq]
    rintro rfl
    exact decimal_not_mem (by decide) hch
  rw [← structuredData_iff json formats r, SyslogRecord.render, parseSyslog,
    List.takeWhile_append_of_pos hpriority, List.dropWhile_append_of_pos hpriority]
  rw [List.takeWhile_cons_of_neg (by decide), List.dropWhile_cons_of_neg (by decide),
    List.append_nil, parseU64_decimal]
  dsimp only
  generalize (if r.elements.isEmpty then ['-'] else r.elements.flatMap Element.render) ++
    ' ' :: r.message = body
  have hheader := headerFields_render
    (show ["timestamp", "hostname", "app_name", "proc_id", "msg_id"].length = r.header.length
      from rfl) body
  have hne : (r.header.flatMap fun f => f.text ++ [' ']) ++ body ≠ [] := by
    simp [SyslogRecord.header]
  rw [parseNoHeader, if_neg (by simp), if_pos (by simp)]
  change _ :: (_ ++ parseRfc5424 json formats ((r.header.flatMap fun f => f.text ++ [' ']) ++ body)) = _ ↔ _
  rw [parseRfc5424, if_neg (by simpa using hne), hheader, SyslogRecord.fields]
  simp [andThen, SyslogRecord.header]

/-- A header field that is not given. -/
def nilValue : HeaderField :=
  ⟨['-'], by decide, List.all_iff_forall_prop.mp (by decide +kernel)⟩

def letterName (letter : Char) (h : ([letter].all fun ch => 33 ≤ ch.toNat ∧ ch.toNat ≤ 126 ∧
    ch ≠ '=' ∧ ch ≠ ']' ∧ ch ≠ '"') = true) : SdName :=
  ⟨[letter], List.cons_ne_nil _ _, List.all_iff_forall_prop.mp h⟩

/-- A record with one element, whose only value is given. -/
def oneValue (value : Text) : SyslogRecord where
  priority := 34
  timestamp := nilValue
  hostname := nilValue
  appName := nilValue
  procId := nilValue
  msgId := nilValue
  elements := [⟨letterName 'i' (by decide +kernel), [(letterName 'a' (by decide +kernel), value)]⟩]
  message := "hi".toList
  no_cef := rfl
  no_cee := rfl

/-- What is behind the opening quote, if nothing but quotes and backslashes is escaped. -/
def readEscaped : Text → Option Text
  | [] => none
  | [ch] => if ch = '"' then some [] else none
  | ch :: next :: t =>
      if ch = '\\' then
        if next ∈ jsonSpecial then (readEscaped t).map (next :: ·) else none
      else if ch = '"' ∨ ch.toNat < 0x20 then none
      else (readEscaped (next :: t)).map (ch :: ·)

theorem readEscaped_char (ch : Char) (ht : t ≠ []) :
    readEscaped (escapeWith jsonSpecial ch ++ t) =
      if ch.toNat < 0x20 then none else (readEscaped t).map (ch :: ·) := by
  obtain ⟨next, t, rfl⟩ := List.exists_cons_of_ne_nil ht
  by_cases hspecial : ch ∈ jsonSpecial
  · rw [escapeWith, if_pos hspecial]
    obtain rfl | rfl : ch = '"' ∨ ch = '\\' := by simpa [jsonSpecial] using hspecial
    · rfl
    · rfl
  · obtain ⟨hquote, hbackslash⟩ : ch ≠ '"' ∧ ch ≠ '\\' := by simpa [jsonSpecial] using hspecial
    rw [escapeWith, if_neg hspecial, List.singleton_append, readEscaped, if_neg hbackslash]
    simp [hquote]

theorem readEscaped_quoted (value t : Text) :
    readEscaped (value.flatMap (escapeWith jsonSpecial) ++ '"' :: t) =
      if value.all (0x20 ≤ ·.toNat) && t.isEmpty then some value else none := by
  induction value with
  | nil => cases t <;> simp [readEscaped]
  | cons ch value ih =>
      rw [List.flatMap_cons, List.append_assoc, readEscaped_char ch (by simp), ih, List.all_cons]
      by_cases hch : ch.toNat < 0x20
      · rw [if_pos hch, decide_eq_false (by omega), Bool.false_and, Bool.false_and,
          if_neg Bool.false_ne_true]
      · rw [if_neg hch, decide_eq_true (by omega), Bool.true_and]
        split_ifs <;> rfl

/-- Strings of which nothing but quotes and backslashes is escaped. -/
def quotedStrings : JsonStrings where
  fromStr t := readEscaped t.tail
  reads_quoted value h := by
    rw [jsonQuoted, List.tail_cons, readEscaped_quoted, List.all_eq_true.mpr (by simpa using h)]
    rfl
  refuses_control value h := by
    rw [jsonQuoted, List.tail_cons, readEscaped_quoted, if_neg]
    simpa using h
  refuses_trailing value t h := by
    rw [jsonQuoted, List.cons_append, List.tail_cons, List.append_assoc, List.singleton_append,
      readEscaped_quoted]
    cases t with
    | nil => cases h
    | cons ch t => rw [List.isEmpty_cons, Bool.and_false, if_neg Bool.false_ne_true]

/-- A value with all three escaped characters. -/
theorem parse_render_iff_escaped :
    parseSyslog quotedStrings ⟨fun _ => [], fun _ => none, fun _ => none⟩
        (oneValue "say \"\\[x]\" twice".toList).render =
      (oneValue "say \"\\[x]\" twice".toList).fields := by
  refine (parse_render_iff quotedStrings _ _).mpr ?_
  rw [SyslogRecord.Plain]
  refine List.forall_mem_singleton.mpr (List.forall_mem_singleton.mpr ⟨by decide, ?_⟩)
  exact List.all_iff_forall_prop.mp (by decide +kernel)

/-- Behind a value that ends in a backslash nothing is found. -/
theorem parse_loses_message :
    (oneValue ['\\']).render = "<34>1 - - - - - [i a=\"\\\\\"] hi".toList ∧
      parseSyslog quotedStrings ⟨fun _ => [], fun _ => none, fun _ => none⟩
        (oneValue ['\\']).render = ((oneValue ['\\']).fields).take 11 := by
  decide +kernel

end Timeless.LogsQL
