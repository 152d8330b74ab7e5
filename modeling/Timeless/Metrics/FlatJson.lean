import Timeless.Blocks.Metadata
import Timeless.Support.Outcome

/-!
# FlatJson — label sets as flat JSON objects

The labels of a series are written as a JSON object whose values are strings. The parser walks the
bytes of the text; it takes no other values, no surrogate pairs, and of several values of a label the
last one.
-/

namespace Timeless.Metrics

open Support Blocks

/-- A map of labels, as its entries in key order. -/
abbrev Labels := List (Text × Text)

/-- A byte as a character of an error message. -/
def byteChar (b : UInt8) : Char :=
  Char.ofNat b.toNat

/-- A number in hexadecimal. -/
def hex (width n : Nat) : String :=
  let digits := Nat.toDigits 16 n
  String.ofList (List.replicate (width - digits.length) '0' ++ digits)

def isJsonSpace (b : UInt8) : Bool :=
  b == 32 || b == 9 || b == 10 || b == 13

def skipWs (bs : List UInt8) : List UInt8 :=
  bs.dropWhile isJsonSpace

def expect (want : UInt8) : List UInt8 → Except String (List UInt8)
  | [] =>
      let wanted := byteChar want
      .error s!"labels JSON: expected '{wanted}', found end of input"
  | b :: rest =>
      let wanted := byteChar want
      let found := byteChar b
      if b = want then .ok rest else .error s!"labels JSON: expected '{wanted}', found '{found}'"

/-! ### Strings -/

def unterminatedString : String := "labels JSON: unterminated string"

/-- Bytes of a string without escapes. -/
def rawText (raw : List UInt8) : Except String Text :=
  okOr (fromUtf8 raw) "labels JSON: invalid UTF-8 in string"

/-- The character of a one-letter escape. -/
def simpleEscape (b : UInt8) : Option Char :=
  match byteChar b with
  | '"' => some '"'
  | '\\' => some '\\'
  | '/' => some '/'
  | 'b' => some '\x08'
  | 'f' => some '\x0c'
  | 'n' => some '\n'
  | 'r' => some '\r'
  | 't' => some '\t'
  | _ => none

/-- The value of a character as a digit. -/
def digitValue (radix : Nat) (ch : Char) : Option Nat :=
  let n := ch.toNat
  let value :=
    if 48 ≤ n ∧ n ≤ 57 then some (n - 48)
    else if 97 ≤ n ∧ n ≤ 122 then some (n - 87)
    else if 65 ≤ n ∧ n ≤ 90 then some (n - 55)
    else none
  value.filter (· < radix)

def hexValue (b : UInt8) : Option Nat :=
  digitValue 16 (byteChar b)

/-- The character of four hexadecimal digits. -/
def unicodeEscape (a b c d : UInt8) : Except String Char := do
  let digits ← okOr ([a, b, c, d].mapM hexValue) "labels JSON: \\u needs 4 hex digits"
  let code := digits.foldl (fun code d => code * 16 + d) 0
  if h : code.isValidChar then return Char.ofNatAux code h
  else
    let shown := hex 4 code
    throw (s!"labels JSON: \\u{shown} is a surrogate half; surrogate pairs unsupported, use literal" ++
      " UTF-8")

/-- The rest of a string with escapes, behind the text and the bytes that have been read. -/
def decodeEscaped (out : Text) (raw : List UInt8) :
    List UInt8 → Except String (Text × List UInt8)
  | [] => do
      let _ ← rawText raw
      throw unterminatedString
  | b :: rest =>
      if b = 34 then do
        let s ← rawText raw
        return (out ++ s, rest)
      else if b = 92 then
        match rest with
        | [] => do
            let _ ← rawText raw
            throw "labels JSON: unterminated escape"
        | e :: rest =>
            if e = 117 then
              match rest with
              | h₁ :: h₂ :: h₃ :: h₄ :: rest => do
                  let s ← rawText raw
                  let ch ← unicodeEscape h₁ h₂ h₃ h₄
                  decodeEscaped (out ++ s ++ [ch]) [] rest
              | _ => do
                  let _ ← rawText raw
                  throw "labels JSON: \\u needs 4 hex digits"
            else do
              let s ← rawText raw
              let shown := byteChar e
              let ch ← okOr (simpleEscape e) s!"labels JSON: bad escape '\\{shown}'"
              decodeEscaped (out ++ s ++ [ch]) [] rest
      else decodeEscaped out (raw ++ [b]) rest

def parseString (bs : List UInt8) : Except String (Text × List UInt8) := do
  let bs ← expect 34 bs
  let raw := bs.takeWhile fun b => b ≠ 34 ∧ b ≠ 92
  match bs.drop raw.length with
  | [] => throw unterminatedString
  | b :: rest =>
      if b = 34 then do
        let s ← rawText raw
        return (s, rest)
      else do
        let head ← rawText raw
        decodeEscaped head [] (b :: rest)

/-! ### Objects -/

/-- The value of a label. -/
def parseValue (key : Text) (bs : List UInt8) : Except String (Text × List UInt8) :=
  let shown := shownKey key
  match bs with
  | [] => .error "labels JSON: unexpected end of input"
  | b :: _ =>
      let found := byteChar b
      if b = 34 then parseString bs
      else if b = 123 ∨ b = 91 then
        .error (s!"labels must be a FLAT JSON object of string values; found nested '{found}' at key " ++
          s!"{shown}")
      else
        .error (s!"labels values must be JSON strings; found '{found}' at key {shown} " ++
          "(numbers/booleans/null are not supported)")

/-- One member of an object, and whether another one follows. -/
def parseMember (out : Labels) (bs : List UInt8) : Except String (Labels × Bool × List UInt8) := do
  let (key, bs) ← parseString (skipWs bs)
  let bs ← expect 58 (skipWs bs)
  let (value, bs) ← parseValue key (skipWs bs)
  let out := OrdMap.insert textLt key value out
  match skipWs bs with
  | [] => throw "labels JSON: unexpected end of input"
  | b :: bs =>
      let found := byteChar b
      if b = 44 then return (out, true, bs)
      else if b = 125 then return (out, false, bs)
      else throw s!"labels JSON: expected ',' or '\x7d', found '{found}'"

/-- The members of an object; at most as many as there are bytes. -/
def parseMembers : Nat → Labels → List UInt8 → Except String (Labels × List UInt8)
  | 0, _, _ => .error "labels JSON: expected '\"', found end of input"
  | n + 1, out, bs => do
      let (out, more, bs) ← parseMember out bs
      if more then parseMembers n out bs else return (out, bs)

/-- A flat JSON object of strings. -/
def parseLabelsJson (input : Text) : Except String Labels := do
  let bs ← expect 123 (skipWs (utf8 input))
  let bs := skipWs bs
  let (out, bs) ← if bs.head? = some 125 then pure ([], bs.tail) else parseMembers bs.length [] bs
  rejectIf (skipWs bs ≠ []) "labels JSON: trailing characters after object"
  return out

theorem expect_eq_ok {want : UInt8} {bs rest : List UInt8} :
    expect want bs = .ok rest ↔ bs = want :: rest := by
  cases bs with
  | nil => exact ⟨fun h => (by cases h), fun h => (by cases h)⟩
  | cons b bs =>
      rw [expect]
      by_cases h : b = want
      · rw [if_pos h, Except.ok.injEq, List.cons.injEq, and_iff_right h]
      · rw [if_neg h, List.cons.injEq]
        exact ⟨fun h' => (by cases h'), fun h' => absurd h'.1 h⟩

end Timeless.Metrics
