import Mathlib.Data.List.DropRight
import Timeless.Blocks.Entry
import Timeless.Support.Search

/-!
# Template — message columns as templates and variables

`blocks/template.rs` splits a message such as `user 4821 logged in` into a template with
placeholders and the values that fill them. A number that fits is kept as its width and value, any
other variable as its text. Templates are stored once per block, and the variables of a block in
columns ordered by template and slot.

Two ways of splitting are tried and the smaller column is kept: *digit runs*, where the runs of
digits inside a token are the variables, and *whole tokens*, where a token that holds a digit is
one variable.

Because every digit of a message ends up in a variable, the column can prove that no message holds
a given text without rendering one: `columnMayContain` answers `false` only as such a proof.
This module is the model of that file; what the answers mean is proved in the modules after it.
-/

namespace Timeless.Blocks

open Support Codec

/-! ### Bytes -/

def isAsciiDigit (b : UInt8) : Bool :=
  48 ≤ b.toNat && b.toNat ≤ 57

def isAsciiAlphabetic (b : UInt8) : Bool :=
  (65 ≤ b.toNat && b.toNat ≤ 90) || (97 ≤ b.toNat && b.toNat ≤ 122)

def isAsciiHexdigit (b : UInt8) : Bool :=
  isAsciiDigit b || (65 ≤ b.toNat && b.toNat ≤ 70) || (97 ≤ b.toNat && b.toNat ≤ 102)

/-- Bytes that can be part of a variable token: alphanumerics and `_ . : - + / @`. -/
def isTokenByte (b : UInt8) : Bool :=
  isAsciiDigit b || isAsciiAlphabetic b || [95, 46, 58, 45, 43, 47, 64].contains b.toNat

/-- Pure hexadecimal runs and UUIDs, whose digits and letters differ from one to the next. -/
def isHexLike (tok : List UInt8) : Bool :=
  let body := if [48, 120].isPrefixOf tok then tok.drop 2 else tok
  let groups := tok.splitOn 45
  (4 ≤ body.length && body.all isAsciiHexdigit && body.any isAsciiAlphabetic) ||
    (4 ≤ tok.length && [48, 120].isPrefixOf tok) ||
    (groups.length == 5 &&
      ([8, 4, 4, 4, 12].zip groups).all fun g => g.2.length == g.1 && g.2.all isAsciiHexdigit)

/-- The number a string of decimal digits stands for. -/
def parseDigits (s : List UInt8) : Option Nat :=
  if s.isEmpty || !s.all isAsciiDigit then none
  else some (s.foldl (fun n b => n * 10 + (b.toNat - 48)) 0)

/-- `str::parse::<i64>`: an optional sign and decimal digits, within range. -/
def parseI64 (s : List UInt8) : Option Int64 :=
  match s with
  | 45 :: ds => (parseDigits ds).bind fun n =>
      if n ≤ 2 ^ 63 then some (Int64.ofInt (-n)) else none
  | 43 :: ds => (parseDigits ds).bind fun n =>
      if n < 2 ^ 63 then some (Int64.ofNat n) else none
  | ds => (parseDigits ds).bind fun n =>
      if n < 2 ^ 63 then some (Int64.ofNat n) else none

/-- A digit run rides the number columns if its width fits a byte and its value an `i64`. -/
def numRunOk (run : List UInt8) : Bool :=
  run.length ≤ 255 && (parseI64 run).isSome

/-! ### Splitting a message -/

/-- Digits, or another token. -/
inductive VarKind where
  | num
  | str
  deriving DecidableEq

/-- A piece of a message that a template leaves out. -/
structure Var where
  kind : VarKind
  text : Text
  deriving DecidableEq

/-- The placeholder mark inside templates; as message text it is doubled. -/
def sentinel : Char := Char.ofNat 0x11

/-- The mark of a kind in a template. -/
def kindTag : VarKind → Char
  | .num => 'd'
  | .str => 's'

/-- Leave a piece out of the template. -/
def pushVar (acc : Text × List Var) (kind : VarKind) (text : Text) : Text × List Var :=
  (acc.1 ++ [sentinel, kindTag kind], acc.2 ++ [⟨kind, text⟩])

/-- Digits that the number columns can hold are a number. -/
def runKind (run : Text) : VarKind :=
  if numRunOk (utf8 run) then .num else .str

def digitChar (c : Char) : Bool :=
  isAsciiDigit (lead c)

def tokenChar (c : Char) : Bool :=
  isTokenByte (lead c)

/-- One digit run or one other byte of a token, in digit-run mode. -/
def tokenizeRun (acc : Text × List Var) (piece : Text) : Text × List Var :=
  if piece.any digitChar then pushVar acc (runKind piece) piece
  else (acc.1 ++ piece, acc.2)

/-- What a maximal run of token bytes adds to the template and the variables. -/
def tokenizeToken (splitRuns : Bool) (acc : Text × List Var) (tok : Text) : Text × List Var :=
  if !(utf8 tok).any isAsciiDigit then (acc.1 ++ tok, acc.2)
  else if isHexLike (utf8 tok) || (!splitRuns && !(utf8 tok).all isAsciiDigit) then
    pushVar acc .str tok
  else if !splitRuns then pushVar acc (runKind tok) tok
  else (tok.splitBy fun a b => digitChar a && digitChar b).foldl tokenizeRun acc

/-- A maximal run of token bytes, or one other character: a sentinel is doubled, anything else is
template text. -/
def tokenizePiece (splitRuns : Bool) (acc : Text × List Var) (piece : Text) : Text × List Var :=
  if piece = [sentinel] then (acc.1 ++ [sentinel, sentinel], acc.2)
  else if piece.any tokenChar then tokenizeToken splitRuns acc piece
  else (acc.1 ++ piece, acc.2)

/-- The maximal runs of token bytes of a message, and its other characters one by one. -/
def pieces (msg : Text) : List Text :=
  msg.splitBy fun a b => tokenChar a && tokenChar b

/-- The template of a message and what it leaves out. -/
def tokenize (msg : Text) (splitRuns : Bool) : Text × List Var :=
  (pieces msg).foldl (tokenizePiece splitRuns) ([], [])

/-! ### Encoding a column -/

/-- Templates, the template of each message and what they leave out. -/
structure Tokenized where
  ids : List Nat
  dict : List Text
  msgVars : List (List Var)

/-- One more message: its template's id, first seen first, and its variables. -/
def tokenizeMsg (splitRuns : Bool) (tk : Tokenized) (msg : Text) : Tokenized :=
  let (template, vars) := tokenize msg splitRuns
  match tk.dict.idxOf? template with
  | some id => ⟨tk.ids ++ [id], tk.dict, tk.msgVars ++ [vars]⟩
  | none => ⟨tk.ids ++ [tk.dict.length], tk.dict ++ [template], tk.msgVars ++ [vars]⟩

/-- The templates of a block. -/
def tokenizeBlock (msgs : List Text) (splitRuns : Bool) : Tokenized :=
  msgs.foldl (tokenizeMsg splitRuns) ⟨[], [], []⟩

/-- The order of `(template, slot)` keys. -/
def slotLt (a b : Nat × Nat) : Bool :=
  a.1 < b.1 || (a.1 == b.1 && a.2 < b.2)

/-- The variables of a block under their template and slot. -/
def varGroups (tk : Tokenized) : List ((Nat × Nat) × List Var) :=
  (tk.ids.zip tk.msgVars).foldl
    (fun groups m => m.2.zipIdx.foldl
      (fun groups v => OrdMap.push slotLt (m.1, v.2) v.1 groups) groups) []

/-- The variables in the order their columns store them. -/
def orderedVars (tk : Tokenized) : List Var :=
  (varGroups tk).flatMap Prod.snd

/-- Widths and values of the number variables. -/
def numColumns : List Var → Except String (List (UInt8 × Int64))
  | [] => .ok []
  | v :: vs =>
      match v.kind with
      | .num => do
          let value ← okOr (parseI64 (utf8 v.text))
            "template column: internal error: unparseable num var"
          return (UInt8.ofNat (utf8 v.text).length, value) :: (← numColumns vs)
      | .str => numColumns vs

/-- Texts of the other variables. -/
def strColumn (vs : List Var) : List Text :=
  (vs.filter fun v => v.kind = .str).map Var.text

variable (c : Compressors)

/-- The template column in one of its two modes. -/
def encodeMode (msgs : List Text) (splitRuns : Bool) (level : Int) :
    Except String (List UInt8) := do
  let tk := tokenizeBlock msgs splitRuns
  let nums ← numColumns (orderedVars tk)
  let strs := strColumn (orderedVars tk)
  let idsCol ← (← encodeI64 c (tk.ids.map fun id => Int64.ofNat id) level).toBytes
  let dictCol ← (← encodeStr c tk.dict tk.dict.length level).toBytes
  let wCol ← (← encodeU8 c (nums.map Prod.fst) level).toBytes
  let vCol ← (← encodeI64 c (nums.map Prod.snd) level).toBytes
  let sCol ← (← encodeStr c strs strs.length level).toBytes
  rejectIf (u32Max < tk.dict.length) "template column: templates count exceeds u32"
  rejectIf (u32Max < nums.length) "template column: num vars count exceeds u32"
  rejectIf (u32Max < strs.length) "template column: str vars count exceeds u32"
  let cols := [idsCol, dictCol, wCol, vCol, sCol]
  rejectIf (cols.any (fun col => u32Max < col.length) = true)
    "template column: sub-column exceeds u32::MAX bytes"
  return (if splitRuns then 0 else 1) ::
    (leBytes 4 tk.dict.length ++ (leBytes 4 nums.length ++ (leBytes 4 strs.length ++
      (cols.flatMap (fun col => leBytes 4 col.length) ++ cols.flatten))))

/-- Both modes are tried; on a tie digit runs win. -/
def encodeTemplateStr (msgs : List Text) (level : Int) : Except String (List UInt8) := do
  let split ← encodeMode c msgs true level
  let whole ← encodeMode c msgs false level
  return if split.length ≤ whole.length then split else whole

/-! ### Feasibility -/

/-- Longer fragments pass for feasible. -/
def feasibilityMaxFragment : Nat := 256

/-- Case-insensitive substring, over bytes. -/
def containsCi (haystack needle : List UInt8) : Bool :=
  if needle.isEmpty then true
  else (windows needle.length haystack).any fun w => eqIgnoreAsciiCase w needle

/-- Ends with it, whatever the case. -/
def endsWithCi (haystack suffix : List UInt8) : Bool :=
  suffix.length ≤ haystack.length &&
    eqIgnoreAsciiCase (haystack.drop (haystack.length - suffix.length)) suffix

/-- Starts with it, whatever the case. -/
def startsWithCi (haystack start : List UInt8) : Bool :=
  start.length ≤ haystack.length && eqIgnoreAsciiCase (haystack.take start.length) start

/-- The stretches of a template between placeholders, doubled sentinels made single. `seg` is the
stretch being collected; a dangling sentinel is kept as text. -/
def templateSegmentsFrom (seg : Text) : Text → List Text
  | [] => if seg.isEmpty then [] else [seg]
  | [a] => [seg ++ [a]]
  | a :: k :: t =>
      if a = sentinel then
        if k = sentinel then templateSegmentsFrom (seg ++ [sentinel]) t
        else if k = 'd' ∨ k = 's' then
          (if seg.isEmpty then [] else [seg]) ++ templateSegmentsFrom [] t
        else templateSegmentsFrom (seg ++ [sentinel]) (k :: t)
      else templateSegmentsFrom (seg ++ [a]) (k :: t)

/-- A template between its marks. -/
def templateSegments (template : Text) : List Text :=
  templateSegmentsFrom [] template

/-- `run` occurs in `text` with no digit on either side. -/
def hasMaximalDigitRun (text run : List UInt8) : Bool :=
  (List.range (text.length + 1 - run.length)).any fun start =>
    (text.drop start).take run.length == run &&
      (start == 0 || !(text.getD (start - 1) 0 |> isAsciiDigit)) &&
      (start + run.length == text.length || !(text.getD (start + run.length) 0 |> isAsciiDigit))

/-- A digit-free fragment of the needle fits inside one string variable, or is the end of one, a
part of one stretch of template text and the start of another. -/
def fragmentFeasible (frag : List UInt8) (segments strs : List (List UInt8)) : Bool :=
  if frag.isEmpty then true
  else if feasibilityMaxFragment < frag.length then true
  else if strs.any fun v => containsCi v frag then true
  else
    let cutIs := 0 :: (List.range' 1 frag.length).filter fun i =>
      strs.any fun v => endsWithCi v (frag.take i)
    let cutJs := ((List.range frag.length).filter fun j =>
      strs.any fun v => startsWithCi v (frag.drop j)) ++ [frag.length]
    cutIs.any fun i => (cutJs.filter fun j => decide (i ≤ j)).any fun j =>
      let middle := (frag.drop i).take (j - i)
      middle.isEmpty || segments.any fun s => containsCi s middle

/-- The sub-columns of a template column, still encoded. -/
structure TemplateColumns where
  mode : UInt8
  dictN : Nat
  numN : Nat
  strN : Nat
  ids : List UInt8
  dict : List UInt8
  widths : List UInt8
  values : List UInt8
  strs : List UInt8

/-- The parts of a template column. -/
def readTemplateColumns : ReadM TemplateColumns := do
  let mode ← u8 "template column mode"
  let dictN ← u32 "template dict count"
  let numN ← u32 "template num-var count"
  let strN ← u32 "template str-var count"
  let idsLen ← u32 "template ids length"
  let dictLen ← u32 "template dict length"
  let widthsLen ← u32 "template widths length"
  let valuesLen ← u32 "template values length"
  let strsLen ← u32 "template strings length"
  let ids ← take idsLen "template ids column"
  let dict ← take dictLen "template dict column"
  let widths ← take widthsLen "template widths column"
  let values ← take valuesLen "template values column"
  let strs ← take strsLen "template strings column"
  return ⟨mode, dictN, numN, strN, ids, dict, widths, values, strs⟩

/-- All token bytes, with a digit and with something else: such a needle never spans a token
boundary. -/
def tokenConfinedMixed (nb : List UInt8) : Bool :=
  nb.all isTokenByte && nb.any isAsciiDigit && nb.any fun b => !isAsciiDigit b

/-- There is a digit between the first and the last byte that is none. -/
def hasInnerRun (nb : List UInt8) : Bool :=
  ((nb.dropWhile isAsciiDigit).rdropWhile isAsciiDigit).any isAsciiDigit

/-- An inner digit run is a stored number of that width and value, or a maximal digit run of a
stored string. -/
def runExplained (numPairs : List (UInt8 × Int64)) (strs : List (List UInt8))
    (run : List UInt8) : Bool :=
  let numOk := run.length ≤ 19 && (parseI64 run).any fun v =>
    numPairs.contains (UInt8.ofNat run.length, v)
  numOk || strs.any fun s => hasMaximalDigitRun s run

/-- The needle cut into its maximal digit runs and what lies between them. -/
def needlePieces (nb : List UInt8) : List (List UInt8) :=
  nb.splitBy fun a b => isAsciiDigit a == isAsciiDigit b

/-- Every fragment and every inner digit run of the needle is explained. A run at either end may go
on outside the needle and is passed over. -/
def needleExplained (segments strs : List (List UInt8)) (numPairs : List (UInt8 × Int64)) :
    (atStart : Bool) → List (List UInt8) → Bool
  | _, [] => true
  | atStart, piece :: rest =>
      (if piece.any isAsciiDigit then
        atStart || rest.isEmpty || runExplained numPairs strs piece
      else fragmentFeasible piece segments strs) &&
        needleExplained segments strs numPairs false rest

def isAscii (nb : List UInt8) : Bool :=
  nb.all fun b => b.toNat < 128

/-- Can a message of this column contain the needle? `false` is a proof that none does. -/
def columnMayContain (bytes : List UInt8) (needle : Text) : Except String Bool := do
  let nb := utf8 needle
  if nb.isEmpty || !isAscii nb then return true
  let cols ← Reader.run bytes readTemplateColumns
  let dict ← decodeStr c cols.dict cols.dictN
  let strsOwned ← decodeStr c cols.strs cols.strN
  let strs := strsOwned.map utf8
  let segments := (dict.flatMap templateSegments).map utf8
  if cols.mode == 1 && tokenConfinedMixed nb then
    return strs.any fun v => containsCi v nb
  let numPairs ←
    if hasInnerRun nb then do
      let widths ← decodeU8 c cols.widths cols.numN
      let values ← decodeI64 c cols.values cols.numN
      pure (widths.zip values)
    else pure []
  return needleExplained segments strs numPairs true (needlePieces nb)

end Timeless.Blocks
