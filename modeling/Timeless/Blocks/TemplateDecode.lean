import Timeless.Blocks.TemplateColumn
import Timeless.Support.Decimal

/-!
# TemplateDecode — messages out of a template column

A template says which kinds of variables fill it, in order. From the template ids of all messages
and these kinds the decoder finds out where in the typed columns the variables of each template and
slot start, and then renders message by message with one cursor per template and slot.

The filtered decoder does the same for a needle, but first asks of each template, with the
variables of its own slots only, whether a message of it can contain the needle at all; of the
others it only moves the cursors.
-/

namespace Timeless.Blocks

open Support Codec

/-! ### Rendering -/

/-- The kinds of a template's slots, in order. -/
def slotKinds : Text → List VarKind
  | [] => []
  | [_] => []
  | a :: k :: t =>
      if a = sentinel then
        if k = 'd' then .num :: slotKinds t
        else if k = 's' then .str :: slotKinds t
        else slotKinds t
      else slotKinds (k :: t)

/-- A number padded with zeros to a width; a sign counts. -/
def padded (v : Int64) (w : Nat) : Text :=
  if v < 0 then '-' :: padTo (w - 1) (decimal v.toInt.natAbs)
  else padTo w (decimal v.toNatClampNeg)

/-- The variables of one message: widths and values of its numbers, and its strings. -/
structure MsgVars where
  widths : List UInt8
  values : List Int64
  strs : List Text

/-- Put the variables into a template; each must be used. -/
def detokenize : (template : Text) → (widths : List UInt8) → (values : List Int64) →
    (strs : List Text) → Except String Text
  | [], ws, _, ss => do
      rejectIf (ws ≠ [] ∨ ss ≠ []) "template column: unconsumed variables for message"
      return []
  | [a], ws, vs, ss => do
      rejectIf (a = sentinel) "template column: dangling sentinel in template"
      return a :: (← detokenize [] ws vs ss)
  | a :: k :: t, ws, vs, ss =>
      if a = sentinel then
        if k = sentinel then return sentinel :: (← detokenize t ws vs ss)
        else if k = 'd' then
          match ws, vs with
          | [], _ => throw "template column: width stream exhausted"
          | _ :: _, [] => throw "template column: value stream exhausted"
          | w :: ws, v :: vs => return padded v w.toNat ++ (← detokenize t ws vs ss)
        else if k = 's' then
          match ss with
          | [] => throw "template column: string stream exhausted"
          | s :: ss => return s ++ (← detokenize t ws vs ss)
        else
          let tag := lead k
          throw s!"template column: unknown placeholder tag {tag}"
      else return a :: (← detokenize (k :: t) ws vs ss)

/-! ### Where the variables are -/

/-- The variables of one template and slot in their typed column. -/
structure Group where
  kind : VarKind
  start : Nat
  len : Nat

/-- How often each template and slot occurs. -/
def groupSizes (ids : List Nat) (kindsById : List (List VarKind)) : List ((Nat × Nat) × Nat) :=
  ids.foldl (fun sizes id => (List.range (kindsById.getD id []).length).foldl
    (fun sizes slot => OrdMap.alter slotLt (id, slot) (fun n => n.getD 0 + 1) sizes) sizes) []

/-- Offsets into the two streams, group by group; at the end the totals. -/
def layoutFrom (kindsById : List (List VarKind)) (numOff strOff : Nat) :
    List ((Nat × Nat) × Nat) → List Group × Nat × Nat
  | [] => ([], numOff, strOff)
  | ((id, slot), count) :: sizes =>
      match (kindsById.getD id []).getD slot .str with
      | .num =>
          let rest := layoutFrom kindsById (numOff + count) strOff sizes
          (⟨.num, numOff, count⟩ :: rest.1, rest.2)
      | .str =>
          let rest := layoutFrom kindsById numOff (strOff + count) sizes
          (⟨.str, strOff, count⟩ :: rest.1, rest.2)

/-- The groups in order, and for each template the place of its first one. -/
structure Layout where
  base : Nat → Option Nat
  groups : List Group

def groupLayout (ids : List Nat) (kindsById : List (List VarKind)) (numN strN : Nat) :
    Except String Layout := do
  let sizes := groupSizes ids kindsById
  let (groups, numOff, strOff) := layoutFrom kindsById 0 0 sizes
  rejectIf (numOff ≠ numN ∨ strOff ≠ strN)
    s!"template column: slot totals ({numOff} num, {strOff} str) disagree with header ({numN}, {strN})"
  return ⟨fun id => sizes.findIdx? fun e => e.1.1 = id, groups⟩

/-- A template column taken apart. -/
structure TemplateData where
  mode : UInt8
  ids : List Nat
  dict : List Text
  widths : List UInt8
  values : List Int64
  strs : List Text
  layout : Layout

namespace TemplateData

def kinds (d : TemplateData) (id : Nat) : List VarKind :=
  slotKinds (d.dict.getD id [])

end TemplateData

/-- Every id names a template. -/
def checkIds (dictN : Nat) : (i : Nat) → List Int64 → Except String (List Nat)
  | _, [] => .ok []
  | i, id :: ids => do
      let shown := id.toInt
      rejectIf (id < 0 ∨ dictN ≤ id.toNatClampNeg)
        s!"template column: entry {i} references template {shown} of {dictN}"
      return id.toNatClampNeg :: (← checkIds dictN (i + 1) ids)

variable (c : Compressors)

/-- A template column, taken apart and checked. -/
def readTemplate (bytes : List UInt8) (n : Nat) : Except String TemplateData := do
  let cols ← Reader.run bytes do
    let cols ← readTemplateColumns
    let left ← remaining
    rejectIf (left ≠ 0) s!"template column: {left} trailing byte(s) after last sub-column"
    return cols
  let ids ← decodeI64 c cols.ids n
  let dict ← decodeStr c cols.dict cols.dictN
  let widths ← decodeU8 c cols.widths cols.numN
  let values ← decodeI64 c cols.values cols.numN
  let strs ← decodeStr c cols.strs cols.strN
  let ids ← checkIds cols.dictN 0 ids
  let layout ← groupLayout ids (dict.map slotKinds) cols.numN cols.strN
  return ⟨cols.mode, ids, dict, widths, values, strs, layout⟩

/-! ### The messages -/

/-- The variables of one message from its slots, and the cursors moved past them. An index out of
range stands for the panic it would be. -/
def takeVars (d : TemplateData) (base : Option Nat) : (slot : Nat) → List VarKind → List Nat →
    Except String (MsgVars × List Nat)
  | _, [], cursors => .ok (⟨[], [], []⟩, cursors)
  | slot, kind :: kinds, cursors => do
      let place ← okOr base "template column: missing group cursor"
      let cur ← okOr cursors[place + slot]? "template column: missing group cursor"
      let rest ← takeVars d base (slot + 1) kinds (cursors.set (place + slot) (cur + 1))
      match kind with
      | .num => do
          let w ← okOr d.widths[cur]? "index out of bounds"
          let v ← okOr d.values[cur]? "index out of bounds"
          return (⟨w :: rest.1.widths, v :: rest.1.values, rest.1.strs⟩, rest.2)
      | .str => do
          let s ← okOr d.strs[cur]? "index out of bounds"
          return (⟨rest.1.widths, rest.1.values, s :: rest.1.strs⟩, rest.2)

/-- Render one message. -/
def renderMsg (d : TemplateData) (id : Nat) (cursors : List Nat) :
    Except String (Text × List Nat) := do
  let (vars, cursors) ← takeVars d (d.layout.base id) 0 (d.kinds id) cursors
  let msg ← detokenize (d.dict.getD id []) vars.widths vars.values vars.strs
  return (msg, cursors)

def renderAll (d : TemplateData) : List Nat → List Nat → Except String (List Text)
  | [], _ => .ok []
  | id :: ids, cursors => do
      let (msg, cursors) ← renderMsg d id cursors
      return msg :: (← renderAll d ids cursors)

def startCursors (d : TemplateData) : List Nat :=
  d.layout.groups.map Group.start

/-- All messages of a template column. -/
def decodeTemplateStr (bytes : List UInt8) (n : Nat) : Except String (List Text) := do
  let d ← readTemplate c bytes n
  renderAll d d.ids (startCursors d)

/-! ### The filtered decoder -/

/-- The needle cut once for all templates. -/
structure NeedleParts where
  fragments : List (List UInt8)
  innerRuns : List (List UInt8)
  tokenConfinedMixed : Bool

def needleParts (nb : List UInt8) : NeedleParts where
  fragments := (needlePieces nb).filter fun p => !p.any isAsciiDigit
  innerRuns := innerRuns nb
  tokenConfinedMixed := !nb.isEmpty && Blocks.tokenConfinedMixed nb

/-- Can a message of a template contain the needle, given the text and the variables of the
template? `false` is a proof that none does. -/
def templateFeasible (nb : List UInt8) (parts : NeedleParts) (wholeTokenMode : Bool)
    (segments strs : List (List UInt8)) (nums : List (UInt8 × Int64)) : Bool :=
  if wholeTokenMode && parts.tokenConfinedMixed then strs.any fun v => containsCi v nb
  else parts.fragments.all (fun frag => fragmentFeasible frag segments strs) &&
    parts.innerRuns.all fun run =>
      (run.length ≤ 19 && (parseI64 run).any fun v =>
        nums.any fun p => p.1.toNat == run.length && p.2 == v) ||
      strs.any fun s => hasMaximalDigitRun s run

/-- The variables of a template's own slots. -/
def templateVars (d : TemplateData) (place : Nat) (slots : Nat) :
    List Text × List (UInt8 × Int64) :=
  let groups := (d.layout.groups.drop place).take slots
  (groups.flatMap fun g => match g.kind with
      | .str => (d.strs.drop g.start).take g.len
      | .num => [],
    groups.flatMap fun g => match g.kind with
      | .str => []
      | .num => ((d.widths.drop g.start).take g.len).zip ((d.values.drop g.start).take g.len))

/-- A template without slots is its own message; one that never occurs has no groups. -/
def feasibleTemplate (d : TemplateData) (nb : List UInt8) (id : Nat) : Bool :=
  let segments := (templateSegments (d.dict.getD id [])).map utf8
  let slots := (d.kinds id).length
  if slots = 0 then templateFeasible nb (needleParts nb) (d.mode == 1) segments [] []
  else match d.layout.base id with
    | none => false
    | some place =>
        let vars := templateVars d place slots
        templateFeasible nb (needleParts nb) (d.mode == 1) segments (vars.1.map utf8) vars.2

/-- Move the cursors past one message. -/
def skipVars (base : Option Nat) : (slot : Nat) → List VarKind → List Nat →
    Except String (List Nat)
  | _, [], cursors => .ok cursors
  | slot, _ :: kinds, cursors => do
      let place ← okOr base "template column: missing group cursor"
      let cur ← okOr cursors[place + slot]? "template column: missing group cursor"
      skipVars base (slot + 1) kinds (cursors.set (place + slot) (cur + 1))

/-- The rows of a filtered decode, and how many messages were rendered for them. -/
structure FilteredMessages where
  rows : List (Nat × Text)
  candidateRows : Nat

def renderMatching (d : TemplateData) (nb : List UInt8) : (row : Nat) → List Nat → List Nat →
    Except String FilteredMessages
  | _, [], _ => .ok ⟨[], 0⟩
  | row, id :: ids, cursors =>
      if feasibleTemplate d nb id then do
        let (msg, cursors) ← renderMsg d id cursors
        let rest ← renderMatching d nb (row + 1) ids cursors
        return ⟨if containsCi (utf8 msg) nb then (row, msg) :: rest.rows else rest.rows,
          rest.candidateRows + 1⟩
      else do
        let cursors ← skipVars (d.layout.base id) 0 (d.kinds id) cursors
        renderMatching d nb (row + 1) ids cursors

def decodeTemplateStrFiltered (bytes : List UInt8) (n : Nat) (needle : Text) :
    Except String FilteredMessages := do
  rejectIf (needle.isEmpty = true ∨ isAscii (utf8 needle) = false)
    "template column: filtered decode requires a non-empty ASCII needle"
  let d ← readTemplate c bytes n
  renderMatching d (utf8 needle) 0 d.ids (startCursors d)

end Timeless.Blocks
