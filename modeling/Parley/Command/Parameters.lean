import Parley.Text.Blank
import Parley.Value

/-!
# Parameters of a command

Parameters stand between blanks.  A quote mark, single or double, opens a quotation that runs to
the next mark of its kind: the two marks are dropped, and blanks and marks of the other kind inside
it belong to the parameter.  A parameter that holds a quotation may be empty; otherwise nothing
between two blanks is no parameter.

Principal results: `step_blank_of_closed` — a blank outside a quotation ends the parameter, so that
nothing is pending after it.
-/

namespace Parley.Command

/-- The single and the double quote mark. -/
def isQuote (c : Char) : Bool := c.toNat == 0x27 || c.toNat == 0x22

/-- How far a list of parameters has been read. -/
structure Splitting where
  /-- The finished parameters, last one first. -/
  finished : List Value
  /-- The characters of the unfinished parameter, last one first. -/
  pending : List Char
  hasQuotation : Bool
  /-- The mark of the quotation that is open. -/
  openQuote : Option Char
  deriving DecidableEq, Repr

namespace Splitting

def start : Splitting := ⟨[], [], false, none⟩

/-- Ends the unfinished parameter, if there is one. -/
def finish (s : Splitting) : List Value :=
  if s.pending.isEmpty && !s.hasQuotation then s.finished
  else Value.read s.pending.reverse :: s.finished

def step (s : Splitting) (c : Char) : Splitting :=
  match s.openQuote with
  | none =>
    if isQuote c then { s with openQuote := some c, hasQuotation := true }
    else if Text.isBlank c then ⟨s.finish, [], false, none⟩
    else { s with pending := c :: s.pending }
  | some mark =>
    if c = mark then { s with openQuote := none }
    else { s with pending := c :: s.pending }

theorem step_blank_of_closed {s : Splitting} {c : Char} (h : s.openQuote = none)
    (hc : Text.isBlank c = true) (hq : isQuote c = false) :
    s.step c = ⟨s.finish, [], false, none⟩ := by
  simp [step, h, hc, hq]

end Splitting

/-- The parameters in a text, and the mark of a quotation that is still open at its end. -/
def splitParameters (cs : List Char) : List Value × Option Char :=
  let s := cs.foldl Splitting.step Splitting.start
  (s.finish.reverse, s.openQuote)

end Parley.Command
