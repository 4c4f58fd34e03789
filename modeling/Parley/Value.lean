import Parley.Number.Written
import Parley.Number.Reading

/-!
# Values

Parameters, tag values and header fields hold scalars.  A token is a number only if it is a plain
run of ASCII digits, a truth value only if it is exactly `true` or `false`, and text otherwise, so
that reading a token never fails.
-/

namespace Parley

/-- A scalar of a script. -/
inductive Value where
  | number (x : Float)
  | boolean (b : Bool)
  | text (t : String)
  deriving DecidableEq, Repr, Inhabited

namespace Value

/-- The value that a token denotes. -/
def read (token : List Char) : Value :=
  if !token.isEmpty && token.all Number.isDigit then .number (Number.ofDigits token)
  else if token = ['t', 'r', 'u', 'e'] then .boolean true
  else if token = ['f', 'a', 'l', 's', 'e'] then .boolean false
  else .text (String.ofList token)

def parse (token : String) : Value := read token.toList

/-- The text of a value: numbers are written in full, truth values by name. -/
def display : Value → String
  | .number x => Number.written x
  | .boolean true => "true"
  | .boolean false => "false"
  | .text t => t

def number? : Value → Option Float
  | .number x => some x
  | _ => none

def boolean? : Value → Option Bool
  | .boolean b => some b
  | _ => none

def text? : Value → Option String
  | .text t => some t
  | _ => none

end Value

end Parley
