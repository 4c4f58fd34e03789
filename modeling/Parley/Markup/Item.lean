import Parley.Table
import Parley.Text.Blank
import Parley.Text.Cut
import Parley.Text.Word
import Parley.Value

/-!
# Markup items

What stands between two brackets is markup if it has one of four forms:

* `[name key=value flag]` opens a span,
* `[name key=value flag /]` marks a place,
* `[/name]` closes the span of that name that was opened last,
* `[/]` closes all open spans.

Blanks around the parts do not matter.  A bracket pair of another form is plain text.
-/

namespace Parley.Markup

/-- A bracket pair that is markup. -/
inductive Item where
  | opener (name : String) (parameters : Table Value)
  | place (name : String) (parameters : Table Value)
  | closer (name : String)
  | closeAll
  deriving DecidableEq

namespace Item

/-- A key with the value that is given to it, as in `key=value`. -/
def assignment (word : List Char) : List Char × Option Value :=
  match Text.cut? '=' word with
  | some (key, value) => (key, some (Value.read value))
  | none => (word, none)

/-- Adds an assignment: a key without a value stands for `true`, and an empty key for nothing. -/
def addAssignment (parameters : Table Value) (pair : List Char × Option Value) : Table Value :=
  if pair.1.isEmpty then parameters
  else parameters.insert (String.ofList pair.1) (pair.2.getD (.boolean true))

/--
The name and the parameters in an opener.  The first word holds the name, which has to be a word
in the strict sense; a value given to the name is a parameter of that name.
-/
def heading? (content : List Char) : Option (String × Table Value) :=
  match (Text.words content).map assignment with
  | [] => none
  | (name, value) :: others =>
    if !Text.allWord name then none
    else
      let own : Table Value :=
        (value.map fun v => (∅ : Table Value).insert (String.ofList name) v).getD ∅
      some (String.ofList name, others.foldl addAssignment own)

/-- The markup that the text between two brackets stands for. -/
def ofInterior? (interior : List Char) : Option Item :=
  match Text.trim interior with
  | '/' :: rest =>
    match Text.words rest with
    | [] => some .closeAll
    | name :: _ => if Text.allWord name then some (.closer (String.ofList name)) else none
  | trimmed =>
    match ['/'].isSuffixOf? trimmed with
    | some content => (heading? content).map fun (name, parameters) => .place name parameters
    | none => (heading? trimmed).map fun (name, parameters) => .opener name parameters

end Item

end Parley.Markup
