import Parley.Table

/-!
# Plain data

Scripts are saved as plain data: nothing, truth values, integers, doubles, texts, lists, and records
whose parts are named.  A record that stands for a thing may also be read from the list of its parts
in their order.  A record of the particulars of one kind among several is read by its names alone.

What can be read as a noun is read by the function that ends in `?`; `of` and the noun saves it.
-/

namespace Parley

/-- Plain data. -/
inductive Data where
  | null
  | boolean (b : Bool)
  | integer (n : Int)
  | number (x : Float)
  | text (t : String)
  | list (items : List Data)
  | record (parts : List (String × Data))
  deriving Inhabited

namespace Data

/-! ## Reading -/

def boolean? : Data → Option Bool
  | .boolean b => some b
  | _ => none

def text? : Data → Option String
  | .text t => some t
  | _ => none

def count? : Data → Option Nat
  | .integer (.ofNat n) => some n
  | _ => none

/-- A double; an integer stands for the double nearest to it. -/
def number? : Data → Option Float
  | .number x => some x
  | .integer (.ofNat n) => some (Float.ofScientific n false 0)
  | .integer (.negSucc n) => some (-Float.ofScientific (n + 1) false 0)
  | _ => none

/-- A list whose items can all be read. -/
def list? {α : Type} (item? : Data → Option α) : Data → Option (List α)
  | .list items => items.mapM item?
  | _ => none

def pair? {α β : Type} (first? : Data → Option α) (second? : Data → Option β) :
    Data → Option (α × β)
  | .list [a, b] =>
    match first? a, second? b with
    | some x, some y => some (x, y)
    | _, _ => none
  | _ => none

/-- A record whose parts are the entries of a table. -/
def table? {α : Type} (read? : Data → Option α) : Data → Option (Table α)
  | .record parts =>
    (parts.mapM fun part => (read? part.2).map fun entry => (part.1, entry)).map Table.ofList
  | _ => none

/-- The one part of a record that has one part. -/
def variant? : Data → Option (String × Data)
  | .record [part] => some part
  | _ => none

/-- The parts of a record that is given with their names. -/
def particulars? : Data → Option (List (String × Data))
  | .record parts => some parts
  | _ => none

/-- The parts of a record with the names that it is read for; a list gives them in that order. -/
def parts? (names : List String) : Data → Option (List (String × Data))
  | .record parts => some parts
  | .list items => if items.length = names.length then some (names.zip items) else none
  | _ => none

/-- A part that has to be there. -/
def part? {α : Type} (parts : List (String × Data)) (name : String) (read? : Data → Option α) :
    Option α :=
  (parts.lookup name).bind read?

/-- A part that may be missing, or be nothing. -/
def optional? {α : Type} (parts : List (String × Data)) (name : String)
    (read? : Data → Option α) : Option (Option α) :=
  match parts.lookup name with
  | none => some none
  | some .null => some none
  | some data => (read? data).map some

/-! ## Writing -/

def ofCount (n : Nat) : Data := .integer n

def ofList {α : Type} (item : α → Data) (items : List α) : Data := .list (items.map item)

def ofTable {α : Type} (entry : α → Data) (table : Table α) : Data :=
  .record (table.toList.map fun pair => (pair.1, entry pair.2))

def ofOption {α : Type} (item : α → Data) : Option α → Data
  | none => .null
  | some x => item x

end Data

end Parley
