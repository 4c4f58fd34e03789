import Parley.Outline

/-!
# Nodes

A node is a named block of a script.  Above its first `---` line stand fields `key: value`, of which
`title` names the node; below it stand its lines.  Blank lines count nowhere.

A node without title or without lines cannot be read, nor one with a line above the `---` that is no
field.  The first failure counts, the fields before the title and the title before the lines.

Principal results: `fieldOfLine?_eq_none_iff` — the lines that are no fields are those without a
colon; `source_read` — a node keeps the text it was read from.
-/

namespace Parley

/-- A block of a script. -/
structure Node where
  id : String
  /-- The fields in the order in which they were written. -/
  fields : List (String × Value)
  lines : Array Line
  /-- The place of each line in `lines`, by its id. -/
  index : Table Nat
  source : String
  position : Position
  deriving DecidableEq

inductive NodeFault where
  | missingTitle
  | empty (node : String)
  /-- A line above the `---` that is no field. -/
  | malformedField (line : String) (position : Position)
  | line (error : LineError)
  deriving DecidableEq, Repr

structure NodeError where
  position : Position
  fault : NodeFault
  deriving DecidableEq, Repr

namespace NodeFault

def message : NodeFault → String
  | .missingTitle => "node header has no 'title' field"
  | .empty node => "node '" ++ node ++ "' has no content"
  | .malformedField found p =>
    p.label ++ "expected a node header line on the form 'key: value' but found '" ++ found ++ "'"
  | .line e => e.message

/-- The messages of the causes, from the outermost on. -/
def causes : NodeFault → List String
  | .line e => e.message :: e.causes
  | _ => []

/-- Whether the fault has a position of its own, inside the node. -/
def hasPosition : NodeFault → Bool
  | .malformedField _ _ => true
  | .line _ => true
  | _ => false

end NodeFault

namespace NodeError

/-- The whole message, which gives the innermost position that is known. -/
def message (e : NodeError) : String :=
  if e.fault.hasPosition then e.fault.message else e.position.label ++ e.fault.message

def causes (e : NodeError) : List String := e.fault.message :: e.fault.causes

end NodeError

/-! ## Lines and their positions -/

/-- A line of text and where it stands. -/
abbrev Located := List Char × Position

/-- The lines of a text that begins at a position. -/
def located (cs : List Char) (start : Position) : List Located :=
  (Text.lines cs).mapIdx fun i line => (line, start.down i)

def Located.isBlank (l : Located) : Bool := Text.allBlank l.1

namespace Node

/-- The line between the fields and the lines of a node. -/
def fieldsEnd : List Char := ['-', '-', '-']

def nodeEnd : List Char := ['=', '=', '=']

/-- Whether a line is a delimiter, apart from blanks around it. -/
def isDelimiter (delimiter : List Char) (l : Located) : Bool := Text.trim l.1 == delimiter

def fieldOfLine? (line : List Char) : Option (String × Value) :=
  (Text.cut? ':' line).map fun (key, value) =>
    (String.ofList (Text.trim key), Value.read (Text.trim value))

theorem fieldOfLine?_eq_none_iff {line : List Char} : fieldOfLine? line = none ↔ ':' ∉ line := by
  simp [fieldOfLine?, Text.cut?_eq_none_iff]

/-- The field that a line holds, or what is wrong with it. -/
def readField (l : Located) : Except NodeFault (String × Value) :=
  match fieldOfLine? l.1 with
  | some field => .ok field
  | none => .error (.malformedField (String.ofList l.1) l.2)

/-- The fields that lines hold; blank lines hold none. -/
def readFields (ls : List Located) : Except NodeFault (List (String × Value)) :=
  (ls.filter fun l => !l.isBlank).mapM readField

/-- The value of the first field with a key. -/
def fieldValue? (fields : List (String × Value)) (key : String) : Option Value :=
  (fields.find? fun field => field.1 == key).map Prod.snd

/-- The id that the fields give a node: the text of its title, unless that is empty. -/
def title? (fields : List (String × Value)) : Option String :=
  ((fieldValue? fields "title").map Value.display).filter fun id => id != ""

/-- Whether a line below the fields belongs to the node. -/
def isContent (l : Located) : Bool := !l.isBlank && !isDelimiter nodeEnd l

/-- Reads the lines of a node one by one, after those in `done` (last one first). -/
def readLines (node : String) (done : List Line) (s : Session) :
    List Located → Except LineError (List Line) × Session
  | [] => (.ok done.reverse, s)
  | l :: ls =>
    match Line.read l.1 node l.2 s with
    | (.error e, s) => (.error e, s)
    | (.ok line, s) => readLines node (line :: done) s ls

def indexOf (lines : List Line) : Table Nat :=
  Table.ofList (lines.mapIdx fun i line => (line.id, i))

def read (content : List Char) (position : Position) (s : Session) :
    Except NodeError Node × Session :=
  let ls := located content position
  let header := ls.takeWhile fun l => !isDelimiter fieldsEnd l
  let body := (ls.dropWhile fun l => !isDelimiter fieldsEnd l).drop 1
  match readFields header with
  | .error fault => (.error ⟨position, fault⟩, s)
  | .ok fields =>
    match title? fields with
    | none => (.error ⟨position, .missingTitle⟩, s)
    | some id =>
      match readLines id [] (s.notice (.nodeBegun position id)) (body.filter isContent) with
      | (.error e, s) => (.error ⟨position, .line e⟩, s)
      | (.ok [], s) => (.error ⟨position, .empty id⟩, s)
      | (.ok (line :: lines), s) =>
        let linked := Outline.ofLines (line :: lines)
        (.ok ⟨id, fields, linked, indexOf linked.toList, String.ofList content, position⟩, s)

/-- Reads a node in a session of its own, which is left as the reading leaves it. -/
def parse (content : String) : Except NodeError Node × Session :=
  read content.toList ⟨0⟩ (.start {})

theorem source_read {content : List Char} {position : Position} {s t : Session} {node : Node}
    (h : read content position s = (.ok node, t)) : node.source = String.ofList content := by
  simp only [read] at h
  split at h
  · cases h
  · split at h
    · cases h
    · split at h <;> cases h
      rfl

/-! ## Looking things up -/

def firstLine? (node : Node) : Option Line := node.lines[0]?

def line? (node : Node) (id : String) : Option Line :=
  node.index[id]?.bind fun (i : Nat) => node.lines[i]?

def field? (node : Node) (key : String) : Option Value := fieldValue? node.fields key

def childOf? (node : Node) (line : Line) : Option Line := line.firstChild.bind node.line?

def siblingOf? (node : Node) (line : Line) : Option Line := line.nextSibling.bind node.line?

/-- The jumps of the node with the lines they are in, and where they lead. -/
def jumps (node : Node) : List (Line × Option String) :=
  node.lines.toList.flatMap fun line =>
    (line.commands.filter Command.isJump).map fun command => (line, command.jumpTarget?)

end Node

end Parley
