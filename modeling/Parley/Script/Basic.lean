import Parley.Script.Blocks

/-!
# Scripts

A script is a list of nodes with the cast of all their lines and a log of what deserves a warning.
Nodes are found by title, lines by id; line ids are unique in the whole script, and so are titles.

A walk through a script follows links inside one node: it begins at the first line of the first
node, and goes on to the next line on the same level or to the first line below.

Principal results: `next?_id` and `child?_id` — from an id a walk goes on as from its line.
-/

namespace Parley

structure Script where
  nodes : Array Node
  /-- The place of each node in `nodes`, by its id. -/
  nodeIndex : Table Nat
  /-- The place in `nodes` of the node of each line, by the id of the line. -/
  lineIndex : Table Nat
  cast : Cast
  log : Log
  source : String
  deriving DecidableEq

/-- A line that a walk goes on from: the line itself, or the line of the script with an id. -/
inductive LineRef where
  | line (line : Line)
  | id (id : String)
  deriving DecidableEq

namespace Script

def nodePlaces (nodes : List Node) : Table Nat :=
  Table.ofList (nodes.mapIdx fun i node => (node.id, i))

def linePlaces (nodes : List Node) : Table Nat :=
  Table.ofList (nodes.mapIdx fun i node => node.lines.toList.map fun line => (line.id, i)).flatten

def ofNodes (nodes : List Node) (cast : Cast) (log : Log) (source : String) : Script :=
  ⟨nodes.toArray, nodePlaces nodes, linePlaces nodes, cast, log, source⟩

/-! ## Looking things up -/

def firstNode? (script : Script) : Option Node := script.nodes[0]?

def node? (script : Script) (id : String) : Option Node :=
  script.nodeIndex[id]?.bind fun (i : Nat) => script.nodes[i]?

def line? (script : Script) (id : String) : Option Line :=
  (script.lineIndex[id]?.bind fun (i : Nat) => script.nodes[i]?).bind fun node => node.line? id

def resolve? (script : Script) : LineRef → Option Line
  | .line line => some line
  | .id id => script.line? id

/-! ## Walking -/

/-- The line of the node of `line` that has an id. -/
def inNodeOf? (script : Script) (line : Line) (id : String) : Option Line :=
  (script.node? line.node).bind fun node => node.line? id

/-- The next line on the level of a line; without a line, the first line of the first node. -/
def next? (script : Script) : Option LineRef → Option Line
  | none => script.firstNode?.bind Node.firstLine?
  | some ref =>
    (script.resolve? ref).bind fun line => line.nextSibling.bind (script.inNodeOf? line)

/-- The first line below a line. -/
def child? (script : Script) (ref : LineRef) : Option Line :=
  (script.resolve? ref).bind fun line => line.firstChild.bind (script.inNodeOf? line)

theorem next?_id {script : Script} {id : String} {line : Line} (h : script.line? id = some line) :
    script.next? (some (.id id)) = script.next? (some (.line line)) := by
  simp [next?, resolve?, h]

theorem child?_id {script : Script} {id : String} {line : Line} (h : script.line? id = some line) :
    script.child? (.id id) = script.child? (.line line) := by
  simp [child?, resolve?, h]

end Script

end Parley
