import Parley.Script.Basic

/-!
# Where jumps lead

Jumps are followed only when a script is played, so a jump that leads nowhere does not stop the
reading.  It is reported with the line it stands in.

Principal results: `warning?_eq_none_iff` — there is nothing to report exactly about jumps to nodes
of the script.
-/

namespace Parley.Jump

/-- What is wrong with a jump in a node, given the ids of all nodes. -/
def warning? (ids : Table Unit) (node : String) : Option String → Option Warning
  | none => some (.jumpWithoutTarget node)
  | some target => if ids.contains target then none else some (.unknownJumpTarget target node)

theorem warning?_eq_none_iff {ids : Table Unit} {node : String} {target : Option String} :
    warning? ids node target = none ↔ ∃ t, target = some t ∧ ids.contains t = true := by
  cases target with
  | none => simp [warning?]
  | some t => simp [warning?]

/-- The reports on the jumps of a node. -/
def reportsOf (ids : Table Unit) (node : Node) : List Report :=
  node.jumps.filterMap fun (line, target) =>
    (warning? ids node.id target).map fun warning => ⟨warning, line.position⟩

def reports (nodes : List Node) : List Report :=
  let ids : Table Unit := Table.ofList (nodes.map fun node => (node.id, ()))
  nodes.flatMap (reportsOf ids)

end Parley.Jump
