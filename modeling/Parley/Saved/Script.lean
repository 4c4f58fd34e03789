import Parley.Saved.Line
import Parley.Script.Reading

/-!
# Saved scripts and sessions

How a script, and a session between two readings, are saved (`ofWarning` to `ofSession`) and read
(`warning?` to `session?`).  What is read back is trusted: places and links are used as they are
given.  Notices are not saved.
-/

namespace Parley.Saved

open Data

/-! ## The log -/

def ofWarning : Warning → Data
  | .unknownJumpTarget target node =>
    .record [("UnknownJumpTarget", .record [("target", .text target), ("node", .text node)])]
  | .jumpWithoutTarget node => .record [("JumpWithoutTarget", .record [("node", .text node)])]
  | .unterminatedQuote command =>
    .record [("UnterminatedQuote", .record [("command", .text command)])]

/-- The particulars of a warning have to be given with their names. -/
def warning? (data : Data) : Option Warning :=
  match data.variant? with
  | some ("UnknownJumpTarget", d) => do
    let parts ← d.particulars?
    let target ← part? parts "target" Data.text?
    let node ← part? parts "node" Data.text?
    return .unknownJumpTarget target node
  | some ("JumpWithoutTarget", d) => do
    let parts ← d.particulars?
    let node ← part? parts "node" Data.text?
    return .jumpWithoutTarget node
  | some ("UnterminatedQuote", d) => do
    let parts ← d.particulars?
    let command ← part? parts "command" Data.text?
    return .unterminatedQuote command
  | _ => none

def ofReport (r : Report) : Data :=
  .record [("message", .record [("Warning", ofWarning r.warning)]),
    ("meta_data", ofPosition r.position)]

/-- The message of a report can only be a warning. -/
def message? (data : Data) : Option Warning :=
  match data.variant? with
  | some ("Warning", d) => warning? d
  | _ => none

def report? (data : Data) : Option Report := do
  let parts ← data.parts? ["message", "meta_data"]
  let warning ← part? parts "message" message?
  let position ← part? parts "meta_data" position?
  return ⟨warning, position⟩

def ofLog (log : Log) : Data := .record [("warnings", Data.ofList ofReport log.reports.toList)]

def log? (data : Data) : Option Log := do
  let parts ← data.parts? ["warnings"]
  let reports ← part? parts "warnings" (list? report?)
  return ⟨reports.toArray⟩

/-! ## The cast -/

def ofCast (cast : Cast) : Data :=
  .record [("characters", ofTable ofSpeaker cast.members),
    ("order", Data.ofList .text cast.order.toList)]

def cast? (data : Data) : Option Cast := do
  let parts ← data.parts? ["characters", "order"]
  let members ← part? parts "characters" (table? speaker?)
  let order ← part? parts "order" (list? Data.text?)
  return ⟨members, order.toArray⟩

/-! ## Scripts -/

def ofField (field : String × Value) : Data := .list [.text field.1, ofValue field.2]

def ofNode (node : Node) : Data :=
  .record [("id", .text node.id), ("meta", Data.ofList ofField node.fields),
    ("lines", Data.ofList ofLine node.lines.toList), ("index", ofTable ofCount node.index),
    ("original", .text node.source), ("meta_data", ofPosition node.position)]

/-- The places of the lines of a node are taken as they are. -/
def node? (data : Data) : Option Node := do
  let parts ← data.parts? ["id", "meta", "lines", "index", "original", "meta_data"]
  let id ← part? parts "id" Data.text?
  let fields ← part? parts "meta" (list? (pair? Data.text? value?))
  let lines ← part? parts "lines" (list? line?)
  let index ← part? parts "index" (table? count?)
  let source ← part? parts "original" Data.text?
  let position ← part? parts "meta_data" position?
  return ⟨id, fields, lines.toArray, index, source, position⟩

def ofScript (script : Script) : Data :=
  .record [("nodes", Data.ofList ofNode script.nodes.toList),
    ("node_index", ofTable ofCount script.nodeIndex),
    ("line_index", ofTable ofCount script.lineIndex), ("characters", ofCast script.cast),
    ("log", ofLog script.log), ("original", .text script.source)]

/-- The places in a script are taken as they are. -/
def script? (data : Data) : Option Script := do
  let parts ← data.parts? ["nodes", "node_index", "line_index", "characters", "log", "original"]
  let nodes ← part? parts "nodes" (list? node?)
  let nodeIndex ← part? parts "node_index" (table? count?)
  let lineIndex ← part? parts "line_index" (table? count?)
  let cast ← part? parts "characters" cast?
  let log ← part? parts "log" log?
  let source ← part? parts "original" Data.text?
  return ⟨nodes.toArray, nodeIndex, lineIndex, cast, log, source⟩

/-- What saving a script and reading it back comes to. -/
inductive RoundTrip where
  | same
  | changed
  | unreadable
  deriving DecidableEq, Repr

def roundTrip (script : Script) : RoundTrip :=
  match script? (ofScript script) with
  | none => .unreadable
  | some again => if again = script then .same else .changed

/-! ## Sessions -/

def ofOptions (o : Options) : Data :=
  .record [("max_input_size", ofOption ofCount o.maxSize), ("tab_width", ofCount o.tabWidth),
    ("validate_jumps", .boolean o.checkJumps)]

/-- Without a limit on the size there is none. -/
def options? (data : Data) : Option Options := do
  let parts ← data.parts? ["max_input_size", "tab_width", "validate_jumps"]
  let maxSize ← optional? parts "max_input_size" count?
  let tabWidth ← part? parts "tab_width" count?
  let checkJumps ← part? parts "validate_jumps" Data.boolean?
  return ⟨maxSize, tabWidth, checkJumps⟩

def ofSession (s : Session) : Data :=
  .record [("options", ofOptions s.options), ("characters", ofCast s.cast), ("log", ofLog s.log),
    ("lines", ofTable .text s.owners), ("id_counter", ofCount s.minted)]

def session? (data : Data) : Option Session := do
  let parts ← data.parts? ["options", "characters", "log", "lines", "id_counter"]
  let options ← part? parts "options" options?
  let cast ← part? parts "characters" cast?
  let log ← part? parts "log" log?
  let owners ← part? parts "lines" (table? Data.text?)
  let minted ← part? parts "id_counter" count?
  return ⟨options, cast, log, owners, minted, #[]⟩

end Parley.Saved
