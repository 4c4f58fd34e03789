import Parley.Line.Basic
import Parley.Saved.Data

/-!
# Saved lines

How a line and its pieces are saved (`ofValue` to `ofLine`) and read (`value?` to `line?`).  A
choice between kinds is a record with one part, named for the kind.  A double that is not finite is
saved as nothing, and then cannot be read back as a number.
-/

namespace Parley.Saved

open Data

/-! ## Values, tags and positions -/

def ofNumber (x : Float) : Data := if x.isFinite then .number x else .null

def ofValue : Value → Data
  | .number x => .record [("Number", ofNumber x)]
  | .boolean b => .record [("Boolean", .boolean b)]
  | .text t => .record [("Text", .text t)]

def value? (data : Data) : Option Value :=
  match data.variant? with
  | some ("Number", d) => d.number?.map .number
  | some ("Boolean", d) => d.boolean?.map .boolean
  | some ("Text", d) => d.text?.map .text
  | _ => none

def ofTag (tag : Tag) : Data :=
  .record [("key", .text tag.key), ("value", ofOption ofValue tag.value),
    ("original", .text tag.source)]

def tag? (data : Data) : Option Tag := do
  let parts ← data.parts? ["key", "value", "original"]
  let key ← part? parts "key" Data.text?
  let value ← optional? parts "value" value?
  let source ← part? parts "original" Data.text?
  return ⟨key, value, source⟩

def ofPosition (p : Position) : Data := .record [("line_index", ofCount p.index)]

/-- The index of a position has to fit into 32 bits. -/
def position? (data : Data) : Option Position := do
  let parts ← data.parts? ["line_index"]
  let index ← part? parts "line_index" count?
  if index < UInt32.size then return ⟨index⟩ else none

/-! ## Segments -/

def ofCommand (c : Command) : Data :=
  .record [("name", .text c.name), ("parameters", Data.ofList ofValue c.parameters),
    ("original", .text c.source)]

def command? (data : Data) : Option Command := do
  let parts ← data.parts? ["name", "parameters", "original"]
  let name ← part? parts "name" Data.text?
  let parameters ← part? parts "parameters" (list? value?)
  let source ← part? parts "original" Data.text?
  return ⟨name, parameters, source⟩

def ofVariable (v : Variable) : Data :=
  .record [("name", .text v.name), ("original", .text v.source)]

def var? (data : Data) : Option Variable := do
  let parts ← data.parts? ["name", "original"]
  let name ← part? parts "name" Data.text?
  let source ← part? parts "original" Data.text?
  return ⟨name, source⟩

def ofSpan (span : Span) : Data :=
  .record [("name", .text span.name), ("start", ofCount span.start),
    ("length", ofCount span.length), ("parameters", ofTable ofValue span.parameters)]

def span? (data : Data) : Option Span := do
  let parts ← data.parts? ["name", "start", "length", "parameters"]
  let name ← part? parts "name" Data.text?
  let start ← part? parts "start" count?
  let length ← part? parts "length" count?
  let parameters ← part? parts "parameters" (table? value?)
  return ⟨name, start, length, parameters⟩

def ofDialog (d : Dialog) : Data :=
  .record [("body", .text d.body), ("markup", Data.ofList ofSpan d.spans),
    ("original", .text d.source)]

def dialog? (data : Data) : Option Dialog := do
  let parts ← data.parts? ["body", "markup", "original"]
  let body ← part? parts "body" Data.text?
  let spans ← part? parts "markup" (list? span?)
  let source ← part? parts "original" Data.text?
  return ⟨body, spans, source⟩

def ofSegment : Segment → Data
  | .dialog d => .record [("Dialog", ofDialog d)]
  | .command c => .record [("Command", ofCommand c)]
  | .var v => .record [("Variable", ofVariable v)]

def segment? (data : Data) : Option Segment :=
  match data.variant? with
  | some ("Dialog", d) => (dialog? d).map .dialog
  | some ("Command", d) => (command? d).map .command
  | some ("Variable", d) => (var? d).map .var
  | _ => none

/-! ## Lines -/

def ofSpeaker (s : Speaker) : Data := .record [("id", .text s.id), ("name", .text s.name)]

def speaker? (data : Data) : Option Speaker := do
  let parts ← data.parts? ["id", "name"]
  let id ← part? parts "id" Data.text?
  let name ← part? parts "name" Data.text?
  return ⟨id, name⟩

def lineParts : List String :=
  ["id", "node_id", "indentation_level", "is_option", "character", "segments", "tags",
    "first_child", "next_sibling", "original", "meta_data"]

def ofLine (line : Line) : Data :=
  .record [("id", .text line.id), ("node_id", .text line.node),
    ("indentation_level", ofCount line.indent), ("is_option", .boolean line.isOption),
    ("character", ofOption ofSpeaker line.speaker),
    ("segments", Data.ofList ofSegment line.segments), ("tags", Data.ofList ofTag line.tags),
    ("first_child", ofOption .text line.firstChild),
    ("next_sibling", ofOption .text line.nextSibling), ("original", .text line.source),
    ("meta_data", ofPosition line.position)]

/-- The links of a line are taken as they are. -/
def line? (data : Data) : Option Line := do
  let parts ← data.parts? lineParts
  let id ← part? parts "id" Data.text?
  let node ← part? parts "node_id" Data.text?
  let indent ← part? parts "indentation_level" count?
  let isOption ← part? parts "is_option" Data.boolean?
  let speaker ← optional? parts "character" speaker?
  let segments ← part? parts "segments" (list? segment?)
  let tags ← part? parts "tags" (list? tag?)
  let firstChild ← optional? parts "first_child" Data.text?
  let nextSibling ← optional? parts "next_sibling" Data.text?
  let source ← part? parts "original" Data.text?
  let position ← part? parts "meta_data" position?
  return ⟨id, node, indent, isOption, speaker, segments, tags, firstChild, nextSibling, source,
    position⟩

end Parley.Saved
