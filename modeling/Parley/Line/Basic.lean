import Parley.Line.Segment
import Parley.Session

/-!
# Lines

A line of a node has an id, by which other lines refer to it.  The id is what the last `#line:` tag
with a value says, or it is minted, and then a tag is added that says so.  Lines hold no other
lines: they name their first child and their next sibling.

Reading a line in a session registers its speaker and its id.  When it fails, the speaker is still
in the cast and the warnings so far are in the log, but no id is registered.
-/

namespace Parley

/-- A line of a node. -/
structure Line where
  id : String
  node : String
  indent : Nat
  isOption : Bool
  speaker : Option Speaker
  segments : List Segment
  tags : List Tag
  firstChild : Option String
  nextSibling : Option String
  source : String
  position : Position
  deriving DecidableEq

namespace Tag

/-- Adds a tag, unless one is there that is written in the same way. -/
def addTo (tags : List Tag) (tag : Tag) : List Tag :=
  if tags.any fun other => other.source == tag.source then tags else tags ++ [tag]

/-- The tags of a line, from those that were written. -/
def collect (tags : List Tag) : List Tag := tags.foldl addTo []

/-- Whether a tag is meant to name its line. -/
def isLineTag (tag : Tag) : Bool := tag.key == lineKey

/-- The id that the tags of a line give it: the last one counts. -/
def lineId? (tags : List Tag) : Option String :=
  ((tags.filter isLineTag).filterMap written?).getLast?

/-- The line tags that name nothing. -/
def idle (tags : List Tag) : List Tag :=
  tags.filter fun tag => tag.isLineTag && tag.written?.isNone

end Tag

namespace Line

def tag? (line : Line) (key : String) : Option Tag := line.tags.find? fun tag => tag.key == key

def hasTag (line : Line) (key : String) : Bool := (line.tag? key).isSome

def addTag (line : Line) (tag : Tag) : Line := { line with tags := Tag.addTo line.tags tag }

def lacksTag (line : Line) (tag : Tag) : Bool :=
  !line.tags.any fun other => other.source == tag.source

/-- Whether this is the last line before a set of options. -/
def isLastLine (line : Line) : Bool := line.hasTag Tag.lastLineKey

/-- The text of the line, with variables as they are written and without commands. -/
def text (line : Line) : String := String.join (line.segments.map Segment.spoken)

def commands (line : Line) : List Command := line.segments.filterMap Segment.command?

/-- Where the first jump of the line that names a node leads. -/
def jumpTarget? (line : Line) : Option String := line.commands.findSome? Command.jumpTarget?

/-! ## Reading -/

/-- Reads parts one by one, after the segments in `done` (last one first). -/
def readParts (position : Position) (done : List Segment) (s : Session) :
    List Part → Except LineFault (List Segment) × Session
  | [] => (.ok done.reverse, s)
  | part :: parts =>
    match Segment.ofPart part with
    | .error fault => (.error fault, s)
    | .ok (segment, none) => readParts position (segment :: done) s parts
    | .ok (segment, some warning) =>
      readParts position (segment :: done) (s.warn ⟨warning, position⟩) parts

/-- The id and the tags of a line, from the tags that were written. -/
def identify (s : Session) (written : List Tag) : String × List Tag × Session :=
  match Tag.lineId? written with
  | some id => (id, Tag.collect written, s)
  | none =>
    let (id, s) := s.mint Tag.lineKey
    (id, Tag.addTo (Tag.collect written) (.of Tag.lineKey (some (.text id))), s)

def speaker? (s : Session) : Option String → Option Speaker × Session
  | none => (none, s)
  | some name =>
    let (speaker, s) := s.speaker name
    (some speaker, s)

def read (content : List Char) (node : String) (position : Position) (s : Session) :
    Except LineError Line × Session :=
  let layout := Layout.read s.options.tabWidth content
  let source := String.ofList content
  let (speaker, s) := speaker? s layout.speaker
  match readParts position [] s (Segment.whole layout.parts) with
  | (.error fault, s) => (.error ⟨source, fault, position⟩, s)
  | (.ok segments, s) =>
    let s := (Tag.idle layout.tags).foldl (fun s _ => s.notice (.lineTagIgnored position)) s
    let (id, tags, s) := identify s layout.tags
    match s.register? id node with
    | none => (.error ⟨source, .duplicateId id, position⟩, s)
    | some s =>
      let line : Line :=
        ⟨id, node, layout.indent, layout.isOption, speaker, segments, tags, none, none, source,
          position⟩
      (.ok line, s.notice (.lineRead position id node))

/-- Reads a line of a node in a session of its own, which is left as the reading leaves it. -/
def parse (content node : String) : Except LineError Line × Session :=
  read content.toList node ⟨0⟩ (.start {})

end Line

end Parley
