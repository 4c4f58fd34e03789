import Parley.Dialog
import Parley.Line.Layout
import Parley.Log

/-!
# Segments of a line

The parts of a line become segments: plain text is read as dialogue, commands and variables as what
they are.  A line without commands and variables is one piece of dialogue, which may be empty.

Principal results: `source_ofPart` — a segment keeps the text of its part.
-/

namespace Parley

inductive Segment where
  | dialog (dialog : Dialog)
  | command (command : Command)
  | var (v : Variable)
  deriving DecidableEq

namespace Segment

def source : Segment → String
  | .dialog d => d.source
  | .command c => c.source
  | .var v => v.source

def command? : Segment → Option Command
  | .command c => some c
  | _ => none

/-- What the segment adds to the text of its line; commands are not spoken. -/
def spoken : Segment → String
  | .dialog d => d.body
  | .command _ => ""
  | .var v => v.source

end Segment

/-- What can be wrong with a line. -/
inductive LineFault where
  | command (error : CommandError)
  | var (error : VariableError)
  | markup (error : MarkupError)
  | duplicateId (id : String)
  deriving DecidableEq, Repr

structure LineError where
  line : String
  fault : LineFault
  position : Position
  deriving DecidableEq, Repr

namespace LineFault

def message : LineFault → String
  | .command e => "could not parse a command: " ++ e.message
  | .var e => "could not parse a variable: " ++ e.message
  | .markup e => "could not parse markup: " ++ e.message
  | .duplicateId id => "encountered another line with id '" ++ id ++ "'"

/-- The messages of the causes of the fault, from the outermost on. -/
def causes : LineFault → List String
  | .command e => e.message :: e.causes
  | .var e => e.message :: e.causes
  | .markup e => e.message :: e.causes
  | .duplicateId _ => []

end LineFault

namespace LineError

def message (e : LineError) : String := e.position.label ++ e.fault.message

def causes (e : LineError) : List String := e.fault.message :: e.fault.causes

end LineError

namespace Segment

/-- Reads a part, and tells what deserves a warning. -/
def ofPart : Part → Except LineFault (Segment × Option Warning)
  | .text cs =>
    match Dialog.read cs with
    | .ok d => .ok (.dialog d, none)
    | .error e => .error (.markup e)
  | .command cs =>
    match Command.read cs with
    | .ok (c, openQuote) =>
      .ok (.command c, openQuote.map fun _ => .unterminatedQuote (String.ofList cs))
    | .error e => .error (.command e)
  | .var cs =>
    match Variable.read cs with
    | .ok v => .ok (.var v, none)
    | .error e => .error (.var e)

theorem source_ofPart {part : Part} {segment : Segment} {warning : Option Warning}
    (h : ofPart part = .ok (segment, warning)) : segment.source = String.ofList part.chars := by
  cases part with
  | text cs =>
    simp only [ofPart] at h
    split at h
    · next d hd => cases h; exact Dialog.read_source hd
    · cases h
  | command cs =>
    simp only [ofPart] at h
    split at h
    · next c q hc => cases h; exact Command.read_source hc
    · cases h
  | var cs =>
    simp only [ofPart] at h
    split at h
    · next v hv => cases h; exact Variable.read_source hv
    · cases h

/--
The parts that are read for a line: a line of text alone is read as one part, also when there is no
text at all.
-/
def whole (parts : List Part) : List Part :=
  if parts.all Part.isText then [.text (parts.flatMap Part.chars)] else parts

end Segment

end Parley
