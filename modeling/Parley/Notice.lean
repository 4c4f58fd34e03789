import Parley.Cast
import Parley.Command.Basic
import Parley.Log

/-!
# Notices

While a script is read, each step can be followed through its notices: traces of the smallest steps,
debugging notes of the larger ones, and warnings.  Reports of the log are noticed as well.
-/

namespace Parley

/-- How much a notice matters. -/
inductive Level where
  | trace
  | debug
  | warn
  deriving DecidableEq, Repr

def Level.display : Level → String
  | .trace => "TRACE"
  | .debug => "DEBUG"
  | .warn => "WARN"

/-- What happened in a step. -/
inductive Notice where
  | speakerAdded (speaker : Speaker)
  | lineRead (position : Position) (id node : String)
  | nodeBegun (position : Position) (node : String)
  | scriptRead (nodes lines : Nat)
  /-- A line tag names no line. -/
  | lineTagIgnored (position : Position)
  /-- A quotation in a single command is never closed. -/
  | quoteLeftOpen (command : String)
  | warned (report : Report)
  deriving DecidableEq, Repr

namespace Notice

def level : Notice → Level
  | .speakerAdded _ => .trace
  | .lineRead _ _ _ => .trace
  | .nodeBegun _ _ => .debug
  | .scriptRead _ _ => .debug
  | .lineTagIgnored _ => .warn
  | .quoteLeftOpen _ => .warn
  | .warned _ => .warn

def message : Notice → String
  | .speakerAdded s => "registered character '" ++ s.name ++ "' (" ++ s.id ++ ")"
  | .lineRead p id node => p.label ++ "parsed line '" ++ id ++ "' in node '" ++ node ++ "'"
  | .nodeBegun p node => p.label ++ "parsing node '" ++ node ++ "'"
  | .scriptRead nodes lines =>
    "parsed script with " ++ toString nodes ++ " nodes and " ++ toString lines ++ " lines"
  | .lineTagIgnored p => p.label ++ "ignoring '#line' tag without an id"
  | .quoteLeftOpen command => "quoted parameter in '" ++ command ++ "' is never closed"
  | .warned r => r.position.label ++ r.warning.message

end Notice

/-- Reads a command by itself, and notices a quotation that is never closed. -/
def Command.parse (content : String) : Except CommandError Command × Array Notice :=
  match Command.read content.toList with
  | .error e => (.error e, #[])
  | .ok (command, none) => (.ok command, #[])
  | .ok (command, some _) => (.ok command, #[.quoteLeftOpen content])

end Parley
