import Parley.Script.Jumps

/-!
# Reading scripts

A document is read node by node in one session, so that speakers are shared and line ids are unique
in the whole script.  Carriage returns are no part of a document.  The reading stops at the first
failure: a document that is too large is not read at all, and two nodes may not have one title.

Principal results: `parseWith_tooLarge` — a document beyond the limit is refused with its size.
-/

namespace Parley

/-- A document that is no script. -/
inductive ScriptError where
  | empty
  | tooLarge (size limit : Nat)
  | duplicateNode (id : String) (position earlier : Position)
  | node (error : NodeError)
  deriving DecidableEq, Repr

namespace ScriptError

def message : ScriptError → String
  | .empty => "Could not parse script: no nodes were found"
  | .tooLarge size limit =>
    "Could not parse script: input of " ++ toString size ++ " bytes exceeds the limit of " ++
      toString limit ++ " bytes"
  | .duplicateNode id position earlier =>
    position.label ++ "encountered another node with title '" ++ id ++
      "' in the script (previous at " ++ earlier.display ++ ")"
  | .node e => e.message

/-- The messages of the causes, from the outermost on. -/
def causes : ScriptError → List String
  | .node e => e.message :: e.causes
  | _ => []

/-- The line that is shown under a report on a node. -/
def quotedLine : NodeFault → String
  | .line e => "    |\n    | " ++ e.line ++ "\n"
  | _ => ""

/--
A report for the author: the message, and for a node where it begins and which line is at fault.
-/
def report : ScriptError → String
  | .node e =>
    "Could not parse the node starting at " ++ e.position.display ++ ":\n    " ++ e.message ++
      "\n" ++ quotedLine e.fault
  | e => e.message ++ "\n"

end ScriptError

namespace Script

/-- Reads blocks as nodes one by one, after those in `done` (last one first). -/
def readNodes (done : List Node) (starts : Table Position) (s : Session) :
    List Block → Except ScriptError (List Node) × Session
  | [] => (.ok done.reverse, s)
  | block :: blocks =>
    match Node.read block.text block.position s with
    | (.error e, s) => (.error (.node e), s)
    | (.ok node, s) =>
      match starts[node.id]? with
      | some earlier => (.error (.duplicateNode node.id node.position earlier), s)
      | none => readNodes (node :: done) (starts.insert node.id node.position) s blocks

/-- Reports the jumps that lead nowhere, if the settings ask for it. -/
def checkJumps (nodes : List Node) (s : Session) : Session :=
  if s.options.checkJumps then (Jump.reports nodes).foldl Session.warn s else s

/-- The error of a document that has more bytes than allowed. -/
def sizeError? (size : Nat) (limit : Option Nat) : Option ScriptError :=
  match limit with
  | none => none
  | some limit => if limit < size then some (.tooLarge size limit) else none

/-- Reads a document, and tells all notices on the way. -/
def read (content : String) (options : Options) : Except ScriptError Script × Array Notice :=
  match sizeError? content.utf8ByteSize options.maxSize with
  | some e => (.error e, #[])
  | none =>
    let blocks := Block.ofDocument (content.toList.filter (· != '\r'))
    match readNodes [] ∅ (.start options) blocks with
    | (.error e, s) => (.error e, s.notices)
    | (.ok [], s) => (.error .empty, s.notices)
    | (.ok (node :: nodes), s) =>
      let nodes := node :: nodes
      let s := s.notice (.scriptRead nodes.length s.lineCount)
      let s := checkJumps nodes s
      (.ok (ofNodes nodes s.cast s.log content), s.notices)

def parseWith (content : String) (options : Options) : Except ScriptError Script :=
  (read content options).1

/-- Reads a document with the usual settings. -/
def parse (content : String) : Except ScriptError Script := parseWith content {}

theorem parseWith_tooLarge {content : String} {options : Options} {limit : Nat}
    (h : options.maxSize = some limit) (hs : limit < content.utf8ByteSize) :
    parseWith content options = .error (.tooLarge content.utf8ByteSize limit) := by
  simp [parseWith, read, sizeError?, h, hs]

end Script

end Parley
