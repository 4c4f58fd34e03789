import Parley.Command.Parameters
import Parley.Name

/-!
# Commands

A command `<<name parameters>>` is for whoever plays the script.  Only `<<jump Node>>` means
something to the script itself: its first parameter names the node where the dialogue goes on.

Principal results: `read_source` — a command keeps the text it was read from.
-/

namespace Parley

/-- An inline command. -/
structure Command where
  name : String
  parameters : List Value
  source : String
  deriving DecidableEq, Repr

/-- A text that is no command. -/
structure CommandError where
  content : String
  fault : NameFault
  deriving DecidableEq, Repr

namespace CommandError

def reason (e : CommandError) : String :=
  match e.fault with
  | .missingDelimiters => "expected the command to be enclosed in '<<' and '>>'"
  | .emptyName => "no command name between the delimiters"
  | .invalidName name =>
    "command name '" ++ name ++ "' contains invalid characters: only alphanumeric and underline " ++
      "characters are allowed"

def message (e : CommandError) : String :=
  "malformed command '" ++ e.content ++ "': " ++ e.reason

def causes (e : CommandError) : List String := [e.reason]

end CommandError

namespace Command

def opening : List Char := ['<', '<']

def closing : List Char := ['>', '>']

/--
Reads a command, and tells the mark of a quotation that is still open at its end: such a quotation
runs to the end of the parameters.
-/
def read (content : List Char) : Except CommandError (Command × Option Char) :=
  let fail (fault : NameFault) := Except.error ⟨String.ofList content, fault⟩
  match Text.between? opening closing (Text.trim content) with
  | none => fail .missingDelimiters
  | some inner =>
    let inner := Text.trimStart inner
    let name := inner.takeWhile fun c => !Text.isBlank c
    let rest := inner.dropWhile fun c => !Text.isBlank c
    match NameFault.ofName? name with
    | some fault => fail fault
    | none =>
      let (parameters, openQuote) := splitParameters rest
      .ok (⟨String.ofList name, parameters, String.ofList content⟩, openQuote)

theorem read_source {content : List Char} {command : Command} {openQuote : Option Char}
    (h : read content = .ok (command, openQuote)) : command.source = String.ofList content := by
  simp only [read] at h
  split at h
  · cases h
  · split at h <;> cases h
    rfl

/-- Whether the command leads to another node. -/
def isJump (c : Command) : Bool := c.name == "jump"

/-- The node that a jump leads to. -/
def jumpTarget? (c : Command) : Option String :=
  if c.isJump then c.parameters.head?.map Value.display else none

end Command

end Parley
