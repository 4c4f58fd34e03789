import Parley.Name
import Parley.Text.Blank

/-!
# Variables

A variable `{$name}` is replaced by its value when the script is played.  Its name is a word, with
no blank before or after it.

Principal results: `read_source` — a variable keeps the text it was read from.
-/

namespace Parley

/-- An inline variable. -/
structure Variable where
  name : String
  source : String
  deriving DecidableEq, Repr

/-- A text that is no variable. -/
structure VariableError where
  content : String
  fault : NameFault
  deriving DecidableEq, Repr

namespace VariableError

def reason (e : VariableError) : String :=
  match e.fault with
  | .missingDelimiters => "missing '\x7b$' or '\x7d' delimiters"
  | .emptyName => "empty variable name"
  | .invalidName name => "invalid variable name '" ++ name ++ "'"

def message (e : VariableError) : String :=
  e.reason ++ " in variable string '" ++ e.content ++ "'"

def causes (e : VariableError) : List String := [e.reason]

end VariableError

namespace Variable

def opening : List Char := ['\x7b', '$']

def closing : List Char := ['\x7d']

/-- Reads a variable. -/
def read (content : List Char) : Except VariableError Variable :=
  let fail (fault : NameFault) := Except.error ⟨String.ofList content, fault⟩
  match Text.between? opening closing (Text.trim content) with
  | none => fail .missingDelimiters
  | some name =>
    match NameFault.ofName? name with
    | some fault => fail fault
    | none => .ok ⟨String.ofList name, String.ofList content⟩

def parse (content : String) : Except VariableError Variable := read content.toList

theorem read_source {content : List Char} {v : Variable} (h : read content = .ok v) :
    v.source = String.ofList content := by
  simp only [read] at h
  split at h
  · cases h
  · split at h <;> cases h
    rfl

end Variable

end Parley
