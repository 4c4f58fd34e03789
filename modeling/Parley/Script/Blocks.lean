import Parley.Node

/-!
# Blocks of a document

A document is cut at its `===` lines.  What stands between two of them is the text of a node, from
its first line that is not blank on; where all lines are blank there is no node.
-/

namespace Parley

/-- The text of a node in a document. -/
structure Block where
  lines : List (List Char)
  position : Position
  deriving DecidableEq, Repr

namespace Block

def text (b : Block) : List Char := Text.unlines b.lines

/-- Puts a line in front of groups of lines: the first group and the others. -/
def addToGroups (l : Located) (groups : List Located × List (List Located)) :
    List Located × List (List Located) :=
  if Node.isDelimiter Node.nodeEnd l then ([], groups.1 :: groups.2) else (l :: groups.1, groups.2)

/-- The groups of lines between delimiters. -/
def groups (ls : List Located) : List (List Located) :=
  let state := ls.foldr addToGroups ([], [])
  state.1 :: state.2

def ofGroup? (group : List Located) : Option Block :=
  match group.dropWhile Located.isBlank with
  | [] => none
  | l :: ls => some ⟨(l :: ls).map Prod.fst, l.2⟩

def ofDocument (cs : List Char) : List Block := (groups (located cs ⟨0⟩)).filterMap ofGroup?

end Block

end Parley
