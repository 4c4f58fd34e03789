import Parley.Text.Cut
import Parley.Text.Word

/-!
# Names between delimiters

Commands and variables are named by a word between delimiters.  The name is missing, or empty, or
no word, or it is accepted.

Principal results: `NameFault.ofName?_eq_none_iff` — the accepted names are the words.
-/

namespace Parley

/-- What can be wrong with a name between delimiters. -/
inductive NameFault where
  | missingDelimiters
  | emptyName
  | invalidName (name : String)
  deriving DecidableEq, Repr

namespace NameFault

def ofName? (name : List Char) : Option NameFault :=
  if name.isEmpty then some .emptyName
  else if name.all Text.isWord then none
  else some (.invalidName (String.ofList name))

theorem ofName?_eq_none_iff {name : List Char} :
    ofName? name = none ↔ Text.allWord name = true := by
  cases h : name.all Text.isWord <;> cases name <;> simp_all [ofName?, Text.allWord]

end NameFault

end Parley
