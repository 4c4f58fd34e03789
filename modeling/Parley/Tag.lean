import Parley.Text.Cut
import Parley.Value

/-!
# Tags

A tag `#key` or `#key:value` annotates a line.  The tag keeps the text it was written with, since
the typed value of `#line:007` no longer shows the zeros.

Principal results: `written?_read` — a tag that was read has the text after its first colon as its
written value.
-/

namespace Parley

/-- An annotation of a line. -/
structure Tag where
  key : String
  value : Option Value
  /-- The tag as it stands in a script, with its leading `#`. -/
  source : String
  deriving DecidableEq, Repr

namespace Tag

/-- The key of the tag that names its line. -/
def lineKey : String := "line"

/-- The key of the tag on the last line before a set of options. -/
def lastLineKey : String := "lastline"

/-- Reads a tag; the leading `#` may be missing. -/
def read (cs : List Char) : Tag :=
  let body := Text.without ['#'] cs
  let source := String.ofList ('#' :: body)
  match Text.cut? ':' body with
  | some (key, value) => ⟨String.ofList key, some (Value.read value), source⟩
  | none => ⟨String.ofList body, none, source⟩

def parse (content : String) : Tag := read content.toList

/-- The tag with a key and, if there is one, a value. -/
def of (key : String) (value : Option Value) : Tag :=
  match value with
  | some v => ⟨key, value, "#" ++ key ++ ":" ++ v.display⟩
  | none => ⟨key, none, "#" ++ key⟩

/-- The value of a tag as it is written: all that follows the first colon. -/
def written? (tag : Tag) : Option String :=
  match tag.value with
  | none => none
  | some _ => (Text.cut? ':' tag.source.toList).map fun parts => String.ofList parts.2

theorem written?_read {cs key value : List Char}
    (h : Text.cut? ':' (Text.without ['#'] cs) = some (key, value)) :
    (read cs).written? = some (String.ofList value) := by
  simp [read, h, written?, Text.cut?_cons_of_ne]

end Tag

end Parley
