import Parley.Line.Basic
import Std.Data.ExtTreeMap

/-!
# The outline of a node

The indentation of lines makes them a forest.  A line that is indented further than the line before
it is that line's first child.  Any other line is the next sibling of the latest line with the same
indentation, whatever came between.

An option tells the line before it that options follow, with a `#lastline` tag: if that line has the
greatest indentation seen so far below the option's own, or, where nothing was indented less than
the option, if it is indented alike and no option itself.

Principal results: `size_link` — linking adds and drops no line.
-/

namespace Parley

/-- The lines placed so far, with their links. -/
structure Outline where
  lines : Array Line
  /-- The index of the latest line with each indentation. -/
  latest : Std.ExtTreeMap Nat Nat

namespace Outline

def empty : Outline := ⟨#[], ∅⟩

/-- The greatest indentation seen so far below another one. -/
def enclosing? (latest : Std.ExtTreeMap Nat Nat) (indent : Nat) : Option Nat :=
  (latest.keys.filter (· < indent)).max?

/-- Whether the options that a line begins belong to the line before it. -/
def endsWith (latest : Std.ExtTreeMap Nat Nat) (previous line : Line) : Bool :=
  line.isOption &&
    match enclosing? latest line.indent with
    | some indent => previous.indent == indent
    | none => previous.indent == line.indent && !previous.isOption

/-- Links the lines placed so far to a line that comes after them. -/
def link (lines : Array Line) (latest : Std.ExtTreeMap Nat Nat) (line : Line) : Array Line :=
  match lines.back? with
  | none => lines
  | some previous =>
    let last := lines.size - 1
    let linked :=
      if previous.indent < line.indent then
        lines.modify last fun l => { l with firstChild := some line.id }
      else
        match latest[line.indent]? with
        | some sibling => lines.modify sibling fun l => { l with nextSibling := some line.id }
        | none => lines
    if endsWith latest previous line then
      linked.modify last fun l => l.addTag (.of Tag.lastLineKey none)
    else linked

def place (o : Outline) (line : Line) : Outline :=
  match o with
  | ⟨lines, latest⟩ =>
    let index := lines.size
    ⟨(link lines latest line).push line, latest.insert line.indent index⟩

theorem size_link (lines : Array Line) (latest : Std.ExtTreeMap Nat Nat) (line : Line) :
    (link lines latest line).size = lines.size := by
  simp only [link]
  split
  · rfl
  · split <;> split <;> try split
    all_goals simp

def ofLines (lines : List Line) : Array Line := (lines.foldl place empty).lines

end Outline

end Parley
