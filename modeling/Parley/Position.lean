/-!
# Positions

Lines of a document are counted from zero inside the library and from one in messages.  The counts
are natural numbers.  Where a position is kept in 32 bits, it is the same in a document of no more
than `2 ^ 32` lines, and otherwise its low bits (`ofIndex`).
-/

namespace Parley

/-- Where a line stands in its document. -/
structure Position where
  /-- The number of lines before it. -/
  index : Nat
  deriving DecidableEq, Repr, Inhabited

namespace Position

/-- The position with an index, of which the low 32 bits are kept. -/
def ofIndex (n : Nat) : Position := ⟨n % UInt32.size⟩

/-- The number of the line as an editor shows it. -/
def number (p : Position) : Nat := p.index + 1

/-- The position some lines further down. -/
def down (p : Position) (lines : Nat) : Position := ⟨p.index + lines⟩

def display (p : Position) : String := "line " ++ toString p.number

/-- The position in words, in front of a message about it. -/
def label (p : Position) : String := "(" ++ p.display ++ ") "

end Position

end Parley
