/-!
# Blank characters and trimming

The blanks of a script are the characters of the Unicode property `White_Space`: the ASCII
ones from tab to carriage return and the space, next line, no-break space, and the spaces and
separators of the general punctuation.  Zero-width characters are not blank.

Everything works on lists of characters, so that a text can be cut and put together again
without positions.
-/

namespace Parley.Text

/-- A blank has the property `White_Space`. -/
def isBlank (c : Char) : Bool :=
  let n := c.toNat
  n == 0x20 || (0x09 ≤ n && n ≤ 0x0D) || n == 0x85 || n == 0xA0 || n == 0x1680 ||
    (0x2000 ≤ n && n ≤ 0x200A) || n == 0x2028 || n == 0x2029 || n == 0x202F || n == 0x205F ||
    n == 0x3000

def allBlank (cs : List Char) : Bool := cs.all isBlank

/-- The text from its first visible character on. -/
def trimStart (cs : List Char) : List Char := cs.dropWhile isBlank

/-- The text up to its last visible character. -/
def trimEnd (cs : List Char) : List Char := (cs.reverse.dropWhile isBlank).reverse

def trim (cs : List Char) : List Char := trimEnd (trimStart cs)

/-- The blanks before the first visible character. -/
def margin (cs : List Char) : List Char := cs.takeWhile isBlank

theorem trimStart_cons_of_not_blank {c : Char} (cs : List Char) (h : isBlank c = false) :
    trimStart (c :: cs) = c :: cs := by
  simp [trimStart, h]

/-! ## Words -/

/--
Gathers the maximal blank-free runs of a text from its end to its start: the first list is the
run that is still growing.
-/
def gatherWord (c : Char) (state : List Char × List (List Char)) : List Char × List (List Char) :=
  if isBlank c then
    if state.1.isEmpty then state else ([], state.1 :: state.2)
  else (c :: state.1, state.2)

/-- The words of a text: its maximal runs of visible characters, in order. -/
def words (cs : List Char) : List (List Char) :=
  let state := cs.foldr gatherWord ([], [])
  if state.1.isEmpty then state.2 else state.1 :: state.2

end Parley.Text
