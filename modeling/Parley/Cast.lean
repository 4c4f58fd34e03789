import Parley.Table

/-!
# The cast

Every speaker gets an identity when the name is first heard, and keeps it.  The cast remembers the
order of first appearance.

Principal results: `enroll_known` — a known speaker changes nothing; `find?_enroll` — enrolling a
name concerns no other name.
-/

namespace Parley

/-- Who speaks a line. -/
structure Speaker where
  id : String
  name : String
  deriving DecidableEq, Repr

/-- The speakers heard so far. -/
structure Cast where
  members : Table Speaker
  /-- The names in the order of first appearance. -/
  order : Array String
  deriving DecidableEq, Repr

namespace Cast

def empty : Cast := ⟨∅, #[]⟩

def find? (cast : Cast) (name : String) : Option Speaker := cast.members[name]?

/-- The speaker of a name, and the cast with that speaker, who gets the id if the name is new. -/
def enroll (cast : Cast) (name id : String) : Speaker × Cast :=
  match cast.find? name with
  | some speaker => (speaker, cast)
  | none => (⟨id, name⟩, ⟨cast.members.insert name ⟨id, name⟩, cast.order.push name⟩)

theorem enroll_known {cast : Cast} {name id : String} {speaker : Speaker}
    (h : cast.find? name = some speaker) : cast.enroll name id = (speaker, cast) := by
  simp [enroll, h]

theorem find?_enroll (cast : Cast) (name id other : String) :
    (cast.enroll name id).2.find? other =
      if name = other then some (cast.enroll name id).1 else cast.find? other := by
  simp only [enroll]
  split
  · next speaker h =>
    split
    · next he => rw [← he, h]
    · rfl
  · simp only [find?, Std.ExtTreeMap.getElem?_insert, Std.LawfulEqCmp.compare_eq_iff_eq]

/-- The speakers in the order of first appearance. -/
def list (cast : Cast) : List Speaker := cast.order.toList.filterMap cast.find?

def size (cast : Cast) : Nat := cast.members.size

end Cast

end Parley
