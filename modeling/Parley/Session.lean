import Parley.Minted
import Parley.Notice

/-!
# Sessions

Everything that is read together shares a session: the settings, the cast, the log, the owners of
the lines read so far, and the number of ids that were minted.  A session only grows, whether a text
can be read or not.

Numbers of ids and widths of tabs are natural numbers here, of any size.

Principal results: `register?_eq_none_iff` — a line id is refused exactly if it is taken;
`owner?_register` — registering a line concerns no other line.
-/

namespace Parley

structure Options where
  /-- The largest number of bytes that a document may have, if there is a limit. -/
  maxSize : Option Nat := some (4 * 1024 * 1024)
  /-- The number of columns that a tab takes. -/
  tabWidth : Nat := 8
  /-- Whether jumps to missing nodes are reported. -/
  checkJumps : Bool := true
  deriving DecidableEq, Repr

/-- What is shared by all that is read together. -/
structure Session where
  options : Options
  cast : Cast
  log : Log
  /-- The node of every line, by the id of the line. -/
  owners : Table String
  minted : Nat
  notices : Array Notice
  deriving DecidableEq, Repr

namespace Session

def start (options : Options) : Session := ⟨options, .empty, .empty, ∅, 0, #[]⟩

def notice (s : Session) (n : Notice) : Session := { s with notices := s.notices.push n }

def warn (s : Session) (r : Report) : Session := ({ s with log := s.log.add r }).notice (.warned r)

def mint (s : Session) (stem : String) : String × Session :=
  (mintedId stem s.minted, { s with minted := s.minted + 1 })

/-- The speaker of a name, who is enrolled in the cast with a minted id if the name is new. -/
def speaker (s : Session) (name : String) : Speaker × Session :=
  match s.cast.find? name with
  | some speaker => (speaker, s)
  | none =>
    let (id, s) := s.mint "character"
    let (speaker, cast) := s.cast.enroll name id
    (speaker, ({ s with cast := cast }).notice (.speakerAdded speaker))

theorem speaker_known {s : Session} {name : String} {speaker : Speaker}
    (h : s.cast.find? name = some speaker) : s.speaker name = (speaker, s) := by
  simp [Session.speaker, h]

def owner? (s : Session) (line : String) : Option String := s.owners[line]?

def lineCount (s : Session) : Nat := s.owners.size

/-- Makes a node the owner of a line, unless the id of the line is taken. -/
def register? (s : Session) (line node : String) : Option Session :=
  if (s.owner? line).isSome then none else some { s with owners := s.owners.insert line node }

theorem register?_eq_none_iff {s : Session} {line node : String} :
    s.register? line node = none ↔ (s.owner? line).isSome = true := by
  simp only [register?]
  split <;> simp_all

theorem owner?_register {s t : Session} {line node : String} (h : s.register? line node = some t)
    (other : String) : t.owner? other = if line = other then some node else s.owner? other := by
  simp only [register?] at h
  split at h
  · cases h
  · cases h
    simp only [owner?, Std.ExtTreeMap.getElem?_insert, Std.LawfulEqCmp.compare_eq_iff_eq]

end Session

end Parley
