import Parley.Markup.Scan
import Parley.Markup.Span

/-!
# Dialogue

The plain text of a line, and the spans that its markup lays over it.  Runs of blanks become one
space, also where markup stood inside them, and the positions of the spans count the characters of
the text so written.

A named closer ends the span of that name that was opened last and is still open; spans may overlap.
A closer without such a span is an error, and so are spans that are never closed.

Principal results: `read_source` — a dialogue keeps the text it was read from; `Body.write_append` —
writing a text in two parts is writing it at once; `Drafts.close?_eq_none_iff` — a closer fails
exactly if no span of its name is open.
-/

namespace Parley

/-- The text of a line with its markup removed. -/
structure Dialog where
  body : String
  /-- The spans in the order in which they begin in the text. -/
  spans : List Span
  source : String
  deriving DecidableEq

inductive MarkupFault where
  /-- The names of spans that are never closed, in the order in which they were opened. -/
  | unterminated (names : List String)
  | unmatchedCloser (name : String)
  deriving DecidableEq, Repr

/-- A text whose markup does not fit together. -/
structure MarkupError where
  content : String
  fault : MarkupFault
  deriving DecidableEq, Repr

namespace MarkupError

def reason (e : MarkupError) : String :=
  match e.fault with
  | .unterminated names =>
    "markup [" ++ "], [".intercalate names ++
      "] was never closed (close it with '[/name]' or '[/]')"
  | .unmatchedCloser name =>
    "found closing markup '[/" ++ name ++ "]' with no open '[" ++ name ++ "]'"

def message (e : MarkupError) : String := e.reason ++ " in dialog '" ++ e.content ++ "'"

def causes (e : MarkupError) : List String := [e.reason]

end MarkupError

/-! ## Writing the text -/

/-- A text under construction. -/
structure Body where
  /-- The characters written so far, last one first. -/
  written : List Char
  size : Nat
  /-- Whether the text read so far ends with a blank. -/
  endsBlank : Bool
  deriving DecidableEq, Repr

namespace Body

def start : Body := ⟨[], 0, false⟩

/-- Writes one character; a blank is written as a space, and not at all after another blank. -/
def push (b : Body) (c : Char) : Body :=
  if Text.isBlank c then
    if b.endsBlank then b else ⟨' ' :: b.written, b.size + 1, true⟩
  else ⟨c :: b.written, b.size + 1, false⟩

def write (b : Body) (cs : List Char) : Body := cs.foldl push b

theorem write_append (b : Body) (cs ds : List Char) : b.write (cs ++ ds) = (b.write cs).write ds :=
  List.foldl_append

def text (b : Body) : String := String.ofList b.written.reverse

end Body

/-! ## Opening and closing spans -/

/-- A span under construction: it has no end while it is open. -/
structure Draft where
  name : String
  start : Nat
  stop : Option Nat
  parameters : Table Value
  deriving DecidableEq

namespace Draft

def isOpen (d : Draft) : Bool := d.stop.isNone

def close (d : Draft) (stop : Nat) : Draft := { d with stop := some (d.stop.getD stop) }

/-- The span, once it has ended. -/
def span (d : Draft) : Span := ⟨d.name, d.start, d.stop.getD d.start - d.start, d.parameters⟩

end Draft

/-- The spans begun so far, last one first. -/
abbrev Drafts := List Draft

namespace Drafts

/-- Ends the latest open span of a name. -/
def close? (name : String) (stop : Nat) : Drafts → Option Drafts
  | [] => none
  | d :: drafts =>
    if d.isOpen && d.name == name then some (d.close stop :: drafts)
    else (close? name stop drafts).map (d :: ·)

theorem close?_eq_none_iff {name : String} {stop : Nat} {drafts : Drafts} :
    close? name stop drafts = none ↔ ∀ d ∈ drafts, d.isOpen = true → d.name ≠ name := by
  induction drafts with
  | nil => simp [close?]
  | cons d drafts ih =>
    by_cases h : d.isOpen = true ∧ d.name = name
    · simp [close?, h]
    · have hb : (d.isOpen && d.name == name) = false := by simpa using h
      simp only [close?, hb, Bool.false_eq_true, if_false, Option.map_eq_none_iff, ih,
        List.forall_mem_cons]
      exact ⟨fun hr => ⟨fun ho hn => h ⟨ho, hn⟩, hr⟩, fun hr => hr.2⟩

end Drafts

/-- The text and the spans read so far. -/
structure Drafting where
  body : Body
  drafts : Drafts
  deriving DecidableEq

namespace Drafting

def start : Drafting := ⟨.start, []⟩

/-- Reads an item and the plain text before it. -/
def step (d : Drafting) (found : Markup.Found) : Except MarkupFault Drafting :=
  let body := d.body.write found.before
  match found.item with
  | .opener name parameters => .ok ⟨body, ⟨name, body.size, none, parameters⟩ :: d.drafts⟩
  | .place name parameters => .ok ⟨body, ⟨name, body.size, some body.size, parameters⟩ :: d.drafts⟩
  | .closer name =>
    match d.drafts.close? name body.size with
    | some drafts => .ok ⟨body, drafts⟩
    | none => .error (.unmatchedCloser name)
  | .closeAll => .ok ⟨body, d.drafts.map fun draft => draft.close body.size⟩

/-- The names of the open spans in the order in which they were opened. -/
def openNames (d : Drafting) : List String :=
  (d.drafts.filter Draft.isOpen).reverse.map Draft.name

end Drafting

namespace Dialog

def read (content : List Char) : Except MarkupError Dialog :=
  let (items, rest) := Markup.scan content
  match items.foldlM Drafting.step .start with
  | .error fault => .error ⟨String.ofList content, fault⟩
  | .ok d =>
    if d.openNames.isEmpty then
      .ok ⟨(d.body.write rest).text, d.drafts.reverse.map Draft.span, String.ofList content⟩
    else .error ⟨String.ofList content, .unterminated d.openNames⟩

def parse (content : String) : Except MarkupError Dialog := read content.toList

theorem read_source {content : List Char} {dialog : Dialog} (h : read content = .ok dialog) :
    dialog.source = String.ofList content := by
  simp only [read] at h
  split at h
  · cases h
  · split at h <;> cases h
    rfl

def span? (dialog : Dialog) (name : String) : Option Span :=
  dialog.spans.find? fun span => span.name == name

end Dialog

end Parley
