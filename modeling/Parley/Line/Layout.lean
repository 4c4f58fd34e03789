import Parley.Line.Token

/-!
# Layout of a line

Before the pieces of a line are read, it is taken apart: its indentation, the arrow of an option,
the tags, the speaker's name up to the first colon, and the parts that remain.  Tags are cut out,
and the text on both sides of a tag is one part.

A speaker is named only in front of the first command or variable, and not by a text that could hold
the start of markup.

The width of an indentation is a natural number, whatever a tab is set to.

Principal results: `Part.chars_cons` — the parts hold the characters of all tokens but the tags.
-/

namespace Parley

/-- What remains of a line when its tags are cut out. -/
inductive Part where
  | text (cs : List Char)
  | command (cs : List Char)
  | var (cs : List Char)
  deriving DecidableEq, Repr

namespace Part

def chars : Part → List Char
  | .text cs => cs
  | .command cs => cs
  | .var cs => cs

def isText : Part → Bool
  | .text _ => true
  | _ => false

/-- Puts a token in front of parts; a tag is left out. -/
def cons (token : Token) (parts : List Part) : List Part :=
  match token with
  | .plain c =>
    match parts with
    | .text cs :: others => .text (c :: cs) :: others
    | _ => .text [c] :: parts
  | .command t => .command t :: parts
  | .var t => .var t :: parts
  | .tag _ => parts

def ofTokens (ts : List Token) : List Part := ts.foldr cons []

theorem chars_cons (token : Token) (parts : List Part) :
    (cons token parts).flatMap chars =
      (match token with | .tag _ => [] | _ => token.text) ++ parts.flatMap chars := by
  cases token with
  | plain c => simp only [cons]; split <;> simp [chars, Token.text]
  | command t => simp [cons, chars, Token.text]
  | var t => simp [cons, chars, Token.text]
  | tag t => simp [cons]

/-- Changes the first part if it is text. -/
def mapFirstText (f : List Char → List Char) : List Part → List Part
  | .text cs :: parts => .text (f cs) :: parts
  | parts => parts

/-- The parts without blanks at the start and the end, and without empty text. -/
def trim (parts : List Part) : List Part :=
  let started := mapFirstText Text.trimStart parts
  let ended := (mapFirstText Text.trimEnd started.reverse).reverse
  ended.filter (· != .text [])

end Part

def Tag.ofTokens (ts : List Token) : List Tag :=
  ts.filterMap fun token =>
    match token with
    | .tag t => some (Tag.read t)
    | _ => none

/-! ## The speaker -/

/-- A speaker has a name, and no command, variable or markup starts in it. -/
def isSpeakerName (name : List Char) : Bool :=
  !name.isEmpty && !name.contains '[' && !Text.occursIn Command.opening name &&
    !Text.occursIn Variable.opening name

/-- The name of the speaker in front of the parts of a line, and the parts after it. -/
def splitSpeaker (parts : List Part) : Option String × List Part :=
  match parts with
  | .text cs :: others =>
    match Text.cutUnescaped? ':' [] cs with
    | some (before, after) =>
      let name := Text.trim before
      let speech := Text.trimStart after
      if isSpeakerName name then
        (some (String.ofList name), if speech.isEmpty then others else .text speech :: others)
      else (none, parts)
    | none => (none, parts)
  | _ => (none, parts)

/-! ## The whole line -/

/-- The width of an indentation: a tab takes as many columns as it is set to, another blank one. -/
def indentWidth (tabWidth : Nat) (margin : List Char) : Nat :=
  margin.foldr (fun c width => (if c = '\t' then tabWidth else 1) + width) 0

structure Layout where
  indent : Nat
  /-- Whether it is an option, which an arrow shows. -/
  isOption : Bool
  speaker : Option String
  parts : List Part
  tags : List Tag
  deriving DecidableEq, Repr

namespace Layout

def arrow (cs : List Char) : Bool × List Char :=
  match cs with
  | '-' :: '>' :: rest => (true, Text.trimStart rest)
  | _ => (false, cs)

def read (tabWidth : Nat) (content : List Char) : Layout :=
  let (isOption, body) := arrow (Text.trim content)
  let ts := tokens body
  let (speaker, parts) := splitSpeaker (Part.trim (Part.ofTokens ts))
  ⟨indentWidth tabWidth (Text.margin content), isOption, speaker, parts, Tag.ofTokens ts⟩

end Layout

end Parley
