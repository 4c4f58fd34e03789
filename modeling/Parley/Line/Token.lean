import Parley.Command.Basic
import Parley.Tag
import Parley.Variable

/-!
# Tokens of a line

A line is read from left to right.  Where no backslash precedes, a token starts with

* `<<`: a command, which has at least one character inside and runs to the first `>>` after that,
* `{$`: a variable, if a word and `}` follow,
* `#`: a tag, if a word follows; a colon and a word after that belong to it.

Every other character is a token by itself.  The search for `>>` remembers at which byte it has
found one, so that a line with many openers is read only once.

Principal results: `var?_text`, `tag?_text`, `command?_text` — a token and the rest are the text
it was taken from; `Scan.step?_text` — so a step of the scan gets on and loses nothing.
-/

namespace Parley

inductive Token where
  | plain (c : Char)
  | command (text : List Char)
  | var (text : List Char)
  | tag (text : List Char)
  deriving DecidableEq, Repr

namespace Token

def text : Token → List Char
  | .plain c => [c]
  | .command t => t
  | .var t => t
  | .tag t => t

/-! ## Variables and tags -/

/-- The variable at the start of a text, and the rest. -/
def var? (cs : List Char) : Option (List Char × List Char) :=
  match Variable.opening.isPrefixOf? cs with
  | none => none
  | some inner =>
    let name := Text.wordRun inner
    match Variable.closing.isPrefixOf? (Text.afterWord inner) with
    | some rest =>
      if name.isEmpty then none else some (Variable.opening ++ name ++ Variable.closing, rest)
    | none => none

/-- The colon and the word at the start of a text, and the rest; both may be empty. -/
def tagValue (cs : List Char) : List Char × List Char :=
  match cs with
  | ':' :: inner =>
    let value := Text.wordRun inner
    if value.isEmpty then ([], cs) else (':' :: value, Text.afterWord inner)
  | _ => ([], cs)

def tag? (cs : List Char) : Option (List Char × List Char) :=
  match cs with
  | '#' :: inner =>
    let key := Text.wordRun inner
    if key.isEmpty then none
    else
      let (value, rest) := tagValue (Text.afterWord inner)
      some ('#' :: (key ++ value), rest)
  | _ => none

theorem eq_append_of_isPrefixOf? {lead cs rest : List Char} (h : lead.isPrefixOf? cs = some rest) :
    cs = lead ++ rest := by
  induction lead generalizing cs with
  | nil =>
    have hrest : some cs = some rest := h
    cases hrest
    rfl
  | cons l lead ih =>
    cases cs with
    | nil => cases h
    | cons c cs =>
      have hstep : (if l == c then lead.isPrefixOf? cs else none) = some rest := h
      split at hstep
      · next he => rw [← eq_of_beq he, ih hstep, List.cons_append]
      · cases hstep

theorem var?_text {cs t rest : List Char} (h : var? cs = some (t, rest)) :
    cs = t ++ rest := by
  simp only [var?] at h
  split at h
  · cases h
  · next inner hi =>
    split at h
    · next after ha =>
      split at h
      · cases h
      · cases h
        rw [eq_append_of_isPrefixOf? hi, List.append_assoc, List.append_assoc,
          ← eq_append_of_isPrefixOf? ha, Text.wordRun_append_afterWord]
    · cases h

theorem tagValue_text (cs : List Char) : (tagValue cs).1 ++ (tagValue cs).2 = cs := by
  simp only [tagValue]
  split
  · split
    · rfl
    · simp [Text.wordRun_append_afterWord]
  · rfl

theorem tag?_text {cs t rest : List Char} (h : tag? cs = some (t, rest)) : cs = t ++ rest := by
  simp only [tag?] at h
  split at h
  · next inner =>
    split at h
    · cases h
    · cases h
      rw [List.cons_append, List.append_assoc, tagValue_text, Text.wordRun_append_afterWord]
  · cases h

/-! ## Commands -/

/-- What a search for `>>` has found so far.  Positions count bytes. -/
inductive Closer where
  | unsought
  /-- The first one after some earlier place starts here. -/
  | found (position : Nat)
  | absent
  deriving DecidableEq, Repr

namespace Closer

/-- The position of the first `>>` in a text that starts at a position. -/
def seek (position : Nat) : List Char → Closer
  | [] => .absent
  | c :: cs =>
    if Command.closing.isPrefixOf (c :: cs) then .found position
    else seek (position + c.utf8Size) cs

/-- The first `>>` in a text that starts at a position, with a search only if it is needed. -/
def advance (memory : Closer) (position : Nat) (cs : List Char) : Closer :=
  match memory with
  | .absent => .absent
  | .found p => if position ≤ p then .found p else seek position cs
  | .unsought => seek position cs

theorem le_of_seek {position p : Nat} {cs : List Char} (h : seek position cs = .found p) :
    position ≤ p := by
  induction cs generalizing position with
  | nil => cases h
  | cons c cs ih =>
    simp only [seek] at h
    split at h
    · cases h; exact Nat.le_refl _
    · exact Nat.le_trans (Nat.le_add_right _ _) (ih h)

theorem le_of_advance {memory : Closer} {position p : Nat} {cs : List Char}
    (h : memory.advance position cs = .found p) : position ≤ p := by
  cases memory with
  | unsought => exact le_of_seek h
  | absent => cases h
  | found q =>
    simp only [advance] at h
    split at h
    · next hq => cases h; exact hq
    · exact le_of_seek h

end Closer

/--
The command at the start of a text that stands at a position of its line, and the rest; and what is
known afterwards about closing delimiters.
-/
def command? (memory : Closer) (position : Nat) (cs : List Char) :
    Closer × Option (List Char × List Char) :=
  match cs with
  | '<' :: '<' :: first :: inner =>
    let memory := memory.advance (position + 2 + first.utf8Size) inner
    match memory with
    | .found p => (memory, Text.cutAt? (p + 2 - position) cs)
    | _ => (memory, none)
  | _ => (memory, none)

theorem command?_text {memory : Closer} {position : Nat} {cs t rest : List Char}
    (h : (command? memory position cs).2 = some (t, rest)) : cs = t ++ rest := by
  simp only [command?] at h
  split at h
  · split at h
    · exact (Text.cutAt?_eq_some_iff.mp h).1
    · cases h
  · cases h

theorem command?_ne_nil {memory : Closer} {position : Nat} {cs t rest : List Char}
    (h : (command? memory position cs).2 = some (t, rest)) : t ≠ [] := by
  simp only [command?] at h
  split at h
  · split at h
    · next p hp =>
      have hle := Closer.le_of_advance hp
      have hsize := (Text.cutAt?_eq_some_iff.mp h).2
      rintro rfl
      rw [Text.size_nil] at hsize
      omega
    · cases h
  · cases h

theorem var?_ne_nil {cs t rest : List Char} (h : var? cs = some (t, rest)) : t ≠ [] := by
  simp only [var?] at h
  split at h
  · cases h
  · split at h
    · split at h
      · cases h
      · cases h; simp [Variable.opening]
    · cases h

theorem tag?_ne_nil {cs t rest : List Char} (h : tag? cs = some (t, rest)) : t ≠ [] := by
  simp only [tag?] at h
  split at h
  · split at h
    · cases h
    · cases h; simp
  · cases h

/-! ## The scan -/

/--
The token with more than one character at the start of a text, and the rest; and what is known
afterwards about closing delimiters.
-/
def special? (memory : Closer) (position : Nat) (cs : List Char) :
    Closer × Option (Token × List Char) :=
  match cs with
  | '<' :: _ =>
    let (memory, found?) := command? memory position cs
    (memory, found?.map fun (t, rest) => (.command t, rest))
  | '\x7b' :: _ => (memory, (var? cs).map fun (t, rest) => (.var t, rest))
  | '#' :: _ => (memory, (tag? cs).map fun (t, rest) => (.tag t, rest))
  | _ => (memory, none)

theorem special?_text {memory : Closer} {position : Nat} {cs rest : List Char} {t : Token}
    (h : (special? memory position cs).2 = some (t, rest)) : cs = t.text ++ rest ∧ t.text ≠ [] := by
  simp only [special?] at h
  split at h
  · obtain ⟨⟨u, v⟩, hu, he⟩ := Option.map_eq_some_iff.mp h
    cases he
    exact ⟨command?_text hu, command?_ne_nil hu⟩
  · obtain ⟨⟨u, v⟩, hu, he⟩ := Option.map_eq_some_iff.mp h
    cases he
    exact ⟨var?_text hu, var?_ne_nil hu⟩
  · obtain ⟨⟨u, v⟩, hu, he⟩ := Option.map_eq_some_iff.mp h
    cases he
    exact ⟨tag?_text hu, tag?_ne_nil hu⟩
  · cases h

/-- A scan of a line that has come to some place. -/
structure Scan where
  memory : Closer
  /-- The number of bytes before the place. -/
  position : Nat
  /-- Whether the character before the place is a backslash. -/
  afterBackslash : Bool
  rest : List Char
  deriving DecidableEq, Repr

namespace Scan

def start (cs : List Char) : Scan := ⟨.unsought, 0, false, cs⟩

/-- The next token, and the scan after it.  After a backslash it is a plain character. -/
def step? (s : Scan) : Option (Token × Scan) :=
  match s.rest with
  | [] => none
  | c :: rest =>
    let (memory, found?) :=
      if s.afterBackslash then (s.memory, none) else special? s.memory s.position (c :: rest)
    match found? with
    | some (t, after) => some (t, ⟨memory, s.position + Text.size t.text, false, after⟩)
    | none => some (.plain c, ⟨memory, s.position + c.utf8Size, c == '\\', rest⟩)

theorem step?_text {s next : Scan} {t : Token} (h : s.step? = some (t, next)) :
    s.rest = t.text ++ next.rest ∧ t.text ≠ [] := by
  unfold step? at h
  split at h
  · cases h
  · next c rest hrest =>
    simp only at h
    split at h
    · next u after hfound =>
      cases h
      split at hfound
      · cases hfound
      · rw [hrest]
        exact special?_text hfound
    · cases h
      exact ⟨hrest, by simp [text]⟩

theorem step?_rest_lt {s next : Scan} {t : Token} (h : s.step? = some (t, next)) :
    next.rest.length < s.rest.length := by
  obtain ⟨he, hn⟩ := step?_text h
  have := List.length_pos_iff.mpr hn
  rw [he, List.length_append]
  omega

/-- The tokens from the place of a scan on, after those in `done` (last one first). -/
def run (done : List Token) (s : Scan) : List Token :=
  match h : s.step? with
  | none => done.reverse
  | some (t, next) =>
    have : next.rest.length < s.rest.length := step?_rest_lt h
    run (t :: done) next
termination_by s.rest.length

theorem step?_eq_none_iff {s : Scan} : s.step? = none ↔ s.rest = [] := by
  unfold step?
  split
  · next hrest => simp [hrest]
  · next c rest hrest =>
    simp only [hrest, reduceCtorEq, iff_false]
    split <;> simp

end Scan

end Token

def tokens (cs : List Char) : List Token := Token.Scan.run [] (.start cs)

end Parley
