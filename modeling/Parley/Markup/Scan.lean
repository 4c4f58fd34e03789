import Parley.Markup.Item

/-!
# Finding markup in a text

An item starts at a `[` that no backslash precedes and ends at the next bracket, which has to be a
`]`.  The scan looks for the first `[`, for the first `]` after it, and goes back to the last `[`
before that: no earlier one can start an item.  If these two brackets hold no item, the scan goes on
after the `]`.

Principal results: `lastOpen_append` — the cut at the last opening bracket loses nothing;
`next?_rest_lt` — each found item leaves less to read; `text_scan` — the found items and the text
between them are the whole text.
-/

namespace Parley.Markup

/-- An item with the plain text before it, back to the item before that. -/
structure Found where
  before : List Char
  /-- The text between the brackets. -/
  interior : List Char
  item : Item
  deriving DecidableEq

/-- The found item as it stands in the text, after the plain text before it. -/
def Found.text (f : Found) : List Char := f.before ++ '[' :: f.interior ++ [']']

/--
Cuts the text after a `[` at the last `[`: the text from the first bracket up to the last one, and
the text after the last one.
-/
def lastOpen (inside : List Char) : List Char × List Char :=
  match Text.cut? '[' inside.reverse with
  | none => ([], inside)
  | some (after, before) => ('[' :: before.reverse, after.reverse)

theorem lastOpen_append (inside : List Char) :
    (lastOpen inside).1 ++ '[' :: (lastOpen inside).2 = '[' :: inside := by
  simp only [lastOpen]
  split
  · rfl
  · next after before h =>
    have hr := congrArg List.reverse (Text.cut?_eq_some h).1
    simp only [List.reverse_reverse, List.reverse_append, List.reverse_cons, List.append_assoc,
      List.singleton_append] at hr
    simp [hr]

/--
The first item in a text, and the rest after it.  `passed` is the plain text that was read since the
last item, in reverse.
-/
def next? (passed cs : List Char) : Option (Found × List Char) :=
  match h : Text.cut? '[' cs with
  | none => none
  | some (before, afterOpen) =>
    match h' : Text.cut? ']' afterOpen with
    | none => none
    | some (inside, rest) =>
      have : rest.length < cs.length :=
        Nat.lt_trans (Text.cut?_rest_lt h') (Text.cut?_rest_lt h)
      let (outer, interior) := lastOpen inside
      let plain := outer.reverse ++ (before.reverse ++ passed)
      let item? := if plain.head? == some '\\' then none else Item.ofInterior? interior
      match item? with
      | some item => some (⟨plain.reverse, interior, item⟩, rest)
      | none => next? (']' :: (interior.reverse ++ '[' :: plain)) rest
termination_by cs.length

theorem next?_rest_lt {passed cs rest : List Char} {f : Found}
    (h : next? passed cs = some (f, rest)) : rest.length < cs.length := by
  fun_induction next? passed cs with
  | case1 => cases h
  | case2 => cases h
  | case3 passed cs before afterOpen hb inside after ha lt outer interior hl plain item? item hi =>
    cases h
    exact lt
  | case4 passed cs before afterOpen hb inside after ha lt outer interior hl plain item? hi ih =>
    exact Nat.lt_trans (ih h) lt

/-- Two cuts put together again. -/
theorem eq_of_cuts {cs before afterOpen inside rest : List Char}
    (hb : Text.cut? '[' cs = some (before, afterOpen))
    (ha : Text.cut? ']' afterOpen = some (inside, rest)) :
    cs = before ++ ((lastOpen inside).1 ++ '[' :: ((lastOpen inside).2 ++ ']' :: rest)) := by
  rw [(Text.cut?_eq_some hb).1, (Text.cut?_eq_some ha).1, ← List.cons_append, ← lastOpen_append]
  simp

theorem text_next? {passed cs rest : List Char} {f : Found}
    (h : next? passed cs = some (f, rest)) : f.text ++ rest = passed.reverse ++ cs := by
  fun_induction next? passed cs with
  | case1 => cases h
  | case2 => cases h
  | case3 passed cs before afterOpen hb inside after ha lt outer interior hl plain item? item hi =>
    cases h
    rw [eq_of_cuts hb ha, hl]
    simp [Found.text, plain]
  | case4 passed cs before afterOpen hb inside after ha lt outer interior hl plain item? hi ih =>
    rw [ih h, eq_of_cuts hb ha, hl]
    simp [plain]

/-- The items in a text after those found so far (last one first), and the text after them all. -/
def scanFrom (found : List Found) (cs : List Char) : List Found × List Char :=
  match h : next? [] cs with
  | none => (found.reverse, cs)
  | some (f, rest) =>
    have : rest.length < cs.length := next?_rest_lt h
    scanFrom (f :: found) rest
termination_by cs.length

theorem text_scanFrom (found : List Found) (cs : List Char) :
    (scanFrom found cs).1.flatMap Found.text ++ (scanFrom found cs).2 =
      found.reverse.flatMap Found.text ++ cs := by
  fun_induction scanFrom found cs with
  | case1 => rfl
  | case2 found cs f rest h lt ih =>
    rw [ih]
    simpa using text_next? h

/-- The items in a text, and the plain text after the last one. -/
def scan (cs : List Char) : List Found × List Char := scanFrom [] cs

theorem text_scan (cs : List Char) : (scan cs).1.flatMap Found.text ++ (scan cs).2 = cs :=
  text_scanFrom [] cs

end Parley.Markup
