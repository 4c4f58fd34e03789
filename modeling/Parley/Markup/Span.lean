import Parley.Table
import Parley.Text.Cut
import Parley.Value

/-!
# Spans

A span marks a run of characters in the text of a dialogue.  Its positions count characters, while a
text is kept in bytes, so the part that a span covers lies between two byte offsets.  One walk along
the characters finds both.  A span that reaches beyond the text covers what there is of it.

Principal results: `getD_offsets` — an offset counts the bytes of the characters before it;
`bounds_eq` — the bounds of a span count the bytes before its first and behind its last character;
`cover?_eq` — they always mark a part of the text.
-/

namespace Parley

/-- Markup over a text. -/
structure Span where
  name : String
  /-- The number of characters before the marked ones. -/
  start : Nat
  /-- The number of marked characters; markup that only marks a place has none. -/
  length : Nat
  parameters : Table Value
  deriving DecidableEq

namespace Span

/-! ## The walk along a text -/

/--
The offsets in bytes at which the characters of a text begin, which stands behind `bytes` others,
and last the one at which the text ends.
-/
def offsets (bytes : Nat) : List Char → List Nat
  | [] => [bytes]
  | c :: cs => bytes :: offsets (bytes + c.utf8Size) cs

/-- Beyond the last offset stands the end of the text. -/
theorem getD_offsets (bytes n : Nat) (cs : List Char) :
    (offsets bytes cs)[n]?.getD (bytes + Text.size cs) = bytes + Text.size (cs.take n) := by
  induction cs generalizing bytes n with
  | nil => cases n <;> simp [offsets]
  | cons c cs ih =>
    cases n with
    | zero => simp [offsets]
    | succ n =>
      rw [offsets, List.getElem?_cons_succ, Text.size_cons, ← Nat.add_assoc, ih,
        List.take_succ_cons, Text.size_cons, Nat.add_assoc]

/--
A walk over `n` offsets to the one behind them, and the offsets from which it can go on.  There is
none, and nothing to go on from, if there are not so many.
-/
def walk (n : Nat) (offsets : List Nat) : Option Nat × List Nat :=
  (offsets[n]?, offsets.drop (n + 1))

/-- A walk that goes on comes to an offset further on. -/
theorem walk_walk (n m : Nat) (offsets : List Nat) :
    (walk m (walk n offsets).2).1 = offsets[n + (m + 1)]? := by
  simp only [walk, List.getElem?_drop]
  congr 1
  omega

/-! ## What a span covers -/

/--
The offsets in bytes between which the span lies.  The walk that has come to the first goes on to
the last, which is the first itself if no characters are marked.
-/
def bounds (span : Span) (body : List Char) : Nat × Nat :=
  let stop := Text.size body
  let (first?, behind) := walk span.start (offsets 0 body)
  let first := first?.getD stop
  match span.length with
  | 0 => (first, first)
  | length + 1 => (first, (walk length behind).1.getD stop)

theorem bounds_eq (span : Span) (body : List Char) :
    span.bounds body =
      (Text.size (body.take span.start), Text.size (body.take (span.start + span.length))) := by
  have hoffset : ∀ n, (offsets 0 body)[n]?.getD (Text.size body) = Text.size (body.take n) := by
    intro n
    simpa using getD_offsets 0 n body
  have hfirst : (walk span.start (offsets 0 body)).1.getD (Text.size body) =
      Text.size (body.take span.start) := hoffset span.start
  unfold bounds
  cases span.length with
  | zero => simp only [hfirst, Nat.add_zero]
  | succ length => simp only [hfirst, walk_walk, hoffset]

/-- The part of a text that lies between the bounds of the span. -/
def cover? (span : Span) (body : String) : Option String :=
  let (first, last) := span.bounds body.toList
  Text.slice? first last body

/-- Bounds are in order, and at characters' ends both. -/
theorem cover?_eq (span : Span) (body : String) :
    span.cover? body = some (String.ofList ((body.toList.drop span.start).take span.length)) := by
  have hstop : body.toList.take (span.start + span.length) =
      body.toList.take span.start ++ (body.toList.drop span.start).take span.length :=
    List.take_add
  simp only [cover?, bounds_eq]
  refine Text.slice?_eq_some_iff.mpr
    ⟨String.ofList (body.toList.take span.start),
      String.ofList (body.toList.drop (span.start + span.length)), ?_, ?_, ?_⟩
  · rw [← String.ofList_append, ← hstop, ← String.ofList_append, List.take_append_drop,
      String.ofList_toList]
  · rw [← Text.size_toList, String.toList_ofList]
  · rw [← String.ofList_append, ← hstop, ← Text.size_toList, String.toList_ofList]

/-- The part of a text that the span covers. -/
def cover (span : Span) (body : String) : String :=
  (span.cover? body).get (by rw [cover?_eq]; rfl)

theorem cover?_eq_cover (span : Span) (body : String) :
    span.cover? body = some (span.cover body) := by
  simp [cover]

theorem toList_cover (span : Span) (body : String) :
    (span.cover body).toList = (body.toList.drop span.start).take span.length := by
  have hcover := (span.cover?_eq_cover body).symm.trans (span.cover?_eq body)
  rw [Option.some.inj hcover, String.toList_ofList]

end Span

end Parley
