import Parley.Proofs.Spans

/-!
# What spans cover

A span counts characters and a text is cut by bytes.  Whatever a span says, also of a text that it
was not made for, the cuts are between characters, and what is between them is what the span marks,
as far as the text goes.  In the text of its own dialogue nothing is missing: a span covers what was
written between the item that opens it and the one that ends it.

Principal results: `Span.cover_characters` — what a span covers of any text;
`Dialog.Shows.cover_written` — what the spans of a dialogue cover of its text.
-/

namespace Parley

/--
**A span covers the characters that it marks**, those of them that the text has.  The walk along the
text finds bounds that are in order and between characters, so that there is a part to take.
-/
theorem Span.cover_characters (span : Span) (body : String) :
    (span.cover body).toList = (body.toList.drop span.start).take span.length ∧
      span.cover? body = some (span.cover body) ∧
      (span.bounds body.toList).1 ≤ (span.bounds body.toList).2 ∧
      String.Pos.Raw.IsValid body ⟨(span.bounds body.toList).1⟩ ∧
      String.Pos.Raw.IsValid body ⟨(span.bounds body.toList).2⟩ := by
  have hcover := span.cover?_eq_cover body
  refine ⟨span.toList_cover body, hcover, ?_⟩
  exact Text.isSome_slice?_iff.mp (Option.isSome_of_eq_some hcover)

/-- A place at the end, and a span that begins in the text and reaches beyond it. -/
example : (⟨"a", 2, 0, ∅⟩ : Span).bounds "éß".toList = (4, 4) ∧
    (⟨"a", 1, 7, ∅⟩ : Span).bounds "éß".toList = (2, 4) := by
  decide

/-! ## The text of a dialogue -/

namespace Markup

/-- A text is what was written while the span that item `i` begins was open. -/
inductive WrittenIn (items : List Found) (i : Nat) (text : List Char) : Prop
  | opener {name : String} {parameters : Table Value} {k : Nat}
      (item : items[i]?.map Found.item = some (.opener name parameters))
      (closed : Closes items name i k) (written : writtenAt items k = writtenAt items i ++ text)
  | place {name : String} {parameters : Table Value}
      (item : items[i]?.map Found.item = some (.place name parameters)) (written : text = [])

/-- A span from the column of one item to that of another covers what was written in between. -/
theorem writtenAt_append_cover {items : List Found} (rest : List Char) {i k : Nat} (h : i ≤ k)
    {span : Span} (hstart : span.start = column items i)
    (hstop : span.start + span.length = column items k) :
    writtenAt items k = writtenAt items i ++
      (span.cover (String.ofList (Text.collapse (literal items ++ rest)))).toList := by
  obtain ⟨between, hbetween⟩ := writtenAt_prefix_later items h
  obtain ⟨after, hafter⟩ := writtenAt_prefix_text items rest k
  have hi : (writtenAt items i).length = span.start := hstart.symm
  have hk : (writtenAt items k).length = span.start + span.length := hstop.symm
  have hlength : between.length = span.length := by
    rw [← hbetween, List.length_append] at hk
    omega
  rw [Span.toList_cover, String.toList_ofList, ← hafter, ← hbetween, ← hi, ← hlength,
    List.append_assoc, List.drop_left, List.take_left]

theorem Covers.cover {items : List Found} {i : Nat} {span : Span} (h : Covers items i span)
    (rest : List Char) :
    WrittenIn items i
      (span.cover (String.ofList (Text.collapse (literal items ++ rest)))).toList := by
  cases h with
  | opener item start closed stop =>
    have hlater := Nat.le_of_lt closed.item.1
    exact .opener item closed (writtenAt_append_cover rest hlater start stop)
  | place item _ length =>
    exact .place item (by rw [Span.toList_cover, length, List.take_zero])

end Markup

open Markup

/-- **The spans of a dialogue cover what was written while they were open.** -/
theorem Dialog.Shows.cover_written {dialog : Dialog} {items : List Found} {rest : List Char}
    (h : dialog.Shows items rest) :
    List.Forall₂ (fun i span => WrittenIn items i (span.cover dialog.body).toList)
      (marks items) dialog.spans := by
  rw [h.body]
  exact h.spans.imp fun _ _ hcovers => hcovers.cover rest

end Parley
