import Parley.Dialog

/-!
# What the text of a dialogue is

A text is written piece by piece, as markup is cut out of it, and what is written of a blank depends
on what was written last.  All in all every maximal run of blanks becomes one space (`collapse`),
wherever the text was cut.

Principal results: `Body.text_write` — writing a text in pieces is collapsing it as a whole;
`Body.size_write` — and the size counts the characters of that.
-/

namespace Parley

namespace Text

/-- The text with one space for every maximal run of blanks. -/
def collapse : List Char → List Char
  | [] => []
  | c :: cs => if isBlank c then ' ' :: collapse (trimStart cs) else c :: collapse cs
termination_by cs => cs.length
decreasing_by
  · have := (List.dropWhile_sublist isBlank (l := cs)).length_le
    simp only [trimStart, List.length_cons]
    omega
  · simp

theorem collapse_nil : collapse [] = [] := by
  rw [collapse]

theorem collapse_cons_of_blank {c : Char} (h : isBlank c = true) (cs : List Char) :
    collapse (c :: cs) = ' ' :: collapse (trimStart cs) := by
  rw [collapse, if_pos h]

theorem collapse_cons_of_visible {c : Char} (h : isBlank c = false) (cs : List Char) :
    collapse (c :: cs) = c :: collapse cs := by
  rw [collapse, h]
  rfl

end Text

namespace Body

/-- What is still to be written of a text: a blank in front is dropped after another blank. -/
def toWrite (b : Body) (cs : List Char) : List Char :=
  Text.collapse (if b.endsBlank then Text.trimStart cs else cs)

/-- One character more, and the rest is as before. -/
theorem push_toWrite (b : Body) (c : Char) (cs : List Char) :
    (b.push c).written.reverse ++ (b.push c).toWrite cs =
      b.written.reverse ++ b.toWrite (c :: cs) := by
  unfold push toWrite
  cases hc : Text.isBlank c with
  | true =>
    cases hb : b.endsBlank with
    | true => simp [hc, hb, Text.trimStart]
    | false => simp [Text.collapse_cons_of_blank hc]
  | false =>
    cases hb : b.endsBlank <;> simp [hc, Text.collapse_cons_of_visible hc, Text.trimStart]

theorem written_write (b : Body) (cs : List Char) :
    (b.write cs).written.reverse = b.written.reverse ++ b.toWrite cs := by
  induction cs generalizing b with
  | nil =>
    cases hb : b.endsBlank <;> simp [write, toWrite, Text.collapse_nil, Text.trimStart]
  | cons c cs ih =>
    rw [write, List.foldl_cons, ← write, ih, push_toWrite]

/-- The size is the number of characters written. -/
def Counts (b : Body) : Prop := b.size = b.written.length

theorem counts_start : start.Counts := rfl

theorem Counts.push {b : Body} (h : b.Counts) (c : Char) : (b.push c).Counts := by
  unfold Body.push
  unfold Counts at *
  split
  · split
    · exact h
    · simp [h]
  · simp [h]

theorem Counts.write {b : Body} (h : b.Counts) (cs : List Char) : (b.write cs).Counts := by
  induction cs generalizing b with
  | nil => exact h
  | cons c cs ih => exact ih (h.push c)

/-- **A written text is collapsed.** -/
theorem text_write (cs : List Char) : (start.write cs).text = String.ofList (Text.collapse cs) := by
  unfold text
  rw [written_write]
  rfl

/-- What has been written of a text stays as it is when more of it is written. -/
theorem collapse_prefix_append (cs ds : List Char) :
    Text.collapse cs <+: Text.collapse (cs ++ ds) := by
  have hwritten : ∀ cs, (start.write cs).written.reverse = Text.collapse cs :=
    written_write start
  rw [← hwritten (cs ++ ds), write_append, written_write, hwritten]
  exact List.prefix_append _ _

/-- **The size counts the characters of the collapsed text.** -/
theorem size_write (cs : List Char) : (start.write cs).size = (Text.collapse cs).length := by
  rw [(counts_start.write cs), ← List.length_reverse, written_write]
  rfl

theorem size_le_push (b : Body) (c : Char) : b.size ≤ (b.push c).size := by
  unfold push
  split
  · split <;> simp
  · simp

/-- Writing takes nothing back. -/
theorem size_le_write (b : Body) (cs : List Char) : b.size ≤ (b.write cs).size := by
  induction cs generalizing b with
  | nil => exact Nat.le_refl _
  | cons c cs ih => exact Nat.le_trans (b.size_le_push c) (ih (b.push c))

end Body

end Parley
