import Parley.Proofs.Document
import Parley.Proofs.Ledger

/-!
# What the header of a node must hold

The lines above the first `---` of a run are its header.  Every visible one must be a field, and the
first field named `title` must say something; then its text is the id of the node, where a number
is written out in full (so that `007` and `7` are one title).

* `Value.display_read_eq_empty_iff` — a title that says something gives an id that is not empty.
* `Node.readFields_eq` — the fields are read from the visible lines above the first `---`.
* `Document.headed_or_fails` — a header is in order, or one of two things is wrong with it.
* `Document.Headed.readFields` and `Document.HeaderFails.read` — and so it is read, or refused.
-/

namespace Parley

/-! ## Values that say something -/

theorem Text.ofList_ne_empty {c : Char} {cs : List Char} (h : c ∈ cs) :
    String.ofList cs ≠ "" := by
  rintro he
  rw [String.ofList_eq_empty_iff] at he
  rw [he] at h
  cases h

namespace Number

theorem Decimal.positional_ne_empty (d : Decimal) : d.positional ≠ "" := by
  obtain ⟨c, hc⟩ := List.exists_mem_of_ne_nil _ (Nat.toDigits_ne_nil (n := d.digits) (b := 10))
  unfold Decimal.positional
  dsimp only
  split
  · exact Text.ofList_ne_empty (List.mem_append_left _ hc)
  · split
    · exact Text.ofList_ne_empty (c := '.') (by simp)
    · exact Text.ofList_ne_empty (c := '0') (by simp)

theorem magnitude_ne_empty (bits : Nat) : magnitude bits ≠ "" := by
  unfold magnitude
  split
  · decide
  · split
    · decide
    · exact Decimal.positional_ne_empty _

theorem written_ne_empty (x : Float) : written x ≠ "" := by
  unfold written
  dsimp only
  split
  · decide
  · split
    · intro h
      have := congrArg String.toList h
      simp at this
    · exact magnitude_ne_empty _

end Number

/-- Only an empty text is read as a value that is displayed as nothing. -/
theorem Value.display_read_eq_empty_iff {token : List Char} :
    (read token).display = "" ↔ token = [] := by
  unfold read
  split
  · next h =>
    simp only [Bool.and_eq_true, Bool.not_eq_true', List.isEmpty_eq_false_iff] at h
    exact iff_of_false (Number.written_ne_empty _) h.1
  · split
    · next h => exact iff_of_false (by decide) (by simp [h])
    · split
      · next h => exact iff_of_false (by decide) (by simp [h])
      · exact String.ofList_eq_empty_iff

/-! ## The header of a run -/

namespace Document

/-- The lines of a run that have to be fields. -/
def fieldLines (run : List Numbered) : List Numbered := (above run).filter visible

/-- The title that a line gives, if it is a field with this key. -/
def titleIn? (line : List Char) : Option (List Char) :=
  (Text.cut? ':' line).bind fun (key, value) =>
    if Text.trim key = "title".toList then some (Text.trim value) else none

/-- The title of a run: what its first `title` field says. -/
def title? (run : List Numbered) : Option (List Char) :=
  (fieldLines run).findSome? fun l => titleIn? l.1

/-- The id that a title gives. -/
def idOf (title : List Char) : String := (Value.read title).display

/-- The header of a run is in order, and gives a title. -/
structure Headed (run : List Numbered) (title : List Char) : Prop where
  fields : ∀ l ∈ fieldLines run, ':' ∈ l.1
  given : title? run = some title
  nonempty : title ≠ []

/-- What is wrong with the header of a run: the first line that is no field, or else the title. -/
inductive HeaderFails (run : List Numbered) : NodeFault → Prop
  | field {before : List Numbered} {l : Numbered}
      (first : Stops (fun _ l => ':' ∈ l.1) (fieldLines run) before l) :
      HeaderFails run (.malformedField (String.ofList l.1) ⟨l.2⟩)
  | title (fields : ∀ l ∈ fieldLines run, ':' ∈ l.1)
      (missing : ∀ title, title? run = some title → title = []) : HeaderFails run .missingTitle

/-- **A header is in order, or something is wrong with it.** -/
theorem headed_or_fails (run : List Numbered) :
    (∃ title, Headed run title) ∨ ∃ fault, HeaderFails run fault := by
  rcases passes_or_stops (fun _ l => ':' ∈ l.1) (fieldLines run) with hpass | ⟨before, l, hstop⟩
  · have hfields := passes_iff_forall.mp hpass
    by_cases htitle : ∃ title, title? run = some title ∧ title ≠ []
    · obtain ⟨title, ht, hvisible⟩ := htitle
      exact .inl ⟨title, hfields, ht, hvisible⟩
    · refine .inr ⟨_, .title hfields fun title ht => ?_⟩
      by_contra hvisible
      exact htitle ⟨title, ht, hvisible⟩
  · exact .inr ⟨_, .field hstop⟩

end Document

open Document

/-! ## Reading the header -/

namespace Node

theorem exists_readField {l : Numbered} (h : ':' ∈ l.1) :
    ∃ field, readField l.located = .ok field := by
  cases hf : fieldOfLine? l.1 with
  | none => exact absurd h (fieldOfLine?_eq_none_iff.mp hf)
  | some field => exact ⟨field, by simp only [readField, Numbered.located, hf]⟩

theorem readField_of_not_mem {l : Numbered} (h : ':' ∉ l.1) :
    readField l.located = .error (.malformedField (String.ofList l.1) ⟨l.2⟩) := by
  simp only [readField, Numbered.located, fieldOfLine?_eq_none_iff.mpr h]

/-- **The fields of a node** are read from the visible lines above the first `---` of its run. -/
theorem readFields_eq (run : List Numbered) :
    readFields (headerOf ((trimmed run).map Numbered.located)) =
      ((fieldLines run).map Numbered.located).mapM readField := by
  have hvisible : (fun l : Located => !l.isBlank) ∘ Numbered.located = visible := by
    funext l
    simp [isBlank_located]
  rw [headerOf_map, readFields, List.filter_map, hvisible, (above_below_trimmed run).1]
  rfl

/-- The title among fields is the title among the lines that they are read from. -/
theorem fieldValue?_title {fields : List (String × Value)} {ls : List Numbered}
    (h : List.Forall₂ (fun field l => readField l.located = .ok field) fields ls) :
    fieldValue? fields "title" = (ls.findSome? fun l => titleIn? l.1).map Value.read := by
  induction h with
  | nil => rfl
  | @cons field l fields ls hread _ ih =>
    unfold readField at hread
    split at hread
    · next f hf =>
      cases hread
      obtain ⟨⟨key, value⟩, hcut, rfl⟩ := Option.map_eq_some_iff.mp hf
      have hcut : Text.cut? ':' l.1 = some (key, value) := hcut
      by_cases hkey : Text.trim key = "title".toList
      · simp [fieldValue?, titleIn?, hcut, hkey]
      · have hname : String.ofList (Text.trim key) ≠ "title" := by
          rintro he
          exact hkey (by rw [← he, String.toList_ofList])
        have htitle : titleIn? l.1 = none := by
          simp only [titleIn?, hcut, Option.bind_some, if_neg hkey]
        rw [List.findSome?_cons, htitle, ← ih, fieldValue?,
          List.find?_cons_of_neg (by simpa using hname)]
        rfl
    · cases hread

end Node

namespace Document

variable {run : List Numbered} {title : List Char} {fault : NodeFault}

/-- The fields of a header without fault are read, and give its title. -/
theorem exists_readFields (h : ∀ l ∈ fieldLines run, ':' ∈ l.1) :
    ∃ fields, Node.readFields (Node.headerOf ((trimmed run).map Numbered.located)) = .ok fields ∧
      Node.title? fields = ((title? run).map idOf).filter fun id => id != "" := by
  have hall : ∀ l ∈ (fieldLines run).map Numbered.located,
      ∃ field, Node.readField l = .ok field := by
    intro l hl
    obtain ⟨numbered, hm, rfl⟩ := List.mem_map.mp hl
    exact Node.exists_readField (h numbered hm)
  obtain ⟨fields, hfields⟩ := exists_mapM hall
  refine ⟨fields, by rw [Node.readFields_eq, hfields], ?_⟩
  have hread := mapM_eq_ok_iff.mp hfields
  rw [List.forall₂_map_right_iff] at hread
  rw [Node.title?, Node.fieldValue?_title hread, Option.map_map]
  rfl

/-- **A header in order is read**, and its title gives the id of the node. -/
theorem Headed.readFields (h : Headed run title) :
    ∃ fields, Node.readFields (Node.headerOf ((trimmed run).map Numbered.located)) = .ok fields ∧
      Node.title? fields = some (idOf title) := by
  obtain ⟨fields, hread, htitle⟩ := exists_readFields h.fields
  refine ⟨fields, hread, ?_⟩
  have hid : idOf title ≠ "" := fun he => h.nonempty (Value.display_read_eq_empty_iff.mp he)
  rw [htitle, h.given, Option.map_some, Option.filter_some, if_pos (by simpa using hid)]

/-- **A header that is not in order is refused** for what is wrong with it. -/
theorem HeaderFails.read {content : List Char} {position : Position} (h : HeaderFails run fault)
    (hl : located content position = (trimmed run).map Numbered.located) (s : Session) :
    Node.read content position s = (.error ⟨position, fault⟩, s) := by
  have hheader : ∀ result,
      Node.readFields (Node.headerOf (located content position)) = result →
      Node.readFields ((located content position).takeWhile fun l =>
        !Node.isDelimiter Node.fieldsEnd l) = result := fun _ he => he
  cases h with
  | @field before l first =>
    have hread : Node.readFields (Node.headerOf (located content position)) =
        .error (.malformedField (String.ofList l.1) ⟨l.2⟩) := by
      rw [hl, Node.readFields_eq]
      have hplace : before.map Numbered.located ++ [l.located] <+:
          (fieldLines run).map Numbered.located := by
        have := first.place.map Numbered.located
        rwa [List.map_append] at this
      apply mapM_stops hplace
      · intro x hx
        obtain ⟨numbered, hm, rfl⟩ := List.mem_map.mp hx
        exact Node.exists_readField (passes_iff_forall.mp first.passed numbered hm)
      · exact Node.readField_of_not_mem first.bad
    simp only [Node.read, hheader _ hread]
  | title fields missing =>
    obtain ⟨read, hread, htitle⟩ := exists_readFields fields
    rw [← hl] at hread
    have hnone : Node.title? read = none := by
      rw [htitle]
      cases ht : title? run with
      | none => rfl
      | some title =>
        rw [missing title ht]
        rfl
    simp only [Node.read, hheader _ hread, hnone]

end Document

end Parley
