import Parley.Notice
import Parley.Proofs.Pieces

/-!
# Pieces have the delimiters that their readers look for

Delimiters are looked for twice.  The scan of a line finds where a command or a variable begins and
ends, and the reader of the piece then trims it, takes the delimiters off and checks what is left.
The two agree, whatever stands around the piece: what the scan cuts out (`Part.Formed`) begins and
ends with its delimiters, which share no character, and a variable has a word between them.  So no
line is refused for its delimiters or for a variable; only the name of a command can be wrong.

* `Segment.Of.readBack` — a command that was read from a piece is read again from its own text.
* `Segment.Of.delimited` — segments keep the delimiters of their pieces.
* `Line.readParts_error` — reading the pieces fails for what is wrong with one of them.
* `Line.read_delimited` — so lines have delimited segments, or are refused for something else.
-/

namespace Parley

/-! ## Segments with their delimiters -/

/-- The source of a variable is its name, which is a word, between the delimiters. -/
structure Variable.Delimited (v : Variable) : Prop where
  word : Text.allWord v.name.toList = true
  source : v.source.toList = Variable.opening ++ v.name.toList ++ Variable.closing

/-- The source of a command stands between the delimiters, and is read as the same command again. -/
structure Command.Delimited (c : Command) : Prop where
  source : ∃ inner, c.source.toList = Command.opening ++ inner ++ Command.closing
  again : (Command.parse c.source).1 = .ok c

/-- The segment has the delimiters of its kind; a dialogue has none. -/
def Segment.Delimited : Segment → Prop
  | .dialog _ => True
  | .command c => c.Delimited
  | .var v => v.Delimited

theorem Command.parse_eq_ok_iff {content : String} {c : Command} :
    (parse content).1 = .ok c ↔ ∃ openQuote, read content.toList = .ok (c, openQuote) := by
  unfold parse
  cases read content.toList with
  | error e => simp
  | ok found =>
    obtain ⟨command, _ | mark⟩ := found <;> simp

namespace Segment

/-- The segment, if it is a command, was read from its own text. -/
def ReadBack (segment : Segment) : Prop :=
  ∀ command, segment = .command command →
    ∃ openQuote, Command.read command.source.toList = .ok (command, openQuote)

theorem Of.readBack {part : Part} {segment : Segment} (h : Of part segment) :
    segment.ReadBack := by
  rintro command rfl
  obtain ⟨warning, h⟩ := h
  cases part with
  | text cs =>
    simp only [ofPart] at h
    split at h <;> cases h
  | command cs =>
    simp only [ofPart] at h
    split at h
    · next c q hc =>
      cases h
      exact ⟨q, by rw [Command.read_source hc, String.toList_ofList, hc]⟩
    · cases h
  | var cs =>
    simp only [ofPart] at h
    split at h <;> cases h

/-- **A segment keeps the delimiters of its piece.** -/
theorem Of.delimited {part : Part} {segment : Segment} (hformed : part.Formed)
    (h : Of part segment) : segment.Delimited := by
  have hchars := h.chars
  have hback := h.readBack
  obtain ⟨warning, h⟩ := h
  cases hformed with
  | text cs =>
    simp only [ofPart] at h
    split at h <;> cases h
    trivial
  | command inner =>
    simp only [ofPart] at h
    split at h <;> cases h
    refine ⟨⟨inner, ?_⟩, Command.parse_eq_ok_iff.mpr (hback _ rfl)⟩
    rw [List.append_assoc]
    exact hchars
  | @var name word =>
    rw [ofPart, Variable.read_enclose word] at h
    cases h
    exact ⟨by simpa using word, by simp [Variable.enclose]⟩

end Segment

/-! ## What lines are refused for -/

/-- Nothing that can be wrong with a piece concerns its delimiters, or a variable. -/
theorem Part.Fails.delimited {part : Part} {fault : LineFault} (h : part.Fails fault) :
    (∀ e, fault ≠ .var e) ∧ ∀ e, fault = .command e → e.fault ≠ .missingDelimiters := by
  cases h with
  | text unbalanced => simp
  | unnamed missing => simp
  | misnamed given noWord => simp

namespace Line

/-- **Reading pieces fails** for what is wrong with one of them. -/
theorem readParts_error {position : Position} {done : List Segment} {s t : Session}
    {parts : List Part} {fault : LineFault} (hformed : ∀ part ∈ parts, part.Formed)
    (h : readParts position done s parts = (.error fault, t)) :
    ∃ part ∈ parts, part.Fails fault := by
  rcases passes_or_stops (fun _ => Part.Sound) parts with hpass | ⟨before, part, hstop⟩
  · obtain ⟨segments, u, hread⟩ := exists_readParts (passes_iff_forall.mp hpass) position done s
    rw [hread] at h
    cases h
  · have hmem : part ∈ parts := hstop.place.subset (by simp)
    rcases Part.sound_or_fails (hformed part hmem) with hsound | ⟨fault, hfails⟩
    · exact absurd hsound hstop.bad
    · obtain ⟨u, hstopped⟩ := readParts_stops hstop hfails position done s
      rw [hstopped] at h
      cases h
      exact ⟨part, hmem, hfails⟩

/-- What the reading of a line shows about delimiters: the segments have theirs, or the line is
refused, and not for a variable or for the delimiters of a command. -/
inductive Delimited : Except LineError Line → Prop
  | read {line : Line} (segments : ∀ segment ∈ line.segments, segment.Delimited) :
      Delimited (.ok line)
  | refused {e : LineError} (noVariable : ∀ error, e.fault ≠ .var error)
      (enclosed : ∀ error, e.fault = .command error → error.fault ≠ .missingDelimiters) :
      Delimited (.error e)

/-- **No line is refused for its delimiters**, in any session; and the segments of a line that is
read have theirs. -/
theorem read_delimited (content : List Char) (node : String) (position : Position) (s : Session) :
    Delimited (read content node position s).1 := by
  have hformed := Part.formed_whole (Part.formed_layout s.options.tabWidth content)
  generalize hread : read content node position s = outcome
  obtain ⟨result, t⟩ := outcome
  cases result with
  | ok line =>
    obtain ⟨segments, id, tags, u, v, w, hparts, -, -, rfl, -⟩ := read_ok hread
    refine .read fun segment hsegment => ?_
    obtain ⟨part, hpart, hof⟩ :=
      exists_of_mem_forall₂ (Segment.forall₂_of_readParts hparts) segment hsegment
    exact hof.delimited (hformed part hpart)
  | error e =>
    simp only [read] at hread
    split at hread
    · next hparts =>
      cases hread
      obtain ⟨part, -, hfails⟩ := readParts_error hformed hparts
      exact .refused hfails.delimited.1 hfails.delimited.2
    · split at hread <;> cases hread
      exact .refused (by simp) (by simp)

/-- The first `>` stands inside the command, where it is no name. -/
example : (parse "<<>>>" "N").1 =
    .error ⟨"<<>>>", .command ⟨"<<>>>", .invalidName ">"⟩, ⟨0⟩⟩ := by
  decide +kernel

end Line

end Parley
