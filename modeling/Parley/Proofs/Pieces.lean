import Parley.Proofs.Balance
import Parley.Proofs.Lossless

/-!
# Which pieces of a line can be read

The pieces of a line are read one after the other, and the first one that is wrong stops the
reading.  Only two things can be wrong with a piece: the first word of a command is missing or is no
word in the strict sense, or the markup of a text does not fit together.  Everything else that a
reader of a piece checks is settled by the way lines are cut into pieces (`Part.Formed`).

* `Part.formed_layout` — the parts of a line have their delimiters, and variables have their names.
* `Part.sound_or_fails` — so a piece is sound, or it fails in one of three ways.
* `Line.exists_readParts` and `Line.readParts_stops` — reading comes to the end of sound pieces, and
  otherwise fails as the first piece does that is not sound.
-/

namespace Parley

/-! ## Delimiters -/

namespace Text

theorem isWord_of_isBlank {c : Char} (h : isBlank c = true) : isWord c = false := by
  have hmem : c.toNat ∈ List.range' 0x09 5 ++ List.range' 0x2000 11 ++
      [0x20, 0x85, 0xA0, 0x1680, 0x2028, 0x2029, 0x202F, 0x205F, 0x3000] := by
    simp only [isBlank, Bool.or_eq_true, Bool.and_eq_true, beq_iff_eq, decide_eq_true_eq] at h
    simp only [List.mem_append, List.mem_range'_1, List.mem_cons, List.not_mem_nil, or_false]
    omega
  have hall : ∀ n ∈ List.range' 0x09 5 ++ List.range' 0x2000 11 ++
      [0x20, 0x85, 0xA0, 0x1680, 0x2028, 0x2029, 0x202F, 0x205F, 0x3000],
      isWord (Char.ofNat n) = false := by
    decide +kernel
  simpa using hall _ hmem

theorem not_blank_of_word {c : Char} (h : isWord c = true) : isBlank c = false := by
  rw [Bool.eq_false_iff]
  intro hblank
  rw [isWord_of_isBlank hblank] at h
  cases h

/-- The first word of a text: what stands between the blanks in front and the next blank. -/
def firstWord (cs : List Char) : List Char := (trimStart cs).takeWhile fun c => !isBlank c

/-- What follows the first word of a text. -/
def afterFirstWord (cs : List Char) : List Char := (trimStart cs).dropWhile fun c => !isBlank c

/-- A word with a blank behind it, or with nothing, is the first word of a text. -/
theorem firstWord_append {name rest : List Char} (hname : allWord name = true)
    (hrest : ∀ c, rest.head? = some c → isBlank c = true) :
    firstWord (name ++ rest) = name ∧ afterFirstWord (name ++ rest) = rest := by
  obtain ⟨hall, hne⟩ := Token.all_of_allWord hname
  have hvisible : ∀ c ∈ name, (!isBlank c) = true := by
    intro c hc
    rw [not_blank_of_word (List.all_eq_true.mp hall c hc)]
    rfl
  have hstart : trimStart (name ++ rest) = name ++ rest := by
    obtain ⟨c, cs, rfl⟩ := List.exists_cons_of_ne_nil hne
    exact trimStart_cons_of_not_blank _ (by simpa using hvisible c List.mem_cons_self)
  rw [firstWord, afterFirstWord, hstart, List.takeWhile_append_of_pos hvisible,
    List.dropWhile_append_of_pos hvisible]
  cases rest with
  | nil => simp
  | cons c rest => simp [hrest c rfl]

theorem between?_enclosed (opening inner closing : List Char) :
    between? opening closing (opening ++ (inner ++ closing)) = some inner := by
  simp [between?, List.isPrefixOf?_eq_some_iff_append_eq.mpr rfl]

theorem trimStart_of_edged {cs : List Char} (h : Token.Edged cs) : trimStart cs = cs := by
  obtain ⟨c, ds, rfl, hc⟩ := h.first
  exact trimStart_cons_of_not_blank ds hc

theorem trim_of_edged {cs : List Char} (h : Token.Edged cs) : trim cs = cs := by
  obtain ⟨ds, c, hlast, hc⟩ := h.last
  rw [trim, trimStart_of_edged h, hlast, trimEnd_concat_of_not_blank hc]

end Text

namespace Command

/-- The command with a text between its delimiters. -/
def enclose (inner : List Char) : List Char := opening ++ (inner ++ closing)

theorem edged_enclose (inner : List Char) : Token.Edged (enclose inner) :=
  ⟨⟨'<', '<' :: (inner ++ closing), rfl, by decide⟩,
    ⟨opening ++ (inner ++ ['>']), '>', by simp [enclose, closing], by decide⟩⟩

/-- A command between its delimiters is read as its first word says. -/
theorem read_enclose (inner : List Char) :
    read (enclose inner) = match NameFault.ofName? (Text.firstWord inner) with
      | some fault => .error ⟨String.ofList (enclose inner), fault⟩
      | none =>
        let found := splitParameters (Text.afterFirstWord inner)
        .ok (⟨String.ofList (Text.firstWord inner), found.1, String.ofList (enclose inner)⟩,
          found.2) := by
  have hbetween : Text.between? opening closing (Text.trim (enclose inner)) = some inner := by
    rw [Text.trim_of_edged (edged_enclose inner)]
    exact Text.between?_enclosed opening inner closing
  simp only [read, hbetween]
  rfl

end Command

namespace Variable

/-- The variable with a name between its delimiters. -/
def enclose (name : List Char) : List Char := opening ++ (name ++ closing)

theorem read_enclose {name : List Char} (h : Text.allWord name = true) :
    read (enclose name) = .ok ⟨String.ofList name, String.ofList (enclose name)⟩ := by
  have hedged : Token.Edged (enclose name) :=
    ⟨⟨'\x7b', '$' :: (name ++ closing), rfl, by decide⟩,
      ⟨opening ++ name, '\x7d', by simp [enclose, closing], by decide⟩⟩
  have hbetween : Text.between? opening closing (Text.trim (enclose name)) = some name := by
    rw [Text.trim_of_edged hedged]
    exact Text.between?_enclosed opening name closing
  simp only [read, hbetween, NameFault.ofName?_eq_none_iff.mpr h]

end Variable

/-! ## Pieces -/

namespace Part

/-- A part as a line is cut into: commands and variables have their delimiters, and a variable has
a word for a name. -/
inductive Formed : Part → Prop
  | text (cs : List Char) : Formed (.text cs)
  | command (inner : List Char) : Formed (.command (Command.enclose inner))
  | var {name : List Char} (word : Text.allWord name = true) : Formed (.var (Variable.enclose name))

/-- Nothing is wrong with a part. -/
inductive Sound : Part → Prop
  | text {cs : List Char} (balanced : Markup.Balanced (Dialog.items cs)) : Sound (.text cs)
  | command {inner : List Char} (named : Text.allWord (Text.firstWord inner) = true) :
      Sound (.command (Command.enclose inner))
  | var {name : List Char} (word : Text.allWord name = true) : Sound (.var (Variable.enclose name))

/-- What is wrong with a part. -/
inductive Fails : Part → LineFault → Prop
  | text {cs : List Char} {fault : MarkupFault}
      (unbalanced : Markup.Unbalanced (Dialog.items cs) fault) :
      Fails (.text cs) (.markup ⟨String.ofList cs, fault⟩)
  | unnamed {inner : List Char} (missing : Text.firstWord inner = []) :
      Fails (.command (Command.enclose inner))
        (.command ⟨String.ofList (Command.enclose inner), .emptyName⟩)
  | misnamed {inner : List Char} (given : Text.firstWord inner ≠ [])
      (noWord : Text.allWord (Text.firstWord inner) = false) :
      Fails (.command (Command.enclose inner))
        (.command ⟨String.ofList (Command.enclose inner),
          .invalidName (String.ofList (Text.firstWord inner))⟩)

theorem formed_of_inline {parts parts' : List Part} (h : inline parts = inline parts')
    (hformed : ∀ part ∈ parts', Formed part) : ∀ part ∈ parts, Formed part := by
  intro part hpart
  cases ht : part.isText with
  | true =>
    cases part with
    | text cs => exact .text cs
    | command cs => cases ht
    | var cs => cases ht
  | false =>
    have hmem : part ∈ inline parts := List.mem_filter.mpr ⟨hpart, by simp [ht]⟩
    rw [h] at hmem
    exact hformed part (List.mem_filter.mp hmem).1

theorem formed_ofTokens {before cs : List Char} {ts : List Token}
    (h : Token.Lexes before cs ts) : ∀ part ∈ ofTokens ts, Formed part := by
  induction h with
  | done => simp [ofTokens]
  | special _ _ token _ ih =>
    cases token with
    | @command c inner _ => exact List.forall_mem_cons.mpr ⟨.command (c :: inner), ih⟩
    | var word => exact List.forall_mem_cons.mpr ⟨.var word, ih⟩
    | key => exact ih
    | keyValue => exact ih
  | @plain before cs c ts _ _ ih =>
    obtain ⟨ds, others, hcons, hparts | ⟨rfl, hparts, -⟩⟩ := head?_cons_plain c (ofTokens ts)
    · rw [hparts] at ih
      rw [ofTokens, List.foldr_cons, ← ofTokens, hcons]
      exact List.forall_mem_cons.mpr ⟨.text _, (List.forall_mem_cons.mp ih).2⟩
    · rw [hparts] at ih
      rw [ofTokens, List.foldr_cons, ← ofTokens, hcons]
      exact List.forall_mem_cons.mpr ⟨.text _, ih⟩

/-- **The parts of a line are formed** as its tokens are. -/
theorem formed_layout (tabWidth : Nat) (content : List Char) :
    ∀ part ∈ (Layout.read tabWidth content).parts, Formed part := by
  have hlexes := Token.Scan.lexes_tokens (Layout.arrow (Text.trim content)).2
  have htidy : Tidy (ofTokens (tokens (Layout.arrow (Text.trim content)).2)) :=
    tidy_ofTokens hlexes.edged
  exact formed_of_inline ((inline_splitSpeaker _).trans htidy.inline_trim) (formed_ofTokens hlexes)

theorem formed_whole {parts : List Part} (h : ∀ part ∈ parts, Formed part) :
    ∀ part ∈ Segment.whole parts, Formed part := by
  unfold Segment.whole
  split
  · simp [Formed.text]
  · exact h

/-- **A part is sound, or something is wrong with it.** -/
theorem sound_or_fails {part : Part} (h : Formed part) :
    Sound part ∨ ∃ fault, Fails part fault := by
  cases h with
  | text cs =>
    rcases Dialog.read_cases cs with ⟨_, -, hbalanced⟩ | ⟨fault, -, hunbalanced⟩
    · exact .inl (.text hbalanced)
    · exact .inr ⟨_, .text hunbalanced⟩
  | command inner =>
    cases hword : Text.allWord (Text.firstWord inner) with
    | true => exact .inl (.command hword)
    | false =>
      by_cases hnone : Text.firstWord inner = []
      · exact .inr ⟨_, .unnamed hnone⟩
      · exact .inr ⟨_, .misnamed hnone hword⟩
  | var word => exact .inl (.var word)

/-- A sound part is read. -/
theorem Sound.ofPart {part : Part} (h : Sound part) :
    ∃ segment warning, Segment.ofPart part = .ok (segment, warning) := by
  cases h with
  | @text cs balanced =>
    obtain ⟨dialog, hread⟩ := Dialog.exists_read_iff.mpr balanced
    exact ⟨.dialog dialog, none, by simp only [Segment.ofPart, hread]⟩
  | command named =>
    rw [Segment.ofPart, Command.read_enclose, NameFault.ofName?_eq_none_iff.mpr named]
    exact ⟨_, _, rfl⟩
  | var word =>
    rw [Segment.ofPart, Variable.read_enclose word]
    exact ⟨_, _, rfl⟩

/-- A part that is wrong is refused for what is wrong with it. -/
theorem Fails.ofPart {part : Part} {fault : LineFault} (h : Fails part fault) :
    Segment.ofPart part = .error fault := by
  cases h with
  | text unbalanced => rw [Segment.ofPart, Dialog.read_error_iff.mpr unbalanced]
  | unnamed missing =>
    rw [Segment.ofPart, Command.read_enclose, missing]
    rfl
  | @misnamed inner given noWord =>
    have hname : NameFault.ofName? (Text.firstWord inner) =
        some (.invalidName (String.ofList (Text.firstWord inner))) := by
      simp only [Text.allWord, Bool.and_eq_false_iff, Bool.not_eq_false', List.isEmpty_iff, given,
        false_or] at noWord
      simp [NameFault.ofName?, given, noWord]
    rw [Segment.ofPart, Command.read_enclose, hname]

end Part

/-! ## Reading the pieces -/

namespace Line

/-- The pieces of a line, as they are read one after the other. -/
def pieces (content : List Char) : List Part := Segment.whole (Layout.read 0 content).parts

theorem formed_pieces (content : List Char) : ∀ part ∈ pieces content, part.Formed :=
  Part.formed_whole (Part.formed_layout 0 content)

variable {position : Position} {done : List Segment} {s : Session} {parts before : List Part}
  {part : Part} {fault : LineFault}

/-- Sound parts are read, and then the parts behind them. -/
theorem readParts_append (h : ∀ part ∈ parts, part.Sound) (position : Position)
    (done : List Segment) (s : Session) :
    ∃ read t, ∀ more,
      readParts position done s (parts ++ more) = readParts position read t more := by
  induction parts generalizing done s with
  | nil => exact ⟨done, s, fun _ => rfl⟩
  | cons part parts ih =>
    obtain ⟨hpart, hparts⟩ := List.forall_mem_cons.mp h
    obtain ⟨segment, warning, hread⟩ := hpart.ofPart
    cases warning with
    | none =>
      obtain ⟨read, t, hrest⟩ := ih hparts (segment :: done) s
      refine ⟨read, t, fun more => ?_⟩
      rw [← hrest more, List.cons_append, readParts, hread]
    | some warning =>
      obtain ⟨read, t, hrest⟩ := ih hparts (segment :: done) (s.warn ⟨warning, position⟩)
      refine ⟨read, t, fun more => ?_⟩
      rw [← hrest more, List.cons_append, readParts, hread]

theorem exists_readParts (h : ∀ part ∈ parts, part.Sound) (position : Position)
    (done : List Segment) (s : Session) :
    ∃ segments t, readParts position done s parts = (.ok segments, t) := by
  obtain ⟨read, t, hrest⟩ := readParts_append h position done s
  have := hrest []
  rw [List.append_nil] at this
  exact ⟨read.reverse, t, this⟩

/-- **Reading stops at the first part that is not sound**, for what is wrong with it. -/
theorem readParts_stops (h : Stops (fun _ => Part.Sound) parts before part)
    (hfails : part.Fails fault) (position : Position) (done : List Segment) (s : Session) :
    ∃ t, readParts position done s parts = (.error fault, t) := by
  obtain ⟨after, rfl⟩ := h.place
  obtain ⟨read, t, hrest⟩ := readParts_append (passes_iff_forall.mp h.passed) position done s
  refine ⟨t, ?_⟩
  rw [List.append_assoc, hrest, List.singleton_append, readParts, hfails.ofPart]

end Line

end Parley
