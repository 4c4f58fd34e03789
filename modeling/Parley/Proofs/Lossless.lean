import Parley.Proofs.Lists
import Parley.Proofs.Parts
import Parley.Proofs.Runs

/-!
# Nothing of a line is lost

A line that can be read has all of its text in its segments, except for what is read as something
else: the indentation, the arrow of an option, the tags, the blanks at both ends, and the name of
the speaker with its colon.  The description (`Line.Body`, `Token.Lexes`, `Speech`) does not mention
the parts that the reader works on.

The name of a speaker is what the line says.  The speaker whom the line gets is the one whom the
cast has under that name, or a new one; the two have the same name in a cast that keeps everyone
under the own name (`Cast.Named`), as every cast does that was filled by reading lines.

Principal results: `Part.speech_splitSpeaker` — cutting the speaker off loses the name, the
colon and blanks; `Segment.renders_whole` — the segments hold the text of the parts;
`Line.read_conveys` — a line conveys its text.
-/

namespace Parley

namespace Text

theorem occursIn_iff {part cs : List Char} : occursIn part cs = true ↔ part <:+: cs := by
  induction cs with
  | nil => rw [List.infix_nil, occursIn, List.isEmpty_iff]
  | cons c cs ih =>
    rw [occursIn, Bool.or_eq_true, List.isPrefixOf_iff_prefix, ih, List.infix_cons_iff]

/-- A cut is at the first mark that no backslash precedes. -/
theorem cutUnescaped?_first {mark : Char} {passed cs before after : List Char}
    (h : cutUnescaped? mark passed cs = some (before, after)) :
    before.getLast? ≠ some '\\' ∧ ∃ inner, before = passed.reverse ++ inner ∧
      ∀ a b, inner = a ++ mark :: b → (passed.reverse ++ a).getLast? = some '\\' := by
  induction cs generalizing passed with
  | nil => cases h
  | cons c cs ih =>
    unfold cutUnescaped? at h
    split at h
    · next hmark =>
      cases h
      exact ⟨by rw [List.getLast?_reverse]; exact hmark.2, [], by simp, by simp⟩
    · next hmark =>
      obtain ⟨hfree, inner, hbefore, hfirst⟩ := ih h
      rw [List.reverse_cons, List.append_assoc] at hbefore
      refine ⟨hfree, c :: inner, hbefore, ?_⟩
      intro a b hinner
      cases a with
      | nil =>
        obtain ⟨hc, -⟩ := List.cons_eq_cons.mp hinner
        rw [List.append_nil, List.getLast?_reverse]
        by_contra hne
        exact hmark ⟨hc, hne⟩
      | cons d a =>
        obtain ⟨rfl, hrest⟩ := List.cons_eq_cons.mp hinner
        have := hfirst a b hrest
        rwa [List.reverse_cons, List.append_assoc] at this

end Text

/-! ## Speakers -/

/-- A speaker has a name, and no command, variable or markup starts in it. -/
structure Nameable (name : List Char) : Prop where
  visible : name ≠ []
  noMarkup : '[' ∉ name
  noCommand : ¬ ['<', '<'] <:+: name
  noVariable : ¬ ['\x7b', '$'] <:+: name

theorem nameable_of_isSpeakerName {name : List Char} (h : isSpeakerName name = true) :
    Nameable name := by
  unfold isSpeakerName at h
  simp only [Bool.and_eq_true, Bool.not_eq_true'] at h
  obtain ⟨⟨⟨hvisible, hmarkup⟩, hcommand⟩, hvariable⟩ := h
  refine ⟨by simpa using hvisible, by simpa using hmarkup, ?_, ?_⟩
  · rw [← Text.occursIn_iff]
    exact Bool.eq_false_iff.mp hcommand
  · rw [← Text.occursIn_iff]
    exact Bool.eq_false_iff.mp hvariable

/-- How a text with a lead, in which a name may stand, is shared between the speaker and what is
spoken. -/
inductive Speech (text lead spoken : List Char) : Option String → Prop
  | unnamed (whole : spoken = text) : Speech text lead spoken none
  | named {before after : List Char} (cut : text = before ++ ':' :: after)
      (free : before.getLast? ≠ some '\\')
      (first : ∀ a b, before = a ++ ':' :: b → a.getLast? = some '\\')
      (leads : before ++ [':'] <+: lead) (name : Nameable (Text.trim before))
      (rest : spoken = Text.trimStart after) :
      Speech text lead spoken (some (String.ofList (Text.trim before)))

/-- A line has its parts as they are, or its first text is cut behind the name of a speaker. -/
theorem splitSpeaker_cases (parts : List Part) :
    splitSpeaker parts = (none, parts) ∨ ∃ cs others before after, parts = .text cs :: others ∧
      Text.cutUnescaped? ':' [] cs = some (before, after) ∧
      isSpeakerName (Text.trim before) = true ∧
      splitSpeaker parts = (some (String.ofList (Text.trim before)),
        if Text.trimStart after = [] then others else .text (Text.trimStart after) :: others) := by
  unfold splitSpeaker
  split
  · next cs others =>
    split
    · next before after hcut =>
      dsimp only
      split
      · next hname =>
        refine .inr ⟨cs, others, before, after, rfl, hcut, hname, ?_⟩
        simp only [List.isEmpty_iff]
      · exact .inl rfl
    · exact .inl rfl
  · exact .inl rfl

namespace Part

variable {parts : List Part}

theorem tidy_splitSpeaker (h : Tidy parts) : Tidy (splitSpeaker parts).2 := by
  rcases splitSpeaker_cases parts with hsame | ⟨cs, others, before, after, rfl, -, -, hsplit⟩
  · rwa [hsame]
  · rw [hsplit]
    split
    · exact h.tail
    · next hne => exact h.tail.cons_text hne h.head?_of_text

theorem inline_splitSpeaker (parts : List Part) : inline (splitSpeaker parts).2 = inline parts := by
  rcases splitSpeaker_cases parts with hsame | ⟨cs, others, before, after, rfl, -, -, hsplit⟩
  · rw [hsame]
  · rw [hsplit]
    split <;> simp [inline, isText]

/-- **Cutting the speaker off** loses the name, the colon and the blanks behind it. -/
theorem speech_splitSpeaker {lead : List Char} (h : Tidy parts)
    (hlead : ∀ cs others, parts = .text cs :: others → cs <+: lead) :
    Speech (flat parts) lead (flat (splitSpeaker parts).2) (splitSpeaker parts).1 := by
  rcases splitSpeaker_cases parts with
    hsame | ⟨cs, others, before, after, rfl, hcut, hname, hsplit⟩
  · rw [hsame]
    exact .unnamed rfl
  · have htext : cs = before ++ ':' :: after := Text.cutUnescaped?_eq_some hcut
    obtain ⟨hfree, inner, hinner, hfirst⟩ := Text.cutUnescaped?_first hcut
    have hrest := h.tail.trimStart_flat h.head?_of_text
    have hflat : flat (.text cs :: others) = before ++ ':' :: (after ++ flat others) := by
      show cs ++ flat others = _
      rw [htext, List.append_assoc, List.cons_append]
    have hspoken : flat (splitSpeaker (.text cs :: others)).2 =
        Text.trimStart (after ++ flat others) := by
      rw [hsplit, Text.trimStart_append hrest]
      split
      · next he => rw [he, List.nil_append]
      · rfl
    rw [hspoken, hsplit]
    refine .named hflat hfree ?_ ?_ (nameable_of_isSpeakerName hname) rfl
    · intro a b hab
      rw [List.reverse_nil, List.nil_append] at hinner
      exact hfirst a b (hinner.symm.trans hab)
    · refine List.IsPrefix.trans ?_ (hlead cs others rfl)
      exact ⟨after, by rw [htext, List.append_assoc, List.singleton_append]⟩

end Part

/-! ## Segments -/

namespace Segment

/-- Whether the segment is dialogue. -/
def isDialog : Segment → Bool
  | .dialog _ => true
  | _ => false

/-- The characters of a segment as it stands in the script. -/
def chars (segment : Segment) : List Char := segment.source.toList

/-- Segments hold the text of parts, the commands and variables in their places; dialogues stand
apart, and only the single segment of a line may have no text. -/
structure Renders (parts : List Part) (segments : List Segment) : Prop where
  text : segments.flatMap chars = Part.flat parts
  inline : (segments.filter fun segment => !segment.isDialog).map chars =
    (Part.inline parts).map Part.chars
  apart : segments.IsChain fun a b => ¬ (a.isDialog = true ∧ b.isDialog = true)
  empty : ∀ segment ∈ segments, segment.source = "" → segments = [segment]

/-- A segment is read from a part. -/
def Of (part : Part) (segment : Segment) : Prop := ∃ warning, ofPart part = .ok (segment, warning)

theorem Of.chars {part : Part} {segment : Segment} (h : Of part segment) :
    segment.chars = part.chars := by
  obtain ⟨warning, hw⟩ := h
  rw [Segment.chars, source_ofPart hw, String.toList_ofList]

theorem Of.isDialog {part : Part} {segment : Segment} (h : Of part segment) :
    segment.isDialog = part.isText := by
  obtain ⟨warning, hw⟩ := h
  cases part with
  | text cs =>
    simp only [ofPart] at hw
    split at hw <;> cases hw
    rfl
  | command cs =>
    simp only [ofPart] at hw
    split at hw <;> cases hw
    rfl
  | var cs =>
    simp only [ofPart] at hw
    split at hw <;> cases hw
    rfl

theorem readParts_ok {position : Position} {done segments : List Segment} {s t : Session}
    {parts : List Part} (h : Line.readParts position done s parts = (.ok segments, t)) :
    ∃ new, segments = done.reverse ++ new ∧ List.Forall₂ Of parts new := by
  induction parts generalizing done s with
  | nil =>
    cases h
    exact ⟨[], by simp, .nil⟩
  | cons part parts ih =>
    unfold Line.readParts at h
    split at h
    · cases h
    · next segment hp =>
      obtain ⟨new, rfl, hnew⟩ := ih h
      exact ⟨segment :: new, by simp, .cons ⟨_, hp⟩ hnew⟩
    · next segment warning hp =>
      obtain ⟨new, rfl, hnew⟩ := ih h
      exact ⟨segment :: new, by simp, .cons ⟨_, hp⟩ hnew⟩

variable {parts : List Part} {segments : List Segment}

/-- **The segments of a line** are read from its parts, one by one. -/
theorem forall₂_of_readParts {position : Position} {s t : Session}
    (h : Line.readParts position [] s parts = (.ok segments, t)) :
    List.Forall₂ Of parts segments := by
  obtain ⟨new, rfl, hof⟩ := readParts_ok h
  exact hof

theorem map_isDialog (h : List.Forall₂ Of parts segments) :
    segments.map isDialog = parts.map Part.isText := by
  induction h with
  | nil => rfl
  | cons head _ ih => rw [List.map_cons, List.map_cons, head.isDialog, ih]

theorem map_chars (h : List.Forall₂ Of parts segments) :
    segments.map chars = parts.map Part.chars := by
  induction h with
  | nil => rfl
  | cons head _ ih => rw [List.map_cons, List.map_cons, head.chars, ih]

theorem filter_map_chars (h : List.Forall₂ Of parts segments) :
    (segments.filter fun segment => !segment.isDialog).map chars =
      (Part.inline parts).map Part.chars := by
  induction h with
  | nil => rfl
  | @cons part segment parts segments head _ ih =>
    rw [Part.inline, List.filter_cons, List.filter_cons, head.isDialog]
    split
    · rw [List.map_cons, List.map_cons, head.chars, ih]
    · exact ih

/-- **The segments of tidy parts hold their text.** -/
theorem renders_of_tidy (htidy : Part.Tidy parts) (h : List.Forall₂ Of parts segments) :
    Renders parts segments where
  text := by rw [List.flatMap_def, map_chars h, Part.flat, List.flatMap_def]
  inline := filter_map_chars h
  apart := by
    have hmap := map_isDialog h
    have hchain : (parts.map Part.isText).IsChain fun a b => ¬ (a = true ∧ b = true) :=
      (List.isChain_map _).mpr htidy.apart
    rw [← hmap] at hchain
    exact (List.isChain_map _).mp hchain
  empty := by
    intro segment hsegment hsource
    have hmem : segment.chars ∈ parts.map Part.chars := by
      rw [← map_chars h]
      exact List.mem_map_of_mem hsegment
    obtain ⟨part, hpart, hchars⟩ := List.mem_map.mp hmem
    rw [chars, hsource] at hchars
    exact absurd hchars (htidy.full part hpart)

/-- What is read for a line without commands and variables is one dialogue. -/
theorem renders_whole (htidy : Part.Tidy parts) (h : List.Forall₂ Of (whole parts) segments) :
    Renders parts segments := by
  unfold whole at h
  split at h
  · next hall =>
    rw [List.all_eq_true] at hall
    cases h with
    | @cons _ segment _ _ head tail =>
      cases tail
      have hnone : Part.inline parts = [] := by
        rw [List.filter_eq_nil_iff]
        intro part hpart
        simp [hall part hpart]
      refine ⟨?_, ?_, .singleton _, ?_⟩
      · rw [List.flatMap_singleton, head.chars]
        rfl
      · rw [hnone, List.filter_cons_of_neg (by rw [head.isDialog]; simp [Part.isText])]
        rfl
      · intro other hother _
        rw [List.mem_singleton.mp hother]
  · exact renders_of_tidy htidy h

end Segment

/-! ## The cast -/

/-- Everyone in the cast is there under the own name. -/
def Cast.Named (cast : Cast) : Prop :=
  ∀ name speaker, cast.find? name = some speaker → speaker.name = name

theorem Cast.named_empty : Cast.empty.Named := by
  intro name speaker h
  simp [find?, empty] at h

theorem Cast.Named.enroll {cast : Cast} (h : cast.Named) (name id : String) :
    (cast.enroll name id).1.name = name ∧ (cast.enroll name id).2.Named := by
  have hname : (cast.enroll name id).1.name = name := by
    unfold Cast.enroll
    split
    · next speaker hs => exact h name speaker hs
    · rfl
  refine ⟨hname, ?_⟩
  intro other speaker hs
  rw [find?_enroll] at hs
  split at hs
  · next he =>
    cases hs
    rw [hname, he]
  · exact h other speaker hs

/-- The speaker for a name: the one whom the cast has, or a new one. -/
inductive Voice (s : Session) : Option String → Option Speaker → Prop
  | silent : Voice s none none
  | known {name : String} {speaker : Speaker} (known : s.cast.find? name = some speaker) :
      Voice s (some name) (some speaker)
  | fresh {name : String} (unknown : s.cast.find? name = none) :
      Voice s (some name) (some ⟨mintedId "character" s.minted, name⟩)

namespace Line

theorem voice_speaker? (s : Session) (name? : Option String) :
    Voice s name? (speaker? s name?).1 := by
  cases name? with
  | none => exact .silent
  | some name =>
    simp only [speaker?, Session.speaker]
    split
    · next speaker hfind => exact .known hfind
    · next hfind =>
      simp only [Session.mint, Cast.enroll, hfind]
      exact .fresh hfind

theorem cast_speaker? (s : Session) (name? : Option String) :
    (speaker? s name?).2.cast = s.cast ∨
      ∃ name id, (speaker? s name?).2.cast = (s.cast.enroll name id).2 := by
  cases name? with
  | none => exact .inl rfl
  | some name =>
    simp only [speaker?, Session.speaker]
    split
    · exact .inl rfl
    · exact .inr ⟨name, mintedId "character" s.minted, rfl⟩

theorem cast_identify (s : Session) (written : List Tag) :
    (identify s written).2.2.cast = s.cast := by
  unfold identify
  split <;> rfl

theorem cast_register? {s t : Session} {line node : String} (h : s.register? line node = some t) :
    t.cast = s.cast := by
  unfold Session.register? at h
  split at h <;> cases h
  rfl

/-- Only the speaker of a line may be new in the cast, whether the line can be read or not. -/
theorem read_cast {content : List Char} {node : String} {position : Position} {s t : Session}
    {result : Except LineError Line} (h : read content node position s = (result, t)) :
    t.cast = (speaker? s (Layout.read s.options.tabWidth content).speaker).2.cast := by
  simp only [read] at h
  split at h
  · next fault u hp =>
    cases h
    exact (readParts_keeps hp).cast
  · next segments u hp =>
    have hidentify : ∀ tags, (identify (noticeIdle u position tags) tags).2.2.cast = u.cast := by
      intro tags
      rw [cast_identify, (noticeIdle_keeps u position tags).cast]
    split at h
    · cases h
      exact (hidentify _).trans (readParts_keeps hp).cast
    · next w hr =>
      cases h
      exact (cast_register? hr).trans ((hidentify _).trans (readParts_keeps hp).cast)

/-- Reading lines keeps everyone in the cast under the own name. -/
theorem named_of_read {content : List Char} {node : String} {position : Position} {s t : Session}
    {result : Except LineError Line} (h : read content node position s = (result, t))
    (hs : s.cast.Named) : t.cast.Named := by
  rw [read_cast h]
  rcases cast_speaker? s (Layout.read s.options.tabWidth content).speaker with
    hsame | ⟨name, id, hnew⟩
  · rwa [hsame]
  · rw [hnew]
    exact (hs.enroll name id).2

end Line

theorem Voice.named {s : Session} {name? : Option String} {speaker? : Option Speaker}
    (h : Voice s name? speaker?) (hs : s.cast.Named) : speaker?.map Speaker.name = name? := by
  cases h with
  | silent => rfl
  | known known => rw [Option.map_some, hs _ _ known]
  | fresh => rfl

/-! ## Lines -/

namespace Line

/-- The body of a line stands between the blanks at its ends, and behind the arrow if the line is
an option. -/
inductive Body (content : List Char) : Bool → List Char → Prop
  | option {rest : List Char} (arrow : Text.trim content = '-' :: '>' :: rest) :
      Body content true (Text.trimStart rest)
  | other (plain : ∀ rest, Text.trim content ≠ '-' :: '>' :: rest) :
      Body content false (Text.trim content)

theorem body_arrow (content : List Char) :
    Body content (Layout.arrow (Text.trim content)).1 (Layout.arrow (Text.trim content)).2 := by
  unfold Layout.arrow
  split
  · next rest harrow => exact .option harrow
  · next hplain => exact .other hplain

/-- A line conveys the text of tokens, spoken by someone of the name that the text gives. -/
structure Conveys (line : Line) (ts : List Token) (name? : Option String) : Prop where
  /-- The segments hold the text without its tags, after the name of the speaker. -/
  speech : Speech (Text.trim (Token.untagged ts)) (Text.trimStart (Token.leading ts))
    (line.segments.flatMap Segment.chars) name?
  /-- The commands and variables are segments. -/
  inline : (line.segments.filter fun segment => !segment.isDialog).map Segment.chars =
    (ts.filter Token.isInline).map Token.text
  /-- No dialogue follows on another one. -/
  apart : line.segments.IsChain fun a b => ¬ (a.isDialog = true ∧ b.isDialog = true)
  /-- Only the single segment of a line may have no text. -/
  empty : ∀ segment ∈ line.segments, segment.source = "" → line.segments = [segment]

/-- **A line that can be read conveys its text**, whatever was read before; in a cast that keeps
everyone under the own name, its speaker has the name that the text gives. -/
theorem read_conveys {content : List Char} {node : String} {position : Position} {s t : Session}
    {line : Line} (h : read content node position s = (.ok line, t)) :
    ∃ body ts name?, Body content line.isOption body ∧ Token.Lexes [] body ts ∧
      line.Conveys ts name? ∧ Voice s name? line.speaker ∧
      (s.cast.Named → t.cast.Named ∧ line.speaker.map Speaker.name = name?) := by
  have hnamed := named_of_read h
  obtain ⟨segments, id, tags, u, v, w, hp, -, -, rfl, -⟩ := read_ok h
  have hbody := body_arrow content
  unfold Layout.read at hp ⊢
  generalize Layout.arrow (Text.trim content) = arrow at hbody hp ⊢
  obtain ⟨isOption, body⟩ := arrow
  dsimp only at hbody hp ⊢
  have hlexes := Token.Scan.lexes_tokens body
  generalize tokens body = ts at hp hlexes ⊢
  -- The parts are tidy from the first one on: as read, trimmed, and without the speaker.
  have htidy : Part.Tidy (Part.ofTokens ts) := Part.tidy_ofTokens hlexes.edged
  obtain ⟨new, hnew, hforall⟩ := Segment.readParts_ok hp
  rw [List.reverse_nil, List.nil_append] at hnew
  subst hnew
  have hrenders := Segment.renders_whole (Part.tidy_splitSpeaker htidy.trim) hforall
  have hspeech : Speech (Text.trim (Token.untagged ts)) (Text.trimStart (Token.leading ts))
      (segments.flatMap Segment.chars) (splitSpeaker (Part.trim (Part.ofTokens ts))).1 := by
    rw [hrenders.text, ← Part.flat_ofTokens, ← htidy.flat_trim]
    apply Part.speech_splitSpeaker htidy.trim
    intro cs others htrim
    obtain ⟨cs', others', hparts, hlead⟩ := htidy.leading_trim htrim
    rwa [← Part.lead_ofTokens, hparts]
  refine ⟨body, ts, (splitSpeaker (Part.trim (Part.ofTokens ts))).1, hbody, hlexes, ?_,
    voice_speaker? s _, ?_⟩
  · refine ⟨hspeech, ?_, hrenders.apart, hrenders.empty⟩
    show (segments.filter fun segment => !segment.isDialog).map Segment.chars = _
    rw [hrenders.inline, Part.inline_splitSpeaker, htidy.inline_trim, Part.inline_ofTokens]
  · intro hs
    exact ⟨hnamed hs, (voice_speaker? s _).named hs⟩

/-- An option with a colon that does not count, tags on both sides of one that does, and a command
and a variable side by side. -/
def conveySample : List Char := "  -> A\\:b #x: Hi #y <<c>>\x7b$v\x7d!".toList

theorem read_conveys_sample :
    ∃ line t, read conveySample "N" ⟨0⟩ (.start {}) = (.ok line, t) ∧
      line.segments.map Segment.source = ["Hi  ", "<<c>>", "\x7b$v\x7d", "!"] ∧
      ∃ body ts name?, Body conveySample line.isOption body ∧ Token.Lexes [] body ts ∧
        line.Conveys ts name? ∧ Voice (.start {}) name? line.speaker ∧ t.cast.Named ∧
        line.speaker.map Speaker.name = name? := by
  have hcheck : (read conveySample "N" ⟨0⟩ (.start {})).1.toOption.any (fun line => decide
      (line.segments.map Segment.source = ["Hi  ", "<<c>>", "\x7b$v\x7d", "!"])) = true := by
    decide +kernel
  obtain ⟨line, t, h, hline⟩ := exists_of_any hcheck
  obtain ⟨body, ts, name?, hbody, hlexes, hconveys, hvoice, hnamed⟩ := read_conveys h
  exact ⟨line, t, h, of_decide_eq_true hline, body, ts, name?, hbody, hlexes, hconveys, hvoice,
    hnamed Cast.named_empty⟩

/-- A session in whose cast `B` goes under the name `A`. -/
def misnamed : Session :=
  { Session.start {} with cast := ⟨Table.ofList [("A", ⟨"x", "B"⟩)], #["A"]⟩ }

/-- **In a cast that does not keep everyone under the own name**, a line can get a speaker whose
name it does not hold. -/
theorem misnamed_not_conveys :
    ∃ line t, read "A: hi".toList "N" ⟨0⟩ misnamed = (.ok line, t) ∧
      ¬ ∃ body ts, Body "A: hi".toList line.isOption body ∧ Token.Lexes [] body ts ∧
        line.Conveys ts (line.speaker.map Speaker.name) := by
  have hcheck : (read "A: hi".toList "N" ⟨0⟩ misnamed).1.toOption.any (fun line => decide
      (line.isOption = false ∧ line.speaker.map Speaker.name = some "B")) = true := by
    decide +kernel
  obtain ⟨line, t, h, hline⟩ := exists_of_any hcheck
  obtain ⟨hoption, hspeaker⟩ := of_decide_eq_true hline
  refine ⟨line, t, h, ?_⟩
  rintro ⟨body, ts, hbody, hlexes, hconveys⟩
  have hspeech := hconveys.speech
  rw [hspeaker] at hspeech
  rw [hoption] at hbody
  cases hbody with
  | other plain =>
    have hts := hlexes.unique (Token.Scan.lexes_tokens _)
    have htext : Text.trim (Token.untagged ts) = "A: hi".toList := by
      rw [hts]
      decide +kernel
    generalize hname : some "B" = name? at hspeech
    cases hspeech with
    | unnamed => cases hname
    | @named before after cut =>
      rw [htext] at cut
      -- The only colon stands behind the `A`.
      have hbefore : before = ['A'] := by
        match before with
        | [] => simp at cut
        | [a] =>
          obtain ⟨rfl, -⟩ := List.cons_eq_cons.mp cut
          rfl
        | a :: b :: before =>
          obtain ⟨-, -, hrest⟩ : 'A' = a ∧ ':' = b ∧ [' ', 'h', 'i'] = before ++ ':' :: after := by
            simpa using cut
          have hcolon : ':' ∈ [' ', 'h', 'i'] := by
            rw [hrest]
            simp
          exact absurd hcolon (by decide)
      rw [hbefore] at hname
      exact absurd hname (by decide)

end Line

end Parley
