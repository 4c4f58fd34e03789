import Parley.Proofs.Annotations

/-!
# Ids that were minted can be written back

A line whose id was minted can be given that id for good: its tag is written behind the text of the
line, after a space.  The line that is read then is the one that was read before.

The space makes this safe.  Whatever the line ends with, nothing that starts before the space
reaches over it: a word ends there, a backslash escapes the space, and no `>>` follows for a command
that is open (`Token.Special.append_iff`, `Token.Special.within`).  So the tokens are the old ones,
blanks and one tag (`Token.Lexes.append`); and the blanks are trimmed off the parts again.

* `Token.tokens_append` — the tokens of a text with a tag behind it.
* `Part.trim_ofTokens_append` — blanks behind the last part make no difference.
* `Layout.read_append` — a tag behind a line is one tag more, and nothing else.
* `Line.parse_written_back` — a minted id can be written back.
-/

namespace Parley

namespace Text

/-! ## Words -/

/-- A minted id is a word. -/
theorem allWord_mintedId (n : Nat) : allWord (mintedId Tag.lineKey n).toList = true := by
  have hstem : ("line" ++ "_").toList.all isWord = true := by decide
  have hdigit : ∀ d : Fin 16, isWord d.val.digitChar = true := by decide
  rw [mintedId, allWord, String.toList_append, String.toList_ofList, Bool.and_eq_true,
    List.all_eq_true]
  refine ⟨by simp [Tag.lineKey], fun c hc => ?_⟩
  rcases List.mem_append.mp hc with hc | hc
  · exact List.all_eq_true.mp hstem c hc
  · obtain ⟨d, rfl⟩ := exists_digitChar_of_mem_hexDigits hc
    exact hdigit d

/-! ## Text behind a text -/

/-- What is written behind a text, after a space, ends up behind the text without its outer
blanks. -/
theorem trim_append_of_visible {cs ds : List Char} (h : allBlank cs = false)
    (hds : Token.Edged ds) :
    ∃ ws, allBlank ws = true ∧ ws ≠ [] ∧ trim (cs ++ ' ' :: ds) = trim cs ++ (ws ++ ds) := by
  obtain ⟨ws, hws, hcs⟩ := exists_trimEnd_append (trimStart cs)
  obtain ⟨es, c, rfl, hc⟩ := hds.last
  refine ⟨ws ++ [' '], ?_, by simp, ?_⟩
  · rw [allBlank, List.all_append, Bool.and_eq_true]
    exact ⟨hws, by decide⟩
  · have hassoc : ∀ xs, xs ++ ' ' :: (es ++ [c]) = xs ++ ' ' :: es ++ [c] := by simp
    rw [trim, trimStart_append_of_visible h, hassoc, trimEnd_concat_of_not_blank hc, trim]
    nth_rewrite 1 [hcs]
    simp

end Text

/-! ## Tokens in front of a text -/

namespace Token

/-- A text stands behind a blank and does not close a command. -/
structure Follows (more : List Char) : Prop where
  blank : ∃ c ds, more = c :: ds ∧ Text.isBlank c = true
  noClose : '>' ∉ more

variable {before cs more rest : List Char} {t : Token} {ts us : List Token}

theorem EndsWord.append_iff (hmore : Follows more) : EndsWord (cs ++ more) ↔ EndsWord cs := by
  cases cs with
  | nil =>
    obtain ⟨c, ds, rfl, hc⟩ := hmore.blank
    refine iff_of_true (endsWord_cons (Text.isWord_of_isBlank hc) ds) ?_
    rintro _ ⟨⟩
  | cons c cs => exact Iff.rfl

/-- The first `>>` of a text is the first one with more text behind it. -/
theorem first_append_iff {inner : List Char} :
    (∀ a b, inner ++ '>' :: '>' :: (rest ++ more) = a ++ '>' :: '>' :: b →
      inner.length ≤ a.length) ↔
    ∀ a b, inner ++ '>' :: '>' :: rest = a ++ '>' :: '>' :: b → inner.length ≤ a.length := by
  constructor
  · intro first a b hab
    refine first a (b ++ more) ?_
    simpa using congrArg (· ++ more) hab
  · intro first a b hab
    by_contra hlt
    -- An earlier `>>` ends before `more` starts.
    have hcloses : a ++ ['>', '>'] <+: inner ++ '>' :: '>' :: (rest ++ more) :=
      ⟨b, by rw [hab]; simp⟩
    have hends : inner ++ '>' :: '>' :: rest <+: inner ++ '>' :: '>' :: (rest ++ more) :=
      ⟨more, by simp⟩
    have hshort : (a ++ ['>', '>']).length ≤ (inner ++ '>' :: '>' :: rest).length := by
      simp only [List.length_append, List.length_cons, List.length_nil]
      omega
    obtain ⟨b', hb'⟩ := List.prefix_of_prefix_length_le hcloses hends hshort
    exact hlt (first a b' (by rw [← hb']; simp))

/-- No value comes to a key with more text behind it. -/
theorem bare_append_iff (hmore : Follows more) :
    (∀ cs, rest ++ more = ':' :: cs → EndsWord cs) ↔ ∀ cs, rest = ':' :: cs → EndsWord cs := by
  constructor
  · rintro bare cs rfl
    exact (EndsWord.append_iff hmore).mp (bare (cs ++ more) rfl)
  · intro bare cs hcs
    cases rest with
    | nil =>
      obtain ⟨c, ds, rfl, hc⟩ := hmore.blank
      rw [List.nil_append] at hcs
      cases hcs
      exact absurd hc (by decide)
    | cons d ds =>
      obtain ⟨rfl, rfl⟩ := List.cons_eq_cons.mp hcs
      exact (EndsWord.append_iff hmore).mpr (bare ds rfl)

/-- **What stands behind the text after a token** does not change the token. -/
theorem Special.append_iff (hmore : Follows more) : Special (rest ++ more) t ↔ Special rest t := by
  have hends : EndsWord (rest ++ more) ↔ EndsWord rest := EndsWord.append_iff hmore
  constructor
  · intro h
    cases h with
    | command first => exact .command (first_append_iff.mp first)
    | var word => exact .var word
    | key word ends bare => exact .key word (hends.mp ends) ((bare_append_iff hmore).mp bare)
    | keyValue word given ends => exact .keyValue word given (hends.mp ends)
  · intro h
    cases h with
    | command first => exact .command (first_append_iff.mpr first)
    | var word => exact .var word
    | key word ends bare => exact .key word (hends.mpr ends) ((bare_append_iff hmore).mpr bare)
    | keyValue word given ends => exact .keyValue word given (hends.mpr ends)

/-- The characters of a token that is no command. -/
theorem Special.chars (h : Special rest t) : (∃ u, t = .command u) ∨
    ∀ c ∈ t.text, Text.isWord c = true ∨ c ∈ ['#', ':', '\x7b', '$', '\x7d'] := by
  have hword : ∀ {cs : List Char}, Text.allWord cs = true → ∀ c ∈ cs, Text.isWord c = true :=
    fun hw => List.all_eq_true.mp (all_of_allWord hw).1
  cases h with
  | command first => exact .inl ⟨_, rfl⟩
  | @var name word =>
    refine .inr fun c hc => ?_
    simp only [text, List.mem_cons, List.mem_append, List.not_mem_nil, or_false] at hc ⊢
    have := hword word c
    tauto
  | @key key word ends bare =>
    refine .inr fun c hc => ?_
    simp only [text, List.mem_cons, List.not_mem_nil, or_false] at hc ⊢
    have := hword word c
    tauto
  | @keyValue key value word given ends =>
    refine .inr fun c hc => ?_
    simp only [text, List.mem_cons, List.mem_append, List.not_mem_nil, or_false] at hc ⊢
    have := hword word c
    have := hword given c
    tauto

/-- No blank stands in a token that is no command. -/
theorem Special.not_blank (h : Special rest t) (ht : ∀ u, t ≠ .command u) {c : Char}
    (hc : c ∈ t.text) : Text.isBlank c = false := by
  rcases h.chars with ⟨u, rfl⟩ | hchars
  · exact absurd rfl (ht u)
  · have hmarks : ['#', ':', '\x7b', '$', '\x7d'].any Text.isBlank = false := by decide
    refine (hchars c hc).elim Text.not_blank_of_word fun hmark => ?_
    simpa using List.any_eq_false.mp hmarks c hmark

theorem Special.getLast?_command {u : List Char} (h : Special rest (.command u)) :
    u.getLast? = some '>' := by
  cases h with
  | @command c inner first =>
    have hassoc : '<' :: '<' :: c :: (inner ++ ['>', '>']) =
        ('<' :: '<' :: c :: (inner ++ ['>'])) ++ ['>'] := by simp
    rw [hassoc, List.getLast?_concat]

/-- A token starts with a visible character. -/
theorem Special.visible (h : Special rest t) :
    ∃ c ds, t.text = c :: ds ∧ Text.isBlank c = false := by
  cases h with
  | command first => exact ⟨'<', _, rfl, by decide⟩
  | var word => exact ⟨'\x7b', _, rfl, by decide⟩
  | key word ends bare => exact ⟨'#', _, rfl, by decide⟩
  | keyValue word given ends => exact ⟨'#', _, rfl, by decide⟩

/-- A tag starts and ends with a visible character. -/
theorem Special.edged_tag {u : List Char} (h : Special rest (.tag u)) : Edged u where
  first := h.visible
  last := by
    have hlast : ∀ {word : List Char}, Text.allWord word = true →
        ∃ ds c, word = ds ++ [c] ∧ Text.isBlank c = false := by
      intro word hword
      obtain ⟨hall, hne⟩ := all_of_allWord hword
      exact ⟨word.dropLast, word.getLast hne, (List.dropLast_append_getLast hne).symm,
        Text.not_blank_of_word (List.all_eq_true.mp hall _ (List.getLast_mem hne))⟩
    cases h with
    | key word ends bare =>
      obtain ⟨ds, c, rfl, hc⟩ := hlast word
      exact ⟨'#' :: ds, c, rfl, hc⟩
    | @keyValue key value word given ends =>
      obtain ⟨ds, c, rfl, hc⟩ := hlast given
      exact ⟨'#' :: (key ++ ':' :: ds), c, by simp, hc⟩

/-- **No token reaches into the text behind**: a word ends at the blank, and no command is closed
there. -/
theorem Special.within {rest' : List Char} (h : Special rest' t) (hmore : Follows more)
    (he : cs ++ more = t.text ++ rest') : ∃ rest, cs = t.text ++ rest ∧ rest' = rest ++ more := by
  rcases List.append_eq_append_iff.mp he with ⟨a, htext, hsplit⟩ | ⟨rest, hcs, hrest⟩
  · cases a with
    | nil => exact ⟨[], by simpa using htext.symm, by simpa using hsplit.symm⟩
    | cons c a =>
      exfalso
      cases t with
      | command u =>
        have hlast := h.getLast?_command
        rw [show u = cs ++ c :: a from htext, List.getLast?_append_of_ne_nil _ (by simp)] at hlast
        refine hmore.noClose ?_
        rw [hsplit]
        exact List.mem_append_left _ (List.mem_of_getLast? hlast)
      | _ =>
        obtain ⟨d, ds, hd, hblank⟩ := hmore.blank
        rw [hd, List.cons_append, List.cons.injEq] at hsplit
        obtain ⟨rfl, -⟩ := hsplit
        rw [h.not_blank (by simp) (by rw [htext]; simp)] at hblank
        cases hblank
  · exact ⟨rest, hcs, hrest⟩

/-- **A text that is read in front of another one** is read as it is alone. -/
theorem Lexes.append (h : Lexes before cs ts) (hmore : Follows more)
    (hus : Lexes (before ++ cs) more us) : Lexes before (cs ++ more) (ts ++ us) := by
  induction h with
  | done before => simpa using hus
  | @special before cs rest t ts free text token others ih =>
    subst text
    rw [← List.append_assoc] at hus
    exact .special free (List.append_assoc _ _ _) ((Special.append_iff hmore).mpr token) (ih hus)
  | @plain before cs c ts bare others ih =>
    rw [List.append_cons] at hus
    refine .plain (bare.imp_right fun hno t rest' he token => ?_) (ih hus)
    have hwhole : (c :: cs) ++ more = t.text ++ rest' := he
    obtain ⟨rest, hcs, rfl⟩ := token.within hmore hwhole
    exact hno t rest hcs ((Special.append_iff hmore).mp token)

/-- Blanks in front of a tag are characters, and free the tag from a backslash before them. -/
theorem lexes_gap {gap tag : List Char} (hgap : Text.allBlank gap = true)
    (htag : Special [] (.tag tag)) (hfree : gap = [] → before.getLast? ≠ some '\\') :
    Lexes before (gap ++ tag) (gap.map Token.plain ++ [.tag tag]) := by
  induction gap generalizing before with
  | nil => exact .special (hfree rfl) (List.append_nil _).symm htag (.done _)
  | cons c gap ih =>
    rw [Text.allBlank, List.all_cons, Bool.and_eq_true] at hgap
    refine .plain (.inr fun t rest he token => ?_) (ih hgap.2 fun _ => ?_)
    · obtain ⟨d, ds, hd, hvisible⟩ := token.visible
      rw [hd] at he
      obtain ⟨rfl, -⟩ := List.cons_eq_cons.mp he
      rw [hgap.1] at hvisible
      cases hvisible
    · rw [List.getLast?_concat]
      rintro ⟨⟩
      exact absurd hgap.1 (by decide)

theorem follows_gap {gap tag : List Char} (hgap : Text.allBlank gap = true) (hne : gap ≠ [])
    (htag : Special [] (.tag tag)) : Follows (gap ++ tag) where
  blank := by
    obtain ⟨c, ds, rfl⟩ := List.exists_cons_of_ne_nil hne
    rw [Text.allBlank, List.all_cons, Bool.and_eq_true] at hgap
    exact ⟨c, ds ++ tag, rfl, hgap.1⟩
  noClose := by
    intro hmem
    rcases List.mem_append.mp hmem with hmem | hmem
    · exact absurd (List.all_eq_true.mp hgap _ hmem) (by decide)
    · rcases htag.chars with ⟨u, hu⟩ | hchars
      · cases hu
      · exact absurd (hchars _ hmem) (by decide)

/-- **The tokens of a text with a tag behind it**, after blanks or with no text before it. -/
theorem tokens_append {gap tag : List Char} (hgap : Text.allBlank gap = true)
    (htag : Special [] (.tag tag)) (hfree : gap = [] → cs = []) :
    tokens (cs ++ (gap ++ tag)) = tokens cs ++ (gap.map Token.plain ++ [.tag tag]) := by
  have hcs := Scan.lexes_tokens cs
  refine (Scan.lexes_tokens _).unique ?_
  by_cases hne : gap = []
  · obtain rfl := hfree hne
    rw [hcs.unique (.done []), List.nil_append, List.nil_append]
    exact lexes_gap hgap htag (by simp)
  · exact hcs.append (follows_gap hgap hne htag) (lexes_gap hgap htag fun he => absurd he hne)

end Token

/-! ## Blanks behind parts -/

namespace Part

theorem flush_append (buffer : List Char) (parts more : List Part) :
    flush buffer parts ++ more = flush buffer (parts ++ more) := by
  unfold flush
  split <;> rfl

/-- Parts with a text behind them: it goes on with the last part if that is text, and is a part of
its own otherwise. -/
inductive Trails (cs : List Char) : List Part → List Part → Prop
  | text (init : List Part) (last : List Char) :
      Trails cs (init ++ [.text last]) (init ++ [.text (last ++ cs)])
  | apart {parts : List Part} (last : ∀ p, parts.getLast? = some p → p.isText = false) :
      Trails cs parts (parts ++ [.text cs])

theorem getLast?_flush (buffer : List Char) (part : Part) (parts : List Part) :
    (flush buffer (part :: parts)).getLast? = (part :: parts).getLast? := by
  unfold flush
  split
  · rfl
  · exact List.getLast?_cons_cons

theorem Trails.flush {cs : List Char} {parts more : List Part} (h : Trails cs parts more)
    {part : Part} (hpart : part.isText = false) (buffer : List Char) :
    Trails cs (Part.flush buffer (part :: parts)) (Part.flush buffer (part :: more)) := by
  cases h with
  | text init last =>
    rw [← List.cons_append, ← List.cons_append, ← flush_append, ← flush_append]
    exact .text _ last
  | apart last =>
    rw [← List.cons_append, ← flush_append]
    refine .apart fun p hp => ?_
    rw [getLast?_flush, List.getLast?_cons] at hp
    cases hlast : parts.getLast? with
    | none =>
      rw [hlast] at hp
      cases hp
      exact hpart
    | some q =>
      rw [hlast] at hp
      cases hp
      exact last q hlast

/-- **Characters behind tokens** trail the parts of the tokens. -/
theorem trails_gather (buffer : List Char) (ts : List Token) {cs : List Char} (hne : cs ≠ []) :
    Trails cs (gather buffer ts) (gather buffer (ts ++ cs.map Token.plain)) := by
  induction ts generalizing buffer with
  | nil =>
    have hall : gather buffer (cs.map Token.plain) = flush (buffer ++ cs) [] := by
      rw [gather_eq, ← List.map_append, ← List.append_nil ((buffer ++ cs).map Token.plain),
        ← gather_eq, gather]
    rw [List.nil_append, hall, gather]
    cases buffer with
    | nil =>
      obtain ⟨c, ds, rfl⟩ := List.exists_cons_of_ne_nil hne
      exact .apart (by simp [flush])
    | cons c buffer => exact .text [] (c :: buffer)
  | cons t ts ih =>
    cases t with
    | plain c => exact ih (buffer ++ [c])
    | tag u => exact ih buffer
    | command u => exact (ih []).flush rfl buffer
    | var u => exact (ih []).flush rfl buffer

variable {first : Part} {init : List Part} {cs gap : List Char}

theorem trim_eq_filter (parts : List Part) :
    trim parts = (mapFirstText Text.trimEnd
      (mapFirstText Text.trimStart parts).reverse).reverse.filter (· != Part.text []) := rfl

theorem trim_text (cs : List Char) :
    trim [.text cs] = [Part.text (Text.trim cs)].filter (· != Part.text []) := rfl

/-- A last text is trimmed by itself if something stands before it. -/
theorem trim_append_text (first : Part) (init : List Part) (cs : List Char) :
    trim (first :: init ++ [.text cs]) = (mapFirstText Text.trimStart (first :: init) ++
      [Part.text (Text.trimEnd cs)]).filter (· != Part.text []) := by
  have hlast : ∀ others, mapFirstText Text.trimEnd ([Part.text cs].reverse ++ others) =
      Part.text (Text.trimEnd cs) :: others := fun _ => rfl
  rw [trim_eq_filter, mapFirstText_append, List.reverse_append, hlast, List.reverse_cons,
    List.reverse_reverse]

theorem getLast?_mapFirstText {f : List Char → List Char}
    (h : ∀ p, (first :: init).getLast? = some p → p.isText = false) :
    ∀ p, (mapFirstText f (first :: init)).getLast? = some p → p.isText = false := by
  cases init with
  | nil =>
    cases first with
    | text cs => exact absurd (h _ rfl) (by simp [isText])
    | _ => exact h
  | cons second init =>
    cases first <;> exact h

/-- **Blanks behind parts** are trimmed off again. -/
theorem Trails.trim_eq {parts more : List Part} (h : Trails gap parts more)
    (hgap : Text.allBlank gap = true) : trim more = trim parts := by
  cases h with
  | text init last =>
    cases init with
    | nil =>
      rw [List.nil_append, List.nil_append, trim_text, trim_text,
        Text.trim_append_of_blank _ hgap]
    | cons first init =>
      rw [trim_append_text, trim_append_text, Text.trimEnd_append_of_blank _ hgap]
  | apart last =>
    cases parts with
    | nil =>
      rw [List.nil_append, trim_text, Text.trim_eq_nil_iff.mpr hgap]
      rfl
    | cons first init =>
      have hlast : ∀ p, (mapFirstText Text.trimStart (first :: init)).reverse.head? = some p →
          p.isText = false := by
        intro p hp
        rw [List.head?_reverse] at hp
        exact getLast?_mapFirstText last p hp
      rw [trim_append_text, Text.trimEnd_eq_nil_iff.mpr hgap, List.filter_append, trim_eq_filter,
        mapFirstText_of_head hlast, List.reverse_reverse]
      simp

/-- **Blanks and a tag behind a text** do not change its parts. -/
theorem trim_ofTokens_append (ts : List Token) (hgap : Text.allBlank gap = true)
    (tag : List Char) :
    trim (ofTokens (ts ++ (gap.map Token.plain ++ [.tag tag]))) = trim (ofTokens ts) := by
  have htag : ofTokens (ts ++ (gap.map Token.plain ++ [.tag tag])) =
      ofTokens (ts ++ gap.map Token.plain) := by
    rw [← List.append_assoc, ofTokens, List.foldr_append]
    rfl
  rw [htag]
  cases gap with
  | nil => rw [List.map_nil, List.append_nil]
  | cons c gap =>
    have htrails := trails_gather [] ts (List.cons_ne_nil c gap)
    rw [gather_eq, gather_eq] at htrails
    exact htrails.trim_eq hgap

end Part

/-! ## The layout of a line -/

namespace Layout

theorem arrow_of_not {cs : List Char} (h : ∀ rest, cs ≠ '-' :: '>' :: rest) :
    arrow cs = (false, cs) := by
  unfold arrow
  split
  · exact absurd rfl (h _)
  · rfl

/-- A tag behind blanks ends up behind the body, of an option as well. -/
theorem arrow_append {cs gap tag : List Char} (hne : cs ≠ []) (hgap : Text.allBlank gap = true)
    (hgne : gap ≠ []) (htag : Text.trimStart tag = tag) :
    ∃ ws, Text.allBlank ws = true ∧ (ws = [] → (arrow cs).2 = []) ∧
      arrow (cs ++ (gap ++ tag)) = ((arrow cs).1, (arrow cs).2 ++ (ws ++ tag)) := by
  by_cases harrow : ∃ rest, cs = '-' :: '>' :: rest
  · obtain ⟨rest, rfl⟩ := harrow
    have hwhole : arrow ('-' :: '>' :: rest ++ (gap ++ tag)) =
        (true, Text.trimStart (rest ++ (gap ++ tag))) := rfl
    have hbody : arrow ('-' :: '>' :: rest) = (true, Text.trimStart rest) := rfl
    rw [hwhole, hbody]
    by_cases hrest : Text.allBlank rest = true
    · -- The option has no body, and the blanks go with the arrow.
      refine ⟨[], rfl, fun _ => Text.trimStart_eq_nil_iff.mpr hrest, ?_⟩
      rw [Text.trimStart_append_of_blank _ hrest, Text.trimStart_append_of_blank _ hgap, htag,
        Text.trimStart_eq_nil_iff.mpr hrest]
      rfl
    · refine ⟨gap, hgap, fun he => absurd he hgne, ?_⟩
      rw [Text.trimStart_append_of_visible (by simpa using hrest)]
  · have hbare : ∀ rest, cs ≠ '-' :: '>' :: rest := fun rest he => harrow ⟨rest, he⟩
    refine ⟨gap, hgap, fun he => absurd he hgne, ?_⟩
    rw [arrow_of_not hbare, arrow_of_not]
    intro rest he
    cases cs with
    | nil => exact hne rfl
    | cons c cs =>
      cases cs with
      | nil =>
        obtain ⟨d, gap, rfl⟩ := List.exists_cons_of_ne_nil hgne
        cases he
        exact absurd hgap (by simp [Text.allBlank, Text.isBlank])
      | cons d cs =>
        cases he
        exact hbare cs rfl

theorem tags_append (ts : List Token) (gap tag : List Char) :
    Tag.ofTokens (ts ++ (gap.map Token.plain ++ [.tag tag])) =
      Tag.ofTokens ts ++ [Tag.read tag] := by
  have hgap : Tag.ofTokens (gap.map Token.plain) = [] := by
    rw [Tag.ofTokens, List.filterMap_map, List.filterMap_eq_nil_iff]
    exact fun _ _ => rfl
  unfold Tag.ofTokens at hgap ⊢
  rw [List.filterMap_append, List.filterMap_append, hgap]
  rfl

/-- **A tag behind a line**, after a space, is one tag more, and nothing else changes. -/
theorem read_append {content tag : List Char} (hvisible : Text.allBlank content = false)
    (htag : Token.Special [] (.tag tag)) (tabWidth : Nat) :
    read tabWidth (content ++ ' ' :: tag) = { read tabWidth content with
      tags := (read tabWidth content).tags ++ [Tag.read tag] } := by
  obtain ⟨gap, hgap, hgne, htrim⟩ := Text.trim_append_of_visible hvisible htag.edged_tag
  have hne : Text.trim content ≠ [] := by
    rw [Ne, Text.trim_eq_nil_iff, hvisible]
    decide
  obtain ⟨ws, hws, hfree, harrow⟩ :=
    arrow_append hne hgap hgne (Text.trimStart_of_edged htag.edged_tag)
  simp only [read, htrim, harrow, Token.tokens_append hws htag hfree,
    Part.trim_ofTokens_append _ hws, tags_append, Text.margin_append_of_visible hvisible]

end Layout

/-! ## Ids that are written back -/

namespace Tag

theorem special_idPiece (n : Nat) :
    Token.Special [] (.tag (idPiece (mintedId lineKey n))) :=
  .keyValue (by decide) (Text.allWord_mintedId n) (by rintro _ ⟨⟩)

theorem lineId?_concat {tags : List Tag} {tag : Tag} {id : String} (h : tag.given? = some id) :
    lineId? (tags ++ [tag]) = some id := by
  unfold given? at h
  split at h
  · next hline => simp [lineId?, hline, h]
  · cases h

theorem idle_concat {tags : List Tag} {tag : Tag} {id : String} (h : tag.written? = some id) :
    idle (tags ++ [tag]) = idle tags := by
  simp [idle, h]

end Tag

namespace Line

/-- A line with a minted id gets the same id and the same tags from its text with the tag of that id
behind it. -/
theorem identify_written_back {s t : Session} {written tags : List Tag} {id : String}
    (hread : ∀ tag ∈ written, ∃ cs, tag = Tag.read cs) (hnone : Tag.lineId? written = none)
    (h : identify s written = (id, tags, t)) :
    tags = Tag.collect written ++ [Tag.naming id] ∧ (∃ n, id = mintedId Tag.lineKey n) ∧
      ∀ u, identify u (written ++ [Tag.read (Tag.idPiece id)]) = (id, tags, u) := by
  rcases identify_cases hread h with ⟨hid, -⟩ | ⟨-, rfl, rfl⟩
  · rw [hnone] at hid
    cases hid
  · refine ⟨rfl, ⟨_, rfl⟩, fun u => ?_⟩
    rw [identify, Tag.lineId?_concat (Tag.given?_read_idPiece _), Tag.collect_concat,
      ← Tag.naming_eq_read (Tag.underscore_mem_mintedId _ _), Tag.addTo_naming hread hnone]

/-- Whether an id is free does not depend on how many ids were minted. -/
theorem register?_of_identify {s t u : Session} {written tags : List Tag} {id node : String}
    (h : identify s written = (id, tags, t)) (hr : t.register? id node = some u) :
    ∃ v, s.register? id node = some v := by
  obtain ⟨hfree, -⟩ := Session.register?_some hr
  rw [owner?_identify h] at hfree
  rw [Session.register?, hfree]
  exact ⟨_, rfl⟩

/-- **A minted id is written back**: the text with the tag of the id behind it gives the line again,
in whatever session the line was read. -/
theorem read_written_back {content : List Char} {node : String} {position : Position}
    {s t : Session} {line : Line} (h : read content node position s = (.ok line, t))
    (hvisible : Text.allBlank content = false) (hminted : ownId? content = none) :
    line.tags.getLast? = some (Tag.naming line.id) ∧
      ownId? (content ++ ' ' :: (Tag.naming line.id).source.toList) = some line.id ∧
      ∃ u, read (content ++ ' ' :: (Tag.naming line.id).source.toList) node position s =
        (.ok { line with
          source := String.ofList (content ++ ' ' :: (Tag.naming line.id).source.toList) }, u) := by
  obtain ⟨segments, id, tags, u, v, w, hp, hi, hr, hline, -⟩ := read_ok h
  have hlid : line.id = id := by rw [hline]; rfl
  have hnone : Tag.lineId? (Layout.read s.options.tabWidth content).tags = none := hminted
  obtain ⟨htags, ⟨n, hid⟩, hagain⟩ := identify_written_back (fun _ => exists_read_of_mem) hnone hi
  obtain ⟨w', hr'⟩ := register?_of_identify hi hr
  obtain ⟨content', hcontent'⟩ : ∃ cs, cs = content ++ ' ' :: Tag.idPiece id := ⟨_, rfl⟩
  have hlayout : ∀ tabWidth, Layout.read tabWidth content' = { Layout.read tabWidth content with
      tags := (Layout.read tabWidth content).tags ++ [Tag.read (Tag.idPiece id)] } := by
    intro tabWidth
    rw [hcontent', hid]
    exact Layout.read_append hvisible (Tag.special_idPiece n) tabWidth
  have hp' : readParts position [] (speaker? s (Layout.read s.options.tabWidth content').speaker).2
      (Segment.whole (Layout.read s.options.tabWidth content').parts) = (.ok segments, u) := by
    rw [hlayout]
    exact hp
  have hi' : identify (noticeIdle u position (Layout.read s.options.tabWidth content').tags)
      (Layout.read s.options.tabWidth content').tags =
        (id, tags, noticeIdle u position (Layout.read s.options.tabWidth content).tags) := by
    rw [hlayout, noticeIdle, Tag.idle_concat (Tag.written?_read_idPiece id)]
    exact hagain _
  have hread := read_eq hp' hi' hr'
  rw [hlayout] at hread
  have hlast : line.tags.getLast? = some (Tag.naming id) := by
    rw [hline, ofLayout, htags, List.getLast?_concat]
  rw [hlid, Tag.source_naming, ← Tag.idPiece, ← hcontent']
  refine ⟨hlast, ?_, w'.notice (.lineRead position id node), ?_⟩
  · rw [ownId?, hlayout]
    exact Tag.lineId?_concat (Tag.given?_read_idPiece id)
  · rw [hread, hline]
    rfl

/--
**A minted id can be written back.**  A line that was read alone and got a minted id has a tag for
it; its text, a space and this tag give the same line again, which differs in its text only, and the
text now gives the id.
-/
theorem parse_written_back {content node : String} {line : Line} {t : Session}
    (h : parse content node = (.ok line, t)) (hvisible : Text.allBlank content.toList = false)
    (hminted : ownId? content.toList = none) :
    let told := content ++ " " ++ (Tag.naming line.id).source
    line.tags.getLast? = some (Tag.naming line.id) ∧ ownId? told.toList = some line.id ∧
      ∃ u, parse told node = (.ok { line with source := told }, u) := by
  obtain ⟨hlast, hown, u, hread⟩ := read_written_back h hvisible hminted
  have htold : (content ++ " " ++ (Tag.naming line.id).source).toList =
      content.toList ++ ' ' :: (Tag.naming line.id).source.toList := by
    simp
  rw [← htold] at hown hread
  rw [String.ofList_toList] at hread
  exact ⟨hlast, hown, u, hread⟩

/-- An option with a speaker, a tag that names nothing, a command that is left open, and a backslash
at the end. -/
def openSample : String := "\t-> Ann: Look #a <<wave>> #line at <<this \\"

theorem parse_written_back_sample :
    ∃ line t u, parse openSample "A" = (.ok line, t) ∧ line.id = "line_00000001" ∧
      line.tags.map Tag.source = ["#a", "#line", "#line:line_00000001"] ∧
      parse (openSample ++ " " ++ "#line:line_00000001") "A" =
        (.ok { line with source := openSample ++ " " ++ "#line:line_00000001" }, u) := by
  have hcheck : (parse openSample "A").1.toOption.any (fun line => decide
      (line.id = "line_00000001" ∧
        line.tags.map Tag.source = ["#a", "#line", "#line:line_00000001"])) = true := by
    decide +kernel
  obtain ⟨line, t, h, hline⟩ := exists_of_any hcheck
  obtain ⟨hid, htags⟩ := of_decide_eq_true hline
  obtain ⟨-, -, u, hread⟩ := parse_written_back h (by decide) (by decide +kernel)
  have hsource : (Tag.naming line.id).source = "#line:line_00000001" := by
    rw [hid]
    decide
  rw [hsource] at hread
  exact ⟨line, t, u, h, hid, htags, hread⟩

end Line

end Parley
