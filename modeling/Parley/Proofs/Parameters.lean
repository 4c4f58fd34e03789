import Mathlib.Data.List.Forall2
import Parley.Notice
import Parley.Proofs.Pieces

/-!
# Parameters are read one by one

The reader of parameters keeps the finished ones, the pending characters, and two notes on
quotations.  It never looks at what is finished, so a reading may stand behind any other one
(`Splitting.behind`); and a blank outside quotations ends the pending parameter in the same way as
the end of the text does.  So such a blank cuts a text of parameters in two.  Inside a quotation
nothing can be cut: all that comes before its closing mark goes to the last parameter.

* `Splitting.foldl_behind` — what was finished before makes no difference.
* `splitParameters_word` and `splitParameters_quoted` — one parameter is read back, as a word
  between blanks or between quote marks.
* `splitParameters_append` — splitting a text that goes on behind another one.
* `parse_quoted` — parameters between quote marks that they lack are read back, whatever they hold.
-/

namespace Parley.Command

namespace Splitting

/-! ## Behind finished parameters -/

/-- A reading with other parameters finished before. -/
def behind (s : Splitting) (before : List Value) : Splitting :=
  { s with finished := s.finished ++ before }

theorem finish_behind (s : Splitting) (before : List Value) :
    (s.behind before).finish = s.finish ++ before := by
  unfold finish behind
  dsimp only
  split <;> rfl

theorem step_behind (s : Splitting) (before : List Value) (c : Char) :
    (s.behind before).step c = (s.step c).behind before := by
  unfold step
  simp only [finish_behind]
  simp only [behind]
  split
  · split
    · rfl
    · split <;> rfl
  · split <;> rfl

/-- **What was finished before makes no difference** to the parameters behind it. -/
theorem foldl_behind (s : Splitting) (before : List Value) (cs : List Char) :
    cs.foldl step (s.behind before) = (cs.foldl step s).behind before := by
  induction cs generalizing s with
  | nil => rfl
  | cons c cs ih => rw [List.foldl_cons, List.foldl_cons, step_behind, ih]

/-! ## Quotations -/

/-- The parameter in which a quotation is open has one. -/
def Noted (s : Splitting) : Prop := ∀ mark, s.openQuote = some mark → s.hasQuotation = true

theorem noted_start : start.Noted := by
  intro mark h
  cases h

theorem Noted.step {s : Splitting} (h : s.Noted) (c : Char) : (s.step c).Noted := by
  unfold Splitting.step
  split
  · split
    · exact fun _ _ => rfl
    · split
      · exact noted_start
      · exact h
  · split
    · intro mark hopen
      cases hopen
    · exact h

theorem Noted.foldl {s : Splitting} (h : s.Noted) (cs : List Char) :
    (cs.foldl Splitting.step s).Noted := by
  induction cs generalizing s with
  | nil => exact h
  | cons c cs ih => exact ih (h.step c)

end Splitting

/-! ## One parameter -/

/-- Characters that are neither blanks nor quote marks go to the pending parameter. -/
theorem foldl_step_bare {cs : List Char}
    (h : ∀ c ∈ cs, Text.isBlank c = false ∧ isQuote c = false) {s : Splitting}
    (hs : s.openQuote = none) :
    cs.foldl Splitting.step s = { s with pending := cs.reverse ++ s.pending } := by
  induction cs generalizing s with
  | nil => rfl
  | cons c cs ih =>
    obtain ⟨⟨hblank, hquote⟩, hcs⟩ := List.forall_mem_cons.mp h
    have hstep : s.step c = { s with pending := c :: s.pending } := by
      simp [Splitting.step, hs, hblank, hquote]
    rw [List.foldl_cons, hstep, ih hcs (by exact hs)]
    simp

/-- Inside a quotation all characters but its mark go to the pending parameter. -/
theorem foldl_step_quoted {mark : Char} {cs : List Char} (h : mark ∉ cs) {s : Splitting}
    (hs : s.openQuote = some mark) :
    cs.foldl Splitting.step s = { s with pending := cs.reverse ++ s.pending } := by
  induction cs generalizing s with
  | nil => rfl
  | cons c cs ih =>
    rw [List.mem_cons, not_or] at h
    have hstep : s.step c = { s with pending := c :: s.pending } := by
      simp [Splitting.step, hs, Ne.symm h.1]
    rw [List.foldl_cons, hstep, ih h.2 (by exact hs)]
    simp

theorem isQuote_of_blank {c : Char} (h : Text.isBlank c = true) : isQuote c = false := by
  by_contra hquote
  simp only [isQuote, Bool.not_eq_false, Bool.or_eq_true, beq_iff_eq] at hquote
  simp only [Text.isBlank] at h
  obtain hc | hc := hquote <;> simp [hc] at h

/-! ## A text behind another one -/

/-- A blank outside quotations is a fresh start behind the parameters so far. -/
theorem step_blank {s : Splitting} {w : Char} (hs : s.openQuote = none)
    (hw : Text.isBlank w = true) : s.step w = Splitting.start.behind s.finish := by
  rw [Splitting.step_blank_of_closed hs hw (isQuote_of_blank hw)]
  rfl

/-- **A blank outside quotations cuts a text of parameters in two.** -/
theorem splitParameters_append_blank {a : List Char} (ha : (splitParameters a).2 = none)
    {w : Char} (hw : Text.isBlank w = true) (b : List Char) :
    splitParameters (a ++ w :: b) =
      ((splitParameters a).1 ++ (splitParameters b).1, (splitParameters b).2) := by
  unfold splitParameters at ha ⊢
  dsimp only at ha ⊢
  rw [List.foldl_append, List.foldl_cons, step_blank ha hw, Splitting.foldl_behind,
    Splitting.finish_behind, List.reverse_append]
  rfl

/-- **Inside a quotation** a text goes on with the last parameter, as far as it lacks the mark. -/
theorem splitParameters_append_open {a : List Char} {mark : Char}
    (ha : (splitParameters a).2 = some mark) :
    ∃ before last, (splitParameters a).1 = before ++ [Value.read last] ∧
      ∀ b, mark ∉ b →
        splitParameters (a ++ b) = (before ++ [Value.read (last ++ b)], some mark) := by
  unfold splitParameters at ha ⊢
  simp only [List.foldl_append] at ha ⊢
  have hnoted : (a.foldl Splitting.step Splitting.start).hasQuotation = true :=
    Splitting.noted_start.foldl a mark ha
  generalize a.foldl Splitting.step Splitting.start = s at ha hnoted
  refine ⟨s.finished.reverse, s.pending.reverse, by simp [Splitting.finish, hnoted], ?_⟩
  intro b hb
  rw [foldl_step_quoted hb ha]
  simp [Splitting.finish, hnoted, ha]

/-- **Splitting is compositional**: behind parameters without an open quotation a blank is a fresh
start; and an open quotation takes in what follows, as far as it lacks the mark, so that only the
last parameter grows. -/
theorem splitParameters_append (a : List Char) :
    ((splitParameters a).2 = none → ∀ w, Text.isBlank w = true → ∀ b,
      splitParameters (a ++ w :: b) =
        ((splitParameters a).1 ++ (splitParameters b).1, (splitParameters b).2)) ∧
    ∀ mark, (splitParameters a).2 = some mark →
      ∃ before last, (splitParameters a).1 = before ++ [Value.read last] ∧
        ∀ b, mark ∉ b →
          splitParameters (a ++ b) = (before ++ [Value.read (last ++ b)], some mark) := by
  constructor
  · intro hclosed w hblank b
    exact splitParameters_append_blank hclosed hblank b
  · intro mark hopen
    exact splitParameters_append_open hopen

/-- A quotation inside a word and an empty one; and a number that turns into text. -/
theorem splitParameters_append_sample :
    splitParameters ("a b'c'd".toList ++ '\t' :: "'' \"e".toList) =
        ([.text "a", .text "bcd", .text "", .text "e"], some '"') ∧
      ∃ before last, (splitParameters "x \"7".toList).1 = before ++ [Value.read last] ∧
        splitParameters ("x \"7".toList ++ "'s ".toList) =
          (before ++ [Value.read (last ++ "'s ".toList)], some '"') := by
  constructor
  · rw [(splitParameters_append _).1 (by decide) '\t' (by decide)]
    decide +kernel
  · obtain ⟨before, last, hparameters, hmore⟩ :=
      (splitParameters_append "x \"7".toList).2 '"' (by decide)
    exact ⟨before, last, hparameters, hmore _ (by decide)⟩

/-! ## Parameters that are read back -/

/-- Blanks in front of a text make no difference. -/
theorem splitParameters_blank {ws : List Char} (h : Text.allBlank ws = true) (cs : List Char) :
    splitParameters (ws ++ cs) = splitParameters cs := by
  induction ws with
  | nil => rfl
  | cons w ws ih =>
    simp only [Text.allBlank, List.all_cons, Bool.and_eq_true] at h
    have hfirst := @splitParameters_append_blank [] rfl w h.1 (ws ++ cs)
    rw [List.cons_append]
    exact hfirst.trans (ih h.2)

/-- **A word between blanks is one parameter.** -/
theorem splitParameters_word {gap word trail : List Char} (hgap : Text.allBlank gap = true)
    (htrail : Text.allBlank trail = true) (hne : word ≠ [])
    (h : ∀ c ∈ word, Text.isBlank c = false ∧ isQuote c = false) :
    splitParameters (gap ++ (word ++ trail)) = ([Value.read word], none) := by
  have hword : splitParameters word = ([Value.read word], none) := by
    rw [splitParameters, foldl_step_bare h rfl]
    simp [Splitting.finish, Splitting.start, hne]
  rw [splitParameters_blank hgap]
  cases trail with
  | nil => rw [List.append_nil, hword]
  | cons w trail =>
    simp only [Text.allBlank, List.all_cons, Bool.and_eq_true] at htrail
    have hnone : splitParameters trail = ([], none) := by
      have hrest := splitParameters_blank htrail.2 []
      rw [List.append_nil] at hrest
      exact hrest
    rw [splitParameters_append_blank (by rw [hword]) htrail.1, hword, hnone]
    rfl

/-- A text between two quote marks of a kind that it lacks. -/
inductive Quotes (text : List Char) : List Char → Prop
  | between {mark : Char} (quote : isQuote mark = true) (free : mark ∉ text) :
      Quotes text (mark :: (text ++ [mark]))

/-- **A text between quote marks that it lacks is one parameter**, whatever it is. -/
theorem Quotes.split {text quoted : List Char} (h : Quotes text quoted) :
    splitParameters quoted = ([Value.read text], none) := by
  cases h with
  | @between mark quote free =>
    have hopen : Splitting.start.step mark = ⟨[], [], true, some mark⟩ := by
      simp [Splitting.step, Splitting.start, quote]
    rw [splitParameters, List.foldl_cons, hopen, List.foldl_append, foldl_step_quoted free rfl]
    simp [Splitting.step, Splitting.finish]

/-- Parameters as a command holds them, each behind a space. -/
def spaced (parameters : List (List Char)) : List Char :=
  parameters.flatMap fun parameter => ' ' :: parameter

/-- **Parameters behind spaces** are read one after the other, if none leaves a quotation open. -/
theorem splitParameters_spaced {parameters : List (List Char)}
    (h : ∀ parameter ∈ parameters, (splitParameters parameter).2 = none) :
    splitParameters (spaced parameters) =
      (parameters.flatMap fun parameter => (splitParameters parameter).1, none) := by
  induction parameters with
  | nil => rfl
  | cons first others ih =>
    obtain ⟨hfirst, hothers⟩ := List.forall_mem_cons.mp h
    have hspace : ∀ cs, splitParameters (' ' :: cs) = splitParameters cs :=
      @splitParameters_blank [' '] rfl
    have hrest := ih hothers
    show splitParameters (' ' :: (first ++ spaced others)) = _
    rw [hspace, List.flatMap_cons]
    cases others with
    | nil =>
      rw [show spaced [] = [] from rfl, List.append_nil, List.flatMap_nil, List.append_nil,
        ← hfirst]
    | cons second others =>
      have hcons : spaced (second :: others) = ' ' :: (second ++ spaced others) := rfl
      rw [hcons, hspace] at hrest
      rw [hcons, splitParameters_append_blank hfirst rfl, hrest]

/-! ## Commands with quoted parameters -/

theorem exists_quotes_iff {texts : List (List Char)} :
    (∃ quoted, List.Forall₂ Quotes texts quoted) ↔
      ∀ text ∈ texts, ∃ mark, isQuote mark = true ∧ mark ∉ text := by
  constructor
  · rintro ⟨quoted, h⟩
    induction h with
    | nil => simp
    | cons head _ ih =>
      cases head with
      | @between mark quote free => exact List.forall_mem_cons.mpr ⟨⟨mark, quote, free⟩, ih⟩
  · intro h
    induction texts with
    | nil => exact ⟨[], .nil⟩
    | cons text texts ih =>
      obtain ⟨⟨mark, quote, free⟩, hothers⟩ := List.forall_mem_cons.mp h
      obtain ⟨quoted, hquoted⟩ := ih hothers
      exact ⟨_, .cons (.between quote free) hquoted⟩

/-- Quoted parameters are read back in their order. -/
theorem splitParameters_quoted {texts quoted : List (List Char)}
    (h : List.Forall₂ Quotes texts quoted) :
    splitParameters (spaced quoted) = (texts.map Value.read, none) := by
  have hclosed : ∀ parameter ∈ quoted, (splitParameters parameter).2 = none := by
    induction h with
    | nil => simp
    | cons head _ ih => exact List.forall_mem_cons.mpr ⟨by rw [head.split], ih⟩
  have hvalues : quoted.flatMap (fun parameter => (splitParameters parameter).1) =
      texts.map Value.read := by
    clear hclosed
    induction h with
    | nil => rfl
    | cons head _ ih =>
      rw [List.flatMap_cons, head.split, ih]
      rfl
  rw [splitParameters_spaced hclosed, hvalues]

/-- A command with a name and parameters behind it, each behind a space. -/
def written (name : List Char) (parameters : List (List Char)) : String :=
  String.ofList (enclose (name ++ spaced parameters))

theorem blank_of_head?_spaced {parameters : List (List Char)} {c : Char}
    (h : (spaced parameters).head? = some c) : Text.isBlank c = true := by
  cases parameters with
  | nil => cases h
  | cons parameter others =>
    cases h
    rfl

/-- **Quoting protects any parameter**: every text that lacks one of the quote marks can be written
between such marks, and a command with a word for a name and parameters written in this way is read
back as it was meant, without a notice of a quotation that is open. -/
theorem parse_quoted {name : List Char} (hname : Text.allWord name = true)
    {texts : List (List Char)} (h : ∀ text ∈ texts, ∃ mark, isQuote mark = true ∧ mark ∉ text) :
    (∃ quoted, List.Forall₂ Quotes texts quoted) ∧
      ∀ quoted, List.Forall₂ Quotes texts quoted →
        parse (written name quoted) =
          (.ok ⟨String.ofList name, texts.map Value.read, written name quoted⟩, #[]) := by
  refine ⟨exists_quotes_iff.mpr h, ?_⟩
  intro quoted hquoted
  obtain ⟨hfirst, hafter⟩ := Text.firstWord_append hname fun _ => blank_of_head?_spaced
  rw [parse, written, String.toList_ofList, read_enclose, hfirst, hafter,
    NameFault.ofName?_eq_none_iff.mpr hname, splitParameters_quoted hquoted]

/-- An empty text, texts with delimiters, quote marks and a backslash, and a number twice. -/
theorem parse_quoted_sample :
    parse "<<say '' \"it's >>\" 'a \"<<\" \\' \"7\" '7'>>" =
      (.ok ⟨"say", [.text "", .text "it's >>", .text "a \"<<\" \\", .number 7, .number 7],
        "<<say '' \"it's >>\" 'a \"<<\" \\' \"7\" '7'>>"⟩, #[]) := by
  let texts := ["".toList, "it's >>".toList, "a \"<<\" \\".toList, "7".toList, "7".toList]
  have hquoted : List.Forall₂ Quotes texts ["''".toList, "\"it's >>\"".toList,
      "'a \"<<\" \\'".toList, "\"7\"".toList, "'7'".toList] :=
    .cons (.between (by decide) (by decide)) <| .cons (.between (by decide) (by decide)) <|
      .cons (.between (by decide) (by decide)) <| .cons (.between (by decide) (by decide)) <|
        .cons (.between (by decide) (by decide)) .nil
  have hread := (@parse_quoted "say".toList (by decide) texts
    (exists_quotes_iff.mp ⟨_, hquoted⟩)).2 _ hquoted
  have hvalues : texts.map Value.read =
      [.text "", .text "it's >>", .text "a \"<<\" \\", .number 7, .number 7] := by
    decide +kernel
  rw [hvalues] at hread
  exact hread

end Parley.Command
