import Mathlib.Data.List.Chain
import Parley.Proofs.Scanning
import Parley.Proofs.Trimming

/-!
# Parts hold the text of a line

The parts of a line alternate: between two texts stands a command or a variable, which begins and
ends with a visible character, and no text is empty (`Tidy`).  So blanks can be trimmed off the
first and the last part alone, and the result is the text of the line trimmed as a whole.

* `Part.tidy_ofTokens` — the parts that tokens make up are tidy.
* `Part.Tidy.flat_trim` — trimming parts trims their text, and drops nothing else.
* `Part.Tidy.trim` — parts stay tidy when they are trimmed.
* `Part.Tidy.leading_trim` — a text in front of trimmed parts begins the text before the first
  command or variable, without the blanks in front of it.
-/

namespace Parley

namespace Token

/-- Whether the token is a tag. -/
def isTag : Token → Bool
  | .tag _ => true
  | _ => false

/-- Whether the token is a command or a variable, which stay in the line as segments. -/
def isInline : Token → Bool
  | .command _ => true
  | .var _ => true
  | _ => false

/-- The text of tokens without the tags. -/
def untagged (ts : List Token) : List Char := (ts.filter fun t => !t.isTag).flatMap text

/-- The text before the first command or variable, without the tags. -/
def leading (ts : List Token) : List Char := untagged (ts.takeWhile fun t => !t.isInline)

/-- A text begins and ends with visible characters. -/
structure Edged (cs : List Char) : Prop where
  first : ∃ c ds, cs = c :: ds ∧ Text.isBlank c = false
  last : ∃ ds c, cs = ds ++ [c] ∧ Text.isBlank c = false

theorem Edged.ne_nil {cs : List Char} (h : Edged cs) : cs ≠ [] := by
  obtain ⟨c, ds, rfl, -⟩ := h.first
  simp

theorem Special.edged {rest : List Char} {t : Token} (hs : Special rest t)
    (hi : t.isInline = true) : Edged t.text := by
  cases hs with
  | @command c inner _ =>
    exact ⟨⟨'<', _, rfl, by decide⟩,
      ⟨'<' :: '<' :: c :: (inner ++ ['>']), '>', by simp [text], by decide⟩⟩
  | @var name _ =>
    exact ⟨⟨'\x7b', _, rfl, by decide⟩, ⟨'\x7b' :: '$' :: name, '\x7d', rfl, by decide⟩⟩
  | key word ends bare => cases hi
  | keyValue word given ends => cases hi

theorem Lexes.edged {before cs : List Char} {ts : List Token} (h : Lexes before cs ts) :
    ∀ t ∈ ts, t.isInline = true → Edged t.text := by
  induction h with
  | done => simp
  | special _ _ token _ ih => exact List.forall_mem_cons.mpr ⟨token.edged, ih⟩
  | plain _ _ ih =>
    refine List.forall_mem_cons.mpr ⟨?_, ih⟩
    intro hi
    cases hi

end Token

open Token (Edged untagged leading)

namespace Part

/-- The text of parts. -/
abbrev flat (parts : List Part) : List Char := parts.flatMap chars

/-- The parts that are no text. -/
abbrev inline (parts : List Part) : List Part := parts.filter fun part => !part.isText

/-- Texts stand apart, nothing is empty, and what is no text has visible edges. -/
structure Tidy (parts : List Part) : Prop where
  apart : parts.IsChain fun a b => ¬ (a.isText = true ∧ b.isText = true)
  full : ∀ part ∈ parts, part.chars ≠ []
  edged : ∀ part ∈ parts, part.isText = false → Edged part.chars

namespace Tidy

variable {part : Part} {parts others : List Part} {cs : List Char}

theorem nil : Tidy [] := ⟨.nil, by simp, by simp⟩

theorem tail (h : Tidy (part :: others)) : Tidy others where
  apart := h.apart.tail
  full := fun p hp => h.full p (List.mem_cons_of_mem _ hp)
  edged := fun p hp => h.edged p (List.mem_cons_of_mem _ hp)

theorem head?_of_text (h : Tidy (.text cs :: others)) :
    ∀ p, others.head? = some p → p.isText = false := by
  intro p hp
  have := (List.isChain_cons.mp h.apart).1 p hp
  simpa [isText] using this

theorem cons_text (h : Tidy others) (hne : cs ≠ [])
    (hhead : ∀ p, others.head? = some p → p.isText = false) : Tidy (.text cs :: others) where
  apart := by
    refine List.isChain_cons.mpr ⟨?_, h.apart⟩
    intro p hp
    rw [hhead p hp]
    simp
  full := List.forall_mem_cons.mpr ⟨hne, h.full⟩
  edged := by
    refine List.forall_mem_cons.mpr ⟨?_, h.edged⟩
    intro ht
    cases ht

theorem cons_inline (h : Tidy others) (hpart : part.isText = false) (hedged : Edged part.chars) :
    Tidy (part :: others) where
  apart := by
    refine List.isChain_cons.mpr ⟨?_, h.apart⟩
    intro p _
    simp [hpart]
  full := List.forall_mem_cons.mpr ⟨hedged.ne_nil, h.full⟩
  edged := List.forall_mem_cons.mpr ⟨fun _ => hedged, h.edged⟩

theorem reverse (h : Tidy parts) : Tidy parts.reverse where
  apart := List.isChain_reverse.mpr (h.apart.imp fun _ _ hab hba => hab hba.symm)
  full := fun p hp => h.full p (List.mem_reverse.mp hp)
  edged := fun p hp => h.edged p (List.mem_reverse.mp hp)

theorem trimStart_flat (h : Tidy parts) (hhead : ∀ p, parts.head? = some p → p.isText = false) :
    Text.trimStart (flat parts) = flat parts := by
  cases parts with
  | nil => rfl
  | cons part others =>
    obtain ⟨c, ds, hcs, hc⟩ := (h.edged part List.mem_cons_self (hhead part rfl)).first
    rw [flat, List.flatMap_cons, hcs]
    exact Text.trimStart_cons_of_not_blank _ hc

theorem trimEnd_flat (h : Tidy parts) (hlast : ∀ p, parts.getLast? = some p → p.isText = false) :
    Text.trimEnd (flat parts) = flat parts := by
  rcases List.eq_nil_or_concat parts with rfl | ⟨init, part, rfl⟩
  · rfl
  · rw [List.concat_eq_append] at h hlast ⊢
    obtain ⟨ds, c, hcs, hc⟩ := (h.edged part (by simp) (hlast part (by simp))).last
    rw [flat, List.flatMap_append, List.flatMap_singleton, hcs, ← List.append_assoc]
    exact Text.trimEnd_concat_of_not_blank hc _

end Tidy

/-! ## Tokens -/

theorem head?_cons_plain (c : Char) (parts : List Part) :
    ∃ cs others, cons (.plain c) parts = .text (c :: cs) :: others ∧
      (parts = .text cs :: others ∨ cs = [] ∧ parts = others ∧
        ∀ p, others.head? = some p → p.isText = false) := by
  cases parts with
  | nil => exact ⟨[], [], rfl, .inr ⟨rfl, rfl, by simp⟩⟩
  | cons part parts =>
    cases part with
    | text cs => exact ⟨cs, parts, rfl, .inl rfl⟩
    | command u => exact ⟨[], _, rfl, .inr ⟨rfl, rfl, by simp [isText]⟩⟩
    | var u => exact ⟨[], _, rfl, .inr ⟨rfl, rfl, by simp [isText]⟩⟩

theorem tidy_ofTokens {ts : List Token} (h : ∀ t ∈ ts, t.isInline = true → Edged t.text) :
    Tidy (ofTokens ts) := by
  induction ts with
  | nil => exact .nil
  | cons t ts ih =>
    obtain ⟨ht, hts⟩ := List.forall_mem_cons.mp h
    have htidy := ih hts
    show Tidy (cons t (ofTokens ts))
    cases t with
    | plain c =>
      obtain ⟨cs, others, hcons, hparts | ⟨rfl, hparts, hhead⟩⟩ := head?_cons_plain c (ofTokens ts)
      · rw [hcons]
        rw [hparts] at htidy
        exact htidy.tail.cons_text (by simp) htidy.head?_of_text
      · rw [hcons]
        rw [hparts] at htidy
        exact htidy.cons_text (by simp) hhead
    | command u => exact htidy.cons_inline rfl (ht rfl)
    | var u => exact htidy.cons_inline rfl (ht rfl)
    | tag u => exact htidy

theorem flat_ofTokens (ts : List Token) : flat (ofTokens ts) = untagged ts := by
  induction ts with
  | nil => rfl
  | cons t ts ih =>
    show flat (cons t (ofTokens ts)) = _
    rw [flat, chars_cons, ← flat, ih]
    cases t <;> rfl

theorem inline_ofTokens (ts : List Token) :
    (inline (ofTokens ts)).map chars = (ts.filter Token.isInline).map Token.text := by
  induction ts with
  | nil => rfl
  | cons t ts ih =>
    show (inline (cons t (ofTokens ts))).map chars = _
    cases t with
    | plain c =>
      obtain ⟨cs, others, hcons, hparts | ⟨rfl, hparts, -⟩⟩ := head?_cons_plain c (ofTokens ts)
      · rw [hparts] at ih
        rw [hcons]
        exact ih
      · rw [hparts] at ih
        rw [hcons]
        exact ih
    | command u => exact congrArg (u :: ·) ih
    | var u => exact congrArg (u :: ·) ih
    | tag u => exact ih

/-- The text at the head of parts, which is empty where there is none. -/
def lead : List Part → List Char
  | .text cs :: _ => cs
  | _ => []

theorem lead_of_head {parts : List Part} (h : ∀ p, parts.head? = some p → p.isText = false) :
    lead parts = [] := by
  cases parts with
  | nil => rfl
  | cons part parts =>
    cases part with
    | text cs => exact absurd (h _ rfl) (by simp [isText])
    | command u => rfl
    | var u => rfl

theorem lead_ofTokens (ts : List Token) : lead (ofTokens ts) = leading ts := by
  induction ts with
  | nil => rfl
  | cons t ts ih =>
    cases t with
    | plain c =>
      show lead (cons (.plain c) (ofTokens ts)) = c :: leading ts
      rw [← ih]
      obtain ⟨cs, others, hcons, hparts | ⟨rfl, hparts, hhead⟩⟩ :=
        head?_cons_plain c (ofTokens ts)
      · rw [hcons, hparts]
        rfl
      · rw [hcons, hparts, lead_of_head hhead]
        rfl
    | command u => rfl
    | var u => rfl
    | tag u => exact ih

/-! ## Trimming -/

/-- Parts with their first part changed if it is a text, and dropped if nothing is left of it. -/
def edge (f : List Char → List Char) (parts : List Part) : List Part :=
  (mapFirstText f parts).filter (· != .text [])

section

variable {parts others : List Part} {cs : List Char} {f : List Char → List Char}

theorem Tidy.filter_eq (h : Tidy parts) : parts.filter (· != .text []) = parts := by
  refine List.filter_eq_self.mpr ?_
  intro p hp
  have := h.full p hp
  rw [bne_iff_ne]
  rintro rfl
  exact this rfl

theorem Tidy.edge_text (h : Tidy (.text cs :: others)) :
    edge f (.text cs :: others) = if f cs = [] then others else .text (f cs) :: others := by
  show (Part.text (f cs) :: others).filter (· != .text []) = _
  split
  · next he =>
    rw [he, List.filter_cons_of_neg (by simp)]
    exact h.tail.filter_eq
  · next hne =>
    rw [List.filter_cons_of_pos (by simpa using hne), h.tail.filter_eq]

theorem mapFirstText_of_head (hhead : ∀ p, parts.head? = some p → p.isText = false) :
    mapFirstText f parts = parts := by
  cases parts with
  | nil => rfl
  | cons part others =>
    cases part with
    | text cs => exact absurd (hhead _ rfl) (by simp [isText])
    | command u => rfl
    | var u => rfl

theorem Tidy.edge_of_head (h : Tidy parts) (hhead : ∀ p, parts.head? = some p → p.isText = false) :
    edge f parts = parts := by
  rw [edge, mapFirstText_of_head hhead, h.filter_eq]

/-- What is at the head of parts: a text, or none. -/
theorem head_cases (parts : List Part) :
    (∃ cs others, parts = .text cs :: others) ∨ ∀ p, parts.head? = some p → p.isText = false := by
  cases parts with
  | nil => exact .inr (by simp)
  | cons part others =>
    cases part with
    | text cs => exact .inl ⟨cs, others, rfl⟩
    | command u => exact .inr (by simp [isText])
    | var u => exact .inr (by simp [isText])

theorem Tidy.edge (h : Tidy parts) (f : List Char → List Char) : Tidy (edge f parts) := by
  rcases head_cases parts with ⟨cs, others, rfl⟩ | hhead
  · rw [h.edge_text]
    split
    · exact h.tail
    · next hne => exact h.tail.cons_text hne h.head?_of_text
  · rwa [h.edge_of_head hhead]

theorem Tidy.inline_edge (h : Tidy parts) : inline (Part.edge f parts) = inline parts := by
  rcases head_cases parts with ⟨cs, others, rfl⟩ | hhead
  · rw [h.edge_text]
    split <;> simp [inline, isText]
  · rw [h.edge_of_head hhead]

theorem Tidy.flat_edge_trimStart (h : Tidy parts) :
    flat (Part.edge Text.trimStart parts) = Text.trimStart (flat parts) := by
  rcases head_cases parts with ⟨cs, others, rfl⟩ | hhead
  · have hrest := h.tail.trimStart_flat h.head?_of_text
    have hflat : flat (.text cs :: others) = cs ++ flat others := rfl
    rw [hflat, Text.trimStart_append hrest, h.edge_text]
    split
    · next he => rw [he, List.nil_append]
    · rfl
  · rw [h.edge_of_head hhead, h.trimStart_flat hhead]

theorem Tidy.flat_edge_trimEnd (h : Tidy parts) :
    flat (Part.edge Text.trimEnd parts.reverse).reverse = Text.trimEnd (flat parts) := by
  have hr := h.reverse
  rcases head_cases parts.reverse with ⟨cs, others, hparts⟩ | hhead
  · have hsplit : parts = others.reverse ++ [.text cs] := by
      rw [← List.reverse_reverse parts, hparts, List.reverse_cons]
    rw [hparts] at hr ⊢
    have hrest : Text.trimEnd (flat others.reverse) = flat others.reverse := by
      apply hr.tail.reverse.trimEnd_flat
      intro p hp
      rw [List.getLast?_reverse] at hp
      exact hr.head?_of_text p hp
    have hflat : flat parts = flat others.reverse ++ cs := by
      rw [hsplit, flat, List.flatMap_append, List.flatMap_singleton]
      rfl
    rw [hflat, Text.trimEnd_append hrest, hr.edge_text]
    split
    · next he => rw [he, List.append_nil]
    · rw [List.reverse_cons, flat, List.flatMap_append, List.flatMap_singleton]
      rfl
  · rw [hr.edge_of_head hhead, List.reverse_reverse, h.trimEnd_flat]
    intro p hp
    apply hhead
    rwa [List.head?_reverse]

theorem mapFirstText_append {first : Part} (more : List Part) :
    mapFirstText f (first :: others ++ more) = mapFirstText f (first :: others) ++ more := by
  cases first <;> rfl

/-- **Trimming parts** changes one edge after the other. -/
theorem Tidy.trim_eq (h : Tidy parts) :
    trim parts =
      (Part.edge Text.trimEnd (Part.edge Text.trimStart parts).reverse).reverse := by
  show ((mapFirstText Text.trimEnd (mapFirstText Text.trimStart parts).reverse).reverse).filter
    (· != .text []) = _
  rw [List.filter_reverse]
  show (Part.edge Text.trimEnd (mapFirstText Text.trimStart parts).reverse).reverse = _
  -- A first text that becomes empty is still there when the end is trimmed.
  rcases head_cases parts with ⟨cs, others, rfl⟩ | hhead
  · show (Part.edge Text.trimEnd (.text (Text.trimStart cs) :: others).reverse).reverse = _
    rw [h.edge_text]
    split
    · next he =>
      rw [he, List.reverse_cons]
      cases hr : others.reverse with
      | nil => rfl
      | cons last init =>
        unfold Part.edge
        rw [mapFirstText_append, List.filter_append]
        simp
    · rfl
  · rw [mapFirstText_of_head hhead, h.edge_of_head hhead]

theorem Tidy.trim (h : Tidy parts) : Tidy (Part.trim parts) := by
  rw [h.trim_eq]
  exact ((h.edge Text.trimStart).reverse.edge Text.trimEnd).reverse

theorem Tidy.flat_trim (h : Tidy parts) : flat (Part.trim parts) = Text.trim (flat parts) := by
  rw [h.trim_eq, (h.edge Text.trimStart).flat_edge_trimEnd, h.flat_edge_trimStart]
  rfl

theorem Tidy.inline_trim (h : Tidy parts) : inline (Part.trim parts) = inline parts := by
  have hstart := (h.edge Text.trimStart).reverse
  rw [h.trim_eq, inline, List.filter_reverse, ← inline, hstart.inline_edge, inline,
    List.filter_reverse, List.reverse_reverse, ← inline, h.inline_edge]

/-- A first text is what the edge makes of the first text. -/
theorem Tidy.edge_eq_text {cs' : List Char} {others' : List Part} (h : Tidy parts)
    (he : Part.edge f parts = .text cs' :: others') :
    ∃ cs others, parts = .text cs :: others ∧ cs' = f cs := by
  rcases head_cases parts with ⟨cs, others, rfl⟩ | hhead
  · rw [h.edge_text] at he
    split at he
    · have hhead := h.head?_of_text
      rw [he] at hhead
      exact absurd (hhead _ rfl) (by simp [isText])
    · simp only [List.cons.injEq, Part.text.injEq] at he
      exact ⟨cs, others, rfl, he.1.symm⟩
  · rw [h.edge_of_head hhead] at he
    rw [he] at hhead
    exact absurd (hhead _ rfl) (by simp [isText])

theorem Tidy.edge_trimEnd_eq_text {cs' : List Char} {others' : List Part} (h : Tidy parts)
    (he : (Part.edge Text.trimEnd parts.reverse).reverse = .text cs' :: others') :
    ∃ cs others, parts = .text cs :: others ∧ cs' <+: cs := by
  have hr := h.reverse
  rcases head_cases parts.reverse with ⟨cs, init, hparts⟩ | hhead
  · have hsplit : parts = init.reverse ++ [.text cs] := by
      rw [← List.reverse_reverse parts, hparts, List.reverse_cons]
    rw [hparts] at hr he
    rw [hr.edge_text] at he
    split at he
    · exact ⟨cs', others' ++ [.text cs], by rw [hsplit, he]; rfl, List.prefix_rfl⟩
    · rw [List.reverse_cons] at he
      cases hi : init.reverse with
      | nil =>
        rw [hi] at he hsplit
        cases he
        exact ⟨cs, [], hsplit, Text.trimEnd_prefix cs⟩
      | cons first more =>
        rw [hi] at he hsplit
        cases he
        exact ⟨cs', more ++ [.text cs], by rw [hsplit, List.cons_append], List.prefix_rfl⟩
  · rw [hr.edge_of_head hhead, List.reverse_reverse] at he
    exact ⟨cs', others', he, List.prefix_rfl⟩

/-- **A text in front of trimmed parts** begins the first text without its blanks. -/
theorem Tidy.leading_trim {cs' : List Char} {others' : List Part} (h : Tidy parts)
    (ht : Part.trim parts = .text cs' :: others') :
    ∃ cs others, parts = .text cs :: others ∧ cs' <+: Text.trimStart cs := by
  rw [h.trim_eq] at ht
  obtain ⟨cs₁, others₁, hstart, hprefix⟩ := (h.edge Text.trimStart).edge_trimEnd_eq_text ht
  obtain ⟨cs, others, rfl, rfl⟩ := h.edge_eq_text hstart
  exact ⟨cs, others, rfl, hprefix⟩

end

end Part

end Parley
