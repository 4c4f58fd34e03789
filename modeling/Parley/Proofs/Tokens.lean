import Mathlib.Data.List.Basic
import Parley.Line.Layout

/-!
# Tokens with every search made afresh

The scan of a line remembers where it has found `>>`, and that there is none, so that it need not
search again.  Here the tokens are described without any memory: `Special rest t` says which tokens
of more than one character may stand in front of a text, and `Lexes` reads a text from left to right
with nothing else to know than the text that was passed.

The memory is right because a scan goes on behind what it has found: after `found` the scan stands
behind that `>>`, and after `absent` no opener that is still to come has a `>>` after it
(`Closer.Fits`).

Principal results: `Closer.Fits.advance` — a search with such a memory finds what a fresh one finds;
`special?_eq_some_iff` — so the token at the start of a text is the one that the plain description
gives; `Lexes.unique` — the plain description gives a text no two rows of tokens.
-/

namespace Parley.Token

/-! ## The plain description -/

/-- No word character stands at the start of a text. -/
def EndsWord (cs : List Char) : Prop := ∀ c, cs.head? = some c → Text.isWord c = false

/-- A token of more than one character, when a text follows it. -/
inductive Special (rest : List Char) : Token → Prop
  | command {c : Char} {inner : List Char}
      (first : ∀ a b, inner ++ '>' :: '>' :: rest = a ++ '>' :: '>' :: b →
        inner.length ≤ a.length) :
      Special rest (.command ('<' :: '<' :: c :: (inner ++ ['>', '>'])))
  | var {name : List Char} (word : Text.allWord name = true) :
      Special rest (.var ('\x7b' :: '$' :: (name ++ ['\x7d'])))
  | key {key : List Char} (word : Text.allWord key = true) (ends : EndsWord rest)
      (bare : ∀ cs, rest = ':' :: cs → EndsWord cs) :
      Special rest (.tag ('#' :: key))
  | keyValue {key value : List Char} (word : Text.allWord key = true)
      (given : Text.allWord value = true) (ends : EndsWord rest) :
      Special rest (.tag ('#' :: (key ++ ':' :: value)))

/-- The tokens of a text that stands after another one in its line: where no backslash precedes, a
special token if there is one, and otherwise one character. -/
inductive Lexes : List Char → List Char → List Token → Prop
  | done (before : List Char) : Lexes before [] []
  | special {before cs rest : List Char} {t : Token} {ts : List Token}
      (free : before.getLast? ≠ some '\\') (text : cs = t.text ++ rest) (token : Special rest t)
      (others : Lexes (before ++ t.text) rest ts) : Lexes before cs (t :: ts)
  | plain {before cs : List Char} {c : Char} {ts : List Token}
      (bare : before.getLast? = some '\\' ∨ ∀ t rest, c :: cs = t.text ++ rest → ¬ Special rest t)
      (others : Lexes (before ++ [c]) cs ts) : Lexes before (c :: cs) (.plain c :: ts)

/-! ## Words -/

theorem wordRun_append {name rest : List Char} (hn : name.all Text.isWord = true)
    (hr : EndsWord rest) :
    Text.wordRun (name ++ rest) = name ∧ Text.afterWord (name ++ rest) = rest := by
  unfold Text.wordRun Text.afterWord
  induction name with
  | nil =>
    cases rest with
    | nil => exact ⟨rfl, rfl⟩
    | cons c rest => simp [hr c rfl]
  | cons c name ih =>
    rw [List.all_cons, Bool.and_eq_true] at hn
    obtain ⟨h1, h2⟩ := ih hn.2
    simp [hn.1, h1, h2]

theorem all_wordRun (cs : List Char) : (Text.wordRun cs).all Text.isWord = true :=
  List.all_takeWhile

theorem endsWord_afterWord (cs : List Char) : EndsWord (Text.afterWord cs) := by
  intro c hc
  have := List.head?_dropWhile_not Text.isWord cs
  unfold Text.afterWord at hc
  rw [hc] at this
  exact this

theorem all_of_allWord {cs : List Char} (h : Text.allWord cs = true) :
    cs.all Text.isWord = true ∧ cs ≠ [] := by
  simpa [Text.allWord, and_comm] using h

theorem allWord_wordRun {cs : List Char} (h : (Text.wordRun cs).isEmpty = false) :
    Text.allWord (Text.wordRun cs) = true := by
  simp [Text.allWord, h, all_wordRun cs]

theorem endsWord_cons {c : Char} (h : Text.isWord c = false) (cs : List Char) :
    EndsWord (c :: cs) := by
  rintro _ ⟨⟩
  exact h

/-! ## Variables and tags -/

theorem var?_eq_some_iff {cs t rest : List Char} :
    var? cs = some (t, rest) ↔ cs = t ++ rest ∧ Special rest (.var t) := by
  constructor
  · intro h
    refine ⟨var?_text h, ?_⟩
    simp only [var?] at h
    split at h
    · cases h
    · next inner hi =>
      split at h
      · next after ha =>
        split at h
        · cases h
        · next hne =>
          cases h
          exact .var (allWord_wordRun (by simpa using hne))
      · cases h
  · rintro ⟨rfl, hs⟩
    cases hs with
    | @var name hw =>
      obtain ⟨hall, hne⟩ := all_of_allWord hw
      have hrun := wordRun_append hall (endsWord_cons (c := '\x7d') (by decide) rest)
      have hopen : Variable.opening.isPrefixOf? ('\x7b' :: '$' :: (name ++ '\x7d' :: rest)) =
          some (name ++ '\x7d' :: rest) := rfl
      have hclose : Variable.closing.isPrefixOf? ('\x7d' :: rest) = some rest := rfl
      have hassoc : '\x7b' :: '$' :: (name ++ ['\x7d']) ++ rest =
          '\x7b' :: '$' :: (name ++ '\x7d' :: rest) := by simp
      simp only [hassoc, var?, hopen, hrun.1, hrun.2, hclose]
      rw [if_neg (by simpa using hne)]
      rfl

theorem tagValue_of_endsWord {cs : List Char} (h : ∀ ds, cs = ':' :: ds → EndsWord ds) :
    tagValue cs = ([], cs) := by
  unfold tagValue
  split
  · next ds =>
    have hrun : Text.wordRun ([] ++ ds) = [] := (wordRun_append rfl (h ds rfl)).1
    rw [List.nil_append] at hrun
    simp [hrun]
  · rfl

theorem special_tagValue {key cs : List Char} (hkey : Text.allWord key = true)
    (hends : EndsWord cs) :
    Special (tagValue cs).2 (.tag ('#' :: (key ++ (tagValue cs).1))) := by
  unfold tagValue
  split
  · next ds =>
    by_cases hvalue : (Text.wordRun ds).isEmpty = true
    · simp only [hvalue, if_true, List.append_nil]
      refine .key hkey hends ?_
      rintro _ ⟨⟩
      have hsame := Text.wordRun_append_afterWord ds
      rw [List.isEmpty_iff.mp hvalue, List.nil_append] at hsame
      rw [← hsame]
      exact endsWord_afterWord ds
    · simp only [hvalue]
      exact .keyValue hkey (allWord_wordRun (by simpa using hvalue)) (endsWord_afterWord ds)
  · next hno =>
    simp only [List.append_nil]
    exact .key hkey hends fun ds hds => absurd hds (hno ds)

theorem tag?_eq_some_iff {cs t rest : List Char} :
    tag? cs = some (t, rest) ↔ cs = t ++ rest ∧ Special rest (.tag t) := by
  constructor
  · intro h
    refine ⟨tag?_text h, ?_⟩
    simp only [tag?] at h
    split at h
    · next inner =>
      split at h
      · cases h
      · next hne =>
        have hkey := allWord_wordRun (by simpa using hne)
        have hends := endsWord_afterWord inner
        have hvalue := special_tagValue hkey hends
        cases h
        exact hvalue
    · cases h
  · rintro ⟨rfl, hs⟩
    cases hs with
    | @key key hw hends hbare =>
      obtain ⟨hall, hne⟩ := all_of_allWord hw
      have hrun := wordRun_append hall hends
      simp [tag?, hrun, hne, tagValue_of_endsWord hbare]
    | @keyValue key value hw hv hends =>
      obtain ⟨hall, hne⟩ := all_of_allWord hw
      obtain ⟨hall', hne'⟩ := all_of_allWord hv
      have hrun := wordRun_append hall (endsWord_cons (c := ':') (by decide) (value ++ rest))
      have hrun' := wordRun_append hall' hends
      simp [tag?, hrun, hne, tagValue, hrun', hne']

/-! ## Closing delimiters -/

namespace Closer

/-- What a search in a text that starts at a position has to find: the first `>>`, or that there is
none. -/
inductive Finds (position : Nat) (cs : List Char) : Closer → Prop
  | found {inner rest : List Char} (text : cs = inner ++ '>' :: '>' :: rest)
      (first : ∀ a b, cs = a ++ '>' :: '>' :: b → inner.length ≤ a.length) :
      Finds position cs (.found (position + Text.size inner))
  | absent (none : ∀ a b, cs ≠ a ++ '>' :: '>' :: b) : Finds position cs .absent

theorem finds_seek (position : Nat) (cs : List Char) : Finds position cs (seek position cs) := by
  induction cs generalizing position with
  | nil => exact .absent fun a b => by simp
  | cons c cs ih =>
    unfold seek
    split
    · next hp =>
      rw [Command.closing, List.isPrefixOf_iff_prefix] at hp
      obtain ⟨rest, hrest⟩ := hp
      have htext : c :: cs = [] ++ '>' :: '>' :: rest := hrest.symm
      exact .found htext fun a b _ => Nat.zero_le _
    · next hp =>
      -- A `>>` in the whole text does not stand at its start, so it stands in the rest.
      have hlater : ∀ a b, c :: cs = a ++ '>' :: '>' :: b →
          ∃ a', a = c :: a' ∧ cs = a' ++ '>' :: '>' :: b := by
        intro a b h
        cases a with
        | nil =>
          refine absurd ?_ hp
          rw [Command.closing, List.isPrefixOf_iff_prefix]
          exact ⟨b, h.symm⟩
        | cons d a =>
          obtain ⟨hc, h⟩ := List.cons_eq_cons.mp h
          exact ⟨a, by rw [hc], h⟩
      have hrest := ih (position + c.utf8Size)
      generalize seek (position + c.utf8Size) cs = found at hrest
      cases hrest with
      | @found inner rest text first =>
        rw [Nat.add_assoc, ← Text.size_cons]
        refine .found (by rw [text, List.cons_append]) ?_
        intro a b h
        obtain ⟨a', rfl, h'⟩ := hlater a b h
        exact Nat.succ_le_succ (first a' b h')
      | absent none =>
        refine .absent ?_
        intro a b h
        obtain ⟨a', -, h'⟩ := hlater a b h
        exact none a' b h'

theorem Finds.unique {position : Nat} {cs : List Char} {m m' : Closer} (h : Finds position cs m)
    (h' : Finds position cs m') : m = m' := by
  cases h with
  | @found inner rest text first =>
    cases h' with
    | @found inner' rest' text' first' =>
      have hlen := Nat.le_antisymm (first _ _ text') (first' _ _ text)
      rw [(List.append_inj (text.symm.trans text') hlen).1]
    | absent none => exact absurd text (none _ _)
  | absent none =>
    cases h' with
    | found text first => exact absurd text (none _ _)
    | absent => rfl

/-- A memory is right for a place: what it has found was left behind, and where it has found nothing
there is nothing for any opener from there on. -/
def Fits (memory : Closer) (position : Nat) (cs : List Char) : Prop :=
  match memory with
  | .unsought => True
  | .found p => p < position
  | .absent => ∀ a c inner, cs = a ++ '<' :: '<' :: c :: inner → ∀ u v, inner ≠ u ++ '>' :: '>' :: v

theorem Fits.later {memory : Closer} {position position' : Nat} {passed cs : List Char}
    (h : memory.Fits position (passed ++ cs)) (hp : position ≤ position') :
    memory.Fits position' cs := by
  cases memory with
  | unsought => trivial
  | found p => exact Nat.lt_of_lt_of_le h hp
  | absent =>
    intro a c inner hcs
    exact h (passed ++ a) c inner (by rw [hcs, List.append_assoc])

/-- **A search with a memory that fits finds what a fresh search finds.** -/
theorem Fits.advance {memory : Closer} {position : Nat} {c : Char} {inner : List Char}
    (h : memory.Fits position ('<' :: '<' :: c :: inner)) :
    memory.advance (position + 2 + c.utf8Size) inner =
      seek (position + 2 + c.utf8Size) inner := by
  cases memory with
  | unsought => rfl
  | found p =>
    have hlt : p < position := h
    simp only [Closer.advance]
    rw [if_neg (by omega)]
  | absent =>
    show Closer.absent = _
    exact (Finds.absent (h [] c inner rfl)).unique (finds_seek _ inner)

theorem Fits.found {memory : Closer} {position p : Nat} {c : Char} {inner : List Char}
    (h : memory.Fits position ('<' :: '<' :: c :: inner))
    (hp : memory.advance (position + 2 + c.utf8Size) inner = .found p) :
    ∃ u rest, inner = u ++ '>' :: '>' :: rest ∧
      (∀ a b, inner = a ++ '>' :: '>' :: b → u.length ≤ a.length) ∧
      p = position + 2 + c.utf8Size + Text.size u := by
  have hfinds := finds_seek (position + 2 + c.utf8Size) inner
  rw [← h.advance, hp] at hfinds
  generalize hq : Closer.found p = m at hfinds
  cases hfinds with
  | absent => cases hq
  | @found u rest text first =>
    cases hq
    exact ⟨u, rest, text, first, rfl⟩

end Closer

/-- The cut behind a closing delimiter falls between two characters. -/
theorem cutAt?_closed (position : Nat) (c : Char) (inner rest : List Char) :
    Text.cutAt? (position + 2 + c.utf8Size + Text.size inner + 2 - position)
        ('<' :: '<' :: c :: (inner ++ '>' :: '>' :: rest)) =
      some ('<' :: '<' :: c :: (inner ++ ['>', '>']), rest) := by
  refine Text.cutAt?_eq_some_iff.mpr ⟨by simp, ?_⟩
  have hopen : Char.utf8Size '<' = 1 := by decide
  have hclose : Char.utf8Size '>' = 1 := by decide
  simp only [Text.size_cons, Text.size_append, Text.size_nil, hopen, hclose]
  omega

/-! ## The token at the start of a text -/

variable {memory : Closer} {position : Nat} {cs rest : List Char} {t : Token}

theorem command?_eq_some_iff {u : List Char} (hm : memory.Fits position cs) :
    (command? memory position cs).2 = some (u, rest) ↔
      cs = u ++ rest ∧ Special rest (.command u) := by
  constructor
  · intro h
    refine ⟨command?_text h, ?_⟩
    simp only [command?] at h
    split at h
    · next c inner =>
      split at h
      · next p hp =>
        obtain ⟨v, after, rfl, first, rfl⟩ := hm.found hp
        rw [cutAt?_closed] at h
        cases h
        exact .command first
      · cases h
    · cases h
  · rintro ⟨rfl, hs⟩
    cases hs with
    | @command c inner first =>
      have hassoc : inner ++ ['>', '>'] ++ rest = inner ++ '>' :: '>' :: rest := by simp
      simp only [List.cons_append, hassoc] at hm ⊢
      have hfinds : Closer.Finds (position + 2 + c.utf8Size) (inner ++ '>' :: '>' :: rest)
          (.found (position + 2 + c.utf8Size + Text.size inner)) := .found rfl first
      have hp := hm.advance.trans ((Closer.finds_seek _ _).unique hfinds)
      simp only [command?, hp, cutAt?_closed]

theorem special?_of_command {u : List Char}
    (h : (command? memory position cs).2 = some (u, rest)) :
    (special? memory position cs).2 = some (.command u, rest) := by
  unfold command? at h
  split at h
  · next c inner =>
    unfold special? command?
    simp only [h, Option.map_some]
  · cases h

theorem special?_of_var {u : List Char} (h : var? cs = some (u, rest)) :
    (special? memory position cs).2 = some (.var u, rest) := by
  obtain ⟨rfl, hs⟩ := var?_eq_some_iff.mp h
  cases hs
  simp only [List.cons_append] at h ⊢
  simp only [special?, h, Option.map_some]

theorem special?_of_tag {u : List Char} (h : tag? cs = some (u, rest)) :
    (special? memory position cs).2 = some (.tag u, rest) := by
  unfold tag? at h
  split at h
  · next inner =>
    have htag : tag? ('#' :: inner) = some (u, rest) := h
    simp only [special?, htag, Option.map_some]
  · cases h

/-- **With a memory that fits, the token at the start of a text is the one that belongs there.** -/
theorem special?_eq_some_iff (hm : memory.Fits position cs) :
    (special? memory position cs).2 = some (t, rest) ↔ cs = t.text ++ rest ∧ Special rest t := by
  constructor
  · intro h
    unfold special? at h
    split at h
    · obtain ⟨⟨u, v⟩, hu, he⟩ := Option.map_eq_some_iff.mp h
      cases he
      exact (command?_eq_some_iff hm).mp hu
    · obtain ⟨⟨u, v⟩, hu, he⟩ := Option.map_eq_some_iff.mp h
      cases he
      exact var?_eq_some_iff.mp hu
    · obtain ⟨⟨u, v⟩, hu, he⟩ := Option.map_eq_some_iff.mp h
      cases he
      exact tag?_eq_some_iff.mp hu
    · cases h
  · rintro ⟨hcs, hs⟩
    cases hs with
    | command first =>
      exact special?_of_command ((command?_eq_some_iff hm).mpr ⟨hcs, .command first⟩)
    | var word => exact special?_of_var (var?_eq_some_iff.mpr ⟨hcs, .var word⟩)
    | key word ends bare => exact special?_of_tag (tag?_eq_some_iff.mpr ⟨hcs, .key word ends bare⟩)
    | keyValue word given ends =>
      exact special?_of_tag (tag?_eq_some_iff.mpr ⟨hcs, .keyValue word given ends⟩)

theorem Special.unique {t' : Token} {rest' : List Char} (hs : Special rest t)
    (hs' : Special rest' t') (h : t.text ++ rest = t'.text ++ rest') : t = t' ∧ rest = rest' := by
  have hfresh : Closer.unsought.Fits 0 (t.text ++ rest) := trivial
  have h1 := (special?_eq_some_iff hfresh).mpr ⟨rfl, hs⟩
  have h2 := (special?_eq_some_iff hfresh).mpr ⟨h, hs'⟩
  rw [h1] at h2
  cases h2
  exact ⟨rfl, rfl⟩

/-- No special token ends with a backslash. -/
theorem Special.getLast?_ne (hs : Special rest t) : t.text.getLast? ≠ some '\\' := by
  have hword : ∀ {cs : List Char}, Text.allWord cs = true → ∀ before : List Char,
      (before ++ cs).getLast? ≠ some '\\' := by
    intro cs hw before hlast
    obtain ⟨hall, hne⟩ := all_of_allWord hw
    rw [List.getLast?_append_of_ne_nil before hne] at hlast
    have := List.all_eq_true.mp hall _ (List.mem_of_getLast? hlast)
    revert this
    decide
  cases hs with
  | @command c inner _ =>
    show ('<' :: '<' :: c :: (inner ++ ['>', '>'])).getLast? ≠ _
    rw [show '<' :: '<' :: c :: (inner ++ ['>', '>']) = ('<' :: '<' :: c :: inner ++ ['>']) ++ ['>']
      by simp, List.getLast?_concat]
    decide
  | @var name _ =>
    show (('\x7b' :: '$' :: name) ++ ['\x7d']).getLast? ≠ _
    rw [List.getLast?_concat]
    decide
  | @key key word _ _ => exact hword word ['#']
  | @keyValue key value _ given _ =>
    show ('#' :: (key ++ ':' :: value)).getLast? ≠ _
    rw [show '#' :: (key ++ ':' :: value) = ('#' :: key ++ [':']) ++ value by simp]
    exact hword given _

theorem Special.text_ne_nil (hs : Special rest t) : t.text ≠ [] := by
  cases hs <;> simp [text]

theorem Lexes.unique {before : List Char} {ts ts' : List Token} (h : Lexes before cs ts)
    (h' : Lexes before cs ts') : ts = ts' := by
  induction h generalizing ts' with
  | done before =>
    generalize hcs : ([] : List Char) = cs at h'
    cases h' with
    | done => rfl
    | special _ text token _ =>
      rw [← hcs, eq_comm, List.append_eq_nil_iff] at text
      exact absurd text.1 token.text_ne_nil
    | plain => cases hcs
  | special free text token _ ih =>
    cases h' with
    | done =>
      rw [eq_comm, List.append_eq_nil_iff] at text
      exact absurd text.1 token.text_ne_nil
    | special free' text' token' others' =>
      obtain ⟨rfl, rfl⟩ := token.unique token' (text.symm.trans text')
      rw [ih others']
    | plain bare' _ =>
      rcases bare' with hb | hno
      · exact absurd hb free
      · exact absurd token (hno _ _ text)
  | plain bare _ ih =>
    cases h' with
    | special free' text' token' others' =>
      rcases bare with hb | hno
      · exact absurd hb free'
      · exact absurd token' (hno _ _ text')
    | plain _ others' => rw [ih others']

end Parley.Token
