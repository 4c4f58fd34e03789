import Parley.Proofs.Tokens

/-!
# The scan of a line needs no second search

A scan goes from place to place; `Steps` says which tokens lie between two places.  At every place
its position counts the bytes that were passed, its flag says whether a backslash was passed last,
and its memory fits (`Tracks`).  So each search that it makes has the result of a fresh one, and the
tokens are those of the plain description.

* `Tracks.step` — one step keeps the scan on track, and gives a token that belongs there.
* `Steps.lexes` — a scan that comes to its end has the tokens of the plain description.
* `Steps.search_le` — no search starts before an earlier one of the same scan.
* `Part.gather_eq` — text that is gathered in a buffer across tags makes the same parts.
-/

namespace Parley

namespace Part

/-- The text in a buffer in front of parts; an empty buffer is no part. -/
def flush (buffer : List Char) (parts : List Part) : List Part :=
  if buffer.isEmpty then parts else .text buffer :: parts

/-- The parts of tokens, with the text since the last command or variable in a buffer. -/
def gather (buffer : List Char) : List Token → List Part
  | [] => flush buffer []
  | .plain c :: ts => gather (buffer ++ [c]) ts
  | .tag _ :: ts => gather buffer ts
  | .command t :: ts => flush buffer (.command t :: gather [] ts)
  | .var t :: ts => flush buffer (.var t :: gather [] ts)

theorem foldr_plain {parts : List Part} (h : ∀ cs others, parts ≠ .text cs :: others)
    (buffer : List Char) :
    (buffer.map Token.plain).foldr cons parts = flush buffer parts := by
  induction buffer with
  | nil => rfl
  | cons c buffer ih =>
    rw [List.map_cons, List.foldr_cons, ih]
    cases buffer with
    | cons d buffer => rfl
    | nil =>
      cases parts with
      | nil => rfl
      | cons part parts =>
        cases part with
        | text cs => exact absurd rfl (h cs parts)
        | command u => rfl
        | var u => rfl

theorem gather_eq (buffer : List Char) (ts : List Token) :
    gather buffer ts = ofTokens (buffer.map Token.plain ++ ts) := by
  unfold ofTokens
  induction ts generalizing buffer with
  | nil =>
    rw [List.append_nil, foldr_plain (by simp)]
    rfl
  | cons t ts ih =>
    cases t with
    | plain c =>
      unfold gather
      rw [ih, List.map_append, List.append_assoc]
      rfl
    | tag u =>
      unfold gather
      rw [ih, List.foldr_append, List.foldr_append]
      rfl
    | command u =>
      unfold gather
      rw [ih, List.map_nil, List.nil_append, List.foldr_append]
      symm
      apply foldr_plain
      intro cs others h
      cases h
    | var u =>
      unfold gather
      rw [ih, List.map_nil, List.nil_append, List.foldr_append]
      symm
      apply foldr_plain
      intro cs others h
      cases h

end Part

namespace Token.Scan

variable {s e next : Scan} {t : Token} {ts : List Token} {before content : List Char}

/-- The scan looks for `>>` in a text that starts at a position. -/
def Seeks (s : Scan) (position : Nat) (cs : List Char) : Prop :=
  s.afterBackslash = false ∧
    ∃ c, s.rest = '<' :: '<' :: c :: cs ∧ position = s.position + 2 + c.utf8Size

/-- From one place of a scan to another one, and the tokens in between. -/
inductive Steps : Scan → List Token → Scan → Prop
  | refl (s : Scan) : Steps s [] s
  | step {s next e : Scan} {t : Token} {ts : List Token} (head : s.step? = some (t, next))
      (tail : Steps next ts e) : Steps s (t :: ts) e

/-- What a scan that has passed a text knows about it, and about the rest. -/
structure Tracks (before : List Char) (s : Scan) : Prop where
  position : s.position = Text.size before
  escape : s.afterBackslash = true ↔ before.getLast? = some '\\'
  memory : s.memory.Fits s.position s.rest

theorem tracks_start (content : List Char) : Tracks [] (start content) where
  position := rfl
  escape := by simp [start]
  memory := trivial

/-! ## One step -/

theorem step?_position (h : s.step? = some (t, next)) :
    next.position = s.position + Text.size t.text := by
  unfold step? at h
  split at h
  · cases h
  · simp only at h
    split at h <;> cases h
    · rfl
    · simp [text]

/-- The token of a step is the special one at its place, or else a character. -/
theorem step?_token (hm : s.memory.Fits s.position s.rest) (h : s.step? = some (t, next)) :
    (s.afterBackslash = false ∧ next.afterBackslash = false ∧ Special next.rest t) ∨
      ∃ c, t = .plain c ∧ next.afterBackslash = (c == '\\') ∧ (s.afterBackslash = true ∨
        ∀ t' rest, s.rest = t'.text ++ rest → ¬ Special rest t') := by
  unfold step? at h
  split at h
  · cases h
  · next c rest hrest =>
    rw [hrest] at hm ⊢
    cases hb : s.afterBackslash with
    | true =>
      simp only [hb, if_true] at h
      cases h
      exact .inr ⟨c, rfl, rfl, .inl rfl⟩
    | false =>
      simp only [hb, Bool.false_eq_true, if_false] at h
      split at h
      · next u after hfound =>
        cases h
        exact .inl ⟨rfl, rfl, ((special?_eq_some_iff hm).mp hfound).2⟩
      · next hnone =>
        cases h
        refine .inr ⟨c, rfl, rfl, .inr ?_⟩
        intro u after htext hs
        rw [(special?_eq_some_iff hm).mpr ⟨htext, hs⟩] at hnone
        cases hnone

theorem command?_memory (memory : Closer) (position : Nat) (cs : List Char) :
    (command? memory position cs).1 = memory ∨ ∃ c inner, cs = '<' :: '<' :: c :: inner ∧
      (command? memory position cs).1 = memory.advance (position + 2 + c.utf8Size) inner := by
  unfold command?
  split
  · next c inner =>
    refine .inr ⟨c, inner, rfl, ?_⟩
    simp only
    split <;> simp_all
  · exact .inl rfl

theorem special?_memory (memory : Closer) (position : Nat) (cs : List Char) :
    (special? memory position cs).1 = memory ∨ ∃ c inner, cs = '<' :: '<' :: c :: inner ∧
      (special? memory position cs).1 = memory.advance (position + 2 + c.utf8Size) inner := by
  unfold special?
  split
  · exact command?_memory memory position _
  · exact .inl rfl
  · exact .inl rfl
  · exact .inl rfl

/-- Only a search changes the memory. -/
theorem step?_memory (h : s.step? = some (t, next)) :
    next.memory = s.memory ∨
      ∃ n tail, s.Seeks n tail ∧ next.memory = s.memory.advance n tail := by
  unfold step? at h
  split at h
  · cases h
  · next c rest hrest =>
    cases hb : s.afterBackslash with
    | true =>
      simp only [hb, if_true] at h
      cases h
      exact .inl rfl
    | false =>
      simp only [hb, Bool.false_eq_true, if_false] at h
      have hmemory : next.memory = (special? s.memory s.position (c :: rest)).1 := by
        split at h <;> cases h <;> rfl
      rcases special?_memory s.memory s.position (c :: rest) with hsame | ⟨d, inner, hcs, hnew⟩
      · exact .inl (hmemory.trans hsame)
      · exact .inr ⟨_, inner, ⟨hb, d, hrest.trans hcs, rfl⟩, hmemory.trans hnew⟩

/-- What an opener encloses stands behind the openers before it. -/
theorem inner_suffix {passed inner inner' : List Char} {c c' : Char}
    (h : '<' :: '<' :: c :: inner = passed ++ '<' :: '<' :: c' :: inner') : inner' <:+ inner := by
  have hlen := congrArg List.length h
  simp only [List.length_cons, List.length_append] at hlen
  exact List.suffix_of_suffix_length_le ⟨passed ++ ['<', '<', c'], by simp [h]⟩
    ⟨['<', '<', c], rfl⟩ (by omega)

/-- **After a search the memory fits the next place**: the scan goes on behind the closing delimiter
that was found, and where none was found there is none for a later opener. -/
theorem fits_of_seeks {n : Nat} {tail : List Char} (hm : s.memory.Fits s.position s.rest)
    (h : s.step? = some (t, next)) (hs : s.Seeks n tail) :
    (s.memory.advance n tail).Fits next.position next.rest := by
  obtain ⟨hb, c, hrest, rfl⟩ := hs
  obtain ⟨htext, -⟩ := step?_text h
  rw [hrest] at hm
  generalize hfound : s.memory.advance (s.position + 2 + c.utf8Size) tail = found
  cases found with
  | unsought => trivial
  | found p =>
    obtain ⟨inner, rest, rfl, first, rfl⟩ := hm.found hfound
    have hspecial : Special rest (.command ('<' :: '<' :: c :: (inner ++ ['>', '>']))) :=
      .command first
    have hcommand : s.rest =
        (Token.command ('<' :: '<' :: c :: (inner ++ ['>', '>']))).text ++ rest := by
      rw [hrest]
      simp [text]
    rcases step?_token (hrest ▸ hm) h with ⟨-, -, htoken⟩ | ⟨d, -, -, hbare⟩
    · obtain ⟨rfl, rfl⟩ := htoken.unique hspecial (htext.symm.trans hcommand)
      have hposition := step?_position h
      have hopen : Char.utf8Size '<' = 1 := by decide
      have hclose : Char.utf8Size '>' = 1 := by decide
      simp only [text, Text.size_cons, Text.size_append, Text.size_nil, hopen, hclose] at hposition
      show s.position + 2 + c.utf8Size + Text.size inner < next.position
      omega
    · rcases hbare with hbare | hbare
      · rw [hb] at hbare
        cases hbare
      · exact absurd hspecial (hbare _ _ hcommand)
  | absent =>
    have hnone : ∀ u v, tail ≠ u ++ '>' :: '>' :: v := by
      have hfinds := Closer.finds_seek (s.position + 2 + c.utf8Size) tail
      rw [← hm.advance, hfound] at hfinds
      cases hfinds with
      | absent none => exact none
    intro a d inner hlater u v hinner
    have hopeners : '<' :: '<' :: c :: tail = (t.text ++ a) ++ '<' :: '<' :: d :: inner := by
      rw [← hrest, htext, hlater, List.append_assoc]
    obtain ⟨w, hw⟩ := inner_suffix hopeners
    exact hnone (w ++ u) v (by rw [← hw, hinner, List.append_assoc])

/-- **A step keeps the scan on track.** -/
theorem Tracks.step (hs : Tracks before s) (h : s.step? = some (t, next)) :
    Tracks (before ++ t.text) next where
  position := by rw [step?_position h, hs.position, Text.size_append]
  escape := by
    rcases step?_token hs.memory h with ⟨-, hflag, htoken⟩ | ⟨c, rfl, hflag, -⟩
    · rw [hflag, List.getLast?_append_of_ne_nil before htoken.text_ne_nil]
      simpa using htoken.getLast?_ne
    · rw [hflag]
      simp [text, List.getLast?_append]
  memory := by
    rcases step?_memory h with hsame | ⟨n, tail, hseeks, hnew⟩
    · rw [hsame]
      have hm := hs.memory
      rw [(step?_text h).1] at hm
      apply hm.later
      rw [step?_position h]
      exact Nat.le_add_right _ _
    · rw [hnew]
      exact fits_of_seeks hs.memory h hseeks

/-! ## Runs -/

theorem Steps.text (h : Steps s ts e) : s.rest = ts.flatMap text ++ e.rest := by
  induction h with
  | refl s => rfl
  | step head _ ih =>
    rw [(step?_text head).1, ih, List.flatMap_cons, List.append_assoc]

theorem Steps.tracks (h : Steps s ts e) (hs : Tracks before s) :
    Tracks (before ++ ts.flatMap Token.text) e := by
  induction h generalizing before with
  | refl s => simpa using hs
  | step head _ ih =>
    rw [List.flatMap_cons, ← List.append_assoc]
    exact ih (hs.step head)

/-- **A scan that comes to its end has the tokens of the plain description.** -/
theorem Steps.lexes (h : Steps s ts e) (hs : Tracks before s) (he : e.rest = []) :
    Lexes before s.rest ts := by
  induction h generalizing before with
  | refl s =>
    rw [he]
    exact .done before
  | @step s next e t ts head _ ih =>
    have hothers := ih (hs.step head) he
    obtain ⟨htext, -⟩ := step?_text head
    rcases step?_token hs.memory head with ⟨hflag, -, htoken⟩ | ⟨c, rfl, -, hbare⟩
    · refine .special ?_ htext htoken hothers
      rw [ne_eq, ← hs.escape, hflag]
      decide
    · rw [htext]
      refine .plain ?_ hothers
      rw [← hs.escape]
      rw [htext] at hbare
      exact hbare

theorem exists_steps_run (done : List Token) (s : Scan) :
    ∃ ts e, run done s = done.reverse ++ ts ∧ Steps s ts e ∧ e.rest = [] := by
  fun_induction run done s with
  | case1 done s h => exact ⟨[], s, by simp, .refl s, step?_eq_none_iff.mp h⟩
  | case2 done s t next h lt ih =>
    obtain ⟨ts, e, hrun, hsteps, he⟩ := ih
    exact ⟨t :: ts, e, by rw [hrun]; simp, .step h hsteps, he⟩

/-- The steps of a whole scan. -/
theorem steps_tokens (content : List Char) :
    ∃ e, Steps (start content) (tokens content) e ∧ e.rest = [] := by
  obtain ⟨ts, e, hrun, hsteps, he⟩ := exists_steps_run [] (start content)
  rw [List.reverse_nil, List.nil_append] at hrun
  exact ⟨e, by rw [tokens, hrun]; exact hsteps, he⟩

theorem lexes_tokens (content : List Char) : Lexes [] content (tokens content) := by
  obtain ⟨e, hsteps, he⟩ := steps_tokens content
  exact hsteps.lexes (tracks_start content) he

/-! ## Positions -/

/-- A cut of the line at the position of a scan falls between two characters, at its place. -/
theorem Tracks.cutAt? (hs : Tracks before s) :
    Text.cutAt? s.position (before ++ s.rest) = some (before, s.rest) :=
  Text.cutAt?_eq_some_iff.mpr ⟨rfl, hs.position⟩

theorem Tracks.cutAt?_search {n : Nat} {tail : List Char} (hs : Tracks before s)
    (h : s.Seeks n tail) :
    ∃ c, Text.cutAt? n (before ++ s.rest) = some (before ++ ['<', '<', c], tail) := by
  obtain ⟨-, c, hrest, rfl⟩ := h
  refine ⟨c, Text.cutAt?_eq_some_iff.mpr ⟨by simp [hrest], ?_⟩⟩
  have hopen : Char.utf8Size '<' = 1 := by decide
  simp only [Text.size_append, Text.size_cons, Text.size_nil, hopen, hs.position]
  omega

/-- **No search starts before an earlier one**, however wide the characters after the openers
are. -/
theorem Steps.search_le {n n' : Nat} {tail tail' : List Char} (h : Steps s ts e)
    (hs : Tracks before s) (hseeks : s.Seeks n tail) (hseeks' : e.Seeks n' tail') : n ≤ n' := by
  obtain ⟨c, hcut⟩ := hs.cutAt?_search hseeks
  obtain ⟨c', hcut'⟩ := (h.tracks hs).cutAt?_search hseeks'
  obtain ⟨htext, hn⟩ := Text.cutAt?_eq_some_iff.mp hcut
  obtain ⟨htext', hn'⟩ := Text.cutAt?_eq_some_iff.mp hcut'
  obtain ⟨-, d, hrest, -⟩ := hseeks
  obtain ⟨-, d', hrest', -⟩ := hseeks'
  -- Both texts end where the line ends, and the later one is a suffix of the earlier one.
  have hopeners : '<' :: '<' :: d :: tail = ts.flatMap Token.text ++ '<' :: '<' :: d' :: tail' := by
    rw [← hrest, ← hrest', h.text]
  obtain ⟨w, rfl⟩ := inner_suffix hopeners
  have hsize := congrArg Text.size (htext.symm.trans (by rw [h.text, ← List.append_assoc, htext']))
  simp only [Text.size_append] at hsize hn hn'
  omega

end Token.Scan

namespace Token

open Scan

/-- What is made of a text without any memory: its parts and its tags. -/
def Reads (content : List Char) (parts : List Part) (tags : List Tag) : Prop :=
  ∃ ts, Lexes [] content ts ∧ parts = Part.gather [] ts ∧ tags = Tag.ofTokens ts

/-- A search of a scan in a text that starts at a position: it has the result of a fresh one, and
the cuts at its start and behind what it finds fall between two characters. -/
structure Search (content : List Char) (s : Scan) (position : Nat) (cs : List Char) : Prop where
  fresh : Closer.Finds position cs (s.memory.advance position cs)
  start : ∃ passed, Text.cutAt? position content = some (passed, cs)
  stop : ∀ p, s.memory.advance position cs = .found p →
    ∃ inner rest, Text.cutAt? (p + 2 - s.position) s.rest = some (inner, rest)

theorem Scan.Tracks.search {before : List Char} {s : Scan} {n : Nat} {tail : List Char}
    (hs : Tracks before s) (h : s.Seeks n tail) : Search (before ++ s.rest) s n tail where
  fresh := by
    obtain ⟨-, c, hrest, rfl⟩ := h
    have hm := hs.memory
    rw [hrest] at hm
    rw [hm.advance]
    exact Closer.finds_seek _ tail
  start := by
    obtain ⟨c, hcut⟩ := hs.cutAt?_search h
    exact ⟨_, hcut⟩
  stop := by
    intro p hp
    obtain ⟨-, c, hrest, rfl⟩ := h
    have hm := hs.memory
    rw [hrest] at hm ⊢
    obtain ⟨inner, rest, rfl, -, rfl⟩ := hm.found hp
    exact ⟨_, rest, cutAt?_closed s.position c inner rest⟩

/--
**The scan that remembers is the plain one.**  Its parts and tags are those of the plain
description; wherever it stands, its position is between two characters, its searches are as good as
fresh ones, and no search starts before an earlier one.
-/
theorem tokens_agree (content : List Char) :
    (∀ parts tags, Reads content parts tags ↔
      parts = Part.ofTokens (tokens content) ∧ tags = Tag.ofTokens (tokens content)) ∧
    (∃ e, Steps (.start content) (tokens content) e ∧ e.rest = []) ∧
    ∀ ts s, Steps (.start content) ts s →
      Text.cutAt? s.position content = some (ts.flatMap text, s.rest) ∧
      ∀ n tail, s.Seeks n tail → Search content s n tail ∧
        ∀ us s' n' tail', Steps s us s' → s'.Seeks n' tail' → n ≤ n' := by
  refine ⟨?_, steps_tokens content, ?_⟩
  · intro parts tags
    have hlexes := lexes_tokens content
    have hgather := Part.gather_eq [] (tokens content)
    constructor
    · rintro ⟨ts, hts, rfl, rfl⟩
      rw [hts.unique hlexes]
      exact ⟨hgather, rfl⟩
    · rintro ⟨rfl, rfl⟩
      exact ⟨tokens content, hlexes, hgather.symm, rfl⟩
  · intro ts s hsteps
    have hs := hsteps.tracks (tracks_start content)
    rw [List.nil_append] at hs
    have htext : content = ts.flatMap text ++ s.rest := hsteps.text
    refine ⟨htext ▸ hs.cutAt?, ?_⟩
    intro n tail hseeks
    refine ⟨htext ▸ hs.search hseeks, ?_⟩
    intro us s' n' tail' hmore hseeks'
    exact hmore.search_le hs hseeks hseeks'

/-- A wide character behind an opener, openers that overlap, and one that is never closed. -/
def scanSample : List Char := "<<é <<<>>>\\#a #b:c <<".toList

theorem tokens_agree_sample :
    Reads scanSample [.command "<<é <<<>>".toList, .text ">\\#a  <<".toList]
      [⟨"b", some (.text "c"), "#b:c"⟩] ∧
    Search scanSample (.start scanSample) 4 (scanSample.drop 3) := by
  obtain ⟨hreads, -, hplaces⟩ := tokens_agree scanSample
  refine ⟨(hreads _ _).mpr (by decide +kernel), ?_⟩
  obtain ⟨-, hsearches⟩ := hplaces [] (.start scanSample) (.refl _)
  exact (hsearches 4 _ ⟨rfl, 'é', rfl, by decide⟩).1

end Token

end Parley
