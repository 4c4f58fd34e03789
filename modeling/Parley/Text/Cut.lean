/-!
# Cutting a text

A text is cut at the first place where a mark stands, or split at every line end.  Each cut keeps
all the characters but the mark itself.

Principal results: `cut?_eq_some` and `cut?_eq_none_iff` — a cut is at the first mark, and there
is none exactly in a text without the mark; `cutUnescaped?_eq_some` — a cut at an unescaped mark
loses nothing but the mark; `cutAt?_eq_some_iff` — a text is cut after a number of bytes exactly
where a character ends; `slice?_eq_some_iff` — the same for what is cut out between two of them;
`not_mem_of_mem_lines` — no line holds a line feed.
-/

namespace Parley.Text

/-- The text before and after the first `mark`. -/
def cut? (mark : Char) (cs : List Char) : Option (List Char × List Char) :=
  match cs.dropWhile (· != mark) with
  | [] => none
  | _ :: after => some (cs.takeWhile (· != mark), after)

theorem cut?_cons_self (mark : Char) (cs : List Char) : cut? mark (mark :: cs) = some ([], cs) := by
  simp [cut?]

theorem cut?_cons_of_ne {mark c : Char} (cs : List Char) (h : c ≠ mark) :
    cut? mark (c :: cs) = (cut? mark cs).map fun p => (c :: p.1, p.2) := by
  simp only [cut?, List.dropWhile_cons, List.takeWhile_cons, bne_iff_ne, ne_eq, h,
    not_false_eq_true, if_true]
  split <;> rfl

theorem cut?_eq_some {mark : Char} {cs before after : List Char}
    (h : cut? mark cs = some (before, after)) :
    cs = before ++ mark :: after ∧ mark ∉ before := by
  induction cs generalizing before after with
  | nil => cases h
  | cons c cs ih =>
    by_cases hc : c = mark
    · subst hc
      rw [cut?_cons_self] at h
      cases h
      simp
    · rw [cut?_cons_of_ne cs hc, Option.map_eq_some_iff] at h
      obtain ⟨⟨b, a⟩, hb, he⟩ := h
      cases he
      obtain ⟨h1, h2⟩ := ih hb
      exact ⟨by rw [h1]; rfl, by simp [h2, Ne.symm hc]⟩

theorem cut?_rest_lt {mark : Char} {cs before after : List Char}
    (h : cut? mark cs = some (before, after)) : after.length < cs.length := by
  rw [(cut?_eq_some h).1, List.length_append, List.length_cons]
  omega

theorem cut?_eq_none_iff {mark : Char} {cs : List Char} : cut? mark cs = none ↔ mark ∉ cs := by
  induction cs with
  | nil => simp [cut?]
  | cons c cs ih =>
    by_cases hc : c = mark
    · simp [hc, cut?_cons_self]
    · simp [cut?_cons_of_ne cs hc, ih, Ne.symm hc]

theorem cut?_append_self {mark : Char} {before : List Char} (after : List Char)
    (h : mark ∉ before) : cut? mark (before ++ mark :: after) = some (before, after) := by
  induction before with
  | nil => exact cut?_cons_self mark after
  | cons c before ih =>
    simp only [List.mem_cons, not_or] at h
    rw [List.cons_append, cut?_cons_of_ne _ (Ne.symm h.1), ih h.2]
    rfl

/-! ## Bytes -/

/-- The size of a text in bytes. -/
def size (cs : List Char) : Nat := cs.foldr (fun c bytes => c.utf8Size + bytes) 0

@[simp] theorem size_nil : size [] = 0 := rfl

@[simp] theorem size_cons (c : Char) (cs : List Char) : size (c :: cs) = c.utf8Size + size cs := rfl

@[simp] theorem size_append (cs ds : List Char) : size (cs ++ ds) = size cs + size ds := by
  induction cs with
  | nil => rw [List.nil_append, size_nil, Nat.zero_add]
  | cons c cs ih => rw [List.cons_append, size_cons, size_cons, ih, Nat.add_assoc]

/-- The text before and after its first `bytes` bytes, which have to be whole characters. -/
def cutAt? (bytes : Nat) (cs : List Char) : Option (List Char × List Char) :=
  match bytes, cs with
  | 0, cs => some ([], cs)
  | _ + 1, [] => none
  | bytes + 1, c :: cs =>
    if c.utf8Size ≤ bytes + 1 then
      (cutAt? (bytes + 1 - c.utf8Size) cs).map fun p => (c :: p.1, p.2)
    else none

theorem cutAt?_size (before after : List Char) :
    cutAt? (size before) (before ++ after) = some (before, after) := by
  induction before with
  | nil => simp [cutAt?]
  | cons c before ih =>
    have hc := c.utf8Size_pos
    obtain ⟨bytes, hb⟩ : ∃ bytes, size (c :: before) = bytes + 1 :=
      ⟨size (c :: before) - 1, by rw [size_cons]; omega⟩
    have hrest : bytes + 1 - c.utf8Size = size before := by
      rw [← hb, size_cons]
      omega
    rw [hb, List.cons_append, cutAt?, if_pos (by rw [← hb, size_cons]; omega), hrest, ih]
    rfl

theorem cutAt?_eq_some_iff {bytes : Nat} {cs before after : List Char} :
    cutAt? bytes cs = some (before, after) ↔ cs = before ++ after ∧ bytes = size before := by
  constructor
  · intro h
    induction cs generalizing bytes before after with
    | nil =>
      cases bytes with
      | zero => cases h; exact ⟨rfl, rfl⟩
      | succ bytes => cases h
    | cons c cs ih =>
      cases bytes with
      | zero =>
        simp only [cutAt?, Option.some.injEq, Prod.mk.injEq] at h
        obtain ⟨rfl, rfl⟩ := h
        exact ⟨rfl, rfl⟩
      | succ bytes =>
        unfold cutAt? at h
        split at h
        · next hle =>
          obtain ⟨⟨first, rest⟩, hcut, he⟩ := Option.map_eq_some_iff.mp h
          cases he
          obtain ⟨hcs, hsize⟩ := ih hcut
          refine ⟨by rw [hcs, List.cons_append], ?_⟩
          rw [size_cons, ← hsize]
          omega
        · cases h
  · rintro ⟨rfl, rfl⟩
    exact cutAt?_size before after

theorem size_toList (text : String) : size text.toList = text.utf8ByteSize := by
  have hlist : ∀ cs : List Char, size cs = (String.ofList cs).utf8ByteSize := by
    intro cs
    induction cs with
    | nil => rfl
    | cons c cs ih =>
      rw [size_cons, ih, String.ofList_cons, String.utf8ByteSize_append,
        String.utf8ByteSize_singleton]
  rw [hlist, String.ofList_toList]

/--
The part of a text between two numbers of bytes.  There is none if they are not in order, or if one
of them is inside a character or beyond the end.
-/
def slice? (first last : Nat) (text : String) : Option String := do
  let first ← text.pos? ⟨first⟩
  let last ← text.pos? ⟨last⟩
  (text.slice? first last).map String.Slice.copy

theorem pos?_eq_some_iff {text : String} {offset : String.Pos.Raw} {place : text.Pos} :
    text.pos? offset = some place ↔ place.offset = offset := by
  simp only [String.pos?, String.Slice.pos?]
  split
  · simp [String.Pos.ext_iff, String.Pos.ofToSlice, eq_comm]
  · next hvalid =>
    simp only [Option.map_none, reduceCtorEq, false_iff]
    rintro rfl
    exact hvalid (by simpa using place.isValid)

theorem slice?_eq_some_iff {first last : Nat} {text part : String} :
    slice? first last text = some part ↔
      ∃ before after, text = before ++ part ++ after ∧ first = before.utf8ByteSize ∧
        last = (before ++ part).utf8ByteSize := by
  constructor
  · intro h
    simp only [slice?, Option.bind_eq_bind, Option.bind_eq_some_iff, pos?_eq_some_iff] at h
    obtain ⟨p, hp, q, hq, h⟩ := h
    obtain ⟨part, hslice, rfl⟩ := Option.map_eq_some_iff.mp h
    simp only [String.slice?, Option.dite_none_right_eq_some, Option.some.injEq] at hslice
    obtain ⟨hle, rfl⟩ := hslice
    obtain ⟨before, after, hfirst, hlast⟩ := String.copy_slice_eq_iff_splits.mp ⟨hle, rfl⟩
    refine ⟨before, after, hlast.eq_append, ?_, ?_⟩
    · rw [hfirst.offset_eq_rawEndPos] at hp
      exact (congrArg String.Pos.Raw.byteIdx hp).symm
    · rw [hlast.offset_eq_rawEndPos] at hq
      exact (congrArg String.Pos.Raw.byteIdx hq).symm
  · rintro ⟨before, after, rfl, rfl, rfl⟩
    have hfirst := String.Pos.splits_ofEqAppend (String.append_assoc : before ++ part ++ after = _)
    have hlast := String.Pos.splits_ofEqAppend (rfl : before ++ part ++ after = _)
    obtain ⟨hle, hslice⟩ := String.copy_slice_eq_iff_splits.mpr ⟨before, after, hfirst, hlast⟩
    have hp := pos?_eq_some_iff.mpr hfirst.offset_eq_rawEndPos
    have hq := pos?_eq_some_iff.mpr hlast.offset_eq_rawEndPos
    simp only [String.rawEndPos] at hp hq
    simp only [slice?, hp, hq, Option.bind_eq_bind, Option.bind_some, String.slice?, dif_pos hle,
      Option.map_some, hslice]

/-- There is a part between two numbers of bytes that are in order and at characters' ends both. -/
theorem isSome_slice?_iff {first last : Nat} {text : String} :
    (slice? first last text).isSome ↔
      first ≤ last ∧ String.Pos.Raw.IsValid text ⟨first⟩ ∧ String.Pos.Raw.IsValid text ⟨last⟩ := by
  constructor
  · intro h
    obtain ⟨part, hpart⟩ := Option.isSome_iff_exists.mp h
    obtain ⟨before, after, rfl, rfl, rfl⟩ := slice?_eq_some_iff.mp hpart
    refine ⟨?_, ?_, ?_⟩
    · rw [String.utf8ByteSize_append]
      exact Nat.le_add_right _ _
    · exact String.Pos.Raw.isValid_iff_exists_append.mpr
        ⟨before, part ++ after, String.append_assoc, rfl⟩
    · exact String.Pos.Raw.isValid_iff_exists_append.mpr ⟨before ++ part, after, rfl, rfl⟩
  · rintro ⟨hle, hfirst, hlast⟩
    have hp : text.pos? ⟨first⟩ = some (text.pos ⟨first⟩ hfirst) := pos?_eq_some_iff.mpr rfl
    have hq : text.pos? ⟨last⟩ = some (text.pos ⟨last⟩ hlast) := pos?_eq_some_iff.mpr rfl
    have hslice : text.pos ⟨first⟩ hfirst ≤ text.pos ⟨last⟩ hlast := hle
    simp [slice?, hp, hq, String.slice?, hslice]

/-! ## Delimiters -/

/-- The text between two delimiters at its ends, which may not share a character. -/
def between? (opening closing cs : List Char) : Option (List Char) :=
  (opening.isPrefixOf? cs).bind fun rest => closing.isSuffixOf? rest

/-- The text without a lead, if it starts with it. -/
def without (lead cs : List Char) : List Char := (lead.isPrefixOf? cs).getD cs

/-- Whether a text stands somewhere in another one. -/
def occursIn (part : List Char) : List Char → Bool
  | [] => part.isEmpty
  | c :: cs => part.isPrefixOf (c :: cs) || occursIn part cs

/-! ## Backslashes -/

/--
The text before and after the first `mark` that no backslash precedes.  `passed` is the text before,
in reverse.
-/
def cutUnescaped? (mark : Char) (passed : List Char) : List Char →
    Option (List Char × List Char)
  | [] => none
  | c :: cs =>
    if c = mark ∧ passed.head? ≠ some '\\' then some (passed.reverse, cs)
    else cutUnescaped? mark (c :: passed) cs

theorem cutUnescaped?_eq_some {mark : Char} {passed cs before after : List Char}
    (h : cutUnescaped? mark passed cs = some (before, after)) :
    passed.reverse ++ cs = before ++ mark :: after := by
  induction cs generalizing passed with
  | nil => cases h
  | cons c cs ih =>
    simp only [cutUnescaped?] at h
    split at h
    · next hc => cases h; rw [hc.1]
    · simpa using ih h

/-! ## Lines -/

/-- Puts a character in front of a text whose lines are known: the first line and the others. -/
def addToLines (c : Char) (state : List Char × List (List Char)) : List Char × List (List Char) :=
  if c = '\n' then ([], state.1 :: state.2) else (c :: state.1, state.2)

/-- The lines of a text, which stand between its line feeds; a text has at least one. -/
def lines (cs : List Char) : List (List Char) :=
  let state := cs.foldr addToLines ([], [])
  state.1 :: state.2

theorem lines_newline (cs : List Char) : lines ('\n' :: cs) = [] :: lines cs := by
  simp [lines, addToLines]

theorem lines_cons_of_ne {c : Char} (cs : List Char) (h : c ≠ '\n') :
    lines (c :: cs) = (c :: (lines cs).head (by simp [lines])) :: (lines cs).tail := by
  simp [lines, addToLines, h]

/-- Lines written one after the other with a line feed between two. -/
def unlines (ls : List (List Char)) : List Char := List.intercalate ['\n'] ls

theorem not_mem_of_mem_lines {cs l : List Char} (h : l ∈ lines cs) : '\n' ∉ l := by
  induction cs generalizing l with
  | nil => simp_all [lines]
  | cons c cs ih =>
    by_cases hc : c = '\n'
    · subst hc
      rw [lines_newline, List.mem_cons] at h
      rcases h with rfl | h
      · simp
      · exact ih h
    · rw [lines_cons_of_ne cs hc, List.mem_cons] at h
      rcases h with rfl | h
      · simpa [Ne.symm hc] using ih (List.head_mem _)
      · exact ih (List.mem_of_mem_tail h)

end Parley.Text
