import Parley.Outline

/-!
# Which links the lines of a node get

Placing lines one after the other keeps one table: the latest line on every level seen so far,
which is never pruned.  The links that come out of it depend on the indentations alone:

* a line has a child exactly if the next line is indented further, and then that line is it;
* a line has a sibling exactly if the first later line with its indentation is not indented further
  than the line before it, and then that line is it (`Continues`).

Principal results: `getElem?_link` — what linking one line changes, and that nothing else changes;
`Placed.place` — the invariant of the pass is kept by one step; `placed_ofLines` — hence it holds of
a whole node.
-/

namespace Parley

/-- The line without its links and tags. -/
def Line.bare (line : Line) : Line :=
  { line with firstChild := none, nextSibling := none, tags := [] }

/-- What linking leaves alone is the same in lines that differ in links and tags only. -/
theorem Line.map_of_bare {α : Type} (f : Line → α) (hf : ∀ line, f line.bare = f line)
    {ls ls' : List Line} (h : ls.map Line.bare = ls'.map Line.bare) : ls.map f = ls'.map f := by
  have hmap := congrArg (List.map f) h
  simpa [Function.comp_def, hf] using hmap

/-- A line has no links yet. -/
def Line.Unlinked (line : Line) : Prop := line.firstChild = none ∧ line.nextSibling = none

/--
In a run of indentations, place `j` continues the level of place `i`: it is the first later one with
that indentation, and it is not indented further than the place before it.
-/
def Continues (depth : Nat → Nat) (i j : Nat) : Prop :=
  i < j ∧ depth j = depth i ∧ (∀ k, i < k → k < j → depth k ≠ depth i) ∧ depth j ≤ depth (j - 1)

theorem Continues.unique {depth : Nat → Nat} {i j k : Nat} (hj : Continues depth i j)
    (hk : Continues depth i k) : j = k := by
  obtain ⟨hij, hjd, hjn, -⟩ := hj
  obtain ⟨hik, hkd, hkn, -⟩ := hk
  rcases Nat.lt_trichotomy j k with h | h | h
  · exact absurd hjd (hkn j hij h)
  · exact h
  · exact absurd hkd (hjn k hik h)

theorem Continues.congr {depth depth' : Nat → Nat} {i j : Nat}
    (hd : ∀ k ≤ j, depth' k = depth k) : Continues depth' i j ↔ Continues depth i j := by
  unfold Continues
  constructor
  · rintro ⟨hij, he, hn, hp⟩
    rw [hd j (Nat.le_refl j), hd i (by omega)] at he
    rw [hd j (Nat.le_refl j), hd (j - 1) (by omega)] at hp
    refine ⟨hij, he, ?_, hp⟩
    intro k hik hkj
    rw [← hd k (by omega), ← hd i (by omega)]
    exact hn k hik hkj
  · rintro ⟨hij, he, hn, hp⟩
    rw [hd j (Nat.le_refl j), hd i (by omega), hd (j - 1) (by omega)]
    refine ⟨hij, he, ?_, hp⟩
    intro k hik hkj
    rw [hd k (by omega)]
    exact hn k hik hkj

namespace Outline

/-- The indentation of the line at a place; there are no lines beyond the last. -/
def depthAt (lines : List Line) (i : Nat) : Nat := (lines[i]?.map Line.indent).getD 0

theorem depthAt_append_left (lines more : List Line) {i : Nat} (h : i < lines.length) :
    depthAt (lines ++ more) i = depthAt lines i := by
  simp [depthAt, List.getElem?_append_left h]

theorem depthAt_concat (lines : List Line) (line : Line) :
    depthAt (lines ++ [line]) lines.length = line.indent := by
  simp [depthAt]

theorem depthAt_map_bare {lines lines' : List Line}
    (h : lines'.map Line.bare = lines.map Line.bare) : depthAt lines' = depthAt lines := by
  funext i
  have hi := congrArg (fun ls : List Line => (ls[i]?.map Line.indent).getD 0) h
  simpa [depthAt, List.getElem?_map, Option.map_map, Function.comp_def, Line.bare] using hi

/-! ## One step -/

theorem getElem?_modify_eq_map (lines : Array Line) (j i : Nat) (f : Line → Line) :
    (lines.modify j f)[i]? = lines[i]?.map fun l => if j = i then f l else l := by
  rw [Array.getElem?_modify]
  split
  · rfl
  · simp

/-- The lines with their link to a line, before the tag that options give. -/
def tie (lines : Array Line) (latest : Std.ExtTreeMap Nat Nat) (previous line : Line) :
    Array Line :=
  if previous.indent < line.indent then
    lines.modify (lines.size - 1) fun l => { l with firstChild := some line.id }
  else
    match latest[line.indent]? with
    | some sibling => lines.modify sibling fun l => { l with nextSibling := some line.id }
    | none => lines

theorem link_eq_tie {lines : Array Line} {previous : Line} (hp : lines.back? = some previous)
    (latest : Std.ExtTreeMap Nat Nat) (line : Line) :
    link lines latest line =
      if endsWith latest previous line then
        (tie lines latest previous line).modify (lines.size - 1) fun l =>
          l.addTag (.of Tag.lastLineKey none)
      else tie lines latest previous line := by
  simp only [link, hp]
  rfl

theorem getElem?_tie {lines : Array Line} (hpos : 0 < lines.size)
    (latest : Std.ExtTreeMap Nat Nat) (previous line : Line) (i : Nat) :
    (tie lines latest previous line)[i]? = lines[i]?.map fun l =>
      { l with
        firstChild := if i + 1 = lines.size ∧ previous.indent < line.indent then some line.id
          else l.firstChild
        nextSibling := if line.indent ≤ previous.indent ∧ latest[line.indent]? = some i
          then some line.id else l.nextSibling } := by
  have hlast : lines.size - 1 = i ↔ i + 1 = lines.size := by omega
  unfold tie
  by_cases hd : previous.indent < line.indent
  · rw [if_pos hd, getElem?_modify_eq_map]
    congr 1
    funext l
    simp only [hlast, hd, Nat.not_le.mpr hd, and_true, false_and, if_false]
    split <;> rfl
  · have hle : line.indent ≤ previous.indent := Nat.le_of_not_lt hd
    rw [if_neg hd]
    cases hs : latest[line.indent]? with
    | none => simp [hd]
    | some sibling =>
      rw [getElem?_modify_eq_map]
      congr 1
      funext l
      simp only [hd, hle, and_false, if_false, true_and, Option.some.injEq]
      split <;> rfl

/-- **Linking a line** changes the first child and the tags of the line before it, and the next
sibling of the latest line on its level, as far as the indentations say so, and nothing else. -/
theorem getElem?_link {lines : Array Line} {previous : Line} (hp : lines.back? = some previous)
    (latest : Std.ExtTreeMap Nat Nat) (line : Line) (i : Nat) :
    (link lines latest line)[i]? = lines[i]?.map fun l =>
      { l with
        firstChild := if i + 1 = lines.size ∧ previous.indent < line.indent then some line.id
          else l.firstChild
        nextSibling := if line.indent ≤ previous.indent ∧ latest[line.indent]? = some i
          then some line.id else l.nextSibling
        tags := if i + 1 = lines.size ∧ endsWith latest previous line = true
          then Tag.addTo l.tags (.of Tag.lastLineKey none) else l.tags } := by
  have hpos : 0 < lines.size := by
    rw [Array.back?_eq_getElem?] at hp
    have := (Array.getElem?_eq_some_iff.mp hp).1
    omega
  have hlast : lines.size - 1 = i ↔ i + 1 = lines.size := by omega
  rw [link_eq_tie hp]
  cases endsWith latest previous line with
  | true =>
    rw [if_pos rfl, getElem?_modify_eq_map, getElem?_tie hpos, Option.map_map]
    congr 1
    funext l
    simp only [Function.comp_apply, hlast, Line.addTag, and_true]
    split <;> rfl
  | false =>
    simp only [Bool.false_eq_true, if_false, and_false]
    exact getElem?_tie hpos latest previous line i

theorem firstChild_link {lines : Array Line} {previous : Line} (hp : lines.back? = some previous)
    (latest : Std.ExtTreeMap Nat Nat) (line : Line) (i : Nat) :
    (link lines latest line)[i]?.bind Line.firstChild = lines[i]?.bind fun l =>
      if i + 1 = lines.size ∧ previous.indent < line.indent then some line.id
        else l.firstChild := by
  rw [getElem?_link hp, Option.bind_map]
  rfl

theorem nextSibling_link {lines : Array Line} {previous : Line} (hp : lines.back? = some previous)
    (latest : Std.ExtTreeMap Nat Nat) (line : Line) (i : Nat) :
    (link lines latest line)[i]?.bind Line.nextSibling = lines[i]?.bind fun l =>
      if line.indent ≤ previous.indent ∧ latest[line.indent]? = some i then some line.id
        else l.nextSibling := by
  rw [getElem?_link hp, Option.bind_map]
  rfl

theorem link_of_back_none {lines : Array Line} (hp : lines.back? = none)
    (latest : Std.ExtTreeMap Nat Nat) (line : Line) : link lines latest line = lines := by
  simp only [link, hp]

theorem map_bare_link (lines : Array Line) (latest : Std.ExtTreeMap Nat Nat) (line : Line) :
    (link lines latest line).toList.map Line.bare = lines.toList.map Line.bare := by
  cases hp : lines.back? with
  | none => rw [link_of_back_none hp]
  | some previous =>
    apply List.ext_getElem?
    intro i
    simp only [List.getElem?_map, Array.getElem?_toList, getElem?_link hp, Option.map_map]
    rfl

/-! ## The whole pass -/

/-- What holds when the lines `ls` have been placed. -/
structure Placed (ls : List Line) (o : Outline) : Prop where
  bare : o.lines.toList.map Line.bare = ls.map Line.bare
  latest : ∀ d i, o.latest[d]? = some i ↔
    i < ls.length ∧ depthAt ls i = d ∧ ∀ k, i < k → k < ls.length → depthAt ls k ≠ d
  child : ∀ i, o.lines[i]?.bind Line.firstChild =
    if depthAt ls i < depthAt ls (i + 1) then ls[i + 1]?.map Line.id else none
  sibling : ∀ i id, o.lines[i]?.bind Line.nextSibling = some id ↔
    ∃ j line, ls[j]? = some line ∧ Continues (depthAt ls) i j ∧ line.id = id

namespace Placed

variable {ls : List Line} {o : Outline}

theorem empty : Placed [] Outline.empty where
  bare := rfl
  latest := by simp [Outline.empty]
  child := by simp [Outline.empty]
  sibling := by simp [Outline.empty]

theorem size_eq (h : Placed ls o) : o.lines.size = ls.length := by
  simpa using congrArg List.length h.bare

theorem previous_indent (h : Placed ls o) {previous : Line} (hp : o.lines.back? = some previous) :
    previous.indent = depthAt ls (ls.length - 1) := by
  rw [← depthAt_map_bare h.bare, depthAt, Array.getElem?_toList, ← h.size_eq,
    ← Array.back?_eq_getElem?, hp]
  rfl

theorem length_pos (h : Placed ls o) {previous : Line} (hp : o.lines.back? = some previous) :
    0 < ls.length := by
  rw [Array.back?_eq_getElem?] at hp
  have := (Array.getElem?_eq_some_iff.mp hp).1
  rw [h.size_eq] at this
  omega

theorem eq_nil (h : Placed ls o) (hp : o.lines.back? = none) : ls = [] := by
  rw [Array.back?_eq_none_iff] at hp
  have := h.size_eq
  rw [hp] at this
  exact List.eq_nil_of_length_eq_zero this.symm

theorem place_latest (h : Placed ls o) (line : Line) (d i : Nat) :
    (o.place line).latest[d]? = some i ↔ i < (ls ++ [line]).length ∧
      depthAt (ls ++ [line]) i = d ∧
      ∀ k, i < k → k < (ls ++ [line]).length → depthAt (ls ++ [line]) k ≠ d := by
  simp only [Outline.place, Std.ExtTreeMap.getElem?_insert, Std.LawfulEqCmp.compare_eq_iff_eq,
    h.size_eq, List.length_append, List.length_singleton]
  have hnew := depthAt_concat ls line
  split
  · next hd =>
    subst hd
    constructor
    · intro hi
      cases hi
      exact ⟨by omega, hnew, fun k hk hk' => by omega⟩
    · rintro ⟨hi, -, hk⟩
      by_cases he : i = ls.length
      · rw [he]
      · exact absurd hnew (hk ls.length (by omega) (by omega))
  · next hd =>
    rw [h.latest]
    constructor
    · rintro ⟨hi, hid, hk⟩
      refine ⟨by omega, by rw [depthAt_append_left _ _ hi, hid], ?_⟩
      intro k hik hkl
      by_cases he : k = ls.length
      · rw [he, hnew]
        exact hd
      · rw [depthAt_append_left _ _ (by omega)]
        exact hk k hik (by omega)
    · rintro ⟨hi, hid, hk⟩
      have hil : i < ls.length := by
        by_cases he : i = ls.length
        · rw [he, hnew] at hid
          exact absurd hid hd
        · omega
      rw [depthAt_append_left _ _ hil] at hid
      refine ⟨hil, hid, ?_⟩
      intro k hik hkl
      rw [← depthAt_append_left _ [line] hkl]
      exact hk k hik (by omega)

theorem getElem?_place (h : Placed ls o) (line : Line) (i : Nat) :
    (o.place line).lines[i]? =
      if i = ls.length then some line else (link o.lines o.latest line)[i]? := by
  simp only [Outline.place, Array.getElem?_push, size_link, h.size_eq]

theorem place_child (h : Placed ls o) {line : Line} (hl : line.Unlinked) (i : Nat) :
    (o.place line).lines[i]?.bind Line.firstChild =
      if depthAt (ls ++ [line]) i < depthAt (ls ++ [line]) (i + 1)
        then (ls ++ [line])[i + 1]?.map Line.id else none := by
  rw [h.getElem?_place]
  by_cases hi : i = ls.length
  · simp [hi, hl.1]
  · rw [if_neg hi]
    cases hp : o.lines.back? with
    | none =>
      have := h.eq_nil hp
      subst this
      rw [link_of_back_none hp, h.child]
      simp [show i ≠ 0 from hi]
    | some previous =>
      have hchild := h.child i
      rw [firstChild_link hp, h.size_eq, h.previous_indent hp]
      by_cases hn : i + 1 = ls.length
      · -- The line before the new one gets it as its child if the new one is deeper.
        have hend : ls[i + 1]? = none := by rw [List.getElem?_eq_none_iff]; omega
        obtain ⟨l, hli⟩ : ∃ l, o.lines[i]? = some l :=
          ⟨_, Array.getElem?_eq_getElem (by rw [h.size_eq]; omega)⟩
        have hnone : l.firstChild = none := by
          rw [hli, hend] at hchild
          simpa using hchild
        have hnew : (ls ++ [line])[ls.length]? = some line := by simp
        rw [hli, depthAt_append_left _ _ (by omega), hn, depthAt_concat, hnew,
          show ls.length - 1 = i by omega]
        by_cases hd : depthAt ls i < line.indent <;> simp [hd, hnone]
      · simp only [hn, false_and, if_false]
        rw [hchild]
        by_cases hlt : i + 1 < ls.length
        · rw [depthAt_append_left _ _ (by omega), depthAt_append_left _ _ hlt,
            List.getElem?_append_left hlt]
        · have h1 : ls[i + 1]? = none := by rw [List.getElem?_eq_none_iff]; omega
          have h2 : (ls ++ [line])[i + 1]? = none := by
            rw [List.getElem?_eq_none_iff, List.length_append, List.length_singleton]; omega
          simp [h1, h2]

/-- A line that is placed continues the level of `i` exactly if `i` is the latest line on its level
and the line before it is not indented less. -/
theorem continues_length_iff (h : Placed ls o) (line : Line) (hpos : 0 < ls.length) (i : Nat) :
    Continues (depthAt (ls ++ [line])) i ls.length ↔
      line.indent ≤ depthAt ls (ls.length - 1) ∧ o.latest[line.indent]? = some i := by
  rw [h.latest]
  unfold Continues
  rw [depthAt_concat, depthAt_append_left _ _ (show ls.length - 1 < ls.length by omega)]
  constructor
  · rintro ⟨hi, hd, hk, hp⟩
    rw [depthAt_append_left _ _ hi] at hd
    refine ⟨hp, hi, hd.symm, ?_⟩
    intro k hik hkl
    have := hk k hik hkl
    rw [depthAt_append_left _ _ hkl, depthAt_append_left _ _ hi] at this
    rwa [hd]
  · rintro ⟨hp, hi, hd, hk⟩
    refine ⟨hi, by rw [depthAt_append_left _ _ hi, hd], ?_, hp⟩
    intro k hik hkl
    rw [depthAt_append_left _ _ hkl, depthAt_append_left _ _ hi, hd]
    exact hk k hik hkl

theorem continues_append_iff (line : Line) {i j : Nat} (hj : j < ls.length) :
    Continues (depthAt (ls ++ [line])) i j ↔ Continues (depthAt ls) i j :=
  Continues.congr fun _ hk => depthAt_append_left _ _ (by omega)

/-- What continues a level among the lines and one more: an old line, or the new one. -/
theorem exists_continues_concat (line : Line) (i : Nat) (id : String) :
    (∃ j l, (ls ++ [line])[j]? = some l ∧ Continues (depthAt (ls ++ [line])) i j ∧ l.id = id) ↔
      (∃ j l, ls[j]? = some l ∧ Continues (depthAt ls) i j ∧ l.id = id) ∨
        Continues (depthAt (ls ++ [line])) i ls.length ∧ line.id = id := by
  constructor
  · rintro ⟨j, l, hj, hc, hid⟩
    obtain ⟨hjl, -⟩ := List.getElem?_eq_some_iff.mp hj
    rw [List.length_append, List.length_singleton] at hjl
    by_cases he : j = ls.length
    · subst he
      simp only [List.getElem?_concat_length, Option.some.injEq] at hj
      exact .inr ⟨hc, hj ▸ hid⟩
    · have hlt : j < ls.length := by omega
      rw [List.getElem?_append_left hlt] at hj
      exact .inl ⟨j, l, hj, (continues_append_iff line hlt).mp hc, hid⟩
  · rintro (⟨j, l, hj, hc, hid⟩ | ⟨hc, hid⟩)
    · obtain ⟨hlt, -⟩ := List.getElem?_eq_some_iff.mp hj
      exact ⟨j, l, by rw [List.getElem?_append_left hlt, hj],
        (continues_append_iff line hlt).mpr hc, hid⟩
    · exact ⟨ls.length, line, by simp, hc, hid⟩

theorem place_sibling (h : Placed ls o) {line : Line} (hl : line.Unlinked) (i : Nat) (id : String) :
    (o.place line).lines[i]?.bind Line.nextSibling = some id ↔
      ∃ j l, (ls ++ [line])[j]? = some l ∧ Continues (depthAt (ls ++ [line])) i j ∧ l.id = id := by
  rw [h.getElem?_place, exists_continues_concat]
  by_cases hi : i = ls.length
  · subst hi
    simp only [if_true, Option.bind_some, hl.2, reduceCtorEq, false_iff, not_or, not_exists,
      not_and]
    refine ⟨?_, fun hc => absurd hc.1 (by omega)⟩
    intro j l hj hc
    obtain ⟨hlt, -⟩ := List.getElem?_eq_some_iff.mp hj
    exact absurd hc.1 (by omega)
  · rw [if_neg hi]
    cases hp : o.lines.back? with
    | none =>
      have := h.eq_nil hp
      subst this
      rw [link_of_back_none hp, h.sibling]
      simp [Continues]
    | some previous =>
      rw [nextSibling_link hp, ← h.sibling,
        h.continues_length_iff line (h.length_pos hp), ← h.previous_indent hp]
      by_cases hc : line.indent ≤ previous.indent ∧ o.latest[line.indent]? = some i
      · -- The new line continues the level of `i`, so no older line can have done so.
        obtain ⟨hil, -⟩ := (h.latest _ _).mp hc.2
        have hnew : Continues (depthAt (ls ++ [line])) i ls.length := by
          rw [h.continues_length_iff line (h.length_pos hp), ← h.previous_indent hp]
          exact hc
        have hold : ¬ o.lines[i]?.bind Line.nextSibling = some id := by
          rw [h.sibling]
          rintro ⟨j, l, hj, hcj, -⟩
          obtain ⟨hlt, -⟩ := List.getElem?_eq_some_iff.mp hj
          have := ((continues_append_iff line hlt).mpr hcj).unique hnew
          omega
        have hio : i < o.lines.size := by
          rw [h.size_eq]
          exact hil
        have hget : o.lines[i]? = some o.lines[i] := Array.getElem?_eq_getElem hio
        simp only [hold, false_or, hc, and_self, if_true, true_and]
        rw [hget]
        simp
      · simp only [hc, if_false, false_and, or_false]

/-- **One line more**: the pass keeps its invariant. -/
theorem place (h : Placed ls o) {line : Line} (hl : line.Unlinked) :
    Placed (ls ++ [line]) (o.place line) where
  bare := by
    simp only [Outline.place, Array.toList_push, List.map_append, map_bare_link, h.bare]
  latest := h.place_latest line
  child := h.place_child hl
  sibling := h.place_sibling hl

end Placed

theorem placed_foldl {ls more : List Line} {o : Outline} (h : Placed ls o)
    (hm : ∀ line ∈ more, line.Unlinked) : Placed (ls ++ more) (more.foldl place o) := by
  induction more generalizing ls o with
  | nil => simpa using h
  | cons line more ih =>
    have hfirst := h.place (hm line List.mem_cons_self)
    have hrest := ih hfirst fun l hl => hm l (List.mem_cons_of_mem _ hl)
    rwa [List.append_assoc, List.singleton_append] at hrest

/-- **The links of a whole node.** -/
theorem placed_ofLines {lines : List Line} (h : ∀ line ∈ lines, line.Unlinked) :
    Placed lines (lines.foldl place empty) :=
  placed_foldl .empty h

end Outline

end Parley
