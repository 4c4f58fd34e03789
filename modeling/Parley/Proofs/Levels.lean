import Parley.Proofs.Ids

/-!
# The outline is told by the indentations

A node is linked in one pass that remembers the latest line on every level.  What comes out can be
told without the pass, from the indentations of the node as a whole.

* The first child of a line is the next line, if that is indented further (`childPlace?`).
* The next sibling of a line is the first later line that is indented alike, unless that one is
  indented further than the line before it (`siblingPlace?`).

Principal results: `siblingPlace?_eq_some_iff` — a sibling stands where a level continues;
`Node.read_outline` — the links of a node lead to these places, and linking left everything but
links and tags as it was read.
-/

namespace Parley

/-! ## Places -/

section

variable (depth : Nat → Nat) (n i : Nat)

/-- The first of `n` places that comes behind place `i` and is indented alike. -/
def nextOnLevel? : Option Nat := (List.range n).find? fun j => i < j && depth j == depth i

/-- The place of the first child: the next one, if it is indented further. -/
def childPlace? : Option Nat := if i + 1 < n ∧ depth i < depth (i + 1) then some (i + 1) else none

/-- The place of the next sibling: the next one on the level, unless it is indented further than the
place before it. -/
def siblingPlace? : Option Nat :=
  (nextOnLevel? depth n i).filter fun j => depth j ≤ depth (j - 1)

end

variable {depth : Nat → Nat} {n i j : Nat}

theorem nextOnLevel?_eq_some_iff :
    nextOnLevel? depth n i = some j ↔
      i < j ∧ j < n ∧ depth j = depth i ∧ ∀ k, i < k → k < j → depth k ≠ depth i := by
  simp only [nextOnLevel?, List.find?_range_eq_some, List.mem_range, Bool.and_eq_true,
    decide_eq_true_eq, beq_iff_eq, Bool.not_eq_true', Bool.and_eq_false_imp, beq_eq_false_iff_ne]
  constructor
  · rintro ⟨⟨hij, hd⟩, hjn, hfirst⟩
    exact ⟨hij, hjn, hd, fun k hik hkj => hfirst k hkj hik⟩
  · rintro ⟨hij, hjn, hd, hfirst⟩
    exact ⟨⟨hij, hd⟩, hjn, fun k hkj hik => hfirst k hik hkj⟩

/-- **A sibling stands where the level continues.** -/
theorem siblingPlace?_eq_some_iff :
    siblingPlace? depth n i = some j ↔ j < n ∧ Continues depth i j := by
  rw [siblingPlace?, Option.filter_eq_some_iff, nextOnLevel?_eq_some_iff, decide_eq_true_eq]
  constructor
  · rintro ⟨⟨hij, hjn, hd, hfirst⟩, hle⟩
    exact ⟨hjn, hij, hd, hfirst, hle⟩
  · rintro ⟨hjn, hij, hd, hfirst, hle⟩
    exact ⟨⟨hij, hjn, hd, hfirst⟩, hle⟩

/-! ## The links of a node -/

namespace Node

/-- A link points to a place of a node, or nowhere: it is the id of the line there, and whoever
follows it finds that line. -/
structure Points (node : Node) (link : Option String) (place? : Option Nat) : Prop where
  id : link = place?.bind fun i => node.lines[i]?.map Line.id
  found : link.bind node.line? = place?.bind fun i => node.lines[i]?

/-- The lines of a node are lines that were read, linked as their indentations say. -/
structure Outlined (node : Node) (lines : List Line) : Prop where
  /-- Linking changes nothing but links and tags. -/
  bare : node.lines.toList.map Line.bare = lines.map Line.bare
  child : ∀ (i : Nat) (hi : i < node.lines.size),
    node.Points node.lines[i].firstChild (childPlace? node.depthAt node.lines.size i)
  sibling : ∀ (i : Nat) (hi : i < node.lines.size),
    node.Points node.lines[i].nextSibling (siblingPlace? node.depthAt node.lines.size i)

variable {content : List Char} {position : Position} {s t : Session} {node : Node}

theorem points_child (h : read content position s = (.ok node, t)) {i : Nat}
    (hi : i < node.lines.size) :
    node.Points node.lines[i].firstChild (childPlace? node.depthAt node.lines.size i) := by
  have hget : node.lines[i]? = some node.lines[i] := Array.getElem?_eq_getElem hi
  have hid := (read_links h).1 i
  have hfound := childOf?_eq h hget
  rw [hget, Option.bind_some] at hid
  unfold childOf? at hfound
  by_cases hn : i + 1 < node.lines.size
  · simp only [childPlace?, hn, true_and]
    refine ⟨?_, ?_⟩
    · rw [hid]
      split <;> rfl
    · rw [hfound]
      split <;> rfl
  · have hend : node.lines[i + 1]? = none := by rw [Array.getElem?_eq_none_iff]; omega
    simp only [childPlace?, hn, false_and, if_false]
    refine ⟨?_, ?_⟩
    · simpa [hend] using hid
    · simpa [hend] using hfound

theorem points_sibling (h : read content position s = (.ok node, t)) {i : Nat}
    (hi : i < node.lines.size) :
    node.Points node.lines[i].nextSibling (siblingPlace? node.depthAt node.lines.size i) := by
  have hget : node.lines[i]? = some node.lines[i] := Array.getElem?_eq_getElem hi
  have hid := (read_links h).2 i
  rw [hget, Option.bind_some] at hid
  refine ⟨?_, ?_⟩
  · ext id
    simp only [hid, Option.bind_eq_some_iff, siblingPlace?_eq_some_iff, Option.map_eq_some_iff]
    constructor
    · rintro ⟨j, hj, line, hline, hlid⟩
      exact ⟨j, ⟨(Array.getElem?_eq_some_iff.mp hline).1, hj⟩, line, hline, hlid⟩
    · rintro ⟨j, ⟨-, hj⟩, hline⟩
      exact ⟨j, hj, hline⟩
  · ext found
    have hfound : node.siblingOf? node.lines[i] = some found ↔ _ := siblingOf?_eq_some_iff h hget
    unfold siblingOf? at hfound
    simp only [hfound, Option.bind_eq_some_iff, siblingPlace?_eq_some_iff]
    constructor
    · rintro ⟨j, hj, hline⟩
      exact ⟨j, ⟨(Array.getElem?_eq_some_iff.mp hline).1, hj⟩, hline⟩
    · rintro ⟨j, ⟨-, hj⟩, hline⟩
      exact ⟨j, hj, hline⟩

/--
**The outline of a node is told by its indentations.**  The lines of a node are those that were read
for it, one after the other; each is linked to the places that the indentations say, and is as it
was read but for links and tags.
-/
theorem read_outline (h : read content position s = (.ok node, t)) :
    ∃ lines, LinesRead node.id (s.notice (.nodeBegun position node.id))
      (bodyOf (located content position)) lines t ∧ node.Outlined lines := by
  obtain ⟨lines, hr, -, hp, he, -⟩ := read_placed h
  exact ⟨lines, hr, he ▸ hp.bare, fun _ => points_child h, fun _ => points_sibling h⟩

/-- `b` and `d` are indented alike, but `d` is below `C`; `e` goes on with the level of `d`. -/
def outlineSample : String := "title: A\n---\nA\n  b\nC\n  d\n    x\n  e\nF"

theorem read_outline_sample :
    ∃ node t lines, read outlineSample.toList ⟨0⟩ (.start {}) = (.ok node, t) ∧
      node.lines.size = 7 ∧ node.Outlined lines ∧
      nextOnLevel? node.depthAt 7 1 = some 3 ∧
      (∀ line, node.lines[1]? = some line → line.nextSibling = none) ∧
      ∀ line, node.lines[3]? = some line → line.nextSibling = node.lines[5]?.map Line.id := by
  have hcheck : (read outlineSample.toList ⟨0⟩ (.start {})).1.toOption.any (fun node => decide
      (node.lines.size = 7 ∧ nextOnLevel? node.depthAt 7 1 = some 3 ∧
        siblingPlace? node.depthAt 7 1 = none ∧ siblingPlace? node.depthAt 7 3 = some 5)) =
        true := by
    decide +kernel
  obtain ⟨node, t, h, hnode⟩ := exists_read hcheck
  obtain ⟨hsize, hnext, hb, hd⟩ := of_decide_eq_true hnode
  obtain ⟨lines, -, hlines⟩ := read_outline h
  refine ⟨node, t, lines, h, hsize, hlines, hnext, ?_, ?_⟩
  · intro line hline
    obtain ⟨hi, rfl⟩ := Array.getElem?_eq_some_iff.mp hline
    have hid := (hlines.sibling 1 hi).id
    rw [hsize, hb] at hid
    exact hid
  · intro line hline
    obtain ⟨hi, rfl⟩ := Array.getElem?_eq_some_iff.mp hline
    have hid := (hlines.sibling 3 hi).id
    rw [hsize, hd] at hid
    exact hid

end Node

end Parley
