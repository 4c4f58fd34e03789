import Parley.Proofs.Ids

/-!
# Which nodes can be read to their end

Links are all there is to follow in a node, and a line that goes back to a level that no line before
it had is linked from nowhere.  It is then lost to a reader, and so may be what comes after it.

Principal results: `Node.Reached.anchored` — what is reached is the first line, is indented further
than the line before it, or has an earlier line on its level; `Node.reached_iff_anchored` — every
line can be reached exactly if every line is one of these.
-/

namespace Parley

/-- Place `i` is the first one, is indented further than the place before it, or has an earlier
place with its indentation. -/
def Anchored (depth : Nat → Nat) (i : Nat) : Prop :=
  i = 0 ∨ depth (i - 1) < depth i ∨ ∃ k < i, depth k = depth i

instance (depth : Nat → Nat) (i : Nat) : Decidable (Anchored depth i) :=
  inferInstanceAs (Decidable (i = 0 ∨ depth (i - 1) < depth i ∨ ∃ k < i, depth k = depth i))

/-- A place that has an earlier one on its level continues the level of the latest of these. -/
theorem exists_continues {depth : Nat → Nat} {i k : Nat} (hki : k < i) (hd : depth k = depth i)
    (hle : depth i ≤ depth (i - 1)) : ∃ j < i, Continues depth j i := by
  induction hgap : i - k using Nat.strongRecOn generalizing k with
  | ind gap ih =>
    by_cases hlater : ∃ m, k < m ∧ m < i ∧ depth m = depth i
    · obtain ⟨m, hkm, hmi, hmd⟩ := hlater
      exact ih (i - m) (by omega) hmi hmd rfl
    · refine ⟨k, hki, hki, hd.symm, ?_, hle⟩
      intro m hkm hmi hm
      exact hlater ⟨m, hkm, hmi, by omega⟩

namespace Node

/-- A line can be reached from the first line along first children and next siblings. -/
inductive Reached (node : Node) : Line → Prop
  | first {line : Line} (start : node.firstLine? = some line) : Reached node line
  | child {line found : Line} (before : Reached node line)
      (link : node.childOf? line = some found) : Reached node found
  | sibling {line found : Line} (before : Reached node line)
      (link : node.siblingOf? line = some found) : Reached node found

variable {content : List Char} {position : Position} {s t : Session} {node : Node}

/-- **What is reached is anchored**, wherever the rest of the node stands. -/
theorem Reached.anchored (h : read content position s = (.ok node, t)) {line : Line}
    (hr : node.Reached line) : ∃ i : Nat, node.lines[i]? = some line ∧ Anchored node.depthAt i := by
  induction hr with
  | first start => exact ⟨0, start, .inl rfl⟩
  | child _ link ih =>
    obtain ⟨k, hk, -⟩ := ih
    rw [childOf?_eq h hk] at link
    split at link
    · next hd => exact ⟨k + 1, link, .inr (.inl hd)⟩
    · cases link
  | sibling _ link ih =>
    obtain ⟨k, hk, -⟩ := ih
    obtain ⟨j, ⟨hkj, hd, -, -⟩, hj⟩ := (siblingOf?_eq_some_iff h hk).mp link
    exact ⟨j, hj, .inr (.inr ⟨k, hkj, hd.symm⟩)⟩

/-- If every line is anchored, there is a way to each of them. -/
theorem reached_of_anchored (h : read content position s = (.ok node, t))
    (ha : ∀ i < node.lines.size, Anchored node.depthAt i) {i : Nat} {line : Line}
    (hl : node.lines[i]? = some line) : node.Reached line := by
  -- By induction on the place: the line that links to this one stands before it.
  induction i using Nat.strongRecOn generalizing line with
  | ind i ih =>
    obtain ⟨hi, -⟩ := Array.getElem?_eq_some_iff.mp hl
    have hbefore : ∀ k < i, ∃ before, node.lines[k]? = some before ∧ node.Reached before := by
      intro k hk
      have hget : node.lines[k]? = some node.lines[k] := Array.getElem?_eq_getElem (by omega)
      exact ⟨_, hget, ih k hk hget⟩
    rcases Nat.eq_zero_or_pos i with rfl | hpos
    · exact .first hl
    · by_cases hd : node.depthAt (i - 1) < node.depthAt i
      · obtain ⟨before, hget, hr⟩ := hbefore (i - 1) (by omega)
        refine hr.child ?_
        rw [childOf?_eq h hget, show i - 1 + 1 = i by omega, if_pos hd, hl]
      · rcases ha i hi with hzero | hlt | ⟨k, hki, hkd⟩
        · omega
        · exact absurd hlt hd
        · obtain ⟨j, hji, hj⟩ := exists_continues hki hkd (by omega)
          obtain ⟨before, hget, hr⟩ := hbefore j hji
          exact hr.sibling ((siblingOf?_eq_some_iff h hget).mpr ⟨i, hj, hl⟩)

/--
**Every line can be reached exactly if every line is anchored**: if each line that is not indented
further than the line before it has an earlier line on its own level.
-/
theorem reached_iff_anchored (h : read content position s = (.ok node, t)) :
    (∀ line ∈ node.lines, node.Reached line) ↔
      ∀ i < node.lines.size, Anchored node.depthAt i := by
  constructor
  · intro hall i hi
    have hget : node.lines[i]? = some node.lines[i] := Array.getElem?_eq_getElem hi
    obtain ⟨j, hj, ha⟩ := (hall _ (Array.getElem_mem hi)).anchored h
    rw [place_unique h hget hj]
    exact ha
  · intro ha line hm
    obtain ⟨i, hl⟩ := Array.mem_iff_getElem?.mp hm
    exact reached_of_anchored h ha hl

/-- `E` takes up the level of `B`, which `C` and `D` had left. -/
def reachSample : String := "title: Start\n---\nA\n    B\nC\n        D\n    E"

theorem reached_sample :
    ∃ node t, read reachSample.toList ⟨0⟩ (.start {}) = (.ok node, t) ∧ node.lines.size = 5 ∧
      ∀ line ∈ node.lines, node.Reached line := by
  have hall : (read reachSample.toList ⟨0⟩ (.start {})).1.toOption.any (fun node =>
      decide (node.lines.size = 5 ∧ ∀ i < node.lines.size, Anchored node.depthAt i)) = true := by
    decide +kernel
  obtain ⟨node, t, h, hnode⟩ := exists_read hall
  obtain ⟨hsize, ha⟩ := of_decide_eq_true hnode
  exact ⟨node, t, h, hsize, (reached_iff_anchored h).mpr ha⟩

/-- `Two` goes back to a level that no line had. -/
def orphanSample : String := "title: A\n---\n  One\nTwo"

/-- **A line can be lost**: `Two` cannot be reached. -/
theorem orphan_not_reached :
    ∃ node t, parse orphanSample = (.ok node, t) ∧ ∃ line ∈ node.lines, ¬ node.Reached line := by
  have hall : (parse orphanSample).1.toOption.any (fun node =>
      decide (node.lines.size = 2 ∧ ¬ Anchored node.depthAt 1)) = true := by decide +kernel
  obtain ⟨node, t, h, hnode⟩ := exists_read hall
  obtain ⟨hsize, ha⟩ := of_decide_eq_true hnode
  have hget : node.lines[1]? = some node.lines[1] := Array.getElem?_eq_getElem (by omega)
  refine ⟨node, t, h, node.lines[1], Array.getElem_mem _, ?_⟩
  intro hr
  obtain ⟨j, hj, hanchored⟩ := hr.anchored h
  rw [← place_unique h hget hj] at hanchored
  exact ha hanchored

end Node

end Parley
