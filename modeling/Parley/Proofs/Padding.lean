import Mathlib.Order.Monotone.Basic
import Parley.Proofs.Verdict

/-!
# Lines that do not count

A blank line says nothing, wherever it stands, and a `===` line says nothing beside another one or
at either end of a document, where blank lines in between do not count.  Such idle lines can be put
into a document one after the other (`Document.Padded`); the lines that were there before move down,
and stay in their order.

Nothing is read from a run of lines but its visible lines, so what matters of a document are the
visible lines of its runs (`Document.shownRuns`).  Idle lines leave them as they are, but for their
numbers.

* `Document.Padded.getElem?`, `Document.Padded.strictMono` — the lines of a document move down, and
  none of them is lost or changes its place among the others.
* `Document.shownRuns_blanks`, `Document.shownRuns_ends` — blank lines do not change them, and one
  of two `===` lines with nothing between them does not either.
* `Document.shownRuns_padded` — the visible lines of the runs are the same, further down.
* `Document.above_below_shown` — the fields and the lines of a run are found among its visible
  lines.
* `Document.nodeRuns_padded` — the runs of a padded document show what the runs of the document
  show.
-/

namespace Parley

namespace Document

/-! ## Idle lines -/

/-- What a line of a document shows: no carriage returns, and no blanks around the rest. -/
def shown (line : List Char) : List Char := Text.trim (line.filter (· != '\r'))

/-- Whether a line ends a node. -/
def IsEnd (line : List Char) : Prop := shown line = "===".toList

/-- Lines that show nothing, like the one behind the last line feed of a document. -/
def Blanks (ls : List (List Char)) : Prop := ∀ line ∈ ls, shown line = []

/-- Between the lines before it and the lines after it, a line says nothing: it is blank, or a `===`
line with only blank lines between itself and the start, the end, or another `===` line. -/
inductive Idle : List (List Char) → List Char → List (List Char) → Prop
  | blank {before after : List (List Char)} {line : List Char} (blank : shown line = []) :
      Idle before line after
  | first {before after : List (List Char)} {line : List Char} (ends : IsEnd line)
      (blanks : Blanks before) : Idle before line after
  | last {before after : List (List Char)} {line : List Char} (ends : IsEnd line)
      (blanks : Blanks after) : Idle before line after
  | below {before blanks after : List (List Char)} {line other : List Char} (ends : IsEnd line)
      (beside : IsEnd other) (between : Blanks blanks) :
      Idle (before ++ other :: blanks) line after
  | above {before blanks after : List (List Char)} {line other : List Char} (ends : IsEnd line)
      (beside : IsEnd other) (between : Blanks blanks) :
      Idle before line (blanks ++ other :: after)

/-- Where a line stands once another one is put in its place. -/
def skip (place index : Nat) : Nat := if index < place then index else index + 1

/-- Lines of a document with idle lines among them; `move` says where the line with an index
stands now. -/
inductive Padded (ls : List (List Char)) : (Nat → Nat) → List (List Char) → Prop
  | same : Padded ls id ls
  | insert {move : Nat → Nat} {before after : List (List Char)} {line : List Char}
      (padded : Padded ls move (before ++ after)) (idle : Idle before line after) :
      Padded ls (skip before.length ∘ move) (before ++ line :: after)

theorem skip_strictMono (place : Nat) : StrictMono (skip place) := by
  intro i j hij
  unfold skip
  split <;> split <;> omega

/-- The lines that were there before move down. -/
theorem getElem?_skip {α : Type} (before after : List α) (x : α) (i : Nat) :
    (before ++ x :: after)[skip before.length i]? = (before ++ after)[i]? := by
  unfold skip
  split
  · next hi => rw [List.getElem?_append_left hi, List.getElem?_append_left hi]
  · next hi =>
    rw [List.getElem?_append_right (by omega), List.getElem?_append_right (by omega),
      Nat.sub_add_comm (by omega), List.getElem?_cons_succ]

namespace Padded

variable {ls padded : List (List Char)} {move : Nat → Nat}

theorem strictMono (h : Padded ls move padded) : StrictMono move := by
  induction h with
  | same => exact strictMono_id
  | insert _ _ ih => exact (skip_strictMono _).comp ih

/-- **Every line is kept** where `move` says. -/
theorem getElem? (h : Padded ls move padded) (i : Nat) : padded[move i]? = ls[i]? := by
  induction h with
  | same => rfl
  | insert _ _ ih => rw [Function.comp_apply, getElem?_skip, ih]

theorem length_le (h : Padded ls move padded) : ls.length ≤ padded.length := by
  induction h with
  | same => exact Nat.le_refl _
  | insert _ _ ih =>
    rw [List.length_append] at ih ⊢
    exact ih.trans (Nat.add_le_add_left (Nat.le_succ _) _)

end Padded

/-! ## The visible lines of runs -/

/-- Lines of a document without carriage returns, numbered from a number on. -/
def numbered (first : Nat) (ls : List (List Char)) : List Numbered :=
  (ls.map (List.filter (· != '\r'))).zipIdx first

theorem lines_eq_numbered (content : String) :
    lines content = numbered 0 (Text.lines content.toList) := by
  have hkept : ∀ c : Char, (c == '\n') = true → (c != '\r') = true := by
    intro c hc
    rw [beq_iff_eq.mp hc]
    rfl
  rw [lines, numbered, Text.lines_eq_splitOn, List.splitOn, List.splitOn, splitOnP_filter hkept]

theorem length_lines (content : String) :
    (lines content).length = (Text.lines content.toList).length := by
  rw [lines_eq_numbered, numbered, List.length_zipIdx, List.length_map]

theorem numbered_append (first : Nat) (before after : List (List Char)) :
    numbered first (before ++ after) =
      numbered first before ++ numbered (first + before.length) after := by
  rw [numbered, List.map_append, List.zipIdx_append, List.length_map]
  rfl

theorem numbered_cons (first : Nat) (line : List Char) (ls : List (List Char)) :
    numbered first (line :: ls) = (line.filter (· != '\r'), first) :: numbered (first + 1) ls := rfl

end Document

/-- A line with another number. -/
def Numbered.moved (move : Nat → Nat) (l : Numbered) : Numbered := (l.1, move l.2)

namespace Document

/-- The visible lines between `===` lines, if there are any. -/
def shownRuns (ls : List Numbered) : List (List Numbered) :=
  ((ls.splitOnP (shows "===")).map (List.filter visible)).filter fun run => !run.isEmpty

/-- What the visible lines of the runs of a document are. -/
theorem shownRuns_lines (content : String) :
    shownRuns (lines content) = (nodeRuns content).map (List.filter visible) := by
  rw [shownRuns, List.filter_map, nodeRuns, runs]
  congr 1
  apply List.filter_congr
  intro run _
  rw [Function.comp_apply, Bool.eq_iff_iff, List.any_eq_true]
  simp

theorem visible_of_end {l : Numbered} (h : shows "===" l = true) : visible l = true := by
  have ht : Text.trim l.1 = "===".toList := by simpa [shows] using h
  unfold visible shows
  rw [ht]
  decide

theorem shownRuns_eq (ls : List Numbered) :
    shownRuns ls =
      ((ls.filter visible).splitOnP (shows "===")).filter fun run => !run.isEmpty := by
  rw [shownRuns, splitOnP_filter fun _ => visible_of_end]

variable {before blanks after : List Numbered} {l other : Numbered}

/-- **Blank lines** are in no run. -/
theorem shownRuns_blanks (h : ∀ l ∈ blanks, visible l = false) :
    shownRuns (before ++ (blanks ++ after)) = shownRuns (before ++ after) := by
  have hnone : blanks.filter visible = [] := by
    rw [List.filter_eq_nil_iff]
    intro l hl
    simp [h l hl]
  rw [shownRuns_eq, shownRuns_eq, List.filter_append, List.filter_append, hnone, List.nil_append,
    ← List.filter_append]

theorem shownRuns_append_blanks (h : ∀ l ∈ blanks, visible l = false) :
    shownRuns (before ++ blanks) = shownRuns before := by
  simpa using @shownRuns_blanks before blanks [] h

theorem shownRuns_blanks_append (h : ∀ l ∈ blanks, visible l = false) :
    shownRuns (blanks ++ after) = shownRuns after :=
  @shownRuns_blanks [] blanks after h

theorem shownRuns_of_blanks (h : ∀ l ∈ blanks, visible l = false) : shownRuns blanks = [] :=
  @shownRuns_append_blanks [] blanks h

/-- **A `===` line** is between two documents. -/
theorem shownRuns_end (h : shows "===" l = true) :
    shownRuns (before ++ l :: after) = shownRuns before ++ shownRuns after := by
  rw [shownRuns, List.splitOnP_append_cons _ _ h, List.map_append, List.filter_append]
  rfl

/-- Two `===` lines with blank lines between them are no more than one. -/
theorem shownRuns_ends (hother : shows "===" other = true) (h : shows "===" l = true)
    (hblanks : ∀ l ∈ blanks, visible l = false) :
    shownRuns (before ++ other :: (blanks ++ l :: after)) =
      shownRuns before ++ shownRuns after := by
  rw [shownRuns_end hother, shownRuns_end h, shownRuns_of_blanks hblanks, List.nil_append]

theorem shownRuns_moved (move : Nat → Nat) (ls : List Numbered) :
    shownRuns (ls.map (Numbered.moved move)) =
      (shownRuns ls).map (List.map (Numbered.moved move)) := by
  have hfilter : (List.filter visible) ∘ (List.map (Numbered.moved move)) =
      (List.map (Numbered.moved move)) ∘ (List.filter visible) := by
    funext run
    exact List.filter_map
  have hempty : ((fun run : List Numbered => !run.isEmpty) ∘ List.map (Numbered.moved move)) =
      fun run => !run.isEmpty := by
    funext run
    simp
  rw [shownRuns, splitOnP_map, List.map_map, hfilter, ← List.map_map, List.filter_map, hempty]
  rfl

/-- Lines before a place stay where they are. -/
theorem numbered_before (ls : List (List Char)) :
    (numbered 0 ls).map (Numbered.moved (skip ls.length)) = numbered 0 ls := by
  refine (List.map_congr_left ?_).trans (List.map_id _)
  intro l hl
  have hlt : l.2 < ls.length := by simpa using List.snd_lt_of_mem_zipIdx hl
  simp [Numbered.moved, skip, hlt]

/-- Lines behind a place move down by one. -/
theorem numbered_behind (place : Nat) (ls : List (List Char)) :
    (numbered place ls).map (Numbered.moved (skip place)) = numbered (place + 1) ls := by
  rw [numbered, numbered, List.zipIdx_succ]
  apply List.map_congr_left
  intro l hl
  have hle := List.le_snd_of_mem_zipIdx hl
  simp [Numbered.moved, skip, Nat.not_lt.mpr hle]

theorem shows_of_isEnd {line : List Char} (h : IsEnd line) (n : Nat) :
    shows "===" (line.filter (· != '\r'), n) = true := beq_iff_eq.mpr h

theorem not_visible_of_blank {line : List Char} (h : shown line = []) (n : Nat) :
    visible (line.filter (· != '\r'), n) = false := by
  have hempty : shows "" (line.filter (· != '\r'), n) = true := beq_iff_eq.mpr h
  rw [visible, hempty]
  rfl

theorem not_visible_of_blanks {ls : List (List Char)} (h : Blanks ls) (n : Nat) :
    ∀ l ∈ numbered n ls, visible l = false := by
  intro l hl
  have hkept := List.fst_mem_of_mem_zipIdx hl
  obtain ⟨line, hline, he⟩ := List.mem_map.mp hkept
  have hl : l = (line.filter (· != '\r'), l.2) := Prod.ext he.symm rfl
  rw [hl]
  exact not_visible_of_blank (h line hline) _

/-- **An idle line** leaves the visible lines of all runs as they are, but moves them. -/
theorem shownRuns_insert {before after : List (List Char)} {line : List Char}
    (h : Idle before line after) :
    shownRuns (numbered 0 (before ++ line :: after)) =
      (shownRuns (numbered 0 (before ++ after))).map
        (List.map (Numbered.moved (skip before.length))) := by
  -- On both sides the other lines get their new numbers; then all that differs is the new line.
  rw [← shownRuns_moved, numbered_append, numbered_append, numbered_cons, Nat.zero_add,
    List.map_append, numbered_before, numbered_behind]
  cases h with
  | blank hblank =>
    exact @shownRuns_blanks _ [_] _
      (List.forall_mem_singleton.mpr (not_visible_of_blank hblank _))
  | first ends blanks =>
    have hbefore := not_visible_of_blanks blanks 0
    rw [shownRuns_end (shows_of_isEnd ends _), shownRuns_of_blanks hbefore,
      shownRuns_blanks_append hbefore]
    rfl
  | last ends blanks =>
    have hafter := not_visible_of_blanks blanks (before.length + 1)
    rw [shownRuns_end (shows_of_isEnd ends _), shownRuns_of_blanks hafter,
      shownRuns_append_blanks hafter, List.append_nil]
  | @below before blanks after line other ends beside between =>
    have hblanks := not_visible_of_blanks between (0 + before.length + 1)
    rw [numbered_append, numbered_cons, List.append_assoc, List.append_assoc, List.cons_append,
      List.cons_append, shownRuns_ends (shows_of_isEnd beside _) (shows_of_isEnd ends _) hblanks,
      shownRuns_end (shows_of_isEnd beside _), shownRuns_blanks_append hblanks]
  | @above before blanks after line other ends beside between =>
    have hblanks := not_visible_of_blanks between (before.length + 1)
    rw [numbered_append, numbered_cons,
      shownRuns_ends (shows_of_isEnd ends _) (shows_of_isEnd beside _) hblanks,
      ← List.append_assoc, shownRuns_end (shows_of_isEnd beside _),
      shownRuns_append_blanks hblanks]

/-- **Idle lines** leave the visible lines of all runs as they are, but move them. -/
theorem shownRuns_padded {ls padded : List (List Char)} {move : Nat → Nat}
    (h : Padded ls move padded) :
    shownRuns (numbered 0 padded) =
      (shownRuns (numbered 0 ls)).map (List.map (Numbered.moved move)) := by
  induction h with
  | same =>
    have hid : List.map (Numbered.moved id) = id := List.map_id_fun
    rw [hid, List.map_id]
  | insert _ idle ih =>
    rw [shownRuns_insert idle, ih, List.map_map, List.map_comp_map]
    rfl

/-! ## What is read from a run -/

/-- The visible ones of the lines above and below the first `---` are the lines above and below it
among the visible lines. -/
theorem above_below_shown (run : List Numbered) :
    fieldLines run = above (run.filter visible) ∧
      contentLines run = below (run.filter visible) := by
  induction run with
  | nil => exact ⟨rfl, rfl⟩
  | cons l run ih =>
    cases hv : visible l with
    | true =>
      rw [List.filter_cons_of_pos hv]
      cases hs : shows "---" l with
      | true => simp [fieldLines, contentLines, above, below, hs]
      | false =>
        have habove : above (l :: run) = l :: above run := by simp [above, hs]
        have hbelow : below (l :: run) = below run := by simp [below, hs]
        have habove' : above (l :: run.filter visible) = l :: above (run.filter visible) := by
          simp [above, hs]
        have hbelow' : below (l :: run.filter visible) = below (run.filter visible) := by
          simp [below, hs]
        rw [fieldLines, contentLines, habove, hbelow, habove', hbelow', ← ih.1, ← ih.2,
          List.filter_cons_of_pos hv]
        exact ⟨rfl, rfl⟩
    | false =>
      have hs := not_shows_of_blank hv
      rw [List.filter_cons_of_neg (by simp [hv]), ← ih.1, ← ih.2]
      simp [fieldLines, contentLines, above, below, hs, hv]

/-- One run shows what another one shows, on lines that were moved. -/
def ShowsMoved (move : Nat → Nat) (run moved : List Numbered) : Prop :=
  moved.filter visible = (run.filter visible).map (Numbered.moved move)

namespace ShowsMoved

variable {move : Nat → Nat} {run moved : List Numbered}

theorem fieldLines (h : ShowsMoved move run moved) :
    Document.fieldLines moved = (Document.fieldLines run).map (Numbered.moved move) := by
  rw [(above_below_shown moved).1, h, (above_below_shown run).1, above, List.takeWhile_map]
  rfl

theorem contentLines (h : ShowsMoved move run moved) :
    Document.contentLines moved = (Document.contentLines run).map (Numbered.moved move) := by
  rw [(above_below_shown moved).2, h, (above_below_shown run).2, below, List.dropWhile_map,
    ← List.map_tail]
  rfl

/-- The node of a run begins at a line that is moved. -/
theorem start (h : ShowsMoved move run moved) (hv : run.any visible = true) :
    (Document.start moved).index = move (Document.start run).index := by
  obtain ⟨l, hl⟩ := exists_find?_visible hv
  have hmoved : moved.find? visible = some (l.moved move) := by
    rw [← List.head?_filter, h, List.head?_map, List.head?_filter, hl]
    rfl
  simp [Document.start, hl, hmoved, Numbered.moved]

end ShowsMoved

/-- **The runs of a padded document** show what the runs of the document show, further down. -/
theorem nodeRuns_padded {content padded : String} {move : Nat → Nat}
    (h : Padded (Text.lines content.toList) move (Text.lines padded.toList)) :
    List.Forall₂ (ShowsMoved move) (nodeRuns content) (nodeRuns padded) := by
  have hruns := shownRuns_padded h
  rw [← lines_eq_numbered, ← lines_eq_numbered, shownRuns_lines, shownRuns_lines,
    List.map_map] at hruns
  have hall : List.Forall₂ (· = ·) ((nodeRuns padded).map (List.filter visible))
      ((nodeRuns content).map (List.map (Numbered.moved move) ∘ List.filter visible)) := by
    rw [hruns]
    exact List.forall₂_refl _
  rw [List.forall₂_map_left_iff, List.forall₂_map_right_iff] at hall
  exact hall.flip

end Document

end Parley
