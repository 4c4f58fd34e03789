import Parley.Proofs.Ids
import Parley.Proofs.Lists
import Parley.Proofs.Trimming

/-!
# A script is its document, line by line

Reading cuts a document three times: at its line ends, at its `===` lines, and, once the lines of a
block are joined again, at the line ends of the block.  Here the lines of a document are numbered
once, and every part of a script is found in them: each node is a run of lines between two `===`
lines that are not all blank, its fields are the visible lines above the first `---` of that run,
and its lines are the visible ones below.

* `Text.lines_eq_splitOn`, `Block.groups_eq_splitOnP` — both cuts are splits of a list.
* `located_unlines` — numbered lines that are joined and cut again are the same lines and numbers.
* `Script.parseWith_document` — no line is lost, invented, repeated, moved or given a wrong number.
-/

namespace Parley

namespace Text

theorem lines_eq_splitOn (cs : List Char) : lines cs = cs.splitOn '\n' := by
  induction cs with
  | nil => rfl
  | cons c cs ih =>
    rw [List.splitOn_cons_eq_if_modifyHead, ← ih]
    by_cases hc : c = '\n'
    · simp [hc, lines_newline]
    · rw [lines_cons_of_ne cs hc]
      simp [hc, lines]

theorem lines_unlines {ls : List (List Char)} (hne : ls ≠ []) (hn : ∀ l ∈ ls, '\n' ∉ l) :
    lines (unlines ls) = ls := by
  rw [lines_eq_splitOn, unlines, List.splitOn_intercalate '\n' hn hne]

end Text

/-! ## Numbered lines -/

/-- A line of a document with the number of lines before it. -/
abbrev Numbered := List Char × Nat

namespace Document

/-- Whether a line holds just `text`, apart from blanks around it. -/
def shows (text : String) (l : Numbered) : Bool := Text.trim l.1 == text.toList

/-- Whether a line holds a visible character. -/
def visible (l : Numbered) : Bool := !shows "" l

/-- The lines of a document, which has no carriage returns. -/
def lines (content : String) : List Numbered :=
  ((content.toList.filter (· != '\r')).splitOn '\n').zipIdx

/-- The runs of lines between `===` lines. -/
def runs (content : String) : List (List Numbered) := (lines content).splitOnP (shows "===")

/-- The runs that nodes stand in: those with a visible line. -/
def nodeRuns (content : String) : List (List Numbered) :=
  (runs content).filter fun run => run.any visible

/-- The part of a run above its first `---` line. -/
def above (run : List Numbered) : List Numbered := run.takeWhile fun l => !shows "---" l

/-- The part of a run below its first `---` line. -/
def below (run : List Numbered) : List Numbered := (run.dropWhile fun l => !shows "---" l).tail

end Document

open Document

/-- A field says what stands before and after the first colon of a line, without outer blanks. -/
def Node.IsFieldOf (field : String × Value) (l : Numbered) : Prop :=
  ∃ key value, l.1 = key ++ ':' :: value ∧ ':' ∉ key ∧
    field = (String.ofList (Text.trim key), Value.read (Text.trim value))

/-- A node holds a run of lines, completely and in order. -/
structure Node.Holds (node : Node) (run : List Numbered) : Prop where
  /-- It begins at the first visible line. -/
  position : ((run.dropWhile fun l => !visible l).head?).map Prod.snd = some node.position.index
  /-- Its text goes from there to the end of the run. -/
  source : node.source.toList =
    List.intercalate ['\n'] ((run.dropWhile fun l => !visible l).map Prod.fst)
  /-- Its fields are the visible lines above the first `---`. -/
  fields : List.Forall₂ Node.IsFieldOf node.fields ((above run).filter visible)
  /-- Its lines are the visible lines below the first `---`. -/
  lines : node.lines.toList.map (fun line => (line.source.toList, line.position.index)) =
    (below run).filter visible

/-! ## Cutting twice -/

/-- A numbered line where it stands. -/
def Numbered.located (l : Numbered) : Located := (l.1, ⟨l.2⟩)

theorem located_eq (cs : List Char) (n : Nat) :
    located cs ⟨n⟩ = ((Text.lines cs).zipIdx n).map Numbered.located := by
  apply List.ext_getElem?
  intro i
  simp [located, Numbered.located, Position.down, List.getElem?_zipIdx, Function.comp_def]

/-- Numbered lines that are joined and cut again are the same lines with the same numbers. -/
theorem located_unlines {ls : List (List Char)} (n : Nat) (hne : ls ≠ [])
    (hn : ∀ l ∈ ls, '\n' ∉ l) :
    located (Text.unlines ls) ⟨n⟩ = (ls.zipIdx n).map Numbered.located := by
  rw [located_eq, Text.lines_unlines hne hn]

theorem isBlank_located (l : Numbered) : l.located.isBlank = !visible l := by
  have h : l.located.isBlank = true ↔ shows "" l = true := by
    unfold Located.isBlank
    rw [← Text.trim_eq_nil_iff, shows, beq_iff_eq]
    rfl
  unfold visible
  rw [Bool.not_not, Bool.eq_iff_iff, h]

theorem Block.groups_eq_splitOnP (ls : List Located) :
    Block.groups ls = ls.splitOnP (Node.isDelimiter Node.nodeEnd) := by
  induction ls with
  | nil => rfl
  | cons l ls ih =>
    rw [List.splitOnP_cons_eq_if_modifyHead, ← ih]
    by_cases h : Node.isDelimiter Node.nodeEnd l = true <;>
      simp [Block.groups, Block.addToGroups, h]

/-! ## Blocks are runs -/

/-- A run from its first visible line on. -/
def trimmed (run : List Numbered) : List Numbered := run.dropWhile fun l => !visible l

theorem trimmed_ne_nil {run : List Numbered} (h : run.any visible = true) : trimmed run ≠ [] := by
  obtain ⟨l, hm, hl⟩ := List.any_eq_true.mp h
  intro he
  have := List.dropWhile_eq_nil_iff.mp he l hm
  simp [hl] at this

/-- The block that a run makes up. -/
def Block.ofRun (run : List Numbered) : Block :=
  ⟨(trimmed run).map Prod.fst, ⟨((trimmed run).head?.map Prod.snd).getD 0⟩⟩

theorem Block.ofGroup?_map (run : List Numbered) :
    Block.ofGroup? (run.map Numbered.located) =
      if run.any visible = true then some (Block.ofRun run) else none := by
  have hd : (run.map Numbered.located).dropWhile Located.isBlank =
      (trimmed run).map Numbered.located := by
    rw [List.dropWhile_map, trimmed]
    simp only [Function.comp_def, isBlank_located]
  unfold Block.ofGroup?
  rw [hd]
  by_cases h : run.any visible = true
  · rw [if_pos h]
    cases ht : trimmed run with
    | nil => exact absurd ht (trimmed_ne_nil h)
    | cons l ls => simp [Block.ofRun, ht, Numbered.located, Function.comp_def]
  · rw [if_neg h]
    have ht : trimmed run = [] := by
      unfold trimmed
      rw [List.dropWhile_eq_nil_iff]
      intro l hm
      have : ¬ visible l = true := fun hl => h (List.any_eq_true.mpr ⟨l, hm, hl⟩)
      simpa using this
    rw [ht]
    rfl

/-- **The blocks of a document are its runs that are not all blank.** -/
theorem blocksOf_eq (content : String) :
    Script.blocksOf content = (nodeRuns content).map Block.ofRun := by
  have hg : Block.groups (located (content.toList.filter (· != '\r')) ⟨0⟩) =
      (runs content).map (List.map Numbered.located) := by
    rw [Block.groups_eq_splitOnP, located_eq, Text.lines_eq_splitOn, splitOnP_map]
    rfl
  unfold Script.blocksOf
  rw [Block.ofDocument, hg, List.filterMap_map, nodeRuns]
  induction runs content with
  | nil => rfl
  | cons run others ih =>
    by_cases h : run.any visible = true
    · rw [List.filterMap_cons_some (by simpa [h] using Block.ofGroup?_map run), ih,
        List.filter_cons, if_pos h, List.map_cons]
    · rw [List.filterMap_cons_none (by simpa [h] using Block.ofGroup?_map run), ih,
        List.filter_cons, if_neg h]

/-- A run is a stretch of numbered lines without line ends, and none of them is a `===` line. -/
theorem run_eq_zipIdx {content : String} {run : List Numbered} (h : run ∈ runs content) :
    (∃ (ls : List (List Char)) (n : Nat), run = ls.zipIdx n ∧ ∀ l ∈ ls, '\n' ∉ l) ∧
      ∀ l ∈ run, shows "===" l = false := by
  obtain ⟨first, others, he, hf, ho, hp⟩ := splitOnP_parts (shows "===") (Document.lines content)
  unfold runs at h
  rw [he] at h
  refine ⟨?_, hp run h⟩
  have hinfix : run <:+: Document.lines content := by
    rcases List.mem_cons.mp h with rfl | hm
    · exact hf.isInfix
    · exact ho run hm
  obtain ⟨ls, n, rfl, hl⟩ := infix_zipIdx hinfix
  refine ⟨ls, n, rfl, ?_⟩
  intro l hm
  have hmem := hl.subset hm
  rw [← Text.lines_eq_splitOn] at hmem
  exact Text.not_mem_of_mem_lines hmem

/-- The lines that a node is read from are the numbered lines of its run. -/
theorem located_ofRun {content : String} {run : List Numbered} (h : run ∈ runs content)
    (hv : run.any visible = true) :
    located (Block.ofRun run).text (Block.ofRun run).position =
      (trimmed run).map Numbered.located := by
  obtain ⟨⟨ls, n, rfl, hn⟩, -⟩ := run_eq_zipIdx h
  have hsuffix : trimmed (ls.zipIdx n) <:+ ls.zipIdx n := List.dropWhile_suffix _
  obtain ⟨kept, k, hk, hkept⟩ := infix_zipIdx hsuffix.isInfix
  have hne : kept ≠ [] := by
    rintro rfl
    exact trimmed_ne_nil hv hk
  have hpos : (Block.ofRun (ls.zipIdx n)).position = ⟨k⟩ := by
    obtain ⟨first, others, rfl⟩ := List.exists_cons_of_ne_nil hne
    simp [Block.ofRun, hk]
  have htext : (Block.ofRun (ls.zipIdx n)).text = Text.unlines kept := by
    simp [Block.ofRun, Block.text, hk]
  rw [hpos, htext, hk, located_unlines k hne fun l hm => hn l (hkept.subset hm)]

/-! ## Above and below the first `---` -/

theorem not_shows_of_blank {l : Numbered} (h : visible l = false) : shows "---" l = false := by
  have hb : shows "" l = true := by simpa [visible] using h
  have ht : Text.trim l.1 = "".toList := by simpa [shows] using hb
  unfold shows
  rw [ht]
  decide

/-- Blank lines at the start of a run are neither above nor below. -/
theorem above_below_trimmed (run : List Numbered) :
    (above (trimmed run)).filter visible = (above run).filter visible ∧
      below (trimmed run) = below run := by
  induction run with
  | nil => exact ⟨rfl, rfl⟩
  | cons l run ih =>
    cases hv : visible l with
    | true =>
      have ht : trimmed (l :: run) = l :: run := by simp [trimmed, hv]
      rw [ht]
      exact ⟨rfl, rfl⟩
    | false =>
      have ht : trimmed (l :: run) = trimmed run := by simp [trimmed, hv]
      have hs := not_shows_of_blank hv
      rw [ht]
      refine ⟨ih.1.trans ?_, ih.2.trans ?_⟩
      · simp [above, hs, hv]
      · simp [below, hs]

theorem headerOf_map (run : List Numbered) :
    Node.headerOf (run.map Numbered.located) = (above run).map Numbered.located := by
  unfold Node.headerOf
  rw [List.takeWhile_map]
  rfl

theorem bodyOf_map {run : List Numbered} (h : ∀ l ∈ run, shows "===" l = false) :
    Node.bodyOf (run.map Numbered.located) =
      ((below run).filter visible).map Numbered.located := by
  have hd : (((run.map Numbered.located).dropWhile fun l =>
      !Node.isDelimiter Node.fieldsEnd l).drop 1) = (below run).map Numbered.located := by
    rw [List.dropWhile_map, ← List.map_drop, List.drop_one]
    rfl
  unfold Node.bodyOf
  rw [hd, List.filter_map]
  congr 1
  apply List.filter_congr
  intro l hm
  have hrun : l ∈ run :=
    (List.dropWhile_suffix (l := run) fun l => !shows "---" l).subset (List.mem_of_mem_tail hm)
  have hend : Node.isDelimiter Node.nodeEnd l.located = false := h l hrun
  simp [Node.isContent, isBlank_located, hend]

/-! ## Nodes hold their runs -/

theorem isFieldOf_readField {l : Numbered} {field : String × Value}
    (h : Node.readField l.located = .ok field) : Node.IsFieldOf field l := by
  unfold Node.readField at h
  split at h
  · next f hf =>
    cases h
    obtain ⟨⟨key, value⟩, hc, rfl⟩ := Option.map_eq_some_iff.mp hf
    obtain ⟨hl, hk⟩ := Text.cut?_eq_some hc
    exact ⟨key, value, hl, hk, rfl⟩
  · cases h

theorem fields_of_readFields {run : List Numbered} {fields : List (String × Value)}
    (h : Node.readFields (run.map Numbered.located) = .ok fields) :
    List.Forall₂ Node.IsFieldOf fields (run.filter visible) := by
  unfold Node.readFields at h
  rw [List.filter_map] at h
  have hf : run.filter ((fun l : Located => !l.isBlank) ∘ Numbered.located) =
      run.filter visible := by
    simp only [Function.comp_def, isBlank_located, Bool.not_not]
  rw [hf] at h
  have := mapM_eq_ok_iff.mp h
  rw [List.forall₂_map_right_iff] at this
  exact this.imp fun _ _ hr => isFieldOf_readField hr

/-- Lines that are read keep their text and their number. -/
theorem map_source_position {node : String} {s t : Session} {ls : List Numbered}
    {lines : List Line} (h : Node.LinesRead node s (ls.map Numbered.located) lines t) :
    lines.map (fun line => (line.source.toList, line.position.index)) = ls := by
  induction ls generalizing s lines with
  | nil =>
    cases h
    rfl
  | cons l ls ih =>
    cases h with
    | cons head tail =>
      obtain ⟨_, _, _, _, _, _, _, _, _, rfl, _⟩ := Line.read_ok head
      rw [List.map_cons, ih tail]
      simp [Line.ofLayout, Numbered.located]

/-- **A node that is read from a run holds that run.** -/
theorem holds_of_read {content : String} {run : List Numbered} {s t : Session} {node : Node}
    (hm : run ∈ runs content) (hv : run.any visible = true)
    (h : Node.read (Block.ofRun run).text (Block.ofRun run).position s = (.ok node, t)) :
    node.Holds run := by
  obtain ⟨fields, id, lines, hf, -, hr, -, rfl⟩ := Node.read_ok h
  rw [located_ofRun hm hv] at hf hr
  rw [headerOf_map] at hf
  have hends : ∀ l ∈ trimmed run, shows "===" l = false :=
    fun l hl => (run_eq_zipIdx hm).2 l ((List.dropWhile_suffix _).subset hl)
  rw [bodyOf_map hends] at hr
  obtain ⟨habove, hbelow⟩ := above_below_trimmed run
  refine ⟨?_, ?_, ?_, ?_⟩
  · obtain ⟨first, others, ht⟩ := List.exists_cons_of_ne_nil (trimmed_ne_nil hv)
    have : run.dropWhile (fun l => !visible l) = first :: others := ht
    simp [Block.ofRun, this, ht]
  · simp only [String.toList_ofList]
    rfl
  · rw [← habove]
    exact fields_of_readFields hf
  · have hp := congrArg
      (List.map fun line : Line => (line.source.toList, line.position.index))
      (Outline.placed_ofLines hr.unlinked).bare
    rw [← hbelow, ← map_source_position hr]
    simpa [Line.bare, Function.comp_def, Outline.ofLines] using hp

/-- Nodes that are read from runs, one after the other, hold those runs. -/
theorem forall₂_holds {content : String} {s t : Session} {kept : List (List Numbered)}
    {nodes : List Node} (hm : ∀ run ∈ kept, run ∈ runs content ∧ run.any visible = true)
    (h : Script.NodesRead s (kept.map Block.ofRun) nodes t) :
    List.Forall₂ Node.Holds nodes kept := by
  induction kept generalizing s nodes with
  | nil =>
    cases h
    exact .nil
  | cons run kept ih =>
    cases h with
    | cons head tail =>
      obtain ⟨hrun, hkept⟩ := List.forall_mem_cons.mp hm
      exact .cons (holds_of_read hrun.1 hrun.2 head) (ih hkept tail)

/--
**A script is its document.**  The nodes are, in order, the runs of lines between `===` lines that
show something, each held completely: no line is lost, invented, repeated, moved or misplaced.
-/
theorem Script.parseWith_document {content : String} {options : Options} {script : Script}
    (h : parseWith content options = .ok script) :
    List.Forall₂ Node.Holds script.nodes.toList (nodeRuns content) := by
  obtain ⟨nodes, s, hr, -, rfl⟩ := parseWith_ok h
  obtain ⟨read, he, hn⟩ := readNodes_ok hr
  simp only [List.reverse_nil, List.nil_append] at he
  subst he
  rw [blocksOf_eq] at hn
  exact forall₂_holds (fun run hm => List.mem_filter.mp hm) hn

/-- Blank lines, a second `---`, an empty block, a carriage return and no `===` line at the end. -/
def Document.sample : String :=
  "\n title: A\n\n---\nOne\n---\n\n  Two\n===\n \n===\ntitle: B\r\nn:1:2\n---\nThree"

theorem Script.parseWith_sample :
    ∃ script, parseWith Document.sample {} = .ok script ∧ script.nodes.size = 2 ∧
      List.Forall₂ Node.Holds script.nodes.toList (nodeRuns Document.sample) := by
  have hsize : (parseWith Document.sample {}).toOption.map (fun script => script.nodes.size) =
      some 2 := by decide +kernel
  obtain ⟨script, hs, hn⟩ := Option.map_eq_some_iff.mp hsize
  cases h : parseWith Document.sample {} with
  | error e =>
    rw [h] at hs
    cases hs
  | ok read =>
    rw [h] at hs
    cases hs
    exact ⟨script, rfl, hn, parseWith_document h⟩

end Parley
