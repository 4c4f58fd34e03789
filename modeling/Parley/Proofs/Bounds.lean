import Parley.Proofs.Document
import Parley.Proofs.Reports

/-!
# How large positions and widths get

Positions and widths are natural numbers, of any size.  This module tells when they fit into machine
words.  A position is the number of a line of its document, so 32 bits hold it unless the document
has more than `2 ^ 32` lines.  A width is at most the length of the line, times the width of a tab.

What becomes of a script or an error whose positions are kept in 32 bits is told by a function on
scripts and errors (`Script.kept`, `ScriptError.kept`).  Like every other move of positions it is
made of one function on the numbers of lines (`Position.moved`).

* `Script.kept_eq`, `ScriptError.kept_eq` — nothing is cut off from positions that fit.
* `Script.positions_lt` — the positions in a script are numbers of lines of its document.
* `Script.kept_of_parseWith` — so they fit if the document has no more than `2 ^ 32` lines.
* `Script.indent_le` — the indentation of a line is bounded by its length.
-/

namespace Parley

/-! ## Moved positions -/

section

variable (move : Nat → Nat)

/-- Where something stands after the move. -/
def Position.moved (p : Position) : Position := ⟨move p.index⟩

def Report.moved (r : Report) : Report := { r with position := r.position.moved move }

def Log.moved (log : Log) : Log := ⟨log.reports.map (Report.moved move)⟩

def Line.moved (line : Line) : Line := { line with position := line.position.moved move }

def LineError.moved (e : LineError) : LineError := { e with position := e.position.moved move }

def NodeFault.moved : NodeFault → NodeFault
  | .missingTitle => .missingTitle
  | .empty node => .empty node
  | .malformedField found position => .malformedField found (position.moved move)
  | .line e => .line (e.moved move)

def NodeError.moved (e : NodeError) : NodeError := ⟨e.position.moved move, e.fault.moved move⟩

/-- The same error in a document whose lines have moved. -/
def ScriptError.moved : ScriptError → ScriptError
  | .empty => .empty
  | .tooLarge size limit => .tooLarge size limit
  | .duplicateNode id position earlier =>
    .duplicateNode id (position.moved move) (earlier.moved move)
  | .node e => .node (e.moved move)

end

/-! ## The places of positions -/

/-- The positions in a node: its own one and those of its lines. -/
def Node.positions (node : Node) : List Position :=
  node.position :: node.lines.toList.map Line.position

/-- The positions in a script: those in its nodes and of its reports. -/
def Script.positions (script : Script) : List Position :=
  script.nodes.toList.flatMap Node.positions ++ script.log.reports.toList.map Report.position

def NodeFault.positions : NodeFault → List Position
  | .missingTitle => []
  | .empty _ => []
  | .malformedField _ position => [position]
  | .line e => [e.position]

/-- The positions in an error. -/
def ScriptError.positions : ScriptError → List Position
  | .empty => []
  | .tooLarge _ _ => []
  | .duplicateNode _ position earlier => [position, earlier]
  | .node e => e.position :: e.fault.positions

/-! ## Positions in 32 bits -/

/-- The low 32 bits of the index of a line. -/
def lowBits (index : Nat) : Nat := index % UInt32.size

/-- The node with its positions in 32 bits. -/
def Node.kept (node : Node) : Node :=
  { node with lines := node.lines.map (Line.moved lowBits),
              position := node.position.moved lowBits }

/-- The script with its positions in 32 bits, which is how they are kept. -/
def Script.kept (script : Script) : Script :=
  { script with nodes := script.nodes.map Node.kept, log := script.log.moved lowBits }

/-- The error with its positions in 32 bits. -/
def ScriptError.kept (e : ScriptError) : ScriptError := e.moved lowBits

/-- What a document is read as, with positions in 32 bits. -/
def keptResult : Except ScriptError Script → Except ScriptError Script
  | .ok script => .ok script.kept
  | .error e => .error e.kept

theorem Position.moved_lowBits {p : Position} (h : p.index < UInt32.size) :
    p.moved lowBits = p := by
  rw [Position.moved, lowBits, Nat.mod_eq_of_lt h]

theorem Node.kept_eq {node : Node} (h : ∀ p ∈ node.positions, p.index < UInt32.size) :
    node.kept = node := by
  obtain ⟨hposition, hlines⟩ := List.forall_mem_cons.mp h
  have hmap : node.lines.map (Line.moved lowBits) = node.lines := by
    refine (Array.map_congr_left fun line hline => ?_).trans (Array.map_id _)
    have hline := hlines _ (List.mem_map_of_mem (Array.mem_toList_iff.mpr hline))
    rw [Line.moved, Position.moved_lowBits hline]
    rfl
  rw [kept, hmap, Position.moved_lowBits hposition]

/-- Nothing is cut off from positions that fit. -/
theorem Script.kept_eq {script : Script} (h : ∀ p ∈ script.positions, p.index < UInt32.size) :
    script.kept = script := by
  obtain ⟨hnodes, hreports⟩ := List.forall_mem_append.mp h
  have hmap : script.nodes.map Node.kept = script.nodes := by
    refine (Array.map_congr_left fun node hnode => ?_).trans (Array.map_id _)
    exact Node.kept_eq fun p hp =>
      hnodes p (List.mem_flatMap.mpr ⟨node, Array.mem_toList_iff.mpr hnode, hp⟩)
  have hlog : script.log.moved lowBits = script.log := by
    refine congrArg Log.mk ((Array.map_congr_left fun report hreport => ?_).trans (Array.map_id _))
    have hreport := hreports _ (List.mem_map_of_mem (Array.mem_toList_iff.mpr hreport))
    rw [Report.moved, Position.moved_lowBits hreport]
    rfl
  rw [kept, hmap, hlog]

theorem NodeFault.moved_lowBits {fault : NodeFault}
    (h : ∀ p ∈ fault.positions, p.index < UInt32.size) : fault.moved lowBits = fault := by
  cases fault with
  | missingTitle => rfl
  | empty node => rfl
  | malformedField line position =>
    rw [moved, Position.moved_lowBits (h position (by simp [positions]))]
  | line e =>
    rw [moved, LineError.moved, Position.moved_lowBits (h e.position (by simp [positions]))]

theorem ScriptError.kept_eq {e : ScriptError} (h : ∀ p ∈ e.positions, p.index < UInt32.size) :
    e.kept = e := by
  cases e with
  | empty => rfl
  | tooLarge size limit => rfl
  | duplicateNode id position earlier =>
    have hposition := h position (by simp [positions])
    have hearlier := h earlier (by simp [positions])
    rw [kept, moved, Position.moved_lowBits hposition, Position.moved_lowBits hearlier]
  | node e =>
    obtain ⟨hposition, hfault⟩ := List.forall_mem_cons.mp h
    rw [kept, moved, NodeError.moved, Position.moved_lowBits hposition,
      NodeFault.moved_lowBits hfault]

/-! ## Lines and their numbers -/

/-- The positions in a node are among those of its run. -/
theorem Node.Holds.positions {node : Node} {run : List Numbered} (h : node.Holds run) :
    ∀ p ∈ node.positions, p.index ∈ run.map Prod.snd := by
  refine List.forall_mem_cons.mpr ⟨?_, ?_⟩
  · obtain ⟨l, hl, hindex⟩ := Option.map_eq_some_iff.mp h.position
    rw [← hindex]
    exact List.mem_map_of_mem ((List.dropWhile_suffix _).subset (List.mem_of_mem_head? hl))
  · intro p hp
    obtain ⟨line, hline, rfl⟩ := List.mem_map.mp hp
    have hmem : (line.source.toList, line.position.index) ∈
        (Document.below run).filter Document.visible := by
      rw [← h.lines]
      exact List.mem_map_of_mem hline
    have hbelow := List.mem_of_mem_tail (List.mem_filter.mp hmem).1
    exact List.mem_map_of_mem ((List.dropWhile_suffix _).subset hbelow)

namespace Document

variable {content : String} {run : List Numbered}

/-- The lines of a run are lines of its document. -/
theorem run_subset (h : run ∈ runs content) : run ⊆ lines content := by
  obtain ⟨first, others, he, hfirst, hothers, -⟩ := splitOnP_parts (shows "===") (lines content)
  unfold runs at h
  rw [he] at h
  rcases List.mem_cons.mp h with rfl | hmem
  · exact hfirst.subset
  · exact (hothers run hmem).subset

theorem number_lt (h : run ∈ runs content) {n : Nat} (hn : n ∈ run.map Prod.snd) :
    n < (lines content).length := by
  obtain ⟨l, hl, rfl⟩ := List.mem_map.mp hn
  have hmem := run_subset h hl
  have hlt := (List.mem_zipIdx hmem).2.1
  rwa [Nat.zero_add, ← List.length_zipIdx (i := 0)] at hlt

end Document

namespace Script

variable {content : String} {options : Options} {script : Script}

/-- Reports stand where lines stand. -/
theorem report_positions {nodes : List Node} {report : Report}
    (h : report ∈ quoteReports nodes ∨ report ∈ jumpReports nodes) :
    report.position ∈ nodes.flatMap Node.positions := by
  have hplace : ∀ node ∈ nodes, ∀ line ∈ node.lines.toList,
      line.position ∈ nodes.flatMap Node.positions := by
    intro node hnode line hline
    exact List.mem_flatMap.mpr
      ⟨node, hnode, List.mem_cons_of_mem _ (List.mem_map_of_mem hline)⟩
  rcases h with h | h
  · obtain ⟨node, hnode, hreport⟩ := List.mem_flatMap.mp h
    obtain ⟨line, hline, hreport⟩ := List.mem_flatMap.mp hreport
    obtain ⟨command, -, rfl⟩ := List.mem_map.mp hreport
    exact hplace node hnode line hline
  · obtain ⟨node, hnode, hreport⟩ := List.mem_flatMap.mp h
    obtain ⟨line, hline, hreport⟩ := List.mem_flatMap.mp hreport
    obtain ⟨command, -, hreport⟩ := List.mem_filterMap.mp hreport
    have hposition : report.position = line.position := by
      cases hp : command.parameters with
      | nil =>
        rw [hp] at hreport
        cases hreport
        rfl
      | cons target others =>
        rw [hp] at hreport
        dsimp only at hreport
        split at hreport <;> cases hreport
        rfl
    rw [hposition]
    exact hplace node hnode line hline

/-- **The positions in a script** are numbers of lines of its document. -/
theorem positions_lt (h : parseWith content options = .ok script) :
    ∀ p ∈ script.positions, p.index < (Document.lines content).length := by
  have hreports := reports_eq h
  have hnodes : ∀ p ∈ script.nodes.toList.flatMap Node.positions,
      p.index < (Document.lines content).length := by
    obtain ⟨nodes, s, hr, -, rfl⟩ := parseWith_ok h
    obtain ⟨new, hnew, hread⟩ := readNodes_ok hr
    rw [List.reverse_nil, List.nil_append] at hnew
    subst hnew
    rw [blocksOf_eq] at hread
    have hholds := forall₂_holds (fun run hm => List.mem_filter.mp hm) hread
    intro p hp
    obtain ⟨node, hnode, hp⟩ := List.mem_flatMap.mp hp
    obtain ⟨run, hrun, hnode⟩ := exists_of_mem_forall₂ hholds.flip node hnode
    exact Document.number_lt (List.mem_filter.mp hrun).1 (hnode.positions p hp)
  refine List.forall_mem_append.mpr ⟨hnodes, ?_⟩
  intro p hp
  obtain ⟨report, hreport, rfl⟩ := List.mem_map.mp hp
  apply hnodes
  apply report_positions
  rw [hreports] at hreport
  rcases List.mem_append.mp hreport with hquote | hjump
  · exact .inl hquote
  · split at hjump
    · exact .inr hjump
    · cases hjump

/-- **Positions fit into 32 bits** in a document that has no more than `2 ^ 32` lines. -/
theorem kept_of_parseWith (h : parseWith content options = .ok script)
    (hlines : (Document.lines content).length ≤ UInt32.size) : script.kept = script :=
  kept_eq fun p hp => Nat.lt_of_lt_of_le (positions_lt h p hp) hlines

end Script

/-! ## Widths -/

/-- No blank is wider than a tab or than one column. -/
theorem indentWidth_le (tabWidth : Nat) (margin : List Char) :
    indentWidth tabWidth margin ≤ margin.length * max 1 tabWidth := by
  induction margin with
  | nil => exact Nat.zero_le _
  | cons c margin ih =>
    have hcons : indentWidth tabWidth (c :: margin) =
        (if c = '\t' then tabWidth else 1) + indentWidth tabWidth margin := rfl
    have hwide : (if c = '\t' then tabWidth else 1) ≤ max 1 tabWidth := by
      split
      · exact Nat.le_max_right _ _
      · exact Nat.le_max_left _ _
    rw [hcons, List.length_cons, Nat.succ_mul]
    omega

/-- The indentation of a line is bounded by the length of its text. -/
def Line.Narrow (tabWidth : Nat) (line : Line) : Prop :=
  line.indent ≤ line.source.length * max 1 tabWidth

theorem Line.read_narrow {content : List Char} {node : String} {position : Position}
    {s t : Session} {line : Line} (h : read content node position s = (.ok line, t)) :
    line.Narrow s.options.tabWidth := by
  obtain ⟨_, _, _, _, _, _, _, _, _, rfl, _⟩ := read_ok h
  have hmargin : (Text.margin content).length ≤ content.length :=
    (List.takeWhile_prefix _).length_le
  have hwidth := indentWidth_le s.options.tabWidth (Text.margin content)
  rw [Narrow, ofLayout, String.length_ofList]
  exact hwidth.trans (Nat.mul_le_mul_right _ hmargin)

theorem Node.LinesRead.narrow {node : String} {s t : Session} {ls : List Located}
    {lines : List Line} (h : LinesRead node s ls lines t) :
    ∀ line ∈ lines, line.Narrow s.options.tabWidth := by
  induction h with
  | nil s => simp
  | cons head _ ih =>
    rw [(Line.read_adds head).options] at ih
    exact List.forall_mem_cons.mpr ⟨Line.read_narrow head, ih⟩

theorem Node.read_narrow {content : List Char} {position : Position} {s t : Session} {node : Node}
    (h : read content position s = (.ok node, t)) :
    ∀ line ∈ node.lines, line.Narrow s.options.tabWidth := by
  obtain ⟨lines, hr, -, hp, he, -⟩ := read_placed h
  have hnarrow : node.lines.toList.map (Line.Narrow s.options.tabWidth) =
      lines.map (Line.Narrow s.options.tabWidth) := by
    rw [he]
    exact Line.map_of_bare (Line.Narrow s.options.tabWidth) (fun _ => rfl) hp.bare
  intro line hline
  have hmem := List.mem_map_of_mem (f := Line.Narrow s.options.tabWidth)
    (Array.mem_toList_iff.mpr hline)
  rw [hnarrow] at hmem
  obtain ⟨other, hother, he⟩ := List.mem_map.mp hmem
  exact he ▸ hr.narrow other hother

namespace Script

theorem NodesRead.narrow {s t : Session} {blocks : List Block} {nodes : List Node}
    (h : NodesRead s blocks nodes t) :
    ∀ node ∈ nodes, ∀ line ∈ node.lines, line.Narrow s.options.tabWidth := by
  induction h with
  | nil s => simp
  | cons head _ ih =>
    rw [(Node.read_adds head).options] at ih
    exact List.forall_mem_cons.mpr ⟨Node.read_narrow head, ih⟩

/-- **Indentations are bounded** by the lengths of the lines and the width of a tab. -/
theorem indent_le {content : String} {options : Options} {script : Script}
    (h : parseWith content options = .ok script) :
    ∀ node ∈ script.nodes, ∀ line ∈ node.lines,
      line.indent ≤ line.source.length * max 1 options.tabWidth := by
  obtain ⟨nodes, s, hr, -, rfl⟩ := parseWith_ok h
  obtain ⟨new, hnew, hread⟩ := readNodes_ok hr
  rw [List.reverse_nil, List.nil_append] at hnew
  subst hnew
  intro node hnode
  exact hread.narrow node (List.mem_toArray.mp hnode)

end Script

end Parley
