import Parley.Proofs.Bounds
import Parley.Proofs.Padding

/-!
# Reading lines that have moved

Reading a script notes where each line stands, in the script itself, in errors, in reports and in
notices, and does nothing else with it.  So whoever moves the lines of a document without changing
what its runs show (`Document.ShowsMoved`) reads the same script, or the same error, with the
positions moved in the same way.  This is shown step by step, for what succeeds and what fails
alike: every reader gives the moved result in a moved session (`movedResult`).

Only the texts that scripts and nodes keep of themselves are not the same, because they hold the
idle lines too.

* `Line.read_moved`, `Node.readLines_moved` — lines are read alike.
* `Outline.ofLines_moved` — and linked alike.
* `Document.readRun_moved`, `Script.readNodes_moved` — so are nodes, and documents node by node.
* `Log.sorted_moved` — what keeps the order of lines keeps the order in which the log is shown.
* `Script.parseWith_moved` — so are whole documents.
* `Script.parseWith_padded` — idle lines in a document change nothing but positions, and those fit
  into 32 bits if the number of lines does.
-/

namespace Parley

/-! ## Moved sessions -/

section

variable (move : Nat → Nat)

def Notice.moved : Notice → Notice
  | .speakerAdded speaker => .speakerAdded speaker
  | .lineRead position id node => .lineRead (position.moved move) id node
  | .nodeBegun position node => .nodeBegun (position.moved move) node
  | .scriptRead nodes lines => .scriptRead nodes lines
  | .lineTagIgnored position => .lineTagIgnored (position.moved move)
  | .quoteLeftOpen command => .quoteLeftOpen command
  | .warned report => .warned (report.moved move)

/-- A session in which the same was read from lines that have moved. -/
def Session.moved (s : Session) : Session :=
  { s with log := s.log.moved move, notices := s.notices.map (Notice.moved move) }

/-- What a reader gives after the move, if it only notes positions. -/
def movedResult {ε α : Type} (error : ε → ε) (value : α → α) :
    Except ε α × Session → Except ε α × Session
  | (.error e, s) => (.error (error e), s.moved move)
  | (.ok a, s) => (.ok (value a), s.moved move)

namespace Session

theorem notice_moved (s : Session) (n : Notice) :
    (s.moved move).notice (n.moved move) = (s.notice n).moved move := by
  simp [notice, moved]

theorem warn_moved (s : Session) (r : Report) :
    (s.moved move).warn (r.moved move) = (s.warn r).moved move := by
  simp [warn, notice, moved, Log.add, Log.moved, Notice.moved]

theorem warnAll_moved (s : Session) (reports : List Report) :
    (reports.map (Report.moved move)).foldl warn (s.moved move) =
      (reports.foldl warn s).moved move := by
  induction reports generalizing s with
  | nil => rfl
  | cons r reports ih => rw [List.map_cons, List.foldl_cons, warn_moved, ih, List.foldl_cons]

theorem register?_moved (s : Session) (line node : String) :
    (s.moved move).register? line node = (s.register? line node).map (Session.moved move) := by
  unfold register?
  by_cases h : (s.owner? line).isSome = true
  · rw [if_pos h]
    exact if_pos h
  · rw [if_neg h]
    exact if_neg h

end Session

/-! ## Lines -/

namespace Line

theorem speaker?_moved (s : Session) (name? : Option String) :
    speaker? (s.moved move) name? = ((speaker? s name?).1, (speaker? s name?).2.moved move) := by
  cases name? with
  | none => rfl
  | some name =>
    cases h : s.cast.find? name with
    | some speaker =>
      have hmoved : (s.moved move).cast.find? name = some speaker := h
      simp only [speaker?, Session.speaker_known h, Session.speaker_known hmoved]
    | none =>
      have hmoved : (s.moved move).cast.find? name = none := h
      have hadded := Session.notice_moved move
        { (s.mint "character").2 with cast := (s.cast.enroll name (s.mint "character").1).2 }
        (.speakerAdded (s.cast.enroll name (s.mint "character").1).1)
      simp only [speaker?, Session.speaker, h, hmoved]
      exact Prod.ext rfl hadded

theorem readParts_moved (position : Position) (done : List Segment) (s : Session)
    (parts : List Part) :
    readParts (position.moved move) done (s.moved move) parts =
      ((readParts position done s parts).1, (readParts position done s parts).2.moved move) := by
  induction parts generalizing done s with
  | nil => rfl
  | cons part parts ih =>
    unfold readParts
    split
    · rfl
    · exact ih _ s
    · next segment warning hpart =>
      have hwarn := s.warn_moved move ⟨warning, position⟩
      rw [← ih, ← hwarn]
      rfl

theorem noticeIdle_moved (s : Session) (position : Position) (tags : List Tag) :
    noticeIdle (s.moved move) (position.moved move) tags =
      (noticeIdle s position tags).moved move := by
  unfold noticeIdle
  induction Tag.idle tags generalizing s with
  | nil => rfl
  | cons tag tags ih =>
    have hnotice := s.notice_moved move (.lineTagIgnored position)
    rw [List.foldl_cons, List.foldl_cons, ← ih, ← hnotice]
    rfl

theorem identify_moved (s : Session) (written : List Tag) :
    identify (s.moved move) written =
      ((identify s written).1, (identify s written).2.1,
        (identify s written).2.2.moved move) := by
  unfold identify
  split <;> rfl

/-- **A line is read alike** wherever it stands. -/
theorem read_moved (content : List Char) (node : String) (position : Position) (s : Session) :
    read content node (position.moved move) (s.moved move) =
      movedResult move (LineError.moved move) (Line.moved move) (read content node position s) := by
  have htab : (s.moved move).options.tabWidth = s.options.tabWidth := rfl
  unfold read
  rw [htab]
  generalize Layout.read s.options.tabWidth content = layout
  dsimp only
  rw [speaker?_moved]
  dsimp only
  rw [readParts_moved]
  obtain ⟨result, u⟩ := readParts position [] (speaker? s layout.speaker).2
    (Segment.whole layout.parts)
  cases result with
  | error fault => rfl
  | ok segments =>
    dsimp only
    have hnotice := noticeIdle_moved move u position layout.tags
    unfold noticeIdle at hnotice
    rw [hnotice]
    generalize (Tag.idle layout.tags).foldl
      (fun s _ => s.notice (.lineTagIgnored position)) u = v
    rw [identify_moved]
    obtain ⟨id, tags, w⟩ := identify v layout.tags
    dsimp only
    rw [Session.register?_moved]
    cases w.register? id node with
    | none => rfl
    | some w =>
      have hread := w.notice_moved move (.lineRead position id node)
      exact Prod.ext rfl hread

end Line

/-! ## The lines of a node -/

/-- **Lines are read alike** one after the other. -/
theorem Node.readLines_moved (node : String) (done : List Line) (s : Session)
    (ls : List Numbered) :
    readLines node (done.map (Line.moved move)) (s.moved move)
        ((ls.map (Numbered.moved move)).map Numbered.located) =
      movedResult move (LineError.moved move) (List.map (Line.moved move))
        (readLines node done s (ls.map Numbered.located)) := by
  induction ls generalizing done s with
  | nil =>
    rw [List.map_nil, List.map_nil, readLines, ← List.map_reverse]
    rfl
  | cons l ls ih =>
    have hline : Line.read (l.moved move).located.1 node (l.moved move).located.2 (s.moved move) =
        movedResult move (LineError.moved move) (Line.moved move)
          (Line.read l.located.1 node l.located.2 s) := Line.read_moved move l.1 node ⟨l.2⟩ s
    rw [List.map_cons, List.map_cons, List.map_cons, readLines, readLines, hline]
    obtain ⟨result, t⟩ := Line.read l.located.1 node l.located.2 s
    cases result with
    | error e => rfl
    | ok line => exact ih (line :: done) t

namespace Outline

/-- Linking looks at nothing that says where lines stand. -/
theorem link_moved (lines : Array Line) (latest : Std.ExtTreeMap Nat Nat) (line : Line) :
    link (lines.map (Line.moved move)) latest (line.moved move) =
      (link lines latest line).map (Line.moved move) := by
  cases hp : lines.back? with
  | none =>
    have hmoved : (lines.map (Line.moved move)).back? = none := by rw [Array.back?_map, hp]; rfl
    rw [link_of_back_none hp, link_of_back_none hmoved]
  | some previous =>
    have hmoved : (lines.map (Line.moved move)).back? = some (previous.moved move) := by
      rw [Array.back?_map, hp]
      rfl
    apply Array.ext_getElem?
    intro i
    rw [getElem?_link hmoved, Array.getElem?_map, Array.getElem?_map, getElem?_link hp,
      Option.map_map, Option.map_map, Array.size_map]
    rfl

theorem place_moved (o : Outline) (line : Line) :
    place ⟨o.lines.map (Line.moved move), o.latest⟩ (line.moved move) =
      ⟨(o.place line).lines.map (Line.moved move), (o.place line).latest⟩ := by
  simp only [place, link_moved, Array.map_push, Array.size_map]
  rfl

/-- **Lines are linked alike** wherever they stand. -/
theorem ofLines_moved (lines : List Line) :
    ofLines (lines.map (Line.moved move)) = (ofLines lines).map (Line.moved move) := by
  have hplaced : ∀ o : Outline,
      (lines.map (Line.moved move)).foldl place ⟨o.lines.map (Line.moved move), o.latest⟩ =
        ⟨(lines.foldl place o).lines.map (Line.moved move), (lines.foldl place o).latest⟩ := by
    induction lines with
    | nil => exact fun _ => rfl
    | cons line lines ih =>
      intro o
      rw [List.map_cons, List.foldl_cons, List.foldl_cons, place_moved, ih]
  have hnone := hplaced .empty
  have hempty : Outline.empty.lines.map (Line.moved move) = #[] := Array.map_empty
  rw [hempty] at hnone
  exact congrArg Outline.lines hnone

end Outline

theorem Node.indexOf_moved (lines : List Line) :
    indexOf (lines.map (Line.moved move)) = indexOf lines := by
  have hids : (lines.map (Line.moved move)).map Line.id = lines.map Line.id := by
    rw [List.map_map]
    rfl
  exact congrArg Table.ofList (mapIdx_of_map (fun i id => (id, i)) hids)

/-! ## The header of a node -/

theorem Node.readField_moved (l : Numbered) :
    readField (l.moved move).located =
      (readField l.located).mapError (NodeFault.moved move) := by
  unfold readField
  cases h : fieldOfLine? l.located.1 with
  | none =>
    have hmoved : fieldOfLine? (l.moved move).located.1 = none := h
    rw [hmoved]
    rfl
  | some field =>
    have hmoved : fieldOfLine? (l.moved move).located.1 = some field := h
    rw [hmoved]
    rfl

theorem Node.readHeader_moved (ls : List Numbered) :
    ((ls.map (Numbered.moved move)).map Numbered.located).mapM readField =
      ((ls.map Numbered.located).mapM readField).mapError (NodeFault.moved move) := by
  induction ls with
  | nil => rfl
  | cons l ls ih =>
    rw [List.map_cons, List.map_cons, List.map_cons, List.mapM_cons, List.mapM_cons,
      readField_moved, ih]
    cases readField l.located with
    | error fault => rfl
    | ok field =>
      cases (ls.map Numbered.located).mapM readField <;> rfl

end

variable {move : Nat → Nat}

/-! ## Nodes -/

/-- The same node in a document whose lines have moved, but for the text that it keeps. -/
structure Node.Moved (move : Nat → Nat) (node moved : Node) : Prop where
  id : moved.id = node.id
  fields : moved.fields = node.fields
  lines : moved.lines = node.lines.map (Line.moved move)
  index : moved.index = node.index
  position : moved.position = node.position.moved move

namespace Document

/-- Reads a node from the lines of its header and from its content lines. -/
def readShown (source : String) (start : Position) (header content : List Numbered) (s : Session) :
    Except NodeError Node × Session :=
  match (header.map Numbered.located).mapM Node.readField with
  | .error fault => (.error ⟨start, fault⟩, s)
  | .ok fields =>
    match Node.title? fields with
    | none => (.error ⟨start, .missingTitle⟩, s)
    | some id =>
      match Node.readLines id [] (s.notice (.nodeBegun start id))
        (content.map Numbered.located) with
      | (.error e, t) => (.error ⟨start, .line e⟩, t)
      | (.ok [], t) => (.error ⟨start, .empty id⟩, t)
      | (.ok (line :: lines), t) =>
        let linked := Outline.ofLines (line :: lines)
        (.ok ⟨id, fields, linked, Node.indexOf linked.toList, source, start⟩, t)

/-- **A run is read** from its visible lines above and below the first `---`. -/
theorem readRun_eq {content : String} {run : List Numbered} (h : IsNodeRun content run)
    (s : Session) :
    readRun run s = readShown (String.ofList (Block.ofRun run).text) (start run) (fieldLines run)
      (contentLines run) s := by
  have hlines := located_ofRun h.1 h.2
  have hfields := Node.readFields_eq run
  have hbody := bodyOf_trimmed h
  rw [← hlines, position_ofRun] at hfields hbody
  unfold Node.headerOf at hfields
  unfold Node.bodyOf at hbody
  rw [readRun, position_ofRun]
  simp only [Node.read, hfields, hbody]
  rfl

/-- What is read from visible lines is read from them after they have moved. -/
theorem readShown_moved (source kept : String) (start : Position)
    (header content : List Numbered) (s : Session) :
    readShown kept (start.moved move) (header.map (Numbered.moved move))
        (content.map (Numbered.moved move)) (s.moved move) =
      movedResult move (NodeError.moved move)
        (fun node => ⟨node.id, node.fields, node.lines.map (Line.moved move), node.index, kept,
          node.position.moved move⟩)
        (readShown source start header content s) := by
  unfold readShown
  rw [Node.readHeader_moved]
  cases (header.map Numbered.located).mapM Node.readField with
  | error fault => rfl
  | ok fields =>
    simp only [Except.mapError]
    cases Node.title? fields with
    | none => rfl
    | some id =>
      have hbegun : (s.moved move).notice (.nodeBegun (start.moved move) id) =
          (s.notice (.nodeBegun start id)).moved move := s.notice_moved move (.nodeBegun start id)
      have hlines := Node.readLines_moved move id [] (s.notice (.nodeBegun start id)) content
      rw [List.map_nil] at hlines
      dsimp only
      rw [hbegun, hlines]
      obtain ⟨result, t⟩ := Node.readLines id [] (s.notice (.nodeBegun start id))
        (content.map Numbered.located)
      rcases result with e | _ | ⟨line, lines⟩
      · rfl
      · rfl
      · have hlinked := Outline.ofLines_moved move (line :: lines)
        have hindex := Node.indexOf_moved move (Outline.ofLines (line :: lines)).toList
        rw [← Array.toList_map, ← hlinked] at hindex
        simp only [movedResult, List.map_cons] at hlinked hindex ⊢
        rw [hindex, hlinked]

/-- **A run is read alike** after its visible lines have moved. -/
theorem readRun_moved {content padded : String} {run moved : List Numbered}
    (hr : IsNodeRun content run) (hm : IsNodeRun padded moved) (h : ShowsMoved move run moved)
    (s : Session) :
    (∃ e t, readRun run s = (.error e, t) ∧
      readRun moved (s.moved move) = (.error (e.moved move), t.moved move)) ∨
    ∃ node other t, readRun run s = (.ok node, t) ∧
      readRun moved (s.moved move) = (.ok other, t.moved move) ∧ node.Moved move other := by
  have hstart : start moved = (start run).moved move :=
    congrArg Position.mk (h.start hr.2)
  rw [readRun_eq hr, readRun_eq hm, hstart, h.fieldLines, h.contentLines,
    readShown_moved (String.ofList (Block.ofRun run).text)]
  obtain ⟨result, t⟩ := readShown (String.ofList (Block.ofRun run).text) (start run)
    (fieldLines run) (contentLines run) s
  cases result with
  | error e => exact .inl ⟨e, t, rfl, rfl⟩
  | ok node => exact .inr ⟨node, _, t, rfl, rfl, ⟨rfl, rfl, rfl, rfl, rfl⟩⟩

end Document

/-! ## Scripts -/

/-- The same script from a document whose lines have moved, but for the texts that it keeps. -/
structure Script.Moved (move : Nat → Nat) (script moved : Script) : Prop where
  nodes : List.Forall₂ (Node.Moved move) script.nodes.toList moved.nodes.toList
  nodeIndex : moved.nodeIndex = script.nodeIndex
  lineIndex : moved.lineIndex = script.lineIndex
  cast : moved.cast = script.cast
  log : moved.log = script.log.moved move

/-- **The log is shown in the same order** after a move that keeps the order of lines. -/
theorem Log.sorted_moved (h : StrictMono move) (log : Log) :
    (log.moved move).sorted = log.sorted.map (Report.moved move) := by
  have hle : ∀ r ∈ log.reports.toList, ∀ s ∈ log.reports.toList,
      upTo r s = upTo (r.moved move) (s.moved move) := by
    intro r _ s _
    rw [upTo, upTo, Bool.eq_iff_iff, decide_eq_true_iff, decide_eq_true_iff]
    exact h.le_iff_le.symm
  rw [sorted, sorted, List.map_mergeSort hle, Log.moved, Array.toList_map]

namespace Script

variable {nodes moved : List Node}

/-- What can be told of a node wherever it stands can be told of many. -/
theorem map_of_moved {α : Type} {f g : Node → α}
    (hf : ∀ node other : Node, node.Moved move other → f other = g node)
    (h : List.Forall₂ (Node.Moved move) nodes moved) : moved.map f = nodes.map g := by
  induction h with
  | nil => rfl
  | cons head _ ih => rw [List.map_cons, List.map_cons, hf _ _ head, ih]

theorem lineIds_moved {node other : Node} (h : node.Moved move other) :
    other.lineIds = node.lineIds := by
  rw [Node.lineIds, h.lines, Array.toList_map, List.map_map]
  rfl

theorem nodePlaces_moved (h : List.Forall₂ (Node.Moved move) nodes moved) :
    nodePlaces moved = nodePlaces nodes :=
  congrArg Table.ofList (mapIdx_of_map (fun i id => (id, i)) (map_of_moved (fun _ _ h => h.id) h))

theorem linePlaces_moved (h : List.Forall₂ (Node.Moved move) nodes moved) :
    linePlaces moved = linePlaces nodes := by
  have hplaces : ∀ nodes : List Node, linePlaces nodes =
      Table.ofList (nodes.mapIdx fun i node => node.lineIds.map fun id => (id, i)).flatten := by
    intro nodes
    simp only [linePlaces, Node.lineIds, List.map_map]
    rfl
  rw [hplaces, hplaces, mapIdx_of_map (fun i ids => ids.map fun id => (id, i))
    (map_of_moved (fun _ _ h => lineIds_moved h) h)]

end Script

theorem Jump.reportsOf_moved {node other : Node} (h : node.Moved move other) (ids : Table Unit) :
    reportsOf ids other = (reportsOf ids node).map (Report.moved move) := by
  have hjumps : other.jumps =
      node.jumps.map (Prod.map (Line.moved move) id) := by
    rw [Node.jumps, Node.jumps, h.lines, Array.toList_map, List.flatMap_map, List.map_flatMap]
    simp only [List.map_map]
    rfl
  rw [reportsOf, reportsOf, hjumps, List.filterMap_map, List.map_filterMap, h.id]
  congr 1
  funext jump
  simp only [Function.comp_apply, Option.map_map]
  rfl

theorem Jump.reports_moved {nodes moved : List Node}
    (h : List.Forall₂ (Node.Moved move) nodes moved) :
    reports moved = (reports nodes).map (Report.moved move) := by
  have hids : (moved.map fun node => (node.id, ())) = nodes.map fun node => (node.id, ()) :=
    Script.map_of_moved (fun _ _ h => by rw [h.id]) h
  unfold reports
  dsimp only
  rw [hids, List.map_flatMap, List.flatMap_def, List.flatMap_def,
    Script.map_of_moved (fun _ _ h => reportsOf_moved h _) h]

namespace Script

variable {nodes moved : List Node}

theorem checkJumps_moved (h : List.Forall₂ (Node.Moved move) nodes moved) (s : Session) :
    checkJumps moved (s.moved move) = (checkJumps nodes s).moved move := by
  have hoptions : (s.moved move).options = s.options := rfl
  rw [checkJumps, checkJumps, hoptions]
  split
  · rw [Jump.reports_moved h, Session.warnAll_moved]
  · rfl

/-- What follows once all nodes are read. -/
theorem finish_moved (h : List.Forall₂ (Node.Moved move) nodes moved) (s : Session) :
    checkJumps moved ((s.moved move).notice (.scriptRead moved.length (s.moved move).lineCount)) =
      (checkJumps nodes (s.notice (.scriptRead nodes.length s.lineCount))).moved move := by
  have hnotice : (s.moved move).notice (.scriptRead moved.length (s.moved move).lineCount) =
      (s.notice (.scriptRead nodes.length s.lineCount)).moved move := by
    rw [← h.length_eq]
    exact s.notice_moved move (.scriptRead nodes.length s.lineCount)
  rw [hnotice, checkJumps_moved h]

/-- **Runs are read alike** after their visible lines have moved. -/
theorem readNodes_moved {content padded : String} {runs others : List (List Numbered)}
    (hruns : List.Forall₂ (Document.ShowsMoved move) runs others)
    (hr : ∀ run ∈ runs, Document.IsNodeRun content run)
    (ho : ∀ run ∈ others, Document.IsNodeRun padded run) {done done' : List Node}
    (hdone : List.Forall₂ (Node.Moved move) done done') {starts starts' : Table Position}
    (hstarts : ∀ id : String, starts'[id]? = starts[id]?.map (Position.moved move)) (s : Session) :
    (∃ e t, readNodes done starts s (runs.map Block.ofRun) = (.error e, t) ∧
      readNodes done' starts' (s.moved move) (others.map Block.ofRun) =
        (.error (e.moved move), t.moved move)) ∨
    ∃ nodes nodes' t, readNodes done starts s (runs.map Block.ofRun) = (.ok nodes, t) ∧
      readNodes done' starts' (s.moved move) (others.map Block.ofRun) =
        (.ok nodes', t.moved move) ∧ List.Forall₂ (Node.Moved move) nodes nodes' := by
  induction hruns generalizing done done' starts starts' s with
  | nil => exact .inr ⟨_, _, s, rfl, rfl, List.rel_reverse hdone⟩
  | @cons run other runs others hrun _ ih =>
    obtain ⟨hone, hr⟩ := List.forall_mem_cons.mp hr
    obtain ⟨hother, ho⟩ := List.forall_mem_cons.mp ho
    rw [List.map_cons, List.map_cons, readNodes, readNodes, ← Document.readRun, ← Document.readRun]
    rcases Document.readRun_moved hone hother hrun s with
      ⟨e, t, hread, hmoved⟩ | ⟨node, node', t, hread, hmoved, hnode⟩
    · rw [hread, hmoved]
      exact .inl ⟨_, t, rfl, rfl⟩
    · rw [hread, hmoved]
      dsimp only
      rw [hnode.id, hstarts]
      cases hknown : starts[node.id]? with
      | some earlier =>
        rw [hnode.position]
        exact .inl ⟨_, t, rfl, rfl⟩
      | none =>
        refine ih hr ho (.cons hnode hdone) ?_ t
        intro id
        rw [Std.ExtTreeMap.getElem?_insert, Std.ExtTreeMap.getElem?_insert, hnode.position]
        split
        · rfl
        · exact hstarts id

/-- With idle lines among its lines, a document is refused or read alike. -/
theorem parseWith_moved {content padded : String} {options : Options}
    (h : Document.Padded (Text.lines content.toList) move (Text.lines padded.toList))
    (hsize : options.maxSize = none) :
    (∃ e, parseWith content options = .error e ∧
        parseWith padded options = .error (e.moved move)) ∨
      ∃ script moved, parseWith content options = .ok script ∧
        parseWith padded options = .ok moved ∧ script.Moved move moved ∧
        moved.log.sorted = script.log.sorted.map (Report.moved move) := by
  -- Without a limit both documents fit; with one, idle lines could make the second too large.
  have hfits : ∀ size limit : Nat, options.maxSize = some limit → size ≤ limit := by
    intro size limit hlimit
    rw [hsize] at hlimit
    cases hlimit
  have hstart : (Session.start options).moved move = .start options := by
    simp [Session.start, Session.moved, Log.empty, Log.moved]
  have hnone : ∀ id : String, (∅ : Table Position)[id]? =
      (∅ : Table Position)[id]?.map (Position.moved move) := by
    intro id
    simp
  rw [parseWith_fits (hfits _), parseWith_fits (hfits _)]
  rcases readNodes_moved (Document.nodeRuns_padded h) (fun _ => isNodeRun_of_mem)
    (fun _ => isNodeRun_of_mem) .nil hnone (.start options) with
    ⟨e, t, hread, hmoved⟩ | ⟨nodes, others, t, hread, hmoved, hnodes⟩
  · rw [hstart] at hmoved
    rw [hread, hmoved]
    exact .inl ⟨e, rfl, rfl⟩
  · rw [hstart] at hmoved
    rw [hread, hmoved]
    cases hnodes with
    | nil => exact .inl ⟨.empty, rfl, rfl⟩
    | @cons node other nodes others head tail =>
      have hall := List.Forall₂.cons head tail
      have hfinished := finish_moved hall t
      have hcast := congrArg Session.cast hfinished
      have hlog := congrArg Session.log hfinished
      refine .inr ⟨_, _, rfl, rfl,
        ⟨hall, nodePlaces_moved hall, linePlaces_moved hall, hcast, hlog⟩, ?_⟩
      dsimp only [ofNodes]
      rw [hlog]
      exact Log.sorted_moved h.strictMono _

/-- **Idle lines change nothing but positions**: with them among its lines, a document is refused
with the same error or read as the same script, and everything stands where its line stands now.  If
there are no more than `2 ^ 32` lines with them, the positions are those that 32 bits hold. -/
theorem parseWith_padded {content padded : String} {move : Nat → Nat} {options : Options}
    (h : Document.Padded (Text.lines content.toList) move (Text.lines padded.toList))
    (hsize : options.maxSize = none) :
    StrictMono move ∧
      (∀ i, (Text.lines padded.toList)[move i]? = (Text.lines content.toList)[i]?) ∧
      ((∃ e, parseWith content options = .error e ∧
          parseWith padded options = .error (e.moved move)) ∨
        ∃ script moved, parseWith content options = .ok script ∧
          parseWith padded options = .ok moved ∧ script.Moved move moved ∧
          moved.log.sorted = script.log.sorted.map (Report.moved move)) ∧
      ((Text.lines padded.toList).length ≤ UInt32.size →
        keptResult (parseWith content options) = parseWith content options ∧
          keptResult (parseWith padded options) = parseWith padded options) := by
  refine ⟨h.strictMono, h.getElem?, parseWith_moved h hsize, fun hlines => ?_⟩
  have hcontent := h.length_le.trans hlines
  rw [← Document.length_lines] at hlines hcontent
  exact ⟨keptResult_parseWith options hcontent, keptResult_parseWith options hlines⟩

/-- A document with a jump that leads nowhere. -/
def tightSample : String := "title: A\n---\n<<jump B>>\n===\n"

/-- The same document with a `===` line at the start, blank lines in the header and the content, and
two more `===` lines at the end, in front of the last line feed. -/
def looseSample : String := "===\ntitle: A\n\n---\n \t\r\n<<jump B>>\n===\n===\n=== \n"

theorem loose_padded :
    ∃ move : Nat → Nat, Document.Padded (Text.lines tightSample.toList) move
        (Text.lines looseSample.toList) ∧ move 2 = 5 := by
  have htight : Text.lines tightSample.toList =
      ["title: A", "---", "<<jump B>>", "===", ""].map String.toList := by decide +kernel
  have hloose : Text.lines looseSample.toList =
      ["===", "title: A", "", "---", " \t\r", "<<jump B>>", "===", "===", "=== ", ""].map
        String.toList := by decide +kernel
  have hend : Document.IsEnd "===".toList := by
    unfold Document.IsEnd
    decide
  have hspaced : Document.IsEnd "=== ".toList := by
    unfold Document.IsEnd
    decide
  have hnone : Document.Blanks [] := by simp [Document.Blanks]
  have hempty : Document.Blanks ["".toList] := List.forall_mem_singleton.mpr rfl
  have hfirst := @Document.Padded.insert _ _ []
    (["title: A", "---", "<<jump B>>", "===", ""].map String.toList) _ .same (.first hend hnone)
  have hheader := @Document.Padded.insert _ _ (["===", "title: A"].map String.toList)
    (["---", "<<jump B>>", "===", ""].map String.toList) "".toList hfirst (.blank (by decide))
  have hcontent := @Document.Padded.insert _ _ (["===", "title: A", "", "---"].map String.toList)
    (["<<jump B>>", "===", ""].map String.toList) " \t\r".toList hheader (.blank (by decide))
  have hbelow := @Document.Padded.insert _ _
    (["===", "title: A", "", "---", " \t\r", "<<jump B>>"].map String.toList ++ ["===".toList])
    ["".toList] _ hcontent (.below hend hend hnone)
  have hlast := @Document.Padded.insert _ _
    (["===", "title: A", "", "---", " \t\r", "<<jump B>>", "===", "==="].map String.toList)
    ["".toList] _ hbelow (.last hspaced hempty)
  rw [htight, hloose]
  exact ⟨_, hlast, rfl⟩

theorem parseWith_padded_sample :
    ∃ move script moved,
      Document.Padded (Text.lines tightSample.toList) move (Text.lines looseSample.toList) ∧
      parseWith tightSample { maxSize := none } = .ok script ∧
      parseWith looseSample { maxSize := none } = .ok moved ∧ script.Moved move moved ∧
      script.log.reports.toList = [⟨.unknownJumpTarget "B" "A", ⟨2⟩⟩] ∧ move 2 = 5 := by
  have hcheck : (parseWith tightSample { maxSize := none }).toOption.any (fun script => decide
      (script.log.reports.toList = [⟨.unknownJumpTarget "B" "A", ⟨2⟩⟩])) = true := by
    decide +kernel
  obtain ⟨script, h, hlog⟩ := exists_parseWith hcheck
  obtain ⟨move, hpadded, hmove⟩ := loose_padded
  have hfree : ({ maxSize := none } : Options).maxSize = none := rfl
  rcases (parseWith_padded hpadded hfree).2.2.1 with
    ⟨e, herror, -⟩ | ⟨read, moved, hread, hmoved, hsame, -⟩
  · rw [h] at herror
    cases herror
  · rw [h] at hread
    cases hread
    exact ⟨move, script, moved, hpadded, h, hmoved, hsame, of_decide_eq_true hlog, hmove⟩

end Script

end Parley
