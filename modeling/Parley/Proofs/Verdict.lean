import Parley.Proofs.Bounds
import Parley.Proofs.Header

/-!
# Which documents are scripts

A document is a script if it is not too large, has a node, and every run of lines that is not all
blank is fine behind the runs before it (`Document.Fine`).  Otherwise it is refused for the first
run that is not, and for the first thing that is wrong with that run: its header, then its lines in
their order, then that it has none, then its title (`Document.Fails`).

Runs and lines are read in one session, so being fine depends on what stands before.  All that
matters of it are the texts of the lines (`Session.Told`) and the titles.

* `Node.readLines_append`, `Script.readNodes_append` — lines and runs that are fine are read, and
  then what stands behind them.
* `Node.readLines_stops`, `Script.readNodes_stops` — the first one that is not fine stops the
  reading.
* `Script.accepted_or_refused` — a document is accepted, or there is a reason to refuse it.
* `Script.keptResult_parseWith` — the positions in a script or an error fit into 32 bits if the
  number of lines does.
* `Script.parseWith_verdict` — a document is read exactly if it is accepted, and refused exactly for
  the reason that there is.
-/

namespace Parley

/-! ## Runs -/

namespace Document

/-- The lines of a run that are lines of its node. -/
def contentLines (run : List Numbered) : List Numbered := (below run).filter visible

/-- The texts of the lines of some runs. -/
def contents (runs : List (List Numbered)) : List (List Char) :=
  runs.flatMap fun run => (contentLines run).map Prod.fst

/-- Where the node of a run begins. -/
def start (run : List Numbered) : Position := ⟨((run.find? visible).map Prod.snd).getD 0⟩

/-- The id of the node of a run, if it has a title. -/
def nodeId? (run : List Numbered) : Option String := (title? run).map idOf

/-- A line is fine behind lines of earlier runs and of its own run. -/
def LineFine (earlier : List (List Char)) (told : List Numbered) (l : Numbered) : Prop :=
  Line.Fine (earlier ++ told.map Prod.fst) l.1

/-- Nothing is wrong with a run that stands behind others. -/
structure Fine (before : List (List Numbered)) (run : List Numbered) : Prop where
  headed : ∃ title, Headed run title
  lines : Passes (LineFine (contents before)) (contentLines run)
  nonempty : contentLines run ≠ []
  fresh : ∀ earlier ∈ before, nodeId? earlier ≠ nodeId? run

/-- What is wrong with a run that stands behind others, in the order in which it is noticed. -/
inductive Fails (before : List (List Numbered)) (run : List Numbered) : ScriptError → Prop
  | header {fault : NodeFault} (fails : HeaderFails run fault) :
      Fails before run (.node ⟨start run, fault⟩)
  | line {title : List Char} {told : List Numbered} {l : Numbered} {fault : LineFault}
      (headed : Headed run title)
      (first : Stops (LineFine (contents before)) (contentLines run) told l)
      (fails : Line.Fails (contents before ++ told.map Prod.fst) l.1 fault) :
      Fails before run (.node ⟨start run, .line ⟨String.ofList l.1, fault, ⟨l.2⟩⟩⟩)
  | empty {title : List Char} (headed : Headed run title) (none : contentLines run = []) :
      Fails before run (.node ⟨start run, .empty (idOf title)⟩)
  | title {title : List Char} {earlier : List Numbered} (headed : Headed run title)
      (lines : Passes (LineFine (contents before)) (contentLines run))
      (nonempty : contentLines run ≠ []) (mem : earlier ∈ before)
      (same : nodeId? earlier = nodeId? run) :
      Fails before run (.duplicateNode (idOf title) (start run) (start earlier))

theorem contents_concat (before : List (List Numbered)) (run : List Numbered) :
    contents (before ++ [run]) = contents before ++ (contentLines run).map Prod.fst := by
  simp [contents]

/-- **A run is fine, or something is wrong with it.** -/
theorem fine_or_fails (before : List (List Numbered)) (run : List Numbered) :
    Fine before run ∨ ∃ e, Fails before run e := by
  rcases headed_or_fails run with ⟨title, hheaded⟩ | ⟨fault, hfails⟩
  · rcases passes_or_stops (LineFine (contents before)) (contentLines run) with
      hlines | ⟨told, l, hstop⟩
    · by_cases hnone : contentLines run = []
      · exact .inr ⟨_, .empty hheaded hnone⟩
      · by_cases hfresh : ∀ earlier ∈ before, nodeId? earlier ≠ nodeId? run
        · exact .inl ⟨⟨title, hheaded⟩, hlines, hnone, hfresh⟩
        · push Not at hfresh
          obtain ⟨earlier, hmem, hsame⟩ := hfresh
          exact .inr ⟨_, .title hheaded hlines hnone hmem hsame⟩
    · rcases Line.fine_or_fails (contents before ++ told.map Prod.fst) l.1 with
        hfine | ⟨fault, hfails⟩
      · exact absurd hfine hstop.bad
      · exact .inr ⟨_, .line hheaded hstop hfails⟩
  · exact .inr ⟨_, .header hfails⟩

theorem position_ofRun (run : List Numbered) : (Block.ofRun run).position = start run := by
  rw [start, List.find?_eq_head?_dropWhile_not]
  rfl

/-! ### Positions in errors -/

theorem exists_find?_visible {run : List Numbered} (h : run.any visible = true) :
    ∃ l, run.find? visible = some l := by
  rw [← Option.isSome_iff_exists, List.find?_isSome]
  exact List.any_eq_true.mp h

theorem start_mem {run : List Numbered} (h : run.any visible = true) :
    (start run).index ∈ run.map Prod.snd := by
  obtain ⟨l, hl⟩ := exists_find?_visible h
  rw [start, hl]
  exact List.mem_map_of_mem (List.mem_of_find?_eq_some hl)

theorem HeaderFails.positions {run : List Numbered} {fault : NodeFault}
    (h : HeaderFails run fault) : ∀ p ∈ fault.positions, p.index ∈ run.map Prod.snd := by
  cases h with
  | @field before l first =>
    intro p hp
    cases List.mem_singleton.mp hp
    have hl : l ∈ fieldLines run := first.place.subset (by simp)
    exact List.mem_map_of_mem ((List.takeWhile_prefix _).subset (List.mem_filter.mp hl).1)
  | title fields missing => simp [NodeFault.positions]

/-- The positions in an error are numbers of lines of the run at fault, or of a run before it. -/
theorem Fails.positions {before : List (List Numbered)} {run : List Numbered} {e : ScriptError}
    (h : Fails before run e) (hvisible : ∀ r ∈ before ++ [run], r.any visible = true) :
    ∀ p ∈ e.positions, ∃ r ∈ before ++ [run], p.index ∈ r.map Prod.snd := by
  have hrun : run ∈ before ++ [run] := by simp
  have hstart := start_mem (hvisible run hrun)
  cases h with
  | header fails =>
    exact List.forall_mem_cons.mpr
      ⟨⟨run, hrun, hstart⟩, fun p hp => ⟨run, hrun, fails.positions p hp⟩⟩
  | @line title told l fault headed first fails =>
    have hl : l ∈ contentLines run := first.place.subset (by simp)
    have hbelow := List.mem_of_mem_tail (List.mem_filter.mp hl).1
    have hmem : l.2 ∈ run.map Prod.snd :=
      List.mem_map_of_mem ((List.dropWhile_suffix _).subset hbelow)
    exact List.forall_mem_cons.mpr
      ⟨⟨run, hrun, hstart⟩, List.forall_mem_singleton.mpr ⟨run, hrun, hmem⟩⟩
  | empty headed none => exact List.forall_mem_singleton.mpr ⟨run, hrun, hstart⟩
  | @title title earlier headed lines nonempty mem same =>
    have hearlier : earlier ∈ before ++ [run] := List.mem_append_left _ mem
    exact List.forall_mem_cons.mpr ⟨⟨run, hrun, hstart⟩,
      List.forall_mem_singleton.mpr ⟨earlier, hearlier, start_mem (hvisible earlier hearlier)⟩⟩

end Document

open Document

/-! ## Reading the lines of a run -/

namespace Node

variable {earlier : List (List Char)} {ls told : List Numbered} {l : Numbered} {s : Session}
  {fault : LineFault}

/-- Lines that are fine are read, and then the lines behind them. -/
theorem readLines_append (h : Passes (LineFine earlier) ls) (hs : s.Told earlier)
    (node : String) :
    ∃ done t, (∀ more, readLines node [] s (ls.map Numbered.located ++ more) =
        readLines node done t more) ∧
      done.length = ls.length ∧ t.Told (earlier ++ ls.map Prod.fst) := by
  induction ls using List.reverseRecOn with
  | nil => exact ⟨[], s, fun _ => rfl, rfl, by simpa using hs⟩
  | append_singleton ls l ih =>
    obtain ⟨hls, hl⟩ := passes_concat.mp h
    obtain ⟨done, t, hrest, hlength, ht⟩ := ih hls
    obtain ⟨line, u, hread, -, hu⟩ := Line.Fine.read hl ht node ⟨l.2⟩
    refine ⟨line :: done, u, fun more => ?_, by simp [hlength], ?_⟩
    · rw [List.map_append, List.append_assoc, hrest, List.map_singleton, List.singleton_append,
        readLines, Numbered.located, hread]
    · rw [List.map_append, ← List.append_assoc]
      exact hu

/-- **The first line that is not fine** stops the reading. -/
theorem readLines_stops (h : Stops (LineFine earlier) ls told l)
    (hfails : Line.Fails (earlier ++ told.map Prod.fst) l.1 fault) (hs : s.Told earlier)
    (node : String) :
    ∃ t, readLines node [] s (ls.map Numbered.located) =
      (.error ⟨String.ofList l.1, fault, ⟨l.2⟩⟩, t) := by
  obtain ⟨after, rfl⟩ := h.place
  obtain ⟨done, t, hrest, -, ht⟩ := readLines_append h.passed hs node
  obtain ⟨u, hread⟩ := hfails.read ht node ⟨l.2⟩
  refine ⟨u, ?_⟩
  rw [List.append_assoc, List.map_append, hrest, List.singleton_append, List.map_cons, readLines,
    Numbered.located, hread]

end Node

/-! ## Reading a run -/

namespace Document

variable {content : String} {before : List (List Numbered)} {run : List Numbered}
  {title : List Char} {s : Session}

/-- A run of a document that shows something. -/
abbrev IsNodeRun (content : String) (run : List Numbered) : Prop :=
  run ∈ runs content ∧ run.any visible = true

/-- Reads the node of a run. -/
def readRun (run : List Numbered) (s : Session) : Except NodeError Node × Session :=
  Node.read (Block.ofRun run).text (Block.ofRun run).position s

/-- What becomes of a run when its lines have been read. -/
def finish (run : List Numbered) (title : List Char) (fields : List (String × Value)) :
    Except LineError (List Line) → Except NodeError Node
  | .error e => .error ⟨start run, .line e⟩
  | .ok [] => .error ⟨start run, .empty (idOf title)⟩
  | .ok (line :: lines) =>
    let linked := Outline.ofLines (line :: lines)
    .ok ⟨idOf title, fields, linked, Node.indexOf linked.toList,
      String.ofList (Block.ofRun run).text, start run⟩

/-- The lines of the node of a run are the visible lines below the first `---`. -/
theorem bodyOf_trimmed (h : IsNodeRun content run) :
    Node.bodyOf ((trimmed run).map Numbered.located) =
      (contentLines run).map Numbered.located := by
  have hends : ∀ l ∈ trimmed run, shows "===" l = false :=
    fun l hl => (run_eq_zipIdx h.1).2 l ((List.dropWhile_suffix _).subset hl)
  rw [bodyOf_map hends, (above_below_trimmed run).2, contentLines]

/-- Once its header is read, a run is read line by line. -/
theorem Headed.readRun (h : Headed run title) (hr : IsNodeRun content run) {s t : Session}
    {result : Except LineError (List Line)}
    (hl : Node.readLines (idOf title) [] (s.notice (.nodeBegun (start run) (idOf title)))
      ((contentLines run).map Numbered.located) = (result, t)) :
    ∃ fields, Document.readRun run s = (finish run title fields result, t) := by
  obtain ⟨fields, hfields, htitle⟩ := h.readFields
  have hlines := located_ofRun hr.1 hr.2
  have hbody := bodyOf_trimmed hr
  rw [← hlines, position_ofRun] at hfields hbody
  unfold Node.headerOf at hfields
  unfold Node.bodyOf at hbody
  refine ⟨fields, ?_⟩
  rw [Document.readRun, position_ofRun]
  simp only [Node.read, hfields, htitle, hbody, hl]
  cases result with
  | error e => rfl
  | ok lines => cases lines <;> rfl

/-- **A run that is fine is read**, and the session then keeps its lines too. -/
theorem exists_readRun (h : Headed run title) (hr : IsNodeRun content run)
    (hlines : Passes (LineFine (contents before)) (contentLines run))
    (hne : contentLines run ≠ []) (hs : s.Told (contents before)) :
    ∃ node t, readRun run s = (.ok node, t) ∧ node.id = idOf title ∧ node.position = start run ∧
      t.Told (contents (before ++ [run])) := by
  obtain ⟨done, t, hrest, hlength, ht⟩ :=
    Node.readLines_append hlines (hs.notice (.nodeBegun (start run) (idOf title))) (idOf title)
  have hall := hrest []
  rw [List.append_nil, Node.readLines] at hall
  obtain ⟨line, lines, hdone⟩ := exists_cons_reverse hlength hne
  rw [hdone] at hall
  obtain ⟨fields, hread⟩ := h.readRun hr hall
  exact ⟨_, t, hread, rfl, rfl, by rwa [contents_concat]⟩

/-- A run that is not fine is refused for its header or its lines. -/
theorem readRun_stops {e : NodeError} (h : Fails before run (.node e))
    (hr : IsNodeRun content run) (hs : s.Told (contents before)) :
    ∃ t, readRun run s = (.error e, t) := by
  generalize he : ScriptError.node e = error at h
  cases h with
  | header fails =>
    cases he
    refine ⟨s, ?_⟩
    rw [readRun, position_ofRun]
    exact fails.read (position_ofRun run ▸ located_ofRun hr.1 hr.2) s
  | @line title told l fault headed first fails =>
    cases he
    obtain ⟨t, ht⟩ := Node.readLines_stops first fails
      (hs.notice (.nodeBegun (start run) (idOf title))) (idOf title)
    obtain ⟨fields, hread⟩ := headed.readRun hr ht
    exact ⟨t, hread⟩
  | @empty title headed none =>
    cases he
    have hnone : Node.readLines (idOf title) [] (s.notice (.nodeBegun (start run) (idOf title)))
        ((contentLines run).map Numbered.located) =
          (.ok [], s.notice (.nodeBegun (start run) (idOf title))) := by
      rw [none]
      rfl
    obtain ⟨fields, hread⟩ := headed.readRun hr hnone
    exact ⟨_, hread⟩
  | title => cases he

end Document

/-! ## Reading the runs of a document -/

namespace Script

variable {content : String} {options : Options} {before kept : List (List Numbered)}
  {run : List Numbered} {e : ScriptError}

/-- The places where the nodes of runs begin, by their ids. -/
def Starts (starts : Table Position) (before : List (List Numbered)) : Prop :=
  ∀ id position, starts[id]? = some position ↔
    ∃ run ∈ before, nodeId? run = some id ∧ start run = position

theorem starts_nil : Starts ∅ [] := by
  intro id position
  simp

theorem Starts.concat {starts : Table Position} {id : String} (h : Starts starts before)
    (hid : nodeId? run = some id) (hfresh : ∀ earlier ∈ before, nodeId? earlier ≠ nodeId? run) :
    Starts (starts.insert id (start run)) (before ++ [run]) := by
  intro other position
  rw [Std.ExtTreeMap.getElem?_insert]
  simp only [Std.LawfulEqCmp.compare_eq_iff_eq, List.mem_append, List.mem_singleton]
  split
  · next he =>
    subst he
    constructor
    · rintro ⟨⟩
      exact ⟨run, .inr rfl, hid, rfl⟩
    · rintro ⟨other, hm | rfl, hother, rfl⟩
      · exact absurd (hother.trans hid.symm) (hfresh other hm)
      · rfl
  · next hne =>
    rw [h]
    constructor
    · rintro ⟨run, hm, hrun⟩
      exact ⟨run, .inl hm, hrun⟩
    · rintro ⟨other, hm | rfl, hother, hposition⟩
      · exact ⟨other, hm, hother, hposition⟩
      · rw [hid] at hother
        cases hother
        exact absurd rfl hne

/-- Runs that are fine are read, and then the runs behind them. -/
theorem readNodes_append (h : Passes Fine kept) (hr : ∀ run ∈ kept, IsNodeRun content run)
    (options : Options) :
    ∃ done starts t, (∀ more, readNodes [] ∅ (.start options) (kept.map Block.ofRun ++ more) =
        readNodes done starts t more) ∧
      done.length = kept.length ∧ Starts starts kept ∧ t.Told (contents kept) := by
  induction kept using List.reverseRecOn with
  | nil => exact ⟨[], ∅, _, fun _ => rfl, rfl, starts_nil, Session.told_start options⟩
  | append_singleton kept run ih =>
    obtain ⟨hkept, hfine⟩ := passes_concat.mp h
    obtain ⟨done, starts, t, hrest, hlength, hstarts, ht⟩ :=
      ih hkept fun run hm => hr run (List.mem_append_left _ hm)
    obtain ⟨title, hheaded⟩ := hfine.headed
    obtain ⟨node, u, hread, hid, hposition, hu⟩ :=
      exists_readRun hheaded (hr run (by simp)) hfine.lines hfine.nonempty ht
    have hnode : nodeId? run = some node.id := by rw [nodeId?, hheaded.given, hid, Option.map_some]
    have hnew : starts[node.id]? = none := by
      rw [Option.eq_none_iff_forall_ne_some]
      intro position hp
      obtain ⟨earlier, hm, hsame, -⟩ := (hstarts _ _).mp hp
      exact hfine.fresh earlier hm (hsame.trans hnode.symm)
    refine ⟨node :: done, starts.insert node.id node.position, u, fun more => ?_,
      by simp [hlength], ?_, hu⟩
    · rw [List.map_append, List.append_assoc, hrest, List.map_singleton, List.singleton_append,
        readNodes, ← readRun, hread]
      simp only [hnew]
    · rw [hposition]
      exact hstarts.concat hnode hfine.fresh

/-- **The first run that is not fine** stops the reading. -/
theorem readNodes_stops (h : Stops Fine kept before run) (hfails : Fails before run e)
    (hr : ∀ run ∈ kept, IsNodeRun content run) (options : Options) :
    ∃ t, readNodes [] ∅ (.start options) (kept.map Block.ofRun) = (.error e, t) := by
  obtain ⟨after, rfl⟩ := h.place
  have hbefore : ∀ run ∈ before, IsNodeRun content run := fun run hm => hr run (by simp [hm])
  have hrun : IsNodeRun content run := hr run (by simp)
  obtain ⟨done, starts, t, hrest, -, hstarts, ht⟩ := readNodes_append h.passed hbefore options
  rw [List.append_assoc, List.map_append, hrest, List.singleton_append, List.map_cons, readNodes]
  cases he : e with
  | node error =>
    subst he
    obtain ⟨u, hread⟩ := readRun_stops hfails hrun ht
    exact ⟨u, by rw [← readRun, hread]⟩
  | duplicateNode id position earlier =>
    subst he
    cases hfails with
    | @title title earlier headed lines nonempty mem same =>
      obtain ⟨node, u, hread, hid, hposition, -⟩ := exists_readRun headed hrun lines nonempty ht
      have hstart : starts[node.id]? = some (start earlier) := by
        refine (hstarts _ _).mpr ⟨earlier, mem, ?_, rfl⟩
        rw [same, nodeId?, headed.given, hid, Option.map_some]
      refine ⟨u, ?_⟩
      rw [← readRun, hread]
      simp only [hstart]
      rw [hid, hposition]
  | empty =>
    subst he
    cases hfails
  | tooLarge =>
    subst he
    cases hfails

/-! ## The verdict on a document -/

/-- Nothing is wrong with a document. -/
structure Accepted (content : String) (options : Options) : Prop where
  fits : ∀ limit, options.maxSize = some limit → content.utf8ByteSize ≤ limit
  nonempty : nodeRuns content ≠ []
  fine : Passes Fine (nodeRuns content)

/-- What is wrong with a document. -/
inductive Refused (content : String) (options : Options) : ScriptError → Prop
  | tooLarge {limit : Nat} (limited : options.maxSize = some limit)
      (large : limit < content.utf8ByteSize) :
      Refused content options (.tooLarge content.utf8ByteSize limit)
  | empty (fits : ∀ limit, options.maxSize = some limit → content.utf8ByteSize ≤ limit)
      (none : nodeRuns content = []) : Refused content options .empty
  | run {before : List (List Numbered)} {run : List Numbered} {e : ScriptError}
      (fits : ∀ limit, options.maxSize = some limit → content.utf8ByteSize ≤ limit)
      (first : Stops Fine (nodeRuns content) before run) (fails : Fails before run e) :
      Refused content options e

/-- **A document is accepted, or there is a reason to refuse it.** -/
theorem accepted_or_refused (content : String) (options : Options) :
    Accepted content options ∨ ∃ e, Refused content options e := by
  by_cases hfits : ∀ limit, options.maxSize = some limit → content.utf8ByteSize ≤ limit
  · by_cases hnone : nodeRuns content = []
    · exact .inr ⟨_, .empty hfits hnone⟩
    · rcases passes_or_stops Fine (nodeRuns content) with hpass | ⟨before, run, hstop⟩
      · exact .inl ⟨hfits, hnone, hpass⟩
      · rcases fine_or_fails before run with hfine | ⟨e, hfails⟩
        · exact absurd hfine hstop.bad
        · exact .inr ⟨e, .run hfits hstop hfails⟩
  · push Not at hfits
    obtain ⟨limit, hlimit, hlarge⟩ := hfits
    exact .inr ⟨_, .tooLarge hlimit hlarge⟩

theorem isNodeRun_of_mem (h : run ∈ nodeRuns content) : IsNodeRun content run :=
  List.mem_filter.mp h

/-- A document that fits is read run by run. -/
theorem parseWith_fits
    (h : ∀ limit, options.maxSize = some limit → content.utf8ByteSize ≤ limit) :
    parseWith content options =
      match readNodes [] ∅ (.start options) ((nodeRuns content).map Block.ofRun) with
      | (.error e, _) => .error e
      | (.ok [], _) => .error .empty
      | (.ok (node :: nodes), s) =>
        let t := checkJumps (node :: nodes)
          (s.notice (.scriptRead (node :: nodes).length s.lineCount))
        .ok (ofNodes (node :: nodes) t.cast t.log content) := by
  have hsize : sizeError? content.utf8ByteSize options.maxSize = none := by
    cases hm : options.maxSize with
    | none => rfl
    | some limit => exact if_neg (Nat.not_lt.mpr (h limit hm))
  rw [← blocksOf_eq, blocksOf, parseWith, read, hsize]
  dsimp only
  generalize readNodes [] ∅ (.start options)
    (Block.ofDocument (content.toList.filter (· != '\r'))) = outcome
  obtain ⟨result, s⟩ := outcome
  cases result with
  | error e => rfl
  | ok nodes => cases nodes <;> rfl

/-- A document that is accepted is read. -/
theorem Accepted.parseWith (h : Accepted content options) :
    ∃ script, Script.parseWith content options = .ok script := by
  obtain ⟨done, starts, t, hrest, hlength, -, -⟩ :=
    readNodes_append h.fine (fun _ => isNodeRun_of_mem) options
  have hall := hrest []
  rw [List.append_nil, readNodes] at hall
  obtain ⟨node, nodes, hdone⟩ := exists_cons_reverse hlength h.nonempty
  rw [hdone] at hall
  exact ⟨_, by rw [parseWith_fits h.fits, hall]⟩

/-- A document that there is a reason to refuse is refused for that reason. -/
theorem Refused.parseWith (h : Refused content options e) :
    Script.parseWith content options = .error e := by
  cases h with
  | tooLarge limited large => exact parseWith_tooLarge limited large
  | empty fits none => rw [parseWith_fits fits, none, List.map_nil, readNodes, List.reverse_nil]
  | run fits first fails =>
    obtain ⟨t, ht⟩ := readNodes_stops first fails (fun _ => isNodeRun_of_mem) options
    rw [parseWith_fits fits, ht]

/-- A document that is refused was refused for the reason that there is. -/
theorem refused_of_parseWith {e : ScriptError} (h : Script.parseWith content options = .error e) :
    Refused content options e := by
  rcases accepted_or_refused content options with haccepted | ⟨other, hrefused⟩
  · obtain ⟨script, hok⟩ := haccepted.parseWith
    rw [h] at hok
    cases hok
  · have := hrefused.parseWith
    rw [h] at this
    cases this
    exact hrefused

/-- A document that is read is accepted. -/
theorem accepted_of_parseWith {script : Script}
    (h : Script.parseWith content options = .ok script) : Accepted content options := by
  rcases accepted_or_refused content options with haccepted | ⟨e, hrefused⟩
  · exact haccepted
  · have := hrefused.parseWith
    rw [h] at this
    cases this

/-- The positions in an error are numbers of lines of the document. -/
theorem Refused.positions_lt {e : ScriptError} (h : Refused content options e) :
    ∀ p ∈ e.positions, p.index < (Document.lines content).length := by
  cases h with
  | tooLarge limited large => simp [ScriptError.positions]
  | empty fits none => simp [ScriptError.positions]
  | @run before run e fits first fails =>
    have hplace : ∀ r ∈ before ++ [run], r ∈ nodeRuns content := fun r hr => first.place.subset hr
    intro p hp
    obtain ⟨r, hr, hmem⟩ :=
      fails.positions (fun r hr => (isNodeRun_of_mem (hplace r hr)).2) p hp
    exact Document.number_lt (isNodeRun_of_mem (hplace r hr)).1 hmem

/-- **Positions fit into 32 bits** in a document that has no more than `2 ^ 32` lines, whether it is
read or refused. -/
theorem keptResult_parseWith (options : Options)
    (hlines : (Document.lines content).length ≤ UInt32.size) :
    keptResult (parseWith content options) = parseWith content options := by
  cases h : parseWith content options with
  | error e =>
    have hlt := (refused_of_parseWith h).positions_lt
    exact congrArg Except.error
      (ScriptError.kept_eq fun p hp => Nat.lt_of_lt_of_le (hlt p hp) hlines)
  | ok script => exact congrArg Except.ok (kept_of_parseWith h hlines)

/-- **The verdict on a document**: it is read exactly if nothing is wrong with it, and otherwise
refused exactly for the first thing that is wrong.  If it has no more than `2 ^ 32` lines, the
positions in the result are those that 32 bits hold. -/
theorem parseWith_verdict (content : String) (options : Options) :
    ((∃ script, parseWith content options = .ok script) ↔ Accepted content options) ∧
      (∀ e, parseWith content options = .error e ↔ Refused content options e) ∧
      ((Document.lines content).length ≤ UInt32.size →
        keptResult (parseWith content options) = parseWith content options) := by
  refine ⟨⟨?_, Accepted.parseWith⟩, ?_, keptResult_parseWith options⟩
  · rintro ⟨script, hok⟩
    exact accepted_of_parseWith hok
  · intro e
    exact ⟨refused_of_parseWith, Refused.parseWith⟩

end Script

end Parley
