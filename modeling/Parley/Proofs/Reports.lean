import Parley.Proofs.Lookup
import Parley.Proofs.Pieces

/-!
# What the log of a script says

Two passes make reports.  While the lines are read, a command is reported whose parameters end
inside a quotation; once all nodes are there, a jump is reported that names no node, or none of the
script.  So the log is first the one list and then the other, each in the order of the document, and
it can be told from the nodes alone (`Script.quoteReports`, `Script.jumpReports`).  It is shown in
the order of positions, where the reports on one line stay in the order of the log.

* `Log.sorted_filter` — showing the log keeps the order of the reports on one line.
* `Session.Adds` — what a step adds to the log, with one lemma per step of reading a line.
* `Jump.reports_eq` — the reports on jumps, told from the nodes.
* `Script.readNodes_asking` — nothing but these reports depends on whether jumps are checked.
* `Script.parseWith_reports` — the log of every script that can be read is exact.
-/

namespace Parley

/-! ## Open quotations -/

namespace Command

/-- The quote mark that is open behind one more character. -/
def nextMark (mark : Option Char) (c : Char) : Option Char :=
  match mark with
  | none => if isQuote c then some c else none
  | some m => if c = m then none else some m

/-- Whether the text of a command ends inside a quotation among its parameters. -/
def endsOpen (command : Command) : Bool :=
  match Text.between? opening closing (Text.trim command.source.toList) with
  | none => false
  | some inner => ((Text.afterFirstWord inner).foldl nextMark none).isSome

theorem openQuote_foldl (s : Splitting) (cs : List Char) :
    (cs.foldl Splitting.step s).openQuote = cs.foldl nextMark s.openQuote := by
  induction cs generalizing s with
  | nil => rfl
  | cons c cs ih =>
    rw [List.foldl_cons, List.foldl_cons, ih]
    congr 1
    cases hmark : s.openQuote with
    | none =>
      simp only [Splitting.step, nextMark, hmark]
      split
      · rfl
      · split <;> simp_all
    | some mark =>
      simp only [Splitting.step, nextMark, hmark]
      split <;> simp_all

theorem isSome_openQuote {content : List Char} {command : Command} {openQuote : Option Char}
    (h : read content = .ok (command, openQuote)) : openQuote.isSome = command.endsOpen := by
  have hsource := read_source h
  simp only [read] at h
  split at h
  · cases h
  · next inner hinner =>
    split at h
    · cases h
    · cases h
      rw [endsOpen, hsource, String.toList_ofList, hinner]
      exact congrArg Option.isSome (openQuote_foldl Splitting.start _)

end Command

/-! ## The reports of a script -/

namespace Line

/-- The reports on quotations of a line that are never closed. -/
def quoteReports (line : Line) : List Report :=
  (line.commands.filter Command.endsOpen).map fun command =>
    ⟨.unterminatedQuote command.source, line.position⟩

/-- The reports on jumps of a line, in a node of a script with some node ids. -/
def jumpReports (ids : List String) (node : String) (line : Line) : List Report :=
  (line.commands.filter fun command => command.name == "jump").filterMap fun command =>
    match command.parameters with
    | [] => some ⟨.jumpWithoutTarget node, line.position⟩
    | target :: _ =>
      if target.display ∈ ids then none
      else some ⟨.unknownJumpTarget target.display node, line.position⟩

end Line

namespace Script

/-- The reports on quotations that are never closed, in the order of the document. -/
def quoteReports (nodes : List Node) : List Report :=
  nodes.flatMap fun node => node.lines.toList.flatMap Line.quoteReports

/-- The reports on jumps that lead nowhere, in the order of the document. -/
def jumpReports (nodes : List Node) : List Report :=
  nodes.flatMap fun node =>
    node.lines.toList.flatMap (Line.jumpReports (nodes.map Node.id) node.id)

end Script

/-! ## Showing the log -/

namespace Log

/-- The reports on one line of the document. -/
def onLine (index : Nat) (reports : List Report) : List Report :=
  reports.filter fun r => r.position.index == index

/-- **The reports on one line** are shown in the order of the log. -/
theorem sorted_filter (log : Log) (index : Nat) :
    onLine index log.sorted = onLine index log.reports.toList := by
  have trans : ∀ a b c : Report, upTo a b = true → upTo b c = true → upTo a c = true := by
    simp only [upTo, decide_eq_true_eq]
    omega
  have total : ∀ a b : Report, (upTo a b || upTo b a) = true := by
    simp only [upTo, Bool.or_eq_true, decide_eq_true_eq]
    omega
  have hordered : (onLine index log.reports.toList).Pairwise fun a b => upTo a b = true := by
    refine List.pairwise_of_forall_mem_list ?_
    intro a ha b hb
    simp only [onLine, List.mem_filter, beq_iff_eq] at ha hb
    simp [upTo, ha.2, hb.2]
  have hsub : (onLine index log.reports.toList).Sublist log.sorted :=
    List.sublist_mergeSort trans total hordered List.filter_sublist
  have hfilter : (onLine index log.reports.toList).Sublist (onLine index log.sorted) := by
    have := hsub.filter fun r => r.position.index == index
    simpa [onLine] using this
  exact (hfilter.eq_of_length ((log.sorted_perm.filter _).length_eq).symm).symm

end Log

/-! ## What reading adds to the log -/

namespace Session

/-- Between two sessions, reports were added to the log, and the settings are the same. -/
structure Adds (s : Session) (reports : List Report) (t : Session) : Prop where
  options : t.options = s.options
  log : t.log.reports.toList = s.log.reports.toList ++ reports

namespace Adds

variable {s t u : Session} {reports more : List Report}

theorem trans (h : s.Adds reports t) (h' : t.Adds more u) : s.Adds (reports ++ more) u :=
  ⟨h'.options.trans h.options, by rw [h'.log, h.log, List.append_assoc]⟩

theorem silent (h : s.Adds reports t) (h' : t.Adds [] u) : s.Adds reports u := by
  simpa using h.trans h'

theorem none (ho : t.options = s.options) (hl : t.log = s.log) : s.Adds [] t :=
  ⟨ho, by rw [hl, List.append_nil]⟩

theorem notice (s : Session) (n : Notice) : s.Adds [] (s.notice n) := none rfl rfl

theorem warn (s : Session) (r : Report) : s.Adds [r] (s.warn r) :=
  ⟨rfl, by simp [Session.warn, Session.notice, Log.add]⟩

theorem warnAll (s : Session) (reports : List Report) :
    s.Adds reports (reports.foldl Session.warn s) := by
  induction reports generalizing s with
  | nil => exact none rfl rfl
  | cons r reports ih => exact (warn s r).trans (ih (s.warn r))

theorem speaker? (s : Session) (name? : Option String) : s.Adds [] (Line.speaker? s name?).2 := by
  cases name? with
  | none => exact none rfl rfl
  | some name =>
    simp only [Line.speaker?, Session.speaker]
    split <;> exact none rfl rfl

theorem noticeIdle (s : Session) (position : Position) (tags : List Tag) :
    s.Adds [] (Line.noticeIdle s position tags) := by
  unfold Line.noticeIdle
  induction Tag.idle tags generalizing s with
  | nil => exact none rfl rfl
  | cons tag tags ih => exact (notice s _).trans (ih _)

theorem identify (s : Session) (written : List Tag) :
    s.Adds [] (Line.identify s written).2.2 := by
  unfold Line.identify
  split <;> exact none rfl rfl

theorem register? {id node : String} (h : s.register? id node = some t) : s.Adds [] t := by
  unfold Session.register? at h
  split at h
  · cases h
  · cases h
    exact none rfl rfl

end Adds

end Session

open Session (Adds)

namespace Segment

/-- What deserves a warning about a segment. -/
def warning? (segment : Segment) : Option Warning :=
  segment.command?.bind fun command =>
    if command.endsOpen then some (.unterminatedQuote command.source) else none

theorem ofPart_warning {part : Part} {segment : Segment} {warning : Option Warning}
    (h : ofPart part = .ok (segment, warning)) : warning = segment.warning? := by
  cases part with
  | text cs =>
    simp only [ofPart] at h
    split at h <;> cases h
    rfl
  | command cs =>
    simp only [ofPart] at h
    split at h
    · next command openQuote hread =>
      cases h
      have hopen := Command.isSome_openQuote hread
      have hsource := Command.read_source hread
      cases openQuote <;> simp_all [warning?, command?]
    · cases h
  | var cs =>
    simp only [ofPart] at h
    split at h <;> cases h
    rfl

end Segment

namespace Line

theorem quoteReports_eq (line : Line) :
    line.quoteReports = (line.segments.filterMap Segment.warning?).map (⟨·, line.position⟩) := by
  unfold quoteReports commands
  induction line.segments with
  | nil => rfl
  | cons segment segments ih =>
    cases hc : segment.command? with
    | none => simp_all [Segment.warning?]
    | some command => cases ho : command.endsOpen <;> simp_all [Segment.warning?]

theorem readParts_adds {position : Position} {done segments : List Segment} {s t : Session}
    {parts : List Part} (h : readParts position done s parts = (.ok segments, t)) :
    ∃ new, segments = done.reverse ++ new ∧
      s.Adds ((new.filterMap Segment.warning?).map (⟨·, position⟩)) t := by
  induction parts generalizing done s with
  | nil =>
    cases h
    exact ⟨[], by simp, Adds.none rfl rfl⟩
  | cons part parts ih =>
    unfold readParts at h
    split at h
    · cases h
    · next segment hpart =>
      obtain ⟨new, rfl, hadds⟩ := ih h
      have hnone := Segment.ofPart_warning hpart
      refine ⟨segment :: new, by simp, ?_⟩
      rwa [List.filterMap_cons_none hnone.symm]
    · next segment warning hpart =>
      obtain ⟨new, rfl, hadds⟩ := ih h
      have hsome := Segment.ofPart_warning hpart
      refine ⟨segment :: new, by simp, ?_⟩
      rw [List.filterMap_cons_some hsome.symm]
      exact (Adds.warn s _).trans hadds

/-- **Reading a line** reports the quotations in it that are never closed. -/
theorem read_adds {content : List Char} {node : String} {position : Position} {s t : Session}
    {line : Line} (h : read content node position s = (.ok line, t)) :
    s.Adds line.quoteReports t := by
  obtain ⟨segments, id, tags, u, v, w, hp, hi, hr, rfl, rfl⟩ := read_ok h
  obtain ⟨new, hnew, hparts⟩ := readParts_adds hp
  rw [List.reverse_nil, List.nil_append] at hnew
  subst hnew
  have hidentify := Adds.identify (noticeIdle u position
    (Layout.read s.options.tabWidth content).tags) (Layout.read s.options.tabWidth content).tags
  rw [hi] at hidentify
  have hv := (((Adds.speaker? s _).trans hparts).silent (Adds.noticeIdle u position _)).silent
    hidentify
  rw [quoteReports_eq]
  exact (hv.silent (Adds.register? hr)).silent (Adds.notice w _)

end Line

namespace Node

theorem LinesRead.adds {node : String} {s t : Session} {ls : List Located} {lines : List Line}
    (h : LinesRead node s ls lines t) : s.Adds (lines.flatMap Line.quoteReports) t := by
  induction h with
  | nil s => exact Adds.none rfl rfl
  | cons head _ ih => exact (Line.read_adds head).trans ih

/-- **Reading a node** makes the reports of its lines. -/
theorem read_adds {content : List Char} {position : Position} {s t : Session} {node : Node}
    (h : read content position s = (.ok node, t)) :
    s.Adds (node.lines.toList.flatMap Line.quoteReports) t := by
  obtain ⟨lines, hr, -, hp, he, -⟩ := read_placed h
  have hlines : node.lines.toList.map Line.quoteReports = lines.map Line.quoteReports := by
    rw [he]
    exact Line.map_of_bare Line.quoteReports (fun _ => rfl) hp.bare
  rw [List.flatMap_def, hlines, ← List.flatMap_def]
  exact (Adds.notice s _).trans hr.adds

end Node

namespace Script

theorem NodesRead.adds {s t : Session} {blocks : List Block} {nodes : List Node}
    (h : NodesRead s blocks nodes t) : s.Adds (quoteReports nodes) t := by
  induction h with
  | nil s => exact Adds.none rfl rfl
  | cons head _ ih => exact (Node.read_adds head).trans ih

end Script

/-! ## Jumps -/

namespace Jump

theorem contains_ids {nodes : List Node} {id : String} :
    (Table.ofList (nodes.map fun node => (node.id, ()))).contains id = true ↔
      id ∈ nodes.map Node.id := by
  rw [Table.ofList, Std.ExtTreeMap.contains_ofList]
  simp [Function.comp_def]

theorem reportsOf_eq {nodes : List Node} (node : Node) :
    reportsOf (Table.ofList (nodes.map fun node => (node.id, ()))) node =
      node.lines.toList.flatMap (Line.jumpReports (nodes.map Node.id) node.id) := by
  unfold reportsOf Node.jumps
  rw [List.filterMap_flatMap]
  congr 1
  funext line
  rw [List.filterMap_map, Line.jumpReports]
  apply List.filterMap_congr
  intro command hcommand
  have hjump : command.isJump = true := (List.mem_filter.mp hcommand).2
  have htarget : command.jumpTarget? = command.parameters.head?.map Value.display := by
    rw [Command.jumpTarget?, if_pos hjump]
  rw [Function.comp_apply, htarget]
  cases command.parameters with
  | nil => rfl
  | cons target others =>
    simp only [List.head?_cons, Option.map_some, warning?, contains_ids]
    split <;> rfl

/-- **The reports on jumps** can be told from the nodes. -/
theorem reports_eq (nodes : List Node) : reports nodes = Script.jumpReports nodes := by
  unfold reports Script.jumpReports
  dsimp only
  congr 1
  funext node
  exact reportsOf_eq node

end Jump

/-! ## Whether jumps are checked -/

/-- The session with another setting for the check of jumps. -/
def Session.asking (s : Session) (checkJumps : Bool) : Session :=
  { s with options := { s.options with checkJumps } }

section

variable {s t : Session} (checkJumps : Bool)

namespace Line

theorem speaker?_asking (s : Session) (name? : Option String) :
    (speaker? (s.asking checkJumps) name?).1 = (speaker? s name?).1 ∧
      (speaker? (s.asking checkJumps) name?).2 = (speaker? s name?).2.asking checkJumps := by
  cases name? with
  | none => exact ⟨rfl, rfl⟩
  | some name =>
    simp only [speaker?, Session.speaker, Session.asking]
    split <;> exact ⟨rfl, rfl⟩

theorem readParts_asking (position : Position) (done : List Segment) (s : Session)
    (parts : List Part) :
    readParts position done (s.asking checkJumps) parts =
      ((readParts position done s parts).1,
        (readParts position done s parts).2.asking checkJumps) := by
  induction parts generalizing done s with
  | nil => rfl
  | cons part parts ih =>
    unfold readParts
    split
    · rfl
    · exact ih _ s
    · exact ih _ (s.warn _)

theorem noticeIdle_asking (s : Session) (position : Position) (tags : List Tag) :
    noticeIdle (s.asking checkJumps) position tags =
      (noticeIdle s position tags).asking checkJumps := by
  unfold noticeIdle
  induction Tag.idle tags generalizing s with
  | nil => rfl
  | cons tag tags ih => exact ih (s.notice _)

theorem identify_asking (s : Session) (written : List Tag) :
    identify (s.asking checkJumps) written =
      ((identify s written).1, (identify s written).2.1,
        (identify s written).2.2.asking checkJumps) := by
  unfold identify
  split <;> rfl

theorem register?_asking {id node : String} (h : s.register? id node = some t) :
    (s.asking checkJumps).register? id node = some (t.asking checkJumps) := by
  unfold Session.register? at h ⊢
  split at h
  · cases h
  · next hfree =>
    cases h
    exact if_neg hfree

theorem read_asking {content : List Char} {node : String} {position : Position} {line : Line}
    (h : read content node position s = (.ok line, t)) :
    read content node position (s.asking checkJumps) = (.ok line, t.asking checkJumps) := by
  obtain ⟨segments, id, tags, u, v, w, hp, hi, hr, rfl, rfl⟩ := read_ok h
  obtain ⟨hspeaker, hsession⟩ :=
    speaker?_asking checkJumps s (Layout.read s.options.tabWidth content).speaker
  have hp' := readParts_asking checkJumps position []
    (speaker? s (Layout.read s.options.tabWidth content).speaker).2
    (Segment.whole (Layout.read s.options.tabWidth content).parts)
  have hi' := identify_asking checkJumps
    (noticeIdle u position (Layout.read s.options.tabWidth content).tags)
    (Layout.read s.options.tabWidth content).tags
  rw [hp, ← hsession] at hp'
  rw [← noticeIdle_asking, hi] at hi'
  have hread := read_eq hp' hi' (register?_asking checkJumps hr)
  have hsame : (speaker? (s.asking checkJumps)
      (Layout.read (s.asking checkJumps).options.tabWidth content).speaker).1 = _ := hspeaker
  rw [hsame] at hread
  exact hread

end Line

namespace Node

theorem LinesRead.asking {node : String} {ls : List Located} {lines : List Line}
    (h : LinesRead node s ls lines t) :
    LinesRead node (s.asking checkJumps) ls lines (t.asking checkJumps) := by
  induction h with
  | nil s => exact .nil _
  | cons head _ ih => exact .cons (Line.read_asking checkJumps head) ih

theorem read_asking {content : List Char} {position : Position} {node : Node}
    (h : read content position s = (.ok node, t)) :
    read content position (s.asking checkJumps) = (.ok node, t.asking checkJumps) := by
  obtain ⟨fields, id, lines, hf, ht, hr, hne, rfl⟩ := read_ok h
  exact read_eq hf ht (hr.asking checkJumps) hne

end Node

namespace Script

/-- **Nodes are read alike** whether jumps are checked or not. -/
theorem readNodes_asking {done result : List Node} {starts : Table Position}
    {blocks : List Block} (h : readNodes done starts s blocks = (.ok result, t)) :
    readNodes done starts (s.asking checkJumps) blocks = (.ok result, t.asking checkJumps) := by
  induction blocks generalizing done starts s with
  | nil =>
    cases h
    rfl
  | cons block blocks ih =>
    unfold readNodes at h ⊢
    split at h
    · cases h
    · next node u hn =>
      rw [Node.read_asking checkJumps hn]
      split at h
      · cases h
      · next hnew =>
        simp only [hnew]
        exact ih h

end Script

end

/-! ## The log of a script -/

namespace Script

variable {content : String} {options : Options} {script : Script}

theorem cast_checkJumps (nodes : List Node) (s : Session) :
    (checkJumps nodes s).cast = s.cast := by
  have hwarn : ∀ (reports : List Report) (s : Session),
      (reports.foldl Session.warn s).cast = s.cast := by
    intro reports
    induction reports with
    | nil => exact fun _ => rfl
    | cons r reports ih => exact fun s => ih (s.warn r)
  unfold checkJumps
  split
  · exact hwarn _ s
  · rfl

theorem checkJumps_adds (nodes : List Node) (s : Session) :
    s.Adds (if s.options.checkJumps then jumpReports nodes else []) (checkJumps nodes s) := by
  unfold checkJumps
  split
  · rw [← Jump.reports_eq]
    exact Adds.warnAll s _
  · exact Adds.none rfl rfl

/-- The reports in the log of a script can be told from its nodes. -/
theorem reports_eq (h : parseWith content options = .ok script) :
    script.log.reports.toList = quoteReports script.nodes.toList ++
      if options.checkJumps then jumpReports script.nodes.toList else [] := by
  obtain ⟨nodes, s, hr, -, rfl⟩ := parseWith_ok h
  obtain ⟨new, hnew, hread⟩ := readNodes_ok hr
  rw [List.reverse_nil, List.nil_append] at hnew
  subst hnew
  have hadds := hread.adds.silent (Adds.notice s (.scriptRead nodes.length s.lineCount))
  have hall := hadds.trans (checkJumps_adds nodes _)
  rw [hadds.options] at hall
  exact hall.log

/-- Another setting for the check of jumps changes nothing but the log. -/
theorem exists_asking (h : parseWith content options = .ok script) (checkJumps : Bool) :
    ∃ log, parseWith content { options with checkJumps } = .ok { script with log } := by
  have hfits := sizeError?_eq_none h
  have hsize : sizeError? content.utf8ByteSize { options with checkJumps }.maxSize = none := hfits
  obtain ⟨nodes, s, hr, hne, rfl⟩ := parseWith_ok h
  have hr' : readNodes [] ∅ (.start { options with checkJumps }) (blocksOf content) =
      (.ok nodes, s.asking checkJumps) := readNodes_asking checkJumps hr
  rw [parseWith_eq hsize hr' hne]
  dsimp only
  generalize hlog : (Script.checkJumps nodes ((s.asking checkJumps).notice
    (.scriptRead nodes.length (s.asking checkJumps).lineCount))).log = log
  refine ⟨log, ?_⟩
  rw [cast_checkJumps]
  simp only [ofNodes, cast_checkJumps]
  rfl

/-- **The log of a script is exact**: it has a report for every quotation that is never closed, and
then, if they are asked for, for every jump that leads nowhere, and no others; it is shown in the
order of positions, and the reports on one line in the order of the log; and nothing else in the
script depends on whether jumps are checked. -/
theorem parseWith_reports (h : parseWith content options = .ok script) :
    script.log.reports.toList = quoteReports script.nodes.toList ++
        (if options.checkJumps then jumpReports script.nodes.toList else []) ∧
      script.log.sorted.Perm script.log.reports.toList ∧
      script.log.sorted.Pairwise (fun r s => r.position.index ≤ s.position.index) ∧
      (∀ index, Log.onLine index script.log.sorted =
        Log.onLine index script.log.reports.toList) ∧
      ∀ checkJumps, ∃ log,
        parseWith content { options with checkJumps } = .ok { script with log } :=
  ⟨reports_eq h, script.log.sorted_perm, script.log.sorted_pairwise, script.log.sorted_filter,
    exists_asking h⟩

/-- Two quotations that are never closed, a jump to a later node, one to an earlier node, one to no
node, and one without a target. -/
def reportsSample : String :=
  "title: A\n---\n<<jump B>> <<jump C>> <<say \"hi>>\n<<jump>>\n===\ntitle: B\n---\n" ++
    "<<say 'hi>> <<jump A>>"

theorem parseWith_reports_sample :
    ∃ script, parseWith reportsSample {} = .ok script ∧
      script.log.reports.toList =
        [⟨.unterminatedQuote "<<say \"hi>>", ⟨2⟩⟩, ⟨.unterminatedQuote "<<say 'hi>>", ⟨7⟩⟩,
          ⟨.unknownJumpTarget "C" "A", ⟨2⟩⟩, ⟨.jumpWithoutTarget "A", ⟨3⟩⟩] ∧
      script.log.reports.toList = quoteReports script.nodes.toList ++
        jumpReports script.nodes.toList ∧
      script.log.sorted.Perm script.log.reports.toList ∧
      script.log.sorted.Pairwise (fun r s => r.position.index ≤ s.position.index) ∧
      (∀ index, Log.onLine index script.log.sorted =
        Log.onLine index script.log.reports.toList) ∧
      ∀ checkJumps, ∃ log,
        parseWith reportsSample { ({} : Options) with checkJumps } = .ok { script with log } := by
  have hcheck : (parseWith reportsSample {}).toOption.any (fun script => decide
      (script.log.reports.toList =
        [⟨.unterminatedQuote "<<say \"hi>>", ⟨2⟩⟩, ⟨.unterminatedQuote "<<say 'hi>>", ⟨7⟩⟩,
          ⟨.unknownJumpTarget "C" "A", ⟨2⟩⟩, ⟨.jumpWithoutTarget "A", ⟨3⟩⟩])) = true := by
    decide +kernel
  obtain ⟨script, h, hlog⟩ := exists_parseWith hcheck
  exact ⟨script, h, of_decide_eq_true hlog, parseWith_reports h⟩

end Script

end Parley
