import Parley.Proofs.Delimiters
import Parley.Proofs.Parameters
import Parley.Proofs.Reports
import Parley.Proofs.Verdict

/-!
# A jump written with a title leads to its node

The title of a node is cut out of a header field; the target of a jump goes through the tokens of
its line, the delimiters and the quote marks of the command, and the blanks between parameters.
Then both are read as values and compared as these are displayed.  Wherever a title can be written
as one parameter (`Command.SpellsJump`), the two ways end with the same text, so the jump leads to
the node and is not reported.

* `Command.SpellsJump.read` — the title is the only parameter of the command.
* `Command.tokens_enclose` — the command is one token, if nothing in it closes it too early.
* `Line.parse_jump` — alone in its line, it is the only segment.
* `Node.read_readBack` — a command of a node was read from its own text.
* `Script.parseWith_jump` — in every script a jump written with a title leads to its node.
-/

namespace Parley

namespace Command

/-! ## Jumps -/

/-- A jump to a text, with parameters written in some way. -/
def jumpTo (parameters : List Char) : List Char := enclose ("jump ".toList ++ parameters)

/-- A command is a jump to a title: between quote marks that the title lacks, or as a word. -/
inductive SpellsJump (title : List Char) : List Char → Prop
  | quoted {mark : Char} (quote : isQuote mark = true) (free : mark ∉ title) :
      SpellsJump title (jumpTo (mark :: (title ++ [mark])))
  | bare (word : ∀ c ∈ title, Text.isBlank c = false ∧ isQuote c = false)
      (ends : title.getLast? ≠ some '>') : SpellsJump title (jumpTo title)

theorem firstWord_jump (parameters : List Char) :
    Text.firstWord ("jump ".toList ++ parameters) = "jump".toList := rfl

theorem afterFirstWord_jump (parameters : List Char) :
    Text.afterFirstWord ("jump ".toList ++ parameters) = ' ' :: parameters := rfl

variable {title content : List Char}

/-- **A jump to a title** has the title as its only parameter, and no quotation is left open. -/
theorem SpellsJump.read (h : SpellsJump title content) (hne : title ≠ []) :
    Command.read content =
      .ok (⟨"jump", [Value.read title], String.ofList content⟩, none) := by
  cases h with
  | @quoted mark quote free =>
    have hsplit : splitParameters (' ' :: mark :: (title ++ [mark])) =
        ([Value.read title], none) := by
      rw [← (Quotes.between quote free).split]
      exact @splitParameters_blank [' '] rfl _
    rw [jumpTo, read_enclose, firstWord_jump, afterFirstWord_jump, hsplit]
    rfl
  | bare word ends =>
    have hsplit : splitParameters (' ' :: title) = ([Value.read title], none) := by
      simpa using @splitParameters_word [' '] title [] rfl rfl hne word
    rw [jumpTo, read_enclose, firstWord_jump, afterFirstWord_jump, hsplit]
    rfl

/-! ## A jump is one token -/

/-- Without a closing delimiter, and without the beginning of one at its end, a text can stand in a
command. -/
structure Encloses (inner : List Char) : Prop where
  noClosing : ¬ closing <:+: inner
  ends : inner.getLast? ≠ some '>'

theorem Encloses.cons {c : Char} {inner : List Char} (h : Encloses inner) (hc : c ≠ '>') :
    Encloses (c :: inner) where
  noClosing := by
    rw [List.infix_cons_iff]
    rintro (hlead | hinside)
    · exact hc (List.cons_prefix_cons.mp hlead).1.symm
    · exact h.noClosing hinside
  ends := by
    cases inner with
    | nil => simpa using hc
    | cons d inner => simpa [List.getLast?_cons_cons] using h.ends

theorem encloses_concat {c : Char} {inner : List Char} (h : ¬ closing <:+: inner) (hc : c ≠ '>') :
    Encloses (inner ++ [c]) where
  noClosing := by
    rw [← List.reverse_infix, List.reverse_append, List.reverse_singleton, List.singleton_append,
      List.infix_cons_iff]
    rintro (hlead | hinside)
    · exact hc (List.cons_prefix_cons.mp hlead).1.symm
    · exact h (List.reverse_infix.mp hinside)
  ends := by simpa using hc

/-- A command is closed by the delimiter at its end, and not before. -/
theorem Encloses.first {inner rest a b : List Char} (h : Encloses inner)
    (hab : inner ++ '>' :: '>' :: rest = a ++ '>' :: '>' :: b) : inner.length ≤ a.length := by
  obtain ⟨m, rfl, -⟩ | ⟨m, hm, hrest⟩ := List.append_eq_append_iff.mp hab
  · simp
  · cases m with
    | nil => simp [hm]
    | cons c m =>
      cases m with
      | nil =>
        obtain ⟨rfl, -⟩ := List.cons.inj hrest
        exact absurd (by simp [hm]) h.ends
      | cons d m =>
        obtain ⟨rfl, htail⟩ := List.cons.inj hrest
        obtain ⟨rfl, -⟩ := List.cons.inj htail
        exact absurd ⟨a, m, by simp [hm, closing]⟩ h.noClosing

/-- A command that nothing closes too early is one token. -/
theorem tokens_enclose {c : Char} {inner : List Char} (h : Encloses inner) :
    tokens (enclose (c :: inner)) = [.command (enclose (c :: inner))] := by
  have hspecial : Token.Special [] (.command (enclose (c :: inner))) :=
    .command fun a b hab => h.first hab
  have hlexes : Token.Lexes [] (enclose (c :: inner)) [.command (enclose (c :: inner))] :=
    .special (by simp) (by simp [Token.text]) hspecial (.done _)
  exact (Token.Scan.lexes_tokens _).unique hlexes

theorem isQuote_ne {mark : Char} (h : isQuote mark = true) : mark ≠ '>' := by
  rintro rfl
  cases h

theorem SpellsJump.exists_encloses (h : SpellsJump title content)
    (hclosing : ¬ closing <:+: title) :
    ∃ parameters, content = jumpTo parameters ∧ Encloses ("ump ".toList ++ parameters) := by
  have hlead : ∀ {parameters : List Char}, Encloses parameters →
      Encloses ("ump ".toList ++ parameters) := fun hparameters =>
    (((hparameters.cons (c := ' ') (by decide)).cons (by decide)).cons (by decide)).cons
      (by decide)
  cases h with
  | quoted quote free =>
    exact ⟨_, rfl,
      hlead ((encloses_concat hclosing (isQuote_ne quote)).cons (isQuote_ne quote))⟩
  | bare word ends => exact ⟨_, rfl, hlead ⟨hclosing, ends⟩⟩

end Command

/-! ## A jump alone in its line -/

namespace Line

theorem pieces_enclose {c : Char} {inner : List Char} (h : Command.Encloses inner) :
    pieces (Command.enclose (c :: inner)) = [.command (Command.enclose (c :: inner))] := by
  have htrim : Text.trim (Command.enclose (c :: inner)) = Command.enclose (c :: inner) :=
    Text.trim_of_edged (Command.edged_enclose _)
  have harrow : Layout.arrow (Command.enclose (c :: inner)) =
      (false, Command.enclose (c :: inner)) := rfl
  unfold pieces Layout.read
  simp only [htrim, harrow, Command.tokens_enclose h]
  rfl

variable {title content : List Char}

/-- **A jump alone in its line** is the only segment of the line. -/
theorem parse_jump (h : Command.SpellsJump title content) (hne : title ≠ [])
    (hclosing : ¬ Command.closing <:+: title) (node : String) :
    ∃ line s command, parse (String.ofList content) node = (.ok line, s) ∧
      line.segments = [.command command] ∧ command.source = String.ofList content := by
  have hread := h.read hne
  obtain ⟨parameters, rfl, hencloses⟩ := h.exists_encloses hclosing
  have hpieces : pieces (Command.jumpTo parameters) = [.command (Command.jumpTo parameters)] :=
    pieces_enclose hencloses
  have hsound : ∀ part ∈ pieces (Command.jumpTo parameters), part.Sound := by
    rw [hpieces, List.forall_mem_singleton]
    exact .command (by rw [Command.firstWord_jump]; decide)
  have hfine : Fine [] (Command.jumpTo parameters) := ⟨hsound, by simp [ids_nil]⟩
  obtain ⟨line, s, hline, -⟩ := hfine.read (Session.told_start {}) node ⟨0⟩
  obtain ⟨segments, id, tags, u, v, w, hparts, -, -, rfl, -⟩ := read_ok hline
  have hwhole : Segment.whole (Layout.read (Session.start {}).options.tabWidth
      (Command.jumpTo parameters)).parts = [.command (Command.jumpTo parameters)] := hpieces
  rw [hwhole] at hparts
  simp only [readParts, Segment.ofPart, hread, Option.map_none, List.reverse_cons,
    List.reverse_nil, List.nil_append] at hparts
  cases hparts
  exact ⟨_, s, _, by rw [parse, String.toList_ofList]; exact hline, rfl, rfl⟩

end Line

/-! ## Commands are read from their own texts -/

namespace Node

theorem LinesRead.readBack {node : String} {s t : Session} {ls : List Located} {lines : List Line}
    (h : LinesRead node s ls lines t) :
    ∀ segments ∈ lines.map Line.segments, ∀ segment ∈ segments, segment.ReadBack := by
  induction h with
  | nil s => simp
  | cons head _ ih =>
    refine List.forall_mem_cons.mpr ⟨?_, ih⟩
    obtain ⟨segments, id, tags, u, v, w, hparts, -, -, rfl, -⟩ := Line.read_ok head
    intro segment hsegment
    obtain ⟨part, -, hof⟩ :=
      exists_of_mem_forall₂ (Segment.forall₂_of_readParts hparts) segment hsegment
    exact hof.readBack

variable {content : List Char} {position : Position} {s t : Session} {node : Node}

theorem read_readBack (h : read content position s = (.ok node, t)) {line : Line}
    (hl : line ∈ node.lines) : ∀ segment ∈ line.segments, segment.ReadBack := by
  obtain ⟨lines, hr, -, hp, he, -⟩ := read_placed h
  refine hr.readBack line.segments ?_
  rw [← Line.map_of_bare Line.segments (fun _ => rfl) hp.bare, ← he]
  exact List.mem_map_of_mem (Array.mem_toList_iff.mpr hl)

/-! ## Titles and ids -/

theorem readField_of_isFieldOf {field : String × Value} {l : Numbered} (h : IsFieldOf field l) :
    readField l.located = .ok field := by
  obtain ⟨key, value, hl, hkey, rfl⟩ := h
  have hcut : Text.cut? ':' l.1 = some (key, value) := by
    rw [hl]
    exact Text.cut?_append_self value hkey
  simp only [readField, Numbered.located, fieldOfLine?, hcut, Option.map_some]

/-- The title of a run is among the fields of the node that holds it. -/
theorem Holds.fieldValue? {run : List Numbered} (h : node.Holds run) :
    Node.fieldValue? node.fields "title" = (Document.title? run).map Value.read :=
  fieldValue?_title (h.fields.imp fun _ _ => readField_of_isFieldOf)

/-- **The id of a node is what its title is displayed as.** -/
theorem id_of_title? (h : read content position s = (.ok node, t)) {run : List Numbered}
    (hholds : node.Holds run) {title : List Char} (ht : Document.title? run = some title) :
    node.id = Document.idOf title := by
  obtain ⟨fields, id, lines, -, hid, -, -, rfl⟩ := read_ok h
  have hvalue := hholds.fieldValue?
  rw [ht, Option.map_some] at hvalue
  simp only [title?, hvalue, Option.map_some, Option.filter_eq_some_iff, Option.some.injEq] at hid
  exact hid.1.symm

end Node

open Document

namespace Document

/-- The first title field of a run is written with a title behind one space. -/
def TitledAs (run : List Numbered) (title : List Char) : Prop :=
  ∃ before l after, fieldLines run = before ++ l :: after ∧
    (∀ earlier ∈ before, titleIn? earlier.1 = none) ∧ l.1 = "title: ".toList ++ title

theorem TitledAs.title? {run : List Numbered} {title : List Char} (h : TitledAs run title)
    (htrim : Text.trim title = title) : Document.title? run = some title := by
  obtain ⟨before, l, after, hlines, hbefore, hl⟩ := h
  have hkey : ':' ∉ "title".toList := by decide
  have hcut : Text.cut? ':' l.1 = some ("title".toList, ' ' :: title) := by
    rw [hl]
    exact Text.cut?_append_self (' ' :: title) hkey
  have hspace : Text.trim (' ' :: title) = title := htrim
  have htitle : titleIn? l.1 = some title := by
    simp only [titleIn?, hcut, Option.bind_some, hspace]
    rfl
  have hnone : before.findSome? (fun earlier => titleIn? earlier.1) = none := by
    rw [List.findSome?_eq_none_iff]
    exact hbefore
  rw [Document.title?, hlines, List.findSome?_append, hnone, Option.none_or, List.findSome?_cons,
    htitle]

/-- A text can be the title of a node and stand in a command. -/
structure Writable (title : List Char) : Prop where
  nonempty : title ≠ []
  trimmed : Text.trim title = title
  noClosing : ¬ Command.closing <:+: title

end Document

namespace Script

variable {content : String} {options : Options} {script : Script}

theorem node_of_title? (h : parseWith content options = .ok script) {node : Node}
    (hn : node ∈ script.nodes) {run : List Numbered} (hholds : node.Holds run)
    {title : List Char} (ht : title? run = some title) :
    script.node? (idOf title) = some node := by
  obtain ⟨_, _, _, _, hread⟩ := exists_read h hn
  exact (node?_eq_some_iff h).mpr ⟨hn, Node.id_of_title? hread hholds ht⟩

/-- A jump that names a node of the script is in no report. -/
theorem not_reported (h : parseWith content options = .ok script) {node : Node}
    (hn : node ∈ script.nodes) :
    ∀ report ∈ script.log.reports.toList, ∀ source,
      report.warning ≠ .unknownJumpTarget node.id source := by
  intro report hreport source hwarning
  rw [reports_eq h, List.mem_append] at hreport
  rcases hreport with hquote | hjump
  · obtain ⟨other, -, hquote⟩ := List.mem_flatMap.mp hquote
    obtain ⟨line, -, hquote⟩ := List.mem_flatMap.mp hquote
    obtain ⟨command, -, rfl⟩ := List.mem_map.mp hquote
    cases hwarning
  · split at hjump
    · obtain ⟨other, -, hjump⟩ := List.mem_flatMap.mp hjump
      obtain ⟨line, -, hjump⟩ := List.mem_flatMap.mp hjump
      obtain ⟨command, -, hreport⟩ := List.mem_filterMap.mp hjump
      split at hreport
      · cases hreport
        cases hwarning
      · split at hreport
        · cases hreport
        · next hunknown =>
          cases hreport
          obtain ⟨hid, -⟩ := Warning.unknownJumpTarget.inj hwarning
          exact hunknown (hid ▸ List.mem_map_of_mem (Array.mem_toList_iff.mpr hn))
    · cases hjump

/-- A command of a node leads to a node of the script, and there is nothing to report about it. -/
structure LeadsTo (script : Script) (node : Node) (command : Command) (target : Node) : Prop where
  found : ∃ id, command.jumpTarget? = some id ∧ script.node? id = some target
  /-- The check of jumps passes over it. -/
  checked : Jump.warning? (Table.ofList (script.nodes.toList.map fun node => (node.id, ())))
    node.id command.jumpTarget? = none
  silent : ∀ report ∈ script.log.reports.toList, ∀ source,
    report.warning ≠ .unknownJumpTarget target.id source

/-- **A jump written with a title leads to its node**: alone in its line it is read as one command,
and in every script the commands written like it lead to the node with that title. -/
theorem parseWith_jump {title jump : List Char} (ht : Writable title)
    (hjump : Command.SpellsJump title jump) :
    (∀ node, ∃ line s command, Line.parse (String.ofList jump) node = (.ok line, s) ∧
        line.segments = [.command command] ∧ command.source = String.ofList jump) ∧
      ∀ content options script, parseWith content options = .ok script →
        ∀ target ∈ script.nodes, ∀ run, target.Holds run → TitledAs run title →
          ∀ node ∈ script.nodes, ∀ line ∈ node.lines, ∀ command,
            Segment.command command ∈ line.segments →
              command.source = String.ofList jump → script.LeadsTo node command target := by
  refine ⟨Line.parse_jump hjump ht.nonempty ht.noClosing, ?_⟩
  intro content options script h target htarget run hholds htitle node hn line hl command
    hcommand hsource
  obtain ⟨_, _, _, _, hread⟩ := exists_read h hn
  obtain ⟨openQuote, hback⟩ := Node.read_readBack hread hl _ hcommand command rfl
  rw [hsource, String.toList_ofList, hjump.read ht.nonempty] at hback
  cases hback
  have hfound := node_of_title? h htarget hholds (htitle.title? ht.trimmed)
  have hid := ((node?_eq_some_iff h).mp hfound).2
  have hknown : (Table.ofList (script.nodes.toList.map fun node => (node.id, ()))).contains
      (idOf title) = true := by
    rw [Jump.contains_ids, ← hid]
    exact List.mem_map_of_mem (Array.mem_toList_iff.mpr htarget)
  exact ⟨⟨idOf title, rfl, hfound⟩, Jump.warning?_eq_none_iff.mpr ⟨_, rfl, hknown⟩,
    not_reported h htarget⟩

/-- A command that the evaluation of a document finds. -/
theorem exists_command {content : String} {options : Options} {source : String}
    (h : (parseWith content options).toOption.any (fun script =>
      script.nodes.toList.any fun node => node.lines.toList.any fun line =>
        line.segments.any fun segment => segment.command?.any fun command =>
          command.source == source) = true) :
    ∃ script node line command, parseWith content options = .ok script ∧ node ∈ script.nodes ∧
      line ∈ node.lines ∧ Segment.command command ∈ line.segments ∧ command.source = source := by
  obtain ⟨script, h, hscript⟩ := exists_parseWith h
  obtain ⟨node, hnode, hscript⟩ := List.any_eq_true.mp hscript
  obtain ⟨line, hline, hscript⟩ := List.any_eq_true.mp hscript
  obtain ⟨segment, hsegment, hscript⟩ := List.any_eq_true.mp hscript
  cases segment with
  | command command =>
    exact ⟨script, node, line, command, h, Array.mem_toList_iff.mp hnode,
      Array.mem_toList_iff.mp hline, hsegment, by simpa [Segment.command?] using hscript⟩
  | dialog dialog => cases hscript
  | var v => cases hscript

/-- A node of a document that holds its first run. -/
theorem exists_first {content : String} {options : Options} {script : Script}
    {run : List Numbered} {runs : List (List Numbered)}
    (h : parseWith content options = .ok script) (hruns : nodeRuns content = run :: runs) :
    ∃ node ∈ script.nodes, node.Holds run := by
  have hnodes := parseWith_document h
  rw [hruns] at hnodes
  obtain ⟨node, others, hholds, -, hall⟩ := List.forall₂_cons_right_iff.mp hnodes
  exact ⟨node, Array.mem_toList_iff.mp (by rw [hall]; exact List.mem_cons_self), hholds⟩

/-- A title with a quote mark, a colon and the beginning of a tag. -/
def jumpTitle : List Char := "it's 7: #a".toList

/-- A jump to it, and the same title in a header. -/
def jumpSample : String := "title: it's 7: #a\n---\nGo <<jump \"it's 7: #a\">>!"

theorem parseWith_jump_sample :
    ∃ script node line command target, parseWith jumpSample {} = .ok script ∧
      node ∈ script.nodes ∧ line ∈ node.lines ∧ Segment.command command ∈ line.segments ∧
      command.source = String.ofList (Command.jumpTo ('"' :: (jumpTitle ++ ['"']))) ∧
      script.LeadsTo node command target := by
  have hwritable : Writable jumpTitle := ⟨by decide, by decide, by decide⟩
  have hspells : Command.SpellsJump jumpTitle (Command.jumpTo ('"' :: (jumpTitle ++ ['"']))) :=
    .quoted (by decide) (by decide)
  have hcheck : (parseWith jumpSample {}).toOption.any (fun script =>
      script.nodes.toList.any fun node => node.lines.toList.any fun line =>
        line.segments.any fun segment => segment.command?.any fun command =>
          command.source == String.ofList (Command.jumpTo ('"' :: (jumpTitle ++ ['"'])))) =
            true := by
    decide +kernel
  obtain ⟨script, node, line, command, h, hnode, hline, hsegment, hsource⟩ := exists_command hcheck
  have hruns : nodeRuns jumpSample = [[("title: it's 7: #a".toList, 0), ("---".toList, 1),
      ("Go <<jump \"it's 7: #a\">>!".toList, 2)]] := by
    decide +kernel
  obtain ⟨target, htarget, hholds⟩ := exists_first h hruns
  have htitle : TitledAs [("title: it's 7: #a".toList, 0), ("---".toList, 1),
      ("Go <<jump \"it's 7: #a\">>!".toList, 2)] jumpTitle :=
    ⟨[], ("title: it's 7: #a".toList, 0), [], by decide +kernel, by simp, by decide⟩
  exact ⟨script, node, line, command, target, h, hnode, hline, hsegment, hsource,
    (parseWith_jump hwritable hspells).2 jumpSample {} script h target htarget _
      hholds htitle node hnode line hline command hsegment hsource⟩

end Script

end Parley
