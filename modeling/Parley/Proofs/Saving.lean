import Parley.Saved.Script

/-!
# Reading back what was saved

Every noun of a script has a way to save it and a way to read it, and reading inverts saving, with
two exceptions: a number that is not finite is saved as nothing, which is no number, and a position
has to fit into 32 bits.  So each noun says for itself whether it can be saved (`savable`), and is
read back exactly if it can.

* `Data.list?_ofList_if` and `Data.table?_ofTable_if` — lists and tables are read back exactly if
  all their items are.
* `Saved.value?_ofValue_if` to `Saved.node?_ofNode_if` — one equation for each noun.
* `Saved.script?_ofScript_if` — a script is read back if it can be saved, and else not at all.
-/

namespace Parley

/-! ## What can be saved -/

/-- A value can be saved unless it is a number that is not finite. -/
def Value.savable : Value → Bool
  | .number x => x.isFinite
  | _ => true

/-- A position can be saved if it fits into 32 bits. -/
def Position.savable (p : Position) : Bool := p.index < UInt32.size

/-- Whether all entries of a table can be saved. -/
def Table.savable (parameters : Table Value) : Bool :=
  parameters.toList.all fun pair => pair.2.savable

/-- Whether the value of a tag can be saved. -/
def Tag.savable (tag : Tag) : Bool := tag.value.all Value.savable

/-- Whether the values in a segment can be saved. -/
def Segment.savable : Segment → Bool
  | .dialog d => d.spans.all fun span => span.parameters.savable
  | .command c => c.parameters.all Value.savable
  | .var _ => true

/-- Whether all that a line holds can be saved. -/
def Line.savable (line : Line) : Bool :=
  line.segments.all Segment.savable && line.tags.all Tag.savable && line.position.savable

/-- Whether all that a node holds can be saved. -/
def Node.savable (node : Node) : Bool :=
  (node.fields.all fun field => field.2.savable) && node.lines.toList.all Line.savable &&
    node.position.savable

/-- Whether all that a script holds can be saved. -/
def Script.savable (script : Script) : Bool :=
  script.nodes.toList.all Node.savable &&
    script.log.reports.toList.all fun report => report.position.savable

/-! ## Lists and tables -/

namespace Data

variable {α : Type} {item : α → Data} {item? : Data → Option α} {p : α → Bool}

theorem mapM_map_if {β γ : Type} {write : α → β} {read? : β → Option γ} {f : α → γ}
    {items : List α} (h : ∀ x ∈ items, read? (write x) = if p x then some (f x) else none) :
    (items.map write).mapM read? = if items.all p then some (items.map f) else none := by
  induction items with
  | nil => rfl
  | cons x items ih =>
    obtain ⟨hfirst, hothers⟩ := List.forall_mem_cons.mp h
    rw [List.map_cons, List.mapM_cons, hfirst, ih hothers, List.all_cons]
    cases p x with
    | false => rfl
    | true => cases items.all p <;> rfl

theorem list?_ofList_if {items : List α}
    (h : ∀ x ∈ items, item? (item x) = if p x then some x else none) :
    list? item? (ofList item items) = if items.all p then some items else none := by
  have hall := mapM_map_if (f := id) h
  rw [List.map_id] at hall
  exact hall

theorem table?_ofTable_if {table : Table α}
    (h : ∀ pair ∈ table.toList, item? (item pair.2) = if p pair.2 then some pair.2 else none) :
    table? item? (ofTable item table) =
      if table.toList.all fun pair => p pair.2 then some table else none := by
  have hall : (table.toList.map fun pair => (pair.1, item pair.2)).mapM
      (fun part => (item? part.2).map fun x => (part.1, x)) =
      if table.toList.all fun pair => p pair.2 then some (table.toList.map id) else none := by
    apply mapM_map_if
    intro pair hmem
    dsimp only
    rw [h pair hmem]
    split <;> rfl
  rw [List.map_id] at hall
  unfold table? ofTable
  dsimp only
  rw [hall]
  split
  · rw [Option.map_some, Table.ofList_toList]
  · rfl

theorem list?_ofList {items : List α} (h : ∀ x ∈ items, item? (item x) = some x) :
    list? item? (ofList item items) = some items := by
  have hall := list?_ofList_if (p := fun _ => true) fun x hx => (h x hx).trans (if_pos rfl).symm
  rwa [if_pos (List.all_eq_true.mpr fun _ _ => rfl)] at hall

theorem table?_ofTable {table : Table α}
    (h : ∀ pair ∈ table.toList, item? (item pair.2) = some pair.2) :
    table? item? (ofTable item table) = some table := by
  have hall := table?_ofTable_if (p := fun _ => true) fun pair hpair =>
    (h pair hpair).trans (if_pos rfl).symm
  rwa [if_pos (List.all_eq_true.mpr fun _ _ => rfl)] at hall

theorem count?_ofCount (n : Nat) : count? (ofCount n) = some n := rfl

theorem table?_ofTable_count (table : Table Nat) :
    table? count? (ofTable ofCount table) = some table :=
  table?_ofTable fun _ _ => count?_ofCount _

end Data

/-! ## The nouns -/

namespace Saved

open Data

theorem value?_ofValue_if (v : Value) :
    value? (ofValue v) = if v.savable then some v else none := by
  cases v with
  | number x =>
    show (if x.isFinite then Data.number x else .null).number?.map Value.number =
      if x.isFinite then some (Value.number x) else none
    cases x.isFinite <;> rfl
  | boolean b => rfl
  | text t => rfl

theorem position?_ofPosition_if (p : Position) :
    position? (ofPosition p) = if p.savable then some p else none := by
  have hread : position? (ofPosition p) = if p.index < UInt32.size then some p else none := rfl
  rw [hread]
  unfold Position.savable
  by_cases h : p.index < UInt32.size <;> simp [h]

theorem tag?_ofTag_if (tag : Tag) : tag? (ofTag tag) = if tag.savable then some tag else none := by
  obtain ⟨key, value, source⟩ := tag
  cases value with
  | none => rfl
  | some v =>
    have hread : tag? (ofTag ⟨key, some v, source⟩) = ((value? (ofValue v)).map some).bind
        fun value => some ⟨key, value, source⟩ := by
      cases v <;> rfl
    rw [hread, value?_ofValue_if]
    show _ = if v.savable then _ else _
    cases v.savable <;> rfl

theorem command?_ofCommand_if (c : Command) :
    command? (ofCommand c) = if c.parameters.all Value.savable then some c else none := by
  have hread : command? (ofCommand c) =
      (list? value? (Data.ofList ofValue c.parameters)).bind fun parameters =>
        some { c with parameters } := rfl
  rw [hread, list?_ofList_if fun v _ => value?_ofValue_if v]
  cases c.parameters.all Value.savable <;> rfl

theorem span?_ofSpan_if (span : Span) :
    span? (ofSpan span) = if span.parameters.savable then some span else none := by
  have hread : span? (ofSpan span) =
      (table? value? (ofTable ofValue span.parameters)).bind fun parameters =>
        some { span with parameters } := rfl
  rw [hread, table?_ofTable_if fun pair _ => value?_ofValue_if pair.2]
  show _ = if span.parameters.toList.all (fun pair => pair.2.savable) then _ else _
  cases span.parameters.toList.all fun pair => pair.2.savable <;> rfl

theorem dialog?_ofDialog_if (d : Dialog) :
    dialog? (ofDialog d) =
      if d.spans.all fun span => span.parameters.savable then some d else none := by
  have hread : dialog? (ofDialog d) = (list? span? (Data.ofList ofSpan d.spans)).bind fun spans =>
      some { d with spans } := rfl
  rw [hread, list?_ofList_if fun span _ => span?_ofSpan_if span]
  cases d.spans.all fun span => span.parameters.savable <;> rfl

theorem segment?_ofSegment_if (segment : Segment) :
    segment? (ofSegment segment) = if segment.savable then some segment else none := by
  cases segment with
  | dialog d =>
    show (dialog? (ofDialog d)).map Segment.dialog = _
    rw [dialog?_ofDialog_if]
    exact apply_ite (Option.map Segment.dialog) _ _ _
  | command c =>
    show (command? (ofCommand c)).map Segment.command = _
    rw [command?_ofCommand_if]
    exact apply_ite (Option.map Segment.command) _ _ _
  | var v => rfl

theorem line?_ofLine_if (line : Line) :
    line? (ofLine line) = if line.savable then some line else none := by
  have hread : line? (ofLine line) =
      (list? segment? (Data.ofList ofSegment line.segments)).bind fun segments =>
        (list? tag? (Data.ofList ofTag line.tags)).bind fun tags =>
          (position? (ofPosition line.position)).bind fun position =>
            some { line with segments, tags, position } := by
    obtain ⟨id, node, indent, isOption, speaker, segments, tags, firstChild, nextSibling, source,
      position⟩ := line
    cases speaker <;> cases firstChild <;> cases nextSibling <;> rfl
  rw [hread, list?_ofList_if fun segment _ => segment?_ofSegment_if segment,
    list?_ofList_if fun tag _ => tag?_ofTag_if tag, position?_ofPosition_if]
  unfold Line.savable
  cases line.segments.all Segment.savable <;> cases line.tags.all Tag.savable <;>
    cases line.position.savable <;> rfl

/-! ## The cast and the log -/

theorem speaker?_ofSpeaker (s : Speaker) : speaker? (ofSpeaker s) = some s := rfl

theorem cast?_ofCast (cast : Cast) : cast? (ofCast cast) = some cast := by
  have hread : cast? (ofCast cast) =
      (table? speaker? (ofTable ofSpeaker cast.members)).bind fun members =>
        (list? Data.text? (Data.ofList .text cast.order.toList)).bind fun order =>
          some ⟨members, order.toArray⟩ := rfl
  have horder : list? Data.text? (Data.ofList .text cast.order.toList) = some cast.order.toList :=
    list?_ofList fun _ _ => rfl
  rw [hread, table?_ofTable fun pair _ => speaker?_ofSpeaker pair.2, horder]
  rfl

theorem warning?_ofWarning (w : Warning) : warning? (ofWarning w) = some w := by
  cases w <;> rfl

theorem report?_ofReport_if (r : Report) :
    report? (ofReport r) = if r.position.savable then some r else none := by
  have hread : report? (ofReport r) = (warning? (ofWarning r.warning)).bind fun warning =>
      (position? (ofPosition r.position)).bind fun position => some ⟨warning, position⟩ := rfl
  rw [hread, warning?_ofWarning, position?_ofPosition_if]
  cases r.position.savable <;> rfl

theorem log?_ofLog_if (log : Log) :
    log? (ofLog log) =
      if log.reports.toList.all fun report => report.position.savable then some log else none := by
  have hread : log? (ofLog log) =
      (list? report? (Data.ofList ofReport log.reports.toList)).bind fun reports =>
        some ⟨reports.toArray⟩ := rfl
  rw [hread, list?_ofList_if fun report _ => report?_ofReport_if report]
  cases log.reports.toList.all fun report => report.position.savable <;> rfl

/-! ## Nodes and scripts -/

theorem field?_ofField_if (field : String × Value) :
    pair? Data.text? value? (ofField field) = if field.2.savable then some field else none := by
  have hvalue := value?_ofValue_if field.2
  unfold ofField pair? Data.text?
  dsimp only
  rw [hvalue]
  cases field.2.savable <;> rfl

theorem node?_ofNode_if (node : Node) :
    node? (ofNode node) = if node.savable then some node else none := by
  have hread : node? (ofNode node) =
      (list? (pair? Data.text? value?) (Data.ofList ofField node.fields)).bind fun fields =>
        (list? line? (Data.ofList ofLine node.lines.toList)).bind fun lines =>
          (table? count? (ofTable ofCount node.index)).bind fun index =>
            (position? (ofPosition node.position)).bind fun position =>
              some { node with fields, lines := lines.toArray, index, position } := rfl
  rw [hread, list?_ofList_if fun field _ => field?_ofField_if field,
    list?_ofList_if fun line _ => line?_ofLine_if line, table?_ofTable_count,
    position?_ofPosition_if]
  unfold Node.savable
  cases node.fields.all fun field => field.2.savable <;>
    cases node.lines.toList.all Line.savable <;> cases node.position.savable <;> rfl

/-- **A script is read back exactly if it can be saved**, and then it is the same script. -/
theorem script?_ofScript_if (script : Script) :
    script? (ofScript script) = if script.savable then some script else none := by
  have hread : script? (ofScript script) =
      (list? node? (Data.ofList ofNode script.nodes.toList)).bind fun nodes =>
        (table? count? (ofTable ofCount script.nodeIndex)).bind fun nodeIndex =>
          (table? count? (ofTable ofCount script.lineIndex)).bind fun lineIndex =>
            (cast? (ofCast script.cast)).bind fun cast =>
              (log? (ofLog script.log)).bind fun log =>
                some ⟨nodes.toArray, nodeIndex, lineIndex, cast, log, script.source⟩ := rfl
  rw [hread, list?_ofList_if fun node _ => node?_ofNode_if node, table?_ofTable_count,
    table?_ofTable_count, cast?_ofCast, log?_ofLog_if]
  unfold Script.savable
  cases script.nodes.toList.all Node.savable <;>
    cases script.log.reports.toList.all fun report => report.position.savable <;> rfl

end Saved

end Parley
