import Parley.Proofs.Alike
import Parley.Proofs.Bounds
import Parley.Proofs.Doubles
import Parley.Proofs.Saving

/-!
# Saving a script that was read

A script holds values in four places: the fields of a node, the tags of a line, the parameters of a
command, and the parameters of markup.  Each of them was read from a run of characters, or was put
there as a text or a truth value, so no number among them is the double that is no number.  What
cannot be saved is therefore exactly an infinite number, which is what a run of too many digits is
read as.

* `Value.savable_eq` — a value that is no "no number" can be saved unless it is infinite.
* `Line.read_proper` and `Node.read_proper` — in all four places there are only such values.
* `Script.savable_iff` — a script can be saved if its values and its positions can.
* `Script.positions_kept` — positions are kept in 32 bits, where they can always be saved.
* `Script.parseWith_saved` — a script that can be read is saved and read back without a loss, and
  with an infinite number in it is not read back at all.
-/

namespace Parley

/-! ## The places of values -/

/-- Whether a value is an infinite number. -/
def Value.isInfinite : Value → Bool
  | .number x => x.isInf
  | _ => false

/-- The entries of a table. -/
def Table.entries (table : Table Value) : List Value := table.toList.map Prod.snd

/-- The values in a segment: the parameters of its command or of its markup. -/
def Segment.values : Segment → List Value
  | .dialog d => d.spans.flatMap fun span => span.parameters.entries
  | .command c => c.parameters
  | .var _ => []

/-- The values in a line: those of its segments and of its tags. -/
def Line.values (line : Line) : List Value :=
  line.segments.flatMap Segment.values ++ line.tags.filterMap Tag.value

/-- The values in a node: those of its fields and of its lines. -/
def Node.values (node : Node) : List Value :=
  node.fields.map Prod.snd ++ node.lines.toList.flatMap Line.values

/-- The values in a script. -/
def Script.values (script : Script) : List Value := script.nodes.toList.flatMap Node.values

/-! ## What can be saved, by places -/

theorem Table.savable_iff {table : Table Value} :
    table.savable = true ↔ ∀ v ∈ table.entries, v.savable = true := by
  unfold savable entries
  rw [List.all_eq_true, List.forall_mem_map]

theorem Segment.savable_iff {segment : Segment} :
    segment.savable = true ↔ ∀ v ∈ segment.values, v.savable = true := by
  cases segment with
  | dialog d =>
    unfold savable values
    simp only [List.all_eq_true, Table.savable_iff, List.mem_flatMap]
    exact ⟨fun h v ⟨span, hspan, hv⟩ => h span hspan v hv,
      fun h span hspan v hv => h v ⟨span, hspan, hv⟩⟩
  | command c => exact List.all_eq_true
  | var v => simp [savable, values]

theorem Line.savable_iff {line : Line} :
    line.savable = true ↔
      (∀ v ∈ line.values, v.savable = true) ∧ line.position.savable = true := by
  have htags : line.tags.all Tag.savable = true ↔
      ∀ v ∈ line.tags.filterMap Tag.value, v.savable = true := by
    simp only [List.all_eq_true, Tag.savable, Option.all_eq_true, List.mem_filterMap]
    exact ⟨fun h v ⟨tag, htag, hv⟩ => h tag htag v hv, fun h tag htag v hv => h v ⟨tag, htag, hv⟩⟩
  have hsegments : line.segments.all Segment.savable = true ↔
      ∀ v ∈ line.segments.flatMap Segment.values, v.savable = true := by
    simp only [List.all_eq_true, Segment.savable_iff, List.mem_flatMap]
    exact ⟨fun h v ⟨segment, hsegment, hv⟩ => h segment hsegment v hv,
      fun h segment hsegment v hv => h v ⟨segment, hsegment, hv⟩⟩
  unfold savable values
  rw [Bool.and_eq_true, Bool.and_eq_true, hsegments, htags, List.forall_mem_append]

theorem Node.savable_iff {node : Node} :
    node.savable = true ↔
      (∀ v ∈ node.values, v.savable = true) ∧ ∀ p ∈ node.positions, p.savable = true := by
  have hlines : node.lines.toList.all Line.savable = true ↔
      (∀ v ∈ node.lines.toList.flatMap Line.values, v.savable = true) ∧
        ∀ p ∈ node.lines.toList.map Line.position, p.savable = true := by
    simp only [List.all_eq_true, Line.savable_iff, List.mem_flatMap, List.forall_mem_map]
    exact ⟨fun h => ⟨fun v ⟨line, hline, hv⟩ => (h line hline).1 v hv,
        fun line hline => (h line hline).2⟩,
      fun h line hline => ⟨fun v hv => h.1 v ⟨line, hline, hv⟩, h.2 line hline⟩⟩
  have hfields : (node.fields.all fun field => field.2.savable) = true ↔
      ∀ v ∈ node.fields.map Prod.snd, v.savable = true := by
    rw [List.all_eq_true, List.forall_mem_map]
  unfold savable values positions
  rw [Bool.and_eq_true, Bool.and_eq_true, hfields, hlines, List.forall_mem_append,
    List.forall_mem_cons]
  tauto

/-- **A script can be saved** if all its values and all its positions can. -/
theorem Script.savable_iff {script : Script} :
    script.savable = true ↔
      (∀ v ∈ script.values, v.savable = true) ∧ ∀ p ∈ script.positions, p.savable = true := by
  have hnodes : script.nodes.toList.all Node.savable = true ↔
      (∀ v ∈ script.nodes.toList.flatMap Node.values, v.savable = true) ∧
        ∀ p ∈ script.nodes.toList.flatMap Node.positions, p.savable = true := by
    simp only [List.all_eq_true, Node.savable_iff, List.mem_flatMap]
    exact ⟨fun h => ⟨fun v ⟨node, hnode, hv⟩ => (h node hnode).1 v hv,
        fun p ⟨node, hnode, hp⟩ => (h node hnode).2 p hp⟩,
      fun h node hnode => ⟨fun v hv => h.1 v ⟨node, hnode, hv⟩,
        fun p hp => h.2 p ⟨node, hnode, hp⟩⟩⟩
  unfold savable values positions
  rw [Bool.and_eq_true, hnodes, List.all_eq_true, List.forall_mem_append, List.forall_mem_map,
    and_assoc]

/-! ## Positions in 32 bits -/

/-- Values have nothing to do with positions. -/
theorem Script.values_kept (script : Script) : script.kept.values = script.values := by
  have hnode : ∀ node : Node, node.kept.values = node.values := by
    intro node
    rw [Node.values, Node.values, Node.kept, Array.toList_map, List.flatMap_map]
    rfl
  rw [values, values, kept, Array.toList_map, List.flatMap_map]
  congr 1
  funext node
  exact hnode node

/-- Positions in 32 bits can be saved. -/
theorem Script.positions_kept (script : Script) :
    ∀ p ∈ script.kept.positions, p.savable = true := by
  have hlow : ∀ p : Position, (p.moved lowBits).savable = true :=
    fun p => decide_eq_true (Nat.mod_lt _ (by decide))
  refine List.forall_mem_append.mpr ⟨?_, ?_⟩
  · intro p hp
    obtain ⟨node, hnode, hp⟩ := List.mem_flatMap.mp hp
    rw [kept, Array.toList_map] at hnode
    obtain ⟨node, -, rfl⟩ := List.mem_map.mp hnode
    rcases List.mem_cons.mp hp with rfl | hp
    · exact hlow node.position
    · rw [Node.kept, Array.toList_map, List.map_map] at hp
      obtain ⟨line, -, rfl⟩ := List.mem_map.mp hp
      exact hlow line.position
  · intro p hp
    rw [kept, Log.moved, Array.toList_map, List.map_map] at hp
    obtain ⟨report, -, rfl⟩ := List.mem_map.mp hp
    exact hlow report.position

/-! ## Values that are read -/

/-- A value is not the double that is no number. -/
def Value.Proper (v : Value) : Prop := ∀ x, v = .number x → x.isNaN = false

namespace Value

theorem savable_eq {v : Value} (h : v.Proper) : v.savable = !v.isInfinite := by
  cases v with
  | number x => exact Number.isFinite_eq (h x rfl)
  | boolean b => rfl
  | text t => rfl

theorem proper_boolean (b : Bool) : (boolean b).Proper := by
  intro x hx
  cases hx

theorem proper_text (t : String) : (text t).Proper := by
  intro x hx
  cases hx

theorem proper_read (token : List Char) : (read token).Proper := by
  unfold read
  split
  · rintro x ⟨⟩
    exact Number.isNaN_ofDigits token
  · split
    · exact proper_boolean true
    · split
      · exact proper_boolean false
      · exact proper_text _

end Value

open Value

/-! ### The entries of tables -/

namespace Table

theorem mem_entries {table : Table Value} {v : Value} :
    v ∈ table.entries ↔ ∃ key : String, table[key]? = some v := by
  unfold entries
  constructor
  · intro h
    obtain ⟨⟨key, other⟩, hmem, rfl⟩ := List.mem_map.mp h
    exact ⟨key, Std.ExtTreeMap.mem_toList_iff_getElem?_eq_some.mp hmem⟩
  · rintro ⟨key, hkey⟩
    exact List.mem_map.mpr ⟨(key, v), Std.ExtTreeMap.mem_toList_iff_getElem?_eq_some.mpr hkey, rfl⟩

theorem proper_insert {table : Table Value} (h : ∀ v ∈ table.entries, v.Proper)
    (key : String) {value : Value} (hvalue : value.Proper) :
    ∀ v ∈ entries (table.insert key value), v.Proper := by
  intro v hv
  obtain ⟨other, hother⟩ := mem_entries.mp hv
  rw [Std.ExtTreeMap.getElem?_insert] at hother
  split at hother
  · cases hother
    exact hvalue
  · exact h v (mem_entries.mpr ⟨other, hother⟩)

theorem proper_empty : ∀ v ∈ entries ∅, v.Proper := by
  intro v hv
  obtain ⟨key, hkey⟩ := mem_entries.mp hv
  simp at hkey

end Table

/-! ### The parameters of commands -/

namespace Command

theorem proper_finish {s : Splitting} (h : ∀ v ∈ s.finished, v.Proper) :
    ∀ v ∈ s.finish, v.Proper := by
  unfold Splitting.finish
  split
  · exact h
  · exact List.forall_mem_cons.mpr ⟨proper_read _, h⟩

theorem proper_step {s : Splitting} (c : Char) (h : ∀ v ∈ s.finished, v.Proper) :
    ∀ v ∈ (s.step c).finished, v.Proper := by
  unfold Splitting.step
  split
  · split
    · exact h
    · split
      · exact proper_finish h
      · exact h
  · split <;> exact h

theorem proper_splitParameters (cs : List Char) :
    ∀ v ∈ (splitParameters cs).1, v.Proper := by
  have hrun : ∀ v ∈ (cs.foldl Splitting.step Splitting.start).finished, v.Proper := by
    refine List.foldlRecOn (motive := fun s => ∀ v ∈ s.finished, v.Proper) cs Splitting.step ?_ ?_
    · simp [Splitting.start]
    · exact fun s hs c _ => proper_step c hs
  intro v hv
  exact proper_finish hrun v (List.mem_reverse.mp hv)

theorem proper_read {content : List Char} {command : Command} {openQuote : Option Char}
    (h : read content = .ok (command, openQuote)) : ∀ v ∈ command.parameters, v.Proper := by
  simp only [read] at h
  split at h
  · cases h
  · split at h
    · cases h
    · cases h
      exact proper_splitParameters _

end Command

/-! ### The parameters of markup -/

namespace Markup

/-- The values that an item brings. -/
def Item.values : Item → List Value
  | .opener _ parameters => parameters.entries
  | .place _ parameters => parameters.entries
  | _ => []

theorem proper_assignment (word : List Char) :
    ∀ v ∈ (Item.assignment word).2, v.Proper := by
  unfold Item.assignment
  split
  · rintro v ⟨⟩
    exact proper_read _
  · simp

theorem proper_heading? {content : List Char} {name : String} {parameters : Table Value}
    (h : Item.heading? content = some (name, parameters)) :
    ∀ v ∈ parameters.entries, v.Proper := by
  have hpairs : ∀ pair ∈ (Text.words content).map Item.assignment, ∀ v ∈ pair.2, v.Proper := by
    intro pair hpair
    obtain ⟨word, -, rfl⟩ := List.mem_map.mp hpair
    exact proper_assignment word
  unfold Item.heading? at h
  split at h
  · cases h
  · next head value others hwords =>
    rw [hwords, List.forall_mem_cons] at hpairs
    obtain ⟨hown, hothers⟩ := hpairs
    split at h
    · cases h
    · cases h
      refine List.foldlRecOn (motive := fun table => ∀ v ∈ table.entries, v.Proper) others
        Item.addAssignment ?_ ?_
      · cases value with
        | none => exact Table.proper_empty
        | some v => exact Table.proper_insert Table.proper_empty _ (hown v rfl)
      · intro table htable pair hpair
        unfold Item.addAssignment
        split
        · exact htable
        · refine Table.proper_insert htable _ ?_
          cases hv : pair.2 with
          | none => exact proper_boolean true
          | some v => exact hothers pair hpair v hv

theorem proper_ofInterior? {interior : List Char} {item : Item}
    (h : Item.ofInterior? interior = some item) : ∀ v ∈ item.values, v.Proper := by
  unfold Item.ofInterior? at h
  split at h
  · split at h
    · cases h
      simp [Item.values]
    · split at h <;> cases h
      simp [Item.values]
  · split at h
    · obtain ⟨⟨name, parameters⟩, hheading, rfl⟩ := Option.map_eq_some_iff.mp h
      exact proper_heading? hheading
    · obtain ⟨⟨name, parameters⟩, hheading, rfl⟩ := Option.map_eq_some_iff.mp h
      exact proper_heading? hheading

/-- A found item is what the text between its brackets stands for. -/
theorem ofInterior?_next? {passed cs rest : List Char} {f : Found}
    (h : next? passed cs = some (f, rest)) : Item.ofInterior? f.interior = some f.item := by
  fun_induction next? passed cs with
  | case1 => cases h
  | case2 => cases h
  | case3 passed cs before afterOpen hb inside after ha lt outer interior hl plain item? item hi =>
    cases h
    have hinterior : (if plain.head? == some '\\' then none else Item.ofInterior? interior) =
        some item := hi
    split at hinterior
    · cases hinterior
    · exact hinterior
  | case4 passed cs before afterOpen hb inside after ha lt outer interior hl plain item? hi ih =>
    exact ih h

theorem proper_scanFrom {found : List Found} {cs : List Char}
    (h : ∀ f ∈ found, ∀ v ∈ f.item.values, v.Proper) :
    ∀ f ∈ (scanFrom found cs).1, ∀ v ∈ f.item.values, v.Proper := by
  fun_induction scanFrom found cs with
  | case1 =>
    intro f hf
    exact h f (List.mem_reverse.mp hf)
  | case2 found cs f rest hnext lt ih =>
    exact ih (List.forall_mem_cons.mpr ⟨proper_ofInterior? (ofInterior?_next? hnext), h⟩)

end Markup

theorem Drafting.proper_step {f : Markup.Found} {d next : Drafting} (h : d.step f = .ok next)
    (hf : ∀ v ∈ f.item.values, v.Proper)
    (hd : ∀ draft ∈ d.drafts, ∀ v ∈ draft.parameters.entries, v.Proper) :
    ∀ draft ∈ next.drafts, ∀ v ∈ draft.parameters.entries, v.Proper := by
  simp only [step] at h
  split at h
  · next name parameters hitem =>
    cases h
    rw [hitem] at hf
    exact List.forall_mem_cons.mpr ⟨hf, hd⟩
  · next name parameters hitem =>
    cases h
    rw [hitem] at hf
    exact List.forall_mem_cons.mpr ⟨hf, hd⟩
  · split at h
    · next drafts hclose =>
      cases h
      intro draft hmem
      rcases Drafts.mem_close? hclose hmem with hold | ⟨old, hold, rfl⟩
      · exact hd draft hold
      · exact hd old hold
    · cases h
  · cases h
    intro draft hmem
    obtain ⟨old, hold, rfl⟩ := List.mem_map.mp hmem
    exact hd old hold

theorem Drafting.proper_run {items : List Markup.Found} {d e : Drafting}
    (h : items.foldlM Drafting.step d = .ok e) (hitems : ∀ f ∈ items, ∀ v ∈ f.item.values, v.Proper)
    (hd : ∀ draft ∈ d.drafts, ∀ v ∈ draft.parameters.entries, v.Proper) :
    ∀ draft ∈ e.drafts, ∀ v ∈ draft.parameters.entries, v.Proper := by
  induction items generalizing d with
  | nil =>
    cases h
    exact hd
  | cons f items ih =>
    rw [List.foldlM_cons] at h
    obtain ⟨hfirst, hothers⟩ := List.forall_mem_cons.mp hitems
    cases hstep : d.step f with
    | error fault =>
      rw [hstep] at h
      cases h
    | ok next =>
      rw [hstep] at h
      exact ih h hothers (proper_step hstep hfirst hd)

/-! ### Segments -/

namespace Segment

theorem proper_dialog {content : List Char} {dialog : Dialog}
    (h : Dialog.read content = .ok dialog) :
    ∀ v ∈ (Segment.dialog dialog).values, v.Proper := by
  simp only [Dialog.read] at h
  split at h
  · cases h
  · next d hrun =>
    split at h
    · cases h
      have hdrafts := Drafting.proper_run hrun (Markup.proper_scanFrom (by simp))
        (by simp [Drafting.start])
      intro v hv
      obtain ⟨span, hspan, hv⟩ := List.mem_flatMap.mp hv
      obtain ⟨draft, hdraft, rfl⟩ := List.mem_map.mp hspan
      exact hdrafts draft (List.mem_reverse.mp hdraft) v hv
    · cases h

theorem Of.proper {part : Part} {segment : Segment} (h : Of part segment) :
    ∀ v ∈ segment.values, v.Proper := by
  obtain ⟨warning, h⟩ := h
  cases part with
  | text cs =>
    simp only [ofPart] at h
    split at h
    · next d hd => cases h; exact proper_dialog hd
    · cases h
  | command cs =>
    simp only [ofPart] at h
    split at h
    · next c q hc => cases h; exact Command.proper_read hc
    · cases h
  | var cs =>
    simp only [ofPart] at h
    split at h
    · cases h; simp [values]
    · cases h

end Segment

/-! ### Lines -/

namespace Tag

theorem proper_read (cs : List Char) : ∀ v ∈ (read cs).value, v.Proper := by
  unfold read
  dsimp only
  split
  · rintro v ⟨⟩
    exact Value.proper_read _
  · simp

theorem mem_addTo {tags : List Tag} {tag other : Tag} (h : other ∈ addTo tags tag) :
    other ∈ tags ∨ other = tag := by
  unfold addTo at h
  split at h
  · exact .inl h
  · exact (List.mem_append.mp h).imp_right List.mem_singleton.mp

end Tag

namespace Line

theorem proper_identify {s : Session} {written : List Tag}
    (h : ∀ tag ∈ written, ∀ v ∈ tag.value, v.Proper) :
    ∀ tag ∈ (identify s written).2.1, ∀ v ∈ tag.value, v.Proper := by
  have hcollect : ∀ tag ∈ Tag.collect written, ∀ v ∈ tag.value, v.Proper :=
    fun tag htag => h tag (Tag.mem_of_mem_collect htag)
  unfold identify
  split
  · exact hcollect
  · intro tag htag
    rcases Tag.mem_addTo htag with hold | rfl
    · exact hcollect tag hold
    · rintro v ⟨⟩
      exact proper_text _

/-- **The values in a line** are never no number. -/
theorem read_proper {content : List Char} {node : String} {position : Position} {s t : Session}
    {line : Line} (h : read content node position s = (.ok line, t)) :
    ∀ v ∈ line.values, v.Proper := by
  obtain ⟨segments, id, tags, u, v, w, hp, hi, -, rfl, -⟩ := read_ok h
  have hof := Segment.forall₂_of_readParts hp
  have hwritten : ∀ tag ∈ (Layout.read s.options.tabWidth content).tags, ∀ v ∈ tag.value,
      v.Proper := by
    intro tag htag
    obtain ⟨cs, rfl⟩ := exists_read_of_mem htag
    exact Tag.proper_read cs
  have htags := proper_identify (s := noticeIdle u position
    (Layout.read s.options.tabWidth content).tags) hwritten
  rw [hi] at htags
  refine List.forall_mem_append.mpr ⟨?_, ?_⟩
  · intro value hvalue
    obtain ⟨segment, hsegment, hvalue⟩ := List.mem_flatMap.mp hvalue
    obtain ⟨part, -, hpart⟩ := exists_of_mem_forall₂ hof segment hsegment
    exact hpart.proper value hvalue
  · intro value hvalue
    obtain ⟨tag, htag, hvalue⟩ := List.mem_filterMap.mp hvalue
    exact htags tag htag value hvalue

end Line

/-! ### Nodes -/

namespace Outline

/-- The tag that options give has no value. -/
theorem filterMap_value_addTo (tags : List Tag) :
    (Tag.addTo tags (.of Tag.lastLineKey none)).filterMap Tag.value = tags.filterMap Tag.value := by
  unfold Tag.addTo
  split
  · rfl
  · rw [List.filterMap_append]
    exact List.append_nil _

theorem map_values_link (lines : Array Line) (latest : Std.ExtTreeMap Nat Nat) (line : Line) :
    (link lines latest line).toList.map Line.values = lines.toList.map Line.values := by
  cases hp : lines.back? with
  | none => rw [link_of_back_none hp]
  | some previous =>
    apply List.ext_getElem?
    intro i
    simp only [List.getElem?_map, Array.getElem?_toList, getElem?_link hp, Option.map_map]
    congr 1
    funext l
    simp only [Function.comp_apply, Line.values]
    split
    · rw [filterMap_value_addTo]
    · rfl

/-- **Linking lines** brings no values. -/
theorem map_values_ofLines (lines : List Line) :
    (ofLines lines).toList.map Line.values = lines.map Line.values := by
  induction lines using List.reverseRecOn with
  | nil => rfl
  | append_singleton lines line ih =>
    unfold ofLines at ih ⊢
    rw [List.foldl_append, List.foldl_cons, List.foldl_nil, List.map_append, ← ih]
    unfold place
    rw [Array.toList_push, List.map_append, map_values_link]

end Outline

namespace Node

theorem LinesRead.proper {node : String} {s t : Session} {ls : List Located} {lines : List Line}
    (h : LinesRead node s ls lines t) : ∀ line ∈ lines, ∀ v ∈ line.values, v.Proper := by
  induction h with
  | nil s => simp
  | cons head _ ih => exact List.forall_mem_cons.mpr ⟨Line.read_proper head, ih⟩

theorem proper_readFields {ls : List Located} {fields : List (String × Value)}
    (h : readFields ls = .ok fields) : ∀ field ∈ fields, field.2.Proper := by
  intro field hfield
  obtain ⟨l, -, hread⟩ := exists_of_mem_forall₂ (mapM_eq_ok_iff.mp h).flip field hfield
  unfold readField at hread
  split at hread
  · next found hfound =>
    cases hread
    obtain ⟨⟨key, value⟩, -, rfl⟩ := Option.map_eq_some_iff.mp hfound
    exact proper_read _
  · cases hread

/-- **The values in a node** are never no number. -/
theorem read_proper {content : List Char} {position : Position} {s t : Session} {node : Node}
    (h : read content position s = (.ok node, t)) : ∀ v ∈ node.values, v.Proper := by
  obtain ⟨fields, id, lines, hf, -, hr, -, rfl⟩ := read_ok h
  refine List.forall_mem_append.mpr ⟨?_, ?_⟩
  · exact List.forall_mem_map.mpr (proper_readFields hf)
  · rw [List.flatMap_def, Outline.map_values_ofLines, ← List.flatMap_def]
    intro v hv
    obtain ⟨line, hline, hv⟩ := List.mem_flatMap.mp hv
    exact hr.proper line hline v hv

end Node

/-! ## The script -/

namespace Script

variable {content : String} {options : Options} {script : Script}

theorem values_proper (h : parseWith content options = .ok script) :
    ∀ v ∈ script.values, v.Proper := by
  intro v hv
  obtain ⟨node, hnode, hv⟩ := List.mem_flatMap.mp hv
  obtain ⟨content, position, s, t, hread⟩ := exists_read h (Array.mem_toList_iff.mp hnode)
  exact Node.read_proper hread v hv

/-- **Saving loses nothing but infinite numbers.**  A script that was read is saved and read back as
it is, and answers alike, if no value in it is an infinite number; with an infinite number it cannot
be read back.  Positions are kept in 32 bits, which cuts nothing off in a document that has no more
than `2 ^ 32` lines. -/
theorem parseWith_saved (h : parseWith content options = .ok script) :
    ((Document.lines content).length ≤ UInt32.size → script.kept = script) ∧
      ((∀ v ∈ script.values, v.isInfinite = false) →
        ∃ again, Saved.script? (Saved.ofScript script.kept) = some again ∧ again = script.kept ∧
          (∀ id, again.line? id = script.kept.line? id) ∧
          (∀ ref?, again.next? ref? = script.kept.next? ref?) ∧
          ∀ ref, again.child? ref = script.kept.child? ref) ∧
      ((∃ v ∈ script.values, v.isInfinite = true) →
        Saved.script? (Saved.ofScript script.kept) = none) := by
  have hproper := values_proper h
  refine ⟨kept_of_parseWith h, ?_, ?_⟩
  · intro hfinite
    have hsavable : script.kept.savable = true := by
      refine savable_iff.mpr ⟨?_, script.positions_kept⟩
      rw [values_kept]
      intro v hv
      rw [savable_eq (hproper v hv), hfinite v hv]
      rfl
    refine ⟨script.kept, ?_, rfl, fun _ => rfl, fun _ => rfl, fun _ => rfl⟩
    rw [Saved.script?_ofScript_if, if_pos hsavable]
  · rintro ⟨v, hv, hinfinite⟩
    rw [Saved.script?_ofScript_if, if_neg]
    intro hsavable
    rw [savable_iff, values_kept] at hsavable
    have hv' := hsavable.1 v hv
    rw [savable_eq (hproper v hv), hinfinite] at hv'
    cases hv'

/-- Numbers in all four places. -/
def savedSample : String :=
  "title: A\nn: 7\n---\nBob: [b x=12]Hi[/b] #t:3 <<set 4>>\n  Yes\nNo"

/-- A field with more digits than any double has. -/
def unsavedSample : List Char :=
  "title: A\nn: ".toList ++ List.replicate 310 '9' ++ "\n---\nHi".toList

/-- What a check finds in the nodes of a script whose document is known by its characters. -/
theorem exists_parseWith_ofList {cs : List Char} {options : Options} {check : List Node → Bool}
    (hsize : options.maxSize = none)
    (h : (readNodes [] ∅ (.start options) (Block.ofDocument (cs.filter (· != '\r')))).1.toOption.any
      (fun nodes => !nodes.isEmpty && check nodes) = true) :
    ∃ script, parseWith (String.ofList cs) options = .ok script ∧
      check script.nodes.toList = true := by
  obtain ⟨nodes, s, hr, hnodes⟩ := exists_of_any h
  rw [Bool.and_eq_true, Bool.not_eq_true', List.isEmpty_eq_false_iff] at hnodes
  have hblocks : blocksOf (String.ofList cs) = Block.ofDocument (cs.filter (· != '\r')) := by
    rw [blocksOf, String.toList_ofList]
  rw [← hblocks] at hr
  exact ⟨_, parseWith_eq (by rw [hsize]; rfl) hr hnodes.1, hnodes.2⟩

theorem parseWith_saved_sample :
    (∃ script, parseWith savedSample {} = .ok script ∧ script.values.length = 8 ∧
      ∃ again, Saved.script? (Saved.ofScript script) = some again ∧ again = script) ∧
      ∃ script, parseWith (String.ofList unsavedSample) { maxSize := none } = .ok script ∧
        Saved.script? (Saved.ofScript script.kept) = none := by
  constructor
  · have hcheck : (parseWith savedSample {}).toOption.any (fun script =>
        decide (script.values.length = 8) && script.values.all fun v => !v.isInfinite) = true := by
      decide +kernel
    obtain ⟨script, h, hvalues⟩ := exists_parseWith hcheck
    rw [Bool.and_eq_true, decide_eq_true_eq, List.all_eq_true] at hvalues
    have hlines : (Document.lines savedSample).length ≤ UInt32.size := by decide +kernel
    obtain ⟨hkept, hsaved, -⟩ := parseWith_saved h
    obtain ⟨again, hagain, hsame, -⟩ := hsaved fun v hv => by simpa using hvalues.2 v hv
    rw [hkept hlines] at hagain hsame
    exact ⟨script, h, hvalues.1, again, hagain, hsame⟩
  · have hcheck : (readNodes [] ∅ (.start { maxSize := none })
        (Block.ofDocument (unsavedSample.filter (· != '\r')))).1.toOption.any (fun nodes =>
          !nodes.isEmpty && (nodes.flatMap Node.values).any Value.isInfinite) = true := by
      decide +kernel
    obtain ⟨script, h, hvalues⟩ := exists_parseWith_ofList rfl hcheck
    exact ⟨script, h, (parseWith_saved h).2.2 (List.any_eq_true.mp hvalues)⟩

end Script

end Parley
