import Parley.Proofs.Alike
import Parley.Proofs.Bounds
import Parley.Proofs.Clashes

/-!
# Nodes that are read alone

The nodes of a document share one session: a cast, a counter for ids, and the ids that are taken.
Still a node does not depend on the nodes before it.  Its own text, read in a session of its own,
gives the same node, with lines that are alike and links that lead to the same places
(`Node.Alike`); only the minted ids are others.

The text must not give its lines ids that look like minted ones.  An id like that may be free in the
document, where the counter is past it, and be minted for another line when the node is read alone.

* `located_eq_map` — the lines of a text stand further down where the text does.
* `Line.passes_fine` — lines with sound pieces and own ids that are different, and not like minted
  ones, can be read behind each other.
* `Node.exists_alone` — the text of a node that was read is read again, and the node is alike.
* `Node.Alike.kept_eq` — 32 bits that hold the positions of a node hold those of one that is alike.
* `Script.parseWith_alone` — every node of a document is read again alike.
-/

namespace Parley

/-! ## Where a text stands -/

theorem located_eq_map (cs : List Char) (n : Nat) :
    located cs ⟨n⟩ = (located cs ⟨0⟩).map (Located.down n) := by
  apply List.ext_getElem?
  intro i
  simp [located, Located.down, Position.down, Function.comp_def]

namespace Node

variable {ls : List Located} {n : Nat}

theorem headerOf_down :
    headerOf (ls.map (Located.down n)) = (headerOf ls).map (Located.down n) := by
  unfold headerOf
  rw [List.takeWhile_map]
  rfl

theorem bodyOf_down : bodyOf (ls.map (Located.down n)) = (bodyOf ls).map (Located.down n) := by
  unfold bodyOf
  rw [List.dropWhile_map, ← List.map_drop, List.filter_map]
  rfl

theorem readField_eq_ok_iff {l : Located} {field : String × Value} :
    readField l = .ok field ↔ fieldOfLine? l.1 = some field := by
  unfold readField
  split <;> simp_all

/-- The fields of a text are the same wherever it stands. -/
theorem readFields_down {fields : List (String × Value)} :
    readFields (ls.map (Located.down n)) = .ok fields ↔ readFields ls = .ok fields := by
  unfold readFields
  rw [List.filter_map, mapM_eq_ok_iff, mapM_eq_ok_iff, List.forall₂_map_right_iff]
  simp only [readField_eq_ok_iff]
  rfl

end Node

/-! ## Lines that can be read again -/

namespace Line

variable {content : List Char} {node : String} {position : Position} {s t : Session} {line : Line}

/-- A line that was read has sound pieces. -/
theorem sound_of_read (h : read content node position s = (.ok line, t)) :
    ∀ part ∈ pieces content, part.Sound := by
  rcases passes_or_stops (fun _ => Part.Sound) (pieces content) with hpass | ⟨before, part, hstop⟩
  · exact passes_iff_forall.mp hpass
  · have hmem : part ∈ pieces content := hstop.place.subset (by simp)
    rcases Part.sound_or_fails (formed_pieces content part hmem) with hsound | ⟨fault, hfails⟩
    · exact absurd hsound hstop.bad
    · obtain ⟨segments, id, tags, u, v, w, hp, -⟩ := read_ok h
      obtain ⟨u', hstops⟩ := readParts_stops hstop hfails position []
        (speaker? s (Layout.read s.options.tabWidth content).speaker).2
      have hp' : readParts position []
          (speaker? s (Layout.read s.options.tabWidth content).speaker).2 (pieces content) =
          (.ok segments, u) := hp
      rw [hp'] at hstops
      cases hstops

/-- A line that gives itself an id gets that one. -/
theorem id_of_read (h : read content node position s = (.ok line, t)) {id : String}
    (hown : ownId? content = some id) : line.id = id := by
  obtain ⟨segments, id', tags, u, v, w, -, hi, -, rfl, -⟩ := read_ok h
  have hid : Tag.lineId? (Layout.read s.options.tabWidth content).tags = some id := hown
  unfold identify at hi
  rw [hid] at hi
  cases hi
  rfl

/-- What a minted line id begins with. -/
def mintedStem : List Char := "line_".toList

theorem stem_mintedId (n : Nat) : mintedStem <+: (mintedId Tag.lineKey n).toList := by
  refine ⟨hexDigits n, ?_⟩
  simp [mintedId, mintedStem, Tag.lineKey]

/-- **Lines can be read behind each other** if their pieces are sound, and their own ids are
different and not like minted ones. -/
theorem passes_fine {told : List (List Char)}
    (hsound : ∀ content ∈ told, ∀ part ∈ pieces content, part.Sound)
    (hown : (ownIds told).Nodup) (hplain : ∀ id ∈ ownIds told, ¬ mintedStem <+: id.toList) :
    Passes Fine told := by
  have hnone : ∀ id, ¬ Clash told id := by
    rintro id ⟨hmem, before, content, -, hunnamed, rfl⟩
    rw [idAfter_of_unnamed before hunnamed] at hmem
    exact hplain _ hmem (stem_mintedId _)
  have hids := nodup_ids_iff.mp ((nodup_ids_iff_not_clash hown).mpr hnone)
  intro before content hplace
  exact ⟨hsound content (hplace.subset (by simp)), hids before content hplace⟩

end Line

namespace Node

variable {node : String} {s t : Session} {ls : List Located} {lines : List Line}

theorem LinesRead.sound (h : LinesRead node s ls lines t) :
    ∀ content ∈ ls.map Prod.fst, ∀ part ∈ Line.pieces content, part.Sound := by
  induction h with
  | nil s => simp
  | cons head _ ih => exact List.forall_mem_cons.mpr ⟨Line.sound_of_read head, ih⟩

/-- The ids that lines give themselves are among the ids that they get. -/
theorem LinesRead.ownIds_sublist (h : LinesRead node s ls lines t) :
    (Line.ownIds (ls.map Prod.fst)).Sublist (lines.map Line.id) := by
  induction h with
  | nil s => exact .slnil
  | @cons s t u l line ls lines head _ ih =>
    rw [List.map_cons, List.map_cons, Line.ownIds, List.filterMap_cons]
    cases hown : Line.ownId? l.1 with
    | none => exact ih.cons _
    | some id =>
      rw [Line.id_of_read head hown]
      exact ih.cons_cons _

/-- **Lines that were read are read again** behind each other, in a session that keeps none. -/
theorem LinesRead.exists_again (h : LinesRead node s (ls.map (Located.down n)) lines t)
    (hplain : ∀ id ∈ Line.ownIds (ls.map Prod.fst), ¬ Line.mintedStem <+: id.toList)
    {s' : Session} (hs' : s'.Told []) : ∃ others u, LinesRead node s' ls others u := by
  have htexts : (ls.map (Located.down n)).map Prod.fst = ls.map Prod.fst := by
    rw [List.map_map]
    rfl
  have hown : (Line.ownIds (ls.map Prod.fst)).Nodup :=
    htexts ▸ h.ownIds_sublist.nodup h.owner?.1
  have hfine := Line.passes_fine (htexts ▸ h.sound) hown hplain
  -- The lines as they are numbered in a document of their own.
  obtain ⟨numbered, rfl⟩ : ∃ numbered : List Numbered, ls = numbered.map Numbered.located :=
    ⟨ls.map fun l => (l.1, l.2.index), by rw [List.map_map]; exact (List.map_id ls).symm⟩
  have hnumbered : (numbered.map Numbered.located).map Prod.fst = numbered.map Prod.fst := by
    rw [List.map_map]
    rfl
  rw [hnumbered, passes_map] at hfine
  have hlines : Passes (Document.LineFine []) numbered := hfine
  obtain ⟨done, u, hrest, -, -⟩ := readLines_append hlines hs' node
  have hall := hrest []
  rw [List.append_nil, readLines, readLines_ok_iff] at hall
  obtain ⟨others, -, hread⟩ := hall
  exact ⟨others, u, hread⟩

/-- Two nodes of one text are alike, if the second one stands alone: they agree in all but the ids
that are minted, and in where they stand. -/
structure Alike (node alone : Node) : Prop where
  id : alone.id = node.id
  fields : alone.fields = node.fields
  source : alone.source = node.source
  position : alone.position = ⟨0⟩
  lines : List.Forall₂ (Line.Alike node.position.index) node.lines.toList alone.lines.toList
  links : LinkedAlike node alone

/-- Positions that fit in the document fit in the text of the node, where they are smaller. -/
theorem Alike.kept_eq {node alone : Node} (h : node.Alike alone)
    (hfits : ∀ p ∈ node.positions, p.index < UInt32.size) : alone.kept = alone := by
  apply Node.kept_eq
  refine List.forall_mem_cons.mpr ⟨by rw [h.position]; decide, List.forall_mem_map.mpr ?_⟩
  intro other hother
  obtain ⟨line, hline, halike⟩ := exists_of_mem_forall₂ h.lines other hother
  have hlt := hfits line.position (List.mem_cons_of_mem _ (List.mem_map_of_mem hline))
  rw [halike.position] at hlt
  exact Nat.lt_of_le_of_lt (Nat.le_add_left _ _) hlt

end Node

/-- The ids that the `#line:` tags of a line give, as they are written. -/
def Line.writtenIds (content : List Char) : List String :=
  ((Layout.read 0 content).tags.filter Tag.isLineTag).filterMap Tag.written?

theorem Line.mem_writtenIds {content : List Char} {id : String} (h : ownId? content = some id) :
    id ∈ writtenIds content :=
  List.mem_of_getLast? h

namespace Node

variable {content : List Char} {position : Position} {s t : Session} {node : Node}

theorem LinesRead.map_source {node : String} {ls : List Located} {lines : List Line}
    (h : LinesRead node s ls lines t) :
    lines.map (fun line => line.source.toList) = ls.map Prod.fst := by
  induction h with
  | nil s => rfl
  | cons head _ ih =>
    obtain ⟨_, _, _, _, _, _, _, _, _, rfl, _⟩ := Line.read_ok head
    rw [List.map_cons, List.map_cons, ih, Line.ofLayout, String.toList_ofList]

/-- The lines of a node keep the texts that they are read from. -/
theorem read_sources (h : read content position s = (.ok node, t)) :
    node.lines.toList.map (fun line => line.source.toList) =
      (bodyOf (located content position)).map Prod.fst := by
  obtain ⟨lines, hr, -, hp, he, -⟩ := read_placed h
  rw [he, ← hr.map_source]
  exact Line.map_of_bare (fun line => line.source.toList) (fun _ => rfl) hp.bare

/-- **A node that was read is read again** from its own text alone, and is alike. -/
theorem exists_alone (h : read content position s = (.ok node, t))
    (hs : s.Brings ({} : Options).tabWidth)
    (hplain : ∀ line ∈ node.lines, ∀ id ∈ Line.writtenIds line.source.toList,
      ¬ Line.mintedStem <+: id.toList) :
    ∃ alone u, parse node.source = (.ok alone, u) ∧ node.Alike alone := by
  have hsources := read_sources h
  obtain ⟨fields, id, lines, hf, ht, hr, hne, hnode⟩ := read_ok h
  obtain ⟨n⟩ := position
  rw [located_eq_map, headerOf_down, readFields_down] at hf
  rw [located_eq_map, bodyOf_down] at hr hsources
  have hown : ∀ id ∈ Line.ownIds ((bodyOf (located content ⟨0⟩)).map Prod.fst),
      ¬ Line.mintedStem <+: id.toList := by
    intro id hid
    obtain ⟨text, htext, hid⟩ := List.mem_filterMap.mp hid
    have hmem : text ∈ node.lines.toList.map fun line => line.source.toList := by
      rw [hsources, List.map_map]
      exact htext
    obtain ⟨line, hline, rfl⟩ := List.mem_map.mp hmem
    exact hplain line (Array.mem_toList_iff.mp hline) id (Line.mem_writtenIds hid)
  have htold := (Session.told_start {}).notice (.nodeBegun ⟨0⟩ id)
  obtain ⟨others, u, hr'⟩ := hr.exists_again hown htold
  have hlines := hr.alike hr' (hs.notice _) ((Session.brings_start {}).notice _)
  have hne' : others ≠ [] := by
    rintro rfl
    exact hne (List.forall₂_nil_right_iff.mp hlines)
  have halone : parse node.source = (.ok ⟨id, fields, Outline.ofLines others,
      indexOf (Outline.ofLines others).toList, String.ofList content, ⟨0⟩⟩, u) := by
    rw [source_read h, parse, String.toList_ofList]
    exact read_eq hf ht hr' hne'
  refine ⟨_, u, halone, ?_⟩
  have hread := halone
  rw [parse] at hread
  have hlinked := Outline.forall₂_ofLines hlines
  subst hnode
  exact ⟨rfl, rfl, rfl, rfl, hlinked, linkedAlike h hread hlinked⟩

end Node

/-! ## The nodes of a script -/

theorem Node.read_brings {content : List Char} {position : Position} {s t : Session} {node : Node}
    {tabWidth : Nat} (h : read content position s = (.ok node, t)) (hs : s.Brings tabWidth) :
    t.Brings tabWidth := by
  obtain ⟨lines, hr, -⟩ := read_placed h
  exact hr.brings (hs.notice _)

namespace Script

variable {content : String} {options : Options} {script : Script}

/-- Every node is read in a session that brings what the settings say. -/
theorem NodesRead.exists_brings {s t : Session} {blocks : List Block} {nodes : List Node}
    {tabWidth : Nat} (h : NodesRead s blocks nodes t) (hs : s.Brings tabWidth) :
    ∀ node ∈ nodes, ∃ content position u v, Node.read content position u = (.ok node, v) ∧
      u.Brings tabWidth := by
  induction h with
  | nil s => simp
  | cons head _ ih =>
    exact List.forall_mem_cons.mpr
      ⟨⟨_, _, _, _, head, hs⟩, ih (Node.read_brings head hs)⟩

/-- **Nodes do not influence one another**: where tabs have their usual width and no id that is
written looks like a minted one, the text of every node is read alone too, and the node is alike.
If the document has no more than `2 ^ 32` lines, the positions in both are those that 32 bits
hold. -/
theorem parseWith_alone (h : parseWith content options = .ok script)
    (htab : options.tabWidth = ({} : Options).tabWidth)
    (hplain : ∀ node ∈ script.nodes, ∀ line ∈ node.lines,
      ∀ id ∈ Line.writtenIds line.source.toList, ¬ Line.mintedStem <+: id.toList) :
    ∀ node ∈ script.nodes, ∃ alone t, Node.parse node.source = (.ok alone, t) ∧
      node.Alike alone ∧
      ((Document.lines content).length ≤ UInt32.size →
        node.kept = node ∧ alone.kept = alone) := by
  intro node hnode
  have hpositions : ∀ p ∈ node.positions, p.index < (Document.lines content).length := by
    intro p hp
    refine positions_lt h p (List.mem_append_left _ (List.mem_flatMap.mpr ⟨node, ?_, hp⟩))
    exact Array.mem_toList_iff.mpr hnode
  obtain ⟨nodes, s, hr, -, hscript⟩ := parseWith_ok h
  obtain ⟨new, hnew, hread⟩ := readNodes_ok hr
  rw [List.reverse_nil, List.nil_append] at hnew
  subst hnew
  have hmem : node ∈ nodes := by
    rw [hscript] at hnode
    exact List.mem_toArray.mp hnode
  obtain ⟨content, position, u, v, hone, hu⟩ :=
    hread.exists_brings (Session.brings_start options) node hmem
  obtain ⟨alone, t, halone, halike⟩ := Node.exists_alone hone (htab ▸ hu) (hplain node hnode)
  refine ⟨alone, t, halone, halike, fun hlines => ?_⟩
  have hfits : ∀ p ∈ node.positions, p.index < UInt32.size :=
    fun p hp => Nat.lt_of_lt_of_le (hpositions p hp) hlines
  exact ⟨Node.kept_eq hfits, halike.kept_eq hfits⟩

/-- Speakers, options, and lines with and without ids in two nodes, the second one further down. -/
def aloneSample : String :=
  "title: A\n---\nX: One\nTwo\n===\n\ntitle: B\nn: 1\n---\nX: Three #line:b\n" ++
    "  -> Four <<jump A>>\n\n    Y: Five #tag #line\n  -> Six #line:c\nSeven"

theorem parseWith_alone_sample :
    ∃ script, parseWith aloneSample {} = .ok script ∧
      (∀ node ∈ script.nodes, ∀ line ∈ node.lines,
        ∀ id ∈ Line.writtenIds line.source.toList, ¬ Line.mintedStem <+: id.toList) ∧
      script.nodes.size = 2 ∧
      ∀ node ∈ script.nodes, ∃ alone t, Node.parse node.source = (.ok alone, t) ∧
        node.Alike alone ∧ node.kept = node ∧ alone.kept = alone := by
  have hcheck : (parseWith aloneSample {}).toOption.any (fun script => decide
      ((∀ node ∈ script.nodes.toList, ∀ line ∈ node.lines.toList,
        ∀ id ∈ Line.writtenIds line.source.toList, ¬ Line.mintedStem <+: id.toList) ∧
      script.nodes.size = 2)) = true := by
    decide +kernel
  obtain ⟨script, h, hscript⟩ := exists_parseWith hcheck
  obtain ⟨hplain, hsize⟩ := of_decide_eq_true hscript
  have hplain' : ∀ node ∈ script.nodes, ∀ line ∈ node.lines,
      ∀ id ∈ Line.writtenIds line.source.toList, ¬ Line.mintedStem <+: id.toList :=
    fun node hnode line hline =>
      hplain node (Array.mem_toList_iff.mpr hnode) line (Array.mem_toList_iff.mpr hline)
  refine ⟨script, h, hplain', hsize, fun node hnode => ?_⟩
  have hlines : (Document.lines aloneSample).length ≤ UInt32.size := by decide +kernel
  obtain ⟨alone, t, halone, halike, hkept⟩ := parseWith_alone h rfl hplain' node hnode
  exact ⟨alone, t, halone, halike, hkept hlines⟩

/-- The id of the last line looks like a minted one that the counter has passed by then. -/
def clashingAlone : String :=
  "title: A\n---\nX: One\n===\ntitle: B\n---\nTwo\nThree #line:line_00000000"

/-- **Ids like minted ones** can make a node depend on the nodes before it. -/
example :
    ((parseWith clashingAlone {}).toOption.any fun script => script.nodes.toList.any fun node =>
      (Node.parse node.source).1.toOption.isNone) = true := by
  decide +kernel

end Script

end Parley
