import Mathlib.Data.List.Nodup
import Parley.Proofs.Ids

/-!
# Looking things up in a script

Four tables give the nodes and the lines of a script: the owners of lines while it is read, the
nodes of the script, the nodes of its lines, and the lines of each node.  A later entry under the
same name would replace an earlier one without a word.  None does: a line is read only if its id is
free in the session, which goes through all nodes, and a node only if its title is new.

* `readNodes_nodup` and `NodesRead.owner?` — nodes have pairwise different ids, and so have the
  lines of all nodes together.
* `node?_eq_some_iff` and `line?_eq_some_iff` — a look-up finds a node or a line exactly by its own
  id.
* `next?_line` and `child?_line` — a walk through the script goes on as inside the node.
* `Script.parseWith_coherent` — all of this holds of every script that can be read.
-/

namespace Parley

namespace Node

variable {content : List Char} {position : Position} {s t : Session} {node : Node}

/-- The ids of the lines. -/
def lineIds (node : Node) : List String := node.lines.toList.map Line.id

theorem LinesRead.node_eq {id : String} {ls : List Located} {lines : List Line}
    (h : LinesRead id s ls lines t) : ∀ line ∈ lines, line.node = id := by
  induction h with
  | nil s => simp
  | cons head _ ih =>
    refine List.forall_mem_cons.mpr ⟨?_, ih⟩
    obtain ⟨_, _, _, _, _, _, _, _, _, rfl, _⟩ := Line.read_ok head
    rfl

/-- Every line of a node knows its node. -/
theorem node_of_mem (h : read content position s = (.ok node, t)) {line : Line}
    (hl : line ∈ node.lines) : line.node = node.id := by
  obtain ⟨lines, hr, -, hp, he, -⟩ := read_placed h
  have hmem : line.node ∈ lines.map Line.node := by
    rw [← Line.map_of_bare Line.node (fun _ => rfl) hp.bare, ← he]
    exact List.mem_map_of_mem (Array.mem_toList_iff.mpr hl)
  obtain ⟨other, hother, hsame⟩ := List.mem_map.mp hmem
  rw [← hsame, hr.node_eq other hother]

/-- Reading a node gives its lines owners, whose ids were free before. -/
theorem read_owner? (h : read content position s = (.ok node, t)) :
    (∀ id ∈ node.lineIds, s.owner? id = none) ∧
      ∀ id, t.owner? id = if id ∈ node.lineIds then some node.id else s.owner? id := by
  obtain ⟨lines, hr, -, hp, he, -⟩ := read_placed h
  obtain ⟨-, hfree, hall⟩ := hr.owner?
  rw [lineIds, he, Line.map_of_bare Line.id (fun _ => rfl) hp.bare]
  exact ⟨hfree, hall⟩

/-- The links of a line name lines of its node. -/
theorem exists_linked (h : read content position s = (.ok node, t)) {line : Line}
    (hl : line ∈ node.lines) {id : String}
    (hid : line.firstChild = some id ∨ line.nextSibling = some id) :
    ∃ target ∈ node.lines, target.id = id := by
  obtain ⟨i, hi⟩ := Array.mem_iff_getElem?.mp hl
  obtain ⟨hchild, hsibling⟩ := read_links h
  have hplace : ∃ j : Nat, node.lines[j]?.map Line.id = some id := by
    rcases hid with hid | hid
    · have := hchild i
      rw [hi, Option.bind_some, hid] at this
      split at this
      · exact ⟨i + 1, this.symm⟩
      · cases this
    · obtain ⟨j, -, hj⟩ := (hsibling i id).mp (by rw [hi, Option.bind_some, hid])
      exact ⟨j, hj⟩
  obtain ⟨j, hj⟩ := hplace
  obtain ⟨target, htarget, hid⟩ := Option.map_eq_some_iff.mp hj
  exact ⟨target, Array.mem_of_getElem? htarget, hid⟩

end Node

namespace Script

/-! ## Reading the nodes -/

/-- **No two nodes that are read one after the other share an id.** -/
theorem readNodes_nodup {done result : List Node} {starts : Table Position} {s t : Session}
    {blocks : List Block} (h : readNodes done starts s blocks = (.ok result, t))
    (hstarts : ∀ id, starts[id]? = none ↔ id ∉ done.map Node.id)
    (hdone : (done.map Node.id).Nodup) : (result.map Node.id).Nodup := by
  induction blocks generalizing done starts s with
  | nil =>
    cases h
    rw [List.map_reverse]
    exact List.nodup_reverse.mpr hdone
  | cons block blocks ih =>
    unfold readNodes at h
    split at h
    · cases h
    · next node u hn =>
      split at h
      · cases h
      · next hnew =>
        apply ih h
        · intro id
          rw [Std.ExtTreeMap.getElem?_insert, List.map_cons, List.mem_cons, not_or, ← hstarts]
          simp only [Std.LawfulEqCmp.compare_eq_iff_eq]
          split
          · next he => simp [he]
          · next hne => simp [Ne.symm hne]
        · exact List.nodup_cons.mpr ⟨(hstarts node.id).mp hnew, hdone⟩

/-- The ids of the lines of all nodes. -/
def lineIds (nodes : List Node) : List String := nodes.flatMap Node.lineIds

/-- **No two lines share an id**, whichever nodes they belong to. -/
theorem NodesRead.owner? {s t : Session} {blocks : List Block} {nodes : List Node}
    (h : NodesRead s blocks nodes t) :
    (lineIds nodes).Nodup ∧ (∀ id ∈ lineIds nodes, s.owner? id = none) := by
  induction h with
  | nil s => simp [lineIds]
  | @cons s t u block node blocks nodes head _ ih =>
    obtain ⟨hnodup, hfree⟩ := ih
    obtain ⟨hfirst, hone⟩ := Node.read_owner? head
    have hothers : ∀ id ∈ lineIds nodes, id ∉ node.lineIds ∧ s.owner? id = none := by
      intro id hid
      have hlater := hfree id hid
      rw [hone] at hlater
      split at hlater
      · cases hlater
      · next hnew => exact ⟨hnew, hlater⟩
    unfold lineIds at hnodup hothers ⊢
    rw [List.flatMap_cons]
    constructor
    · refine List.nodup_append.mpr ⟨Node.ids_nodup head, hnodup, ?_⟩
      rintro id hid _ hother rfl
      exact (hothers id hother).1 hid
    · intro id hid
      rcases List.mem_append.mp hid with hid | hid
      · exact hfirst id hid
      · exact (hothers id hid).2

theorem NodesRead.exists_read {s t : Session} {blocks : List Block} {nodes : List Node}
    (h : NodesRead s blocks nodes t) :
    ∀ node ∈ nodes, ∃ content position u v, Node.read content position u = (.ok node, v) := by
  induction h with
  | nil s => simp
  | cons head _ ih => exact List.forall_mem_cons.mpr ⟨⟨_, _, _, _, head⟩, ih⟩

/-! ## The script -/

variable {content : String} {options : Options} {script : Script}

/-- What the tables of a script that can be read are made from. -/
theorem exists_nodesRead (h : parseWith content options = .ok script) :
    ∃ s t nodes, NodesRead s (blocksOf content) nodes t ∧ (nodes.map Node.id).Nodup ∧
      script.nodes = nodes.toArray ∧ script.nodeIndex = nodePlaces nodes ∧
      script.lineIndex = linePlaces nodes ∧ nodes ≠ [] := by
  obtain ⟨nodes, s, hr, hne, rfl⟩ := parseWith_ok h
  obtain ⟨new, he, hn⟩ := readNodes_ok hr
  rw [List.reverse_nil, List.nil_append] at he
  subst he
  exact ⟨_, s, nodes, hn, readNodes_nodup hr (by simp) (by simp), rfl, rfl, rfl, hne⟩

theorem exists_read (h : parseWith content options = .ok script) {node : Node}
    (hn : node ∈ script.nodes) :
    ∃ content position s t, Node.read content position s = (.ok node, t) := by
  obtain ⟨s, t, nodes, hr, -, hnodes, -⟩ := exists_nodesRead h
  rw [hnodes, List.mem_toArray] at hn
  exact hr.exists_read node hn

theorem nodes_nodup (h : parseWith content options = .ok script) :
    (script.nodes.toList.map Node.id).Nodup := by
  obtain ⟨s, t, nodes, -, hnodup, hnodes, -⟩ := exists_nodesRead h
  rwa [hnodes]

theorem lines_nodup (h : parseWith content options = .ok script) :
    (lineIds script.nodes.toList).Nodup := by
  obtain ⟨s, t, nodes, hr, -, hnodes, -⟩ := exists_nodesRead h
  rw [hnodes]
  exact hr.owner?.1

/-- **A look-up finds a node exactly by its own id.** -/
theorem node?_eq_some_iff (h : parseWith content options = .ok script) {id : String}
    {node : Node} : script.node? id = some node ↔ node ∈ script.nodes ∧ node.id = id := by
  obtain ⟨s, t, nodes, -, hnodup, hnodes, hindex, -⟩ := exists_nodesRead h
  rw [node?, hindex, hnodes, List.mem_toArray, ← Table.find_places hnodup]
  simp only [List.getElem?_toArray]
  rfl

theorem mem_linePlaces {nodes : List Node} {id : String} {i : Nat} :
    (id, i) ∈ (nodes.mapIdx fun i node => node.lines.toList.map fun line => (line.id, i)).flatten ↔
      ∃ node, nodes[i]? = some node ∧ id ∈ node.lineIds := by
  simp only [List.mem_flatten, List.mem_mapIdx, Node.lineIds]
  constructor
  · rintro ⟨_, ⟨j, hj, rfl⟩, hid⟩
    obtain ⟨line, hline, he⟩ := List.mem_map.mp hid
    cases he
    exact ⟨nodes[i], List.getElem?_eq_getElem hj, List.mem_map_of_mem hline⟩
  · rintro ⟨node, hnode, hid⟩
    obtain ⟨hi, rfl⟩ := List.getElem?_eq_some_iff.mp hnode
    obtain ⟨line, hline, rfl⟩ := List.mem_map.mp hid
    exact ⟨_, ⟨i, hi, rfl⟩, List.mem_map.mpr ⟨line, hline, rfl⟩⟩

theorem map_fst_linePlaces (nodes : List Node) :
    (nodes.mapIdx fun i node => node.lines.toList.map fun line => (line.id, i)).flatten.map
      Prod.fst = lineIds nodes := by
  rw [List.map_flatten, lineIds, List.flatMap_def]
  congr 1
  apply List.ext_getElem?
  intro i
  simp only [List.getElem?_map, List.getElem?_mapIdx, Option.map_map, Function.comp_def,
    List.map_map]
  rfl

/-- **A look-up finds a line exactly by its own id**, in whichever node it stands. -/
theorem line?_eq_some_iff (h : parseWith content options = .ok script) {id : String}
    {line : Line} :
    script.line? id = some line ↔ (∃ node ∈ script.nodes, line ∈ node.lines) ∧ line.id = id := by
  obtain ⟨s, t, nodes, hr, -, hnodes, -, hindex, -⟩ := exists_nodesRead h
  have hnodup := hr.owner?.1
  rw [← map_fst_linePlaces] at hnodup
  have hplace : ∀ i, script.lineIndex[id]? = some i ↔
      ∃ node, script.nodes[i]? = some node ∧ id ∈ node.lineIds := by
    intro i
    rw [hindex, linePlaces, Table.getElem?_ofList_eq_some_iff hnodup, mem_linePlaces, hnodes]
    simp only [List.getElem?_toArray]
  simp only [line?, Option.bind_eq_some_iff, hplace]
  constructor
  · rintro ⟨node, ⟨i, -, hnode⟩, hline⟩
    have hmem := Array.mem_of_getElem? hnode
    obtain ⟨content, position, s, t, hread⟩ := exists_read h hmem
    obtain ⟨hl, hid⟩ := (Node.line?_eq_some_iff hread).mp hline
    exact ⟨⟨node, hmem, hl⟩, hid⟩
  · rintro ⟨⟨node, hmem, hl⟩, rfl⟩
    obtain ⟨content, position, s, t, hread⟩ := exists_read h hmem
    obtain ⟨i, hnode⟩ := Array.mem_iff_getElem?.mp hmem
    have hid : line.id ∈ node.lineIds := List.mem_map_of_mem (Array.mem_toList_iff.mpr hl)
    exact ⟨node, ⟨i, ⟨node, hnode, hid⟩, hnode⟩, (Node.line?_eq_some_iff hread).mpr ⟨hl, rfl⟩⟩

/-! ## Walking -/

/-- The node of a line is the one that the line belongs to. -/
theorem inNodeOf?_eq (h : parseWith content options = .ok script) {node : Node}
    (hn : node ∈ script.nodes) {line : Line} (hl : line ∈ node.lines) :
    script.inNodeOf? line = node.line? := by
  obtain ⟨content, position, s, t, hread⟩ := exists_read h hn
  have hnode := (node?_eq_some_iff h).mpr ⟨hn, (Node.node_of_mem hread hl).symm⟩
  funext id
  rw [inNodeOf?, hnode, Option.bind_some]

theorem next?_line (h : parseWith content options = .ok script) {node : Node}
    (hn : node ∈ script.nodes) {line : Line} (hl : line ∈ node.lines) :
    script.next? (some (.line line)) = node.siblingOf? line := by
  show line.nextSibling.bind (script.inNodeOf? line) = _
  rw [inNodeOf?_eq h hn hl]
  rfl

theorem child?_line (h : parseWith content options = .ok script) {node : Node}
    (hn : node ∈ script.nodes) {line : Line} (hl : line ∈ node.lines) :
    script.child? (.line line) = node.childOf? line := by
  show line.firstChild.bind (script.inNodeOf? line) = _
  rw [inNodeOf?_eq h hn hl]
  rfl

/-- A walk begins at the first line of the first node. -/
theorem exists_next?_none (h : parseWith content options = .ok script) :
    ∃ node first, script.nodes[0]? = some node ∧ node.lines[0]? = some first ∧
      script.next? none = some first := by
  obtain ⟨s, t, nodes, hr, -, hnodes, -, -, hne⟩ := exists_nodesRead h
  obtain ⟨node, others, rfl⟩ := List.exists_cons_of_ne_nil hne
  have hfirst : script.nodes[0]? = some node := by simp [hnodes]
  obtain ⟨content, position, s, t, hread⟩ := exists_read h (Array.mem_of_getElem? hfirst)
  obtain ⟨first, hline⟩ := Node.exists_firstLine? hread
  refine ⟨node, first, hfirst, hline, ?_⟩
  rw [next?, firstNode?, hfirst, Option.bind_some, hline]

/-- The tables of a script agree: everything in it is found under its own id and under no other one,
from wherever it is looked for. -/
structure Coherent (script : Script) : Prop where
  nodes : (script.nodes.toList.map Node.id).Nodup
  lines : (lineIds script.nodes.toList).Nodup
  node : ∀ id node, script.node? id = some node ↔ node ∈ script.nodes ∧ node.id = id
  line : ∀ id line, script.line? id = some line ↔
    (∃ node ∈ script.nodes, line ∈ node.lines) ∧ line.id = id
  inNode : ∀ node ∈ script.nodes, ∀ id line, node.line? id = some line ↔
    line ∈ node.lines ∧ line.id = id
  owner : ∀ node ∈ script.nodes, ∀ line ∈ node.lines, line.node = node.id
  /-- The links of a line name lines of its node. -/
  linked : ∀ node ∈ script.nodes, ∀ line ∈ node.lines, ∀ id,
    line.firstChild = some id ∨ line.nextSibling = some id →
      ∃ target ∈ node.lines, target.id = id
  /-- A walk goes on from a line and from its id as inside the node. -/
  next : ∀ node ∈ script.nodes, ∀ line ∈ node.lines,
    script.next? (some (.line line)) = node.siblingOf? line ∧
      script.next? (some (.id line.id)) = node.siblingOf? line
  child : ∀ node ∈ script.nodes, ∀ line ∈ node.lines,
    script.child? (.line line) = node.childOf? line ∧
      script.child? (.id line.id) = node.childOf? line
  /-- A walk can begin. -/
  start : ∃ node first, script.nodes[0]? = some node ∧ node.lines[0]? = some first ∧
    script.next? none = some first

/-- **Every script that can be read is coherent**, however its lines got their ids. -/
theorem parseWith_coherent (h : parseWith content options = .ok script) : script.Coherent where
  nodes := nodes_nodup h
  lines := lines_nodup h
  node := fun _ _ => node?_eq_some_iff h
  line := fun _ _ => line?_eq_some_iff h
  inNode := by
    intro node hn id line
    obtain ⟨content, position, s, t, hread⟩ := exists_read h hn
    exact Node.line?_eq_some_iff hread
  owner := by
    intro node hn line hl
    obtain ⟨content, position, s, t, hread⟩ := exists_read h hn
    exact Node.node_of_mem hread hl
  linked := by
    intro node hn line hl id hid
    obtain ⟨content, position, s, t, hread⟩ := exists_read h hn
    exact Node.exists_linked hread hl hid
  next := by
    intro node hn line hl
    have hid := (line?_eq_some_iff h).mpr ⟨⟨node, hn, hl⟩, rfl⟩
    rw [next?_id hid]
    exact ⟨next?_line h hn hl, next?_line h hn hl⟩
  child := by
    intro node hn line hl
    have hid := (line?_eq_some_iff h).mpr ⟨⟨node, hn, hl⟩, rfl⟩
    rw [child?_id hid]
    exact ⟨child?_line h hn hl, child?_line h hn hl⟩
  start := exists_next?_none h

/-- Ids that are written and ids that are minted, in two nodes. -/
def coherentSample : String :=
  "title: A\n---\nOne #line:x\n  Two\nThree\n===\ntitle: B\n---\nFour #line:y"

theorem parseWith_coherent_sample :
    ∃ script, parseWith coherentSample {} = .ok script ∧
      lineIds script.nodes.toList = ["x", "line_00000000", "line_00000001", "y"] ∧
      script.Coherent := by
  have hcheck : (parseWith coherentSample {}).toOption.any (fun script => decide
      (lineIds script.nodes.toList = ["x", "line_00000000", "line_00000001", "y"])) = true := by
    decide +kernel
  obtain ⟨script, h, hids⟩ := exists_parseWith hcheck
  exact ⟨script, h, of_decide_eq_true hids, parseWith_coherent h⟩

end Script

end Parley
