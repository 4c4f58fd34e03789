import Parley.Proofs.Links
import Parley.Proofs.Runs

/-!
# Line ids are unique

A session knows the owner of every line read in it.  Of all the steps that read a line only the
last one touches the owners: it makes the node the owner of a line whose id had none.  So the lines
of a node have pairwise different ids, whatever session the node was read in, and a look-up by the
id of a line finds that very line.

Principal results: `Line.read_owner?` — reading a line gives its id an owner, which it did not have,
and concerns no other id; `Node.ids_nodup` — no two lines of a node share an id;
`Node.line?_eq_some_iff` — a look-up finds a line exactly by its own id; `Node.childOf?_eq` and
`Node.siblingOf?_eq_some_iff` — so the links of a line lead to the lines that the indentations say.
-/

namespace Parley

/-- A table with pairwise different names gives exactly the entries that were made. -/
theorem Table.getElem?_ofList_eq_some_iff {α : Type} {pairs : List (String × α)}
    (hd : (pairs.map Prod.fst).Nodup) {name : String} {entry : α} :
    (ofList pairs)[name]? = some entry ↔ (name, entry) ∈ pairs := by
  have hdistinct : pairs.Pairwise fun a b => ¬ compare a.1 b.1 = .eq := by
    rw [List.Nodup, List.pairwise_map] at hd
    exact hd.imp fun hne he => hne (Std.LawfulEqCmp.compare_eq_iff_eq.mp he)
  constructor
  · intro h
    by_cases hm : name ∈ pairs.map Prod.fst
    · obtain ⟨⟨key, value⟩, hp, rfl⟩ := List.mem_map.mp hm
      have := Std.ExtTreeMap.getElem?_ofList_of_mem Std.ReflCmp.compare_self hdistinct hp
      unfold ofList at h
      rw [this, Option.some.injEq] at h
      exact h ▸ hp
    · unfold ofList at h
      rw [Std.ExtTreeMap.getElem?_ofList_of_contains_eq_false (by simpa using hm)] at h
      cases h
  · exact Std.ExtTreeMap.getElem?_ofList_of_mem Std.ReflCmp.compare_self hdistinct

/-- **Things with pairwise different keys are found by their keys**, in a table of their places. -/
theorem Table.find_places {α : Type} {key : α → String} {xs : List α} (hd : (xs.map key).Nodup)
    {name : String} {x : α} :
    ((ofList (xs.mapIdx fun i x => (key x, i)))[name]?.bind fun (i : Nat) => xs[i]?) = some x ↔
      x ∈ xs ∧ key x = name := by
  have hfst : (xs.mapIdx fun i x => (key x, i)).map Prod.fst = xs.map key := by
    apply List.ext_getElem?
    intro i
    simp [Function.comp_def]
  have hplace : ∀ i, (ofList (xs.mapIdx fun i x => (key x, i)))[name]? = some i ↔
      xs[i]?.map key = some name := by
    intro i
    rw [getElem?_ofList_eq_some_iff (hfst ▸ hd), List.mem_mapIdx, Option.map_eq_some_iff]
    constructor
    · rintro ⟨k, hk, he⟩
      cases he
      exact ⟨xs[i], List.getElem?_eq_getElem hk, rfl⟩
    · rintro ⟨x, hx, rfl⟩
      obtain ⟨hk, rfl⟩ := List.getElem?_eq_some_iff.mp hx
      exact ⟨i, hk, rfl⟩
  simp only [Option.bind_eq_some_iff, hplace]
  constructor
  · rintro ⟨i, hkey, hx⟩
    rw [hx] at hkey
    exact ⟨List.mem_of_getElem? hx, by simpa using hkey⟩
  · rintro ⟨hm, rfl⟩
    obtain ⟨i, hx⟩ := List.mem_iff_getElem?.mp hm
    exact ⟨i, by rw [hx]; rfl, hx⟩

namespace Session

theorem owner?_notice (s : Session) (n : Notice) (id : String) :
    (s.notice n).owner? id = s.owner? id := rfl

theorem owner?_mint (s : Session) (stem id : String) :
    (s.mint stem).2.owner? id = s.owner? id := rfl

theorem owner?_speaker (s : Session) (name id : String) :
    (s.speaker name).2.owner? id = s.owner? id := by
  simp only [speaker]
  split <;> rfl

end Session

namespace Line

theorem owner?_speaker? (s : Session) (name : Option String) (id : String) :
    (speaker? s name).2.owner? id = s.owner? id := by
  cases name with
  | none => rfl
  | some name => exact s.owner?_speaker name id

theorem owner?_identify {s t : Session} {written tags : List Tag} {id : String}
    (h : identify s written = (id, tags, t)) (other : String) :
    t.owner? other = s.owner? other := by
  unfold identify at h
  split at h <;> cases h
  · rfl
  · exact s.owner?_mint Tag.lineKey other

/-- **Reading a line registers its id**, which was free before, and no other one. -/
theorem read_owner? {content : List Char} {node : String} {position : Position} {s t : Session}
    {line : Line} (h : read content node position s = (.ok line, t)) :
    s.owner? line.id = none ∧
      ∀ id, t.owner? id = if line.id = id then some node else s.owner? id := by
  obtain ⟨segments, id, tags, u, v, w, hp, hi, hr, rfl, rfl⟩ := read_ok h
  have hsame : ∀ other, v.owner? other = s.owner? other := by
    intro other
    rw [owner?_identify hi, (noticeIdle_keeps u position _).owner?, (readParts_keeps hp).owner?,
      owner?_speaker?]
  constructor
  · show s.owner? id = none
    have hfree : ¬ v.register? id node = none := by simp [hr]
    rw [Session.register?_eq_none_iff, hsame] at hfree
    simpa using hfree
  · intro other
    rw [Session.owner?_notice, Session.owner?_register hr, hsame]
    rfl

theorem read_unlinked {content : List Char} {node : String} {position : Position} {s t : Session}
    {line : Line} (h : read content node position s = (.ok line, t)) : line.Unlinked := by
  obtain ⟨_, _, _, _, _, _, _, _, _, rfl, _⟩ := read_ok h
  exact ⟨rfl, rfl⟩

end Line

namespace Node

/-- Reading lines gives owners to their ids, which are different and were free before. -/
theorem LinesRead.owner? {node : String} {s t : Session} {ls : List Located} {lines : List Line}
    (h : LinesRead node s ls lines t) :
    (lines.map Line.id).Nodup ∧ (∀ id ∈ lines.map Line.id, s.owner? id = none) ∧
      ∀ id, t.owner? id = if id ∈ lines.map Line.id then some node else s.owner? id := by
  induction h with
  | nil s => simp
  | @cons s t u l line ls lines head tail ih =>
    obtain ⟨hfree, hone⟩ := Line.read_owner? head
    obtain ⟨hnodup, hfrees, hall⟩ := ih
    have hnew : line.id ∉ lines.map Line.id := by
      intro hm
      have := hfrees _ hm
      rw [hone, if_pos rfl] at this
      cases this
    refine ⟨List.nodup_cons.mpr ⟨hnew, hnodup⟩, ?_, ?_⟩
    · intro id hm
      rcases List.mem_cons.mp hm with rfl | hm
      · exact hfree
      · have hne : line.id ≠ id := fun he => hnew (he ▸ hm)
        have := hfrees id hm
        rwa [hone, if_neg hne] at this
    · intro id
      rw [hall, hone, List.map_cons]
      by_cases hm : id ∈ lines.map Line.id
      · rw [if_pos hm, if_pos (List.mem_cons_of_mem _ hm)]
      · by_cases he : line.id = id
        · rw [if_neg hm, if_pos he, if_pos (by simp [he])]
        · rw [if_neg hm, if_neg he, if_neg (by simp [hm, Ne.symm he])]

theorem LinesRead.unlinked {node : String} {s t : Session} {ls : List Located} {lines : List Line}
    (h : LinesRead node s ls lines t) : ∀ line ∈ lines, line.Unlinked := by
  induction h with
  | nil s => simp
  | cons head _ ih => exact List.forall_mem_cons.mpr ⟨Line.read_unlinked head, ih⟩

variable {content : List Char} {position : Position} {s t : Session} {node : Node}

/-- The lines of a node are the lines that were read, linked to each other. -/
theorem read_placed (h : read content position s = (.ok node, t)) :
    ∃ lines, LinesRead node.id (s.notice (.nodeBegun position node.id))
        (bodyOf (located content position)) lines t ∧ lines ≠ [] ∧
      Outline.Placed lines (lines.foldl Outline.place .empty) ∧
      node.lines = (lines.foldl Outline.place .empty).lines ∧
      node.index = indexOf node.lines.toList := by
  obtain ⟨fields, id, lines, -, -, hr, hne, rfl⟩ := read_ok h
  exact ⟨lines, hr, hne, Outline.placed_ofLines hr.unlinked, rfl, rfl⟩

theorem exists_firstLine? (h : read content position s = (.ok node, t)) :
    ∃ first, node.firstLine? = some first := by
  obtain ⟨lines, -, hne, hp, he, -⟩ := read_placed h
  have hpos : 0 < node.lines.size := by
    rw [he, hp.size_eq]
    exact List.length_pos_iff.mpr hne
  exact ⟨_, Array.getElem?_eq_getElem hpos⟩

/-- **No two lines of a node share an id.** -/
theorem ids_nodup (h : read content position s = (.ok node, t)) :
    (node.lines.toList.map Line.id).Nodup := by
  obtain ⟨lines, hr, -, hp, hl, -⟩ := read_placed h
  rw [hl, Line.map_of_bare Line.id (fun _ => rfl) hp.bare]
  exact hr.owner?.1

theorem lines_nodup (h : read content position s = (.ok node, t)) : node.lines.toList.Nodup :=
  (List.pairwise_map.mp (ids_nodup h)).imp fun hne he => hne (congrArg Line.id he)

/-- **A look-up finds a line exactly by its own id.** -/
theorem line?_eq_some_iff (h : read content position s = (.ok node, t)) {id : String}
    {line : Line} :
    node.line? id = some line ↔ line ∈ node.lines ∧ line.id = id := by
  obtain ⟨lines, -, -, -, -, hi⟩ := read_placed h
  rw [line?, hi, ← Array.mem_toList_iff, ← Table.find_places (ids_nodup h)]
  simp only [Array.getElem?_toList]
  rfl

/-! ## Following links -/

theorem line?_id (h : read content position s = (.ok node, t)) {i : Nat} {line : Line}
    (hl : node.lines[i]? = some line) : node.line? line.id = some line :=
  (line?_eq_some_iff h).mpr ⟨Array.mem_of_getElem? hl, rfl⟩

/-- No line stands at two places. -/
theorem place_unique (h : read content position s = (.ok node, t)) {i j : Nat} {line : Line}
    (hi : node.lines[i]? = some line) (hj : node.lines[j]? = some line) : i = j := by
  have hid : ∀ k : Nat, node.lines[k]? = some line →
      (node.lines.toList.map Line.id)[k]? = some line.id := by
    intro k hk
    simp [hk]
  obtain ⟨hlt, -⟩ := List.getElem?_eq_some_iff.mp (hid i hi)
  exact (List.getElem?_inj hlt (ids_nodup h)).mp ((hid i hi).trans (hid j hj).symm)

/-- The indentation of the line at a place. -/
def depthAt (node : Node) : Nat → Nat := Outline.depthAt node.lines.toList

/-- The links of a node lead where its indentations say. -/
theorem read_links (h : read content position s = (.ok node, t)) :
    (∀ i : Nat, node.lines[i]?.bind Line.firstChild =
      if node.depthAt i < node.depthAt (i + 1) then node.lines[i + 1]?.map Line.id else none) ∧
    ∀ (i : Nat) id, node.lines[i]?.bind Line.nextSibling = some id ↔
      ∃ j, Continues node.depthAt i j ∧ node.lines[j]?.map Line.id = some id := by
  obtain ⟨lines, -, -, hp, he, -⟩ := read_placed h
  have hbare : node.lines.toList.map Line.bare = lines.map Line.bare := he ▸ hp.bare
  have hdepth : Outline.depthAt lines = node.depthAt := (Outline.depthAt_map_bare hbare).symm
  have hid : ∀ j : Nat, lines[j]?.map Line.id = node.lines[j]?.map Line.id := by
    intro j
    have := congrArg (fun ls : List Line => ls[j]?.map Line.id) hbare
    simpa [Function.comp_def, Line.bare] using this.symm
  constructor
  · intro i
    rw [he, hp.child i, hdepth, hid, he]
  · intro i id
    rw [he, hp.sibling i id, hdepth, ← he]
    simp only [← hid, Option.map_eq_some_iff]
    constructor
    · rintro ⟨j, l, hj, hc, hi⟩
      exact ⟨j, hc, l, hj, hi⟩
    · rintro ⟨j, hc, l, hj, hi⟩
      exact ⟨j, l, hj, hc, hi⟩

/-- **The child of a line** is the next line, if that is indented further. -/
theorem childOf?_eq (h : read content position s = (.ok node, t)) {i : Nat} {line : Line}
    (hl : node.lines[i]? = some line) :
    node.childOf? line =
      if node.depthAt i < node.depthAt (i + 1) then node.lines[i + 1]? else none := by
  have hchild := (read_links h).1 i
  rw [hl, Option.bind_some] at hchild
  unfold childOf?
  rw [hchild]
  split
  · cases hn : node.lines[i + 1]? with
    | none => rfl
    | some next => exact line?_id h hn
  · rfl

/-- **The sibling of a line** is the line that continues its level. -/
theorem siblingOf?_eq_some_iff (h : read content position s = (.ok node, t)) {i : Nat}
    {line found : Line} (hl : node.lines[i]? = some line) :
    node.siblingOf? line = some found ↔
      ∃ j, Continues node.depthAt i j ∧ node.lines[j]? = some found := by
  have hsibling := (read_links h).2 i
  rw [hl, Option.bind_some] at hsibling
  unfold siblingOf?
  rw [Option.bind_eq_some_iff]
  simp only [hsibling, Option.map_eq_some_iff]
  constructor
  · rintro ⟨_, ⟨j, hc, next, hn, rfl⟩, hf⟩
    rw [line?_id h hn] at hf
    exact ⟨j, hc, hf ▸ hn⟩
  · rintro ⟨j, hc, hn⟩
    exact ⟨found.id, ⟨j, hc, found, hn, rfl⟩, line?_id h hn⟩

end Node

end Parley
