import Mathlib.Data.List.Perm.Subperm
import Mathlib.Logic.Relation
import Parley.Proofs.Bounds
import Parley.Proofs.Walk

/-!
# The links of a script are a forest

A link leads forward in its node: to the next line if that is indented further, or to the line that
continues the level.  Which of the two leads to a line can be seen from the line before it, and from
where it comes from the levels, so at most one link leads to each line (`Leads.source_unique`).
Walks thus never meet again once they have parted (`Step.apart`), and none comes back.  The lines
need not be indented in any sensible way.

* `Node.exists_leads` — a link leads where the indentations say, to a later line of its node.
* `Node.position_lt` — later lines of a node have larger positions.
* `Node.walk_nodup` — the walk through children and then siblings visits no line twice.
* `Script.parseWith_forest` — links in a script have one source, and walks along them have an end.
-/

namespace Parley

/-- The two links that a line may have. -/
inductive Link where
  | child
  | next
  deriving DecidableEq, Repr

/-! ## Levels -/

/-- A link leads from one place of a run of indentations to another one. -/
inductive Leads (depth : Nat → Nat) : Link → Nat → Nat → Prop
  | child {i : Nat} (deeper : depth i < depth (i + 1)) : Leads depth .child i (i + 1)
  | next {i j : Nat} (continues : Continues depth i j) : Leads depth .next i j

/-- Some link leads from one place to another one. -/
def Step (depth : Nat → Nat) (i j : Nat) : Prop := ∃ link, Leads depth link i j

variable {depth : Nat → Nat} {i j k m n : Nat} {link link' : Link}

theorem Leads.lt (h : Leads depth link i j) : i < j := by
  cases h with
  | child => exact Nat.lt_succ_self i
  | next continues => exact continues.1

/-- **At most one link leads to a place.** -/
theorem Leads.source_unique (h : Leads depth link i k) (h' : Leads depth link' j k) :
    link = link' ∧ i = j := by
  cases h with
  | child deeper =>
    generalize hk : i + 1 = k at h' deeper
    cases h' with
    | child => exact ⟨rfl, by omega⟩
    | next continues =>
      obtain ⟨-, -, -, hle⟩ := continues
      rw [← hk, Nat.add_sub_cancel, hk] at hle
      omega
  | next continues =>
    obtain ⟨hik, hd, hne, hle⟩ := continues
    cases h' with
    | child deeper =>
      rw [Nat.add_sub_cancel] at hle
      omega
    | next continues' =>
      obtain ⟨hjk, hd', hne', -⟩ := continues'
      refine ⟨rfl, ?_⟩
      rcases Nat.lt_trichotomy i j with h | h | h
      · exact absurd (hd'.symm.trans hd) (hne j h hjk)
      · exact h
      · exact absurd (hd.symm.trans hd') (hne' i h hik)

/-- The two links of a place lead to different places. -/
theorem Leads.target_ne (h : Leads depth .child i j) (h' : Leads depth .next i k) : j ≠ k := by
  cases h with
  | child deeper =>
    cases h' with
    | next continues =>
      obtain ⟨-, hd, -⟩ := continues
      rintro rfl
      omega

open Relation (ReflTransGen)

theorem le_of_reach (h : ReflTransGen (Step depth) i j) : i ≤ j := by
  induction h with
  | refl => exact Nat.le_refl i
  | tail _ step ih =>
    obtain ⟨link, hl⟩ := step
    exact Nat.le_of_lt (Nat.lt_of_le_of_lt ih hl.lt)

/-- What leads to a place leads to where the link to it comes from. -/
theorem reach_source (h : ReflTransGen (Step depth) i k) (hne : i ≠ k) (hs : Step depth j k) :
    ReflTransGen (Step depth) i j := by
  rcases ReflTransGen.cases_tail h with he | ⟨m, hm, hstep⟩
  · exact absurd he hne.symm
  · obtain ⟨link, hl⟩ := hstep
    obtain ⟨link', hl'⟩ := hs
    rwa [← (hl.source_unique hl').2]

/-- **Two ways that part never meet again.** -/
theorem Step.apart (hj : Step depth i j) (hk : Step depth i k) (hne : j ≠ k)
    (hjm : ReflTransGen (Step depth) j m) (hkm : ReflTransGen (Step depth) k m) : False := by
  induction hjm with
  | refl =>
    -- The other way would come back to the place where the two part.
    have hback := le_of_reach (reach_source hkm hne.symm hj)
    obtain ⟨link, hl⟩ := hk
    have := hl.lt
    omega
  | @tail m m' hm hstep ih =>
    by_cases he : k = m'
    · have hback := le_of_reach (reach_source (hm.tail hstep) (he ▸ hne) (he ▸ hk))
      obtain ⟨link, hl⟩ := hj
      have := hl.lt
      omega
    · exact ih (reach_source hkm he hstep)

/-! ## Links in a node -/

namespace Node

variable {content : List Char} {position : Position} {s t : Session} {node : Node}
  {line found : Line}

/-- The line that a link of a line of the node leads to. -/
def follow? (node : Node) (line : Line) : Link → Option Line
  | .child => node.childOf? line
  | .next => node.siblingOf? line

theorem indent_eq (hl : node.lines[i]? = some line) : line.indent = node.depthAt i := by
  simp [depthAt, Outline.depthAt, hl]

/-- A link leads where the indentations say. -/
theorem exists_leads (h : read content position s = (.ok node, t))
    (hl : node.lines[i]? = some line) (hf : node.follow? line link = some found) :
    ∃ j, Leads node.depthAt link i j ∧ node.lines[j]? = some found := by
  cases link with
  | child =>
    have hchild : node.childOf? line = some found := hf
    rw [childOf?_eq h hl] at hchild
    split at hchild
    · next deeper => exact ⟨i + 1, .child deeper, hchild⟩
    · cases hchild
  | next =>
    obtain ⟨j, hc, hj⟩ := (siblingOf?_eq_some_iff h hl).mp hf
    exact ⟨j, .next hc, hj⟩

/-! ## Positions -/

theorem located_pairwise (cs : List Char) (start : Position) :
    (located cs start).Pairwise fun a b => a.2.index < b.2.index := by
  rw [located, List.pairwise_iff_getElem]
  intro i j hi hj hij
  simp only [List.getElem_mapIdx, Position.down]
  omega

theorem LinesRead.map_position {id : String} {ls : List Located} {lines : List Line}
    (h : LinesRead id s ls lines t) : lines.map Line.position = ls.map Prod.snd := by
  induction h with
  | nil s => rfl
  | cons head _ ih =>
    obtain ⟨_, _, _, _, _, _, _, _, _, rfl, _⟩ := Line.read_ok head
    rw [List.map_cons, List.map_cons, ih]
    rfl

theorem positions_pairwise (h : read content position s = (.ok node, t)) :
    node.lines.toList.Pairwise fun a b => a.position.index < b.position.index := by
  obtain ⟨lines, hr, -, hp, he, -⟩ := read_placed h
  have hbody : (bodyOf (located content position)).Pairwise fun a b => a.2.index < b.2.index := by
    apply List.Pairwise.sublist _ (located_pairwise content position)
    exact List.filter_sublist.trans
      ((List.drop_sublist 1 _).trans (List.dropWhile_sublist _))
  have hmap : (node.lines.toList.map Line.position).Pairwise fun a b => a.index < b.index := by
    rw [he, Line.map_of_bare Line.position (fun _ => rfl) hp.bare, hr.map_position,
      List.pairwise_map]
    exact hbody
  rwa [List.pairwise_map] at hmap

/-- **Later lines have larger positions.** -/
theorem position_lt (h : read content position s = (.ok node, t))
    (hi : node.lines[i]? = some line) (hj : node.lines[j]? = some found) (hij : i < j) :
    line.position.index < found.position.index := by
  have hp := List.pairwise_iff_getElem.mp (positions_pairwise h)
  obtain ⟨hlt, rfl⟩ := Array.getElem?_eq_some_iff.mp hi
  obtain ⟨hlt', rfl⟩ := Array.getElem?_eq_some_iff.mp hj
  exact hp i j hlt hlt' hij

/-! ## Children first, then siblings -/

/-- There is a walk from every line. -/
theorem exists_walk (h : read content position s = (.ok node, t))
    (hl : node.lines[i]? = some line) : ∃ visited, node.Walk (some line) visited := by
  -- By induction on the lines behind: links lead forward.
  induction hrest : node.lines.size - i using Nat.strongRecOn generalizing i line with
  | ind rest ih =>
    obtain ⟨hi, -⟩ := Array.getElem?_eq_some_iff.mp hl
    have hfrom : ∀ link, ∃ visited, node.Walk (node.follow? line link) visited := by
      intro link
      cases hf : node.follow? line link with
      | none => exact ⟨[], .stop⟩
      | some found =>
        obtain ⟨j, hj, hfound⟩ := exists_leads h hl hf
        have hij := hj.lt
        obtain ⟨hjn, -⟩ := Array.getElem?_eq_some_iff.mp hfound
        exact ih (node.lines.size - j) (by omega) hfound rfl
    obtain ⟨below, hdown⟩ := hfrom .child
    obtain ⟨after, hon⟩ := hfrom .next
    exact ⟨line :: (below ++ after), .visit hdown hon⟩

/-- A walk visits lines that its start leads to. -/
theorem Walk.reach (h : read content position s = (.ok node, t)) {start : Option Line}
    {visited : List Line} (hw : node.Walk start visited) {v : Line} (hv : v ∈ visited) :
    ∃ first, start = some first ∧ ∀ i : Nat, node.lines[i]? = some first →
      ∃ m : Nat, node.lines[m]? = some v ∧ ReflTransGen (Step node.depthAt) i m := by
  induction hw with
  | stop => cases hv
  | @visit line below after _ _ ihd iho =>
    refine ⟨line, rfl, ?_⟩
    intro i hl
    have hvia : ∀ link, (∃ first, node.follow? line link = some first ∧ ∀ j : Nat,
        node.lines[j]? = some first →
          ∃ m : Nat, node.lines[m]? = some v ∧ ReflTransGen (Step node.depthAt) j m) →
        ∃ m : Nat, node.lines[m]? = some v ∧ ReflTransGen (Step node.depthAt) i m := by
      rintro link ⟨first, hf, hreach⟩
      obtain ⟨j, hj, hfirst⟩ := exists_leads h hl hf
      obtain ⟨m, hm, hjm⟩ := hreach j hfirst
      exact ⟨m, hm, .head ⟨link, hj⟩ hjm⟩
    rcases List.mem_cons.mp hv with rfl | hv
    · exact ⟨i, hl, .refl⟩
    · rcases List.mem_append.mp hv with hv | hv
      · exact hvia .child (ihd hv)
      · exact hvia .next (iho hv)

/-- A walk from where a link of a line leads visits lines that are reached over that link. -/
theorem walk_over (h : read content position s = (.ok node, t)) (hl : node.lines[i]? = some line)
    {visited : List Line} (hw : node.Walk (node.follow? line link) visited) {v : Line}
    (hv : v ∈ visited) : ∃ j m, Leads node.depthAt link i j ∧ node.lines[m]? = some v ∧
      ReflTransGen (Step node.depthAt) j m := by
  obtain ⟨first, hf, hreach⟩ := hw.reach h hv
  obtain ⟨j, hj, hfirst⟩ := exists_leads h hl hf
  obtain ⟨m, hm, hjm⟩ := hreach j hfirst
  exact ⟨j, m, hj, hm, hjm⟩

/-- **A walk through children and then siblings visits no line twice**, whatever the indentation. -/
theorem walk_nodup (h : read content position s = (.ok node, t)) {start : Option Line}
    {visited : List Line} (hw : node.Walk start visited)
    (hstart : ∀ first, start = some first → first ∈ node.lines) : visited.Nodup := by
  induction hw with
  | stop => exact List.nodup_nil
  | @visit line below after down on ihd iho =>
    -- Over the two links a walk gets to places behind this one, and to no place over both.
    obtain ⟨i, hl⟩ := Array.mem_iff_getElem?.mp (hstart line rfl)
    have hinside : ∀ link found, node.follow? line link = some found → found ∈ node.lines := by
      intro link found hf
      obtain ⟨j, -, hfound⟩ := exists_leads h hl hf
      exact Array.mem_of_getElem? hfound
    have hbehind : ∀ link visited, node.Walk (node.follow? line link) visited →
        line ∉ visited := by
      intro link visited hw hmem
      obtain ⟨j, m, hj, hm, hjm⟩ := walk_over h hl hw hmem
      have hij := hj.lt
      have := le_of_reach hjm
      rw [place_unique h hl hm] at hij
      omega
    refine List.nodup_cons.mpr ⟨?_, List.nodup_append.mpr
      ⟨ihd (hinside .child), iho (hinside .next), ?_⟩⟩
    · rw [List.mem_append, not_or]
      exact ⟨hbehind .child below down, hbehind .next after on⟩
    · have hdown : node.Walk (node.follow? line .child) below := down
      have hon : node.Walk (node.follow? line .next) after := on
      rintro v hbelow _ hafter rfl
      obtain ⟨j, m, hj, hm, hjm⟩ := walk_over h hl hdown hbelow
      obtain ⟨k, m', hk, hm', hkm⟩ := walk_over h hl hon hafter
      rw [place_unique h hm hm'] at hjm
      exact Step.apart ⟨.child, hj⟩ ⟨.next, hk⟩ (hj.target_ne hk) hjm hkm

/-- Different lines of a node have different ids. -/
theorem eq_of_id_eq (h : read content position s = (.ok node, t)) {a b : Line}
    (ha : a ∈ node.lines) (hb : b ∈ node.lines) (hid : a.id = b.id) : a = b := by
  have hfound := (line?_eq_some_iff h).mpr ⟨ha, rfl⟩
  rw [hid, (line?_eq_some_iff h).mpr ⟨hb, rfl⟩, Option.some.injEq] at hfound
  exact hfound.symm

end Node

/-! ## Links in a script -/

namespace Script

/-- The line that a link of a line leads to. -/
def follow? (script : Script) (line : Line) : Link → Option Line
  | .child => script.child? (.line line)
  | .next => script.next? (some (.line line))

/-- One step of a walk, over either link. -/
def Goes (script : Script) (line target : Line) : Prop :=
  ∃ link, script.follow? line link = some target

/-- A line stands in the script. -/
def Has (script : Script) (line : Line) : Prop := ∃ node ∈ script.nodes, line ∈ node.lines

/-- The links of a script are a forest. -/
structure Forest (script : Script) : Prop where
  /-- At most one link leads to the line with an id. -/
  source : ∀ line line', script.Has line → script.Has line' → ∀ link link' target target',
    script.follow? line link = some target → script.follow? line' link' = some target' →
      target.id = target'.id → line = line' ∧ link = link'
  /-- Links lead to later lines of the same node. -/
  forward : ∀ node ∈ script.nodes, ∀ line ∈ node.lines, ∀ link target,
    script.follow? line link = some target →
      target ∈ node.lines ∧ line.position.index < target.position.index
  deeper : ∀ line target, script.Has line → script.follow? line .child = some target →
    line.indent < target.indent
  level : ∀ line target, script.Has line → script.follow? line .next = some target →
    target.indent = line.indent
  /-- Walks in any mixture of steps come to an end, and to no line twice. -/
  walk : ∀ node ∈ script.nodes, ∀ first ∈ node.lines, ∀ walk,
    (first :: walk).IsChain script.Goes →
      ((first :: walk).map Line.id).Nodup ∧ (first :: walk).length ≤ node.lines.size
  /-- So does the walk through children and then siblings. -/
  visits : ∀ node ∈ script.nodes, (∃ visited, node.Walk node.firstLine? visited) ∧
    ∀ visited, node.Walk node.firstLine? visited → (visited.map Line.id).Nodup

variable {content : String} {options : Options} {script : Script} {node : Node} {line target : Line}

theorem follow?_eq (h : parseWith content options = .ok script) (hn : node ∈ script.nodes)
    (hl : line ∈ node.lines) (link : Link) : script.follow? line link = node.follow? line link := by
  cases link with
  | child => exact child?_line h hn hl
  | next => exact next?_line h hn hl

/-- A link in a script leads where the indentations of its node say. -/
theorem leads_of_follow? (h : parseWith content options = .ok script) (hn : node ∈ script.nodes)
    {i : Nat} (hl : node.lines[i]? = some line) {link : Link}
    (hf : script.follow? line link = some target) :
    ∃ j, Leads node.depthAt link i j ∧ node.lines[j]? = some target := by
  obtain ⟨content, position, s, t, hread⟩ := exists_read h hn
  rw [follow?_eq h hn (Array.mem_of_getElem? hl)] at hf
  exact Node.exists_leads hread hl hf

theorem forward_of_follow? (h : parseWith content options = .ok script) (hn : node ∈ script.nodes)
    (hl : line ∈ node.lines) {link : Link} (hf : script.follow? line link = some target) :
    target ∈ node.lines ∧ line.position.index < target.position.index := by
  obtain ⟨content, position, s, t, hread⟩ := exists_read h hn
  obtain ⟨i, hi⟩ := Array.mem_iff_getElem?.mp hl
  obtain ⟨j, hj, htarget⟩ := leads_of_follow? h hn hi hf
  exact ⟨Array.mem_of_getElem? htarget, Node.position_lt hread hi htarget hj.lt⟩

/-- The ids of a line tell its node. -/
theorem node_unique (h : parseWith content options = .ok script) {other : Node}
    (hn : node ∈ script.nodes) (hn' : other ∈ script.nodes) (hl : line ∈ node.lines)
    (hl' : line ∈ other.lines) : node = other := by
  obtain ⟨content, position, s, t, hread⟩ := exists_read h hn
  obtain ⟨content', position', s', t', hread'⟩ := exists_read h hn'
  have hid := (Node.node_of_mem hread hl).symm.trans (Node.node_of_mem hread' hl')
  have hfound := (node?_eq_some_iff h).mpr ⟨hn, rfl⟩
  rw [hid, (node?_eq_some_iff h).mpr ⟨hn', rfl⟩, Option.some.injEq] at hfound
  exact hfound.symm

/-- **At most one link in the whole script leads to a line.** -/
theorem source_unique (h : parseWith content options = .ok script) {line' target' : Line}
    {link link' : Link} (hl : script.Has line) (hl' : script.Has line')
    (hf : script.follow? line link = some target)
    (hf' : script.follow? line' link' = some target') (hid : target.id = target'.id) :
    line = line' ∧ link = link' := by
  obtain ⟨node, hn, hl⟩ := hl
  obtain ⟨other, hn', hl'⟩ := hl'
  have htarget := (forward_of_follow? h hn hl hf).1
  have htarget' := (forward_of_follow? h hn' hl' hf').1
  have hsame : target = target' := by
    have hfound := (line?_eq_some_iff h).mpr ⟨⟨node, hn, htarget⟩, rfl⟩
    rw [hid, (line?_eq_some_iff h).mpr ⟨⟨other, hn', htarget'⟩, rfl⟩, Option.some.injEq] at hfound
    exact hfound.symm
  subst hsame
  obtain rfl := node_unique h hn hn' htarget htarget'
  obtain ⟨content, position, s, t, hread⟩ := exists_read h hn
  obtain ⟨i, hi⟩ := Array.mem_iff_getElem?.mp hl
  obtain ⟨j, hj⟩ := Array.mem_iff_getElem?.mp hl'
  obtain ⟨m, hm, hmt⟩ := leads_of_follow? h hn hi hf
  obtain ⟨m', hm', hmt'⟩ := leads_of_follow? h hn hj hf'
  rw [← Node.place_unique hread hmt hmt'] at hm'
  obtain ⟨hlink, rfl⟩ := hm.source_unique hm'
  rw [hi, Option.some.injEq] at hj
  exact ⟨hj, hlink⟩

/-! ## Walks -/

/-- The lines of a walk stand in one node, with larger and larger positions. -/
theorem increasing_of_walk (h : parseWith content options = .ok script) (hn : node ∈ script.nodes)
    {first : Line} {walk : List Line} (hfirst : first ∈ node.lines)
    (hw : (first :: walk).IsChain script.Goes) :
    (∀ line ∈ first :: walk, line ∈ node.lines) ∧
      (first :: walk).Pairwise fun a b => a.position.index < b.position.index := by
  induction walk generalizing first with
  | nil => exact ⟨by simpa using hfirst, List.pairwise_singleton _ _⟩
  | cons second walk ih =>
    obtain ⟨⟨link, hf⟩, hrest⟩ := List.isChain_cons_cons.mp hw
    obtain ⟨hsecond, hlt⟩ := forward_of_follow? h hn hfirst hf
    obtain ⟨hmem, hpairs⟩ := ih hsecond hrest
    refine ⟨List.forall_mem_cons.mpr ⟨hfirst, hmem⟩, List.pairwise_cons.mpr ⟨?_, hpairs⟩⟩
    intro line hline
    rcases List.mem_cons.mp hline with rfl | hline
    · exact hlt
    · exact Nat.lt_trans hlt ((List.pairwise_cons.mp hpairs).1 line hline)

/-- **A walk has no more lines than its node**, and no line twice. -/
theorem walk_bounded (h : parseWith content options = .ok script) (hn : node ∈ script.nodes)
    {first : Line} {walk : List Line} (hfirst : first ∈ node.lines)
    (hw : (first :: walk).IsChain script.Goes) :
    ((first :: walk).map Line.id).Nodup ∧ (first :: walk).length ≤ node.lines.size := by
  obtain ⟨content, position, s, t, hread⟩ := exists_read h hn
  obtain ⟨hmem, hpairs⟩ := increasing_of_walk h hn hfirst hw
  have hnodup : (first :: walk).Nodup := by
    refine hpairs.imp ?_
    rintro a _ hlt rfl
    exact Nat.lt_irrefl _ hlt
  constructor
  · exact hnodup.map_on fun a ha b hb => Node.eq_of_id_eq hread (hmem a ha) (hmem b hb)
  · have hsub : first :: walk ⊆ node.lines.toList :=
      fun line hline => Array.mem_toList_iff.mpr (hmem line hline)
    rw [← Array.length_toList]
    exact (List.subperm_of_subset hnodup hsub).length_le

/-- The walk of a node through children and then siblings. -/
theorem visits_nodup (h : parseWith content options = .ok script) (hn : node ∈ script.nodes) :
    (∃ visited, node.Walk node.firstLine? visited) ∧
      ∀ visited, node.Walk node.firstLine? visited → (visited.map Line.id).Nodup := by
  obtain ⟨content, position, s, t, hread⟩ := exists_read h hn
  obtain ⟨first, hfirst⟩ := Node.exists_firstLine? hread
  have hzero : node.lines[0]? = some first := hfirst
  rw [hfirst]
  refine ⟨Node.exists_walk hread hzero, ?_⟩
  intro visited hw
  have hinside : ∀ v ∈ visited, v ∈ node.lines := by
    intro v hv
    obtain ⟨first', he, hreach⟩ := hw.reach hread hv
    cases he
    obtain ⟨m, hm, -⟩ := hreach 0 hzero
    exact Array.mem_of_getElem? hm
  have hnodup : visited.Nodup := by
    apply Node.walk_nodup hread hw
    rintro _ ⟨⟩
    exact Array.mem_of_getElem? hzero
  exact hnodup.map_on fun a ha b hb => Node.eq_of_id_eq hread (hinside a ha) (hinside b hb)

theorem forest_of_parseWith (h : parseWith content options = .ok script) : script.Forest where
  source := fun _ _ hl hl' _ _ _ _ hf hf' hid => source_unique h hl hl' hf hf' hid
  forward := fun _ hn _ hl _ _ hf => forward_of_follow? h hn hl hf
  deeper := by
    rintro line target ⟨node, hn, hl⟩ hf
    obtain ⟨i, hi⟩ := Array.mem_iff_getElem?.mp hl
    obtain ⟨j, hj, htarget⟩ := leads_of_follow? h hn hi hf
    rw [Node.indent_eq hi, Node.indent_eq htarget]
    cases hj with
    | child deeper => exact deeper
  level := by
    rintro line target ⟨node, hn, hl⟩ hf
    obtain ⟨i, hi⟩ := Array.mem_iff_getElem?.mp hl
    obtain ⟨j, hj, htarget⟩ := leads_of_follow? h hn hi hf
    rw [Node.indent_eq hi, Node.indent_eq htarget]
    cases hj with
    | next continues => exact continues.2.1
  walk := fun _ hn _ hfirst _ hw => walk_bounded h hn hfirst hw
  visits := fun _ hn => visits_nodup h hn

/-- **The links of every script that can be read are a forest**, however its lines are indented.  In
a document of no more than `2 ^ 32` lines its positions are those that 32 bits hold; an indentation
is as wide as its line is long at most, times the width of a tab. -/
theorem parseWith_forest (h : parseWith content options = .ok script) :
    script.Forest ∧
      ((Document.lines content).length ≤ UInt32.size → script.kept = script) ∧
      ∀ node ∈ script.nodes, ∀ line ∈ node.lines,
        line.indent ≤ line.source.length * max 1 options.tabWidth :=
  ⟨forest_of_parseWith h, kept_of_parseWith h, indent_le h⟩

/-- Levels that are left and taken up again, in two nodes. -/
def forestSample : String :=
  "title: A\n---\n  One\n    Two\nThree\n    Four\n  Five\n===\ntitle: B\n---\nSix\nSeven"

theorem parseWith_forest_sample :
    ∃ script, parseWith forestSample {} = .ok script ∧
      (script.nodes.toList.map fun node => node.lines.size) = [5, 2] ∧ script.Forest := by
  have hcheck : (parseWith forestSample {}).toOption.any (fun script => decide
      ((script.nodes.toList.map fun node => node.lines.size) = [5, 2])) = true := by
    decide +kernel
  obtain ⟨script, h, hsizes⟩ := exists_parseWith hcheck
  exact ⟨script, h, of_decide_eq_true hsizes, (parseWith_forest h).1⟩

end Script

end Parley
