import Parley.Proofs.Ledger
import Parley.Proofs.Reports

/-!
# Lines that are read twice

A text that is read in two sessions gives two lines that are alike: they differ in minted ids, which
count what was read before, and in their links, which name lines by such ids.  A line with a minted
id also has a tag with that id, so tags are compared up to that one (`Line.NamedAlike`).

Linking looks at indentations and arrows only, and these are the same.  So two lists of lines that
are alike one by one stay so when they are linked, with the tags that options give.

* `Line.identify_cases` — the last tag of a line is the one with its minted id, if it has one.
* `Line.read_alike` — one text gives lines that are alike.
* `Node.LinesRead.alike` — and so do the texts of a node, one after the other.
* `Outline.forall₂_ofLines` — linking keeps lines alike.
* `Node.linkedAlike` — the links of nodes with lines that are alike lead to the same places.
-/

namespace Parley

/-! ## Ids and tags -/

namespace Tag

/-- The tag that names a line. -/
def naming (id : String) : Tag := .of lineKey (some (.text id))

theorem collect_concat (tags : List Tag) (tag : Tag) :
    collect (tags ++ [tag]) = addTo (collect tags) tag := by
  rw [collect, List.foldl_append]
  rfl

theorem mem_of_mem_collect {tags : List Tag} {tag : Tag} (h : tag ∈ collect tags) :
    tag ∈ tags := by
  induction tags using List.reverseRecOn with
  | nil => exact h
  | append_singleton tags last ih =>
    rw [collect_concat, addTo] at h
    rw [List.mem_append, List.mem_singleton]
    split at h
    · exact .inl (ih h)
    · rcases List.mem_append.mp h with h | h
      · exact .inl (ih h)
      · exact .inr (List.mem_singleton.mp h)

theorem source_naming (id : String) :
    (naming id).source.toList = '#' :: (lineKey.toList ++ ':' :: id.toList) := by
  simp [naming, of, Value.display]

theorem source_read (cs : List Char) :
    (read cs).source = String.ofList ('#' :: Text.without ['#'] cs) := by
  unfold read
  dsimp only
  split <;> rfl

/-- A tag that is written like the one that names a line names it. -/
theorem names_of_source {cs : List Char} {id : String} (h : (read cs).source = (naming id).source) :
    (read cs).isLineTag = true ∧ (read cs).written? = some id := by
  have hbody : Text.without ['#'] cs = lineKey.toList ++ ':' :: id.toList := by
    have hlist := congrArg String.toList ((source_read cs).symm.trans h)
    rw [source_naming, String.toList_ofList] at hlist
    exact List.tail_eq_of_cons_eq hlist
  have hcut : Text.cut? ':' (Text.without ['#'] cs) = some (lineKey.toList, id.toList) := by
    rw [hbody]
    exact Text.cut?_append_self _ (by decide)
  refine ⟨?_, by rw [written?_read hcut, String.ofList_toList]⟩
  simp [isLineTag, read, hcut]

/-- Where no tag names a line, none is written like the tag that names it. -/
theorem addTo_naming {tags : List Tag} (hread : ∀ tag ∈ tags, ∃ cs, tag = read cs)
    (hnone : lineId? tags = none) (id : String) :
    addTo (collect tags) (naming id) = collect tags ++ [naming id] := by
  have hother : ∀ tag ∈ collect tags, tag.source ≠ (naming id).source := by
    intro tag htag hsource
    have hmem := mem_of_mem_collect htag
    obtain ⟨cs, rfl⟩ := hread tag hmem
    obtain ⟨hline, hwritten⟩ := names_of_source hsource
    unfold lineId? at hnone
    rw [List.getLast?_eq_none_iff, List.filterMap_eq_nil_iff] at hnone
    rw [hnone _ (List.mem_filter.mpr ⟨hmem, hline⟩)] at hwritten
    cases hwritten
  have hany : ((collect tags).any fun other => other.source == (naming id).source) = false := by
    rw [List.any_eq_false]
    intro tag htag
    simpa using hother tag htag
  simp [addTo, hany]

/-- The tag that options give is not written like one that names a line. -/
theorem addTo_lastLine (before after : List Tag) :
    ∃ more, ∀ id, addTo (before ++ naming id :: after) (.of lastLineKey none) =
      before ++ naming id :: (after ++ more) := by
  have hname : ∀ id, ((naming id).source == (Tag.of lastLineKey none).source) = false := by
    intro id
    rw [beq_eq_false_iff_ne]
    intro h
    have hlist := congrArg String.toList h
    rw [source_naming] at hlist
    simp [of, lineKey, lastLineKey] at hlist
  by_cases hany : ((before ++ after).any fun other =>
      other.source == (Tag.of lastLineKey none).source) = true
  · refine ⟨[], fun id => ?_⟩
    have hall : ((before ++ naming id :: after).any fun other =>
        other.source == (Tag.of lastLineKey none).source) = true := by
      simpa [List.any_append, hname id] using hany
    rw [addTo, if_pos hall, List.append_nil]
  · refine ⟨[.of lastLineKey none], fun id => ?_⟩
    have hall : ¬ ((before ++ naming id :: after).any fun other =>
        other.source == (Tag.of lastLineKey none).source) = true := by
      simpa [List.any_append, hname id] using hany
    rw [addTo, if_neg hall, List.append_assoc, List.cons_append]

end Tag

namespace Line

/-- How two lines of one text are named: both by the id that the text gives, with the same tags, or
both by minted ids, with tags that differ in the one with that id. -/
inductive NamedAlike (line other : Line) : Prop
  | own {id : String} (own : ownId? line.source.toList = some id) (id_left : line.id = id)
      (id_right : other.id = id) (tags : other.tags = line.tags)
  | minted {m n : Nat} {before after : List Tag} (unnamed : ownId? line.source.toList = none)
      (id_left : line.id = mintedId Tag.lineKey m) (id_right : other.id = mintedId Tag.lineKey n)
      (tags_left : line.tags = before ++ Tag.naming line.id :: after)
      (tags_right : other.tags = before ++ Tag.naming other.id :: after)

/-- Two lines of one text are alike: they agree in all but their minted ids and their links, and the
second one stands a number of lines further up. -/
structure Alike (start : Nat) (line other : Line) : Prop where
  node : other.node = line.node
  indent : other.indent = line.indent
  isOption : other.isOption = line.isOption
  speaker : other.speaker.map Speaker.name = line.speaker.map Speaker.name
  segments : other.segments = line.segments
  source : other.source = line.source
  position : line.position.index = start + other.position.index
  named : line.NamedAlike other

/-- The id of a line is its own, or it is minted and the last of its tags says so. -/
theorem identify_cases {s t : Session} {written tags : List Tag} {id : String}
    (hread : ∀ tag ∈ written, ∃ cs, tag = Tag.read cs)
    (h : identify s written = (id, tags, t)) :
    (Tag.lineId? written = some id ∧ tags = Tag.collect written) ∨
      (Tag.lineId? written = none ∧ id = mintedId Tag.lineKey s.minted ∧
        tags = Tag.collect written ++ [Tag.naming id]) := by
  unfold identify at h
  split at h
  · next own hown =>
    cases h
    exact .inl ⟨hown, rfl⟩
  · next hnone =>
    cases h
    exact .inr ⟨hnone, rfl, Tag.addTo_naming hread hnone _⟩

theorem exists_read_of_mem {tabWidth : Nat} {content : List Char} {tag : Tag}
    (h : tag ∈ (Layout.read tabWidth content).tags) : ∃ cs, tag = Tag.read cs := by
  obtain ⟨token, -, htoken⟩ := List.mem_filterMap.mp h
  cases token with
  | tag cs =>
    cases htoken
    exact ⟨cs, rfl⟩
  | _ => cases htoken

end Line

/-! ## Lines that are read twice -/

/-- What a session brings to the lines that are read in it, apart from ids: the width of a tab, and
a cast that keeps everyone under the own name. -/
structure Session.Brings (s : Session) (tabWidth : Nat) : Prop where
  tabWidth : s.options.tabWidth = tabWidth
  named : s.cast.Named

theorem Session.brings_start (options : Options) : (start options).Brings options.tabWidth :=
  ⟨rfl, Cast.named_empty⟩

theorem Session.Brings.notice {s : Session} {tabWidth : Nat} (h : s.Brings tabWidth) (n : Notice) :
    (s.notice n).Brings tabWidth :=
  ⟨h.tabWidth, h.named⟩

theorem Segment.rightUnique_of : Relator.RightUnique Of := by
  rintro part segment other ⟨warning, h⟩ ⟨warning', h'⟩
  rw [h] at h'
  cases h'
  rfl

section

variable {content : List Char} {node : String} {position position' : Position}
  {s s' t t' : Session} {tabWidth start : Nat}

namespace Line

theorem read_brings {line : Line} (h : read content node position s = (.ok line, t))
    (hs : s.Brings tabWidth) : t.Brings tabWidth :=
  ⟨by rw [(read_adds h).options, hs.tabWidth], named_of_read h hs.named⟩

/-- **A text that is read twice** gives lines that are alike. -/
theorem read_alike {line other : Line} (hs : s.Brings tabWidth) (hs' : s'.Brings tabWidth)
    (h : read content node position s = (.ok line, t))
    (h' : read content node position' s' = (.ok other, t'))
    (hposition : position.index = start + position'.index) : line.Alike start other := by
  obtain ⟨segments, id, tags, u, v, w, hp, hi, -, rfl, -⟩ := read_ok h
  obtain ⟨segments', id', tags', u', v', w', hp', hi', -, rfl, -⟩ := read_ok h'
  rw [hs.tabWidth] at hp hi
  rw [hs'.tabWidth] at hp' hi'
  rw [hs.tabWidth, hs'.tabWidth]
  have hspeaker := (voice_speaker? s (Layout.read tabWidth content).speaker).named hs.named
  have hspeaker' := (voice_speaker? s' (Layout.read tabWidth content).speaker).named hs'.named
  have hparts := Segment.forall₂_of_readParts hp
  have hparts' := Segment.forall₂_of_readParts hp'
  have hsegments : segments' = segments := Segment.rightUnique_of.forall₂ hparts' hparts
  have hown : ownId? (String.ofList content).toList =
      Tag.lineId? (Layout.read tabWidth content).tags := by
    rw [String.toList_ofList]
    rfl
  refine ⟨rfl, rfl, rfl, hspeaker'.trans hspeaker.symm, hsegments, rfl, hposition, ?_⟩
  rcases identify_cases (fun _ => exists_read_of_mem) hi with ⟨hid, htags⟩ | ⟨hid, hminted, htags⟩
  · rcases identify_cases (fun _ => exists_read_of_mem) hi' with ⟨hid', htags'⟩ | ⟨hid', -⟩
    · rw [hid] at hid'
      cases hid'
      exact .own (hown.trans hid) rfl rfl (htags'.trans htags.symm)
    · rw [hid] at hid'
      cases hid'
  · rcases identify_cases (fun _ => exists_read_of_mem) hi' with
      ⟨hid', -⟩ | ⟨-, hminted', htags'⟩
    · rw [hid] at hid'
      cases hid'
    · exact .minted (hown.trans hid) hminted hminted' htags htags'

end Line

/-- A line that stands some lines further down. -/
def Located.down (n : Nat) (l : Located) : Located := (l.1, ⟨n + l.2.index⟩)

namespace Node

theorem LinesRead.brings {ls : List Located} {lines : List Line} (h : LinesRead node s ls lines t)
    (hs : s.Brings tabWidth) : t.Brings tabWidth := by
  induction h with
  | nil s => exact hs
  | cons head _ ih => exact ih (Line.read_brings head hs)

/-- **Texts that are read twice**, one after the other, give lines that are alike. -/
theorem LinesRead.alike {ls : List Located} {lines others : List Line}
    (h : LinesRead node s (ls.map (Located.down start)) lines t)
    (h' : LinesRead node s' ls others t') (hs : s.Brings tabWidth) (hs' : s'.Brings tabWidth) :
    List.Forall₂ (Line.Alike start) lines others := by
  induction ls generalizing s s' lines others with
  | nil =>
    cases h
    cases h'
    exact .nil
  | cons l ls ih =>
    cases h with
    | cons head tail =>
      cases h' with
      | cons head' tail' =>
        exact .cons (Line.read_alike hs hs' head head' rfl)
          (ih tail tail' (Line.read_brings head hs) (Line.read_brings head' hs'))

end Node

end

/-! ## Lines that are linked -/

namespace Line

variable {start : Nat} {line other : Line}

/-- Lines with the tag that options give are named as they were. -/
theorem NamedAlike.tagged (h : line.NamedAlike other) (first next first' next' : Option String) :
    ({ line with
        firstChild := first
        nextSibling := next
        tags := Tag.addTo line.tags (.of Tag.lastLineKey none) } : Line).NamedAlike
      { other with
        firstChild := first'
        nextSibling := next'
        tags := Tag.addTo other.tags (.of Tag.lastLineKey none) } := by
  cases h with
  | own own id_left id_right tags => exact .own own id_left id_right (by rw [tags])
  | @minted m n before after unnamed id_left id_right tags_left tags_right =>
    obtain ⟨more, hmore⟩ := Tag.addTo_lastLine before after
    exact .minted unnamed id_left id_right (by rw [tags_left]; exact hmore _)
      (by rw [tags_right]; exact hmore _)

/-- Lines stay alike when they get links, and the tag that options give. -/
theorem Alike.linked (h : line.Alike start other) (first next first' next' : Option String)
    (tagged : Prop) [Decidable tagged] :
    ({ line with
        firstChild := first
        nextSibling := next
        tags := if tagged then Tag.addTo line.tags (.of Tag.lastLineKey none)
          else line.tags } : Line).Alike start
      { other with
        firstChild := first'
        nextSibling := next'
        tags := if tagged then Tag.addTo other.tags (.of Tag.lastLineKey none)
          else other.tags } := by
  refine ⟨h.node, h.indent, h.isOption, h.speaker, h.segments, h.source, h.position, ?_⟩
  split
  · exact h.named.tagged first next first' next'
  · cases h.named with
    | own own id_left id_right tags => exact .own own id_left id_right tags
    | minted unnamed id_left id_right tags_left tags_right =>
      exact .minted unnamed id_left id_right tags_left tags_right

end Line

namespace Outline

variable {start : Nat}

/-- Two outlines are alike. -/
structure Alike (start : Nat) (o o' : Outline) : Prop where
  lines : List.Forall₂ (Line.Alike start) o.lines.toList o'.lines.toList
  latest : o'.latest = o.latest

theorem endsWith_alike {previous previous' line line' : Line}
    (hp : previous.Alike start previous') (hl : line.Alike start line')
    (latest : Std.ExtTreeMap Nat Nat) :
    endsWith latest previous' line' = endsWith latest previous line := by
  simp only [endsWith, hl.isOption, hl.indent, hp.isOption, hp.indent]

theorem size_alike {lines lines' : Array Line}
    (h : List.Forall₂ (Line.Alike start) lines.toList lines'.toList) :
    lines'.size = lines.size :=
  h.length_eq.symm

/-- Lines that are alike stay so when they are linked to a line that comes after them. -/
theorem forall₂_link {lines lines' : Array Line} {line line' : Line}
    (h : List.Forall₂ (Line.Alike start) lines.toList lines'.toList)
    (hl : line.Alike start line') (latest : Std.ExtTreeMap Nat Nat) :
    List.Forall₂ (Line.Alike start) (link lines latest line).toList
      (link lines' latest line').toList := by
  have hget := forall₂_iff_getElem?.mp h
  simp only [Array.getElem?_toList] at hget
  have hback : Option.Rel (Line.Alike start) lines.back? lines'.back? := by
    rw [Array.back?_eq_getElem?, Array.back?_eq_getElem?, size_alike h]
    exact hget _
  generalize hp : lines.back? = previous at hback
  generalize hp' : lines'.back? = previous' at hback
  cases hback with
  | none => rwa [link_of_back_none hp, link_of_back_none hp']
  | some hprevious =>
    rw [forall₂_iff_getElem?]
    intro i
    rw [Array.getElem?_toList, Array.getElem?_toList, getElem?_link hp, getElem?_link hp',
      endsWith_alike hprevious hl, size_alike h]
    have hi := hget i
    generalize lines[i]? = l at hi
    generalize lines'[i]? = l' at hi
    cases hi with
    | none => exact .none
    | some hi => exact .some (hi.linked _ _ _ _ _)

theorem Alike.place {o o' : Outline} (h : o.Alike start o') {line line' : Line}
    (hl : line.Alike start line') : (o.place line).Alike start (o'.place line') where
  lines := by
    have hlink := forall₂_link h.lines hl o.latest
    simp only [Outline.place, Array.toList_push, h.latest]
    exact List.rel_append hlink (.cons hl .nil)
  latest := by simp only [Outline.place, h.latest, hl.indent, size_alike h.lines]

/-- **Linking keeps lines alike**, with the tags that options give. -/
theorem forall₂_ofLines {lines others : List Line}
    (h : List.Forall₂ (Line.Alike start) lines others) :
    List.Forall₂ (Line.Alike start) (ofLines lines).toList (ofLines others).toList := by
  have hfold : ∀ o o', Alike start o o' →
      Alike start (lines.foldl Outline.place o) (others.foldl Outline.place o') := by
    induction h with
    | nil => exact fun _ _ ho => ho
    | cons hl _ ih => exact fun o o' ho => ih _ _ (ho.place hl)
  exact (hfold empty empty ⟨.nil, rfl⟩).lines

end Outline

namespace Node

/-- Two links lead to the same place of two nodes, or nowhere. -/
inductive SamePlace (node other : Node) : Option String → Option String → Prop
  | nowhere : SamePlace node other none none
  | place {i : Nat} {line line' : Line} (here : node.lines[i]? = some line)
      (there : other.lines[i]? = some line') :
      SamePlace node other (some line.id) (some line'.id)

/-- The links of two nodes lead to the same places. -/
structure LinkedAlike (node other : Node) : Prop where
  firstChild : ∀ i : Nat, SamePlace node other (node.lines[i]?.bind Line.firstChild)
    (other.lines[i]?.bind Line.firstChild)
  nextSibling : ∀ i : Nat, SamePlace node other (node.lines[i]?.bind Line.nextSibling)
    (other.lines[i]?.bind Line.nextSibling)

variable {content content' : List Char} {position position' : Position} {s s' t t' : Session}
  {node other : Node} {start : Nat}

theorem depthAt_alike
    (h : List.Forall₂ (Line.Alike start) node.lines.toList other.lines.toList) :
    other.depthAt = node.depthAt := by
  funext i
  have hi := forall₂_iff_getElem?.mp h i
  unfold depthAt Outline.depthAt
  generalize node.lines.toList[i]? = l at hi
  generalize other.lines.toList[i]? = l' at hi
  cases hi with
  | none => rfl
  | some hi => exact hi.indent

theorem samePlace_map_id
    (h : List.Forall₂ (Line.Alike start) node.lines.toList other.lines.toList) (j : Nat) :
    SamePlace node other (node.lines[j]?.map Line.id) (other.lines[j]?.map Line.id) := by
  have hj := forall₂_iff_getElem?.mp h j
  rw [Array.getElem?_toList, Array.getElem?_toList] at hj
  generalize hl : node.lines[j]? = l at hj
  generalize hl' : other.lines[j]? = l' at hj
  cases hj with
  | none => exact .nowhere
  | some _ => exact .place hl hl'

/-- Links that lead to the places with a property lead to the same places. -/
theorem samePlace_of_iff {property : Nat → Prop} {link link' : Option String}
    (hplaces : ∀ j : Nat, SamePlace node other (node.lines[j]?.map Line.id)
      (other.lines[j]?.map Line.id))
    (h : ∀ id, link = some id ↔ ∃ j, property j ∧ node.lines[j]?.map Line.id = some id)
    (h' : ∀ id, link' = some id ↔ ∃ j, property j ∧ other.lines[j]?.map Line.id = some id) :
    SamePlace node other link link' := by
  cases hlink : link with
  | some id =>
    obtain ⟨j, hj, hid⟩ := (h id).mp hlink
    have hplace := hplaces j
    rw [hid] at hplace
    generalize hid' : other.lines[j]?.map Line.id = id' at hplace
    cases hplace with
    | place here there =>
      rw [(h' _).mpr ⟨j, hj, hid'⟩]
      exact .place here there
  | none =>
    cases hlink' : link' with
    | some id' =>
      obtain ⟨j, hj, hid'⟩ := (h' id').mp hlink'
      have hplace := hplaces j
      rw [hid'] at hplace
      generalize hid : node.lines[j]?.map Line.id = id at hplace
      cases hplace with
      | place here there =>
        rw [(h _).mpr ⟨j, hj, hid⟩] at hlink
        cases hlink
    | none => exact .nowhere

/-- **Links of nodes with lines that are alike** lead to the same places. -/
theorem linkedAlike (h : read content position s = (.ok node, t))
    (h' : read content' position' s' = (.ok other, t'))
    (hlines : List.Forall₂ (Line.Alike start) node.lines.toList other.lines.toList) :
    LinkedAlike node other := by
  obtain ⟨hchild, hsibling⟩ := read_links h
  obtain ⟨hchild', hsibling'⟩ := read_links h'
  rw [depthAt_alike hlines] at hchild' hsibling'
  constructor
  · intro i
    rw [hchild, hchild']
    split
    · exact samePlace_map_id hlines (i + 1)
    · exact .nowhere
  · intro i
    exact samePlace_of_iff (samePlace_map_id hlines) (hsibling i) (hsibling' i)

end Node

end Parley
