import Parley.Proofs.Alike
import Parley.Proofs.Marks
import Parley.Proofs.Speakers

/-!
# The tags of a line and its id agree

The tags of a line are the pieces of its text that are tags, each as it is read and each once, in
order.  The last piece that gives an id names the line; where no piece does, the id is minted, and
one more tag tells it (`Tag.NamedBy`).  So a line always has a tag that says its id, as it was
written and not as it was understood (`Line.Annotated`).  Linking may add a mark to a line, and
nothing of this is lost.

* `Tag.faithful_read` — a tag that is read means what is written, and is read back from that.
* `Tag.lineId?_eq_some_iff` — the id of a line is what the last piece that gives an id says.
* `Tag.readFrom_collect` — collecting tags leaves out what was written before.
* `Tag.ReadFrom.mark` — a mark is one tag more, or none.
* `Line.tags_agree` — tags and id of a line agree, when it is read and when it is linked.
* `Node.read_marks` — which lines of a node are marked as the last one before options.
-/

namespace Parley

theorem Value.read_text {token : List Char} (h : '_' ∈ token) :
    read token = .text (String.ofList token) := by
  have hdigits : token.all Number.isDigit = false := by
    rw [List.all_eq_false]
    exact ⟨'_', h, by decide⟩
  have hword : ∀ word : List Char, '_' ∉ word → token ≠ word := by
    rintro word hno rfl
    exact hno h
  simp only [read, hdigits, Bool.and_false, Bool.false_eq_true, if_false,
    hword ['t', 'r', 'u', 'e'] (by decide), hword ['f', 'a', 'l', 's', 'e'] (by decide)]

/-! ## Tags and their texts -/

namespace Tag

/-- A tag means what is written in it, and is what it is read as. -/
structure Faithful (tag : Tag) : Prop where
  typed : tag.value = tag.written?.map Value.parse
  reread : parse tag.source = tag

theorem without_hash (body : List Char) : Text.without ['#'] ('#' :: body) = body := by
  simp [Text.without, List.isPrefixOf?]

theorem source_read_hash (body : List Char) :
    (read ('#' :: body)).source = String.ofList ('#' :: body) := by
  rw [source_read, without_hash]

/-- **A tag that is read means what is written in it**, and is read back from that. -/
theorem faithful_read (cs : List Char) : (read cs).Faithful where
  typed := by
    cases hcut : Text.cut? ':' (Text.without ['#'] cs) with
    | none => simp [read, hcut, written?]
    | some parts =>
      rw [written?_read hcut]
      simp [read, hcut, Value.parse]
  reread := by
    rw [parse, source_read, String.toList_ofList]
    simp only [read, without_hash]

/-- The piece of a text that gives an id to its line. -/
def idPiece (id : String) : List Char := '#' :: (lineKey.toList ++ ':' :: id.toList)

theorem cut?_idPiece (id : String) :
    Text.cut? ':' (Text.without ['#'] (idPiece id)) = some (lineKey.toList, id.toList) := by
  rw [idPiece, without_hash, Text.cut?_append_self _ (by decide)]

theorem key_read_idPiece (id : String) : (read (idPiece id)).key = lineKey := by
  simp [read, cut?_idPiece]

theorem written?_read_idPiece (id : String) : (read (idPiece id)).written? = some id := by
  rw [written?_read (cut?_idPiece id), String.ofList_toList]

/-- A tag that is made for an id with an underscore is what it would be read as. -/
theorem naming_eq_read {id : String} (h : '_' ∈ id.toList) : naming id = read (idPiece id) := by
  have hsource : (read (idPiece id)).source = (naming id).source := by
    rw [idPiece, source_read_hash, ← source_naming, String.ofList_toList]
  have hkey := key_read_idPiece id
  have hvalue : (read (idPiece id)).value = some (.text id) := by
    simp [read, cut?_idPiece, Value.read_text h]
  cases hread : read (idPiece id) with
  | mk key value source =>
    rw [hread] at hkey hvalue hsource
    simp only at hkey hvalue hsource
    subst hkey hvalue hsource
    rfl

theorem underscore_mem_mintedId (stem : String) (n : Nat) : '_' ∈ (mintedId stem n).toList := by
  simp [mintedId]

/-- The piece of a text that marks its line as the last one before options. -/
def lastLinePiece : List Char := '#' :: lastLineKey.toList

theorem lastLine_eq_read : lastLine = read lastLinePiece := by decide

theorem lastLinePiece_ne (id : String) : lastLinePiece ≠ idPiece id := by
  simp [lastLinePiece, idPiece, lastLineKey, lineKey]

/-! ## Pieces -/

/-- What a tag says about the id of its line. -/
def given? (tag : Tag) : Option String := if tag.isLineTag then tag.written? else none

theorem given?_read_idPiece (id : String) : (read (idPiece id)).given? = some id := by
  rw [given?, if_pos, written?_read_idPiece]
  rw [isLineTag, key_read_idPiece]
  rfl

/-- A piece gives an id exactly if it is written in this way. -/
theorem given?_read_iff {body : List Char} {id : String} :
    (read ('#' :: body)).given? = some id ↔ '#' :: body = idPiece id := by
  constructor
  · intro h
    unfold given? at h
    split at h
    · next hline =>
      cases hcut : Text.cut? ':' body with
      | none =>
        have hnone : (read ('#' :: body)).written? = none := by
          simp [written?, read, without_hash, hcut]
        rw [hnone] at h
        cases h
      | some parts =>
        obtain ⟨key, value⟩ := parts
        have hcut' : Text.cut? ':' (Text.without ['#'] ('#' :: body)) = some (key, value) := by
          rw [without_hash, hcut]
        rw [written?_read hcut'] at h
        have hkey : String.ofList key = lineKey := by
          simpa [isLineTag, read, hcut'] using hline
        have hlist : key = lineKey.toList := by rw [← hkey, String.toList_ofList]
        cases h
        rw [(Text.cut?_eq_some hcut).1, hlist, idPiece, String.toList_ofList]
    · cases h
  · intro h
    rw [h, given?_read_idPiece]

/-- The id that tags give to their line is the last one that some of them gives. -/
theorem lineId?_map_read (pieces : List (List Char)) :
    lineId? (pieces.map read) = pieces.reverse.findSome? fun piece => (read piece).given? := by
  rw [lineId?, List.filterMap_filter, List.filterMap_map, List.getLast?_filterMap]
  rfl

/-- Every piece begins as a tag does. -/
def Hashed (pieces : List (List Char)) : Prop := ∀ piece ∈ pieces, ∃ body, piece = '#' :: body

/-- **The id of a line** is what the last piece that gives an id says. -/
theorem lineId?_eq_some_iff {pieces : List (List Char)} (h : Hashed pieces) {id : String} :
    lineId? (pieces.map read) = some id ↔ ∃ before after,
      pieces = before ++ idPiece id :: after ∧ ∀ piece ∈ after, (read piece).given? = none := by
  rw [lineId?_map_read, List.findSome?_eq_some_iff]
  constructor
  · rintro ⟨after, piece, before, hpieces, hgiven, hnone⟩
    have hsplit : pieces = before.reverse ++ piece :: after.reverse := by
      rw [← List.reverse_reverse pieces, hpieces]
      simp
    obtain ⟨body, rfl⟩ := h piece (by simp [hsplit])
    refine ⟨before.reverse, after.reverse, by rw [hsplit, given?_read_iff.mp hgiven], ?_⟩
    exact fun piece hpiece => hnone piece (List.mem_reverse.mp hpiece)
  · rintro ⟨before, after, rfl, hlast⟩
    refine ⟨after.reverse, idPiece id, before.reverse, by simp, given?_read_idPiece id, ?_⟩
    exact fun piece hpiece => hlast piece (List.mem_reverse.mp hpiece)

theorem lineId?_eq_none_iff {pieces : List (List Char)} :
    lineId? (pieces.map read) = none ↔ ∀ piece ∈ pieces, (read piece).given? = none := by
  rw [lineId?_map_read, List.findSome?_eq_none_iff]
  simp only [List.mem_reverse]

/-! ## Tags that were read -/

/-- Tags are what different pieces of a text are read as. -/
structure ReadFrom (pieces : List (List Char)) (tags : List Tag) : Prop where
  tags : tags = pieces.map read
  nodup : pieces.Nodup
  hashed : Hashed pieces

namespace ReadFrom

variable {pieces : List (List Char)} {tags : List Tag} {body : List Char}

theorem faithful (h : ReadFrom pieces tags) : ∀ tag ∈ tags, tag.Faithful := by
  rw [h.tags]
  exact List.forall_mem_map.mpr fun piece _ => faithful_read piece

theorem map_source (h : ReadFrom pieces tags) : tags.map source = pieces.map String.ofList := by
  rw [h.tags, List.map_map]
  refine List.map_congr_left fun piece hpiece => ?_
  obtain ⟨body, rfl⟩ := h.hashed piece hpiece
  exact source_read_hash body

/-- Different pieces are written in different ways. -/
theorem distinct (h : ReadFrom pieces tags) : (tags.map source).Nodup := by
  rw [h.map_source]
  exact h.nodup.map fun _ _ he => String.ofList_injective he

theorem mem_source_iff (h : ReadFrom pieces tags) :
    (read ('#' :: body)).source ∈ tags.map source ↔ '#' :: body ∈ pieces := by
  rw [h.map_source, source_read_hash, List.mem_map]
  constructor
  · rintro ⟨piece, hpiece, he⟩
    rwa [← String.ofList_injective he]
  · exact fun hmem => ⟨_, hmem, rfl⟩

theorem mem_iff (h : ReadFrom pieces tags) : read ('#' :: body) ∈ tags ↔ '#' :: body ∈ pieces := by
  constructor
  · exact fun hmem => h.mem_source_iff.mp (List.mem_map_of_mem hmem)
  · intro hmem
    rw [h.tags]
    exact List.mem_map_of_mem hmem

/-- A tag is added for a piece that is new. -/
theorem addTo_eq (h : ReadFrom pieces tags) :
    addTo tags (read ('#' :: body)) =
      if '#' :: body ∈ pieces then tags else tags ++ [read ('#' :: body)] := by
  have hany : (tags.any fun other => other.source == (read ('#' :: body)).source) = true ↔
      '#' :: body ∈ pieces := by
    rw [← h.mem_source_iff, List.any_eq_true, List.mem_map]
    simp only [beq_iff_eq]
  rw [addTo]
  simp only [hany]

theorem concat (h : ReadFrom pieces tags) (hnew : '#' :: body ∉ pieces) :
    ReadFrom (pieces ++ ['#' :: body]) (tags ++ [read ('#' :: body)]) where
  tags := by rw [h.tags, List.map_append, List.map_singleton]
  nodup := by
    rw [← List.concat_eq_append]
    exact h.nodup.concat hnew
  hashed := by
    intro piece hpiece
    rcases List.mem_append.mp hpiece with hold | hlast
    · exact h.hashed piece hold
    · exact ⟨body, List.mem_singleton.mp hlast⟩

end ReadFrom

/-- **Collecting tags** leaves out a piece that was there before. -/
theorem readFrom_collect {pieces : List (List Char)} (h : Hashed pieces) :
    ReadFrom pieces.eraseDups (collect (pieces.map read)) := by
  induction pieces using List.reverseRecOn with
  | nil => exact ⟨rfl, List.nodup_nil, h⟩
  | append_singleton pieces piece ih =>
    have hold := ih fun p hp => h p (List.mem_append_left _ hp)
    obtain ⟨body, rfl⟩ := h piece (by simp)
    have hmem : pieces.elem ('#' :: body) = true ↔ '#' :: body ∈ pieces.eraseDups := by
      rw [List.elem_iff, List.mem_eraseDups]
    rw [List.map_append, List.map_singleton, collect_concat, hold.addTo_eq, eraseDups_concat]
    simp only [hmem]
    split
    · exact hold
    · next hnew => exact hold.concat hnew

/-- **Marking a line** as the last one before options adds at most that one tag. -/
theorem ReadFrom.mark {pieces : List (List Char)} {tags : List Tag} (h : ReadFrom pieces tags)
    (offers : Prop) [Decidable offers] :
    ∃ more, ReadFrom more (if offers then addTo tags lastLine else tags) ∧
      (∀ piece, piece ∈ more ↔ piece ∈ pieces ∨ offers ∧ piece = lastLinePiece) ∧
      ((if offers then addTo tags lastLine else tags) = tags ∨
        lastLine ∉ tags ∧ (if offers then addTo tags lastLine else tags) = tags ++ [lastLine]) := by
  have hadd : addTo tags lastLine =
      if lastLinePiece ∈ pieces then tags else tags ++ [lastLine] := by
    rw [lastLine_eq_read]
    exact h.addTo_eq
  by_cases ho : offers
  · rw [if_pos ho, hadd]
    by_cases hmem : lastLinePiece ∈ pieces
    · rw [if_pos hmem]
      refine ⟨pieces, h, fun piece => ?_, .inl rfl⟩
      constructor
      · exact .inl
      · rintro (hold | ⟨-, rfl⟩)
        · exact hold
        · exact hmem
    · have hnot : lastLine ∉ tags := by
        rw [lastLine_eq_read]
        exact fun hm => hmem (h.mem_iff.mp hm)
      have hmore := h.concat hmem
      rw [if_neg hmem]
      refine ⟨pieces ++ [lastLinePiece], by rw [lastLine_eq_read]; exact hmore, fun piece => ?_,
        .inr ⟨hnot, rfl⟩⟩
      rw [List.mem_append, List.mem_singleton, and_iff_right ho]
  · rw [if_neg ho]
    refine ⟨pieces, h, fun piece => ?_, .inl rfl⟩
    rw [or_iff_left fun hp => ho hp.1]

/-- Tags and id of a line, from the pieces of its text that are tags: the last piece that gives an
id names the line; without such a piece the id is minted, as the last of `n` ids so far, and one
more tag says it. -/
inductive NamedBy (pieces : List (List Char)) : Nat → String → List Tag → Prop
  | own {n : Nat} {id : String} {before after : List (List Char)}
      (place : pieces = before ++ idPiece id :: after)
      (last : ∀ piece ∈ after, (read piece).given? = none) :
      NamedBy pieces n id (pieces.eraseDups.map read)
  | minted {n : Nat} (unnamed : ∀ piece ∈ pieces, (read piece).given? = none) :
      NamedBy pieces (n + 1) (mintedId lineKey n)
        (pieces.eraseDups.map read ++ [naming (mintedId lineKey n)])

/-- The tags of a line are read from different pieces, one of which gives its id. -/
theorem NamedBy.readFrom {pieces : List (List Char)} {n : Nat} {id : String} {tags : List Tag}
    (h : NamedBy pieces n id tags) (hashed : Hashed pieces) :
    ∃ more, ReadFrom more tags ∧ idPiece id ∈ more ∧
      ∀ piece, (∀ other, piece ≠ idPiece other) → (piece ∈ more ↔ piece ∈ pieces) := by
  have hcollect := readFrom_collect hashed
  cases h with
  | own place last =>
    rw [← hcollect.tags]
    refine ⟨_, hcollect, ?_, fun piece _ => List.mem_eraseDups⟩
    rw [List.mem_eraseDups, place]
    simp
  | @minted n unnamed =>
    have hnew : idPiece (mintedId lineKey n) ∉ pieces.eraseDups := by
      rw [List.mem_eraseDups]
      intro hmem
      have := unnamed _ hmem
      rw [given?_read_idPiece] at this
      cases this
    rw [← hcollect.tags, naming_eq_read (underscore_mem_mintedId lineKey n)]
    refine ⟨_, hcollect.concat hnew, List.mem_append_right _ (List.mem_singleton_self _), ?_⟩
    intro piece hpiece
    rw [List.mem_append, List.mem_eraseDups, List.mem_singleton]
    exact or_iff_left (hpiece _)

end Tag

/-! ## Lines that are read -/

namespace Token

/-- The texts of the tags among tokens. -/
def tagTexts (ts : List Token) : List (List Char) :=
  ts.filterMap fun token =>
    match token with
    | .tag t => some t
    | _ => none

theorem map_read_tagTexts (ts : List Token) : (tagTexts ts).map Tag.read = Tag.ofTokens ts := by
  rw [tagTexts, List.map_filterMap, Tag.ofTokens]
  congr 1
  funext token
  cases token <;> rfl

theorem Special.hashed {rest : List Char} {t : Token} (h : Special rest t) :
    ∀ u, t = .tag u → ∃ body, u = '#' :: body := by
  cases h <;> simp

theorem Lexes.hashed {before cs : List Char} {ts : List Token} (h : Lexes before cs ts) :
    Tag.Hashed (tagTexts ts) := by
  induction h with
  | done => simp [tagTexts, Tag.Hashed]
  | @special before cs rest t ts free text token others ih =>
    cases t with
    | tag u => exact List.forall_mem_cons.mpr ⟨token.hashed u rfl, ih⟩
    | _ => exact ih
  | plain _ _ ih => exact ih

end Token

namespace Line

/-- The pieces of a line that are tags, in their order. -/
def TagPieces (content : List Char) (pieces : List (List Char)) : Prop :=
  ∃ isOption body ts, Body content isOption body ∧ Token.Lexes [] body ts ∧
    pieces = Token.tagTexts ts

theorem TagPieces.hashed {content : List Char} {pieces : List (List Char)}
    (h : TagPieces content pieces) : Tag.Hashed pieces := by
  obtain ⟨isOption, body, ts, -, hts, rfl⟩ := h
  exact hts.hashed

theorem exists_tagPieces (tabWidth : Nat) (content : List Char) :
    ∃ pieces, TagPieces content pieces ∧
      (Layout.read tabWidth content).tags = pieces.map Tag.read :=
  ⟨_, ⟨_, _, _, body_arrow content, Token.Scan.lexes_tokens _, rfl⟩,
    (Token.map_read_tagTexts _).symm⟩

theorem namedBy_identify {s t : Session} {pieces : List (List Char)} {id : String}
    {tags : List Tag} (hashed : Tag.Hashed pieces)
    (h : identify s (pieces.map Tag.read) = (id, tags, t)) :
    Tag.NamedBy pieces t.minted id tags := by
  have hread : ∀ tag ∈ pieces.map Tag.read, ∃ cs, tag = Tag.read cs :=
    List.forall_mem_map.mpr fun piece _ => ⟨piece, rfl⟩
  rcases identify_cases hread h with ⟨hid, rfl⟩ | ⟨hnone, rfl, rfl⟩
  · obtain ⟨before, after, hplace, hlast⟩ := (Tag.lineId?_eq_some_iff hashed).mp hid
    rw [(Tag.readFrom_collect hashed).tags]
    exact .own hplace hlast
  · have hminted : (identify s (pieces.map Tag.read)).2.2.minted = s.minted + 1 := by
      rw [identify, hnone]
      rfl
    rw [h] at hminted
    rw [hminted, (Tag.readFrom_collect hashed).tags]
    exact .minted (Tag.lineId?_eq_none_iff.mp hnone)

theorem read_namedBy {content : List Char} {node : String} {position : Position} {s t : Session}
    {line : Line} (h : read content node position s = (.ok line, t)) :
    ∃ pieces, TagPieces content pieces ∧ Tag.NamedBy pieces t.minted line.id line.tags := by
  obtain ⟨segments, id, tags, u, v, w, -, hi, hr, rfl, rfl⟩ := read_ok h
  obtain ⟨pieces, hpieces, htags⟩ := exists_tagPieces s.options.tabWidth content
  rw [htags] at hi
  obtain ⟨-, rfl⟩ := Session.register?_some hr
  have hnamed := namedBy_identify hpieces.hashed hi
  exact ⟨pieces, hpieces, hnamed⟩

/-- Tags and id of a line agree. -/
structure Annotated (line : Line) : Prop where
  /-- Some tag says the id, as it is written. -/
  named : ∃ tag ∈ line.tags, tag.key = Tag.lineKey ∧ tag.written? = some line.id
  /-- No two tags are written in the same way. -/
  distinct : (line.tags.map Tag.source).Nodup
  faithful : ∀ tag ∈ line.tags, tag.Faithful

theorem annotated_of_readFrom {line : Line} {pieces : List (List Char)}
    (h : Tag.ReadFrom pieces line.tags) (hid : Tag.idPiece line.id ∈ pieces) :
    line.Annotated where
  named := ⟨_, h.mem_iff.mpr hid, Tag.key_read_idPiece _, Tag.written?_read_idPiece _⟩
  distinct := h.distinct
  faithful := h.faithful

end Line

/-! ## Lines that are linked -/

namespace Node

/-- Whether the line at a place is an option. -/
def optionAt (node : Node) : Nat → Bool := Outline.optionAt node.lines.toList

end Node

namespace Line

/-- A line has the tags of the line that was read for it, and is marked as the last one before
options where it was written so, or offers options. -/
structure MarkedFrom (line parsed : Line) (offers : Prop) : Prop where
  mark_iff : ∃ pieces, TagPieces line.source.toList pieces ∧
    (Tag.lastLine ∈ line.tags ↔ Tag.lastLinePiece ∈ pieces ∨ offers)
  once : (line.tags.map Tag.source).count Tag.lastLine.source ≤ 1
  others : line.tags = parsed.tags ∨
    Tag.lastLine ∉ parsed.tags ∧ line.tags = parsed.tags ++ [Tag.lastLine]

/-- A line that is marked by the rule keeps its tags and its id in agreement. -/
theorem markedFrom_of_namedBy {line parsed : Line} {pieces : List (List Char)} {n : Nat}
    {offers : Prop} [Decidable offers] (hpieces : TagPieces line.source.toList pieces)
    (hnamed : Tag.NamedBy pieces n line.id parsed.tags)
    (htags : line.tags = if offers then Tag.addTo parsed.tags .lastLine else parsed.tags) :
    line.MarkedFrom parsed offers ∧ line.Annotated := by
  obtain ⟨more, hread, hmem, hsame⟩ := hnamed.readFrom hpieces.hashed
  obtain ⟨marked, hmarked, hiff, hothers⟩ := hread.mark offers
  rw [← htags] at hmarked hothers
  have hannotated : line.Annotated :=
    annotated_of_readFrom hmarked ((hiff _).mpr (.inl hmem))
  refine ⟨⟨⟨pieces, hpieces, ?_⟩, ?_, hothers⟩, hannotated⟩
  · rw [Tag.lastLine_eq_read]
    refine hmarked.mem_iff.trans ((hiff _).trans ?_)
    refine or_congr (hsame _ Tag.lastLinePiece_ne) ?_
    exact and_iff_left rfl
  · exact List.nodup_iff_count_le_one.mp hannotated.distinct _

end Line

namespace Node

theorem LinesRead.namedBy {node : String} {s t : Session} {ls : List Located} {lines : List Line}
    (h : LinesRead node s ls lines t) :
    ∀ line ∈ lines, ∃ pieces n, Line.TagPieces line.source.toList pieces ∧
      Tag.NamedBy pieces n line.id line.tags := by
  induction h with
  | nil s => simp
  | @cons s t u l line ls lines head _ ih =>
    obtain ⟨pieces, hpieces, hnamed⟩ := Line.read_namedBy head
    refine List.forall_mem_cons.mpr ⟨⟨pieces, t.minted, ?_, hnamed⟩, ih⟩
    obtain ⟨segments, id, tags, u, v, w, -, -, -, rfl, -⟩ := Line.read_ok head
    rwa [Line.ofLayout, String.toList_ofList]

variable {content : List Char} {position : Position} {s t : Session} {node : Node}

/-- A line of a node is a line that was read, and marked if it offers options. -/
theorem read_parsed (h : read content position s = (.ok node, t)) :
    ∃ lines, LinesRead node.id (s.notice (.nodeBegun position node.id))
      (bodyOf (located content position)) lines t ∧
      ∀ (i : Nat) line, node.lines[i]? = some line → ∃ parsed, lines[i]? = some parsed ∧
        line.id = parsed.id ∧ line.source = parsed.source ∧
        line.tags = if Offers node.depthAt node.optionAt i then Tag.addTo parsed.tags .lastLine
          else parsed.tags := by
  obtain ⟨lines, hr, -, hp, he, -⟩ := read_placed h
  have hmarked := Outline.marked_ofLines hr.unlinked
  have hbare : node.lines.toList.map Line.bare = lines.map Line.bare := he ▸ hp.bare
  have hdepth : Outline.depthAt lines = node.depthAt := (Outline.depthAt_map_bare hbare).symm
  have hoption : Outline.optionAt lines = node.optionAt := (Outline.optionAt_map_bare hbare).symm
  refine ⟨lines, hr, fun i line hl => ?_⟩
  have hb := congrArg (fun ls : List Line => ls[i]?) hbare
  have ht := hmarked i
  simp only [List.getElem?_map, Array.getElem?_toList, hl, Option.map_some] at hb
  rw [← he, hl, Option.map_some] at ht
  obtain ⟨parsed, hparsed, hsame⟩ := Option.map_eq_some_iff.mp hb.symm
  simp only [hparsed, Option.map_some, Outline.OffersAt, hdepth, hoption] at ht
  have hid : parsed.bare.id = line.bare.id := by rw [hsame]
  have hsource : parsed.bare.source = line.bare.source := by rw [hsame]
  exact ⟨parsed, hparsed, hid.symm, hsource.symm, Option.some.inj ht⟩

/-- Every line of a node was read from its text, then marked; and it is annotated. -/
theorem read_markedFrom (h : read content position s = (.ok node, t)) :
    ∃ lines, LinesRead node.id (s.notice (.nodeBegun position node.id))
      (bodyOf (located content position)) lines t ∧
      ∀ (i : Nat) line, node.lines[i]? = some line → ∃ parsed pieces n, lines[i]? = some parsed ∧
        Line.TagPieces line.source.toList pieces ∧ Tag.NamedBy pieces n line.id parsed.tags ∧
        line.MarkedFrom parsed (Offers node.depthAt node.optionAt i) ∧ line.Annotated := by
  obtain ⟨lines, hr, hparsed⟩ := read_parsed h
  refine ⟨lines, hr, fun i line hl => ?_⟩
  obtain ⟨parsed, hp, hid, hsource, htags⟩ := hparsed i line hl
  obtain ⟨pieces, n, hpieces, hnamed⟩ := hr.namedBy parsed (List.mem_of_getElem? hp)
  rw [← hsource] at hpieces
  rw [← hid] at hnamed
  obtain ⟨hmarked, hannotated⟩ := Line.markedFrom_of_namedBy hpieces hnamed htags
  exact ⟨parsed, pieces, n, hp, hpieces, hnamed, hmarked, hannotated⟩

end Node

/--
**Tags and id of a line agree.**  The tags of a line that is read are the pieces of its text that
are tags, without those that stood there before, and its id is what the last piece says that gives
an id; where there is none, the id is minted and one more tag says it.  A line of a node has these
tags too, and at most a mark more; so either has a tag that says its id.
-/
theorem Line.tags_agree :
    (∀ content node position s t line, read content node position s = (.ok line, t) →
      (∃ pieces, TagPieces content pieces ∧ Tag.NamedBy pieces t.minted line.id line.tags) ∧
        line.Annotated) ∧
    ∀ content position s t node, Node.read content position s = (.ok node, t) →
      ∀ line ∈ node.lines, (∃ pieces n tags, TagPieces line.source.toList pieces ∧
        Tag.NamedBy pieces n line.id tags ∧
        (line.tags = tags ∨ Tag.lastLine ∉ tags ∧ line.tags = tags ++ [Tag.lastLine])) ∧
        line.Annotated := by
  constructor
  · intro content node position s t line h
    obtain ⟨pieces, hpieces, hnamed⟩ := read_namedBy h
    obtain ⟨more, hread, hmem, -⟩ := hnamed.readFrom hpieces.hashed
    exact ⟨⟨pieces, hpieces, hnamed⟩, annotated_of_readFrom hread hmem⟩
  · intro content position s t node h line hline
    obtain ⟨i, hi, rfl⟩ := Array.mem_iff_getElem.mp hline
    obtain ⟨lines, -, hmarked⟩ := Node.read_markedFrom h
    obtain ⟨parsed, pieces, n, -, hpieces, hnamed, hm, hannotated⟩ :=
      hmarked i _ (Array.getElem?_eq_getElem hi)
    exact ⟨⟨pieces, n, parsed.tags, hpieces, hnamed, hm.others⟩, hannotated⟩

/-- An id with zeros that is given twice, a tag that is written twice, and one that says nothing. -/
def Line.tagSample : String := "Hi #line:007 #a #line #a #line:8 #line:007"

theorem Line.tags_agree_sample :
    (∃ line t, read tagSample.toList "A" ⟨0⟩ (.start {}) = (.ok line, t) ∧ line.id = "007" ∧
      line.tags.map Tag.source = ["#line:007", "#a", "#line", "#line:8"] ∧ line.Annotated) ∧
    ∃ node t, Node.read ("title: A\n---\n" ++ tagSample ++ "\n -> Yes #line").toList ⟨0⟩
        (.start {}) = (.ok node, t) ∧
      node.lines.toList.map (fun line => (line.id, line.tags.map Tag.source)) =
        [("007", ["#line:007", "#a", "#line", "#line:8", "#lastline"]),
          ("line_00000000", ["#line", "#line:line_00000000"])] ∧
      ∀ line ∈ node.lines, line.Annotated := by
  have hline : (read tagSample.toList "A" ⟨0⟩ (.start {})).1.toOption.any (fun line => decide
      (line.id = "007" ∧
        line.tags.map Tag.source = ["#line:007", "#a", "#line", "#line:8"])) = true := by
    decide +kernel
  have hnode : (Node.read ("title: A\n---\n" ++ tagSample ++ "\n -> Yes #line").toList ⟨0⟩
      (.start {})).1.toOption.any (fun node => decide
      (node.lines.toList.map (fun line => (line.id, line.tags.map Tag.source)) =
        [("007", ["#line:007", "#a", "#line", "#line:8", "#lastline"]),
          ("line_00000000", ["#line", "#line:line_00000000"])])) = true := by
    decide +kernel
  constructor
  · obtain ⟨line, t, h, hcheck⟩ := exists_of_any hline
    obtain ⟨hid, htags⟩ := of_decide_eq_true hcheck
    exact ⟨line, t, h, hid, htags, (tags_agree.1 _ _ _ _ _ _ h).2⟩
  · obtain ⟨node, t, h, hcheck⟩ := Node.exists_read hnode
    refine ⟨node, t, h, of_decide_eq_true hcheck, fun line hl => ?_⟩
    exact (tags_agree.2 _ _ _ _ _ h line hl).2

/-! ## The marks of a node -/

namespace Node

/-- The lines of a node are marked where options are offered. -/
structure Marks (node : Node) (lines : List Line) : Prop where
  marked : ∀ (i : Nat) line, node.lines[i]? = some line → ∃ parsed, lines[i]? = some parsed ∧
    line.MarkedFrom parsed (Offers node.depthAt node.optionAt i)
  /-- The option that is offered is linked to the line that offers it. -/
  beside : ∀ (i : Nat) line, node.lines[i]? = some line → Offers node.depthAt node.optionAt i →
    ∃ option, node.lines[i + 1]? = some option ∧ option.isOption = true ∧
      (node.childOf? line = some option ∨ node.siblingOf? line = some option)
  /-- In a row of options on one level only the last one can offer options. -/
  rows : ∀ a b i : Nat,
    (∀ k, a ≤ k → k ≤ b → node.optionAt k = true ∧ node.depthAt k = node.depthAt a) →
      a ≤ i → i < b → ¬ Offers node.depthAt node.optionAt i

variable {content : List Char} {position : Position} {s t : Session} {node : Node}

theorem exists_line_of_optionAt {i : Nat} (h : node.optionAt i = true) :
    ∃ line, node.lines[i]? = some line ∧ line.isOption = true := by
  unfold optionAt Outline.optionAt at h
  rw [Array.getElem?_toList] at h
  cases hl : node.lines[i]? with
  | none =>
    rw [hl] at h
    cases h
  | some line =>
    rw [hl] at h
    exact ⟨line, rfl, h⟩

/-- **The option that a line offers** is its first child or its next sibling. -/
theorem linked_of_offers (h : read content position s = (.ok node, t)) {i : Nat} {line : Line}
    (hl : node.lines[i]? = some line) (ho : Offers node.depthAt node.optionAt i) :
    ∃ option, node.lines[i + 1]? = some option ∧ option.isOption = true ∧
      (node.childOf? line = some option ∨ node.siblingOf? line = some option) := by
  obtain ⟨option, hoption, his⟩ := exists_line_of_optionAt ho.1
  refine ⟨option, hoption, his, ?_⟩
  rcases ho.next_place with hdeeper | hlevel
  · left
    rw [childOf?_eq h hl, if_pos hdeeper, hoption]
  · right
    exact (siblingOf?_eq_some_iff h hl).mpr ⟨i + 1, hlevel, hoption⟩

/--
**Where a node is marked.**  A line has the mark if it was written with it, or if it offers options;
it has the mark once, and no other tag changes.  The option that is offered is the first child or
the next sibling of the line.
-/
theorem read_marks (h : read content position s = (.ok node, t)) :
    ∃ lines, LinesRead node.id (s.notice (.nodeBegun position node.id))
      (bodyOf (located content position)) lines t ∧ node.Marks lines := by
  obtain ⟨lines, hr, hmarked⟩ := read_markedFrom h
  refine ⟨lines, hr, ?_, fun i line hl ho => linked_of_offers h hl ho,
    fun a b i hrow hai hib => Offers.not_inside hrow hai hib⟩
  intro i line hl
  obtain ⟨parsed, -, -, hparsed, -, -, hm, -⟩ := hmarked i line hl
  exact ⟨parsed, hparsed, hm⟩

/-- Options below `A`, below `c` and behind `h`; the ones below `k` are indented further than the
level of `c`, which was left. -/
def markSample : String :=
  "title: A\n---\nA\n    -> b\n  c\n    -> d\n    -> e #lastline\n  -> f\n-> g\n" ++
    "h\n-> i\n-> j\nk\n    -> l"

theorem read_marks_sample :
    ∃ node t lines, read markSample.toList ⟨0⟩ (.start {}) = (.ok node, t) ∧
      (List.range 12).filter (fun i => Offers node.depthAt node.optionAt i) = [0, 2, 7] ∧
      (node.lines.toList.filter fun line => Tag.lastLine ∈ line.tags).map Line.text =
        ["A", "c", "e", "h"] ∧
      node.Marks lines := by
  have hcheck : (read markSample.toList ⟨0⟩ (.start {})).1.toOption.any (fun node => decide
      ((List.range 12).filter (fun i => Offers node.depthAt node.optionAt i) = [0, 2, 7] ∧
        (node.lines.toList.filter fun line => Tag.lastLine ∈ line.tags).map Line.text =
          ["A", "c", "e", "h"])) = true := by
    decide +kernel
  obtain ⟨node, t, h, hnode⟩ := exists_read hcheck
  obtain ⟨hoffers, htags⟩ := of_decide_eq_true hnode
  obtain ⟨lines, -, hmarks⟩ := read_marks h
  exact ⟨node, t, lines, h, hoffers, htags, hmarks⟩

end Node

end Parley
