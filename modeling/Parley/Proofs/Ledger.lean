import Parley.Proofs.Pieces

/-!
# What a session keeps of the lines that were read

All that a session keeps for the lines to come is who has spoken, how many ids were minted, and
which ids are taken.  These depend on the texts of the lines read so far and on nothing else: a
speaker counts once, a line without an id of its own counts once, and both draw from one counter.
So the id of every line can be told from the texts (`Line.idAfter`), without reading any.

* `Session.Holds` — what a session keeps, with one lemma per step of reading a line.
* `Line.nodup_ids_iff` — ids are different if each is new behind the lines before it.
* `Line.Fine.read` — a line that is fine behind the lines before it is read, and the session then
  keeps one line more.
* `Line.Fails.read` — a line that is not fine is refused for what is wrong with it.
-/

namespace Parley

/-! ## Ids that can be told from the texts -/

namespace Line

/-- The id that a line gives itself: what its last `#line:` tag with a value says. -/
def ownId? (content : List Char) : Option String := Tag.lineId? (Layout.read 0 content).tags

/-- The name of the speaker of a line. -/
def speakerName? (content : List Char) : Option String := (Layout.read 0 content).speaker

/-- The names of the speakers of lines. -/
def heard (told : List (List Char)) : List String := told.filterMap speakerName?

/-- The lines that give themselves no id. -/
def unnamed (told : List (List Char)) : List (List Char) :=
  told.filter fun content => (ownId? content).isNone

/-- The number of ids that are minted before that of a line: one for every speaker, its own one
included, and one for every earlier line that gives itself none. -/
def mintedBefore (told : List (List Char)) (content : List Char) : Nat :=
  (heard (told ++ [content])).dedup.length + (unnamed told).length

/-- The id of a line behind other lines. -/
def idAfter (told : List (List Char)) (content : List Char) : String :=
  (ownId? content).getD (mintedId Tag.lineKey (mintedBefore told content))

/-- The ids of lines. -/
def ids (told : List (List Char)) : List String :=
  told.mapIdx fun i content => idAfter (told.take i) content

theorem heard_concat (told : List (List Char)) (content : List Char) :
    heard (told ++ [content]) = heard told ++ (speakerName? content).toList := by
  rw [heard, List.filterMap_append]
  cases h : speakerName? content <;> simp [heard, h]

theorem unnamed_concat (told : List (List Char)) (content : List Char) :
    (unnamed (told ++ [content])).length =
      (unnamed told).length + if ownId? content = none then 1 else 0 := by
  cases h : ownId? content <;> simp [unnamed, h]

theorem ids_nil : ids [] = [] := rfl

theorem ids_concat (told : List (List Char)) (content : List Char) :
    ids (told ++ [content]) = ids told ++ [idAfter told content] := by
  rw [ids, List.mapIdx_concat, List.take_left]
  congr 1
  apply List.ext_getElem?
  intro i
  rw [ids, List.getElem?_mapIdx, List.getElem?_mapIdx]
  cases h : told[i]? with
  | none => rfl
  | some other =>
    have hi : i ≤ told.length := Nat.le_of_lt (List.getElem?_eq_some_iff.mp h).1
    rw [List.take_append_of_le_length hi]

/-- Ids are pairwise different if every one is new behind the lines before it. -/
theorem nodup_ids_iff {told : List (List Char)} :
    (ids told).Nodup ↔ Passes (fun before content => idAfter before content ∉ ids before) told := by
  induction told using List.reverseRecOn with
  | nil => simp [ids_nil, passes_nil]
  | append_singleton told content ih =>
    rw [ids_concat, passes_concat, ← ih, ← List.concat_eq_append, List.nodup_concat, and_comm]

end Line

/-! ## What a session keeps -/

namespace Session

/-- A session keeps the names of its cast, the number of lines whose ids were minted, and the ids
that are taken. -/
structure Holds (s : Session) (names : List String) (lines : Nat) (ids : List String) : Prop where
  cast : ∀ name, (s.cast.find? name).isSome = true ↔ name ∈ names
  minted : s.minted = names.dedup.length + lines
  owners : ∀ id, (s.owner? id).isSome = true ↔ id ∈ ids

/-- A session keeps what there is to keep of lines. -/
def Told (s : Session) (told : List (List Char)) : Prop :=
  s.Holds (Line.heard told) (Line.unnamed told).length (Line.ids told)

theorem told_start (options : Options) : (start options).Told [] where
  cast := by simp [start, Cast.empty, Cast.find?, Line.heard]
  minted := rfl
  owners := by simp [start, owner?, Line.ids_nil]

namespace Holds

variable {s t : Session} {names ids : List String} {lines : Nat}

theorem keep (h : s.Holds names lines ids) (hkeeps : s.Keeps t) : t.Holds names lines ids where
  cast := by rw [hkeeps.cast]; exact h.cast
  minted := by rw [hkeeps.minted, h.minted]
  owners := by
    intro id
    rw [hkeeps.owner?, h.owners]

theorem notice (h : s.Holds names lines ids) (n : Notice) : (s.notice n).Holds names lines ids :=
  h.keep (.notice s n)

/-- A speaker is one name more, which costs an id if the name is new. -/
theorem speaker (h : s.Holds names lines ids) (name : String) :
    (s.speaker name).2.Holds (names ++ [name]) lines ids := by
  have hcast := h.cast name
  unfold Session.speaker
  split
  · next speaker hknown =>
    rw [hknown] at hcast
    have hmem : name ∈ names := hcast.mp rfl
    refine ⟨?_, ?_, h.owners⟩
    · intro other
      rw [h.cast, List.mem_append, List.mem_singleton]
      exact ⟨.inl, fun ho => ho.elim id fun he => he ▸ hmem⟩
    · rw [length_dedup_concat, if_pos hmem]
      exact h.minted
  · next hnew =>
    rw [hnew] at hcast
    have hmem : name ∉ names := fun hm => by simpa using hcast.mpr hm
    refine ⟨?_, ?_, h.owners⟩
    · intro other
      show (Option.isSome ((s.cast.enroll name _).2.find? other)) = true ↔ _
      rw [Cast.find?_enroll, List.mem_append, List.mem_singleton, ← h.cast]
      split
      · next he => simp [he]
      · next hne => simp [Ne.symm hne]
    · rw [length_dedup_concat, if_neg hmem]
      show s.minted + 1 = _
      rw [h.minted]
      omega

theorem speaker? (h : s.Holds names lines ids) (name? : Option String) :
    (Line.speaker? s name?).2.Holds (names ++ name?.toList) lines ids := by
  cases name? with
  | none => simpa [Line.speaker?] using h
  | some name => exact h.speaker name

/-- A line takes the id that its tags give it, or the next one that is minted. -/
theorem identify (h : s.Holds names lines ids) (written : List Tag) :
    (Line.identify s written).1 =
        (Tag.lineId? written).getD (mintedId Tag.lineKey (names.dedup.length + lines)) ∧
      (Line.identify s written).2.2.Holds names
        (lines + if Tag.lineId? written = none then 1 else 0) ids := by
  unfold Line.identify
  split
  · next id hid => exact ⟨by rw [hid]; rfl, by simpa [hid] using h⟩
  · next hid =>
    refine ⟨by rw [hid, ← h.minted]; rfl, h.cast, ?_, h.owners⟩
    show s.minted + 1 = _
    rw [hid, if_pos rfl, h.minted]
    omega

theorem register? (h : s.Holds names lines ids) {id node : String}
    (hr : s.register? id node = some t) : t.Holds names lines (ids ++ [id]) := by
  have howner := owner?_register hr
  unfold Session.register? at hr
  split at hr
  · cases hr
  · cases hr
    refine ⟨h.cast, h.minted, ?_⟩
    intro other
    rw [howner, List.mem_append, List.mem_singleton, ← h.owners]
    split
    · next he => simp [he]
    · next hne => simp [Ne.symm hne]

end Holds

end Session

/-! ## Reading a line -/

namespace Line

/-- Nothing is wrong with a line that stands behind other lines: its pieces are sound, and its id is
none of theirs. -/
structure Fine (told : List (List Char)) (content : List Char) : Prop where
  pieces : ∀ part ∈ pieces content, part.Sound
  id : idAfter told content ∉ ids told

/-- What is wrong with a line that stands behind other lines: the first of its pieces that is not
sound, or else its id. -/
inductive Fails (told : List (List Char)) (content : List Char) : LineFault → Prop
  | piece {before : List Part} {part : Part} {fault : LineFault}
      (first : Stops (fun _ => Part.Sound) (Line.pieces content) before part)
      (fails : part.Fails fault) : Fails told content fault
  | id (pieces : ∀ part ∈ Line.pieces content, part.Sound)
      (taken : idAfter told content ∈ ids told) :
      Fails told content (.duplicateId (idAfter told content))

theorem fine_or_fails (told : List (List Char)) (content : List Char) :
    Fine told content ∨ ∃ fault, Fails told content fault := by
  rcases passes_or_stops (fun _ => Part.Sound) (pieces content) with hpass | ⟨before, part, hstop⟩
  · have hpieces := passes_iff_forall.mp hpass
    by_cases hid : idAfter told content ∈ ids told
    · exact .inr ⟨_, .id hpieces hid⟩
    · exact .inl ⟨hpieces, hid⟩
  · have hmem : part ∈ pieces content := hstop.place.subset (by simp)
    rcases Part.sound_or_fails (formed_pieces content part hmem) with hsound | ⟨fault, hfails⟩
    · exact absurd hsound hstop.bad
    · exact .inr ⟨fault, .piece hstop hfails⟩

variable {told : List (List Char)} {content : List Char} {s : Session}

/-- Once its pieces are read, a line gets its id, and is refused if that is taken. -/
theorem read_of_readParts {node : String} {position : Position} {segments : List Segment}
    {u : Session}
    (hp : readParts position [] (speaker? s (speakerName? content)).2 (pieces content) =
      (.ok segments, u)) :
    read content node position s =
      let (id, tags, v) := identify
        (noticeIdle u position (Layout.read 0 content).tags) (Layout.read 0 content).tags
      match v.register? id node with
      | none => (.error ⟨String.ofList content, .duplicateId id, position⟩, v)
      | some w =>
        (.ok (ofLayout (Layout.read s.options.tabWidth content) content node position id
          (speaker? s (speakerName? content)).1 segments tags),
          w.notice (.lineRead position id node)) := by
  have hp' : readParts position [] (speaker? s (Layout.read s.options.tabWidth content).speaker).2
      (Segment.whole (Layout.read s.options.tabWidth content).parts) = (.ok segments, u) := hp
  simp only [read, hp']
  rfl

/-- **A line with sound pieces is read** with the id that can be told from the texts, and refused
exactly if that is taken. -/
theorem read_of_sound (h : s.Told told) (hsound : ∀ part ∈ pieces content, part.Sound)
    (node : String) (position : Position) :
    (idAfter told content ∉ ids told → ∃ line t, read content node position s = (.ok line, t) ∧
        line.id = idAfter told content ∧ t.Told (told ++ [content])) ∧
      (idAfter told content ∈ ids told → ∃ t, read content node position s =
        (.error ⟨String.ofList content, .duplicateId (idAfter told content), position⟩, t)) := by
  obtain ⟨segments, u, hu⟩ := exists_readParts hsound position []
    (speaker? s (speakerName? content)).2
  have hheard : u.Holds (heard (told ++ [content])) (unnamed told).length (ids told) := by
    rw [heard_concat]
    exact (h.speaker? _).keep (readParts_keeps hu)
  have hidentify :=
    (hheard.keep (noticeIdle_keeps u position (Layout.read 0 content).tags)).identify
      (Layout.read 0 content).tags
  rw [read_of_readParts hu]
  generalize identify (noticeIdle u position (Layout.read 0 content).tags)
    (Layout.read 0 content).tags = identified at hidentify ⊢
  obtain ⟨id, tags, v⟩ := identified
  obtain ⟨hid, hkeeps⟩ := hidentify
  have hid : id = idAfter told content := hid
  subst hid
  dsimp only at hkeeps ⊢
  cases hr : v.register? (idAfter told content) node with
  | none =>
    have htaken := (hkeeps.owners _).mp (Session.register?_eq_none_iff.mp hr)
    exact ⟨fun hfree => absurd htaken hfree, fun _ => ⟨v, rfl⟩⟩
  | some w =>
    have hfree : idAfter told content ∉ ids told := by
      rw [← hkeeps.owners, ← Session.register?_eq_none_iff, hr]
      simp
    refine ⟨fun _ => ⟨_, _, rfl, rfl, ?_⟩, fun htaken => absurd htaken hfree⟩
    have hdone := (hkeeps.register? hr).notice (.lineRead position (idAfter told content) node)
    rw [Session.Told, ids_concat, unnamed_concat]
    exact hdone

/-- **A line that is fine is read**, and the session then keeps one line more. -/
theorem Fine.read (h : Fine told content) (hs : s.Told told) (node : String)
    (position : Position) :
    ∃ line t, Line.read content node position s = (.ok line, t) ∧
      line.id = idAfter told content ∧ t.Told (told ++ [content]) :=
  (read_of_sound hs h.pieces node position).1 h.id

/-- **A line that is not fine is refused** for what is wrong with it. -/
theorem Fails.read {fault : LineFault} (h : Fails told content fault) (hs : s.Told told)
    (node : String) (position : Position) :
    ∃ t, Line.read content node position s =
      (.error ⟨String.ofList content, fault, position⟩, t) := by
  cases h with
  | piece first fails =>
    obtain ⟨t, ht⟩ := readParts_stops first fails position []
      (speaker? s (speakerName? content)).2
    have ht' : readParts position []
        (speaker? s (Layout.read s.options.tabWidth content).speaker).2
        (Segment.whole (Layout.read s.options.tabWidth content).parts) = (.error fault, t) := ht
    exact ⟨t, by simp only [Line.read, ht']⟩
  | id pieces taken => exact (read_of_sound hs pieces node position).2 taken

end Line

end Parley
