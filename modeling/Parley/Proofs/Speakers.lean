import Parley.Proofs.Clashes
import Parley.Proofs.Growth
import Parley.Proofs.Reports

/-!
# The cast is exactly the speakers

A line is told whose it is by name, and the cast turns the name into a speaker with an id: the one
it knows, or a new one.  So the cast of a script can be told from its lines: it lists those who
speak, each once, in the order of their first lines, and nobody else.  A speaker on a line is the
very one that the cast has under that name.

* `Session.Heard` — what the cast knows after some speakers were heard, with one lemma per step.
* `Line.read_heard` — a line adds its speaker to those who were heard.
* `Node.LinesRead.heard` and `Script.NodesRead.heard` — lines and nodes add theirs, in order.
* `Script.parseWith_cast` — the cast of every script that can be read is exactly its speakers.
-/

namespace Parley

/-! ## Listing the cast -/

/-- Where all who are ordered were enrolled under their own names, the list has the names of the
order. -/
theorem Cast.map_name_list {cast : Cast} (hlisted : cast.Listed) (hnamed : cast.Named) :
    cast.list.map Speaker.name = cast.order.toList := by
  have hall : ∀ names : List String, (∀ name ∈ names, (cast.find? name).isSome = true) →
      (names.filterMap cast.find?).map Speaker.name = names := by
    intro names
    induction names with
    | nil => exact fun _ => rfl
    | cons name names ih =>
      intro h
      obtain ⟨hfirst, hothers⟩ := List.forall_mem_cons.mp h
      obtain ⟨speaker, hfind⟩ := Option.isSome_iff_exists.mp hfirst
      rw [List.filterMap_cons_some hfind, List.map_cons, hnamed name speaker hfind, ih hothers]
  exact hall cast.order.toList hlisted

/-! ## Who was heard -/

namespace Session

/-- What the session does about a name that is new. -/
theorem speaker_new {s : Session} {name : String} (h : s.cast.find? name = none) :
    s.speaker name =
      let speaker : Speaker := ⟨mintedId "character" s.minted, name⟩
      (speaker, ({ s with
        cast := ⟨s.cast.members.insert name speaker, s.cast.order.push name⟩
        minted := s.minted + 1 }).notice (.speakerAdded speaker)) := by
  simp [speaker, h, mint, Cast.enroll]

section

variable {s : Session} {name : String}

theorem find?_speaker_new (h : s.cast.find? name = none) (other : String) :
    (s.speaker name).2.cast.find? other =
      if name = other then some ⟨mintedId "character" s.minted, name⟩
        else s.cast.find? other := by
  rw [speaker_new h]
  show (s.cast.members.insert name _)[other]? = _
  rw [Std.ExtTreeMap.getElem?_insert]
  simp only [Std.LawfulEqCmp.compare_eq_iff_eq]
  rfl

theorem order_speaker_new (h : s.cast.find? name = none) :
    (s.speaker name).2.cast.order = s.cast.order.push name := by
  rw [speaker_new h]
  rfl

theorem size_speaker_new (h : s.cast.find? name = none) :
    (s.speaker name).2.cast.size = s.cast.size + 1 := by
  have habsent : s.cast.members.contains name = false := by
    rw [Std.ExtTreeMap.contains_eq_isSome_getElem?]
    exact Option.isSome_eq_false_iff.mpr (Option.isNone_iff_eq_none.mpr h)
  rw [speaker_new h]
  show (s.cast.members.insert name _).size = _
  rw [Std.ExtTreeMap.size_insert, habsent]
  rfl

end

/-- The cast knows the speakers that were heard so far, and nobody else. -/
structure Heard (s : Session) (speakers : List Speaker) : Prop where
  order : s.cast.order.toList = (speakers.map Speaker.name).eraseDups
  nodup : s.cast.order.toList.Nodup
  size : s.cast.size = s.cast.order.size
  known : ∀ speaker ∈ speakers, s.cast.find? speaker.name = some speaker
  enrolled : ∀ name speaker, s.cast.find? name = some speaker →
    speaker ∈ speakers ∧ speaker.name = name
  /-- Their ids were minted here. -/
  issued : ∀ speaker ∈ speakers, ∃ k < s.minted, speaker.id = mintedId "character" k
  distinct : ∀ speaker ∈ speakers, ∀ other ∈ speakers, speaker.id = other.id → speaker = other

theorem heard_start (options : Options) : (start options).Heard [] where
  order := rfl
  nodup := List.nodup_nil
  size := rfl
  known := by simp
  enrolled := by
    intro name speaker h
    simp [start, Cast.empty, Cast.find?] at h
  issued := by simp
  distinct := by simp

namespace Heard

variable {s t : Session} {speakers : List Speaker}

theorem named (h : s.Heard speakers) : s.cast.Named :=
  fun name speaker hfind => (h.enrolled name speaker hfind).2

theorem listed (h : s.Heard speakers) : s.cast.Listed := by
  intro name hname
  rw [h.order, List.mem_eraseDups, List.mem_map] at hname
  obtain ⟨speaker, hmem, rfl⟩ := hname
  rw [h.known speaker hmem]
  rfl

/-- What leaves the cast alone changes nothing about who was heard. -/
theorem keep (h : s.Heard speakers) (hcast : t.cast = s.cast) (hgrows : s.Grows t) :
    t.Heard speakers where
  order := by rw [hcast, h.order]
  nodup := by rw [hcast]; exact h.nodup
  size := by rw [hcast]; exact h.size
  known := by rw [hcast]; exact h.known
  enrolled := by rw [hcast]; exact h.enrolled
  issued := by
    intro speaker hmem
    obtain ⟨k, hk, hid⟩ := h.issued speaker hmem
    exact ⟨k, Nat.lt_of_lt_of_le hk hgrows.minted, hid⟩
  distinct := h.distinct

/-- Hearing someone again adds nobody to the cast. -/
theorem again (h : s.Heard speakers) {speaker : Speaker} (hmem : speaker ∈ speakers) :
    s.Heard (speakers ++ [speaker]) := by
  have hsub : ∀ other, other ∈ speakers ++ [speaker] → other ∈ speakers := by
    intro other hother
    rcases List.mem_append.mp hother with hold | hlast
    · exact hold
    · rwa [List.mem_singleton.mp hlast]
  have helem : (speakers.map Speaker.name).elem speaker.name = true :=
    List.elem_iff.mpr (List.mem_map_of_mem hmem)
  refine ⟨?_, h.nodup, h.size, fun other ho => h.known other (hsub other ho), ?_,
    fun other ho => h.issued other (hsub other ho),
    fun a ha b hb => h.distinct a (hsub a ha) b (hsub b hb)⟩
  · rw [List.map_append, List.map_singleton, eraseDups_concat, if_pos helem, h.order]
  · intro name other hfind
    obtain ⟨hold, hname⟩ := h.enrolled name other hfind
    exact ⟨List.mem_append_left _ hold, hname⟩

/-- Whoever is new was not heard before, and has an id that nobody had. -/
theorem unheard (h : s.Heard speakers) {name : String} (hnew : s.cast.find? name = none) :
    ∀ speaker ∈ speakers, speaker.name ≠ name ∧ speaker.id ≠ mintedId "character" s.minted := by
  intro speaker hmem
  constructor
  · rintro rfl
    rw [h.known speaker hmem] at hnew
    cases hnew
  · intro hid
    obtain ⟨k, hk, hissued⟩ := h.issued speaker hmem
    have hsame := mintedId_injective "character" (hissued.symm.trans hid)
    omega

/-- Someone new is enrolled behind the others, with the next id. -/
theorem enroll (h : s.Heard speakers) {name : String} (hnew : s.cast.find? name = none) :
    (s.speaker name).2.Heard (speakers ++ [(s.speaker name).1]) := by
  have hunheard := h.unheard hnew
  have hfind := find?_speaker_new hnew
  have hfirst : (s.speaker name).1 = ⟨mintedId "character" s.minted, name⟩ := by
    rw [speaker_new hnew]
  have horder : (s.speaker name).2.cast.order.toList = s.cast.order.toList ++ [name] := by
    rw [order_speaker_new hnew, Array.toList_push]
  have hout : name ∉ speakers.map Speaker.name := by
    rw [List.mem_map]
    rintro ⟨speaker, hmem, hname⟩
    exact (hunheard speaker hmem).1 hname
  rw [hfirst]
  constructor
  case order =>
    have helem : (speakers.map Speaker.name).elem name = false := by
      rw [Bool.eq_false_iff, Ne, List.elem_iff]
      exact hout
    rw [horder, List.map_append, List.map_singleton, eraseDups_concat, helem, h.order]
    rfl
  case nodup =>
    rw [horder, ← List.concat_eq_append, List.nodup_concat]
    exact ⟨by rwa [h.order, List.mem_eraseDups], h.nodup⟩
  case size => rw [size_speaker_new hnew, order_speaker_new hnew, Array.size_push, h.size]
  case known =>
    intro speaker hmem
    rw [hfind]
    rcases List.mem_append.mp hmem with hold | hlast
    · rw [if_neg (hunheard speaker hold).1.symm, h.known speaker hold]
    · rw [List.mem_singleton.mp hlast, if_pos rfl]
  case enrolled =>
    intro other speaker hother
    rw [hfind] at hother
    split at hother
    · next he =>
      cases hother
      exact ⟨by simp, he⟩
    · obtain ⟨hold, hname⟩ := h.enrolled other speaker hother
      exact ⟨List.mem_append_left _ hold, hname⟩
  case issued =>
    intro speaker hmem
    rw [speaker_new hnew]
    show ∃ k < s.minted + 1, _
    rcases List.mem_append.mp hmem with hold | hlast
    · obtain ⟨k, hk, hid⟩ := h.issued speaker hold
      exact ⟨k, Nat.lt_succ_of_lt hk, hid⟩
    · exact ⟨s.minted, Nat.lt_succ_self _, by rw [List.mem_singleton.mp hlast]⟩
  case distinct =>
    intro a ha b hb hid
    rcases List.mem_append.mp ha with ha | ha <;> rcases List.mem_append.mp hb with hb | hb
    · exact h.distinct a ha b hb hid
    · rw [List.mem_singleton.mp hb] at hid
      exact absurd hid (hunheard a ha).2
    · rw [List.mem_singleton.mp ha] at hid
      exact absurd hid.symm (hunheard b hb).2
    · rw [List.mem_singleton.mp ha, List.mem_singleton.mp hb]

/-- **Whoever speaks is heard**, known or not. -/
theorem speaker? (h : s.Heard speakers) (name? : Option String) :
    (Line.speaker? s name?).2.Heard (speakers ++ (Line.speaker? s name?).1.toList) := by
  cases name? with
  | none => simpa [Line.speaker?] using h
  | some name =>
    show (s.speaker name).2.Heard (speakers ++ [(s.speaker name).1])
    cases hfind : s.cast.find? name with
    | some speaker =>
      rw [speaker_known hfind]
      exact h.again (h.enrolled name speaker hfind).1
    | none => exact h.enroll hfind

end Heard

end Session

/-! ## Reading -/

namespace Line

/-- **A line adds its speaker** to those who were heard. -/
theorem read_heard {content : List Char} {node : String} {position : Position} {s t : Session}
    {line : Line} {speakers : List Speaker} (h : read content node position s = (.ok line, t))
    (hs : s.Heard speakers) : t.Heard (speakers ++ line.speaker.toList) := by
  have hcast := read_cast h
  obtain ⟨segments, id, tags, u, v, w, hp, hi, hr, rfl, rfl⟩ := read_ok h
  have hidentify := (identify_steps
    (noticeIdle u position (Layout.read s.options.tabWidth content).tags)
    (Layout.read s.options.tabWidth content).tags).grows
  rw [hi] at hidentify
  have hread := ((readParts_steps hp).grows.trans (noticeIdle_steps u position _).grows).trans
    hidentify
  have hgrows := (hread.trans (.register? hr)).trans (.notice w (.lineRead position id node))
  exact (hs.speaker? _).keep hcast hgrows

end Line

namespace Node

/-- The speakers of the lines of a node, in their order. -/
def speakers (node : Node) : List Speaker := node.lines.toList.filterMap Line.speaker

theorem LinesRead.heard {node : String} {s t : Session} {ls : List Located} {lines : List Line}
    {speakers : List Speaker} (h : LinesRead node s ls lines t) (hs : s.Heard speakers) :
    t.Heard (speakers ++ lines.filterMap Line.speaker) := by
  induction h generalizing speakers with
  | nil s => simpa using hs
  | @cons s t u l line ls lines head _ ih =>
    have hrest := ih (Line.read_heard head hs)
    rw [List.append_assoc] at hrest
    rw [List.filterMap_cons]
    cases hspeaker : line.speaker with
    | none => simpa [hspeaker] using hrest
    | some speaker => simpa [hspeaker] using hrest

/-- A node adds the speakers of its lines. -/
theorem read_heard {content : List Char} {position : Position} {s t : Session} {node : Node}
    {speakers : List Speaker} (h : read content position s = (.ok node, t))
    (hs : s.Heard speakers) : t.Heard (speakers ++ node.speakers) := by
  obtain ⟨lines, hr, -, hp, he, -⟩ := read_placed h
  have hsame : node.speakers = lines.filterMap Line.speaker := by
    have hmap := Line.map_of_bare Line.speaker (fun _ => rfl) hp.bare
    have hsome := congrArg (List.filterMap fun speaker => speaker) hmap
    rw [List.filterMap_map, List.filterMap_map] at hsome
    rw [Node.speakers, he]
    exact hsome
  rw [hsame]
  exact hr.heard (hs.keep rfl (.notice s _))

end Node

namespace Script

/-- The speakers of the lines of nodes, in the order of the document. -/
def speakersOf (nodes : List Node) : List Speaker := nodes.flatMap Node.speakers

theorem NodesRead.heard {s t : Session} {blocks : List Block} {nodes : List Node}
    {speakers : List Speaker} (h : NodesRead s blocks nodes t) (hs : s.Heard speakers) :
    t.Heard (speakers ++ speakersOf nodes) := by
  induction h generalizing speakers with
  | nil s => simpa [speakersOf] using hs
  | cons head _ ih =>
    have hrest := ih (Node.read_heard head hs)
    rw [List.append_assoc] at hrest
    exact hrest

/-! ## The cast of a script -/

/-- The lines of a script, in the order of the document. -/
def lines (script : Script) : List Line :=
  script.nodes.toList.flatMap fun node => node.lines.toList

/-- The cast of a script is exactly those who speak in it. -/
structure SpokenByCast (script : Script) : Prop where
  /-- The names on the lines are listed once each, in the order of their first lines. -/
  names : script.cast.list.map Speaker.name =
    ((script.lines.filterMap Line.speaker).map Speaker.name).eraseDups
  nodup : (script.cast.list.map Speaker.name).Nodup
  /-- A line holds the very speaker that the cast has under that name. -/
  held : ∀ line ∈ script.lines, ∀ speaker, line.speaker = some speaker →
    script.cast.find? speaker.name = some speaker
  /-- Nobody else is found in the cast. -/
  enrolled : ∀ name speaker, script.cast.find? name = some speaker →
    speaker.name = name ∧ ∃ line ∈ script.lines, line.speaker = some speaker
  /-- Speakers are told apart by their names. -/
  same_iff : ∀ line ∈ script.lines, ∀ other ∈ script.lines,
    line.speaker = other.speaker ↔
      line.speaker.map Speaker.name = other.speaker.map Speaker.name
  ids : ∀ speaker ∈ script.cast.list, ∀ other ∈ script.cast.list, speaker.name ≠ other.name →
    speaker.id ≠ other.id
  size : script.cast.size = script.cast.list.length

variable {content : String} {options : Options} {script : Script}

theorem filterMap_speaker_lines (script : Script) :
    script.lines.filterMap Line.speaker = speakersOf script.nodes.toList := by
  rw [lines, List.filterMap_flatMap]
  rfl

/-- The session in which a script was read has heard its speakers. -/
theorem exists_heard (h : parseWith content options = .ok script) :
    ∃ s : Session, s.cast = script.cast ∧ s.Heard (script.lines.filterMap Line.speaker) := by
  obtain ⟨nodes, s, hr, -, rfl⟩ := parseWith_ok h
  obtain ⟨new, hnew, hread⟩ := readNodes_ok hr
  rw [List.reverse_nil, List.nil_append] at hnew
  subst hnew
  refine ⟨s, ?_, ?_⟩
  · show s.cast = (checkJumps _ _).cast
    rw [cast_checkJumps]
    rfl
  · rw [filterMap_speaker_lines]
    exact hread.heard (Session.heard_start options)

/-- **The cast of a script is exactly its speakers**: it lists every name that stands on a line
once, in the order of the first lines, and nobody else; each line holds the speaker whom the cast
has under the name; and speakers of different names have different ids. -/
theorem parseWith_cast (h : parseWith content options = .ok script) : script.SpokenByCast := by
  obtain ⟨s, hcast, hheard⟩ := exists_heard h
  have hnames := Cast.map_name_list hheard.listed hheard.named
  have hmem : ∀ line ∈ script.lines, ∀ speaker, line.speaker = some speaker →
      speaker ∈ script.lines.filterMap Line.speaker :=
    fun line hline speaker hspeaker => List.mem_filterMap.mpr ⟨line, hline, hspeaker⟩
  rw [hcast] at hnames
  refine ⟨?_, ?_, ?_, ?_, ?_, ?_, ?_⟩
  · rw [hnames, ← hcast, hheard.order]
  · rw [hnames, ← hcast]
    exact hheard.nodup
  · intro line hline speaker hspeaker
    rw [← hcast]
    exact hheard.known speaker (hmem line hline speaker hspeaker)
  · intro name speaker hfind
    rw [← hcast] at hfind
    obtain ⟨hold, hname⟩ := hheard.enrolled name speaker hfind
    exact ⟨hname, List.mem_filterMap.mp hold⟩
  · intro line hline other hother
    refine ⟨fun he => by rw [he], fun he => ?_⟩
    cases hl : line.speaker with
    | none =>
      rw [hl] at he
      exact (Option.map_eq_none_iff.mp he.symm).symm
    | some speaker =>
      rw [hl] at he
      obtain ⟨same, hs, hname⟩ := Option.map_eq_some_iff.mp he.symm
      have hfirst := hheard.known speaker (hmem line hline speaker hl)
      have hsecond := hheard.known same (hmem other hother same hs)
      rw [hname, hfirst] at hsecond
      rw [hs, hsecond]
  · intro speaker hspeaker other hother hne hid
    have hlisted : ∀ a ∈ script.cast.list, a ∈ script.lines.filterMap Line.speaker := by
      intro a ha
      obtain ⟨name, -, hfind⟩ := List.mem_filterMap.mp ha
      rw [← hcast] at hfind
      exact (hheard.enrolled name a hfind).1
    exact hne (congrArg Speaker.name
      (hheard.distinct speaker (hlisted speaker hspeaker) other (hlisted other hother) hid))
  · have hlength := congrArg List.length hnames
    rw [List.length_map, ← hcast] at hlength
    rw [← hcast, hheard.size]
    exact hlength.symm

/-- Two speakers who take turns in two nodes, and a line without a speaker. -/
def castSample : String :=
  "title: A\n---\nBob: Hi\nOn a bench.\nAnn: Hi\n===\ntitle: B\n---\nAnn: Well\nBob: Well"

theorem parseWith_cast_sample :
    ∃ script, parseWith castSample {} = .ok script ∧
      script.cast.list = [⟨"character_00000000", "Bob"⟩, ⟨"character_00000003", "Ann"⟩] ∧
      script.SpokenByCast := by
  have hcheck : (parseWith castSample {}).toOption.any (fun script => decide
      (script.cast.list = [⟨"character_00000000", "Bob"⟩, ⟨"character_00000003", "Ann"⟩])) =
      true := by
    decide +kernel
  obtain ⟨script, h, hlist⟩ := exists_parseWith hcheck
  exact ⟨script, h, of_decide_eq_true hlist, parseWith_cast h⟩

end Script

end Parley
