import Mathlib.Logic.Relation
import Parley.Proofs.Lookup
import Parley.Proofs.Lossless

/-!
# A session only grows

Whatever is asked of a session, and whether it can be done or not, everything in it stays: the
settings, the speakers with their ids and their places, the owners of lines, the reports.  A
reading may be given up after a speaker was enrolled, a report made or an id minted; these remain.
The owners of lines, though, are the work of whole lines: a line that is refused leaves them alone,
and one that is read adds its own id and nothing else.

* `Session.Step` — what a session may do without touching the owners of lines.
* `Line.read_ends` — reading a line is some of these steps, and then at most one registration.
* `Session.Grows` — what a session keeps, along one step and along any number of them.
* `Session.answer_registers` — what each call does to the owners of lines, by how it ends.
* `Session.after_grows` — in every session, and in any history of calls, each of them makes the
  session grow and does just that to the owners of lines.
-/

namespace Parley

/-! ## The cast -/

namespace Cast

/-- The speakers of a cast keep their ids and their places in the order. -/
structure Grows (cast later : Cast) : Prop where
  speakers : ∀ name speaker, cast.find? name = some speaker → later.find? name = some speaker
  order : cast.order.toList <+: later.order.toList

/-- Everyone who is named in the order has been enrolled. -/
def Listed (cast : Cast) : Prop := ∀ name ∈ cast.order.toList, (cast.find? name).isSome = true

namespace Grows

variable {cast later last : Cast}

theorem refl (cast : Cast) : cast.Grows cast := ⟨fun _ _ h => h, List.prefix_refl _⟩

theorem trans (h : cast.Grows later) (h' : later.Grows last) : cast.Grows last where
  speakers := by
    intro name speaker hfind
    exact h'.speakers name speaker (h.speakers name speaker hfind)
  order := h.order.trans h'.order

/-- Enrolling anyone makes the cast grow. -/
theorem enroll (cast : Cast) (name id : String) : cast.Grows (cast.enroll name id).2 := by
  constructor
  · intro other speaker hfind
    rw [find?_enroll]
    split
    · next he =>
      subst he
      rw [enroll_known hfind]
    · exact hfind
  · unfold Cast.enroll
    split
    · exact List.prefix_refl _
    · simp

/-- The speakers keep their order in the list, even where names were ordered and never enrolled. -/
theorem sublist (h : cast.Grows later) : cast.list.Sublist later.list := by
  obtain ⟨more, hmore⟩ := h.order
  have hkept : ∀ names : List String,
      (names.filterMap cast.find?).Sublist (names.filterMap later.find?) := by
    intro names
    induction names with
    | nil => exact List.Sublist.refl _
    | cons name names ih =>
      cases hfind : cast.find? name with
      | none =>
        rw [List.filterMap_cons_none hfind]
        exact ih.trans ((List.sublist_cons_self name names).filterMap later.find?)
      | some speaker =>
        rw [List.filterMap_cons_some hfind,
          List.filterMap_cons_some (h.speakers name speaker hfind)]
        exact ih.cons_cons speaker
  unfold list
  rw [← hmore, List.filterMap_append]
  exact (hkept _).trans (List.sublist_append_left _ _)

/-- Those who were listed are the same speakers later on. -/
theorem filterMap_find? (h : cast.Grows later) (hlisted : cast.Listed) :
    cast.order.toList.filterMap later.find? = cast.list := by
  apply List.filterMap_congr
  intro name hname
  obtain ⟨speaker, hfind⟩ := Option.isSome_iff_exists.mp (hlisted name hname)
  rw [hfind, h.speakers name speaker hfind]

/-- **Everyone keeps the place in the list**, where only enrolled names were ordered. -/
theorem list (h : cast.Grows later) (hlisted : cast.Listed) : cast.list <+: later.list := by
  obtain ⟨more, hmore⟩ := h.order
  rw [← h.filterMap_find? hlisted, Cast.list, ← hmore, List.filterMap_append]
  exact List.prefix_append _ _

end Grows

theorem listed_empty : Cast.empty.Listed := by
  intro name hname
  cases hname

theorem Listed.enroll {cast : Cast} (h : cast.Listed) (name id : String) :
    (cast.enroll name id).2.Listed := by
  intro other hother
  rw [find?_enroll]
  split
  · rfl
  · next hne =>
    unfold Cast.enroll at hother
    split at hother
    · exact h other hother
    · rw [Array.toList_push, List.mem_append, List.mem_singleton] at hother
      rcases hother with hold | hnew
      · exact h other hold
      · exact absurd hnew.symm hne

end Cast

/-! ## Growing -/

namespace Session

/-- A line that is registered was free, and is the only new one. -/
theorem register?_some {s t : Session} {line node : String}
    (h : s.register? line node = some t) :
    s.owner? line = none ∧ t = { s with owners := s.owners.insert line node } := by
  unfold register? at h
  split at h
  · cases h
  · next hfree =>
    cases h
    exact ⟨by simpa using hfree, rfl⟩

/-- What a session keeps when it is used. -/
structure Grows (s t : Session) : Prop where
  options : t.options = s.options
  cast : s.cast.Grows t.cast
  listed : s.cast.Listed → t.cast.Listed
  owners : ∀ line node, s.owner? line = some node → t.owner? line = some node
  log : s.log.reports.toList <+: t.log.reports.toList
  minted : s.minted ≤ t.minted
  notices : s.notices.toList <+: t.notices.toList

namespace Grows

variable {s t u : Session}

theorem refl (s : Session) : s.Grows s :=
  ⟨rfl, .refl _, id, fun _ _ h => h, List.prefix_refl _, Nat.le_refl _, List.prefix_refl _⟩

theorem trans (h : s.Grows t) (h' : t.Grows u) : s.Grows u where
  options := h'.options.trans h.options
  cast := h.cast.trans h'.cast
  listed := fun hs => h'.listed (h.listed hs)
  owners := fun line node hs => h'.owners line node (h.owners line node hs)
  log := h.log.trans h'.log
  minted := Nat.le_trans h.minted h'.minted
  notices := h.notices.trans h'.notices

theorem notice (s : Session) (n : Notice) : s.Grows (s.notice n) :=
  { refl s with notices := by simp [Session.notice] }

theorem warn (s : Session) (r : Report) : s.Grows (s.warn r) :=
  { refl s with
    log := by simp [Session.warn, Session.notice, Log.add]
    notices := by simp [Session.warn, Session.notice] }

theorem mint (s : Session) (stem : String) : s.Grows (s.mint stem).2 :=
  { refl s with minted := Nat.le_succ _ }

theorem speaker (s : Session) (name : String) : s.Grows (s.speaker name).2 := by
  unfold Session.speaker
  split
  · exact refl s
  · have hcast : ∀ id, s.Grows { s with cast := (s.cast.enroll name id).2 } := by
      intro id
      exact { refl s with
        cast := .enroll s.cast name id
        listed := fun hs => hs.enroll name id }
    exact ((hcast _).trans (mint _ "character")).trans (notice _ _)

theorem register? {line node : String} (h : s.register? line node = some t) : s.Grows t := by
  have howner := owner?_register h
  obtain ⟨hfree, rfl⟩ := register?_some h
  refine { refl s with owners := ?_ }
  intro other owner hs
  rw [howner]
  split
  · next he =>
    rw [← he, hfree] at hs
    cases hs
  · exact hs

end Grows

/-! ## Steps that leave the owners of lines alone -/

/-- What a session may do while something is read, but for registering a line. -/
inductive Step (s : Session) : Session → Prop
  | notice (n : Notice) : Step s (s.notice n)
  | warn (r : Report) : Step s (s.warn r)
  | mint (stem : String) : Step s (s.mint stem).2
  | speaker (name : String) : Step s (s.speaker name).2

/-- Any number of such steps. -/
abbrev Steps : Session → Session → Prop := Relation.ReflTransGen Step

variable {s t : Session}

theorem Step.grows (h : s.Step t) : s.Grows t := by
  cases h with
  | notice n => exact .notice s n
  | warn r => exact .warn s r
  | mint stem => exact .mint s stem
  | speaker name => exact .speaker s name

theorem Step.owners (h : s.Step t) : t.owners = s.owners := by
  cases h with
  | notice n => rfl
  | warn r => rfl
  | mint stem => rfl
  | speaker name =>
    unfold Session.speaker
    split <;> rfl

theorem Steps.grows (h : s.Steps t) : s.Grows t := by
  induction h with
  | refl => exact .refl s
  | tail _ step ih => exact ih.trans step.grows

theorem Steps.owners (h : s.Steps t) : t.owners = s.owners := by
  induction h with
  | refl => rfl
  | tail _ step ih => rw [step.owners, ih]

end Session

open Session (Step Steps)

/-! ## Lines -/

namespace Line

theorem speaker?_steps (s : Session) (name? : Option String) : s.Steps (speaker? s name?).2 := by
  cases name? with
  | none => exact .refl
  | some name => exact .single (.speaker name)

theorem readParts_steps {position : Position} {done : List Segment} {s t : Session}
    {parts : List Part} {result : Except LineFault (List Segment)}
    (h : readParts position done s parts = (result, t)) : s.Steps t := by
  induction parts generalizing done s with
  | nil =>
    cases h
    exact .refl
  | cons part parts ih =>
    unfold readParts at h
    split at h
    · cases h
      exact .refl
    · exact ih h
    · exact .head (.warn _) (ih h)

theorem noticeIdle_steps (s : Session) (position : Position) (tags : List Tag) :
    s.Steps (noticeIdle s position tags) := by
  unfold noticeIdle
  induction Tag.idle tags generalizing s with
  | nil => exact .refl
  | cons tag tags ih => exact .head (.notice _) (ih _)

theorem identify_steps (s : Session) (written : List Tag) :
    s.Steps (identify s written).2.2 := by
  unfold identify
  split
  · exact .refl
  · exact .single (.mint Tag.lineKey)

/-- How reading a line can end: it is refused, and the owners of lines were not touched; or it is
read, and its id is registered at the very end. -/
inductive Ends (node : String) (s : Session) : Except LineError Line → Session → Prop
  | refused {e : LineError} {t : Session} (steps : s.Steps t) : Ends node s (.error e) t
  | read {line : Line} {u w : Session} {n : Notice} (steps : s.Steps u)
      (registers : u.register? line.id node = some w) : Ends node s (.ok line) (w.notice n)

/-- **Every exit of the reading of a line.** -/
theorem read_ends {content : List Char} {node : String} {position : Position} {s t : Session}
    {result : Except LineError Line} (h : read content node position s = (result, t)) :
    Ends node s result t := by
  have hspeaker := speaker?_steps s (Layout.read s.options.tabWidth content).speaker
  simp only [read] at h
  split at h
  · next fault u hp =>
    cases h
    exact .refused (hspeaker.trans (readParts_steps hp))
  · next segments u hp =>
    let tags := (Layout.read s.options.tabWidth content).tags
    have hall : s.Steps (identify (noticeIdle u position tags) tags).2.2 :=
      ((hspeaker.trans (readParts_steps hp)).trans (noticeIdle_steps u position tags)).trans
        (identify_steps _ tags)
    split at h
    · cases h
      exact .refused hall
    · next w hr =>
      cases h
      exact .read hall hr

theorem Ends.grows {node : String} {s t : Session} {result : Except LineError Line}
    (h : Ends node s result t) : s.Grows t := by
  cases h with
  | refused steps => exact steps.grows
  | read steps registers => exact (steps.grows.trans (.register? registers)).trans (.notice _ _)

end Line

/-! ## Nodes -/

namespace Node

theorem readLines_grows {node : String} {done : List Line} {s t : Session} {ls : List Located}
    {result : Except LineError (List Line)} (h : readLines node done s ls = (result, t)) :
    s.Grows t := by
  induction ls generalizing done s with
  | nil =>
    cases h
    exact .refl _
  | cons l ls ih =>
    unfold readLines at h
    split at h
    · next e u hl =>
      cases h
      exact (Line.read_ends hl).grows
    · next line u hl => exact (Line.read_ends hl).grows.trans (ih h)

/-- **A node makes the session grow**, wherever its reading is given up. -/
theorem read_grows {content : List Char} {position : Position} {s t : Session}
    {result : Except NodeError Node} (h : read content position s = (result, t)) : s.Grows t := by
  simp only [read] at h
  split at h
  · cases h
    exact .refl s
  · split at h
    · cases h
      exact .refl s
    · next id _ =>
      have hbegun : s.Grows (s.notice (.nodeBegun position id)) := .notice s _
      split at h
      · next hl =>
        cases h
        exact hbegun.trans (readLines_grows hl)
      · next hl =>
        cases h
        exact hbegun.trans (readLines_grows hl)
      · next hl =>
        cases h
        exact hbegun.trans (readLines_grows hl)

/-- Lines that are read one after the other raise the number of lines by their own. -/
theorem LinesRead.lineCount {node : String} {s t : Session} {ls : List Located}
    {lines : List Line} (h : LinesRead node s ls lines t) :
    t.lineCount = s.lineCount + lines.length := by
  induction h with
  | nil s => rfl
  | @cons s t u l line ls lines head _ ih =>
    have hone : t.lineCount = s.lineCount + 1 := by
      cases Line.read_ends head with
      | @read _ v w _ steps registers =>
        obtain ⟨hfree, rfl⟩ := Session.register?_some registers
        have hnew : v.owners.contains line.id = false := by
          rw [Std.ExtTreeMap.contains_eq_isSome_getElem?]
          exact Option.isSome_eq_false_iff.mpr (Option.isNone_iff_eq_none.mpr hfree)
        show (v.owners.insert line.id node).size = s.owners.size + 1
        rw [Std.ExtTreeMap.size_insert, hnew, steps.owners]
        rfl
    rw [ih, hone, List.length_cons]
    omega

theorem read_lineCount {content : List Char} {position : Position} {s t : Session} {node : Node}
    (h : read content position s = (.ok node, t)) :
    t.lineCount = s.lineCount + node.lines.size := by
  obtain ⟨lines, hr, -, hp, he, -⟩ := read_placed h
  have hsize : node.lines.size = lines.length := by
    have hlength := congrArg List.length (Line.map_of_bare Line.id (fun _ => rfl) hp.bare)
    rw [List.length_map, List.length_map, ← he, Array.length_toList] at hlength
    exact hlength
  rw [hr.lineCount, hsize]
  rfl

end Node

/-! ## Histories -/

/-- What can be asked of a session. -/
inductive Call where
  | line (content node : String) (position : Position)
  | node (content : String) (position : Position)
  | mint (stem : String)
  | speaker (name : String)

/-- What a session answers. -/
inductive Reply where
  | line (result : Except LineError Line)
  | node (result : Except NodeError Node)
  | id (id : String)
  | speaker (speaker : Speaker)

namespace Session

/-- The answer to a call, and the session after it. -/
def answer (s : Session) : Call → Reply × Session
  | .line content node position => (Line.read content.toList node position s).map .line id
  | .node content position => (Node.read content.toList position s).map .node id
  | .mint stem => (s.mint stem).map .id id
  | .speaker name => (s.speaker name).map .speaker id

/-- The session after some calls, one after the other. -/
def after (s : Session) (calls : List Call) : Session :=
  calls.foldl (fun s call => (s.answer call).2) s

/-- What a call does to the owners of lines, by how it ends: a line that is read adds itself, a node
that is read adds its lines, and nothing else but a node that is refused midway adds any. -/
inductive Registers (s t : Session) : Call → Reply → Prop
  | lineRead {content node : String} {position : Position} {line : Line}
      (free : s.owner? line.id = none) (owners : t.owners = s.owners.insert line.id node) :
      Registers s t (.line content node position) (.line (.ok line))
  | lineRefused {content node : String} {position : Position} {e : LineError}
      (owners : t.owners = s.owners) :
      Registers s t (.line content node position) (.line (.error e))
  | nodeRead {content : String} {position : Position} {node : Node}
      (nodup : node.lineIds.Nodup) (free : ∀ id ∈ node.lineIds, s.owner? id = none)
      (owners : ∀ id,
        t.owner? id = if id ∈ node.lineIds then some node.id else s.owner? id)
      (count : t.lineCount = s.lineCount + node.lines.size) :
      Registers s t (.node content position) (.node (.ok node))
  | nodeRefused {content : String} {position : Position} {e : NodeError} :
      Registers s t (.node content position) (.node (.error e))
  | minted {stem id : String} (owners : t.owners = s.owners) : Registers s t (.mint stem) (.id id)
  | heard {name : String} {speaker : Speaker} (owners : t.owners = s.owners) :
      Registers s t (.speaker name) (.speaker speaker)

/-- **Each call makes the session grow.** -/
theorem answer_grows (s : Session) (call : Call) : s.Grows (s.answer call).2 := by
  cases call with
  | line content node position =>
    rw [answer, Prod.map_snd]
    exact (Line.read_ends (Prod.eta (Line.read content.toList node position s)).symm).grows
  | node content position =>
    rw [answer, Prod.map_snd]
    exact Node.read_grows (Prod.eta (Node.read content.toList position s)).symm
  | mint stem => exact .mint s stem
  | speaker name => exact .speaker s name

/-- **What each call does to the owners of lines.** -/
theorem answer_registers (s : Session) (call : Call) :
    s.Registers (s.answer call).2 call (s.answer call).1 := by
  cases call with
  | line content node position =>
    rw [answer, Prod.map_fst, Prod.map_snd]
    generalize hread : Line.read content.toList node position s = outcome
    obtain ⟨result, t⟩ := outcome
    cases Line.read_ends hread with
    | refused steps => exact .lineRefused steps.owners
    | @read line u w n steps registers =>
      obtain ⟨-, rfl⟩ := register?_some registers
      refine .lineRead (Line.read_owner? hread).1 ?_
      show u.owners.insert line.id node = _
      rw [steps.owners]
  | node content position =>
    rw [answer, Prod.map_fst, Prod.map_snd]
    generalize hread : Node.read content.toList position s = outcome
    obtain ⟨result, t⟩ := outcome
    cases result with
    | error e => exact .nodeRefused
    | ok node =>
      obtain ⟨hfree, howners⟩ := Node.read_owner? hread
      exact .nodeRead (Node.ids_nodup hread) hfree howners (Node.read_lineCount hread)
  | mint stem => exact .minted rfl
  | speaker name => exact .heard (Step.speaker name).owners

/-- A history of calls makes the session grow. -/
theorem grows_after (s : Session) (calls : List Call) : s.Grows (s.after calls) := by
  induction calls generalizing s with
  | nil => exact .refl s
  | cons call calls ih => exact (s.answer_grows call).trans (ih _)

/-- **A session only grows**: in every history of calls, each call keeps everything that the session
held before it, whether it succeeds or fails; speakers keep their order in the list of the cast, and
their very places if only enrolled names were ordered; and the owners of lines change as the call
says. -/
theorem after_grows (s : Session) (before : List Call) (call : Call) (later : List Call) :
    let t := s.after before
    let u := (t.answer call).2
    s.Grows t ∧ t.Grows u ∧ u.Grows (u.after later) ∧
      t.cast.list.Sublist u.cast.list ∧ (s.cast.Listed → t.cast.list <+: u.cast.list) ∧
      t.Registers u call (t.answer call).1 := by
  have hbefore := s.grows_after before
  have hcall := (s.after before).answer_grows call
  exact ⟨hbefore, hcall, grows_after _ later, hcall.cast.sublist,
    fun hs => hcall.cast.list (hbefore.listed hs), answer_registers _ call⟩

/-- A line that is refused for its last piece, behind its speaker and a warning. -/
def refusedCall : Call := .line "Ann: <<say 'hi>> [b]Oh" "N" ⟨0⟩

/-- The refused line leaves Ann in the cast and its warning in the log, but no line, and Ann keeps
her place when Bob speaks. -/
theorem after_grows_refused :
    let s := start {}
    let t := s.after [refusedCall]
    let u := (t.answer (.speaker "Bob")).2
    t.cast.list = [⟨"character_00000000", "Ann"⟩] ∧ t.log.reports.size = 1 ∧ t.lineCount = 0 ∧
      u.cast.list = [⟨"character_00000000", "Ann"⟩, ⟨"character_00000001", "Bob"⟩] ∧
      s.Grows t ∧ t.Grows u ∧ t.cast.list <+: u.cast.list := by
  obtain ⟨hbefore, hcall, -, -, hlist, -⟩ :=
    after_grows (start {}) [refusedCall] (.speaker "Bob") []
  exact ⟨by decide +kernel, by decide +kernel, by decide +kernel, by decide +kernel, hbefore, hcall,
    hlist Cast.listed_empty⟩

end Session

end Parley
