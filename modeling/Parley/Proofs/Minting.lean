import Parley.Proofs.Delimiters
import Parley.Proofs.Speakers

/-!
# Minted ids never repeat

Ids are minted in three places: for whoever asks, for a speaker whose name is new, and for a line
that gives itself no id.  All three draw from one counter, so the numbers in the ids never repeat,
and an id shows its number whatever its stem is.

What a call mints is told from the outside (`Session.mints`): from its answer, and from whom the
cast has afterwards and lacked before.  This counts the ids of readings that fail later on, too; and
it misses none, since the counter goes up by just as many.

* `Issued` — ids that were minted one after the other, which are all different.
* `Line.mints_issued` — the ids of a line, however its reading ends.
* `Session.mints_issued` — the ids of a call, with one case for each kind of call.
* `Session.mintsAlong_distinct` — in every history of a new session all minted ids are different,
  and a name that is known mints nothing.
-/

namespace Parley

/-! ## Ids minted one after the other -/

/-- Ids that are minted one after the other, when the counter goes from one number to another. -/
inductive Issued : Nat → List String → Nat → Prop
  | none (n : Nat) : Issued n [] n
  | mint {n m : Nat} {ids : List String} (stem : String) (others : Issued (n + 1) ids m) :
      Issued n (mintedId stem n :: ids) m

namespace Issued

variable {n k m : Nat} {ids more : List String}

theorem one (stem : String) (n : Nat) : Issued n [mintedId stem n] (n + 1) := .mint stem (.none _)

theorem append (h : Issued n ids k) (h' : Issued k more m) : Issued n (ids ++ more) m := by
  induction h with
  | none n => exact h'
  | mint stem _ ih => exact .mint stem (ih h')

theorem counter (h : Issued n ids m) : m = n + ids.length := by
  induction h with
  | none n => rfl
  | mint stem _ ih => rw [ih, List.length_cons, Nat.add_assoc, Nat.add_comm 1]

/-- The number in an id is one that the counter went through. -/
theorem number (h : Issued n ids m) : ∀ id ∈ ids, ∃ stem k, n ≤ k ∧ id = mintedId stem k := by
  induction h with
  | none n => simp
  | @mint n m ids stem _ ih =>
    refine List.forall_mem_cons.mpr ⟨⟨stem, n, Nat.le_refl n, rfl⟩, ?_⟩
    intro id hid
    obtain ⟨other, k, hk, rfl⟩ := ih id hid
    exact ⟨other, k, Nat.le_of_succ_le hk, rfl⟩

/-- **Ids that are minted one after the other are different**, whatever their stems are. -/
theorem nodup (h : Issued n ids m) : ids.Nodup := by
  induction h with
  | none n => exact List.nodup_nil
  | @mint n m ids stem others ih =>
    refine List.nodup_cons.mpr ⟨fun hmem => ?_, ih⟩
    obtain ⟨other, k, hk, hsame⟩ := others.number _ hmem
    have hnumber := (mintedId_eq_iff.mp hsame).2
    omega

end Issued

/-! ## Newcomers -/

namespace Cast

/-- The speakers of a cast whom an earlier one lacks. -/
def newcomers (earlier later : Cast) : List Speaker :=
  later.list.filter fun speaker => (earlier.find? speaker.name).isNone

/-- Everyone in the cast is there under the own name, and in the order only they are. -/
structure InOrder (cast : Cast) : Prop where
  named : cast.Named
  listed : cast.Listed

theorem inOrder_empty : Cast.empty.InOrder := ⟨named_empty, listed_empty⟩

/-- Nobody is new to the own cast. -/
theorem newcomers_self {cast : Cast} (h : cast.Named) : cast.newcomers cast = [] := by
  rw [newcomers, List.filter_eq_nil_iff]
  intro speaker hspeaker
  obtain ⟨name, -, hfind⟩ := List.mem_filterMap.mp hspeaker
  rw [h name speaker hfind, hfind]
  simp

end Cast

namespace Session

variable {s : Session} {name : String}

theorem newcomers_known (hs : s.cast.InOrder) (h : (s.cast.find? name).isSome = true) :
    s.cast.newcomers (s.speaker name).2.cast = [] := by
  obtain ⟨speaker, hfind⟩ := Option.isSome_iff_exists.mp h
  rw [speaker_known hfind]
  exact Cast.newcomers_self hs.named

/-- Whoever speaks for the first time is the only newcomer. -/
theorem newcomers_new (hs : s.cast.InOrder) (h : s.cast.find? name = none) :
    s.cast.newcomers (s.speaker name).2.cast = [⟨mintedId "character" s.minted, name⟩] := by
  have hold := (Grows.speaker s name).cast.filterMap_find? hs.listed
  have hlist : (s.speaker name).2.cast.list =
      s.cast.list ++ [⟨mintedId "character" s.minted, name⟩] := by
    rw [Cast.list, order_speaker_new h, Array.toList_push, List.filterMap_append, hold]
    simp [find?_speaker_new h]
  have hself := Cast.newcomers_self hs.named
  unfold Cast.newcomers at hself ⊢
  rw [hlist, List.filter_append, hself]
  simp [h]

/-- A speaker mints an id exactly if the name is new. -/
theorem speaker_issued (hs : s.cast.InOrder) (name : String) :
    Issued s.minted ((s.cast.newcomers (s.speaker name).2.cast).map Speaker.id)
      (s.speaker name).2.minted := by
  cases hfind : s.cast.find? name with
  | some speaker =>
    rw [newcomers_known hs (by rw [hfind]; rfl), speaker_known hfind]
    exact .none _
  | none =>
    rw [newcomers_new hs hfind, speaker_new hfind]
    exact .one "character" s.minted

/-- What a session does while something is read keeps the cast in order. -/
theorem Steps.inOrder {t : Session} (h : s.Steps t) (hs : s.cast.InOrder) : t.cast.InOrder := by
  refine ⟨?_, h.grows.listed hs.listed⟩
  have hnamed := hs.named
  clear hs
  induction h with
  | refl => exact hnamed
  | tail _ step ih =>
    cases step with
    | notice n => exact ih
    | warn r => exact ih
    | mint stem => exact ih
    | speaker name =>
      unfold Session.speaker
      split
      · exact ih
      · exact (ih.enroll name _).2

end Session

/-! ## Lines -/

namespace Line

/-- The id that was minted for a line, as the end of its reading shows it: a line that gives itself
no id has one when it is read, and also when just this id turns out to be taken. -/
def mintedId? (content : List Char) (result : Except LineError Line) : Option String :=
  if (ownId? content).isSome then none
  else match result with
    | .ok line => some line.id
    | .error ⟨_, .duplicateId id, _⟩ => some id
    | .error _ => none

/-- The ids that are minted while a line is read: for a speaker who is new, and for the line. -/
def mints (content : List Char) (node : String) (position : Position) (s : Session) :
    List String :=
  let (result, t) := read content node position s
  (s.cast.newcomers t.cast).map Speaker.id ++ (mintedId? content result).toList

/-- Naming a line mints an id exactly if the tags give none. -/
theorem identify_issued (s : Session) (written : List Tag) :
    Issued s.minted
      (if (Tag.lineId? written).isSome then none else some (identify s written).1).toList
      (identify s written).2.2.minted := by
  unfold identify
  cases Tag.lineId? written with
  | some id => exact .none _
  | none => exact .one Tag.lineKey s.minted

theorem speaker?_issued {s : Session} (hs : s.cast.InOrder) (name? : Option String) :
    Issued s.minted ((s.cast.newcomers (speaker? s name?).2.cast).map Speaker.id)
      (speaker? s name?).2.minted := by
  cases name? with
  | none =>
    show Issued s.minted ((s.cast.newcomers s.cast).map Speaker.id) s.minted
    rw [Cast.newcomers_self hs.named]
    exact .none _
  | some name => exact Session.speaker_issued hs name

/-- Once the speaker is known, a line mints its own id at most. -/
theorem read_issued {content : List Char} {node : String} {position : Position} {s t : Session}
    {result : Except LineError Line} (h : read content node position s = (result, t)) :
    Issued (speaker? s (speakerName? content)).2.minted (mintedId? content result).toList
      t.minted := by
  simp only [read] at h
  split at h
  · next fault u hparts =>
    cases h
    have hnone : mintedId? content (.error ⟨String.ofList content, fault, position⟩) = none := by
      obtain ⟨part, -, hfails⟩ :=
        readParts_error (Part.formed_whole (Part.formed_layout _ _)) hparts
      unfold mintedId?
      cases hfails <;> split <;> rfl
    rw [hnone, (readParts_keeps hparts).minted]
    exact .none _
  · next segments u hparts =>
    -- The reports on pieces and on idle tags mint nothing, so the next number is still the same.
    have hissued := identify_issued
      (noticeIdle u position (Layout.read s.options.tabWidth content).tags)
      (Layout.read s.options.tabWidth content).tags
    rw [(noticeIdle_keeps u position _).minted, (readParts_keeps hparts).minted] at hissued
    split at h
    · cases h
      exact hissued
    · next w hregister =>
      obtain ⟨-, rfl⟩ := Session.register?_some hregister
      cases h
      exact hissued

/-- **The ids that are minted while a line is read**, whether it can be read or not. -/
theorem mints_issued {s : Session} (hs : s.cast.InOrder) (content : List Char) (node : String)
    (position : Position) :
    Issued s.minted (mints content node position s) (read content node position s).2.minted := by
  unfold mints
  generalize hread : read content node position s = outcome
  obtain ⟨result, t⟩ := outcome
  have hspeaker := speaker?_issued hs (Layout.read s.options.tabWidth content).speaker
  rw [← read_cast hread] at hspeaker
  exact hspeaker.append (read_issued hread)

/-- A line whose speaker is known mints no id but its own. -/
theorem mints_known {s : Session} {name : String} {content : List Char} (hs : s.cast.InOrder)
    (h : (s.cast.find? name).isSome = true) (hname : speakerName? content = some name)
    (node : String) (position : Position) :
    mints content node position s =
      (mintedId? content (read content node position s).1).toList := by
  unfold mints
  generalize hread : read content node position s = outcome
  obtain ⟨result, t⟩ := outcome
  have hcast : t.cast = (s.speaker name).2.cast := by
    rw [read_cast hread]
    show (speaker? s (speakerName? content)).2.cast = _
    rw [hname]
    rfl
  show (s.cast.newcomers t.cast).map Speaker.id ++ (mintedId? content result).toList = _
  rw [hcast, Session.newcomers_known hs h, List.map_nil, List.nil_append]

theorem Ends.inOrder {node : String} {s t : Session} {result : Except LineError Line}
    (h : Ends node s result t) (hs : s.cast.InOrder) : t.cast.InOrder := by
  cases h with
  | refused steps => exact steps.inOrder hs
  | read steps registers =>
    obtain ⟨-, rfl⟩ := Session.register?_some registers
    exact steps.inOrder hs

end Line

/-! ## Nodes -/

namespace Node

/-- The ids that are minted while lines are read one by one, up to the first that is refused. -/
def mintsOfLines (node : String) (s : Session) : List Located → List String
  | [] => []
  | l :: ls => Line.mints l.1 node l.2 s ++
    match Line.read l.1 node l.2 s with
    | (.error _, _) => []
    | (.ok _, t) => mintsOfLines node t ls

/-- The ids that are minted while a node is read. -/
def mints (content : List Char) (position : Position) (s : Session) : List String :=
  let ls := located content position
  match readFields (headerOf ls) with
  | .error _ => []
  | .ok fields =>
    match title? fields with
    | none => []
    | some id => mintsOfLines id (s.notice (.nodeBegun position id)) (bodyOf ls)

theorem readLines_issued {node : String} {done : List Line} {s t : Session} {ls : List Located}
    {result : Except LineError (List Line)} (h : readLines node done s ls = (result, t))
    (hs : s.cast.InOrder) : Issued s.minted (mintsOfLines node s ls) t.minted ∧ t.cast.InOrder := by
  induction ls generalizing done s with
  | nil =>
    cases h
    exact ⟨.none _, hs⟩
  | cons l ls ih =>
    have hline := Line.mints_issued hs l.1 node l.2
    rcases hl : Line.read l.1 node l.2 s with ⟨e | line, u⟩
    all_goals
      have hu := (Line.read_ends hl).inOrder hs
      simp only [readLines, hl] at h
      simp only [mintsOfLines, hl] at hline ⊢
    case error =>
      cases h
      exact ⟨hline.append (.none _), hu⟩
    case ok =>
      obtain ⟨hrest, ht⟩ := ih h hu
      exact ⟨hline.append hrest, ht⟩

/-- **The ids that are minted while a node is read**, wherever its reading is given up. -/
theorem read_issued {content : List Char} {position : Position} {s t : Session}
    {result : Except NodeError Node} (h : read content position s = (result, t))
    (hs : s.cast.InOrder) :
    Issued s.minted (mints content position s) t.minted ∧ t.cast.InOrder := by
  simp only [read] at h
  unfold mints headerOf
  cases hfields : readFields ((located content position).takeWhile
    fun l => !isDelimiter fieldsEnd l) with
  | error fault =>
    simp only [hfields] at h ⊢
    cases h
    exact ⟨.none _, hs⟩
  | ok fields =>
    cases htitle : title? fields with
    | none =>
      simp only [hfields, htitle] at h ⊢
      cases h
      exact ⟨.none _, hs⟩
    | some id =>
      simp only [hfields, htitle] at h ⊢
      split at h
      all_goals
        next hlines =>
        cases h
        exact readLines_issued hlines hs

end Node

/-! ## Histories -/

namespace Session

/-- The ids that are minted during a call. -/
def mints (s : Session) : Call → List String
  | .line content node position => Line.mints content.toList node position s
  | .node content position => Node.mints content.toList position s
  | .mint stem => [(s.mint stem).1]
  | .speaker name => (s.cast.newcomers (s.speaker name).2.cast).map Speaker.id

/-- The ids that are minted during calls, one after the other. -/
def mintsAlong (s : Session) : List Call → List String
  | [] => []
  | call :: calls => s.mints call ++ (s.answer call).2.mintsAlong calls

/-- **The ids that are minted during a call**: the counter goes through their numbers. -/
theorem mints_issued {s : Session} (hs : s.cast.InOrder) (call : Call) :
    Issued s.minted (s.mints call) (s.answer call).2.minted ∧ (s.answer call).2.cast.InOrder := by
  cases call with
  | line content node position =>
    rw [answer, Prod.map_snd]
    have hread := Line.read_ends (Prod.eta (Line.read content.toList node position s)).symm
    exact ⟨Line.mints_issued hs content.toList node position, hread.inOrder hs⟩
  | node content position =>
    rw [answer, Prod.map_snd]
    exact Node.read_issued (Prod.eta (Node.read content.toList position s)).symm hs
  | mint stem => exact ⟨.one stem s.minted, hs⟩
  | speaker name => exact ⟨speaker_issued hs name, Steps.inOrder (.single (.speaker name)) hs⟩

/-- The ids that are minted during a history, with the cast that it leaves. -/
theorem mintsAlong_issued {s : Session} (hs : s.cast.InOrder) (calls : List Call) :
    Issued s.minted (s.mintsAlong calls) (s.after calls).minted ∧ (s.after calls).cast.InOrder := by
  induction calls generalizing s with
  | nil => exact ⟨.none _, hs⟩
  | cons call calls ih =>
    obtain ⟨hcall, hnext⟩ := mints_issued hs call
    obtain ⟨hcalls, hlast⟩ := ih hnext
    exact ⟨hcall.append hcalls, hlast⟩

/-- **Minted ids never repeat.**  In every history of a new session the ids that are minted are
different from each other, and the counter tells how many they are; and then a name that is in the
cast mints nothing, neither by itself nor on a line. -/
theorem mintsAlong_distinct (options : Options) (calls : List Call) :
    let s := (start options).after calls
    ((start options).mintsAlong calls).Nodup ∧
      s.minted = ((start options).mintsAlong calls).length ∧
      ∀ name, (s.cast.find? name).isSome = true →
        s.mints (.speaker name) = [] ∧ (s.answer (.speaker name)).2 = s ∧
        ∀ content node position, Line.speakerName? content.toList = some name →
          s.mints (.line content node position) =
            (Line.mintedId? content.toList
              (Line.read content.toList node position s).1).toList := by
  intro s
  obtain ⟨hissued, hordered⟩ := mintsAlong_issued (s := start options) Cast.inOrder_empty calls
  refine ⟨hissued.nodup, ?_, ?_⟩
  · rw [hissued.counter]
    exact Nat.zero_add _
  · intro name hname
    refine ⟨?_, ?_, ?_⟩
    · rw [mints, newcomers_known hordered hname, List.map_nil]
    · obtain ⟨speaker, hfind⟩ := Option.isSome_iff_exists.mp hname
      rw [answer, Prod.map_snd, speaker_known hfind]
      rfl
    · intro content node position hspeaker
      exact Line.mints_known hordered hname hspeaker node position

/-- Stems that end like an id, a known speaker, a line that is refused and keeps its speaker, and a
node that is refused for an id that it minted. -/
def mintingCalls : List Call :=
  [.mint "a", .mint "a_00000000", .speaker "Ann", .line "Ann: Hi" "N" ⟨0⟩, .speaker "Ann",
    .line "Bob: Oh [b]no" "N" ⟨0⟩, .line "Go #line:line_00000005" "N" ⟨0⟩,
    .node "title: M\n---\nHi\nHo" ⟨0⟩]

/-- These calls mint six ids, the last one for a line that is refused; and then Ann is known. -/
theorem mintsAlong_distinct_sample :
    let ids := (start {}).mintsAlong mintingCalls
    let s := (start {}).after mintingCalls
    ids = ["a_00000000", "a_00000000_00000001", "character_00000002", "line_00000003",
      "character_00000004", "line_00000005"] ∧
      ids.Nodup ∧ s.minted = 6 ∧ (s.cast.find? "Ann").isSome = true ∧
      s.mints (.speaker "Ann") = [] ∧
      s.mints (.line "Ann: Well" "N" ⟨0⟩) = ["line_00000006"] := by
  have hids : (start {}).mintsAlong mintingCalls =
      ["a_00000000", "a_00000000_00000001", "character_00000002", "line_00000003",
        "character_00000004", "line_00000005"] := by
    decide +kernel
  have hfind : (((start {}).after mintingCalls).cast.find? "Ann").isSome = true := by
    decide +kernel
  obtain ⟨hnodup, hcount, hknown⟩ := mintsAlong_distinct {} mintingCalls
  obtain ⟨hspeaker, -, hline⟩ := hknown "Ann" hfind
  rw [hids] at hcount
  exact ⟨hids, hnodup, hcount, hfind, hspeaker,
    (hline "Ann: Well" "N" ⟨0⟩ (by decide +kernel)).trans (by decide +kernel)⟩

end Session

end Parley
