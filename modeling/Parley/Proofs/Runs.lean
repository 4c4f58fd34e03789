import Parley.Script.Reading

/-!
# Runs of the readers

A successful reading, taken apart into what it did: a line that was read and registered, the lines
of a node read one after the other, a node, the nodes of a document.  The loops over lines and over
blocks become relations between the session before and the session after, so that what one reading
preserves is carried through a document by induction.

* `Session.Keeps` — what reading pieces and noticing idle tags leaves alone.
* `Line.read_ok` — a line that can be read has the fields that its layout gives it, and its id was
  free in the session and is registered afterwards.
* `Node.readLines_ok_iff` — the loop over the lines of a node succeeds exactly along `LinesRead`.
* `Node.read_ok` — a node that can be read consists of its fields, its title and its linked lines.
* `Line.read_eq`, `Node.read_eq` and `Script.parseWith_eq` — conversely, what does all that is read.
* `Script.readNodes_ok` and `Script.parseWith_ok` — a document that can be read went through
  `NodesRead`, block by block.
-/

namespace Parley

/-- What a check finds in a result. -/
theorem exists_of_any {α ε σ : Type} {outcome : Except ε α × σ} {check : α → Bool}
    (h : outcome.1.toOption.any check = true) :
    ∃ a t, outcome = (.ok a, t) ∧ check a = true := by
  obtain ⟨result, t⟩ := outcome
  cases result with
  | error e => cases h
  | ok a => exact ⟨a, t, rfl, h⟩

/-! ## Reporting -/

namespace Session

/-- What stays while a session only takes notice of things and makes reports. -/
structure Keeps (s t : Session) : Prop where
  cast : t.cast = s.cast
  owners : t.owners = s.owners
  minted : t.minted = s.minted

namespace Keeps

variable {s t u : Session}

theorem refl (s : Session) : s.Keeps s := ⟨rfl, rfl, rfl⟩

theorem trans (h : s.Keeps t) (h' : t.Keeps u) : s.Keeps u :=
  ⟨h'.cast.trans h.cast, h'.owners.trans h.owners, h'.minted.trans h.minted⟩

theorem notice (s : Session) (n : Notice) : s.Keeps (s.notice n) := ⟨rfl, rfl, rfl⟩

theorem warn (s : Session) (r : Report) : s.Keeps (s.warn r) := ⟨rfl, rfl, rfl⟩

theorem owner? (h : s.Keeps t) (id : String) : t.owner? id = s.owner? id := by
  rw [Session.owner?, h.owners]
  rfl

end Keeps

end Session

/-! ## Lines -/

namespace Line

/-- The line that a text gives, once its id, tags, speaker and segments are known. -/
def ofLayout (layout : Layout) (content : List Char) (node : String) (position : Position)
    (id : String) (speaker : Option Speaker) (segments : List Segment) (tags : List Tag) : Line :=
  ⟨id, node, layout.indent, layout.isOption, speaker, segments, tags, none, none,
    String.ofList content, position⟩

/-- The session after the notices on line tags that name nothing. -/
def noticeIdle (s : Session) (position : Position) (tags : List Tag) : Session :=
  (Tag.idle tags).foldl (fun s _ => s.notice (.lineTagIgnored position)) s

theorem readParts_keeps {position : Position} {done : List Segment} {s t : Session}
    {parts : List Part} {result : Except LineFault (List Segment)}
    (h : readParts position done s parts = (result, t)) : s.Keeps t := by
  induction parts generalizing done s with
  | nil =>
    cases h
    exact .refl _
  | cons part parts ih =>
    unfold readParts at h
    split at h
    · cases h
      exact .refl _
    · exact ih h
    · exact (Session.Keeps.warn s _).trans (ih h)

theorem noticeIdle_keeps (s : Session) (position : Position) (tags : List Tag) :
    s.Keeps (noticeIdle s position tags) := by
  unfold noticeIdle
  induction Tag.idle tags generalizing s with
  | nil => exact .refl s
  | cons tag tags ih => exact (Session.Keeps.notice s _).trans (ih _)

/-- **What a successful reading of a line did**, step by step. -/
theorem read_ok {content : List Char} {node : String} {position : Position} {s t : Session}
    {line : Line} (h : read content node position s = (.ok line, t)) :
    ∃ segments id tags u v w, let layout := Layout.read s.options.tabWidth content
      readParts position [] (speaker? s layout.speaker).2 (Segment.whole layout.parts) =
        (.ok segments, u) ∧
      identify (noticeIdle u position layout.tags) layout.tags = (id, tags, v) ∧
      v.register? id node = some w ∧
      line = ofLayout layout content node position id (speaker? s layout.speaker).1 segments tags ∧
      t = w.notice (.lineRead position id node) := by
  simp only [read] at h
  split at h
  · cases h
  · next segments u hp =>
    split at h
    · cases h
    · next w hr =>
      cases h
      exact ⟨segments, _, _, u, _, w, hp, rfl, hr, rfl, rfl⟩

/-- A line is read if its pieces are, and its id is free. -/
theorem read_eq {content : List Char} {node : String} {position : Position} {s u v w : Session}
    {segments : List Segment} {id : String} {tags : List Tag}
    (hp : readParts position [] (speaker? s (Layout.read s.options.tabWidth content).speaker).2
      (Segment.whole (Layout.read s.options.tabWidth content).parts) = (.ok segments, u))
    (hi : identify (noticeIdle u position (Layout.read s.options.tabWidth content).tags)
      (Layout.read s.options.tabWidth content).tags = (id, tags, v))
    (hr : v.register? id node = some w) :
    read content node position s =
      (.ok (ofLayout (Layout.read s.options.tabWidth content) content node position id
        (speaker? s (Layout.read s.options.tabWidth content).speaker).1 segments tags),
        w.notice (.lineRead position id node)) := by
  unfold noticeIdle at hi
  simp only [read, hp, hi, hr]
  rfl

end Line

/-! ## Lines of a node -/

namespace Node

/-- Lines read one after the other, from one session to another. -/
inductive LinesRead (node : String) : Session → List Located → List Line → Session → Prop
  | nil (s : Session) : LinesRead node s [] [] s
  | cons {s t u : Session} {l : Located} {line : Line} {ls : List Located} {lines : List Line}
      (head : Line.read l.1 node l.2 s = (.ok line, t)) (tail : LinesRead node t ls lines u) :
      LinesRead node s (l :: ls) (line :: lines) u

theorem readLines_ok_iff {node : String} {done result : List Line} {s t : Session}
    {ls : List Located} :
    readLines node done s ls = (.ok result, t) ↔
      ∃ lines, result = done.reverse ++ lines ∧ LinesRead node s ls lines t := by
  induction ls generalizing done s with
  | nil =>
    simp only [readLines, Prod.mk.injEq, Except.ok.injEq]
    constructor
    · rintro ⟨rfl, rfl⟩
      exact ⟨[], by simp, .nil s⟩
    · rintro ⟨lines, rfl, hr⟩
      cases hr
      simp
  | cons l ls ih =>
    simp only [readLines]
    constructor
    · intro h
      split at h
      · cases h
      · next line u hl =>
        obtain ⟨lines, rfl, hr⟩ := ih.mp h
        exact ⟨line :: lines, by simp, .cons hl hr⟩
    · rintro ⟨lines, rfl, hr⟩
      cases hr with
      | cons hl hr =>
        simp only [hl]
        exact ih.mpr ⟨_, by simp, hr⟩

/-- The lines of a text above its first `---` line. -/
def headerOf (ls : List Located) : List Located := ls.takeWhile fun l => !isDelimiter fieldsEnd l

/-- The lines of a text below its first `---` line that belong to the node. -/
def bodyOf (ls : List Located) : List Located :=
  ((ls.dropWhile fun l => !isDelimiter fieldsEnd l).drop 1).filter isContent

/-- **What a successful reading of a node did.** -/
theorem read_ok {content : List Char} {position : Position} {s t : Session} {node : Node}
    (h : read content position s = (.ok node, t)) :
    ∃ fields id lines, let ls := located content position
      readFields (headerOf ls) = .ok fields ∧ title? fields = some id ∧
      LinesRead id (s.notice (.nodeBegun position id)) (bodyOf ls) lines t ∧ lines ≠ [] ∧
      node = ⟨id, fields, Outline.ofLines lines, indexOf (Outline.ofLines lines).toList,
        String.ofList content, position⟩ := by
  simp only [read] at h
  split at h
  · cases h
  · next fields hf =>
    split at h
    · cases h
    · next id ht =>
      split at h
      · cases h
      · cases h
      · next line lines u hl =>
        cases h
        obtain ⟨read, he, hr⟩ := readLines_ok_iff.mp hl
        simp only [List.reverse_nil, List.nil_append] at he
        subst he
        exact ⟨fields, id, line :: lines, hf, ht, hr, by simp, rfl⟩

/-- A node is read if its fields are, they give a title, and its lines are read. -/
theorem read_eq {content : List Char} {position : Position} {s t : Session}
    {fields : List (String × Value)} {id : String} {lines : List Line}
    (hf : readFields (headerOf (located content position)) = .ok fields)
    (ht : title? fields = some id)
    (hr : LinesRead id (s.notice (.nodeBegun position id)) (bodyOf (located content position))
      lines t) (hne : lines ≠ []) :
    read content position s =
      (.ok ⟨id, fields, Outline.ofLines lines, indexOf (Outline.ofLines lines).toList,
        String.ofList content, position⟩, t) := by
  obtain ⟨line, others, rfl⟩ := List.exists_cons_of_ne_nil hne
  have hl : readLines id [] (s.notice (.nodeBegun position id))
      (bodyOf (located content position)) = (.ok (line :: others), t) :=
    readLines_ok_iff.mpr ⟨line :: others, rfl, hr⟩
  unfold headerOf at hf
  unfold bodyOf at hl
  simp only [read, hf, ht, hl]

/-- What a check finds in the node that is read. -/
theorem exists_read {content : List Char} {position : Position} {s : Session}
    {check : Node → Bool} (h : (read content position s).1.toOption.any check = true) :
    ∃ node t, read content position s = (.ok node, t) ∧ check node = true :=
  exists_of_any h

end Node

/-! ## Nodes of a document -/

namespace Script

/-- Blocks read as nodes one after the other, from one session to another. -/
inductive NodesRead : Session → List Block → List Node → Session → Prop
  | nil (s : Session) : NodesRead s [] [] s
  | cons {s t u : Session} {block : Block} {node : Node} {blocks : List Block} {nodes : List Node}
      (head : Node.read block.text block.position s = (.ok node, t))
      (tail : NodesRead t blocks nodes u) :
      NodesRead s (block :: blocks) (node :: nodes) u

theorem readNodes_ok {done result : List Node} {starts : Table Position} {s t : Session}
    {blocks : List Block} (h : readNodes done starts s blocks = (.ok result, t)) :
    ∃ nodes, result = done.reverse ++ nodes ∧ NodesRead s blocks nodes t := by
  induction blocks generalizing done starts s with
  | nil =>
    simp only [readNodes, Prod.mk.injEq, Except.ok.injEq] at h
    obtain ⟨rfl, rfl⟩ := h
    exact ⟨[], by simp, .nil s⟩
  | cons block blocks ih =>
    unfold readNodes at h
    split at h
    · cases h
    · next node u hn =>
      split at h
      · cases h
      · obtain ⟨nodes, rfl, hr⟩ := ih h
        exact ⟨node :: nodes, by simp, .cons hn hr⟩

/-- The blocks of a document, which has no carriage returns. -/
def blocksOf (content : String) : List Block :=
  Block.ofDocument (content.toList.filter (· != '\r'))

/-- **What a successful reading of a document did.** -/
theorem parseWith_ok {content : String} {options : Options} {script : Script}
    (h : parseWith content options = .ok script) :
    ∃ nodes s, readNodes [] ∅ (.start options) (blocksOf content) = (.ok nodes, s) ∧ nodes ≠ [] ∧
      let t := checkJumps nodes (s.notice (.scriptRead nodes.length s.lineCount))
      script = ofNodes nodes t.cast t.log content := by
  simp only [parseWith, read] at h
  split at h
  · cases h
  · split at h
    · cases h
    · cases h
    · next node nodes s hr =>
      cases h
      exact ⟨node :: nodes, s, hr, by simp, rfl⟩

/-- A document is read if it is not too large and its blocks are read. -/
theorem parseWith_eq {content : String} {options : Options} {nodes : List Node} {s : Session}
    (hsize : sizeError? content.utf8ByteSize options.maxSize = none)
    (hr : readNodes [] ∅ (.start options) (blocksOf content) = (.ok nodes, s)) (hne : nodes ≠ []) :
    parseWith content options =
      let t := checkJumps nodes (s.notice (.scriptRead nodes.length s.lineCount))
      .ok (ofNodes nodes t.cast t.log content) := by
  obtain ⟨node, others, rfl⟩ := List.exists_cons_of_ne_nil hne
  unfold blocksOf at hr
  simp only [parseWith, read, hsize, hr]

theorem sizeError?_eq_none {content : String} {options : Options} {script : Script}
    (h : parseWith content options = .ok script) :
    sizeError? content.utf8ByteSize options.maxSize = none := by
  cases hsize : sizeError? content.utf8ByteSize options.maxSize with
  | none => rfl
  | some e => simp [parseWith, read, hsize] at h

/-- What a check finds in the script that is read. -/
theorem exists_parseWith {content : String} {options : Options} {check : Script → Bool}
    (h : (parseWith content options).toOption.any check = true) :
    ∃ script, parseWith content options = .ok script ∧ check script = true := by
  cases hr : parseWith content options with
  | error e =>
    rw [hr] at h
    cases h
  | ok script =>
    rw [hr] at h
    exact ⟨script, rfl, h⟩

end Script

end Parley
