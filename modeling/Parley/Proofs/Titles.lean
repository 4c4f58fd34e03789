import Parley.Proofs.Targets
import Parley.Proofs.Whole

/-!
# When two titles are one

The title of a node and the parameter of a jump are read as values, and what these are displayed as
is compared.  Text and truth values are displayed as they were written, so titles are told apart by
their texts, but a run of digits loses its zeros in front and whatever a double does not hold.  No
two doubles are written alike, and a whole one is written with digits only unless it is infinite:
so two titles give one id exactly if they are one text, two runs of digits that are read as one
double, or `inf` and a run beyond all doubles (`Document.OneTitle`).

* `Document.idOf_eq_iff` — two titles give one id exactly if they are one title.
* `Command.WordJump.read` — a jump written with a word has the word as its only parameter.
* `Script.parseWith_titles` — so nodes are told apart, refused as twins and led to by jumps.
* `Script.twins_refused` — a document with the titles `1` and `01` is refused.
-/

namespace Parley

namespace Value

/-- A token that is read as a number. -/
def IsRun (token : List Char) : Prop :=
  token ≠ [] ∧ ∀ c ∈ token, Number.isDigit c = true

theorem isRun_iff {token : List Char} :
    IsRun token ↔ (!token.isEmpty && token.all Number.isDigit) = true := by
  simp [IsRun]

instance (token : List Char) : Decidable (IsRun token) := decidable_of_iff' _ isRun_iff

theorem display_read_of_run {token : List Char} (h : IsRun token) :
    (read token).display = Number.written (Number.ofDigits token) := by
  rw [read, if_pos (isRun_iff.mp h), display]

theorem display_read_of_not_run {token : List Char} (h : ¬ IsRun token) :
    (read token).display = String.ofList token := by
  rw [read, if_neg (isRun_iff.not.mp h)]
  split
  · next htrue => rw [htrue]; rfl
  · split
    · next hfalse => rw [hfalse]; rfl
    · rfl

end Value

open Value (IsRun)

namespace Document

/-- Two texts are one title. -/
inductive OneTitle (title : List Char) : List Char → Prop
  | same : OneTitle title title
  /-- Two numbers that are one double. -/
  | number {other : List Char} (run : IsRun title) (run' : IsRun other)
      (double : Number.ofDigits title = Number.ofDigits other) : OneTitle title other
  /-- A number beyond all doubles, and the text that it is displayed as. -/
  | beyond (run : IsRun title) (infinite : Number.ofDigits title = Number.infinity) :
      OneTitle title "inf".toList
  /-- The same the other way round. -/
  | named {other : List Char} (name : title = "inf".toList) (run : IsRun other)
      (infinite : Number.ofDigits other = Number.infinity) : OneTitle title other

theorem OneTitle.symm {title other : List Char} (h : OneTitle title other) :
    OneTitle other title := by
  cases h with
  | same => exact .same
  | number run run' double => exact .number run' run double.symm
  | beyond run infinite => exact .named rfl run infinite
  | named name run infinite => exact name ▸ .beyond run infinite

/-- Zeros in front of a number make no other title. -/
theorem OneTitle.zeros {title : List Char} (run : IsRun title) (n : Nat) :
    OneTitle (List.replicate n '0' ++ title) title := by
  refine .number ⟨List.append_ne_nil_of_right_ne_nil _ run.1, ?_⟩ run ?_
  · intro c hc
    obtain hc | hc := List.mem_append.mp hc
    · rw [List.eq_of_mem_replicate hc]
      rfl
    · exact run.2 c hc
  · have hzeros : ∀ c ∈ List.replicate n '0', (c == '0') = true :=
      fun c hc => beq_iff_eq.mpr (List.eq_of_mem_replicate hc)
    rw [Number.ofDigits, Number.ofDigits, Number.nearestDouble, Number.nearestDouble,
      List.dropWhile_append_of_pos hzeros]

theorem not_run_inf : ¬ IsRun "inf".toList := by decide

/-- Only `inf` is both a text and the way in which a run of digits is written. -/
theorem written_eq_text {title other : List Char} (run : IsRun title) (text : ¬ IsRun other) :
    Number.written (Number.ofDigits title) = String.ofList other ↔ OneTitle title other := by
  constructor
  · intro h
    obtain ⟨hinfinite, hinf⟩ | hdigits := Number.written_ofDigits title
    · rw [h, ← String.toList_inj, String.toList_ofList] at hinf
      rw [hinf]
      exact .beyond run hinfinite
    · have hne : other ≠ [] := by
        rintro rfl
        exact Number.written_ne_empty _ h
      rw [h, String.toList_ofList] at hdigits
      exact absurd ⟨hne, hdigits⟩ text
  · intro h
    cases h with
    | same => exact absurd run text
    | number _ run' _ => exact absurd run' text
    | beyond _ infinite => rw [infinite]; rfl
    | named _ run' _ => exact absurd run' text

/-- **Two titles give one id exactly if they are one title.** -/
theorem idOf_eq_iff {title other : List Char} : idOf title = idOf other ↔ OneTitle title other := by
  unfold idOf
  by_cases run : IsRun title
  · rw [Value.display_read_of_run run]
    by_cases run' : IsRun other
    · rw [Value.display_read_of_run run', Number.written_injective.eq_iff]
      constructor
      · exact .number run run'
      · intro h
        cases h with
        | same => rfl
        | number _ _ double => exact double
        | beyond _ _ => exact absurd run' not_run_inf
        | named name _ _ => exact absurd (name ▸ run) not_run_inf
    · rw [Value.display_read_of_not_run run', written_eq_text run run']
  · rw [Value.display_read_of_not_run run]
    by_cases run' : IsRun other
    · rw [Value.display_read_of_run run', eq_comm, written_eq_text run' run]
      exact ⟨.symm, .symm⟩
    · rw [Value.display_read_of_not_run run', String.ofList_inj]
      constructor
      · rintro rfl
        exact .same
      · intro h
        cases h with
        | same => rfl
        | number run'' _ _ => exact absurd run'' run
        | beyond run'' _ => exact absurd run'' run
        | named _ run'' _ => exact absurd run'' run'

end Document

/-! ## Jumps without quote marks -/

namespace Command

/-- A jump with a word as its only parameter, and blanks wherever they may stand. -/
inductive WordJump (word : List Char) : List Char → Prop
  | intro {lead gap trail : List Char} (lead_blank : Text.allBlank lead = true)
      (gap_blank : Text.allBlank gap = true) (gap_ne : gap ≠ [])
      (trail_blank : Text.allBlank trail = true) (ne : word ≠ [])
      (plain : ∀ c ∈ word, Text.isBlank c = false ∧ isQuote c = false) :
      WordJump word (enclose (lead ++ ("jump".toList ++ (gap ++ (word ++ trail)))))

theorem WordJump.read {word content : List Char} (h : WordJump word content) :
    Command.read content = .ok (⟨"jump", [Value.read word], String.ofList content⟩, none) := by
  obtain @⟨lead, gap, trail, hlead, hgap, hne, htrail, hword, hplain⟩ := h
  obtain ⟨c, gap, rfl⟩ := List.exists_cons_of_ne_nil hne
  have hblank : Text.isBlank c = true := (Bool.and_eq_true_iff.mp hgap).1
  have hname : ∀ d ∈ "jump".toList, (!Text.isBlank d) = true := List.all_eq_true.mp (by decide)
  have htrim : Text.trimStart (lead ++ ("jump".toList ++ (c :: gap ++ (word ++ trail)))) =
      "jump".toList ++ c :: (gap ++ (word ++ trail)) := by
    rw [Text.trimStart_append_of_blank _ hlead]
    rfl
  have hfirst : Text.firstWord (lead ++ ("jump".toList ++ (c :: gap ++ (word ++ trail)))) =
      "jump".toList := by
    rw [Text.firstWord, htrim, List.takeWhile_append_of_pos hname,
      List.takeWhile_cons_of_neg (by simp [hblank]), List.append_nil]
  have hafter : Text.afterFirstWord (lead ++ ("jump".toList ++ (c :: gap ++ (word ++ trail)))) =
      c :: gap ++ (word ++ trail) := by
    rw [Text.afterFirstWord, htrim, List.dropWhile_append_of_pos hname,
      List.dropWhile_cons_of_neg (by simp [hblank])]
    rfl
  rw [read_enclose, hfirst, hafter, splitParameters_word hgap htrail hword hplain]
  rfl

end Command

open Document

namespace Script

/-- In a document that is accepted no two titles are one. -/
theorem pairwise_titles {runs : List (List Numbered)} (h : Passes Fine runs) :
    runs.Pairwise fun earlier run => ∀ title ∈ title? earlier, ∀ other ∈ title? run,
      ¬ OneTitle title other := by
  induction runs using List.reverseRecOn with
  | nil => exact .nil
  | append_singleton runs run ih =>
    obtain ⟨hruns, hrun⟩ := passes_concat.mp h
    refine List.pairwise_append.mpr ⟨ih hruns, List.pairwise_singleton _ _, ?_⟩
    intro earlier hearlier last hlast title htitle other hother hone
    obtain rfl := List.mem_singleton.mp hlast
    apply hrun.fresh earlier hearlier
    rw [nodeId?, nodeId?, Option.mem_def.mp htitle, Option.mem_def.mp hother, Option.map_some,
      Option.map_some, idOf_eq_iff.mpr hone]

/-- A node that was read from a run with a title. -/
structure Names (run : List Numbered) (title : List Char) (node : Node) : Prop where
  given : title? run = some title
  read : ∃ s t, readRun run s = (.ok node, t)

theorem Names.id {content : String} {run : List Numbered} {title : List Char} {node : Node}
    (h : Names run title node) (hrun : run ∈ nodeRuns content) : node.id = idOf title := by
  obtain ⟨s, t, hread⟩ := h.read
  obtain ⟨hmem, hvisible⟩ := isNodeRun_of_mem hrun
  exact Node.id_of_title? hread (holds_of_read hmem hvisible hread) h.given

/-- **Titles tell nodes apart as far as they are not one**: nodes read from two runs of a document
have one id exactly if their titles are one; a document is refused for two titles only if they are
one, and is not read if there are two such; and in a script a jump with a word as its only parameter
leads to a node exactly if the word and the title of the node are one title. -/
theorem parseWith_titles (content : String) (options : Options) :
    (∀ run ∈ nodeRuns content, ∀ other ∈ nodeRuns content, ∀ title title' node node',
        Names run title node → Names other title' node' →
          (node.id = node'.id ↔ OneTitle title title')) ∧
      (∀ id position earlier,
        parseWith content options = .error (.duplicateNode id position earlier) →
          ∃ before run other title title', before ++ [run] <+: nodeRuns content ∧
            other ∈ before ∧ title? run = some title ∧ title? other = some title' ∧
            id = idOf title ∧ OneTitle title title') ∧
      ∀ script, parseWith content options = .ok script →
        ((nodeRuns content).Pairwise fun earlier run => ∀ title ∈ title? earlier,
          ∀ other ∈ title? run, ¬ OneTitle title other) ∧
        ∀ node ∈ script.nodes, ∀ line ∈ node.lines, ∀ command,
          Segment.command command ∈ line.segments → ∀ word,
            Command.WordJump word command.source.toList → ∀ target ∈ script.nodes, ∀ run title,
              target.Holds run → title? run = some title →
                (command.jumpTarget?.bind script.node? = some target ↔ OneTitle word title) := by
  refine ⟨?_, ?_, ?_⟩
  · intro run hrun other hother title title' node node' hnode hnode'
    rw [hnode.id hrun, hnode'.id hother, idOf_eq_iff]
  · intro id position earlier herror
    cases refused_of_parseWith herror with
    | run fits first fails =>
      cases fails with
      | @title title other headed lines nonempty mem same =>
        rw [nodeId?, nodeId?, headed.given, Option.map_some] at same
        obtain ⟨title', htitle', hid⟩ := Option.map_eq_some_iff.mp same
        exact ⟨_, _, other, title, title', first.place, mem, headed.given, htitle', rfl,
          (idOf_eq_iff.mp hid).symm⟩
  · intro script h
    refine ⟨pairwise_titles (accepted_of_parseWith h).fine, ?_⟩
    intro node hn line hl command hcommand word hword target htarget run title hholds htitle
    obtain ⟨_, _, _, _, hread⟩ := exists_read h hn
    obtain ⟨openQuote, hback⟩ := Node.read_readBack hread hl _ hcommand command rfl
    have hjump : command.jumpTarget? = some (idOf word) := by
      rw [hword.read] at hback
      rw [← (Prod.mk.inj (Except.ok.inj hback)).1]
      rfl
    obtain ⟨_, _, _, _, htargetRead⟩ := exists_read h htarget
    rw [hjump, Option.bind_some, node?_eq_some_iff h,
      Node.id_of_title? htargetRead hholds htitle, ← idOf_eq_iff, eq_comm]
    exact and_iff_right htarget

/-- A jump to a title that is written with other zeros in front. -/
def zeros : String := "title: 007\n---\nGo <<jump  07 >>"

theorem parseWith_titles_zeros :
    ∃ (script : Script) (node : Node) (command : Command), parseWith zeros {} = .ok script ∧
      node ∈ script.nodes ∧ Command.WordJump "07".toList command.source.toList ∧
      command.jumpTarget?.bind script.node? = some node := by
  have hcheck : (parseWith zeros {}).toOption.any (fun script =>
      script.nodes.toList.any fun node => node.lines.toList.any fun line =>
        line.segments.any fun segment => segment.command?.any fun command =>
          command.source == "<<jump  07 >>") = true := by
    decide +kernel
  obtain ⟨script, node, line, command, h, hnode, hline, hsegment, hsource⟩ := exists_command hcheck
  have hruns : nodeRuns zeros = [[("title: 007".toList, 0), ("---".toList, 1),
      ("Go <<jump  07 >>".toList, 2)]] := by
    decide +kernel
  obtain ⟨target, htarget, hholds⟩ := exists_first h hruns
  have hjump : Command.WordJump "07".toList command.source.toList := by
    rw [hsource]
    exact @Command.WordJump.intro _ [] "  ".toList " ".toList (by decide) (by decide) (by decide)
      (by decide) (by decide) (List.forall_mem_cons.mpr ⟨by decide, by simp; decide⟩)
  have hone : OneTitle "07".toList "007".toList := (OneTitle.zeros (by decide) 1).symm
  refine ⟨script, target, command, h, htarget, hjump, ?_⟩
  exact (((parseWith_titles zeros {}).2.2 script h).2 node hnode line hline command hsegment _ hjump
    target htarget _ "007".toList hholds (by decide +kernel)).mpr hone

/-- Two titles that differ in their zeros. -/
def twins : String := "title: 1\n---\nOne #line:a\n===\ntitle: 01\n---\nTwo #line:b\n"

/-- **Titles that differ can be one**: the second node is refused. -/
theorem twins_refused :
    (nodeRuns twins).map title? = [some "1".toList, some "01".toList] ∧
      parseWith twins {} = .error (.duplicateNode "1" ⟨4⟩ ⟨0⟩) := by
  have hcheck : (match parseWith twins {} with
      | .error e => decide (e = .duplicateNode "1" ⟨4⟩ ⟨0⟩)
      | .ok _ => false) = true := by decide +kernel
  refine ⟨by decide +kernel, ?_⟩
  split at hcheck
  · next e he => rw [he, of_decide_eq_true hcheck]
  · cases hcheck

end Script

end Parley
