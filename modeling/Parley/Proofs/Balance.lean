import Mathlib.Data.List.Induction
import Parley.Proofs.Spans

/-!
# When markup fits together

A closer needs an open span of its name before it, and no span may stay open at the end.  Both are
said of the items alone: `unclosed` gives the spans that items open and leave open, and a closer is
stray if its name is not among those of the items before it.  A reading stops at the first stray
closer; if there is none, it comes to the end of the text and fails there if spans are open.

Principal results: `Drafting.openNames_eq` — the spans that are open after a run are the unclosed
ones of its items; `Drafting.run_cases` — a run comes to the end or to the first stray closer;
`Dialog.read_cases` — so a text is read if its items are balanced, and otherwise the error says what
is wrong with them.
-/

namespace Parley

namespace Markup

/-- The names of the spans that items open and leave open, in the order in which they open them. -/
def unclosed : List Item → List String
  | [] => []
  | .opener name _ :: items =>
    if (closing? name 0 items).isNone then name :: unclosed items else unclosed items
  | _ :: items => unclosed items

/-- Item `k` closes a span of a name of which none is open. -/
def Stray (items : List Item) (k : Nat) (name : String) : Prop :=
  items[k]? = some (.closer name) ∧ name ∉ unclosed (items.take k)

/-- Every closer has a span to close, and every span is closed. -/
structure Balanced (items : List Item) : Prop where
  closers : ∀ k name, ¬ Stray items k name
  openers : unclosed items = []

/-- What is wrong with items that are not balanced: the first stray closer, or else the spans that
stay open. -/
inductive Unbalanced (items : List Item) : MarkupFault → Prop
  | closer {k : Nat} {name : String} (stray : Stray items k name)
      (first : ∀ j < k, ∀ other, ¬ Stray items j other) : Unbalanced items (.unmatchedCloser name)
  | opener (closers : ∀ k name, ¬ Stray items k name) (left : unclosed items ≠ []) :
      Unbalanced items (.unterminated (unclosed items))

theorem Unbalanced.not_balanced {items : List Item} {fault : MarkupFault}
    (h : Unbalanced items fault) : ¬ Balanced items := by
  rintro ⟨hclosers, hopeners⟩
  cases h with
  | closer stray => exact hclosers _ _ stray
  | opener _ left => exact left hopeners

theorem Unbalanced.unique {items : List Item} {fault fault' : MarkupFault}
    (h : Unbalanced items fault) (h' : Unbalanced items fault') : fault = fault' := by
  cases h with
  | @closer k name stray first =>
    cases h' with
    | @closer k' name' stray' first' =>
      have hk : k = k' := by
        rcases Nat.lt_trichotomy k k' with hlt | he | hgt
        · exact absurd stray (first' k hlt name)
        · exact he
        · exact absurd stray' (first k' hgt name')
      subst hk
      have := stray.1.symm.trans stray'.1
      cases this
      rfl
    | opener closers => exact absurd stray (closers _ _)
  | opener closers =>
    cases h' with
    | closer stray => exact absurd stray (closers _ _)
    | opener => rfl

theorem stray_concat {items : List Item} {item : Item} {k : Nat} {name : String} :
    Stray (items ++ [item]) k name ↔
      Stray items k name ∨ k = items.length ∧ item = .closer name ∧ name ∉ unclosed items := by
  unfold Stray
  rcases Nat.lt_trichotomy k items.length with hlt | rfl | hgt
  · rw [List.getElem?_append_left hlt, List.take_append_of_le_length (Nat.le_of_lt hlt)]
    simp [Nat.ne_of_lt hlt]
  · simp
  · have hnone : (items ++ [item])[k]? = none := by
      rw [List.getElem?_eq_none_iff, List.length_append, List.length_singleton]
      omega
    have hnone' : items[k]? = none := List.getElem?_eq_none_iff.mpr (by omega)
    simp [hnone, hnone', Nat.ne_of_gt hgt]

end Markup

open Markup

/-! ## Runs over items -/

theorem map_name_draftsOf (b : Body) (items : List Found) :
    ((draftsOf b items).filter Draft.isOpen).map Draft.name = unclosed (items.map Found.item) := by
  induction items generalizing b with
  | nil => rfl
  | cons f items ih =>
    have hrest := ih (b.write f.before)
    cases hf : f.item with
    | opener name parameters =>
      have hopen : (Ends.ofItems (b.write f.before) items name 0).isNone =
          (closing? name 0 (items.map Found.item)).isNone := by
        rw [Ends.ofItems, Option.isNone_map]
      simp only [draftsOf, hf, List.map_cons, unclosed, List.filter_cons, Draft.isOpen, hopen]
      split
      · rw [List.map_cons, ← hrest]
      · exact hrest
    | place name parameters =>
      simp only [draftsOf, hf, List.map_cons, unclosed]
      rw [List.filter_cons_of_neg (by simp [Draft.isOpen])]
      exact hrest
    | closer name =>
      simp only [draftsOf, hf, List.map_cons, unclosed]
      exact hrest
    | closeAll =>
      simp only [draftsOf, hf, List.map_cons, unclosed]
      exact hrest

namespace Drafting

/-- **What is open after a run** is what its items leave open. -/
theorem openNames_eq {items : List Found} {d : Drafting}
    (h : items.foldlM step .start = .ok d) : d.openNames = unclosed (items.map Found.item) := by
  obtain ⟨-, hdrafts⟩ := run_drafts h
  have hstart : Drafts.settle (Ends.ofItems start.body items) (fun _ => 0) start.drafts = [] := rfl
  rw [openNames, hdrafts, hstart, List.append_nil, List.filter_reverse, List.reverse_reverse]
  exact map_name_draftsOf _ items

/-- An item is read unless it is a closer and no span of its name is open. -/
theorem step_cases (d : Drafting) (f : Found) :
    ((∃ next, d.step f = .ok next) ∧ ∀ name, f.item = .closer name → name ∈ d.openNames) ∨
      ∃ name, f.item = .closer name ∧ name ∉ d.openNames ∧
        d.step f = .error (.unmatchedCloser name) := by
  cases hf : f.item with
  | opener name parameters => exact .inl ⟨by simp [step, hf], by simp⟩
  | place name parameters => exact .inl ⟨by simp [step, hf], by simp⟩
  | closeAll => exact .inl ⟨by simp [step, hf], by simp⟩
  | closer name =>
    have hmem : name ∈ d.openNames ↔ ∃ draft ∈ d.drafts, draft.isOpen = true ∧
        draft.name = name := by
      simp [openNames, and_assoc]
    cases hc : d.drafts.close? name (d.body.write f.before).size with
    | some drafts =>
      refine .inl ⟨by simp [step, hf, hc], ?_⟩
      rintro _ ⟨⟩
      by_contra hnone
      rw [Drafts.close?_eq_none_iff.mpr fun draft hd ho hn => hnone (hmem.mpr ⟨draft, hd, ho, hn⟩)]
        at hc
      cases hc
    | none =>
      refine .inr ⟨name, rfl, ?_, by simp only [step, hf, hc]⟩
      rw [hmem]
      rintro ⟨draft, hd, ho, hn⟩
      exact Drafts.close?_eq_none_iff.mp hc draft hd ho hn

/-- **A run comes to the end of its items, or to the first stray closer.** -/
theorem run_cases (items : List Found) :
    ((∃ d, items.foldlM step .start = .ok d) ∧ ∀ k name, ¬ Stray (items.map Found.item) k name) ∨
      ∃ k name, Stray (items.map Found.item) k name ∧
        (∀ j < k, ∀ other, ¬ Stray (items.map Found.item) j other) ∧
        items.foldlM step .start = .error (.unmatchedCloser name) := by
  induction items using List.reverseRecOn with
  | nil => exact .inl ⟨⟨.start, rfl⟩, by simp [Stray]⟩
  | append_singleton items f ih =>
    simp only [List.map_append, List.map_singleton, List.foldlM_append, stray_concat]
    rcases ih with ⟨⟨d, hrun⟩, hnone⟩ | ⟨k, name, hstray, hfirst, hrun⟩
    · have hopen := openNames_eq hrun
      rw [hrun]
      rcases d.step_cases f with ⟨⟨next, hstep⟩, hcloser⟩ | ⟨name, hf, hnew, hstep⟩
      · refine .inl ⟨⟨next, by simp [bind, Except.bind, hstep]; rfl⟩, ?_⟩
        rintro k name (hstray | ⟨-, hf, hnew⟩)
        · exact hnone k name hstray
        · exact hnew (hopen ▸ hcloser name hf)
      · refine .inr ⟨items.length, name, .inr ⟨by simp, hf, hopen ▸ hnew⟩, ?_,
          by simp [bind, Except.bind, hstep]⟩
        rintro j hj other (hstray | ⟨hlast, -⟩)
        · exact hnone j other hstray
        · rw [List.length_map] at hlast
          omega
    · -- The run has stopped before, and the item that is added cannot be the first stray one.
      have hk : k < items.length := by
        obtain ⟨hlt, -⟩ := List.getElem?_eq_some_iff.mp hstray.1
        rwa [List.length_map] at hlt
      refine .inr ⟨k, name, .inl hstray, ?_, by rw [hrun]; rfl⟩
      rintro j hj other (hearlier | ⟨hlast, -⟩)
      · exact hfirst j hj other hearlier
      · rw [List.length_map] at hlast
        omega

/-- A run over items comes to their end, or up to a closer without an open span of its name. -/
theorem run_or_stops (items : List Found) :
    (∃ d, items.foldlM step .start = .ok d) ∨
      ∃ k name d, (items.take k).foldlM step .start = .ok d ∧
        items[k]?.map Found.item = some (.closer name) ∧ name ∉ d.openNames ∧
          items.foldlM step .start = .error (.unmatchedCloser name) := by
  rcases run_cases items with ⟨hrun, -⟩ | ⟨k, name, ⟨hitem, hopen⟩, hfirst, hrun⟩
  · exact .inl hrun
  · rcases run_cases (items.take k) with ⟨⟨d, htake⟩, -⟩ | ⟨j, other, ⟨hitem', hopen'⟩, -, -⟩
    · refine .inr ⟨k, name, d, htake, by rw [← List.getElem?_map]; exact hitem, ?_, hrun⟩
      rwa [openNames_eq htake, List.map_take]
    · -- The items before the first stray closer have none.
      rw [List.map_take, List.getElem?_take] at hitem'
      rw [List.map_take, List.take_take] at hopen'
      split at hitem'
      · next hlt =>
        rw [Nat.min_eq_left (Nat.le_of_lt hlt)] at hopen'
        exact absurd ⟨hitem', hopen'⟩ (hfirst j hlt other)
      · cases hitem'

end Drafting

namespace Dialog

/-- The items in a text. -/
def items (content : List Char) : List Item := (scan content).1.map Found.item

/-- **A text is read if its markup is balanced**, and otherwise the error says what is wrong. -/
theorem read_cases (content : List Char) :
    (∃ dialog, read content = .ok dialog ∧ Balanced (items content)) ∨
      ∃ fault, read content = .error ⟨String.ofList content, fault⟩ ∧
        Unbalanced (items content) fault := by
  unfold items
  rcases Drafting.run_cases (scan content).1 with
    ⟨⟨d, hrun⟩, hnone⟩ | ⟨k, name, hstray, hfirst, hrun⟩
  · have hopen := Drafting.openNames_eq hrun
    by_cases hleft : unclosed ((scan content).1.map Found.item) = []
    · have hread : ∃ dialog, read content = .ok dialog := by simp [read, hrun, hopen, hleft]
      obtain ⟨dialog, hdialog⟩ := hread
      exact .inl ⟨dialog, hdialog, hnone, hleft⟩
    · refine .inr ⟨_, ?_, .opener hnone hleft⟩
      have hne : (unclosed ((scan content).1.map Found.item)).isEmpty = false := by
        simpa using hleft
      simp only [read, hrun, hopen, hne, Bool.false_eq_true, if_false]
  · exact .inr ⟨_, by simp only [read, hrun], .closer hstray hfirst⟩

theorem exists_read_iff {content : List Char} :
    (∃ dialog, read content = .ok dialog) ↔ Balanced (items content) := by
  rcases read_cases content with ⟨dialog, hread, hbalanced⟩ | ⟨fault, hread, hunbalanced⟩
  · exact iff_of_true ⟨dialog, hread⟩ hbalanced
  · exact iff_of_false (by simp [hread]) hunbalanced.not_balanced

theorem read_error_iff {content : List Char} {fault : MarkupFault} :
    read content = .error ⟨String.ofList content, fault⟩ ↔ Unbalanced (items content) fault := by
  rcases read_cases content with ⟨dialog, hread, hbalanced⟩ | ⟨other, hread, hunbalanced⟩
  · exact iff_of_false (by simp [hread]) fun h => h.not_balanced hbalanced
  · rw [hread]
    constructor
    · rintro ⟨⟩
      exact hunbalanced
    · intro h
      rw [h.unique hunbalanced]

end Dialog

end Parley
