import Mathlib.Data.List.Forall2
import Parley.Proofs.Collapse

/-!
# Spans lie exactly over the text they enclosed

Spans are closed out of order, and their positions are counted while the text is still being
written.  Here both are said without drafts: where an item stands in the finished text is the length
of what comes before it, with all items cut out and blanks collapsed (`Markup.column`), and which
item ends a span depends on the items of its name alone (`Markup.closing?`).

Principal results: `Drafting.run_drafts` — what a run makes of the spans that are open before it and
of those that it opens; `Drafting.run_ordered` — no span ends before it starts;
`Dialog.read_spans` — the text and the spans of a dialogue.
-/

namespace Parley

namespace Markup

/-- The text before and between items, without the items. -/
def literal (items : List Found) : List Char := items.flatMap Found.before

/-- The number of characters that stand before an item in the text without items. -/
def column (items : List Found) (i : Nat) : Nat :=
  (Text.collapse (literal (items.take (i + 1)))).length

/-- How many items there are before the one that ends a span of a name: the first closer of that
name that is not needed for one of the `inner` spans opened since, or what closes all spans. -/
def closing? (name : String) (inner : Nat) : List Item → Option Nat
  | [] => none
  | .opener other _ :: items =>
    (closing? name (if name = other then inner + 1 else inner) items).map (· + 1)
  | .place _ _ :: items => (closing? name inner items).map (· + 1)
  | .closer other :: items =>
    if name = other then
      match inner with
      | 0 => some 0
      | inner + 1 => (closing? name inner items).map (· + 1)
    else (closing? name inner items).map (· + 1)
  | .closeAll :: _ => some 0

/-- What ends a span is a closer of its name, or closes all spans. -/
theorem getElem?_of_closing? {name : String} {inner m : Nat} {items : List Item}
    (h : closing? name inner items = some m) :
    items[m]? = some (.closer name) ∨ items[m]? = some .closeAll := by
  induction items generalizing inner m with
  | nil => cases h
  | cons item items ih =>
    have hlater : ∀ inner, (closing? name inner items).map (· + 1) = some m →
        (item :: items)[m]? = some (.closer name) ∨ (item :: items)[m]? = some .closeAll := by
      intro inner hm
      obtain ⟨k, hk, rfl⟩ := Option.map_eq_some_iff.mp hm
      exact ih hk
    cases item with
    | opener other parameters => exact hlater _ h
    | place other parameters => exact hlater _ h
    | closer other =>
      unfold closing? at h
      split at h
      · next hname =>
        subst hname
        cases inner with
        | zero =>
          cases h
          exact .inl rfl
        | succ inner => exact hlater inner h
      · exact hlater inner h
    | closeAll =>
      cases h
      exact .inr rfl

/-- Item `k` ends the span of a name that item `i` opens. -/
def Closes (items : List Found) (name : String) (i k : Nat) : Prop :=
  ∃ m, closing? name 0 ((items.drop (i + 1)).map Found.item) = some m ∧ k = i + 1 + m

theorem Closes.item {items : List Found} {name : String} {i k : Nat} (h : Closes items name i k) :
    i < k ∧ (items[k]?.map Found.item = some (.closer name) ∨
      items[k]?.map Found.item = some .closeAll) := by
  obtain ⟨m, hm, rfl⟩ := h
  refine ⟨by omega, ?_⟩
  have hitem := getElem?_of_closing? hm
  rw [List.getElem?_map, List.getElem?_drop] at hitem
  exact hitem

/-- Whether an item begins a span. -/
def Item.begins : Item → Bool
  | .opener _ _ => true
  | .place _ _ => true
  | _ => false

/-- The places of the items that begin spans. -/
def marks (items : List Found) : List Nat :=
  (items.zipIdx.filter fun f => f.1.item.begins).map Prod.snd

/-- A span lies exactly over the text that item `i` encloses with the item that ends it. -/
inductive Covers (items : List Found) (i : Nat) (span : Span) : Prop
  | opener {k : Nat} (item : items[i]?.map Found.item = some (.opener span.name span.parameters))
      (start : span.start = column items i) (closed : Closes items span.name i k)
      (stop : span.start + span.length = column items k)
  | place (item : items[i]?.map Found.item = some (.place span.name span.parameters))
      (start : span.start = column items i) (length : span.length = 0)

end Markup

open Markup

/-! ## Ends that are still to come -/

/-- The end of a span by its name and the number of open spans of that name that were opened after
it. -/
abbrev Ends := String → Nat → Option Nat

/-- One more open span of a name. -/
def bump (inner : String → Nat) (name : String) : String → Nat :=
  fun other => if other = name then inner other + 1 else inner other

theorem bump_comm (inner : String → Nat) (a b : String) :
    bump (bump inner a) b = bump (bump inner b) a := by
  funext other
  unfold bump
  split <;> split <;> rfl

namespace Ends

/-- The ends before a span of a name is opened. -/
def beforeOpener (ends : Ends) (name : String) : Ends :=
  fun other inner => ends other (if other = name then inner + 1 else inner)

/-- The ends before a span of a name is closed. -/
def beforeCloser (ends : Ends) (name : String) (stop : Nat) : Ends :=
  fun other inner =>
    if other = name then
      match inner with
      | 0 => some stop
      | inner + 1 => ends other inner
    else ends other inner

/-- An opener and its closer together change nothing. -/
theorem beforeOpener_beforeCloser (ends : Ends) (name : String) (stop : Nat) :
    (ends.beforeCloser name stop).beforeOpener name = ends := by
  funext other inner
  unfold beforeOpener beforeCloser
  split <;> rfl

end Ends

namespace Drafts

/-- Gives the open spans their ends; `inner` counts the open spans opened after these. -/
def settle (ends : Ends) (inner : String → Nat) : Drafts → Drafts
  | [] => []
  | d :: drafts =>
    if d.isOpen then
      { d with stop := ends d.name (inner d.name) } :: settle ends (bump inner d.name) drafts
    else d :: settle ends inner drafts

theorem settle_open {d : Draft} (h : d.isOpen = true) (ends : Ends) (inner : String → Nat)
    (drafts : Drafts) : settle ends inner (d :: drafts) =
      { d with stop := ends d.name (inner d.name) } :: drafts.settle ends (bump inner d.name) := by
  rw [settle, if_pos h]

theorem settle_ended {d : Draft} (h : d.isOpen = false) (ends : Ends) (inner : String → Nat)
    (drafts : Drafts) : settle ends inner (d :: drafts) = d :: drafts.settle ends inner := by
  rw [settle, h]
  rfl

theorem settle_bump (ends : Ends) (inner : String → Nat) (name : String) (drafts : Drafts) :
    drafts.settle ends (bump inner name) = drafts.settle (ends.beforeOpener name) inner := by
  induction drafts generalizing inner with
  | nil => rfl
  | cons d drafts ih =>
    cases ho : d.isOpen with
    | true =>
      rw [settle_open ho, settle_open ho, bump_comm, ih]
      rfl
    | false => rw [settle_ended ho, settle_ended ho, ih]

/-- A closer gives an end to the latest open span of its name and leaves the others theirs. -/
theorem settle_close? {name : String} {stop : Nat} {drafts closed : Drafts} (ends : Ends)
    {inner : String → Nat} (h : close? name stop drafts = some closed) (hi : inner name = 0) :
    closed.settle ends inner = drafts.settle (ends.beforeCloser name stop) inner := by
  induction drafts generalizing closed inner with
  | nil => cases h
  | cons d drafts ih =>
    unfold close? at h
    split at h
    · next hd =>
      simp only [Bool.and_eq_true, beq_iff_eq] at hd
      obtain ⟨ho, rfl⟩ := hd
      cases h
      have hstop : d.stop = none := by simpa [Draft.isOpen] using ho
      have hend : ends.beforeCloser d.name stop d.name (inner d.name) = some stop := by
        simp [Ends.beforeCloser, hi]
      rw [settle_ended rfl, settle_open ho, settle_bump, Ends.beforeOpener_beforeCloser, hend]
      simp [Draft.close, hstop]
    · next hd =>
      obtain ⟨rest, hr, rfl⟩ := Option.map_eq_some_iff.mp h
      cases ho : d.isOpen with
      | true =>
        have hne : d.name ≠ name := by simpa [ho] using hd
        have hzero : bump inner d.name name = 0 := by simp [bump, Ne.symm hne, hi]
        have hend : ends.beforeCloser name stop d.name = ends d.name := by
          funext k
          simp [Ends.beforeCloser, hne]
        rw [settle_open ho, settle_open ho, ih hr hzero, hend]
      | false => rw [settle_ended ho, settle_ended ho, ih hr hi]

/-- What closes all spans gives each open one the same end. -/
theorem settle_const (stop : Nat) (inner : String → Nat) (drafts : Drafts) :
    drafts.settle (fun _ _ => some stop) inner = drafts.map fun d => d.close stop := by
  induction drafts generalizing inner with
  | nil => rfl
  | cons d drafts ih =>
    cases hs : d.stop with
    | none =>
      have ho : d.isOpen = true := by simp [Draft.isOpen, hs]
      rw [settle_open ho, ih, List.map_cons, Draft.close, hs]
      rfl
    | some old =>
      have ho : d.isOpen = false := by simp [Draft.isOpen, hs]
      rw [settle_ended ho, ih, List.map_cons, Draft.close, hs, Option.getD_some, ← hs]

theorem settle_of_ended {drafts : Drafts} (h : ∀ d ∈ drafts, d.isOpen = false) (ends : Ends)
    (inner : String → Nat) : drafts.settle ends inner = drafts := by
  induction drafts with
  | nil => rfl
  | cons d drafts ih =>
    rw [List.forall_mem_cons] at h
    rw [settle_ended h.1, ih h.2]

/-- Without more items the open spans stay open. -/
theorem settle_none (inner : String → Nat) (drafts : Drafts) :
    drafts.settle (fun _ _ => none) inner = drafts := by
  induction drafts generalizing inner with
  | nil => rfl
  | cons d drafts ih =>
    cases ho : d.isOpen with
    | true =>
      have hstop : d.stop = none := by simpa [Draft.isOpen] using ho
      rw [settle_open ho, ih, ← hstop]
    | false => rw [settle_ended ho, ih]

end Drafts

/-! ## A run over the items -/

/-- The ends that items give to the spans that are open before them. -/
def Ends.ofItems (b : Body) (items : List Found) : Ends := fun name inner =>
  (closing? name inner (items.map Found.item)).map fun k =>
    (b.write (literal (items.take (k + 1)))).size

theorem literal_cons (f : Found) (items : List Found) :
    literal (f :: items) = f.before ++ literal items := rfl

namespace Ends

/-- One item more before the one that gives an end. -/
theorem map_succ (b : Body) (f : Found) (items : List Found) (count? : Option Nat) :
    (count?.map (· + 1)).map (fun k => (b.write (literal ((f :: items).take (k + 1)))).size) =
      count?.map fun k => ((b.write f.before).write (literal (items.take (k + 1)))).size := by
  rw [Option.map_map]
  congr 1
  funext k
  simp only [Function.comp_apply, List.take_succ_cons, literal_cons, Body.write_append]

/-- The first item gives an end itself. -/
theorem size_write_one (b : Body) (f : Found) (items : List Found) :
    (b.write (literal ((f :: items).take 1))).size = (b.write f.before).size := by
  simp [literal]

variable (b : Body) {f : Found} (items : List Found)

theorem ofItems_opener {name : String} {parameters : Table Value}
    (h : f.item = .opener name parameters) :
    ofItems b (f :: items) = (ofItems (b.write f.before) items).beforeOpener name := by
  funext other inner
  simp only [ofItems, List.map_cons, h, closing?, map_succ, beforeOpener]

theorem ofItems_place {name : String} {parameters : Table Value}
    (h : f.item = .place name parameters) :
    ofItems b (f :: items) = ofItems (b.write f.before) items := by
  funext other inner
  simp only [ofItems, List.map_cons, h, closing?, map_succ]

theorem ofItems_closer {name : String} (h : f.item = .closer name) :
    ofItems b (f :: items) =
      (ofItems (b.write f.before) items).beforeCloser name (b.write f.before).size := by
  funext other inner
  simp only [ofItems, List.map_cons, h, closing?, beforeCloser]
  split
  · cases inner with
    | zero => rw [Option.map_some, size_write_one]
    | succ inner => rw [map_succ]
  · rw [map_succ]

theorem ofItems_closeAll (h : f.item = .closeAll) :
    ofItems b (f :: items) = fun _ _ => some (b.write f.before).size := by
  funext other inner
  simp only [ofItems, List.map_cons, h, closing?, Option.map_some]
  rw [size_write_one]

end Ends

/-- The spans that items begin, in order, with their ends as far as these come. -/
def draftsOf (b : Body) : List Found → List Draft
  | [] => []
  | f :: items =>
    let body := b.write f.before
    match f.item with
    | .opener name parameters =>
      ⟨name, body.size, Ends.ofItems body items name 0, parameters⟩ :: draftsOf body items
    | .place name parameters =>
      ⟨name, body.size, some body.size, parameters⟩ :: draftsOf body items
    | _ => draftsOf body items

/-- One step writes the text before the item, and the spans that are open then, its own among them,
get the ends that the other items give. -/
theorem Drafting.step_drafts {f : Found} (items : List Found) {d next : Drafting}
    (h : d.step f = .ok next) :
    next.body = d.body.write f.before ∧
      (draftsOf next.body items).reverse ++
          next.drafts.settle (Ends.ofItems next.body items) (fun _ => 0) =
        (draftsOf d.body (f :: items)).reverse ++
          d.drafts.settle (Ends.ofItems d.body (f :: items)) fun _ => 0 := by
  simp only [step] at h
  split at h
  · next name parameters hf =>
    cases h
    refine ⟨rfl, ?_⟩
    rw [Drafts.settle_open rfl, Drafts.settle_bump, Ends.ofItems_opener _ _ hf]
    simp [draftsOf, hf]
  · next name parameters hf =>
    cases h
    refine ⟨rfl, ?_⟩
    rw [Drafts.settle_ended rfl, Ends.ofItems_place _ _ hf]
    simp [draftsOf, hf]
  · next name hf =>
    split at h
    · next drafts hc =>
      cases h
      refine ⟨rfl, ?_⟩
      rw [Drafts.settle_close? _ hc rfl, Ends.ofItems_closer _ _ hf]
      simp [draftsOf, hf]
    · cases h
  · next hf =>
    cases h
    refine ⟨rfl, ?_⟩
    have hended : ∀ draft ∈ d.drafts.map fun draft => draft.close (d.body.write f.before).size,
        draft.isOpen = false := by
      intro draft hm
      obtain ⟨_, _, rfl⟩ := List.mem_map.mp hm
      rfl
    rw [Drafts.settle_of_ended hended, Ends.ofItems_closeAll _ _ hf, Drafts.settle_const]
    simp [draftsOf, hf]

/-- **What a run makes of the open spans, and of those that it opens.** -/
theorem Drafting.run_drafts {items : List Found} {d e : Drafting}
    (h : items.foldlM Drafting.step d = .ok e) :
    e.body = d.body.write (literal items) ∧
      e.drafts = (draftsOf d.body items).reverse ++
        d.drafts.settle (Ends.ofItems d.body items) fun _ => 0 := by
  -- What the remaining items will make of the spans does not change from step to step.
  induction items generalizing d with
  | nil =>
    cases h
    exact ⟨rfl, (Drafts.settle_none _ _).symm⟩
  | cons f items ih =>
    rw [List.foldlM_cons] at h
    cases hs : d.step f with
    | error fault =>
      rw [hs] at h
      cases h
    | ok next =>
      rw [hs] at h
      obtain ⟨hbody, hdrafts⟩ := ih h
      obtain ⟨hnext, hstep⟩ := step_drafts items hs
      rw [hbody, hnext, literal_cons, Body.write_append, hdrafts, hstep]
      exact ⟨rfl, rfl⟩

/-! ## No span ends before it starts -/

/-- A span starts within a text of some size, and if it has ended, it did so there and not before
its start. -/
def Draft.Within (draft : Draft) (size : Nat) : Prop :=
  draft.start ≤ size ∧ ∀ stop, draft.stop = some stop → draft.start ≤ stop ∧ stop ≤ size

theorem Draft.Within.mono {draft : Draft} {size size' : Nat} (h : draft.Within size)
    (hle : size ≤ size') : draft.Within size' := by
  obtain ⟨hstart, hstop⟩ := h
  refine ⟨by omega, ?_⟩
  intro stop hs
  have := hstop stop hs
  omega

theorem Draft.Within.close {draft : Draft} {size : Nat} (h : draft.Within size) :
    (draft.close size).Within size := by
  obtain ⟨hstart, hstop⟩ := h
  refine ⟨hstart, ?_⟩
  intro stop hs
  simp only [Draft.close, Option.some.injEq] at hs
  cases hd : draft.stop with
  | none =>
    rw [hd, Option.getD_none] at hs
    subst hs
    exact ⟨hstart, Nat.le_refl _⟩
  | some old =>
    rw [hd, Option.getD_some] at hs
    subst hs
    exact hstop old hd

/-- All spans are within the text written so far. -/
def Drafting.Ordered (d : Drafting) : Prop := ∀ draft ∈ d.drafts, draft.Within d.body.size

theorem Drafts.mem_close? {name : String} {stop : Nat} {drafts closed : Drafts}
    (h : close? name stop drafts = some closed) {draft : Draft} (hm : draft ∈ closed) :
    draft ∈ drafts ∨ ∃ old ∈ drafts, draft = old.close stop := by
  induction drafts generalizing closed with
  | nil => cases h
  | cons d drafts ih =>
    unfold close? at h
    split at h
    · cases h
      rcases List.mem_cons.mp hm with rfl | hm
      · exact .inr ⟨d, List.mem_cons_self, rfl⟩
      · exact .inl (List.mem_cons_of_mem _ hm)
    · obtain ⟨rest, hr, rfl⟩ := Option.map_eq_some_iff.mp h
      rcases List.mem_cons.mp hm with rfl | hm
      · exact .inl List.mem_cons_self
      · rcases ih hr hm with hold | ⟨old, hold, rfl⟩
        · exact .inl (List.mem_cons_of_mem _ hold)
        · exact .inr ⟨old, List.mem_cons_of_mem _ hold, rfl⟩

theorem Drafting.step_ordered {f : Found} {d next : Drafting} (h : d.step f = .ok next)
    (ho : d.Ordered) : next.Ordered := by
  have hwrite : ∀ draft ∈ d.drafts, draft.Within (d.body.write f.before).size := by
    intro draft hm
    exact (ho draft hm).mono (d.body.size_le_write f.before)
  simp only [step] at h
  split at h
  · cases h
    refine List.forall_mem_cons.mpr ⟨⟨Nat.le_refl _, ?_⟩, hwrite⟩
    intro stop hs
    cases hs
  · cases h
    refine List.forall_mem_cons.mpr ⟨⟨Nat.le_refl _, ?_⟩, hwrite⟩
    intro stop hs
    cases hs
    exact ⟨Nat.le_refl _, Nat.le_refl _⟩
  · split at h
    · next drafts hc =>
      cases h
      intro draft hm
      rcases Drafts.mem_close? hc hm with hold | ⟨old, hold, rfl⟩
      · exact hwrite draft hold
      · exact (hwrite old hold).close
    · cases h
  · cases h
    intro draft hm
    obtain ⟨old, hold, rfl⟩ := List.mem_map.mp hm
    exact (hwrite old hold).close

/-- **No span ends before it starts**, whatever is read. -/
theorem Drafting.run_ordered {items : List Found} {d e : Drafting}
    (h : items.foldlM Drafting.step d = .ok e) (ho : d.Ordered) : e.Ordered := by
  induction items generalizing d with
  | nil =>
    cases h
    exact ho
  | cons f items ih =>
    rw [List.foldlM_cons] at h
    cases hs : d.step f with
    | error fault =>
      rw [hs] at h
      cases h
    | ok next =>
      rw [hs] at h
      exact ih h (step_ordered hs ho)

/-! ## What spans cover -/

namespace Markup

/-- Where an item stands is what has been written when it is read. -/
theorem column_append (before items : List Found) (i : Nat) :
    column (before ++ items) (before.length + i) =
      ((Body.start.write (literal before)).write (literal (items.take (i + 1)))).size := by
  have htake : (before ++ items).take (before.length + i + 1) = before ++ items.take (i + 1) := by
    rw [Nat.add_assoc, List.take_length_add_append]
  unfold column
  rw [htake, ← Body.size_write, literal, List.flatMap_append, Body.write_append]
  rfl

/-- What has been written of the text when an item is read. -/
def writtenAt (items : List Found) (i : Nat) : List Char :=
  Text.collapse (literal (items.take (i + 1)))

theorem writtenAt_prefix_later (items : List Found) {i j : Nat} (h : i ≤ j) :
    writtenAt items i <+: writtenAt items j := by
  obtain ⟨more, hmore⟩ : items.take (i + 1) <+: items.take (j + 1) :=
    List.take_prefix_take_left (by omega)
  rw [writtenAt, writtenAt, ← hmore, literal, literal, List.flatMap_append]
  exact Body.collapse_prefix_append _ _

theorem writtenAt_prefix_text (items : List Found) (rest : List Char) (i : Nat) :
    writtenAt items i <+: Text.collapse (literal items ++ rest) := by
  obtain ⟨more, hmore⟩ : items.take (i + 1) <+: items := List.take_prefix _ _
  have hlit : literal items ++ rest = literal (items.take (i + 1)) ++ (literal more ++ rest) := by
    conv_lhs => rw [← hmore]
    simp [literal]
  rw [hlit]
  exact Body.collapse_prefix_append _ _

/-- Later items stand further right, or at the same place. -/
theorem column_mono (items : List Found) {i j : Nat} (h : i ≤ j) :
    column items i ≤ column items j :=
  (writtenAt_prefix_later items h).length_le

/-- Nothing that is cut out stands behind the text. -/
theorem column_le (items : List Found) (rest : List Char) (i : Nat) :
    column items i ≤ (Text.collapse (literal items ++ rest)).length :=
  (writtenAt_prefix_text items rest i).length_le

/-- The span that an opener makes with the item that ends it. -/
theorem covers_opener {before items : List Found} {f : Found} {name : String}
    {parameters : Table Value} (hf : f.item = .opener name parameters) {stop : Nat}
    (hstop : Ends.ofItems (Body.start.write (literal (before ++ [f]))) items name 0 = some stop) :
    Covers (before ++ f :: items) before.length
      (Draft.span
        ⟨name, (Body.start.write (literal (before ++ [f]))).size, some stop, parameters⟩) := by
  obtain ⟨m, hm, rfl⟩ := Option.map_eq_some_iff.mp hstop
  have hafter : (before ++ f :: items).drop (before.length + 1) = items := by
    rw [List.drop_append, List.drop_eq_nil_of_le (by omega)]
    simp
  have hstart := column_append before (f :: items) 0
  have hend := column_append (before ++ [f]) items m
  rw [List.append_assoc, List.singleton_append, List.length_append, List.length_singleton] at hend
  refine .opener (k := before.length + 1 + m) ?_ ?_ ⟨m, by rw [hafter]; exact hm, rfl⟩ ?_
  · simp [hf, Draft.span]
  · rw [Nat.add_zero] at hstart
    rw [hstart, Draft.span]
    simp [literal, Body.write_append]
  · rw [hend, Draft.span, Option.getD_some]
    exact Nat.add_sub_cancel' (Body.size_le_write _ _)

/-- The span of an item that marks a place. -/
theorem covers_place {before items : List Found} {f : Found} {name : String}
    {parameters : Table Value} (hf : f.item = .place name parameters) :
    Covers (before ++ f :: items) before.length
      (Draft.span ⟨name, (Body.start.write (literal (before ++ [f]))).size,
        some (Body.start.write (literal (before ++ [f]))).size, parameters⟩) := by
  have hstart := column_append before (f :: items) 0
  refine .place ?_ ?_ ?_
  · simp [hf, Draft.span]
  · rw [Nat.add_zero] at hstart
    rw [hstart, Draft.span]
    simp [literal, Body.write_append]
  · simp [Draft.span]

theorem covers_draftsOf (before items : List Found)
    (h : ∀ draft ∈ draftsOf (Body.start.write (literal before)) items, draft.isOpen = false) :
    List.Forall₂ (Covers (before ++ items))
      (((items.zipIdx before.length).filter fun f => f.1.item.begins).map Prod.snd)
      ((draftsOf (Body.start.write (literal before)) items).map Draft.span) := by
  -- The items before are carried along, since columns count from the start of the text.
  induction items generalizing before with
  | nil => exact .nil
  | cons f items ih =>
    have hbody : (Body.start.write (literal before)).write f.before =
        Body.start.write (literal (before ++ [f])) := by
      simp [literal, Body.write_append]
    have hrest := ih (before ++ [f])
    rw [List.append_assoc, List.singleton_append, List.length_append, List.length_singleton]
      at hrest
    rw [List.zipIdx_cons]
    cases hf : f.item with
    | opener name parameters =>
      simp only [draftsOf, hf, hbody, List.forall_mem_cons] at h ⊢
      obtain ⟨hended, hothers⟩ := h
      simp only [Draft.isOpen, Option.isNone_eq_false_iff, Option.isSome_iff_exists] at hended
      obtain ⟨stop, hstop⟩ := hended
      rw [hstop, List.filter_cons_of_pos (by simp [hf, Item.begins])]
      exact .cons (covers_opener hf hstop) (hrest hothers)
    | place name parameters =>
      simp only [draftsOf, hf, hbody, List.forall_mem_cons] at h ⊢
      rw [List.filter_cons_of_pos (by simp [hf, Item.begins])]
      exact .cons (covers_place hf) (hrest h.2)
    | closer name =>
      simp only [draftsOf, hf, hbody] at h ⊢
      rw [List.filter_cons_of_neg (by simp [hf, Item.begins])]
      exact hrest h
    | closeAll =>
      simp only [draftsOf, hf, hbody] at h ⊢
      rw [List.filter_cons_of_neg (by simp [hf, Item.begins])]
      exact hrest h

theorem Covers.start_eq {items : List Found} {i : Nat} {span : Span} (h : Covers items i span) :
    span.start = column items i := by
  cases h with
  | opener _ start => exact start
  | place _ start => exact start

theorem Covers.stop_le {items : List Found} {i : Nat} {span : Span} (h : Covers items i span)
    (rest : List Char) :
    span.start + span.length ≤ (Text.collapse (literal items ++ rest)).length := by
  cases h with
  | opener _ _ _ stop =>
    rw [stop]
    exact column_le items rest _
  | place _ start length =>
    rw [start, length]
    exact column_le items rest i

/-- Spans end inside the text. -/
theorem stops_le {items : List Found} {places : List Nat} {spans : List Span}
    (h : List.Forall₂ (Covers items) places spans) (rest : List Char) :
    ∀ span ∈ spans,
      span.start + span.length ≤ (Text.collapse (literal items ++ rest)).length := by
  induction h with
  | nil => simp
  | cons head _ ih => exact List.forall_mem_cons.mpr ⟨head.stop_le rest, ih⟩

theorem marks_pairwise (items : List Found) : (marks items).Pairwise (· < ·) := by
  have hall : (items.zipIdx.map Prod.snd).Pairwise (· < ·) := by
    rw [List.zipIdx_map_snd]
    exact List.pairwise_lt_range'
  exact hall.sublist (List.filter_sublist.map Prod.snd)

/-- Spans over later items start further right, or at the same place. -/
theorem starts_pairwise {items : List Found} {places : List Nat} {spans : List Span}
    (h : List.Forall₂ (Covers items) places spans) (hp : places.Pairwise (· < ·)) :
    (spans.map Span.start).Pairwise (· ≤ ·) := by
  have hstarts : spans.map Span.start = places.map (column items) := by
    induction h with
    | nil => rfl
    | cons head _ ih =>
      rw [List.map_cons, List.map_cons, head.start_eq, ih (List.pairwise_cons.mp hp).2]
  rw [hstarts, List.pairwise_map]
  exact hp.imp fun hlt => column_mono items (Nat.le_of_lt hlt)

end Markup

theorem Drafting.ended_of_openNames {d : Drafting} (h : d.openNames.isEmpty = true) :
    ∀ draft ∈ d.drafts, draft.isOpen = false := by
  intro draft hm
  simp only [openNames, List.isEmpty_iff, List.map_eq_nil_iff, List.reverse_eq_nil_iff,
    List.filter_eq_nil_iff] at h
  simpa using h draft hm

/-- A dialogue is what items and the text after them say. -/
structure Dialog.Shows (dialog : Dialog) (items : List Found) (rest : List Char) : Prop where
  /-- The text is what is left without the items, with its blanks collapsed. -/
  body : dialog.body = String.ofList (Text.collapse (literal items ++ rest))
  /-- There is one span for each item that begins one, exactly over the text it encloses. -/
  spans : List.Forall₂ (Covers items) (marks items) dialog.spans
  /-- No span starts before the one before it. -/
  starts : (dialog.spans.map Span.start).Pairwise (· ≤ ·)
  /-- No span reaches beyond the text. -/
  inside : ∀ span ∈ dialog.spans, span.start + span.length ≤ dialog.body.length

/--
**Spans lie exactly over the text they enclosed.**  The items and the text around them are the whole
content, the dialogue is what they say, and at no point of the reading has a span an end before its
start.
-/
theorem Dialog.read_spans {content : List Char} {dialog : Dialog} (h : read content = .ok dialog) :
    let items := (scan content).1
    let rest := (scan content).2
    items.flatMap Found.text ++ rest = content ∧ dialog.Shows items rest ∧
      ∀ (n : Nat) (d : Drafting), (items.take n).foldlM Drafting.step .start = .ok d →
        ∀ draft ∈ d.drafts, ∀ stop, draft.stop = some stop → draft.start ≤ stop := by
  refine ⟨text_scan content, ?_, ?_⟩
  · simp only [read] at h
    split at h
    · cases h
    · next d hrun =>
      split at h
      · next hopen =>
        cases h
        obtain ⟨hbody, hdrafts⟩ := Drafting.run_drafts hrun
        have hreverse : d.drafts.reverse = draftsOf Body.start (scan content).1 := by
          rw [hdrafts]
          simp [Drafting.start, Drafts.settle]
        have hended : ∀ draft ∈ draftsOf Body.start (scan content).1, draft.isOpen = false := by
          intro draft hm
          rw [← hreverse, List.mem_reverse] at hm
          exact Drafting.ended_of_openNames hopen draft hm
        have htext : (d.body.write (scan content).2).text =
            String.ofList (Text.collapse (literal (scan content).1 ++ (scan content).2)) := by
          rw [hbody, ← Body.write_append]
          exact Body.text_write _
        have hspans : List.Forall₂ (Covers (scan content).1) (marks (scan content).1)
            (d.drafts.reverse.map Draft.span) := by
          rw [hreverse]
          exact covers_draftsOf [] (scan content).1 hended
        refine ⟨htext, hspans, starts_pairwise hspans (marks_pairwise _), ?_⟩
        rw [htext, String.length_ofList]
        exact stops_le hspans (scan content).2
      · cases h
  · intro n d hrun draft hm stop hs
    have hstart : Drafting.start.Ordered := by
      intro draft hm
      cases hm
    exact ((Drafting.run_ordered hrun hstart draft hm).2 stop hs).1

/-- Overlapping spans, a place among blanks, and one item that closes what is left. -/
def Dialog.sample : List Char := "[a]one  [b]two[/a] three [p/] [/]four".toList

theorem Dialog.read_sample :
    ∃ dialog, read sample = .ok dialog ∧ dialog.body = "one two three four" ∧
      dialog.spans.map (fun span => (span.start, span.length)) = [(0, 7), (4, 10), (14, 0)] ∧
      dialog.Shows (scan sample).1 (scan sample).2 := by
  have hall : (read sample).toOption.any (fun dialog =>
      decide (dialog.body = "one two three four" ∧
        dialog.spans.map (fun span => (span.start, span.length)) = [(0, 7), (4, 10), (14, 0)])) =
          true := by
    decide +kernel
  cases h : read sample with
  | error e =>
    rw [h] at hall
    cases hall
  | ok dialog =>
    rw [h] at hall
    obtain ⟨hbody, hspans⟩ := of_decide_eq_true hall
    exact ⟨dialog, rfl, hbody, hspans, (read_spans h).2.1⟩

end Parley
