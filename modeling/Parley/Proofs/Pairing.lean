import Mathlib.Data.List.DropRight
import Parley.Proofs.Balance

/-!
# Markup of different names does not interact

All open spans are kept in one list, whatever their names, and a closer takes one out of the middle
of it.  Still each name could be read alone: `depth` counts the openers of a name less its closers
since the last item that closed all spans, and a closer belongs to the opener that parentheses would
give it if there were no other names (`Matches`).  The counts say which closer fails, and what stays
open says which names a failure at the end lists.

Principal results: `Drafting.run_count` — the open spans of a name are as many as its depth;
`closing?_eq_some_iff` — what ends a span, by counting its name alone; `Drafting.run_openAt` — which
spans are open after some items; `Drafting.step_closer` — a closer ends the span of the opener that
it matches; `Dialog.read_pairing` — the outcomes of a reading by the counts.
-/

namespace Parley

namespace Markup

/-! ## Counting one name -/

/-- Whether an item opens a span of a name. -/
def Item.opens (name : String) : Item → Bool
  | .opener other _ => other == name
  | _ => false

/-- Whether an item closes a span of a name, and only one. -/
def Item.closes (name : String) : Item → Bool
  | .closer other => other == name
  | _ => false

/-- The openers of a name less its closers. -/
def net (name : String) (items : List Item) : Int :=
  items.countP (Item.opens name) - items.countP (Item.closes name)

/-- The items since the last one that closes all spans. -/
def recent (items : List Item) : List Item := items.rtakeWhile (· != .closeAll)

/-- The openers of a name less its closers, since the last item that closes all spans. -/
def depth (name : String) (items : List Item) : Int := net name (recent items)

@[simp] theorem net_nil (name : String) : net name [] = 0 := rfl

theorem net_append (name : String) (items items' : List Item) :
    net name (items ++ items') = net name items + net name items' := by
  simp only [net, List.countP_append]
  omega

theorem net_cons (name : String) (item : Item) (items : List Item) :
    net name (item :: items) = net name [item] + net name items := net_append name [item] items

theorem net_opener (name other : String) (parameters : Table Value) :
    net name [.opener other parameters] = if other = name then 1 else 0 := by
  by_cases h : other = name <;> simp [net, Item.opens, Item.closes, h]

theorem net_closer (name other : String) :
    net name [.closer other] = if other = name then -1 else 0 := by
  by_cases h : other = name <;> simp [net, Item.opens, Item.closes, h]

theorem net_place (name other : String) (parameters : Table Value) :
    net name [.place other parameters] = 0 := rfl

/-- One item more changes the depth by what it counts, unless it closes all spans. -/
theorem depth_concat (name : String) (items : List Item) (item : Item) :
    depth name (items ++ [item]) =
      if item = .closeAll then 0 else depth name items + net name [item] := by
  unfold depth recent
  split
  · next h => rw [List.rtakeWhile_concat_neg _ _ _ (by simp [h]), net_nil]
  · next h => rw [List.rtakeWhile_concat_pos _ _ _ (by simpa using h), net_append]

/-- Item `k` closes a span of a name that is not open, by counting that name. -/
def Overdrawn (items : List Item) (k : Nat) (name : String) : Prop :=
  items[k]? = some (.closer name) ∧ depth name (items.take (k + 1)) < 0

end Markup

open Markup

/-! ## The open spans of a name -/

/-- A closer ends the latest open span of its name. -/
theorem Drafts.exists_of_close? {name : String} {stop : Nat} {drafts closed : Drafts}
    (h : close? name stop drafts = some closed) :
    ∃ newer draft older, drafts = newer ++ draft :: older ∧
      closed = newer ++ draft.close stop :: older ∧ draft.isOpen = true ∧ draft.name = name := by
  induction drafts generalizing closed with
  | nil => cases h
  | cons d drafts ih =>
    unfold close? at h
    split at h
    · next hd =>
      cases h
      simp only [Bool.and_eq_true, beq_iff_eq] at hd
      exact ⟨[], d, drafts, rfl, rfl, hd⟩
    · obtain ⟨rest, hr, rfl⟩ := Option.map_eq_some_iff.mp h
      obtain ⟨newer, draft, older, rfl, rfl, hd⟩ := ih hr
      exact ⟨d :: newer, draft, older, rfl, rfl, hd⟩

namespace Drafting

theorem count_openNames (d : Drafting) (name : String) :
    d.openNames.count name = d.drafts.countP fun draft => draft.isOpen && draft.name == name := by
  rw [openNames, List.map_reverse, List.count_reverse, List.count, List.countP_map,
    List.countP_filter]
  congr 1
  funext draft
  simp [Bool.and_comm]

/-- One item changes the number of open spans of a name by what it counts, or closes them all. -/
theorem step_count {f : Found} {d next : Drafting} (h : d.step f = .ok next) (name : String) :
    (next.openNames.count name : Int) =
      if f.item = .closeAll then 0 else d.openNames.count name + net name [f.item] := by
  simp only [step] at h
  split at h
  · next other parameters hf =>
    cases h
    rw [hf, if_neg (by simp), net_opener, count_openNames, count_openNames, List.countP_cons]
    by_cases hn : other = name <;> simp [Draft.isOpen, hn]
  · next other parameters hf =>
    cases h
    rw [hf, if_neg (by simp), net_place, count_openNames, count_openNames, List.countP_cons]
    simp [Draft.isOpen]
  · next other hf =>
    split at h
    · next drafts hc =>
      cases h
      obtain ⟨newer, draft, older, hold, hnew, hopen, rfl⟩ := Drafts.exists_of_close? hc
      rw [hf, if_neg (by simp), net_closer, count_openNames, count_openNames, hold]
      simp only [hnew, List.countP_append, List.countP_cons, Draft.isOpen, Draft.close,
        Option.isNone_some, Bool.false_and]
      rw [Draft.isOpen] at hopen
      by_cases hn : draft.name = name
      · simp [hopen, hn]
        omega
      · simp [hopen, hn]
    · cases h
  · next hf =>
    cases h
    rw [hf, if_pos rfl, count_openNames]
    simp [List.countP_map, Function.comp_def, Draft.isOpen, Draft.close]

/-- A run over items and one more is a run over the items and one step. -/
theorem run_concat {items : List Found} {f : Found} {next : Drafting} :
    (items ++ [f]).foldlM step .start = .ok next ↔
      ∃ d, items.foldlM step .start = .ok d ∧ d.step f = .ok next := by
  rw [List.foldlM_append]
  cases hrun : items.foldlM step .start with
  | error fault => simp [bind, Except.bind]
  | ok d =>
    simp only [bind, Except.bind, List.foldlM_cons, List.foldlM_nil, Except.ok.injEq,
      exists_eq_left']
    cases d.step f <;> simp [pure, Except.pure]

/-- **The open spans of a name are as many as its depth.** -/
theorem run_count {items : List Found} {d : Drafting} (h : items.foldlM step .start = .ok d)
    (name : String) : (d.openNames.count name : Int) = depth name (items.map Found.item) := by
  induction items using List.reverseRecOn generalizing d with
  | nil =>
    cases h
    rfl
  | append_singleton items f ih =>
    obtain ⟨before, hbefore, hstep⟩ := run_concat.mp h
    rw [step_count hstep, ih hbefore, List.map_append, List.map_singleton, depth_concat]

/-- What was read before is read on the way. -/
theorem run_take {items : List Found} {d : Drafting} (h : items.foldlM step .start = .ok d)
    (k : Nat) : ∃ e, (items.take k).foldlM step .start = .ok e := by
  rw [← List.take_append_drop k items, List.foldlM_append] at h
  cases hrun : (items.take k).foldlM step .start with
  | error fault =>
    rw [hrun] at h
    cases h
  | ok e => exact ⟨e, rfl⟩

/-- No closer is overdrawn in what is read. -/
theorem run_not_overdrawn {items : List Found} {d : Drafting}
    (h : items.foldlM step .start = .ok d) (k : Nat) (name : String) :
    ¬ Overdrawn (items.map Found.item) k name := by
  rintro ⟨-, hneg⟩
  obtain ⟨e, htake⟩ := run_take h (k + 1)
  rw [← List.map_take, ← run_count htake] at hneg
  omega

/-- **A run stops at the first closer that makes the depth of its name negative.** -/
theorem run_depths (items : List Found) :
    ((∃ d, items.foldlM step .start = .ok d) ∧
        ∀ k name, ¬ Overdrawn (items.map Found.item) k name) ∨
      ∃ k name, Overdrawn (items.map Found.item) k name ∧
        (∀ j < k, ∀ other, ¬ Overdrawn (items.map Found.item) j other) ∧
        items.foldlM step .start = .error (.unmatchedCloser name) := by
  rcases run_or_stops items with ⟨d, hrun⟩ | ⟨k, name, d, htake, hitem, hopen, hrun⟩
  · exact .inl ⟨⟨d, hrun⟩, run_not_overdrawn hrun⟩
  · rw [← List.getElem?_map] at hitem
    refine .inr ⟨k, name, ⟨hitem, ?_⟩, ?_, hrun⟩
    · have hcount := run_count htake name
      rw [List.count_eq_zero.mpr hopen, List.map_take] at hcount
      rw [List.take_add_one, hitem, Option.toList_some, depth_concat, if_neg (by simp), ← hcount,
        net_closer, if_pos rfl]
      omega
    · intro j hj other hover
      obtain ⟨hj', hneg⟩ := hover
      refine run_not_overdrawn htake j other ⟨?_, ?_⟩
      · rw [List.map_take, List.getElem?_take, if_pos hj, hj']
      · rwa [List.map_take, List.take_take, Nat.min_eq_left (by omega)]

end Drafting

/-! ## Parentheses of one name -/

namespace Markup

/-- The items behind item `i` and before item `j`. -/
def inside (items : List Item) (i j : Nat) : List Item := (items.take j).drop (i + 1)

/-- Item `k` closes what item `i` opens, as parentheses do: between them openers and closers of the
name balance, no closer comes before its opener, and nothing closes all spans. -/
structure Matches (items : List Item) (name : String) (i k : Nat) : Prop where
  lt : i < k
  opener : ∃ parameters, items[i]? = some (.opener name parameters)
  closer : items[k]? = some (.closer name)
  open_between : ∀ j, i < j → j < k → items[j]? ≠ some .closeAll
  nested : ∀ j, i < j → j ≤ k → 0 ≤ net name (inside items i j)
  balanced : net name (inside items i k) = 0

/-- Item `i` opens a span of a name, and no item before item `k` ends it. -/
structure StillOpen (items : List Item) (name : String) (i k : Nat) : Prop where
  lt : i < k
  opener : ∃ parameters, items[i]? = some (.opener name parameters)
  not_closeAll : ∀ j, i < j → j < k → items[j]? ≠ some .closeAll
  not_matches : ∀ j < k, ¬ Matches items name i j

theorem getElem?_inside (items : List Item) (i j m : Nat) :
    (inside items i j)[m]? = if i + 1 + m < j then items[i + 1 + m]? else none := by
  rw [inside, List.getElem?_drop, List.getElem?_take]

theorem take_inside (items : List Item) (i j m : Nat) :
    (inside items i j).take m = inside items i (min (i + 1 + m) j) := by
  rw [inside, inside, List.take_drop, List.take_take]

theorem inside_append {items : List Item} {i j k : Nat} {item : Item} (hij : i < j) (hjk : j < k)
    (h : items[j]? = some item) :
    inside items i k = inside items i j ++ item :: inside items j k := by
  obtain ⟨hlt, rfl⟩ := List.getElem?_eq_some_iff.mp h
  unfold inside
  have hj : j < (items.take k).length := by
    rw [List.length_take]
    omega
  have hitem : (items.take k)[j] = items[j] := List.getElem_take
  rw [← hitem, ← List.drop_eq_getElem_cons hj]
  conv_lhs => rw [← List.take_append_drop j (items.take k), List.take_take,
    Nat.min_eq_left (Nat.le_of_lt hjk), List.drop_append]
  rw [List.length_take, Nat.min_eq_left (Nat.le_of_lt hlt), Nat.sub_eq_zero_of_le hij,
    List.drop_zero]

/-- A closer matches one opener only. -/
theorem Matches.unique {items : List Item} {name : String} {i i' k : Nat}
    (h : Matches items name i k) (h' : Matches items name i' k) : i = i' := by
  have hle : ∀ {a b : Nat}, Matches items name a k → Matches items name b k → b ≤ a := by
    intro a b ha hb
    by_contra hlt
    obtain ⟨parameters, hopener⟩ := hb.opener
    have hsum := ha.balanced
    have hnested := ha.nested b (by omega) (Nat.le_of_lt hb.lt)
    rw [inside_append (by omega) hb.lt hopener, net_append, net_cons, net_opener, if_pos rfl,
      hb.balanced] at hsum
    omega
  exact Nat.le_antisymm (hle h' h) (hle h h')

/-! ## What ends a span -/

/-- Item `m` ends a span when `spare` spans of its name that were opened later are open before the
items. -/
structure EndsAt (name : String) (spare : Int) (items : List Item) (m : Nat) : Prop where
  not_closeAll : ∀ j < m, items[j]? ≠ some .closeAll
  nested : ∀ j ≤ m, 0 ≤ spare + net name (items.take j)
  item : items[m]? = some .closeAll ∨
    items[m]? = some (.closer name) ∧ spare + net name (items.take m) = 0

theorem endsAt_zero {name : String} {spare : Int} {item : Item} {items : List Item} :
    EndsAt name spare (item :: items) 0 ↔
      0 ≤ spare ∧ (item = .closeAll ∨ item = .closer name ∧ spare = 0) := by
  constructor
  · rintro ⟨-, hnested, hitem⟩
    exact ⟨by simpa using hnested 0 (Nat.le_refl 0), by simpa using hitem⟩
  · rintro ⟨hspare, hitem⟩
    refine ⟨by simp, ?_, by simpa using hitem⟩
    intro j hj
    obtain rfl : j = 0 := by omega
    simpa using hspare

theorem endsAt_succ {name : String} {spare : Int} {item : Item} {items : List Item} {m : Nat} :
    EndsAt name spare (item :: items) (m + 1) ↔
      item ≠ .closeAll ∧ 0 ≤ spare ∧ EndsAt name (spare + net name [item]) items m := by
  have htake : ∀ j, spare + net name ((item :: items).take (j + 1)) =
      spare + net name [item] + net name (items.take j) := by
    intro j
    rw [List.take_succ_cons, net_cons]
    omega
  constructor
  · rintro ⟨hopen, hnested, hitem⟩
    refine ⟨by simpa using hopen 0 (by omega), by simpa using hnested 0 (by omega), ?_, ?_, ?_⟩
    · intro j hj
      simpa using hopen (j + 1) (by omega)
    · intro j hj
      rw [← htake]
      exact hnested (j + 1) (by omega)
    · rw [← htake]
      simpa using hitem
  · rintro ⟨hitem, hspare, hopen, hnested, hends⟩
    refine ⟨?_, ?_, ?_⟩
    · intro j hj
      cases j with
      | zero => simpa using hitem
      | succ j => simpa using hopen j (by omega)
    · intro j hj
      cases j with
      | zero => simpa using hspare
      | succ j =>
        rw [htake]
        exact hnested j (by omega)
    · rw [htake]
      simpa using hends

/-- **What ends a span**, by counting its name alone. -/
theorem closing?_eq_some_iff {name : String} {inner m : Nat} {items : List Item} :
    closing? name inner items = some m ↔ EndsAt name inner items m := by
  induction items generalizing inner m with
  | nil =>
    refine iff_of_false (by simp [closing?]) ?_
    rintro ⟨-, -, hitem⟩
    simp at hitem
  | cons item items ih =>
    -- An item that does not end the span counts for what is behind it.
    have hlater : ∀ {inner' : Nat}, (inner' : Int) = inner + net name [item] → item ≠ .closeAll →
        ¬ (item = .closer name ∧ inner = 0) →
        ((closing? name inner' items).map (· + 1) = some m ↔
          EndsAt name inner (item :: items) m) := by
      intro inner' hinner hall hcloser
      cases m with
      | zero =>
        rw [endsAt_zero]
        refine iff_of_false (by simp) ?_
        rintro ⟨-, hitem | ⟨hitem, hzero⟩⟩
        · exact hall hitem
        · exact hcloser ⟨hitem, by omega⟩
      | succ m =>
        rw [endsAt_succ, ← hinner, ← ih]
        simp [hall]
    cases item with
    | opener other parameters =>
      refine hlater ?_ (by simp) (by simp)
      rw [net_opener]
      by_cases h : name = other
      · simp [h]
      · simp [h, Ne.symm h]
    | place other parameters => exact hlater (by simp [net_place]) (by simp) (by simp)
    | closer other =>
      by_cases h : name = other
      · subst h
        cases inner with
        | zero =>
          simp only [closing?, if_true, Option.some.injEq]
          cases m with
          | zero => simp [endsAt_zero]
          | succ m =>
            refine iff_of_false (by simp) ?_
            rw [endsAt_succ, net_closer, if_pos rfl]
            rintro ⟨-, -, -, hnested, -⟩
            simpa using hnested 0 (by omega)
        | succ inner =>
          simp only [closing?, if_true]
          exact hlater (by rw [net_closer, if_pos rfl]; omega) (by simp) (by simp)
      · simp only [closing?, if_neg h]
        exact hlater (by rw [net_closer, if_neg (Ne.symm h)]; omega) (by simp)
          (by simp [Ne.symm h])
    | closeAll =>
      simp only [closing?, Option.some.injEq]
      cases m with
      | zero => simp [endsAt_zero]
      | succ m => simp [endsAt_succ]

/-- What closes all spans ends a span, unless something before it does. -/
theorem closeAll_not_mem_of_closing? {name : String} {inner : Nat} {items : List Item}
    (h : closing? name inner items = none) : Item.closeAll ∉ items := by
  induction items generalizing inner with
  | nil => simp
  | cons item items ih =>
    have hlater : ∀ inner, (closing? name inner items).map (· + 1) = none → item ≠ .closeAll →
        Item.closeAll ∉ item :: items := by
      intro inner hnone hitem
      rw [List.mem_cons, not_or]
      exact ⟨hitem.symm, ih (Option.map_eq_none_iff.mp hnone)⟩
    cases item with
    | opener other parameters => exact hlater _ h (by simp)
    | place other parameters => exact hlater _ h (by simp)
    | closer other =>
      unfold closing? at h
      split at h
      · cases inner with
        | zero => cases h
        | succ inner => exact hlater inner (by simp_all) (by simp)
      · exact hlater inner h (by simp)
    | closeAll => cases h

/-- The closer that matches an opener ends its span. -/
theorem Matches.endsAt {items : List Item} {name : String} {i j k : Nat}
    (h : Matches items name i j) (hjk : j < k) :
    EndsAt name 0 (inside items i k) (j - (i + 1)) := by
  have hij := h.lt
  have hplace : i + 1 + (j - (i + 1)) = j := by omega
  refine ⟨?_, ?_, .inr ⟨?_, ?_⟩⟩
  · intro m hm
    rw [getElem?_inside, if_pos (by omega)]
    exact h.open_between _ (by omega) (by omega)
  · intro m hm
    rw [take_inside, Nat.min_eq_left (by omega), Int.zero_add]
    exact h.nested _ (by omega) (by omega)
  · rw [getElem?_inside, if_pos (by omega), hplace]
    exact h.closer
  · rw [take_inside, Nat.min_eq_left (by omega), Int.zero_add, hplace]
    exact h.balanced

/-- A closer that ends the span of an opener matches it. -/
theorem EndsAt.matches {items : List Item} {name : String} {i k m : Nat}
    (h : EndsAt name 0 (inside items i k) m) (hmk : i + 1 + m < k)
    (hopener : ∃ parameters, items[i]? = some (.opener name parameters))
    (hcloser : items[i + 1 + m]? = some (.closer name)) : Matches items name i (i + 1 + m) := by
  have hnet : ∀ j, i + 1 ≤ j → j ≤ i + 1 + m →
      net name (inside items i j) = 0 + net name ((inside items i k).take (j - (i + 1))) := by
    intro j hij hj
    rw [take_inside, show min (i + 1 + (j - (i + 1))) k = j by omega, Int.zero_add]
  have hitem := h.item
  rw [getElem?_inside, if_pos hmk, hcloser] at hitem
  refine ⟨by omega, hopener, hcloser, ?_, ?_, ?_⟩
  · intro j hij hj
    have hopen := h.not_closeAll (j - (i + 1)) (by omega)
    rwa [getElem?_inside, if_pos (by omega), show i + 1 + (j - (i + 1)) = j by omega] at hopen
  · intro j hij hj
    rw [hnet j hij (by omega)]
    exact h.nested (j - (i + 1)) (by omega)
  · rw [hnet _ (by omega) (Nat.le_refl _), Nat.add_sub_cancel_left]
    exact (hitem.resolve_left (by simp)).2

/-- Which spans are open after some items: those that nothing ends. -/
theorem stillOpen_iff {items : List Item} {name : String} {i k : Nat} :
    StillOpen items name i k ↔ i < k ∧ (∃ parameters, items[i]? = some (.opener name parameters)) ∧
      closing? name 0 (inside items i k) = none := by
  constructor
  · rintro ⟨hlt, hopener, hall, hunmatched⟩
    refine ⟨hlt, hopener, ?_⟩
    by_contra hsome
    obtain ⟨m, hm⟩ := Option.ne_none_iff_exists'.mp hsome
    have hends : EndsAt name 0 (inside items i k) m := closing?_eq_some_iff.mp hm
    have hitem := hends.item
    rw [getElem?_inside] at hitem
    split at hitem
    · next hmk =>
      rcases hitem with hitem | ⟨hitem, -⟩
      · exact hall (i + 1 + m) (by omega) hmk hitem
      · exact hunmatched (i + 1 + m) hmk (hends.matches hmk hopener hitem)
    · simp at hitem
  · rintro ⟨hlt, hopener, hnone⟩
    refine ⟨hlt, hopener, ?_, ?_⟩
    · intro j hij hjk hitem
      refine closeAll_not_mem_of_closing? hnone (List.mem_of_getElem? (i := j - (i + 1)) ?_)
      rw [getElem?_inside, if_pos (by omega), show i + 1 + (j - (i + 1)) = j by omega, hitem]
    · intro j hjk hmatches
      rw [closing?_eq_some_iff.mpr (hmatches.endsAt hjk)] at hnone
      cases hnone

/-- Whether the span of an item behind others stays open to the end is said by what follows it. -/
theorem stillOpen_length_iff (before : List Item) (item : Item) (items : List Item) :
    (∃ name, StillOpen (before ++ item :: items) name before.length
      (before ++ item :: items).length) ↔
        ∃ name parameters, item = .opener name parameters ∧ closing? name 0 items = none := by
  have hitem : (before ++ item :: items)[before.length]? = some item := by simp
  have hrest : inside (before ++ item :: items) before.length (before ++ item :: items).length =
      items := by
    rw [inside, List.take_length, List.drop_append]
    simp
  simp only [stillOpen_iff, hitem, hrest]
  simp

/-- What stays open to the end, told from the front. -/
theorem exists_unclosed (before items : List Item) :
    ∃ places : List Nat, places.Pairwise (· < ·) ∧
      (∀ i, i ∈ places ↔ before.length ≤ i ∧
        ∃ name, StillOpen (before ++ items) name i (before ++ items).length) ∧
      List.Forall₂ (fun i name => ∃ parameters,
        (before ++ items)[i]? = some (.opener name parameters)) places (unclosed items) := by
  -- The items before are carried along, since places count from the first item.
  induction items generalizing before with
  | nil =>
    refine ⟨[], .nil, ?_, .nil⟩
    intro i
    refine iff_of_false (by simp) ?_
    rintro ⟨hle, name, hopen⟩
    have hlt := hopen.lt
    rw [List.append_nil] at hlt
    omega
  | cons item items ih =>
    obtain ⟨places, hsorted, hmem, hnames⟩ := ih (before ++ [item])
    rw [List.append_assoc, List.singleton_append] at hmem hnames
    rw [List.length_append, List.length_singleton] at hmem
    have hitem : (before ++ item :: items)[before.length]? = some item := by simp
    have hhere := stillOpen_length_iff before item items
    have hskip : (¬ ∃ name parameters, item = .opener name parameters ∧
        closing? name 0 items = none) → ∀ i, i ∈ places ↔ before.length ≤ i ∧
          ∃ name, StillOpen (before ++ item :: items) name i (before ++ item :: items).length := by
      intro hended i
      rw [← hhere] at hended
      rw [hmem]
      refine and_congr_left fun hopen => ⟨by omega, fun hle => ?_⟩
      rcases Nat.eq_or_lt_of_le hle with rfl | hlt
      · exact absurd hopen hended
      · exact hlt
    cases item with
    | opener name parameters =>
      cases hclosing : closing? name 0 items with
      | some m =>
        refine ⟨places, hsorted, hskip ?_, by rwa [unclosed, hclosing]⟩
        rintro ⟨_, _, ⟨⟩, hnone⟩
        rw [hclosing] at hnone
        cases hnone
      | none =>
        have hopen := hhere.mpr ⟨name, parameters, rfl, hclosing⟩
        refine ⟨before.length :: places, .cons ?_ hsorted, ?_, ?_⟩
        · intro i hi
          exact ((hmem i).mp hi).1
        · intro i
          rw [List.mem_cons, hmem]
          constructor
          · rintro (rfl | ⟨hle, hi⟩)
            · exact ⟨Nat.le_refl _, hopen⟩
            · exact ⟨by omega, hi⟩
          · rintro ⟨hle, hi⟩
            exact (Nat.eq_or_lt_of_le hle).imp Eq.symm fun hlt => ⟨hlt, hi⟩
        · rw [unclosed, hclosing]
          exact .cons ⟨parameters, hitem⟩ hnames
    | place name parameters => exact ⟨places, hsorted, hskip (by simp), hnames⟩
    | closer name => exact ⟨places, hsorted, hskip (by simp), hnames⟩
    | closeAll => exact ⟨places, hsorted, hskip (by simp), hnames⟩

/-- Names are those of the openers that nothing ends, in the order in which they open. -/
def LeftOpen (items : List Item) (names : List String) : Prop :=
  ∃ places : List Nat, places.Pairwise (· < ·) ∧
    (∀ i, i ∈ places ↔ ∃ name, StillOpen items name i items.length) ∧
    List.Forall₂ (fun i name => ∃ parameters, items[i]? = some (.opener name parameters))
      places names

theorem leftOpen_unclosed (items : List Item) : LeftOpen items (unclosed items) := by
  simpa [LeftOpen] using exists_unclosed [] items

/-- The number of spans that begin before item `i`. -/
def rank (items : List Item) (i : Nat) : Nat := (items.take i).countP Item.begins

theorem rank_zero (items : List Item) : rank items 0 = 0 := rfl

theorem rank_succ (item : Item) (items : List Item) (i : Nat) :
    rank (item :: items) (i + 1) = rank items i + if item.begins then 1 else 0 := by
  rw [rank, List.take_succ_cons, List.countP_cons, rank]

end Markup

/-! ## The spans under construction -/

/-- Span `r`, in the order in which they begin, is open. -/
def Drafting.OpenAt (d : Drafting) (r : Nat) : Prop :=
  ∃ draft, d.drafts.reverse[r]? = some draft ∧ draft.isOpen = true

/-- Among the spans that items begin, those are open whose openers nothing ends. -/
theorem draftsOf_open (b : Body) (found : List Found) (r : Nat) :
    (∃ draft, (draftsOf b found)[r]? = some draft ∧ draft.isOpen = true) ↔
      ∃ i name, r = rank (found.map Found.item) i ∧
        (∃ parameters, (found.map Found.item)[i]? = some (.opener name parameters)) ∧
        closing? name 0 ((found.map Found.item).drop (i + 1)) = none := by
  induction found generalizing b r with
  | nil => simp [draftsOf]
  | cons f found ih =>
    rw [← Nat.or_exists_add_one]
    simp only [List.map_cons, rank_zero, rank_succ, List.getElem?_cons_zero, Option.some.injEq,
      Nat.zero_add, List.drop_succ_cons, List.drop_zero, List.getElem?_cons_succ]
    have hrest := ih (b.write f.before)
    cases hf : f.item with
    | opener name parameters =>
      cases r with
      | zero => simp [draftsOf, hf, Item.begins, Draft.isOpen, Ends.ofItems]
      | succ r => simp [draftsOf, hf, Item.begins, hrest]
    | place name parameters =>
      cases r with
      | zero => simp [draftsOf, hf, Item.begins, Draft.isOpen]
      | succ r => simp [draftsOf, hf, Item.begins, hrest]
    | closer name => simp [draftsOf, hf, Item.begins, hrest]
    | closeAll => simp [draftsOf, hf, Item.begins, hrest]

namespace Drafting

variable {found : List Found}

/-- **Which spans are open after some items**: those that nothing of their own name has ended, and
nothing that closes all spans. -/
theorem run_openAt {k : Nat} {d : Drafting} (h : (found.take k).foldlM step .start = .ok d)
    (r : Nat) : d.OpenAt r ↔ ∃ i name, r = rank (found.map Found.item) i ∧
      StillOpen (found.map Found.item) name i k := by
  have hdrafts : d.drafts.reverse = draftsOf Body.start (found.take k) := by
    rw [(run_drafts h).2]
    simp [start, Drafts.settle]
  rw [OpenAt, hdrafts, draftsOf_open, List.map_take]
  refine exists_congr fun i => exists_congr fun name => ?_
  rw [stillOpen_iff, List.getElem?_take]
  by_cases hik : i < k
  · simp only [hik, if_true, true_and, rank, List.take_take, Nat.min_eq_left (Nat.le_of_lt hik)]
    rfl
  · simp [hik]

/-- **A closer ends the span of the opener that it matches**, and no other. -/
theorem step_closer {k : Nat} {d next : Drafting} {name : String}
    (h : (found.take k).foldlM step .start = .ok d)
    (h' : (found.take (k + 1)).foldlM step .start = .ok next)
    (hitem : (found.map Found.item)[k]? = some (.closer name)) :
    ∃ i, Matches (found.map Found.item) name i k ∧ d.OpenAt (rank (found.map Found.item) i) ∧
      next.drafts.reverse = d.drafts.reverse.modify (rank (found.map Found.item) i) fun draft =>
        draft.close next.body.size := by
  obtain ⟨f, hf, hfitem⟩ : ∃ f, found[k]? = some f ∧ f.item = .closer name := by
    simpa using hitem
  obtain ⟨d', hd', hstep⟩ : ∃ d', (found.take k).foldlM step .start = .ok d' ∧
      d'.step f = .ok next := by
    rw [List.take_add_one, hf] at h'
    exact run_concat.mp h'
  cases h.symm.trans hd'
  simp only [step, hfitem] at hstep
  split at hstep
  · next drafts hc =>
    cases hstep
    obtain ⟨newer, draft, older, hold, hnew, hopen, -⟩ := Drafts.exists_of_close? hc
    have hwas : d.OpenAt older.length := ⟨draft, by simp [hold], hopen⟩
    have hgone : ¬ OpenAt ⟨d.body.write f.before, drafts⟩ older.length := by
      rintro ⟨draft', hdraft', hopen'⟩
      obtain rfl : draft.close (d.body.write f.before).size = draft' := by
        simpa [hnew] using hdraft'
      simp [Draft.isOpen, Draft.close] at hopen'
    obtain ⟨i, other, hrank, hstill⟩ := (run_openAt h older.length).mp hwas
    rw [run_openAt h'] at hgone
    have hmatches : Matches (found.map Found.item) other i k := by
      by_contra hnone
      refine hgone ⟨i, other, hrank, by have := hstill.lt; omega, hstill.opener, ?_, ?_⟩
      · intro j hij hj
        rcases Nat.lt_succ_iff_lt_or_eq.mp hj with hlt | rfl
        · exact hstill.not_closeAll j hij hlt
        · simp [hitem]
      · intro j hj
        rcases Nat.lt_succ_iff_lt_or_eq.mp hj with hlt | rfl
        · exact hstill.not_matches j hlt
        · exact hnone
    obtain rfl : other = name := by simpa using hmatches.closer.symm.trans hitem
    refine ⟨i, hmatches, hrank ▸ hwas, ?_⟩
    rw [← hrank]
    simp [hold, hnew, List.modify_eq_take_drop]
  · cases hstep

/-- What closes all spans ends the open ones. -/
theorem step_closeAll {k : Nat} {d next : Drafting}
    (h : (found.take k).foldlM step .start = .ok d)
    (h' : (found.take (k + 1)).foldlM step .start = .ok next)
    (hitem : (found.map Found.item)[k]? = some .closeAll) :
    next.drafts = d.drafts.map fun draft => draft.close next.body.size := by
  obtain ⟨f, hf, hfitem⟩ : ∃ f, found[k]? = some f ∧ f.item = .closeAll := by
    simpa using hitem
  rw [List.take_add_one, hf] at h'
  obtain ⟨d', hd', hstep⟩ := run_concat.mp h'
  cases h.symm.trans hd'
  simp only [step, hfitem] at hstep
  cases hstep
  rfl

/-- What the last item of a run ends: a closer the span of the opener that it matches, and an item
that closes all spans the ones that are open. -/
structure Pairs (items : List Item) (k : Nat) (d next : Drafting) : Prop where
  closer : ∀ name, items[k]? = some (.closer name) →
    ∃ i, Matches items name i k ∧ (∀ other, Matches items name other k → other = i) ∧
      d.OpenAt (rank items i) ∧
      next.drafts.reverse = d.drafts.reverse.modify (rank items i) fun draft =>
        draft.close next.body.size
  closeAll : items[k]? = some .closeAll →
    next.drafts = d.drafts.map fun draft => draft.close next.body.size

theorem run_pairs {k : Nat} {d next : Drafting}
    (h : (found.take k).foldlM step .start = .ok d)
    (h' : (found.take (k + 1)).foldlM step .start = .ok next) :
    Pairs (found.map Found.item) k d next where
  closer := by
    intro name hitem
    obtain ⟨i, hmatches, hopen, hnext⟩ := step_closer h h' hitem
    exact ⟨i, hmatches, fun other hother => hother.unique hmatches, hopen, hnext⟩
  closeAll := step_closeAll h h'

end Drafting

/-! ## The outcomes of a reading -/

/-- The outcomes of a reading, by counting each name alone. -/
inductive Dialog.Outcome (content : List Char) : Prop
  | overdrawn {k : Nat} {name : String} (negative : Overdrawn (items content) k name)
      (first : ∀ j < k, ∀ other, ¬ Overdrawn (items content) j other)
      (result : read content = .error ⟨String.ofList content, .unmatchedCloser name⟩)
  | left {names : List String} (covered : ∀ k name, ¬ Overdrawn (items content) k name)
      (deep : ∃ name, 0 < depth name (items content)) (left : LeftOpen (items content) names)
      (result : read content = .error ⟨String.ofList content, .unterminated names⟩)
  | read {dialog : Dialog} {d : Drafting} (covered : ∀ k name, ¬ Overdrawn (items content) k name)
      (flat : ∀ name, depth name (items content) = 0)
      (run : (scan content).1.foldlM Drafting.step .start = .ok d)
      (result : read content = .ok dialog) (spans : dialog.spans = d.drafts.reverse.map Draft.span)

/--
**Markup of different names does not interact.**  A reading fails at the first closer that makes the
depth of its name negative; if there is none, it fails with the names of the openers that are never
closed, in order, if a depth is positive at the end, and succeeds otherwise.  As far as it comes,
the open spans are those whose own name leaves them open, each closer ends the span of the opener
that it matches among the items of its name, and what closes all spans ends those that are open.
-/
theorem Dialog.read_pairing (content : List Char) :
    Outcome content ∧
      ∀ k d, ((scan content).1.take k).foldlM Drafting.step .start = .ok d →
        (∀ r, d.OpenAt r ↔ ∃ i name, r = rank (items content) i ∧
          StillOpen (items content) name i k) ∧
        ∀ next, ((scan content).1.take (k + 1)).foldlM Drafting.step .start = .ok next →
          Drafting.Pairs (items content) k d next := by
  refine ⟨?_, fun k d h => ⟨Drafting.run_openAt h, fun next h' => Drafting.run_pairs h h'⟩⟩
  rcases Drafting.run_depths (scan content).1 with
    ⟨⟨d, hrun⟩, hcovered⟩ | ⟨k, name, hover, hfirst, hrun⟩
  · have hnames := Drafting.openNames_eq hrun
    have hcount := Drafting.run_count hrun
    by_cases hopen : d.openNames = []
    · have hread : read content = .ok ⟨(d.body.write (scan content).2).text,
          d.drafts.reverse.map Draft.span, String.ofList content⟩ := by
        simp only [read, hrun, hopen, List.isEmpty_nil, if_true]
      refine .read hcovered ?_ hrun hread rfl
      intro name
      rw [items, ← hcount, hopen]
      rfl
    · obtain ⟨name, hname⟩ := List.exists_mem_of_ne_nil _ hopen
      have hread : read content = .error ⟨String.ofList content, .unterminated d.openNames⟩ := by
        simp only [read, hrun, List.isEmpty_iff, hopen, if_false]
      refine .left hcovered ⟨name, ?_⟩ (hnames ▸ leftOpen_unclosed _) hread
      have hpos := List.count_pos_iff.mpr hname
      rw [items, ← hcount]
      omega
  · exact .overdrawn hover hfirst (by simp only [read, hrun])

end Parley
