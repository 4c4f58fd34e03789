import Mathlib.Data.List.Induction
import Parley.Proofs.Links

/-!
# Which lines offer options

An option tells the line before it that options follow, and that line is marked with a tag.  Which
lines are marked depends on the indentations and the arrows of the lines before the option
(`Offers`): the line before it has to stand on the nearest lower level that was ever seen, or, where
no lower level was seen, on the level of the option itself without being an option.

* `Offers.next_place` — a line that offers options has the first of them as its first child or its
  next sibling.
* `Offers.not_inside` — in a row of options on one level only the last one can offer options.
* `Placed.endsWith_iff` — the table of latest lines decides whether a line offers options.
* `marked_ofLines` — the lines that offer options get the tag, and no tag else changes.
-/

namespace Parley

/-- The tag on the last line before a set of options. -/
def Tag.lastLine : Tag := .of lastLineKey none

/--
In a row of indentations and arrows, an option stands behind place `i`, and place `i` is on the
greatest level so far below that option; or no level so far is below that option, and place `i` is
on its level and no option.
-/
def Offers (depth : Nat → Nat) (option : Nat → Bool) (i : Nat) : Prop :=
  option (i + 1) = true ∧
    ((depth i < depth (i + 1) ∧ ∀ k ≤ i, depth k < depth (i + 1) → depth k ≤ depth i) ∨
      ((∀ k ≤ i, depth (i + 1) ≤ depth k) ∧ depth i = depth (i + 1) ∧ option i = false))

instance (depth : Nat → Nat) (option : Nat → Bool) (i : Nat) : Decidable (Offers depth option i) :=
  inferInstanceAs (Decidable (option (i + 1) = true ∧
    ((depth i < depth (i + 1) ∧ ∀ k ≤ i, depth k < depth (i + 1) → depth k ≤ depth i) ∨
      ((∀ k ≤ i, depth (i + 1) ≤ depth k) ∧ depth i = depth (i + 1) ∧ option i = false))))

namespace Offers

variable {depth depth' : Nat → Nat} {option option' : Nat → Bool} {i : Nat}

theorem congr (hd : ∀ k ≤ i + 1, depth' k = depth k) (ho : ∀ k ≤ i + 1, option' k = option k) :
    Offers depth' option' i ↔ Offers depth option i := by
  have hlevels : ∀ p : Nat → Nat → Prop,
      (∀ k ≤ i, p (depth' k) (depth' (i + 1))) ↔ ∀ k ≤ i, p (depth k) (depth (i + 1)) := by
    intro p
    rw [hd (i + 1) (Nat.le_refl _)]
    constructor
    · intro h k hk
      rw [← hd k (by omega)]
      exact h k hk
    · intro h k hk
      rw [hd k (by omega)]
      exact h k hk
  unfold Offers
  rw [ho (i + 1) (Nat.le_refl _), ho i (by omega), hd i (by omega),
    hlevels fun a b => a < b → a ≤ depth i, hlevels fun a b => b ≤ a, hd (i + 1) (Nat.le_refl _)]

/-- **The option that a line offers** is the next line and indented further, or it continues the
level of that line. -/
theorem next_place (h : Offers depth option i) :
    depth i < depth (i + 1) ∨ Continues depth i (i + 1) := by
  rcases h.2 with ⟨hlt, -⟩ | ⟨-, hd, -⟩
  · exact .inl hlt
  · exact .inr ⟨by omega, hd.symm, fun k hik hki => by omega, by simp [hd]⟩

/-- **In a row of options on one level**, whatever the levels before it, no option but the last one
offers options. -/
theorem not_inside {a b : Nat} (hrow : ∀ k, a ≤ k → k ≤ b → option k = true ∧ depth k = depth a)
    (hai : a ≤ i) (hib : i < b) : ¬ Offers depth option i := by
  obtain ⟨hoption, hi⟩ := hrow i hai (by omega)
  have hnext := (hrow (i + 1) (by omega) (by omega)).2
  rintro ⟨-, ⟨hlt, -⟩ | ⟨-, -, hplain⟩⟩
  · omega
  · rw [hoption] at hplain
    cases hplain

end Offers

namespace Outline

/-- Whether the line at a place is an option. -/
def optionAt (lines : List Line) (i : Nat) : Bool := (lines[i]?.map Line.isOption).getD false

theorem optionAt_append_left (lines more : List Line) {i : Nat} (h : i < lines.length) :
    optionAt (lines ++ more) i = optionAt lines i := by
  simp [optionAt, List.getElem?_append_left h]

theorem optionAt_concat (lines : List Line) (line : Line) :
    optionAt (lines ++ [line]) lines.length = line.isOption := by
  simp [optionAt]

theorem optionAt_of_length_le {lines : List Line} {i : Nat} (h : lines.length ≤ i) :
    optionAt lines i = false := by
  simp [optionAt, List.getElem?_eq_none h]

theorem optionAt_map_bare {lines lines' : List Line}
    (h : lines'.map Line.bare = lines.map Line.bare) : optionAt lines' = optionAt lines := by
  funext i
  have hi := congrArg (fun ls : List Line => (ls[i]?.map Line.isOption).getD false) h
  simpa [optionAt, List.getElem?_map, Option.map_map, Function.comp_def, Line.bare] using hi

/-- The line at a place offers options. -/
abbrev OffersAt (lines : List Line) (i : Nat) : Prop :=
  Offers (depthAt lines) (optionAt lines) i

theorem offersAt_append_iff {lines : List Line} (line : Line) {i : Nat}
    (hi : i + 1 < lines.length) : OffersAt (lines ++ [line]) i ↔ OffersAt lines i :=
  Offers.congr (fun _ hk => depthAt_append_left _ _ (by omega))
    (fun _ hk => optionAt_append_left _ _ (by omega))

theorem not_offersAt_last {lines : List Line} {i : Nat} (hi : lines.length ≤ i + 1) :
    ¬ OffersAt lines i := by
  intro h
  have := h.1
  rw [optionAt_of_length_le hi] at this
  cases this

/-! ## One step -/

namespace Placed

variable {ls : List Line} {o : Outline}

/-- The table has the levels that were seen. -/
theorem mem_latest (h : Placed ls o) {d : Nat} :
    d ∈ o.latest ↔ ∃ i < ls.length, depthAt ls i = d := by
  rw [Std.ExtTreeMap.mem_iff_isSome_getElem?, Option.isSome_iff_exists]
  constructor
  · rintro ⟨i, hi⟩
    obtain ⟨hil, hd, -⟩ := (h.latest d i).mp hi
    exact ⟨i, hil, hd⟩
  · rintro ⟨i, hil, hd⟩
    -- The latest of the places on the level is in the table.
    induction hrest : ls.length - i using Nat.strongRecOn generalizing i with
    | ind rest ih =>
      by_cases hlater : ∃ k, i < k ∧ k < ls.length ∧ depthAt ls k = d
      · obtain ⟨k, hik, hkl, hkd⟩ := hlater
        exact ih (ls.length - k) (by omega) k hkl hkd rfl
      · refine ⟨i, (h.latest d i).mpr ⟨hil, hd, ?_⟩⟩
        intro k hik hkl hkd
        exact hlater ⟨k, hik, hkl, hkd⟩

theorem mem_below (h : Placed ls o) {d m : Nat} :
    m ∈ o.latest.keys.filter (· < d) ↔ (∃ i < ls.length, depthAt ls i = m) ∧ m < d := by
  rw [List.mem_filter, Std.ExtTreeMap.mem_keys, h.mem_latest, decide_eq_true_eq]

theorem enclosing?_eq_some_iff (h : Placed ls o) {d m : Nat} :
    enclosing? o.latest d = some m ↔ ((∃ i < ls.length, depthAt ls i = m) ∧ m < d) ∧
      ∀ k < ls.length, depthAt ls k < d → depthAt ls k ≤ m := by
  rw [enclosing?, List.max?_eq_some_iff, h.mem_below]
  constructor
  · rintro ⟨hm, hmax⟩
    exact ⟨hm, fun k hk hkd => hmax _ (h.mem_below.mpr ⟨⟨k, hk, rfl⟩, hkd⟩)⟩
  · rintro ⟨hm, hmax⟩
    refine ⟨hm, fun m' hm' => ?_⟩
    obtain ⟨⟨k, hk, rfl⟩, hkd⟩ := h.mem_below.mp hm'
    exact hmax k hk hkd

theorem enclosing?_eq_none_iff (h : Placed ls o) {d : Nat} :
    enclosing? o.latest d = none ↔ ∀ k < ls.length, d ≤ depthAt ls k := by
  rw [enclosing?, List.max?_eq_none_iff, List.eq_nil_iff_forall_not_mem]
  constructor
  · intro hnone k hk
    rcases Nat.lt_or_ge (depthAt ls k) d with hlt | hge
    · exact absurd (h.mem_below.mpr ⟨⟨k, hk, rfl⟩, hlt⟩) (hnone _)
    · exact hge
  · intro hall m hm
    obtain ⟨⟨k, hk, rfl⟩, hkd⟩ := h.mem_below.mp hm
    have := hall k hk
    omega

theorem previous_isOption (h : Placed ls o) {previous : Line}
    (hp : o.lines.back? = some previous) :
    previous.isOption = optionAt ls (ls.length - 1) := by
  rw [← optionAt_map_bare h.bare, optionAt, Array.getElem?_toList, ← h.size_eq,
    ← Array.back?_eq_getElem?, hp]
  rfl

/-- **The table of latest lines tells** whether the line before a new one offers options. -/
theorem endsWith_iff (h : Placed ls o) {previous : Line} (hp : o.lines.back? = some previous)
    (line : Line) :
    endsWith o.latest previous line = true ↔ OffersAt (ls ++ [line]) (ls.length - 1) := by
  have hpos := h.length_pos hp
  have hlast : ls.length - 1 + 1 = ls.length := by omega
  have hbelow : ∀ p : Nat → Prop, (∀ k ≤ ls.length - 1, p (depthAt (ls ++ [line]) k)) ↔
      ∀ k < ls.length, p (depthAt ls k) := by
    intro p
    constructor
    · intro hall k hk
      rw [← depthAt_append_left ls [line] hk]
      exact hall k (by omega)
    · intro hall k hk
      rw [depthAt_append_left ls [line] (by omega)]
      exact hall k (by omega)
  unfold OffersAt Offers
  rw [hlast, optionAt_concat, depthAt_concat, depthAt_append_left _ _ (by omega),
    optionAt_append_left _ _ (by omega), ← h.previous_indent hp, ← h.previous_isOption hp,
    hbelow fun d => d < line.indent → d ≤ previous.indent, hbelow fun d => line.indent ≤ d,
    endsWith, Bool.and_eq_true]
  refine and_congr_right fun _ => ?_
  have hprevious : ∃ i < ls.length, depthAt ls i = previous.indent :=
    ⟨ls.length - 1, by omega, (h.previous_indent hp).symm⟩
  cases hm : enclosing? o.latest line.indent with
  | some m =>
    obtain ⟨⟨⟨i, hi, him⟩, hlt⟩, hmax⟩ := h.enclosing?_eq_some_iff.mp hm
    simp only [beq_iff_eq]
    constructor
    · rintro rfl
      exact .inl ⟨hlt, hmax⟩
    · rintro (⟨hprev, hgreatest⟩ | ⟨hlowest, -⟩)
      · have hle := hgreatest i hi (by omega)
        obtain ⟨k, hk, hkd⟩ := hprevious
        have := hmax k hk (by omega)
        omega
      · have := hlowest i hi
        omega
  | none =>
    have hlowest := h.enclosing?_eq_none_iff.mp hm
    simp only [Bool.and_eq_true, beq_iff_eq, Bool.not_eq_true']
    constructor
    · rintro ⟨hd, hplain⟩
      exact .inr ⟨hlowest, hd, hplain⟩
    · rintro (⟨hprev, -⟩ | ⟨-, hd, hplain⟩)
      · obtain ⟨k, hk, hkd⟩ := hprevious
        have := hlowest k hk
        omega
      · exact ⟨hd, hplain⟩

end Placed

/-! ## The whole pass -/

/-- The lines of an outline have their tags, and those that offer options the mark. -/
def Marked (ls : List Line) (o : Outline) : Prop :=
  ∀ i : Nat, o.lines[i]?.map Line.tags = ls[i]?.map fun line =>
    if OffersAt ls i then Tag.addTo line.tags .lastLine else line.tags

theorem tags_link {lines : Array Line} {previous : Line} (hp : lines.back? = some previous)
    (latest : Std.ExtTreeMap Nat Nat) (line : Line) (i : Nat) :
    (link lines latest line)[i]?.map Line.tags = (lines[i]?.map Line.tags).map fun tags =>
      if i + 1 = lines.size ∧ endsWith latest previous line = true
        then Tag.addTo tags .lastLine else tags := by
  rw [getElem?_link hp, Option.map_map, Option.map_map]
  rfl

/-- One line more: the line before it is marked if it offers options now. -/
theorem Marked.place {ls : List Line} {o : Outline} (h : Marked ls o) (hp : Placed ls o)
    (line : Line) : Marked (ls ++ [line]) (o.place line) := by
  intro i
  rw [hp.getElem?_place]
  by_cases hi : i = ls.length
  · subst hi
    rw [if_pos rfl, List.getElem?_concat_length, Option.map_some, Option.map_some,
      if_neg (not_offersAt_last (by simp))]
  · rw [if_neg hi]
    cases hb : o.lines.back? with
    | none =>
      have hnil := hp.eq_nil hb
      subst hnil
      have hout : ([] ++ [line])[i]? = none := by
        rw [List.getElem?_eq_none_iff]
        exact Nat.pos_of_ne_zero hi
      rw [link_of_back_none hb, h i, hout]
      rfl
    | some previous =>
      rw [tags_link hb, h i, hp.size_eq]
      rcases Nat.lt_or_ge i ls.length with hlt | hge
      · rw [List.getElem?_append_left hlt, Option.map_map]
        congr 1
        funext l
        by_cases hn : i + 1 = ls.length
        · have hlast : ls.length - 1 = i := by omega
          simp only [Function.comp_apply, hn, true_and, hp.endsWith_iff hb line, hlast,
            not_offersAt_last (Nat.le_of_eq hn.symm), if_false]
        · simp only [Function.comp_apply, hn, false_and, if_false,
            offersAt_append_iff line (show i + 1 < ls.length by omega)]
      · rw [List.getElem?_eq_none hge, List.getElem?_eq_none (by simp; omega)]
        rfl

/-- **Linking marks the lines that offer options**, and changes no other tag. -/
theorem marked_ofLines {lines : List Line} (h : ∀ line ∈ lines, line.Unlinked) :
    Marked lines (lines.foldl place empty) := by
  induction lines using List.reverseRecOn with
  | nil =>
    intro i
    simp [empty]
  | append_singleton ls line ih =>
    have hls : ∀ l ∈ ls, l.Unlinked := fun l hl => h l (List.mem_append_left _ hl)
    rw [List.foldl_append, List.foldl_cons, List.foldl_nil]
    exact (ih hls).place (placed_ofLines hls) line

end Outline

end Parley
