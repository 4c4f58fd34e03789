import Mathlib.Data.Finset.Card
import Mathlib.Data.List.Forall2
import Mathlib.Data.List.Induction

/-!
# Lists

What the development needs to know of lists in general, and the library does not say.

* `mapM_eq_ok_iff`, `mapM_stops` — a list of results is one of values, or its first error.
* `splitOnP_parts`, `splitOnP_map`, `splitOnP_filter` — the parts of a split, and splitting a list
  that was changed before.
* `Passes` and `Stops` — all members of a list pass, or there is a first one that does not.
-/

namespace Parley

section

variable {α β : Type}

/-! ## Lists side by side -/

theorem exists_of_mem_forall₂ {R : α → β → Prop} {xs : List α} {ys : List β}
    (h : List.Forall₂ R xs ys) : ∀ y ∈ ys, ∃ x ∈ xs, R x y := by
  induction h with
  | nil => simp
  | @cons x y xs ys hxy _ ih =>
    refine List.forall_mem_cons.mpr ⟨⟨x, List.mem_cons_self, hxy⟩, ?_⟩
    intro other hother
    obtain ⟨same, hsame, hr⟩ := ih other hother
    exact ⟨same, List.mem_cons_of_mem _ hsame, hr⟩

theorem forall₂_iff_getElem? {R : α → β → Prop} {xs : List α} {ys : List β} :
    List.Forall₂ R xs ys ↔ ∀ i : Nat, Option.Rel R xs[i]? ys[i]? := by
  constructor
  · intro h
    induction h with
    | nil => exact fun i => .none
    | cons hxy _ ih =>
      intro i
      cases i with
      | zero => exact .some hxy
      | succ i => exact ih i
  · intro h
    induction xs generalizing ys with
    | nil =>
      cases ys with
      | nil => exact .nil
      | cons y ys => cases h 0
    | cons x xs ih =>
      cases ys with
      | nil => cases h 0
      | cons y ys =>
        refine .cons ?_ (ih fun i => h (i + 1))
        cases h 0 with
        | some hxy => exact hxy

/-- What is gathered for the members of a list, last one first, has a first one. -/
theorem exists_cons_reverse {done : List α} {xs : List β} (hlength : done.length = xs.length)
    (hne : xs ≠ []) : ∃ first others, done.reverse = first :: others := by
  apply List.exists_cons_of_ne_nil
  rw [ne_eq, List.reverse_eq_nil_iff, ← List.length_eq_zero_iff, hlength, List.length_eq_zero_iff]
  exact hne

/-! ## Lists of results -/

variable {ε : Type} {f : α → Except ε β}

theorem mapM_eq_ok_iff {xs : List α} {ys : List β} :
    xs.mapM f = .ok ys ↔ List.Forall₂ (fun y x => f x = .ok y) ys xs := by
  constructor
  · intro h
    induction xs generalizing ys with
    | nil =>
      rw [List.mapM_nil] at h
      cases h
      exact .nil
    | cons x xs ih =>
      rw [List.mapM_cons] at h
      cases hx : f x with
      | error e => rw [hx] at h; cases h
      | ok y =>
        cases hxs : xs.mapM f with
        | error e => rw [hx, hxs] at h; cases h
        | ok zs =>
          rw [hx, hxs] at h
          cases h
          exact .cons hx (ih hxs)
  · intro h
    induction h with
    | nil => rfl
    | cons hx _ ih =>
      rw [List.mapM_cons, hx, ih]
      rfl

theorem exists_mapM {xs : List α} (h : ∀ x ∈ xs, ∃ y, f x = .ok y) : ∃ ys, xs.mapM f = .ok ys := by
  induction xs with
  | nil => exact ⟨[], rfl⟩
  | cons x xs ih =>
    obtain ⟨⟨y, hy⟩, hxs⟩ := List.forall_mem_cons.mp h
    obtain ⟨ys, hys⟩ := ih hxs
    exact ⟨y :: ys, by rw [List.mapM_cons, hy, hys]; rfl⟩

theorem mapM_stops {xs before : List α} {x : α} {e : ε} (h : before ++ [x] <+: xs)
    (hbefore : ∀ x ∈ before, ∃ y, f x = .ok y) (hx : f x = .error e) : xs.mapM f = .error e := by
  obtain ⟨after, rfl⟩ := h
  obtain ⟨ys, hys⟩ := exists_mapM hbefore
  rw [List.append_assoc, List.mapM_append, hys, List.singleton_append, List.mapM_cons, hx]
  rfl

/-! ## Splitting -/

/-- The parts of a split stand in the list one after the other, and hold no separator. -/
theorem splitOnP_parts (p : α → Bool) (xs : List α) :
    ∃ first others, xs.splitOnP p = first :: others ∧ first <+: xs ∧
      (∀ part ∈ others, part <:+: xs) ∧ ∀ part ∈ first :: others, ∀ x ∈ part, p x = false := by
  induction xs with
  | nil => exact ⟨[], [], rfl, by simp, by simp, by simp⟩
  | cons x xs ih =>
    obtain ⟨first, others, he, hf, ho, hp⟩ := ih
    have hx : xs <:+: x :: xs := List.infix_cons (List.infix_refl xs)
    rw [List.splitOnP_cons_eq_if_modifyHead, he]
    by_cases h : p x = true
    · rw [if_pos h]
      refine ⟨[], first :: others, rfl, List.nil_prefix, ?_, ?_⟩
      · exact List.forall_mem_cons.mpr
          ⟨hf.isInfix.trans hx, fun part hm => (ho part hm).trans hx⟩
      · exact List.forall_mem_cons.mpr ⟨by simp, hp⟩
    · rw [if_neg h]
      refine ⟨x :: first, others, rfl, (List.prefix_cons_inj x).mpr hf,
        fun part hm => (ho part hm).trans hx, ?_⟩
      rw [List.forall_mem_cons] at hp ⊢
      exact ⟨List.forall_mem_cons.mpr ⟨by simpa using h, hp.1⟩, hp.2⟩

theorem splitOnP_map (f : α → β) (p : β → Bool) (xs : List α) :
    (xs.map f).splitOnP p = (xs.splitOnP fun x => p (f x)).map (List.map f) := by
  induction xs with
  | nil => rfl
  | cons x xs ih =>
    rw [List.map_cons, List.splitOnP_cons_eq_if_modifyHead, List.splitOnP_cons_eq_if_modifyHead, ih]
    split
    · rfl
    · cases xs.splitOnP fun x => p (f x) <;> simp

/-- Splitting a list at separators that are kept, and dropping other members, can be done in either
order. -/
theorem splitOnP_filter {p q : α → Bool} (h : ∀ x, p x = true → q x = true) (xs : List α) :
    (xs.splitOnP p).map (List.filter q) = (xs.filter q).splitOnP p := by
  induction xs with
  | nil => rfl
  | cons x xs ih =>
    rw [List.splitOnP_cons_eq_if_modifyHead]
    by_cases hp : p x = true
    · rw [if_pos hp, List.filter_cons_of_pos (h x hp), List.splitOnP_cons_eq_if_modifyHead,
        if_pos hp, ← ih]
      rfl
    · rw [if_neg hp]
      by_cases hq : q x = true
      · rw [List.filter_cons_of_pos hq, List.splitOnP_cons_eq_if_modifyHead, if_neg hp, ← ih]
        cases xs.splitOnP p <;> simp [hq]
      · rw [List.filter_cons_of_neg hq, ← ih]
        cases xs.splitOnP p <;> simp [hq]

/-! ## Places -/

theorem infix_zipIdx {part : List (α × Nat)} {xs : List α} {n : Nat} (h : part <:+: xs.zipIdx n) :
    ∃ ys k, part = ys.zipIdx k ∧ ys <:+: xs := by
  obtain ⟨before, after, he⟩ := h
  obtain ⟨front, back, rfl, hfront, -⟩ := List.zipIdx_eq_append_iff.mp he.symm
  obtain ⟨skipped, ys, rfl, -, hpart⟩ := List.zipIdx_eq_append_iff.mp hfront.symm
  exact ⟨ys, _, hpart, ⟨skipped, back, rfl⟩⟩

/-- What is made of keys and places is the same for things with the same keys. -/
theorem mapIdx_of_map {κ : Type} {key : α → κ} {xs ys : List α} (f : Nat → κ → β)
    (h : ys.map key = xs.map key) :
    (ys.mapIdx fun i y => f i (key y)) = xs.mapIdx fun i x => f i (key x) := by
  have hkeys : ∀ zs : List α, (zs.mapIdx fun i z => f i (key z)) = (zs.map key).mapIdx f := by
    intro zs
    apply List.ext_getElem?
    intro i
    simp [Function.comp_def]
  rw [hkeys, hkeys, h]

/-! ## Different members -/

theorem eraseDups_concat [BEq α] [LawfulBEq α] (xs : List α) (x : α) :
    (xs ++ [x]).eraseDups = if xs.elem x then xs.eraseDups else xs.eraseDups ++ [x] := by
  rw [List.eraseDups_append, List.removeAll, List.filter_singleton]
  cases xs.elem x with
  | true => simp
  | false => rfl

theorem length_dedup_concat [DecidableEq α] (xs : List α) (x : α) :
    (xs ++ [x]).dedup.length = xs.dedup.length + if x ∈ xs then 0 else 1 := by
  rw [← List.card_toFinset, ← List.card_toFinset, List.toFinset_append]
  have hinsert : xs.toFinset ∪ [x].toFinset = insert x xs.toFinset := by
    rw [Finset.union_comm]
    rfl
  rw [hinsert, Finset.card_insert_eq_ite]
  simp only [List.mem_toFinset]
  split <;> rfl

end

/-! ## The first member that does not pass -/

section

variable {α : Type} {fine : List α → α → Prop} {xs before : List α} {x : α}

/-- Every member of a list is fine behind the members before it. -/
def Passes (fine : List α → α → Prop) (xs : List α) : Prop :=
  ∀ before x, before ++ [x] <+: xs → fine before x

/-- The member `x` is the first one that is not fine behind the members before it. -/
structure Stops (fine : List α → α → Prop) (xs before : List α) (x : α) : Prop where
  place : before ++ [x] <+: xs
  passed : Passes fine before
  bad : ¬ fine before x

theorem passes_nil : Passes fine [] := by
  intro before x h
  have := List.prefix_nil.mp h
  simp at this

theorem passes_concat : Passes fine (xs ++ [x]) ↔ Passes fine xs ∧ fine xs x := by
  constructor
  · intro h
    exact ⟨fun before y hy => h before y (hy.trans (List.prefix_append _ _)),
      h xs x (List.prefix_refl _)⟩
  · rintro ⟨hxs, hx⟩ before y hy
    rcases List.prefix_concat_iff.mp hy with he | hy
    · obtain ⟨rfl, hyx⟩ := List.append_inj' he rfl
      cases hyx
      exact hx
    · exact hxs before y hy

theorem passes_iff_forall {p : α → Prop} : Passes (fun _ => p) xs ↔ ∀ x ∈ xs, p x := by
  induction xs using List.reverseRecOn with
  | nil => simp [passes_nil]
  | append_singleton xs x ih => simp [passes_concat, ih, or_imp, forall_and]

theorem passes_append {ys : List α} :
    Passes fine (xs ++ ys) ↔ Passes fine xs ∧ Passes (fun told y => fine (xs ++ told) y) ys := by
  induction ys using List.reverseRecOn with
  | nil => simp [passes_nil]
  | append_singleton ys y ih =>
    rw [← List.append_assoc, passes_concat, passes_concat, ih, and_assoc]

theorem passes_map {β : Type} {f : β → α} {ys : List β} :
    Passes fine (ys.map f) ↔ Passes (fun told y => fine (told.map f) (f y)) ys := by
  induction ys using List.reverseRecOn with
  | nil => simp [passes_nil]
  | append_singleton ys y ih =>
    rw [List.map_append, List.map_singleton, passes_concat, passes_concat, ih]

theorem Passes.imp {other : List α → α → Prop} (h : Passes fine xs)
    (himp : ∀ before x, fine before x → other before x) : Passes other xs :=
  fun before x hx => himp before x (h before x hx)

/-- **All members of a list pass, or there is a first one that does not.** -/
theorem passes_or_stops (fine : List α → α → Prop) (xs : List α) :
    Passes fine xs ∨ ∃ before x, Stops fine xs before x := by
  induction xs using List.reverseRecOn with
  | nil => exact .inl passes_nil
  | append_singleton xs x ih =>
    rcases ih with hxs | ⟨before, y, hstop⟩
    · by_cases hx : fine xs x
      · exact .inl (passes_concat.mpr ⟨hxs, hx⟩)
      · exact .inr ⟨xs, x, List.prefix_refl _, hxs, hx⟩
    · exact .inr ⟨before, y, hstop.place.trans (List.prefix_append _ _), hstop.passed, hstop.bad⟩

end

end Parley
