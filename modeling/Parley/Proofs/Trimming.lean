import Mathlib.Data.List.DropRight
import Mathlib.Data.List.TakeWhile
import Parley.Text.Blank

/-!
# Texts and the blanks around them

Trimming at the start drops a prefix of blanks and trimming at the end is the same from the other
side, which is `List.rdropWhile`.  So what the library knows of the two is known of trimming.  Here
it is said of texts, and of a text with another one behind it.

* `trim_eq_nil_iff` — trimming leaves nothing exactly of a text without a visible character.
* `trim_append_of_blank` — it does not matter what blanks stand behind a text.
* `trimStart_append_of_visible`, `margin_append_of_visible` — what stands behind a visible character
  does not matter at the start.
-/

namespace Parley.Text

variable {cs ds ws : List Char}

/-! ## Blanks alone -/

theorem trimStart_eq_nil_iff : trimStart cs = [] ↔ allBlank cs = true :=
  List.dropWhile_eq_nil_iff.trans List.all_eq_true.symm

theorem trimEnd_eq_nil_iff : trimEnd cs = [] ↔ allBlank cs = true :=
  List.rdropWhile_eq_nil_iff.trans List.all_eq_true.symm

theorem trim_eq_nil_iff : trim cs = [] ↔ allBlank cs = true := by
  have hagain : trimStart (trimStart cs) = trimStart cs := List.dropWhile_idempotent isBlank cs
  rw [trim, trimEnd_eq_nil_iff, ← trimStart_eq_nil_iff, hagain, trimStart_eq_nil_iff]

/-! ## A text in front of another one -/

theorem trimStart_append_of_blank (cs : List Char) (h : allBlank ws = true) :
    trimStart (ws ++ cs) = trimStart cs :=
  List.dropWhile_append_of_pos (List.all_eq_true.mp h)

theorem trimStart_append (h : trimStart ds = ds) (cs : List Char) :
    trimStart (cs ++ ds) = trimStart cs ++ ds := by
  rw [trimStart, List.dropWhile_append]
  split
  · next hnone =>
    rw [trimStart, List.isEmpty_iff.mp hnone]
    exact h
  · rfl

theorem trimStart_append_of_visible (h : allBlank cs = false) (ds : List Char) :
    trimStart (cs ++ ds) = trimStart cs ++ ds := by
  have hsome : trimStart cs ≠ [] := by
    rw [Ne, trimStart_eq_nil_iff, h]
    decide
  rw [trimStart, List.dropWhile_append, if_neg (by simpa [trimStart] using hsome)]
  rfl

theorem margin_append_of_visible (h : allBlank cs = false) (ds : List Char) :
    margin (cs ++ ds) = margin cs := by
  rw [margin, List.takeWhile_append, if_neg, margin]
  intro hlength
  have hall := (List.takeWhile_prefix isBlank).eq_of_length hlength
  rw [List.takeWhile_eq_self_iff, ← List.all_eq_true, ← allBlank, h] at hall
  cases hall

/-! ## A text behind another one -/

theorem trimEnd_prefix (cs : List Char) : trimEnd cs <+: cs := List.rdropWhile_prefix isBlank cs

theorem trimEnd_concat_of_not_blank {c : Char} (h : isBlank c = false) (cs : List Char) :
    trimEnd (cs ++ [c]) = cs ++ [c] :=
  List.rdropWhile_concat_neg isBlank cs c (by simp [h])

theorem trimEnd_append (h : trimEnd cs = cs) (ds : List Char) :
    trimEnd (cs ++ ds) = cs ++ trimEnd ds := by
  have hr : trimStart cs.reverse = cs.reverse := by
    rw [← List.reverse_reverse (trimStart cs.reverse)]
    exact congrArg List.reverse h
  show (trimStart (cs ++ ds).reverse).reverse = _
  rw [List.reverse_append, trimStart_append hr, List.reverse_append, List.reverse_reverse]
  rfl

theorem exists_trimEnd_append (cs : List Char) :
    ∃ ws, allBlank ws = true ∧ cs = trimEnd cs ++ ws := by
  refine ⟨(cs.reverse.takeWhile isBlank).reverse, ?_, ?_⟩
  · rw [allBlank, List.all_reverse]
    exact List.all_takeWhile
  · rw [trimEnd, ← List.reverse_append, List.takeWhile_append_dropWhile, List.reverse_reverse]

theorem trimEnd_append_of_blank (cs : List Char) (h : allBlank ws = true) :
    trimEnd (cs ++ ws) = trimEnd cs := by
  have hr : allBlank ws.reverse = true := by rwa [allBlank, List.all_reverse]
  have hstart := trimStart_append_of_blank cs.reverse hr
  unfold trimStart at hstart
  rw [trimEnd, List.reverse_append, hstart, trimEnd]

theorem trim_append_of_blank (cs : List Char) (h : allBlank ws = true) :
    trim (cs ++ ws) = trim cs := by
  by_cases hcs : allBlank cs = true
  · have hall : allBlank (cs ++ ws) = true := by
      rw [allBlank, List.all_append, Bool.and_eq_true]
      exact ⟨hcs, h⟩
    rw [trim_eq_nil_iff.mpr hall, trim_eq_nil_iff.mpr hcs]
  · rw [trim, trimStart_append_of_visible (by simpa using hcs), trimEnd_append_of_blank _ h, trim]

end Parley.Text
