import Std.Data.ExtTreeMap

/-!
# Tables

A table gives each of finitely many names one entry.  Two tables are equal exactly if they give the
same entries; the order in which entries were made is not kept, and the last entry made under a name
counts.

Principal results: `ofList_toList` — a table is the table of its own pairs.
-/

namespace Parley

/-- Entries by name. -/
abbrev Table (α : Type) := Std.ExtTreeMap String α

namespace Table

variable {α : Type}

/-- The table of a list of pairs; a later pair replaces an earlier one of the same name. -/
def ofList (pairs : List (String × α)) : Table α := Std.ExtTreeMap.ofList pairs

theorem ofList_toList (table : Table α) : ofList table.toList = table := by
  apply Std.ExtTreeMap.ext_getElem?
  intro name
  cases h : table[name]? with
  | some entry =>
    exact Std.ExtTreeMap.getElem?_ofList_of_mem Std.ReflCmp.compare_self
      Std.ExtTreeMap.distinct_keys_toList
      (Std.ExtTreeMap.mem_toList_iff_getElem?_eq_some.mpr h)
  | none =>
    apply Std.ExtTreeMap.getElem?_ofList_of_contains_eq_false
    rw [Bool.eq_false_iff]
    intro hc
    rw [List.contains_iff_mem, List.mem_map] at hc
    obtain ⟨⟨key, entry⟩, hm, hk⟩ := hc
    have he := Std.ExtTreeMap.mem_toList_iff_getElem?_eq_some.mp hm
    simp only at hk
    rw [hk, h] at he
    cases he

end Table

end Parley
