import Parley.Proofs.Verdict

/-!
# When a minted id is taken

Authors may give their lines the ids that are minted for other lines: nothing keeps the two apart.
Minted ids are pairwise different, since the numbers in them go up from line to line.  So where
authors give pairwise different ids, two lines share an id exactly if one of them has a minted id
that is the own id of the other (`Line.Clash`).

* `mintedId_eq_iff` — two stems or two numbers give two ids.
* `Line.mintedBefore_lt` — a line without an id of its own raises the number for the lines behind.
* `Line.nodup_ids_iff_not_clash` — the ids of lines are different if the own ids are, and no minted
  id clashes with one of them.
* `Script.parseWith_clash` — then no document is refused for an id that is taken twice; and with a
  clash none is read.
-/

namespace Parley

/-! ## Minted ids -/

/-- The value of a hexadecimal digit. -/
def hexValue (c : Char) : Nat := if c.toNat < 0x3A then c.toNat - 0x30 else c.toNat - 0x57

/-- The number that hexadecimal digits stand for. -/
def readHex (cs : List Char) : Nat := cs.foldl (fun n c => 16 * n + hexValue c) 0

theorem hexValue_digitChar {d : Nat} (h : d < 16) : hexValue d.digitChar = d := by
  have hall : ∀ d : Fin 16, hexValue d.val.digitChar = d.val := by decide
  exact hall ⟨d, h⟩

theorem readHex_toDigits (n : Nat) : readHex (Nat.toDigits 16 n) = n := by
  induction n using Nat.strongRecOn with
  | ind n ih =>
    rw [Nat.toDigits_eq_if (by decide)]
    split
    · next hlt => simp [readHex, hexValue_digitChar hlt]
    · next hle =>
      have hrest := ih (n / 16) (by omega)
      unfold readHex at hrest ⊢
      rw [List.foldl_append, hrest, List.foldl_cons, List.foldl_nil,
        hexValue_digitChar (Nat.mod_lt n (by decide))]
      omega

theorem readHex_zeros (k : Nat) (cs : List Char) :
    readHex (List.replicate k '0' ++ cs) = readHex cs := by
  induction k with
  | zero => rfl
  | succ k ih => exact ih

theorem readHex_hexDigits (n : Nat) : readHex (hexDigits n) = n := by
  rw [hexDigits, readHex_zeros, readHex_toDigits]

theorem exists_digitChar_of_mem_toDigits {n : Nat} {c : Char} (h : c ∈ Nat.toDigits 16 n) :
    ∃ d : Fin 16, c = d.val.digitChar := by
  induction n using Nat.strongRecOn with
  | ind n ih =>
    rw [Nat.toDigits_eq_if (by decide)] at h
    split at h
    · next hlt => exact ⟨⟨n, hlt⟩, List.mem_singleton.mp h⟩
    · rcases List.mem_append.mp h with h | h
      · exact ih (n / 16) (by omega) h
      · exact ⟨⟨n % 16, Nat.mod_lt _ (by decide)⟩, List.mem_singleton.mp h⟩

theorem exists_digitChar_of_mem_hexDigits {n : Nat} {c : Char} (h : c ∈ hexDigits n) :
    ∃ d : Fin 16, c = d.val.digitChar := by
  rcases List.mem_append.mp h with h | h
  · exact ⟨0, List.eq_of_mem_replicate h⟩
  · exact exists_digitChar_of_mem_toDigits h

theorem underscore_notMem_hexDigits (n : Nat) : '_' ∉ hexDigits n := by
  intro h
  have hdigit : ∀ d : Fin 16, '_' ≠ d.val.digitChar := by decide
  obtain ⟨d, hd⟩ := exists_digitChar_of_mem_hexDigits h
  exact hdigit d hd

/-- Read from its end, a minted id shows its number up to the first underscore, and then its stem,
whatever the stem holds. -/
theorem cut?_reverse_mintedId (stem : String) (n : Nat) :
    Text.cut? '_' (mintedId stem n).toList.reverse =
      some ((hexDigits n).reverse, stem.toList.reverse) := by
  have hreverse : (mintedId stem n).toList.reverse =
      (hexDigits n).reverse ++ '_' :: stem.toList.reverse := by
    simp [mintedId]
  rw [hreverse]
  exact Text.cut?_append_self _ (by simpa using underscore_notMem_hexDigits n)

/-- **Ids are told apart** by their stems and by their numbers. -/
theorem mintedId_eq_iff {stem other : String} {m n : Nat} :
    mintedId stem m = mintedId other n ↔ stem = other ∧ m = n := by
  constructor
  · intro h
    have hcut := cut?_reverse_mintedId stem m
    rw [h, cut?_reverse_mintedId] at hcut
    obtain ⟨hdigits, hstem⟩ := Prod.mk.inj (Option.some.inj hcut)
    refine ⟨(String.toList_inj.mp (List.reverse_inj.mp hstem)).symm, ?_⟩
    rw [← readHex_hexDigits m, ← List.reverse_inj.mp hdigits, readHex_hexDigits]
  · rintro ⟨rfl, rfl⟩
    rfl

/-- **Different numbers give different ids.** -/
theorem mintedId_injective (stem : String) : Function.Injective (mintedId stem) :=
  fun _ _ h => (mintedId_eq_iff.mp h).2

namespace Line

variable {told before : List (List Char)} {content other : List Char} {id : String}

/-- The ids that lines give themselves. -/
def ownIds (told : List (List Char)) : List String := told.filterMap ownId?

/-- An id is the own id of a line, and also the id that is minted for a line without one. -/
def Clash (told : List (List Char)) (id : String) : Prop :=
  id ∈ ownIds told ∧
    ∃ before content, before ++ [content] <+: told ∧ ownId? content = none ∧
      idAfter before content = id

theorem Clash.mono {more : List (List Char)} (h : Clash told id) (hle : told <+: more) :
    Clash more id := by
  obtain ⟨hown, before, content, hplace, hminted⟩ := h
  exact ⟨(hle.filterMap ownId?).subset hown, before, content, hplace.trans hle, hminted⟩

theorem mem_ids_iff {told : List (List Char)} {id : String} :
    id ∈ ids told ↔
      ∃ before content, before ++ [content] <+: told ∧ idAfter before content = id := by
  induction told using List.reverseRecOn with
  | nil => simp [ids_nil]
  | append_singleton told last ih =>
    rw [ids_concat, List.mem_append, List.mem_singleton, ih]
    constructor
    · rintro (⟨before, content, hplace, he⟩ | rfl)
      · exact ⟨before, content, hplace.trans (List.prefix_append _ _), he⟩
      · exact ⟨told, last, List.prefix_refl _, rfl⟩
    · rintro ⟨before, content, hplace, he⟩
      rcases List.prefix_concat_iff.mp hplace with hlast | hplace
      · obtain ⟨rfl, hsame⟩ := List.append_inj' hlast rfl
        cases hsame
        exact .inr he.symm
      · exact .inl ⟨before, content, hplace, he⟩

theorem idAfter_of_own (told : List (List Char)) (h : ownId? content = some id) :
    idAfter told content = id := by
  rw [idAfter, h, Option.getD_some]

theorem idAfter_of_unnamed (told : List (List Char)) (h : ownId? content = none) :
    idAfter told content = mintedId Tag.lineKey (mintedBefore told content) := by
  rw [idAfter, h, Option.getD_none]

/-- **A line without an id of its own** raises the number for the lines behind it. -/
theorem mintedBefore_lt (hplace : before ++ [other] <+: told) (hother : ownId? other = none)
    (content : List Char) : mintedBefore before other < mintedBefore told content := by
  have hheard : (heard (before ++ [other])).dedup.length ≤
      (heard (told ++ [content])).dedup.length := by
    have hnames : heard (before ++ [other]) <+: heard (told ++ [content]) :=
      (hplace.trans (List.prefix_append _ _)).filterMap _
    rw [← List.card_toFinset, ← List.card_toFinset]
    refine Finset.card_le_card fun name hname => ?_
    rw [List.mem_toFinset] at hname ⊢
    exact hnames.subset hname
  have hunnamed : (unnamed (before ++ [other])).length ≤ (unnamed told).length :=
    (hplace.filter _).length_le
  rw [unnamed_concat, if_pos hother] at hunnamed
  unfold mintedBefore
  omega

/-- Where own ids are different, an id is taken only by a clash. -/
theorem clash_of_taken (h : (ownIds (told ++ [content])).Nodup)
    (htaken : idAfter told content ∈ ids told) :
    Clash (told ++ [content]) (idAfter told content) := by
  obtain ⟨before, other, hplace, hsame⟩ := mem_ids_iff.mp htaken
  have hbehind : before ++ [other] <+: told ++ [content] := hplace.trans (List.prefix_append _ _)
  have hmem : other ∈ told := hplace.subset (by simp)
  cases hown : ownId? content with
  | some id =>
    have hid := idAfter_of_own told hown
    rw [hid] at hsame ⊢
    have hlast : id ∈ ownIds (told ++ [content]) := List.mem_filterMap.mpr ⟨content, by simp, hown⟩
    cases hother : ownId? other with
    | some id' =>
      rw [idAfter_of_own before hother] at hsame
      subst hsame
      have hfirst : id' ∈ ownIds told := List.mem_filterMap.mpr ⟨other, hmem, hother⟩
      rw [ownIds, List.filterMap_append, List.nodup_append] at h
      exact absurd rfl (h.2.2 id' hfirst id' (List.mem_filterMap.mpr ⟨content, by simp, hown⟩))
    | none => exact ⟨hlast, before, other, hbehind, hother, hsame⟩
  | none =>
    cases hother : ownId? other with
    | some id =>
      rw [idAfter_of_own before hother] at hsame
      subst hsame
      exact ⟨List.mem_filterMap.mpr ⟨other, by simp [hmem], hother⟩, told, content,
        List.prefix_refl _, hown, rfl⟩
    | none =>
      rw [idAfter_of_unnamed told hown, idAfter_of_unnamed before hother] at hsame
      have hlt := mintedBefore_lt hplace hother content
      exact absurd (mintedId_injective _ hsame) (Nat.ne_of_lt hlt)

theorem getElem?_ids (told : List (List Char)) (i : Nat) :
    (ids told)[i]? = told[i]?.map (idAfter (told.take i)) :=
  List.getElem?_mapIdx

theorem not_nodup_of_clash (h : Clash told id) : ¬ (ids told).Nodup := by
  obtain ⟨hown, before, content, ⟨after, rfl⟩, hunnamed, rfl⟩ := h
  obtain ⟨other, hmem, hother⟩ := List.mem_filterMap.mp hown
  obtain ⟨j, hj⟩ := List.mem_iff_getElem?.mp hmem
  intro hnodup
  have hcontent : (before ++ [content] ++ after)[before.length]? = some content := by simp
  have hfirst : (ids (before ++ [content] ++ after))[before.length]? =
      some (idAfter before content) := by
    rw [getElem?_ids, hcontent]
    simp
  have hsecond : (ids (before ++ [content] ++ after))[j]? = some (idAfter before content) := by
    rw [getElem?_ids, hj, Option.map_some, idAfter_of_own _ hother]
  -- The two lines would stand at one place, but only one of them has an id of its own.
  obtain ⟨hlt, -⟩ := List.getElem?_eq_some_iff.mp hfirst
  have hplace := (List.getElem?_inj hlt hnodup).mp (hfirst.trans hsecond.symm)
  rw [← hplace, hcontent] at hj
  cases hj
  rw [hunnamed] at hother
  cases hother

/-- **Ids are different** if the own ids are, and no minted one clashes with them. -/
theorem nodup_ids_iff_not_clash (h : (ownIds told).Nodup) :
    (ids told).Nodup ↔ ∀ id, ¬ Clash told id := by
  refine ⟨fun hnodup id hclash => not_nodup_of_clash hclash hnodup, fun hnone => ?_⟩
  rw [nodup_ids_iff]
  intro before content hplace htaken
  have hown : (ownIds (before ++ [content])).Nodup := (hplace.filterMap ownId?).sublist.nodup h
  exact hnone _ ((clash_of_taken hown htaken).mono hplace)

end Line

/-! ## Documents -/

namespace Document

/-- The texts of the lines of a document. -/
abbrev texts (content : String) : List (List Char) := contents (nodeRuns content)

/-- Where all runs are fine, all lines are. -/
theorem lines_of_fine {kept : List (List Numbered)} (h : Passes Fine kept) :
    Passes Line.Fine (contents kept) := by
  induction kept using List.reverseRecOn with
  | nil => exact passes_nil
  | append_singleton kept run ih =>
    obtain ⟨hkept, hrun⟩ := passes_concat.mp h
    rw [contents_concat, passes_append, passes_map]
    exact ⟨ih hkept, hrun.lines⟩

theorem contents_prefix {before kept : List (List Numbered)} {run told : List Numbered}
    {l : Numbered} (hrun : before ++ [run] <+: kept) (hl : told ++ [l] <+: contentLines run) :
    contents before ++ told.map Prod.fst ++ [l.1] <+: contents kept := by
  obtain ⟨after, rfl⟩ := hrun
  obtain ⟨more, hmore⟩ := hl
  refine ⟨more.map Prod.fst ++ contents after, ?_⟩
  simp [contents, ← hmore]

end Document

open Document Line

namespace Script

variable {content : String} {options : Options}

theorem not_fails_duplicateId {part : Part} {id : String} :
    ¬ part.Fails (.duplicateId id) := by
  intro h
  cases h

/-- A document that is refused for an id that is taken has a line with that id before. -/
theorem exists_taken {position place : Position} {line id : String}
    (h : Script.parseWith content options =
      .error (.node ⟨position, .line ⟨line, .duplicateId id, place⟩⟩)) :
    ∃ before l, before ++ [l] <+: texts content ∧ idAfter before l = id ∧ id ∈ ids before := by
  have hrefused := refused_of_parseWith h
  cases hrefused with
  | run fits first fails =>
    cases fails with
    | header fails => cases fails
    | line headed stop fails =>
      refine ⟨_, _, contents_prefix first.place stop.place, ?_⟩
      cases fails with
      | piece first fails => exact absurd fails not_fails_duplicateId
      | id pieces taken => exact ⟨rfl, taken⟩

/-- **Only minted ids clash**: where authors give pairwise different ids, a line is refused for its
id only if that is the own id of one line and minted for another; and with such a clash a document
cannot be read. -/
theorem parseWith_clash {content : String} (options : Options)
    (h : (ownIds (texts content)).Nodup) :
    (∀ position line id place, parseWith content options =
        .error (.node ⟨position, .line ⟨line, .duplicateId id, place⟩⟩) →
      Clash (texts content) id) ∧
    ((∃ id, Clash (texts content) id) → ∀ script, parseWith content options ≠ .ok script) := by
  constructor
  · intro position line id place hrefused
    obtain ⟨before, l, hplace, rfl, htaken⟩ := exists_taken hrefused
    have hown : (ownIds (before ++ [l])).Nodup := (hplace.filterMap ownId?).sublist.nodup h
    exact (clash_of_taken hown htaken).mono hplace
  · rintro ⟨id, hclash⟩ script hok
    have hlines := lines_of_fine (accepted_of_parseWith hok).fine
    exact not_nodup_of_clash hclash (nodup_ids_iff.mpr (hlines.imp fun _ _ hl => hl.id))

/-- A line with an own id, a speaker, and a line that gets an id. -/
def clashFree : String := "title: A\n---\nA: One #line:line_00000000\nTwo"

theorem parseWith_clash_free :
    (ownIds (texts clashFree)).Nodup ∧
      (∀ position line id place, parseWith clashFree {} =
          .error (.node ⟨position, .line ⟨line, .duplicateId id, place⟩⟩) →
        Clash (texts clashFree) id) ∧
      ((∃ id, Clash (texts clashFree) id) → ∀ script, parseWith clashFree {} ≠ .ok script) := by
  have h : (ownIds (texts clashFree)).Nodup := by decide +kernel
  exact ⟨h, parseWith_clash {} h⟩

/-- The first line has the id that is minted for the second one. -/
def clashing : String := "title: A\n---\nOne #line:line_00000000\nTwo"

/-- **A minted id can be taken**: the only id that the author gives is refused. -/
theorem clashing_refused :
    (ownIds (texts clashing)).Nodup ∧ parseWith clashing {} =
      .error (.node ⟨⟨0⟩, .line ⟨"Two", .duplicateId "line_00000000", ⟨3⟩⟩⟩) := by
  have hcheck : (match parseWith clashing {} with
      | .error e => decide (e =
          .node ⟨⟨0⟩, .line ⟨"Two", .duplicateId "line_00000000", ⟨3⟩⟩⟩)
      | .ok _ => false) = true := by decide +kernel
  refine ⟨by decide +kernel, ?_⟩
  split at hcheck
  · next e he => rw [he, of_decide_eq_true hcheck]
  · cases hcheck

end Script

end Parley
