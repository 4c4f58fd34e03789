import Parley.Proofs.Balance

/-!
# The scan finds exactly the bracket pairs that are items

A bracket pair is an item by what stands around it alone: no backslash is before it, no bracket is
inside it, and its interior has one of the forms of markup.  The scan does not try the brackets one
by one.  It goes from an opening bracket to the next closing one and back to the last opening one
before that, and after a pair that is no item it goes on behind the pair.  No item is lost on the
way: one that does not begin behind that pair is the pair itself (`PairAt.first_or_later`).

Principal results: `itemAt_next?` and `exists_next?` — a search finds an item if there is one, and
none behind it; `hitFrom?_eq_some_iff` and `hitFrom?_eq_none_iff` — in bytes, the first one from
every place where a character begins; `Finds.mem_iff` — searching on behind each item gives all of
them; `Dialog.read_hits` — these are the items that a reading goes through.
-/

namespace Parley

namespace Markup

/-- The brackets around `interior` stand in a text between `before` and `rest`, and are next to each
other. -/
structure PairAt (content before interior rest : List Char) : Prop where
  text : content = before ++ '[' :: (interior ++ ']' :: rest)
  noOpening : '[' ∉ interior
  noClosing : ']' ∉ interior

/-- The brackets around `interior` are an item on their own. -/
structure ItemAt (content before interior rest : List Char) (item : Item) : Prop
    extends PairAt content before interior rest where
  unescaped : before.getLast? ≠ some '\\'
  item : Item.ofInterior? interior = some item

/-! ## Where bracket pairs can stand -/

variable {content before interior rest : List Char}

namespace PairAt

variable {before' interior' rest' : List Char}

/-- A pair that begins further right than this one begins behind it. -/
theorem behind (h : PairAt content before interior rest)
    (h' : PairAt content before' interior' rest') (hlt : before.length < before'.length) :
    ∃ more, before' = before ++ '[' :: (interior ++ ']' :: more) := by
  obtain ⟨m, hm, hrest⟩ | ⟨m, hm, -⟩ := List.append_eq_append_iff.mp (h.text.symm.trans h'.text)
  · cases m with
    | nil => simp [hm] at hlt
    | cons c m =>
      obtain ⟨rfl, hinner⟩ := List.cons.inj hrest
      -- The other opening bracket stands after the interior, which has none.
      obtain ⟨u, hu, hopen⟩ | ⟨u, hu, hclose⟩ := List.append_eq_append_iff.mp hinner
      · cases u with
        | nil => cases hopen
        | cons d u =>
          obtain ⟨rfl, -⟩ := List.cons.inj hopen
          exact ⟨u, by rw [hm, hu]⟩
      · cases u with
        | nil => cases hclose
        | cons d u =>
          obtain ⟨rfl, -⟩ := List.cons.inj hclose
          exact absurd (by simp [hu]) h.noOpening
  · rw [hm, List.length_append] at hlt
    omega

theorem unique (h : PairAt content before interior rest)
    (h' : PairAt content before' interior' rest') (hlen : before.length = before'.length) :
    before = before' ∧ interior = interior' ∧ rest = rest' := by
  obtain ⟨hb, htail⟩ := List.append_inj (h.text.symm.trans h'.text) hlen
  have hcut := congrArg (Text.cut? ']') (List.cons.inj htail).2
  rw [Text.cut?_append_self _ h.noClosing, Text.cut?_append_self _ h'.noClosing] at hcut
  exact ⟨hb, by simpa using hcut⟩

end PairAt

/-- The text after the last opening bracket has none. -/
theorem not_mem_lastOpen (inside : List Char) : '[' ∉ (lastOpen inside).2 := by
  unfold lastOpen
  split
  · next hn => simpa using Text.cut?_eq_none_iff.mp hn
  · next after before hs => simpa using (Text.cut?_eq_some hs).2

/-- What a search looks at first is a bracket pair. -/
theorem pairAt_lastOpen (passed : List Char) {cs before afterOpen inside after : List Char}
    (hb : Text.cut? '[' cs = some (before, afterOpen))
    (ha : Text.cut? ']' afterOpen = some (inside, after)) :
    PairAt (passed ++ cs) (passed ++ (before ++ (lastOpen inside).1)) (lastOpen inside).2
      after where
  text := by
    conv_lhs => rw [eq_of_cuts hb ha]
    simp
  noOpening := not_mem_lastOpen inside
  noClosing := by
    have hinside : ']' ∉ '[' :: inside := by simpa using (Text.cut?_eq_some ha).2
    rw [← lastOpen_append] at hinside
    simpa using fun h => hinside (by simp [h])

/-- **No bracket pair is passed over**: one that does not begin before the search is what the search
looks at first, or begins behind it. -/
theorem PairAt.first_or_later {passed cs before afterOpen inside after : List Char}
    (hb : Text.cut? '[' cs = some (before, afterOpen))
    (ha : Text.cut? ']' afterOpen = some (inside, after))
    {begun interior rest : List Char} (h : PairAt (passed ++ cs) (passed ++ begun) interior rest) :
    begun = before ++ (lastOpen inside).1 ∧ interior = (lastOpen inside).2 ∧ rest = after ∨
      ∃ more, begun = before ++ (lastOpen inside).1 ++
        '[' :: ((lastOpen inside).2 ++ ']' :: more) := by
  have hpair := pairAt_lastOpen passed hb ha
  rcases Nat.lt_trichotomy (passed ++ begun).length
    (passed ++ (before ++ (lastOpen inside).1)).length with hlt | heq | hgt
  · -- A closing bracket would stand between the first opening bracket and the next closing one.
    obtain ⟨more, hmore⟩ := h.behind hpair hlt
    rw [List.append_assoc, List.append_cancel_left_eq] at hmore
    have hinside : ']' ∉ '[' :: inside := by simpa using (Text.cut?_eq_some ha).2
    rw [← lastOpen_append] at hinside
    obtain ⟨m, -, hm⟩ | ⟨m, hm, hm'⟩ := List.append_eq_append_iff.mp hmore
    · exact absurd (by simp [hm]) hinside
    · cases m with
      | nil => exact absurd (by rw [← List.nil_append (lastOpen inside).1, ← hm']; simp) hinside
      | cons c m =>
        obtain ⟨rfl, -⟩ := List.cons.inj hm'
        exact absurd (by simp [hm]) (Text.cut?_eq_some hb).2
  · obtain ⟨hbegun, hrest⟩ := h.unique hpair heq
    exact .inl ⟨List.append_cancel_left hbegun, hrest⟩
  · obtain ⟨more, hmore⟩ := hpair.behind h hgt
    exact .inr ⟨more, List.append_cancel_left (by rw [hmore]; simp)⟩

/-! ## One search -/

/-- What follows on a mark is among what follows on the first one. -/
theorem suffix_of_cut? {mark : Char} {begun tail before after : List Char}
    (h : Text.cut? mark (begun ++ mark :: tail) = some (before, after)) : tail <:+ after := by
  cases hc : Text.cut? mark begun with
  | none =>
    rw [Text.cut?_append_self tail (Text.cut?_eq_none_iff.mp hc)] at h
    cases h
    exact List.suffix_refl _
  | some cut =>
    obtain ⟨rfl, hfirst⟩ := Text.cut?_eq_some hc
    rw [List.append_assoc, List.cons_append, Text.cut?_append_self _ hfirst] at h
    cases h
    exact ⟨cut.2 ++ [mark], by simp⟩

/-- A search that goes on behind a pair has passed the pair. -/
theorem passed_pair {passed cs before afterOpen inside after outer interior : List Char}
    (hb : Text.cut? '[' cs = some (before, afterOpen))
    (ha : Text.cut? ']' afterOpen = some (inside, after))
    (hl : lastOpen inside = (outer, interior)) :
    (']' :: (interior.reverse ++ '[' :: (outer.reverse ++ (before.reverse ++ passed)))).reverse ++
      after = passed.reverse ++ cs := by
  rw [eq_of_cuts hb ha, hl]
  simp

/-- The pair that a search looks at is an item exactly if the search takes it. -/
theorem itemAt_lastOpen {passed cs before afterOpen inside after outer interior : List Char}
    (hb : Text.cut? '[' cs = some (before, afterOpen))
    (ha : Text.cut? ']' afterOpen = some (inside, after)) (hl : lastOpen inside = (outer, interior))
    {item : Item} :
    ItemAt (passed.reverse ++ cs) (passed.reverse ++ (before ++ outer)) interior after item ↔
      (if (outer.reverse ++ (before.reverse ++ passed)).head? == some '\\' then none
        else Item.ofInterior? interior) = some item := by
  have hpair := pairAt_lastOpen passed.reverse hb ha
  rw [hl] at hpair
  have hlast : (passed.reverse ++ (before ++ outer)).getLast? =
      (outer.reverse ++ (before.reverse ++ passed)).head? := by
    rw [← List.head?_reverse]
    simp
  by_cases hescaped : (outer.reverse ++ (before.reverse ++ passed)).head? = some '\\'
  · simp only [hescaped, beq_self_eq_true, if_true, reduceCtorEq, iff_false]
    exact fun h => h.unescaped (hlast.trans hescaped)
  · rw [if_neg (by simpa using hescaped)]
    exact ⟨fun h => h.item, fun h => ⟨hpair, hlast ▸ hescaped, h⟩⟩

/-- What a search finds is an item, and does not begin before the search. -/
theorem itemAt_next? {passed cs rest : List Char} {f : Found}
    (h : next? passed cs = some (f, rest)) :
    ItemAt (passed.reverse ++ cs) f.before f.interior rest f.item ∧
      passed.reverse <+: f.before := by
  fun_induction next? passed cs with
  | case1 => cases h
  | case2 => cases h
  | case3 passed cs before afterOpen hb inside after ha lt outer interior hl plain item? item hi =>
    cases h
    have hbefore : plain.reverse = passed.reverse ++ (before ++ outer) := by simp [plain]
    rw [hbefore]
    exact ⟨(itemAt_lastOpen hb ha hl).mpr hi, List.prefix_append _ _⟩
  | case4 passed cs before afterOpen hb inside after ha lt outer interior hl plain item? hi ih =>
    obtain ⟨hitem, hprefix⟩ := ih h
    rw [passed_pair hb ha hl] at hitem
    refine ⟨hitem, List.IsPrefix.trans ?_ hprefix⟩
    simp [plain]

/-- A search finds an item if there is one, and none behind that. -/
theorem exists_next? (passed cs : List Char) :
    ∀ {begun interior rest : List Char} {item : Item},
      ItemAt (passed.reverse ++ cs) (passed.reverse ++ begun) interior rest item →
        ∃ f after, next? passed cs = some (f, after) ∧
          f.before.length ≤ (passed.reverse ++ begun).length := by
  fun_induction next? passed cs with
  | case1 passed cs hb =>
    intro begun interior rest item h
    have htext := List.append_cancel_left (h.text.trans (List.append_assoc _ _ _))
    exact absurd (by simp [htext]) (Text.cut?_eq_none_iff.mp hb)
  | case2 passed cs before afterOpen hb ha =>
    intro begun interior rest item h
    -- A closing bracket follows on the first opening one, since one follows on this one.
    have htext := List.append_cancel_left (h.text.trans (List.append_assoc _ _ _))
    rw [htext] at hb
    exact absurd ((suffix_of_cut? hb).subset (by simp)) (Text.cut?_eq_none_iff.mp ha)
  | case3 =>
    rename_i passed cs before afterOpen hb inside after ha lt outer interior hl plain item? item hi
    intro begun interior' rest item' h
    refine ⟨_, _, rfl, ?_⟩
    have hlater := h.first_or_later hb ha
    rw [hl] at hlater
    rcases hlater with ⟨rfl, -⟩ | ⟨more, rfl⟩
    · simp [plain]
    · simp [plain]
  | case4 =>
    rename_i passed cs before afterOpen hb inside after ha lt outer interior hl plain item? hi ih
    intro begun interior' rest item' h
    have hlater := h.first_or_later hb ha
    rw [hl] at hlater
    rcases hlater with ⟨rfl, rfl, rfl⟩ | ⟨more, rfl⟩
    · have htaken := (itemAt_lastOpen hb ha hl).mp h
      exact absurd (htaken.symm.trans hi) (by simp)
    · have hbegun : passed.reverse ++ (before ++ outer ++ '[' :: (interior ++ ']' :: more)) =
          (']' :: (interior.reverse ++ '[' :: plain)).reverse ++ more := by simp [plain]
      rw [hbegun] at h ⊢
      rw [← passed_pair hb ha hl] at h
      exact ih h

/-! ## Items by the bytes they cover -/

/-- An item, and the bytes from its opening bracket to the end of its closing one. -/
structure Hit where
  first : Nat
  stop : Nat
  item : Item
  deriving DecidableEq

/-- A found item after some bytes that were read before. -/
def Found.hit (bytes : Nat) (f : Found) : Hit :=
  ⟨bytes + Text.size f.before, bytes + Text.size f.text, f.item⟩

/-- The found items after some bytes. -/
def hits (bytes : Nat) : List Found → List Hit
  | [] => []
  | f :: found => f.hit bytes :: hits (bytes + Text.size f.text) found

/-- The first item at a byte or behind it; there is none if no character begins at that byte. -/
def hitFrom? (content : List Char) (start : Nat) : Option Hit :=
  (Text.cutAt? start content).bind fun (before, after) =>
    (next? before.reverse after).map fun (f, _) => f.hit 0

/-- The bytes are those of an item. -/
def Hit.Valid (content : List Char) (hit : Hit) : Prop :=
  ∃ before interior rest, ItemAt content before interior rest hit.item ∧
    hit.first = Text.size before ∧ hit.stop = Text.size before + Text.size interior + 2

/-- A hit is the first at a byte or behind it, and ends before the next one. -/
structure IsFirst (content : List Char) (start : Nat) (hit : Hit) : Prop where
  valid : hit.Valid content
  start_le : start ≤ hit.first
  others : ∀ other : Hit, other.Valid content → start ≤ other.first →
    other = hit ∨ hit.stop ≤ other.first

theorem size_pair (interior : List Char) :
    Text.size ('[' :: (interior ++ [']'])) = Text.size interior + 2 := by
  have hopening : '['.utf8Size = 1 := by decide
  have hclosing : ']'.utf8Size = 1 := by decide
  rw [Text.size_cons, Text.size_append, Text.size_cons, Text.size_nil, hopening, hclosing]
  omega

theorem Found.text_eq (f : Found) : f.text = f.before ++ '[' :: (f.interior ++ [']']) := by
  simp [Found.text]

theorem Found.hit_first (bytes : Nat) (f : Found) :
    (f.hit bytes).first = bytes + Text.size f.before := rfl

theorem Found.hit_stop (bytes : Nat) (f : Found) :
    (f.hit bytes).stop = bytes + Text.size f.before + Text.size f.interior + 2 := by
  show bytes + Text.size f.text = _
  rw [Found.text_eq, Text.size_append, size_pair]
  omega

/-- A text that is not longer than another one with the same characters is its beginning. -/
theorem prefix_of_size_le {before after before' after' : List Char}
    (h : before ++ after = before' ++ after') (hle : Text.size before ≤ Text.size before') :
    before <+: before' := by
  obtain ⟨m, hm, -⟩ | ⟨m, hm, -⟩ := List.append_eq_append_iff.mp h
  · exact ⟨m, hm.symm⟩
  · cases m with
    | nil => exact ⟨[], by simp [hm]⟩
    | cons c m =>
      have hpos := c.utf8Size_pos
      rw [hm, Text.size_append, Text.size_cons] at hle
      omega

namespace Hit

variable {hit other : Hit}

theorem Valid.first_lt_stop (h : hit.Valid content) : hit.first < hit.stop := by
  obtain ⟨before, interior, rest, -, hfirst, hstop⟩ := h
  omega

/-- Items do not overlap. -/
theorem Valid.eq_or_behind (h : hit.Valid content) (h' : other.Valid content)
    (hle : hit.first ≤ other.first) : other = hit ∨ hit.stop ≤ other.first := by
  obtain ⟨before, interior, rest, hitem, hfirst, hstop⟩ := h
  obtain ⟨before', interior', rest', hitem', hfirst', hstop'⟩ := h'
  rcases Nat.lt_trichotomy before.length before'.length with hlt | heq | hgt
  · obtain ⟨more, rfl⟩ := hitem.toPairAt.behind hitem'.toPairAt hlt
    have hpair : '[' :: (interior ++ ']' :: more) = '[' :: (interior ++ [']']) ++ more := by simp
    rw [hpair, Text.size_append, Text.size_append, size_pair] at hfirst'
    exact .inr (by omega)
  · obtain ⟨rfl, rfl, -⟩ := hitem.toPairAt.unique hitem'.toPairAt heq
    have hsame := Option.some.inj (hitem'.item.symm.trans hitem.item)
    refine .inl ?_
    cases hit
    cases other
    simp_all
  · obtain ⟨more, rfl⟩ := hitem'.toPairAt.behind hitem.toPairAt hgt
    have hpair : '[' :: (interior' ++ ']' :: more) = '[' :: (interior' ++ [']']) ++ more := by simp
    rw [hpair, Text.size_append, Text.size_append, size_pair] at hfirst
    omega

end Hit

theorem IsFirst.unique {start : Nat} {hit other : Hit} (h : IsFirst content start hit)
    (h' : IsFirst content start other) : hit = other := by
  rcases h.others other h'.valid h'.start_le with heq | hle
  · exact heq.symm
  · rcases h'.others hit h.valid h.start_le with heq | hle'
    · exact heq
    · have := h.valid.first_lt_stop
      have := h'.valid.first_lt_stop
      omega

/-- Text that ends without a backslash does not matter for the items behind it. -/
theorem itemAt_append {earlier : List Char} (he : earlier.getLast? ≠ some '\\') {item : Item} :
    ItemAt (earlier ++ content) (earlier ++ before) interior rest item ↔
      ItemAt content before interior rest item := by
  have hlast : (earlier ++ before).getLast? ≠ some '\\' ↔ before.getLast? ≠ some '\\' := by
    cases hb : before.getLast? with
    | none => simpa [List.getLast?_append, hb] using he
    | some c => simp [List.getLast?_append, hb]
  constructor
  · rintro ⟨⟨htext, hopening, hclosing⟩, hescape, hitem⟩
    rw [List.append_assoc, List.append_cancel_left_eq] at htext
    exact ⟨⟨htext, hopening, hclosing⟩, hlast.mp hescape, hitem⟩
  · rintro ⟨⟨htext, hopening, hclosing⟩, hescape, hitem⟩
    exact ⟨⟨by rw [htext, List.append_assoc], hopening, hclosing⟩, hlast.mpr hescape, hitem⟩

section Search

variable {earlier passed cs : List Char} (he : earlier.getLast? ≠ some '\\')

include he

/-- An item that does not begin before a search is found, or another one before it. -/
theorem Hit.Valid.exists_next? {hit : Hit} (h : hit.Valid (earlier ++ (passed.reverse ++ cs)))
    (hle : Text.size (earlier ++ passed.reverse) ≤ hit.first) :
    ∃ f rest, next? passed cs = some (f, rest) ∧ (f.hit (Text.size earlier)).first ≤ hit.first := by
  obtain ⟨before, interior, rest, hitem, hfirst, -⟩ := h
  obtain ⟨begun, rfl⟩ : earlier ++ passed.reverse <+: before := by
    have htext := hitem.text
    rw [← List.append_assoc] at htext
    exact prefix_of_size_le htext (hfirst ▸ hle)
  rw [List.append_assoc] at hitem
  have hhere := (itemAt_append he).mp hitem
  obtain ⟨f, after, hnext, hlen⟩ := Markup.exists_next? passed cs hhere
  refine ⟨f, after, hnext, ?_⟩
  obtain ⟨m, hm⟩ : f.before <+: passed.reverse ++ begun :=
    List.prefix_of_prefix_length_le ⟨_, ((itemAt_next? hnext).1.text).symm⟩
      ⟨_, hhere.text.symm⟩ hlen
  rw [hfirst, List.append_assoc, ← hm, Found.hit_first, Text.size_append, Text.size_append]
  omega

theorem isFirst_next? {f : Found} {rest : List Char} (h : next? passed cs = some (f, rest)) :
    IsFirst (earlier ++ (passed.reverse ++ cs)) (Text.size (earlier ++ passed.reverse))
      (f.hit (Text.size earlier)) := by
  obtain ⟨hitem, m, hm⟩ := itemAt_next? h
  have hvalid : (f.hit (Text.size earlier)).Valid (earlier ++ (passed.reverse ++ cs)) := by
    refine ⟨earlier ++ f.before, f.interior, rest, (itemAt_append he).mpr hitem, ?_, ?_⟩
    · rw [Found.hit_first, Text.size_append]
    · rw [Found.hit_stop, Text.size_append]
  refine ⟨hvalid, ?_, ?_⟩
  · rw [Found.hit_first, ← hm, Text.size_append, Text.size_append]
    omega
  · intro other hother hle
    obtain ⟨f', rest', hnext, hfirst⟩ := hother.exists_next? he hle
    cases h.symm.trans hnext
    exact hvalid.eq_or_behind hother hfirst

theorem first_lt_of_next? (h : next? passed cs = none) {hit : Hit}
    (hvalid : hit.Valid (earlier ++ (passed.reverse ++ cs))) :
    hit.first < Text.size (earlier ++ passed.reverse) := by
  by_contra hle
  obtain ⟨f, rest, hnext, -⟩ := hvalid.exists_next? he (Nat.le_of_not_lt hle)
  cases h.symm.trans hnext

end Search

/-- Where a character begins, the text is cut. -/
theorem hitFrom?_size (before after : List Char) :
    hitFrom? (before ++ after) (Text.size before) =
      (next? before.reverse after).map fun p => p.1.hit 0 := by
  rw [hitFrom?, Text.cutAt?_size]
  rfl

/-- **A search finds the first item** at the place where it begins, or behind it. -/
theorem hitFrom?_eq_some_iff {start : Nat} (h : (Text.cutAt? start content).isSome) {hit : Hit} :
    hitFrom? content start = some hit ↔ IsFirst content start hit := by
  obtain ⟨⟨before, after⟩, hcut⟩ := Option.isSome_iff_exists.mp h
  obtain ⟨rfl, rfl⟩ := Text.cutAt?_eq_some_iff.mp hcut
  have hempty : ([] : List Char).getLast? ≠ some '\\' := by simp
  rw [hitFrom?_size]
  cases hnext : next? before.reverse after with
  | none =>
    refine iff_of_false (by simp) fun hfirst => ?_
    have hvalid : hit.Valid ([] ++ (before.reverse.reverse ++ after)) := by
      simpa using hfirst.valid
    have hlt := first_lt_of_next? hempty hnext hvalid
    have hle := hfirst.start_le
    rw [List.nil_append, List.reverse_reverse] at hlt
    omega
  | some found =>
    obtain ⟨f, rest⟩ := found
    have hfirst : IsFirst (before ++ after) (Text.size before) (f.hit 0) := by
      simpa using isFirst_next? hempty hnext
    rw [Option.map_some, Option.some.injEq]
    exact ⟨fun he => he ▸ hfirst, hfirst.unique⟩

/-- **A search finds nothing** only if no item is left. -/
theorem hitFrom?_eq_none_iff {start : Nat} (h : (Text.cutAt? start content).isSome) :
    hitFrom? content start = none ↔ ∀ hit : Hit, hit.Valid content → hit.first < start := by
  constructor
  · obtain ⟨⟨before, after⟩, hcut⟩ := Option.isSome_iff_exists.mp h
    obtain ⟨rfl, rfl⟩ := Text.cutAt?_eq_some_iff.mp hcut
    rw [hitFrom?_size, Option.map_eq_none_iff]
    intro hnext hit hvalid
    have hvalid' : hit.Valid ([] ++ (before.reverse.reverse ++ after)) := by
      simpa using hvalid
    simpa using first_lt_of_next? (by simp) hnext hvalid'
  · intro hnone
    by_contra hsome
    obtain ⟨hit, hhit⟩ := Option.ne_none_iff_exists'.mp hsome
    have hfirst := (hitFrom?_eq_some_iff h).mp hhit
    have hlt := hnone hit hfirst.valid
    have hle := hfirst.start_le
    omega

/-! ## One search after the other -/

/-- The items that are found if each search begins where the item before ended, until one finds
nothing. -/
inductive Finds (content : List Char) : Nat → List Hit → Prop
  | done {start : Nat} (none : hitFrom? content start = none) : Finds content start []
  | more {start : Nat} {hit : Hit} {hits : List Hit} (found : hitFrom? content start = some hit)
      (rest : Finds content hit.stop hits) : Finds content start (hit :: hits)

theorem Hit.Valid.cut_stop {hit : Hit} (h : hit.Valid content) :
    (Text.cutAt? hit.stop content).isSome := by
  obtain ⟨before, interior, rest, hitem, -, hstop⟩ := h
  have hcut := Text.cutAt?_size (before ++ '[' :: (interior ++ [']'])) rest
  rw [Text.size_append, size_pair, ← Nat.add_assoc, ← hstop] at hcut
  rw [hitem.text, show before ++ '[' :: (interior ++ ']' :: rest) =
    before ++ '[' :: (interior ++ [']']) ++ rest by simp, hcut]
  rfl

/-- **All items are found, and nothing else.** -/
theorem Finds.mem_iff {start : Nat} {hits : List Hit} (h : Finds content start hits)
    (hcut : (Text.cutAt? start content).isSome) {hit : Hit} :
    hit ∈ hits ↔ hit.Valid content ∧ start ≤ hit.first := by
  induction h with
  | done hnone =>
    have hlt := (hitFrom?_eq_none_iff hcut).mp hnone hit
    simp only [List.not_mem_nil, false_iff, not_and, Nat.not_le]
    exact hlt
  | @more start first hits hfound _ ih =>
    obtain ⟨hvalid, hle, hothers⟩ := (hitFrom?_eq_some_iff hcut).mp hfound
    rw [List.mem_cons, ih hvalid.cut_stop]
    constructor
    · rintro (rfl | ⟨hhit, hstop⟩)
      · exact ⟨hvalid, hle⟩
      · have := hvalid.first_lt_stop
        exact ⟨hhit, by omega⟩
    · rintro ⟨hhit, hstart⟩
      exact (hothers hit hhit hstart).imp_right fun hstop => ⟨hhit, hstop⟩

/-- Items are found from left to right, and do not overlap. -/
theorem Finds.pairwise {start : Nat} {hits : List Hit} (h : Finds content start hits)
    (hcut : (Text.cutAt? start content).isSome) :
    hits.Pairwise fun hit next => hit.first < next.first ∧ hit.stop ≤ next.first := by
  induction h with
  | done => exact .nil
  | @more start first hits hfound hrest ih =>
    have hvalid := ((hitFrom?_eq_some_iff hcut).mp hfound).valid
    refine .cons ?_ (ih hvalid.cut_stop)
    intro next hnext
    have hstop := ((hrest.mem_iff hvalid.cut_stop).mp hnext).2
    have := hvalid.first_lt_stop
    exact ⟨by omega, hstop⟩

/-- The scan is one search after the other. -/
theorem finds_scanFrom (found : List Found) (cs : List Char) :
    ∀ earlier : List Char, earlier.getLast? ≠ some '\\' →
      ∃ more, (scanFrom found cs).1 = found.reverse ++ more ∧
        Finds (earlier ++ cs) (Text.size earlier) (hits (Text.size earlier) more) := by
  fun_induction scanFrom found cs with
  | case1 found cs h =>
    intro earlier he
    refine ⟨[], by simp, .done ?_⟩
    rw [hitFrom?_eq_none_iff (by rw [Text.cutAt?_size]; rfl)]
    intro hit hvalid
    simpa using first_lt_of_next? he h hvalid
  | case2 found cs f rest h lt ih =>
    intro earlier he
    have hnext : earlier ++ f.text ++ rest = earlier ++ cs := by
      rw [List.append_assoc, text_next? h]
      rfl
    have hlast : (earlier ++ f.text).getLast? ≠ some '\\' := by
      rw [Found.text, ← List.append_assoc, List.getLast?_concat]
      decide
    obtain ⟨more, hmore, hfinds⟩ := ih (earlier ++ f.text) hlast
    refine ⟨f :: more, by simp [hmore], .more ?_ ?_⟩
    · rw [hitFrom?_eq_some_iff (by rw [Text.cutAt?_size]; rfl)]
      simpa using isFirst_next? he h
    · rwa [hnext, Text.size_append] at hfinds

theorem finds_scan (content : List Char) : Finds content 0 (hits 0 (scan content).1) := by
  obtain ⟨more, hmore, hfinds⟩ := finds_scanFrom [] content [] (by simp)
  rw [scan, hmore]
  exact hfinds

theorem map_item_hits (bytes : Nat) (found : List Found) :
    (hits bytes found).map Hit.item = found.map Found.item := by
  induction found generalizing bytes with
  | nil => rfl
  | cons f found ih =>
    rw [hits, List.map_cons, List.map_cons, ih]
    rfl

end Markup

open Markup

/--
**The scan finds exactly the bracket pairs that are items on their own**, in order and without
overlaps, by searching on behind each of them; from every place where a character begins, a search
finds the first one that does not begin before it.  A reading goes through all of them, unless it
stops at a closer without an open span of its name.
-/
theorem Dialog.read_hits (content : List Char) :
    (∀ hit : Hit, hit ∈ hits 0 (scan content).1 ↔ hit.Valid content) ∧
      ((hits 0 (scan content).1).Pairwise fun hit next =>
        hit.first < next.first ∧ hit.stop ≤ next.first) ∧
      Finds content 0 (hits 0 (scan content).1) ∧
      (hits 0 (scan content).1).map Hit.item = items content ∧
      (∀ start, (Text.cutAt? start content).isSome →
        (∀ hit, hitFrom? content start = some hit ↔ IsFirst content start hit) ∧
          (hitFrom? content start = none ↔ ∀ hit : Hit, hit.Valid content → hit.first < start)) ∧
      ((∃ d, (scan content).1.foldlM Drafting.step .start = .ok d) ∨
        ∃ k name d, ((scan content).1.take k).foldlM Drafting.step .start = .ok d ∧
          (items content)[k]? = some (.closer name) ∧ name ∉ d.openNames ∧
            read content = .error ⟨String.ofList content, .unmatchedCloser name⟩) := by
  have hfinds := finds_scan content
  have hcut : (Text.cutAt? 0 content).isSome := by
    cases content <;> rfl
  refine ⟨?_, hfinds.pairwise hcut, hfinds, map_item_hits 0 _, ?_, ?_⟩
  · intro hit
    simp [hfinds.mem_iff hcut]
  · intro start hstart
    exact ⟨fun hit => hitFrom?_eq_some_iff hstart, hitFrom?_eq_none_iff hstart⟩
  · refine (Drafting.run_or_stops (scan content).1).imp_right ?_
    rintro ⟨k, name, d, htake, hitem, hopen, hrun⟩
    refine ⟨k, name, d, htake, by rw [items, List.getElem?_map]; exact hitem, hopen, ?_⟩
    simp only [read, hrun]

example : (hits 0 (scan "[b [x]é \\[y] [/x]".toList).1).map (fun hit => (hit.first, hit.stop)) =
    [(3, 6), (14, 18)] := by
  decide +kernel

end Parley
