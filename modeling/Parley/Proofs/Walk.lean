import Mathlib.Data.Nat.Find
import Parley.Proofs.Ids

/-!
# Walking a consistently indented node

The table of latest lines keeps every level ever seen, so a level that was left can still be found
in it.  Under consistent indentation (`Consistent`) this never happens: a line that continues a
level continues one that is still open (`Consistent.stays_open`).  Hence first children and next
siblings are a faithful re-encoding of the text.

Principal results: `Node.walk_between` — from any line the depth-first walk covers the lines up to
the first one that is indented less; `Node.onChain_iff` — a chain of siblings is one open level;
`Node.read_walk` — the walk of a whole node is its text, and every line is in the chain of the line
that encloses it.
-/

namespace Parley

/-! ## Levels -/

/-- Every one of the first `n` places is indented further than the place before it, or continues a
level that is still open. -/
def Consistent (depth : Nat → Nat) (n : Nat) : Prop :=
  ∀ i < n, 0 < i → depth (i - 1) < depth i ∨
    ∃ k < i, depth k = depth i ∧ ∀ m < i, k < m → depth i ≤ depth m

instance (depth : Nat → Nat) (n : Nat) : Decidable (Consistent depth n) :=
  inferInstanceAs (Decidable (∀ i < n, 0 < i → depth (i - 1) < depth i ∨
    ∃ k < i, depth k = depth i ∧ ∀ m < i, k < m → depth i ≤ depth m))

/-- Place `p` is the nearest earlier place that is indented less than place `i`. -/
def Encloses (depth : Nat → Nat) (p i : Nat) : Prop :=
  p < i ∧ depth p < depth i ∧ ∀ k, p < k → k < i → depth i ≤ depth k

/-- Place `i` is on the level of place `a`, which is not left in between. -/
def SameLevel (depth : Nat → Nat) (a i : Nat) : Prop :=
  a ≤ i ∧ depth i = depth a ∧ ∀ k, a < k → k < i → depth a ≤ depth k

namespace Consistent

variable {depth : Nat → Nat} {n : Nat}

/-- A level that continues was not left in between. -/
theorem stays_open (hc : Consistent depth n) {i j : Nat} (h : Continues depth i j) (hj : j < n) :
    ∀ k, i < k → k < j → depth i < depth k := by
  obtain ⟨hij, hd, hne, hle⟩ := h
  rcases hc j hj (by omega) with hlt | ⟨k, hkj, hkd, hk⟩
  · omega
  · have hki : k ≤ i := by
      by_contra hik
      exact hne k (by omega) hkj (by omega)
    intro m him hmj
    have := hk m hmj (by omega)
    have := hne m him hmj
    omega

/-- The line below an enclosing one begins the level. -/
theorem first_of_encloses (hc : Consistent depth n) {p i : Nat} (h : Encloses depth p i)
    (hi : i < n) : depth (p + 1) = depth i := by
  induction i using Nat.strongRecOn with
  | ind i ih =>
    obtain ⟨hpi, hd, hk⟩ := h
    by_cases hone : p + 1 = i
    · rw [hone]
    · rcases hc i hi (by omega) with hlt | ⟨k, hki, hkd, hkm⟩
      · have := hk (i - 1) (by omega) (by omega)
        omega
      · have hpk : p < k := by
          rcases Nat.lt_trichotomy p k with hlt | rfl | hlt
          · exact hlt
          · omega
          · have := hkm p hpi hlt
            omega
        have he : Encloses depth p k :=
          ⟨hpk, by omega, fun m hpm hmk => by have := hk m hpm (by omega); omega⟩
        rw [ih k hki he (by omega), hkd]

/-- A line that no line encloses is on the level of the first one. -/
theorem first_of_outermost (hc : Consistent depth n) {i : Nat} (h : ∀ k < i, depth i ≤ depth k)
    (hi : i < n) : depth i = depth 0 := by
  induction i using Nat.strongRecOn with
  | ind i ih =>
    by_cases hzero : i = 0
    · rw [hzero]
    · rcases hc i hi (by omega) with hlt | ⟨k, hki, hkd, -⟩
      · have := h (i - 1) (by omega)
        omega
      · rw [← hkd]
        exact ih k hki (fun m hmk => by have := h m (by omega); omega) (by omega)

/-- No line is indented less than the first one. -/
theorem zero_le (hc : Consistent depth n) {i : Nat} (hi : i < n) : depth 0 ≤ depth i := by
  induction i using Nat.strongRecOn with
  | ind i ih =>
    rcases Nat.eq_zero_or_pos i with rfl | hpos
    · exact Nat.le_refl _
    · rcases hc i hi hpos with hlt | ⟨k, hki, hkd, -⟩
      · have := ih (i - 1) (by omega) (by omega)
        omega
      · rw [← hkd]
        exact ih k hki (by omega)

/-- Where the lines below a line end, no level lies between that line and the one it is below. -/
theorem end_le (hc : Consistent depth n) {i e : Nat} (hie : i + 1 < e) (he : e < n)
    (hin : ∀ k, i < k → k < e → depth (i + 1) ≤ depth k) (hlt : depth e < depth (i + 1)) :
    depth e ≤ depth i := by
  rcases hc e he (by omega) with h | ⟨k, hke, hkd, hk⟩
  · have := hin (e - 1) (by omega) (by omega)
    omega
  · rcases Nat.lt_trichotomy k i with h | rfl | h
    · have := hk i (by omega) h
      omega
    · omega
    · have := hin k h hke
      omega

end Consistent

/-- A later place on an open level is the place itself, or on the level of the next one there. -/
theorem SameLevel.split {depth : Nat → Nat} {a i : Nat} (h : SameLevel depth a i) (hne : a ≠ i) :
    ∃ j, Continues depth a j ∧ j ≤ i ∧ SameLevel depth j i := by
  obtain ⟨hai, hd, hk⟩ := h
  have hex : ∃ j, a < j ∧ depth j = depth a := ⟨i, by omega, hd⟩
  have hfound := Nat.find_spec hex
  have hleast : ∀ m, m < Nat.find hex → a < m → depth m ≠ depth a :=
    fun m hm ham he => Nat.find_min hex hm ⟨ham, he⟩
  have hji : Nat.find hex ≤ i := Nat.find_min' hex ⟨by omega, hd⟩
  generalize Nat.find hex = j at hfound hleast hji
  obtain ⟨haj, hjd⟩ := hfound
  refine ⟨j, ⟨haj, hjd, fun m ham hmj => hleast m hmj ham, ?_⟩, hji, hji, by omega, ?_⟩
  · by_cases hprev : j - 1 = a
    · rw [hprev, hjd]
    · have := hk (j - 1) (by omega) (by omega)
      omega
  · intro m hjm hmi
    have := hk m (by omega) hmi
    omega

theorem SameLevel.of_continues {depth : Nat → Nat} {a j i : Nat} (h : SameLevel depth j i)
    (hj : Continues depth a j) (hopen : ∀ k, a < k → k < j → depth a < depth k) :
    SameLevel depth a i := by
  obtain ⟨hji, hd, hk⟩ := h
  obtain ⟨haj, hjd, -, -⟩ := hj
  refine ⟨by omega, by omega, ?_⟩
  intro k hak hki
  rcases Nat.lt_trichotomy k j with hlt | rfl | hlt
  · have := hopen k hak hlt
    omega
  · omega
  · have := hk k hlt hki
    omega

/-- The lines that a line encloses directly are those on the level of the next line. -/
theorem Consistent.encloses_iff {depth : Nat → Nat} {n : Nat} (hc : Consistent depth n) {p i : Nat}
    (hi : i < n) :
    Encloses depth p i ↔ depth p < depth (p + 1) ∧ SameLevel depth (p + 1) i := by
  constructor
  · intro h
    have hfirst := hc.first_of_encloses h hi
    obtain ⟨hpi, hd, hk⟩ := h
    refine ⟨by omega, by omega, hfirst.symm, ?_⟩
    intro k hpk hki
    rw [hfirst]
    exact hk k (by omega) hki
  · rintro ⟨hd, hpi, hid, hk⟩
    refine ⟨by omega, by omega, ?_⟩
    intro k hpk hki
    rcases Nat.lt_or_ge (p + 1) k with h | h
    · have := hk k h hki
      omega
    · rw [show k = p + 1 by omega, hid]

/-- The lines that no line encloses are those on the level of the first one. -/
theorem Consistent.outermost_iff {depth : Nat → Nat} {n : Nat} (hc : Consistent depth n) {i : Nat}
    (hi : i < n) : (∀ k < i, depth i ≤ depth k) ↔ SameLevel depth 0 i := by
  constructor
  · intro h
    have hfirst := hc.first_of_outermost h hi
    exact ⟨Nat.zero_le i, hfirst, fun k _ hki => by have := h k hki; omega⟩
  · rintro ⟨-, hid, hk⟩ k hki
    rcases Nat.eq_zero_or_pos k with rfl | hpos
    · omega
    · have := hk k hpos hki
      omega

/-! ## Walks and chains -/

namespace Node

/-- The depth-first walk from a line, or from nowhere: the line, then all that is below its first
child, then on from its next sibling. -/
inductive Walk (node : Node) : Option Line → List Line → Prop
  | stop : Walk node none []
  | visit {line : Line} {below after : List Line} (down : Walk node (node.childOf? line) below)
      (on : Walk node (node.siblingOf? line) after) :
      Walk node (some line) (line :: (below ++ after))

/-- A line is on the chain of next siblings that begins at a line, or nowhere. -/
inductive OnChain (node : Node) : Option Line → Line → Prop
  | here (line : Line) : OnChain node (some line) line
  | next {first line : Line} (on : OnChain node (node.siblingOf? first) line) :
      OnChain node (some first) line

/-- There is at most one walk. -/
theorem Walk.unique {node : Node} {start : Option Line} {visited visited' : List Line}
    (h : node.Walk start visited) (h' : node.Walk start visited') : visited = visited' := by
  induction h generalizing visited' with
  | stop =>
    cases h'
    rfl
  | visit down on ihd iho =>
    cases h' with
    | visit down' on' => rw [ihd down', iho on']

/-- The lines from a place up to another one. -/
def between (node : Node) (i j : Nat) : List Line := (node.lines.toList.drop i).take (j - i)

theorem between_self (node : Node) (i : Nat) : node.between i i = [] := by
  simp [between]

theorem between_all (node : Node) : node.between 0 node.lines.size = node.lines.toList := by
  unfold between
  rw [List.drop_zero, ← Array.length_toList, Nat.sub_zero, List.take_length]

theorem between_cons {node : Node} {i j : Nat} {line : Line} (hl : node.lines[i]? = some line)
    (hij : i < j) : node.between i j = line :: node.between (i + 1) j := by
  rw [← Array.getElem?_toList] at hl
  obtain ⟨hlt, he⟩ := List.getElem?_eq_some_iff.mp hl
  rw [between, List.drop_eq_getElem_cons hlt, he, show j - i = j - (i + 1) + 1 by omega,
    List.take_succ_cons, between]

theorem between_append (node : Node) {i j k : Nat} (hij : i ≤ j) (hjk : j ≤ k) :
    node.between i j ++ node.between j k = node.between i k := by
  have hd : node.lines.toList.drop j = (node.lines.toList.drop i).drop (j - i) := by
    rw [List.drop_drop, show i + (j - i) = j by omega]
  unfold between
  rw [hd, show k - i = (j - i) + (k - j) by omega, List.take_add]

variable {content : List Char} {position : Position} {s t : Session} {node : Node}

/-- Where a walk that begins at a place comes to its end: at the next line that is indented less. -/
def WalkEnd (node : Node) (i e : Nat) : Prop :=
  i < e ∧ e ≤ node.lines.size ∧ (∀ k, i < k → k < e → node.depthAt i ≤ node.depthAt k) ∧
    (e < node.lines.size → node.depthAt e < node.depthAt i)

theorem exists_walkEnd (node : Node) {i : Nat} (hi : i < node.lines.size) :
    ∃ e, node.WalkEnd i e := by
  have hex : ∃ e, i < e ∧ (node.lines.size ≤ e ∨ node.depthAt e < node.depthAt i) :=
    ⟨node.lines.size, hi, .inl (Nat.le_refl _)⟩
  have hfound := Nat.find_spec hex
  have hleast : ∀ m, m < Nat.find hex → i < m → m < node.lines.size ∧
      node.depthAt i ≤ node.depthAt m := by
    intro m hm him
    have := Nat.find_min hex hm
    rw [not_and, not_or] at this
    have := this him
    omega
  generalize Nat.find hex = e at hfound hleast
  obtain ⟨hie, hend⟩ := hfound
  have hle : e ≤ node.lines.size := by
    rcases Nat.lt_or_ge (i + 1) e with h | h
    · have := (hleast (e - 1) (by omega) (by omega)).1
      omega
    · omega
  exact ⟨e, hie, hle, fun k hik hke => (hleast k hke hik).2, fun hlt => by omega⟩

/-- Where the lines below a line come to their end: at the next line that is not indented more. -/
def BelowEnd (node : Node) (i b : Nat) : Prop :=
  i < b ∧ b ≤ node.lines.size ∧ (∀ k, i < k → k < b → node.depthAt i < node.depthAt k) ∧
    (b < node.lines.size → node.depthAt b ≤ node.depthAt i)

theorem depthAt_of_size_le {node : Node} {i : Nat} (hi : node.lines.size ≤ i) :
    node.depthAt i = 0 := by
  simp [depthAt, Outline.depthAt, hi]

/-- The lines below a line are those that the walk from its child covers. -/
theorem exists_belowEnd (hc : Consistent node.depthAt node.lines.size) {i : Nat}
    (hi : i < node.lines.size) :
    ∃ b, node.BelowEnd i b ∧
      if node.depthAt i < node.depthAt (i + 1) then node.WalkEnd (i + 1) b else b = i + 1 := by
  by_cases hd : node.depthAt i < node.depthAt (i + 1)
  · have hnext : i + 1 < node.lines.size := by
      by_contra hge
      rw [depthAt_of_size_le (by omega : node.lines.size ≤ i + 1)] at hd
      omega
    obtain ⟨b, hw⟩ := node.exists_walkEnd hnext
    refine ⟨b, ?_, by rwa [if_pos hd]⟩
    obtain ⟨hib, hbn, hin, hend⟩ := hw
    have hlevel : ∀ k, i < k → k < b → node.depthAt (i + 1) ≤ node.depthAt k := by
      intro k hik hkb
      rcases Nat.lt_or_ge (i + 1) k with h | h
      · exact hin k h hkb
      · rw [show k = i + 1 by omega]
    refine ⟨by omega, hbn, ?_, fun hb => hc.end_le hib hb hlevel (hend hb)⟩
    intro k hik hkb
    have := hlevel k hik hkb
    omega
  · exact ⟨i + 1, ⟨by omega, by omega, fun k _ _ => by omega, fun _ => by omega⟩,
      by rw [if_neg hd]⟩

/-- The sibling of a line stands where the lines below it end, or nowhere. -/
theorem siblingOf?_of_belowEnd (h : read content position s = (.ok node, t))
    (hc : Consistent node.depthAt node.lines.size) {i b : Nat} {line : Line}
    (hl : node.lines[i]? = some line) (hb : node.BelowEnd i b) :
    node.siblingOf? line =
      if node.depthAt b = node.depthAt i then node.lines[b]? else none := by
  obtain ⟨hib, hbn, hin, hend⟩ := hb
  ext found
  rw [siblingOf?_eq_some_iff h hl]
  constructor
  · rintro ⟨j, hj, hf⟩
    obtain ⟨hjn, -⟩ := Array.getElem?_eq_some_iff.mp hf
    have hopen := hc.stays_open hj hjn
    obtain ⟨hij, hjd, -, -⟩ := hj
    have hjb : j = b := by
      rcases Nat.lt_trichotomy j b with hlt | heq | hlt
      · have := hin j hij hlt
        omega
      · exact heq
      · have := hopen b hib hlt
        omega
    rw [hjb] at hjd hf
    rw [if_pos hjd]
    exact hf
  · intro hf
    split at hf
    · next hbd =>
      refine ⟨b, ⟨hib, hbd, fun k hik hkb => ?_, ?_⟩, hf⟩
      · have := hin k hik hkb
        omega
      · by_cases hprev : b - 1 = i
        · rw [hprev, hbd]
        · have := hin (b - 1) (by omega) (by omega)
          omega
    · cases hf

/-- **From any line the walk covers the lines up to the first one that is indented less.** -/
theorem walk_between (h : read content position s = (.ok node, t))
    (hc : Consistent node.depthAt node.lines.size) {i e : Nat} {line : Line}
    (hl : node.lines[i]? = some line) (he : node.WalkEnd i e) :
    node.Walk (some line) (node.between i e) := by
  -- By induction on the lines from `i` on: those below `i` end at `b`, where its sibling stands.
  induction hrest : node.lines.size - i using Nat.strongRecOn generalizing i e line with
  | ind rest ih =>
    obtain ⟨hi, -⟩ := Array.getElem?_eq_some_iff.mp hl
    obtain ⟨b, hb, hfirst⟩ := exists_belowEnd hc hi
    have hsibling := siblingOf?_of_belowEnd h hc hl hb
    obtain ⟨hib, hbn, hbin, hbend⟩ := hb
    obtain ⟨hie, hen, hin, hend⟩ := he
    have hbe : b ≤ e := by
      by_contra hlt
      have := hbin e hie (by omega)
      have := hend (by omega)
      omega
    have hdown : node.Walk (node.childOf? line) (node.between (i + 1) b) := by
      rw [childOf?_eq h hl]
      split at hfirst
      · next hd =>
        rw [if_pos hd]
        obtain ⟨child, hchild⟩ : ∃ child, node.lines[i + 1]? = some child :=
          ⟨_, Array.getElem?_eq_getElem (by have := hfirst.1; omega)⟩
        rw [hchild]
        exact ih (node.lines.size - (i + 1)) (by omega) hchild hfirst rfl
      · next hd =>
        rw [if_neg hd, hfirst, between_self]
        exact .stop
    have hon : node.Walk (node.siblingOf? line) (node.between b e) := by
      rw [hsibling]
      by_cases heq : b = e
      · subst heq
        have hnone : (if node.depthAt b = node.depthAt i then node.lines[b]? else none) = none := by
          split
          · rw [Array.getElem?_eq_none_iff]
            omega
          · rfl
        rw [hnone, between_self]
        exact .stop
      · have hbd : node.depthAt b = node.depthAt i := by
          have := hin b hib (by omega)
          have := hbend (by omega)
          omega
        obtain ⟨next, hnext⟩ : ∃ next, node.lines[b]? = some next :=
          ⟨_, Array.getElem?_eq_getElem (by omega)⟩
        rw [if_pos hbd, hnext]
        refine ih (node.lines.size - b) (by omega) hnext ⟨by omega, hen, ?_, ?_⟩ rfl
        · intro k hbk hke
          rw [hbd]
          exact hin k (by omega) hke
        · rw [hbd]
          exact hend
    rw [between_cons hl hie, ← between_append node (Nat.succ_le_of_lt hib) hbe]
    exact .visit hdown hon

/-- The walk from the first line covers all lines, whatever the first line is indented by. -/
theorem walk_all (h : read content position s = (.ok node, t))
    (hc : Consistent node.depthAt node.lines.size) :
    node.Walk node.firstLine? node.lines.toList := by
  obtain ⟨first, hfirst⟩ := exists_firstLine? h
  have hzero : node.lines[0]? = some first := hfirst
  obtain ⟨hpos, -⟩ := Array.getElem?_eq_some_iff.mp hzero
  -- By consistency no line is indented less than the first one, so the walk runs to the end.
  have hend : node.WalkEnd 0 node.lines.size := by
    refine ⟨hpos, Nat.le_refl _, ?_, fun hlt => by omega⟩
    intro k _ hk
    exact hc.zero_le hk
  rw [hfirst, ← between_all]
  exact walk_between h hc hzero hend

/-- **A chain of siblings is one level**, as far as that is not left. -/
theorem onChain_iff (h : read content position s = (.ok node, t))
    (hc : Consistent node.depthAt node.lines.size) {a i : Nat} {first line : Line}
    (hf : node.lines[a]? = some first) (hl : node.lines[i]? = some line) :
    node.OnChain (some first) line ↔ SameLevel node.depthAt a i := by
  constructor
  · intro hon
    generalize hstart : some first = start at hon
    induction hon generalizing a first with
    | here line =>
      cases hstart
      rw [place_unique h hf hl]
      exact ⟨Nat.le_refl i, rfl, fun k _ _ => by omega⟩
    | @next head line on ih =>
      cases hstart
      cases hnext : node.siblingOf? head with
      | none =>
        rw [hnext] at on
        cases on
      | some next =>
        obtain ⟨j, hj, hn⟩ := (siblingOf?_eq_some_iff h hf).mp hnext
        obtain ⟨hjn, -⟩ := Array.getElem?_eq_some_iff.mp hn
        exact (ih hn hl hnext.symm).of_continues hj (hc.stays_open hj hjn)
  · intro hs
    -- By induction on the distance; the next place on the level continues it.
    induction hrest : i - a using Nat.strongRecOn generalizing a first with
    | ind rest ih =>
      by_cases hai : a = i
      · subst hai
        rw [hf] at hl
        cases hl
        exact .here _
      · obtain ⟨j, hj, hji, hs'⟩ := hs.split hai
        obtain ⟨hi, -⟩ := Array.getElem?_eq_some_iff.mp hl
        obtain ⟨next, hnext⟩ : ∃ next, node.lines[j]? = some next :=
          ⟨_, Array.getElem?_eq_getElem (by omega)⟩
        have hsibling := (siblingOf?_eq_some_iff h hf).mpr ⟨j, hj, hnext⟩
        refine .next ?_
        rw [hsibling]
        exact ih (i - j) (by have := hj.1; omega) hnext hs' rfl

/--
**A consistently indented node is its tree.**  The walk from its first line is its text, each line
once and in order, and every line is on the chain below the nearest earlier line that is indented
less, or on the first chain if there is none.
-/
theorem read_walk (h : read content position s = (.ok node, t))
    (hc : Consistent node.depthAt node.lines.size) :
    (∀ visited, node.Walk node.firstLine? visited ↔ visited = node.lines.toList) ∧
    node.lines.toList.Nodup ∧
    ∀ (i : Nat) (hi : i < node.lines.size),
      (∀ (p : Nat) (hp : p < node.lines.size),
        node.OnChain (node.childOf? node.lines[p]) node.lines[i] ↔ Encloses node.depthAt p i) ∧
      (node.OnChain node.firstLine? node.lines[i] ↔ ∀ k < i, node.depthAt i ≤ node.depthAt k) := by
  obtain ⟨first, hfirst⟩ := exists_firstLine? h
  have hzero : node.lines[0]? = some first := hfirst
  obtain ⟨hpos, -⟩ := Array.getElem?_eq_some_iff.mp hzero
  refine ⟨fun visited => ?_, lines_nodup h, fun i hi => ⟨fun p hp => ?_, ?_⟩⟩
  · have hwalk := walk_all h hc
    constructor
    · intro hv
      exact hv.unique hwalk
    · rintro rfl
      exact hwalk
  · have hl : node.lines[i]? = some node.lines[i] := Array.getElem?_eq_getElem hi
    rw [childOf?_eq h (Array.getElem?_eq_getElem hp), hc.encloses_iff hi]
    split
    · next hd =>
      have hnext : p + 1 < node.lines.size := by
        by_contra hge
        rw [depthAt_of_size_le (by omega : node.lines.size ≤ p + 1)] at hd
        omega
      rw [Array.getElem?_eq_getElem hnext,
        onChain_iff h hc (Array.getElem?_eq_getElem hnext) hl, and_iff_right hd]
    · next hd =>
      constructor
      · intro hon
        cases hon
      · intro hs
        exact absurd hs.1 hd
  · rw [hfirst, onChain_iff h hc hzero (Array.getElem?_eq_getElem hi), hc.outermost_iff hi]

/-- Levels that are left and taken up again, and a first line that is indented itself. -/
def walkSample : String := "title: A\n---\n One\n   a\n    b\n   c\n Two"

theorem read_walk_sample :
    ∃ node t, read walkSample.toList ⟨0⟩ (.start {}) = (.ok node, t) ∧
      Consistent node.depthAt node.lines.size ∧ node.lines.size = 5 ∧
      node.Walk node.firstLine? node.lines.toList := by
  have hall : (read walkSample.toList ⟨0⟩ (.start {})).1.toOption.any (fun node =>
      decide (Consistent node.depthAt node.lines.size ∧ node.lines.size = 5)) = true := by
    decide +kernel
  obtain ⟨node, t, h, hnode⟩ := exists_read hall
  obtain ⟨hc, hsize⟩ := of_decide_eq_true hnode
  exact ⟨node, t, h, hc, hsize, ((read_walk h hc).1 node.lines.toList).mpr rfl⟩

end Node

end Parley
