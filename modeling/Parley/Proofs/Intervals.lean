import Parley.Number.Shortest
import Mathlib.Tactic.Ring
import Mathlib.Tactic.Positivity
import Mathlib.Order.Monotone.Basic

/-!
# Decimals and the doubles they are read as

The intervals of the doubles touch: where that of one ends, that of the next begins.  An end belongs
to the one of the two whose mantissa is even, so a decimal is read as one double only.  The search
for the shortest decimal starts at a grid that is too coarse and ends at one on which the double
itself lies, so it does end with a decimal that is read as the double.

* `Dyadic.upper_ofBits` — neighbours share an end.
* `Dyadic.holds_apart` — no decimal is read as two doubles.
* `Dyadic.holds_shortest` — the shortest decimal of a double is read as the double.
* `Dyadic.exponent_shortest_nonneg` — a whole number has a shortest decimal without fraction.
-/

namespace Parley.Number

namespace Dyadic

/-! ## The ends of the intervals -/

/-- The lower end of the interval, counted in quarters of the smallest double. -/
def lower (x : Dyadic) : Nat :=
  (4 * x.mantissa - if x.narrowBelow then 1 else 2) * 2 ^ (x.exponent + 1074).toNat

/-- The upper end of the interval, counted in quarters of the smallest double. -/
def upper (x : Dyadic) : Nat := (4 * x.mantissa + 2) * 2 ^ (x.exponent + 1074).toNat

/-- How many quarters of the smallest double make one. -/
def unit : Nat := 2 ^ 1076

theorem unit_pos : 0 < unit := by
  unfold unit
  positivity

theorem quarter_mul_unit {x : Dyadic} (h : -1074 ≤ x.exponent) :
    x.quarter * unit = 2 ^ (x.exponent + 1074).toNat * x.den := by
  rw [quarter, den, unit, Nat.one_shiftLeft, Nat.one_shiftLeft, ← Nat.pow_add, ← Nat.pow_add]
  congr 1
  omega

theorem low_mul_unit {x : Dyadic} (h : -1074 ≤ x.exponent) : x.low * unit = x.lower * x.den := by
  rw [low, lower, Nat.mul_assoc, quarter_mul_unit h, Nat.mul_assoc]

theorem high_mul_unit {x : Dyadic} (h : -1074 ≤ x.exponent) : x.high * unit = x.upper * x.den := by
  rw [high, upper, Nat.mul_assoc, quarter_mul_unit h, Nat.mul_assoc]

theorem den_pos (x : Dyadic) : 0 < x.den := by
  rw [den, Nat.one_shiftLeft]
  exact Nat.two_pow_pos _

theorem grid_pos (k : Int) : 0 < (grid k).1 ∧ 0 < (grid k).2 :=
  ⟨Nat.pow_pos (by decide), Nat.pow_pos (by decide)⟩

/-- What is read as a double lies in its interval, and not at its ends if the mantissa is odd. -/
theorem bounds_of_holds {x : Dyadic} {k : Int} {d : Nat} (hx : -1074 ≤ x.exponent)
    (h : x.holds k d = true) :
    x.lower * (grid k).2 + x.mantissa % 2 ≤ d * (grid k).1 * unit ∧
      d * (grid k).1 * unit + x.mantissa % 2 ≤ x.upper * (grid k).2 := by
  have hlow : x.low * (grid k).2 * unit = x.lower * (grid k).2 * x.den := by
    rw [Nat.mul_right_comm, low_mul_unit hx, Nat.mul_right_comm]
  have hhigh : x.high * (grid k).2 * unit = x.upper * (grid k).2 * x.den := by
    rw [Nat.mul_right_comm, high_mul_unit hx, Nat.mul_right_comm]
  have hpoint : d * (grid k).1 * x.den * unit = d * (grid k).1 * unit * x.den :=
    Nat.mul_right_comm _ _ _
  simp only [holds] at h
  split at h <;> rename_i hm <;> simp only [Bool.and_eq_true, decide_eq_true_eq] at h
  · have hbelow := Nat.mul_le_mul_right unit h.1
    have habove := Nat.mul_le_mul_right unit h.2
    rw [hlow, hpoint] at hbelow
    rw [hpoint, hhigh] at habove
    rw [hm, Nat.add_zero, Nat.add_zero]
    exact ⟨Nat.le_of_mul_le_mul_right hbelow x.den_pos,
      Nat.le_of_mul_le_mul_right habove x.den_pos⟩
  · have hbelow := Nat.mul_lt_mul_of_pos_right h.1 unit_pos
    have habove := Nat.mul_lt_mul_of_pos_right h.2 unit_pos
    rw [hlow, hpoint] at hbelow
    rw [hpoint, hhigh] at habove
    rw [Nat.mod_two_ne_zero.mp hm]
    exact ⟨Nat.succ_le_of_lt (Nat.lt_of_mul_lt_mul_right hbelow),
      Nat.succ_le_of_lt (Nat.lt_of_mul_lt_mul_right habove)⟩

/-- A decimal that is read as a double is not zero. -/
theorem digits_pos_of_holds {x : Dyadic} {k : Int} {d : Nat} (hx : -1074 ≤ x.exponent)
    (hpos : 0 < x.mantissa) (h : x.holds k d = true) : 0 < d := by
  have hlower : 0 < x.lower := Nat.mul_pos (by split <;> omega) (Nat.two_pow_pos _)
  have hpoint := (bounds_of_holds hx h).1
  rw [Nat.pos_iff_ne_zero]
  rintro rfl
  rw [Nat.zero_mul, Nat.zero_mul] at hpoint
  have := Nat.mul_pos hlower (grid_pos k).2
  omega

/-! ## Doubles in their order -/

theorem exponent_ofBits (b : Nat) : -1074 ≤ (ofBits b).exponent := by
  rw [ofBits]
  split
  · exact Int.le_refl _
  · dsimp only
    omega

theorem mantissa_ofBits_mod_two (b : Nat) : (ofBits b).mantissa % 2 = b % 2 := by
  rw [ofBits]
  simp only [Nat.one_shiftLeft]
  split <;> dsimp only <;> omega

theorem mantissa_ofBits_pos {b : Nat} (h : 0 < b % (1 <<< 63)) : 0 < (ofBits b).mantissa := by
  rw [ofBits]
  simp only [Nat.one_shiftLeft] at h ⊢
  split <;> dsimp only <;> omega

/-- **Neighbours** share an end: where the interval of one double ends, that of the next begins. -/
theorem upper_ofBits {b : Nat} (h : b + 1 < 2 ^ 63) :
    (ofBits b).upper = (ofBits (b + 1)).lower := by
  simp only [ofBits, Nat.one_shiftLeft]
  by_cases hlast : b % 2 ^ 52 = 2 ^ 52 - 1
  · -- the next double has a larger exponent, and unless `b` is subnormal it is narrow below
    have hnext : (b + 1) % 2 ^ 52 = 0 := by omega
    have hbiased : (b + 1) / 2 ^ 52 % 2 ^ 11 = b / 2 ^ 52 % 2 ^ 11 + 1 := by omega
    rw [hlast, hnext, hbiased, if_neg (Nat.succ_ne_zero _)]
    generalize b / 2 ^ 52 % 2 ^ 11 = biased
    obtain rfl | hpos := Nat.eq_zero_or_pos biased
    · decide
    · obtain ⟨e, rfl⟩ := Nat.exists_eq_add_of_lt hpos
      have hexponent : ((0 + e + 1 : Nat) : Int) - 1075 + 1074 = (e : Int) := by omega
      have hexponent' : ((0 + e + 1 + 1 : Nat) : Int) - 1075 + 1074 = (e + 1 : Nat) := by omega
      simp only [upper, lower, Nat.succ_ne_zero, if_false]
      rw [hexponent, hexponent', Int.toNat_natCast, Int.toNat_natCast, if_pos (by simp),
        Nat.pow_succ]
      ring_nf
  · have hnext : (b + 1) % 2 ^ 52 = b % 2 ^ 52 + 1 := by omega
    have hbiased : (b + 1) / 2 ^ 52 % 2 ^ 11 = b / 2 ^ 52 % 2 ^ 11 := by omega
    rw [hnext, hbiased]
    split
    · simp only [upper, lower, Bool.false_eq_true, if_false]
      congr 1
    · simp only [upper, lower, Nat.succ_ne_zero, false_and, decide_false, Bool.false_eq_true,
        if_false]
      congr 1

theorem lower_lt_upper (x : Dyadic) : x.lower < x.upper :=
  Nat.mul_lt_mul_of_pos_right (by omega) (Nat.two_pow_pos _)

theorem lower_ofBits_mono {a b : Nat} (h : a ≤ b) (hb : b < 2 ^ 63) :
    (ofBits a).lower + (b - a) ≤ (ofBits b).lower := by
  induction b, h using Nat.le_induction with
  | base => omega
  | succ b hab ih =>
    have hstep := lower_lt_upper (ofBits b)
    rw [upper_ofBits hb] at hstep
    have := ih (by omega)
    omega

/-- **Apart**: no decimal is read as two doubles. -/
theorem holds_apart {a b : Nat} {k l : Int} {d e : Nat} (hab : a < b) (hb : b < 2 ^ 63)
    (ha : (ofBits a).holds k d = true) (he : (ofBits b).holds l e = true) :
    d * (grid k).1 * (grid l).2 ≠ e * (grid l).1 * (grid k).2 := by
  intro heq
  obtain ⟨-, hupper⟩ := bounds_of_holds (exponent_ofBits a) ha
  obtain ⟨hlower, -⟩ := bounds_of_holds (exponent_ofBits b) he
  rw [mantissa_ofBits_mod_two] at hlower hupper
  have hk := (grid_pos k).2
  have hl := (grid_pos l).2
  -- over one denominator the decimal lies below the upper end of `a` and above the lower of `b`
  have hends : (ofBits b).lower * ((grid k).2 * (grid l).2) + b % 2 * (grid k).2 +
      a % 2 * (grid l).2 ≤ (ofBits a).upper * ((grid k).2 * (grid l).2) :=
    calc (ofBits b).lower * ((grid k).2 * (grid l).2) + b % 2 * (grid k).2 + a % 2 * (grid l).2
        = ((ofBits b).lower * (grid l).2 + b % 2) * (grid k).2 + a % 2 * (grid l).2 := by ring
      _ ≤ e * (grid l).1 * unit * (grid k).2 + a % 2 * (grid l).2 :=
          Nat.add_le_add_right (Nat.mul_le_mul_right _ hlower) _
      _ = e * (grid l).1 * (grid k).2 * unit + a % 2 * (grid l).2 := by ring
      _ = (d * (grid k).1 * unit + a % 2) * (grid l).2 := by rw [← heq]; ring
      _ ≤ (ofBits a).upper * (grid k).2 * (grid l).2 := Nat.mul_le_mul_right _ hupper
      _ = (ofBits a).upper * ((grid k).2 * (grid l).2) := Nat.mul_assoc _ _ _
  -- so the ends are one, the doubles are neighbours, and one of them is odd
  have hle : (ofBits b).lower ≤ (ofBits a).upper :=
    Nat.le_of_mul_le_mul_right (by omega) (Nat.mul_pos hk hl)
  rw [upper_ofBits (by omega)] at hle hends
  have hmono := lower_ofBits_mono (show a + 1 ≤ b from hab) hb
  obtain rfl : b = a + 1 := by omega
  obtain heven | hodd := Nat.mod_two_eq_zero_or_one a
  · rw [show (a + 1) % 2 = 1 by omega] at hends
    omega
  · rw [hodd] at hends
    omega

/-! ## The search for a point -/

/-- A grid that has a point where the double lies has a point that is read as it. -/
theorem isSome_nearest? {x : Dyadic} {k : Int} (hpos : 0 < x.mantissa)
    (h : (grid k).1 * x.den ∣ x.value * (grid k).2) : (x.nearest? k).isSome = true := by
  have hbelow : (x.neighbours k).1 * (grid k).1 * x.den = x.value * (grid k).2 := by
    rw [Nat.mul_assoc]
    exact Nat.div_mul_cancel h
  have hlow := Nat.mul_lt_mul_of_pos_right (low_lt_value x hpos) (grid_pos k).2
  have hhigh := Nat.mul_lt_mul_of_pos_right (value_lt_high x) (grid_pos k).2
  have hholds : x.holds k (x.neighbours k).1 = true := by
    simp only [holds, hbelow]
    split
    · simp only [Bool.and_eq_true, decide_eq_true_eq]
      exact ⟨hlow.le, hhigh.le⟩
    · simp only [Bool.and_eq_true, decide_eq_true_eq]
      exact ⟨hlow, hhigh⟩
  simp only [nearest?, hholds]
  split <;> simp_all

/-- On the grid of the wholes, and on finer ones, a double that is a whole number of steps lies on a
point. -/
theorem isSome_nearest?_of_dvd {x : Dyadic} {k : Int} (hpos : 0 < x.mantissa) (hk : k ≤ 0)
    (h : 2 ^ (-x.exponent).toNat ∣ x.mantissa * 10 ^ (-k).toNat) :
    (x.nearest? k).isSome = true := by
  refine isSome_nearest? hpos ?_
  obtain ⟨t, ht⟩ := h
  have hscale : 2 ^ 2 * 2 ^ (x.exponent - 2).toNat * 2 ^ (-x.exponent).toNat =
      2 ^ (2 - x.exponent).toNat * 2 ^ x.exponent.toNat := by
    rw [← Nat.pow_add, ← Nat.pow_add, ← Nat.pow_add]
    congr 1
    omega
  refine ⟨2 ^ x.exponent.toNat * t, ?_⟩
  have hgrid : grid k = (1, 10 ^ (-k).toNat) := by
    rw [grid, Int.toNat_of_nonpos hk]
    rfl
  rw [hgrid, value, quarter, den, Nat.one_shiftLeft, Nat.one_shiftLeft]
  calc 4 * x.mantissa * 2 ^ (x.exponent - 2).toNat * 10 ^ (-k).toNat
      = 2 ^ 2 * 2 ^ (x.exponent - 2).toNat * (x.mantissa * 10 ^ (-k).toNat) := by ring
    _ = 2 ^ 2 * 2 ^ (x.exponent - 2).toNat * 2 ^ (-x.exponent).toNat * t := by rw [ht]; ring
    _ = 1 * 2 ^ (2 - x.exponent).toNat * (2 ^ x.exponent.toNat * t) := by rw [hscale]; ring

/-- **The search** ends with a point, on no finer grid than any on which there is one. -/
theorem shortest_spec {x : Dyadic} {k : Int} (hlow : -(-x.exponent).toNat ≤ k) (hhigh : k ≤ 0)
    (h : (x.nearest? k).isSome = true) :
    x.holds x.shortest.exponent x.shortest.digits = true ∧ k ≤ x.shortest.exponent := by
  let grids := (List.range (x.coarsest + 1 + (-x.exponent).toNat)).map
    fun (i : Nat) => (x.coarsest : Int) - (i : Int)
  have hsorted : grids.Pairwise (· > ·) :=
    List.pairwise_map.mpr (List.pairwise_lt_range.imp fun hij => by omega)
  have hk : k ∈ grids :=
    List.mem_map.mpr ⟨(x.coarsest - k).toNat, List.mem_range.mpr (by omega), by omega⟩
  cases hfound : grids.findSome? fun k => (x.nearest? k).map fun d => Decimal.mk d k with
  | none =>
    have hnone := List.findSome?_eq_none_iff.mp hfound k hk
    rw [Option.map_eq_none_iff] at hnone
    rw [hnone] at h
    cases h
  | some found =>
    have hshortest : x.shortest = found := by
      simp only [shortest]
      rw [hfound]
    obtain ⟨before, l, after, hsplit, hl, hbefore⟩ := List.findSome?_eq_some_iff.mp hfound
    obtain ⟨d, hd, rfl⟩ := Option.map_eq_some_iff.mp hl
    rw [hshortest]
    refine ⟨holds_nearest hd, ?_⟩
    -- `k` is no earlier grid, for on those there is no point
    rw [hsplit] at hk hsorted
    obtain hk | hk := List.mem_append.mp hk
    · have hnone := hbefore k hk
      rw [Option.map_eq_none_iff] at hnone
      rw [hnone] at h
      cases h
    · obtain rfl | hk := List.mem_cons.mp hk
      · exact Int.le_refl k
      · exact ((List.pairwise_cons.mp (List.pairwise_append.mp hsorted).2.1).1 k hk).le

/-- **The shortest decimal** of a double is read as the double. -/
theorem holds_shortest {x : Dyadic} (hpos : 0 < x.mantissa) :
    x.holds x.shortest.exponent x.shortest.digits = true := by
  refine (shortest_spec (k := min x.exponent 0) (by omega) (by omega) ?_).1
  refine isSome_nearest?_of_dvd hpos (by omega) ?_
  have hplaces : (-min x.exponent 0).toNat = (-x.exponent).toNat := by omega
  rw [hplaces, show 10 = 2 * 5 from rfl, Nat.mul_pow, Nat.mul_left_comm]
  exact Nat.dvd_mul_right _ _

/-- **A whole number** has a shortest decimal without fraction. -/
theorem exponent_shortest_nonneg {x : Dyadic} (hpos : 0 < x.mantissa)
    (h : 2 ^ (-x.exponent).toNat ∣ x.mantissa) : 0 ≤ x.shortest.exponent :=
  (shortest_spec (by omega) (Int.le_refl 0)
    (isSome_nearest?_of_dvd hpos (Int.le_refl 0) (by simpa using h))).2

end Dyadic

end Parley.Number
