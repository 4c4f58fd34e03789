/-!
# Shortest decimals

A positive double `m * 2 ^ q` is one number, but every decimal near enough to it is read as the
same double.  The decimals that are read as it fill an interval: from half way to its lower
neighbour up to half way to its upper neighbour, where the ends belong to it exactly if `m` is
even.  The shortest decimal is a point of that interval on the coarsest decimal grid that has one
there, and of several the one nearest to the double.

All comparisons are exact: lengths are fractions with the one denominator `Dyadic.den`.

Principal results: `Dyadic.low_lt_value` and `Dyadic.value_lt_high` — the double lies strictly
inside its interval; `Dyadic.holds_nearest` — a point that is chosen is read as the double.
-/

namespace Parley.Number

/-- A positive double, written `mantissa * 2 ^ exponent`. -/
structure Dyadic where
  mantissa : Nat
  exponent : Int
  /-- The lower neighbour is only half as far away as the upper one. -/
  narrowBelow : Bool
  deriving DecidableEq, Repr

/-- A decimal `digits * 10 ^ exponent`. -/
structure Decimal where
  digits : Nat
  exponent : Int
  deriving DecidableEq, Repr

namespace Dyadic

/--
The magnitude held by the bits of a finite double: 52 bits of fraction below eleven bits of
exponent, where exponent 0 means that the fraction has no leading one.
-/
def ofBits (bits : Nat) : Dyadic :=
  let fraction : Nat := bits % (1 <<< 52)
  let biased : Nat := bits / (1 <<< 52) % (1 <<< 11)
  if biased = 0 then ⟨fraction, -1074, false⟩
  else ⟨(1 <<< 52) + fraction, (biased : Int) - 1075, decide (fraction = 0 ∧ 1 < biased)⟩

/-- Numerator over `den` of a quarter of the last place. -/
def quarter (x : Dyadic) : Nat := 1 <<< (x.exponent - 2).toNat

def den (x : Dyadic) : Nat := 1 <<< (2 - x.exponent).toNat

/-- Numerator of the double itself. -/
def value (x : Dyadic) : Nat := 4 * x.mantissa * x.quarter

/-- Numerator of the lower end of the interval. -/
def low (x : Dyadic) : Nat := (4 * x.mantissa - if x.narrowBelow then 1 else 2) * x.quarter

/-- Numerator of the upper end of the interval. -/
def high (x : Dyadic) : Nat := (4 * x.mantissa + 2) * x.quarter

theorem quarter_pos (x : Dyadic) : 0 < x.quarter := by
  rw [quarter, Nat.one_shiftLeft]
  exact Nat.two_pow_pos _

theorem low_lt_value (x : Dyadic) (h : 0 < x.mantissa) : x.low < x.value := by
  apply Nat.mul_lt_mul_of_pos_right _ x.quarter_pos
  split <;> omega

theorem value_lt_high (x : Dyadic) : x.value < x.high :=
  Nat.mul_lt_mul_of_pos_right (by omega) x.quarter_pos

/-- `⟨a, b⟩` stands for the grid whose points lie `a / b` apart: the powers of ten. -/
def grid (k : Int) : Nat × Nat := (Nat.pow 10 k.toNat, Nat.pow 10 (-k).toNat)

/-- Whether the grid point `d * 10 ^ k` is read as the double. -/
def holds (x : Dyadic) (k : Int) (d : Nat) : Bool :=
  let point := d * (grid k).1 * x.den
  let low := x.low * (grid k).2
  let high := x.high * (grid k).2
  if x.mantissa % 2 = 0 then low ≤ point && point ≤ high else low < point && point < high

/-- The two points of the grid between which the double lies. -/
def neighbours (x : Dyadic) (k : Int) : Nat × Nat :=
  let below := x.value * (grid k).2 / ((grid k).1 * x.den)
  (below, below + 1)

/-- Whether the upper one of its two neighbours is at least as near to the double. -/
def upperIsNearer (x : Dyadic) (k : Int) : Bool :=
  let (below, above) := x.neighbours k
  (below + above) * (grid k).1 * x.den ≤ 2 * (x.value * (grid k).2)

/--
The point of the grid that is read as the double and lies nearest to it; half way between two
points the upper one counts as nearer.
-/
def nearest? (x : Dyadic) (k : Int) : Option Nat :=
  let (below, above) := x.neighbours k
  match x.holds k below, x.holds k above with
  | true, true => some (if x.upperIsNearer k then above else below)
  | true, false => some below
  | false, true => some above
  | false, false => none

theorem holds_nearest {x : Dyadic} {k : Int} {d : Nat} (h : x.nearest? k = some d) :
    x.holds k d = true := by
  simp only [nearest?] at h
  split at h <;> simp only [Option.some.injEq, reduceCtorEq] at h
  · subst h; split <;> assumption
  · subst h; assumption
  · subst h; assumption

/-- The exponent of a grid so coarse that all its points but zero lie above the double. -/
def coarsest (x : Dyadic) : Nat := (Nat.toDigits 10 (x.value / x.den)).length

/--
The shortest decimal.  No double needs a finer grid than its own last place, so the search from
the coarsest grid down ends with a hit.
-/
def shortest (x : Dyadic) : Decimal :=
  let steps := List.range (x.coarsest + 1 + (-x.exponent).toNat)
  let grids : List Int := steps.map fun (i : Nat) => (x.coarsest : Int) - (i : Int)
  match grids.findSome? fun k => (x.nearest? k).map fun d => Decimal.mk d k with
  | some decimal => decimal
  | none => ⟨x.value / x.den, 0⟩

end Dyadic

end Parley.Number
