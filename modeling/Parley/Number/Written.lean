import Parley.Number.Shortest

/-!
# Numbers as they are written out

A number is written with its shortest digits, in full: zeros fill the places up to the point, and
there is never an exponent.  A whole number has no point.

Principal results: `positional_of_nonneg` — a decimal without fraction is its digits and zeros.
-/

namespace Parley.Number

/-- The digits of a decimal with zeros and a point in their places. -/
def Decimal.positional (d : Decimal) : String :=
  let digits := Nat.toDigits 10 d.digits
  let places := (-d.exponent).toNat
  if 0 ≤ d.exponent then String.ofList (digits ++ List.replicate d.exponent.toNat '0')
  else if places < digits.length then
    String.ofList
      (digits.take (digits.length - places) ++ '.' :: digits.drop (digits.length - places))
  else String.ofList ('0' :: '.' :: List.replicate (places - digits.length) '0' ++ digits)

theorem Decimal.positional_of_nonneg {d : Decimal} (h : 0 ≤ d.exponent) :
    d.positional =
      String.ofList (Nat.toDigits 10 d.digits ++ List.replicate d.exponent.toNat '0') := by
  simp [Decimal.positional, h]

/-- The text of a double without its sign. -/
def magnitude (bits : Nat) : String :=
  if bits % (1 <<< 63) = 0 then "0"
  else if bits % (1 <<< 63) = 0x7FF0000000000000 then "inf"
  else (Dyadic.ofBits bits).shortest.positional

/-- The text of a double: `NaN`, or its magnitude after a minus sign if it has one. -/
def written (x : Float) : String :=
  let bits := x.toBits.toNat
  if 0x7FF0000000000000 < bits % (1 <<< 63) then "NaN"
  else if 1 <<< 63 ≤ bits then "-" ++ magnitude bits
  else magnitude bits

end Parley.Number
