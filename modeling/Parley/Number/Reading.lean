/-!
# Reading numbers

A run of decimal digits, and more generally a signed decimal with fraction and exponent, is read
as the double nearest to it, where of two equally near doubles the one with the even mantissa is
taken.  What lies beyond the largest double is infinite.

Digit counts are compared before any power of ten is computed, so the size of an exponent does not
matter.
-/

namespace Parley.Number

def isDigit (c : Char) : Bool := '0' ≤ c && c ≤ '9'

/-- The number that a run of digits denotes. -/
def natOfDigits (ds : List Char) : Nat := ds.foldl (fun n d => 10 * n + (d.toNat - '0'.toNat)) 0

def infinity : Float := Float.ofBits 0x7FF0000000000000

/-- The quiet double that is no number. -/
def notANumber : Float := Float.ofBits 0x7FF8000000000000

/--
The double nearest to `digits * 10 ^ exponent`.  With 310 digits before the point a number is
beyond every finite double, and with 330 zeros after the point it is nearer to zero than to any
other.
-/
def nearestDouble (digits : List Char) (exponent : Int) : Float :=
  let significant := digits.dropWhile (· == '0')
  let magnitude := (significant.length : Int) + exponent
  if significant.isEmpty then 0
  else if 309 < magnitude then infinity
  else if magnitude < -330 then 0
  else if 0 ≤ exponent then Float.ofScientific (natOfDigits significant) false exponent.toNat
  else Float.ofScientific (natOfDigits significant) true (-exponent).toNat

def ofDigits (digits : List Char) : Float := nearestDouble digits 0

/-! ## Signed decimals -/

/-- A sign at the start of a text: whether it is a minus, and the text after it. -/
def signed : List Char → Bool × List Char
  | '-' :: cs => (true, cs)
  | '+' :: cs => (false, cs)
  | cs => (false, cs)

/-- The exponent part of a decimal: nothing, or a letter `e`, a sign and at least one digit. -/
def exponent? : List Char → Option Int
  | [] => some 0
  | e :: cs =>
    let (negative, ds) := signed cs
    if (e == 'e' || e == 'E') && !ds.isEmpty && ds.all isDigit then
      some (if negative then -(natOfDigits ds : Int) else natOfDigits ds)
    else none

/-- A decimal without its sign. -/
def unsigned? (cs : List Char) : Option Float :=
  let whole := cs.takeWhile isDigit
  let rest := cs.dropWhile isDigit
  let (fraction, rest) :=
    match rest with
    | '.' :: after => (after.takeWhile isDigit, after.dropWhile isDigit)
    | _ => ([], rest)
  if whole.isEmpty && fraction.isEmpty then none
  else (exponent? rest).map fun e => nearestDouble (whole ++ fraction) (e - fraction.length)

/--
The double that a text denotes: after an optional sign either `inf`, `infinity` or `nan` in any
case, or digits with an optional point and an optional exponent.
-/
def ofText? (cs : List Char) : Option Float :=
  let (negative, body) := signed cs
  let name := body.map Char.toLower
  let double? :=
    if name = "inf".toList || name = "infinity".toList then some infinity
    else if name = "nan".toList then some notANumber
    else unsigned? body
  double?.map fun x => if negative then -x else x

end Parley.Number
