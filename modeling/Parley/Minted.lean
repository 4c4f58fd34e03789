/-!
# Minted ids

An id that nobody wrote is made from a stem and the number of ids made before: the number is written
in lower-case hexadecimal digits, at least eight of them.
-/

namespace Parley

/-- A number in hexadecimal digits, with zeros in front up to eight digits. -/
def hexDigits (n : Nat) : List Char :=
  let digits := Nat.toDigits 16 n
  List.replicate (8 - digits.length) '0' ++ digits

/-- The id made from a stem after some number of other ids. -/
def mintedId (stem : String) (n : Nat) : String :=
  stem ++ "_" ++ String.ofList (hexDigits n)

end Parley
