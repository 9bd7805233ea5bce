/-!
# Decimal numerals

A natural number written in decimal digits, with a plus sign allowed in front
and any number of leading zeros.
-/

namespace Landing.Text

/-- A decimal digit. -/
def isDecimalDigit (c : Char) : Bool := '0' ≤ c && c ≤ '9'

/-- The value of digits in base `base`, each digit given by its value. -/
def placeValue (base : Nat) (ds : List Nat) : Nat := ds.foldl (fun n d => n * base + d) 0

/-- The value of a list of decimal digits. -/
def decimalDigitsValue (ds : List Char) : Nat := placeValue 10 (ds.map fun c => c.toNat - 48)

/-- The number written in at least one digit, if nothing else is there. -/
def digitsOnly? (cs : List Char) : Option Nat :=
  if cs.isEmpty || !cs.all isDecimalDigit then none else some (decimalDigitsValue cs)

/-- The number that a text writes. -/
def natural? (s : String) : Option Nat :=
  match s.toList with
  | '+' :: cs => digitsOnly? cs
  | cs => digitsOnly? cs

end Landing.Text
