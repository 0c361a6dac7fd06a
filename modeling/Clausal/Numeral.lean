/-! # Decimal numerals

Whole numbers as decimal digits, most significant first, and back. -/

namespace Clausal.Numeral

-- Powers of whole numbers are the core library's, also where those of a monoid are in scope.
attribute [default_instance 20000] instPowNat
attribute [scoped instance (2000)] instPowNat

def ofNat (n : Nat) : List Char := Nat.toDigits 10 n

/-- Only negative numbers carry a sign. -/
def ofInt (n : Int) : List Char :=
  if n < 0 then '-' :: ofNat n.natAbs else ofNat n.natAbs

def value (digits : List Char) : Nat := Nat.ofDigitChars 10 digits 0

/-- At least `width` digits, zeros in front. -/
def padded (width n : Nat) : List Char :=
  List.replicate (width - (ofNat n).length) '0' ++ ofNat n

/-- The number `n / 10 ^ places` with `places` digits after the point. -/
def withPoint (n places : Nat) : List Char :=
  ofNat (n / 10 ^ places) ++ '.' :: padded places (n % 10 ^ places)

/-- A number of 64 bits and a sign, if it is in their range. -/
def int64? (n : Int) : Option Int64 :=
  if -2 ^ 63 ≤ n ∧ n < 2 ^ 63 then some (Int64.ofInt n) else none

def signed (negative : Bool) (digits : List Char) : Int :=
  if negative then -(value digits : Int) else value digits

end Clausal.Numeral
