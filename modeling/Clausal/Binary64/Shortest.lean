import Clausal.Numeral
import Clausal.Binary64.Nearest

/-! # Shortest decimals

The decimal with the fewest digits that rounds back to a given magnitude, and of two such the
nearer. With `n` digits only the two neighbours of the value on the grid of `n` digits have to be
tried. -/

namespace Clausal.Binary64

/-- The number `digits * 10 ^ exponent`. -/
structure Decimal where
  digits : Nat
  exponent : Int
deriving DecidableEq

namespace Decimal

/-- How many digits follow the point when the number is written out; there is always one. -/
def places (d : Decimal) : Nat := max 1 (-d.exponent).toNat

/-- All digits of the number written out, without the point. -/
def spread (d : Decimal) : Nat := d.digits * 10 ^ (d.exponent + d.places).toNat

def nearest (d : Decimal) : Nat := Binary64.nearest d.spread (10 ^ d.places)

end Decimal

/-- A value in units, written to 342 places: even the smallest positive one keeps 19 digits. -/
def longDigits (units : Nat) : Nat := units * 10 ^ 342 / 2 ^ 1074

/-- The two neighbours of a value in units on the grid of `n` digits, the nearer one first. -/
def neighbours (units n : Nat) : List Decimal :=
  let cut := (Numeral.ofNat (longDigits units)).length - n
  let below := longDigits units / 10 ^ cut
  let exponent : Int := cut - 342
  let lower : Decimal := ⟨below, exponent⟩
  let upper : Decimal :=
    if below + 1 = 10 ^ n then ⟨1, exponent + n⟩ else ⟨below + 1, exponent⟩
  if 2 * units * 10 ^ 342 < (2 * below + 1) * 10 ^ cut * 2 ^ 1074 then [lower, upper]
  else [upper, lower]

def exactDecimal (units : Nat) : Decimal := ⟨units * 5 ^ 1074, -1074⟩

/-- Seventeen digits always suffice; the exact value stands in for a search that needs no argument
of that kind. -/
def shortest (magnitude : Nat) : Decimal :=
  if magnitude = 0 then ⟨0, 0⟩
  else
    let candidates := (List.range' 1 17).flatMap (neighbours (units magnitude))
    (candidates.find? fun d => d.nearest == magnitude).getD (exactDecimal (units magnitude))

end Clausal.Binary64
