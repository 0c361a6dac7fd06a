import Clausal.Binary64.Basic

/-! # The nearest floating-point number

A fraction is scaled to units of `2 ^ -1074` and cut to the 53 bits a magnitude can hold. What is
cut off rounds to the nearest, a half to the even neighbour; a carry out of the fraction bits raises
the exponent by itself. -/

namespace Clausal.Binary64

def roundHalfEven (n d : Nat) : Nat :=
  if d < 2 * (n % d) ∨ (d = 2 * (n % d) ∧ n / d % 2 = 1) then n / d + 1 else n / d

/-- The magnitude nearest to `n / d`; values out of range round to infinity. -/
def nearest (n d : Nat) : Nat :=
  let scaled := n * 2 ^ 1074
  let shift := Nat.log2 (scaled / d) - 52
  min infinity (shift * 2 ^ 52 + roundHalfEven scaled (d * 2 ^ shift))

/-- The number nearest to `n / 10 ^ places` or to its negative. -/
def ofDecimal (negative : Bool) (n places : Nat) : Binary64 :=
  ofMagnitude negative (nearest n (10 ^ places))

end Clausal.Binary64
