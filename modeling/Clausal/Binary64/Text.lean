import Clausal.Binary64.Shortest

/-! # Floating-point numbers as text

Two layouts of the shortest decimal. The positional one writes every digit and at least one after
the point; the scientific one takes over where the number is very large or very small. -/

namespace Clausal.Binary64

def Decimal.positional (d : Decimal) : List Char := Numeral.withPoint d.spread d.places

def Decimal.order (d : Decimal) : Int := d.exponent + (Numeral.ofNat d.digits).length - 1

/-- One digit before the point; a lone digit stands without one. -/
def Decimal.scientific (d : Decimal) : List Char :=
  match Numeral.ofNat d.digits with
  | [] => []
  | [c] => c :: 'e' :: Numeral.ofInt d.order
  | c :: cs => c :: '.' :: cs ++ 'e' :: Numeral.ofInt d.order

/-- Scientific from `1e16` up and below `1e-4`. -/
def Decimal.compact (d : Decimal) : List Char :=
  if d.digits ≠ 0 ∧ (16 ≤ d.order ∨ d.order < -4) then d.scientific else d.positional

/-- A number in the given layout; the values that are not finite have names instead. -/
def written (layout : Decimal → List Char) (x : Binary64) : List Char :=
  if x.isNaN then ['N', 'a', 'N']
  else
    let unsigned := if x.isFinite then layout (shortest x.magnitude) else ['i', 'n', 'f']
    if x.negative then '-' :: unsigned else unsigned

def chars (x : Binary64) : List Char := x.written Decimal.positional

def compactChars (x : Binary64) : List Char := x.written Decimal.compact

end Clausal.Binary64
