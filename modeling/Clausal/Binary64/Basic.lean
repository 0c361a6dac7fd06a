/-! # Floating-point numbers of 64 bits

A number is a sign and the other 63 bits read as one natural number, its magnitude. Magnitudes are
ordered as the absolute values they stand for; those from `infinity` on stand for no finite
value. -/

namespace Clausal

-- Powers of whole numbers are the core library's, also where those of a monoid are in scope.
attribute [default_instance 20000] instPowNat

structure Binary64 where
  negative : Bool
  magnitude : Fin (2 ^ 63)
deriving DecidableEq

namespace Binary64

attribute [scoped instance (2000)] instPowNat

/-- All bits of the exponent set, none of the fraction. -/
def infinity : Nat := 0x7ff * 2 ^ 52

def isFinite (x : Binary64) : Bool := x.magnitude.val < infinity

def isNaN (x : Binary64) : Bool := infinity < x.magnitude.val

/-- The bits above a magnitude's 63 are dropped. -/
def ofMagnitude (negative : Bool) (magnitude : Nat) : Binary64 :=
  ⟨negative, Fin.ofNat (2 ^ 63) magnitude⟩

def ofBits (bits : Nat) : Binary64 := ofMagnitude (bits.testBit 63) bits

def bits (x : Binary64) : Nat := (if x.negative then 2 ^ 63 else 0) + x.magnitude.val

/-- The absolute value of a finite magnitude, counted in the smallest positive one, `2 ^ -1074`. -/
def units (magnitude : Nat) : Nat :=
  if magnitude < 2 ^ 52 then magnitude
  else (2 ^ 52 + magnitude % 2 ^ 52) * 2 ^ (magnitude / 2 ^ 52 - 1)

end Binary64

end Clausal
