/-! Doubles taken apart. A finite double is a sign and a whole number of units, the unit
being the least positive double `2 ^ (-1074)`. -/

namespace ExprMachine

/-- The size of a double, without its sign. -/
inductive Magnitude where
  | nan
  | infinite
  /-- The double with `mantissa * 2 ^ scale` units. -/
  | finite (mantissa scale : Nat)
deriving DecidableEq, Repr

namespace Magnitude

def signBit : Nat := 1 <<< 63

def infinityBits : Nat := 2047 <<< 52

/-- The sign bit is not looked at. -/
def ofBits (bits : Nat) : Magnitude :=
  let exponent := (bits >>> 52) % 2048
  let fraction := bits % (1 <<< 52)
  if exponent = 2047 then (if fraction = 0 then .infinite else .nan)
  else if exponent = 0 then .finite fraction 0
  else .finite ((1 <<< 52) + fraction) (exponent - 1)

def ofFloat (x : Float) : Magnitude :=
  ofBits x.toBits.toNat

end Magnitude

def isNegative (x : Float) : Bool :=
  Magnitude.signBit ≤ x.toBits.toNat

end ExprMachine
