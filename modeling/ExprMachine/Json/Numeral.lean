import ExprMachine.Decimal.Rounding
import ExprMachine.Json.Parse
import ExprMachine.Refusal

/-! The values of numbers in JSON. A whole number is a machine word. A number in general
is read in double arithmetic: the digits that fit into a word are converted to a double,
which is then scaled by a power of ten. -/

namespace ExprMachine

namespace Json

/-- Digits gathered into a word, and the power of ten they are to be scaled by. -/
structure Gathered where
  significand : Nat
  scale : Int
  full : Bool

namespace Gathered

def takes (g : Gathered) (digit : Nat) : Bool :=
  !g.full && g.significand * 10 + digit < Word.size

/-- A digit before the point that does not fit counts as a factor of ten. -/
def addWhole (g : Gathered) (c : Char) : Gathered :=
  let digit := digitValue c
  if g.takes digit then { g with significand := g.significand * 10 + digit }
  else { g with scale := g.scale + 1, full := true }

/-- A digit after the point that does not fit is ignored. -/
def addFraction (g : Gathered) (c : Char) : Gathered :=
  let digit := digitValue c
  if g.takes digit then
    { g with significand := g.significand * 10 + digit, scale := g.scale - 1 }
  else { g with full := true }

end Gathered

/-- The largest exponent that has a value of its own, a signed word of 32 bits. -/
def exponentLimit : Nat := 2147483647

def powerOfTen (n : Nat) : Float :=
  (Decimal.mk 1 n).toFloat false

/-- Multiplies by `10 ^ scale`, if the result is finite. A power of ten below the least
double is divided out in steps, of which no more than three can matter. -/
def scaled? : Nat → Float → Int → Option Float
  | steps + 1, x, scale =>
    if scale.natAbs ≤ 308 then
      if 0 ≤ scale then
        let y := x * powerOfTen scale.natAbs
        if y.isInf then none else some y
      else some (x / powerOfTen scale.natAbs)
    else if x == 0 then some x
    else if 0 ≤ scale then none
    else scaled? steps (x / powerOfTen 308) (scale + 308)
  | 0, x, _ => some x

/-- Scales by an exponent that is written out. One too large to have a value of its own
makes every number but zero too large, or zero if the exponent is negative. -/
def withExponent? (g : Gathered) (negative : Bool) (digits : List Char) : Option Float :=
  let exponent := digitsValue digits
  if exponentLimit < exponent then
    if g.significand ≠ 0 ∧ !negative then none else some 0
  else
    let scale := if negative then g.scale - exponent else g.scale + exponent
    scaled? 4 (UInt64.ofNat g.significand).toFloat scale

def magnitude? (cs : List Char) : Option Float :=
  let (whole, rest) := digits cs
  let g := whole.foldl Gathered.addWhole ⟨0, 0, false⟩
  let (fraction, rest) := match rest with
    | '.' :: rest => digits rest
    | rest => ([], rest)
  let g := fraction.foldl Gathered.addFraction { g with full := false }
  match rest with
  | _ :: '-' :: rest => withExponent? g true rest
  | _ :: '+' :: rest => withExponent? g false rest
  | _ :: rest => withExponent? g false rest
  | [] => scaled? 4 (UInt64.ofNat g.significand).toFloat g.scale

def toFloat? : Json → Option Float
  | number text =>
    match text.toList with
    | '-' :: cs => (magnitude? cs).map fun x => -x
    | cs => magnitude? cs
  | _ => none

/-- The natural number below the limit that a number stands for. A sign, a point or an
exponent makes it another kind of number. -/
def toNat? (limit : Nat) : Json → Option Nat
  | number text =>
    let cs := text.toList
    let n := digitsValue cs
    if cs.all Char.isDigit ∧ n < limit then some n else none
  | _ => none

end Json

end ExprMachine
