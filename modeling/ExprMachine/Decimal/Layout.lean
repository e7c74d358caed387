import ExprMachine.Decimal.Shortest

/-! How a double is written out, given its shortest digits. -/

namespace ExprMachine

structure Layout where
  /-- For `some (p, q)` the numbers from `10 ^ p` up to `10 ^ q` are written without an
  exponent, for `none` all numbers are. -/
  positional : Option (Int × Int)
  /-- Whether a number without a fraction is written with a zero after the point. -/
  wholePoint : Bool
  /-- Whether an exponent that is not negative is written with a plus sign. -/
  plusSign : Bool
  tie : Tie

namespace Layout

/-- The form in which programs print numbers: every digit before and after the point. -/
def plain : Layout where
  positional := none
  wholePoint := false
  plusSign := false
  tie := .up

/-- The form in which tokens are described: always a point or an exponent. -/
def descriptive : Layout where
  positional := some (-4, 16)
  wholePoint := true
  plusSign := false
  tie := .up

def stored : Layout where
  positional := some (-5, 16)
  wholePoint := true
  plusSign := true
  tie := .even

def isPositional (l : Layout) (point : Int) : Bool :=
  match l.positional with
  | none => true
  | some (low, high) => low < point && point ≤ high

def zeros (n : Nat) : List Char :=
  List.replicate n '0'

/-- Digits `0.d₁d₂… * 10 ^ point` without an exponent. -/
def positionalDigits (l : Layout) (digits : List Char) (point : Int) : List Char :=
  if point ≤ 0 then ['0', '.'] ++ zeros (-point).toNat ++ digits
  else
    let before := digits.take point.toNat
    let after := digits.drop point.toNat
    if after.isEmpty then
      before ++ zeros (point.toNat - before.length) ++ (if l.wholePoint then ['.', '0'] else [])
    else before ++ '.' :: after

/-- Digits `0.d₁d₂… * 10 ^ point` with one digit before the point and an exponent. -/
def scientificDigits (l : Layout) (digits : List Char) (point : Int) : List Char :=
  let exponent := point - 1
  let sign := if exponent < 0 then ['-'] else if l.plusSign then ['+'] else []
  let fraction := if digits.length ≤ 1 then [] else '.' :: digits.drop 1
  digits.take 1 ++ fraction ++ 'e' :: sign ++ Nat.toDigits 10 exponent.natAbs

def decimal (l : Layout) (d : Decimal) : List Char :=
  let digits := Nat.toDigits 10 d.significand
  let point := (digits.length : Int) + d.exponent
  if l.isPositional point then l.positionalDigits digits point
  else l.scientificDigits digits point

def signed (negative : Bool) (text : List Char) : String :=
  String.ofList (if negative then '-' :: text else text)

/-- A zero keeps its sign. -/
def finite (l : Layout) (negative : Bool) (mantissa scale : Nat) : String :=
  signed negative <|
    if mantissa = 0 then (if l.wholePoint then ['0', '.', '0'] else ['0'])
    else l.decimal (Decimal.shortest l.tie mantissa scale)

/-- What is not a number has no sign. -/
def write (l : Layout) (x : Float) : String :=
  match Magnitude.ofFloat x with
  | .nan => "NaN"
  | .infinite => signed (isNegative x) ['i', 'n', 'f']
  | .finite mantissa scale => l.finite (isNegative x) mantissa scale

end Layout

end ExprMachine
