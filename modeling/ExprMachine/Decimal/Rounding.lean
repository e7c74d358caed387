import ExprMachine.Decimal.Binary

/-! Decimal numbers and the doubles nearest to them. -/

namespace ExprMachine

/-- The number `significand * 10 ^ exponent`. -/
structure Decimal where
  significand : Nat
  exponent : Int
deriving DecidableEq, Repr

namespace Decimal

/-- The quotient rounded to the nearest natural number, a half to the even neighbour. -/
def roundDiv (num den : Nat) : Nat :=
  let quotient := num / den
  let twice := 2 * (num % den)
  if twice < den then quotient
  else if den < twice then quotient + 1
  else quotient + quotient % 2

/-- The bits of the double nearest to `num / den`. A mantissa that rounds up to the next
power of two carries into the exponent, and whatever is too large is infinite. -/
def nearestBits (num den : Nat) : Nat :=
  let units := (num <<< 1074) / den
  let scale := units.log2 - 52
  min ((scale <<< 52) + roundDiv (num <<< 1074) (den <<< scale)) Magnitude.infinityBits

/-- The bits of the double nearest to a decimal. Far beyond the range of the doubles no
power of ten is computed. -/
def toBits (d : Decimal) : Nat :=
  if d.significand = 0 then 0
  else if 309 < d.exponent then Magnitude.infinityBits
  else if (d.significand.log2 : Int) + 1 + 3 * d.exponent < -1075 then 0
  else nearestBits (d.significand * Nat.pow 10 d.exponent.toNat) (Nat.pow 10 (-d.exponent).toNat)

def toFloat (d : Decimal) (negative : Bool) : Float :=
  Float.ofBits (UInt64.ofNat ((if negative then Magnitude.signBit else 0) + d.toBits))

end Decimal

def digitValue (c : Char) : Nat := c.toNat - 48

/-- The number `high * scale + low`. Digits are added to the low part while it is small, as
adding them one by one to a large number takes long. -/
structure SplitNumber where
  high : Nat
  low : Nat
  scale : Nat

namespace SplitNumber

def total (n : SplitNumber) : Nat := n.high * n.scale + n.low

def addDigit (n : SplitNumber) (c : Char) : SplitNumber :=
  if n.scale.log2 < 1024 then ⟨n.high, 10 * n.low + digitValue c, 10 * n.scale⟩
  else ⟨n.total, digitValue c, 10⟩

theorem total_addDigit (n : SplitNumber) (c : Char) :
    (n.addDigit c).total = 10 * n.total + digitValue c := by
  unfold addDigit
  split
  · simp only [total, Nat.mul_add, Nat.mul_left_comm 10, Nat.add_assoc]
  · exact congrArg (· + digitValue c) (Nat.mul_comm _ _)

end SplitNumber

def digitsValue (digits : List Char) : Nat :=
  (digits.foldl SplitNumber.addDigit ⟨0, 0, 1⟩).total

theorem digitsValue_eq (digits : List Char) :
    digitsValue digits = digits.foldl (fun n c => 10 * n + digitValue c) 0 := by
  suffices h : ∀ n : SplitNumber, (digits.foldl SplitNumber.addDigit n).total =
      digits.foldl (fun n c => 10 * n + digitValue c) n.total from h ⟨0, 0, 1⟩
  induction digits with
  | nil => exact fun _ => rfl
  | cons c cs ih =>
    intro n
    rw [List.foldl_cons, List.foldl_cons, ih, SplitNumber.total_addDigit]

end ExprMachine
