import ExprMachine.Decimal.Rounding

/-! The shortest decimal that reads back as a given double. Of the decimals with the
fewest digits the one nearest to the double is taken. -/

namespace ExprMachine

/-- Which of two equally near decimals is taken. -/
inductive Tie where
  | even
  | up
deriving DecidableEq, Repr

namespace Decimal

def digitCount (n : Nat) : Nat :=
  (Nat.toDigits 10 n).length

/-- The least `p` with `num / den < 10 ^ p`, for a quotient that is at least `10 ^ (-400)`. -/
def pointOf (num den : Nat) : Int :=
  if den ≤ num then digitCount (num / den)
  else (digitCount (num * Nat.pow 10 400 / den) : Int) - 400

/-- Moves up to `count` trailing zeros of the significand into the exponent. -/
def trimZeros : Nat → Decimal → Decimal
  | 0, d => d
  | count + 1, d =>
    if d.significand % 10 = 0 then trimZeros count ⟨d.significand / 10, d.exponent + 1⟩ else d

/-- Of the two multiples of `10 ^ exponent` around `num / den`, the one that reads back as
`bits`, and the nearer one if both do. -/
def onGrid? (tie : Tie) (bits num den : Nat) (exponent : Int) : Option Decimal :=
  let top := num * Nat.pow 10 (-exponent).toNat
  let step := den * Nat.pow 10 exponent.toNat
  let low : Decimal := ⟨top / step, exponent⟩
  let high : Decimal := ⟨top / step + 1, exponent⟩
  let twice := 2 * (top % step)
  let lowNearer := twice < step || (twice == step && tie == .even && low.significand % 2 == 0)
  if low.toBits == bits && (lowNearer || high.toBits != bits) then some low
  else if high.toBits == bits then some high
  else none

/-- The value of a double as it is: `2 ^ (-n)` is `5 ^ n` units of `10 ^ (-n)`. -/
def exact (mantissa scale : Nat) : Decimal :=
  ⟨(mantissa <<< (scale - 1074)) * Nat.pow 5 (1074 - scale), -((1074 - scale : Nat) : Int)⟩

/-- The shortest decimal of a positive double. Grids of one to seventeen digits are tried
in turn, and the exact value stands behind them. -/
def shortest (tie : Tie) (mantissa scale : Nat) : Decimal :=
  let num := mantissa <<< (scale - 1074)
  let den := 1 <<< (1074 - scale)
  let point := pointOf num den
  let found := (List.range 17).findSome? fun n =>
    onGrid? tie ((scale <<< 52) + mantissa) num den (point - (n + 1 : Nat))
  let d := found.getD (exact mantissa scale)
  trimZeros (digitCount d.significand) d

end Decimal

end ExprMachine
