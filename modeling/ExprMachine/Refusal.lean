/-! Refusals: calls that ask for what cannot be done, and are not answered at all. Offsets and
counts are words of 64 bits, and a sum that is none is refused. -/

namespace ExprMachine

inductive Refusal where
  | sumTooLarge
  | capacityTooLarge
  | fillTooWide
  | popEmpty
  | teardownTwice
  | interpretTornDown
deriving DecidableEq, Repr

namespace Refusal

def message : Refusal → String
  | sumTooLarge => "attempt to add with overflow"
  | capacityTooLarge => "capacity overflow"
  | fillTooWide => "Formatting argument out of range"
  | popEmpty => "attempted to pop empty stack!"
  | teardownTwice => "teardown called twice without an intervening init"
  | interpretTornDown => "interpret called on a torn down interpreter"

end Refusal

namespace Word

def size : Nat := UInt64.size

def add (a b : Nat) : Except Refusal Nat :=
  if a + b < size then .ok (a + b) else .error .sumTooLarge

theorem add_eq {a b : Nat} (h : a + b < size) : add a b = .ok (a + b) :=
  if_pos h

end Word

end ExprMachine
