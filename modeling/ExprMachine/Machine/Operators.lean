import ExprMachine.Machine.Basic

/-! The operators of the machine. They look at their operands before they take them from
the stack, so an operator that fails has changed nothing. -/

namespace ExprMachine

namespace Machine

def numeric (m : Machine) (op : NumericOp) : Except Fault Machine := do
  match ← m.operands with
  | (.number x, .number y) =>
    if op = .divide ∧ (y == 0) = true then throw .divisionByZero
    m.replace 2 (op.apply x y)
  | (left, right) => throw (.notNumbers op left.type right.type)

def concatenate (m : Machine) : Except Fault Machine := do
  match ← m.operands with
  | (.string i, .string j) =>
    match m.heap.get? i, m.heap.get? j with
    | some s, some t =>
      let (heap, id) := m.heap.intern (s ++ t)
      { m with heap := heap }.replace 2 (.string id)
    | _, _ => throw .danglingString
  | (left, right) => throw (.notStrings left.type right.type)

def add (m : Machine) : Except Fault Machine := do
  match ← m.operands with
  | (.number _, .number _) => m.numeric .add
  | (.string _, .string _) => m.concatenate
  | (left, right) => throw (.notNumbersNorStrings left.type right.type)

def equal (m : Machine) : Except Fault Machine := do
  let (left, right) ← m.operands
  m.replace 2 (.boolean (left.equal right))

def negate (m : Machine) : Except Fault Machine := do
  match ← m.peek 0 with
  | .number x => m.replace 1 (.number (-x))
  | v => throw (.notNumber v.type)

def not (m : Machine) : Except Fault Machine := do
  let v ← m.peek 0
  m.replace 1 (.boolean v.isFalsey)

def discard (m : Machine) : Except Fault Machine := do
  m.ensureDepth 1
  return { m with stack := m.stack.drop 1 }

def printTop (m : Machine) : Except Fault Machine := do
  m.ensureDepth 1
  let v ← m.peek 0
  return { m with stack := m.stack.drop 1 }.print v

end Machine

end ExprMachine
