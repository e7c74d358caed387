import ExprMachine.Machine.Stack

/-! What can go wrong while an instruction is executed. -/

namespace ExprMachine

inductive Fault where
  | stack (fault : StackFault)
  | truncated (offset : Nat)
  | unknownOpcode (byte : UInt8)
  | invalidConstant (index : Nat)
  | notNumbersNorStrings (left right : ValueType)
  | notNumbers (op : NumericOp) (left right : ValueType)
  | notStrings (left right : ValueType)
  | notNumber (found : ValueType)
  | danglingString
  | divisionByZero
deriving DecidableEq, Repr

namespace Fault

def message : Fault → String
  | stack fault => fault.message
  | truncated offset => s!"Unexpected end of bytecode at offset {offset}."
  | unknownOpcode byte => s!"Unknown opcode {byte}."
  | invalidConstant index => s!"Invalid constant index {index}."
  | notNumbersNorStrings left right =>
    s!"Operands must be two numbers or two strings, found {left.name} and {right.name}."
  | notNumbers op left right =>
    s!"Operands must be numbers, found {left.name} and {right.name} in {op.name} expression."
  | notStrings left right => s!"Operands must be two strings, found {left.name} and {right.name}."
  | notNumber found => s!"Operand must be a number, found {found.name}."
  | danglingString => "Dangling string handle in concatenation."
  | divisionByZero => "Division by zero."

end Fault

structure RuntimeError where
  line : Nat
  fault : Fault
deriving DecidableEq, Repr

namespace RuntimeError

def toText (e : RuntimeError) : String :=
  s!"{e.fault.message}\n[line {e.line}] in script"

end RuntimeError

end ExprMachine
