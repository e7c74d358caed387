import ExprMachine.Text.Padding

/-! The operations of the machine and the bytes that stand for them. -/

namespace ExprMachine

inductive Opcode where
  | halt
  | constant
  | constantLong
  | nil
  | yes
  | no
  | pop
  | equal
  | greater
  | less
  | add
  | subtract
  | multiply
  | divide
  | not
  | negate
  | print
deriving DecidableEq, Repr

namespace Opcode

def name : Opcode → String
  | halt => "Return"
  | constant => "Constant"
  | constantLong => "ConstantLong"
  | nil => "Nil"
  | yes => "True"
  | no => "False"
  | pop => "Pop"
  | equal => "Equal"
  | greater => "Greater"
  | less => "Less"
  | add => "Add"
  | subtract => "Subtract"
  | multiply => "Multiply"
  | divide => "Divide"
  | not => "Not"
  | negate => "Negate"
  | print => "Print"

def toByte : Opcode → UInt8
  | halt => 0
  | constant => 1
  | constantLong => 2
  | nil => 3
  | yes => 4
  | no => 5
  | pop => 6
  | equal => 7
  | greater => 8
  | less => 9
  | add => 10
  | subtract => 11
  | multiply => 12
  | divide => 13
  | not => 14
  | negate => 15
  | print => 16

def all : List Opcode :=
  [halt, constant, constantLong, nil, yes, no, pop, equal, greater, less, add, subtract,
    multiply, divide, not, negate, print]

def ofByte? (b : UInt8) : Option Opcode :=
  all[b.toNat]?

/-- The number of bytes after the opcode that belong to its instruction. -/
def operandWidth : Opcode → Nat
  | constant => 1
  | constantLong => 3
  | _ => 0

theorem ofByte?_toByte (op : Opcode) : ofByte? op.toByte = some op := by
  cases op <;> rfl

theorem toByte_of_ofByte? {b : UInt8} {op : Opcode} (h : ofByte? b = some op) : op.toByte = b := by
  have hb : b.toNat < 17 := (List.getElem?_eq_some_iff.mp h).1
  obtain ⟨n, hn, rfl⟩ : ∃ n, n < 17 ∧ b = UInt8.ofNat n := ⟨b.toNat, hb, UInt8.ofNat_toNat.symm⟩
  have hc : ∀ n < 17, ∀ op, ofByte? (UInt8.ofNat n) = some op → op.toByte = UInt8.ofNat n := by
    decide
  exact hc n hn op h

end Opcode

end ExprMachine
