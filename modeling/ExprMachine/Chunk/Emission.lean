import ExprMachine.Chunk.Basic
import ExprMachine.Syntax.Basic

/-! Instructions with their lines, and the chunk that holds them. -/

namespace ExprMachine

inductive Instruction where
  | op (code : Opcode)
  | load (constant : Constant)
deriving DecidableEq

structure Emission where
  instruction : Instruction
  line : Nat

def Literal.instruction : Literal → Instruction
  | nil => .op .nil
  | boolean true => .op .yes
  | boolean false => .op .no
  | number x => .load (.number x.toBits)
  | text s => .load (.text s)

def Chunk.add? (c : Chunk) (e : Emission) : Option Chunk :=
  match e.instruction with
  | .op code => some (c.writeOp code e.line)
  | .load constant =>
    match c.writeConstant constant e.line with
    | (c, some _) => some c
    | (_, none) => none

def Chunk.addAll? (c : Chunk) (es : List Emission) : Option Chunk :=
  es.foldlM Chunk.add? c

end ExprMachine
