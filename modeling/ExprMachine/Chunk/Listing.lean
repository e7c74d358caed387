import ExprMachine.Chunk.Basic

/-! Listings: a chunk written out instruction by instruction. -/

namespace ExprMachine

namespace Chunk

/-- The number that bytes stand for, high byte first. -/
def operandValue (bytes : List UInt8) : Nat :=
  bytes.foldl (fun n b => n * 256 + b.toNat) 0

/-- The operand bytes after an offset, if the code holds all of them. -/
def operandBytes? (c : Chunk) (offset width : Nat) : Option (List UInt8) :=
  (List.range width).mapM fun i => c.code[offset + 1 + i]?

/-- The offset of an instruction and its line, or a bar if the byte before it has the
same line. -/
def margin (c : Chunk) (offset : Nat) : Except Refusal String := do
  let place := Padding.before '0' 4 (toString offset)
  let line ← c.lineAt offset
  let lineBefore ← c.lineAt (offset - 1)
  if 0 < offset && line == lineBefore then return place ++ "    | "
  else return place ++ " " ++ Padding.before ' ' 4 (toString line) ++ " "

def loadText (c : Chunk) (op : Opcode) (offset : Nat) : String :=
  let name := Padding.after 16 op.name
  match c.operandBytes? offset op.operandWidth with
  | none => s!"{name} <truncated>"
  | some bytes =>
    let index := operandValue bytes
    let shown := match c.constants[index]? with
      | some constant => s!"'{constant.toText}'"
      | none => "<invalid constant>"
    name ++ " " ++ Padding.before ' ' 4 (toString index) ++ " " ++ shown

/-- The instruction that starts with a byte at an offset. A byte that is no opcode counts as
an instruction of its own. -/
def instructionText (c : Chunk) (offset : Nat) (byte : UInt8) : String :=
  match Opcode.ofByte? byte with
  | none => s!"Unknown opcode {byte}"
  | some op => if op.operandWidth = 0 then op.name else c.loadText op offset

def instructionSize (byte : UInt8) : Nat :=
  match Opcode.ofByte? byte with
  | none => 1
  | some op => 1 + op.operandWidth

theorem instructionSize_pos (byte : UInt8) : 0 < instructionSize byte := by
  unfold instructionSize
  split
  · exact Nat.zero_lt_one
  · exact Nat.lt_of_lt_of_le Nat.zero_lt_one (Nat.le_add_right _ _)

def instructionAt (c : Chunk) (offset : Nat) : Except Refusal (String × Nat) := do
  let margin ← c.margin offset
  match c.code[offset]? with
  | none => return (margin ++ "<end of chunk>", ← Word.add offset 1)
  | some byte => return (margin ++ c.instructionText offset byte, offset + instructionSize byte)

def offsetsFrom (c : Chunk) (offset : Nat) : List Nat :=
  if h : offset < c.code.size then
    have := instructionSize_pos c.code[offset]
    offset :: c.offsetsFrom (offset + instructionSize c.code[offset])
  else []
termination_by c.code.size - offset

def instructions (c : Chunk) : Except Refusal (List String) :=
  (c.offsetsFrom 0).mapM fun offset => (c.instructionAt offset).map (·.1)

def listing (c : Chunk) (name : String) : Except Refusal String := do
  return "\n".intercalate (s!"=== {name} ===" :: (← c.instructions))

end Chunk

end ExprMachine
