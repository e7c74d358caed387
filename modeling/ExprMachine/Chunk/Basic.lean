import ExprMachine.Chunk.LineTable
import ExprMachine.Decimal.Layout
import ExprMachine.Opcode

/-! Chunks: code bytes, the constants they refer to, and the line of each byte. -/

namespace ExprMachine

/-- A number is kept as the bits of a double, which tell one NaN from another. -/
inductive Constant where
  | number (bits : UInt64)
  | text (s : String)
deriving DecidableEq

namespace Constant

/-- Numbers are the same when their bits are, so the two zeros differ. -/
def same : Constant → Constant → Bool
  | number x, number y => x == y
  | text s, text t => s == t
  | _, _ => false

/-- The text of a string stands between quotes as it is. -/
def toText : Constant → String
  | number bits => Layout.plain.write (Float.ofBits bits)
  | text s => "\"" ++ s ++ "\""

end Constant

structure Chunk where
  code : Array UInt8
  constants : Array Constant
  lines : LineTable
deriving DecidableEq

namespace Chunk

def empty : Chunk := ⟨#[], #[], LineTable.empty⟩

/-- The largest index that three operand bytes can hold. -/
def lastIndex : Nat := 16777215

def write (c : Chunk) (byte : UInt8) (line : Nat) : Chunk :=
  { c with code := c.code.push byte, lines := c.lines.push line }

def writeOp (c : Chunk) (op : Opcode) (line : Nat) : Chunk :=
  c.write op.toByte line

def find? (c : Chunk) (constant : Constant) : Option Nat :=
  c.constants.findIdx? constant.same

/-- Adds a constant even if the chunk holds the same one. -/
def append (c : Chunk) (constant : Constant) : Chunk × Nat :=
  let index := c.constants.size
  ({ c with constants := c.constants.push constant }, index)

/-- The index of the first constant that is the same, which is added if there is none. -/
def intern (c : Chunk) (constant : Constant) : Chunk × Nat :=
  match c.find? constant with
  | some index => (c, index)
  | none => c.append constant

def writeAll (c : Chunk) (bytes : List UInt8) (line : Nat) : Chunk :=
  bytes.foldl (fun c byte => c.write byte line) c

/-- The shortest instruction that can load the constant at an index, high byte first. -/
def loadBytes (index : Nat) : List UInt8 :=
  if index < 256 then [Opcode.constant.toByte, UInt8.ofNat index]
  else
    [Opcode.constantLong.toByte, UInt8.ofNat (index >>> 16), UInt8.ofNat (index >>> 8),
      UInt8.ofNat index]

/-- Interns a constant and writes the instruction that loads it. If the index is too large
for an instruction, the constant is kept and none is written. -/
def writeConstant (c : Chunk) (constant : Constant) (line : Nat) : Chunk × Option Nat :=
  let (c, index) := c.intern constant
  if index ≤ lastIndex then (c.writeAll (loadBytes index) line, some index) else (c, none)

/-- The line of the byte at an offset. Offsets past the end of the table have the line of
its last run. -/
def lineAt (c : Chunk) (offset : Nat) : Except Refusal Nat :=
  match c.lines.lineAt? offset with
  | .ok (some line) => .ok line
  | .ok none => .ok (c.lines.last?.getD 0)
  | .error e => .error e

end Chunk

end ExprMachine
