import ExprMachine.Chunk.Basic
import ExprMachine.Machine.Fault

/-! A chunk that is being executed, with the offset of the next byte to read and the
offset at which the current instruction starts. -/

namespace ExprMachine

structure Frame where
  chunk : Chunk
  next : Nat
  start : Nat

namespace Frame

def ofChunk (c : Chunk) : Frame := ⟨c, 0, 0⟩

def beginOp (f : Frame) : Frame := { f with start := f.next }

def seek (f : Frame) (offset : Nat) : Frame := { f with next := offset }

def line (f : Frame) : Except Refusal Nat := f.chunk.lineAt f.start

/-- A byte past the end is not read, and the frame stays where it is. -/
def readByte (f : Frame) : Except Fault UInt8 × Frame :=
  match f.chunk.code[f.next]? with
  | some byte => (.ok byte, { f with next := f.next + 1 })
  | none => (.error (.truncated f.next), f)

/-- Reads three bytes, high byte first. The frame moves past the bytes that are there. -/
def readLong (f : Frame) : Except Fault Nat × Frame :=
  match f.readByte with
  | (.error e, f) => (.error e, f)
  | (.ok high, f) =>
    match f.readByte with
    | (.error e, f) => (.error e, f)
    | (.ok middle, f) =>
      match f.readByte with
      | (.error e, f) => (.error e, f)
      | (.ok low, f) => (.ok (high.toNat * 65536 + middle.toNat * 256 + low.toNat), f)

def constant (f : Frame) (index : Nat) : Except Fault Constant :=
  match f.chunk.constants[index]? with
  | some constant => .ok constant
  | none => .error (.invalidConstant index)

end Frame

end ExprMachine
