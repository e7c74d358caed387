import ExprMachine.Chunk.Listing
import ExprMachine.Machine.Frame
import ExprMachine.Machine.Operators

/-! Executing chunks, one instruction after the other. -/

namespace ExprMachine

inductive Step where
  | next (frame : Frame) (machine : Machine)
  | halted (machine : Machine)
  | failed (fault : Fault) (machine : Machine)

namespace Step

/-- An operator leaves the frame alone, and the machine too if it fails. -/
def ofResult (f : Frame) (m : Machine) : Except Fault Machine → Step
  | .ok m => next f m
  | .error e => failed e m

end Step

inductive Ending where
  | halted
  | failed (error : RuntimeError)
  | refused (refusal : Refusal)
deriving DecidableEq, Repr

/-- A fault in the current instruction of a frame ends the run, if the line can be found. -/
def Ending.ofFault (f : Frame) (fault : Fault) : Ending :=
  match f.line with
  | .ok line => .failed ⟨line, fault⟩
  | .error e => .refused e

namespace Machine

/-- A string is interned before it is pushed, and stays so if the stack is full. -/
def load (m : Machine) (f : Frame) (index : Except Fault Nat) : Step :=
  match index with
  | .error e => .failed e m
  | .ok index =>
    match f.constant index with
    | .error e => .failed e m
    | .ok (.number bits) => .ofResult f m (m.push (.number (Float.ofBits bits)))
    | .ok (.text s) =>
      let (heap, id) := m.heap.intern s
      let m := { m with heap := heap }
      .ofResult f m (m.push (.string id))

def execute (m : Machine) (f : Frame) : Opcode → Step
  | .halt => .halted m
  | .constant =>
    let (byte, f) := f.readByte
    m.load f (byte.map UInt8.toNat)
  | .constantLong =>
    let (index, f) := f.readLong
    m.load f index
  | .nil => .ofResult f m (m.push .nil)
  | .yes => .ofResult f m (m.push (.boolean true))
  | .no => .ofResult f m (m.push (.boolean false))
  | .pop => .ofResult f m m.discard
  | .equal => .ofResult f m m.equal
  | .greater => .ofResult f m (m.numeric .greater)
  | .less => .ofResult f m (m.numeric .less)
  | .add => .ofResult f m m.add
  | .subtract => .ofResult f m (m.numeric .subtract)
  | .multiply => .ofResult f m (m.numeric .multiply)
  | .divide => .ofResult f m (m.numeric .divide)
  | .not => .ofResult f m m.not
  | .negate => .ofResult f m m.negate
  | .print => .ofResult f m m.printTop

def dispatch (m : Machine) (f : Frame) : Step :=
  match f.readByte with
  | (.error e, _) => .failed e m
  | (.ok byte, f) =>
    match Opcode.ofByte? byte with
    | some op => m.execute f op
    | none => .failed (.unknownOpcode byte) m

/-- Notes the instruction that is about to run, even where the code has ended. -/
def note (m : Machine) (f : Frame) : Except Refusal Machine :=
  if m.settings.trace then
    (f.chunk.instructionAt f.start).map fun (instruction, _) =>
      { m with trace := m.trace.push ⟨instruction, m.stackText⟩ }
  else .ok m

/-- Runs a frame until an instruction halts or fails. Each instruction moves on by a byte at
least, and the first number bounds how many there can be. -/
def runFrom : Nat → Frame → Machine → Ending × Machine
  | 0, f, m => (.ofFault f (.truncated f.next), m)
  | bound + 1, f, m =>
    let f := f.beginOp
    match m.note f with
    | .error e => (.refused e, m)
    | .ok m =>
      match m.dispatch f with
      | .next f m => runFrom bound f m
      | .halted m => (.halted, m)
      | .failed fault m => (.ofFault f fault, m)

end Machine

end ExprMachine
