import ExprMachine.Proofs.Machine.Reading

/-! A machine without a heap. Strings stand on its stack as they are, so two strings are
equal when their characters are, and nothing is left from one run to the next. -/

namespace ExprMachine

inductive Datum where
  | nil
  | boolean (b : Bool)
  | number (x : Float)
  | text (s : String)
deriving DecidableEq

namespace Datum

def type : Datum → ValueType
  | nil => .nil
  | boolean _ => .boolean
  | number _ => .number
  | text _ => .string

def isFalsey : Datum → Bool
  | nil => true
  | boolean b => !b
  | _ => false

def equal : Datum → Datum → Bool
  | nil, nil => true
  | boolean a, boolean b => a == b
  | number x, number y => x == y
  | text s, text t => s == t
  | _, _ => false

def toText : Datum → String
  | nil => "nil"
  | boolean true => "true"
  | boolean false => "false"
  | number x => Layout.plain.write x
  | text s => s

def calculate (op : NumericOp) : Datum → Datum → Except Fault Datum
  | number x, number y =>
    match op with
    | .add => .ok (number (x + y))
    | .subtract => .ok (number (x - y))
    | .multiply => .ok (number (x * y))
    | .divide => if (y == 0) = true then .error .divisionByZero else .ok (number (x / y))
    | .greater => .ok (boolean (decide (y < x)))
    | .less => .ok (boolean (decide (x < y)))
  | a, b => .error (.notNumbers op a.type b.type)

def add : Datum → Datum → Except Fault Datum
  | number x, number y => .ok (number (x + y))
  | text s, text t => .ok (text (s ++ t))
  | a, b => .error (.notNumbersNorStrings a.type b.type)

def negate : Datum → Except Fault Datum
  | number x => .ok (number (-x))
  | v => .error (.notNumber v.type)

end Datum

structure ContentMachine where
  capacity : Nat
  /-- The topmost value first. -/
  stack : List Datum
  output : List String

namespace ContentMachine

def push (m : ContentMachine) (v : Datum) : Except Fault ContentMachine :=
  if m.stack.length < m.capacity then .ok { m with stack := v :: m.stack }
  else .error (.stack (.overflow m.capacity))

def withTop (m : ContentMachine)
    (f : Datum → List Datum → Except Fault ContentMachine) : Except Fault ContentMachine :=
  match m.stack with
  | v :: rest => f v rest
  | [] => .error (.stack (.underflow 1 0))

def unary (m : ContentMachine) (f : Datum → Except Fault Datum) :
    Except Fault ContentMachine :=
  m.withTop fun v rest => (f v).map fun r => { m with stack := r :: rest }

def binary (m : ContentMachine) (f : Datum → Datum → Except Fault Datum) :
    Except Fault ContentMachine :=
  match m.stack with
  | right :: left :: rest => (f left right).map fun r => { m with stack := r :: rest }
  | short => .error (.stack (.underflow 2 short.length))

def execute (m : ContentMachine) : Instruction → Except Fault ContentMachine
  | .load (.number bits) => m.push (.number (Float.ofBits bits))
  | .load (.text s) => m.push (.text s)
  | .op .nil => m.push .nil
  | .op .yes => m.push (.boolean true)
  | .op .no => m.push (.boolean false)
  | .op .pop => m.withTop fun _ rest => .ok { m with stack := rest }
  | .op .print =>
    m.withTop fun v rest => .ok { m with stack := rest, output := m.output ++ [v.toText] }
  | .op .equal => m.binary fun a b => .ok (.boolean (a.equal b))
  | .op .greater => m.binary (Datum.calculate .greater)
  | .op .less => m.binary (Datum.calculate .less)
  | .op .add => m.binary Datum.add
  | .op .subtract => m.binary (Datum.calculate .subtract)
  | .op .multiply => m.binary (Datum.calculate .multiply)
  | .op .divide => m.binary (Datum.calculate .divide)
  | .op .not => m.unary fun v => .ok (.boolean v.isFalsey)
  | .op .negate => m.unary Datum.negate
  | .op .halt | .op .constant | .op .constantLong => .ok m

/-- Where each instruction is listed before it runs, it must have a line to be listed with. -/
def listed (trace : Bool) (f : Frame) : Except Refusal Unit :=
  if trace then (f.chunk.instructionAt f.start).map fun _ => () else .ok ()

def runFrom (trace : Bool) (f : Frame) (m : ContentMachine) : Ending × ContentMachine :=
  match listed trace f.beginOp with
  | .error e => (.refused e, m)
  | .ok () =>
    match _hi : f.beginOp.readInstruction with
    | (.error e, _) => (.ofFault f.beginOp e, m)
    | (.ok i, g) =>
      if i = .op .halt then (.halted, m)
      else
        match m.execute i with
        | .ok m => runFrom trace g m
        | .error e => (.ofFault f.beginOp e, m)
termination_by f.chunk.code.size - f.next
decreasing_by
  obtain ⟨hc, -, hlt, hle, -⟩ := Frame.readInstruction_ok _hi
  rw [hc]
  simp only [Frame.beginOp] at hlt hle ⊢
  omega

theorem runFrom_eq (trace : Bool) (f : Frame) (m : ContentMachine) :
    runFrom trace f m = match listed trace f.beginOp with
      | .error e => (.refused e, m)
      | .ok () =>
        match f.beginOp.readInstruction with
        | (.error e, _) => (.ofFault f.beginOp e, m)
        | (.ok i, g) =>
          if i = .op .halt then (.halted, m)
          else
            match m.execute i with
            | .ok m => runFrom trace g m
            | .error e => (.ofFault f.beginOp e, m) := by
  rw [runFrom]
  split
  · rfl
  · split <;> simp_all

def run (trace : Bool) (capacity : Nat) (c : Chunk) : Ending × ContentMachine :=
  runFrom trace (Frame.ofChunk c) ⟨capacity, [], []⟩

end ContentMachine

end ExprMachine
