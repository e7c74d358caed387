import ExprMachine.Machine.Fault
import ExprMachine.Machine.Heap
import ExprMachine.Refusal
import ExprMachine.Settings

/-! Machines and their life: a machine is created, runs programs, and is torn down. -/

namespace ExprMachine

/-- An instruction as it was listed before it ran, and the stack at that time. -/
structure TraceEntry where
  instruction : String
  stack : String
deriving DecidableEq

structure Machine where
  settings : Settings
  stack : Stack
  heap : Heap
  /-- The printed values since the output was last taken. -/
  output : Array String
  console : Array String
  trace : Array TraceEntry
  tornDown : Bool

structure Teardown where
  freed : Nat
  liveHandles : Nat
deriving DecidableEq, Repr

namespace Machine

def new (settings : Settings) : Machine where
  settings := settings
  stack := Stack.ofCapacity settings.capacity
  heap := Heap.empty
  output := #[]
  console := #[]
  trace := #[]
  tornDown := false

def create (settings : Settings) : Except Refusal Machine :=
  if settings.capacity ≤ Stack.largestCapacity then .ok (new settings)
  else .error .capacityTooLarge

/-- Makes a machine as good as new, except that its handles stay used. -/
def init (m : Machine) : Machine :=
  { m with stack := m.stack.clear, heap := m.heap.release, output := #[], tornDown := false }

/-- Drops the stack and the heap. The output stays. -/
def teardown (m : Machine) : Except Refusal (Teardown × Machine) :=
  if m.tornDown then .error .teardownTwice
  else
    let live := (m.stack.toList.filterMap Value.handle?).length
    .ok (⟨m.heap.size, live⟩,
      { m with stack := m.stack.clear, heap := m.heap.release, tornDown := true })

def takeOutput (m : Machine) : Array String × Machine :=
  (m.output, { m with output := #[] })

def freeAll (m : Machine) : Nat × Machine :=
  (m.heap.size, { m with heap := m.heap.release })

/-- A handle without a string is shown as such. -/
def format (m : Machine) (v : Value) : String :=
  v.textWith fun id => (m.heap.get? id).getD s!"<freed string {id}>"

def print (m : Machine) (v : Value) : Machine :=
  let text := m.format v
  { m with
    output := m.output.push text
    console := if m.settings.echo then m.console.push text else m.console }

def stackText (m : Machine) : String :=
  String.join (m.stack.toList.map fun v => s!"[ {m.format v} ]")

def withStack (m : Machine) (r : Except StackFault Stack) : Except Fault Machine :=
  match r with
  | .ok s => .ok { m with stack := s }
  | .error e => .error (.stack e)

def push (m : Machine) (v : Value) : Except Fault Machine :=
  m.withStack (m.stack.push v)

def pop (m : Machine) : Except Refusal (Value × Machine) :=
  match m.stack.pop? with
  | some (v, s) => .ok (v, { m with stack := s })
  | none => .error .popEmpty

/-- Pops one value after the other. Those before an empty stack stay popped. -/
def popTimes (m : Machine) (n : Nat) : Except Refusal Unit × Machine :=
  (if n ≤ m.stack.top then .ok () else .error .popEmpty, { m with stack := m.stack.drop n })

def peek (m : Machine) (distance : Nat) : Except Fault Value :=
  match m.stack.peek? distance with
  | some v => .ok v
  | none => .error (.stack (.underflow (distance + 1) m.stack.top))

/-- Refuses a distance that is the last of the words, as no word says how many values it
needs. -/
def peekChecked (m : Machine) (distance : Nat) : Except Refusal (Except Fault Value) :=
  match m.stack.peek? distance with
  | some v => .ok (.ok v)
  | none => (Word.add distance 1).map fun _ => m.peek distance

def ensureDepth (m : Machine) (needed : Nat) : Except Fault Unit :=
  match m.stack.ensureDepth needed with
  | .ok () => .ok ()
  | .error e => .error (.stack e)

/-- The two topmost values, the lower one first. -/
def operands (m : Machine) : Except Fault (Value × Value) := do
  m.ensureDepth 2
  let left ← m.peek 1
  let right ← m.peek 0
  return (left, right)

def replace (m : Machine) (n : Nat) (v : Value) : Except Fault Machine :=
  m.withStack ((m.stack.drop n).push v)

end Machine

end ExprMachine
