import ExprMachine.Compile.Reader
import ExprMachine.Machine.Run

/-! Interpreting programs. A program that does not compile leaves the machine as it is; any
other starts with an empty stack and an empty heap, and its output comes after the output
so far. -/

namespace ExprMachine

inductive Verdict where
  | ok
  | compileErrors (errors : List CompileError)
  | runtimeError (error : RuntimeError)
deriving DecidableEq

namespace Verdict

def isOk : Verdict → Bool
  | ok => true
  | _ => false

def exitCode : Verdict → Nat
  | ok => 0
  | compileErrors _ => 65
  | runtimeError _ => 70

end Verdict

namespace Machine

def interpretChunk (m : Machine) (c : Chunk) : Except Refusal Verdict × Machine :=
  if m.tornDown then (.error .interpretTornDown, m)
  else
    let m := { m with stack := m.stack.clear, heap := m.heap.release }
    match runFrom (c.code.size + 1) (Frame.ofChunk c) m with
    | (.halted, m) => (.ok .ok, m)
    | (.failed e, m) => (.ok (.runtimeError e), m)
    | (.refused e, m) => (.error e, m)

def interpret (m : Machine) (source : String) : Except Refusal Verdict × Machine :=
  if m.tornDown then (.error .interpretTornDown, m)
  else
    match compile source with
    | .ok chunk => m.interpretChunk chunk
    | .error errors => (.ok (.compileErrors errors), m)

end Machine

end ExprMachine
