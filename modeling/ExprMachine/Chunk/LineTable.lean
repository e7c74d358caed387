import ExprMachine.Refusal

/-! The lines of code bytes, as runs of bytes that share a line. -/

namespace ExprMachine

structure Run where
  line : Nat
  count : Nat
deriving DecidableEq, Repr

structure LineTable where
  runs : Array Run
deriving DecidableEq, Repr

namespace LineTable

def empty : LineTable := ⟨#[]⟩

instance : Inhabited LineTable := ⟨empty⟩

def last? (t : LineTable) : Option Nat :=
  t.runs.back?.map (·.line)

/-- Adds one byte: to the last run if the line is the same, else as a run of its own. -/
def push (t : LineTable) (line : Nat) : LineTable :=
  match t.runs.back? with
  | some run =>
    if run.line = line then ⟨t.runs.pop.push ⟨line, run.count + 1⟩⟩
    else ⟨t.runs.push ⟨line, 1⟩⟩
  | none => ⟨t.runs.push ⟨line, 1⟩⟩

/-- Looks for an offset in the last `left` runs, when those before them end at `start`. Each
run that is looked at must end at a word. -/
def lineFrom? (t : LineTable) (offset : Nat) : Nat → Nat → Except Refusal (Option Nat)
  | 0, _ => .ok none
  | left + 1, start =>
    match t.runs[t.runs.size - (left + 1)]? with
    | some run =>
      if Word.size ≤ start + run.count then .error .sumTooLarge
      else if offset < start + run.count then .ok (some run.line)
      else t.lineFrom? offset left (start + run.count)
    | none => .ok none

def lineAt? (t : LineTable) (offset : Nat) : Except Refusal (Option Nat) :=
  t.lineFrom? offset t.runs.size 0

def size (t : LineTable) : Except Refusal Nat :=
  t.runs.toList.foldlM (fun sum run => Word.add sum run.count) 0

/-- A table without runs is empty; one whose runs hold no byte is not. -/
def isEmpty (t : LineTable) : Bool :=
  t.runs.isEmpty

end LineTable

end ExprMachine
