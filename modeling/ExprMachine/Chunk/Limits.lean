import ExprMachine.Chunk.Basic

/-! Writing to chunks whose line tables may be full. A run that holds as many bytes as a
word can count takes no further one. -/

namespace ExprMachine

def LineTable.pushChecked (t : LineTable) (line : Nat) : Except Refusal LineTable :=
  match t.runs.back? with
  | some run =>
    if run.line = line then (Word.add run.count 1).map fun _ => t.push line
    else .ok (t.push line)
  | none => .ok (t.push line)

namespace Chunk

/-- Writes bytes in turn until one of them has no place in the line table. That byte stays
in the code, without a line. -/
def writeAllChecked (c : Chunk) (line : Nat) : List UInt8 → Except Refusal Unit × Chunk
  | [] => (.ok (), c)
  | byte :: rest =>
    match c.lines.pushChecked line with
    | .ok _ => (c.write byte line).writeAllChecked line rest
    | .error e => (.error e, { c with code := c.code.push byte })

def writeConstantChecked (c : Chunk) (constant : Constant) (line : Nat) :
    Except Refusal (Option Nat) × Chunk :=
  let (c, index) := c.intern constant
  if index ≤ lastIndex then
    match c.writeAllChecked line (loadBytes index) with
    | (.ok (), c) => (.ok (some index), c)
    | (.error e, c) => (.error e, c)
  else (.ok none, c)

end Chunk

end ExprMachine
