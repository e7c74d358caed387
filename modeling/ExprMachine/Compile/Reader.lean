import ExprMachine.Compile.Diagnostic
import ExprMachine.Compile.Rules
import ExprMachine.Token.Description

/-! Reading a program in one pass over its tokens. Code is written as soon as it is known, also
for a statement in which a mistake is found later. A look beside the tokens and a loop that does
not end are outcomes of their own. -/

namespace ExprMachine

/-- What a reader comes to: a token, or the end of the program. -/
inductive Item where
  | token (t : Token)
  | finish (place : Place)

namespace Item

def token? : Item → Option Token
  | token t => some t
  | finish _ => none

def place : Item → Place
  | token t => t.place
  | finish p => p

def label : Item → String
  | token t => t.kind.label
  | finish _ => "Eof"

def rule : Item → Rule
  | token t => t.kind.rule
  | finish _ => .nothing

end Item

def Scan.items (s : Scan) : Array Item := (s.tokens.map Item.token).toArray.push (.finish s.finish)

/-- What keeps a reader from going on. Only diagnostics are for the user. -/
inductive Obstacle where
  | diagnostic (d : CompileError)
  | outside
  | endless

structure Reader where
  index : Nat
  chunk : Chunk
  errors : Array CompileError
  depth : Nat
  /-- The greatest depth so far. -/
  deepest : Nat

namespace Reader

def start : Reader := ⟨0, .empty, #[], 0, 0⟩

def moved (r : Reader) : Reader := { r with index := r.index + 1 }

def noted (r : Reader) (d : CompileError) : Reader := { r with errors := r.errors.push d }

def entered (r : Reader) : Reader :=
  { r with depth := r.depth + 1, deepest := max r.deepest (r.depth + 1) }

def left (r : Reader) : Reader := { r with depth := r.depth - 1 }

abbrev Run := EStateM Obstacle Reader

variable (items : Array Item)

def report (d : CompileError) : Run Unit := throw (.diagnostic d)

def peek : Run Item := fun r =>
  match items[r.index]? with
  | some item => .ok item r
  | none => .error .outside r

/-- Nothing comes before the first token. -/
def previous : Run Item := fun r =>
  match r.index with
  | 0 => .error .outside r
  | i + 1 =>
    match items[i]? with
    | some item => .ok item r
    | none => .error .outside r

def atEnd : Run Bool := do
  return (← peek items).token?.isNone

def advance : Run Item := do
  if ← atEnd items then previous items
  else
    modify moved
    previous items

def check (kind : Kind) : Run Bool := do
  if ← atEnd items then return false
  else return (← peek items).token?.any (·.kind = kind)

/-- Goes past a token of this kind, if it comes next. -/
def passes (kind : Kind) : Run Bool := do
  if ← check items kind then
    let _ ← advance items
    return true
  else return false

def unexpected (expected : Expected) : Run Unit := do
  let item ← peek items
  report (.parse ⟨expected, item.token?, item.place⟩)

def consume (kind : Kind) (expected : Expected) : Run Unit := do
  if ← check items kind then
    let _ ← advance items
  else unexpected items expected

def emit (code : Opcode) (line : Nat) : Run Unit :=
  modify fun r => { r with chunk := r.chunk.writeOp code line }

def emitConstant (constant : Constant) (line : Nat) : Run Unit :=
  -- taken apart so that no second copy of the chunk is kept
  fun ⟨index, chunk, errors, depth, deepest⟩ =>
    match chunk.writeConstant constant line with
    | (c, some _) => .ok () ⟨index, c, errors, depth, deepest⟩
    | (c, none) => .error (.diagnostic .tooManyConstants) ⟨index, c, errors, depth, deepest⟩

def number : Run Unit := do
  let item ← previous items
  match item.token?.map Token.kind with
  | some (.number x) => emitConstant (.number x.toBits) item.place.line
  | _ => report (.internal s!"Expected number at line={item.place.line},col={item.place.column}")

def text : Run Unit := do
  let item ← previous items
  match item.token?.map Token.kind with
  | some (.string x) => emitConstant (.text x) item.place.line
  | _ => report (.internal s!"Expected string at line={item.place.line},col={item.place.column}")

def literal : Run Unit := do
  let item ← previous items
  match item.token?.map Token.kind with
  | some (.keyword .nilWord) => emit .nil item.place.line
  | some (.keyword .trueWord) => emit .yes item.place.line
  | some (.keyword .falseWord) => emit .no item.place.line
  | _ => report (.internal s!"invalid token {item.label} in literal")

section Nested

/-! The parameter reads an expression of a precedence one level deeper. -/

variable (nested : Precedence → Run Unit)

def grouping : Run Unit := do
  nested .assignment
  consume items .rightParen .closingParen

def unary : Run Unit := do
  let operator ← previous items
  nested .unary
  match operator.token?.bind (·.kind.unaryOp?) with
  | some op => emit op.opcode operator.place.line
  | none => report (.internal s!"invalid token {operator.label} in unary expression")

def binary : Run Unit := do
  let operator ← previous items
  nested operator.rule.precedence.next
  match operator.token?.bind (·.kind.binaryOp?) with
  | some op => op.opcodes.forM fun code => emit code operator.place.line
  | none => report (.internal s!"invalid token {operator.label} in binary expression")

def apply : Form → Run Unit
  | .grouping => grouping items nested
  | .unary => unary items nested
  | .binary => binary items nested
  | .number => number items
  | .literal => literal items
  | .text => text items

def infixes (precedence : Precedence) : Nat → Run Unit
  | 0 => throw .endless
  | bound + 1 => do
    if precedence.rank ≤ (← peek items).rule.precedence.rank then
      let _ ← advance items
      let operator ← previous items
      match operator.rule.after with
      | some form =>
        apply items nested form
        infixes precedence bound
      | none => report (.internal s!"no infix rule for {operator.label}")
    else return

def operandAndInfixes (bound : Nat) (precedence : Precedence) : Run Unit := do
  match (← peek items).rule.first with
  | some form =>
    let _ ← advance items
    apply items nested form
    infixes items nested precedence bound
  | none => unexpected items .operand

end Nested

/-- The depth is put back however the reading ends. -/
def deeper (a : Run Unit) : Run Unit := fun r =>
  match a r.entered with
  | .ok u r' => .ok u r'.left
  | .error e r' => .error e r'.left

/-- The first number bounds the loops over operators, the second the recursion. -/
def parsePrecedence (bound : Nat) : Nat → Precedence → Run Unit
  | 0, _ => throw .endless
  | levels + 1, precedence => do
    if nestingLimit ≤ (← get).depth then unexpected items .shallowerNesting
    else deeper (operandAndInfixes items (parsePrecedence bound levels) bound precedence)

def statementBody (bound levels : Nat) (printed : Bool) : Run Unit := do
  parsePrecedence items bound levels .assignment
  consume items .semicolon (if printed then .semicolonAfterValue else .semicolonAfterExpression)
  emit (if printed then .print else .pop) (← previous items).place.line

def statement (bound levels : Nat) : Run Unit := do
  let printed ← passes items (.keyword .printWord)
  statementBody items bound levels printed

def afterSemicolon : Run Bool := do
  if 0 < (← get).index then return (← previous items).token?.any (·.kind = .semicolon)
  else return false

def synchronize : Nat → Run Unit
  | 0 => throw .endless
  | bound + 1 => do
    if ← atEnd items then return
    else if ← afterSemicolon items then return
    else if (← peek items).token?.any (·.kind.beginsStatement) then return
    else
      let _ ← advance items
      synchronize bound

/-- Steps past the token that the statement began with, if none was read. -/
def resumeFrom (start bound : Nat) : Run Unit := do
  if (← get).index = start then
    let _ ← advance items
    synchronize items bound
  else synchronize items bound

/-- Reads a statement and recovers from a diagnostic, but from nothing else. -/
def turn (bound levels : Nat) : Run Unit := fun r =>
  let start := r.index
  match statement items bound levels r with
  | .error (.diagnostic d) r' => resumeFrom items start bound (r'.noted d)
  | result => result

def turns (bound levels : Nat) : Nat → Run Unit
  | 0 => throw .endless
  | count + 1 => do
    if ← atEnd items then return
    else
      turn items bound levels
      turns bound levels count

def program (bound levels : Nat) : Run Unit := do
  turns items bound levels bound
  emit .halt (← peek items).place.line

/-- What a run over a whole program comes to. There is no program in which the run looks beside
the tokens or does not end, so what is left then does not matter. -/
def outcome : EStateM.Result Obstacle Reader Unit → Except (List CompileError) Chunk
  | .ok _ r => if r.errors.isEmpty then .ok r.chunk else .error r.errors.toList
  | .error _ r => .error r.errors.toList

end Reader

/-- Compiles a source text to a chunk, or to every mistake in it. Each turn of a loop passes a
token, so the number of tokens bounds the loops. -/
def compile (source : String) : Except (List CompileError) Chunk :=
  match scan source with
  | .error e => .error [.lexical e]
  | .ok s => Reader.outcome ((Reader.program s.items s.items.size (nestingLimit + 1)).run .start)

end ExprMachine
