import ExprMachine.Compile.Diagnostic
import ExprMachine.Compile.Rules

/-! Parsing into trees, by operator strength. A mistake ends its statement, and parsing goes on
at the next place where a statement is likely to begin, so all mistakes are found. This is what
reading a program in one pass comes to, as long as its constants find room. -/

namespace ExprMachine

/-- What was expected at the first of the tokens that are left, or at the end of the
program when none is left. -/
structure Mistake where
  expected : Expected
  rest : List Token

def Mistake.error (finish : Place) (m : Mistake) : ParseError :=
  match m.rest with
  | t :: _ => ⟨m.expected, some t, t.place⟩
  | [] => ⟨m.expected, none, finish⟩

/-- The result of a parse and the tokens after it. -/
abbrev Parsed (α : Type) := Except Mistake (α × List Token)

namespace Kind

def literal? : Kind → Option Literal
  | number value => some (.number value)
  | string text => some (.text text)
  | keyword .nilWord => some .nil
  | keyword .trueWord => some (.boolean true)
  | keyword .falseWord => some (.boolean false)
  | _ => none

def beginsOperand (k : Kind) : Bool :=
  k.literal?.isSome || k.unaryOp?.isSome || k = .leftParen

end Kind

/-- A unary operator binds more tightly than every binary one. -/
def unaryStrength : Nat := 5

def expect (kind : Kind) (expected : Expected) : List Token → Except Mistake (Token × List Token)
  | t :: rest => if t.kind = kind then .ok (t, rest) else .error ⟨expected, t :: rest⟩
  | [] => .error ⟨expected, []⟩

/-- Extends `left` by the binary operators of at least the given strength that follow it.
The first number bounds how many operators there can be. -/
def operators (operand : Nat → List Token → Parsed Expr) (strength : Nat) :
    Nat → Expr → List Token → Parsed Expr
  | bound + 1, left, t :: rest =>
    match t.kind.binaryOp? with
    | some op =>
      if strength ≤ op.strength then
        match operand (op.strength + 1) rest with
        | .ok (right, rest) => operators operand strength bound (.binary op t.place.line left right) rest
        | .error m => .error m
      else .ok (left, t :: rest)
    | none => .ok (left, t :: rest)
  | _, left, ts => .ok (left, ts)

/-- Parses an operand: a literal, a group, or a unary operator with its own operand. The
parameter parses whatever nests one level deeper. -/
def operand (nested : Nat → List Token → Parsed Expr) : List Token → Parsed Expr
  | [] => .error ⟨.operand, []⟩
  | t :: rest =>
    match t.kind.literal?, t.kind.unaryOp? with
    | some value, _ => .ok (.literal value t.place.line, rest)
    | none, some op =>
      match nested unaryStrength rest with
      | .ok (e, rest) => .ok (.unary op t.place.line e, rest)
      | .error m => .error m
    | none, none =>
      if t.kind = .leftParen then
        match nested 0 rest with
        | .ok (e, rest) =>
          match expect .rightParen .closingParen rest with
          | .ok (_, rest) => .ok (.group e, rest)
          | .error m => .error m
        | .error m => .error m
      else .error ⟨.operand, t :: rest⟩

/-- Parses an expression whose operators have at least the given strength. Each group, unary
operator and right operand nests one level deeper; `room` levels are left. -/
def expression (bound : Nat) : Nat → Nat → List Token → Parsed Expr
  | 0, _, ts => .error ⟨.shallowerNesting, ts⟩
  | room + 1, strength, ts =>
    match operand (expression bound room) ts with
    | .ok (left, rest) => operators (expression bound room) strength bound left rest
    | .error m => .error m

def statementBody (bound : Nat) (printed : Bool) (ts : List Token) : Parsed Stmt :=
  match expression bound nestingLimit 0 ts with
  | .ok (e, rest) =>
    match expect .semicolon (if printed then .semicolonAfterValue else .semicolonAfterExpression) rest with
    | .ok (t, rest) => .ok (⟨printed, e, t.place.line⟩, rest)
    | .error m => .error m
  | .error m => .error m

def statement (bound : Nat) (ts : List Token) : Parsed Stmt :=
  match ts with
  | t :: rest =>
    if t.kind = .keyword .printWord then statementBody bound true rest
    else statementBody bound false ts
  | [] => statementBody bound false []

/-- Skips to just after the next semicolon or to the next word that begins a statement. -/
def resume : List Token → List Token
  | [] => []
  | t :: rest =>
    if t.kind.beginsStatement then t :: rest
    else if t.kind = .semicolon then rest
    else resume rest

/-- Where to go on after a mistake in the statement that begins at `start`. The first token
of a statement is never tried again, also if it is where the mistake is. -/
def recover (start : List Token) (m : Mistake) : List Token :=
  match start with
  | t :: rest =>
    if t.kind = .keyword .printWord || t.kind.beginsOperand then resume m.rest
    else if t.kind = .semicolon then rest
    else resume rest
  | [] => []

/-- Parses statements until no token is left. The first number bounds how many there
can be. -/
def statements (bound : Nat) : Nat → List Token → List Mistake × List Stmt
  | _, [] => ([], [])
  | 0, _ => ([], [])
  | count + 1, ts =>
    match statement bound ts with
    | .ok (s, rest) =>
      let (mistakes, found) := statements bound count rest
      (mistakes, s :: found)
    | .error m =>
      let (mistakes, found) := statements bound count (recover ts m)
      (m :: mistakes, found)

def parse (ts : List Token) : List Mistake × List Stmt :=
  statements ts.length ts.length ts

end ExprMachine
