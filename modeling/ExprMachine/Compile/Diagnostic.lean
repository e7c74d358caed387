import ExprMachine.Chunk.Basic
import ExprMachine.Token.Scan

/-! What a compiler tells of a text that does not compile. -/

namespace ExprMachine

inductive Expected where
  | operand
  | closingParen
  | semicolonAfterValue
  | semicolonAfterExpression
  | shallowerNesting
deriving DecidableEq, Repr

/-- A mistake with the token it was found at, or the end of the program. -/
structure ParseError where
  expected : Expected
  found : Option Token
  place : Place
deriving DecidableEq

inductive CompileError where
  | lexical (error : LexicalError)
  | parse (error : ParseError)
  | internal (message : String)
deriving DecidableEq

namespace Expected

def message : Expected → String
  | operand => "Expected expression."
  | closingParen => "Expected ')' after expression."
  | semicolonAfterValue => "Expected ';' after value."
  | semicolonAfterExpression => "Expected ';' after expression."
  | shallowerNesting => "Expression nests too deeply."

end Expected

namespace ParseError

def message (e : ParseError) : String :=
  match e.found with
  | some t => s!"{e.expected.message} (at '{t.text}')"
  | none => s!"{e.expected.message} (at end)"

end ParseError

namespace CompileError

/-- No instruction can load one more constant. -/
def tooManyConstants : CompileError :=
  .internal s!"Too many constants in one chunk (limit is {Chunk.lastIndex + 1})."

def message : CompileError → String
  | lexical e => e.fault.message
  | parse e => e.message
  | internal message => message

def place? : CompileError → Option Place
  | lexical e => some e.place
  | parse e => some e.place
  | internal _ => none

def toText (e : CompileError) : String :=
  match e.place? with
  | some p => s!"[line {p.line}:{p.column}] {e.message}"
  | none => e.message

end CompileError

end ExprMachine
