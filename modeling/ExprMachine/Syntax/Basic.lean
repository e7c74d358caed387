/-! Programs as trees. Literals and operators carry the line of their token, and so does
the semicolon that ends a statement. -/

namespace ExprMachine

inductive Literal where
  | nil
  | boolean (b : Bool)
  | number (x : Float)
  | text (s : String)
deriving DecidableEq

inductive UnaryOp where
  | negate
  | not
deriving DecidableEq, Repr

inductive BinaryOp where
  | equal
  | notEqual
  | less
  | lessEqual
  | greater
  | greaterEqual
  | add
  | subtract
  | multiply
  | divide
deriving DecidableEq, Repr

namespace BinaryOp

/-- The operator of higher strength binds its operands more tightly. -/
def strength : BinaryOp → Nat
  | equal | notEqual => 1
  | less | lessEqual | greater | greaterEqual => 2
  | add | subtract => 3
  | multiply | divide => 4

end BinaryOp

inductive Expr where
  | literal (value : Literal) (line : Nat)
  | group (inner : Expr)
  | unary (op : UnaryOp) (line : Nat) (operand : Expr)
  | binary (op : BinaryOp) (line : Nat) (left right : Expr)
deriving DecidableEq

/-- A statement evaluates an expression and prints its value or drops it. -/
structure Stmt where
  printed : Bool
  value : Expr
  line : Nat
deriving DecidableEq

end ExprMachine
