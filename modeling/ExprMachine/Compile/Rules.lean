import ExprMachine.Opcode
import ExprMachine.Syntax.Basic
import ExprMachine.Token.Basic

/-! The part that each kind of token plays in a program. -/

namespace ExprMachine

/-- How many levels deep an expression may nest. -/
def nestingLimit : Nat := 512

def UnaryOp.opcode : UnaryOp → Opcode
  | negate => .negate
  | not => .not

/-- The machine compares by equal, less and greater only; the others are their negations. -/
def BinaryOp.opcodes : BinaryOp → List Opcode
  | equal => [.equal]
  | notEqual => [.equal, .not]
  | less => [.less]
  | lessEqual => [.greater, .not]
  | greater => [.greater]
  | greaterEqual => [.less, .not]
  | add => [.add]
  | subtract => [.subtract]
  | multiply => [.multiply]
  | divide => [.divide]

/-- From the loosest to the tightest. -/
inductive Precedence where
  | none
  | assignment
  | disjunction
  | conjunction
  | equality
  | comparison
  | term
  | factor
  | unary
  | call
  | primary
deriving DecidableEq

namespace Precedence

def rank : Precedence → Nat
  | none => 0
  | assignment => 1
  | disjunction => 2
  | conjunction => 3
  | equality => 4
  | comparison => 5
  | term => 6
  | factor => 7
  | unary => 8
  | call => 9
  | primary => 10

def next : Precedence → Precedence
  | none => assignment
  | assignment => disjunction
  | disjunction => conjunction
  | conjunction => equality
  | equality => comparison
  | comparison => term
  | term => factor
  | factor => unary
  | unary => call
  | call | primary => primary

end Precedence

/-- How a token is read, first in an operand or after one. -/
inductive Form where
  | grouping
  | unary
  | binary
  | number
  | literal
  | text
deriving DecidableEq

structure Rule where
  first : Option Form
  after : Option Form
  precedence : Precedence

def Rule.nothing : Rule := ⟨none, none, .none⟩

namespace Kind

def unaryOp? : Kind → Option UnaryOp
  | minus => some .negate
  | bang => some .not
  | _ => none

def binaryOp? : Kind → Option BinaryOp
  | equalEqual => some .equal
  | bangEqual => some .notEqual
  | less => some .less
  | lessEqual => some .lessEqual
  | greater => some .greater
  | greaterEqual => some .greaterEqual
  | plus => some .add
  | minus => some .subtract
  | star => some .multiply
  | slash => some .divide
  | _ => none

/-- The words that begin a statement, here or in a larger language. -/
def beginsStatement : Kind → Bool
  | keyword .classWord | keyword .funWord | keyword .varWord | keyword .forWord
  | keyword .ifWord | keyword .whileWord | keyword .printWord | keyword .returnWord => true
  | _ => false

def rule : Kind → Rule
  | leftParen => ⟨some .grouping, none, .none⟩
  | minus => ⟨some .unary, some .binary, .term⟩
  | plus => ⟨none, some .binary, .term⟩
  | slash | star => ⟨none, some .binary, .factor⟩
  | bang => ⟨some .unary, none, .none⟩
  | bangEqual | equalEqual => ⟨none, some .binary, .equality⟩
  | greater | greaterEqual | less | lessEqual => ⟨none, some .binary, .comparison⟩
  | string _ => ⟨some .text, none, .none⟩
  | number _ => ⟨some .number, none, .none⟩
  | keyword .falseWord | keyword .trueWord | keyword .nilWord => ⟨some .literal, none, .none⟩
  | _ => .nothing

end Kind

end ExprMachine
