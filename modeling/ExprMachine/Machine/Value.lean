import ExprMachine.Decimal.Layout

/-! The values that a machine computes with. A string is a handle into the heap. -/

namespace ExprMachine

inductive Value where
  | nil
  | boolean (b : Bool)
  | number (x : Float)
  | string (id : Nat)

instance : Inhabited Value := ⟨.nil⟩

inductive ValueType where
  | nil
  | boolean
  | number
  | string
deriving DecidableEq, Repr

inductive NumericOp where
  | add
  | subtract
  | multiply
  | divide
  | greater
  | less
deriving DecidableEq, Repr

def ValueType.name : ValueType → String
  | nil => "Nil"
  | boolean => "Bool"
  | number => "Number"
  | string => "String"

namespace NumericOp

def name : NumericOp → String
  | add => "Add"
  | subtract => "Sub"
  | multiply => "Mul"
  | divide => "Div"
  | greater => "Greater"
  | less => "Less"

/-- Arithmetic and comparison of doubles. Division by zero is not ruled out here. -/
def apply (op : NumericOp) (x y : Float) : Value :=
  match op with
  | add => .number (x + y)
  | subtract => .number (x - y)
  | multiply => .number (x * y)
  | divide => .number (x / y)
  | greater => .boolean (decide (y < x))
  | less => .boolean (decide (x < y))

end NumericOp

namespace Value

def type : Value → ValueType
  | nil => .nil
  | boolean _ => .boolean
  | number _ => .number
  | string _ => .string

def isFalsey : Value → Bool
  | nil => true
  | boolean b => !b
  | _ => false

/-- Numbers are compared as doubles, so the zeros are equal and what is not a number equals
nothing. Strings are equal when their handles are. -/
def equal : Value → Value → Bool
  | nil, nil => true
  | boolean a, boolean b => a == b
  | number x, number y => x == y
  | string i, string j => i == j
  | _, _ => false

def handle? : Value → Option Nat
  | string id => some id
  | _ => none

def textWith (ofString : Nat → String) : Value → String
  | nil => "nil"
  | boolean true => "true"
  | boolean false => "false"
  | number x => Layout.plain.write x
  | string id => ofString id

def toText (v : Value) : String :=
  v.textWith fun id => s!"<string {id}>"

end Value

end ExprMachine
