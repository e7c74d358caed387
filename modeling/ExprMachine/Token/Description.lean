import ExprMachine.Decimal.Layout
import ExprMachine.Text.Quoted
import ExprMachine.Token.Scan

/-! How tokens are shown to somebody who inspects a scan. -/

namespace ExprMachine

namespace Kind

def label : Kind → String
  | leftParen => "LeftParen"
  | rightParen => "RightParen"
  | leftBrace => "LeftBrace"
  | rightBrace => "RightBrace"
  | comma => "Comma"
  | dot => "Dot"
  | minus => "Minus"
  | plus => "Plus"
  | semicolon => "Semicolon"
  | slash => "Slash"
  | star => "Star"
  | bang => "Bang"
  | bangEqual => "BangEqual"
  | equal => "Equal"
  | equalEqual => "EqualEqual"
  | greater => "Greater"
  | greaterEqual => "GreaterEqual"
  | less => "Less"
  | lessEqual => "LessEqual"
  | identifier _ => "Identifier"
  | string _ => "String"
  | number _ => "Number"
  | keyword word => word.spelling.capitalize

def literal : Kind → String
  | identifier name => s!"Some(Identifier({Quoted.quote name}))"
  | string text => s!"Some(Str({Quoted.quote text}))"
  | number value => s!"Some(Number({Layout.descriptive.write value}))"
  | _ => "None"

end Kind

/-- The text of a token stands as it is, the value of a literal is quoted. -/
def describe (label text literal : String) (place : Place) : String :=
  s!"Token \x7b ty: {label}, lexeme: \"{text}\", literal: {literal}, line: {place.line}, col: {place.column}\x7d"

def Token.description (t : Token) : String :=
  describe t.kind.label t.text t.kind.literal t.place

def Scan.descriptions (s : Scan) : List String :=
  s.tokens.map Token.description ++ [describe "Eof" "" "None" s.finish]

end ExprMachine
