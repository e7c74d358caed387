/-! Source texts, where they come from, and their lines. -/

namespace ExprMachine

inductive Origin where
  | literal
  | interactive
  | file (name : String)
deriving DecidableEq, Repr

structure Source where
  origin : Origin
  text : String
deriving DecidableEq, Repr

/-- Splits a text after its newlines, which are dropped together with a carriage return
before them. After the last newline comes a line only if it is not empty. -/
def splitLines (line : List Char) : List Char → List (List Char)
  | [] => if line.isEmpty then [] else [line.reverse]
  | c :: rest =>
    if c = '\n' then
      let ended := match line with
        | '\r' :: before => before
        | _ => line
      ended.reverse :: splitLines [] rest
    else splitLines (c :: line) rest

def textLines (text : String) : List String :=
  (splitLines [] text.toList).map String.ofList

structure CutSource where
  name : String
  lines : Array String

/-- Lines count from 1. -/
def CutSource.line? (s : CutSource) : Nat → Option String
  | 0 => none
  | n + 1 => s.lines[n]?

namespace Source

def name (s : Source) : String :=
  match s.origin with
  | .literal => "<command-line input>"
  | .interactive => "<repl>"
  | .file name => name

def cut (s : Source) : CutSource :=
  ⟨s.name, (textLines s.text).toArray⟩

def line? (s : Source) (n : Nat) : Option String :=
  s.cut.line? n

end Source

end ExprMachine
