import ExprMachine.Compile.Reader
import ExprMachine.Machine.Interpret
import ExprMachine.Settings
import ExprMachine.Source

/-! Diagnostics: what went wrong, where, and the line of the source it happened in. -/

namespace ExprMachine

/-- A text as far as it is written, and the refusal that it ends at, if there is one. -/
structure Written where
  text : String
  refusal : Option Refusal
deriving DecidableEq, Repr

namespace Written

def whole (text : String) : Written := ⟨text, none⟩

/-- Nothing is written after a refusal. -/
def append (a b : Written) : Written :=
  match a.refusal with
  | none => ⟨a.text ++ b.text, b.refusal⟩
  | some _ => a

def join (ws : List Written) : Written := ws.foldr append (whole "")

end Written

/-- Colours of terminals, all of them bold. -/
inductive Ink where
  | red
  | white
  | blue
deriving DecidableEq, Repr

namespace Ink

def style : Ink → String
  | red => "\x1b[1;31m"
  | white => "\x1b[1;37m"
  | blue => "\x1b[1;34m"

def reset : String := "\x1b[0m"

/-- A reset inside the text must not end the colour. -/
def paint (ink : Ink) (color : Bool) (text : String) : String :=
  if color then ink.style ++ text.replace reset (reset ++ ink.style) ++ reset else text

end Ink

namespace Report

def headline (color : Bool) (label message : String) : String :=
  s!"stackvm: {Ink.red.paint color label}: {Ink.white.paint color message}\n"

/-- The mark under a column. One that is too wide is refused as a whole. -/
def mark (color : Bool) (width : Nat) : Written :=
  match Padding.checkWidth width with
  | .ok () =>
    let run := Ink.blue.paint color (Padding.fill '~' width)
    let tip := Ink.blue.paint color "^"
    .whole s!"{run}{tip}\n"
  | .error r => ⟨"", some r⟩

/-- The line of a place, with a mark under its column. A line that is not there needs no
mark. -/
def excerpt (color : Bool) (source : CutSource) (p : Place) : Written :=
  let heading := s!"in {source.name}, at line {p.line}, column {p.column}:\n"
  match source.line? p.line with
  | none => .whole heading
  | some text => (Written.whole s!"{heading}{text}\n").append (mark color p.column.toNat)

def label : CompileError → String
  | .lexical _ => "lexical error"
  | .parse _ => "parse error"
  | .internal _ => "internal error"

/-- An error without a place has no excerpt. -/
def compileError (color : Bool) (source : CutSource) (e : CompileError) : Written :=
  let first := Written.whole (headline color (label e) e.message)
  match e.place? with
  | some p => first.append (excerpt color source p)
  | none => first

def runtimeError (color : Bool) (source : CutSource) (e : RuntimeError) : String :=
  let line := match source.line? e.line with
    | some text => s!"{text}\n"
    | none => ""
  headline color "runtime error" e.fault.message ++ s!"[line {e.line}] in {source.name}\n{line}"

def settingsError (color : Bool) (e : SettingsError) : String :=
  headline color "config error" e.message

def verdict (color : Bool) (source : Source) : Verdict → Written
  | .ok => .whole ""
  | .compileErrors errors => .join (errors.map (compileError color source.cut))
  | .runtimeError e => .whole (runtimeError color source.cut e)

end Report

end ExprMachine
