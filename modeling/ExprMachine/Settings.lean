import ExprMachine.Json.Document
import ExprMachine.Json.Numeral
import ExprMachine.Text.CharSet
import ExprMachine.Text.Quoted

/-! The settings of a machine, and where they come from: the defaults, then a JSON document,
then the environment, then the command line. Each layer overrides those before it. -/

namespace ExprMachine

structure Settings where
  /-- How many values the stack holds. -/
  capacity : Nat
  /-- Whether every instruction is noted before it runs. -/
  trace : Bool
  /-- Whether printed values are also written to the console. -/
  echo : Bool
deriving DecidableEq, Repr

def Settings.default : Settings := ⟨256, false, true⟩

inductive FileFault where
  | missing
  | directory
  | notDirectory
  | denied
  | nameTooLong
  | notText
  | other (message : String)
deriving DecidableEq, Repr

namespace FileFault

def message : FileFault → String
  | missing => "No such file or directory (os error 2)"
  | directory => "Is a directory (os error 21)"
  | notDirectory => "Not a directory (os error 20)"
  | denied => "Permission denied (os error 13)"
  | nameTooLong => "File name too long (os error 36)"
  | notText => "stream did not contain valid UTF-8"
  | other message => message

end FileFault

inductive SettingsError where
  | unreadable (path : String) (fault : FileFault)
  /-- The reason is what the reader of JSON finds wrong. -/
  | malformed (reason : String)
  | invalidVariable (name value : String)
  | zeroCapacity
deriving DecidableEq, Repr

namespace SettingsError

def message : SettingsError → String
  | unreadable path fault => s!"could not read config file {path}: {fault.message}"
  | malformed reason => s!"invalid config: {reason}"
  | invalidVariable name value => s!"invalid value {Quoted.quote value} for {name}"
  | zeroCapacity => "stack capacity must be at least 1"

end SettingsError

namespace Settings

def capacityVariable : String := "STACKVM_STACK_CAPACITY"

def traceVariable : String := "STACKVM_TRACE"

def validate (s : Settings) : Except SettingsError Settings :=
  if s.capacity = 0 then .error .zeroCapacity else .ok s

/-- A member that is missing keeps its default. -/
def field? {α : Type} (default : α) (read : Json → Option α) : Option Json → Option α
  | none => some default
  | some json => read json

def readFlag? : Json → Option Bool
  | .boolean b => some b
  | _ => none

def ofJson? (json : Json) : Option Settings := do
  let [capacity, trace, echo] ←
    json.record? ["stack_capacity", "trace_execution", "echo_output"] | none
  return {
    capacity := ← field? default.capacity (Json.toNat? Word.size) capacity
    trace := ← field? default.trace readFlag? trace
    echo := ← field? default.echo readFlag? echo }

/-- The first parameter tells why a text is not read. -/
def read (explain : String → String) (text : String) : Except SettingsError Settings :=
  match (Json.parse? text).bind ofJson? with
  | some s => s.validate
  | none => .error (.malformed (explain text))

/-- A machine word in decimal, after a plus sign or none. -/
def word? (cs : List Char) : Option Nat :=
  let digits := match cs with
    | '+' :: rest => rest
    | _ => cs
  if digits.isEmpty ∨ !digits.all Char.isDigit then none
  else
    let n := digitsValue digits
    if n < Word.size then some n else none

def flag? (cs : List Char) : Option Bool :=
  let text := String.ofList cs
  if ["1", "true", "yes", "on"].contains text then some true
  else if ["0", "false", "no", "off", ""].contains text then some false
  else none

/-- Overrides a setting by a variable of the environment, if the variable is set. -/
def override {α : Type} (name : String) (read : List Char → Option α) (current : α) :
    Option String → Except SettingsError α
  | none => .ok current
  | some value =>
    match read (trimBlanks value.toList) with
    | some new => .ok new
    | none => .error (.invalidVariable name value)

def withEnvironment (s : Settings) (lookup : String → Option String) :
    Except SettingsError Settings := do
  let capacity ← override capacityVariable word? s.capacity (lookup capacityVariable)
  let trace ← override traceVariable flag? s.trace (lookup traceVariable)
  { s with capacity := capacity, trace := trace }.validate

def withCommandLine (s : Settings) (capacity : Option Nat) (trace : Bool) :
    Except SettingsError Settings :=
  { s with capacity := capacity.getD s.capacity, trace := s.trace || trace }.validate

end Settings

end ExprMachine
