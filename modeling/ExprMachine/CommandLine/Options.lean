import ExprMachine.Settings

/-! The options of the command line. -/

namespace ExprMachine

structure Options where
  file : Option String
  literal : Option String
  disassemble : Bool
  dump : Bool
  trace : Bool
  capacity : Option Nat
  settingsFile : Option String
deriving DecidableEq, Repr

/-- Why there are no options: the arguments are wrong, or they ask for the help. -/
inductive Unread where
  | misused
  | help
deriving DecidableEq, Repr

namespace Unread

/-- The exit status. A text about the usage goes with it, which is left out here. -/
def status : Unread → Nat
  | misused => 2
  | help => 0

/-- All that is wrong with an argument is one and the same. -/
def misusedUnless : Option Options → Except Unread Options
  | some o => .ok o
  | none => .error misused

end Unread

namespace Options

def empty : Options := ⟨none, none, false, false, false, none, none⟩

/-- Fills in what may be given only once. -/
def once {α : Type} (current : Option α) (new : Option α) : Option (Option α) :=
  match current, new with
  | none, some value => some (some value)
  | _, _ => none

def path? (text : String) : Option String :=
  if text.isEmpty then none else some text

def setLiteral (o : Options) (text : String) : Option Options :=
  (once o.literal (some text)).map fun v => { o with literal := v }

def setFile (o : Options) (text : String) : Option Options :=
  (once o.file (path? text)).map fun v => { o with file := v }

def setCapacity (o : Options) (text : String) : Option Options :=
  (once o.capacity (Settings.word? text.toList)).map fun v => { o with capacity := v }

def setSettingsFile (o : Options) (text : String) : Option Options :=
  (once o.settingsFile (path? text)).map fun v => { o with settingsFile := v }

def setter? (name : List Char) : Option (Options → String → Option Options) :=
  let name := String.ofList name
  if name == "literal" then some setLiteral
  else if name == "stack-capacity" then some setCapacity
  else if name == "config" then some setSettingsFile
  else none

def flag? (o : Options) (name : List Char) : Option Options :=
  let name := String.ofList name
  if name == "disassemble" && !o.disassemble then some { o with disassemble := true }
  else if name == "dump-chunk" && !o.dump then some { o with dump := true }
  else if name == "trace" && !o.trace then some { o with trace := true }
  else none

/-- What an argument is: a value to be used, an option whose value comes next, or an option
that is complete. -/
inductive Argument where
  | positional
  | pending (set : Options → String → Option Options)
  | complete (result : Option Options)
  | separator
  | help

/-- An equals sign after a long name begins its value. -/
def longArgument (o : Options) (cs : List Char) : Argument :=
  let name := cs.takeWhile (· != '=')
  match setter? name, cs.dropWhile (· != '=') with
  | some set, [] => .pending set
  | some set, _ :: value => .complete (set o (String.ofList value))
  | none, [] => if name = "help".toList then .help else .complete (o.flag? name)
  | none, _ => .complete none

/-- The only short option but for the help takes a value, with an equals sign before it or
without. -/
def shortArgument (o : Options) : List Char → Argument
  | ['c'] => .pending setLiteral
  | 'c' :: '=' :: value => .complete (o.setLiteral (String.ofList value))
  | 'c' :: value => .complete (o.setLiteral (String.ofList value))
  | 'h' :: _ => .help
  | _ => .complete none

/-- A dash alone is no option. -/
def argument (o : Options) (text : String) : Argument :=
  match text.toList with
  | ['-', '-'] => .separator
  | '-' :: '-' :: name => longArgument o name
  | ['-'] => .positional
  | '-' :: name => shortArgument o name
  | _ => .positional

/-- Reads arguments after a separator, which are all positional. -/
def readFiles (o : Options) : List String → Except Unread Options
  | [] => .ok o
  | text :: rest => do readFiles (← Unread.misusedUnless (o.setFile text)) rest

/-- The value of an option must not look like an option itself. -/
def readFrom (o : Options) : List String → Except Unread Options
  | [] => .ok o
  | text :: rest =>
    match o.argument text with
    | .positional => do readFrom (← Unread.misusedUnless (o.setFile text)) rest
    | .complete result => do readFrom (← Unread.misusedUnless result) rest
    | .separator => readFiles o rest
    | .help => .error .help
    | .pending set =>
      match rest with
      | [] => .error .misused
      | value :: rest =>
        match o.argument value with
        | .positional => do readFrom (← Unread.misusedUnless (set o value)) rest
        | _ => .error .misused

/-- A text and a file exclude each other. -/
def read (arguments : List String) : Except Unread Options := do
  let o ← readFrom empty arguments
  if o.literal.isSome && o.file.isSome then .error .misused else .ok o

end Options

end ExprMachine
