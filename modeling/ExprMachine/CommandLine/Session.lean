import ExprMachine.Chunk.Listing
import ExprMachine.Chunk.Stored
import ExprMachine.CommandLine.Options
import ExprMachine.Report

/-! What a call from the command line does. It settles the settings, and then runs one
source, or starts a session in which each line of input is a source of its own. -/

namespace ExprMachine

inductive Answer.Ending where
  | exit (status : Nat)
  | refused (r : Refusal)
deriving DecidableEq, Repr

/-- What a call shows, and how it ends. What is told of a refusal itself is no part of the
texts. -/
structure Answer where
  ending : Answer.Ending
  stdout : String
  stderr : String
deriving DecidableEq, Repr

structure Surroundings where
  environment : String → Option String
  readFile : String → Except FileFault String
  /-- Why a text is no document of settings. -/
  explain : String → String

structure Session where
  options : Options
  color : Bool
  machine : Machine

/-- What becomes of a call before any line of input is read. -/
inductive Start where
  | answered (answer : Answer)
  | interactive (session : Session)

namespace Answer

def badSettings : Nat := 64
def noInput : Nat := 66
def refused : Nat := 101

def exitCode (a : Answer) : Nat :=
  match a.ending with
  | .exit status => status
  | .refused _ => refused

def empty : Answer := ⟨.exit 0, "", ""⟩

/-- The output of one answer after that of another, whose ending stands. -/
def followedBy (a b : Answer) : Answer :=
  ⟨a.ending, a.stdout ++ b.stdout, a.stderr ++ b.stderr⟩

end Answer

namespace Machine

def takeConsole (m : Machine) : String × Machine :=
  (String.join (m.console.toList.map (· ++ "\n")), { m with console := #[] })

end Machine

namespace Session

/-- Answers with a verdict, and with the console's text after what is already shown. No
session is left if the verdict cannot be reported. -/
def answer (s : Session) (source : Source) (shown : String) (v : Verdict) (m : Machine) :
    Answer × Option Session :=
  let (console, m) := m.takeConsole
  let report := Report.verdict s.color source v
  match report.refusal with
  | none => (⟨.exit v.exitCode, shown ++ console, report.text⟩, some { s with machine := m })
  | some r => (⟨.refused r, shown ++ console, report.text⟩, none)

def preview (s : Session) (name : String) (c : Chunk) : Except Refusal String :=
  if s.options.disassemble then (c.listing name).map (· ++ "\n") else .ok ""

/-- Runs a source. A chunk that is dumped is not run. -/
def runSource (s : Session) (source : Source) : Answer × Option Session :=
  match compile source.text with
  | .error errors => s.answer source "" (.compileErrors errors) s.machine
  | .ok chunk =>
    if s.options.dump then (⟨.exit 0, chunk.storeIndented ++ "\n", ""⟩, some s)
    else
      match s.preview source.name chunk with
      | .error r => (⟨.refused r, "", ""⟩, none)
      | .ok shown =>
        match s.machine.interpretChunk chunk with
        | (.ok v, m) => s.answer source shown v m
        | (.error r, m) => (⟨.refused r, shown ++ m.takeConsole.1, ""⟩, none)

/-- Runs a line of input, unless it is blank. The output of the line is not kept. -/
def runLine (s : Session) (line : String) : Answer × Option Session :=
  if line.toList.all isBlank then (Answer.empty, some s)
  else
    let (a, next) := s.runSource ⟨.interactive, line⟩
    (a, next.map fun s => { s with machine := s.machine.takeOutput.2 })

/-- Runs lines on the same machine after what has been answered before. What becomes of a
line does not matter to those after it, unless it ends the session. -/
def runLines (s : Session) (before : Answer) : List String → Answer
  | [] => before
  | line :: rest =>
    match s.runLine line with
    | (a, some s) => s.runLines (before.followedBy a) rest
    | (a, none) => { before.followedBy a with ending := a.ending }

def banner : String :=
  let rule := Padding.fill '=' 51
  s!"{rule}\nWelcome to stackvm 0.1.0! Press Ctrl-D to exit.\n{rule}\n"

end Session

namespace CommandLine

def settings (o : Options) (w : Surroundings) : Except SettingsError Settings := do
  let base ← match o.settingsFile with
    | none => .ok Settings.default
    | some path =>
      match w.readFile path with
      | .ok text => Settings.read w.explain text
      | .error fault => .error (.unreadable path fault)
  (← base.withEnvironment w.environment).withCommandLine o.capacity o.trace

def colored (w : Surroundings) : Bool :=
  match w.environment "CLICOLOR_FORCE" with
  | some value => value != "0"
  | none => false

def session (o : Options) (color : Bool) (settings : Settings) : Except Refusal Session :=
  (Machine.create settings).map fun m => ⟨o, color, m.init⟩

def runOnly (s : Except Refusal Session) (source : Source) : Answer :=
  match s with
  | .ok s => (s.runSource source).1
  | .error r => ⟨.refused r, "", ""⟩

def start (o : Options) (w : Surroundings) : Start :=
  let color := colored w
  match settings o w with
  | .error e => .answered ⟨.exit Answer.badSettings, "", Report.settingsError color e⟩
  | .ok settings =>
    let s := session o color settings
    match o.literal, o.file with
    | some text, _ => .answered (runOnly s ⟨.literal, text⟩)
    | none, some path =>
      match w.readFile path with
      | .ok text => .answered (runOnly s ⟨.file path, text⟩)
      | .error fault =>
        let report := s!"stackvm: could not read {path}: {fault.message}\n"
        .answered ⟨.exit Answer.noInput, "", report⟩
    | none, none =>
      match s with
      | .ok s => .interactive s
      | .error r => .answered ⟨.refused r, "", ""⟩

/-- The whole of a call whose input is known. There is no answer to arguments that are not
read. -/
def run (arguments : List String) (w : Surroundings) (stdin : String) : Except Unread Answer := do
  match start (← Options.read arguments) w with
  | .answered a => .ok a
  | .interactive s => .ok (s.runLines ⟨.exit 0, Session.banner, ""⟩ (textLines stdin))

end CommandLine

end ExprMachine
