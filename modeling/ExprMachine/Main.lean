import ExprMachine.CommandLine.Session

/-! The program: it reads files, the environment and lines, and writes the answers. -/

namespace ExprMachine

def readText (path : String) : IO (Except FileFault String) := do
  try
    let bytes ← IO.FS.readBinFile path
    match String.fromUTF8? bytes with
    | some text => return .ok text
    | none => return .error .notText
  catch e =>
    match e with
    | .noFileOrDirectory _ _ _ => return .error .missing
    | .permissionDenied _ _ _ => return .error .denied
    | .invalidArgument _ _ "name too long" => return .error .nameTooLong
    | .inappropriateType _ 21 _ => return .error .directory
    | .inappropriateType _ _ _ => return .error .notDirectory
    | e => return .error (.other (toString e))

/-- The contents of the files that the options name, and the variables that matter. Nothing is
known of why a text is no document. -/
def surroundings (o : Options) : IO Surroundings := do
  let mut files := []
  for path in o.settingsFile.toList ++ o.file.toList do
    files := (path, ← readText path) :: files
  let mut settled := []
  for name in [Settings.capacityVariable, Settings.traceVariable, "CLICOLOR_FORCE"] do
    if let some value ← IO.getEnv name then
      settled := (name, value) :: settled
  return ⟨fun name => settled.lookup name,
    fun path => (files.lookup path).getD (.error .missing), fun _ => ""⟩

def emit (a : Answer) : IO Unit := do
  IO.print a.stdout
  IO.eprint a.stderr
  if let .refused r := a.ending then IO.eprintln r.message

/-- Answers line after line, and gives the exit status in the end. -/
partial def interact (input : IO.FS.Stream) (s : Session) : IO Nat := do
  let text ← input.getLine
  match (textLines text).head? with
  | none => return 0
  | some line =>
    let (a, next) := s.runLine line
    emit a
    match next with
    | some s => interact input s
    | none => return a.exitCode

end ExprMachine

open ExprMachine in
def main (arguments : List String) : IO UInt32 := do
  match Options.read arguments with
  | .error unread => return UInt32.ofNat unread.status
  | .ok o =>
    match CommandLine.start o (← surroundings o) with
    | .answered a =>
      emit a
      return UInt32.ofNat a.exitCode
    | .interactive s =>
      IO.print Session.banner
      return UInt32.ofNat (← interact (← IO.getStdin) s)
