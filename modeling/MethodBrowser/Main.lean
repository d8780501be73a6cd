import MethodBrowser.CommandLine.Run

/-!
# The command line

Reads the arguments, carries the invocation out on the files of the disk and prints its answer.
-/

namespace MethodBrowser.CommandLine

/-- Whether an action of the system succeeds. -/
def succeeds (action : IO Unit) : IO Bool := do
  try
    action
    return true
  catch _ => return false

/-- Carries an action out on the disk. -/
def FileAction.runOnDisk {α : Type} : FileAction α → IO α
  | done a => return a
  | isFile path next => do
    let found ← succeeds (discard (IO.FS.readBinFile path))
    (next found).runOnDisk
  | read path next => do
    let contents ← try pure (some (← IO.FS.readFile path)) catch _ => pure none
    (next contents).runOnDisk
  | write path contents next => do
    let written ← succeeds (IO.FS.writeFile path contents)
    (next written).runOnDisk

/-- The location of an absolute path. -/
def Location.ofPath (path : String) : Location := (path.splitOn "/").filter (· ≠ "")

/-- Where this run takes place. -/
def currentEnvironment : IO Environment := do
  let directory ← IO.currentDir
  let configured ← IO.getEnv "XDG_CONFIG_HOME"
  let home ← IO.getEnv "HOME"
  let own := configured.filter fun path => path.toList.head? = some '/'
  return ⟨.ofPath directory.toString,
    (own.map Location.ofPath).or (home.map fun path => Location.ofPath path ++ [".config"])⟩

def UsageError.message : UsageError → String
  | helpRequested | nothingGiven => "usage: gemtalk [options] <command> [options]"
  | versionRequested => "gemtalk 0.1.0"
  | missingSubcommand => "a command is missing"
  | unknownSubcommand => "there is no such command"
  | missingArgument => "an argument is missing"
  | unknownArgument => "there is no such argument"
  | invalidValue => "a value is missing or not a possible one"
  | invalidNumber => "a number is expected"
  | repeatedArgument => "an argument is repeated"
  | unexpectedValue => "a value is given to an option that takes none"

/-- Prints a text on lines of its own. -/
def printLines (text : String) : IO Unit :=
  if text.toList.getLast? = some '\n' then IO.print text else IO.println text

/-- Reports why arguments are not carried out. Help and version are no faults. -/
def report (e : UsageError) : IO UInt32 := do
  match e with
  | .helpRequested | .versionRequested =>
    IO.println e.message
    return 0
  | _ =>
    IO.eprintln e.message
    return 2

/-- Carries out what the arguments ask for. -/
def runArguments (args : List String) : IO UInt32 := do
  match Invocation.ofArguments args with
  | .error e => report e
  | .ok invocation =>
    match ← (invocation.run (← currentEnvironment)).run.runOnDisk with
    | .ok output =>
      printLines output
      return 0
    | .error failure =>
      IO.eprintln failure.message
      return 1

end MethodBrowser.CommandLine

def main (args : List String) : IO UInt32 := MethodBrowser.CommandLine.runArguments args
