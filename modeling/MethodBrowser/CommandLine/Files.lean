/-!
# Files

**Actions** (`FileAction`). A computation that reads and writes files is described by what it asks
for next and how it goes on with the answer. The description does not say where files are kept, so
one and the same action can be carried out on a disk or on files in memory.

**Files in memory** (`Files`). What every location holds, with the rules by which a path leads to a
location. Each reading and writing succeeds or fails as a whole. `FileAction.runOn` carries an
action out on them.
-/

namespace MethodBrowser.CommandLine

/-- A computation on files. -/
inductive FileAction (α : Type) where
  | done (result : α)
  /-- Asks whether a path leads to a file. -/
  | isFile (path : String) (next : Bool → FileAction α)
  /-- Reads a file. There is no answer if that fails. -/
  | read (path : String) (next : Option String → FileAction α)
  /-- Writes a file. The answer is whether that succeeded. -/
  | write (path contents : String) (next : Bool → FileAction α)

namespace FileAction

variable {α β : Type}

def bind : FileAction α → (α → FileAction β) → FileAction β
  | done a, f => f a
  | isFile path next, f => isFile path fun answer => (next answer).bind f
  | read path next, f => read path fun answer => (next answer).bind f
  | write path contents next, f => write path contents fun answer => (next answer).bind f

instance : Monad FileAction where
  pure := done
  bind := bind

end FileAction

/-! ## Files in memory -/

/-- The names that lead from the root to a file or directory. -/
abbrev Location := List String

/-- The absolute path of a location. -/
def Location.path (l : Location) : String := "/" ++ String.intercalate "/" l

/-- A location and the directories that it lies in, the innermost first. -/
def Location.ancestors (l : Location) : List Location :=
  (List.range (l.length + 1)).map fun n => l.take (l.length - n)

structure Files where
  /-- The directory from which paths start. -/
  workingDirectory : Location
  isDirectory : Location → Bool
  contents : Location → Option String
  /-- Where a file may be written. -/
  isWritable : Location → Bool

namespace Files

/-- Follows the parts of a path. Every part leads out of a directory. -/
def follow (files : Files) : Location → (parts : List String) → Option Location
  | l, [] => some l
  | l, part :: parts =>
    if !files.isDirectory l then none
    else if part = "" ∨ part = "." then files.follow l parts
    else if part = ".." then files.follow l.dropLast parts
    else files.follow (l ++ [part]) parts

/-- The location that a path leads to. -/
def locate (files : Files) (path : String) : Option Location :=
  if path = "" then none
  else
    let start := if path.toList.head? = some '/' then [] else files.workingDirectory
    files.follow start (path.splitOn "/")

/-- What a path leads to. -/
def read? (files : Files) (path : String) : Option String :=
  (files.locate path).bind files.contents

/-- Replaces the contents of a location. -/
def put (files : Files) (l : Location) (contents : String) : Files :=
  { files with contents := fun m => if m = l then some contents else files.contents m }

/-- Writes to what a path leads to. -/
def write? (files : Files) (path contents : String) : Option Files :=
  match files.locate path with
  | some l => if files.isWritable l then some (files.put l contents) else none
  | none => none

end Files

/-- Carries an action out on files in memory. Gives the result and the files afterwards. -/
def FileAction.runOn {α : Type} : FileAction α → Files → α × Files
  | done a, files => (a, files)
  | isFile path next, files => (next (files.read? path).isSome).runOn files
  | read path next, files => (next (files.read? path)).runOn files
  | write path contents next, files =>
    match files.write? path contents with
    | some files => (next true).runOn files
    | none => (next false).runOn files

end MethodBrowser.CommandLine
