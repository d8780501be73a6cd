import MethodBrowser.CommandLine.Files
import MethodBrowser.CommandLine.Invocation
import MethodBrowser.CommandLine.Report

/-!
# Runs

What an invocation does, as an action on files. The configuration is loaded first. A refactoring
reads its snapshot and answers with the plan; with `--apply` it carries the plan out on the image
that was read, and the snapshot is written only after every change to the image has succeeded.
-/

namespace MethodBrowser.CommandLine

/-- What a file is read for. -/
inductive FileRole where
  | config
  | method
  | snapshot
  deriving DecidableEq

def FileRole.name : FileRole → String
  | config => "config"
  | method => "method file"
  | snapshot => "image snapshot"

inductive RunFailure where
  | unreadable (role : FileRole) (path : String)
  | unparsable (role : FileRole) (path : String)
  | unwritable (role : FileRole) (path : String)
  | refactoring (failure : Failure)

def RunFailure.message : RunFailure → String
  | unreadable role path => "Failed to read " ++ role.name ++ " '" ++ path ++ "'"
  | unparsable role path => "Failed to parse " ++ role.name ++ " '" ++ path ++ "'"
  | unwritable role path => "Failed to write " ++ role.name ++ " '" ++ path ++ "'"
  | refactoring failure => failure.message

/-- An action that may fail. -/
abbrev Run (α : Type) := ExceptT RunFailure FileAction α

namespace Run

variable {α : Type}

/-- The contents of a file. -/
def read (role : FileRole) (path : String) : Run String :=
  FileAction.read path fun
    | some contents => .done (.ok contents)
    | none => .done (.error (.unreadable role path))

/-- The contents of a file, understood. -/
def load (role : FileRole) (parse? : String → Option α) (path : String) : Run α := do
  match parse? (← read role path) with
  | some value => return value
  | none => throw (.unparsable role path)

def write (role : FileRole) (path contents : String) : Run Unit :=
  FileAction.write path contents fun
    | true => .done (.ok ())
    | false => .done (.error (.unwritable role path))

def lift (result : Except Failure α) : Run α := ExceptT.mk (pure (result.mapError .refactoring))

/-- The first of the paths that leads to a file. -/
def firstFile : List String → Run (Option String)
  | [] => pure none
  | path :: paths =>
    FileAction.isFile path fun
      | true => .done (.ok (some path))
      | false => firstFile paths

end Run

/-! ## Configuration -/

/-- Where a run takes place. -/
structure Environment where
  workingDirectory : Location
  /-- Where the user keeps configuration files. -/
  configDirectory : Option Location

def configName : String := "gemtalk.toml"

/-- Where a configuration file is looked for: in the working directory, in those around it, and
among the user's files. -/
def Environment.configPaths (env : Environment) : List String :=
  env.workingDirectory.ancestors.map (fun dir => Location.path (dir ++ [configName]))
    ++ env.configDirectory.toList.map (fun dir => Location.path (dir ++ ["gemtalk", configName]))

/-- The configuration of the file that was asked for or, without one, of the first that is found.
Without any, the standard applies. -/
def loadConfig (env : Environment) (asked : Option String) : Run Config := do
  let found ←
    match asked with
    | some path => pure (some path)
    | none => Run.firstFile env.configPaths
  match found with
  | some path => Run.load .config Config.ofText? path
  | none => return .standard

/-! ## Commands -/

def loadImage (path : String) : Run Image :=
  Run.load .snapshot (fun text => (Image.ofSnapshot text).toOption) path

/-- Keeps an image as a snapshot. -/
def saveImage (image : Image) (path : String) : Run Unit :=
  Run.write .snapshot path (image.snapshot ++ "\n")

/-- An answer in the format that is wanted. -/
def render {α : Type} (format : Format) (toJson : α → Json) (toText : α → String) (answer : α) :
    String :=
  match format with
  | .json => (toJson answer).pretty
  | .text => toText answer

/-- Plans a refactoring, or carries it out and saves the image. -/
def refactor (settings : Settings) (format : Format) (snapshot : String) (apply : Bool)
    (request : Refactoring.Request) : Run String := do
  let image ← loadImage snapshot
  let session : Session := ⟨image, []⟩
  if apply then
    let (image, result) := Refactoring.apply session settings request
    let applied ← Run.lift result
    saveImage image snapshot
    return render format Refactoring.Applied.toJson appliedText applied
  else
    let plan ← Run.lift (Refactoring.preview session settings request)
    return render format Refactoring.Plan.toJson planText plan

def Command.run (settings : Settings) (format : Format) : Command → Run String
  | analyze file => do
    let text ← Run.read .method file
    return render format Outline.toJson outlineText (.ofText text)
  | sends file selector => do
    let text ← Run.read .method file
    return render format SendReport.toJson sendReportText (.ofText text selector)
  | refactor snapshot apply request => CommandLine.refactor settings format snapshot apply request

/-- Carries an invocation out. The result is what is to be printed. -/
def Invocation.run (env : Environment) (invocation : Invocation) : Run String := do
  let config ← loadConfig env invocation.config
  let settings := { config.settings with
    senderExampleLimit := invocation.senderExamples.getD config.settings.senderExampleLimit }
  invocation.command.run settings (invocation.format.getD config.format)

end MethodBrowser.CommandLine
