import MethodBrowser.CommandLine.Arguments
import MethodBrowser.Refactoring

/-!
# Invocations

What one call of the program is asked to do. The arguments name a subcommand, with its own options
after it. Some options concern every subcommand and may stand before or after its name; what stands
after it counts.
-/

namespace MethodBrowser.CommandLine

/-- What a subcommand does. -/
inductive Command where
  /-- Outlines the method in a file. -/
  | analyze (file : String)
  /-- Lists the sends of the method in a file, all or those of one selector. -/
  | sends (file : String) (selector : Option String)
  /-- Plans a refactoring of the image in a snapshot, and carries it out if told so. -/
  | refactor (snapshot : String) (apply : Bool) (request : Refactoring.Request)
  deriving DecidableEq

structure Invocation where
  /-- The configuration file to use. -/
  config : Option String
  /-- The format to use instead of the configured one. -/
  format : Option Format
  /-- How many methods a warning names, instead of the configured number. -/
  senderExamples : Option Nat
  /-- How often more messages were asked for. -/
  verbosity : Nat
  command : Command
  deriving DecidableEq

/-- Which messages are logged. -/
def Invocation.logDirective (invocation : Invocation) : String :=
  match invocation.verbosity with
  | 0 => "gemtalk=info,gemtalk_core=info"
  | 1 => "gemtalk=debug,gemtalk_core=debug"
  | _ => "gemtalk=trace,gemtalk_core=trace"

/-! ## Subcommands -/

inductive Subcommand where
  | analyze
  | sends
  | renameSelector
  | renameMethod
  | moveMethod
  | addParameter
  | removeParameter
  | extractMethod
  | inlineMethod
  deriving DecidableEq

namespace Subcommand

def all : List Subcommand :=
  [analyze, sends, renameSelector, renameMethod, moveMethod, addParameter, removeParameter,
    extractMethod, inlineMethod]

def name : Subcommand → String
  | analyze => "analyze"
  | sends => "sends"
  | renameSelector => "rename-selector"
  | renameMethod => "rename-method"
  | moveMethod => "move-method"
  | addParameter => "add-parameter"
  | removeParameter => "remove-parameter"
  | extractMethod => "extract-method"
  | inlineMethod => "inline-method"

def ofName? (name : String) : Option Subcommand := all.find? (·.name == name)

/-- The options that stand for a value, beside those of every subcommand. -/
def texts : Subcommand → List String
  | analyze => []
  | sends => ["selector"]
  | renameSelector => ["image", "old", "new"]
  | renameMethod => ["image", "class", "old", "new"]
  | moveMethod => ["image", "class", "selector", "to-class"]
  | addParameter => ["image", "class", "selector", "keyword", "name", "default"]
  | removeParameter => ["image", "class", "selector", "name"]
  | extractMethod => ["image", "class", "selector", "new"]
  | inlineMethod => ["image", "class", "caller", "callee"]

def flags : Subcommand → List String
  | analyze | sends => []
  | renameSelector => ["apply", "overwrite"]
  | renameMethod => ["apply", "class-side", "overwrite"]
  | moveMethod => ["apply", "class-side", "to-class-side", "overwrite", "keep-source"]
  | addParameter => ["apply", "class-side", "overwrite"]
  | removeParameter => ["apply", "class-side", "overwrite"]
  | extractMethod => ["apply", "class-side", "overwrite"]
  | inlineMethod => ["apply", "class-side"]

end Subcommand

/-- The options of every subcommand. -/
def sharedOptions : List (String × OptionKind) :=
  [("config", .value .text), ("format", .value .format),
    ("sender-examples", .value (.natural maxLongWord)), ("verbose", .counter), ("help", .help)]

def sharedLetters : List (Char × String) := [('v', "verbose"), ('h', "help")]

/-- The arguments before the name of the subcommand. -/
def outerGrammar : Grammar where
  options := ("version", .version) :: sharedOptions
  letters := ('V', "version") :: sharedLetters
  operand := none

namespace Subcommand

/-- The arguments after the name of the subcommand. -/
def grammar (s : Subcommand) : Grammar where
  options := s.texts.map (·, .value .text) ++ s.flags.map (·, .flag)
    ++ (if s = extractMethod then [("statements", .value (.naturals maxWord))] else [])
    ++ sharedOptions
  letters := sharedLetters
  operand := if s = analyze ∨ s = sends then some "file" else none

/-- The request that the arguments of a refactoring make, unless one is missing. -/
def request? (s : Subcommand) (given : Given) : Option Refactoring.Request := do
  let text := given.value?
  let side := Side.ofFlag (given.has "class-side")
  let overwrite := given.has "overwrite"
  match s with
  | analyze | sends => none
  | renameSelector => return .renameSelector ⟨← text "old", ← text "new", overwrite⟩
  | renameMethod =>
    return .renameMethod ⟨← text "class", side, ← text "old", ← text "new", overwrite⟩
  | moveMethod =>
    return .moveMethod ⟨← text "class", side, ← text "selector", ← text "to-class",
      Side.ofFlag (given.has "to-class-side"), overwrite, given.has "keep-source"⟩
  | addParameter =>
    return .addParameter ⟨← text "class", side, ← text "selector", ← text "keyword",
      ← text "name", ← text "default", overwrite⟩
  | removeParameter =>
    return .removeParameter ⟨← text "class", side, ← text "selector", ← text "name", overwrite⟩
  | extractMethod =>
    let lists ← (given.valuesOf "statements").mapM (naturals? maxWord)
    if lists.isEmpty then none
    else
      return .extractMethod ⟨← text "class", side, ← text "selector", lists.flatten,
        ← text "new", overwrite⟩
  | inlineMethod => return .inlineMethod ⟨← text "class", side, ← text "caller", ← text "callee"⟩

/-- The command that the arguments make, unless one is missing. -/
def command? (s : Subcommand) (given : Given) : Option Command :=
  match s with
  | analyze => (given.value? "file").map .analyze
  | sends => (given.value? "file").map fun file => .sends file (given.value? "selector")
  | _ => do
    return .refactor (← given.value? "image") (given.has "apply") (← s.request? given)

end Subcommand

/-! ## From arguments -/

/-- Joins what was given before and after the name of the subcommand. -/
def Invocation.ofGiven (outer inner : Given) (command : Command) : Invocation :=
  let shared := fun name => (inner.value? name).or (outer.value? name)
  let inside := inner.count "verbose"
  { config := shared "config"
    format := (shared "format").bind Format.ofName?
    senderExamples := (shared "sender-examples").bind (Text.natural? maxLongWord)
    verbosity := if inside = 0 then outer.count "verbose" else inside
    command := command }

/-- The names of which help may be asked: at most one. -/
def helpFor (names : List String) : UsageError :=
  let isKnown := fun name => name == "help" || (Subcommand.ofName? name).isSome
  match names with
  | [] => .helpRequested
  | [name] => if isKnown name then .helpRequested else .unknownSubcommand
  | _ => .unknownSubcommand

/-- Reads arguments up to the name of a subcommand, and then those after it. What is pending before
the name is taken in last. -/
def readFrom (p : Progress) : List String → Except UsageError Invocation
  | [] => do
    let given ← p.finish
    throw (if given.isEmpty then .nothingGiven else .missingSubcommand)
  | arg :: args =>
    let isName := arg == "help" || (Subcommand.ofName? arg).isSome
    if isName && !p.operandsOnly && !p.isAwaiting then
      match Subcommand.ofName? arg with
      | none => .error (helpFor args)
      | some s => do
        let inner ← s.grammar.read args
        match s.command? inner with
        | none => throw .missingArgument
        | some command => return .ofGiven (← p.finish) inner command
    else do
      let surplus := if isName then .unknownArgument else .unknownSubcommand
      readFrom (← p.step outerGrammar surplus arg) args

/-- The invocation that the arguments of the program describe. -/
def Invocation.ofArguments (args : List String) : Except UsageError Invocation :=
  readFrom .start args

end MethodBrowser.CommandLine
