import MethodBrowser.CommandLine.Config
import MethodBrowser.Text.Digit

/-!
# Reading arguments

The arguments of a command are options, written `--name`, `--name value`, `--name=value` or as
letters after a single dash, and at most one operand. After the argument `--` everything is an
operand.

**Order of faults.** Arguments are read from left to right and the first fault counts. A value that
follows its option is looked at only when the next option, operand or the end is reached
(`Progress.settle`), so a fault in the form of the next argument can come before one in the value.
-/

namespace MethodBrowser.CommandLine

/-- Why arguments are not carried out. -/
inductive UsageError where
  | helpRequested
  | versionRequested
  /-- There is nothing at all to do, so help is due. -/
  | nothingGiven
  | missingSubcommand
  | unknownSubcommand
  | missingArgument
  | unknownArgument
  /-- A value is missing or none of the possible ones. -/
  | invalidValue
  | invalidNumber
  | repeatedArgument
  /-- A value is attached to an option that takes none. -/
  | unexpectedValue
  deriving DecidableEq

/-! ## What is expected -/

/-- What kind of value an option takes. -/
inductive ValueKind where
  | text
  | format
  | natural (max : Nat)
  /-- Natural numbers between commas, read as integers. The option may be repeated. -/
  | naturals (max : Nat)
  deriving DecidableEq

/-- What an option does. -/
inductive OptionKind where
  /-- It is on when given, which may be once. -/
  | flag
  /-- How often it is given counts. -/
  | counter
  | help
  | version
  | value (kind : ValueKind)
  deriving DecidableEq

/-- The arguments that a command understands. -/
structure Grammar where
  options : List (String × OptionKind)
  /-- Letters that stand for options without a value. -/
  letters : List (Char × String)
  /-- The name of the operand. -/
  operand : Option String

/-- The largest number of 32 bits. -/
def maxWord : Nat := 0xffffffff

/-- The largest number of 64 bits. -/
def maxLongWord : Nat := 0xffffffffffffffff

/-- The numbers between commas. -/
def naturals? (max : Nat) (text : String) : Option (List Nat) :=
  (text.splitOn ",").mapM (Text.integralNatural? max)

/-- Whether a value is of its kind. -/
def ValueKind.check (kind : ValueKind) (text : String) : Except UsageError Unit :=
  match kind with
  | .text => .ok ()
  | .format => if (Format.ofName? text).isSome then .ok () else .error .invalidValue
  | .natural max => if (Text.natural? max text).isSome then .ok () else .error .invalidNumber
  | .naturals max => if (naturals? max text).isSome then .ok () else .error .invalidNumber

def ValueKind.isRepeatable : ValueKind → Bool
  | .naturals _ => true
  | _ => false

/-! ## What is given -/

/-- The options and operands that were given, in order. -/
structure Given where
  /-- Options without a value, once for each time. -/
  marks : List String
  /-- Values with the name of their option or operand. -/
  values : List (String × String)
  deriving DecidableEq

namespace Given

def nothing : Given := ⟨[], []⟩

def isEmpty (given : Given) : Bool := given.marks.isEmpty && given.values.isEmpty

def has (given : Given) (name : String) : Bool := given.marks.contains name

def count (given : Given) (name : String) : Nat := given.marks.count name

def value? (given : Given) (name : String) : Option String := given.values.lookup name

/-- All values of an option. -/
def valuesOf (given : Given) (name : String) : List String :=
  (given.values.filter (·.1 == name)).map (·.2)

def mark (given : Given) (name : String) : Given := { given with marks := given.marks ++ [name] }

/-- Takes a value in, if it is of its kind and not one too many. -/
def take (given : Given) (kind : ValueKind) (name value : String) : Except UsageError Given :=
  if !kind.isRepeatable && (given.value? name).isSome then .error .repeatedArgument
  else do
    kind.check value
    return { given with values := given.values ++ [(name, value)] }

end Given

/-! ## Reading -/

/-- An option or operand that has been named last, and its value. -/
structure Pending where
  name : String
  kind : ValueKind
  /-- Nothing while the value is awaited. -/
  value : Option String
  deriving DecidableEq

/-- How far arguments have been read. -/
structure Progress where
  given : Given
  pending : Option Pending
  /-- Everything that follows is an operand. -/
  operandsOnly : Bool
  operandSeen : Bool
  deriving DecidableEq

namespace Progress

def start : Progress := ⟨.nothing, none, false, false⟩

/-- The next argument is the value of an option, unless it looks like an option. -/
def isAwaiting (p : Progress) : Bool :=
  !p.operandsOnly && p.pending.any (·.value.isNone)

/-- Takes in what is pending. -/
def settle (p : Progress) : Except UsageError Progress :=
  match p.pending with
  | none => .ok p
  | some ⟨_, _, none⟩ => .error .invalidValue
  | some ⟨name, kind, some value⟩ => do
    return { p with given := ← p.given.take kind name value, pending := none }

/-- An option without a value. -/
def mark (kind : OptionKind) (name : String) (p : Progress) : Except UsageError Progress := do
  let p ← p.settle
  match kind with
  | .help => throw .helpRequested
  | .version => throw .versionRequested
  | .flag =>
    if p.given.has name then throw .repeatedArgument
    return { p with given := p.given.mark name }
  | _ => return { p with given := p.given.mark name }

/-- An option that is written with its name. -/
def named (g : Grammar) (name : String) (attached : Option String) (p : Progress) :
    Except UsageError Progress :=
  match g.options.lookup name, attached with
  | none, _ => .error .unknownArgument
  | some (.value kind), some value => do
    let p ← p.settle
    return { p with given := ← p.given.take kind name value }
  | some (.value kind), none => do
    return { ← p.settle with pending := some ⟨name, kind, none⟩ }
  | some _, some _ => .error .unexpectedValue
  | some kind, none => p.mark kind name

/-- Options that are written as letters. -/
def lettered (g : Grammar) : List Char → Progress → Except UsageError Progress
  | [], p => .ok p
  | c :: cs, p =>
    match g.letters.lookup c with
    | none => .error .unknownArgument
    | some name => do lettered g cs (← p.named g name none)

/-- An argument that is no option. The fault `surplus` is that of one too many. -/
def operand (g : Grammar) (surplus : UsageError) (arg : String) (p : Progress) :
    Except UsageError Progress :=
  match g.operand, p.operandSeen with
  | some name, false => do
    return { ← p.settle with pending := some ⟨name, .text, some arg⟩, operandSeen := true }
  | _, _ => .error surplus

/-- One argument. -/
def step (g : Grammar) (surplus : UsageError) (p : Progress) (arg : String) :
    Except UsageError Progress :=
  if p.operandsOnly then p.operand g surplus arg
  else
    match arg.toList with
    | ['-', '-'] => .ok { p with operandsOnly := true }
    | '-' :: '-' :: cs =>
      let name := String.ofList (cs.takeWhile (· != '='))
      let attached := match cs.dropWhile (· != '=') with
        | [] => none
        | _ :: value => some (String.ofList value)
      p.named g name attached
    | '-' :: c :: cs => p.lettered g (c :: cs)
    | _ =>
      match p.pending with
      | some ⟨name, kind, none⟩ => .ok { p with pending := some ⟨name, kind, some arg⟩ }
      | _ => p.operand g surplus arg

/-- What has been given in the end. -/
def finish (p : Progress) : Except UsageError Given := do
  return (← p.settle).given

end Progress

/-- Reads all arguments of a command. -/
def Grammar.read (g : Grammar) (args : List String) : Except UsageError Given := do
  (← args.foldlM (Progress.step g .unknownArgument) .start).finish

end MethodBrowser.CommandLine
