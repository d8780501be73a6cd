import MethodBrowser.Plan.Basic
import MethodBrowser.Toml.Reader

/-!
# The configuration file

A TOML document with two tables: `output` says how answers are written, and `refactor` holds the
settings of the refactorings. Both may be missing, and so may each of their keys. A key that is not
known is an error, except in `refactor`, where it is passed over.

Either table may also be an array of its values in their order. A date or time counts as a table
with one key that is not known. A format may also be a table with nothing in it under the one key
that names the format.
-/

namespace MethodBrowser.CommandLine

/-- How answers are written. -/
inductive Format where
  | json
  | text
  deriving DecidableEq

def Format.ofName? : String → Option Format
  | "json" => some .json
  | "text" => some .text
  | _ => none

/-- What a configuration file says. -/
structure Config where
  settings : Settings
  format : Format
  deriving DecidableEq

namespace Config

def standard : Config := ⟨.standard, .json⟩

/-! ## Values -/

/-- A table or an array without anything in it. -/
def isVoid : Toml → Bool
  | .arr [] | .table _ [] => true
  | _ => false

def formatOf? : Toml → Option Format
  | .str name => Format.ofName? name
  | .table _ [(name, value)] => if isVoid value then Format.ofName? name else none
  | _ => none

def naturalOf? : Toml → Option Nat
  | .int n => if 0 ≤ n then some n.toNat else none
  | _ => none

def stringOf? : Toml → Option String
  | .str s => some s
  | _ => none

/-! ## Records -/

/-- The name under which a date or time is found when it stands for a record. -/
def momentName : String := "$moment"

/-- The values of a record by name. In an array they stand in the order of the names. -/
def members? (names : List String) : Toml → Option Toml.Entries
  | .table _ entries => some entries
  | .arr items => some (names.zip items)
  | .tables items => some (names.zip (items.map (.table .declared)))
  | .moment text => some [(momentName, .str text)]
  | _ => none

/-- Reads the value of a name that may be missing. -/
def member? {α : Type} (read : Toml → Option α) (fallback : α) (name : String)
    (entries : Toml.Entries) : Option α :=
  match entries.lookup name with
  | some value => read value
  | none => some fallback

/-- No names but the given ones. -/
def onlyNames (names : List String) (entries : Toml.Entries) : Bool :=
  entries.all fun e => names.contains e.1

def outputOf? (value : Toml) : Option Format := do
  let names := ["format"]
  let entries ← members? names value
  if onlyNames names entries then member? formatOf? standard.format "format" entries else none

def settingsOf? (value : Toml) : Option Settings := do
  let entries ← members? ["sender_example_limit", "default_category"] value
  let limit ← member? naturalOf? Settings.standard.senderExampleLimit "sender_example_limit" entries
  let category ← member? stringOf? Settings.standard.defaultCategory "default_category" entries
  return ⟨limit, category⟩

/-- The configuration that a file describes. -/
def ofText? (text : String) : Option Config := do
  let entries ← Toml.ofText? text
  if onlyNames ["refactor", "output"] entries then
    let settings ← member? settingsOf? standard.settings "refactor" entries
    let format ← member? outputOf? standard.format "output" entries
    return ⟨settings, format⟩
  else none

end Config

end MethodBrowser.CommandLine
