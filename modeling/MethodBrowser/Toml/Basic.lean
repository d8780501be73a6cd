/-!
# TOML documents

A document is a tree of tables. Its lines fill the tree in: a header line opens a table, and a key
line defines a key in the table that was opened last. How a table came to be (`Origin`) decides what
may be added to it later, so that no table is described in two places:

- a header may name a table that earlier headers only passed through, but none that has been
  declared, that dotted keys have made, or that is written between braces;
- a dotted key may add to tables that dotted keys have made, and to no others.

No key is defined twice.
-/

namespace MethodBrowser

namespace Toml

/-- How a table came to be. -/
inductive Origin where
  /-- A header has passed through it. -/
  | implied
  /-- A dotted key has passed through it. -/
  | dotted
  /-- A header has named it. -/
  | declared
  /-- It is written between braces. -/
  | closed
  deriving DecidableEq

end Toml

open Toml (Origin)

inductive Toml where
  | str (s : String)
  | int (n : Int)
  | bool (b : Bool)
  | float (text : String)
  /-- A date, a time of day, or both. -/
  | moment (text : String)
  | arr (items : List Toml)
  | table (origin : Origin) (entries : List (String × Toml))
  /-- The tables that headers in double brackets have opened under one key. -/
  | tables (items : List (List (String × Toml)))

namespace Toml

/-- The keys of a table and their values, in the order of their definition. -/
abbrev Entries := List (String × Toml)

/-- Replaces the value of a key. -/
def replace (key : String) (value : Toml) (entries : Entries) : Entries :=
  entries.map fun e => if e.1 = key then (key, value) else e

/-- Gives a value to a key that has none. -/
def define (key : String) (value : Toml) (entries : Entries) : Option Entries :=
  match entries.lookup key with
  | some _ => none
  | none => some (entries ++ [(key, value)])

/-- Whether a path may pass through a table: one of a header, which leaves implied tables behind it,
or one of a dotted key, which leaves dotted ones. -/
def Origin.admits (left : Origin) (passed : Origin) : Bool :=
  match left, passed with
  | _, .closed => false
  | .dotted, .declared => false
  | _, _ => true

/-- Changes the table at the end of a path. Tables that are missing on the way are made, with the
origin `left`. Under a key with several tables the path goes on in the last one. -/
def changeAt (left : Origin) (change : Origin → Entries → Option Entries) :
    (path : List String) → Origin → Entries → Option Entries
  | [], origin, entries => change origin entries
  | key :: path, _, entries =>
    match entries.lookup key with
    | none => do
      let inner ← changeAt left change path left []
      return entries ++ [(key, .table left inner)]
    | some (.table origin inner) =>
      if left.admits origin then do
        let inner ← changeAt left change path origin inner
        return replace key (.table origin inner) entries
      else none
    | some (.tables items) => do
      let inner ← changeAt left change path .declared (← items.getLast?)
      return replace key (.tables (items.dropLast ++ [inner])) entries
    | some _ => none

/-- Defines a key at the end of a dotted path, below the table of the given entries. -/
def defineAt (path : List String) (key : String) (value : Toml) (entries : Entries) :
    Option Entries :=
  let change := fun origin entries =>
    if path.isEmpty || origin = .dotted then define key value entries else none
  changeAt .dotted change path .declared entries

/-- Declares a table that may have been implied. -/
def declare (key : String) (entries : Entries) : Option Entries :=
  match entries.lookup key with
  | none => some (entries ++ [(key, .table .declared [])])
  | some (.table .implied inner) => some (replace key (.table .declared inner) entries)
  | some _ => none

/-- Opens one more table under a key. -/
def declareItem (key : String) (entries : Entries) : Option Entries :=
  match entries.lookup key with
  | none => some (entries ++ [(key, .tables [[]])])
  | some (.tables items) => some (replace key (.tables (items ++ [[]])) entries)
  | some _ => none

end Toml

end MethodBrowser
