import MethodBrowser.Plan.Failure
import MethodBrowser.Image.Snapshot
import MethodBrowser.Text.Space

/-!
# Plans and their writes

Every refactoring takes two steps. A plan is worked out first: it reads the methods involved and
computes their new source, and nothing is written. Carrying it out means making its writes in
order and stopping at the first one that the image refuses; what was written before stays.

A plan reads the image through a session, which may know of senders that cannot be found in any
text.
-/

namespace MethodBrowser

/-- What all refactorings can be told. -/
structure Settings where
  /-- How many methods a warning names. -/
  senderExampleLimit : Nat
  /-- The category of methods that have none. -/
  defaultCategory : String
  deriving DecidableEq

namespace Settings

def standard : Settings := ⟨10, "as yet unclassified"⟩

end Settings

/-! ## Sessions -/

/-- Puts a reference into a sorted list, unless it is there. -/
def MethodRef.insertSorted (m : MethodRef) : List MethodRef → List MethodRef
  | [] => [m]
  | n :: rest =>
    match m.compare n with
    | .lt => m :: n :: rest
    | .eq => n :: rest
    | .gt => n :: insertSorted m rest

/-- An image, and methods that it reports as senders of every selector. -/
structure Session where
  image : Image
  extraSenders : List MethodRef

namespace Session

/-- Passes a failure of the image on. -/
def ask {α : Type} (answer : Except ImageError α) : Except Failure α := answer.mapError .image

variable (session : Session)

def sourceOf (m : MethodRef) : Except Failure String := ask (session.image.sourceOf m)

def implements (className : String) (side : Side) (selector : String) : Except Failure Bool :=
  ask (session.image.implements className side selector)

def implementors (selector : String) : List MethodRef := session.image.implementors selector

/-- The senders of a selector, those known otherwise included. -/
def senders (selector : String) : List MethodRef :=
  session.extraSenders.foldl (fun found m => m.insertSorted found) (session.image.senders selector)

/-- The category of a method, or the default for one that has none. -/
def categoryOf (settings : Settings) (m : MethodRef) : Except Failure String := do
  let category ← ask (session.image.categoryOf m)
  return if Text.isBlank category then settings.defaultCategory else category

end Session

/-! ## Impact -/

/-- How many methods a change affects, with some of them by name. -/
structure Impact where
  count : Nat
  examples : List String
  deriving DecidableEq

namespace Impact

def ofMethods (methods : List MethodRef) (limit : Nat) : Impact :=
  ⟨methods.length, (methods.take limit).map (·.display)⟩

def isEmpty (impact : Impact) : Bool := impact.count == 0

/-- The examples, and how many more there are. -/
def describe (impact : Impact) : String :=
  let listed := String.intercalate ", " impact.examples
  let rest := impact.count - impact.examples.length
  if rest = 0 then listed else s!"{listed} and {rest} more"

def toJson (impact : Impact) : Json :=
  .obj [("count", .num impact.count), ("examples", .strs impact.examples)]

end Impact

/-! ## Pieces of plans -/

/-- The indentation of a generated body. -/
def indent : String := "    "

/-- A method whose source a plan replaces. -/
structure MethodRevision where
  method : MethodRef
  category : String
  oldSource : String
  newSource : String
  replacements : Nat
  deriving DecidableEq

/-- The source of a method before and after a plan. -/
structure SourceChange where
  label : String
  before : String
  after : String
  deriving DecidableEq

def MethodRevision.change (r : MethodRevision) : SourceChange :=
  ⟨r.method.display, r.oldSource, r.newSource⟩

def MethodRef.toJson (m : MethodRef) : Json :=
  .obj [("class_name", .str m.className), ("side", .str m.side.name),
    ("selector", .str m.selector)]

def MethodRef.listToJson (methods : List MethodRef) : Json := .arr (methods.map (·.toJson))

def MethodRevision.toJson (r : MethodRevision) : Json :=
  .obj [("method", r.method.toJson), ("category", .str r.category),
    ("original_source", .str r.oldSource), ("new_source", .str r.newSource),
    ("replacements", .num r.replacements)]

/-! ## Writes -/

/-- A change to an image. -/
inductive Write where
  | compile (className : String) (side : Side) (source category : String)
  | delete (method : MethodRef)
  deriving DecidableEq

/-- The write that puts the new source of a method in place. -/
def MethodRevision.write (r : MethodRevision) : Write :=
  .compile r.method.className r.method.side r.newSource r.category

/-- What writes did to an image. -/
structure Effects where
  compiled : List MethodRef
  deleted : List MethodRef
  deriving DecidableEq

namespace Image

/-- Makes writes in order up to the first failure. Gives the image as it is then. -/
def perform (image : Image) : List Write → Image × Except ImageError Effects
  | [] => (image, .ok ⟨[], []⟩)
  | .compile className side source category :: writes =>
    match image.compile className side source category with
    | .error e => (image, .error e)
    | .ok (image, method) =>
      let (image, result) := image.perform writes
      (image, result.map fun effects => { effects with compiled := method :: effects.compiled })
  | .delete method :: writes =>
    match image.delete method with
    | .error e => (image, .error e)
    | .ok image =>
      let (image, result) := image.perform writes
      (image, result.map fun effects => { effects with deleted := method :: effects.deleted })

end Image

end MethodBrowser
