import MethodBrowser.Image.Method
import MethodBrowser.Header
import MethodBrowser.Send.Detect

/-!
# Images

An image holds classes and their methods. It answers questions about them and takes two kinds of
change: compiling a method into a class and deleting one. Both fail in a class that is read-only.

A method is stored under the selector that its header spells. In an image that was read from a
snapshot this need not be so.
-/

namespace MethodBrowser

/-- A stored method. -/
structure MethodEntry where
  source : String
  category : String
  deriving DecidableEq

/-- A stored class with the methods of both its sides. -/
structure ClassEntry where
  superclass : Option String
  package : String
  definition : String
  readOnly : Bool
  instanceMethods : Dictionary MethodEntry
  classMethods : Dictionary MethodEntry
  deriving DecidableEq

namespace ClassEntry

/-- A class about which nothing is known. -/
def blank : ClassEntry := ⟨none, "", "", false, .empty, .empty⟩

def methods (c : ClassEntry) : Side → Dictionary MethodEntry
  | .instanceSide => c.instanceMethods
  | .classSide => c.classMethods

def withMethods (c : ClassEntry) (side : Side) (methods : Dictionary MethodEntry) : ClassEntry :=
  match side with
  | .instanceSide => { c with instanceMethods := methods }
  | .classSide => { c with classMethods := methods }

end ClassEntry

/-- Classes by name. -/
structure Image where
  classes : Dictionary ClassEntry
  deriving DecidableEq

/-! ## Failures -/

/-- Why an image cannot do what it is asked to. -/
inductive ImageError where
  | classNotFound (name : String)
  | methodNotFound (method : MethodRef)
  /-- A method to be compiled into a class has a header line that is no signature. -/
  | unreadableHeader (className line : String)
  | readOnlyClass (name : String)
  /-- The superclasses of a class form a cycle. -/
  | cyclicSuperclasses (name : String)
  /-- The image is not live, so it runs nothing. -/
  | cannotRun (what : String)
  deriving DecidableEq

namespace ImageError

/-- What programs tell failures apart by. -/
def code : ImageError → String
  | classNotFound _ => "gemtalk::session::class_not_found"
  | methodNotFound _ => "gemtalk::session::method_not_found"
  | unreadableHeader .. => "gemtalk::session::compile_failed"
  | readOnlyClass _ | cyclicSuperclasses _ | cannotRun _ => "gemtalk::session::operation_failed"

def help? : ImageError → Option String
  | unreadableHeader .. =>
    some "the first line of a method must be its selector and argument names"
  | _ => none

def message : ImageError → String
  | classNotFound name => s!"class `{name}` does not exist"
  | methodNotFound method =>
    let shown := method.display
    s!"method `{shown}` does not exist"
  | unreadableHeader className line =>
    s!"compilation in `{className}` failed: cannot read a selector from `{line}`"
  | readOnlyClass name => s!"image operation failed: class `{name}` is read-only"
  | cyclicSuperclasses name =>
    s!"image operation failed: superclass chain of `{name}` is cyclic"
  | cannotRun what =>
    s!"image operation failed: {what} needs a live image; a snapshot cannot execute code"

end ImageError

namespace Image

def empty : Image := ⟨.empty⟩

variable (image : Image)

/-! ## Questions -/

def class? (name : String) : Option ClassEntry := image.classes.get? name

def findClass (name : String) : Except ImageError ClassEntry :=
  match image.class? name with
  | some entry => .ok entry
  | none => .error (.classNotFound name)

/-- The method stored under a reference. -/
def method? (m : MethodRef) : Option MethodEntry :=
  (image.class? m.className).bind fun entry => (entry.methods m.side).get? m.selector

def findMethod (m : MethodRef) : Except ImageError MethodEntry := do
  let entry ← image.findClass m.className
  match (entry.methods m.side).get? m.selector with
  | some method => .ok method
  | none => .error (.methodNotFound m)

def sourceOf (m : MethodRef) : Except ImageError String := do
  return (← image.findMethod m).source

def categoryOf (m : MethodRef) : Except ImageError String := do
  return (← image.findMethod m).category

/-- The selectors on one side of a class. -/
def selectors (className : String) (side : Side) : Except ImageError (List String) := do
  return ((← image.findClass className).methods side).keys

/-- The categories in use on one side of a class. -/
def categories (className : String) (side : Side) : Except ImageError (List String) := do
  let methods := (← image.findClass className).methods side
  return sortedNames (methods.values.map (·.category))

/-- One side of a class defines a selector. -/
def implements (className : String) (side : Side) (selector : String) :
    Except ImageError Bool := do
  return (← image.selectors className side).contains selector

/-- The classes, or those of one package. -/
def classNames (package : Option String) : List String :=
  (image.classes.entries.filter fun e => package.all (· == e.2.package)).map (·.1)

/-- The packages that classes belong to. -/
def packages : List String :=
  sortedNames ((image.classes.values.map (·.package)).filter (· ≠ ""))

/-- All methods, in the order of their references. -/
def methods : List (MethodRef × MethodEntry) :=
  image.classes.entries.flatMap fun c =>
    [Side.instanceSide, Side.classSide].flatMap fun side =>
      (c.2.methods side).entries.map fun m => (⟨c.1, side, m.1⟩, m.2)

/-- The methods that define a selector. -/
def implementors (selector : String) : List MethodRef :=
  (image.methods.filter fun m => m.1.selector == selector).map (·.1)

/-- The methods in whose text a send of a selector is found. -/
def senders (selector : String) : List MethodRef :=
  (image.methods.filter fun m => (Source.ofText m.2.source).sendsSelector selector).map (·.1)

/-- The source of a class definition. A class that keeps none gets one made up. -/
def definitionOf (className : String) : Except ImageError String := do
  let entry ← image.findClass className
  if entry.definition ≠ "" then return entry.definition
  let superclass := entry.superclass.getD "nil"
  let package := entry.package
  return s!"{superclass} subclass: #{className}\n    instanceVariableNames: ''\n" ++
    s!"    category: '{package}'"

/-! ## Superclasses -/

/-- Looks for `ancestor` along the superclasses that start with `current`, over at most `hops`
links. The answer is `none` if they are used up. -/
def chainMeets (ancestor : String) : (hops : Nat) → (current : Option String) → Option Bool
  | _, none => some false
  | 0, some name => if name = ancestor then some true else none
  | hops + 1, some name =>
    if name = ancestor then some true
    else chainMeets ancestor hops ((image.class? name).bind (·.superclass))

/-- `ancestor` is a superclass of a class, directly or through others. A chain longer than the
number of classes is a cycle. -/
def inheritsFrom (className ancestor : String) : Except ImageError Bool := do
  let entry ← image.findClass className
  match image.chainMeets ancestor image.classes.size entry.superclass with
  | some answer => return answer
  | none => throw (.cyclicSuperclasses className)

/-! ## Changes -/

/-- Adds a class, or gives an existing one a new superclass and package. -/
def defineClass (name : String) (superclass : Option String) (package : String) : Image :=
  let entry := (image.class? name).getD .blank
  ⟨image.classes.insert name { entry with superclass := superclass, package := package }⟩

/-- Makes a class read-only, or opens it to changes again. -/
def setReadOnly (name : String) (readOnly : Bool) : Image :=
  match image.class? name with
  | some entry => ⟨image.classes.insert name { entry with readOnly := readOnly }⟩
  | none => image

/-- A class whose methods may be changed. -/
def writableClass (name : String) : Except ImageError ClassEntry := do
  let entry ← image.findClass name
  if entry.readOnly then throw (.readOnlyClass name)
  return entry

/-- The image with other methods on one side of a class. -/
def withMethods (name : String) (entry : ClassEntry) (side : Side)
    (methods : Dictionary MethodEntry) : Image :=
  ⟨image.classes.insert name (entry.withMethods side methods)⟩

/-- Stores a method under the selector of its header. -/
def compile (className : String) (side : Side) (source category : String) :
    Except ImageError (Image × MethodRef) :=
  match Header.ofText? source with
  | none => .error (.unreadableHeader className (splitHeader source).1)
  | some header => do
    let entry ← image.writableClass className
    let methods := (entry.methods side).insert header.selector ⟨source, category⟩
    return (image.withMethods className entry side methods, ⟨className, side, header.selector⟩)

def delete (m : MethodRef) : Except ImageError Image := do
  let entry ← image.writableClass m.className
  if (entry.methods m.side).contains m.selector then
    return image.withMethods m.className entry m.side ((entry.methods m.side).erase m.selector)
  else throw (.methodNotFound m)

end Image

end MethodBrowser
