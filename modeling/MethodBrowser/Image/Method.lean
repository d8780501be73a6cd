import MethodBrowser.Dictionary

/-!
# Names of methods

A method is identified by its class, the side of the class it lives on and its selector. The
instance side holds the methods of the instances and the class side those of the class itself.
-/

namespace MethodBrowser

inductive Side where
  | instanceSide
  | classSide
  deriving DecidableEq

namespace Side

def name : Side → String
  | instanceSide => "instance"
  | classSide => "class"

def ofName? (name : String) : Option Side :=
  if name = "instance" then some instanceSide
  else if name = "class" then some classSide
  else none

/-- The side that a flag for the class side selects. -/
def ofFlag (classSide : Bool) : Side := if classSide then .classSide else .instanceSide

/-- The instance side comes first. -/
def rank : Side → Nat
  | instanceSide => 0
  | classSide => 1

end Side

/-- A method of an image. -/
structure MethodRef where
  className : String
  side : Side
  selector : String
  deriving DecidableEq

namespace MethodRef

/-- The class and side of a method: `Point` or `Point class`. -/
def scopeName (m : MethodRef) : String :=
  match m.side with
  | .instanceSide => m.className
  | .classSide => m.className ++ " class"

/-- A method as it is written for people: `Point>>x` or `Point class>>new`. -/
def display (m : MethodRef) : String := m.scopeName ++ ">>" ++ m.selector

/-- Both methods live on the same side of the same class. -/
def sameScope (m n : MethodRef) : Bool := m.className == n.className && m.side == n.side

/-- Methods are ordered by class, then side, then selector. -/
def compare (m n : MethodRef) : Ordering :=
  ((compareOfLessAndEq m.className n.className).then
    (compareOfLessAndEq m.side.rank n.side.rank)).then
      (compareOfLessAndEq m.selector n.selector)

def le (m n : MethodRef) : Bool := (m.compare n).isLE

/-- The methods of a list in order. -/
def sort (methods : List MethodRef) : List MethodRef := methods.mergeSort le

end MethodRef

end MethodBrowser
