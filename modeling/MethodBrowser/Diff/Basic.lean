/-!
# Texts as lists of lines

Two texts are compared line by line. A comparison is a list of chunks (`Chunk`), each of which says
that some lines are kept, deleted or inserted.
-/

namespace MethodBrowser.Diff

/-! ## Lines -/

/-- Cuts a text after each line end, which stays with its line. A line ends with a line feed, a
carriage return, or both in this order. -/
def cutLines : List Char → List (List Char)
  | [] => []
  | '\n' :: cs => ['\n'] :: cutLines cs
  | '\r' :: '\n' :: cs => ['\r', '\n'] :: cutLines cs
  | '\r' :: cs => ['\r'] :: cutLines cs
  | c :: cs =>
    match cutLines cs with
    | [] => [[c]]
    | line :: lines => (c :: line) :: lines

/-- The lines of a text, with their line ends. -/
def lines (text : String) : Array String :=
  ((cutLines text.toList).map String.ofList).toArray

/-! ## The two texts -/

/-- The lines of an old and a new text. -/
structure Texts where
  old : Array String
  new : Array String

/-- Lines that follow each other in the old text, and lines that do in the new one. -/
structure Region where
  oldStart : Nat
  oldStop : Nat
  newStart : Nat
  newStop : Nat
  deriving DecidableEq

namespace Region

def oldSize (r : Region) : Nat := r.oldStop - r.oldStart

def newSize (r : Region) : Nat := r.newStop - r.newStart

/-- Without the first lines of both texts. -/
def dropFront (r : Region) (n : Nat) : Region :=
  { r with oldStart := r.oldStart + n, newStart := r.newStart + n }

/-- Without the last lines of both texts. -/
def dropBack (r : Region) (n : Nat) : Region :=
  { r with oldStop := r.oldStop - n, newStop := r.newStop - n }

/-- The part before a point, which counts lines from the start of the region. -/
def firstPart (r : Region) (x y : Nat) : Region :=
  { r with oldStop := r.oldStart + x, newStop := r.newStart + y }

/-- The part after a point. -/
def lastPart (r : Region) (x y : Nat) : Region :=
  { r with oldStart := r.oldStart + x, newStart := r.newStart + y }

end Region

namespace Texts

/-- All lines of both texts. -/
def all (t : Texts) : Region := ⟨0, t.old.size, 0, t.new.size⟩

/-- Lines of the two texts that are the same. -/
def same (t : Texts) (i j : Nat) : Bool :=
  match t.old[i]?, t.new[j]? with
  | some a, some b => a == b
  | _, _ => false

/-- How many lines at the front of a region are the same in both texts. -/
def commonFront (t : Texts) (r : Region) : Nat :=
  if r.oldStart < r.oldStop ∧ r.newStart < r.newStop ∧ t.same r.oldStart r.newStart then
    commonFront t (r.dropFront 1) + 1
  else 0
termination_by r.oldStop - r.oldStart
decreasing_by
  simp only [Region.dropFront]
  omega

/-- How many lines at the back of a region are the same in both texts. -/
def commonBack (t : Texts) (r : Region) : Nat :=
  if r.oldStart < r.oldStop ∧ r.newStart < r.newStop ∧ t.same (r.oldStop - 1) (r.newStop - 1) then
    commonBack t (r.dropBack 1) + 1
  else 0
termination_by r.oldStop - r.oldStart
decreasing_by
  simp only [Region.dropBack]
  omega

end Texts

/-! ## Chunks -/

/-- What happens to lines. -/
inductive Change where
  | keep
  | delete
  | insert
  deriving DecidableEq

/-- Lines that share a fate. Lines that are kept or deleted stand at `old` in the old text, and
lines that are kept or inserted stand at `new` in the new one. -/
structure Chunk where
  change : Change
  old : Nat
  new : Nat
  size : Nat
  deriving DecidableEq

namespace Chunk

def isKeep (c : Chunk) : Bool := c.change == .keep

/-- Starts `n` lines earlier. -/
def moveUp (c : Chunk) (n : Nat) : Chunk := { c with old := c.old - n, new := c.new - n }

/-- Starts `n` lines later. -/
def moveDown (c : Chunk) (n : Nat) : Chunk := { c with old := c.old + n, new := c.new + n }

/-- With `n` more lines at its end. -/
def grow (c : Chunk) (n : Nat) : Chunk := { c with size := c.size + n }

/-- Without `n` lines at its end. -/
def shrink (c : Chunk) (n : Nat) : Chunk := { c with size := c.size - n }

end Chunk

end MethodBrowser.Diff
