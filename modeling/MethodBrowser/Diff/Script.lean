import MethodBrowser.Diff.Snake

/-!
# Comparing two texts

**Dividing.** Lines that both texts start or end with are kept. What is left is divided at the
middle of a shortest way, and both parts are compared in the same manner (`Texts.divide`).

**Sliding.** A run of inserted lines can often stand in several places: in front of a kept line, if
it starts with the same line, or behind one, if it ends with it. So that changes come together, each
run of insertions is moved up as far as possible, joined with the insertions that it meets, and
moved down again as far as possible (`Texts.slide`). Deletions are only moved past insertions and
joined with each other.

**Joining.** Deletions and insertions with no kept line between them are one part of the result
(`Part`), in which the deletions come first.
-/

namespace MethodBrowser.Diff

namespace Texts

/-! ## Dividing -/

/-- A chunk, unless it is empty. -/
def chunk (change : Change) (old new size : Nat) : List Chunk :=
  if size = 0 then [] else [⟨change, old, new, size⟩]

/-- The comparison of a region, divided at most `n` levels deep. -/
def divide (t : Texts) : (n : Nat) → Region → List Chunk
  | 0, r =>
    chunk .delete r.oldStart r.newStart r.oldSize ++ chunk .insert r.oldStart r.newStart r.newSize
  | n + 1, r =>
    let front := t.commonFront r
    let back := t.commonBack (r.dropFront front)
    let rest := (r.dropFront front).dropBack back
    let between :=
      if rest.newSize = 0 then chunk .delete rest.oldStart rest.newStart rest.oldSize
      else if rest.oldSize = 0 then chunk .insert rest.oldStart rest.newStart rest.newSize
      else
        match t.middle? rest with
        | some (x, y) => divide t n (rest.firstPart x y) ++ divide t n (rest.lastPart x y)
        | none => divide t 0 rest
    chunk .keep r.oldStart r.newStart front ++ between
      ++ chunk .keep rest.oldStop rest.newStop back

/-! ## Sliding -/

/-- A place in a list of chunks: those before it, the nearest first, and those after it. -/
structure Cursor where
  before : List Chunk
  here : Chunk
  after : List Chunk

/-- The number of chunks and of their lines. -/
def weight : List Chunk → Nat
  | [] => 0
  | c :: chunks => c.size + 1 + weight chunks

/-- By how many lines a chunk can move up behind the kept chunk `prev`. -/
def roomAbove (t : Texts) (prev here : Chunk) : Nat :=
  match here.change with
  | .insert => t.commonBack ⟨prev.old, prev.old + prev.size, here.new, here.new + here.size⟩
  | _ => 0

/-- By how many lines a chunk can move down in front of the kept chunk `next`. -/
def roomBelow (t : Texts) (here next : Chunk) : Nat :=
  match here.change with
  | .insert => t.commonFront ⟨next.old, next.old + next.size, here.new, here.new + here.size⟩
  | _ => 0

/-- Gives the first of the chunks `n` more lines at its front if they are kept, and makes a chunk of
them otherwise. -/
def keepBefore (old new n : Nat) : List Chunk → List Chunk
  | c :: chunks =>
    if c.isKeep then (c.moveUp n).grow n :: chunks else ⟨.keep, old, new, n⟩ :: c :: chunks
  | [] => [⟨.keep, old, new, n⟩]

/-- Gives the first of the chunks `n` more lines at its end if they are kept, and makes a chunk of
them otherwise. -/
def keepAfter (old new n : Nat) : List Chunk → List Chunk
  | c :: chunks => if c.isKeep then c.grow n :: chunks else ⟨.keep, old, new, n⟩ :: c :: chunks
  | [] => [⟨.keep, old, new, n⟩]

/-- Moves a chunk up as far as possible. -/
def slideUp (t : Texts) (before : List Chunk) (here : Chunk) (after : List Chunk) : Cursor :=
  match before with
  | [] => ⟨[], here, after⟩
  | prev :: before =>
    if prev.isKeep then
      let n := t.roomAbove prev here
      let left := prev.shrink n
      if n = 0 ∧ prev.size ≠ 0 then ⟨prev :: before, here, after⟩
      else
        let after :=
          if n = 0 then after
          else keepBefore (prev.old + prev.size - n) (here.new + here.size - n) n after
        if left.size = 0 then slideUp t before (here.moveUp n) after
        else slideUp t (left :: before) (here.moveUp n) after
    else if prev.change = here.change then slideUp t before (prev.grow here.size) after
    else slideUp t before here (prev :: after)
termination_by weight before
decreasing_by all_goals grind [Chunk.shrink, weight]

/-- Moves a chunk down as far as possible. -/
def slideDown (t : Texts) (before : List Chunk) (here : Chunk) (after : List Chunk) : Cursor :=
  match after with
  | [] => ⟨before, here, []⟩
  | next :: after =>
    if next.isKeep then
      let n := t.roomBelow here next
      let left := (next.moveDown n).shrink n
      if n = 0 ∧ next.size ≠ 0 then ⟨before, here, next :: after⟩
      else
        let before := if n = 0 then before else keepAfter next.old here.new n before
        if left.size = 0 then slideDown t before (here.moveDown n) after
        else slideDown t before (here.moveDown n) (left :: after)
    else if next.change = here.change then slideDown t before (here.grow next.size) after
    else slideDown t (next :: before) here after
termination_by weight after
decreasing_by all_goals grind [Chunk.shrink, Chunk.moveDown, weight]

/-- Moves all chunks of one kind up and down, in at most `n` rounds. Those before the current place
are given with the nearest first. -/
def slide (t : Texts) (change : Change) : (n : Nat) → (before after : List Chunk) → List Chunk
  | 0, before, after => before.reverse ++ after
  | _ + 1, before, [] => before.reverse
  | n + 1, before, here :: after =>
    if here.change = change then
      let up := t.slideUp before here after
      let down := t.slideDown up.before up.here up.after
      slide t change n (down.here :: down.before) down.after
    else slide t change n (here :: before) after

end Texts

/-! ## Joining -/

/-- Lines of the old text and the lines of the new one in their place: the same ones if they are
kept. -/
structure Part where
  isKept : Bool
  old : Nat
  oldSize : Nat
  new : Nat
  newSize : Nat
  deriving DecidableEq

namespace Part

/-- The number of lines of chunks. -/
def totalSize : List Chunk → Nat
  | [] => 0
  | c :: chunks => c.size + totalSize chunks

/-- The part that consists of kept chunks, or of changes. -/
def ofChunks (chunks : List Chunk) : Option Part :=
  let deleted := chunks.filter (·.change == .delete)
  let inserted := chunks.filter (·.change == .insert)
  match deleted, inserted with
  | d :: _, i :: _ => some ⟨false, d.old, totalSize deleted, i.new, totalSize inserted⟩
  | d :: _, [] => some ⟨false, d.old, totalSize deleted, d.new, 0⟩
  | [], i :: _ => some ⟨false, i.old, 0, i.new, totalSize inserted⟩
  | [], [] =>
    chunks.head?.map fun c => ⟨true, c.old, totalSize chunks, c.new, totalSize chunks⟩

end Part

/-- The comparison of two texts. -/
def Texts.script (t : Texts) : List Part :=
  let lines := t.old.size + t.new.size
  let chunks := t.divide (lines + 1) t.all
  let rounds := (lines + chunks.length + 1) * (lines + chunks.length + 1)
  let chunks := t.slide .delete rounds [] chunks
  let chunks := t.slide .insert rounds [] chunks
  (chunks.splitBy fun a b => a.isKeep == b.isKeep).filterMap Part.ofChunks

end MethodBrowser.Diff
