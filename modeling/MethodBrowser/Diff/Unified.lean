import MethodBrowser.Diff.Script

/-!
# Unified diffs

A comparison as text. Changes are shown in hunks, each with up to three kept lines before and after
it; changes with more than six kept lines between them stand in different hunks. Texts without a
difference have an empty diff.

The head of a hunk tells where its first part starts and where its last part stops.
-/

namespace MethodBrowser.Diff

/-- How many kept lines are shown before and after a change. -/
def contextSize : Nat := 3

namespace Part

/-- The first `n` lines of a kept part. -/
def take (p : Part) (n : Nat) : Part :=
  { p with oldSize := min n p.oldSize, newSize := min n p.newSize }

/-- The last `n` lines of a kept part. -/
def takeLast (p : Part) (n : Nat) : Part :=
  { p with
    old := p.old + (p.oldSize - n), oldSize := min n p.oldSize
    new := p.new + (p.newSize - n), newSize := min n p.newSize }

end Part

/-! ## Hunks -/

/-- Shortens a kept part at the front of a comparison. -/
def trimFront : List Part → List Part
  | p :: parts => if p.isKept then p.takeLast contextSize :: parts else p :: parts
  | [] => []

/-- Shortens a kept part at the end of a comparison. -/
def trimBack (parts : List Part) : List Part :=
  match parts.getLast? with
  | some p => if p.isKept then parts.dropLast ++ [p.take contextSize] else parts
  | none => []

/-- Divides parts into hunks where many lines are kept, given the parts of the hunk that has been
started. -/
def divideHunks (hunk : List Part) : List Part → List (List Part)
  | [] => [hunk]
  | p :: parts =>
    if p.isKept && 2 * contextSize < p.oldSize then
      (hunk ++ [p.take contextSize]) :: divideHunks [p.takeLast contextSize] parts
    else divideHunks (hunk ++ [p]) parts

/-- The hunks of a comparison. -/
def hunks (parts : List Part) : List (List Part) :=
  (divideHunks [] (trimBack (trimFront parts))).filter fun hunk => hunk.any (!·.isKept)

/-! ## As text -/

/-- The lines of a range: its first line and its size, which is left out when it is one. An empty
range has the number of the line before it. -/
def range (start stop : Nat) : String :=
  if stop - start = 1 then (start + 1).repr
  else if stop - start = 0 then start.repr ++ ",0"
  else (start + 1).repr ++ "," ++ (stop - start).repr

/-- A line with its mark. A line end is added where there is none. -/
def mark (c : Char) (line : String) : String :=
  let ended := match line.toList.getLast? with
    | some '\n' | some '\r' => line
    | _ => line.push '\n'
  String.singleton c ++ ended

/-- Some lines of a text, each with the same mark. -/
def markAll (c : Char) (lines : Array String) (start size : Nat) : String :=
  String.join ((lines.extract start (start + size)).toList.map (mark c))

namespace Texts

def partText (t : Texts) (p : Part) : String :=
  if p.isKept then markAll ' ' t.old p.old p.oldSize
  else markAll '-' t.old p.old p.oldSize ++ markAll '+' t.new p.new p.newSize

def hunkText (t : Texts) (hunk : List Part) : String :=
  match hunk.head?, hunk.getLast? with
  | some first, some last =>
    let old := range first.old (last.old + last.oldSize)
    let new := range first.new (last.new + last.newSize)
    s!"@@ -{old} +{new} @@\n" ++ String.join (hunk.map t.partText)
  | _, _ => ""

end Texts

/-- The diff of two texts that are known under one label. -/
def unified (label old new : String) : String :=
  let t : Texts := ⟨lines old, lines new⟩
  match hunks t.script with
  | [] => ""
  | shown => s!"--- a/{label}\n+++ b/{label}\n" ++ String.join (shown.map t.hunkText)

end MethodBrowser.Diff
