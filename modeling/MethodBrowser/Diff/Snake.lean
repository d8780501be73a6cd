import MethodBrowser.Diff.Basic

/-!
# The middle of a shortest way

A comparison is a way through a grid, from the corner where nothing has been read to the corner
where both texts have been read. Deleting a line is a step right, inserting one is a step down, and
a line that both texts share may be passed diagonally. A shortest way has the fewest steps right and
down, so it keeps as many lines as possible.

**Frontiers.** A search explores all ways with `0, 1, 2, …` steps at a time. On each diagonal, where
`x - y` is constant, only the furthest point counts (`Frontier`). Every step changes the diagonal by
one and is followed by all the diagonal moves that are possible.

**Meeting.** One search starts at either corner. As soon as the two overlap on a diagonal, a
shortest way leads through the place where they meet (`Texts.middle?`), and the two parts before and
after it can be searched apart.
-/

namespace MethodBrowser.Diff

/-- The furthest points of a search, by diagonal. -/
structure Frontier where
  /-- No diagonal is further than this from the one of the corner. -/
  radius : Nat
  reach : Array Nat

namespace Frontier

def start (radius : Nat) : Frontier := ⟨radius, Array.replicate (2 * radius + 1) 0⟩

def get (v : Frontier) (k : Int) : Nat := (v.reach[(k + v.radius).toNat]?).getD 0

def set (v : Frontier) (k : Int) (x : Nat) : Frontier :=
  { v with reach := v.reach.setIfInBounds (k + v.radius).toNat x }

/-- Where diagonal `k` is entered in round `d`: from the neighbour that lies further, and from the
lower one if both lie equally far. -/
def entry (v : Frontier) (d k : Int) : Nat :=
  if k = -d ∨ (k ≠ d ∧ v.get (k - 1) < v.get (k + 1)) then v.get (k + 1) else v.get (k - 1) + 1

end Frontier

/-- Where a search enters a diagonal and where it stops on it. -/
structure Snake where
  startX : Nat
  startY : Int
  stopX : Nat
  stopY : Int

/-- One round of a search: explores the given diagonals, up to the first on which it meets the other
search. -/
def sweep (run : Nat → Nat → Nat) (meets : Int → Nat → Bool) (d : Int) :
    List Int → Frontier → Frontier × Option Snake
  | [], v => (v, none)
  | k :: ks, v =>
    let x := v.entry d k
    let y : Int := x - k
    let x' := if 0 ≤ y then x + run x y.toNat else x
    let v := v.set k x'
    if meets k x' then (v, some ⟨x, y, x', x' - k⟩) else sweep run meets d ks v

/-- The diagonals of round `d`, from the highest to the lowest. -/
def diagonals (d : Nat) : List Int := (List.range (d + 1)).map fun (i : Nat) => (d : Int) - 2 * i

namespace Texts

/-- Explores rounds from `d` on, at most `n` of them, until the searches from both corners meet.
The two can only meet in the forward search if the sizes differ by an odd number, and only in the
backward search otherwise. -/
def search (t : Texts) (r : Region) (forward backward : Frontier) (d : Nat) :
    (n : Nat) → Option (Nat × Nat)
  | 0 => none
  | n + 1 =>
    let delta : Int := r.oldSize - r.newSize
    let isOdd := delta % 2 ≠ 0
    let meetsForward := fun (k : Int) x =>
      isOdd && (k - delta).natAbs < d && r.oldSize ≤ x + backward.get (delta - k)
    let runForward := fun x y => t.commonFront (r.lastPart x y)
    match sweep runForward meetsForward d (diagonals d) forward with
    | (_, some snake) => some (snake.startX, snake.startY.toNat)
    | (forward, none) =>
      let meetsBackward := fun (k : Int) x =>
        !isOdd && (k - delta).natAbs ≤ d && r.oldSize ≤ x + forward.get (delta - k)
      let runBackward := fun x y => t.commonBack (r.firstPart (r.oldSize - x) (r.newSize - y))
      match sweep runBackward meetsBackward d (diagonals d) backward with
      | (_, some snake) => some (r.oldSize - snake.stopX, r.newSize - snake.stopY.toNat)
      | (backward, none) => search t r forward backward (d + 1) n

/-- A point on a shortest way through a region. -/
def middle? (t : Texts) (r : Region) : Option (Nat × Nat) :=
  let rounds := (r.oldSize + r.newSize + 1) / 2 + 1
  t.search r (.start (rounds + 1)) (.start (rounds + 1)) 0 rounds

end Texts

end MethodBrowser.Diff
