import MethodBrowser.Selector
import MethodBrowser.Source.Literal
import MethodBrowser.Source.Preamble

/-!
# Message sends

Nothing here parses expressions. A send is recognised by its selector and by what stands before
it, so what is known of its receiver is a guess from the text (`Receiver`).

Sends are looked for in a region of a method: everything after the preamble, less the spans that
hold no sends (`SendRegion`).
-/

namespace MethodBrowser

/-- What the text tells about the receiver of a send. -/
inductive Receiver where
  | self
  | super
  /-- The send continues a cascade. -/
  | cascade
  | unknown
  deriving DecidableEq

namespace Receiver

def name : Receiver → String
  | self => "self"
  | super => "super"
  | cascade => "cascade"
  | unknown => "unknown"

/-- The receiver that a word stands for. -/
def ofWord (word : String) : Receiver :=
  if word = "self" then self else if word = "super" then super else unknown

end Receiver

/-- A message send. Its span covers the selector only: from the start of the first token to the
end of the last one. -/
structure Send where
  selector : String
  kind : SelectorKind
  receiver : Receiver
  span : Span
  /-- The number of tokens of the selector. -/
  tokens : Nat
  deriving DecidableEq

/-- A part of a method in which sends are looked for. -/
structure SendRegion where
  span : Span
  /-- Spans without sends. -/
  excluded : List Span

namespace SendRegion

/-- A span inside the region and outside all that is excluded. -/
def admits (region : SendRegion) (s : Span) : Bool :=
  region.span.contains s && !region.excluded.any (·.overlaps s)

end SendRegion

/-- The region of a whole method. -/
def Source.sendRegion (src : Source) : SendRegion :=
  let span := src.statementRegion
  ⟨span, src.literalArrays span ++ src.blockTemporaries span⟩

end MethodBrowser
