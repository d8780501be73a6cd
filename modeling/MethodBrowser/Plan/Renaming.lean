import MethodBrowser.Edit
import MethodBrowser.Plan.Basic

/-!
# What all renames share

A selector may only be renamed to one of its own shape and arity. The senders that a rename
covers are revised one by one; one in whose text no send is found stays as it is and is
reported.
-/

namespace MethodBrowser

/-- The shape of a selector that must be well formed. -/
def requireKind (selector : String) : Except Precondition SelectorKind :=
  match Selector.kind? selector with
  | some kind => .ok kind
  | none => .error (.invalidSelector selector "expected a unary, binary or keyword selector")

/-- Both selectors are well formed, differ, and have one shape and arity. -/
def checkRename (old new : String) : Except Precondition SelectorKind := do
  let oldKind ← requireKind old
  let newKind ← requireKind new
  if old = new then throw (.sameSelector old)
  if oldKind ≠ newKind then throw (.kindMismatch old new oldKind newKind)
  if Selector.arity old ≠ Selector.arity new then
    throw (.arityMismatch old new (Selector.arity old) (Selector.arity new))
  return oldKind

namespace Session

variable (session : Session) (settings : Settings) (old new : String)

/-- The revision of a method that implements `old`. -/
def renameImplementor (method : MethodRef) : Except Failure MethodRevision := do
  let source ← session.sourceOf method
  match renameMethod? source old new with
  | none => throw (.precondition (.unreadableMethod method))
  | some renamed =>
    let category ← session.categoryOf settings method
    return ⟨method, category, source, renamed.source, renamed.replacements⟩

/-- The revisions of senders of `old`, and the senders that contain no send of it. -/
def renameSenders : List MethodRef → Except Failure (List MethodRevision × List MethodRef)
  | [] => .ok ([], [])
  | method :: methods => do
    let source ← session.sourceOf method
    let renamed := renameSends source old new
    if renamed.replacements = 0 then
      let (revisions, unchanged) ← renameSenders methods
      return (revisions, method :: unchanged)
    else
      let category ← session.categoryOf settings method
      let (revisions, unchanged) ← renameSenders methods
      let revision := ⟨method, category, source, renamed.source, renamed.replacements⟩
      return (revision :: revisions, unchanged)

end Session

/-- The warning about senders that stay as they are. -/
def unchangedWarnings (settings : Settings) (old : String) (unchanged : List MethodRef) :
    List String :=
  if unchanged.isEmpty then []
  else
    let count := unchanged.length
    let listed := (Impact.ofMethods unchanged settings.senderExampleLimit).describe
    [s!"No send of `{old}` could be rewritten in {count} sender(s); review them by hand: {listed}"]

end MethodBrowser
