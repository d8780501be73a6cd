import MethodBrowser.Plan.Renaming

/-!
# Renaming a method

Renames one method and the senders on its own class and side, whose sends most likely reach it.
Other senders and other implementors of the old selector are only reported.
-/

namespace MethodBrowser.RenameMethod

structure Request where
  className : String
  side : Side
  oldSelector : String
  newSelector : String
  overwrite : Bool
  deriving DecidableEq

structure Plan where
  method : MethodRef
  newMethod : MethodRef
  revision : MethodRevision
  /-- Senders on the class and side of the method. -/
  sameScopeSenders : List MethodRevision
  unchangedSenders : List MethodRef
  otherSenders : Impact
  otherImplementors : Impact
  overwrite : Bool
  warnings : List String
  deriving DecidableEq

def plan (session : Session) (settings : Settings) (r : Request) : Except Failure Plan := do
  let old := r.oldSelector
  let new := r.newSelector
  let limit := settings.senderExampleLimit
  let _ ← (checkRename old new).mapError Failure.precondition
  let method : MethodRef := ⟨r.className, r.side, old⟩
  let newMethod : MethodRef := ⟨r.className, r.side, new⟩
  let _ ← session.sourceOf method
  if !r.overwrite then
    let taken ← session.implements r.className r.side new
    require (!taken) (.targetExists newMethod)
  let revision ← session.renameImplementor settings old new method
  let senders := (session.senders old).filter (· ≠ method)
  let (sameScope, unchanged) ←
    session.renameSenders settings old new (senders.filter (·.sameScope method))
  let others := Impact.ofMethods (senders.filter fun s => !s.sameScope method) limit
  let implementors := Impact.ofMethods ((session.implementors old).filter (· ≠ method)) limit
  let scope := method.scopeName
  let count := others.count
  let listedOthers := others.describe
  let listedImplementors := implementors.describe
  let warnings :=
    (if others.isEmpty then [] else
      [s!"{count} sender(s) of `{old}` outside {scope} were not rewritten " ++
        s!"because their receivers are unknown: {listedOthers}"])
    ++ (if implementors.isEmpty then [] else
      [s!"`{old}` is still implemented by {listedImplementors}; " ++
        "polymorphic sends may now reach a different method"])
    ++ unchangedWarnings settings old unchanged
  return ⟨method, newMethod, revision, sameScope, unchanged, others, implementors, r.overwrite,
    warnings⟩

namespace Plan

variable (p : Plan)

def writes : List Write := (p.revision :: p.sameScopeSenders).map (·.write) ++ [.delete p.method]

def changes : List SourceChange := (p.revision :: p.sameScopeSenders).map (·.change)

def members : List (String × Json) :=
  [("method", p.method.toJson), ("new_method", p.newMethod.toJson),
    ("rewrite", p.revision.toJson),
    ("same_scope_senders", .arr (p.sameScopeSenders.map (·.toJson))),
    ("unchanged_senders", MethodRef.listToJson p.unchangedSenders),
    ("other_senders", p.otherSenders.toJson),
    ("other_implementors", p.otherImplementors.toJson), ("overwrite", .bool p.overwrite),
    ("warnings", .strs p.warnings), ("analysis_limitations", .strs analysisLimitations)]

def outcome (_ : Plan) : List (String × Json) := [("old_selector_removed", .bool true)]

end Plan

end MethodBrowser.RenameMethod
