import MethodBrowser.Plan.Renaming

/-!
# Renaming a selector

Renames a selector in the whole image: every method that implements it and every method that
sends it. The methods are compiled under their new source first; then the old implementors are
deleted.
-/

namespace MethodBrowser.RenameSelector

structure Request where
  oldSelector : String
  newSelector : String
  /-- Methods of the new selector may be replaced. -/
  overwrite : Bool
  deriving DecidableEq

structure Plan where
  oldSelector : String
  newSelector : String
  implementors : List MethodRevision
  senders : List MethodRevision
  /-- Senders in which no send was found. -/
  unchangedSenders : List MethodRef
  senderImpact : Impact
  /-- A class outside the rename implements the new selector. -/
  newSelectorConflict : Bool
  overwrite : Bool
  warnings : List String
  deriving DecidableEq

/-- The revisions of the implementors, none of which may clash with the new selector. -/
def renameImplementors (session : Session) (settings : Settings) (r : Request) :
    List MethodRef → Except Failure (List MethodRevision)
  | [] => .ok []
  | method :: methods => do
    if !r.overwrite then
      let taken ← session.implements method.className method.side r.newSelector
      require (!taken) (.targetExists { method with selector := r.newSelector })
    let revision ← session.renameImplementor settings r.oldSelector r.newSelector method
    return revision :: (← renameImplementors session settings r methods)

def plan (session : Session) (settings : Settings) (r : Request) : Except Failure Plan := do
  let old := r.oldSelector
  let new := r.newSelector
  let limit := settings.senderExampleLimit
  let _ ← (checkRename old new).mapError Failure.precondition
  let implementors := session.implementors old
  let revisions ← renameImplementors session settings r implementors
  let conflicts := (session.implementors new).filter fun existing =>
    !implementors.any (·.sameScope existing)
  let senders := (session.senders old).filter fun sender => !implementors.contains sender
  let impact := Impact.ofMethods senders limit
  let (senderRevisions, unchanged) ← session.renameSenders settings old new senders
  let listedConflicts := (Impact.ofMethods conflicts limit).describe
  let listedSenders := impact.describe
  let count := impact.count
  let warnings :=
    (if implementors.isEmpty then
      [s!"No class implements `{old}`; only senders are rewritten"] else [])
    ++ (if conflicts.isEmpty then [] else
      [s!"`{new}` is already implemented by {listedConflicts}; " ++
        "sends that reach those classes will change behaviour"])
    ++ (if impact.isEmpty then [] else
      [s!"{count} sender(s) of `{old}` are rewritten without knowing their receivers: " ++
        listedSenders])
    ++ unchangedWarnings settings old unchanged
  return ⟨old, new, revisions, senderRevisions, unchanged, impact, !conflicts.isEmpty, r.overwrite,
    warnings⟩

namespace Plan

variable (p : Plan)

def writes : List Write :=
  (p.implementors ++ p.senders).map (·.write) ++ p.implementors.map fun r => .delete r.method

def changes : List SourceChange := (p.implementors ++ p.senders).map (·.change)

def members : List (String × Json) :=
  [("old_selector", .str p.oldSelector), ("new_selector", .str p.newSelector),
    ("implementors", .arr (p.implementors.map (·.toJson))),
    ("senders", .arr (p.senders.map (·.toJson))),
    ("unchanged_senders", MethodRef.listToJson p.unchangedSenders),
    ("sender_impact", p.senderImpact.toJson),
    ("new_selector_conflict", .bool p.newSelectorConflict), ("overwrite", .bool p.overwrite),
    ("warnings", .strs p.warnings), ("analysis_limitations", .strs analysisLimitations)]

/-- What carrying the plan out reports beside the writes. -/
def outcome : List (String × Json) :=
  [("old_selector_removed", .bool (!p.implementors.isEmpty))]

end Plan

end MethodBrowser.RenameSelector
