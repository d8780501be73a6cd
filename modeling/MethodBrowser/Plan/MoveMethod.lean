import MethodBrowser.Plan.Basic

/-!
# Moving a method

Moves a method to another class or to the other side of its class, or copies it there. Its senders
are left as they are, since their receivers are not known; they are reported, as is a method whose
sends to itself the new class may not understand.
-/

namespace MethodBrowser.MoveMethod

structure Request where
  sourceClass : String
  sourceSide : Side
  selector : String
  targetClass : String
  targetSide : Side
  overwrite : Bool
  /-- Copy the method and leave it in place, too. -/
  keepSource : Bool
  deriving DecidableEq

structure Plan where
  source : MethodRef
  target : MethodRef
  sourceText : String
  category : String
  /-- A method is there already and will be replaced. -/
  targetExists : Bool
  overwrite : Bool
  keepSource : Bool
  sameScopeSenders : Impact
  crossScopeSenders : Impact
  warnings : List String
  deriving DecidableEq

/-- The selectors that a method sends to `self` or `super`. -/
def selfSelectors (text : String) : List String :=
  sortedNames (((Source.ofText text).sends.filter fun send =>
    send.receiver == .self || send.receiver == .super).map (·.selector))

/-- The warning about a method that sends to itself and leaves its class hierarchy. -/
def inheritanceWarnings (session : Session) (source target : MethodRef) (text : String) :
    Except Failure (List String) := do
  if target.className = source.className then return []
  if ← Session.ask (session.image.inheritsFrom target.className source.className) then return []
  let selectors := selfSelectors text
  if selectors.isEmpty then return []
  let listed := String.intercalate ", " selectors
  return [target.className ++ " does not inherit from " ++ source.className ++
    s!"; the moved method sends {listed} to self/super"]

def plan (session : Session) (settings : Settings) (r : Request) : Except Failure Plan := do
  let source : MethodRef := ⟨r.sourceClass, r.sourceSide, r.selector⟩
  let target : MethodRef := ⟨r.targetClass, r.targetSide, r.selector⟩
  let limit := settings.senderExampleLimit
  require (source ≠ target) (.moveOntoItself source)
  let text ← session.sourceOf source
  let category ← session.categoryOf settings source
  let exists? ← session.implements r.targetClass r.targetSide r.selector
  require (!exists? || r.overwrite) (.targetExists target)
  let senders := (session.senders r.selector).filter (· ≠ source)
  let sameScope := Impact.ofMethods (senders.filter (·.sameScope source)) limit
  let crossScope := Impact.ofMethods (senders.filter fun s => !s.sameScope source) limit
  let consequence :=
    if r.keepSource then "still reach the original" else "will fail once the original is deleted"
  let scope := source.scopeName
  let sameCount := sameScope.count
  let sameListed := sameScope.describe
  let crossCount := crossScope.count
  let crossListed := crossScope.describe
  let inherited ← inheritanceWarnings session source target text
  let warnings :=
    (if exists? then [target.display ++ " already exists and will be replaced"] else [])
    ++ (if sameScope.isEmpty then [] else
      [s!"{sameCount} sender(s) in {scope} are not rewritten and {consequence}: {sameListed}"])
    ++ (if crossScope.isEmpty then [] else
      [s!"{crossCount} sender(s) elsewhere are not rewritten: {crossListed}"])
    ++ inherited
  return ⟨source, target, text, category, exists?, r.overwrite, r.keepSource, sameScope, crossScope,
    warnings⟩

namespace Plan

variable (p : Plan)

def writes : List Write :=
  .compile p.target.className p.target.side p.sourceText p.category ::
    if p.keepSource then [] else [.delete p.source]

def changes : List SourceChange :=
  ⟨p.target.display, "", p.sourceText⟩ ::
    if p.keepSource then [] else [⟨p.source.display, p.sourceText, ""⟩]

def members : List (String × Json) :=
  [("source", p.source.toJson), ("target", p.target.toJson), ("source_text", .str p.sourceText),
    ("category", .str p.category), ("target_exists", .bool p.targetExists),
    ("overwrite", .bool p.overwrite), ("keep_source", .bool p.keepSource),
    ("same_scope_senders", p.sameScopeSenders.toJson),
    ("cross_scope_senders", p.crossScopeSenders.toJson),
    ("warnings", .strs p.warnings), ("analysis_limitations", .strs analysisLimitations)]

def outcome : List (String × Json) := [("source_deleted", .bool (!p.keepSource))]

end Plan

end MethodBrowser.MoveMethod
