import MethodBrowser.Plan.Forwarder

/-!
# Adding a parameter

Appends a keyword and an argument to a keyword method. The old selector becomes a forwarder that
passes a default for the new argument.
-/

namespace MethodBrowser.AddParameter

structure Request where
  className : String
  side : Side
  selector : String
  /-- The keyword to append, such as `with:`. -/
  keyword : String
  argumentName : String
  /-- The expression that the forwarder passes. -/
  defaultArgument : String
  overwrite : Bool
  deriving DecidableEq

structure Plan where
  method : MethodRef
  newMethod : MethodRef
  category : String
  oldSource : String
  newSource : String
  /-- The forwarder. -/
  compatibilitySource : String
  senderImpact : Impact
  warnings : List String
  deriving DecidableEq

/-- Names that no argument may have. -/
def reservedNames : List String := ["self", "super", "nil", "true", "false", "thisContext"]

def isArgumentName (name : String) : Bool :=
  isIdentifier name.toList && !reservedNames.contains name

/-- One keyword, colon included. -/
def isKeyword (keyword : String) : Bool :=
  Selector.kind? keyword == some .keyword && keyword.toList.count ':' == 1

def plan (session : Session) (settings : Settings) (r : Request) : Except Failure Plan := do
  let target ← session.keywordMethod r.className r.side r.selector
  let header := target.header
  require (isKeyword r.keyword)
    (.invalidSelector r.keyword "expected a single keyword token such as `with:`")
  require (isArgumentName r.argumentName) (.invalidArgumentName r.argumentName)
  let locals := header.arguments ++ (Source.ofText target.source).temporaries
  require (!locals.contains r.argumentName) (.argumentNameClash target.method r.argumentName)
  require (!Text.isBlank r.defaultArgument) .emptyDefaultArgument
  let newHeader := Header.ofParts .keyword (header.parts ++ [r.keyword])
    (header.arguments ++ [r.argumentName])
  let newMethod ← session.freeMethod target.method newHeader.selector r.overwrite
  let argument := asArgument r.defaultArgument
  let impact := Impact.ofMethods (session.senders r.selector) settings.senderExampleLimit
  let category ← session.categoryOf settings target.method
  let old := r.selector
  let new := newHeader.selector
  let count := impact.count
  let listed := impact.describe
  let warnings :=
    if impact.isEmpty then [] else
      [s!"{count} sender(s) keep calling `{old}`, which now forwards to `{new}` with " ++
        s!"`{argument}`: {listed}"]
  return ⟨target.method, newMethod, category, target.source,
    replaceHeader target.source header newHeader,
    forwarder header newHeader (header.arguments ++ [argument]), impact, warnings⟩

namespace Plan

variable (p : Plan)

def writes : List Write := forwarderWrites p.method p.newSource p.compatibilitySource p.category

def changes : List SourceChange :=
  forwarderChanges p.method p.newMethod p.oldSource p.newSource p.compatibilitySource

def members : List (String × Json) :=
  [("method", p.method.toJson), ("new_method", p.newMethod.toJson),
    ("category", .str p.category), ("original_source", .str p.oldSource),
    ("new_source", .str p.newSource), ("compatibility_source", .str p.compatibilitySource),
    ("sender_impact", p.senderImpact.toJson),
    ("warnings", .strs p.warnings), ("analysis_limitations", .strs analysisLimitations)]

def outcome (_ : Plan) : List (String × Json) := [("compatibility_method_compiled", .bool true)]

end Plan

end MethodBrowser.AddParameter
