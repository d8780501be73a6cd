import MethodBrowser.Edit
import MethodBrowser.Statement
import MethodBrowser.Plan.Basic

/-!
# Inlining a method

Replaces the sends of a unary method to `self` in one caller with the expression that the method
consists of. The method itself stays.
-/

namespace MethodBrowser.InlineMethod

structure Request where
  className : String
  side : Side
  callerSelector : String
  calleeSelector : String
  deriving DecidableEq

structure Plan where
  caller : MethodRef
  callee : MethodRef
  category : String
  inlineExpression : String
  oldCallerSource : String
  newCallerSource : String
  /-- How many sends were replaced. -/
  replacedSites : Nat
  /-- How many sends of the callee the caller contains, whatever their receiver. -/
  callerSendCount : Nat
  /-- The other methods that send the callee. -/
  calleeSenders : Impact
  warnings : List String
  deriving DecidableEq

/-! ## The expression -/

/-- The statements on the header line, after the signature. -/
def headerLineStatements (src : Source) : List Statement :=
  let line := (splitHeader src.text).1
  match Header.parse? line with
  | some header => src.statementsIn ⟨header.signatureEnd, line.utf8ByteSize⟩
  | none => []

/-- The only statement of a callee as an expression, without a caret. A callee that is written on
one line has its statement on the header line. -/
def inlineExpression (callee : MethodRef) (text : String) : Except Precondition String :=
  let src := Source.ofText text
  if (src.preamble src.bodyStart).temporaries.isSome then .error (.calleeHasTemporaries callee)
  else
    let statements := if src.statements.isEmpty then headerLineStatements src else src.statements
    match statements with
    | [statement] =>
      match statement.kind with
      | .assignment => .error (.calleeIsAssignment callee)
      | .returns =>
        .ok (Text.trim (src.slice { statement.span with start := statement.span.start + 1 }))
      | .expression => .ok (src.slice statement.span)
    | _ => .error (.calleeNotSingleStatement callee statements.length)

/-! ## The sites -/

/-- The send of a selector to the word `self` at `receiver`, from the receiver to the end of the
selector. -/
def siteAt? (src : Source) (region : SendRegion) (selector : String) (receiver : Span) :
    Option Span :=
  let limit := region.span.stop
  if src.slice receiver = "self" then
    match src.wordAt? (src.skipGap receiver.stop limit) limit with
    | none => none
    | some word =>
      let site : Span := ⟨receiver.start, word.stop⟩
      if src.slice word = selector && !src.codeAt word.stop ':' && region.admits site then some site
      else none
  else none

/-- The sites among words, in order. A word that belongs to a site starts none itself. -/
def sitesAmong (src : Source) (region : SendRegion) (selector : String) :
    (cursor : Nat) → List Span → List Span
  | _, [] => []
  | cursor, word :: words =>
    if word.start < cursor then sitesAmong src region selector cursor words
    else
      match siteAt? src region selector word with
      | some site => site :: sitesAmong src region selector site.stop words
      | none => sitesAmong src region selector cursor words

/-- The sends of a unary selector to `self` in a method. -/
def selfSendSites (src : Source) (selector : String) : List Span :=
  let region := src.sendRegion
  sitesAmong src region selector region.span.start (src.words region.span)

/-! ## The plan -/

def plan (session : Session) (settings : Settings) (r : Request) : Except Failure Plan := do
  let selector := r.calleeSelector
  require (Selector.kind? selector == some .unary)
    (.invalidSelector selector "only unary methods can be inlined")
  require (r.callerSelector ≠ selector) (.sameSelector selector)
  let caller : MethodRef := ⟨r.className, r.side, r.callerSelector⟩
  let callee : MethodRef := ⟨r.className, r.side, selector⟩
  let calleeSource ← session.sourceOf callee
  let expression ← (inlineExpression callee calleeSource).mapError Failure.precondition
  let source ← session.sourceOf caller
  let src := Source.ofText source
  let sites := selfSendSites src selector
  require (!sites.isEmpty) (.noInlineSites caller selector)
  let replaced := sites.length
  let sent := (src.sends.filter fun s => s.kind == .unary && s.selector == selector).length
  let senders := Impact.ofMethods ((session.senders selector).filter (· ≠ caller))
    settings.senderExampleLimit
  let category ← session.categoryOf settings caller
  let count := senders.count
  let listed := senders.describe
  let warnings :=
    (if sent = replaced then [] else
      [caller.display ++ s!" sends `{selector}` {sent} time(s) but only {replaced} " ++
        s!"`self {selector}` site(s) were replaced"])
    ++ (if senders.isEmpty then [] else
      [callee.display ++ s!" is kept; {count} other sender(s) still use it: {listed}"])
  return ⟨caller, callee, category, expression, source,
    Edit.applyAll source (sites.map fun site => ⟨site, "(" ++ expression ++ ")"⟩), replaced, sent,
    senders, warnings⟩

namespace Plan

variable (p : Plan)

def writes : List Write := [.compile p.caller.className p.caller.side p.newCallerSource p.category]

def changes : List SourceChange := [⟨p.caller.display, p.oldCallerSource, p.newCallerSource⟩]

def members : List (String × Json) :=
  [("caller", p.caller.toJson), ("callee", p.callee.toJson), ("category", .str p.category),
    ("inline_expression", .str p.inlineExpression),
    ("original_caller_source", .str p.oldCallerSource),
    ("new_caller_source", .str p.newCallerSource), ("replaced_sites", .num p.replacedSites),
    ("caller_send_count", .num p.callerSendCount),
    ("callee_senders", p.calleeSenders.toJson),
    ("warnings", .strs p.warnings), ("analysis_limitations", .strs analysisLimitations)]

def outcome (_ : Plan) : List (String × Json) := []

end Plan

end MethodBrowser.InlineMethod
