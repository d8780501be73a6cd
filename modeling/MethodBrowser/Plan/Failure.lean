import MethodBrowser.Image.Basic

/-!
# Why a refactoring fails

A refactoring is planned before anything is written. A plan is refused when a precondition does
not hold (`Precondition`) or when the image fails to answer; carrying a plan out fails when the
image refuses a change. Each failure has a code, by which programs tell failures apart, a message
and, where there is something to do about it, a hint.
-/

namespace MethodBrowser

/-- A condition of a refactoring that does not hold. -/
inductive Precondition where
  | invalidSelector (selector reason : String)
  | arityMismatch (old new : String) (oldArity newArity : Nat)
  | kindMismatch (old new : String) (oldKind newKind : SelectorKind)
  | sameSelector (selector : String)
  | unreadableMethod (method : MethodRef)
  | keywordSelectorRequired (selector : String)
  | emptySelection
  | statementOutOfRange (index count : Nat)
  | gapInSelection (first last : Nat)
  | returnInSelection (index : Nat)
  | calleeHasTemporaries (callee : MethodRef)
  | calleeNotSingleStatement (callee : MethodRef) (count : Nat)
  | calleeIsAssignment (callee : MethodRef)
  | noInlineSites (caller : MethodRef) (selector : String)
  | argumentStillUsed (method : MethodRef) (argument : String)
  | unknownArgument (method : MethodRef) (argument : String)
  | argumentNameClash (method : MethodRef) (name : String)
  | invalidArgumentName (name : String)
  | emptyDefaultArgument
  | moveOntoItself (method : MethodRef)
  | targetExists (method : MethodRef)
  deriving DecidableEq

namespace Precondition

/-- The last part of the code of a failure. -/
def slug : Precondition → String
  | invalidSelector .. => "invalid_selector"
  | arityMismatch .. => "arity_mismatch"
  | kindMismatch .. => "selector_kind_mismatch"
  | sameSelector _ => "same_selector"
  | unreadableMethod _ => "unparseable_header"
  | keywordSelectorRequired _ => "keyword_selector_required"
  | emptySelection => "empty_selection"
  | statementOutOfRange .. => "statement_out_of_range"
  | gapInSelection .. => "non_contiguous_selection"
  | returnInSelection _ => "return_in_selection"
  | calleeHasTemporaries _ => "inline_target_has_temporaries"
  | calleeNotSingleStatement .. => "inline_target_not_single_statement"
  | calleeIsAssignment _ => "inline_target_is_assignment"
  | noInlineSites .. => "no_inline_sites"
  | argumentStillUsed .. => "argument_still_referenced"
  | unknownArgument .. => "unknown_argument"
  | argumentNameClash .. => "argument_name_clash"
  | invalidArgumentName _ => "invalid_argument_name"
  | emptyDefaultArgument => "empty_default_argument"
  | moveOntoItself _ => "identical_move_target"
  | targetExists _ => "target_selector_exists"

def code (p : Precondition) : String := "gemtalk::precondition::" ++ p.slug

def help? : Precondition → Option String
  | arityMismatch .. =>
    some "use add-parameter or remove-parameter to change the number of arguments"
  | keywordSelectorRequired _ =>
    some "only keyword selectors have arguments to add to or remove from"
  | noInlineSites .. => some "only unary sends whose receiver is written as `self` are inlined"
  | argumentStillUsed .. => some "remove the uses of the argument from the body first"
  | emptyDefaultArgument =>
    some "existing senders need a value for the new argument, e.g. `nil`"
  | targetExists _ => some "pass overwrite to replace the existing method"
  | _ => none

def message : Precondition → String
  | invalidSelector selector reason => s!"`{selector}` is not a valid selector: {reason}"
  | arityMismatch old new oldArity newArity =>
    s!"`{old}` takes {oldArity} argument(s) but `{new}` takes {newArity}"
  | kindMismatch old new oldKind newKind =>
    s!"`{old}` is a " ++ oldKind.name ++ s!" selector but `{new}` is a " ++ newKind.name
      ++ " selector"
  | sameSelector selector => s!"old and new selector are both `{selector}`"
  | unreadableMethod method => "cannot read the header line of " ++ method.display
  | keywordSelectorRequired selector => s!"`{selector}` is not a keyword selector"
  | emptySelection => "no statements were selected"
  | statementOutOfRange index count =>
    s!"statement {index} does not exist; the method has {count} statement(s)"
  | gapInSelection first last => s!"statements {first} to {last} must be selected without gaps"
  | returnInSelection index =>
    s!"statement {index} returns; a selection containing a return cannot be extracted"
  | calleeHasTemporaries callee =>
    callee.display ++ " declares temporaries and cannot be inlined"
  | calleeNotSingleStatement callee count =>
    callee.display ++ s!" has {count} statements; only single-statement methods can be inlined"
  | calleeIsAssignment callee =>
    callee.display ++ " is an assignment and cannot be inlined as an expression"
  | noInlineSites caller selector => caller.display ++ s!" never sends `self {selector}`"
  | argumentStillUsed method argument =>
    s!"argument `{argument}` is still used in " ++ method.display
  | unknownArgument method argument => method.display ++ s!" has no argument named `{argument}`"
  | argumentNameClash method name =>
    s!"`{name}` is already an argument or temporary of " ++ method.display
  | invalidArgumentName name => s!"`{name}` is not a valid argument name"
  | emptyDefaultArgument => "the default argument expression is empty"
  | moveOntoItself method => "cannot move " ++ method.display ++ " onto itself"
  | targetExists method => method.display ++ " already exists"

end Precondition

/-- Any failure of a refactoring. -/
inductive Failure where
  | precondition (cause : Precondition)
  | image (cause : ImageError)
  deriving DecidableEq

namespace Failure

def code : Failure → String
  | precondition cause => cause.code
  | image cause => cause.code

def help? : Failure → Option String
  | precondition cause => cause.help?
  | image cause => cause.help?

def message : Failure → String
  | precondition cause => cause.message
  | image cause => cause.message

end Failure

/-- Stops a plan when a condition does not hold. -/
def require (condition : Bool) (cause : Precondition) : Except Failure Unit :=
  if condition then .ok () else .error (.precondition cause)

end MethodBrowser
