import MethodBrowser.Plan.AddParameter
import MethodBrowser.Plan.ExtractMethod
import MethodBrowser.Plan.InlineMethod
import MethodBrowser.Plan.MoveMethod
import MethodBrowser.Plan.RemoveParameter
import MethodBrowser.Plan.RenameMethod
import MethodBrowser.Plan.RenameSelector

/-!
# Refactorings

The seven refactorings behind one interface: a request is planned against a session, and a plan is
carried out by making its writes. Previewing stops after the plan.
-/

namespace MethodBrowser.Refactoring

inductive Request where
  | renameSelector (r : RenameSelector.Request)
  | renameMethod (r : RenameMethod.Request)
  | moveMethod (r : MoveMethod.Request)
  | addParameter (r : AddParameter.Request)
  | removeParameter (r : RemoveParameter.Request)
  | extractMethod (r : ExtractMethod.Request)
  | inlineMethod (r : InlineMethod.Request)
  deriving DecidableEq

inductive Plan where
  | renameSelector (p : RenameSelector.Plan)
  | renameMethod (p : RenameMethod.Plan)
  | moveMethod (p : MoveMethod.Plan)
  | addParameter (p : AddParameter.Plan)
  | removeParameter (p : RemoveParameter.Plan)
  | extractMethod (p : ExtractMethod.Plan)
  | inlineMethod (p : InlineMethod.Plan)
  deriving DecidableEq

namespace Plan

/-- The changes that carry the plan out, in order. -/
def writes : Plan → List Write
  | renameSelector p => p.writes
  | renameMethod p => p.writes
  | moveMethod p => p.writes
  | addParameter p => p.writes
  | removeParameter p => p.writes
  | extractMethod p => p.writes
  | inlineMethod p => p.writes

/-- The sources that the plan replaces, creates or deletes. -/
def changes : Plan → List SourceChange
  | renameSelector p => p.changes
  | renameMethod p => p.changes
  | moveMethod p => p.changes
  | addParameter p => p.changes
  | removeParameter p => p.changes
  | extractMethod p => p.changes
  | inlineMethod p => p.changes

def warnings : Plan → List String
  | renameSelector p => p.warnings
  | renameMethod p => p.warnings
  | moveMethod p => p.warnings
  | addParameter p => p.warnings
  | removeParameter p => p.warnings
  | extractMethod p => p.warnings
  | inlineMethod p => p.warnings

def members : Plan → List (String × Json)
  | renameSelector p => p.members
  | renameMethod p => p.members
  | moveMethod p => p.members
  | addParameter p => p.members
  | removeParameter p => p.members
  | extractMethod p => p.members
  | inlineMethod p => p.members

/-- What carrying the plan out reports beside its writes. -/
def outcome : Plan → List (String × Json)
  | renameSelector p => p.outcome
  | renameMethod p => p.outcome
  | moveMethod p => p.outcome
  | addParameter p => p.outcome
  | removeParameter p => p.outcome
  | extractMethod p => p.outcome
  | inlineMethod p => p.outcome

def toJson (plan : Plan) : Json := .obj plan.members

end Plan

/-- A plan and what carrying it out did. -/
structure Applied where
  plan : Plan
  effects : Effects
  deriving DecidableEq

def Applied.toJson (applied : Applied) : Json :=
  .obj (applied.plan.members
    ++ [("applied", .bool true), ("compiled", MethodRef.listToJson applied.effects.compiled),
      ("deleted", MethodRef.listToJson applied.effects.deleted)]
    ++ applied.plan.outcome)

/-- Plans a refactoring and writes nothing. -/
def preview (session : Session) (settings : Settings) : Request → Except Failure Plan
  | .renameSelector r => (RenameSelector.plan session settings r).map .renameSelector
  | .renameMethod r => (RenameMethod.plan session settings r).map .renameMethod
  | .moveMethod r => (MoveMethod.plan session settings r).map .moveMethod
  | .addParameter r => (AddParameter.plan session settings r).map .addParameter
  | .removeParameter r => (RemoveParameter.plan session settings r).map .removeParameter
  | .extractMethod r => (ExtractMethod.plan session settings r).map .extractMethod
  | .inlineMethod r => (InlineMethod.plan session settings r).map .inlineMethod

/-- Plans a refactoring and carries it out. Gives the image afterwards, which keeps the writes that
were made before one failed. -/
def apply (session : Session) (settings : Settings) (request : Request) :
    Image × Except Failure Applied :=
  match preview session settings request with
  | .error failure => (session.image, .error failure)
  | .ok plan =>
    match session.image.perform plan.writes with
    | (image, .ok effects) => (image, .ok ⟨plan, effects⟩)
    | (image, .error e) => (image, .error (.image e))

end MethodBrowser.Refactoring
