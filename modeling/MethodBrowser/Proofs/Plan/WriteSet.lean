import MethodBrowser.Proofs.Plan.BodyWrites
import MethodBrowser.Proofs.Plan.RenameWrites
import MethodBrowser.Proofs.Plan.SignatureWrites

/-!
# Refactorings write what they announce

Every plan announces what it writes (`Refactoring.announces_of_preview`), and a plan that may not
overwrite a method announces each method once (`Refactoring.unambiguous_of_preview`). So a
refactoring that is carried out leaves an image that holds what the plan announced and is the same
elsewhere (`Refactoring.apply_rewrites_announced`).

All of this rests on the image storing every method under the selector of its header. That is an
invariant of the images that arise (`Image.Reachable.spelled`), and a plan needs it to know under
which selector its own texts will be stored.
-/

namespace MethodBrowser.Refactoring

variable {session : Session} {settings : Settings} {request : Request} {plan : Plan}

/-- The request allows to replace a method that is in the way. Inlining never does. -/
def Request.overwrite : Request → Bool
  | .renameSelector r => r.overwrite
  | .renameMethod r => r.overwrite
  | .moveMethod r => r.overwrite
  | .addParameter r => r.overwrite
  | .removeParameter r => r.overwrite
  | .extractMethod r => r.overwrite
  | .inlineMethod _ => false

/-- What is carried out is what the preview shows. -/
theorem apply_eq_ok {image' : Image} {applied : Applied}
    (h : apply session settings request = (image', .ok applied)) :
    preview session settings request = .ok applied.plan ∧
      session.image.perform applied.plan.writes = (image', .ok applied.effects) := by
  rw [apply] at h
  cases hpreview : preview session settings request with
  | error failure => simp [hpreview] at h
  | ok plan =>
    cases hperform : session.image.perform plan.writes with
    | mk image₁ result =>
      simp only [hpreview, hperform] at h
      cases result with
      | error e => simp at h
      | ok effects =>
        obtain ⟨rfl, happlied⟩ := Prod.mk.inj h
        obtain rfl := Except.ok.inj happlied
        exact ⟨rfl, hperform⟩

theorem announces_of_preview (hspelled : session.image.Spelled)
    (h : preview session settings request = .ok plan) :
    Announces plan.writes plan.announced plan.dropped := by
  cases request with
  | renameSelector r =>
    obtain ⟨p, hp, rfl⟩ := map_eq_ok.1 h
    exact (RenameSelector.plan_eq_ok hp).announces hspelled
  | renameMethod r =>
    obtain ⟨p, hp, rfl⟩ := map_eq_ok.1 h
    exact (RenameMethod.plan_eq_ok hp).announces hspelled
  | moveMethod r =>
    obtain ⟨p, hp, rfl⟩ := map_eq_ok.1 h
    exact (MoveMethod.plan_eq_ok hp).announces hspelled
  | addParameter r =>
    obtain ⟨p, hp, rfl⟩ := map_eq_ok.1 h
    exact (AddParameter.announces hp).1
  | removeParameter r =>
    obtain ⟨p, hp, rfl⟩ := map_eq_ok.1 h
    exact (RemoveParameter.announces hp).1
  | extractMethod r =>
    obtain ⟨p, hp, rfl⟩ := map_eq_ok.1 h
    exact (ExtractMethod.announces hspelled hp).1
  | inlineMethod r =>
    obtain ⟨p, hp, rfl⟩ := map_eq_ok.1 h
    exact (InlineMethod.announces hspelled hp).1

theorem unambiguous_of_preview (hspelled : session.image.Spelled)
    (hoverwrite : request.overwrite = false) (h : preview session settings request = .ok plan) :
    Unambiguous plan.announced plan.dropped := by
  cases request with
  | renameSelector r =>
    obtain ⟨p, hp, rfl⟩ := map_eq_ok.1 h
    exact (RenameSelector.plan_eq_ok hp).unambiguous hoverwrite
  | renameMethod r =>
    obtain ⟨p, hp, rfl⟩ := map_eq_ok.1 h
    exact (RenameMethod.plan_eq_ok hp).unambiguous hoverwrite
  | moveMethod r =>
    obtain ⟨p, hp, rfl⟩ := map_eq_ok.1 h
    exact (MoveMethod.plan_eq_ok hp).unambiguous
  | addParameter r =>
    obtain ⟨p, hp, rfl⟩ := map_eq_ok.1 h
    exact (AddParameter.announces hp).2 hoverwrite
  | removeParameter r =>
    obtain ⟨p, hp, rfl⟩ := map_eq_ok.1 h
    exact (RemoveParameter.announces hp).2 hoverwrite
  | extractMethod r =>
    obtain ⟨p, hp, rfl⟩ := map_eq_ok.1 h
    exact (ExtractMethod.announces hspelled hp).2
  | inlineMethod r =>
    obtain ⟨p, hp, rfl⟩ := map_eq_ok.1 h
    exact (InlineMethod.announces hspelled hp).2

/-- What carrying a refactoring out leaves behind, whenever the plan announces each method once. -/
theorem rewritten_of_unambiguous {image' : Image} {applied : Applied}
    (hspelled : session.image.Spelled)
    (hone : Unambiguous applied.plan.announced applied.plan.dropped)
    (h : apply session settings request = (image', .ok applied)) :
    applied.effects = ⟨applied.plan.announced.map Prod.fst, applied.plan.dropped⟩ ∧
      session.image.Rewritten image' applied.plan.announced applied.plan.dropped := by
  obtain ⟨hpreview, hperform⟩ := apply_eq_ok h
  exact (announces_of_preview hspelled hpreview).rewritten hone hperform

/-- In an image that arises, methods are stored under the selectors of their headers, and a
refactoring that may not overwrite stores and deletes exactly what its plan announces. -/
theorem apply_rewrites_announced {image : Image} (hreachable : image.Reachable) :
    (∀ m e, image.method? m = some e →
      ∃ header, Header.ofText? e.source = some header ∧ header.selector = m.selector) ∧
    ∀ (extraSenders : List MethodRef) (settings : Settings) (request : Request) (image' : Image)
      (applied : Applied),
      request.overwrite = false →
      apply ⟨image, extraSenders⟩ settings request = (image', .ok applied) →
      preview ⟨image, extraSenders⟩ settings request = .ok applied.plan ∧
      applied.effects = ⟨applied.plan.announced.map Prod.fst, applied.plan.dropped⟩ ∧
      image.Rewritten image' applied.plan.announced applied.plan.dropped := by
  refine ⟨hreachable.spelled, fun extraSenders settings request image' applied hoverwrite h => ?_⟩
  have hpreview := (apply_eq_ok h).1
  have hone : Unambiguous applied.plan.announced applied.plan.dropped :=
    unambiguous_of_preview hreachable.spelled hoverwrite hpreview
  exact ⟨hpreview, rewritten_of_unambiguous hreachable.spelled hone h⟩

theorem apply_rewrites_announced_counter :
    ∃ image' applied,
      apply ⟨.counter, []⟩ .standard
        (.renameMethod ⟨"Counter", .instanceSide, "value", "count", false⟩) =
          (image', .ok applied) ∧
      applied.effects = ⟨applied.plan.announced.map Prod.fst, applied.plan.dropped⟩ ∧
      Image.counter.Rewritten image' applied.plan.announced applied.plan.dropped := by
  obtain ⟨image', applied, h⟩ := exists_eq_ok (x := apply ⟨.counter, []⟩ .standard
    (.renameMethod ⟨"Counter", .instanceSide, "value", "count", false⟩)) (by decide +kernel)
  obtain ⟨-, heffects, hrewritten⟩ :=
    (apply_rewrites_announced Image.reachable_counter).2 _ _ _ _ _ rfl h
  exact ⟨image', applied, h, heffects, hrewritten⟩

end MethodBrowser.Refactoring
