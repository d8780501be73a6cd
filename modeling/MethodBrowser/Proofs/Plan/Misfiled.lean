import MethodBrowser.Proofs.Image.Snapshots
import MethodBrowser.Proofs.Plan.WriteSet

/-!
# Methods that are filed wrongly

A snapshot may hold a method under another selector than its header spells. A write goes where the
header says, so a plan that starts from such a method announces one thing and writes another.

**Who looks at the header.** Adding and removing a parameter refuse such a method. The other
refactorings look at most at whether the header can be read. Their plans start from methods that are
filed rightly exactly if they announce what they write and delete methods that are filed rightly
(`Refactoring.filed_iff_announces`). All of them can be brought to plan from a method that is not,
and then one of them replaces a method that it may not overwrite (`Refactoring.misfiled_accepted`).
-/

namespace MethodBrowser.Refactoring

variable {session : Session} {settings : Settings} {request : Request} {plan : Plan}

/-- The request is refused for a method whose header does not spell its selector. -/
def Request.checksHeader : Request → Bool
  | .addParameter _ | .removeParameter _ => true
  | _ => false

/-- What a plan starts from is filed rightly exactly if the plan announces what it writes, and what
it deletes is filed rightly. Requests about parameters are never planned for another method. -/
theorem filed_iff_announces (h : preview session settings request = .ok plan) :
    ((∀ m ∈ plan.reworked, session.image.Filed m) ↔
      Announces plan.writes plan.announced plan.dropped ∧
        ∀ m ∈ plan.dropped, session.image.Filed m) ∧
    (request.checksHeader = true → ∀ m ∈ plan.reworked, session.image.Filed m) := by
  cases request with
  | renameSelector r =>
    obtain ⟨p, hp, rfl⟩ := map_eq_ok.1 h
    exact ⟨(RenameSelector.plan_eq_ok hp).announces_iff.symm, Bool.noConfusion⟩
  | renameMethod r =>
    obtain ⟨p, hp, rfl⟩ := map_eq_ok.1 h
    exact ⟨(RenameMethod.plan_eq_ok hp).announces_iff.symm, Bool.noConfusion⟩
  | moveMethod r =>
    obtain ⟨p, hp, rfl⟩ := map_eq_ok.1 h
    have hiff := (MoveMethod.plan_eq_ok hp).announces_iff
    refine ⟨?_, Bool.noConfusion⟩
    simp only [Plan.reworked, Plan.writes, Plan.announced, Plan.dropped,
      List.forall_mem_singleton, hiff]
    refine ⟨fun hfiled => ⟨hfiled, fun m hm => ?_⟩, And.left⟩
    rw [MoveMethod.Plan.dropped] at hm
    split at hm
    · exact absurd hm List.not_mem_nil
    · exact List.mem_singleton.1 hm ▸ hfiled
  | addParameter r =>
    obtain ⟨p, hp, rfl⟩ := map_eq_ok.1 h
    have hfiled := List.forall_mem_singleton.2 (AddParameter.filed hp)
    exact ⟨⟨fun _ => ⟨(AddParameter.announces hp).1, List.forall_mem_nil _⟩, fun _ => hfiled⟩,
      fun _ => hfiled⟩
  | removeParameter r =>
    obtain ⟨p, hp, rfl⟩ := map_eq_ok.1 h
    have hfiled := List.forall_mem_singleton.2 (RemoveParameter.filed hp)
    exact ⟨⟨fun _ => ⟨(RemoveParameter.announces hp).1, List.forall_mem_nil _⟩, fun _ => hfiled⟩,
      fun _ => hfiled⟩
  | extractMethod r =>
    obtain ⟨p, hp, rfl⟩ := map_eq_ok.1 h
    have hiff := (ExtractMethod.planned_of_plan hp).announces_iff
    refine ⟨?_, Bool.noConfusion⟩
    simp only [Plan.reworked, List.forall_mem_singleton, ← hiff]
    exact ⟨fun hannounces => ⟨hannounces, List.forall_mem_nil _⟩, And.left⟩
  | inlineMethod r =>
    obtain ⟨p, hp, rfl⟩ := map_eq_ok.1 h
    have hiff := (InlineMethod.planned_of_plan hp).announces_iff
    refine ⟨?_, Bool.noConfusion⟩
    simp only [Plan.reworked, List.forall_mem_singleton, ← hiff]
    exact ⟨fun hannounces => ⟨hannounces, List.forall_mem_nil _⟩, And.left⟩

/-- Renaming starts from a method and from one that sends it. Both are filed rightly, so the plan
announces what it writes. -/
theorem filed_iff_announces_counter :
    ∃ plan, preview ⟨.counter, []⟩ .standard (.renameSelector ⟨"value", "count", false⟩) =
        .ok plan ∧
      plan.reworked = [⟨"Counter", .instanceSide, "value"⟩,
        ⟨"Counter", .instanceSide, "current"⟩] ∧
      Announces plan.writes plan.announced plan.dropped := by
  obtain ⟨plan, h, hreworked⟩ := map_eq_ok.1 (by decide +kernel :
    (preview ⟨.counter, []⟩ .standard (.renameSelector ⟨"value", "count", false⟩)).map
      (·.reworked) = .ok [⟨"Counter", .instanceSide, "value"⟩,
        ⟨"Counter", .instanceSide, "current"⟩])
  have hfiled : ∀ m ∈ plan.reworked, Image.counter.Filed m := by
    rw [hreworked]
    decide +kernel
  exact ⟨plan, h, hreworked, ((filed_iff_announces h).1.1 hfiled).1⟩

/-! ## Plans from methods that are filed wrongly -/

/-- A class with two methods under selectors that their headers do not spell. -/
def misfiledClass : ClassEntry :=
  { ClassEntry.blank with
    instanceMethods := ((Dictionary.empty.insert "foo" ⟨"bar\n    ^1", "c"⟩).insert "run"
      ⟨"go\n    self one.\n    ^2", "c"⟩).insert "one" ⟨"one\n    ^1", "c"⟩ }

/-- A class with the method that one of these headers spells. -/
def namesakeClass : ClassEntry :=
  { ClassEntry.blank with instanceMethods := Dictionary.empty.insert "bar" ⟨"bar\n    ^3", "c"⟩ }

def misfiledImage : Image := ⟨(Dictionary.empty.insert "A" misfiledClass).insert "B" namesakeClass⟩

/-- Moves the method `foo`, in whose source the header is `bar`. -/
def misfiledMove : Request :=
  .moveMethod ⟨"A", .instanceSide, "foo", "B", .instanceSide, false, false⟩

/-- Requests, and a method that each of them would have to be refused for. -/
def misfiledRequests : List (Request × MethodRef) :=
  [(.renameSelector ⟨"foo", "total", false⟩, ⟨"A", .instanceSide, "foo"⟩),
    (.renameSelector ⟨"one", "single", false⟩, ⟨"A", .instanceSide, "run"⟩),
    (.renameMethod ⟨"A", .instanceSide, "foo", "total", false⟩, ⟨"A", .instanceSide, "foo"⟩),
    (.renameMethod ⟨"A", .instanceSide, "one", "single", false⟩, ⟨"A", .instanceSide, "run"⟩),
    (misfiledMove, ⟨"A", .instanceSide, "foo"⟩),
    (.extractMethod ⟨"A", .instanceSide, "run", [1], "first", false⟩, ⟨"A", .instanceSide, "run"⟩),
    (.inlineMethod ⟨"A", .instanceSide, "run", "one"⟩, ⟨"A", .instanceSide, "run"⟩)]

/-- An image that is read from a snapshot has methods that are filed wrongly, and all refactorings
but those of parameters are planned from them. Carrying out the move replaces `bar` in the other
class, which it may not. -/
theorem misfiled_accepted :
    Image.ofSnapshot misfiledImage.snapshot = .ok misfiledImage ∧
    (∀ c ∈ misfiledRequests, c.1.overwrite = false ∧
      ∃ plan, preview ⟨misfiledImage, []⟩ .standard c.1 = .ok plan ∧ c.2 ∈ plan.reworked ∧
        (misfiledImage.method? c.2).isSome = true ∧ ¬ misfiledImage.Filed c.2) ∧
    misfiledImage.method? ⟨"B", .instanceSide, "bar"⟩ = some ⟨"bar\n    ^3", "c"⟩ ∧
    (apply ⟨misfiledImage, []⟩ .standard misfiledMove).1.method? ⟨"B", .instanceSide, "bar"⟩ =
      some ⟨"bar\n    ^1", "c"⟩ := by
  refine ⟨?_, fun c hc => ?_, by decide +kernel, by decide +kernel⟩
  · have hblanks : ∀ c ∈ "".toList, Json.isBlank c = true := by simp
    have hread := misfiledImage.ofSnapshot_snapshot_append hblanks
    rwa [String.append_empty] at hread
  · have hall : ∀ c ∈ misfiledRequests, c.1.overwrite = false ∧
        (preview ⟨misfiledImage, []⟩ .standard c.1).map
          (fun plan => decide (c.2 ∈ plan.reworked)) = .ok true ∧
        (misfiledImage.method? c.2).isSome = true ∧ ¬ misfiledImage.Filed c.2 := by
      decide +kernel
    obtain ⟨hoverwrite, hpreview, hmethod, hfiled⟩ := hall c hc
    obtain ⟨plan, h, hmem⟩ := map_eq_ok.1 hpreview
    exact ⟨hoverwrite, plan, h, of_decide_eq_true hmem, hmethod, hfiled⟩

end MethodBrowser.Refactoring
