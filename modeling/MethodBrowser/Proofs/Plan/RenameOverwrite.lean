import MethodBrowser.Proofs.Plan.WriteSet

/-!
# Renaming over a method that is in the way

A rename that may overwrite puts a renamed method where another one is. That method may be a sender
of the old selector itself. Then the plan revises it, too, and both texts are stored under the same
reference: the renamed method first and the sender after it. The sender stays, and the text of the
renamed method is lost with the deletion of its old reference (`Refactoring.renamed_method_lost`).

Nothing else can happen to a renamed method. It is found at its new place exactly if no sender of
the old selector was there, or one whose revised text is the same
(`Refactoring.renamed_arrives_iff`).
-/

namespace MethodBrowser

open StoredMethod

variable {session : Session} {settings : Settings} {old new : String}

/-! ## What becomes of a renamed method -/

namespace MethodRevision

/-- The revision turns a method of the image into one of the new selector. -/
def Renames (image : Image) (old new : String) (rev : MethodRevision) : Prop :=
  ∃ e, image.method? rev.method = some e ∧
    renameMethod? e.source old new = some ⟨rev.newSource, rev.replacements⟩

/-- The revised text is found under the new selector. -/
def Arrives (image : Image) (new : String) (rev : MethodRevision) : Prop :=
  ∃ e, image.method? { rev.method with selector := new } = some e ∧ e.source = rev.newSource

/-- A sender of the old selector is in the way, and revising it gives another text. -/
def Overtaken (image : Image) (old new : String) (rev : MethodRevision) : Prop :=
  ∃ e, image.method? { rev.method with selector := new } = some e ∧
    (Source.ofText e.source).sendsSelector old = true ∧
    (renameSends e.source old new).source ≠ rev.newSource

end MethodRevision

/-- The revisions of senders among which there is one for `n`, should it be a sender. -/
structure RevisesSenders (session : Session) (settings : Settings) (old new : String)
    (n : MethodRef) (senders : List MethodRevision) : Prop where
  revises : ∀ s ∈ senders,
    s.Revises session settings (fun source => some (renameSends source old new))
  replaces : ∀ s ∈ senders, s.replacements ≠ 0
  found : ∀ e, session.image.method? n = some e →
    (Source.ofText e.source).sendsSelector old = true → ∃ s ∈ senders, s.method = n

theorem MethodRevision.Revises.renames {rev : MethodRevision}
    (h : rev.Revises session settings (renameMethod? · old new)) :
    rev.Renames session.image old new := by
  obtain ⟨e, he, hsource⟩ := h.source
  exact ⟨e, he, by rw [hsource]; exact h.revised⟩

/-- The senders are stored last, so they decide what is found where a renamed method went. -/
theorem MethodRevision.arrives_iff {image' : Image} {rev : MethodRevision}
    {senders : List MethodRevision} {stored : List StoredMethod} {deleted : List MethodRef}
    (hkeyword : Selector.kind? old = some .keyword → Source.SameKeywords old new)
    (hsenders : RevisesSenders session settings old new (rev.storedAs new).1 senders)
    (hrev : rev.storedAs new ∈ stored)
    (hsingle : ∀ q ∈ stored, q.1 = (rev.storedAs new).1 → q.2 = (rev.storedAs new).2)
    (hdeleted : (rev.storedAs new).1 ∉ deleted)
    (hmethods : ∀ n, image'.method? n = if n ∈ deleted then none
      else last (stored ++ senders.map (·.stored)) n (session.image.method? n)) :
    rev.Arrives image' new ↔ ¬ rev.Overtaken session.image old new := by
  have hlast : image'.method? (rev.storedAs new).1 =
      last (senders.map (·.stored)) (rev.storedAs new).1
        (some ⟨rev.newSource, rev.category⟩) := by
    rw [hmethods, if_neg hdeleted, last_append]
    congr 1
    exact last_of_mem hrev hsingle _
  by_cases hsender : ∃ s ∈ senders, s.method = (rev.storedAs new).1
  · -- The revised sender is found, and that is the renamed method only if the texts agree.
    obtain ⟨s, hs, hmethod⟩ := hsender
    obtain ⟨e, he, hsends, hnew⟩ := (hsenders.revises s hs).sender (hsenders.replaces s hs) hkeyword
    rw [hmethod] at he
    have hfound : image'.method? (rev.storedAs new).1 =
        some ⟨s.newSource, s.category⟩ := by
      rw [hlast, ← hmethod]
      refine last_of_mem (p := s.stored) (List.mem_map_of_mem hs) ?_ _
      intro q hq hkey
      obtain ⟨s', hs', rfl⟩ := List.mem_map.1 hq
      rw [(hsenders.revises s' hs').eq (hsenders.revises s hs) hkey]
    constructor
    · rintro ⟨e₁, he₁, hsource⟩ ⟨e₂, he₂, -, hne⟩
      obtain rfl := Option.some.inj (hfound.symm.trans he₁)
      obtain rfl : e = e₂ := Option.some.inj (he.symm.trans he₂)
      exact hne (hnew.trans hsource)
    · intro hnot
      refine ⟨_, hfound, ?_⟩
      by_contra hne
      exact hnot ⟨e, he, hsends, fun heq => hne (hnew.symm.trans heq)⟩
  · -- No later write touches the renamed method.
    have hfound : image'.method? (rev.storedAs new).1 =
        some ⟨rev.newSource, rev.category⟩ := by
      rw [hlast, last_of_forall_ne]
      intro q hq hkey
      obtain ⟨s, hs, rfl⟩ := List.mem_map.1 hq
      exact hsender ⟨s, hs, hkey⟩
    constructor
    · rintro - ⟨e, he, hsends, -⟩
      exact hsender (hsenders.found e he hsends)
    · intro _
      exact ⟨_, hfound, rfl⟩

/-! ## The two renames -/

theorem RenameSelector.Plan.Planned.arrives_iff {r : Request} {p : Plan} {image' : Image}
    {effects : Effects} (h : p.Planned session settings r) (hspelled : session.image.Spelled)
    (hperform : session.image.perform p.writes = (image', .ok effects)) {rev : MethodRevision}
    (hrev : rev ∈ p.implementors) :
    rev.Arrives image' r.newSelector ↔
      ¬ rev.Overtaken session.image r.oldSelector r.newSelector := by
  obtain ⟨kind, hrenamable⟩ := h.renamable
  have hannounces := h.announces hspelled
  rw [hannounces.writes_eq] at hperform
  obtain ⟨-, hmethods, -⟩ := Image.perform_eq_ok hannounces.spelled hperform
  have hold : (rev.storedAs r.newSelector).1 ∉ session.implementors r.oldSelector := by
    intro hmem
    exact hrenamable.ne (Image.mem_implementors.1 hmem).1.symm
  refine MethodRevision.arrives_iff hrenamable.sameKeywords
    ⟨fun s hs => (h.senders s hs).2.2.1, fun s hs => (h.senders s hs).2.2.2, ?_⟩ ?_ ?_ ?_ hmethods
  · intro e he hsends
    have hsender := Session.mem_senders (Image.mem_senders.2 ⟨e, he, hsends⟩)
    exact hrenamable.revised_of_sends he hsends (h.revised _ hsender hold)
  · rw [h.newSelector]
    exact List.mem_map_of_mem (f := (·.storedAs r.newSelector)) hrev
  · intro q hq hkey
    obtain ⟨rev', hrev', rfl⟩ := List.mem_map.1 hq
    rw [h.newSelector] at hkey ⊢
    rw [h.eq_of_storedAs_eq hrev' hrev hkey]
  · rw [dropped, h.methods]
    exact hold

theorem RenameMethod.Plan.Planned.arrives_iff {r : Request} {p : Plan} {image' : Image}
    {effects : Effects} (h : p.Planned session settings r) (hspelled : session.image.Spelled)
    (hperform : session.image.perform p.writes = (image', .ok effects)) :
    p.revision.Arrives image' r.newSelector ↔
      ¬ p.revision.Overtaken session.image r.oldSelector r.newSelector := by
  obtain ⟨kind, hrenamable⟩ := h.renamable
  have hannounces := h.announces hspelled
  rw [hannounces.writes_eq] at hperform
  obtain ⟨-, hmethods, -⟩ := Image.perform_eq_ok hannounces.spelled hperform
  have htarget : (p.revision.storedAs r.newSelector).1 = p.newMethod := by
    simp only [MethodRevision.storedAs]
    rw [h.revision_method, h.method, h.newMethod]
  have hannounced : p.announced =
      [p.revision.storedAs r.newSelector] ++ p.sameScopeSenders.map (·.stored) := by
    rw [announced, ← htarget]
    rfl
  rw [hannounced] at hmethods
  have hne : p.newMethod ≠ p.method := by
    intro heq
    rw [h.newMethod, h.method] at heq
    exact hrenamable.ne (congrArg MethodRef.selector heq).symm
  have hscope : p.newMethod.sameScope p.method = true := by
    simp [h.newMethod, h.method, MethodRef.sameScope]
  refine MethodRevision.arrives_iff hrenamable.sameKeywords
    ⟨fun s hs => (h.senders s hs).2.2.1, fun s hs => (h.senders s hs).2.2.2, ?_⟩
    List.mem_cons_self ?_ ?_ hmethods
  · intro e he hsends
    rw [htarget] at he ⊢
    have hsender := Session.mem_senders (Image.mem_senders.2 ⟨e, he, hsends⟩)
    exact hrenamable.revised_of_sends he hsends (h.revised _ hsender hne hscope)
  · intro q hq _
    rw [List.mem_singleton.1 hq]
  · rw [htarget, dropped, List.mem_singleton]
    exact hne

/-- A renamed method is found at its new place unless a sender of the old selector was there and
reads differently when it is revised. -/
theorem Refactoring.renamed_arrives_iff {image image' : Image} (hreachable : image.Reachable)
    {extraSenders : List MethodRef} {applied : Applied} :
    (∀ r, apply ⟨image, extraSenders⟩ settings (.renameSelector r) = (image', .ok applied) →
      ∃ p, applied.plan = .renameSelector p ∧
        p.implementors.map (·.method) = image.implementors r.oldSelector ∧
        ∀ rev ∈ p.implementors,
          rev.Renames image r.oldSelector r.newSelector ∧
          (rev.Arrives image' r.newSelector ↔
            ¬ rev.Overtaken image r.oldSelector r.newSelector)) ∧
    ∀ r, apply ⟨image, extraSenders⟩ settings (.renameMethod r) = (image', .ok applied) →
      ∃ p, applied.plan = .renameMethod p ∧
        p.revision.method = ⟨r.className, r.side, r.oldSelector⟩ ∧
        p.revision.Renames image r.oldSelector r.newSelector ∧
        (p.revision.Arrives image' r.newSelector ↔
          ¬ p.revision.Overtaken image r.oldSelector r.newSelector) := by
  constructor
  · intro r h
    obtain ⟨hpreview, hperform⟩ := apply_eq_ok h
    obtain ⟨p, hp, hplan⟩ := map_eq_ok.1 hpreview
    have hplanned := RenameSelector.plan_eq_ok hp
    rw [← hplan] at hperform
    refine ⟨p, hplan.symm, hplanned.methods, fun rev hrev => ⟨?_, ?_⟩⟩
    · exact (hplanned.implementors rev hrev).renames
    · exact hplanned.arrives_iff hreachable.spelled hperform hrev
  · intro r h
    obtain ⟨hpreview, hperform⟩ := apply_eq_ok h
    obtain ⟨p, hp, hplan⟩ := map_eq_ok.1 hpreview
    have hplanned := RenameMethod.plan_eq_ok hp
    rw [← hplan] at hperform
    refine ⟨p, hplan.symm, by rw [hplanned.revision_method, hplanned.method], ?_, ?_⟩
    · exact hplanned.revision.renames
    · exact hplanned.arrives_iff hreachable.spelled hperform

/-- The method that is in the way does not send the selector that goes. -/
theorem Refactoring.renamed_arrives_counter :
    ∃ image' applied p,
      apply ⟨.counter, []⟩ .standard (.renameSelector ⟨"current", "value", true⟩) =
        (image', .ok applied) ∧
      applied.plan = .renameSelector p ∧ p.implementors ≠ [] ∧
      ∀ rev ∈ p.implementors, rev.Arrives image' "value" := by
  obtain ⟨image', applied, h⟩ := exists_eq_ok (x := apply ⟨.counter, []⟩ .standard
    (.renameSelector ⟨"current", "value", true⟩)) (by decide +kernel)
  obtain ⟨p, hplan, hmethods, hall⟩ := (renamed_arrives_iff Image.reachable_counter).1 _ h
  have himplementors : Image.counter.implementors "current" =
      [⟨"Counter", .instanceSide, "current"⟩] := by decide +kernel
  rw [himplementors] at hmethods
  refine ⟨image', applied, p, h, hplan, fun hnil => by simp [hnil] at hmethods, fun rev hrev => ?_⟩
  refine (hall rev hrev).2.2 ?_
  rintro ⟨e, he, hsends, -⟩
  have hmethod : rev.method = ⟨"Counter", .instanceSide, "current"⟩ := by
    have hmem := List.mem_map_of_mem (f := (·.method)) hrev
    rw [hmethods] at hmem
    exact List.mem_singleton.1 hmem
  have hvalue : Image.counter.method? ⟨"Counter", .instanceSide, "value"⟩ =
      some ⟨"value\n^count", "accessing"⟩ := by decide +kernel
  rw [hmethod] at he
  obtain rfl := Option.some.inj (hvalue.symm.trans he)
  exact absurd hsends (by decide +kernel)

/-- How renaming `value` to `current` revises it in the small image. -/
def valueRenamed : MethodRevision :=
  ⟨⟨"Counter", .instanceSide, "value"⟩, "accessing", "value\n^count", "current\n^count", 0⟩

/-- What the same rename makes of the method that is in the way. -/
def currentRevised : MethodEntry := ⟨"current\n^self current", "accessing"⟩

theorem not_arrives_of_found {image : Image}
    (h : image.method? ⟨"Counter", .instanceSide, "current"⟩ = some currentRevised) :
    ¬ valueRenamed.Arrives image "current" := by
  rintro ⟨e, he, hsource⟩
  obtain rfl := Option.some.inj (h.symm.trans he)
  exact absurd hsource (by decide)

/-- The method that is in the way sends the selector that goes. Its revised text is what is found
in the end, and neither rename keeps the text that it renamed. -/
theorem Refactoring.renamed_method_lost :
    Image.counter.Reachable ∧
    (∃ image' applied p,
      apply ⟨.counter, []⟩ .standard (.renameSelector ⟨"value", "current", true⟩) =
        (image', .ok applied) ∧
      applied.plan = .renameSelector p ∧
      ∃ rev ∈ p.implementors, ¬ rev.Arrives image' "current") ∧
    ∃ image' applied p,
      apply ⟨.counter, []⟩ .standard
        (.renameMethod ⟨"Counter", .instanceSide, "value", "current", true⟩) =
          (image', .ok applied) ∧
      applied.plan = .renameMethod p ∧
      ¬ p.revision.Arrives image' "current" := by
  refine ⟨Image.reachable_counter, ?_, ?_⟩
  · obtain ⟨image', applied, h⟩ := exists_eq_ok (x := apply ⟨.counter, []⟩ .standard
      (.renameSelector ⟨"value", "current", true⟩)) (by decide +kernel)
    obtain ⟨p, hp, hplan⟩ := map_eq_ok.1 (apply_eq_ok h).1
    have hrevisions : (RenameSelector.plan ⟨.counter, []⟩ .standard
        ⟨"value", "current", true⟩).toOption.map (·.implementors) = some [valueRenamed] := by
      decide +kernel
    have hfound : (apply ⟨.counter, []⟩ .standard
        (.renameSelector ⟨"value", "current", true⟩)).1.method?
          ⟨"Counter", .instanceSide, "current"⟩ = some currentRevised := by decide +kernel
    rw [hp] at hrevisions
    rw [h] at hfound
    have hlist : p.implementors = [valueRenamed] := Option.some.inj hrevisions
    refine ⟨image', applied, p, h, hplan.symm, valueRenamed, ?_, not_arrives_of_found hfound⟩
    rw [hlist]
    exact List.mem_cons_self
  · obtain ⟨image', applied, h⟩ := exists_eq_ok (x := apply ⟨.counter, []⟩ .standard
      (.renameMethod ⟨"Counter", .instanceSide, "value", "current", true⟩)) (by decide +kernel)
    obtain ⟨p, hp, hplan⟩ := map_eq_ok.1 (apply_eq_ok h).1
    have hrevision : (RenameMethod.plan ⟨.counter, []⟩ .standard
        ⟨"Counter", .instanceSide, "value", "current", true⟩).toOption.map (·.revision) =
          some valueRenamed := by
      decide +kernel
    have hfound : (apply ⟨.counter, []⟩ .standard
        (.renameMethod ⟨"Counter", .instanceSide, "value", "current", true⟩)).1.method?
          ⟨"Counter", .instanceSide, "current"⟩ = some currentRevised := by decide +kernel
    rw [hp] at hrevision
    rw [h] at hfound
    have hrenamed : p.revision = valueRenamed := Option.some.inj hrevision
    refine ⟨image', applied, p, h, hplan.symm, ?_⟩
    rw [hrenamed]
    exact not_arrives_of_found hfound

end MethodBrowser
