import MethodBrowser.Proofs.Plan.WriteSet

/-!
# Renaming a selector everywhere

After a selector has been renamed, no method implements or sends the old one, the implementors of
the new one are those it had and the renamed methods, and no other method has changed
(`Refactoring.renameSelector_complete`).

A method that is found after the rename is a renamed implementor, a revised sender, or was left
alone (`Image.Rewritten.mem_or_kept`). Texts of the first two kinds have been respelled and contain
no send of the old selector. The third kind never did: the image finds the senders by looking at
their texts, and the plan passes over a sender only if nothing in it was to be replaced.
-/

namespace MethodBrowser

variable {session : Session} {settings : Settings}

theorem Renamable.sameShape {old new : String} {kind : SelectorKind} (h : Renamable old new kind)
    (hkind : kind ≠ .binary) : SameShape old new := by
  cases kind with
  | unary => exact .unary h.kind_old h.kind_new
  | binary => exact absurd rfl hkind
  | keyword => exact .keyword (h.sameKeywords h.kind_old)

/-- A renamed implementor does not send the old selector. -/
theorem not_sends_implementor {old new : String} {kind : SelectorKind} {r : MethodRevision}
    (hspelled : session.image.Spelled) (h : Renamable old new kind) (hshape : SameShape old new)
    (hr : r.Revises session settings (renameMethod? · old new))
    (hmethod : r.method.selector = old) :
    (Source.ofText r.newSource).sendsSelector old = false := by
  obtain ⟨header, hheader, hkind, harity⟩ :=
    exists_header_implementor (hspelled.filed hr.exists_method) h hr hmethod
  have hrevised : renameMethod? r.oldSource old new = some ⟨r.newSource, r.replacements⟩ :=
    hr.revised
  have hnone := sendsSelector_renameMethod? hheader hrevised hkind harity hshape h.ne
  exact hnone

namespace RenameSelector.Plan.Planned

variable {r : Request} {p : Plan} {image' : Image} {m : MethodRef} {e : MethodEntry}
  (h : p.Planned session settings r)
  (hnew : session.image.Rewritten image' p.announced p.dropped)

include h hnew

/-- Where a method comes from that is found after the rename. -/
theorem origin (he : image'.method? m = some e) :
    (∃ rev ∈ p.implementors, m = { rev.method with selector := r.newSelector } ∧
      e.source = rev.newSource) ∨
    (∃ rev ∈ p.senders, m = rev.method ∧ e.source = rev.newSource) ∨
    session.image.method? m = some e ∧ m.selector ≠ r.oldSelector ∧
      ∀ rev ∈ p.senders, rev.method ≠ m := by
  rcases hnew.mem_or_kept he with hmem | ⟨hannounced, hdropped, hkept⟩
  · rcases List.mem_append.1 hmem with hmem | hmem
    · obtain ⟨rev, hrev, heq⟩ := List.mem_map.1 hmem
      obtain ⟨rfl, rfl⟩ := Prod.mk.inj heq
      exact .inl ⟨rev, hrev, by rw [h.newSelector], rfl⟩
    · obtain ⟨rev, hrev, heq⟩ := List.mem_map.1 hmem
      obtain ⟨rfl, rfl⟩ := Prod.mk.inj heq
      exact .inr (.inl ⟨rev, hrev, rfl, rfl⟩)
  · refine .inr (.inr ⟨hkept, ?_, ?_⟩)
    · intro hselector
      apply hdropped
      rw [dropped, h.methods]
      exact Image.mem_implementors.2 ⟨hselector, e, hkept⟩
    · intro rev hrev heq
      apply hannounced
      have hstored : rev.stored ∈ p.announced :=
        List.mem_append_right _ (List.mem_map_of_mem hrev)
      rw [← heq]
      exact List.mem_map_of_mem (f := Prod.fst) hstored

theorem old_not_implemented : image'.implementors r.oldSelector = [] := by
  rw [List.eq_nil_iff_forall_not_mem]
  intro m hm
  obtain ⟨hselector, e, he⟩ := Image.mem_implementors.1 hm
  obtain ⟨kind, hrenamable⟩ := h.renamable
  rcases h.origin hnew he with ⟨rev, hrev, rfl, -⟩ | ⟨rev, hrev, rfl, -⟩ | ⟨hkept, hne, -⟩
  · exact hrenamable.ne hselector.symm
  · -- A sender that is revised does not implement the old selector.
    obtain ⟨-, hnot, hrevises, -⟩ := h.senders rev hrev
    obtain ⟨e', he', -⟩ := hrevises.source
    exact hnot (Image.mem_implementors.2 ⟨hselector, e', he'⟩)
  · exact hne hselector

theorem old_not_sent (hspelled : session.image.Spelled)
    (hkind : Selector.kind? r.oldSelector ≠ some .binary) :
    image'.senders r.oldSelector = [] := by
  rw [List.eq_nil_iff_forall_not_mem]
  intro m hm
  obtain ⟨e, he, hsends⟩ := Image.mem_senders.1 hm
  obtain ⟨kind, hrenamable⟩ := h.renamable
  have hshape : SameShape r.oldSelector r.newSelector :=
    hrenamable.sameShape fun heq => hkind (heq ▸ hrenamable.kind_old)
  rcases h.origin hnew he with ⟨rev, hrev, rfl, hsource⟩ | ⟨rev, hrev, rfl, hsource⟩ |
    ⟨hkept, hne, hothers⟩
  · have hnone := not_sends_implementor hspelled hrenamable hshape (h.implementors rev hrev)
      (h.selector_eq hrev)
    rw [hsource, hnone] at hsends
    simp at hsends
  · obtain ⟨-, -, hrevises, -⟩ := h.senders rev hrev
    have hrevised := congrArg Revised.source (Option.some.inj hrevises.revised)
    have hnone := sendsSelector_renameSends rev.oldSource hshape hrenamable.ne
    rw [hrevised, ← hsource, hsends] at hnone
    simp at hnone
  · -- The image finds a method that sends, so the plan went through it.
    have hsender : m ∈ session.senders r.oldSelector :=
      Session.mem_senders (Image.mem_senders.2 ⟨e, hkept, hsends⟩)
    have hnot : m ∉ session.implementors r.oldSelector :=
      fun hmem => hne (Image.mem_implementors.1 hmem).1
    obtain ⟨rev, hrev, heq⟩ := hrenamable.revised_of_sends hkept hsends (h.revised m hsender hnot)
    exact hothers rev hrev heq

theorem mem_implementors_new :
    m ∈ image'.implementors r.newSelector ↔
      m ∈ session.image.implementors r.newSelector ∨
        ∃ n ∈ session.image.implementors r.oldSelector,
          m = { n with selector := r.newSelector } := by
  constructor
  · intro hm
    obtain ⟨hselector, e, he⟩ := Image.mem_implementors.1 hm
    rcases h.origin hnew he with ⟨rev, hrev, rfl, -⟩ | ⟨rev, hrev, rfl, -⟩ | ⟨hkept, -, -⟩
    · refine .inr ⟨rev.method, ?_, rfl⟩
      have hmem : rev.method ∈ session.implementors r.oldSelector := by
        rw [← h.methods]
        exact List.mem_map_of_mem hrev
      exact hmem
    · obtain ⟨-, -, hrevises, -⟩ := h.senders rev hrev
      obtain ⟨e', he', -⟩ := hrevises.source
      exact .inl (Image.mem_implementors.2 ⟨hselector, e', he'⟩)
    · exact .inl (Image.mem_implementors.2 ⟨hselector, e, hkept⟩)
  · rintro (hm | ⟨n, hn, rfl⟩)
    · obtain ⟨hselector, e, he⟩ := Image.mem_implementors.1 hm
      obtain ⟨kind, hrenamable⟩ := h.renamable
      have hdropped : m ∉ p.dropped := by
        intro hmem
        rw [dropped, h.methods] at hmem
        exact hrenamable.ne ((Image.mem_implementors.1 hmem).1.symm.trans hselector)
      exact Image.mem_implementors.2 ⟨hselector, hnew.exists_method he hdropped⟩
    · have hn' : n ∈ p.implementors.map (·.method) := by
        rw [h.methods]
        exact hn
      obtain ⟨rev, hrev, rfl⟩ := List.mem_map.1 hn'
      have hstored : rev.storedAs p.newSelector ∈ p.announced :=
        List.mem_append_left _ (List.mem_map_of_mem hrev)
      rw [← h.newSelector]
      exact Image.mem_implementors.2 ⟨rfl, _, hnew.holds _ hstored⟩

theorem kept (hoverwrite : r.overwrite = false) (he : session.image.method? m = some e)
    (himplementor : m ∉ session.image.implementors r.oldSelector)
    (hsender : m ∉ session.image.senders r.oldSelector) : image'.method? m = some e := by
  obtain ⟨kind, hrenamable⟩ := h.renamable
  have hdropped : m ∉ p.dropped := by
    rw [dropped, h.methods]
    exact himplementor
  have hannounced : m ∉ p.announced.map Prod.fst := by
    intro hm
    obtain ⟨q, hq, rfl⟩ := List.mem_map.1 hm
    rcases List.mem_append.1 hq with hq | hq
    · obtain ⟨rev, hrev, rfl⟩ := List.mem_map.1 hq
      rw [h.free_of_mem hoverwrite hrev] at he
      simp at he
    · obtain ⟨rev, hrev, rfl⟩ := List.mem_map.1 hq
      obtain ⟨-, -, hrevises, hsome⟩ := h.senders rev hrev
      obtain ⟨e', he', hsends, -⟩ := hrevises.sender hsome hrenamable.sameKeywords
      exact hsender (Image.mem_senders.2 ⟨e', he', hsends⟩)
  rw [hnew.others m hannounced hdropped, he]

end RenameSelector.Plan.Planned

/-- Renaming a selector leaves nobody who implements or sends the old one, adds the renamed methods
to those who implement the new one, and leaves all else as it was. -/
theorem Refactoring.renameSelector_complete {image image' : Image} (hreachable : image.Reachable)
    {extraSenders : List MethodRef} {r : RenameSelector.Request} {applied : Applied}
    (hoverwrite : r.overwrite = false)
    (hkind : Selector.kind? r.oldSelector = some .unary ∨
      Selector.kind? r.oldSelector = some .keyword)
    (h : apply ⟨image, extraSenders⟩ settings (.renameSelector r) = (image', .ok applied)) :
    image'.implementors r.oldSelector = [] ∧
    image'.senders r.oldSelector = [] ∧
    (∀ m, m ∈ image'.implementors r.newSelector ↔
      m ∈ image.implementors r.newSelector ∨
        ∃ n ∈ image.implementors r.oldSelector, m = { n with selector := r.newSelector }) ∧
    ∀ m e, image.method? m = some e → m ∉ image.implementors r.oldSelector →
      m ∉ image.senders r.oldSelector → image'.method? m = some e := by
  obtain ⟨hpreview, -⟩ := apply_eq_ok h
  have hrequest : Request.overwrite (.renameSelector r) = false := hoverwrite
  have hone := unambiguous_of_preview hreachable.spelled hrequest hpreview
  obtain ⟨-, hnew⟩ := rewritten_of_unambiguous hreachable.spelled hone h
  obtain ⟨p, hp, hplan⟩ := map_eq_ok.1 hpreview
  rw [← hplan] at hnew
  have hplanned := RenameSelector.plan_eq_ok hp
  refine ⟨hplanned.old_not_implemented hnew, ?_, fun m => ?_, fun m e he => ?_⟩
  · apply hplanned.old_not_sent hnew hreachable.spelled
    rcases hkind with hkind | hkind <;> simp [hkind]
  · exact hplanned.mem_implementors_new hnew
  · exact hplanned.kept hnew hoverwrite he

theorem Refactoring.renameSelector_complete_counter :
    ∃ image' applied,
      apply ⟨.counter, []⟩ .standard (.renameSelector ⟨"value", "count", false⟩) =
        (image', .ok applied) ∧
      image'.implementors "value" = [] ∧ image'.senders "value" = [] ∧
      ⟨"Counter", .instanceSide, "count"⟩ ∈ image'.implementors "count" := by
  obtain ⟨image', applied, h⟩ := exists_eq_ok (x := apply ⟨.counter, []⟩ .standard
    (.renameSelector ⟨"value", "count", false⟩)) (by decide +kernel)
  obtain ⟨himplementors, hsenders, hnew, -⟩ :=
    renameSelector_complete Image.reachable_counter rfl (.inl (by decide)) h
  refine ⟨image', applied, h, himplementors, hsenders, (hnew _).2 (.inr ?_)⟩
  exact ⟨⟨"Counter", .instanceSide, "value"⟩, by decide +kernel, rfl⟩

end MethodBrowser
