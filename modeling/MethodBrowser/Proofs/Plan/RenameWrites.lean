import MethodBrowser.Proofs.Edit.RenameComplete
import MethodBrowser.Proofs.Image.Reachable
import MethodBrowser.Proofs.Plan.Announced
import MethodBrowser.Proofs.Plan.Renaming

/-!
# What renames write

Both renames announce what they write (`RenameSelector.Plan.Planned.announces`,
`RenameMethod.Plan.Planned.announces`): a renamed implementor spells the new selector, and a sender
keeps its header. If no method of the new selector may be overwritten, then no method is written
twice (`RenameSelector.Plan.Planned.unambiguous`, `RenameMethod.Plan.Planned.unambiguous`): the
places of the renamed implementors were free and senders stand at places that were not.
-/

namespace MethodBrowser

open StoredMethod

variable {session : Session} {settings : Settings} {old new : String} {kind : SelectorKind}

theorem Renamable.sameKeywords (h : Renamable old new kind)
    (hkeyword : Selector.kind? old = some .keyword) : Source.SameKeywords old new := by
  obtain rfl : kind = .keyword := Option.some.inj (h.kind_old.symm.trans hkeyword)
  refine ⟨h.kind_old, h.kind_new, ?_⟩
  simpa [Selector.arity, Selector.tokens, h.kind_old, h.kind_new] using h.arity

/-- A method that is revised is there. -/
theorem MethodRevision.Revises.exists_method {r : MethodRevision} {f : String → Option Revised}
    (hr : r.Revises session settings f) : ∃ e, session.image.method? r.method = some e := by
  obtain ⟨e, he, -⟩ := hr.source
  exact ⟨e, he⟩

/-- The signature of an implementor has the shape of the new selector. -/
theorem exists_header_implementor {r : MethodRevision} {f : String → Option Revised}
    (hfiled : session.image.Filed r.method) (h : Renamable old new kind)
    (hr : r.Revises session settings f) (hmethod : r.method.selector = old) :
    ∃ header, Header.ofText? r.oldSource = some header ∧
      Selector.kind? new = some header.kind ∧
      Selector.arity header.selector = Selector.arity new := by
  obtain ⟨header, hheader, hselector⟩ := (Image.filed_iff hr.source).1 hfiled
  rw [hmethod] at hselector
  obtain ⟨sig, after, hreading⟩ := Header.ofText?_eq_some hheader
  have hkind := hreading.wellFormed.kind
  rw [hselector, h.kind_old, ← h.kind_new] at hkind
  exact ⟨header, hheader, hkind, by rw [hselector, h.arity]⟩

/-- A renamed implementor spells the new selector. -/
theorem spelled_implementor {r : MethodRevision} (hfiled : session.image.Filed r.method)
    (h : Renamable old new kind) (hr : r.Revises session settings (renameMethod? · old new))
    (hmethod : r.method.selector = old) :
    ∃ header, Header.ofText? r.newSource = some header ∧ header.selector = new := by
  obtain ⟨header, hheader, hkind, harity⟩ := exists_header_implementor hfiled h hr hmethod
  have hrevised : renameMethod? r.oldSource old new = some ⟨r.newSource, r.replacements⟩ :=
    hr.revised
  have hnew := ofText?_renameMethod? hheader hrevised hkind harity
  exact hnew

/-- A sender keeps its header. -/
theorem spelled_sender_iff {r : MethodRevision}
    (hr : r.Revises session settings fun source => some (renameSends source old new)) :
    Spelled r.stored ↔ session.image.Filed r.method := by
  have hnew : (renameSends r.oldSource old new).source = r.newSource :=
    congrArg Revised.source (Option.some.inj hr.revised)
  have hheader : Header.ofText? r.newSource = Header.ofText? r.oldSource := by
    rw [← hnew, ofText?_renameSends]
  rw [Image.filed_iff hr.source, ← hheader]
  rfl

/-- A sender that is revised sends the old selector, and its text is renamed. -/
theorem MethodRevision.Revises.sender {s : MethodRevision}
    (h : s.Revises session settings (fun source => some (renameSends source old new)))
    (hsome : s.replacements ≠ 0)
    (hkeyword : Selector.kind? old = some .keyword → Source.SameKeywords old new) :
    ∃ e, session.image.method? s.method = some e ∧
      (Source.ofText e.source).sendsSelector old = true ∧
      (renameSends e.source old new).source = s.newSource := by
  obtain ⟨e, he, hsource⟩ := h.source
  have hrevised : renameSends s.oldSource old new = ⟨s.newSource, s.replacements⟩ :=
    Option.some.inj h.revised
  refine ⟨e, he, ?_, by rw [hsource, hrevised]⟩
  by_contra hnone
  apply hsome
  have hzero := (replacements_eq_zero_iff e.source hkeyword).2 (by simpa using hnone)
  rw [hsource, hrevised] at hzero
  exact hzero

/-- Among the senders that a plan goes through, those that send are revised. -/
theorem Renamable.revised_of_sends {kind : SelectorKind} (h : Renamable old new kind)
    {senders : List MethodRevision} {n : MethodRef} {e : MethodEntry}
    (he : session.image.method? n = some e)
    (hsends : (Source.ofText e.source).sendsSelector old = true)
    (hrevised : (∃ s ∈ senders, s.method = n) ∨ ∃ e, session.image.method? n = some e ∧
      (renameSends e.source old new).replacements = 0) :
    ∃ s ∈ senders, s.method = n := by
  rcases hrevised with hfound | ⟨e', he', hzero⟩
  · exact hfound
  · obtain rfl : e = e' := Option.some.inj (he.symm.trans he')
    rw [replacements_eq_zero_iff e.source h.sameKeywords, hsends] at hzero
    simp at hzero

namespace RenameSelector.Plan.Planned

variable {r : Request} {p : Plan} (h : p.Planned session settings r)

include h

theorem selector_eq {rev : MethodRevision} (hrev : rev ∈ p.implementors) :
    rev.method.selector = r.oldSelector := by
  have hmem : rev.method ∈ session.implementors r.oldSelector := by
    rw [← h.methods]
    exact List.mem_map_of_mem hrev
  exact (Image.mem_implementors.1 hmem).1

theorem exists_reworked : ∀ m ∈ p.reworked, ∃ e, session.image.method? m = some e := by
  intro m hm
  obtain ⟨rev, hrev, rfl⟩ := List.mem_map.1 hm
  rcases List.mem_append.1 hrev with hrev | hrev
  · exact (h.implementors rev hrev).exists_method
  · exact (h.senders rev hrev).2.2.1.exists_method

/-- Senders tell by their new texts whether they are filed rightly, implementors do not. -/
theorem announces_iff :
    Announces p.writes p.announced p.dropped ∧ (∀ m ∈ p.dropped, session.image.Filed m) ↔
      ∀ m ∈ p.reworked, session.image.Filed m := by
  obtain ⟨kind, hrenamable⟩ := h.renamable
  simp only [reworked, List.map_append, List.forall_mem_append, List.forall_mem_map]
  constructor
  · rintro ⟨hannounces, hdropped⟩
    refine ⟨fun rev hrev => hdropped _ (List.mem_map_of_mem hrev), fun rev hrev => ?_⟩
    refine (spelled_sender_iff (h.senders rev hrev).2.2.1).1 (hannounces.spelled _ ?_)
    exact List.mem_append_right _ (List.mem_map_of_mem hrev)
  · rintro ⟨himplementors, hsenders⟩
    refine ⟨⟨?_, fun q hq => ?_⟩, ?_⟩
    · simp only [writes, announced, dropped, List.map_append, List.map_map]
      rfl
    · rcases List.mem_append.1 hq with hq | hq
      · obtain ⟨rev, hrev, rfl⟩ := List.mem_map.1 hq
        rw [h.newSelector]
        exact spelled_implementor (himplementors rev hrev) hrenamable (h.implementors rev hrev)
          (h.selector_eq hrev)
      · obtain ⟨rev, hrev, rfl⟩ := List.mem_map.1 hq
        exact (spelled_sender_iff (h.senders rev hrev).2.2.1).2 (hsenders rev hrev)
    · intro m hm
      obtain ⟨rev, hrev, rfl⟩ := List.mem_map.1 hm
      exact himplementors rev hrev

theorem announces (hspelled : session.image.Spelled) :
    Announces p.writes p.announced p.dropped :=
  (h.announces_iff.2 fun m hm => hspelled.filed (h.exists_reworked m hm)).1

/-- A revised implementor goes where no method was. -/
theorem free_of_mem (hoverwrite : r.overwrite = false) {rev : MethodRevision}
    (hrev : rev ∈ p.implementors) :
    session.image.method? (rev.storedAs p.newSelector).1 = none := by
  rw [h.newSelector]
  refine h.free hoverwrite rev.method ?_
  rw [← h.methods]
  exact List.mem_map_of_mem hrev

/-- Implementors have the old selector in common, so they stay apart under the new one. -/
theorem eq_of_storedAs_eq {rev rev' : MethodRevision} (hrev : rev ∈ p.implementors)
    (hrev' : rev' ∈ p.implementors) {selector : String}
    (heq : (rev.storedAs selector).1 = (rev'.storedAs selector).1) : rev = rev' := by
  have hmethod : rev.method = rev'.method := by
    have hselector := h.selector_eq hrev
    have hselector' := h.selector_eq hrev'
    simp only [MethodRevision.storedAs, MethodRef.mk.injEq] at heq
    cases hm : rev.method
    cases hm' : rev'.method
    simp_all
  exact (h.implementors rev hrev).eq (h.implementors rev' hrev') hmethod

theorem unambiguous (hoverwrite : r.overwrite = false) : Unambiguous p.announced p.dropped := by
  obtain ⟨kind, hrenamable⟩ := h.renamable
  have hsender : ∀ rev ∈ p.senders, ∃ e, session.image.method? rev.method = some e := by
    intro rev hrev
    obtain ⟨e, he, -⟩ := (h.senders rev hrev).2.2.1.source
    exact ⟨e, he⟩
  have hapart : ∀ rev ∈ p.implementors, ∀ rev' ∈ p.senders,
      (rev.storedAs p.newSelector).1 ≠ rev'.method := by
    intro rev hrev rev' hrev' heq
    obtain ⟨e, he⟩ := hsender rev' hrev'
    rw [← heq, h.free_of_mem hoverwrite hrev] at he
    simp at he
  constructor
  · intro a ha b hb heq
    rcases List.mem_append.1 ha with ha | ha <;> rcases List.mem_append.1 hb with hb | hb
    · obtain ⟨rev, hrev, rfl⟩ := List.mem_map.1 ha
      obtain ⟨rev', hrev', rfl⟩ := List.mem_map.1 hb
      rw [h.eq_of_storedAs_eq hrev' hrev heq]
    · obtain ⟨rev, hrev, rfl⟩ := List.mem_map.1 ha
      obtain ⟨rev', hrev', rfl⟩ := List.mem_map.1 hb
      exact absurd heq.symm (hapart rev hrev rev' hrev')
    · obtain ⟨rev, hrev, rfl⟩ := List.mem_map.1 hb
      obtain ⟨rev', hrev', rfl⟩ := List.mem_map.1 ha
      exact absurd heq (hapart rev hrev rev' hrev')
    · obtain ⟨rev, hrev, rfl⟩ := List.mem_map.1 ha
      obtain ⟨rev', hrev', rfl⟩ := List.mem_map.1 hb
      rw [(h.senders rev' hrev').2.2.1.eq (h.senders rev hrev).2.2.1 heq]
  · intro a ha hdropped
    rw [dropped, h.methods] at hdropped
    rcases List.mem_append.1 ha with ha | ha
    · obtain ⟨rev, hrev, rfl⟩ := List.mem_map.1 ha
      have hselector := (Image.mem_implementors.1 hdropped).1
      rw [h.newSelector] at hselector
      exact hrenamable.ne hselector.symm
    · obtain ⟨rev, hrev, rfl⟩ := List.mem_map.1 ha
      exact (h.senders rev hrev).2.1 hdropped

end RenameSelector.Plan.Planned

namespace RenameMethod.Plan.Planned

variable {r : Request} {p : Plan} (h : p.Planned session settings r)

include h

theorem exists_reworked : ∀ m ∈ p.reworked, ∃ e, session.image.method? m = some e := by
  intro m hm
  obtain ⟨rev, hrev, rfl⟩ := List.mem_map.1 hm
  rcases List.mem_cons.1 hrev with rfl | hrev
  · exact h.revision.exists_method
  · exact (h.senders rev hrev).2.2.1.exists_method

theorem announces_iff :
    Announces p.writes p.announced p.dropped ∧ (∀ m ∈ p.dropped, session.image.Filed m) ↔
      ∀ m ∈ p.reworked, session.image.Filed m := by
  obtain ⟨kind, hrenamable⟩ := h.renamable
  rw [dropped, List.forall_mem_singleton]
  simp only [reworked, List.map_cons, List.forall_mem_cons, List.forall_mem_map,
    h.revision_method]
  constructor
  · rintro ⟨hannounces, hdropped⟩
    refine ⟨hdropped, fun rev hrev => ?_⟩
    refine (spelled_sender_iff (h.senders rev hrev).2.2.1).1 (hannounces.spelled _ ?_)
    exact List.mem_cons_of_mem _ (List.mem_map_of_mem hrev)
  · rintro ⟨hrevision, hsenders⟩
    have hmethod : p.revision.method = ⟨r.className, r.side, r.oldSelector⟩ := by
      rw [h.revision_method, h.method]
    refine ⟨⟨?_, List.forall_mem_cons.2 ⟨?_, fun q hq => ?_⟩⟩, hrevision⟩
    · simp only [writes, announced, List.map_cons, List.map_nil, List.map_map, write,
        MethodRevision.write, hmethod, h.newMethod]
      rfl
    · obtain ⟨header, hheader, hselector⟩ := spelled_implementor
        (h.revision_method ▸ hrevision) hrenamable h.revision (by rw [hmethod])
      exact ⟨header, hheader, by rw [hselector, h.newMethod]⟩
    · obtain ⟨rev, hrev, rfl⟩ := List.mem_map.1 hq
      exact (spelled_sender_iff (h.senders rev hrev).2.2.1).2 (hsenders rev hrev)

theorem announces (hspelled : session.image.Spelled) :
    Announces p.writes p.announced p.dropped :=
  (h.announces_iff.2 fun m hm => hspelled.filed (h.exists_reworked m hm)).1

theorem unambiguous (hoverwrite : r.overwrite = false) : Unambiguous p.announced p.dropped := by
  obtain ⟨kind, hrenamable⟩ := h.renamable
  have hapart : ∀ rev ∈ p.sameScopeSenders, rev.method ≠ p.newMethod := by
    intro rev hrev heq
    obtain ⟨e, he, -⟩ := (h.senders rev hrev).2.2.1.source
    rw [heq, h.free hoverwrite] at he
    simp at he
  constructor
  · intro a ha b hb heq
    rcases List.mem_cons.1 ha with rfl | ha <;> rcases List.mem_cons.1 hb with rfl | hb
    · rfl
    · obtain ⟨rev, hrev, rfl⟩ := List.mem_map.1 hb
      exact absurd heq (hapart rev hrev)
    · obtain ⟨rev, hrev, rfl⟩ := List.mem_map.1 ha
      exact absurd heq.symm (hapart rev hrev)
    · obtain ⟨rev, hrev, rfl⟩ := List.mem_map.1 ha
      obtain ⟨rev', hrev', rfl⟩ := List.mem_map.1 hb
      rw [(h.senders rev' hrev').2.2.1.eq (h.senders rev hrev).2.2.1 heq]
  · intro a ha hdropped
    have hkey : a.1 = p.method := by simpa [dropped] using hdropped
    rcases List.mem_cons.1 ha with rfl | ha
    · rw [h.newMethod, h.method] at hkey
      exact hrenamable.ne (congrArg MethodRef.selector hkey).symm
    · obtain ⟨rev, hrev, rfl⟩ := List.mem_map.1 ha
      exact (h.senders rev hrev).1 hkey

end RenameMethod.Plan.Planned

end MethodBrowser
