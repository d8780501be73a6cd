import MethodBrowser.Plan.RenameMethod
import MethodBrowser.Plan.RenameSelector
import MethodBrowser.Proofs.Image.Questions

/-!
# What plans of renames consist of

Inverts the planning of both renames. A plan that is made holds one revision for each method that
implements the old selector (`RenameSelector.plan_eq_ok`) or for the one method that is renamed
(`RenameMethod.plan_eq_ok`), and revisions of senders in which a send is found.
-/

namespace MethodBrowser

theorem requireKind_eq_ok {selector : String} {kind : SelectorKind} :
    requireKind selector = .ok kind ↔ Selector.kind? selector = some kind := by
  unfold requireKind
  cases Selector.kind? selector <;> simp

/-- What may be renamed to what. -/
structure Renamable (old new : String) (kind : SelectorKind) : Prop where
  kind_old : Selector.kind? old = some kind
  kind_new : Selector.kind? new = some kind
  ne : old ≠ new
  arity : Selector.arity old = Selector.arity new

theorem checkRename_eq_ok {old new : String} {kind : SelectorKind}
    (h : checkRename old new = .ok kind) : Renamable old new kind := by
  simp only [checkRename, bind_eq_ok, requireKind_eq_ok] at h
  obtain ⟨oldKind, hold, newKind, hnew, h⟩ := h
  split at h
  · simp [throw, throwThe, MonadExceptOf.throw, bind, Except.bind] at h
  · next hne =>
    split at h
    · simp [throw, throwThe, MonadExceptOf.throw, bind, Except.bind] at h
    · next hkind =>
      split at h
      · simp [throw, throwThe, MonadExceptOf.throw, bind, Except.bind] at h
      · next harity =>
        simp only [ne_eq, Decidable.not_not] at hkind harity
        obtain rfl : oldKind = kind := by simpa [pure, Except.pure] using h
        exact ⟨hold, hkind ▸ hnew, hne, harity⟩

/-! ## Revisions -/

/-- The revision changes a stored method by `f`. -/
structure MethodRevision.Revises (session : Session) (settings : Settings)
    (f : String → Option Revised) (r : MethodRevision) : Prop where
  source : ∃ e, session.image.method? r.method = some e ∧ e.source = r.oldSource
  revised : f r.oldSource = some ⟨r.newSource, r.replacements⟩
  category : session.categoryOf settings r.method = .ok r.category

/-- A method has one revision. -/
theorem MethodRevision.Revises.eq {session : Session} {settings : Settings}
    {f : String → Option Revised} {r r' : MethodRevision} (h : r.Revises session settings f)
    (h' : r'.Revises session settings f) (hmethod : r.method = r'.method) : r = r' := by
  obtain ⟨e, he, hsource⟩ := h.source
  obtain ⟨e', he', hsource'⟩ := h'.source
  have hrevised := h.revised
  have hcategory := h.category
  rw [hmethod] at he hcategory
  obtain rfl : e = e' := Option.some.inj (he.symm.trans he')
  rw [← hsource, hsource', h'.revised] at hrevised
  rw [h'.category] at hcategory
  cases r
  cases r'
  simp_all

namespace Session

variable {session : Session} {settings : Settings} {old new : String}

theorem renameImplementor_eq_ok {method : MethodRef} {r : MethodRevision}
    (h : session.renameImplementor settings old new method = .ok r) :
    r.method = method ∧ r.Revises session settings (renameMethod? · old new) := by
  simp only [renameImplementor, bind_eq_ok, sourceOf_eq_ok] at h
  obtain ⟨source, ⟨e, he, rfl⟩, h⟩ := h
  split at h
  · simp [throw, throwThe, MonadExceptOf.throw] at h
  · next renamed hrenamed =>
    simp only [bind_eq_ok, pure, Except.pure, Except.ok.injEq] at h
    obtain ⟨category, hcategory, rfl⟩ := h
    exact ⟨rfl, ⟨e, he, rfl⟩, hrenamed, hcategory⟩

/-- Each sender is revised, or no send is found in it. -/
theorem renameSenders_eq_ok {methods : List MethodRef} {revisions : List MethodRevision}
    {unchanged : List MethodRef}
    (h : session.renameSenders settings old new methods = .ok (revisions, unchanged)) :
    (∀ r ∈ revisions, r.method ∈ methods ∧
      r.Revises session settings (fun source => some (renameSends source old new)) ∧
      r.replacements ≠ 0) ∧
    ∀ m ∈ methods, (∃ r ∈ revisions, r.method = m) ∨
      ∃ e, session.image.method? m = some e ∧
        (renameSends e.source old new).replacements = 0 := by
  induction methods generalizing revisions unchanged with
  | nil =>
    simp only [renameSenders, Except.ok.injEq, Prod.mk.injEq] at h
    obtain ⟨rfl, rfl⟩ := h
    simp
  | cons method methods ih =>
    simp only [renameSenders, bind_eq_ok, sourceOf_eq_ok] at h
    obtain ⟨source, ⟨e, he, rfl⟩, h⟩ := h
    split at h
    · next hzero =>
      simp only [bind_eq_ok, pure, Except.pure, Except.ok.injEq, Prod.mk.injEq, Prod.exists] at h
      obtain ⟨revisions', unchanged', hrec, rfl, rfl⟩ := h
      obtain ⟨hrevisions, hmethods⟩ := ih hrec
      refine ⟨fun r hr => ?_, List.forall_mem_cons.2 ⟨.inr ⟨e, he, hzero⟩, hmethods⟩⟩
      obtain ⟨hmem, hr⟩ := hrevisions r hr
      exact ⟨List.mem_cons_of_mem _ hmem, hr⟩
    · next hsome =>
      simp only [bind_eq_ok, pure, Except.pure, Except.ok.injEq, Prod.mk.injEq, Prod.exists] at h
      obtain ⟨category, hcategory, revisions', unchanged', hrec, rfl, rfl⟩ := h
      obtain ⟨hrevisions, hmethods⟩ := ih hrec
      constructor
      · refine List.forall_mem_cons.2
          ⟨⟨List.mem_cons_self, ⟨⟨e, he, rfl⟩, rfl, hcategory⟩, hsome⟩, fun r hr => ?_⟩
        obtain ⟨hmem, hr⟩ := hrevisions r hr
        exact ⟨List.mem_cons_of_mem _ hmem, hr⟩
      · refine List.forall_mem_cons.2 ⟨.inl ⟨_, List.mem_cons_self, rfl⟩, fun m hm => ?_⟩
        rcases hmethods m hm with ⟨r, hr, hmethod⟩ | hnone
        · exact .inl ⟨r, List.mem_cons_of_mem _ hr, hmethod⟩
        · exact .inr hnone

end Session

/-! ## Plans -/

namespace RenameSelector

variable {session : Session} {settings : Settings} {r : Request} {p : Plan}

theorem renameImplementors_eq_ok {methods : List MethodRef} {revisions : List MethodRevision}
    (h : renameImplementors session settings r methods = .ok revisions) :
    (∀ rev ∈ revisions,
      rev.Revises session settings (renameMethod? · r.oldSelector r.newSelector)) ∧
    revisions.map (·.method) = methods ∧
    (r.overwrite = false → ∀ m ∈ methods,
      session.image.method? { m with selector := r.newSelector } = none) := by
  induction methods generalizing revisions with
  | nil =>
    simp only [renameImplementors, Except.ok.injEq] at h
    subst h
    simp
  | cons method methods ih =>
    obtain ⟨h, hnone⟩ := Session.unlessTaken_eq_ok h
    simp only [bind_eq_ok, pure, Except.pure, Except.ok.injEq] at h
    obtain ⟨rev, hrev, revisions', hrec, rfl⟩ := h
    obtain ⟨hmethod, hrevises⟩ := Session.renameImplementor_eq_ok hrev
    obtain ⟨hrevisions, hmap, hfree⟩ := ih hrec
    refine ⟨List.forall_mem_cons.2 ⟨hrevises, hrevisions⟩, ?_, fun hoverwrite => ?_⟩
    · rw [List.map_cons, hmethod, hmap]
    · exact List.forall_mem_cons.2 ⟨hnone hoverwrite, hfree hoverwrite⟩

/-- What a plan to rename a selector holds. -/
structure Plan.Planned (session : Session) (settings : Settings) (r : Request) (p : Plan) :
    Prop where
  renamable : ∃ kind, Renamable r.oldSelector r.newSelector kind
  newSelector : p.newSelector = r.newSelector
  implementors : ∀ rev ∈ p.implementors,
    rev.Revises session settings (renameMethod? · r.oldSelector r.newSelector)
  methods : p.implementors.map (·.method) = session.implementors r.oldSelector
  free : r.overwrite = false → ∀ m ∈ session.implementors r.oldSelector,
    session.image.method? { m with selector := r.newSelector } = none
  senders : ∀ rev ∈ p.senders,
    rev.method ∈ session.senders r.oldSelector ∧
    rev.method ∉ session.implementors r.oldSelector ∧
    rev.Revises session settings
      (fun source => some (renameSends source r.oldSelector r.newSelector)) ∧
    rev.replacements ≠ 0
  /-- A sender that is not revised contains no send. -/
  revised : ∀ m ∈ session.senders r.oldSelector, m ∉ session.implementors r.oldSelector →
    (∃ rev ∈ p.senders, rev.method = m) ∨
      ∃ e, session.image.method? m = some e ∧
        (renameSends e.source r.oldSelector r.newSelector).replacements = 0

theorem plan_eq_ok (h : plan session settings r = .ok p) : p.Planned session settings r := by
  simp only [plan, bind_eq_ok, mapError_eq_ok, pure, Except.pure, Except.ok.injEq,
    Prod.exists] at h
  obtain ⟨kind, hrename, implementors, himplementors, senders, unchanged, hsenders, rfl⟩ := h
  obtain ⟨hrevises, hmethods, hfree⟩ := renameImplementors_eq_ok himplementors
  obtain ⟨hrevisions, hall⟩ := Session.renameSenders_eq_ok hsenders
  refine ⟨⟨kind, checkRename_eq_ok hrename⟩, rfl, hrevises, hmethods, hfree, fun rev hrev => ?_,
    fun m hm hnot => hall m ?_⟩
  · obtain ⟨hmem, hrev⟩ := hrevisions rev hrev
    rw [List.mem_filter] at hmem
    exact ⟨hmem.1, by simpa using hmem.2, hrev⟩
  · rw [List.mem_filter]
    exact ⟨hm, by simpa using hnot⟩

end RenameSelector

namespace RenameMethod

variable {session : Session} {settings : Settings} {r : Request} {p : Plan}

/-- What a plan to rename a method holds. -/
structure Plan.Planned (session : Session) (settings : Settings) (r : Request) (p : Plan) :
    Prop where
  renamable : ∃ kind, Renamable r.oldSelector r.newSelector kind
  method : p.method = ⟨r.className, r.side, r.oldSelector⟩
  newMethod : p.newMethod = ⟨r.className, r.side, r.newSelector⟩
  revision_method : p.revision.method = p.method
  revision : p.revision.Revises session settings (renameMethod? · r.oldSelector r.newSelector)
  free : r.overwrite = false → session.image.method? p.newMethod = none
  senders : ∀ rev ∈ p.sameScopeSenders,
    rev.method ≠ p.method ∧ rev.method.sameScope p.method = true ∧
    rev.Revises session settings
      (fun source => some (renameSends source r.oldSelector r.newSelector)) ∧
    rev.replacements ≠ 0
  /-- A sender of the same class and side that is not revised contains no send. -/
  revised : ∀ m ∈ session.senders r.oldSelector, m ≠ p.method → m.sameScope p.method = true →
    (∃ rev ∈ p.sameScopeSenders, rev.method = m) ∨
      ∃ e, session.image.method? m = some e ∧
        (renameSends e.source r.oldSelector r.newSelector).replacements = 0

theorem plan_eq_ok (h : plan session settings r = .ok p) : p.Planned session settings r := by
  simp only [plan] at h
  obtain ⟨kind, hrename, h⟩ := bind_eq_ok.1 h
  obtain ⟨source, -, h⟩ := bind_eq_ok.1 h
  obtain ⟨h, hfree⟩ := Session.unlessTaken_eq_ok h
  simp only [bind_eq_ok, pure, Except.pure, Except.ok.injEq, Prod.exists] at h
  obtain ⟨revision, hrevision, senders, unchanged, hsenders, rfl⟩ := h
  obtain ⟨hmethod, hrevises⟩ := Session.renameImplementor_eq_ok hrevision
  obtain ⟨hrevisions, hall⟩ := Session.renameSenders_eq_ok hsenders
  refine ⟨⟨kind, checkRename_eq_ok (mapError_eq_ok.1 hrename)⟩, rfl, rfl, hmethod, hrevises, hfree,
    fun rev hrev => ?_, fun m hm hne hscope => hall m ?_⟩
  · obtain ⟨hmem, hrev⟩ := hrevisions rev hrev
    rw [List.mem_filter, List.mem_filter] at hmem
    exact ⟨by simpa using hmem.1.2, hmem.2, hrev⟩
  · rw [List.mem_filter, List.mem_filter]
    exact ⟨⟨hm, by simpa using hne⟩, hscope⟩

end RenameMethod

end MethodBrowser
