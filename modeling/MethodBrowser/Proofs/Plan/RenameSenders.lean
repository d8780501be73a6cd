import MethodBrowser.Proofs.Plan.WriteSet

/-!
# Renames revise every sender

An image is asked who sends a selector, and the texts of those methods are then rewritten. The two
look for sends in different ways: the question goes through the list of all sends of a text, the
rewriting of a keyword selector goes through its runs of keywords and counts edits. They agree on
every text (`replacements_renameSends`). So a plan finds something to replace in each sender that it
goes through, and none is left over (`Refactoring.every_sender_revised`).
-/

namespace MethodBrowser

variable {settings : Settings} {old new : String}

/-- How many sends of a selector a text holds. -/
def sendCount (text selector : String) : Nat :=
  (Source.ofText text).sends.countP (·.selector == selector)

theorem sendCount_pos {text selector : String} :
    1 ≤ sendCount text selector ↔ (Source.ofText text).sendsSelector selector = true := by
  rw [sendCount, Nat.succ_le_iff, List.countP_pos_iff, Source.sendsSelector, List.any_eq_true]

/-- Rewriting replaces as many sends as there are. -/
theorem Renamable.replacements {kind : SelectorKind} (h : Renamable old new kind) (text : String) :
    (renameSends text old new).replacements = sendCount text old := by
  rw [replacements_renameSends text h.sameKeywords, Source.sendsOf, ← List.countP_eq_length_filter,
    sendCount]

/-- Renaming a method replaces the sends of its text, too. -/
theorem Renamable.replacements_method {kind : SelectorKind} (h : Renamable old new kind)
    {text : String} {revised : Revised} (hrevised : renameMethod? text old new = some revised) :
    revised.replacements = sendCount text old := by
  obtain ⟨header, -, rfl⟩ := Option.map_eq_some_iff.1 hrevised
  exact h.replacements text

namespace Session

variable {session : Session}

/-- A sender stays as it is only if no send is found in it. -/
theorem replacements_of_mem_unchanged {methods : List MethodRef} {revisions : List MethodRevision}
    {unchanged : List MethodRef}
    (h : session.renameSenders settings old new methods = .ok (revisions, unchanged)) :
    ∀ m ∈ unchanged, m ∈ methods ∧ ∃ e, session.image.method? m = some e ∧
      (renameSends e.source old new).replacements = 0 := by
  induction methods generalizing revisions unchanged with
  | nil =>
    simp only [renameSenders, Except.ok.injEq, Prod.mk.injEq] at h
    obtain ⟨rfl, rfl⟩ := h
    simp
  | cons method methods ih =>
    simp only [renameSenders, bind_eq_ok, sourceOf_eq_ok] at h
    obtain ⟨source, ⟨e, he, rfl⟩, h⟩ := h
    split at h
    · next hzero =>
      simp only [bind_eq_ok, pure, Except.pure, Except.ok.injEq, Prod.mk.injEq, Prod.exists] at h
      obtain ⟨revisions', unchanged', hrec, rfl, rfl⟩ := h
      refine List.forall_mem_cons.2 ⟨⟨List.mem_cons_self, e, he, hzero⟩, fun m hm => ?_⟩
      obtain ⟨hmem, hnone⟩ := ih hrec m hm
      exact ⟨List.mem_cons_of_mem _ hmem, hnone⟩
    · simp only [bind_eq_ok, pure, Except.pure, Except.ok.injEq, Prod.mk.injEq, Prod.exists] at h
      obtain ⟨category, -, revisions', unchanged', hrec, rfl, rfl⟩ := h
      intro m hm
      obtain ⟨hmem, hnone⟩ := ih hrec m hm
      exact ⟨List.mem_cons_of_mem _ hmem, hnone⟩

/-- No sender that the image knows of is left over. -/
theorem unchanged_eq_nil {kind : SelectorKind} {methods : List MethodRef}
    {revisions : List MethodRevision} {unchanged : List MethodRef} (hrename : Renamable old new kind)
    (hsenders : ∀ m ∈ methods, m ∈ session.image.senders old)
    (h : session.renameSenders settings old new methods = .ok (revisions, unchanged)) :
    unchanged = [] := by
  refine List.eq_nil_iff_forall_not_mem.2 fun m hm => ?_
  obtain ⟨hmem, e, he, hzero⟩ := replacements_of_mem_unchanged h m hm
  obtain ⟨e', he', hsends⟩ := Image.mem_senders.1 (hsenders m hmem)
  obtain rfl : e = e' := Option.some.inj (he.symm.trans he')
  have hpos := sendCount_pos.2 hsends
  rw [hrename.replacements] at hzero
  omega

end Session

/-! ## Plans -/

/-- The revision replaces each send of its method, of which there is at least one if the image
counts the method among the senders. -/
structure MethodRevision.Thorough (image : Image) (old : String) (rev : MethodRevision) : Prop where
  replacements : rev.replacements = sendCount rev.oldSource old
  sender : rev.method ∈ image.senders old → 1 ≤ rev.replacements

theorem MethodRevision.Revises.thorough {session : Session} {f : String → Option Revised}
    {rev : MethodRevision} (h : rev.Revises session settings f)
    (hf : ∀ text revised, f text = some revised → revised.replacements = sendCount text old) :
    rev.Thorough session.image old := by
  have hcount : rev.replacements = sendCount rev.oldSource old := hf _ _ h.revised
  refine ⟨hcount, fun hsender => ?_⟩
  obtain ⟨e, he, hsource⟩ := h.source
  obtain ⟨e', he', hsends⟩ := Image.mem_senders.1 hsender
  obtain rfl : e = e' := Option.some.inj (he.symm.trans he')
  rw [hcount, ← hsource]
  exact sendCount_pos.2 hsends

theorem RenameSelector.unchangedSenders_eq_nil {image : Image} {r : Request} {p : Plan}
    (h : plan ⟨image, []⟩ settings r = .ok p) : p.unchangedSenders = [] := by
  simp only [plan, bind_eq_ok, mapError_eq_ok, pure, Except.pure, Except.ok.injEq,
    Prod.exists] at h
  obtain ⟨kind, hrename, implementors, -, senders, unchanged, hsenders, rfl⟩ := h
  exact Session.unchanged_eq_nil (checkRename_eq_ok hrename)
    (fun m hm => List.mem_of_mem_filter hm) hsenders

theorem RenameMethod.unchangedSenders_eq_nil {image : Image} {r : Request} {p : Plan}
    (h : plan ⟨image, []⟩ settings r = .ok p) : p.unchangedSenders = [] := by
  simp only [plan] at h
  obtain ⟨kind, hrename, h⟩ := bind_eq_ok.1 h
  obtain ⟨source, -, h⟩ := bind_eq_ok.1 h
  obtain ⟨h, -⟩ := Session.unlessTaken_eq_ok h
  simp only [bind_eq_ok, pure, Except.pure, Except.ok.injEq, Prod.exists] at h
  obtain ⟨revision, -, senders, unchanged, hsenders, rfl⟩ := h
  exact Session.unchanged_eq_nil (checkRename_eq_ok (mapError_eq_ok.1 hrename))
    (fun m hm => List.mem_of_mem_filter (List.mem_of_mem_filter hm)) hsenders

/-- Rewriting a text replaces as many sends as are found in it. So in a plan for an image no sender
is left over, and something is replaced in each one. -/
theorem Refactoring.every_sender_revised :
    (∀ (text old new : String) (kind : SelectorKind), checkRename old new = .ok kind →
      (renameSends text old new).replacements = sendCount text old) ∧
    (∀ (image : Image) (settings : Settings) (r : RenameSelector.Request) (p : RenameSelector.Plan),
      preview ⟨image, []⟩ settings (.renameSelector r) = .ok (.renameSelector p) →
      p.unchangedSenders = [] ∧ (∀ rev ∈ p.senders, 1 ≤ rev.replacements) ∧
        ∀ rev ∈ p.implementors ++ p.senders, rev.Thorough image r.oldSelector) ∧
    ∀ (image : Image) (settings : Settings) (r : RenameMethod.Request) (p : RenameMethod.Plan),
      preview ⟨image, []⟩ settings (.renameMethod r) = .ok (.renameMethod p) →
      p.unchangedSenders = [] ∧ (∀ rev ∈ p.sameScopeSenders, 1 ≤ rev.replacements) ∧
        ∀ rev ∈ p.revision :: p.sameScopeSenders, rev.Thorough image r.oldSelector := by
  refine ⟨fun text old new kind h => (checkRename_eq_ok h).replacements text,
    fun image settings r p h => ?_, fun image settings r p h => ?_⟩
  · obtain ⟨p', hp, heq⟩ := map_eq_ok.1 h
    obtain rfl : p' = p := by simpa using heq
    have hplanned := RenameSelector.plan_eq_ok hp
    obtain ⟨kind, hrename⟩ := hplanned.renamable
    refine ⟨RenameSelector.unchangedSenders_eq_nil hp,
      fun rev hrev => Nat.one_le_iff_ne_zero.2 (hplanned.senders rev hrev).2.2.2,
      List.forall_mem_append.2 ⟨fun rev hrev => ?_, fun rev hrev => ?_⟩⟩
    · exact (hplanned.implementors rev hrev).thorough fun _ _ => hrename.replacements_method
    · refine (hplanned.senders rev hrev).2.2.1.thorough fun text revised heq => ?_
      rw [← Option.some.inj heq, hrename.replacements]
  · obtain ⟨p', hp, heq⟩ := map_eq_ok.1 h
    obtain rfl : p' = p := by simpa using heq
    have hplanned := RenameMethod.plan_eq_ok hp
    obtain ⟨kind, hrename⟩ := hplanned.renamable
    refine ⟨RenameMethod.unchangedSenders_eq_nil hp,
      fun rev hrev => Nat.one_le_iff_ne_zero.2 (hplanned.senders rev hrev).2.2.2,
      List.forall_mem_cons.2 ⟨?_, fun rev hrev => ?_⟩⟩
    · exact hplanned.revision.thorough fun _ _ => hrename.replacements_method
    · refine (hplanned.senders rev hrev).2.2.1.thorough fun text revised heq => ?_
      rw [← Option.some.inj heq, hrename.replacements]

/-- The small image has one sender of `value`, and a plan to rename it revises that sender. -/
theorem Refactoring.every_sender_revised_counter :
    checkRename "value" "total" = .ok .unary ∧
    ∃ p, preview ⟨.counter, []⟩ .standard (.renameSelector ⟨"value", "total", false⟩) =
        .ok (.renameSelector p) ∧
      p.senders.map (·.method) = [⟨"Counter", .instanceSide, "current"⟩] ∧
      p.unchangedSenders = [] ∧ ∀ rev ∈ p.senders, 1 ≤ rev.replacements := by
  refine ⟨by decide +kernel, ?_⟩
  have hsenders : (RenameSelector.plan ⟨.counter, []⟩ .standard
      ⟨"value", "total", false⟩).toOption.map (fun p => p.senders.map (·.method)) =
        some [⟨"Counter", .instanceSide, "current"⟩] := by decide +kernel
  cases hp : RenameSelector.plan ⟨.counter, []⟩ .standard ⟨"value", "total", false⟩ with
  | error e => simp [hp, Except.toOption] at hsenders
  | ok p =>
    have hpreview : preview ⟨.counter, []⟩ .standard (.renameSelector ⟨"value", "total", false⟩) =
        .ok (.renameSelector p) := map_eq_ok.2 ⟨p, hp, rfl⟩
    obtain ⟨hnone, hall, -⟩ := every_sender_revised.2.1 _ _ _ _ hpreview
    rw [hp] at hsenders
    exact ⟨p, hpreview, Option.some.inj hsenders, hnone, hall⟩

end MethodBrowser
