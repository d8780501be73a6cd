import MethodBrowser.Proofs.Plan.WriteSet

/-!
# Refactorings that stop half-way

Carrying out a plan stops at the first write that the image refuses, and what was written before
stays. All the same nothing is lost: an image that a failed refactoring leaves behind is the old one
after some of the compiles of the plan, and every method that was there still is
(`Refactoring.failed_apply_keeps_methods`). No write reaches a class that is read-only, whether the
refactoring fails or not.

**Why no deletion is undone half-way** (`Orderly`). Every plan compiles first and deletes last. Most
plans delete one method at most. A rename of a selector deletes all implementors; but by then it has
compiled a method into the class of each, so all these classes can be written to, and compiling
removes no method. So none of the deletions can fail (`Orderly.delete_succeeds`).
-/

namespace MethodBrowser

def Write.isCompile : Write → Bool
  | .compile .. => true
  | .delete _ => false

namespace Image

variable {image image' : Image} {m : MethodRef} {writes : List Write} {effects : Effects}

/-! ## Classes that can be written to -/

/-- The class exists and is not read-only. -/
def Writable (image : Image) (name : String) : Prop :=
  ∃ entry, image.class? name = some entry ∧ entry.readOnly = false

theorem Writable.writableClass {name : String} {entry : ClassEntry}
    (hclass : image.class? name = some entry) (h : entry.readOnly = false) :
    image.writableClass name = .ok entry := by
  simp [Image.writableClass, findClass, hclass, h, bind, Except.bind, pure, Except.pure]

/-- Whether a class can be written to is no matter of its methods. -/
theorem Writable.updated {n : MethodRef} {e : Option MethodEntry} {name : String}
    (h : image.Writable name) (hupdated : Updated image image' n e) : image'.Writable name := by
  obtain ⟨entry, hclass, hwritable⟩ := h
  have hbare := hupdated.bare name
  rw [hclass, Option.map_some, Option.map_eq_some_iff] at hbare
  obtain ⟨entry', hclass', hsame⟩ := hbare
  refine ⟨entry', hclass', ?_⟩
  have hflag : entry'.bare.readOnly = entry.bare.readOnly := by rw [hsame]
  rw [← hwritable]
  exact hflag

theorem writable_of_compile {className source category : String} {side : Side}
    (h : image.compile className side source category = .ok (image', m)) :
    image.Writable className := by
  unfold compile at h
  split at h
  · simp at h
  · obtain ⟨entry, hwritable, -⟩ := bind_eq_ok.1 h
    exact ⟨entry, writableClass_eq_ok hwritable⟩

theorem writable_of_delete (h : image.delete m = .ok image') : image.Writable m.className := by
  obtain ⟨entry, hwritable, -⟩ := bind_eq_ok.1 h
  exact ⟨entry, writableClass_eq_ok hwritable⟩

theorem exists_delete_of_writable (h : image.Writable m.className)
    (hm : (image.method? m).isSome = true) : ∃ image', image.delete m = .ok image' := by
  obtain ⟨entry, hclass, hwritable⟩ := h
  have hcontains : (entry.methods m.side).contains m.selector = true := by
    simpa [method?, hclass, Dictionary.contains] using hm
  exact ⟨image.withMethods m.className entry m.side ((entry.methods m.side).erase m.selector), by
    simp [delete, Writable.writableClass hclass hwritable, hcontains, bind, Except.bind, pure,
      Except.pure]⟩

/-! ## Classes that cannot -/

theorem class?_compile {className source category : String} {side : Side}
    (h : image.compile className side source category = .ok (image', m)) {name : String}
    (hname : name ≠ className) : image'.class? name = image.class? name := by
  unfold compile at h
  split at h
  · simp at h
  · obtain ⟨entry, -, h⟩ := bind_eq_ok.1 h
    obtain ⟨rfl, -⟩ := by simpa only [pure, Except.pure, Except.ok.injEq, Prod.mk.injEq] using h
    rw [class?_withMethods, if_neg hname]

theorem class?_delete (h : image.delete m = .ok image') {name : String}
    (hname : name ≠ m.className) : image'.class? name = image.class? name := by
  obtain ⟨entry, -, h⟩ := bind_eq_ok.1 h
  split at h
  · obtain rfl := by simpa only [pure, Except.pure, Except.ok.injEq] using h
    rw [class?_withMethods, if_neg hname]
  · simp [throw, throwThe, MonadExceptOf.throw] at h

theorem Writable.ne {name readOnly : String} {entry : ClassEntry} (h : image.Writable name)
    (hclass : image.class? readOnly = some entry) (hreadOnly : entry.readOnly = true) :
    readOnly ≠ name := by
  rintro rfl
  obtain ⟨entry', hclass', hwritable⟩ := h
  obtain rfl : entry = entry' := Option.some.inj (hclass.symm.trans hclass')
  rw [hreadOnly] at hwritable
  simp at hwritable

/-- No write changes a read-only class. -/
theorem class?_perform_of_readOnly {name : String} {entry : ClassEntry}
    (hclass : image.class? name = some entry) (hreadOnly : entry.readOnly = true)
    (writes : List Write) : (image.perform writes).1.class? name = some entry := by
  refine perform_preserves (P := fun image => image.class? name = some entry) ?_ ?_ hclass writes
  · intro image image' className source category side m hclass hc
    rw [class?_compile hc ((writable_of_compile hc).ne hclass hreadOnly), hclass]
  · intro image image' m hclass hd
    rw [class?_delete hd ((writable_of_delete hd).ne hclass hreadOnly), hclass]

/-! ## Rows of writes -/

/-- Writes that fail stop at one that the image refuses. -/
theorem perform_eq_error {e : ImageError} (h : image.perform writes = (image', .error e)) :
    ∃ done write rest effects, writes = done ++ write :: rest ∧
      image.perform done = (image', .ok effects) ∧ (image'.perform [write]).2 = .error e := by
  induction writes generalizing image with
  | nil => simp [perform] at h
  | cons write writes ih =>
    cases write with
    | compile className side source category =>
      cases hc : image.compile className side source category with
      | error e' =>
        simp only [perform, hc, Prod.mk.injEq, Except.error.injEq] at h
        obtain ⟨rfl, rfl⟩ := h
        exact ⟨[], _, writes, _, rfl, rfl, by simp [perform, hc]⟩
      | ok r =>
        obtain ⟨image₁, m⟩ := r
        cases hp : image₁.perform writes with
        | mk image₂ result =>
          simp only [perform, hc, hp, Prod.mk.injEq] at h
          cases result with
          | ok effects => simp [Except.map] at h
          | error e' =>
            obtain ⟨rfl, he⟩ := h
            obtain rfl : e' = e := by simpa [Except.map] using he
            obtain ⟨done, write, rest, effects, rfl, hdone, hrefused⟩ := ih hp
            exact ⟨_ :: done, write, rest, _, rfl, by simp [perform, hc, hdone, Except.map]; rfl,
              hrefused⟩
    | delete m =>
      cases hd : image.delete m with
      | error e' =>
        simp only [perform, hd, Prod.mk.injEq, Except.error.injEq] at h
        obtain ⟨rfl, rfl⟩ := h
        exact ⟨[], _, writes, _, rfl, rfl, by simp [perform, hd]⟩
      | ok image₁ =>
        cases hp : image₁.perform writes with
        | mk image₂ result =>
          simp only [perform, hd, hp, Prod.mk.injEq] at h
          cases result with
          | ok effects => simp [Except.map] at h
          | error e' =>
            obtain ⟨rfl, he⟩ := h
            obtain rfl : e' = e := by simpa [Except.map] using he
            obtain ⟨done, write, rest, effects, rfl, hdone, hrefused⟩ := ih hp
            exact ⟨_ :: done, write, rest, _, rfl, by simp [perform, hd, hdone, Except.map]; rfl,
              hrefused⟩

/-- A method that is not deleted stays, and so do the classes that can be written to. -/
theorem kept_of_perform (h : image.perform writes = (image', .ok effects)) :
    (∀ n, .delete n ∉ writes → (image.method? n).isSome = true → (image'.method? n).isSome = true) ∧
      (∀ name, image.Writable name → image'.Writable name) ∧
      ∀ className side source category, .compile className side source category ∈ writes →
        image'.Writable className := by
  induction writes generalizing image effects with
  | nil =>
    simp only [perform, Prod.mk.injEq] at h
    obtain ⟨rfl, -⟩ := h
    simp
  | cons write writes ih =>
    cases write with
    | compile className side source category =>
      obtain ⟨image₁, m, effects', hc, hp, -⟩ := perform_compile h
      obtain ⟨-, -, -, hupdated⟩ := compile_eq_ok hc
      obtain ⟨hmethods, hwritable, hcompiled⟩ := ih hp
      refine ⟨fun n hn hsome => hmethods n (fun hmem => hn (List.mem_cons_of_mem _ hmem)) ?_,
        fun name hname => hwritable name (hname.updated hupdated), ?_⟩
      · rw [hupdated.method?]
        split
        · rfl
        · exact hsome
      · intro className' side' source' category' hmem
        rcases List.mem_cons.1 hmem with heq | hmem
        · obtain rfl : className' = className := by simpa using (Write.compile.inj heq).1
          exact hwritable className' ((writable_of_compile hc).updated hupdated)
        · exact hcompiled _ _ _ _ hmem
    | delete m =>
      obtain ⟨image₁, effects', hd, hp, -⟩ := perform_delete h
      obtain ⟨-, hupdated⟩ := delete_eq_ok hd
      obtain ⟨hmethods, hwritable, hcompiled⟩ := ih hp
      refine ⟨fun n hn hsome => hmethods n (fun hmem => hn (List.mem_cons_of_mem _ hmem)) ?_,
        fun name hname => hwritable name (hname.updated hupdated), ?_⟩
      · have hne : n ≠ m := by
          rintro rfl
          exact hn List.mem_cons_self
        rw [hupdated.method?, if_neg hne]
        exact hsome
      · intro className' side' source' category' hmem
        rcases List.mem_cons.1 hmem with heq | hmem
        · simp at heq
        · exact hcompiled _ _ _ _ hmem

/-! ## Implementors -/

theorem nodup_keys {α : Type} (d : Dictionary α) : d.entries.Pairwise fun a b => a.1 ≠ b.1 := by
  refine d.sorted.imp fun {a b} hlt heq => ?_
  rw [heq] at hlt
  exact String.lt_irrefl _ hlt

/-- No two methods of an image have the same reference. -/
theorem pairwise_methods (image : Image) : image.methods.Pairwise fun a b => a.1 ≠ b.1 := by
  rw [methods, List.pairwise_flatMap]
  constructor
  · intro c _
    rw [List.pairwise_flatMap]
    constructor
    · intro side _
      rw [List.pairwise_map]
      refine (nodup_keys _).imp fun hne heq => hne ?_
      exact congrArg MethodRef.selector heq
    · refine List.pairwise_pair.2 fun a ha b hb heq => ?_
      obtain ⟨_, _, rfl⟩ := List.mem_map.1 ha
      obtain ⟨_, _, rfl⟩ := List.mem_map.1 hb
      simp at heq
  · refine (nodup_keys _).imp fun {c d} hne a ha b hb heq => hne ?_
    obtain ⟨side, -, ha⟩ := List.mem_flatMap.1 ha
    obtain ⟨side', -, hb⟩ := List.mem_flatMap.1 hb
    obtain ⟨_, _, rfl⟩ := List.mem_map.1 ha
    obtain ⟨_, _, rfl⟩ := List.mem_map.1 hb
    exact congrArg MethodRef.className heq

theorem nodup_implementors (image : Image) (selector : String) :
    (image.implementors selector).Nodup := by
  rw [implementors, List.Nodup, List.pairwise_map]
  exact image.pairwise_methods.filter _

end Image

/-! ## Plans -/

/-- The writes compile first and delete last. If they delete more than one method, then these are
different methods of the image, and something is compiled into the class of each. -/
structure Orderly (image : Image) (compiles : List Write) (deleted : List MethodRef) : Prop where
  compiled : ∀ write ∈ compiles, write.isCompile = true
  deletable : deleted.length ≤ 1 ∨ deleted.Nodup ∧ ∀ m ∈ deleted,
    (image.method? m).isSome = true ∧
      ∃ source category, Write.compile m.className m.side source category ∈ compiles

namespace Orderly

variable {image image' : Image} {compiles : List Write} {deleted : List MethodRef}
  {effects : Effects}

theorem not_delete_mem (h : Orderly image compiles deleted) (m : MethodRef) :
    .delete m ∉ compiles := fun hmem => by
  simpa [Write.isCompile] using h.compiled _ hmem

/-- Once one method is deleted, all the others can be. -/
theorem delete_succeeds {first m : MethodRef} {before after : List MethodRef}
    (h : Orderly image compiles (first :: before ++ m :: after))
    (hp : image.perform (compiles ++ (first :: before).map .delete) = (image', .ok effects)) :
    ∃ image₁, image'.delete m = .ok image₁ := by
  rcases h.deletable with hone | ⟨hnodup, hall⟩
  · simp at hone
  · obtain ⟨hsome, source, category, hmem⟩ := hall m (by simp)
    obtain ⟨hmethods, -, hcompiled⟩ := Image.kept_of_perform hp
    refine Image.exists_delete_of_writable
      (hcompiled _ _ _ _ (List.mem_append_left _ hmem)) (hmethods m ?_ hsome)
    intro hdelete
    rcases List.mem_append.1 hdelete with hdelete | hdelete
    · exact h.not_delete_mem m hdelete
    · obtain ⟨n, hn, heq⟩ := List.mem_map.1 hdelete
      obtain rfl : n = m := Write.delete.inj heq
      exact (List.nodup_append.1 hnodup).2.2 n hn n List.mem_cons_self rfl

/-- Orderly writes that fail have deleted nothing. -/
theorem stopped {e : ImageError} (h : Orderly image compiles deleted)
    (hp : image.perform (compiles ++ deleted.map .delete) = (image', .error e)) :
    ∃ done effects, done <+: compiles ∧ image.perform done = (image', .ok effects) := by
  obtain ⟨done, write, rest, effects, heq, hdone, hrefused⟩ := Image.perform_eq_error hp
  rcases List.append_eq_append_iff.1 heq with ⟨deleted', rfl, heq'⟩ | ⟨compiles', rfl, -⟩
  · -- The writes that were made are all compiles and perhaps some deletions.
    obtain ⟨before, after, rfl, rfl, hrest⟩ := List.map_eq_append_iff.1 heq'
    obtain ⟨m, after', rfl, rfl, rfl⟩ := List.map_eq_cons_iff.1 hrest
    cases before with
    | nil => exact ⟨compiles, effects, List.prefix_rfl, by simpa using hdone⟩
    | cons first before =>
      obtain ⟨image₁, hdelete⟩ := h.delete_succeeds hdone
      simp [Image.perform, hdelete, Except.map] at hrefused
  · exact ⟨done, effects, List.prefix_append .., hdone⟩

end Orderly

namespace Refactoring

variable {session : Session} {settings : Settings} {request : Request} {plan : Plan}

theorem isCompile_of_mem_writes {revisions : List MethodRevision} :
    ∀ write ∈ revisions.map (·.write), write.isCompile = true := by
  intro write hwrite
  obtain ⟨rev, -, rfl⟩ := List.mem_map.1 hwrite
  rfl

/-- Every plan compiles first and deletes last. -/
theorem orderly_of_preview (h : preview session settings request = .ok plan) :
    ∃ compiles deleted, plan.writes = compiles ++ deleted.map .delete ∧
      Orderly session.image compiles deleted := by
  cases request with
  | renameSelector r =>
    obtain ⟨p, hp, rfl⟩ := map_eq_ok.1 h
    have hplanned := RenameSelector.plan_eq_ok hp
    refine ⟨(p.implementors ++ p.senders).map (·.write), p.implementors.map (·.method), ?_,
      isCompile_of_mem_writes, .inr ⟨?_, fun m hm => ?_⟩⟩
    · simp only [Plan.writes, RenameSelector.Plan.writes, List.map_map]
      rfl
    · rw [hplanned.methods]
      exact session.image.nodup_implementors _
    · have himplementor := hm
      rw [hplanned.methods] at himplementor
      obtain ⟨-, e, he⟩ := Image.mem_implementors.1 himplementor
      obtain ⟨rev, hrev, rfl⟩ := List.mem_map.1 hm
      exact ⟨by rw [he]; rfl, rev.newSource, rev.category,
        List.mem_map.2 ⟨rev, List.mem_append_left _ hrev, rfl⟩⟩
  | renameMethod r =>
    obtain ⟨p, hp, rfl⟩ := map_eq_ok.1 h
    exact ⟨(p.revision :: p.sameScopeSenders).map (·.write), [p.method], rfl,
      isCompile_of_mem_writes, .inl (Nat.le_refl _)⟩
  | moveMethod r =>
    obtain ⟨p, hp, rfl⟩ := map_eq_ok.1 h
    refine ⟨[.compile p.target.className p.target.side p.sourceText p.category],
      if p.keepSource then [] else [p.source], ?_, by simp [Write.isCompile], .inl ?_⟩
    · simp only [Plan.writes, MoveMethod.Plan.writes]
      cases p.keepSource <;> rfl
    · cases p.keepSource <;> simp
  | addParameter r =>
    obtain ⟨p, hp, rfl⟩ := map_eq_ok.1 h
    exact ⟨p.writes, [], (List.append_nil _).symm,
      by simp [AddParameter.Plan.writes, forwarderWrites, Write.isCompile], .inl (Nat.zero_le _)⟩
  | removeParameter r =>
    obtain ⟨p, hp, rfl⟩ := map_eq_ok.1 h
    exact ⟨p.writes, [], (List.append_nil _).symm,
      by simp [RemoveParameter.Plan.writes, forwarderWrites, Write.isCompile],
      .inl (Nat.zero_le _)⟩
  | extractMethod r =>
    obtain ⟨p, hp, rfl⟩ := map_eq_ok.1 h
    exact ⟨p.writes, [], (List.append_nil _).symm,
      by simp [ExtractMethod.Plan.writes, Write.isCompile], .inl (Nat.zero_le _)⟩
  | inlineMethod r =>
    obtain ⟨p, hp, rfl⟩ := map_eq_ok.1 h
    exact ⟨p.writes, [], (List.append_nil _).symm,
      by simp [InlineMethod.Plan.writes, Write.isCompile], .inl (Nat.zero_le _)⟩

/-- A refactoring that fails was not planned, or its plan was given up at some write. -/
theorem apply_eq_error {image' : Image} {failure : Failure}
    (h : apply session settings request = (image', .error failure)) :
    preview session settings request = .error failure ∧ image' = session.image ∨
      ∃ plan e, preview session settings request = .ok plan ∧
        session.image.perform plan.writes = (image', .error e) := by
  rw [apply] at h
  cases hpreview : preview session settings request with
  | error failure' =>
    simp only [hpreview, Prod.mk.injEq, Except.error.injEq] at h
    exact .inl ⟨by rw [h.2], h.1.symm⟩
  | ok plan =>
    cases hperform : session.image.perform plan.writes with
    | mk image₁ result =>
      simp only [hpreview, hperform] at h
      cases result with
      | ok effects => simp at h
      | error e =>
        obtain ⟨rfl, -⟩ := Prod.mk.inj h
        exact .inr ⟨plan, e, rfl, hperform⟩

theorem image_apply (session : Session) (settings : Settings) (request : Request) :
    ∃ writes, (apply session settings request).1 = (session.image.perform writes).1 := by
  rw [apply]
  cases preview session settings request with
  | error failure => exact ⟨[], rfl⟩
  | ok plan =>
    refine ⟨plan.writes, ?_⟩
    cases hperform : session.image.perform plan.writes with
    | mk image₁ result => cases result <;> simp only [hperform]

/-- A refactoring that fails has made some of the compiles of its plan and nothing else, so every
method is still there. No refactoring changes a class that is read-only. -/
theorem failed_apply_keeps_methods (session : Session) (settings : Settings) (request : Request) :
    (∀ image' failure, apply session settings request = (image', .error failure) →
      (∃ done effects, session.image.perform done = (image', .ok effects) ∧
        (∀ write ∈ done, write.isCompile = true) ∧
        (preview session settings request = .error failure ∧ done = [] ∨
          ∃ plan, preview session settings request = .ok plan ∧ done <+: plan.writes)) ∧
      ∀ m, (session.image.method? m).isSome = true → (image'.method? m).isSome = true) ∧
    ∀ name entry, session.image.class? name = some entry → entry.readOnly = true →
      (apply session settings request).1.class? name = some entry := by
  refine ⟨fun image' failure h => ?_, fun name entry hclass hreadOnly => ?_⟩
  · obtain ⟨hpreview, rfl⟩ | ⟨plan, e, hpreview, hperform⟩ := apply_eq_error h
    · exact ⟨⟨[], _, rfl, by simp, .inl ⟨hpreview, rfl⟩⟩, fun _ => id⟩
    · obtain ⟨compiles, deleted, hwrites, horderly⟩ := orderly_of_preview hpreview
      rw [hwrites] at hperform
      obtain ⟨done, effects, hfront, hdone⟩ := horderly.stopped hperform
      have hcompiles : ∀ write ∈ done, write.isCompile = true := fun write hwrite =>
        horderly.compiled write (hfront.subset hwrite)
      refine ⟨⟨done, effects, hdone, hcompiles, .inr ⟨plan, hpreview, ?_⟩⟩, fun m hm => ?_⟩
      · rw [hwrites]
        exact hfront.trans (List.prefix_append ..)
      · refine (Image.kept_of_perform hdone).1 m (fun hdelete => ?_) hm
        simpa [Write.isCompile] using hcompiles _ hdelete
  · obtain ⟨writes, himage⟩ := image_apply session settings request
    rw [himage]
    exact Image.class?_perform_of_readOnly hclass hreadOnly writes

/-- The methods of a class that is read-only, one of which sends `value`. -/
def frozenReport : ClassEntry :=
  { ClassEntry.blank with
    readOnly := true
    instanceMethods := Dictionary.empty.insert "total" ⟨"total\n^counter value", "accessing"⟩ }

/-- The small image with a sender in a class that is read-only. -/
def frozenImage : Image := ⟨Image.counter.classes.insert "Report" frozenReport⟩

/-- It arises: the class is made read-only when it has its method. -/
theorem reachable_frozenImage : frozenImage.Reachable := by
  have hsteps : frozenImage = ((Image.counter.defineClass "Report" none "").perform
      [.compile "Report" .instanceSide "total\n^counter value" "accessing"]).1.setReadOnly
        "Report" true := by decide +kernel
  rw [hsteps]
  exact ((Image.reachable_counter.defineClass _ _ _).perform _).setReadOnly _ _

/-- Renaming `value` in it fails when the implementor is compiled. -/
theorem frozenImage_stops :
    ∃ image' failure,
      apply ⟨frozenImage, []⟩ .standard (.renameSelector ⟨"value", "amount", false⟩) =
        (image', .error failure) ∧
      (image'.method? ⟨"Counter", .instanceSide, "amount"⟩).isSome = true := by
  have hfailed : (apply ⟨frozenImage, []⟩ .standard
      (.renameSelector ⟨"value", "amount", false⟩)).2.toBool = false := by decide +kernel
  have hcompiled : ((apply ⟨frozenImage, []⟩ .standard
      (.renameSelector ⟨"value", "amount", false⟩)).1.method?
        ⟨"Counter", .instanceSide, "amount"⟩).isSome = true := by decide +kernel
  cases happly : apply ⟨frozenImage, []⟩ .standard (.renameSelector ⟨"value", "amount", false⟩) with
  | mk image' result =>
    rw [happly] at hfailed hcompiled
    cases result with
    | ok applied => simp [Except.toBool] at hfailed
    | error failure => exact ⟨image', failure, rfl, hcompiled⟩

/-- A run goes on from a refactoring that stopped half-way and left another image behind. -/
theorem reachable_interrupted :
    ∃ image' failure, apply ⟨frozenImage, []⟩ .standard (.renameSelector ⟨"value", "amount", false⟩) =
      (image', .error failure) ∧ image' ≠ frozenImage ∧ image'.Reachable := by
  obtain ⟨image', failure, happly, hcompiled⟩ := frozenImage_stops
  have hreachable := Image.Reachable.apply ⟨frozenImage, []⟩ .standard
    (.renameSelector ⟨"value", "amount", false⟩) reachable_frozenImage
  rw [happly] at hreachable
  refine ⟨image', failure, happly, fun heq => ?_, hreachable⟩
  have habsent : frozenImage.method? ⟨"Counter", .instanceSide, "amount"⟩ = none := by
    decide +kernel
  rw [heq, habsent] at hcompiled
  exact Bool.false_ne_true hcompiled

/-- Renaming `value` stops at the sender that is read-only, when the implementor and the other sender
are compiled and nothing is deleted. -/
theorem failed_apply_keeps_methods_frozen :
    ∃ image' failure,
      apply ⟨frozenImage, []⟩ .standard (.renameSelector ⟨"value", "amount", false⟩) =
        (image', .error failure) ∧
      (image'.method? ⟨"Counter", .instanceSide, "amount"⟩).isSome = true ∧
      (image'.method? ⟨"Counter", .instanceSide, "value"⟩).isSome = true ∧
      image'.class? "Report" = some frozenReport := by
  obtain ⟨image', failure, happly, hcompiled⟩ := frozenImage_stops
  obtain ⟨hkept, hreadOnly⟩ := failed_apply_keeps_methods ⟨frozenImage, []⟩ .standard
    (.renameSelector ⟨"value", "amount", false⟩)
  have hreport := hreadOnly "Report" frozenReport (by decide +kernel) rfl
  rw [happly] at hreport
  exact ⟨image', failure, happly, hcompiled, (hkept image' failure happly).2 _ (by decide +kernel),
    hreport⟩

end Refactoring

end MethodBrowser
