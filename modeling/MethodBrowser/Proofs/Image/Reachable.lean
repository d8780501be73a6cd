import MethodBrowser.Proofs.Image.Changes
import MethodBrowser.Proofs.Image.Questions
import MethodBrowser.Refactoring

/-!
# Images that arise

The images that arise from the empty one by defining classes, making them read-only, compiling and
deleting methods and carrying refactorings out, successfully or not (`Image.Reachable`). In each of
them every method is stored under the selector that its header spells (`Image.Reachable.spelled`).
-/

namespace MethodBrowser.Image

variable {image image' : Image} {m : MethodRef}

/-- Every method is stored under the selector that its header spells. -/
def Spelled (image : Image) : Prop :=
  ∀ m e, image.method? m = some e → StoredMethod.Spelled (m, e)

/-- A method is there and is stored under the selector that its header spells. -/
def Filed (image : Image) (m : MethodRef) : Prop :=
  ∃ e, image.method? m = some e ∧ StoredMethod.Spelled (m, e)

theorem filed_iff {source : String} (h : ∃ e, image.method? m = some e ∧ e.source = source) :
    image.Filed m ↔
      ∃ header, Header.ofText? source = some header ∧ header.selector = m.selector := by
  obtain ⟨e, he, rfl⟩ := h
  constructor
  · rintro ⟨e', he', hspelled⟩
    obtain rfl : e = e' := Option.some.inj (he.symm.trans he')
    exact hspelled
  · exact fun hspelled => ⟨e, he, hspelled⟩

instance (image : Image) (m : MethodRef) : Decidable (image.Filed m) :=
  decidable_of_iff ((image.method? m).any fun e =>
      (Header.ofText? e.source).any (·.selector == m.selector)) <| by
    simp [Filed, StoredMethod.Spelled, Option.any_eq_true]

theorem Spelled.filed (h : image.Spelled) (he : ∃ e, image.method? m = some e) :
    image.Filed m := by
  obtain ⟨e, he⟩ := he
  exact ⟨e, he, h m e he⟩

inductive Reachable : Image → Prop
  | empty : Reachable .empty
  | defineClass {image : Image} (name : String) (superclass : Option String) (package : String) :
      Reachable image → Reachable (image.defineClass name superclass package)
  | setReadOnly {image : Image} (name : String) (readOnly : Bool) :
      Reachable image → Reachable (image.setReadOnly name readOnly)
  | compile {image image' : Image} {className source category : String} {side : Side}
      {m : MethodRef} :
      Reachable image → image.compile className side source category = .ok (image', m) →
      Reachable image'
  | delete {image image' : Image} {m : MethodRef} :
      Reachable image → image.delete m = .ok image' → Reachable image'
  /-- Also a refactoring that fails may have changed the image. -/
  | apply (session : Session) (settings : Settings) (request : Refactoring.Request) :
      Reachable session.image → Reachable (Refactoring.apply session settings request).1

/-! ## One change -/

theorem spelled_empty : Spelled .empty := by
  intro m e h
  simp [method?, class?, empty, Dictionary.get?_empty] at h

/-- A class that is replaced by one with its methods. -/
theorem method?_insert {name : String} {entry : ClassEntry}
    (h : ∀ side, entry.methods side = ((image.class? name).getD .blank).methods side)
    (m : MethodRef) : Image.method? ⟨image.classes.insert name entry⟩ m = image.method? m := by
  simp only [method?, class?, Dictionary.get?_insert]
  split
  · next hname =>
    subst hname
    rw [Option.bind_some, h m.side, class?]
    obtain ⟨className, side, selector⟩ := m
    cases image.classes.get? className with
    | none => cases side <;> rfl
    | some entry => rfl
  · rfl

theorem method?_defineClass (image : Image) (name : String) (superclass : Option String)
    (package : String) (m : MethodRef) :
    (image.defineClass name superclass package).method? m = image.method? m :=
  method?_insert (fun side => by cases side <;> rfl) m

theorem method?_setReadOnly (image : Image) (name : String) (readOnly : Bool) (m : MethodRef) :
    (image.setReadOnly name readOnly).method? m = image.method? m := by
  cases hclass : image.class? name with
  | none => rw [setReadOnly, hclass]
  | some entry =>
    rw [setReadOnly, hclass]
    refine method?_insert (fun side => ?_) m
    rw [hclass]
    cases side <;> rfl

theorem Spelled.congr (h : image.Spelled) (hsame : ∀ m, image'.method? m = image.method? m) :
    image'.Spelled := by
  intro m e hm
  rw [hsame m] at hm
  exact h m e hm

theorem Spelled.defineClass (h : image.Spelled) (name : String) (superclass : Option String)
    (package : String) : (image.defineClass name superclass package).Spelled :=
  h.congr (method?_defineClass image name superclass package)

theorem Spelled.setReadOnly (h : image.Spelled) (name : String) (readOnly : Bool) :
    (image.setReadOnly name readOnly).Spelled :=
  h.congr (method?_setReadOnly image name readOnly)

/-- A change to one method keeps the others. -/
theorem Spelled.updated {e : Option MethodEntry} (h : image.Spelled)
    (hupdated : Updated image image' m e)
    (he : ∀ entry, e = some entry → StoredMethod.Spelled (m, entry)) : image'.Spelled := by
  intro n entry hn
  rw [hupdated.method?] at hn
  split at hn
  · next hkey =>
    subst hkey
    exact he entry hn
  · exact h n entry hn

theorem Spelled.compile {className source category : String} {side : Side} (h : image.Spelled)
    (hc : image.compile className side source category = .ok (image', m)) : image'.Spelled := by
  obtain ⟨header, hheader, rfl, hupdated⟩ := compile_eq_ok hc
  refine h.updated hupdated fun entry hentry => ?_
  obtain rfl := Option.some.inj hentry
  exact ⟨header, hheader, rfl⟩

theorem Spelled.delete (h : image.Spelled) (hd : image.delete m = .ok image') : image'.Spelled :=
  h.updated (delete_eq_ok hd).2 fun _ hentry => by simp at hentry

/-! ## Runs -/

/-- What compiling and deleting preserve holds wherever writes stop. -/
theorem perform_preserves {P : Image → Prop}
    (hcompile : ∀ {image image' : Image} {className source category : String} {side : Side}
      {m : MethodRef}, P image → image.compile className side source category = .ok (image', m) →
      P image')
    (hdelete : ∀ {image image' : Image} {m : MethodRef}, P image → image.delete m = .ok image' →
      P image')
    (h : P image) (writes : List Write) : P (image.perform writes).1 := by
  induction writes generalizing image with
  | nil => exact h
  | cons write writes ih =>
    cases write with
    | compile className side source category =>
      rw [Image.perform]
      cases hc : image.compile className side source category with
      | error e => exact h
      | ok r => exact ih (hcompile h hc)
    | delete m =>
      rw [Image.perform]
      cases hd : image.delete m with
      | error e => exact h
      | ok image₁ => exact ih (hdelete h hd)

theorem Spelled.perform (h : image.Spelled) (writes : List Write) :
    (image.perform writes).1.Spelled :=
  perform_preserves Spelled.compile Spelled.delete h writes

theorem Spelled.apply {session : Session} (h : session.image.Spelled) (settings : Settings)
    (request : Refactoring.Request) : (Refactoring.apply session settings request).1.Spelled := by
  rw [Refactoring.apply]
  cases Refactoring.preview session settings request with
  | error failure => exact h
  | ok plan =>
    have hperform := h.perform plan.writes
    cases hp : session.image.perform plan.writes with
    | mk image' result =>
      rw [hp] at hperform
      cases result <;> simpa only [hp] using hperform

/-- In an image that arises, every method is stored under the selector that its header spells. -/
theorem Reachable.spelled (h : Reachable image) : image.Spelled := by
  induction h with
  | empty => exact spelled_empty
  | defineClass name superclass package _ ih => exact ih.defineClass name superclass package
  | setReadOnly name readOnly _ ih => exact ih.setReadOnly name readOnly
  | compile _ hc ih => exact ih.compile hc
  | delete _ hd ih => exact ih.delete hd
  | apply session settings request _ ih => exact ih.apply settings request

theorem Reachable.perform (h : Reachable image) (writes : List Write) :
    (image.perform writes).1.Reachable :=
  perform_preserves Reachable.compile Reachable.delete h writes

/-! ## A small image -/

/-- A class with a method and a second one that sends it. -/
def counter : Image :=
  ((empty.defineClass "Counter" (some "Object") "Kernel").perform
    [.compile "Counter" .instanceSide "value\n^count" "accessing",
      .compile "Counter" .instanceSide "current\n^self value" "accessing"]).1

theorem reachable_counter : counter.Reachable :=
  (Reachable.empty.defineClass _ _ _).perform _

end MethodBrowser.Image
