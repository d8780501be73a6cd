import MethodBrowser.Plan.Basic
import MethodBrowser.Proofs.Dictionary

/-!
# What an image answers

All answers of an image about methods come down to `Image.method?`: the list of all methods
(`Image.mem_methods`), who implements and who sends a selector (`Image.mem_implementors`,
`Image.mem_senders`), and the questions that plans ask through a session.
-/

namespace MethodBrowser

/-! ## Answers that may be failures -/

theorem bind_eq_ok {ε α β : Type} {x : Except ε α} {f : α → Except ε β} {b : β} :
    (x >>= f) = .ok b ↔ ∃ a, x = .ok a ∧ f a = .ok b := by
  cases x with
  | error e => simp [bind, Except.bind]
  | ok a => simp [bind, Except.bind]

theorem exists_bind_eq_ok {ε α β : Type} {x : Except ε α} {f : α → Except ε β} {a : α} (hx : x = .ok a)
    (h : ∃ b, f a = .ok b) : ∃ b, (x >>= f) = .ok b := by
  subst hx
  exact h

theorem mapError_eq_ok {ε ε' α : Type} {f : ε → ε'} {x : Except ε α} {a : α} :
    x.mapError f = .ok a ↔ x = .ok a := by
  cases x with
  | error e =>
    change (.error (f e) : Except ε' α) = .ok a ↔ _
    simp
  | ok b =>
    change (.ok b : Except ε' α) = .ok a ↔ _
    simp

theorem map_eq_ok {ε α β : Type} {f : α → β} {x : Except ε α} {b : β} :
    x.map f = .ok b ↔ ∃ a, x = .ok a ∧ f a = b := by
  cases x <;> simp [Except.map]

theorem exists_eq_ok {σ ε α : Type} {x : σ × Except ε α} (h : x.2.toBool = true) :
    ∃ s a, x = (s, .ok a) := by
  obtain ⟨s, result⟩ := x
  cases result with
  | error e => simp [Except.toBool] at h
  | ok a => exact ⟨s, a, rfl⟩

theorem require_eq_ok {condition : Bool} {cause : Precondition} {u : Unit} :
    require condition cause = .ok u ↔ condition = true := by
  cases condition <;> simp [require]

namespace Image

variable {image : Image} {m : MethodRef} {e : MethodEntry} {selector : String}

/-! ## Methods -/

/-- The methods of an image are what it stores. -/
theorem mem_methods : (m, e) ∈ image.methods ↔ image.method? m = some e := by
  obtain ⟨className, side, selector⟩ := m
  simp only [methods, method?, List.mem_flatMap, List.mem_map, Option.bind_eq_some_iff]
  constructor
  · rintro ⟨⟨name, entry⟩, hclass, side', -, ⟨selector', e'⟩, hmethod, heq⟩
    obtain ⟨⟨rfl, rfl, rfl⟩, rfl⟩ := by simpa only [Prod.mk.injEq, MethodRef.mk.injEq] using heq
    exact ⟨entry, Dictionary.mem_entries.1 hclass, Dictionary.mem_entries.1 hmethod⟩
  · rintro ⟨entry, hclass, hmethod⟩
    refine ⟨(className, entry), Dictionary.mem_entries.2 hclass, side, ?_, (selector, e),
      Dictionary.mem_entries.2 hmethod, rfl⟩
    cases side <;> simp

theorem mem_implementors :
    m ∈ image.implementors selector ↔
      m.selector = selector ∧ ∃ e, image.method? m = some e := by
  simp only [implementors, List.mem_map, List.mem_filter, beq_iff_eq]
  constructor
  · rintro ⟨⟨m, e⟩, ⟨hmem, hselector⟩, rfl⟩
    exact ⟨hselector, e, mem_methods.1 hmem⟩
  · rintro ⟨hselector, e, hmethod⟩
    exact ⟨(m, e), ⟨mem_methods.2 hmethod, hselector⟩, rfl⟩

theorem mem_senders :
    m ∈ image.senders selector ↔
      ∃ e, image.method? m = some e ∧ (Source.ofText e.source).sendsSelector selector = true := by
  simp only [senders, List.mem_map, List.mem_filter]
  constructor
  · rintro ⟨⟨m, e⟩, ⟨hmem, hsends⟩, rfl⟩
    exact ⟨e, mem_methods.1 hmem, hsends⟩
  · rintro ⟨e, hmethod, hsends⟩
    exact ⟨(m, e), ⟨mem_methods.2 hmethod, hsends⟩, rfl⟩

theorem findMethod_eq_ok : image.findMethod m = .ok e ↔ image.method? m = some e := by
  simp only [findMethod, findClass, method?]
  cases hclass : image.class? m.className with
  | none => simp [bind, Except.bind]
  | some entry =>
    simp only [bind, Except.bind, Option.bind_some]
    cases (entry.methods m.side).get? m.selector <;> simp

theorem sourceOf_eq_ok {source : String} :
    image.sourceOf m = .ok source ↔ ∃ e, image.method? m = some e ∧ e.source = source := by
  simp only [sourceOf, bind_eq_ok, findMethod_eq_ok, pure, Except.pure, Except.ok.injEq]

theorem implements_eq_ok {className : String} {side : Side} {answer : Bool}
    (h : image.implements className side selector = .ok answer) :
    answer = (image.method? ⟨className, side, selector⟩).isSome := by
  simp only [implements, selectors, findClass] at h
  cases hclass : image.class? className with
  | none => simp [hclass, bind, Except.bind] at h
  | some entry =>
    simp only [hclass, bind, Except.bind, pure, Except.pure, Except.ok.injEq] at h
    rw [← h, Bool.eq_iff_iff, List.contains_iff_mem, Dictionary.mem_keys]
    simp [method?, hclass]

end Image

/-! ## Sessions -/

namespace Session

variable {session : Session} {m : MethodRef} {selector : String}

theorem ask_eq_ok {α : Type} {answer : Except ImageError α} {a : α} :
    ask answer = .ok a ↔ answer = .ok a :=
  mapError_eq_ok

theorem sourceOf_eq_ok {source : String} :
    session.sourceOf m = .ok source ↔
      ∃ e, session.image.method? m = some e ∧ e.source = source := by
  rw [sourceOf, ask_eq_ok, Image.sourceOf_eq_ok]

theorem implements_eq_ok {className : String} {side : Side} {answer : Bool}
    (h : session.implements className side selector = .ok answer) :
    answer = (session.image.method? ⟨className, side, selector⟩).isSome :=
  Image.implements_eq_ok (ask_eq_ok.1 h)

/-- Of a class that has some method the image can tell that it lacks another one. -/
theorem implements_of_method? {className other : String} {side : Side} {e : MethodEntry}
    (h : session.image.method? ⟨className, side, selector⟩ = some e)
    (hfree : session.image.method? ⟨className, side, other⟩ = none) :
    session.implements className side other = .ok false := by
  obtain ⟨answer, hanswer⟩ : ∃ answer, session.implements className side other = .ok answer := by
    cases hclass : session.image.class? className with
    | none => simp [Image.method?, hclass] at h
    | some entry =>
      simp only [implements, ask_eq_ok, Image.implements, Image.selectors, Image.findClass, hclass]
      exact ⟨_, rfl⟩
  rw [hanswer, implements_eq_ok hanswer, hfree]
  rfl

/-- A step of a plan that goes on with `next` only if a selector is free or may be overwritten. -/
theorem unlessTaken_eq_ok {α : Type} {className : String} {side : Side} {overwrite : Bool}
    {cause : Precondition} {next : Except Failure α} {a : α}
    (h : (if (!overwrite) = true then do
        let taken ← session.implements className side selector
        require (!taken) cause
        next
      else next) = .ok a) :
    next = .ok a ∧
      (overwrite = false → session.image.method? ⟨className, side, selector⟩ = none) := by
  cases overwrite with
  | true => exact ⟨h, by simp⟩
  | false =>
    simp only [Bool.not_false, if_true, bind_eq_ok, require_eq_ok] at h
    obtain ⟨taken, htaken, -, hfree, hnext⟩ := h
    rw [implements_eq_ok htaken] at hfree
    exact ⟨hnext, fun _ => by simpa using hfree⟩

theorem mem_insertSorted {n : MethodRef} {found : List MethodRef} (h : n ∈ found) :
    n ∈ m.insertSorted found := by
  induction found with
  | nil => simp at h
  | cons k found ih =>
    rw [MethodRef.insertSorted]
    split
    · exact List.mem_cons_of_mem _ h
    · exact h
    · rcases List.mem_cons.1 h with rfl | h
      · exact List.mem_cons_self
      · exact List.mem_cons_of_mem _ (ih h)

/-- All senders that the image finds are senders. -/
theorem mem_senders (h : m ∈ session.image.senders selector) : m ∈ session.senders selector := by
  rw [senders]
  generalize session.image.senders selector = found at h
  induction session.extraSenders generalizing found with
  | nil => exact h
  | cons extra extras ih => exact ih _ (mem_insertSorted h)

end Session

end MethodBrowser
