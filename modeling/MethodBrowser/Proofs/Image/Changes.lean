import MethodBrowser.Plan.Basic
import MethodBrowser.Proofs.Dictionary

/-!
# What a change does to an image

Compiling and deleting change one method and nothing else (`Image.Updated`). From that follows what
a row of writes does (`Image.perform_eq_ok`): the last write to a method counts, all other methods
stay, and so does what a class is apart from its methods.
-/

namespace MethodBrowser

/-- A class without its methods. -/
def ClassEntry.bare (c : ClassEntry) : ClassEntry :=
  { c with instanceMethods := .empty, classMethods := .empty }

namespace ClassEntry

@[simp]
theorem methods_withMethods (c : ClassEntry) (side : Side) (methods : Dictionary MethodEntry)
    (side' : Side) :
    (c.withMethods side methods).methods side' =
      if side' = side then methods else c.methods side' := by
  cases side <;> cases side' <;> rfl

@[simp]
theorem bare_withMethods (c : ClassEntry) (side : Side) (methods : Dictionary MethodEntry) :
    (c.withMethods side methods).bare = c.bare := by
  cases side <;> rfl

end ClassEntry

namespace Image

variable {image image' : Image} {m : MethodRef}

/-! ## One change -/

/-- The images differ in what is stored under `m`, which is `e` in the second one, if anything. -/
structure Updated (image image' : Image) (m : MethodRef) (e : Option MethodEntry) : Prop where
  method? : ∀ n, image'.method? n = if n = m then e else image.method? n
  bare : ∀ name, (image'.class? name).map ClassEntry.bare = (image.class? name).map ClassEntry.bare

theorem class?_withMethods (image : Image) (name : String) (entry : ClassEntry) (side : Side)
    (methods : Dictionary MethodEntry) (n : String) :
    (image.withMethods name entry side methods).class? n =
      if n = name then some (entry.withMethods side methods) else image.class? n :=
  Dictionary.get?_insert ..

theorem updated_withMethods {entry : ClassEntry} {methods : Dictionary MethodEntry}
    {e : Option MethodEntry} (hclass : image.class? m.className = some entry)
    (hmethods : ∀ k, methods.get? k =
      if k = m.selector then e else (entry.methods m.side).get? k) :
    Updated image (image.withMethods m.className entry m.side methods) m e := by
  constructor
  · intro n
    obtain ⟨className, side, selector⟩ := m
    obtain ⟨className', side', selector'⟩ := n
    simp only [method?, class?_withMethods, MethodRef.mk.injEq] at hclass hmethods ⊢
    by_cases hname : className' = className
    · subst hname
      by_cases hside : side' = side
      · subst hside
        simp [hclass, hmethods]
      · simp [hclass, hside]
    · simp [hname]
  · intro name
    rw [class?_withMethods]
    split
    · next hname =>
      subst hname
      simp [hclass]
    · rfl

theorem writableClass_eq_ok {name : String} {entry : ClassEntry}
    (h : image.writableClass name = .ok entry) :
    image.class? name = some entry ∧ entry.readOnly = false := by
  unfold writableClass findClass at h
  cases hclass : image.class? name with
  | none => simp [hclass, bind, Except.bind] at h
  | some found =>
    simp only [hclass, bind, Except.bind] at h
    split at h
    · simp [throw, throwThe, MonadExceptOf.throw] at h
    · next hwritable =>
      obtain rfl : found = entry := by simpa [pure, Except.pure] using h
      exact ⟨rfl, by simpa using hwritable⟩

/-- Compiling stores a method under the selector of its header. -/
theorem compile_eq_ok {className source category : String} {side : Side}
    (h : image.compile className side source category = .ok (image', m)) :
    ∃ header, Header.ofText? source = some header ∧ m = ⟨className, side, header.selector⟩ ∧
      Updated image image' m (some ⟨source, category⟩) := by
  unfold compile at h
  split at h
  · simp at h
  · next header hheader =>
    refine ⟨header, hheader, ?_⟩
    cases hwritable : image.writableClass className with
    | error e => simp [hwritable, bind, Except.bind] at h
    | ok entry =>
      simp only [hwritable, bind, Except.bind, pure, Except.pure, Except.ok.injEq,
        Prod.mk.injEq] at h
      obtain ⟨rfl, rfl⟩ := h
      obtain ⟨hclass, -⟩ := writableClass_eq_ok hwritable
      exact ⟨rfl, updated_withMethods (m := ⟨className, side, header.selector⟩) hclass fun k =>
        Dictionary.get?_insert ..⟩

/-- Deleting removes a method. -/
theorem delete_eq_ok (h : image.delete m = .ok image') :
    (image.method? m).isSome = true ∧ Updated image image' m none := by
  unfold delete at h
  cases hwritable : image.writableClass m.className with
  | error e => simp [hwritable, bind, Except.bind] at h
  | ok entry =>
    obtain ⟨hclass, -⟩ := writableClass_eq_ok hwritable
    simp only [hwritable, bind, Except.bind] at h
    split at h
    · next hcontains =>
      obtain rfl := by simpa only [pure, Except.pure, Except.ok.injEq] using h
      refine ⟨by simpa [method?, hclass, Dictionary.contains] using hcontains, ?_⟩
      exact updated_withMethods hclass fun k => Dictionary.get?_erase ..
    · simp [throw, throwThe, MonadExceptOf.throw] at h

/-! ## Rows of changes -/

theorem perform_compile {className source category : String} {side : Side} {writes : List Write}
    {effects : Effects}
    (h : image.perform (.compile className side source category :: writes) =
      (image', .ok effects)) :
    ∃ image₁ m effects', image.compile className side source category = .ok (image₁, m) ∧
      image₁.perform writes = (image', .ok effects') ∧
      effects = { effects' with compiled := m :: effects'.compiled } := by
  rw [perform] at h
  cases hc : image.compile className side source category with
  | error e => simp [hc] at h
  | ok r =>
    obtain ⟨image₁, m⟩ := r
    cases hp : image₁.perform writes with
    | mk image₂ result =>
      simp only [hc, hp] at h
      cases result with
      | error e => simp [Except.map] at h
      | ok effects' =>
        obtain ⟨rfl, heffects⟩ := Prod.mk.inj h
        exact ⟨image₁, m, effects', rfl, hp, (Except.ok.inj heffects).symm⟩

theorem perform_delete {writes : List Write} {effects : Effects}
    (h : image.perform (.delete m :: writes) = (image', .ok effects)) :
    ∃ image₁ effects', image.delete m = .ok image₁ ∧
      image₁.perform writes = (image', .ok effects') ∧
      effects = { effects' with deleted := m :: effects'.deleted } := by
  rw [perform] at h
  cases hd : image.delete m with
  | error e => simp [hd] at h
  | ok image₁ =>
    cases hp : image₁.perform writes with
    | mk image₂ result =>
      simp only [hd, hp] at h
      cases result with
      | error e => simp [Except.map] at h
      | ok effects' =>
        obtain ⟨rfl, heffects⟩ := Prod.mk.inj h
        exact ⟨image₁, effects', rfl, hp, (Except.ok.inj heffects).symm⟩

end Image

/-- A method with what is stored under it. -/
abbrev StoredMethod := MethodRef × MethodEntry

namespace StoredMethod

/-- The write that stores a method. -/
def write (p : StoredMethod) : Write :=
  .compile p.1.className p.1.side p.2.source p.2.category

/-- The header of the source spells the selector that it is stored under. -/
def Spelled (p : StoredMethod) : Prop :=
  ∃ header, Header.ofText? p.2.source = some header ∧ header.selector = p.1.selector

/-- What is stored under `n` after the methods of a list, where `before` was. -/
def last (stored : List StoredMethod) (n : MethodRef) (before : Option MethodEntry) :
    Option MethodEntry :=
  stored.foldl (fun e p => if n = p.1 then some p.2 else e) before

theorem last_append (stored stored' : List StoredMethod) (n : MethodRef)
    (before : Option MethodEntry) :
    last (stored ++ stored') n before = last stored' n (last stored n before) :=
  List.foldl_append

theorem last_of_forall_ne {stored : List StoredMethod} {n : MethodRef}
    (h : ∀ p ∈ stored, p.1 ≠ n) (before : Option MethodEntry) : last stored n before = before := by
  induction stored generalizing before with
  | nil => rfl
  | cons p stored ih =>
    rw [List.forall_mem_cons] at h
    rw [last, List.foldl_cons, if_neg (Ne.symm h.1)]
    exact ih h.2 before

/-- If all that is stored under `n` is the same, then that is stored in the end. -/
theorem last_of_mem {stored : List StoredMethod} {p : StoredMethod} (hp : p ∈ stored)
    (hall : ∀ q ∈ stored, q.1 = p.1 → q.2 = p.2) (before : Option MethodEntry) :
    last stored p.1 before = some p.2 := by
  induction stored generalizing before with
  | nil => simp at hp
  | cons q stored ih =>
    rw [List.forall_mem_cons] at hall
    rw [last, List.foldl_cons]
    by_cases hmem : p ∈ stored
    · exact ih hmem hall.2 _
    · obtain rfl : p = q := by
        rcases List.mem_cons.1 hp with h | h
        · exact h
        · exact absurd h hmem
      rw [if_pos rfl]
      by_cases hother : ∃ q ∈ stored, q.1 = p.1
      · obtain ⟨q, hq, hkey⟩ := hother
        have hsame : q = p := Prod.ext hkey (hall.2 q hq hkey)
        exact absurd (hsame ▸ hq) hmem
      · exact last_of_forall_ne (fun q hq hkey => hother ⟨q, hq, hkey⟩) _

end StoredMethod

namespace Image

variable {image image' : Image}

/-- Storing methods and then deleting some. The last method that is stored under a reference stays,
unless it is deleted. -/
theorem perform_eq_ok {stored : List StoredMethod} {deleted : List MethodRef} {effects : Effects}
    (hstored : ∀ p ∈ stored, StoredMethod.Spelled p)
    (h : image.perform (stored.map StoredMethod.write ++ deleted.map .delete) =
      (image', .ok effects)) :
    effects = ⟨stored.map Prod.fst, deleted⟩ ∧
      (∀ n, image'.method? n =
        if n ∈ deleted then none else StoredMethod.last stored n (image.method? n)) ∧
      ∀ name, (image'.class? name).map ClassEntry.bare =
        (image.class? name).map ClassEntry.bare := by
  induction stored generalizing image effects with
  | nil =>
    induction deleted generalizing image effects with
    | nil =>
      simp only [List.map_nil, List.append_nil, perform, Prod.mk.injEq, Except.ok.injEq] at h
      obtain ⟨rfl, rfl⟩ := h
      simp [StoredMethod.last]
    | cons m deleted ih =>
      obtain ⟨image₁, effects', hd, hp, rfl⟩ := perform_delete h
      obtain ⟨-, hupdated⟩ := delete_eq_ok hd
      obtain ⟨rfl, hmethods, hbare⟩ := ih hp
      refine ⟨rfl, fun n => ?_, fun name => (hbare name).trans (hupdated.bare name)⟩
      rw [hmethods, hupdated.method?]
      by_cases hn : n = m
      · simp [hn, StoredMethod.last]
      · simp [hn, StoredMethod.last]
  | cons p stored ih =>
    rw [List.forall_mem_cons] at hstored
    obtain ⟨image₁, m, effects', hc, hp, rfl⟩ := perform_compile h
    obtain ⟨header, hheader, hm, hupdated⟩ := compile_eq_ok hc
    obtain ⟨header', hheader', hselector⟩ := hstored.1
    obtain rfl : header = header' := Option.some.inj (hheader.symm.trans hheader')
    obtain rfl : m = p.1 := by rw [hm, hselector]
    obtain ⟨rfl, hmethods, hbare⟩ := ih hstored.2 hp
    refine ⟨rfl, fun n => ?_, fun name => (hbare name).trans (hupdated.bare name)⟩
    rw [hmethods, hupdated.method?]
    rfl

end Image

end MethodBrowser
