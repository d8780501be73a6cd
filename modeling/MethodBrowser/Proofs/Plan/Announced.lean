import MethodBrowser.Proofs.Image.Changes
import MethodBrowser.Refactoring

/-!
# What plans announce

A plan names the methods that it will store, with their sources and categories
(`Refactoring.Plan.announced`), and the methods that it will delete (`Refactoring.Plan.dropped`).

**What announcing takes** (`Announces`). The writes of the plan store these methods and then delete
those. A write stores a source under the selector of its header, so every announced source has to
spell the selector that it is announced under.

**What makes the announcement true** (`Unambiguous`). No method is announced with two sources, and
none is both stored and deleted. Then the image holds afterwards what was announced and is the same
elsewhere (`Image.Rewritten`, `Announces.rewritten`).
-/

namespace MethodBrowser

/-! ## Announcements -/

/-- What a revision stores. -/
def MethodRevision.stored (r : MethodRevision) : StoredMethod :=
  (r.method, ⟨r.newSource, r.category⟩)

/-- What a revision stores under another selector. -/
def MethodRevision.storedAs (r : MethodRevision) (selector : String) : StoredMethod :=
  ({ r.method with selector := selector }, ⟨r.newSource, r.category⟩)

namespace RenameSelector.Plan

def announced (p : Plan) : List StoredMethod :=
  p.implementors.map (·.storedAs p.newSelector) ++ p.senders.map (·.stored)

def dropped (p : Plan) : List MethodRef := p.implementors.map (·.method)

def reworked (p : Plan) : List MethodRef := (p.implementors ++ p.senders).map (·.method)

end RenameSelector.Plan

namespace RenameMethod.Plan

def announced (p : Plan) : List StoredMethod :=
  (p.newMethod, ⟨p.revision.newSource, p.revision.category⟩) :: p.sameScopeSenders.map (·.stored)

def dropped (p : Plan) : List MethodRef := [p.method]

def reworked (p : Plan) : List MethodRef := (p.revision :: p.sameScopeSenders).map (·.method)

end RenameMethod.Plan

namespace MoveMethod.Plan

def announced (p : Plan) : List StoredMethod := [(p.target, ⟨p.sourceText, p.category⟩)]

def dropped (p : Plan) : List MethodRef := if p.keepSource then [] else [p.source]

end MoveMethod.Plan

def AddParameter.Plan.announced (p : AddParameter.Plan) : List StoredMethod :=
  [(p.newMethod, ⟨p.newSource, p.category⟩), (p.method, ⟨p.compatibilitySource, p.category⟩)]

def RemoveParameter.Plan.announced (p : RemoveParameter.Plan) : List StoredMethod :=
  [(p.newMethod, ⟨p.newSource, p.category⟩), (p.method, ⟨p.compatibilitySource, p.category⟩)]

def ExtractMethod.Plan.announced (p : ExtractMethod.Plan) : List StoredMethod :=
  [(p.newMethod, ⟨p.newMethodSource, p.category⟩), (p.method, ⟨p.revisedSource, p.category⟩)]

def InlineMethod.Plan.announced (p : InlineMethod.Plan) : List StoredMethod :=
  [(p.caller, ⟨p.newCallerSource, p.category⟩)]

namespace Refactoring.Plan

/-- The methods that a plan will store. -/
def announced : Plan → List StoredMethod
  | renameSelector p => p.announced
  | renameMethod p => p.announced
  | moveMethod p => p.announced
  | addParameter p => p.announced
  | removeParameter p => p.announced
  | extractMethod p => p.announced
  | inlineMethod p => p.announced

/-- The methods that a plan will delete. -/
def dropped : Plan → List MethodRef
  | renameSelector p => p.dropped
  | renameMethod p => p.dropped
  | moveMethod p => p.dropped
  | addParameter _ | removeParameter _ | extractMethod _ | inlineMethod _ => []

/-- The methods that are compiled anew from their stored sources, or deleted. -/
def reworked : Plan → List MethodRef
  | renameSelector p => p.reworked
  | renameMethod p => p.reworked
  | moveMethod p => [p.source]
  | addParameter p => [p.method]
  | removeParameter p => [p.method]
  | extractMethod p => [p.method]
  | inlineMethod p => [p.caller]

end Refactoring.Plan

/-! ## What follows from them -/

/-- The writes store the given methods and then delete the others. -/
structure Announces (writes : List Write) (stored : List StoredMethod) (deleted : List MethodRef) :
    Prop where
  writes_eq : writes = stored.map StoredMethod.write ++ deleted.map .delete
  spelled : ∀ p ∈ stored, StoredMethod.Spelled p

/-- Each method is stored in one way only, and not deleted. -/
structure Unambiguous (stored : List StoredMethod) (deleted : List MethodRef) : Prop where
  single : ∀ p ∈ stored, ∀ q ∈ stored, q.1 = p.1 → q.2 = p.2
  kept : ∀ p ∈ stored, p.1 ∉ deleted

/-- The second image holds the methods that were stored and none of the deleted ones, and is the
first image elsewhere. -/
structure Image.Rewritten (image image' : Image) (stored : List StoredMethod)
    (deleted : List MethodRef) : Prop where
  holds : ∀ p ∈ stored, image'.method? p.1 = some p.2
  absent : ∀ m ∈ deleted, image'.method? m = none
  others : ∀ m, m ∉ stored.map Prod.fst → m ∉ deleted → image'.method? m = image.method? m
  classes : ∀ name, (image'.class? name).map ClassEntry.bare =
    (image.class? name).map ClassEntry.bare

theorem Announces.rewritten {image image' : Image} {writes : List Write}
    {stored : List StoredMethod} {deleted : List MethodRef} {effects : Effects}
    (h : Announces writes stored deleted) (hone : Unambiguous stored deleted)
    (hp : image.perform writes = (image', .ok effects)) :
    effects = ⟨stored.map Prod.fst, deleted⟩ ∧ image.Rewritten image' stored deleted := by
  rw [h.writes_eq] at hp
  obtain ⟨heffects, hmethods, hclasses⟩ := Image.perform_eq_ok h.spelled hp
  refine ⟨heffects, fun p hp => ?_, fun m hm => ?_, fun m hm hm' => ?_, hclasses⟩
  · rw [hmethods, if_neg (hone.kept p hp), StoredMethod.last_of_mem hp (hone.single p hp)]
  · rw [hmethods, if_pos hm]
  · rw [hmethods, if_neg hm', StoredMethod.last_of_forall_ne fun p hp heq => hm ?_]
    rw [← heq]
    exact List.mem_map_of_mem hp

/-- A method of the second image was stored, or is one of the first image that was left alone. -/
theorem Image.Rewritten.mem_or_kept {image image' : Image} {stored : List StoredMethod}
    {deleted : List MethodRef} (h : image.Rewritten image' stored deleted) {m : MethodRef}
    {e : MethodEntry} (he : image'.method? m = some e) :
    (m, e) ∈ stored ∨ m ∉ stored.map Prod.fst ∧ m ∉ deleted ∧ image.method? m = some e := by
  have hdeleted : m ∉ deleted := by
    intro hm
    rw [h.absent m hm] at he
    simp at he
  by_cases hm : m ∈ stored.map Prod.fst
  · obtain ⟨q, hq, rfl⟩ := List.mem_map.1 hm
    obtain rfl : q.2 = e := Option.some.inj ((h.holds q hq).symm.trans he)
    exact .inl hq
  · exact .inr ⟨hm, hdeleted, (h.others m hm hdeleted).symm.trans he⟩

/-- A method that is not deleted stays, perhaps with another source. -/
theorem Image.Rewritten.exists_method {image image' : Image} {stored : List StoredMethod}
    {deleted : List MethodRef} (h : image.Rewritten image' stored deleted) {m : MethodRef}
    {e : MethodEntry} (he : image.method? m = some e) (hm : m ∉ deleted) :
    ∃ e', image'.method? m = some e' := by
  by_cases hstored : m ∈ stored.map Prod.fst
  · obtain ⟨q, hq, rfl⟩ := List.mem_map.1 hstored
    exact ⟨q.2, h.holds q hq⟩
  · exact ⟨e, by rw [h.others m hstored hm, he]⟩

theorem unambiguous_single (p : StoredMethod) {deleted : List MethodRef} (h : p.1 ∉ deleted) :
    Unambiguous [p] deleted := by
  constructor
  · intro q hq q' hq' _
    obtain rfl : q = p := by simpa using hq
    obtain rfl : q' = q := by simpa using hq'
    rfl
  · intro q hq
    obtain rfl : q = p := by simpa using hq
    exact h

theorem unambiguous_pair {p q : StoredMethod} (h : p.1 ≠ q.1) : Unambiguous [p, q] [] := by
  constructor
  · intro a ha b hb heq
    simp only [List.mem_cons, List.not_mem_nil, or_false] at ha hb
    rcases ha with rfl | rfl <;> rcases hb with rfl | rfl
    · rfl
    · exact absurd heq.symm h
    · exact absurd heq h
    · rfl
  · simp

end MethodBrowser
