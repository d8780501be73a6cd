import Mathlib.Data.Finset.Card
import Mathlib.Logic.Relation
import MethodBrowser.Proofs.Image.Questions

/-!
# Who inherits from whom

An image may hold any superclass links: a superclass need not be a class of the image, and links may
lead round in a circle. The image is asked whether one class inherits from another, and answers
after following no more links than it has classes and one (`Image.chainMeets`). It answers rightly
(`Image.inheritsFrom_decides`), and it refuses to answer only if the links go on for ever without
leading to the class that is asked for.

**The chain** (`Image.ancestor?`). A class has one superclass at most, so what is reached from it is
one sequence of names. The sequence ends at a name without superclass.

**Why the bound is right.** Every name of the chain but the last is that of a class. A chain that is
longer than the number of classes comes to some class twice (`Image.exists_repeat`), and from there
on it repeats itself. So all its names stand at its beginning (`Image.exists_early`): a name that is
not met there is not met at all, and the chain does not end.
-/

namespace MethodBrowser.Image

variable {image : Image} {name ancestor : String}

/-! ## Superclasses -/

/-- The superclass of a class. A name that is not in the image has none. -/
def superclass? (image : Image) (name : String) : Option String :=
  (image.class? name).bind (·.superclass)

/-- One link. -/
def Extends (image : Image) (sub super : String) : Prop := image.superclass? sub = some super

/-- One or more links lead from a class to another one. -/
def Inherits (image : Image) (sub ancestor : String) : Prop :=
  Relation.TransGen image.Extends sub ancestor

/-- The links lead from a class to a name without superclass. -/
def ChainEnds (image : Image) (name : String) : Prop :=
  ∃ last, Relation.ReflTransGen image.Extends name last ∧ image.superclass? last = none

/-! ## The chain as a sequence -/

/-- The name that so many links lead to. -/
def ancestor? (image : Image) (name : String) : Nat → Option String
  | 0 => some name
  | k + 1 => (ancestor? image name k).bind image.superclass?

@[simp] theorem ancestor?_zero : image.ancestor? name 0 = some name := rfl

theorem ancestor?_succ (k : Nat) :
    image.ancestor? name (k + 1) = (image.ancestor? name k).bind image.superclass? := rfl

/-- Nothing comes after the end of a chain. -/
theorem ancestor?_of_le {i k : Nat} (hik : i ≤ k) (h : image.ancestor? name i = none) :
    image.ancestor? name k = none := by
  induction k, hik using Nat.le_induction with
  | base => exact h
  | succ k _ ih => rw [ancestor?_succ, ih]; rfl

theorem reaches_iff {last : String} :
    Relation.ReflTransGen image.Extends name last ↔ ∃ k, image.ancestor? name k = some last := by
  constructor
  · intro h
    induction h with
    | refl => exact ⟨0, rfl⟩
    | tail _ hlink ih =>
      obtain ⟨k, hk⟩ := ih
      exact ⟨k + 1, by rw [ancestor?_succ, hk]; exact hlink⟩
  · rintro ⟨k, hk⟩
    induction k generalizing last with
    | zero =>
      obtain rfl : name = last := by simpa [ancestor?] using hk
      exact .refl
    | succ k ih =>
      obtain ⟨sub, hsub, hlink⟩ := Option.bind_eq_some_iff.1 hk
      exact (ih hsub).tail hlink

theorem inherits_iff :
    image.Inherits name ancestor ↔ ∃ k, image.ancestor? name (k + 1) = some ancestor := by
  rw [Inherits, Relation.TransGen.tail'_iff]
  constructor
  · rintro ⟨sub, hreaches, hlink⟩
    obtain ⟨k, hk⟩ := reaches_iff.1 hreaches
    exact ⟨k, by rw [ancestor?_succ, hk]; exact hlink⟩
  · rintro ⟨k, hk⟩
    obtain ⟨sub, hsub, hlink⟩ := Option.bind_eq_some_iff.1 hk
    exact ⟨sub, reaches_iff.2 ⟨k, hsub⟩, hlink⟩

theorem chainEnds_iff : image.ChainEnds name ↔ ∃ k, image.ancestor? name k = none := by
  constructor
  · rintro ⟨last, hreaches, hlast⟩
    obtain ⟨k, hk⟩ := reaches_iff.1 hreaches
    exact ⟨k + 1, by rw [ancestor?_succ, hk]; exact hlast⟩
  · rintro ⟨k, hk⟩
    induction k with
    | zero => simp [ancestor?] at hk
    | succ k ih =>
      cases hprev : image.ancestor? name k with
      | none => exact ih hprev
      | some last =>
        rw [ancestor?_succ, hprev] at hk
        exact ⟨last, reaches_iff.2 ⟨k, hprev⟩, hk⟩

/-! ## Chains that go on -/

/-- A name that a link leads on from is that of a class. -/
theorem mem_keys_of_superclass? {super : String} (h : image.superclass? name = some super) :
    name ∈ image.classes.keys := by
  obtain ⟨entry, hentry, -⟩ := Option.bind_eq_some_iff.1 h
  rw [Dictionary.mem_keys, show image.classes.get? name = some entry from hentry]
  rfl

/-- A chain with more links than there are classes comes to some name twice. -/
theorem exists_repeat (h : image.ancestor? name (image.classes.size + 1) ≠ none) :
    ∃ i j, i < j ∧ j ≤ image.classes.size ∧ image.ancestor? name i = image.ancestor? name j := by
  have hclass : ∀ k ∈ Finset.range (image.classes.size + 1),
      image.ancestor? name k ∈ (image.classes.keys.map some).toFinset := by
    intro k hk
    rw [Finset.mem_range] at hk
    have hnext : image.ancestor? name (k + 1) ≠ none := fun hend => h (ancestor?_of_le hk hend)
    obtain ⟨super, hsuper⟩ := Option.ne_none_iff_exists'.1 hnext
    obtain ⟨sub, hsub, hlink⟩ := Option.bind_eq_some_iff.1 hsuper
    rw [hsub, List.mem_toFinset]
    exact List.mem_map_of_mem (mem_keys_of_superclass? hlink)
  have hcard : (image.classes.keys.map some).toFinset.card <
      (Finset.range (image.classes.size + 1)).card := by
    have hle := (image.classes.keys.map some).toFinset_card_le
    rw [List.length_map, Dictionary.keys, List.length_map] at hle
    rw [Finset.card_range]
    exact Nat.lt_succ_of_le hle
  obtain ⟨i, hi, j, hj, hne, heq⟩ := Finset.exists_ne_map_eq_of_card_lt_of_maps_to hcard hclass
  rw [Finset.mem_range] at hi hj
  rcases Nat.lt_or_gt_of_ne hne with hlt | hgt
  · exact ⟨i, j, hlt, by omega, heq⟩
  · exact ⟨j, i, hgt, by omega, heq.symm⟩

/-- After a name that it has come to before, a chain goes on as it did then. -/
theorem ancestor?_add {i j : Nat} (h : image.ancestor? name i = image.ancestor? name j) (k : Nat) :
    image.ancestor? name (i + k) = image.ancestor? name (j + k) := by
  induction k with
  | zero => exact h
  | succ k ih => rw [← Nat.add_assoc, ← Nat.add_assoc, ancestor?_succ, ancestor?_succ, ih]

/-- All that such a chain comes to stands at its beginning, and what one or more links lead to is
reached by one or more of the first links. -/
theorem exists_early (h : image.ancestor? name (image.classes.size + 1) ≠ none) (k : Nat) :
    ∃ k' ≤ image.classes.size,
      image.ancestor? name k' = image.ancestor? name k ∧ (0 < k → 0 < k') := by
  obtain ⟨i, j, hij, hj, heq⟩ := exists_repeat h
  induction k using Nat.strongRecOn with
  | ind k ih =>
    by_cases hk : k ≤ image.classes.size
    · exact ⟨k, hk, rfl, id⟩
    · obtain ⟨k', hk', heq', hpos⟩ := ih (i + (k - j)) (by omega)
      refine ⟨k', hk', ?_, fun _ => hpos (by omega)⟩
      rw [heq', ancestor?_add heq, Nat.add_sub_cancel' (by omega)]

/-! ## The walk -/

/-- What a walk answers that starts at the `i`-th name of a chain. -/
theorem chainMeets_cases (image : Image) (name ancestor : String) (hops i : Nat) :
    (image.chainMeets ancestor hops (image.ancestor? name i) = some true ∧
      ∃ k, i ≤ k ∧ image.ancestor? name k = some ancestor) ∨
    (image.chainMeets ancestor hops (image.ancestor? name i) = some false ∧
      (∀ k, i ≤ k → image.ancestor? name k ≠ some ancestor) ∧
      ∃ k, image.ancestor? name k = none) ∨
    (image.chainMeets ancestor hops (image.ancestor? name i) = none ∧
      ∀ k, i ≤ k → k ≤ i + hops →
        image.ancestor? name k ≠ some ancestor ∧ image.ancestor? name k ≠ none) := by
  generalize hcurrent : image.ancestor? name i = current
  fun_induction image.chainMeets ancestor hops current generalizing i with
  | case1 hops =>
    refine .inr (.inl ⟨rfl, fun k hk => ?_, i, hcurrent⟩)
    rw [ancestor?_of_le hk hcurrent]
    exact (Option.some_ne_none _).symm
  | case2 | case4 => exact .inl ⟨rfl, i, le_rfl, hcurrent⟩
  | case3 current hne =>
    refine .inr (.inr ⟨rfl, fun k hk hk' => ?_⟩)
    obtain rfl : k = i := le_antisymm hk' hk
    rw [hcurrent]
    exact ⟨fun heq => hne (Option.some.inj heq), Option.some_ne_none _⟩
  | case5 hops current hne ih =>
    have hhere : image.ancestor? name i ≠ some ancestor := by
      rw [hcurrent]
      exact fun heq => hne (Option.some.inj heq)
    have hnext : image.ancestor? name (i + 1) = image.superclass? current := by
      rw [ancestor?_succ, hcurrent]
      rfl
    rcases ih (i + 1) hnext with
      ⟨hanswer, k, hk, hmet⟩ | ⟨hanswer, hnever, hend⟩ | ⟨hanswer, hnever⟩
    · exact .inl ⟨hanswer, k, Nat.le_of_succ_le hk, hmet⟩
    · refine .inr (.inl ⟨hanswer, fun k hk => ?_, hend⟩)
      rcases Nat.eq_or_lt_of_le hk with rfl | hlt
      · exact hhere
      · exact hnever k hlt
    · refine .inr (.inr ⟨hanswer, fun k hk hk' => ?_⟩)
      rcases Nat.eq_or_lt_of_le hk with rfl | hlt
      · exact ⟨hhere, by rw [hcurrent]; exact Option.some_ne_none _⟩
      · exact hnever k hlt (by omega)

/-- The image walks from the superclass of the class, and a walk without an answer is an error. -/
theorem inheritsFrom_eq {entry : ClassEntry} (h : image.class? name = some entry)
    (ancestor : String) :
    image.inheritsFrom name ancestor =
      (image.chainMeets ancestor image.classes.size (image.ancestor? name 1)).elim
        (.error (.cyclicSuperclasses name)) .ok := by
  have hfirst : image.ancestor? name 1 = entry.superclass := by
    rw [ancestor?_succ, ancestor?_zero, Option.bind_some, superclass?, h]
    rfl
  rw [inheritsFrom, findClass, h, hfirst]
  change Except.bind _ _ = _
  rw [Except.bind]
  cases image.chainMeets ancestor image.classes.size entry.superclass <;> rfl

/-- For a class of the image and any name whatever, the image answers that the class inherits from
the name if links lead to it; that it does not, if the links end without leading to it; and that the
superclasses are cyclic, if the links neither lead to it nor end. -/
theorem inheritsFrom_decides {image : Image} {className : String} {entry : ClassEntry}
    (h : image.class? className = some entry) (ancestor : String) :
    (image.inheritsFrom className ancestor = .ok true ↔ image.Inherits className ancestor) ∧
    (image.inheritsFrom className ancestor = .ok false ↔
      ¬ image.Inherits className ancestor ∧ image.ChainEnds className) ∧
    (image.inheritsFrom className ancestor = .error (.cyclicSuperclasses className) ↔
      ¬ image.Inherits className ancestor ∧ ¬ image.ChainEnds className) := by
  rw [inheritsFrom_eq h, inherits_iff, chainEnds_iff]
  rcases chainMeets_cases image className ancestor image.classes.size 1 with
    ⟨hanswer, k, hk, hmet⟩ | ⟨hanswer, hnever, hend⟩ | ⟨hanswer, hnever⟩
  · have hinherits : ∃ k, image.ancestor? className (k + 1) = some ancestor :=
      ⟨k - 1, by rw [Nat.sub_add_cancel hk]; exact hmet⟩
    simp [hanswer, hinherits]
  · have hnot : ¬ ∃ k, image.ancestor? className (k + 1) = some ancestor := by
      rintro ⟨k, hmet⟩
      exact hnever (k + 1) (Nat.le_add_left 1 k) hmet
    simp only [hanswer, hnot, hend]
    simp
  · -- The names that the walk has seen are all names of the chain.
    have hlong : image.ancestor? className (image.classes.size + 1) ≠ none :=
      (hnever _ (Nat.le_add_left 1 _) (by omega)).2
    have hnot : ¬ ∃ k, image.ancestor? className (k + 1) = some ancestor := by
      rintro ⟨k, hmet⟩
      obtain ⟨k', hk', heq, hpos⟩ := exists_early hlong (k + 1)
      exact (hnever k' (hpos (Nat.succ_pos k)) (by omega)).1 (heq.trans hmet)
    have hgoesOn : ¬ ∃ k, image.ancestor? className k = none := by
      rintro ⟨k, hend⟩
      obtain ⟨k', hk', heq, -⟩ := exists_early hlong k
      exact hlong (ancestor?_of_le (by omega) (heq.trans hend))
    simp [hanswer, hnot, hgoesOn]

/-- Two classes are each other's superclass, one more leads to them, and one leads out of the
image. -/
def entangled : Image :=
  (((empty.defineClass "Leaf" (some "Left") "Kernel").defineClass "Left" (some "Right") "Kernel"
    ).defineClass "Right" (some "Left") "Kernel").defineClass "Stray" (some "Gone") "Kernel"

theorem inheritsFrom_decides_entangled :
    (entangled.class? "Leaf").isSome ∧ (entangled.class? "Left").isSome ∧
    (entangled.class? "Stray").isSome ∧
    entangled.Inherits "Left" "Left" ∧ entangled.Inherits "Stray" "Gone" ∧
    (¬ entangled.Inherits "Stray" "Stray" ∧ entangled.ChainEnds "Stray") ∧
    (¬ entangled.Inherits "Leaf" "Leaf" ∧ ¬ entangled.ChainEnds "Leaf") := by
  have hleaf : entangled.class? "Leaf" =
      some { ClassEntry.blank with superclass := some "Left", package := "Kernel" } := rfl
  have hleft : entangled.class? "Left" =
      some { ClassEntry.blank with superclass := some "Right", package := "Kernel" } := rfl
  have hstray : entangled.class? "Stray" =
      some { ClassEntry.blank with superclass := some "Gone", package := "Kernel" } := rfl
  refine ⟨rfl, rfl, rfl, ?_, ?_, ?_, ?_⟩
  · exact (inheritsFrom_decides hleft "Left").1.1 rfl
  · exact (inheritsFrom_decides hstray "Gone").1.1 rfl
  · exact (inheritsFrom_decides hstray "Stray").2.1.1 rfl
  · exact (inheritsFrom_decides hleaf "Leaf").2.2.1 rfl

end MethodBrowser.Image
