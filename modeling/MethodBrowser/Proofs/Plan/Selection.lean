import Mathlib.Data.List.Sort
import Mathlib.Order.Interval.Finset.Nat
import MethodBrowser.Plan.ExtractMethod

/-!
# What is said about a selection

The statements to extract are given by their numbers, in any order and each as often as one likes.
What is said about such a list depends on the set of its numbers alone, and it is one of four things
(`ExtractMethod.Judged`): nothing is selected, a number is that of no statement, there is a gap, or the
numbers are a row from a first to a last one (`ExtractMethod.selectionRange_judges`).

**Sorting.** Sorted numbers without repetitions are a strictly increasing list, and there is only one
such list with given members (`ExtractMethod.sortedIndices_congr`). Its head is the least number and its
last element the greatest.

**Counting.** Between the least and the greatest number lie just so many numbers as their distance and
one. A strictly increasing list of that length leaves none of them out
(`ExtractMethod.length_eq_iff`).
-/

namespace MethodBrowser.ExtractMethod

variable {indices others l : List Nat} {count first last a : Nat}

/-! ## Sorted numbers -/

/-- What is left of a sorted list that starts with `a` when repetitions are dropped. -/
theorem exists_eraseReps {as : List Nat} (acc : List Nat) (h : (a :: as).Pairwise (· ≤ ·)) :
    ∃ rest, List.eraseRepsBy.loop (· == ·) a as acc = acc.reverse ++ a :: rest ∧
      (a :: rest).Pairwise (· < ·) ∧ ∀ i, i ∈ a :: rest ↔ i ∈ a :: as := by
  induction as generalizing a acc with
  | nil => exact ⟨[], by simp [List.eraseRepsBy.loop], by simp, by simp⟩
  | cons b as ih =>
    obtain ⟨hfirst, hrest⟩ := List.pairwise_cons.1 h
    by_cases hab : a = b
    · subst hab
      obtain ⟨rest, hloop, hpairwise, hmem⟩ := ih acc hrest
      refine ⟨rest, by simpa [List.eraseRepsBy.loop] using hloop, hpairwise, fun i => ?_⟩
      rw [hmem i]
      simp
    · obtain ⟨rest, hloop, hpairwise, hmem⟩ := ih (a :: acc) hrest
      have hlt : a < b := Nat.lt_of_le_of_ne (hfirst b (by simp)) hab
      have hstep : List.eraseRepsBy.loop (· == ·) a (b :: as) acc =
          List.eraseRepsBy.loop (· == ·) b as (a :: acc) := by
        rw [List.eraseRepsBy.loop, beq_false_of_ne hab]
      refine ⟨b :: rest, by simpa using hstep.trans hloop, ?_, fun i => ?_⟩
      · refine List.pairwise_cons.2 ⟨fun i hi => ?_, hpairwise⟩
        rcases List.mem_cons.1 hi with rfl | hi
        · exact hlt
        · exact Nat.lt_trans hlt ((List.pairwise_cons.1 hpairwise).1 i hi)
      · rw [List.mem_cons, hmem i, ← List.mem_cons]

theorem sortedIndices_spec (indices : List Nat) :
    (sortedIndices indices).Pairwise (· < ·) ∧ ∀ i, i ∈ sortedIndices indices ↔ i ∈ indices := by
  have hsorted : (indices.mergeSort Nat.ble).Pairwise (· ≤ ·) := by
    refine (List.pairwise_mergeSort ?_ ?_ indices).imp fun {a b} hle => Nat.le_of_ble_eq_true hle
    · intro a b c hab hbc
      rw [Nat.ble_eq] at hab hbc ⊢
      exact Nat.le_trans hab hbc
    · intro a b
      rw [Bool.or_eq_true, Nat.ble_eq, Nat.ble_eq]
      exact Nat.le_total a b
  have hmem : ∀ i, i ∈ indices.mergeSort Nat.ble ↔ i ∈ indices := fun i => List.mem_mergeSort
  rw [sortedIndices]
  cases hcases : indices.mergeSort Nat.ble with
  | nil =>
    rw [hcases] at hmem
    exact ⟨List.Pairwise.nil, hmem⟩
  | cons a as =>
    rw [hcases] at hsorted hmem
    obtain ⟨rest, hloop, hpairwise, hrest⟩ := exists_eraseReps [] hsorted
    have heq : (a :: as).eraseReps = a :: rest := hloop
    rw [heq]
    exact ⟨hpairwise, fun i => (hrest i).trans (hmem i)⟩

theorem pairwise_sortedIndices (indices : List Nat) : (sortedIndices indices).Pairwise (· < ·) :=
  (sortedIndices_spec indices).1

theorem mem_sortedIndices {i : Nat} : i ∈ sortedIndices indices ↔ i ∈ indices :=
  (sortedIndices_spec indices).2 i

/-- Only the set of the numbers matters. -/
theorem sortedIndices_congr (h : ∀ i, i ∈ others ↔ i ∈ indices) :
    sortedIndices others = sortedIndices indices := by
  refine (pairwise_sortedIndices others).eq_of_mem_iff (pairwise_sortedIndices indices) fun i => ?_
  rw [mem_sortedIndices, mem_sortedIndices, h i]

/-! ## Increasing lists -/

theorem isLeast_head (h : l.Pairwise (· < ·)) (hfirst : l.head? = some first) :
    IsLeast {i | i ∈ l} first := by
  obtain ⟨rest, rfl⟩ := List.head?_eq_some_iff.1 hfirst
  refine ⟨by simp, fun i hi => ?_⟩
  rcases List.mem_cons.1 hi with rfl | hi
  · exact le_rfl
  · exact Nat.le_of_lt ((List.pairwise_cons.1 h).1 i hi)

theorem isGreatest_getLast (h : l.Pairwise (· < ·)) (hlast : l.getLast? = some last) :
    IsGreatest {i | i ∈ l} last := by
  obtain ⟨init, rfl⟩ := List.getLast?_eq_some_iff.1 hlast
  refine ⟨by simp, fun i hi => ?_⟩
  rcases List.mem_append.1 hi with hi | hi
  · exact Nat.le_of_lt ((List.pairwise_append.1 h).2.2 i hi last (by simp))
  · exact Nat.le_of_eq (List.mem_singleton.1 hi)

/-- The first number with a property is the least one that has it. -/
theorem isLeast_find {p : Nat → Bool} (h : l.Pairwise (· < ·)) (hfind : l.find? p = some a) :
    IsLeast {i | i ∈ l ∧ p i = true} a := by
  obtain ⟨ha, before, after, rfl, hbefore⟩ := List.find?_eq_some_iff_append.1 hfind
  refine ⟨⟨by simp, ha⟩, fun i hi => ?_⟩
  obtain ⟨hmem, hi⟩ := hi
  rcases List.mem_append.1 hmem with hmem | hmem
  · exact absurd hi (by simpa using hbefore i hmem)
  · have hafter := (List.pairwise_append.1 h).2.1
    rcases List.mem_cons.1 hmem with rfl | hmem
    · exact le_rfl
    · exact Nat.le_of_lt ((List.pairwise_cons.1 hafter).1 i hmem)

/-- An increasing list is as long as the row from its least to its greatest number if it leaves no
number of the row out. -/
theorem length_eq_iff (h : l.Pairwise (· < ·)) (hfirst : IsLeast {i | i ∈ l} first)
    (hlast : IsGreatest {i | i ∈ l} last) :
    l.length = last - first + 1 ↔ ∀ i, first ≤ i → i ≤ last → i ∈ l := by
  have hcard : l.toFinset.card = l.length :=
    List.toFinset_card_of_nodup (h.imp fun hlt => Nat.ne_of_lt hlt)
  have hle : first ≤ last := hfirst.2 hlast.1
  have hrow : (Finset.Icc first last).card = last - first + 1 := by
    rw [Nat.card_Icc]
    omega
  have hsub : l.toFinset ⊆ Finset.Icc first last := by
    intro i hi
    rw [List.mem_toFinset] at hi
    exact Finset.mem_Icc.2 ⟨hfirst.2 hi, hlast.2 hi⟩
  rw [← hcard, ← hrow]
  constructor
  · intro hsize i hi hi'
    have heq := Finset.eq_of_subset_of_card_le hsub (Nat.le_of_eq hsize.symm)
    rw [← List.mem_toFinset, heq]
    exact Finset.mem_Icc.2 ⟨hi, hi'⟩
  · intro hall
    congr 1
    refine Finset.Subset.antisymm hsub fun i hi => ?_
    rw [Finset.mem_Icc] at hi
    exact List.mem_toFinset.2 (hall i hi.1 hi.2)

/-! ## What is said -/

/-- What is to be said about some numbers where there are `count` statements. -/
inductive Judged (indices : List Nat) (count : Nat) : Except Precondition (Nat × Nat) → Prop
  /-- Nothing is selected. -/
  | empty : indices = [] → Judged indices count (.error .emptySelection)
  /-- The least number that is not one of a statement. -/
  | outOfRange {index : Nat} : IsLeast {i | i ∈ indices ∧ ¬(1 ≤ i ∧ i ≤ count)} index →
      Judged indices count (.error (.statementOutOfRange index count))
  /-- All are numbers of statements, and one between the least and the greatest is missing. -/
  | gap {first last : Nat} : (∀ i ∈ indices, 1 ≤ i ∧ i ≤ count) →
      IsLeast {i | i ∈ indices} first → IsGreatest {i | i ∈ indices} last →
      (∃ i, first ≤ i ∧ i ≤ last ∧ i ∉ indices) →
      Judged indices count (.error (.gapInSelection first last))
  /-- All are numbers of statements, and they are those from `first` to `last`. -/
  | row {first last : Nat} : indices ≠ [] → (∀ i ∈ indices, 1 ≤ i ∧ i ≤ count) →
      (∀ i, i ∈ indices ↔ first ≤ i ∧ i ≤ last) → Judged indices count (.ok (first, last))

theorem sortedIndices_eq_nil_iff : sortedIndices indices = [] ↔ indices = [] := by
  rw [List.eq_nil_iff_forall_not_mem, List.eq_nil_iff_forall_not_mem]
  exact forall_congr' fun i => not_congr mem_sortedIndices

/-- The check of a single number. -/
theorem outOfRange_iff {i : Nat} :
    (i == 0 || Nat.blt count i) = true ↔ ¬(1 ≤ i ∧ i ≤ count) := by
  rw [Bool.or_eq_true, beq_iff_eq, Nat.blt_eq]
  omega

theorem judged_selectionRange (indices : List Nat) (count : Nat) :
    Judged indices count (selectionRange indices count) := by
  have hsorted := pairwise_sortedIndices indices
  have hset : {i | i ∈ sortedIndices indices} = {i | i ∈ indices} :=
    Set.ext fun i => mem_sortedIndices
  simp only [selectionRange]
  split
  case h_2 hnone =>
    refine .empty (sortedIndices_eq_nil_iff.1 (Classical.byContradiction fun hne => ?_))
    exact hnone _ _ (List.head?_eq_some_head hne) (List.getLast?_eq_some_getLast hne)
  case h_1 first last hhead hgetLast =>
    have hfirst := isLeast_head hsorted hhead
    have hlast := isGreatest_getLast hsorted hgetLast
    cases hfind : (sortedIndices indices).find? fun i => i == 0 || Nat.blt count i with
    | some index =>
      have hleast := isLeast_find hsorted hfind
      simp only [mem_sortedIndices, outOfRange_iff] at hleast
      exact .outOfRange hleast
    | none =>
      have hrange : ∀ i ∈ indices, 1 ≤ i ∧ i ≤ count := fun i hi =>
        Classical.not_not.1 fun hout =>
          List.find?_eq_none.1 hfind i (mem_sortedIndices.2 hi) (outOfRange_iff.2 hout)
      have hlength := length_eq_iff hsorted hfirst hlast
      rw [hset] at hfirst hlast
      simp only [mem_sortedIndices] at hlength
      by_cases hrow : (sortedIndices indices).length = last - first + 1
      · rw [if_neg (not_not.2 hrow)]
        refine .row (List.ne_nil_of_mem hfirst.1) hrange fun i => ⟨fun hi => ?_, fun hi => ?_⟩
        · exact ⟨hfirst.2 hi, hlast.2 hi⟩
        · exact hlength.1 hrow i hi.1 hi.2
      · rw [if_pos hrow]
        refine .gap hrange hfirst hlast ?_
        rw [hlength] at hrow
        push Not at hrow
        exact hrow

/-- A row that is not empty goes from the least to the greatest number. -/
theorem bounds_of_row (hne : indices ≠ []) (hall : ∀ i, i ∈ indices ↔ first ≤ i ∧ i ≤ last) :
    IsLeast {i | i ∈ indices} first ∧ IsGreatest {i | i ∈ indices} last := by
  obtain ⟨k, hk⟩ := List.exists_mem_of_ne_nil _ hne
  have hle : first ≤ last := ((hall k).1 hk).1.trans ((hall k).1 hk).2
  refine ⟨⟨(hall first).2 ⟨le_rfl, hle⟩, fun i hi => ?_⟩, ⟨(hall last).2 ⟨hle, le_rfl⟩, fun i hi => ?_⟩⟩
  · exact ((hall i).1 hi).1
  · exact ((hall i).1 hi).2

/-- A selection that is accepted is a row of statements. -/
theorem selectionRange_bounds (h : selectionRange indices count = .ok (first, last)) :
    1 ≤ first ∧ first ≤ last ∧ last ≤ count := by
  have hjudged := judged_selectionRange indices count
  rw [h] at hjudged
  cases hjudged with
  | row hne hrange hall =>
    obtain ⟨hfirst, hlast⟩ := bounds_of_row hne hall
    exact ⟨(hrange _ hfirst.1).1, hfirst.2 hlast.1, (hrange _ hlast.1).2⟩

/-- Where a number of the row is missing, the numbers are no row. -/
theorem not_row_of_missing (hfirst : IsLeast {i | i ∈ indices} first)
    (hlast : IsGreatest {i | i ∈ indices} last) (hmissing : ∃ i, first ≤ i ∧ i ≤ last ∧ i ∉ indices)
    {first' last' : Nat} : ¬∀ i, i ∈ indices ↔ first' ≤ i ∧ i ≤ last' := by
  intro hall
  obtain ⟨i, hi, hi', hnot⟩ := hmissing
  obtain ⟨hfirst', hlast'⟩ := bounds_of_row (List.ne_nil_of_mem hfirst.1) hall
  rw [hfirst.unique hfirst'] at hi
  rw [hlast.unique hlast'] at hi'
  exact hnot ((hall i).2 ⟨hi, hi'⟩)

/-- Where all are numbers of statements, none is out of range. -/
theorem not_isLeast_of_inRange (hrange : ∀ i ∈ indices, 1 ≤ i ∧ i ≤ count) {index : Nat} :
    ¬IsLeast {i | i ∈ indices ∧ ¬(1 ≤ i ∧ i ≤ count)} index :=
  fun hindex => hindex.1.2 (hrange _ hindex.1.1)

/-- There is one thing to be said only. -/
theorem Judged.eq {v w : Except Precondition (Nat × Nat)} (hv : Judged indices count v)
    (hw : Judged indices count w) : v = w := by
  cases hv with
  | empty hnil =>
    cases hw with
    | empty => rfl
    | outOfRange hindex => exact absurd hindex.1.1 (by simp [hnil])
    | gap _ hfirst => exact absurd hfirst.1 (by simp [hnil])
    | row hne => exact absurd hnil hne
  | outOfRange hindex =>
    cases hw with
    | empty hnil => exact absurd hindex.1.1 (by simp [hnil])
    | outOfRange hindex' => rw [hindex.unique hindex']
    | gap hrange => exact absurd hindex (not_isLeast_of_inRange hrange)
    | row _ hrange => exact absurd hindex (not_isLeast_of_inRange hrange)
  | gap hrange hfirst hlast hmissing =>
    cases hw with
    | empty hnil => exact absurd hfirst.1 (by simp [hnil])
    | outOfRange hindex => exact absurd hindex (not_isLeast_of_inRange hrange)
    | gap _ hfirst' hlast' => rw [hfirst.unique hfirst', hlast.unique hlast']
    | row _ _ hall => exact absurd hall (not_row_of_missing hfirst hlast hmissing)
  | row hne hrange hall =>
    cases hw with
    | empty hnil => exact absurd hnil hne
    | outOfRange hindex => exact absurd hindex (not_isLeast_of_inRange hrange)
    | gap _ hfirst hlast hmissing => exact absurd hall (not_row_of_missing hfirst hlast hmissing)
    | row _ _ hall' =>
      obtain ⟨hfirst, hlast⟩ := bounds_of_row hne hall
      obtain ⟨hfirst', hlast'⟩ := bounds_of_row hne hall'
      rw [hfirst.unique hfirst', hlast.unique hlast']

/-- Only the set of the numbers matters. -/
theorem selectionRange_congr (h : ∀ i, i ∈ others ↔ i ∈ indices) (count : Nat) :
    selectionRange others count = selectionRange indices count := by
  rw [selectionRange, selectionRange, sortedIndices_congr h]

/-! ## The theorem -/

/-- The length of a row of numbers of 32 bits is worked out without leaving the 32 bits. -/
theorem rowLength_fits {first last : UInt32} (hfirst : 1 ≤ first.toNat) (hle : first.toNat ≤ last.toNat) :
    first ≤ last ∧ last.toNat - first.toNat + 1 < UInt32.size ∧
      (last - first + 1).toNat = last.toNat - first.toNat + 1 := by
  have hsize := last.toNat_lt
  have hfits : last.toNat - first.toNat + 1 < UInt32.size := by
    rw [UInt32.size]
    omega
  refine ⟨UInt32.le_iff_toNat_le.2 hle, hfits, ?_⟩
  rw [UInt32.toNat_add, UInt32.toNat_sub_of_le _ _ (UInt32.le_iff_toNat_le.2 hle)]
  exact Nat.mod_eq_of_lt hfits

/-- Of a list of numbers of 32 bits is said what is to be said of the set of its numbers. Where the
length of the row from the first to the last one is asked for, it can be worked out in 32 bits. -/
theorem selectionRange_judges (indices : List UInt32) (count : Nat) :
    let numbers := indices.map UInt32.toNat
    (∀ verdict, selectionRange numbers count = verdict ↔ Judged numbers count verdict) ∧
      (∀ others : List UInt32, (∀ i, i ∈ others ↔ i ∈ indices) →
        selectionRange (others.map UInt32.toNat) count = selectionRange numbers count) ∧
      ∀ first last : UInt32, (sortedIndices numbers).head? = some first.toNat →
        (sortedIndices numbers).getLast? = some last.toNat →
        ((sortedIndices numbers).find? fun i => i == 0 || Nat.blt count i) = none →
        first ≤ last ∧ last.toNat - first.toNat + 1 < UInt32.size ∧
          (last - first + 1).toNat = last.toNat - first.toNat + 1 := by
  intro numbers
  refine ⟨fun verdict => ⟨?_, fun h => (judged_selectionRange numbers count).eq h⟩, ?_, ?_⟩
  · rintro rfl
    exact judged_selectionRange numbers count
  · intro others h
    refine selectionRange_congr (fun i => ?_) count
    simp only [numbers, List.mem_map, h]
  · intro first last hhead hlast hfind
    have hsorted := pairwise_sortedIndices numbers
    have hleast := isLeast_head hsorted hhead
    have hgreatest := isGreatest_getLast hsorted hlast
    have hfirst : 1 ≤ first.toNat ∧ first.toNat ≤ count := Classical.not_not.1 fun hout =>
      List.find?_eq_none.1 hfind _ hleast.1 (outOfRange_iff.2 hout)
    exact rowLength_fits hfirst.1 (hleast.2 hgreatest.1)

end MethodBrowser.ExtractMethod
