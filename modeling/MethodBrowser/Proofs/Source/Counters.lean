import MethodBrowser.Proofs.Source.ExcerptRegion

/-!
# Counters fit

No more groups can be open than bytes have been read (`Source.depth_nestFrom_le`). So in a text of less
than `2 ^ 32` bytes the counters fit into 32 bits, wherever a scan starts and however far it gets
(`Source.counters_fit`).

**Which counters a scan has.** The scans for statements and for cascades count every byte of code. The
scan for the end of a group and the one for the keywords of a run stop where nothing is left to close;
the second one also jumps over words. As long as they go on, they have the counters of the text
(`Source.groupEnd_of_lt`, `Source.runTail_split`), so one bound serves all four.
-/

namespace MethodBrowser

namespace Nesting

variable {n n' : Nesting} {b : UInt8}

/-- The number of groups that are open. -/
def depth (n : Nesting) : Nat := n.parens + n.brackets + n.braces

/-- A byte opens one group at most. -/
theorem depth_step?_le (h : n.step? b = some n') : n'.depth ≤ n.depth + 1 := by
  unfold step? at h
  split at h
  · obtain rfl := Option.some.inj h
    simp only [depth]
    omega
  · obtain rfl := Option.some.inj h
    simp only [depth]
    omega
  · obtain rfl := Option.some.inj h
    simp only [depth]
    omega
  · split at h
    · simp at h
    · obtain rfl := Option.some.inj h
      simp only [depth]
      omega
  · split at h
    · simp at h
    · obtain rfl := Option.some.inj h
      simp only [depth]
      omega
  · split at h
    · simp at h
    · obtain rfl := Option.some.inj h
      simp only [depth]
      omega
  · obtain rfl := Option.some.inj h
    exact Nat.le_succ _

theorem depth_step_le (n : Nesting) (b : UInt8) : (n.step b).depth ≤ n.depth + 1 := by
  rw [step]
  cases h : n.step? b with
  | none => exact Nat.le_succ _
  | some n' => exact depth_step?_le h

end Nesting

namespace Source

variable {src : Source} {n : Nesting} {i j k l : Nat}

/-! ## The bound -/

theorem depth_nest_le (src : Source) (n : Nesting) (i : Nat) :
    (src.nest n i).depth ≤ n.depth + 1 := by
  rw [nest]
  split
  · exact n.depth_step_le _
  · exact Nat.le_succ _

/-- No more groups are opened than bytes are read. -/
theorem depth_nestFrom_le (hij : i ≤ j) : (src.nestFrom n i j).depth ≤ n.depth + (j - i) := by
  induction j, hij using Nat.le_induction with
  | base =>
    rw [nestFrom_self]
    exact Nat.le_add_right _ _
  | succ j hij ih =>
    rw [nestFrom_succ hij]
    have hnest := src.depth_nest_le (src.nestFrom n i j) j
    omega

/-! ## Scans that stop early -/

/-- Up to where a group ends, its scan has the counters of the text. -/
theorem groupEnd_of_lt (hik : i ≤ k) (hk : k < src.groupEnd n i l) :
    src.groupEnd n i l = src.groupEnd (src.nestFrom n i k) k l := by
  induction hd : k - i generalizing i n with
  | zero =>
    obtain rfl : i = k := by omega
    rw [nestFrom_self]
  | succ d ih =>
    have hil : i < l := by
      by_contra hle
      rw [groupEnd_of_le (Nat.le_of_not_lt hle)] at hk
      omega
    rw [nestFrom_cons (by omega)]
    rw [groupEnd_eq hil] at hk ⊢
    cases hb : src.codeByte? i with
    | none =>
      rw [hb] at hk
      rw [nest_eq (.inl ⟨hb, rfl⟩)]
      exact ih (by omega) hk (by omega)
    | some b =>
      simp only [hb] at hk ⊢
      cases hstep : n.step? b with
      | none =>
        rw [hstep] at hk
        change k < i + 1 at hk
        omega
      | some n' =>
        simp only [hstep] at hk ⊢
        rw [nest_eq (.inr ⟨b, hb, hstep⟩)]
        by_cases htop : n'.isTopLevel = true
        · rw [if_pos htop] at hk
          omega
        · rw [if_neg htop] at hk ⊢
          exact ih (by omega) hk (by omega)

/-- So has the scan for the keywords of a run, up to where the run ends. -/
theorem runTail_split (hik : i ≤ k) :
    (∀ token ∈ src.runTail n i l, token.start < k) ∨
      ∃ taken, src.runTail n i l = taken ++ src.runTail (src.nestFrom n i k) k l ∧
        ∀ token ∈ taken, token.start < k := by
  rw [runTail_eq_levelTail, runTail_eq_levelTail]
  exact levelTail_split hik

/-! ## 32 bits -/

/-- In a text of less than `2 ^ 32` bytes no counter overflows. -/
theorem counters_fit (hsize : src.size < 2 ^ 32) (hij : i ≤ j) (hj : j ≤ src.size) :
    let n := src.nestFrom .empty i j
    n.parens < 2 ^ 32 ∧ n.brackets < 2 ^ 32 ∧ n.braces < 2 ^ 32 := by
  intro n
  have hdepth : n.parens + n.brackets + n.braces ≤ Nesting.empty.depth + (j - i) :=
    depth_nestFrom_le hij
  rw [show Nesting.empty.depth = 0 from rfl] at hdepth
  omega

end Source

end MethodBrowser
