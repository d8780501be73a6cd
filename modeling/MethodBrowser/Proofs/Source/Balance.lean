import MethodBrowser.Proofs.Source.Clauses

/-!
# Balanced text

A text is balanced if it leaves nothing open and if every closing bracket in it closes one that was opened
in it. Such a text acts on the counters by itself: wherever it is put, at each place the groups that are
open are those around it and those that it has opened (`Source.nestFrom_add`).
-/

namespace MethodBrowser

/-- Every closing bracket closes one that was opened in the text. -/
def Opened (cs : List Char) : Prop :=
  ∀ k < String.utf8Len cs, ∀ b ∈ (Source.ofChars cs).codeByte? k,
    ((Source.ofChars cs).nestFrom .empty 0 k).step? b ≠ none

instance (cs : List Char) : Decidable (Opened cs) :=
  @Nat.decidableBallLT _ _ fun _ _ => Option.decidableForallMem _

/-- All literals, comments and groups of the text are closed in it, and it closes no others. -/
structure IsBalanced (cs : List Char) : Prop extends IsClosed cs where
  opened : Opened cs

namespace Source

variable {src : Source} {l w r : List Char} {k : Nat}

theorem codeByte?_congr {s t : Source} {i j : Nat} (h : t.cells[j]? = s.cells[i]?) :
    t.codeByte? j = s.codeByte? i := by
  rw [codeByte?, codeByte?, h]

/-- The groups open inside of a text are those around it and those that it opened. -/
theorem nestFrom_add (h : src.Cut l (w ++ r)) (hw : Opened w) (outer : Nesting)
    (hk : k ≤ String.utf8Len w) :
    src.nestFrom outer (String.utf8Len l) (String.utf8Len l + k) =
      outer.add ((ofChars w).nestFrom .empty 0 k) := by
  induction k with
  | zero => rw [Nat.add_zero, nestFrom_self, nestFrom_self, Nesting.add_empty]
  | succ k ih =>
    have hcell := codeByte?_congr (h.window (k := k) hk)
    rw [← Nat.add_assoc, nestFrom_succ (Nat.le_add_right _ k), ih (Nat.le_of_lt hk),
      nestFrom_succ (Nat.zero_le k)]
    refine nest_add ?_ outer
    cases hb : (ofChars w).codeByte? k with
    | none => exact .inl ⟨hcell.trans hb, by simp [nest, hb]⟩
    | some b =>
      obtain ⟨m, hm⟩ := Option.ne_none_iff_exists'.1 (hw k hk b hb)
      exact .inr ⟨b, hcell.trans hb, by simp [nest, hb, Nesting.step, hm]⟩

end Source

end MethodBrowser
