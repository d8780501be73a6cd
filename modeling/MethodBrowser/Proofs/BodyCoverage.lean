import MethodBrowser.Proofs.Source.KeptPreamble
import MethodBrowser.Proofs.StatementLayout

/-!
# What a body consists of

A body is its preamble and what follows it. What follows is statements, the periods between them, white
space and comments (`Source.Layout`). This module says what the preamble consists of: pragmas, a
declaration of temporaries, white space and comments, and also literals that stand in front of one of
these (`Source.trivial_or_covered`).

Such literals are lost. They are significant, but they are neither in the preamble's spans nor in a
statement. A body in which none is passed over is accounted for as a whole
(`Source.preamble_covers_iff`).
-/

namespace MethodBrowser

/-- The spans of a preamble. -/
def Preamble.spans (pre : Preamble) : List Span := pre.pragmas ++ pre.temporaries.toList

/-- The byte at `k` is in a pragma or in the declaration of temporaries. -/
def Preamble.Covers (pre : Preamble) (k : Nat) : Prop :=
  ∃ sp ∈ pre.spans, sp.contains ⟨k, k + 1⟩ = true

instance (pre : Preamble) (k : Nat) : Decidable (pre.Covers k) := by
  unfold Preamble.Covers
  infer_instance

namespace Source

variable {src : Source} {i k : Nat}

/-! ## Rows of pragmas -/

/-- What is passed over between pragmas: anything but code, and white space. -/
def Trivial (src : Source) (k : Nat) : Prop :=
  src.holds (fun c => !c.isCode || Byte.isBlank c.byte) k = true

/-- A significant byte that is passed over belongs to a literal. -/
theorem Trivial.isString (h : src.Trivial k) (hk : src.isSignificant k = true) :
    src.kind? k = some .string := by
  obtain ⟨⟨b, kind⟩, hcell, htrivial⟩ := Option.any_eq_true _ _ |>.1 h
  rw [isSignificant, holds, hcell, Option.any_some] at hk
  rw [kind?, hcell, Option.map_some]
  cases kind with
  | code => simp_all [Cell.isCode, Cell.isSignificant]
  | string => rfl
  | comment => simp [Cell.isSignificant] at hk

theorem isSignificant_of_isString (h : src.kind? k = some .string) : src.isSignificant k = true := by
  rw [kind?, Option.map_eq_some_iff] at h
  obtain ⟨⟨b, kind⟩, hcell, rfl⟩ := h
  rw [isSignificant, holds, hcell, Option.any_some]
  rfl

/-- Up to where a row of pragmas ends, everything is trivial or in one of the pragmas. -/
theorem pragmasFrom_covers (hik : i ≤ k) (hk : k < (src.pragmasFrom i).2) :
    src.Trivial k ∨ ∃ sp ∈ (src.pragmasFrom i).1, sp.contains ⟨k, k + 1⟩ = true := by
  induction hd : src.size - i using Nat.strongRecOn generalizing i with
  | ind d ih =>
    rcases Nat.lt_or_ge k (src.skipTrivia i) with hlt | hge
    · exact .inl (holds_of_lt_runEnd hik hlt)
    · have hle := src.le_skipTrivia i
      cases hp : src.pragmaAt? (src.skipTrivia i) with
      | none =>
        rw [pragmasFrom_of_none hp] at hk
        exact absurd hge (Nat.not_le_of_lt hk)
      | some first =>
        have hbounds := src.pragmaAt?_bounds hp
        rw [pragmasFrom_of_some hp] at hk ⊢
        rcases Nat.lt_or_ge k first.stop with hin | hout
        · exact .inr ⟨first, List.mem_cons_self, Span.contains_iff.2 ⟨hbounds.1 ▸ hge, hin⟩⟩
        · refine (ih (src.size - first.stop) (by omega) hout hk rfl).imp_right ?_
          rintro ⟨sp, hsp, hcontains⟩
          exact ⟨sp, List.mem_cons_of_mem _ hsp, hcontains⟩

/-! ## The preamble -/

theorem spans_preamble (src : Source) (i : Nat) :
    (src.preamble i).spans = match src.temporariesAt? (src.pragmasFrom i).2 with
      | none => (src.pragmasFrom i).1
      | some block => (src.pragmasFrom i).1 ++ (src.pragmasFrom block.stop).1 ++ [block] := by
  simp only [preamble, Preamble.spans]
  cases src.temporariesAt? (src.pragmasFrom i).2 with
  | none => simp
  | some block => rfl

/-- A preamble consists of its spans, white space, comments and literals. -/
theorem trivial_or_covered (hik : i ≤ k) (hk : k < (src.preamble i).stop) :
    src.Trivial k ∨ (src.preamble i).Covers k := by
  have hleading := (src.lastStop_bounds i).2
  rw [preamble_stop] at hk
  simp only [Preamble.Covers, spans_preamble]
  cases htemps : src.temporariesAt? (src.pragmasFrom i).2 with
  | none =>
    simp only [htemps] at hk
    exact pragmasFrom_covers hik (by omega)
  | some block =>
    simp only [htemps] at hk
    have hopen : block.start = (src.pragmasFrom i).2 := by
      rw [temporariesAt?] at htemps
      split at htemps
      · obtain ⟨close, -, rfl⟩ := Option.map_eq_some_iff.1 htemps
        rfl
      · simp at htemps
    rcases Nat.lt_or_ge k block.start with hbefore | hge
    · refine (pragmasFrom_covers hik (hopen ▸ hbefore)).imp_right ?_
      rintro ⟨sp, hsp, hcontains⟩
      exact ⟨sp, by simp [hsp], hcontains⟩
    · rcases Nat.lt_or_ge k block.stop with hin | hafter
      · exact .inr ⟨block, by simp, Span.contains_iff.2 ⟨hge, hin⟩⟩
      · have htrailing := (src.lastStop_bounds block.stop).2
        refine (pragmasFrom_covers hafter (by omega)).imp_right ?_
        rintro ⟨sp, hsp, hcontains⟩
        exact ⟨sp, by simp [hsp], hcontains⟩

/-! ## The theorem -/

/-- The significant bytes of a preamble are in its pragmas and temporaries if no literal is passed over
in front of them. All others are in a statement or end one. -/
theorem preamble_covers_iff (text : String) :
    let src := Source.ofText text
    let pre := src.preamble src.bodyStart
    ((∀ k, src.bodyStart ≤ k → k < pre.stop → src.isSignificant k = true → pre.Covers k) ↔
        ∀ k, src.bodyStart ≤ k → k < pre.stop → src.kind? k = some .string → pre.Covers k) ∧
      ∀ k, src.bodyStart ≤ k → src.isSignificant k = true →
        k < pre.stop ∧ (pre.Covers k ∨ src.kind? k = some .string) ∨
          pre.stop ≤ k ∧ ((∃ st ∈ src.statements, st.span.contains ⟨k, k + 1⟩ = true) ∨
            src.endsStatement .empty pre.stop k = true) := by
  intro src pre
  have hswallowed : ∀ k, src.bodyStart ≤ k → k < pre.stop → src.isSignificant k = true →
      pre.Covers k ∨ src.kind? k = some .string := fun k hbody hstop hk =>
    (trivial_or_covered hbody hstop).symm.imp_right fun htrivial => htrivial.isString hk
  refine ⟨⟨fun hall k hbody hstop hk => ?_, fun hall k hbody hstop hk => ?_⟩, fun k hbody hk => ?_⟩
  · exact hall k hbody hstop (isSignificant_of_isString hk)
  · exact (hswallowed k hbody hstop hk).elim id (hall k hbody hstop)
  · rcases Nat.lt_or_ge k pre.stop with hlt | hge
    · exact .inl ⟨hlt, hswallowed k hbody hlt hk⟩
    · refine .inr ⟨hge, (src.layout_statements.exists_contains_or_endsStatement hk hge
        (lt_size_of_holds hk)).imp_left ?_⟩
      rintro ⟨sp, hsp, hcontains⟩
      obtain ⟨st, hst, rfl⟩ := List.mem_map.1 hsp
      exact ⟨st, hst, hcontains⟩

/-- A string in front of a declaration of temporaries is in no span of the preamble and in no
statement. -/
theorem literal_before_temporaries_lost :
    let src := Source.ofText "m\n'total' | t | ^t"
    let pre := src.preamble src.bodyStart
    (src.bodyStart ≤ 2 ∧ 2 < pre.stop ∧ src.isSignificant 2 = true ∧ ¬pre.Covers 2) ∧
      src.statements.map (·.span) = [⟨16, 18⟩] := by
  decide +kernel

end Source

end MethodBrowser
