import MethodBrowser.Proofs.Source.Body

/-!
# Where statements may begin

A preamble ends with the sign that closes a pragma or with the bar that closes a declaration of
temporaries. If there are neither, it is empty (`Source.region_start_cases`).
-/

namespace MethodBrowser.Source

variable {src : Source} {i : Nat}

theorem stop_of_find? {x : Char} {first : Nat} {sp : Span}
    (h : (src.find? (·.isCodeChar x) (first + 1) src.size).map (fun close => (⟨first, close + 1⟩ : Span)) =
      some sp) : first + 1 < sp.stop ∧ src.codeAt (sp.stop - 1) x = true := by
  obtain ⟨close, hclose, rfl⟩ := Option.map_eq_some_iff.1 h
  have := src.find?_bounds hclose
  exact ⟨by simp only; omega, holds_of_find? hclose⟩

theorem stop_of_pragmaAt? {pragma : Span} (h : src.pragmaAt? i = some pragma) :
    i + 1 < pragma.stop ∧ src.codeAt (pragma.stop - 1) '>' = true := by
  rw [pragmaAt?] at h
  split at h
  · exact stop_of_find? h
  · simp at h

theorem stop_of_temporariesAt? {block : Span} (h : src.temporariesAt? i = some block) :
    i + 1 < block.stop ∧ src.codeAt (block.stop - 1) '|' = true := by
  rw [temporariesAt?] at h
  split at h
  · exact stop_of_find? h
  · simp at h

theorem stop_of_mem_pragmasFrom {pragma : Span} (h : pragma ∈ (src.pragmasFrom i).1) :
    i + 1 < pragma.stop ∧ src.codeAt (pragma.stop - 1) '>' = true := by
  induction hd : src.size - i using Nat.strongRecOn generalizing i with
  | ind d ih =>
    have hle := src.le_skipTrivia i
    cases hp : src.pragmaAt? (src.skipTrivia i) with
    | none => simp [pragmasFrom_of_none hp] at h
    | some first =>
      have hbounds := src.pragmaAt?_bounds hp
      have hfirst := stop_of_pragmaAt? hp
      rw [pragmasFrom_of_some hp, List.mem_cons] at h
      rcases h with rfl | h
      · exact ⟨by omega, hfirst.2⟩
      · have hrest := ih (src.size - first.stop) (by omega) h rfl
        exact ⟨by omega, hrest.2⟩

/-- The end of the last of some pragmas, or the offset where they are looked for. -/
def lastStop (src : Source) (i : Nat) : Nat := ((src.pragmasFrom i).1.getLast?.map (·.stop)).getD i

theorem lastStop_cases (src : Source) (i : Nat) :
    src.lastStop i = i ∨ i < src.lastStop i ∧ src.codeAt (src.lastStop i - 1) '>' = true := by
  rw [lastStop]
  cases hlast : (src.pragmasFrom i).1.getLast? with
  | none => exact .inl rfl
  | some pragma =>
    have hstop := stop_of_mem_pragmasFrom (List.mem_of_getLast? hlast)
    exact .inr ⟨Nat.lt_of_succ_lt hstop.1, hstop.2⟩

/-- Where statements may begin, by what the preamble has. -/
theorem preamble_stop (src : Source) (i : Nat) :
    (src.preamble i).stop = match src.temporariesAt? (src.pragmasFrom i).2 with
      | none => src.lastStop i
      | some block => src.lastStop block.stop := by
  simp only [preamble]
  cases src.temporariesAt? (src.pragmasFrom i).2 <;> rfl

/-- Statements may begin at the start of the body or after a closing sign. -/
theorem region_start_cases (src : Source) :
    src.statementRegion.start = src.bodyStart ∨
      src.bodyStart < src.statementRegion.start ∧
        (src.codeAt (src.statementRegion.start - 1) '>' = true ∨
          src.codeAt (src.statementRegion.start - 1) '|' = true) := by
  simp only [statementRegion, preamble_stop]
  cases htemps : src.temporariesAt? (src.pragmasFrom src.bodyStart).2 with
  | none => exact (src.lastStop_cases src.bodyStart).imp_right fun h => ⟨h.1, .inl h.2⟩
  | some block =>
    have hnext := src.le_pragmasFrom_snd src.bodyStart
    have hblock := stop_of_temporariesAt? htemps
    right
    rcases src.lastStop_cases block.stop with h | ⟨hlt, hclose⟩
    · simp only [h]
      exact ⟨by omega, .inr hblock.2⟩
    · exact ⟨by simp only; omega, .inl hclose⟩

theorem region_start_le (src : Source) : src.statementRegion.start ≤ src.size := by
  rcases src.region_start_cases with h | ⟨hlt, h | h⟩
  · exact h ▸ src.bodyStart_le_size
  · have := lt_size_of_holds h
    omega
  · have := lt_size_of_holds h
    omega

end MethodBrowser.Source
