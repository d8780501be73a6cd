import MethodBrowser.Proofs.Source.AlignedRegion
import MethodBrowser.Proofs.Source.Text
import MethodBrowser.Send.Detect

/-!
# Where the body of a method starts

The body starts after the first line feed. Sends are looked for in the body only, so a method of
one line has none (`Source.sends_of_oneLine`).
-/

namespace MethodBrowser

theorem splitHeader_of_oneLine {text : String} (h : '\n' ∉ text.toList) :
    splitHeader text = (text, text.utf8ByteSize) := by
  have hline : text.toList.takeWhile (· ≠ '\n') = text.toList := by
    rw [← List.append_nil text.toList, List.takeWhile_append_of_pos]
    · simp
    · intro c hc
      simpa using fun heq : c = '\n' => h (heq ▸ hc)
  simp only [splitHeader, hline, if_true]

theorem splitHeader_of_newline {text : String} {line rest : List Char}
    (htext : text.toList = line ++ '\n' :: rest) (hline : '\n' ∉ line) :
    splitHeader text =
      (String.ofList (line.reverse.dropWhile (· = '\r')).reverse, String.utf8Len line + 1) := by
  have htake : text.toList.takeWhile (· ≠ '\n') = line := by
    rw [htext, List.takeWhile_append_of_pos]
    · simp
    · intro c hc
      simpa using fun heq : c = '\n' => hline (heq ▸ hc)
  have hlen : ¬line.length = text.toList.length := by
    rw [htext]
    simp
  simp only [splitHeader, htake, hlen, if_false, String.utf8ByteSize_ofList]

/-- A text has one line, or a first line and a line feed after it. -/
theorem oneLine_or_newline (cs : List Char) :
    '\n' ∉ cs ∨ ∃ line rest, cs = line ++ '\n' :: rest ∧ '\n' ∉ line := by
  by_cases h : '\n' ∈ cs
  · obtain ⟨line, rest, hcs, hline⟩ := List.eq_append_cons_of_mem h
    exact .inr ⟨line, rest, hcs, hline⟩
  · exact .inl h

namespace Source

variable {src : Source}

theorem bodyStart_of_oneLine (h : '\n' ∉ src.text.toList) : src.bodyStart = src.size := by
  rw [bodyStart, splitHeader_of_oneLine h, size_eq, String.utf8Len_toList]

theorem bodyStart_of_newline {line rest : List Char}
    (htext : src.text.toList = line ++ '\n' :: rest) (hline : '\n' ∉ line) :
    src.bodyStart = String.utf8Len line + 1 := by
  rw [bodyStart, splitHeader_of_newline htext hline]

theorem bodyStart_le_size (src : Source) : src.bodyStart ≤ src.size := by
  rcases oneLine_or_newline src.text.toList with h | ⟨line, rest, htext, hline⟩
  · exact Nat.le_of_eq (bodyStart_of_oneLine h)
  · rw [bodyStart_of_newline htext hline, size_eq, htext]
    simp only [String.utf8Len_append, String.utf8Len_cons]
    have := Char.utf8Size_pos '\n'
    omega

/-! ## Statements lie in the body -/

theorem le_stop_of_mem_pragmasFrom {i : Nat} {pragma : Span}
    (h : pragma ∈ (src.pragmasFrom i).1) : i ≤ pragma.stop := by
  induction hd : src.size - i using Nat.strongRecOn generalizing i with
  | ind d ih =>
    have hle := src.le_skipTrivia i
    cases hp : src.pragmaAt? (src.skipTrivia i) with
    | none => simp [pragmasFrom_of_none hp] at h
    | some first =>
      have hbounds := src.pragmaAt?_bounds hp
      rw [pragmasFrom_of_some hp, List.mem_cons] at h
      rcases h with rfl | h
      · omega
      · have := ih (src.size - first.stop) (by omega) h rfl
        omega

theorem le_lastStop {i : Nat} {spans : List Span} (h : ∀ sp ∈ spans, i ≤ sp.stop) :
    i ≤ (spans.getLast?.map (·.stop)).getD i := by
  cases hlast : spans.getLast? with
  | none => exact Nat.le_refl _
  | some sp => exact h sp (List.mem_of_getLast? hlast)

theorem le_pragmasFrom_snd (src : Source) (i : Nat) : i ≤ (src.pragmasFrom i).2 := by
  induction hd : src.size - i using Nat.strongRecOn generalizing i with
  | ind d ih =>
    have hle := src.le_skipTrivia i
    cases hp : src.pragmaAt? (src.skipTrivia i) with
    | none => simpa [pragmasFrom_of_none hp] using hle
    | some first =>
      have hbounds := src.pragmaAt?_bounds hp
      rw [pragmasFrom_of_some hp]
      have := ih (src.size - first.stop) (by omega) first.stop rfl
      simp only
      omega

theorem bodyStart_le_region (src : Source) : src.bodyStart ≤ src.statementRegion.start := by
  simp only [statementRegion, preamble]
  cases htemps : src.temporariesAt? (src.pragmasFrom src.bodyStart).2 with
  | none => exact le_lastStop fun _ => le_stop_of_mem_pragmasFrom
  | some block =>
    have hnext := src.le_pragmasFrom_snd src.bodyStart
    have hblock : (src.pragmasFrom src.bodyStart).2 ≤ block.stop := by
      simp only [temporariesAt?] at htemps
      split at htemps
      · obtain ⟨close, hclose, rfl⟩ := Option.map_eq_some_iff.1 htemps
        have := src.find?_bounds hclose
        simp only
        omega
      · simp at htemps
    have hlast : block.stop ≤
        ((src.pragmasFrom block.stop).1.getLast?.map (·.stop)).getD block.stop :=
      le_lastStop fun _ => le_stop_of_mem_pragmasFrom
    simp only
    omega

/-- A method of one line sends nothing. -/
theorem sends_of_oneLine (h : '\n' ∉ src.text.toList) : src.sends = [] := by
  have hle : src.sendRegion.span.stop ≤ src.sendRegion.span.start := by
    have hbody := src.bodyStart_le_region
    rw [bodyStart_of_oneLine h] at hbody
    exact hbody
  have hoffsets : src.sendRegion.span.offsets = [] := Span.offsets_nil hle
  have hkeyword : src.keywordSends src.sendRegion = [] := by
    simp [keywordSends, keywordRuns, keywords, hoffsets, runsOf]
  have hsimple : src.simpleSends src.sendRegion = [] := by
    rw [simpleSends, hoffsets, receiverSendsFrom, dif_neg (by omega)]
    rfl
  simp [sends, hkeyword, hsimple]

end Source

end MethodBrowser
