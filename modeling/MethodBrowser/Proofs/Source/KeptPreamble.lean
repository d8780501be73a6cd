import MethodBrowser.Proofs.Source.Clauses

/-!
# Changes behind a preamble

Where statements may begin is found by reading on from the header until something is neither a pragma
nor a declaration of temporaries. This module shows that another text at the place of a statement does
not change it, if that text starts with a letter and brings no new `>` or bar (`Reworded.preamble_eq`).

**What could go wrong.** A `<` is the start of a pragma if an identifier follows it right away and a
`>` comes somewhere later, however far; a bar opens a declaration if there is another one later. So the
new text must not come right after a `<`, and it must not supply what is missing.
-/

namespace MethodBrowser

/-- From the offset `o` on, `t` has another text than `s`, which starts with a letter and brings no
`>` and no bar that `s` does not have there. -/
structure Reworded (s t : Source) (o : Nat) : Prop where
  cell : ∀ k < o, t.cells[k]? = s.cells[k]?
  letter : t.holds Cell.isLetter o = true
  closer : ∀ {x : Char}, x = '>' ∨ x = '|' → ∀ k, o ≤ k → t.codeAt k x = true →
    ∃ j, o ≤ j ∧ s.codeAt j x = true

namespace Reworded

variable {s t : Source} {o i j : Nat} (h : Reworded s t o)
include h

theorem holds {p : Cell → Bool} (hi : i < o) : t.holds p i = s.holds p i :=
  Source.holds_congr (h.cell i hi)

theorem not_codeAt {x : Char} (hx : Byte.isIdentStart x.toUInt8 = false) : t.codeAt o x = false :=
  Source.holds_eq_of (fun _ hc => Cell.isCodeChar_of_isLetter hx hc) h.letter

theorem skipTrivia_eq (hi : i ≤ o) : t.skipTrivia i = min (s.skipTrivia i) o := by
  have hsize := Source.lt_size_of_holds h.letter
  unfold Source.skipTrivia
  induction hd : o - i generalizing i with
  | zero =>
    obtain rfl : i = o := by omega
    have hstop : t.holds (fun c => !c.isCode || Byte.isBlank c.byte) i = false :=
      Source.holds_eq_of (fun c hc => by
        rw [Cell.isBlank_eq_false_of_isLetter hc, Cell.isCode, Cell.kind_of_isLetter hc]
        rfl) h.letter
    rw [Source.runEnd_of_not_holds hstop, Nat.min_eq_right (s.le_runEnd ..)]
  | succ d ih =>
    have hsame := h.holds (p := fun c => !c.isCode || Byte.isBlank c.byte) (i := i) (by omega)
    cases hhere : s.holds (fun c => !c.isCode || Byte.isBlank c.byte) i with
    | false =>
      rw [Source.runEnd_of_not_holds hhere, Source.runEnd_of_not_holds (hsame.trans hhere),
        Nat.min_eq_left hi]
    | true =>
      rw [Source.runEnd_of_holds (Source.lt_size_of_holds hhere) hhere,
        Source.runEnd_of_holds (by omega) (hsame.trans hhere)]
      exact ih (by omega) (by omega)

/-! ## Closing signs -/

theorem find?_of_some {p : Cell → Bool} (hfind : s.find? p i s.size = some j) (hj : j < o) :
    t.find? p i t.size = some j := by
  have hbounds := s.find?_bounds hfind
  have hsize := Source.lt_size_of_holds h.letter
  refine Source.find?_eq_some hbounds.1 (by omega) ?_ fun k hik hkj => ?_
  · rw [h.holds hj]
    exact Source.holds_of_find? hfind
  · rw [h.holds (by omega)]
    exact Source.not_holds_before_find? hfind hik hkj

theorem find?_of_none {x : Char} (hx : x = '>' ∨ x = '|') (hi : i ≤ o)
    (hfind : s.find? (·.isCodeChar x) i s.size = none) :
    t.find? (·.isCodeChar x) i t.size = none := by
  have hnone : ∀ k, i ≤ k → s.codeAt k x = false := fun k hk => by
    rcases Nat.lt_or_ge k s.size with hlt | hge
    · exact Source.not_holds_of_find?_eq_none hfind hk hlt
    · exact Source.holds_of_size_le hge
  cases hfind' : t.find? (·.isCodeChar x) i t.size with
  | none => rfl
  | some k =>
    have hbounds := t.find?_bounds hfind'
    have hk : t.codeAt k x = true := Source.holds_of_find? hfind'
    rcases Nat.lt_or_ge k o with hlt | hge
    · have hsame : t.codeAt k x = s.codeAt k x := h.holds hlt
      simp [hsame, hnone k hbounds.1] at hk
    · obtain ⟨j, hj, hcode⟩ := h.closer hx k hge hk
      simp [hnone j (by omega)] at hcode

/-! ## Pragmas -/

theorem pragmaAt?_of_some {pragma : Span} (hp : s.pragmaAt? i = some pragma) (hstop : pragma.stop ≤ o) :
    t.pragmaAt? i = some pragma := by
  have hlt := (Source.stop_of_pragmaAt? hp).1
  have hhere : t.codeAt i '<' = s.codeAt i '<' := h.holds (by omega)
  have hnext : t.byteIs Byte.isIdentStart (i + 1) = s.byteIs Byte.isIdentStart (i + 1) :=
    h.holds (by omega)
  simp only [Source.pragmaAt?] at hp ⊢
  rw [hhere, hnext]
  split at hp
  · next hopen =>
    obtain ⟨close, hclose, rfl⟩ := Option.map_eq_some_iff.1 hp
    rw [if_pos hopen, h.find?_of_some hclose (by simp only at hstop; omega)]
    rfl
  · simp at hp

theorem pragmaAt?_of_none (hp : s.pragmaAt? i = none) (hi : i < o)
    (hopen : i + 1 = o → s.codeAt i '<' = false) : t.pragmaAt? i = none := by
  have hhere : t.codeAt i '<' = s.codeAt i '<' := h.holds hi
  simp only [Source.pragmaAt?] at hp ⊢
  rw [hhere]
  cases hcode : s.codeAt i '<' with
  | false => rfl
  | true =>
    have hlt : i + 1 < o := by
      refine Nat.lt_of_le_of_ne hi fun heq => ?_
      simp [hopen heq] at hcode
    have hnext : t.byteIs Byte.isIdentStart (i + 1) = s.byteIs Byte.isIdentStart (i + 1) :=
      h.holds hlt
    rw [hcode] at hp
    rw [hnext]
    split
    · next hident =>
      rw [if_pos hident, Option.map_eq_none_iff] at hp
      rw [h.find?_of_none (.inl rfl) (by omega) hp]
      rfl
    · rfl

/-- The pragmas in a row are the same, if they end before the change. -/
theorem pragmasFrom_eq (hi : i ≤ o) (hlast : ∀ pragma ∈ (s.pragmasFrom i).1, pragma.stop ≤ o)
    (hopen : (s.pragmasFrom i).2 + 1 = o → s.codeAt (s.pragmasFrom i).2 '<' = false) :
    t.pragmasFrom i = ((s.pragmasFrom i).1, min (s.pragmasFrom i).2 o) := by
  induction hd : s.size - i using Nat.strongRecOn generalizing i with
  | ind d ih =>
    have hskip := h.skipTrivia_eq hi
    have hle := s.le_skipTrivia i
    cases hp : s.pragmaAt? (s.skipTrivia i) with
    | none =>
      rw [Source.pragmasFrom_of_none hp] at hopen ⊢
      have hp' : t.pragmaAt? (t.skipTrivia i) = none := by
        rw [hskip]
        rcases Nat.lt_or_ge (s.skipTrivia i) o with hlt | hge
        · rw [Nat.min_eq_left (Nat.le_of_lt hlt)]
          exact h.pragmaAt?_of_none hp hlt hopen
        · rw [Nat.min_eq_right hge, Source.pragmaAt?, h.not_codeAt (by decide)]
          rfl
      rw [Source.pragmasFrom_of_none hp', hskip]
    | some pragma =>
      have hbounds := s.pragmaAt?_bounds hp
      rw [Source.pragmasFrom_of_some hp] at hlast hopen ⊢
      rw [List.forall_mem_cons] at hlast
      have hp' : t.pragmaAt? (t.skipTrivia i) = some pragma := by
        rw [hskip, Nat.min_eq_left (by omega)]
        exact h.pragmaAt?_of_some hp hlast.1
      rw [Source.pragmasFrom_of_some hp', ih (s.size - pragma.stop) (by omega) hlast.1 hlast.2 hopen rfl]

/-! ## Temporaries -/

theorem temporariesAt?_of_some {block : Span} (hp : s.temporariesAt? i = some block)
    (hstop : block.stop ≤ o) : t.temporariesAt? i = some block := by
  have hlt := (Source.stop_of_temporariesAt? hp).1
  have hhere : t.codeAt i '|' = s.codeAt i '|' := h.holds (by omega)
  simp only [Source.temporariesAt?] at hp ⊢
  rw [hhere]
  split at hp
  · next hopen =>
    obtain ⟨close, hclose, rfl⟩ := Option.map_eq_some_iff.1 hp
    rw [if_pos hopen, h.find?_of_some hclose (by simp only at hstop; omega)]
    rfl
  · simp at hp

theorem temporariesAt?_of_none (hp : s.temporariesAt? i = none) : t.temporariesAt? (min i o) = none := by
  rcases Nat.lt_or_ge i o with hlt | hge
  · have hhere : t.codeAt i '|' = s.codeAt i '|' := h.holds hlt
    rw [Nat.min_eq_left (Nat.le_of_lt hlt)]
    simp only [Source.temporariesAt?] at hp ⊢
    rw [hhere]
    split
    · next hbar =>
      rw [if_pos hbar, Option.map_eq_none_iff] at hp
      rw [h.find?_of_none (.inr rfl) hlt hp]
      rfl
    · rfl
  · rw [Nat.min_eq_right hge, Source.temporariesAt?, h.not_codeAt (by decide)]
    rfl

end Reworded

/-! ## Preambles -/

namespace Source

variable {src : Source} {i : Nat}

theorem lastStop_of_none (h : src.pragmaAt? (src.skipTrivia i) = none) : src.lastStop i = i := by
  rw [lastStop, pragmasFrom_of_none h]
  rfl

theorem lastStop_of_some {pragma : Span} (h : src.pragmaAt? (src.skipTrivia i) = some pragma) :
    src.lastStop i = src.lastStop pragma.stop := by
  rw [lastStop, lastStop, pragmasFrom_of_some h, List.getLast?_cons]
  cases (src.pragmasFrom pragma.stop).1.getLast? <;> rfl

theorem le_lastStop_self (src : Source) (i : Nat) : i ≤ src.lastStop i := by
  rcases src.lastStop_cases i with h | ⟨hlt, -⟩
  · exact Nat.le_of_eq h.symm
  · exact Nat.le_of_lt hlt

/-- Pragmas in a row end one after the other, before the code that follows them. -/
theorem lastStop_bounds (src : Source) (i : Nat) :
    (∀ pragma ∈ (src.pragmasFrom i).1, pragma.stop ≤ src.lastStop i) ∧
      src.lastStop i ≤ (src.pragmasFrom i).2 := by
  induction hd : src.size - i using Nat.strongRecOn generalizing i with
  | ind d ih =>
    have hle := src.le_skipTrivia i
    cases hp : src.pragmaAt? (src.skipTrivia i) with
    | none =>
      rw [lastStop_of_none hp, pragmasFrom_of_none hp]
      exact ⟨by simp, hle⟩
    | some first =>
      have hbounds := src.pragmaAt?_bounds hp
      obtain ⟨hall, hnext⟩ := ih (src.size - first.stop) (by omega) first.stop rfl
      rw [lastStop_of_some hp, pragmasFrom_of_some hp]
      exact ⟨List.forall_mem_cons.2 ⟨src.le_lastStop_self first.stop, hall⟩, hnext⟩

end Source

/-- The preamble is the same, if it ends before the change and no `<` stands right before the change. -/
theorem Reworded.preamble_eq {s t : Source} {o i : Nat} (h : Reworded s t o) (hi : i ≤ o)
    (hstop : (s.preamble i).stop ≤ o)
    (hopen : ∀ k, (s.preamble i).stop ≤ k → k + 1 = o → s.codeAt k '<' = false) :
    t.preamble i = s.preamble i := by
  have hkept : ∀ j ≤ o, s.lastStop j ≤ o →
      ((s.pragmasFrom j).2 + 1 = o → s.codeAt (s.pragmasFrom j).2 '<' = false) →
      t.pragmasFrom j = ((s.pragmasFrom j).1, min (s.pragmasFrom j).2 o) := fun j hj hlast hopen =>
    h.pragmasFrom_eq hj (fun pragma hmem => Nat.le_trans ((s.lastStop_bounds j).1 pragma hmem) hlast)
      hopen
  rw [s.preamble_stop] at hstop hopen
  have hnext := (s.lastStop_bounds i).2
  cases htemps : s.temporariesAt? (s.pragmasFrom i).2 with
  | none =>
    simp only [htemps] at hstop hopen
    have hleading := hkept i hi hstop fun heq => hopen _ hnext heq
    have htemps' := h.temporariesAt?_of_none htemps
    simp only [Source.preamble, hleading, htemps, htemps']
  | some block =>
    simp only [htemps] at hstop hopen
    have hblock := Source.stop_of_temporariesAt? htemps
    have hle := s.le_lastStop_self block.stop
    have hbar : s.codeAt (s.pragmasFrom i).2 '|' = true := by
      rw [Source.temporariesAt?] at htemps
      split at htemps
      · assumption
      · simp at htemps
    have hleading := hkept i hi (by omega) fun _ => Source.codeAt_ne (by decide) hbar
    have htrailing := hkept block.stop (by omega) hstop fun heq =>
      hopen _ (s.lastStop_bounds block.stop).2 heq
    have htemps' := h.temporariesAt?_of_some htemps (by omega)
    rw [Nat.min_eq_left (by omega)] at hleading
    simp only [Source.preamble, hleading, htrailing, htemps, htemps']

/-! ## A text in the place of another -/

/-- Both texts have the same header. -/
theorem Source.bodyStart_eq {s t : Source} {l r r' : List Char} (hs : s.text.toList = l ++ r)
    (ht : t.text.toList = l ++ r') (hbody : s.bodyStart ≤ String.utf8Len l) (hr : r ≠ []) :
    '\n' ∈ l ∧ t.bodyStart = s.bodyStart := by
  rcases oneLine_or_newline s.text.toList with hline | ⟨line, rest, htext, hline⟩
  · rw [bodyStart_of_oneLine hline, size_eq, hs, String.utf8Len_append] at hbody
    exact absurd (String.utf8Len_eq_zero.1 (by omega)) hr
  · rw [bodyStart_of_newline htext hline] at hbody ⊢
    have htext' : (line ++ ['\n']) ++ rest = l ++ r := by rw [← hs, htext]; simp
    obtain ⟨m, rfl, -⟩ := append_eq_append_of_le htext' (by rw [String.utf8Len_append]; exact hbody)
    exact ⟨by simp, bodyStart_of_newline
      (show t.text.toList = line ++ '\n' :: (m ++ r') by rw [ht]; simp) hline⟩

theorem Source.cell_of_lt {src : Source} {l r : List Char} {k : Nat} (h : src.text.toList = l ++ r)
    (hk : k < String.utf8Len l) : src.cells[k]? = (classify .code l)[k]? := by
  rw [getElem?_cells, h, classify_append, List.getElem?_append_left (by rwa [length_classify])]

theorem reworded_of_cut {s t : Source} {l m x r : List Char} (hs : s.Cut l (m ++ r))
    (hs' : s.Cut (l ++ m) r) (ht : t.Cut l (x ++ r)) (ht' : t.Cut (l ++ x) r)
    (hletter : (Source.ofChars x).holds Cell.isLetter 0 = true)
    (hx : ∀ {y : Char}, y = '>' ∨ y = '|' → ∀ k, (Source.ofChars x).codeAt k y = false) :
    Reworded s t (String.utf8Len l) := by
  refine ⟨fun k hk => ?_, ?_, fun {y} hy k hle hcode => ?_⟩
  · rw [Source.cell_of_lt hs.text hk, Source.cell_of_lt ht.text hk]
  · have hpos := Source.lt_size_of_holds hletter
    rw [Source.size_ofChars] at hpos
    exact (Source.holds_congr (ht.window (k := 0) hpos)).trans hletter
  · rcases Nat.lt_or_ge k (String.utf8Len (l ++ x)) with hlt | hge
    · obtain ⟨d, rfl⟩ := Nat.exists_eq_add_of_le hle
      rw [String.utf8Len_append] at hlt
      rw [Source.codeAt, Source.holds, ht.window (by omega)] at hcode
      exact absurd ((hx hy d).symm.trans hcode) (by simp)
    · -- The rest of the text is the same in both, only at another offset.
      obtain ⟨d, rfl⟩ := Nat.exists_eq_add_of_le hge
      refine ⟨String.utf8Len (l ++ m) + d, by rw [String.utf8Len_append]; omega, ?_⟩
      rw [Source.codeAt, Source.holds, hs'.cell]
      rwa [Source.codeAt, Source.holds, ht'.cell] at hcode

/-- Statements may begin where they did before. -/
theorem Source.region_start_eq {s t : Source} {l m x r : List Char} (hs : s.Cut l (m ++ r))
    (hs' : s.Cut (l ++ m) r) (ht : t.Cut l (x ++ r)) (ht' : t.Cut (l ++ x) r) (hm : m ≠ [])
    (hletter : (ofChars x).holds Cell.isLetter 0 = true)
    (hx : ∀ {y : Char}, y = '>' ∨ y = '|' → ∀ k, (ofChars x).codeAt k y = false)
    (hstart : s.statementRegion.start ≤ String.utf8Len l)
    (hopen : ∀ k, s.statementRegion.start ≤ k → k + 1 = String.utf8Len l → s.codeAt k '<' = false) :
    t.statementRegion.start = s.statementRegion.start := by
  have hbody := Nat.le_trans s.bodyStart_le_region hstart
  have hsame := (bodyStart_eq hs.text ht.text hbody (by simp [hm])).2
  rw [statementRegion, statementRegion, hsame,
    (reworded_of_cut hs hs' ht ht' hletter hx).preamble_eq hbody hstart hopen]

end MethodBrowser
