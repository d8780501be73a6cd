import MethodBrowser.Proofs.Edit.Splice

/-!
# Edits in any order

Edits of whole characters that do not overlap are all carried out, in whatever order they are given:
each replacement stands in the place of its span, and what lies between the spans stays
(`Edit.applyAll_replaces`).

**Why the order does not matter.** The spans of such edits start at different offsets, so there is only
one way to put the edits in order. A text that arises from the old one by putting replacements in the
place of spans (`Edit.Spliced`) has them in that order, and is the one that splicing gives.
-/

namespace MethodBrowser.Edit

variable {text : String} {edits others es : List Edit}

/-- Edits of a text that do not get in each other's way: their spans are not empty, consist of whole
characters and do not overlap. -/
structure Compatible (text : String) (edits : List Edit) : Prop where
  lt : ∀ e ∈ edits, e.span.start < e.span.stop
  spans : ∀ e ∈ edits, Text.HasSpan text e.span
  disjoint : edits.Pairwise fun a b => a.span.overlaps b.span = false

namespace Compatible

theorem perm (h : Compatible text edits) (hperm : others.Perm edits) : Compatible text others where
  lt e he := h.lt e (hperm.mem_iff.1 he)
  spans e he := h.spans e (hperm.mem_iff.1 he)
  disjoint := by
    refine (hperm.pairwise_iff fun {a b} hab => ?_).2 h.disjoint
    rw [← Bool.not_eq_true, Span.overlaps_iff] at hab ⊢
    exact fun hba => hab ⟨hba.2, hba.1⟩

/-- In order, each edit ends before the next one starts. -/
theorem apart (h : Compatible text edits) : Apart (sorted edits) := by
  have hsorted := h.perm (sorted_perm edits)
  refine ((pairwise_sorted edits).and hsorted.disjoint).imp_of_mem fun {a b} ha hb hab => ?_
  have hle := Span.le_iff.1 hab.1
  have hover := hab.2
  have hlt := hsorted.lt a ha
  have hlt' := hsorted.lt b hb
  rw [← Bool.not_eq_true, Span.overlaps_iff] at hover
  omega

end Compatible

/-- Carried out one after another, edits are in order. -/
theorem Spliced.apart {i : Nat} {old new : List Char} (h : Spliced i es old new) : Apart es := by
  induction h with
  | nil => exact List.Pairwise.nil
  | cons _ _ hrest ih => exact List.pairwise_cons.2 ⟨fun e he => (hrest.le_start e he).1, ih⟩

/-- There is one order of edits in which each ends before the next one starts. -/
theorem eq_of_apart (hlt : ∀ e ∈ es, e.span.start < e.span.stop) (hperm : es.Perm others)
    (hes : Apart es) (hothers : Apart others) : es = others := by
  refine hperm.eq_of_pairwise (fun a b ha hb hab hba => ?_) hes hothers
  have hlt' := hlt a ha
  have hlt'' := hlt b (hperm.mem_iff.2 hb)
  omega

/-- Splicing gives the one text in which all replacements stand in the place of their spans. -/
theorem Compatible.applyAll_eq_iff (h : Compatible text edits) {new : String} :
    applyAll text edits = new ↔ ∃ es, es.Perm edits ∧ Spliced 0 es text.toList new.toList := by
  constructor
  · rintro rfl
    exact ⟨sorted edits, sorted_perm edits, exists_applyAll text h.spans h.apart⟩
  · rintro ⟨es, hperm, hnew⟩
    have horder : sorted edits = es :=
      eq_of_apart (h.perm (sorted_perm edits)).lt ((sorted_perm edits).trans hperm.symm) h.apart
        hnew.apart
    have hsplice := splice_of_spliced (l := []) rfl hnew
    rw [← String.toList_inj, ← hsplice, ← horder]
    rfl

/-! ## The theorem -/

/-- Edits of whole characters that do not overlap are all carried out and change nothing between them,
in whatever order they are given. -/
theorem applyAll_replaces (text : String) (edits : List Edit) (h : Compatible text edits) :
    (∀ new, applyAll text edits = new ↔
        ∃ es, es.Perm edits ∧ Spliced 0 es text.toList new.toList) ∧
      ∀ others, others.Perm edits → applyAll text others = applyAll text edits := by
  refine ⟨fun new => h.applyAll_eq_iff, fun others hperm => ?_⟩
  obtain ⟨es, hes, hspliced⟩ := h.applyAll_eq_iff.1 rfl
  exact (h.perm hperm).applyAll_eq_iff.2 ⟨es, hes.trans hperm.symm, hspliced⟩

/-- Two edits side by side, the second one given first. -/
theorem applyAll_replaces_adjacent :
    Compatible "é + x" [⟨⟨2, 5⟩, ","⟩, ⟨⟨0, 2⟩, "at"⟩] ∧
      applyAll "é + x" [⟨⟨2, 5⟩, ","⟩, ⟨⟨0, 2⟩, "at"⟩] = "at,x" ∧
      applyAll "é + x" [⟨⟨0, 2⟩, "at"⟩, ⟨⟨2, 5⟩, ","⟩] = "at,x" := by
  have hspan : Text.HasSpan "é + x" ⟨0, 2⟩ :=
    Text.hasSpan_of_append (l := []) (w := ['é']) (r := [' ', '+', ' ', 'x']) (by decide)
  have hspan' : Text.HasSpan "é + x" ⟨2, 5⟩ :=
    Text.hasSpan_of_append (l := ['é']) (w := [' ', '+', ' ']) (r := ['x']) (by decide)
  have hcompatible : Compatible "é + x" [⟨⟨2, 5⟩, ","⟩, ⟨⟨0, 2⟩, "at"⟩] :=
    ⟨by decide, by simp [hspan, hspan'], by decide⟩
  have hspliced : Spliced 0 [⟨⟨0, 2⟩, "at"⟩, ⟨⟨2, 5⟩, ","⟩] "é + x".toList "at,x".toList :=
    @Spliced.cons _ _ _ [] ['é'] [' ', '+', ' ', 'x'] _ (by decide) (by decide)
      (@Spliced.cons _ _ _ [] [' ', '+', ' '] ['x'] _ (by decide) (by decide) .nil)
  obtain ⟨hreplaces, hperm⟩ := applyAll_replaces _ _ hcompatible
  have hresult := (hreplaces "at,x").2 ⟨_, .swap .., hspliced⟩
  exact ⟨hcompatible, hresult, (hperm _ (.swap ..)).trans hresult⟩

end MethodBrowser.Edit
