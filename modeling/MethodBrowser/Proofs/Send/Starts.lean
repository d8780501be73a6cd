import Mathlib.Data.List.Pairwise
import MethodBrowser.Proofs.Send.Spelling

/-!
# Where unary and binary sends start

No two unary or binary sends start at the same byte (`Source.pairwise_simpleSends`). Each of them
is found after the end of its receiver or after a semicolon, its anchor, and only white space
stands between. The byte before an anchor is no white space, so different anchors have different
sends; and no receiver ends with a semicolon.
-/

namespace MethodBrowser.Source

variable {src : Source} {i j l : Nat}

theorem start_of_sendAfter? {r : Receiver} {send : Send} (h : src.sendAfter? r i l = some send) :
    send.span.start = src.skipGap i l := by
  simp only [sendAfter?] at h
  split at h
  · next word hw =>
    split at h
    · simp at h
    · obtain rfl := Option.some.inj h
      exact (src.wordAt?_bounds hw).1
  · obtain ⟨token, htoken, rfl⟩ := Option.map_eq_some_iff.1 h
    simp only [binaryAt?] at htoken
    split at htoken
    · obtain rfl := Option.some.inj htoken
      rfl
    · simp at htoken

/-! ## Anchors -/

theorem runEnd_le_of_not_holds {p : Cell → Bool} {k : Nat} (hik : i ≤ k)
    (h : src.holds p k = false) : src.runEnd p i l ≤ k := by
  by_contra hlt
  rw [holds_of_lt_runEnd (l := l) hik (by omega)] at h
  simp at h

/-- White space ends before the next anchor. -/
theorem skipGap_lt (hij : i < j) (h : src.holds Cell.isGap (j - 1) = false) :
    src.skipGap i l < src.skipGap j l := by
  have hle : src.skipGap i l ≤ j - 1 := runEnd_le_of_not_holds (by omega) h
  have hle' := src.le_skipGap j l
  omega

/-- The bytes that receivers end with are no white space and no semicolon. -/
theorem not_isGap_of_isIdent (h : src.byteIs Byte.isIdent i = true) :
    src.holds Cell.isGap i = false ∧ src.codeAt i ';' = false := by
  constructor
  · refine holds_eq_of (fun c hc => ?_) h
    rw [Cell.isGap, Cell.isBlank_eq_false_of_isIdent hc, Bool.and_false]
  · refine holds_eq_of (fun c hc => ?_) h
    have hne : c.byte ≠ ';'.toUInt8 := by
      intro heq
      rw [heq] at hc
      exact absurd hc (by decide)
    simp [Cell.isCodeChar, hne]

theorem not_isGap_of_codeAt {x : Char} (hx : Byte.isBlank x.toUInt8 = false)
    (h : src.codeAt i x = true) : src.holds Cell.isGap i = false := by
  refine holds_eq_of (fun c hc => ?_) h
  rw [Cell.isCodeChar, Bool.and_eq_true, beq_iff_eq] at hc
  rw [Cell.isGap, hc.2, hx, Bool.and_false]

theorem isIdent_of_isDigit (h : src.byteIs Byte.isDigit i = true) :
    src.byteIs Byte.isIdent i = true := by
  refine holds_of_imp (fun c hc => ?_) h
  simp only [Byte.isDigit] at hc
  simp [Byte.isIdent, isIdentRest, Char.isAlphanum, hc]

/-- The digits after a digit end with a digit. -/
theorem isDigit_digitsEnd (h : src.byteIs Byte.isDigit i = true) :
    src.byteIs Byte.isDigit (src.digitsEnd (i + 1) l - 1) = true := by
  have hle : i + 1 ≤ src.digitsEnd (i + 1) l := src.le_runEnd _ (i + 1) l
  rcases Nat.eq_or_lt_of_le hle with heq | hlt
  · rw [← heq, Nat.add_sub_cancel]
    exact h
  · exact holds_of_lt_runEnd (i := i + 1) (l := l) (by omega)
      (show src.digitsEnd (i + 1) l - 1 < src.digitsEnd (i + 1) l by omega)

theorem isDigit_of_numberAt? {number : Span} (h : src.numberAt? i l = some number) :
    src.byteIs Byte.isDigit (number.stop - 1) = true := by
  rw [numberAt?_eq] at h
  split at h
  · next hdigit =>
    rw [Bool.and_eq_true] at hdigit
    split at h
    · obtain rfl := Option.some.inj h
      have hwhole := isDigit_digitsEnd (l := l) hdigit.1
      simp only [fractionEnd]
      split
      · next hfraction =>
        simp only [Bool.and_eq_true, decide_eq_true_eq] at hfraction
        obtain ⟨⟨hlt, -⟩, hnext⟩ := hfraction
        rw [digitsEnd, runEnd_of_holds hlt hnext]
        exact isDigit_digitsEnd hnext
      · exact hwhole
    · simp at h
  · simp at h

theorem receiverAt?_last {r : Receiver} {stop : Nat} (h : src.receiverAt? i l = some (r, stop)) :
    src.holds Cell.isGap (stop - 1) = false ∧ src.codeAt (stop - 1) ';' = false := by
  unfold receiverAt? at h
  split at h
  · next word hw =>
    split at h
    · simp at h
    · obtain ⟨-, rfl⟩ : Receiver.ofWord (src.slice word) = r ∧ word.stop = stop := by simpa using h
      have hlt := (src.wordAt?_bounds hw).2
      exact not_isGap_of_isIdent (holds_of_imp (fun _ => Cell.isIdent_of_isWordChar)
        (isWordChar_of_wordAt? hw (by omega) (by omega)))
  · split at h
    · next number hn =>
      obtain ⟨-, rfl⟩ : Receiver.unknown = r ∧ number.stop = stop := by simpa using h
      exact not_isGap_of_isIdent (isIdent_of_isDigit (isDigit_of_numberAt? hn))
    · split at h
      · next hcloser =>
        obtain ⟨-, rfl⟩ : Receiver.unknown = r ∧ i + 1 = stop := by simpa using h
        simp only [isCloser, Bool.or_eq_true] at hcloser
        rw [Nat.add_sub_cancel]
        rcases hcloser with (hc | hc) | hc
        · exact ⟨not_isGap_of_codeAt (by decide) hc, codeAt_ne (by decide) hc⟩
        · exact ⟨not_isGap_of_codeAt (by decide) hc, codeAt_ne (by decide) hc⟩
        · exact ⟨not_isGap_of_codeAt (by decide) hc, codeAt_ne (by decide) hc⟩
      · simp at h

/-! ## Order -/

theorem pairwise_receiverSendsFrom (src : Source) (i l : Nat) :
    (src.receiverSendsFrom i l).Pairwise fun a b => a.span.start < b.span.start := by
  induction hd : l - i using Nat.strongRecOn generalizing i with
  | ind d ih =>
    rcases Nat.lt_or_ge i l with hlt | hle
    · cases hr : src.receiverAt? i l with
      | none =>
        rw [receiverSendsFrom_of_none hr]
        exact ih (l - (i + 1)) (by omega) (i + 1) rfl
      | some found =>
        obtain ⟨r, stop⟩ := found
        have hstop := src.receiverAt?_lt hr
        rw [receiverSendsFrom_of_some hlt hr, List.pairwise_append]
        refine ⟨?_, ih (l - stop) (by omega) stop rfl, fun a ha b hb => ?_⟩
        · cases src.sendAfter? r stop l <;> simp
        · obtain ⟨k, r', stop', hk, hr', hsend⟩ := mem_receiverSendsFrom hb
          have hstop' := src.receiverAt?_lt hr'
          rw [start_of_sendAfter? (Option.mem_toList.1 ha), start_of_sendAfter? hsend]
          exact skipGap_lt (by omega) (receiverAt?_last hr').1
    · rw [receiverSendsFrom_of_le hle]
      exact .nil

theorem pairwise_cascadeSendsAt (src : Source) (l : Nat) (n : Nesting) {is : List Nat}
    (h : is.Pairwise (· < ·)) :
    (src.cascadeSendsAt l n is).Pairwise fun a b => a.span.start < b.span.start := by
  induction h generalizing n with
  | nil => exact .nil
  | @cons j is hall _ ih =>
    simp only [cascadeSendsAt]
    split
    · rw [List.pairwise_append]
      refine ⟨?_, ih _, fun a ha b hb => ?_⟩
      · cases src.sendAfter? .cascade (j + 1) l <;> simp
      · obtain ⟨k, hk, hsemi, hsend⟩ := mem_cascadeSendsAt hb
        have hlt := hall k hk
        rw [start_of_sendAfter? (Option.mem_toList.1 ha), start_of_sendAfter? hsend]
        refine skipGap_lt (by omega) ?_
        rw [Nat.add_sub_cancel]
        exact not_isGap_of_codeAt (by decide) hsemi
    · exact ih _

/-- A send to a receiver and one of a cascade start at different bytes. -/
theorem start_ne_start {a b : Send} {n : Nesting} {is : List Nat}
    (ha : a ∈ src.receiverSendsFrom i l) (hb : b ∈ src.cascadeSendsAt l n is) :
    a.span.start ≠ b.span.start := by
  obtain ⟨k, r, stop, -, hreceiver, hsend⟩ := mem_receiverSendsFrom ha
  obtain ⟨j, -, hsemi, hsend'⟩ := mem_cascadeSendsAt hb
  obtain ⟨hgap, hnot⟩ := receiverAt?_last hreceiver
  have hgap' : src.holds Cell.isGap (j + 1 - 1) = false :=
    not_isGap_of_codeAt (by decide) hsemi
  rw [start_of_sendAfter? hsend, start_of_sendAfter? hsend']
  rcases Nat.lt_trichotomy stop (j + 1) with hlt | rfl | hgt
  · exact Nat.ne_of_lt (skipGap_lt hlt hgap')
  · rw [Nat.add_sub_cancel, hsemi] at hnot
    simp at hnot
  · exact Nat.ne_of_gt (skipGap_lt hgt hgap)

theorem pairwise_offsets (s : Span) : s.offsets.Pairwise (· < ·) := by
  rw [Span.offsets]
  exact List.pairwise_lt_range'

/-- No two unary or binary sends start at the same byte. -/
theorem pairwise_simpleSends (src : Source) (region : SendRegion) :
    (src.simpleSends region).Pairwise fun a b => a.span.start ≠ b.span.start := by
  rw [simpleSends]
  refine List.Pairwise.filter _ (List.pairwise_append.2 ⟨?_, ?_, fun a ha b hb => ?_⟩)
  · exact (src.pairwise_receiverSendsFrom _ _).imp Nat.ne_of_lt
  · exact (src.pairwise_cascadeSendsAt _ _ (pairwise_offsets _)).imp Nat.ne_of_lt
  · exact start_ne_start ha hb

/-- A unary or binary send is known by where it starts. -/
theorem simpleSend_eq_of_start_eq {region : SendRegion} {a b : Send}
    (ha : a ∈ src.simpleSends region) (hb : b ∈ src.simpleSends region)
    (heq : a.span.start = b.span.start) : a = b := by
  have hsymm : Std.Symm fun a b : Send => a.span.start ≠ b.span.start := ⟨fun _ _ h => h.symm⟩
  by_contra hne
  exact (src.pairwise_simpleSends region).forall ha hb hne heq

end MethodBrowser.Source
