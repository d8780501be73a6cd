import MethodBrowser.Proofs.Source.Excerpt

/-!
# Code without sends in an excerpt

Literal arrays and block temporaries cover the same bytes of a statement in both readings
(`Excerpt.admits_shift`). Those that start before the statement end before it: an array ends where its
groups are closed, and the declaration of block temporaries contains no period.

A group that the statement leaves open runs to the end of the text. Then the statement is the last one,
and the group ends with it in one reading, and with the white space and comments after it in the other.
-/

namespace MethodBrowser

namespace Span

theorem overlaps_shift (o : Nat) (a b : Span) : (a.shift o).overlaps (b.shift o) = a.overlaps b := by
  rw [Bool.eq_iff_iff, overlaps_iff, overlaps_iff]
  simp only [shift]
  omega

theorem overlaps_of_le {a b : Span} (h : a.stop ≤ b.start) : a.overlaps b = false := by
  rw [← Bool.not_eq_true, overlaps_iff]
  omega

theorem overlaps_of_ge {a b : Span} (h : b.stop ≤ a.start) : a.overlaps b = false := by
  rw [← Bool.not_eq_true, overlaps_iff]
  omega

end Span

/-- A period is part of no name. -/
theorem Cell.isName_of_period {c : Cell} (h : c.isCodeChar '.' = true) :
    (c.isCode && (Byte.isIdent c.byte || Byte.isBlank c.byte)) = false := by
  rw [isCodeChar, Bool.and_eq_true, beq_iff_eq] at h
  rw [h.2]
  exact Bool.and_eq_false_imp.2 fun _ => by decide

theorem Nesting.empty_add (n : Nesting) : Nesting.empty.add n = n := by
  simp [add, empty]

namespace Source

variable {src : Source} {i j k l : Nat} {n m : Nesting} {sp : Span}

/-! ## Groups -/

/-- The counters do the same where two texts have the same cells. -/
theorem nestFrom_window {w : Source} {o : Nat} (hij : i ≤ j)
    (h : ∀ k, i ≤ k → k < j → src.cells[o + k]? = w.cells[k]?) :
    src.nestFrom n (o + i) (o + j) = w.nestFrom n i j := by
  induction j, hij using Nat.le_induction with
  | base => rw [nestFrom_self, nestFrom_self]
  | succ j hij ih =>
    rw [← Nat.add_assoc, nestFrom_succ (Nat.add_le_add_left hij o), nestFrom_succ hij,
      ih fun k hik hk => h k hik (by omega), nest, nest, codeByte?, codeByte?,
      h j hij (Nat.lt_succ_self j)]

theorem groupEnd_eq (hlt : i < l) : src.groupEnd m i l =
    match src.codeByte? i with
    | none => src.groupEnd m (i + 1) l
    | some b =>
      match m.step? b with
      | none => i + 1
      | some m' => if m'.isTopLevel then i + 1 else src.groupEnd m' (i + 1) l := by
  have heq := groupEnd.eq_def src m i l
  rw [if_pos hlt] at heq
  exact heq

/-- What a group does with the byte at `i`. -/
theorem groupEnd_cases (hm : m.isTopLevel = false) (hlt : i < l) :
    src.groupEnd m i l = i + 1 ∨
      ∃ m', m'.isTopLevel = false ∧ src.groupEnd m i l = src.groupEnd m' (i + 1) l ∧
        ∀ outer : Nesting, src.nest (outer.add m) i = outer.add m' := by
  rw [groupEnd_eq hlt]
  cases hb : src.codeByte? i with
  | none => exact .inr ⟨m, hm, rfl, nest_add (.inl ⟨hb, rfl⟩)⟩
  | some b =>
    simp only
    cases hstep : m.step? b with
    | none => exact .inl rfl
    | some m' =>
      cases htop : m'.isTopLevel with
      | true => exact .inl (by simp [htop])
      | false => exact .inr ⟨m', htop, by simp [htop], nest_add (.inr ⟨b, hb, hstep⟩)⟩

/-- A group ends where all groups are closed, at the latest. -/
theorem groupEnd_le (hm : m.isTopLevel = false) (hij : i ≤ j) (hjl : j ≤ l)
    (h : src.nestFrom (n.add m) i j = .empty) : src.groupEnd m i l ≤ j := by
  induction hd : j - i generalizing i m with
  | zero =>
    obtain rfl : i = j := by omega
    rw [nestFrom_self] at h
    have htop : (n.add m).isTopLevel = true := by rw [h]; rfl
    rw [Nesting.isTopLevel_of_add htop] at hm
    simp at hm
  | succ d ih =>
    rcases src.groupEnd_cases hm (show i < l by omega) with hend | ⟨m', hm', hend, hnest⟩
    · omega
    · rw [hend]
      rw [nestFrom_cons (by omega), hnest] at h
      exact ih hm' (by omega) h (by omega)

theorem groupEnd_le_size (h : i ≤ l) : src.groupEnd m i l ≤ l := by
  fun_induction groupEnd src m i l <;> grind

/-- White space and comments do not end a group. -/
theorem Idle.groupEnd (h : src.Idle i l) (hil : i ≤ l) (hm : m.isTopLevel = false) :
    src.groupEnd m i l = l := by
  induction hd : l - i generalizing i m with
  | zero => exact groupEnd_of_le (by omega)
  | succ d ih =>
    have hidle := h i (Nat.le_refl _) (by omega)
    have hstep : ∀ b, src.codeByte? i = some b → m.step? b = some m := by
      intro b hb
      rw [isSignificant, holds] at hidle
      rw [codeByte?] at hb
      split at hb
      · next b' hcell =>
        obtain rfl := Option.some.inj hb
        simp only [hcell, Option.any_some, Cell.isSignificant, Bool.not_eq_false'] at hidle
        exact Nesting.step?_of_isBlank hidle m
      · simp at hb
    have hrest := ih (h.mono (Nat.le_succ i) (Nat.le_refl _)) (by omega) hm (by omega)
    rw [groupEnd_eq (by omega)]
    cases hb : src.codeByte? i with
    | none => exact hrest
    | some b => simp [hstep b hb, hm, hrest]

/-- A literal array opens a group. -/
theorem groupEnd_of_opensArray (h : src.opensArray i = true) (hlt : i + 1 < l) :
    ∃ m, m.isTopLevel = false ∧ src.groupEnd .empty (i + 1) l = src.groupEnd m (i + 2) l ∧
      ∀ outer : Nesting, src.nestFrom outer i (i + 2) = outer.add m := by
  rw [opensArray, Bool.and_eq_true, Bool.or_eq_true] at h
  have hnest : ∀ outer, src.nest outer i = outer := fun outer => by
    rw [nest, codeByte?_of_codeAt h.1]
    rfl
  have hopen : ∃ b m, src.codeByte? (i + 1) = some b ∧ Nesting.empty.step? b = some m ∧
      m.isTopLevel = false := by
    rcases h.2 with hb | hb
    · exact ⟨_, _, codeByte?_of_codeAt hb, rfl, rfl⟩
    · exact ⟨_, _, codeByte?_of_codeAt hb, rfl, rfl⟩
  obtain ⟨b, m, hb, hstep, hm⟩ := hopen
  refine ⟨m, hm, ?_, fun outer => ?_⟩
  · rw [groupEnd_eq hlt]
    simp [hb, hstep, hm]
  · rw [nestFrom_cons (by omega), hnest, nestFrom_cons (by omega), nestFrom_self]
    exact nest_add (.inr ⟨b, hb, hstep⟩) outer

theorem le_start_of_mem_literalArraysFrom {array : Span} (h : array ∈ src.literalArraysFrom i l) :
    i ≤ array.start := by
  fun_induction literalArraysFrom src i l with
  | case1 i hlt hopens ih =>
    rcases List.mem_cons.1 h with rfl | h
    · exact Nat.le_refl _
    · have := ih h
      have := src.lt_groupEnd .empty hlt
      omega
  | case2 i hlt hopens ih =>
    have := ih h
    omega
  | case3 => simp at h

/-! ## Searches -/

theorem not_holds_before_find? {p : Cell → Bool} (h : src.find? p i l = some j) (hik : i ≤ k)
    (hkj : k < j) : src.holds p k = false := by
  simp only [find?] at h
  split at h
  · obtain rfl := Option.some.inj h
    exact holds_eq_of (fun c hc => by simpa using hc) (holds_of_lt_runEnd hik hkj)
  · simp at h

theorem not_holds_of_find?_eq_none {p : Cell → Bool} (h : src.find? p i l = none) (hik : i ≤ k)
    (hkl : k < l) : src.holds p k = false := by
  simp only [find?, ite_eq_right_iff, reduceCtorEq, imp_false, Bool.and_eq_true,
    decide_eq_true_eq, not_and, Bool.not_eq_true] at h
  rcases Nat.lt_or_ge k (src.runEnd (fun c => !p c) i l) with hlt | hge
  · exact holds_eq_of (fun c hc => by simpa using hc) (holds_of_lt_runEnd hik hlt)
  · -- The search has come to the end of the text.
    have hlt : src.runEnd (fun c => !p c) i l < l := by omega
    have hnot := not_holds_runEnd hlt
    have hnone := h hlt
    rcases Nat.lt_or_ge (src.runEnd (fun c => !p c) i l) src.size with hin | hout
    · rw [holds, Array.getElem?_eq_getElem hin, Option.any_some] at hnot hnone
      simp [hnone] at hnot
    · exact holds_of_size_le (by omega)

theorem find?_eq_some {p : Cell → Bool} (hij : i ≤ j) (hjl : j < l) (h : src.holds p j = true)
    (hbefore : ∀ k, i ≤ k → k < j → src.holds p k = false) : src.find? p i l = some j := by
  cases hfind : src.find? p i l with
  | none =>
    rw [not_holds_of_find?_eq_none hfind hij hjl] at h
    simp at h
  | some j' =>
    have hbounds := src.find?_bounds hfind
    have hfound := holds_of_find? hfind
    rcases Nat.lt_trichotomy j j' with hlt | rfl | hgt
    · rw [not_holds_before_find? hfind hij hlt] at h
      simp at h
    · rfl
    · rw [hbefore j' hbounds.1 hgt] at hfound
      simp at hfound

/-! ## Block temporaries -/

theorem skipParameters_of_not_colon (h : src.codeAt i ':' = false) : src.skipParameters i l = i := by
  rw [skipParameters, h, dif_neg (by simp)]

theorem skipParameters_of_none (h : src.identEnd (i + 1) l = i + 1) : src.skipParameters i l = i := by
  rw [skipParameters]
  simp [h]

theorem skipParameters_of_some (hlt : i < l) (hcolon : src.codeAt i ':' = true)
    (h : src.identEnd (i + 1) l ≠ i + 1) :
    src.skipParameters i l = src.skipParameters (src.skipGap (src.identEnd (i + 1) l) l) l := by
  conv_lhs => rw [skipParameters]
  rw [dif_pos (by simp [hlt, hcolon]), dif_neg h]

theorem not_period_of_isIdent (h : src.holds (fun c => Byte.isIdent c.byte) k = true) :
    src.codeAt k '.' = false := by
  refine holds_eq_of (fun c hc => ?_) h
  by_contra hperiod
  rw [Bool.not_eq_false, Cell.isCodeChar, Bool.and_eq_true, beq_iff_eq] at hperiod
  rw [hperiod.2] at hc
  exact absurd hc (by decide)

theorem not_period_of_isGap (h : src.holds Cell.isGap k = true) : src.codeAt k '.' = false := by
  refine holds_eq_of (fun c hc => ?_) h
  by_contra hperiod
  rw [Bool.not_eq_false, Cell.isCodeChar, Bool.and_eq_true, beq_iff_eq] at hperiod
  rw [Cell.isGap, hperiod.2] at hc
  exact absurd hc (by simp [show Byte.isBlank '.'.toUInt8 = false by decide])

/-- No period stands among block parameters. -/
theorem not_period_of_skipParameters (hik : i ≤ k) (hk : k < src.skipParameters i l) :
    src.codeAt k '.' = false := by
  fun_induction skipParameters src i l with
  | case1 i hcolon hnone => omega
  | case2 i hcolon hsome ih =>
    rw [Bool.and_eq_true, decide_eq_true_eq] at hcolon
    rcases Nat.eq_or_lt_of_le hik with rfl | hlt
    · exact codeAt_ne (by decide) hcolon.2
    · rcases Nat.lt_or_ge k (src.identEnd (i + 1) l) with hin | hge
      · exact not_period_of_isIdent (holds_of_lt_runEnd hlt hin)
      · rcases Nat.lt_or_ge k (src.skipGap (src.identEnd (i + 1) l) l) with hin' | hge'
        · exact not_period_of_isGap (holds_of_lt_runEnd hge hin')
        · exact ih hge' hk
  | case3 i hcolon => omega

theorem le_skipParameters (src : Source) (i l : Nat) : i ≤ src.skipParameters i l := by
  fun_induction skipParameters src i l with
  | case1 => exact Nat.le_refl _
  | case2 i hcolon hsome ih =>
    have := src.le_identEnd (i + 1) l
    have := src.le_skipGap (src.identEnd (i + 1) l) l
    omega
  | case3 => exact Nat.le_refl _

/-- No period stands between the start of a block and the place of its temporaries. -/
theorem not_period_of_blockBodyAt? {bar : Nat} (h : src.blockBodyAt? i l = some bar) :
    i < bar ∧ ∀ k, i < k → k < bar → src.codeAt k '.' = false := by
  have hgap := src.le_skipGap (i + 1) l
  have hparams := src.le_skipParameters (src.skipGap (i + 1) l) l
  simp only [blockBodyAt?] at h
  split at h
  · obtain rfl := Option.some.inj h
    exact ⟨by omega, fun k hik hk => not_period_of_isGap (holds_of_lt_runEnd hik hk)⟩
  · split at h
    · next hbar =>
      obtain rfl := Option.some.inj h
      have hgap' := src.le_skipGap (src.skipParameters (src.skipGap (i + 1) l) l + 1) l
      refine ⟨by omega, fun k hik hk => ?_⟩
      rcases Nat.lt_or_ge k (src.skipGap (i + 1) l) with hin | hge
      · exact not_period_of_isGap (holds_of_lt_runEnd hik hin)
      · rcases Nat.lt_trichotomy k (src.skipParameters (src.skipGap (i + 1) l) l) with hin | rfl | hge'
        · exact not_period_of_skipParameters hge hin
        · exact codeAt_ne (by decide) hbar
        · exact not_period_of_isGap (holds_of_lt_runEnd hge' hk)
    · simp at h

/-- No period stands among block temporaries. -/
theorem not_period_of_blockTemporariesAt? (h : src.blockTemporariesAt? i l = some sp) :
    src.codeAt i '[' = true ∧ i < sp.start ∧
      ∀ k, i < k → k < sp.stop → src.codeAt k '.' = false := by
  simp only [blockTemporariesAt?] at h
  split at h
  · next hopen =>
    refine ⟨hopen, ?_⟩
    split at h
    · simp at h
    · next bar hbody =>
      obtain ⟨hlt, hchars⟩ := not_period_of_blockBodyAt? hbody
      split at h
      · next hbar =>
        rw [Bool.and_eq_true, decide_eq_true_eq] at hbar
        split at h
        · simp at h
        · next close hclose =>
          split at h
          · next hnames =>
            obtain rfl := Option.some.inj h
            refine ⟨hlt, fun k hik hk => ?_⟩
            rcases Nat.lt_trichotomy k bar with hin | rfl | hge
            · exact hchars k hik hin
            · exact codeAt_ne (by decide) hbar.2
            · rcases Nat.eq_or_lt_of_le (Nat.le_of_lt_succ hk) with rfl | hin
              · exact codeAt_ne (by decide) (holds_of_find? hclose)
              · have hname := List.all_eq_true.1 hnames k (Span.mem_offsets.2 ⟨hge, hin⟩)
                refine holds_eq_of (fun c hc => ?_) hname
                by_contra hperiod
                rw [Cell.isName_of_period (by simpa using hperiod)] at hc
                simp at hc
          · simp at h
      · simp at h
  · simp at h

end Source

namespace Excerpt

variable {w s : Source} (E : Excerpt w s) {i j k : Nat} {m : Nesting}

/-! ## The counters in an excerpt -/

theorem codeByte?_shift (hk : k < w.size) : s.codeByte? (E.offset + k) = w.codeByte? k := by
  rw [Source.codeByte?, Source.codeByte?, E.cell hk]

theorem nest_shift (hk : k < w.size) : s.nest m (E.offset + k) = w.nest m k := by
  rw [Source.nest, Source.nest, E.codeByte?_shift hk]

theorem nestFrom_shift (hkj : k ≤ j) (hj : j ≤ w.size) :
    s.nestFrom m (E.offset + k) (E.offset + j) = w.nestFrom m k j :=
  Source.nestFrom_window hkj fun _ _ hk => E.cell (by omega)

/-- No group is open where the statement starts. -/
theorem nestFrom_floor : s.nestFrom .empty E.floor E.offset = .empty := by
  rw [Source.nestFrom_trans E.floor_le E.left_le, E.before.nestFrom]
  rcases Nat.eq_or_lt_of_le E.floor_le with heq | hlt
  · rw [heq, Source.nestFrom_self]
  · exact (E.opening hlt).2

/-- Nor is one open where it ends, unless it is the last one. -/
theorem nestFrom_size (hright : E.right < s.size) : w.nestFrom .empty 0 w.size = .empty := by
  have hclosed := (E.closing hright).2.2
  rw [Source.nestFrom_trans (Nat.le_add_right _ w.size) E.le_right, E.after.nestFrom] at hclosed
  rw [← E.nestFrom_shift (Nat.zero_le _) (Nat.le_refl _)]
  exact hclosed

/-- What is significant before the statement stands before the period that precedes it. -/
theorem lt_left_of_isSignificant (h : s.isSignificant i = true) (hi : i < E.offset) : i < E.left := by
  refine Nat.lt_of_not_le fun hle => ?_
  rw [E.before i hle hi] at h
  simp at h

/-- A byte before the statement that is no period is followed by one. -/
theorem exists_period {x : Char} (hblank : Byte.isBlank x.toUInt8 = false)
    (hperiod : x.toUInt8 ≠ '.'.toUInt8) (h : s.codeAt i x = true) (hfloor : E.floor ≤ i)
    (hi : i < E.offset) :
    i + 1 < E.left ∧ s.isTerminator (E.left - 1) = true ∧ s.nestFrom .empty E.floor E.left = .empty := by
  have hlt := E.lt_left_of_isSignificant (Source.isSignificant_of_codeAt hblank h) hi
  obtain ⟨hterm, hopen⟩ := E.opening (by omega)
  refine ⟨Nat.lt_of_le_of_ne hlt fun heq => ?_, hterm, hopen⟩
  rw [Source.isTerminator, ← heq, Nat.add_sub_cancel, Source.codeAt_ne hperiod h] at hterm
  simp at hterm

/-! ## Literal arrays -/

/-- A group is closed at the same byte, or is left open by the last statement. -/
theorem groupEnd_shift {outer : Nesting} (hm : m.isTopLevel = false) (hk : k ≤ w.size)
    (hopen : w.nestFrom .empty 0 k = outer.add m) :
    s.groupEnd m (E.offset + k) s.size = E.offset + w.groupEnd m k w.size ∨
      w.groupEnd m k w.size = w.size ∧ s.groupEnd m (E.offset + k) s.size = s.size := by
  have hsize := E.size_le
  induction hd : w.size - k generalizing k m with
  | zero =>
    obtain rfl : k = w.size := by omega
    have hright : s.size ≤ E.right := Nat.le_of_not_lt fun hlt => by
      rw [E.nestFrom_size hlt] at hopen
      have htop : (outer.add m).isTopLevel = true := by rw [← hopen]; rfl
      rw [Nesting.isTopLevel_of_add htop] at hm
      simp at hm
    refine .inr ⟨Source.groupEnd_of_le (Nat.le_refl _), ?_⟩
    exact (E.after.mono (Nat.le_refl _) hright).groupEnd hsize hm
  | succ d ih =>
    have hnext : w.nestFrom .empty 0 (k + 1) = w.nest (outer.add m) k := by
      rw [Source.nestFrom_succ (Nat.zero_le _), hopen]
    rw [Source.groupEnd_eq (i := E.offset + k) (by omega), Source.groupEnd_eq (i := k) (by omega),
      E.codeByte?_shift (by omega)]
    cases hb : w.codeByte? k with
    | none =>
      rw [Source.nest_add (.inl ⟨hb, rfl⟩)] at hnext
      exact ih hm (by omega) hnext (by omega)
    | some b =>
      simp only
      cases hstep : m.step? b with
      | none => exact .inl rfl
      | some m' =>
        rw [Source.nest_add (.inr ⟨b, hb, hstep⟩)] at hnext
        cases htop : m'.isTopLevel with
        | true => exact .inl (by simp only [htop, if_true, Nat.add_assoc])
        | false =>
          simp only [htop, Bool.false_eq_true, if_false]
          exact ih htop (by omega) hnext (by omega)

theorem opensArray_shift (hk : k < w.size) : s.opensArray (E.offset + k) = w.opensArray k := by
  rw [Source.opensArray, Source.opensArray, E.codeAt_shift (by decide) (by decide) (by omega),
    Nat.add_assoc, E.codeAt_shift (by decide) (by decide) (by omega),
    E.codeAt_shift (by decide) (by decide) (by omega)]

theorem literalArraysFrom_right {sp : Span} (hstop : sp.stop ≤ w.size) (hi : E.offset + w.size ≤ i) :
    (s.literalArraysFrom i s.size).any (·.overlaps (sp.shift E.offset)) = false := by
  rw [List.any_eq_false]
  intro array harray
  have hle := Source.le_start_of_mem_literalArraysFrom harray
  rw [Span.overlaps_of_ge (by simp only [Span.shift]; omega)]
  simp

/-- Arrays in the statement cover the same of its bytes in both readings. -/
theorem literalArraysFrom_shift {sp : Span} (hstart : sp.start < w.size) (hstop : sp.stop ≤ w.size)
    (hk : k ≤ w.size) :
    (s.literalArraysFrom (E.offset + k) s.size).any (·.overlaps (sp.shift E.offset)) =
      (w.literalArraysFrom k w.size).any (·.overlaps sp) := by
  have hsize := E.size_le
  induction hd : w.size - k using Nat.strongRecOn generalizing k with
  | ind d ih =>
    rcases Nat.lt_or_ge k w.size with hlt | hge
    · have hopens := E.opensArray_shift hlt
      cases ho : w.opensArray k with
      | false =>
        rw [Source.literalArraysFrom_of_not_opens ho,
          Source.literalArraysFrom_of_not_opens (hopens.trans ho)]
        exact ih (w.size - (k + 1)) (by omega) (k := k + 1) (by omega) rfl
      | true =>
        have hlt' : k + 1 < w.size := by
          have hbracket := ho
          rw [Source.opensArray, Bool.and_eq_true, Bool.or_eq_true] at hbracket
          exact hbracket.2.elim Source.lt_size_of_holds Source.lt_size_of_holds
        obtain ⟨m, hm, hend, hnest⟩ := Source.groupEnd_of_opensArray ho hlt'
        obtain ⟨m', hm', hend', hnest'⟩ := Source.groupEnd_of_opensArray (l := s.size)
          (hopens.trans ho) (by omega)
        have hsame : m' = m := by
          have h₁ := hnest .empty
          have h₂ := hnest' .empty
          rw [Nat.add_assoc, E.nestFrom_shift (by omega) (by omega), h₁] at h₂
          rwa [Nesting.empty_add, Nesting.empty_add, eq_comm] at h₂
        subst hsame
        have hopen : w.nestFrom .empty 0 (k + 2) = (w.nestFrom .empty 0 k).add m' := by
          rw [Source.nestFrom_trans (Nat.zero_le k) (by omega), hnest]
        rw [Source.literalArraysFrom_of_opens hlt' ho,
          Source.literalArraysFrom_of_opens (by omega) (hopens.trans ho), List.any_cons, List.any_cons]
        have hgt := w.lt_groupEnd .empty hlt'
        rcases E.groupEnd_shift hm (k := k + 2) (by omega) hopen with heq | ⟨heq, heq'⟩
        · have hle : w.groupEnd .empty (k + 1) w.size ≤ w.size :=
            Source.groupEnd_le_size (Nat.le_of_lt hlt')
          rw [hend', Nat.add_assoc, heq, ← hend]
          congr 1
          · exact Span.overlaps_shift E.offset ⟨k, w.groupEnd .empty (k + 1) w.size⟩ sp
          · exact ih (w.size - w.groupEnd .empty (k + 1) w.size) (by omega) hle rfl
        · -- The group is left open, and nothing follows it.
          rw [hend', hend, Nat.add_assoc, heq', heq, Source.literalArraysFrom_of_le (by omega),
            Source.literalArraysFrom_of_le (by omega)]
          congr 1
          rw [Bool.eq_iff_iff, Span.overlaps_iff, Span.overlaps_iff]
          simp only [Span.shift]
          omega
    · rw [E.literalArraysFrom_right hstop (by omega), Source.literalArraysFrom_of_le (by omega)]
      rfl

/-- Arrays before the statement end before it. -/
theorem literalArraysFrom_left {sp : Span} (hstart : E.offset ≤ sp.start) (hfloor : E.floor ≤ i)
    (hi : i ≤ E.offset) :
    (s.literalArraysFrom i s.size).any (·.overlaps sp) =
      (s.literalArraysFrom E.offset s.size).any (·.overlaps sp) := by
  have hsize := E.size_le
  have hpos := E.pos
  induction hd : E.offset - i using Nat.strongRecOn generalizing i with
  | ind d ih =>
    rcases Nat.eq_or_lt_of_le hi with rfl | hlt
    · rfl
    · cases ho : s.opensArray i with
      | false =>
        rw [Source.literalArraysFrom_of_not_opens ho]
        exact ih (E.offset - (i + 1)) (by omega) (by omega) hlt rfl
      | true =>
        have hbracket := ho
        rw [Source.opensArray, Bool.and_eq_true, Bool.or_eq_true] at hbracket
        obtain ⟨hlt', hterm, hopen⟩ := E.exists_period (by decide) (by decide) hbracket.1 hfloor hlt
        have hleft := E.left_le
        have hlt'' : i + 2 < E.left :=
          hbracket.2.elim
            (fun h => (E.exists_period (by decide) (by decide) h (by omega) (by omega)).1)
            (fun h => (E.exists_period (by decide) (by decide) h (by omega) (by omega)).1)
        obtain ⟨m, hm, hend, hnest⟩ := Source.groupEnd_of_opensArray (l := s.size) ho (by omega)
        have hle : s.groupEnd .empty (i + 1) s.size ≤ E.left := by
          rw [hend]
          refine Source.groupEnd_le (n := s.nestFrom .empty E.floor i) hm (by omega) (by omega) ?_
          rw [← hnest, ← Source.nestFrom_trans (by omega) (by omega),
            ← Source.nestFrom_trans (by omega) (by omega), hopen]
        have hgt := s.lt_groupEnd .empty (show i + 1 < s.size by omega)
        rw [Source.literalArraysFrom_of_opens (by omega) ho, List.any_cons,
          Span.overlaps_of_le (by simp only; omega), Bool.false_or]
        exact ih (E.offset - s.groupEnd .empty (i + 1) s.size) (by omega) (by omega) (by omega) rfl

/-! ## Block temporaries -/

/-- The offset `k` of the statement is read at `j`. Past its end, `j` is where the white space after the
statement ends. -/
def At (k j : Nat) : Prop :=
  k < w.size ∧ j = E.offset + k ∨ k = w.size ∧ j = s.skipGap (E.offset + w.size) s.size

theorem at_skipGap (hk : k ≤ w.size) :
    E.At (w.skipGap k w.size) (s.skipGap (E.offset + k) s.size) := by
  rcases Nat.eq_or_lt_of_le hk with rfl | hlt
  · exact .inr ⟨Source.runEnd_of_le (Nat.le_refl _), rfl⟩
  · obtain ⟨hgap, hlt'⟩ := E.skipGap_shift hlt
    exact .inl ⟨hlt', hgap⟩

variable {E} in
theorem At.inj {k' j' : Nat} (h : E.At k j) (h' : E.At k' j') : j' = j ↔ k' = k := by
  have := s.le_skipGap (E.offset + w.size) s.size
  rcases h with ⟨hk, rfl⟩ | ⟨rfl, rfl⟩ <;> rcases h' with ⟨hk', rfl⟩ | ⟨rfl, rfl⟩ <;> omega

variable {E} in
theorem At.codeAt {x : Char} (h : E.At k j) (hblank : Byte.isBlank x.toUInt8 = false)
    (hperiod : x.toUInt8 ≠ '.'.toUInt8) : s.codeAt j x = w.codeAt k x := by
  rcases h with ⟨hk, rfl⟩ | ⟨rfl, rfl⟩
  · exact E.holds_shift hk
  · have hnone : w.codeAt w.size x = false := Source.holds_of_size_le (Nat.le_refl _)
    rw [hnone]
    exact E.holds_skipGap_end fun _ => Cell.isCodeChar_of_isPause hblank hperiod

variable {E} in
/-- Where code is read, the offset is one of the statement. -/
theorem At.of_codeAt {x : Char} (h : E.At k j) (hcode : w.codeAt k x = true) :
    k < w.size ∧ j = E.offset + k := by
  rcases h with h | ⟨rfl, -⟩
  · exact h
  · have := Source.lt_size_of_holds hcode
    omega

theorem at_skipParameters (h : E.At k j) :
    E.At (w.skipParameters k w.size) (s.skipParameters j s.size) := by
  have hsize := E.size_le
  induction hd : w.size - k using Nat.strongRecOn generalizing k j with
  | ind d ih =>
    have hcolon := h.codeAt (x := ':') (by decide) (by decide)
    cases hc : w.codeAt k ':' with
    | false =>
      rw [Source.skipParameters_of_not_colon hc, Source.skipParameters_of_not_colon (hcolon.trans hc)]
      exact h
    | true =>
      obtain ⟨hk, rfl⟩ := h.of_codeAt hc
      have hend : s.identEnd (E.offset + k + 1) s.size = E.offset + w.identEnd (k + 1) w.size :=
        E.identEnd_shift (Nat.succ_le_of_lt hk)
      by_cases hnone : w.identEnd (k + 1) w.size = k + 1
      · rw [Source.skipParameters_of_none hnone, Source.skipParameters_of_none (by rw [hend]; omega)]
        exact h
      · have hle : w.identEnd (k + 1) w.size ≤ w.size := Source.runEnd_le hk
        have hgap := w.le_skipGap (w.identEnd (k + 1) w.size) w.size
        have hident := w.le_identEnd (k + 1) w.size
        rw [Source.skipParameters_of_some hk hc hnone,
          Source.skipParameters_of_some (by omega) (hcolon.trans hc) (by rw [hend]; omega), hend]
        exact ih _ (by omega) (E.at_skipGap hle) rfl

/-- The place of block temporaries is found in both readings or in neither. -/
theorem blockBodyAt?_cases (hk : k < w.size) :
    w.blockBodyAt? k w.size = none ∧ s.blockBodyAt? (E.offset + k) s.size = none ∨
      ∃ bar bar', w.blockBodyAt? k w.size = some bar ∧
        s.blockBodyAt? (E.offset + k) s.size = some bar' ∧ E.At bar bar' := by
  have hfirst := E.at_skipGap (k := k + 1) hk
  have hafter := E.at_skipParameters hfirst
  rw [← Nat.add_assoc] at hfirst hafter
  simp only [Source.blockBodyAt?, hfirst.inj hafter, hafter.codeAt (x := '|') (by decide) (by decide)]
  split
  · exact .inr ⟨_, _, rfl, rfl, hfirst⟩
  · split
    · next hbar =>
      obtain ⟨hlt, heq⟩ := hafter.of_codeAt hbar
      refine .inr ⟨_, _, rfl, rfl, ?_⟩
      rw [heq]
      exact E.at_skipGap (k := w.skipParameters (w.skipGap (k + 1) w.size) w.size + 1) hlt
    · exact .inl ⟨rfl, rfl⟩

/-- A bar that is found in the statement is found there in both readings. -/
theorem find?_shift {x : Char} (hblank : Byte.isBlank x.toUInt8 = false)
    (hperiod : x.toUInt8 ≠ '.'.toUInt8) (k : Nat) :
    (∃ close, w.find? (·.isCodeChar x) k w.size = some close ∧
        s.find? (·.isCodeChar x) (E.offset + k) s.size = some (E.offset + close)) ∨
      w.find? (·.isCodeChar x) k w.size = none ∧
        ∀ close, s.find? (·.isCodeChar x) (E.offset + k) s.size = some close →
          E.right < close ∧ close < s.size := by
  have hsize := E.size_le
  cases hfind : w.find? (·.isCodeChar x) k w.size with
  | some close =>
    have hbounds := w.find?_bounds hfind
    refine .inl ⟨close, rfl, Source.find?_eq_some (by omega) (by omega) ?_ fun i hi hi' => ?_⟩
    · rw [E.holds_shift hbounds.2]
      exact Source.holds_of_find? hfind
    · obtain ⟨d, rfl⟩ := Nat.exists_eq_add_of_le (Nat.le_trans (Nat.le_add_right _ k) hi)
      rw [E.holds_shift (by omega)]
      exact Source.not_holds_before_find? hfind (by omega) (by omega)
  | none =>
    refine .inr ⟨rfl, fun close hclose => ?_⟩
    have hbounds := s.find?_bounds hclose
    have hfound := Source.holds_of_find? hclose
    refine ⟨Nat.lt_of_not_le fun hle => ?_, hbounds.2⟩
    rcases Nat.lt_or_ge close (E.offset + w.size) with hlt | hge
    · obtain ⟨d, rfl⟩ := Nat.exists_eq_add_of_le (Nat.le_trans (Nat.le_add_right _ k) hbounds.1)
      rw [E.holds_shift (by omega),
        Source.not_holds_of_find?_eq_none hfind (by omega) (by omega)] at hfound
      simp at hfound
    · have hpause := E.isPause_of_le hge hle hbounds.2
      rw [Source.holds_eq_of (fun _ => Cell.isCodeChar_of_isPause hblank hperiod) hpause] at hfound
      simp at hfound

theorem blockTemporariesAt?_shift (hk : k < w.size) :
    s.blockTemporariesAt? (E.offset + k) s.size =
      (w.blockTemporariesAt? k w.size).map (Span.shift E.offset) := by
  have hsize := E.size_le
  rw [Source.blockTemporariesAt?, Source.blockTemporariesAt?,
    E.codeAt_shift (x := '[') (by decide) (by decide) (Nat.le_of_lt hk)]
  split
  · rcases E.blockBodyAt?_cases hk with ⟨hnone, hnone'⟩ | ⟨bar, bar', hbar, hbar', hat⟩
    · rw [hnone, hnone']
      rfl
    · rw [hbar, hbar']
      simp only [hat.codeAt (x := '|') (by decide) (by decide)]
      cases hcode : w.codeAt bar '|' with
      | false => simp
      | true =>
        obtain ⟨hlt, rfl⟩ := hat.of_codeAt hcode
        rw [decide_eq_true hlt, decide_eq_true (show E.offset + bar < s.size by omega)]
        simp only [Bool.and_self, if_true]
        rcases E.find?_shift (x := '|') (by decide) (by decide) (bar + 1) with
          ⟨close, hclose, hclose'⟩ | ⟨hclose, hclose'⟩
        · have hbounds := w.find?_bounds hclose
          rw [hclose, Nat.add_assoc, hclose']
          simp only
          rw [E.all_holds_shift (by omega)]
          split <;> rfl
        · rw [hclose]
          cases hfind : s.find? (·.isCodeChar '|') (E.offset + bar + 1) s.size with
          | none => rfl
          | some close =>
            -- The period after the statement is not among names.
            obtain ⟨hlt', hclose''⟩ := hclose' close hfind
            have hle := E.le_right
            have hmem : E.right ∈ Span.offsets ⟨E.offset + bar + 1, close⟩ :=
              Span.mem_offsets.2 ⟨by simp only; omega, hlt'⟩
            have hterm := (E.closing (by omega)).1
            rw [Source.isTerminator, Bool.and_eq_true] at hterm
            simp only [Option.map_none, ite_eq_right_iff, reduceCtorEq, imp_false]
            intro hall
            have hname := List.all_eq_true.1 hall E.right hmem
            rw [Source.holds_eq_of (fun _ => Cell.isName_of_period) hterm.1] at hname
            simp at hname
  · rfl

/-- What is read at each offset of the statement is the same in both readings. -/
theorem filterMap_offsets {f g : Nat → Option Span}
    (h : ∀ k < w.size, f (E.offset + k) = (g k).map (Span.shift E.offset)) :
    (Span.offsets ⟨E.offset, E.offset + w.size⟩).filterMap f =
      ((Span.offsets ⟨0, w.size⟩).filterMap g).map (Span.shift E.offset) := by
  have hoffsets := Span.offsets_shift E.offset ⟨0, w.size⟩
  rw [Span.shift, Nat.add_zero] at hoffsets
  rw [hoffsets, List.filterMap_map, List.map_filterMap]
  refine List.filterMap_congr fun k hk => ?_
  rw [Span.mem_offsets] at hk
  rw [Function.comp_apply, h k hk.2]

/-- The offsets from the start of the statements on, cut at the ends of the excerpt. -/
theorem offsets_split : Span.offsets ⟨E.floor, s.size⟩ =
    Span.offsets ⟨E.floor, E.offset⟩ ++ (Span.offsets ⟨E.offset, E.offset + w.size⟩ ++
      Span.offsets ⟨E.offset + w.size, s.size⟩) := by
  have hle := Nat.le_trans E.floor_le E.left_le
  have hsize := E.size_le
  rw [Span.offsets_append hle (by omega),
    Span.offsets_append (b := E.offset + w.size) (by omega) hsize]

theorem blockTemporaries_shift {sp : Span} (hstop : sp.stop ≤ w.size) :
    (s.blockTemporaries ⟨E.floor, s.size⟩).any (·.overlaps (sp.shift E.offset)) =
      (w.blockTemporaries ⟨0, w.size⟩).any (·.overlaps sp) := by
  have hleft : ((Span.offsets ⟨E.floor, E.offset⟩).filterMap (s.blockTemporariesAt? · s.size)).any
      (·.overlaps (sp.shift E.offset)) = false := by
    rw [List.any_eq_false]
    intro block hblock
    obtain ⟨i, hi, hat⟩ := List.mem_filterMap.1 hblock
    rw [Span.mem_offsets] at hi
    obtain ⟨hopen, -, hchars⟩ := Source.not_period_of_blockTemporariesAt? hat
    obtain ⟨hlt, hterm, -⟩ := E.exists_period (by decide) (by decide) hopen hi.1 hi.2
    have hle : block.stop ≤ E.offset := Nat.le_of_not_lt fun hgt => by
      have hleft := E.left_le
      rw [Source.isTerminator, hchars _ (by omega) (by omega)] at hterm
      simp at hterm
    rw [Span.overlaps_of_le (by simp only [Span.shift]; omega)]
    simp
  have hright : ((Span.offsets ⟨E.offset + w.size, s.size⟩).filterMap
      (s.blockTemporariesAt? · s.size)).any (·.overlaps (sp.shift E.offset)) = false := by
    rw [List.any_eq_false]
    intro block hblock
    obtain ⟨i, hi, hat⟩ := List.mem_filterMap.1 hblock
    have hle : E.offset + w.size ≤ i := (Span.mem_offsets.1 hi).1
    obtain ⟨-, hlt, -⟩ := Source.not_period_of_blockTemporariesAt? hat
    rw [Span.overlaps_of_ge (by simp only [Span.shift]; omega)]
    simp
  simp only [Source.blockTemporaries]
  rw [E.offsets_split, List.filterMap_append, List.filterMap_append, List.any_append,
    List.any_append, hleft, hright, Bool.false_or, Bool.or_false,
    E.filterMap_offsets fun k hk => E.blockTemporariesAt?_shift hk, List.any_map]
  simp only [Function.comp_def, Span.overlaps_shift]

end Excerpt

/-! ## Regions -/

/-- The region from an offset to the end of the text. -/
def Source.regionFrom (src : Source) (i : Nat) : SendRegion :=
  ⟨⟨i, src.size⟩, src.literalArrays ⟨i, src.size⟩ ++ src.blockTemporaries ⟨i, src.size⟩⟩

theorem Source.sendRegion_eq (src : Source) :
    src.sendRegion = src.regionFrom src.statementRegion.start := rfl

theorem Excerpt.admits_shift {w s : Source} (E : Excerpt w s) {sp : Span} (hlt : sp.start < sp.stop)
    (hstop : sp.stop ≤ w.size) :
    (s.regionFrom E.floor).admits (sp.shift E.offset) = (w.regionFrom 0).admits sp := by
  have hle := Nat.le_trans E.floor_le E.left_le
  have hsize := E.size_le
  have hcontains : (Span.mk E.floor s.size).contains (sp.shift E.offset) = true := by
    rw [Span.contains_iff]
    simp only [Span.shift]
    omega
  have hcontains' : (Span.mk 0 w.size).contains sp = true :=
    Span.contains_iff.2 ⟨Nat.zero_le _, hstop⟩
  have harrays : (s.literalArraysFrom E.floor s.size).any (·.overlaps (sp.shift E.offset)) =
      (w.literalArraysFrom 0 w.size).any (·.overlaps sp) := by
    rw [E.literalArraysFrom_left (Nat.le_add_right ..) (Nat.le_refl _) hle]
    exact E.literalArraysFrom_shift (k := 0) (by omega) hstop (Nat.zero_le _)
  simp only [SendRegion.admits, Source.regionFrom, Source.literalArrays, List.any_append, hcontains,
    hcontains', harrays, E.blockTemporaries_shift hstop]

end MethodBrowser
