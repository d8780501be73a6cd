import MethodBrowser.Proofs.Source.Preamble
import MethodBrowser.Proofs.StatementSends

/-!
# How statements lie in a body

A body is laid out as sentences with periods between them and white space and comments around them
(`Source.Layout`). Every region of a source is laid out in this way, and in one way only: the layout is
what splitting into statements finds (`Source.layout_statements`, `Source.Layout.statementsIn_eq`). So
all that is to be known of statements is read off the layout (`statements_laidOut`).

**Why splitting a statement again does nothing.** A sentence starts where no group is open. Whether a
period cuts it is therefore seen in the sentence alone (`Sentence.whole`), and a sentence is the layout
of its own span.
-/

namespace MethodBrowser

namespace Nesting

theorem eq_empty {n : Nesting} (h : n.isTopLevel = true) : n = .empty := by
  obtain ⟨parens, brackets, braces⟩ := n
  simp only [isTopLevel, Bool.and_eq_true, beq_iff_eq] at h
  simp [empty, h]

end Nesting

namespace Source

variable {src : Source} {i j k c stop : Nat} {n : Nesting} {sp : Span}

/-! ## White space and comments -/

/-- Nothing significant stands from `i` up to `j`. -/
def Idle (src : Source) (i j : Nat) : Prop := ∀ k, i ≤ k → k < j → src.isSignificant k = false

theorem idle_self (src : Source) (i : Nat) : src.Idle i i := fun _ _ _ => by omega

theorem Idle.mono {i' j' : Nat} (h : src.Idle i j) (hi : i ≤ i') (hj : j' ≤ j) : src.Idle i' j' :=
  fun k hik hkj => h k (by omega) (by omega)

theorem isSignificant_of_codeAt {x : Char} (hx : Byte.isBlank x.toUInt8 = false)
    (h : src.codeAt k x = true) : src.isSignificant k = true := by
  refine holds_of_imp (fun c hc => ?_) h
  rw [Cell.isCodeChar, Cell.isCode, Bool.and_eq_true, beq_iff_eq, beq_iff_eq] at hc
  rw [Cell.isSignificant, hc.1, hc.2, hx]
  rfl

theorem Idle.codeAt {x : Char} (h : src.Idle i j) (hx : Byte.isBlank x.toUInt8 = false)
    (hik : i ≤ k) (hkj : k < j) : src.codeAt k x = false := by
  by_contra hcode
  have hsignificant := isSignificant_of_codeAt hx (by simpa using hcode)
  rw [h k hik hkj] at hsignificant
  simp at hsignificant

theorem nest_of_not_isSignificant (h : src.isSignificant k = false) : src.nest n k = n := by
  rw [isSignificant, holds] at h
  rw [nest, codeByte?]
  cases hcell : src.cells[k]? with
  | none => rfl
  | some cell =>
    obtain ⟨b, kind⟩ := cell
    cases kind with
    | code =>
      simp only [hcell, Option.any_some, Cell.isSignificant, Bool.not_eq_false'] at h
      simp [Nesting.step, Nesting.step?_of_isBlank h]
    | string => rfl
    | comment => rfl

/-- White space and comments open and close nothing. -/
theorem Idle.nestFrom (h : src.Idle i j) : src.nestFrom n i j = n := by
  induction hd : j - i generalizing i n with
  | zero =>
    rw [Source.nestFrom, Span.offsets_nil (by omega)]
    rfl
  | succ d ih =>
    rw [nestFrom_cons (by omega), nest_of_not_isSignificant (h i (Nat.le_refl _) (by omega)),
      ih (h.mono (by omega) (Nat.le_refl _)) (by omega)]

theorem Idle.endsStatement (h : src.Idle i j) (hik : i ≤ k) (hkj : k < j) :
    src.endsStatement n c k = false :=
  endsStatement_of_not_period (h.codeAt (by decide) hik hkj)

/-- A byte that is not idle. -/
theorem isSignificant_of_not_holds (hk : k < src.size)
    (h : src.holds (fun c => !c.isSignificant) k = false) : src.isSignificant k = true := by
  rw [holds, Array.getElem?_eq_getElem hk, Option.any_some, Bool.not_eq_false'] at h
  rw [isSignificant, holds, Array.getElem?_eq_getElem hk, Option.any_some, h]

/-- A run that ends where its predicate does not hold. -/
theorem not_holds_runStart {p : Cell → Bool} (h : i < src.runStart p j i) :
    src.holds p (src.runStart p j i - 1) = false := by
  fun_induction runStart src p j i with
  | case1 j hlt hp ih => exact ih h
  | case2 j hlt hp => simpa using hp
  | case3 j hlt => omega

theorem nestFrom_self : src.nestFrom n i i = n := by
  rw [nestFrom, Span.offsets_nil (Nat.le_refl _), List.foldl_nil]

theorem nestFrom_succ (h : i ≤ j) : src.nestFrom n i (j + 1) = src.nest (src.nestFrom n i j) j := by
  rw [nestFrom_trans h (Nat.le_succ j), nestFrom_cons (Nat.lt_succ_self j), nestFrom_self]

/-- Narrowing finds nothing, or what stands between white space and comments. -/
theorem trim?_cases (i : Nat) (hj : j ≤ src.size) :
    src.trim? ⟨i, j⟩ = none ∧ src.Idle i j ∨
      ∃ sp, src.trim? ⟨i, j⟩ = some sp ∧ i ≤ sp.start ∧ sp.start < sp.stop ∧ sp.stop ≤ j ∧
        src.Idle i sp.start ∧ src.Idle sp.stop j ∧ src.isSignificant sp.start = true ∧
        src.isSignificant (sp.stop - 1) = true := by
  generalize hfirst : src.runEnd (fun c => !c.isSignificant) i j = first
  have hle : i ≤ first := hfirst ▸ src.le_runEnd ..
  have hidle : ∀ {k}, src.holds (fun c => !c.isSignificant) k = true → src.isSignificant k = false :=
    holds_eq_of fun c hc => by simpa using hc
  have hbefore : src.Idle i first := fun k hik hkj => hidle (holds_of_lt_runEnd hik (hfirst ▸ hkj))
  rcases Nat.lt_or_ge first j with hlt | hge
  · right
    have hsignificant : src.isSignificant first = true :=
      isSignificant_of_not_holds (by omega) (hfirst ▸ not_holds_runEnd (hfirst ▸ hlt))
    generalize hlast : src.runStart (fun c => !c.isSignificant) j first = last
    have hlt' : first < last := hlast ▸ lt_runStart_of_not_holds hlt
      (holds_eq_of (by simp) hsignificant)
    have hle' : last ≤ j := hlast ▸ src.runStart_le ..
    refine ⟨⟨first, last⟩, ?_, hle, hlt', hle', hbefore, ?_, hsignificant, ?_⟩
    · simp only [trim?, hfirst, hlast]
      rw [if_pos hlt]
    · exact fun k hk hkj => hidle (holds_of_runStart_le (hlast ▸ hk) hkj)
    · exact isSignificant_of_not_holds (by simp only; omega)
        (hlast ▸ not_holds_runStart (hlast ▸ hlt'))
  · left
    refine ⟨?_, hbefore.mono (Nat.le_refl _) hge⟩
    simp only [trim?, hfirst]
    rw [if_neg (by omega)]

theorem trim?_eq_none (hj : j ≤ src.size) (h : src.Idle i j) :
    src.trim? ⟨i, j⟩ = none := by
  rcases trim?_cases i hj with ⟨htrim, -⟩ | ⟨sp, -, hi, hlt, hle, -, -, hfirst, -⟩
  · exact htrim
  · rw [h sp.start hi (by omega)] at hfirst
    simp at hfirst

/-- What is narrowed to is known by its ends. -/
theorem trim?_eq (hij : i ≤ sp.start) (hj : sp.stop ≤ j) (hsize : j ≤ src.size)
    (hbefore : src.Idle i sp.start) (hafter : src.Idle sp.stop j) (hlt : sp.start < sp.stop)
    (hfirst : src.isSignificant sp.start = true) (hlast : src.isSignificant (sp.stop - 1) = true) :
    src.trim? ⟨i, j⟩ = some sp := by
  have hend : ∀ {a b k}, src.Idle a b → src.isSignificant k = true → a ≤ k → b ≤ k :=
    fun {a b k} hidle hk hak => Nat.le_of_not_lt fun hkb => by simp [hidle k hak hkb] at hk
  rcases trim?_cases i hsize with
    ⟨-, hidle⟩ | ⟨sp', htrim, hi, hlt', hj', hbefore', hafter', hfirst', hlast'⟩
  · have := hend hidle hfirst hij
    omega
  · have h₁ := hend hbefore hfirst' hi
    have h₂ := hend hbefore' hfirst hij
    have h₃ : sp'.stop ≤ sp.stop := Nat.le_of_not_lt fun hgt => by
      have := hend hafter hlast' (by omega)
      omega
    have h₄ : sp.stop ≤ sp'.stop := Nat.le_of_not_lt fun hgt => by
      have := hend hafter' hlast (by omega)
      omega
    rw [htrim]
    obtain ⟨a, b⟩ := sp
    obtain ⟨a', b'⟩ := sp'
    simp only at h₁ h₂ h₃ h₄
    rw [Nat.le_antisymm h₁ h₂, Nat.le_antisymm h₃ h₄]

/-! ## Layouts -/

/-- What starts and ends with a significant byte, and is not cut by a period if no group is open at its
start. -/
structure Sentence (src : Source) (sp : Span) : Prop where
  lt : sp.start < sp.stop
  first : src.isSignificant sp.start = true
  last : src.isSignificant (sp.stop - 1) = true
  whole : ∀ k, sp.start ≤ k → k < sp.stop → src.endsStatement .empty sp.start k = false

/-- The sentences from `c` up to `stop`. Each is followed by a period on its level, the last one may
go without; there may be a period without a sentence. -/
inductive Layout (src : Source) (stop : Nat) : Nat → List Span → Prop
  | idle {c : Nat} : c ≤ stop → src.Idle c stop → Layout src stop c []
  | last {c : Nat} {sp : Span} : c ≤ sp.start → src.Idle c sp.start → src.Sentence sp →
      sp.stop ≤ stop → src.Idle sp.stop stop → Layout src stop c [sp]
  | skip {c k : Nat} {spans : List Span} : c ≤ k → k < stop → src.Idle c k →
      src.isTerminator k = true → Layout src stop (k + 1) spans → Layout src stop c spans
  | cons {c k : Nat} {sp : Span} {spans : List Span} : c ≤ sp.start → src.Idle c sp.start →
      src.Sentence sp → src.nestFrom .empty sp.start sp.stop = .empty → sp.stop ≤ k → k < stop →
      src.Idle sp.stop k → src.isTerminator k = true → Layout src stop (k + 1) spans →
      Layout src stop c (sp :: spans)

/-- What precedes a sentence does not matter if no group is open there. -/
theorem Sentence.of_idle (hc : c ≤ sp.start) (hidle : src.Idle c sp.start) (hlt : sp.start < sp.stop)
    (hfirst : src.isSignificant sp.start = true) (hlast : src.isSignificant (sp.stop - 1) = true)
    (hwhole : ∀ k, c ≤ k → k < sp.stop → src.endsStatement .empty c k = false) :
    src.Sentence sp := by
  refine ⟨hlt, hfirst, hlast, fun k hstart hstop => ?_⟩
  rw [← hwhole k (by omega) hstop, endsStatement_trans hc hstart, hidle.nestFrom]

/-- No group is open after a sentence that closes what it opens. -/
theorem nestFrom_of_balanced (hc : c ≤ sp.start) (hbefore : src.Idle c sp.start)
    (hlt : sp.start < sp.stop) (hbalanced : src.nestFrom .empty sp.start sp.stop = .empty)
    (hle : sp.stop ≤ k) (hafter : src.Idle sp.stop k) : src.nestFrom .empty c k = .empty := by
  rw [nestFrom_trans hc (by omega), nestFrom_trans (Nat.le_of_lt hlt) hle, hbefore.nestFrom,
    hbalanced, hafter.nestFrom]

/-- Nor is one open after a period. -/
theorem nestFrom_of_period (hck : c ≤ k) (hterm : src.isTerminator k = true)
    (hopen : src.nestFrom n c k = .empty) : src.nestFrom n c (k + 1) = .empty := by
  rw [nestFrom_succ hck, hopen, nest_of_isTerminator hterm]

/-! ### Splitting finds a layout -/

/-- The pieces of a region, narrowed, are its layout. -/
theorem layout_pieces (hstop : stop ≤ src.size) (hci : c ≤ i) (hi : i ≤ stop)
    (hwhole : ∀ k, c ≤ k → k < i → src.endsStatement .empty c k = false) :
    src.Layout stop c ((src.pieces stop c (src.nestFrom .empty c i) (Span.offsets ⟨i, stop⟩)).filterMap
      src.trim?) := by
  induction hd : stop - i generalizing c i with
  | zero =>
    obtain rfl : i = stop := by omega
    rw [Span.offsets_nil (Nat.le_refl _), pieces]
    rcases trim?_cases c hstop with
      ⟨htrim, hidle⟩ | ⟨sp, htrim, hc, hlt, hle, hbefore, hafter, hfirst, hlast⟩
    · rw [List.filterMap_cons_none htrim]
      exact .idle hci hidle
    · rw [List.filterMap_cons_some htrim]
      exact .last hc hbefore (.of_idle hc hbefore hlt hfirst hlast fun k hk hk' =>
        hwhole k hk (by omega)) hle hafter
  | succ d ih =>
    rw [Span.offsets_cons (by omega), pieces, ← nestFrom_succ hci]
    by_cases hend : ((src.nestFrom .empty c (i + 1)).isTopLevel && src.isTerminator i) = true
    · rw [if_pos hend]
      rw [Bool.and_eq_true] at hend
      have hopen := Nesting.eq_empty hend.1
      have hrest := ih (c := i + 1) (i := i + 1) (Nat.le_refl _) (by omega)
        (fun k hk hk' => by omega) (by omega)
      rw [nestFrom_self] at hrest
      rw [hopen]
      -- The period itself opens and closes nothing.
      rw [nestFrom_succ hci, nest_of_isTerminator hend.2] at hopen
      rcases trim?_cases c (show i ≤ src.size by omega) with
        ⟨htrim, hidle⟩ | ⟨sp, htrim, hc, hlt, hle, hbefore, hafter, hfirst, hlast⟩
      · rw [List.filterMap_cons_none htrim]
        exact .skip hci (by omega) hidle hend.2 hrest
      · rw [List.filterMap_cons_some htrim]
        rw [nestFrom_trans hc (by omega), nestFrom_trans (Nat.le_of_lt hlt) hle, hbefore.nestFrom,
          hafter.nestFrom] at hopen
        exact .cons hc hbefore (.of_idle hc hbefore hlt hfirst hlast fun k hk hk' =>
          hwhole k hk (by omega)) hopen hle (by omega) hafter hend.2 hrest
    · rw [if_neg hend]
      refine ih (by omega) (by omega) (fun k hk hk' => ?_) (by omega)
      rcases Nat.lt_or_ge k i with hlt | hge
      · exact hwhole k hk hlt
      · obtain rfl : k = i := by omega
        rw [endsStatement]
        simpa using hend

theorem statementsIn_eq_map (src : Source) (region : Span) :
    src.statementsIn region =
      ((src.pieces region.stop region.start .empty region.offsets).filterMap src.trim?).map
        fun sp => ⟨sp, src.statementKind sp⟩ := by
  rw [statementsIn, List.map_filterMap]
  rfl

/-- The statements of a method are the sentences of its body. -/
theorem layout_statements (src : Source) :
    src.Layout src.size src.statementRegion.start (src.statements.map (·.span)) := by
  have hlayout := layout_pieces (Nat.le_refl src.size) (Nat.le_refl src.statementRegion.start)
    src.region_start_le (fun k hk hk' => by omega)
  rw [nestFrom_self] at hlayout
  rw [statements, statementsIn_eq_map, List.map_map]
  exact (List.map_id _).symm ▸ hlayout

/-! ### A layout is what splitting finds -/

/-- Offsets that end no statement are passed over. -/
theorem pieces_of_whole (hij : i ≤ j) (hj : j ≤ stop)
    (h : ∀ k, i ≤ k → k < j → src.endsStatement n i k = false) :
    src.pieces stop c n (Span.offsets ⟨i, stop⟩) =
      src.pieces stop c (src.nestFrom n i j) (Span.offsets ⟨j, stop⟩) := by
  induction hd : j - i generalizing i n with
  | zero =>
    obtain rfl : i = j := by omega
    rw [nestFrom_self]
  | succ d ih =>
    have hhere := h i (Nat.le_refl _) (by omega)
    rw [endsStatement_self] at hhere
    rw [Span.offsets_cons (by omega), pieces, hhere, if_neg (by simp), nestFrom_cons (by omega)]
    refine ih (by omega) (fun k hk hk' => ?_) (by omega)
    rw [← endsStatement_of_lt (by omega)]
    exact h k (by omega) hk'

/-- The last piece of a region. -/
theorem pieces_of_last (hi : i ≤ stop)
    (h : ∀ k, i ≤ k → k < stop → src.endsStatement n i k = false) :
    src.pieces stop c n (Span.offsets ⟨i, stop⟩) = [⟨c, stop⟩] := by
  rw [pieces_of_whole hi (Nat.le_refl _) h, Span.offsets_nil (Nat.le_refl _), pieces]

/-- A piece that ends at a period. -/
theorem pieces_of_period (hik : i ≤ k) (hk : k < stop) (hopen : src.nestFrom n i k = .empty)
    (hterm : src.isTerminator k = true)
    (h : ∀ j, i ≤ j → j < k → src.endsStatement n i j = false) :
    src.pieces stop c n (Span.offsets ⟨i, stop⟩) =
      ⟨c, k⟩ :: src.pieces stop (k + 1) .empty (Span.offsets ⟨k + 1, stop⟩) := by
  rw [pieces_of_whole hik (Nat.le_of_lt hk) h, Span.offsets_cons hk, pieces, hopen,
    nest_of_isTerminator hterm, hterm]
  rfl

/-- The counters after a sentence and before it, seen from its surroundings. -/
theorem Sentence.endsStatement_eq (h : src.Sentence sp) (hc : c ≤ sp.start)
    (hbefore : src.Idle c sp.start) (hafter : src.Idle sp.stop j) (hck : c ≤ k) (hkj : k < j) :
    src.endsStatement .empty c k = false := by
  rcases Nat.lt_or_ge k sp.start with hlt | hge
  · exact hbefore.endsStatement hck hlt
  · rcases Nat.lt_or_ge k sp.stop with hlt' | hge'
    · rw [endsStatement_trans hc hge, hbefore.nestFrom]
      exact h.whole k hge hlt'
    · exact hafter.endsStatement hge' hkj

namespace Layout

variable {spans : List Span}

theorem filterMap_pieces (h : src.Layout stop c spans) (hstop : stop ≤ src.size) :
    (src.pieces stop c .empty (Span.offsets ⟨c, stop⟩)).filterMap src.trim? = spans := by
  induction h with
  | @idle c hc hidle =>
    rw [pieces_of_last hc fun k hk hk' => hidle.endsStatement hk hk',
      List.filterMap_cons_none (trim?_eq_none hstop hidle)]
    rfl
  | @last c sp hc hbefore hsp hle hafter =>
    have hlt := hsp.lt
    rw [pieces_of_last (by omega) fun k hk hk' => hsp.endsStatement_eq hc hbefore hafter hk hk',
      List.filterMap_cons_some
        (trim?_eq hc hle hstop hbefore hafter hsp.lt hsp.first hsp.last)]
    rfl
  | @skip c k spans hck hk hidle hterm _ ih =>
    rw [pieces_of_period hck hk hidle.nestFrom hterm fun j hj hj' => hidle.endsStatement hj hj']
    rw [List.filterMap_cons_none (trim?_eq_none (by omega) hidle), ih]
  | @cons c k sp spans hc hbefore hsp hopen hle hk hafter hterm _ ih =>
    have hlt := hsp.lt
    have hopen' := nestFrom_of_balanced hc hbefore hlt hopen hle hafter
    rw [pieces_of_period (by omega) hk hopen' hterm fun j hj hj' =>
        hsp.endsStatement_eq hc hbefore hafter hj hj',
      List.filterMap_cons_some
        (trim?_eq hc hle (by omega) hbefore hafter hsp.lt hsp.first hsp.last), ih]

theorem statementsIn_eq (h : src.Layout stop c spans) (hstop : stop ≤ src.size) :
    src.statementsIn ⟨c, stop⟩ = spans.map fun sp => ⟨sp, src.statementKind sp⟩ := by
  rw [statementsIn_eq_map, h.filterMap_pieces hstop]

/-! ### What is known of sentences -/

/-- No group is open where a sentence starts. -/
theorem sentence (h : src.Layout stop c spans) :
    ∀ sp ∈ spans, c ≤ sp.start ∧ sp.stop ≤ stop ∧ src.Sentence sp ∧
      src.nestFrom .empty c sp.start = .empty := by
  induction h with
  | idle => simp
  | last hc hbefore hsp hle _ =>
    exact List.forall_mem_singleton.2 ⟨hc, hle, hsp, hbefore.nestFrom⟩
  | @skip c k spans hck _ hidle hterm _ ih =>
    intro sp hmem
    obtain ⟨hk, hle, hsp, hopen⟩ := ih sp hmem
    refine ⟨by omega, hle, hsp, ?_⟩
    rw [nestFrom_trans (Nat.le_succ_of_le hck) hk, nestFrom_of_period hck hterm hidle.nestFrom,
      hopen]
  | @cons c k sp spans hc hbefore hsp hbalanced hle hk hafter hterm _ ih =>
    have hlt := hsp.lt
    refine List.forall_mem_cons.2 ⟨⟨hc, by omega, hsp, hbefore.nestFrom⟩, fun sp' hmem => ?_⟩
    obtain ⟨hk', hle', hsp', hopen'⟩ := ih sp' hmem
    have hck : c ≤ k := by omega
    have hopen := nestFrom_of_balanced hc hbefore hlt hbalanced hle hafter
    refine ⟨by omega, hle', hsp', ?_⟩
    rw [nestFrom_trans (Nat.le_succ_of_le hck) hk', nestFrom_of_period hck hterm hopen, hopen']

/-- Every significant byte is in a sentence or ends a statement. -/
theorem exists_contains_or_endsStatement (h : src.Layout stop c spans)
    (hk : src.isSignificant k = true) (hck : c ≤ k) (hkstop : k < stop) :
    (∃ sp ∈ spans, sp.contains ⟨k, k + 1⟩ = true) ∨ src.endsStatement .empty c k = true := by
  have hout : ∀ {a b}, src.Idle a b → a ≤ k → b ≤ k := fun {a b} hidle hak =>
    Nat.le_of_not_lt fun hkb => by simp [hidle k hak hkb] at hk
  induction h with
  | idle _ hidle =>
    have := hout hidle hck
    omega
  | @last c sp hc hbefore hsp hle hafter =>
    have hstart := hout hbefore hck
    refine .inl ⟨sp, by simp, Span.contains_iff.2 ⟨hstart, Nat.succ_le_of_lt ?_⟩⟩
    refine Nat.lt_of_not_le fun hge => ?_
    have := hout hafter hge
    omega
  | @skip c e spans hce he hidle hterm _ ih =>
    rcases Nat.eq_or_lt_of_le (hout hidle hck) with rfl | hlt
    · right
      rw [endsStatement, nestFrom_of_period hce hterm hidle.nestFrom, hterm]
      rfl
    · refine (ih hlt).imp_right fun hends => ?_
      rw [endsStatement_trans (Nat.le_succ_of_le hce) hlt,
        nestFrom_of_period hce hterm hidle.nestFrom, hends]
  | @cons c e sp spans hc hbefore hsp hbalanced hle he hafter hterm _ ih =>
    have hlt := hsp.lt
    have hce : c ≤ e := by omega
    have hopen := nestFrom_of_period hce hterm
      (nestFrom_of_balanced hc hbefore hlt hbalanced hle hafter)
    have hstart := hout hbefore hck
    rcases Nat.lt_or_ge k sp.stop with hin | hge
    · exact .inl ⟨sp, by simp, Span.contains_iff.2 ⟨hstart, hin⟩⟩
    · rcases Nat.eq_or_lt_of_le (hout hafter hge) with rfl | hlt'
      · right
        rw [endsStatement, hopen, hterm]
        rfl
      · rcases ih hlt' with ⟨sp', hmem, hin⟩ | hends
        · exact .inl ⟨sp', List.mem_cons_of_mem _ hmem, hin⟩
        · right
          rw [endsStatement_trans (Nat.le_succ_of_le hce) hlt', hopen, hends]

end Layout

/-- A sentence by itself is one statement. -/
theorem Sentence.statementsIn (h : src.Sentence sp) (hsize : sp.stop ≤ src.size) :
    src.statementsIn sp = [⟨sp, src.statementKind sp⟩] :=
  (Layout.last (Nat.le_refl _) (src.idle_self _) h (Nat.le_refl _) (src.idle_self _)).statementsIn_eq
    hsize

end Source

/-! ## The theorem -/

theorem mem_statements_of_outline {text : String} {st : OutlineStatement}
    (h : st ∈ (Outline.ofText text).statements) :
    ⟨st.span, st.kind⟩ ∈ (Source.ofText text).statements := by
  simp only [Outline.ofText, List.mem_mapIdx] at h
  obtain ⟨i, hi, rfl⟩ := h
  simp only [OutlineStatement.ofStatement]
  exact List.getElem_mem hi

theorem kind_of_mem_statements {src : Source} {st : Statement} (h : st ∈ src.statements) :
    st.kind = src.statementKind st.span := by
  rw [Source.statements, Source.statementsIn_eq_map] at h
  obtain ⟨sp, -, rfl⟩ := List.mem_map.1 h
  rfl

/-- Statements are numbered in order, lie apart in the body and start and end with significant bytes.
A significant byte of the body is in one statement, unless it is a period that ends a statement. A
statement that is split again is found as it is. -/
theorem statements_laidOut (text : String) :
    let src := Source.ofText text
    let start := (src.preamble src.bodyStart).stop
    let statements := (Outline.ofText text).statements
    (∀ st ∈ statements, start ≤ st.span.start ∧ st.span.start < st.span.stop ∧
        st.span.stop ≤ src.size ∧ src.isSignificant st.span.start = true ∧
        src.isSignificant (st.span.stop - 1) = true) ∧
      statements.Pairwise (fun a b => a.span.stop ≤ b.span.start) ∧
      statements.map (·.index) = List.range' 1 statements.length ∧
      (∀ k, start ≤ k → src.isSignificant k = true →
        statements.countP (fun st => st.span.contains ⟨k, k + 1⟩) = 1 ∧
            src.endsStatement .empty start k = false ∨
          statements.countP (fun st => st.span.contains ⟨k, k + 1⟩) = 0 ∧
            src.endsStatement .empty start k = true) ∧
      ∀ st ∈ statements, src.statementsIn st.span = [⟨st.span, st.kind⟩] := by
  intro src start statements
  have hlayout := src.layout_statements
  have hspans : statements.map (·.span) = src.statements.map (·.span) := by
    have h := congrArg (List.map Prod.fst) (statements_outline text)
    rwa [List.map_map, List.map_map] at h
  have hsentence : ∀ st ∈ statements, start ≤ st.span.start ∧ st.span.stop ≤ src.size ∧
      src.Sentence st.span ∧ src.nestFrom .empty start st.span.start = .empty := fun st hst =>
    hlayout.sentence st.span (List.mem_map_of_mem (mem_statements_of_outline hst))
  have hapart : (statements.map (·.span)).Pairwise fun a b => a.stop ≤ b.start := by
    rw [hspans]
    exact List.pairwise_map.2 src.pairwise_statements
  refine ⟨fun st hst => ?_, List.pairwise_map.1 hapart, ?_, fun k hstart hk => ?_, fun st hst => ?_⟩
  · obtain ⟨hle, hsize, hsp, -⟩ := hsentence st hst
    exact ⟨hle, hsp.lt, hsize, hsp.first, hsp.last⟩
  · refine List.ext_getElem (by simp) fun i h₁ h₂ => ?_
    simp [statements, Outline.ofText, OutlineStatement.ofStatement, Nat.add_comm]
  · by_cases hin : ∃ st ∈ statements, st.span.contains ⟨k, k + 1⟩ = true
    · left
      obtain ⟨st, hst, hcontains⟩ := hin
      constructor
      · have hcount := countP_contains_eq_one hapart
          (show (Span.mk k (k + 1)).start < (Span.mk k (k + 1)).stop from Nat.lt_succ_self k)
          ⟨st.span, List.mem_map_of_mem hst, hcontains⟩
        rwa [List.countP_map] at hcount
      · obtain ⟨hle, -, hsp, hopen⟩ := hsentence st hst
        rw [Span.contains_iff] at hcontains
        rw [Source.endsStatement_trans hle hcontains.1, hopen]
        exact hsp.whole k hcontains.1 hcontains.2
    · right
      refine ⟨List.countP_eq_zero.2 fun st hst hcontains => hin ⟨st, hst, hcontains⟩, ?_⟩
      refine (hlayout.exists_contains_or_endsStatement hk hstart
        (Source.lt_size_of_holds hk)).resolve_left ?_
      rintro ⟨sp, hsp, hcontains⟩
      rw [← hspans] at hsp
      obtain ⟨st, hst, rfl⟩ := List.mem_map.1 hsp
      exact hin ⟨st, hst, hcontains⟩
  · obtain ⟨-, hsize, hsp, -⟩ := hsentence st hst
    have hkind := kind_of_mem_statements (mem_statements_of_outline hst)
    rw [hsp.statementsIn hsize, ← hkind]

end MethodBrowser
