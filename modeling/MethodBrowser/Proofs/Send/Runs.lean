import Mathlib.Data.List.Pairwise
import MethodBrowser.Proofs.Send.AlignedKeyword

/-!
# Keyword runs

No keyword belongs to two runs (`Source.tokens_disjoint`), so the runs of a method can be edited
apart from each other.

**Counting from different places.** A run counts the groups that are open from its first keyword
on. Suppose a second run starts inside a first one. The groups that the first run has open there
stay open as long as the second run goes on, because it ends where its own group is closed. So while
the second run takes keywords, the first one is inside a group and takes none.
-/

namespace MethodBrowser

namespace Nesting

/-- The groups that are open when those of `n` are opened before those of `m`. -/
def add (n m : Nesting) : Nesting :=
  ⟨n.parens + m.parens, n.brackets + m.brackets, n.braces + m.braces⟩

theorem add_empty (n : Nesting) : n.add .empty = n := rfl

theorem isTopLevel_add {n : Nesting} (h : n.isTopLevel = false) (m : Nesting) :
    (n.add m).isTopLevel = false := by
  simp only [isTopLevel, add, Bool.and_eq_false_iff, beq_eq_false_iff_ne] at h ⊢
  omega

/-- What is open before does not matter as long as only inner groups are closed. -/
theorem step?_add {n m m' : Nesting} {b : UInt8} (h : m.step? b = some m') :
    (n.add m).step? b = some (n.add m') := by
  unfold step? at h ⊢
  split at h
  · obtain rfl := Option.some.inj h; rfl
  · obtain rfl := Option.some.inj h; rfl
  · obtain rfl := Option.some.inj h; rfl
  · split at h
    · simp at h
    · obtain rfl := Option.some.inj h
      rw [if_neg (by simp only [add]; omega)]
      simp only [add, Option.some.injEq, mk.injEq, and_true]
      omega
  · split at h
    · simp at h
    · obtain rfl := Option.some.inj h
      rw [if_neg (by simp only [add]; omega)]
      simp only [add, Option.some.injEq, mk.injEq, and_true, true_and]
      omega
  · split at h
    · simp at h
    · obtain rfl := Option.some.inj h
      rw [if_neg (by simp only [add]; omega)]
      simp only [add, Option.some.injEq, mk.injEq, true_and]
      omega
  · obtain rfl := Option.some.inj h; rfl

end Nesting

namespace Source

variable {src : Source} {i l : Nat} {n m : Nesting} {token : Span}

/-! ## A run byte by byte -/

/-- The keywords that continue a run, looked for at each byte. -/
def levelTail (src : Source) (n : Nesting) (i stop : Nat) : List Span :=
  if i < stop then
    match src.codeByte? i with
    | none => src.levelTail n (i + 1) stop
    | some b =>
      if n.isTopLevel && src.endsRun i then []
      else
        match n.step? b with
        | none => []
        | some n' =>
          (if n'.isTopLevel then (src.keywordAt? i stop).toList else []) ++
            src.levelTail n' (i + 1) stop
  else []
termination_by stop - i

theorem levelTail_of_le (h : l ≤ i) : src.levelTail n i l = [] := by
  rw [levelTail, if_neg (by omega)]

theorem endsRun_of_isWordChar (h : src.holds Cell.isWordChar i = true) : src.endsRun i = false := by
  simp only [endsRun, isTerminator]
  rw [codeAt_of_isWordChar (by decide) h, codeAt_of_isWordChar (by decide) h,
    codeAt_of_isWordChar (by decide) h]
  rfl

/-- The counters stay the same inside a word and at a colon. -/
theorem levelTail_of_inner (hlt : i < l) (h : src.Inner i) :
    src.levelTail n i l = src.levelTail n (i + 1) l := by
  obtain ⟨b, hb, hident⟩ := codeByte?_of_isWordChar h.here
  conv_lhs => rw [levelTail]
  simp [hlt, hb, endsRun_of_isWordChar h.here, Nesting.step?_of_isIdent hident, h.keywordAt?]

theorem levelTail_of_colon (h : src.codeAt i ':' = true) :
    src.levelTail n i l = src.levelTail n (i + 1) l := by
  rcases Nat.lt_or_ge i l with hlt | hle
  · have hends : src.endsRun i = false := by
      simp only [endsRun, isTerminator]
      rw [codeAt_ne (by decide) h, codeAt_ne (by decide) h, codeAt_ne (by decide) h]
      rfl
    have hkeyword : src.keywordAt? i l = none := by
      have hletter : src.holds Cell.isLetter i = false := holds_eq_of (fun c hc => by
        rw [Cell.isCodeChar, Bool.and_eq_true, beq_iff_eq] at hc
        rw [Cell.isLetter, hc.2]
        exact Bool.and_eq_false_imp.2 fun _ => by decide) h
      simp [keywordAt?, wordAt?_eq, hletter]
    have hstep : n.step? ':'.toUInt8 = some n := rfl
    conv_lhs => rw [levelTail]
    simp [hlt, codeByte?_of_codeAt h, hends, hkeyword, hstep]
  · rw [levelTail_of_le hle, levelTail_of_le (by omega)]

theorem levelTail_of_inner_run {k : Nat} (hk : i + k ≤ l) (h : ∀ j < k, src.Inner (i + j)) :
    src.levelTail n i l = src.levelTail n (i + k) l := by
  induction k with
  | zero => rfl
  | succ k ih =>
    rw [ih (by omega) fun j hj => h j (by omega),
      levelTail_of_inner (by omega) (h k (by omega))]
    rfl

/-- The characters of a word that is read. -/
theorem isWordChar_of_wordAt? {word : Span} (h : src.wordAt? i l = some word) {k : Nat}
    (hik : i ≤ k) (hk : k < word.stop) : src.holds Cell.isWordChar k = true := by
  rw [wordAt?_eq] at h
  split at h
  · next hif =>
    obtain rfl := Option.some.inj h
    simp only [Bool.and_eq_true, isCodeSpan, List.all_eq_true] at hif
    exact holds_and (hif.2.2 k (Span.mem_offsets.2 ⟨hik, hk⟩)) (holds_of_lt_runEnd hik hk)
  · simp at h

/-- The characters of a keyword. -/
theorem keywordAt?_chars (h : src.keywordAt? i l = some token) {k : Nat} (hik : i ≤ k)
    (hk : k < token.stop) : src.holds Cell.isWordChar k = true ∨ src.codeAt k ':' = true := by
  obtain ⟨word, hw, -, hcolon, rfl⟩ := keywordAt?_eq_some h
  rcases Nat.lt_or_ge k word.stop with hlt | hge
  · exact .inl (isWordChar_of_wordAt? hw hik hlt)
  · obtain rfl : k = word.stop := Nat.le_antisymm (Nat.le_of_lt_succ hk) hge
    exact .inr hcolon

theorem inner_of_wordAt? {word : Span} (h : src.wordAt? i l = some word) {k : Nat} (hik : i < k)
    (hk : k < word.stop) : src.Inner k :=
  ⟨by omega, isWordChar_of_wordAt? h (by omega) (by omega), isWordChar_of_wordAt? h (by omega) hk⟩

theorem runEnd_le {p : Cell → Bool} (h : i ≤ l) : src.runEnd p i l ≤ l := by
  fun_induction runEnd src p i l <;> omega

theorem wordAt?_stop_le {word : Span} (h : src.wordAt? i l = some word) : word.stop ≤ l := by
  obtain ⟨hlt, -, -, rfl⟩ := wordAt?_eq_some h
  exact runEnd_le (Nat.le_of_lt hlt)

/-- After a byte has been counted, a word is passed over as a whole. -/
theorem runAfter_eq
    (ih : ∀ j, i < j → src.runTail n j l = src.levelTail n j l) :
    src.runAfter n i l =
      (if n.isTopLevel then (src.keywordAt? i l).toList else []) ++ src.levelTail n (i + 1) l := by
  rw [runAfter]
  cases hw : src.wordAt? i l with
  | none =>
    have hkeyword : src.keywordAt? i l = none := by simp [keywordAt?, hw]
    simp only [hkeyword, Option.toList_none, ite_self, List.nil_append]
    exact ih (i + 1) (by omega)
  | some word =>
    have hword := src.wordAt?_bounds hw
    have hle := wordAt?_stop_le hw
    have hskip : src.levelTail n (i + 1) l = src.levelTail n word.stop l := by
      rw [levelTail_of_inner_run (k := word.stop - (i + 1)) (by omega) fun j hj =>
        inner_of_wordAt? hw (by omega) (by omega)]
      congr 1
      omega
    rw [hskip]
    cases n.isTopLevel with
    | false => exact ih word.stop (by omega)
    | true =>
      simp only [if_true]
      cases hk : src.keywordAt? i l with
      | none => exact ih word.stop (by omega)
      | some token =>
        obtain ⟨word', hw', -, hcolon, rfl⟩ := keywordAt?_eq_some hk
        obtain rfl : word = word' := Option.some.inj (hw.symm.trans hw')
        rw [levelTail_of_colon hcolon]
        simp only [Option.toList_some, List.singleton_append]
        rw [ih (word.stop + 1) (by omega)]

/-- Reading on word by word finds the same keywords. -/
theorem runTail_eq_levelTail (src : Source) (n : Nesting) (i l : Nat) :
    src.runTail n i l = src.levelTail n i l := by
  induction hd : l - i using Nat.strongRecOn generalizing i n with
  | ind d ih =>
    rcases Nat.lt_or_ge i l with hlt | hle
    · rw [runTail_eq, levelTail, if_pos hlt, if_pos hlt]
      cases src.codeByte? i with
      | none => exact ih _ (by omega) n (i + 1) rfl
      | some b =>
        simp only
        split
        · rfl
        · cases n.step? b with
          | none => rfl
          | some n' => exact runAfter_eq fun j hj => ih (l - j) (by omega) n' j rfl
    · rw [runTail_of_le hle, levelTail_of_le hle]

/-! ## The keywords of a run -/

/-- A step of the reading either passes over a byte, perhaps taking a keyword, or ends it. -/
theorem levelTail_cases (src : Source) (n : Nesting) (hlt : i < l) :
    src.levelTail n i l = [] ∨
      ∃ n', (src.codeByte? i = none ∧ n' = n ∨ ∃ b, src.codeByte? i = some b ∧ n.step? b = some n') ∧
        (src.levelTail n i l = src.levelTail n' (i + 1) l ∨
          ∃ token, src.keywordAt? i l = some token ∧ n'.isTopLevel = true ∧
            src.levelTail n i l = token :: src.levelTail n' (i + 1) l) := by
  rw [levelTail, if_pos hlt]
  cases hb : src.codeByte? i with
  | none => exact .inr ⟨n, .inl ⟨rfl, rfl⟩, .inl rfl⟩
  | some b =>
    simp only
    split
    · exact .inl rfl
    · cases hstep : n.step? b with
      | none => exact .inl rfl
      | some n' =>
        refine .inr ⟨n', .inr ⟨b, rfl, hstep⟩, ?_⟩
        cases htop : n'.isTopLevel with
        | false => exact .inl (by simp [htop])
        | true =>
          cases hk : src.keywordAt? i l with
          | none => exact .inl (by simp)
          | some token => exact .inr ⟨token, rfl, rfl, by simp [htop]⟩

theorem mem_levelTail (h : token ∈ src.levelTail n i l) :
    i ≤ token.start ∧ src.keywordAt? token.start l = some token := by
  induction hd : l - i using Nat.strongRecOn generalizing i n with
  | ind d ih =>
    rcases Nat.lt_or_ge i l with hlt | hle
    · have hrec : ∀ n', token ∈ src.levelTail n' (i + 1) l →
          i ≤ token.start ∧ src.keywordAt? token.start l = some token := fun n' hmem => by
        have := ih (l - (i + 1)) (by omega) hmem rfl
        exact ⟨by omega, this.2⟩
      rcases src.levelTail_cases n hlt with hnil | ⟨n', -, heq | ⟨token', hk, -, heq⟩⟩
      · simp [hnil] at h
      · exact hrec n' (heq ▸ h)
      · rw [heq, List.mem_cons] at h
        rcases h with rfl | h
        · have hstart := (src.keywordAt?_bounds hk).1
          rw [hstart]
          exact ⟨Nat.le_refl _, hk⟩
        · exact hrec n' h
    · simp [levelTail_of_le hle] at h

theorem pairwise_levelTail (src : Source) (n : Nesting) (i l : Nat) :
    (src.levelTail n i l).Pairwise fun a b => a.start < b.start := by
  induction hd : l - i using Nat.strongRecOn generalizing i n with
  | ind d ih =>
    rcases Nat.lt_or_ge i l with hlt | hle
    · rcases src.levelTail_cases n hlt with hnil | ⟨n', -, heq | ⟨token, hk, -, heq⟩⟩
      · rw [hnil]
        exact .nil
      · rw [heq]
        exact ih (l - (i + 1)) (by omega) n' (i + 1) rfl
      · rw [heq]
        refine .cons (fun b hb => ?_) (ih (l - (i + 1)) (by omega) n' (i + 1) rfl)
        have hstart := (src.keywordAt?_bounds hk).1
        have := (mem_levelTail hb).1
        omega
    · rw [levelTail_of_le hle]
      exact .nil

/-- Where a scan counts the byte or passes over it, its counters are those of the text. -/
theorem nest_eq {n' : Nesting} (h : src.codeByte? i = none ∧ n' = n ∨
    ∃ b, src.codeByte? i = some b ∧ n.step? b = some n') : src.nest n i = n' := by
  rcases h with ⟨hb, rfl⟩ | ⟨b, hb, hstep⟩
  · simp [nest, hb]
  · simp [nest, hb, Nesting.step, hstep]

/-- At a later byte a run has ended, or goes on from there with the counters of the text. -/
theorem levelTail_split {p : Nat} (hip : i ≤ p) :
    (∀ token ∈ src.levelTail n i l, token.start < p) ∨
      ∃ taken, src.levelTail n i l =
          taken ++ src.levelTail ((Span.offsets ⟨i, p⟩).foldl src.nest n) p l ∧
        ∀ token ∈ taken, token.start < p := by
  induction hd : p - i generalizing i n with
  | zero =>
    obtain rfl : i = p := by omega
    rw [Span.offsets_nil le_rfl]
    exact .inr ⟨[], rfl, by simp⟩
  | succ d ih =>
    rcases Nat.lt_or_ge i l with hlt | hle
    · rw [Span.offsets_cons (show i < p by omega), List.foldl_cons]
      rcases src.levelTail_cases n hlt with hnil | ⟨n', hstep, heq | ⟨token, hk, -, heq⟩⟩
      · exact .inl (by simp [hnil])
      · rw [heq, nest_eq hstep]
        exact ih (by omega) (by omega)
      · have hstart := (src.keywordAt?_bounds hk).1
        rw [heq, nest_eq hstep]
        rcases ih (i := i + 1) (n := n') (by omega) (by omega) with h | ⟨taken, htaken, h⟩
        · exact .inl (List.forall_mem_cons.2 ⟨by omega, h⟩)
        · refine .inr ⟨token :: taken, by rw [htaken]; rfl, ?_⟩
          exact List.forall_mem_cons.2 ⟨by omega, h⟩
    · exact .inl (by simp [levelTail_of_le hle])

theorem step_unique {b? : Option UInt8} {m' n' : Nesting}
    (hm : b? = none ∧ m' = m ∨ ∃ b, b? = some b ∧ m.step? b = some m')
    (hn : b? = none ∧ n' = n.add m ∨ ∃ b, b? = some b ∧ (n.add m).step? b = some n') :
    n' = n.add m' := by
  rcases hm with ⟨rfl, rfl⟩ | ⟨b, rfl, hm⟩
  · rcases hn with ⟨-, rfl⟩ | ⟨b, hb, -⟩
    · rfl
    · simp at hb
  · rcases hn with ⟨hb, -⟩ | ⟨b', hb, hn⟩
    · simp at hb
    · obtain rfl := Option.some.inj hb
      rw [Nesting.step?_add hm] at hn
      exact (Option.some.inj hn).symm

/-- A run inside a group of another one shares no keyword with it. -/
theorem levelTail_add (hn : n.isTopLevel = false) :
    ∀ a ∈ src.levelTail (n.add m) i l, ∀ b ∈ src.levelTail m i l, a.start ≠ b.start := by
  induction hd : l - i using Nat.strongRecOn generalizing i m with
  | ind d ih =>
    rcases Nat.lt_or_ge i l with hlt | hle
    · intro a ha b hb
      rcases src.levelTail_cases m hlt with hnil | ⟨m', hstep, hcase⟩
      · simp [hnil] at hb
      · -- The outer run passes over the byte, too, and takes no keyword there.
        have houter : ∀ c ∈ src.levelTail (n.add m) i l,
            c ∈ src.levelTail (n.add m') (i + 1) l := by
          intro c hc
          rcases src.levelTail_cases (n.add m) hlt with hnil | ⟨n', hstep', heq | ⟨token, -, htop, -⟩⟩
          · simp [hnil] at hc
          · obtain rfl := step_unique hstep hstep'
            exact heq ▸ hc
          · obtain rfl := step_unique hstep hstep'
            simp [Nesting.isTopLevel_add hn] at htop
        have hrec : ∀ b ∈ src.levelTail m' (i + 1) l, a.start ≠ b.start :=
          ih (l - (i + 1)) (by omega) rfl a (houter a ha)
        rcases hcase with heq | ⟨token, hk, -, heq⟩
        · exact hrec b (heq ▸ hb)
        · rw [heq, List.mem_cons] at hb
          rcases hb with rfl | hb
          · have hstart := (src.keywordAt?_bounds hk).1
            have := (mem_levelTail (houter a ha)).1
            omega
          · exact hrec b hb
    · simp [levelTail_of_le hle]

/-! ## The runs of a region -/

/-- A keyword ends before the next one starts. -/
theorem keywordAt?_stop_le {a b : Span} (ha : src.keywordAt? a.start l = some a)
    (hb : src.keywordAt? b.start l = some b) (hlt : a.start < b.start) : a.stop ≤ b.start := by
  obtain ⟨word, hw, -, hcolon, heq⟩ := keywordAt?_eq_some ha
  obtain ⟨word', hw', -, -, -⟩ := keywordAt?_eq_some hb
  obtain ⟨-, hletter, -, -⟩ := wordAt?_eq_some hw'
  have hstop : a.stop = word.stop + 1 := congrArg Span.stop heq
  by_contra hgt
  rcases Nat.lt_or_ge b.start word.stop with hin | hge
  · -- No keyword starts inside a word.
    rw [(inner_of_wordAt? hw hlt hin).keywordAt?] at hb
    simp at hb
  · -- Nor does one start at a colon.
    obtain hb' : b.start = word.stop := by omega
    rw [hb'] at hletter
    have hnot : src.codeAt word.stop ':' = false :=
      holds_eq_of (fun c hc => Cell.isCodeChar_of_isLetter (by decide) hc) hletter
    rw [hnot] at hcolon
    simp at hcolon

/-- The tokens of a run are keywords, from the first one on. -/
theorem mem_keywordRun_tokens {region : SendRegion} {first : Span}
    (hfirst : src.keywordAt? first.start region.span.stop = some first)
    (h : token ∈ (src.keywordRun region first).tokens) :
    first.start ≤ token.start ∧ src.keywordAt? token.start region.span.stop = some token := by
  rcases List.mem_cons.1 h with rfl | h
  · exact ⟨Nat.le_refl _, hfirst⟩
  · have hmem : token ∈ src.runTail .empty first.stop region.span.stop := h
    rw [runTail_eq_levelTail] at hmem
    have hlt := (src.keywordAt?_bounds hfirst).2
    obtain ⟨hle, hk⟩ := mem_levelTail hmem
    exact ⟨by omega, hk⟩

/-- A run takes a keyword on its level and passes over the others. -/
theorem levelTail_of_keyword {next : Span} (hnext : src.keywordAt? next.start l = some next) :
    src.levelTail n next.start l =
      (if n.isTopLevel then [next] else []) ++ src.levelTail n next.stop l := by
  obtain ⟨word, hw, hlt, hcolon, heq⟩ := keywordAt?_eq_some hnext
  have hword := src.wordAt?_bounds hw
  have hchar := isWordChar_of_wordAt? hw (Nat.le_refl _) hword.2
  have hstop : next.stop = word.stop + 1 := congrArg Span.stop heq
  have hskip : src.levelTail n (next.start + 1) l = src.levelTail n next.stop l := by
    rw [hstop, ← levelTail_of_colon hcolon,
      levelTail_of_inner_run (k := word.stop - (next.start + 1)) (by omega) fun j hj =>
        inner_of_wordAt? hw (by omega) (by omega)]
    congr 1
    omega
  obtain ⟨b, hb, hident⟩ := codeByte?_of_isWordChar hchar
  rw [levelTail, if_pos (by omega), ← hskip]
  simp only [hb, endsRun_of_isWordChar hchar, Bool.and_false, Bool.false_eq_true, if_false,
    Nesting.step?_of_isIdent hident, hnext, Option.toList_some]

/-- A keyword that an earlier run does not take starts a run that shares no keyword with it. -/
theorem keywordRun_disjoint {region : SendRegion} {first next : Span}
    (hfirst : src.keywordAt? first.start region.span.stop = some first)
    (hnext : src.keywordAt? next.start region.span.stop = some next)
    (hlt : first.start < next.start)
    (htaken : next.start ∉ (src.keywordRun region first).tokens.map (·.start)) :
    ∀ a ∈ (src.keywordRun region first).tokens, ∀ b ∈ (src.keywordRun region next).tokens,
      a.start ≠ b.start := by
  intro a ha b hb
  have hle := (mem_keywordRun_tokens hnext hb).1
  have hskip : next ∉ (src.keywordRun region first).tokens := fun hmem =>
    htaken (List.mem_map_of_mem hmem)
  rcases List.mem_cons.1 ha with rfl | ha'
  · exact Nat.ne_of_lt (Nat.lt_of_lt_of_le hlt hle)
  · have htail : (src.keywordRun region first).rest =
        src.levelTail .empty first.stop region.span.stop := runTail_eq_levelTail ..
    rw [htail] at ha'
    rcases src.levelTail_split (n := .empty) (l := region.span.stop)
      (keywordAt?_stop_le hfirst hnext hlt) with hall | ⟨taken, heq, hall⟩
    · have := hall a ha'
      omega
    · generalize (Span.offsets ⟨first.stop, next.start⟩).foldl src.nest .empty = n at heq
      rw [heq, List.mem_append] at ha'
      rcases ha' with ha' | ha'
      · have := hall a ha'
        omega
      · -- The first run is still going on at the second one, inside a group.
        rw [levelTail_of_keyword hnext] at ha' heq
        have hn : n.isTopLevel = false := by
          by_contra htop
          refine hskip (List.mem_cons_of_mem _ ?_)
          rw [htail, heq, if_pos (by simpa using htop)]
          simp
        rw [hn, if_neg (by simp), List.nil_append] at ha'
        have hbounds := src.keywordAt?_bounds hnext
        rcases List.mem_cons.1 hb with hb' | hb'
        · have hle' := (mem_levelTail ha').1
          have hstart : b.start = next.start := congrArg Span.start hb'
          omega
        · have hb'' : b ∈ src.runTail .empty next.stop region.span.stop := hb'
          rw [runTail_eq_levelTail] at hb''
          rw [← n.add_empty] at ha'
          exact levelTail_add hn a ha' b hb''

theorem pairwise_keywordRun_tokens {region : SendRegion} {first : Span}
    (hfirst : src.keywordAt? first.start region.span.stop = some first) :
    (src.keywordRun region first).tokens.Pairwise fun a b => a.start < b.start := by
  have htail : (src.keywordRun region first).rest =
      src.levelTail .empty first.stop region.span.stop := runTail_eq_levelTail ..
  rw [KeywordRun.tokens, htail]
  refine .cons (fun b hb => ?_) (pairwise_levelTail ..)
  have hlt := (src.keywordAt?_bounds hfirst).2
  have := (mem_levelTail hb).1
  simp only [keywordRun]
  omega

/-- What is known of each run that is found. -/
theorem mem_runsOf {region : SendRegion} {taken : List Nat} {tokens : List Span} {run : KeywordRun}
    (h : run ∈ src.runsOf region taken tokens) :
    ∃ first ∈ tokens, run = src.keywordRun region first ∧ first.start ∉ taken ∧
      ∀ token ∈ run.tokens, region.admits token = true := by
  induction tokens generalizing taken run with
  | nil => simp [runsOf] at h
  | cons first others ih =>
    simp only [runsOf] at h
    split at h
    · obtain ⟨first', hmem, hrest⟩ := ih h
      exact ⟨first', List.mem_cons_of_mem _ hmem, hrest⟩
    · next hskip =>
      have hlater : ∀ {run}, run ∈ src.runsOf region
          ((src.keywordRun region first).tokens.map (·.start) ++ taken) others →
          ∃ first' ∈ first :: others, run = src.keywordRun region first' ∧
            first'.start ∉ taken ∧ ∀ token ∈ run.tokens, region.admits token = true := by
        intro run hrun
        obtain ⟨first', hmem, heq, hnot, hadmits⟩ := ih hrun
        exact ⟨first', List.mem_cons_of_mem _ hmem, heq,
          fun hin => hnot (List.mem_append_right _ hin), hadmits⟩
      split at h
      · next hall =>
        rcases List.mem_cons.1 h with rfl | h
        · refine ⟨first, by simp, rfl, fun hin => hskip ?_, List.all_eq_true.1 hall⟩
          simp [hin]
        · exact hlater h
      · exact hlater h

/-- Keywords that follow each other, as they are listed in a region. -/
theorem runsOf_disjoint {region : SendRegion} {taken : List Nat} {tokens : List Span}
    (hkeywords : ∀ token ∈ tokens, src.keywordAt? token.start region.span.stop = some token)
    (hsorted : tokens.Pairwise fun a b => a.start < b.start) :
    (src.runsOf region taken tokens).Pairwise fun run run' =>
      ∀ a ∈ run.tokens, ∀ b ∈ run'.tokens, a.start ≠ b.start := by
  induction tokens generalizing taken with
  | nil => exact .nil
  | cons first others ih =>
    rw [List.forall_mem_cons] at hkeywords
    rw [List.pairwise_cons] at hsorted
    simp only [runsOf]
    split
    · exact ih hkeywords.2 hsorted.2
    · split
      · refine .cons (fun run hrun => ?_) (ih hkeywords.2 hsorted.2)
        obtain ⟨next, hmem, rfl, hnot, -⟩ := mem_runsOf hrun
        refine keywordRun_disjoint hkeywords.1 (hkeywords.2 next hmem) (hsorted.1 next hmem) ?_
        exact fun hin => hnot (List.mem_append_left _ hin)
      · exact ih hkeywords.2 hsorted.2

theorem keywordAt?_of_mem_keywords {region : Span} (h : token ∈ src.keywords region) :
    region.start ≤ token.start ∧ src.keywordAt? token.start region.stop = some token := by
  obtain ⟨k, hk, hfound⟩ := List.mem_filterMap.1 h
  have hstart := (src.keywordAt?_bounds hfound).1
  rw [Span.mem_offsets] at hk
  rw [hstart]
  exact ⟨hk.1, hfound⟩

/-- The tokens that are read at the offsets of a region stand in order. -/
theorem pairwise_tokens {read : Nat → Option Span} (h : ∀ i sp, read i = some sp → sp.start = i)
    (region : Span) : (region.offsets.filterMap read).Pairwise fun a b => a.start < b.start := by
  refine List.Pairwise.filterMap _ ?_ (List.pairwise_lt_range' ..)
  intro i j hij a ha b hb
  rw [h i a ha, h j b hb]
  exact hij

theorem pairwise_keywords (src : Source) (region : Span) :
    (src.keywords region).Pairwise fun a b => a.start < b.start :=
  pairwise_tokens (fun _ _ hk => (src.keywordAt?_bounds hk).1) region

/-- No keyword belongs to two runs. -/
theorem keywordRuns_disjoint (src : Source) (region : SendRegion) :
    (src.keywordRuns region).Pairwise fun run run' =>
      ∀ a ∈ run.tokens, ∀ b ∈ run'.tokens, a.start ≠ b.start :=
  runsOf_disjoint (fun _ h => (keywordAt?_of_mem_keywords h).2) (src.pairwise_keywords region.span)

/-- A run is known by any of its keywords. -/
theorem eq_of_start_eq {region : SendRegion} {run run' : KeywordRun} {a b : Span}
    (h : run ∈ src.keywordRuns region) (h' : run' ∈ src.keywordRuns region) (ha : a ∈ run.tokens)
    (hb : b ∈ run'.tokens) (heq : a.start = b.start) : run = run' := by
  have hsymm : Std.Symm fun run run' : KeywordRun =>
      ∀ a ∈ run.tokens, ∀ b ∈ run'.tokens, a.start ≠ b.start :=
    ⟨fun _ _ h a ha b hb => (h b hb a ha).symm⟩
  by_contra hne
  exact (src.keywordRuns_disjoint region).forall h h' hne a ha b hb heq

theorem mem_keywordRuns {region : SendRegion} {run : KeywordRun}
    (h : run ∈ src.keywordRuns region) :
    ∃ first, src.keywordAt? first.start region.span.stop = some first ∧
      region.span.start ≤ first.start ∧ run = src.keywordRun region first ∧
      ∀ token ∈ run.tokens, region.admits token = true := by
  obtain ⟨first, hmem, hrun, -, hadmits⟩ := mem_runsOf h
  obtain ⟨hle, hk⟩ := keywordAt?_of_mem_keywords hmem
  exact ⟨first, hk, hle, hrun, hadmits⟩

theorem contains_run_span {region : SendRegion} {run : KeywordRun}
    (h : run ∈ src.keywordRuns region) : region.span.contains run.span = true := by
  obtain ⟨first, -, -, -, hadmits⟩ := mem_keywordRuns h
  have hcontains : ∀ token ∈ run.tokens, region.span.start ≤ token.start ∧
      token.stop ≤ region.span.stop := by
    intro token htoken
    have hadmit := hadmits token htoken
    rw [SendRegion.admits, Bool.and_eq_true, Span.contains_iff] at hadmit
    exact hadmit.1
  have hfirst := hcontains run.first (by simp [KeywordRun.tokens])
  have hlast : region.span.start ≤ (run.rest.getLast?.getD run.first).start ∧
      (run.rest.getLast?.getD run.first).stop ≤ region.span.stop := by
    cases hl : run.rest.getLast? with
    | none => exact hfirst
    | some last => exact hcontains last (List.mem_cons_of_mem _ (List.mem_of_getLast? hl))
  rw [Span.contains_iff, KeywordRun.span, Span.merge]
  constructor
  · simp only
    split
    · exact hfirst.1
    · exact hlast.1
  · simp only
    split
    · exact hlast.2
    · exact hfirst.2

/-- The keyword sends of a region are its runs. -/
theorem keywordSends_eq (src : Source) (region : SendRegion) :
    src.keywordSends region = (src.keywordRuns region).map KeywordRun.toSend := by
  rw [keywordSends, List.filter_eq_self]
  intro send hsend
  obtain ⟨run, hrun, rfl⟩ := List.mem_map.1 hsend
  exact contains_run_span hrun

end Source

end MethodBrowser
