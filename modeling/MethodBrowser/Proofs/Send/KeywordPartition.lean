import MethodBrowser.Proofs.Send.Runs
import MethodBrowser.Proofs.Source.ExcerptRegion

/-!
# Keywords are divided among runs

Every keyword of a method that stands outside its literal arrays belongs to exactly one keyword run
(`Source.keywords_partitioned`). That no keyword belongs to two runs is
`Source.keywordRuns_disjoint`. That none is left out takes two more facts.

**Literal arrays are passed over.** A run that meets a literal array counts the groups that the
array opens on top of its own. The array ends where they are all closed, so up to there the run is
inside a group and takes no keyword (`Source.groupEnd_le_start_of_mem_levelTail`). This is so for
every way in which brackets may fail to match.

**Block temporaries have no keywords.** There are only names and white space between their bars.

So all keywords of a run whose first one is admitted are admitted, and no run is given up
(`Source.all_admits_keywordRun`).
-/

namespace MethodBrowser.Source

variable {src : Source} {i l : Nat} {n m : Nesting} {array token : Span}

/-! ## Characters of keywords -/

/-- A byte of code that is part of a keyword is a word character or a colon. -/
theorem codeAt_of_keywordAt? {x : Char} (hident : Byte.isIdent x.toUInt8 = false)
    (hcolon : x.toUInt8 ≠ ':'.toUInt8) (h : src.keywordAt? token.start l = some token) {k : Nat}
    (hk : token.start ≤ k) (hk' : k < token.stop) : src.codeAt k x = false := by
  rcases keywordAt?_chars h hk hk' with hchar | hchar
  · exact codeAt_of_isWordChar hident hchar
  · exact codeAt_ne hcolon.symm hchar

/-- The last byte of a keyword is its colon. -/
theorem codeAt_colon_of_keywordAt? (h : src.keywordAt? token.start l = some token) :
    src.codeAt (token.stop - 1) ':' = true ∧ token.start < token.stop - 1 ∧ token.stop ≤ l := by
  obtain ⟨word, hw, hlt, hcolon, heq⟩ := keywordAt?_eq_some h
  have hstop : token.stop = word.stop + 1 := congrArg Span.stop heq
  have hword := (src.wordAt?_bounds hw).2
  rw [hstop, Nat.add_sub_cancel]
  exact ⟨hcolon, hword, hlt⟩

/-- No keyword starts with a byte of code that is no word character. -/
theorem keywordAt?_eq_none_of_codeAt {x : Char} (hident : Byte.isIdent x.toUInt8 = false)
    (h : src.codeAt i x = true) : src.keywordAt? i l = none := by
  by_contra hsome
  obtain ⟨token, hk⟩ := Option.ne_none_iff_exists'.1 hsome
  obtain ⟨word, hw, -, -, -⟩ := keywordAt?_eq_some hk
  have hchar := isWordChar_of_wordAt? hw (Nat.le_refl i) (src.wordAt?_bounds hw).2
  rw [codeAt_of_isWordChar hident hchar] at h
  simp at h

/-! ## Literal arrays -/

/-- What is known of a literal array: it opens a group that ends with it. -/
theorem mem_literalArraysFrom (h : array ∈ src.literalArraysFrom i l) :
    src.opensArray array.start = true ∧ array.start + 1 < l ∧
      array.stop = src.groupEnd .empty (array.start + 1) l := by
  fun_induction literalArraysFrom src i l with
  | case1 i hlt hopens ih =>
    rcases List.mem_cons.1 h with rfl | h
    · exact ⟨hopens, hlt, rfl⟩
    · exact ih h
  | case2 i hlt hopens ih => exact ih h
  | case3 => simp at h

/-- A keyword of a run is found at the byte where the reading stands, on the level of the run, or
later on. -/
theorem mem_levelTail_cases (h : token ∈ src.levelTail n i l) :
    src.keywordAt? i l = some token ∧ n.isTopLevel = true ∨
      token ∈ src.levelTail (src.nest n i) (i + 1) l := by
  have hlt : i < l := by
    by_contra hge
    simp [levelTail_of_le (Nat.le_of_not_lt hge)] at h
  rcases src.levelTail_cases n hlt with hnil | ⟨n', hstep, heq | ⟨found, hk, htop, heq⟩⟩
  · simp [hnil] at h
  · obtain rfl := nest_eq hstep
    exact .inr (heq ▸ h)
  · obtain rfl := nest_eq hstep
    rw [heq, List.mem_cons] at h
    rcases h with rfl | h
    · -- The first character of a keyword leaves the counters as they are.
      obtain ⟨word, hw, -, -, -⟩ := keywordAt?_eq_some hk
      rw [nest_of_isWordChar
        (isWordChar_of_wordAt? hw (Nat.le_refl i) (src.wordAt?_bounds hw).2)] at htop
      exact .inl ⟨hk, htop⟩
    · exact .inr h

/-- A run takes no keyword in a group that is opened after its first one, up to where the group
ends. -/
theorem groupEnd_le_start_of_mem_levelTail (hm : m.isTopLevel = false)
    (h : token ∈ src.levelTail (n.add m) i l) : src.groupEnd m i l ≤ token.start := by
  induction hd : l - i generalizing i m with
  | zero => simp [levelTail_of_le (show l ≤ i by omega)] at h
  | succ d ih =>
    have hinside : (n.add m).isTopLevel = false := by
      by_contra htop
      rw [Nesting.isTopLevel_of_add (by simpa using htop)] at hm
      simp at hm
    rcases mem_levelTail_cases h with ⟨-, htop⟩ | hlater
    · simp [hinside] at htop
    · rcases src.groupEnd_cases hm (show i < l by omega) with hend | ⟨m', hm', hend, hnest⟩
      · rw [hend]
        exact (mem_levelTail hlater).1
      · rw [hend]
        rw [hnest] at hlater
        exact ih hm' hlater (by omega)

/-- A run that comes to a literal array goes on after it. -/
theorem groupEnd_le_start_of_opensArray (hopens : src.opensArray i = true) (hlt : i + 1 < l)
    (h : token ∈ src.levelTail n i l) : src.groupEnd .empty (i + 1) l ≤ token.start := by
  obtain ⟨m, hm, hend, hnest⟩ := groupEnd_of_opensArray hopens hlt
  rw [opensArray, Bool.and_eq_true, Bool.or_eq_true] at hopens
  have hopener : src.keywordAt? (i + 1) l = none := by
    rcases hopens.2 with hcode | hcode
    · exact keywordAt?_eq_none_of_codeAt (by decide) hcode
    · exact keywordAt?_eq_none_of_codeAt (by decide) hcode
  rcases mem_levelTail_cases h with ⟨hk, -⟩ | hsign
  · simp [keywordAt?_eq_none_of_codeAt (by decide) hopens.1] at hk
  · rcases mem_levelTail_cases hsign with ⟨hk, -⟩ | hinside
    · simp [hopener] at hk
    · have hgroup := hnest n
      rw [nestFrom_cons (by omega), nestFrom_cons (by omega), nestFrom_self] at hgroup
      rw [hgroup] at hinside
      rw [hend]
      exact groupEnd_le_start_of_mem_levelTail hm hinside

/-- The run of a keyword outside a literal array takes none inside it. -/
theorem not_overlaps_of_mem_keywordRun {region : SendRegion} {first : Span}
    (hfirst : src.keywordAt? first.start region.span.stop = some first)
    (harray : array ∈ src.literalArrays region.span) (hout : array.overlaps first = false)
    (h : token ∈ (src.keywordRun region first).tokens) : array.overlaps token = false := by
  obtain ⟨hopens, hlt, hstop⟩ := mem_literalArraysFrom harray
  have hsize := src.lt_groupEnd .empty hlt
  obtain ⟨hle, hk⟩ := mem_keywordRun_tokens hfirst h
  rcases List.mem_cons.1 h with rfl | htail
  · exact hout
  · have hmem : token ∈ src.runTail .empty first.stop region.span.stop := htail
    rw [runTail_eq_levelTail] at hmem
    have hafter := (mem_levelTail hmem).1
    rcases Nat.lt_or_ge array.start first.stop with hbefore | hbehind
    · -- The array ends before the run starts.
      have hend : array.stop ≤ first.start := by
        rw [← Bool.not_eq_true, Span.overlaps_iff] at hout
        omega
      have := (src.keywordAt?_bounds hfirst).2
      exact Span.overlaps_of_le (by omega)
    · have hsplit : token.start < array.start ∨ array.stop ≤ token.start := by
        rcases levelTail_split (n := .empty) (l := region.span.stop) hbehind with
          hall | ⟨taken, heq, hall⟩
        · exact .inl (hall token hmem)
        · rw [heq, List.mem_append] at hmem
          rcases hmem with hmem | hmem
          · exact .inl (hall token hmem)
          · exact .inr (hstop ▸ groupEnd_le_start_of_opensArray hopens hlt hmem)
      rcases hsplit with hin | hge
      · -- The sign of the array is part of no keyword.
        refine Span.overlaps_of_ge (Nat.le_of_not_lt fun hgt => ?_)
        rw [opensArray, Bool.and_eq_true,
          codeAt_of_keywordAt? (by decide) (by decide) hk (Nat.le_of_lt hin) hgt] at hopens
        simp at hopens
      · exact Span.overlaps_of_le hge

/-! ## Block temporaries -/

/-- Block temporaries stand between bars, with names and white space in between. -/
theorem blockTemporariesAt?_eq_some {block : Span} (h : src.blockTemporariesAt? i l = some block) :
    src.codeAt block.start '|' = true ∧ src.codeAt (block.stop - 1) '|' = true ∧
      ∀ k, block.start < k → k < block.stop - 1 →
        src.holds (fun c => c.isCode && (Byte.isIdent c.byte || Byte.isBlank c.byte)) k = true := by
  simp only [blockTemporariesAt?] at h
  split at h
  · split at h
    · simp at h
    · next bar _ =>
      split at h
      · next hbar =>
        split at h
        · simp at h
        · next close hclose =>
          split at h
          · next hnames =>
            obtain rfl := Option.some.inj h
            rw [Bool.and_eq_true] at hbar
            refine ⟨hbar.2, holds_of_find? hclose, fun k hk hk' => ?_⟩
            exact List.all_eq_true.1 hnames k (Span.mem_offsets.2 ⟨hk, hk'⟩)
          · simp at h
      · simp at h
  · simp at h

/-- No keyword stands among block temporaries. -/
theorem not_overlaps_of_blockTemporaries {region block : Span}
    (hblock : block ∈ src.blockTemporaries region)
    (h : src.keywordAt? token.start l = some token) : block.overlaps token = false := by
  obtain ⟨k, -, hfound⟩ := List.mem_filterMap.1 hblock
  obtain ⟨hopen, hclose, hnames⟩ := blockTemporariesAt?_eq_some hfound
  obtain ⟨hcolon, hlt, -⟩ := codeAt_colon_of_keywordAt? h
  have hbar : ∀ j, src.codeAt j '|' = true → ¬(token.start ≤ j ∧ j < token.stop) := by
    rintro j hj ⟨hle, hgt⟩
    rw [codeAt_of_keywordAt? (by decide) (by decide) h hle hgt] at hj
    simp at hj
  by_contra hover
  rw [Bool.not_eq_false, Span.overlaps_iff] at hover
  have hfirst := hbar _ hopen
  have hlast := hbar _ hclose
  -- The colon of the keyword would be among the names.
  have hname := hnames (token.stop - 1) (by omega) (by omega)
  have hnot : src.codeAt (token.stop - 1) ':' = false := holds_eq_of (fun c hc => by
    by_contra hcode
    rw [Bool.not_eq_false, Cell.isCodeChar, Bool.and_eq_true, beq_iff_eq] at hcode
    rw [hcode.2, Bool.and_eq_true] at hc
    exact absurd hc.2 (by decide)) hname
  rw [hnot] at hcolon
  simp at hcolon

/-! ## Runs are kept -/

/-- A keyword is admitted if it stands outside all literal arrays. -/
theorem admits_keyword_iff (hstart : src.sendRegion.span.start ≤ token.start)
    (h : src.keywordAt? token.start src.sendRegion.span.stop = some token) :
    src.sendRegion.admits token = true ↔
      ∀ array ∈ src.literalArrays src.sendRegion.span, array.overlaps token = false := by
  have hcontains : src.sendRegion.span.contains token = true :=
    Span.contains_iff.2 ⟨hstart, (codeAt_colon_of_keywordAt? h).2.2⟩
  have hblocks : ∀ block ∈ src.blockTemporaries src.statementRegion,
      block.overlaps token = false := fun block hblock => not_overlaps_of_blockTemporaries hblock h
  rw [SendRegion.admits, hcontains, Bool.true_and, Bool.not_eq_true', List.any_eq_false]
  simp only [Bool.not_eq_true]
  constructor
  · intro hall array harray
    exact hall array (List.mem_append_left _ harray)
  · intro hall sp hsp
    rcases List.mem_append.1 hsp with hsp | hsp
    · exact hall sp hsp
    · exact hblocks sp hsp

/-- No run whose first keyword is admitted is given up. -/
theorem all_admits_keywordRun {first : Span}
    (hfirst : src.keywordAt? first.start src.sendRegion.span.stop = some first)
    (hadmits : src.sendRegion.admits first = true) :
    ∀ token ∈ (src.keywordRun src.sendRegion first).tokens, src.sendRegion.admits token = true := by
  intro token htoken
  have hstart : src.sendRegion.span.start ≤ first.start := by
    rw [SendRegion.admits, Bool.and_eq_true, Span.contains_iff] at hadmits
    exact hadmits.1.1
  obtain ⟨hle, hk⟩ := mem_keywordRun_tokens hfirst htoken
  rw [admits_keyword_iff hstart hfirst] at hadmits
  refine (admits_keyword_iff (Nat.le_trans hstart hle) hk).2 fun array harray => ?_
  exact not_overlaps_of_mem_keywordRun hfirst harray (hadmits array harray) htoken

/-- Of a list of keywords, each one that is admitted is taken by an earlier run or by one of those
that start in the list. -/
theorem exists_mem_runsOf {taken : List Nat} {tokens : List Span}
    (hkeywords : ∀ token ∈ tokens,
      src.keywordAt? token.start src.sendRegion.span.stop = some token)
    (htoken : token ∈ tokens) (hadmits : src.sendRegion.admits token = true)
    (hfree : token.start ∉ taken) :
    ∃ run ∈ src.runsOf src.sendRegion taken tokens, token ∈ run.tokens := by
  induction tokens generalizing taken with
  | nil => simp at htoken
  | cons first others ih =>
    have hk := hkeywords token htoken
    rw [List.forall_mem_cons] at hkeywords
    simp only [runsOf]
    by_cases hskip : (taken.contains first.start || !src.sendRegion.admits first) = true
    · rw [if_pos hskip]
      rcases List.mem_cons.1 htoken with rfl | hlater
      · simp [hfree, hadmits] at hskip
      · exact ih hkeywords.2 hlater hfree
    · rw [if_neg hskip]
      have hfirst : src.sendRegion.admits first = true := by
        by_contra hnot
        simp [hnot] at hskip
      rw [if_pos (List.all_eq_true.2 (all_admits_keywordRun hkeywords.1 hfirst))]
      by_cases hmem : token ∈ (src.keywordRun src.sendRegion first).tokens
      · exact ⟨_, List.mem_cons_self, hmem⟩
      · have hne : token.start ∉ (src.keywordRun src.sendRegion first).tokens.map (·.start) := by
          intro hin
          obtain ⟨other, hother, heq⟩ := List.mem_map.1 hin
          have hk' := (mem_keywordRun_tokens hkeywords.1 hother).2
          rw [heq] at hk'
          exact hmem (Option.some.inj (hk'.symm.trans hk) ▸ hother)
        have hlater : token ∈ others := by
          rcases List.mem_cons.1 htoken with rfl | hlater
          · exact absurd List.mem_cons_self hmem
          · exact hlater
        have hfree' : token.start ∉
            (src.keywordRun src.sendRegion first).tokens.map (·.start) ++ taken := by
          rw [List.mem_append, not_or]
          exact ⟨hne, hfree⟩
        obtain ⟨run, hrun, hin⟩ := ih hkeywords.2 hlater hfree'
        exact ⟨run, List.mem_cons_of_mem _ hrun, hin⟩

/-! ## The theorem -/

/-- Every keyword outside all literal arrays belongs to exactly one run. The keywords of a run stand
one after the other, spell its selector and are outside all literal arrays. A run whose first
keyword is admitted is not given up. -/
theorem keywords_partitioned (src : Source) :
    (∀ i token, src.sendRegion.span.start ≤ i → i < src.sendRegion.span.stop →
      src.keywordAt? i src.sendRegion.span.stop = some token →
      (∀ array ∈ src.literalArrays src.sendRegion.span, array.overlaps token = false) →
      (src.keywordRuns src.sendRegion).countP (fun run => decide (token ∈ run.tokens)) = 1) ∧
    (∀ run ∈ src.keywordRuns src.sendRegion,
      run.tokens.Pairwise (fun a b => a.start < b.start ∧ a.stop ≤ b.start) ∧
      run.selector = String.join (run.tokens.map src.slice) ∧
      ∀ token ∈ run.tokens,
        src.keywordAt? token.start src.sendRegion.span.stop = some token ∧
        ∀ array ∈ src.literalArrays src.sendRegion.span, array.overlaps token = false) ∧
    ∀ first, src.keywordAt? first.start src.sendRegion.span.stop = some first →
      src.sendRegion.admits first = true →
      (src.keywordRun src.sendRegion first).tokens.all src.sendRegion.admits = true := by
  refine ⟨fun i token hstart hstop hk hout => ?_, fun run hrun => ?_,
    fun first hfirst hadmits => ?_⟩
  · have hi := (src.keywordAt?_bounds hk).1
    rw [← hi] at hstart hk
    have hmem : token ∈ src.keywords src.sendRegion.span :=
      List.mem_filterMap.2 ⟨token.start, Span.mem_offsets.2 ⟨hstart, hi ▸ hstop⟩, hk⟩
    obtain ⟨run, hrun, hin⟩ := exists_mem_runsOf
      (fun _ h => (keywordAt?_of_mem_keywords h).2) hmem ((admits_keyword_iff hstart hk).2 hout)
      List.not_mem_nil
    -- The other runs have other keywords.
    obtain ⟨before, after, heq⟩ := List.append_of_mem hrun
    have hapart := src.keywordRuns_disjoint src.sendRegion
    rw [keywordRuns, heq, List.pairwise_append, List.pairwise_cons] at hapart
    have hbefore : before.countP (fun run => decide (token ∈ run.tokens)) = 0 := by
      refine List.countP_eq_zero.2 fun other hother hin' => ?_
      exact hapart.2.2 other hother run List.mem_cons_self token (of_decide_eq_true hin') token
        hin rfl
    have hafter : after.countP (fun run => decide (token ∈ run.tokens)) = 0 := by
      refine List.countP_eq_zero.2 fun other hother hin' => ?_
      exact hapart.2.1.1 other hother token hin token (of_decide_eq_true hin') rfl
    rw [keywordRuns, heq, List.countP_append, List.countP_cons, hbefore, hafter]
    simp [hin]
  · obtain ⟨first, hfirst, hstart, rfl, hadmits⟩ := mem_keywordRuns hrun
    have hkeyword : ∀ token ∈ (src.keywordRun src.sendRegion first).tokens,
        first.start ≤ token.start ∧
          src.keywordAt? token.start src.sendRegion.span.stop = some token := fun _ htoken =>
      mem_keywordRun_tokens hfirst htoken
    refine ⟨?_, rfl, fun token htoken => ⟨(hkeyword token htoken).2, ?_⟩⟩
    · refine (pairwise_keywordRun_tokens hfirst).imp_of_mem fun ha hb hlt => ⟨hlt, ?_⟩
      exact keywordAt?_stop_le (hkeyword _ ha).2 (hkeyword _ hb).2 hlt
    · obtain ⟨hle, hk⟩ := hkeyword token htoken
      exact (admits_keyword_iff (Nat.le_trans hstart hle) hk).1 (hadmits token htoken)
  · exact List.all_eq_true.2 (all_admits_keywordRun hfirst hadmits)

/-- The inner run goes on after a literal array, and the outer one passes over it. -/
theorem keywords_partitioned_nested :
    (Source.ofText "run\n^a at: (b foo: #(x: 1) bar: 2) put: 3").keywordAt? 27 41 = some ⟨27, 31⟩ ∧
      ((Source.ofText "run\n^a at: (b foo: #(x: 1) bar: 2) put: 3").keywordRuns
        (Source.ofText "run\n^a at: (b foo: #(x: 1) bar: 2) put: 3").sendRegion).countP
          (fun run => decide ((⟨27, 31⟩ : Span) ∈ run.tokens)) = 1 :=
  ⟨by decide +kernel, (keywords_partitioned _).1 27 _ (by decide +kernel) (by decide +kernel)
    (by decide +kernel) (by decide +kernel)⟩

end MethodBrowser.Source
