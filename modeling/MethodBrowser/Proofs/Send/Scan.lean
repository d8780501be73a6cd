import Mathlib.Data.List.Sort
import MethodBrowser.Proofs.Send.Tokens
import MethodBrowser.Proofs.Source.LiteralContents
import MethodBrowser.Send.Scan

/-!
# The four walks find the sends

What the four walks find, merged by key, is the list of the sends (`Source.detectedSends_eq`).

**The walks.** The walk behind any receiver is the scan for receivers: where it does not stop, or
jumps over a keyword, no receiver starts (`Source.expressionSendsFrom_eq`). The walk over keywords
jumps to the end of each of them, and no keyword starts inside another one
(`Source.scannedRunsFrom_eq`). The walk behind `self` and `super` finds nothing new, since these
words are receivers (`Source.mem_sends_of_mem_explicitSendsFrom`).

**The merge.** Sends of a method that start at the same byte are equal. So the key of a finding is
met again only by the finding itself, nothing is learned from it, and whether it comes first does not
matter. The merged list and the list of the sends have the same members and are both strictly ordered
by where the sends start, so they are the same list.
-/

namespace MethodBrowser

namespace Send

variable {candidate kept send : Send} {sends : List Send}

/-! ## The merge -/

theorem compareKey_of_lt (h : candidate.span.start < kept.span.start) :
    candidate.compareKey kept = .lt := by
  simp [compareKey, Span.compare, compareOfLessAndEq, h]

theorem compareKey_of_gt (h : kept.span.start < candidate.span.start) :
    candidate.compareKey kept = .gt := by
  have hnot : ¬candidate.span.start < kept.span.start := Nat.lt_asymm h
  have hne : candidate.span.start ≠ kept.span.start := Nat.ne_of_gt h
  simp [compareKey, Span.compare, compareOfLessAndEq, hnot, hne]

theorem compareKey_self (send : Send) : send.compareKey send = .eq := by
  simp [compareKey, Span.compare, compareOfLessAndEq]

theorem absorb_self (send : Send) : send.absorb send = send := by
  simp [absorb]

/-- A send that has its place to itself is put there, and one that is there already changes nothing. -/
theorem mergeInto_spec (hsorted : sends.Pairwise fun a b => a.span.start < b.span.start)
    (hsame : ∀ kept ∈ sends, candidate.span.start = kept.span.start → candidate = kept) :
    (candidate.mergeInto sends).Pairwise (fun a b => a.span.start < b.span.start) ∧
      ∀ send, send ∈ candidate.mergeInto sends ↔ send = candidate ∨ send ∈ sends := by
  induction sends with
  | nil => simp [mergeInto]
  | cons kept rest ih =>
    rw [List.pairwise_cons] at hsorted
    rw [List.forall_mem_cons] at hsame
    rcases Nat.lt_trichotomy candidate.span.start kept.span.start with hlt | heq | hgt
    · rw [mergeInto, compareKey_of_lt hlt]
      refine ⟨List.pairwise_cons.2 ⟨?_, List.pairwise_cons.2 hsorted⟩, fun send => List.mem_cons⟩
      rw [List.forall_mem_cons]
      exact ⟨hlt, fun b hb => Nat.lt_trans hlt (hsorted.1 b hb)⟩
    · obtain rfl := hsame.1 heq
      rw [mergeInto, compareKey_self, absorb_self]
      refine ⟨List.pairwise_cons.2 hsorted, fun send => ?_⟩
      rw [List.mem_cons, or_self_left]
    · rw [mergeInto, compareKey_of_gt hgt]
      obtain ⟨hpairwise, hmem⟩ := ih hsorted.2 hsame.2
      refine ⟨List.pairwise_cons.2 ⟨fun b hb => ?_, hpairwise⟩, fun send => ?_⟩
      · rcases (hmem b).1 hb with rfl | hrest
        · exact hgt
        · exact hsorted.1 b hrest
      · rw [List.mem_cons, hmem send, List.mem_cons]
        exact or_left_comm

/-- Merging sends one by one into an ordered list, where sends that start together are equal. -/
theorem foldl_mergeInto {candidates : List Send}
    (hsorted : sends.Pairwise fun a b => a.span.start < b.span.start)
    (hsame : ∀ a ∈ candidates ++ sends, ∀ b ∈ candidates ++ sends,
      a.span.start = b.span.start → a = b) :
    let merged := candidates.foldl (fun merged candidate => candidate.mergeInto merged) sends
    merged.Pairwise (fun a b => a.span.start < b.span.start) ∧
      ∀ send, send ∈ merged ↔ send ∈ candidates ∨ send ∈ sends := by
  induction candidates generalizing sends with
  | nil => simpa using hsorted
  | cons candidate rest ih =>
    have hfirst : ∀ kept ∈ sends, candidate.span.start = kept.span.start → candidate = kept :=
      fun kept hkept => hsame candidate (by simp) kept (by simp [hkept])
    obtain ⟨hpairwise, hmem⟩ := mergeInto_spec hsorted hfirst
    have hincluded : ∀ a ∈ rest ++ candidate.mergeInto sends, a ∈ candidate :: rest ++ sends := by
      intro a ha
      rw [List.mem_append, hmem a] at ha
      rw [List.cons_append, List.mem_cons, List.mem_append]
      rcases ha with hrest | rfl | hsends
      · exact .inr (.inl hrest)
      · exact .inl rfl
      · exact .inr (.inr hsends)
    obtain ⟨hpairwise', hmem'⟩ := ih hpairwise fun a ha b hb =>
      hsame a (hincluded a ha) b (hincluded b hb)
    refine ⟨hpairwise', fun send => ?_⟩
    rw [List.foldl_cons, hmem' send, hmem send, List.mem_cons]
    exact or_left_comm.trans or_assoc.symm

end Send

namespace Source

variable {src : Source} {i j l : Nat} {send : Send}

/-! ## The walk behind any receiver -/

theorem isCode_of_isCloser (h : src.isCloser i = true) : src.isCode i = true := by
  rw [isCloser, Bool.or_eq_true, Bool.or_eq_true] at h
  rcases h with (hcode | hcode) | hcode
  · exact isCode_of_codeAt hcode
  · exact isCode_of_codeAt hcode
  · exact isCode_of_codeAt hcode

theorem receiverAt?_of_not_isCode (h : ¬src.isCode i = true) : src.receiverAt? i l = none := by
  by_contra hne
  obtain ⟨⟨r, p⟩, hr⟩ := Option.ne_none_iff_exists'.1 hne
  refine h ?_
  rcases receiverAt?_cases hr with ⟨word, hw, -, -⟩ | ⟨hn, -⟩ | ⟨hcloser, -, -⟩
  · exact isCode_of_isLetter (wordAt?_eq_some hw).2.1
  · obtain ⟨-, whole, hfigures⟩ := figures_of_numberAt? hn
    exact hfigures.code i le_rfl (src.numberAt?_bounds hn).2
  · exact isCode_of_isCloser hcloser

/-- A word with a colon behind it is passed over as a whole, since no receiver starts inside it. -/
theorem receiverSendsFrom_of_keyword {word : Span} (hw : src.wordAt? i l = some word)
    (hcolon : src.codeAt word.stop ':' = true) :
    src.receiverSendsFrom i l = src.receiverSendsFrom word.stop l := by
  refine receiverSendsFrom_skip (Nat.le_of_lt (src.wordAt?_bounds hw).2) fun k hik hk => ?_
  rcases Nat.eq_or_lt_of_le hik with rfl | hlt
  · simp [receiverAt?, hw, hcolon]
  · exact (inner_of_wordAt? hw hlt hk).receiverAt?

theorem expressionSendsFrom_eq (src : Source) (i l : Nat) :
    src.expressionSendsFrom i l = src.receiverSendsFrom i l := by
  fun_induction expressionSendsFrom src i l with
  | case1 i hlt hcode word hw sends hcolon ih =>
    exact ih.trans (receiverSendsFrom_of_keyword hw hcolon).symm
  | case2 i hlt hcode word hw sends hcolon ih =>
    rw [receiverSendsFrom_of_some hlt (receiverAt?_of_wordAt? hw (by simpa using hcolon))]
    exact congrArg (_ ++ ·) ih
  | case3 i hlt hcode hw number hn ih =>
    have hr : src.receiverAt? i l = some (.unknown, number.stop) := by simp [receiverAt?, hw, hn]
    rw [ih, receiverSendsFrom_of_some hlt hr]
  | case4 i hlt hcode hw hn sends hcloser ih =>
    rw [receiverSendsFrom_of_some hlt (receiverAt?_of_isCloser hcloser)]
    exact congrArg (_ ++ ·) ih
  | case5 i hlt hcode hw hn sends hcloser ih =>
    have hr : src.receiverAt? i l = none := by simp [receiverAt?, hw, hn, hcloser]
    exact ih.trans (receiverSendsFrom_of_none hr).symm
  | case6 i hlt hcode ih => rw [ih, receiverSendsFrom_of_none (receiverAt?_of_not_isCode hcode)]
  | case7 i hlt => rw [receiverSendsFrom_of_le (Nat.le_of_not_lt hlt)]

/-! ## The walk behind `self` and `super` -/

theorem mem_explicitSendsFrom (h : send ∈ src.explicitSendsFrom i l) :
    ∃ k word, i ≤ k ∧ src.wordAt? k l = some word ∧
      src.sendAfter? (.ofWord (src.slice word)) word.stop l = some send := by
  fun_induction explicitSendsFrom src i l with
  | case1 i hlt hw ih =>
    obtain ⟨k, word, hk, hfound⟩ := ih h
    exact ⟨k, word, Nat.le_of_succ_le hk, hfound⟩
  | case2 i hlt word hw sends hr ih =>
    obtain ⟨k, other, hk, hfound⟩ := ih h
    have hbounds := src.wordAt?_bounds hw
    exact ⟨k, other, by omega, hfound⟩
  | case3 i hlt word hw sends hr ih =>
    rcases List.mem_append.1 h with hhere | hlater
    · exact ⟨i, word, le_rfl, hw, Option.mem_toList.1 hhere⟩
    · obtain ⟨k, other, hk, hfound⟩ := ih hlater
      have hbounds := src.wordAt?_bounds hw
      exact ⟨k, other, by omega, hfound⟩
  | case4 i hlt => simp at h

/-- The words `self` and `super` are receivers like any other. -/
theorem mem_simpleSends_of_mem_explicitSendsFrom
    (h : send ∈ src.explicitSendsFrom src.sendRegion.span.start src.sendRegion.span.stop)
    (hadmits : src.sendRegion.admits send.span = true) :
    send ∈ src.simpleSends src.sendRegion := by
  obtain ⟨k, word, hk, hw, hsend⟩ := mem_explicitSendsFrom h
  obtain ⟨hstart, hlt⟩ := src.wordAt?_bounds hw
  have hends : src.ReceiverEnds src.sendRegion.span word.stop (.ofWord (src.slice word)) :=
    .word (by omega) (by rwa [hstart]) rfl
  rw [simpleSends, List.mem_filter, List.mem_append]
  exact ⟨hends.mem_sends (by omega) hsend src.not_isDigit_before_region, hadmits⟩

/-! ## The walk over keywords -/

theorem keywords_of_le (h : l ≤ i) : src.keywords ⟨i, l⟩ = [] := by
  rw [keywords, Span.offsets_nil h]
  rfl

theorem keywords_of_none (h : src.keywordAt? i l = none) :
    src.keywords ⟨i, l⟩ = src.keywords ⟨i + 1, l⟩ := by
  by_cases hlt : i < l
  · rw [keywords, Span.offsets_cons hlt]
    exact List.filterMap_cons_none h
  · rw [keywords_of_le (by omega), keywords_of_le (by omega)]

/-- No keyword starts inside another one. -/
theorem keywords_of_some {first : Span} (h : src.keywordAt? i l = some first) :
    src.keywords ⟨i, l⟩ = first :: src.keywords ⟨first.stop, l⟩ := by
  obtain ⟨hstart, hlt⟩ := src.keywordAt?_bounds h
  have hil : i < l := (wordAt?_eq_some (keywordAt?_eq_some h).choose_spec.1).1
  have hskip : ∀ j, i + 1 ≤ j → j ≤ first.stop →
      src.keywords ⟨i + 1, l⟩ = src.keywords ⟨j, l⟩ := by
    intro j hij
    induction j, hij using Nat.le_induction with
    | base => exact fun _ => rfl
    | succ j hij ih =>
      intro hj
      have hnone : src.keywordAt? j l = none := by
        by_contra hne
        obtain ⟨token, htoken⟩ := Option.ne_none_iff_exists'.1 hne
        have htoken' := (src.keywordAt?_bounds htoken).1
        have hle : first.stop ≤ token.start :=
          keywordAt?_stop_le (by rwa [hstart]) (by rwa [htoken']) (by omega)
        omega
      rw [ih (by omega), keywords_of_none hnone]
  rw [keywords, Span.offsets_cons hil, ← hskip first.stop hlt le_rfl]
  exact List.filterMap_cons_some h

theorem scannedRunsFrom_eq (src : Source) (region : SendRegion) (taken : List Nat) (i : Nat) :
    src.scannedRunsFrom region taken i =
      src.runsOf region taken (src.keywords ⟨i, region.span.stop⟩) := by
  fun_induction scannedRunsFrom src region taken i with
  | case1 taken i hlt hnone ih => rw [ih, keywords_of_none hnone]
  | case2 taken i hlt first hfirst hskip ih => rw [ih, keywords_of_some hfirst, runsOf, if_pos hskip]
  | case3 taken i hlt first hfirst hskip run runs hadmits ih =>
    rw [keywords_of_some hfirst, runsOf, if_neg hskip]
    exact (congrArg (run :: ·) ih).trans (if_pos hadmits).symm
  | case4 taken i hlt first hfirst hskip run runs hadmits ih =>
    rw [keywords_of_some hfirst, runsOf, if_neg hskip]
    exact ih.trans (if_neg hadmits).symm
  | case5 taken i hlt => rw [keywords_of_le (Nat.le_of_not_lt hlt), runsOf]

/-! ## The sends of a method -/

theorem SelectorAt.kind_ne_keyword {sp : Span} {kind : SelectorKind} (h : src.SelectorAt l sp kind) :
    kind ≠ .keyword := by
  cases h with
  | unary => exact SelectorKind.noConfusion
  | binary => exact SelectorKind.noConfusion

theorem admitsSend_of_sendAfter? {region : SendRegion} {r : Receiver}
    (h : src.sendAfter? r i l = some send) : region.admitsSend send = region.admits send.span := by
  have hkind := (sendAfter?_eq_some.1 h).1.kind_ne_keyword
  unfold SendRegion.admitsSend
  split
  · contradiction
  · rfl
  · rfl

theorem simpleSends_eq (src : Source) (region : SendRegion) :
    src.simpleSends region = (src.receiverSendsFrom region.span.start region.span.stop
      ++ src.cascadeSendsAt region.span.stop .empty region.span.offsets).filter
        region.admitsSend := by
  refine List.filter_congr fun send hsend => ?_
  rcases List.mem_append.1 hsend with hreceiver | hcascade
  · obtain ⟨k, r, stop, -, -, hfound⟩ := mem_receiverSendsFrom hreceiver
    exact (admitsSend_of_sendAfter? hfound).symm
  · obtain ⟨k, -, -, hfound⟩ := mem_cascadeSendsAt hcascade
    exact (admitsSend_of_sendAfter? hfound).symm

/-- What the region admits of the findings are the sends of the method. -/
theorem mem_findings (src : Source) (send : Send) :
    send ∈ (src.findings src.sendRegion).filter src.sendRegion.admitsSend ↔ send ∈ src.sends := by
  have hkeyword : send ∈ src.keywordSends src.sendRegion ↔
      send ∈ (src.scannedRunsFrom src.sendRegion [] src.sendRegion.span.start).map
        KeywordRun.toSend ∧ src.sendRegion.admitsSend send = true := by
    rw [scannedRunsFrom_eq, keywordSends, List.mem_filter]
    refine and_congr_right fun hmem => ?_
    obtain ⟨run, -, rfl⟩ := List.mem_map.1 hmem
    rfl
  rw [mem_sends, hkeyword, List.mem_filter, findings, List.mem_append, List.mem_append,
    List.mem_append, expressionSendsFrom_eq]
  constructor
  · rintro ⟨((hexplicit | hrun) | hreceiver) | hcascade, hadmits⟩
    · obtain ⟨k, word, -, -, hfound⟩ := mem_explicitSendsFrom hexplicit
      rw [admitsSend_of_sendAfter? hfound] at hadmits
      exact .inr (mem_simpleSends_of_mem_explicitSendsFrom hexplicit hadmits)
    · exact .inl ⟨hrun, hadmits⟩
    · rw [simpleSends_eq]
      exact .inr (List.mem_filter.2 ⟨List.mem_append_left _ hreceiver, hadmits⟩)
    · rw [simpleSends_eq]
      exact .inr (List.mem_filter.2 ⟨List.mem_append_right _ hcascade, hadmits⟩)
  · intro h
    rcases h with ⟨hrun, hadmits⟩ | hsimple
    · exact ⟨.inl (.inl (.inr hrun)), hadmits⟩
    · rw [simpleSends_eq, List.mem_filter, List.mem_append] at hsimple
      rcases hsimple.1 with hreceiver | hcascade
      · exact ⟨.inl (.inr hreceiver), hsimple.2⟩
      · exact ⟨.inr hcascade, hsimple.2⟩

/-- The four walks and the merge list the sends of a method. -/
theorem detectedSends_eq (src : Source) : src.detectedSends = src.sends := by
  have hsame : ∀ a ∈ (src.findings src.sendRegion).filter src.sendRegion.admitsSend ++ [],
      ∀ b ∈ (src.findings src.sendRegion).filter src.sendRegion.admitsSend ++ [],
      a.span.start = b.span.start → a = b := by
    intro a ha b hb
    rw [List.append_nil, mem_findings] at ha hb
    exact send_eq_of_start_eq ha hb
  obtain ⟨hsorted, hmem⟩ := Send.foldl_mergeInto .nil hsame
  have hirrefl : Std.Irrefl fun a b : Send => a.span.start < b.span.start :=
    ⟨fun _ => Nat.lt_irrefl _⟩
  have hantisymm : Std.Antisymm fun a b : Send => a.span.start < b.span.start :=
    ⟨fun _ _ h h' => absurd h' (Nat.lt_asymm h)⟩
  refine hsorted.eq_of_mem_iff src.pairwise_lt_sends fun send => ?_
  rw [hmem send, mem_findings]
  simp

end Source

end MethodBrowser
