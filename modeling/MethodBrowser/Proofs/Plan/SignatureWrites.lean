import Mathlib.Data.List.InsertIdx
import MethodBrowser.Proofs.Header.FirstLine
import MethodBrowser.Proofs.Image.Reachable
import MethodBrowser.Proofs.Plan.Announced

/-!
# What moving a method and changing its parameters write

A moved method keeps its source. A method that gets or loses a parameter gets a new signature, and
its old signature goes to the forwarder. All three announce what they write
(`MoveMethod.announces`, `AddParameter.announces`, `RemoveParameter.announces`).
-/

namespace MethodBrowser

open StoredMethod

variable {session : Session} {settings : Settings}

/-! ## Moving -/

namespace MoveMethod

variable {r : Request} {p : Plan}

/-- What a plan to move a method holds. -/
structure Plan.Planned (session : Session) (p : Plan) : Prop where
  ne : p.source ≠ p.target
  selector : p.target.selector = p.source.selector
  source : ∃ e, session.image.method? p.source = some e ∧ e.source = p.sourceText

theorem plan_eq_ok (h : plan session settings r = .ok p) : p.Planned session := by
  simp only [plan, bind_eq_ok, require_eq_ok, Session.sourceOf_eq_ok, pure, Except.pure,
    Except.ok.injEq] at h
  obtain ⟨-, hne, text, htext, category, -, exists?, -, -, -, inherited, -, rfl⟩ := h
  exact ⟨of_decide_eq_true hne, rfl, htext⟩

namespace Plan.Planned

variable (h : p.Planned session)

include h

theorem announces_iff :
    Announces p.writes p.announced p.dropped ↔ session.image.Filed p.source := by
  have hspelled : (∀ q ∈ p.announced, Spelled q) ↔ session.image.Filed p.source := by
    rw [announced, List.forall_mem_singleton, Image.filed_iff h.source, ← h.selector]
    rfl
  rw [← hspelled]
  refine ⟨Announces.spelled, fun hspelled => ⟨?_, hspelled⟩⟩
  simp only [writes, announced, dropped, write, List.map_cons, List.map_nil]
  cases p.keepSource <;> rfl

theorem exists_source : ∃ e, session.image.method? p.source = some e := by
  obtain ⟨e, he, -⟩ := h.source
  exact ⟨e, he⟩

theorem announces (hspelled : session.image.Spelled) :
    Announces p.writes p.announced p.dropped :=
  h.announces_iff.2 (hspelled.filed h.exists_source)

theorem unambiguous : Unambiguous p.announced p.dropped := by
  refine unambiguous_single _ ?_
  rw [dropped]
  split
  · simp
  · simpa using h.ne.symm

end Plan.Planned

end MoveMethod

/-! ## Signatures -/

namespace Session

/-- A keyword method that is found has the header it is stored under. -/
theorem keywordMethod_eq_ok {className selector : String} {side : Side} {target : KeywordMethod}
    (h : session.keywordMethod className side selector = .ok target) :
    (∃ e, session.image.method? target.method = some e ∧ e.source = target.source) ∧
      Header.ofText? target.source = some target.header ∧ target.header.kind = .keyword ∧
      target.header.selector = target.method.selector := by
  simp only [keywordMethod, bind_eq_ok, require_eq_ok, sourceOf_eq_ok] at h
  obtain ⟨-, -, source, hsource, h⟩ := h
  split at h
  · simp [throw, throwThe, MonadExceptOf.throw] at h
  · next header hheader =>
    simp only [bind_eq_ok, require_eq_ok, pure, Except.pure, Except.ok.injEq, Bool.and_eq_true,
      beq_iff_eq] at h
    obtain ⟨-, ⟨hkind, hselector⟩, rfl⟩ := h
    exact ⟨hsource, hheader, hkind, hselector⟩

/-- No other keyword method is found. -/
theorem filed_of_keywordMethod {className selector : String} {side : Side}
    {target : KeywordMethod} (h : session.keywordMethod className side selector = .ok target) :
    session.image.Filed target.method := by
  obtain ⟨hsource, hheader, -, hselector⟩ := keywordMethod_eq_ok h
  exact (Image.filed_iff hsource).2 ⟨_, hheader, hselector⟩

theorem freeMethod_eq_ok {method new : MethodRef} {selector : String} {overwrite : Bool}
    (h : session.freeMethod method selector overwrite = .ok new) :
    new = { method with selector := selector } ∧
      (overwrite = false → session.image.method? new = none) := by
  obtain ⟨h, hfree⟩ := unlessTaken_eq_ok h
  simp only [pure, Except.pure, Except.ok.injEq] at h
  subst h
  exact ⟨rfl, hfree⟩

end Session

namespace Header

/-- The keywords of a keyword signature. -/
theorem WellFormed.exists_words {h : Header} (hwf : h.WellFormed) (hkind : h.kind = .keyword) :
    ∃ words, words ≠ [] ∧ (∀ w ∈ words, MethodBrowser.isIdentifier w = true) ∧
      h.parts = Selector.keywordsOf words ∧ h.arguments.length = words.length := by
  have hkeyword := hwf.kind
  rw [hkind] at hkeyword
  obtain ⟨words, hne, hident, htokens⟩ := Selector.tokens_of_keyword hkeyword
  refine ⟨words, hne, hident, by rw [hwf.parts, htokens], ?_⟩
  have hparts : Selector.parts h.selector = Selector.keywordsOf words := by
    simpa [Selector.tokens, hkeyword] using htokens
  rw [hwf.arity]
  simp only [Selector.arity, hkeyword, hparts]
  simp [Selector.keywordsOf, Selector.withColons]

/-- The forwarder is read as the method that it stands for. -/
theorem ofText?_forwarder {h : Header} (hwf : h.WellFormed) (target : Header)
    (arguments : List String) :
    ofText? (forwarder h target arguments) =
      some { h with signatureEnd := h.render.toList.length } := by
  refine ofText?_render hwf (follows_newline h.kind
    (indent ++ "^self " ++ target.renderWith arguments).toList) ?_
  simp [forwarder]

end Header

/-- A method with a new signature and a forwarder for the old one. -/
theorem spelled_forwarder {source category : String} {h new : Header} {method : MethodRef}
    {arguments : List String} (hp : Header.ofText? source = some h)
    (hmethod : h.selector = method.selector) (hwf : new.WellFormed)
    (himp : ∀ rest, Header.Ends h.kind rest → Header.Ends new.kind rest) :
    ∀ p ∈ [(({ method with selector := new.selector } : MethodRef),
        (⟨replaceHeader source h new, category⟩ : MethodEntry)),
      (method, ⟨forwarder h new arguments, category⟩)], Spelled p := by
  obtain ⟨sig, after, hreading⟩ := Header.ofText?_eq_some hp
  refine List.forall_mem_cons.2 ⟨?_, List.forall_mem_singleton.2 ?_⟩
  · exact ⟨_, Header.ofText?_replaceHeader hp hwf himp, rfl⟩
  · exact ⟨_, Header.ofText?_forwarder hreading.wellFormed new arguments, hmethod⟩

/-! ## Adding a parameter -/

namespace AddParameter

variable {r : Request} {p : Plan}

/-- A single keyword is a word and a colon. -/
theorem exists_word {keyword : String} (h : isKeyword keyword = true) :
    ∃ w, MethodBrowser.isIdentifier w = true ∧ Selector.keywordsOf [w] = [keyword] := by
  rw [isKeyword, Bool.and_eq_true, beq_iff_eq, beq_iff_eq] at h
  obtain ⟨words, hne, hident, hflat⟩ := Selector.kind?_eq_keyword_iff.1 h.1
  have hcount : ∀ words : List (List Char), (∀ w ∈ words, MethodBrowser.isIdentifier w = true) →
      (Selector.withColons words).flatten.count ':' = words.length := by
    intro words hident
    induction words with
    | nil => rfl
    | cons w words ih =>
      rw [List.forall_mem_cons] at hident
      have hrec := ih hident.2
      have hzero : w.count ':' = 0 :=
        List.count_eq_zero.2 (not_colon_of_isIdentifier hident.1)
      simp only [Selector.withColons, List.map_cons, List.flatten_cons, List.count_append] at hrec ⊢
      rw [hzero, hrec, List.length_cons, Nat.add_comm]
      rfl
  rw [hflat, hcount words hident] at h
  obtain ⟨w, rfl⟩ := List.length_eq_one_iff.1 h.2
  refine ⟨w, hident w (by simp), ?_⟩
  have hkeyword : String.ofList (w ++ [':']) = keyword := by
    rw [← String.ofList_toList (s := keyword), hflat]
    simp [Selector.withColons]
  simp only [Selector.keywordsOf, Selector.withColons, List.map_cons, List.map_nil, hkeyword]

/-- A signature with one more keyword and argument. -/
theorem wellFormed_extended {h : Header} (hwf : h.WellFormed) (hkind : h.kind = .keyword)
    {keyword argument : String} (hkeyword : isKeyword keyword = true)
    (hargument : isArgumentName argument = true) :
    (Header.ofParts .keyword (h.parts ++ [keyword]) (h.arguments ++ [argument])).WellFormed := by
  obtain ⟨words, hne, hident, hparts, hlen⟩ := hwf.exists_words hkind
  obtain ⟨w, hw, hkeywords⟩ := exists_word hkeyword
  have hall : h.parts ++ [keyword] = Selector.keywordsOf (words ++ [w]) := by
    rw [hparts, ← hkeywords]
    simp [Selector.keywordsOf, Selector.withColons]
  rw [isArgumentName, Bool.and_eq_true] at hargument
  rw [Header.ofParts, hall]
  refine Header.wellFormed_keyword 0 (by simp) ?_ (by simp [hlen]) ?_
  · exact List.forall_mem_append.2 ⟨hident, by simpa using hw⟩
  · exact List.forall_mem_append.2 ⟨hwf.arguments, by simpa using hargument.1⟩

theorem announces (h : plan session settings r = .ok p) :
    Announces p.writes p.announced [] ∧
      (r.overwrite = false → Unambiguous p.announced []) := by
  simp only [plan, bind_eq_ok, require_eq_ok, pure, Except.pure, Except.ok.injEq] at h
  obtain ⟨target, htarget, -, hkeyword, -, hargument, -, -, -, -, newMethod, hnew, category, -,
    rfl⟩ := h
  obtain ⟨⟨e, he, -⟩, hheader, hkind, hselector⟩ := Session.keywordMethod_eq_ok htarget
  obtain ⟨rfl, hfree⟩ := Session.freeMethod_eq_ok hnew
  obtain ⟨sig, after, hreading⟩ := Header.ofText?_eq_some hheader
  have hwf := wellFormed_extended hreading.wellFormed hkind hkeyword hargument
  refine ⟨⟨rfl, spelled_forwarder hheader hselector hwf ?_⟩, fun hoverwrite => ?_⟩
  · intro rest hends
    rw [hkind] at hends
    exact hends
  · refine unambiguous_pair fun heq => ?_
    simp only at heq
    rw [← heq, hfree hoverwrite] at he
    simp at he

/-- A method is only extended if it is filed rightly. -/
theorem filed (h : plan session settings r = .ok p) : session.image.Filed p.method := by
  simp only [plan, bind_eq_ok, require_eq_ok, pure, Except.pure, Except.ok.injEq] at h
  obtain ⟨target, htarget, -, -, -, -, -, -, -, -, newMethod, -, category, -, rfl⟩ := h
  exact Session.filed_of_keywordMethod htarget

end AddParameter

/-! ## Removing a parameter -/

namespace RemoveParameter

variable {r : Request} {p : Plan}

theorem eraseIdx_keywordsOf (words : List (List Char)) (position : Nat) :
    (Selector.keywordsOf words).eraseIdx position =
      Selector.keywordsOf (words.eraseIdx position) := by
  simp [Selector.keywordsOf, Selector.withColons, List.eraseIdx_map]

/-- A signature without one of its arguments. The only keyword becomes a unary selector. -/
theorem wellFormed_headerWithout {h : Header} (hwf : h.WellFormed) (hkind : h.kind = .keyword)
    {position : Nat} (hposition : position < h.arguments.length) :
    (headerWithout h position).WellFormed ∧
      ∀ rest, Header.Ends .keyword rest → Header.Ends (headerWithout h position).kind rest := by
  obtain ⟨words, hne, hident, hparts, hlen⟩ := hwf.exists_words hkind
  simp only [headerWithout, hparts, eraseIdx_keywordsOf]
  cases hwords : words.eraseIdx position with
  | nil =>
    -- One keyword is left, and it is the one that goes.
    have hone : words.length = 1 := by
      have hlen' := congrArg List.length hwords
      rw [List.length_eraseIdx_of_lt (by omega), List.length_nil] at hlen'
      have := List.length_pos_of_ne_nil hne
      omega
    obtain ⟨w, rfl⟩ := List.length_eq_one_iff.1 hone
    obtain rfl : position = 0 := by
      rw [hlen, List.length_singleton] at hposition
      omega
    have hw := hident w (by simp)
    have hfilter : ((w ++ [':']).filter (· ≠ ':')) = w := by
      rw [List.filter_append, List.filter_eq_self.2 fun c hc => ?_]
      · simp
      · have hc' : c ≠ ':' := fun heq => not_colon_of_isIdentifier hw (heq ▸ hc)
        simpa using hc'
    have hunary : Selector.kind? (String.ofList w) = some .unary := by
      rw [Selector.kind?_eq_unary_iff, String.toList_ofList]
      exact hw
    refine ⟨?_, fun rest hends => hends.unary⟩
    simp only [Selector.keywordsOf, Selector.withColons, List.map_cons, List.map_nil,
      List.getElem?_cons_zero, Option.getD_some, String.toList_ofList, hfilter, Header.ofParts]
    refine ⟨by simpa using hunary, ?_, ?_, by simp⟩
    · simp [Selector.tokens, hunary]
    · simp [Selector.arity, hunary]
  | cons w rest =>
    refine ⟨?_, fun rest hends => hends⟩
    have hsub : ∀ v ∈ words.eraseIdx position, v ∈ words := fun v => List.mem_of_mem_eraseIdx
    rw [hwords] at hsub
    refine Header.wellFormed_keyword 0 (by simp) (fun v hv => hident v (hsub v hv)) ?_
      fun a ha => hwf.arguments a (List.mem_of_mem_eraseIdx ha)
    rw [← hwords, List.length_eraseIdx_of_lt hposition, List.length_eraseIdx_of_lt (by omega), hlen]

theorem announces (h : plan session settings r = .ok p) :
    Announces p.writes p.announced [] ∧
      (r.overwrite = false → Unambiguous p.announced []) := by
  simp only [plan, bind_eq_ok, require_eq_ok, pure, Except.pure, Except.ok.injEq] at h
  obtain ⟨target, htarget, -, hargument, -, -, newMethod, hnew, category, -, rfl⟩ := h
  obtain ⟨⟨e, he, -⟩, hheader, hkind, hselector⟩ := Session.keywordMethod_eq_ok htarget
  obtain ⟨rfl, hfree⟩ := Session.freeMethod_eq_ok hnew
  obtain ⟨sig, after, hreading⟩ := Header.ofText?_eq_some hheader
  have hposition : target.header.arguments.idxOf r.argumentName < target.header.arguments.length :=
    List.idxOf_lt_length_of_mem (by simpa using hargument)
  obtain ⟨hwf, hends⟩ := wellFormed_headerWithout hreading.wellFormed hkind hposition
  refine ⟨⟨rfl, spelled_forwarder hheader hselector hwf (hkind ▸ hends)⟩, fun hoverwrite => ?_⟩
  refine unambiguous_pair fun heq => ?_
  simp only at heq
  rw [← heq, hfree hoverwrite] at he
  simp at he

/-- A method is only reduced if it is filed rightly. -/
theorem filed (h : plan session settings r = .ok p) : session.image.Filed p.method := by
  simp only [plan, bind_eq_ok, require_eq_ok, pure, Except.pure, Except.ok.injEq] at h
  obtain ⟨target, htarget, -, -, -, -, newMethod, -, category, -, rfl⟩ := h
  exact Session.filed_of_keywordMethod htarget

end RemoveParameter

end MethodBrowser
