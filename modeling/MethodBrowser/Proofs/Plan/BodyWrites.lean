import MethodBrowser.Proofs.Header.FirstLine
import MethodBrowser.Proofs.Image.Reachable
import MethodBrowser.Proofs.Plan.Announced
import MethodBrowser.Proofs.Plan.Selection

/-!
# What extracting and inlining write

Both change the body of a method, where statements and sends are, so its header stays. Both announce
what they write (`ExtractMethod.announces`, `InlineMethod.announces`).

A plan without a selection or a site would edit the start of the text. Selections that are accepted
are not empty, and methods of one line have neither statements nor sites.
-/

namespace MethodBrowser

open StoredMethod

variable {session : Session} {settings : Settings}

namespace Source

variable {src : Source}

/-! ## Statements lie in the body -/

theorem le_start_of_mem_pieces {stop start b : Nat} {n : Nesting} {is : List Nat} {piece : Span}
    (hstart : b ≤ start) (his : ∀ i ∈ is, b ≤ i) (h : piece ∈ src.pieces stop start n is) :
    b ≤ piece.start := by
  induction is generalizing start n with
  | nil =>
    obtain rfl : piece = ⟨start, stop⟩ := by simpa [pieces] using h
    exact hstart
  | cons i is ih =>
    rw [List.forall_mem_cons] at his
    rw [pieces] at h
    split at h
    · rcases List.mem_cons.1 h with rfl | h
      · exact hstart
      · exact ih (by omega) his.2 h
    · exact ih hstart his.2 h

theorem bodyStart_le_statement {statement : Statement} (h : statement ∈ src.statements) :
    src.bodyStart ≤ statement.span.start := by
  rw [statements, statementsIn, List.mem_filterMap] at h
  obtain ⟨piece, hpiece, hstatement⟩ := h
  obtain ⟨span, htrim, rfl⟩ := Option.map_eq_some_iff.1 hstatement
  have hle := le_start_of_mem_pieces (Nat.le_refl src.statementRegion.start)
    (fun i hi => (Span.mem_offsets.1 hi).1) hpiece
  have hbody := src.bodyStart_le_region
  have hrun := src.le_runEnd (fun c => !c.isSignificant) piece.start piece.stop
  simp only [trim?] at htrim
  split at htrim
  · obtain rfl := Option.some.inj htrim
    simp only
    omega
  · simp at htrim

theorem stop_le_start_of_oneLine (h : '\n' ∉ src.text.toList) :
    src.statementRegion.stop ≤ src.statementRegion.start := by
  have hbody := src.bodyStart_le_region
  rw [bodyStart_of_oneLine h] at hbody
  exact hbody

theorem statements_of_oneLine (h : '\n' ∉ src.text.toList) : src.statements = [] := by
  have hle := stop_le_start_of_oneLine h
  have hoffsets : src.statementRegion.offsets = [] := Span.offsets_nil hle
  have hrun := src.le_runEnd (fun c => !c.isSignificant) src.statementRegion.start
    src.statementRegion.stop
  have htrim : src.trim? ⟨src.statementRegion.start, src.statementRegion.stop⟩ = none := by
    rw [trim?, if_neg (by simp only; omega)]
  simp [statements, statementsIn, hoffsets, pieces, statementIn?, htrim]

end Source

/-! ## Extracting -/

namespace ExtractMethod

variable {r : Request} {p : Plan}

/-- The selection starts with a statement. -/
theorem exists_selected {statements : List Statement} {first : Nat} (last : Nat)
    (hfirst : 1 ≤ first) (hcount : first ≤ statements.length) :
    ∃ statement ∈ statements,
      ((statements.drop (first - 1)).take (last - first + 1)).head? = some statement := by
  refine ⟨statements.get ⟨first - 1, by omega⟩, List.get_mem .., ?_⟩
  rw [List.head?_take, if_neg (by omega), List.head?_drop, List.getElem?_eq_getElem (by omega)]
  rfl

theorem ofText?_extracted {selector : String} (h : Selector.kind? selector = some .unary)
    (statements : List String) :
    Header.ofText? (extracted selector statements) =
      some ⟨selector, .unary, [selector], [], selector.toList.length⟩ := by
  have hwf : Header.WellFormed ⟨selector, .unary, [selector], [], 0⟩ := by
    refine ⟨h, ?_, ?_, by simp⟩
    · simp [Selector.tokens, h]
    · simp [Selector.arity, h]
  have htext : (extracted selector statements).toList =
      (Header.render ⟨selector, .unary, [selector], [], 0⟩).toList ++
        '\n' :: (indent ++ String.intercalate (".\n" ++ indent) statements).toList := by
    simp [extracted, Header.render, Header.renderWith]
  exact Header.ofText?_render hwf (Header.follows_newline _ _) htext

/-- What a plan to extract statements holds. -/
structure Plan.Planned (session : Session) (p : Plan) : Prop where
  source : ∃ e, session.image.method? p.method = some e ∧ e.source = p.oldSource
  writes : p.writes = p.announced.map write
  ne : p.newMethod ≠ p.method
  newMethod : Spelled (p.newMethod, ⟨p.newMethodSource, p.category⟩)
  header : Header.ofText? p.revisedSource = Header.ofText? p.oldSource

theorem planned_of_plan (h : plan session settings r = .ok p) : p.Planned session := by
  simp only [plan, bind_eq_ok, require_eq_ok, mapError_eq_ok, Session.sourceOf_eq_ok,
    Prod.exists] at h
  obtain ⟨-, hunary, -, hne, source, ⟨e, he, rfl⟩, first, last, hrange, h⟩ := h
  split at h
  · simp [throw, throwThe, MonadExceptOf.throw, bind, Except.bind] at h
  · obtain ⟨h, -⟩ := Session.unlessTaken_eq_ok h
    simp only [bind_eq_ok, pure, Except.pure, Except.ok.injEq] at h
    obtain ⟨category, -, rfl⟩ := h
    obtain ⟨hfirst, hle, hlast⟩ := selectionRange_bounds hrange
    obtain ⟨statement, hstatement, hhead⟩ := exists_selected last hfirst (hle.trans hlast)
    have hline : '\n' ∈ e.source.toList := by
      by_contra hone
      have hnil : (Source.ofText e.source).statements = [] := Source.statements_of_oneLine hone
      simp [hnil] at hstatement
    refine ⟨⟨e, he, rfl⟩, rfl, fun heq => ?_, ?_, ?_⟩
    · exact of_decide_eq_true hne (congrArg MethodRef.selector heq)
    · exact ⟨_, ofText?_extracted (by simpa using hunary) _, rfl⟩
    · refine Header.ofText?_applyAll hline fun edit hedit => ?_
      obtain rfl := List.mem_singleton.1 hedit
      simp only [hhead, Option.map_some, Option.getD_some]
      exact Source.bodyStart_le_statement hstatement

theorem Plan.Planned.announces_iff (h : p.Planned session) :
    Announces p.writes p.announced [] ↔ session.image.Filed p.method := by
  have hspelled : Spelled (p.method, ⟨p.revisedSource, p.category⟩) ↔
      session.image.Filed p.method := by
    rw [Image.filed_iff h.source, ← h.header]
    rfl
  rw [← hspelled]
  constructor
  · exact fun hannounces => hannounces.spelled _ (List.mem_cons_of_mem _ List.mem_cons_self)
  · intro hspelled
    refine ⟨?_, List.forall_mem_cons.2 ⟨h.newMethod, List.forall_mem_singleton.2 hspelled⟩⟩
    rw [h.writes, List.map_nil, List.append_nil]

theorem announces (hspelled : session.image.Spelled) (h : plan session settings r = .ok p) :
    Announces p.writes p.announced [] ∧ Unambiguous p.announced [] := by
  have hplanned := planned_of_plan h
  obtain ⟨e, he, -⟩ := hplanned.source
  exact ⟨hplanned.announces_iff.2 (hspelled.filed ⟨e, he⟩), unambiguous_pair hplanned.ne⟩

end ExtractMethod

/-! ## Inlining -/

namespace InlineMethod

variable {r : Request} {p : Plan}

theorem start_of_siteAt? {src : Source} {region : SendRegion} {selector : String}
    {receiver site : Span} (h : siteAt? src region selector receiver = some site) :
    site.start = receiver.start := by
  simp only [siteAt?] at h
  split at h
  · split at h
    · simp at h
    · split at h
      · rw [← Option.some.inj h]
      · simp at h
  · simp at h

theorem mem_sitesAmong {src : Source} {region : SendRegion} {selector : String} {cursor : Nat}
    {words : List Span} {site : Span} (h : site ∈ sitesAmong src region selector cursor words) :
    ∃ word ∈ words, siteAt? src region selector word = some site := by
  induction words generalizing cursor with
  | nil => simp [sitesAmong] at h
  | cons word words ih =>
    have hrec : ∀ {cursor : Nat}, site ∈ sitesAmong src region selector cursor words →
        ∃ w ∈ word :: words, siteAt? src region selector w = some site := fun hmem => by
      obtain ⟨w, hw, hsite⟩ := ih hmem
      exact ⟨w, List.mem_cons_of_mem _ hw, hsite⟩
    rw [sitesAmong] at h
    split at h
    · exact hrec h
    · split at h
      · next site' hsite =>
        rcases List.mem_cons.1 h with rfl | h
        · exact ⟨word, List.mem_cons_self, hsite⟩
        · exact hrec h
      · exact hrec h

/-- Sites lie in the body, and a method of one line has none. -/
theorem bodyStart_le_site {src : Source} {selector : String} {site : Span}
    (h : site ∈ selfSendSites src selector) :
    src.bodyStart ≤ site.start ∧ '\n' ∈ src.text.toList := by
  obtain ⟨word, hword, hsite⟩ := mem_sitesAmong h
  obtain ⟨i, hi, hat⟩ := List.mem_filterMap.1 hword
  have hstart := (src.wordAt?_bounds hat).1
  have hbody := src.bodyStart_le_region
  rw [Span.mem_offsets] at hi
  have hregion : src.sendRegion.span = src.statementRegion := rfl
  rw [hregion] at hi
  constructor
  · rw [start_of_siteAt? hsite, hstart]
    omega
  · by_contra hone
    have hle := Source.stop_le_start_of_oneLine hone
    omega

/-- What a plan to inline a method holds. -/
structure Plan.Planned (session : Session) (p : Plan) : Prop where
  source : ∃ e, session.image.method? p.caller = some e ∧ e.source = p.oldCallerSource
  header : Header.ofText? p.newCallerSource = Header.ofText? p.oldCallerSource

theorem planned_of_plan (h : plan session settings r = .ok p) : p.Planned session := by
  simp only [plan, bind_eq_ok, require_eq_ok, mapError_eq_ok, Session.sourceOf_eq_ok, pure,
    Except.pure, Except.ok.injEq] at h
  obtain ⟨-, -, -, -, calleeSource, -, expression, -, source, ⟨e, he, rfl⟩, -, hsites, category, -,
    rfl⟩ := h
  obtain ⟨site, hsite⟩ := List.exists_mem_of_ne_nil _ (by simpa using hsites)
  have hline : '\n' ∈ e.source.toList := (bodyStart_le_site hsite).2
  refine ⟨⟨e, he, rfl⟩, Header.ofText?_applyAll hline fun edit hedit => ?_⟩
  obtain ⟨site', hsite', rfl⟩ := List.mem_map.1 hedit
  exact (bodyStart_le_site hsite').1

theorem Plan.Planned.announces_iff (h : p.Planned session) :
    Announces p.writes p.announced [] ↔ session.image.Filed p.caller := by
  have hspelled : Spelled (p.caller, ⟨p.newCallerSource, p.category⟩) ↔
      session.image.Filed p.caller := by
    rw [Image.filed_iff h.source, ← h.header]
    rfl
  rw [← hspelled]
  constructor
  · exact fun hannounces => hannounces.spelled _ List.mem_cons_self
  · exact fun hspelled => ⟨rfl, List.forall_mem_singleton.2 hspelled⟩

theorem announces (hspelled : session.image.Spelled) (h : plan session settings r = .ok p) :
    Announces p.writes p.announced [] ∧ Unambiguous p.announced [] := by
  have hplanned := planned_of_plan h
  obtain ⟨e, he, -⟩ := hplanned.source
  exact ⟨hplanned.announces_iff.2 (hspelled.filed ⟨e, he⟩), unambiguous_single _ (by simp)⟩

end InlineMethod

end MethodBrowser
