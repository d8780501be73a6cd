import MethodBrowser.Proofs.Edit.RenameComplete
import MethodBrowser.Proofs.Plan.Interrupted
import MethodBrowser.Proofs.Source.Occurrences

/-!
# Removing a parameter that was added

A parameter that was added to a method can be removed again, unless the method mentions it after
all. Then the method is back under its old selector, with its signature spelled in the plain way and
everything after the signature as it was (`Refactoring.removeParameter_undoes_addParameter`).

**Nothing is lost on the way.** The new signature is read back as the old one with a keyword and an
argument more, and the new argument is the last one, since no other may have its name. So what is
taken away is what was added (`Header.headerWithout_extended`).

**Nothing is found on the way.** What follows the signature is the same text before and after. A
signature leaves no literal open and no word goes on across its end, so the same variables are
mentioned in it (`Header.occurrences_replaceHeader`).
-/

namespace MethodBrowser

/-! ## Plans that succeed -/

namespace Image

variable {image : Image}

/-- A method whose header can be read is compiled into a class that can be written to. -/
theorem Writable.exists_compile {className source : String} {header : Header}
    (h : image.Writable className) (hp : Header.ofText? source = some header) (side : Side)
    (category : String) :
    ∃ image', image.compile className side source category =
      .ok (image', ⟨className, side, header.selector⟩) := by
  obtain ⟨entry, hclass, hwritable⟩ := h
  exact ⟨image.withMethods className entry side
    ((entry.methods side).insert header.selector ⟨source, category⟩), by
      simp [compile, hp, Writable.writableClass hclass hwritable, bind, Except.bind, pure,
        Except.pure]⟩

/-- Methods are stored if their classes can be written to. -/
theorem exists_perform {stored : List StoredMethod}
    (hspelled : ∀ p ∈ stored, StoredMethod.Spelled p)
    (hwritable : ∀ p ∈ stored, image.Writable p.1.className) :
    ∃ image' effects, image.perform (stored.map StoredMethod.write) = (image', .ok effects) := by
  induction stored generalizing image with
  | nil => exact ⟨image, _, rfl⟩
  | cons p stored ih =>
    rw [List.forall_mem_cons] at hspelled hwritable
    obtain ⟨header, hheader, -⟩ := hspelled.1
    obtain ⟨image₁, hc⟩ := hwritable.1.exists_compile hheader p.1.side p.2.category
    obtain ⟨-, -, -, hupdated⟩ := compile_eq_ok hc
    obtain ⟨image', effects, hp⟩ :=
      ih hspelled.2 fun q hq => (hwritable.2 q hq).updated hupdated
    exact ⟨image', _, by
      rw [List.map_cons, StoredMethod.write, perform, hc]
      simp only [hp]
      rfl⟩

end Image

namespace Session

variable {session : Session} {m : MethodRef} {e : MethodEntry}

theorem exists_categoryOf (settings : Settings) (h : session.image.method? m = some e) :
    ∃ category, session.categoryOf settings m = .ok category := by
  have hfound : session.image.categoryOf m = .ok e.category := by
    rw [Image.categoryOf, bind_eq_ok]
    exact ⟨e, Image.findMethod_eq_ok.2 h, rfl⟩
  exact ⟨_, bind_eq_ok.2 ⟨e.category, ask_eq_ok.2 hfound, rfl⟩⟩

theorem method_of_keywordMethod {className selector : String} {side : Side}
    {target : KeywordMethod} (h : session.keywordMethod className side selector = .ok target) :
    target.method = ⟨className, side, selector⟩ := by
  simp only [keywordMethod, bind_eq_ok, require_eq_ok, sourceOf_eq_ok] at h
  obtain ⟨-, -, source, -, h⟩ := h
  split at h
  · simp [throw, throwThe, MonadExceptOf.throw] at h
  · simp only [bind_eq_ok, pure, Except.pure, Except.ok.injEq] at h
    obtain ⟨-, -, rfl⟩ := h
    rfl

/-- A keyword method is found under the selector of its header. -/
theorem keywordMethod_of_method? {header : Header} (h : session.image.method? m = some e)
    (hheader : Header.ofText? e.source = some header) (hkind : header.kind = .keyword)
    (hselector : header.selector = m.selector) :
    session.keywordMethod m.className m.side m.selector = .ok ⟨m, e.source, header⟩ := by
  obtain ⟨sig, after, hreading⟩ := Header.ofText?_eq_some hheader
  have hkeyword : (Selector.kind? m.selector == some .keyword) = true := by
    rw [← hselector, hreading.wellFormed.kind, hkind]
    rfl
  have hspelled : (header.kind == .keyword && header.selector == m.selector) = true := by
    rw [hkind, hselector, beq_self_eq_true, beq_self_eq_true]
    rfl
  rw [keywordMethod]
  refine bind_eq_ok.2 ⟨(), require_eq_ok.2 hkeyword, ?_⟩
  refine bind_eq_ok.2 ⟨e.source, sourceOf_eq_ok.2 ⟨e, h, rfl⟩, ?_⟩
  simp only [hheader]
  exact bind_eq_ok.2 ⟨(), require_eq_ok.2 hspelled, rfl⟩

end Session

/-! ## Signatures -/

namespace Header

variable {h : Header}

/-- The signature with one more keyword and argument. -/
abbrev extended (h : Header) (keyword argument : String) : Header :=
  .ofParts .keyword (h.parts ++ [keyword]) (h.arguments ++ [argument])

theorem WellFormed.join_parts (hwf : h.WellFormed) : String.join h.parts = h.selector := by
  rw [hwf.parts, join_tokens]

theorem selector_extended (hwf : h.WellFormed) (keyword argument : String) :
    (h.extended keyword argument).selector = h.selector ++ keyword := by
  simp only [ofParts, String.join_append, hwf.join_parts, String.join_cons, String.join_nil,
    String.append_empty]

theorem eraseIdx_concat {l : List String} {n : Nat} (hl : l.length = n) (x : String) :
    (l ++ [x]).eraseIdx n = l := by
  rw [List.eraseIdx_append_of_length_le (Nat.le_of_eq hl), hl, Nat.sub_self,
    List.eraseIdx_cons_zero, List.append_nil]

/-- Without the last keyword and argument a signature is what it was before. -/
theorem headerWithout_extended {keyword argument : String} (hwf : h.WellFormed)
    (hkind : h.kind = .keyword) (signatureEnd : Nat) :
    RemoveParameter.headerWithout { h.extended keyword argument with signatureEnd := signatureEnd }
      h.arguments.length = { h with signatureEnd := 0 } := by
  obtain ⟨words, hne, -, hparts, hlen⟩ := hwf.exists_words hkind
  have hlength : h.parts.length = h.arguments.length := by
    rw [hparts, hlen]
    simp [Selector.keywordsOf, Selector.withColons]
  have hsome : h.parts ≠ [] := by
    rw [hparts]
    simpa [Selector.keywordsOf, Selector.withColons] using hne
  unfold RemoveParameter.headerWithout
  split
  · next hnil => exact absurd ((eraseIdx_concat hlength keyword).symm.trans hnil) hsome
  · simp only [ofParts, eraseIdx_concat hlength, eraseIdx_concat rfl, hwf.join_parts, hkind]

/-- No word goes on from a signature into what follows it. -/
theorem Follows.stops {kind : SelectorKind} {after : List Char} (h : Follows kind after) :
    Stops isIdentRest after := by
  have hends : ∀ {rest : List Char}, Ends kind rest → Stops isIdentRest rest := fun hends => by
    cases kind with
    | unary => exact hends.1
    | binary => exact hends
    | keyword => exact hends.stops
  rcases h with ⟨-, h⟩ | ⟨rest, crs, body, rfl, -, hcrs, -, h⟩
  · exact hends h
  · cases rest with
    | cons c rest =>
      have hstops := hends h
      rwa [Stops, List.head?_cons] at hstops
    | nil =>
      cases crs with
      | nil => exact stops_cons (by decide)
      | cons c crs =>
        obtain rfl : c = '\r' := hcrs c List.mem_cons_self
        exact stops_cons (by decide)

theorem after_signature {sig : List Char} (h : ∀ c ∈ sig, isSignatureChar c = true) :
    Mode.code.after sig = .code :=
  after_of_plain fun c hc => (isPlain_of_isSignatureChar (h c hc)).1

/-- Under another signature the same variables are mentioned after it. -/
theorem occurrences_replaceHeader {text : String} {new : Header} (hp : ofText? text = some h)
    (hwf : new.WellFormed) (name : String) :
    ∃ found, (Source.ofText text).occurrences name ⟨h.signatureEnd, (Source.ofText text).size⟩ =
        List.map (Span.shift h.signatureEnd) found ∧
      (Source.ofText (replaceHeader text h new)).occurrences name
          ⟨new.render.toList.length, (Source.ofText (replaceHeader text h new)).size⟩ =
        found.map (Span.shift new.render.toList.length) := by
  obtain ⟨sig, after, hreading⟩ := ofText?_eq_some hp
  have hrender : ∀ c ∈ new.render.toList, isSignatureChar c = true := fun c hc =>
    (mem_render hwf hc).1
  have hcut : (Source.ofText text).Cut sig after :=
    ⟨hreading.text_eq, fun _ => after_signature hreading.chars⟩
  have hcut' : (Source.ofText (replaceHeader text h new)).Cut new.render.toList after :=
    ⟨toList_replaceHeader hreading.text_eq hreading.signatureEnd new,
      fun _ => after_signature hrender⟩
  have hstops := hreading.follows.stops
  refine ⟨(Source.ofChars after).occurrences name (Source.ofChars after).span, ?_, ?_⟩
  · rw [hreading.signatureEnd]
    exact hcut.occurrences hstops name
  · rw [← utf8Len_signature hrender]
    exact hcut'.occurrences hstops name

/-- Of two exchanges of the signature the last one counts. -/
theorem replaceHeader_replaceHeader {text : String} {new : Header} (hp : ofText? text = some h)
    (hwf : new.WellFormed) (last : Header) :
    replaceHeader (replaceHeader text h new)
      { new with signatureEnd := new.render.toList.length } last = replaceHeader text h last := by
  obtain ⟨sig, after, hreading⟩ := ofText?_eq_some hp
  have hfirst := toList_replaceHeader hreading.text_eq hreading.signatureEnd new
  have hend : String.utf8Len new.render.toList = new.render.toList.length :=
    utf8Len_signature fun c hc => (mem_render hwf hc).1
  rw [← String.toList_inj, toList_replaceHeader hfirst hend.symm,
    toList_replaceHeader hreading.text_eq hreading.signatureEnd]

end Header

/-! ## Adding -/

/-- What a plan to add a parameter holds. -/
structure AddParameter.Plan.Planned (session : Session) (r : AddParameter.Request)
    (p : AddParameter.Plan) (e : MethodEntry) (header : Header) : Prop where
  method : p.method = ⟨r.className, r.side, r.selector⟩
  stored : session.image.method? p.method = some e
  read : Header.ofText? e.source = some header
  kind : header.kind = .keyword
  selector : header.selector = r.selector
  newMethod : p.newMethod = ⟨r.className, r.side, r.selector ++ r.keyword⟩
  newSource : p.newSource =
    replaceHeader e.source header (header.extended r.keyword r.argumentName)
  keyword : AddParameter.isKeyword r.keyword = true
  argument : AddParameter.isArgumentName r.argumentName = true
  fresh : r.argumentName ∉ header.arguments

namespace AddParameter

variable {session : Session} {settings : Settings} {r : Request} {p : Plan}

theorem plan_eq_ok (h : plan session settings r = .ok p) :
    ∃ e header, p.Planned session r e header := by
  simp only [plan, bind_eq_ok, require_eq_ok, pure, Except.pure, Except.ok.injEq] at h
  obtain ⟨target, htarget, -, hkeyword, -, hargument, -, hfresh, -, -, newMethod, hnew, category, -,
    rfl⟩ := h
  obtain ⟨⟨e, he, hsource⟩, hheader, hkind, hselector⟩ := Session.keywordMethod_eq_ok htarget
  have hmethod := Session.method_of_keywordMethod htarget
  obtain ⟨rfl, -⟩ := Session.freeMethod_eq_ok hnew
  obtain ⟨sig, after, hreading⟩ := Header.ofText?_eq_some hheader
  rw [hmethod] at hselector
  have hextended := Header.selector_extended hreading.wellFormed r.keyword r.argumentName
  rw [hselector] at hextended
  rw [← hsource] at hheader
  refine ⟨e, target.header, hmethod, he, hheader, hkind, hselector, ?_, ?_, hkeyword, hargument, ?_⟩
  · rw [hextended, hmethod]
  · rw [hsource]
  · simp only [Bool.not_eq_true', List.contains_eq_mem, decide_eq_false_iff_not,
      List.mem_append, not_or] at hfresh
    exact hfresh.1

namespace Plan.Planned

variable {e : MethodEntry} {header : Header} (h : p.Planned session r e header)

include h

theorem wellFormed : (header.extended r.keyword r.argumentName).WellFormed := by
  obtain ⟨sig, after, hreading⟩ := Header.ofText?_eq_some h.read
  exact wellFormed_extended hreading.wellFormed h.kind h.keyword h.argument

/-- The new signature is read from the new source. -/
theorem read_newSource :
    Header.ofText? p.newSource = some { header.extended r.keyword r.argumentName with
      signatureEnd := (header.extended r.keyword r.argumentName).render.toList.length } := by
  rw [h.newSource]
  refine Header.ofText?_replaceHeader h.read h.wellFormed fun rest hends => ?_
  rw [h.kind] at hends
  exact hends

/-- The selector with the parameter is another one. -/
theorem newMethod_ne : p.newMethod ≠ p.method := by
  obtain ⟨w, -, hkeyword⟩ := exists_word h.keyword
  have hword : r.keyword = String.ofList (w ++ [':']) := by
    simpa [Selector.keywordsOf, Selector.withColons] using hkeyword.symm
  rw [h.newMethod, h.method]
  intro heq
  have hlength := congrArg String.length (congrArg MethodRef.selector heq)
  simp [hword] at hlength

end Plan.Planned

end AddParameter

/-! ## Removing -/

namespace RemoveParameter

variable {session : Session} {settings : Settings} {m : MethodRef} {e : MethodEntry}
  {header : Header} {argument : String} {target : KeywordMethod} {p : Plan}

/-- An argument that is not used can be removed. -/
theorem exists_plan (settings : Settings) (he : session.image.method? m = some e)
    (htarget : session.keywordMethod m.className m.side m.selector = .ok ⟨m, e.source, header⟩)
    (hargument : argument ∈ header.arguments)
    (hunused : (Source.ofText e.source).occurrences argument
      ⟨header.signatureEnd, (Source.ofText e.source).size⟩ = []) :
    ∃ p, plan session settings ⟨m.className, m.side, m.selector, argument, true⟩ = .ok p := by
  obtain ⟨category, hcategory⟩ := Session.exists_categoryOf settings he
  refine exists_bind_eq_ok htarget ?_
  refine exists_bind_eq_ok (a := ()) (require_eq_ok.2 (by simpa using hargument)) ?_
  refine exists_bind_eq_ok (a := ()) (require_eq_ok.2 (by rw [hunused]; rfl)) ?_
  refine exists_bind_eq_ok rfl ?_
  exact exists_bind_eq_ok hcategory ⟨_, rfl⟩

/-- What is announced when an argument is removed. -/
theorem announced_of_plan {overwrite : Bool}
    (htarget : session.keywordMethod m.className m.side m.selector = .ok ⟨m, e.source, header⟩)
    (h : plan session settings ⟨m.className, m.side, m.selector, argument, overwrite⟩ = .ok p)
    {position : Nat} (hposition : header.arguments.idxOf argument = position) {new : Header}
    (hnew : headerWithout header position = new) :
    p.announced =
      [({ m with selector := new.selector }, ⟨replaceHeader e.source header new, p.category⟩),
        (m, ⟨forwarder header new (header.arguments.eraseIdx position), p.category⟩)] := by
  simp only [plan, bind_eq_ok, require_eq_ok, pure, Except.pure, Except.ok.injEq] at h
  obtain ⟨target, htarget', -, -, -, -, newMethod, hfree, category, -, rfl⟩ := h
  obtain rfl := Except.ok.inj (htarget.symm.trans htarget')
  obtain ⟨rfl, -⟩ := Session.freeMethod_eq_ok hfree
  subst hposition hnew
  rfl

end RemoveParameter

/-! ## There and back -/

namespace Refactoring

variable {session : Session} {settings : Settings} {image image' : Image}

theorem apply_of_preview {request : Request} {plan : Plan} {effects : Effects}
    (hpreview : preview session settings request = .ok plan)
    (hperform : session.image.perform plan.writes = (image', .ok effects)) :
    apply session settings request = (image', .ok ⟨plan, effects⟩) := by
  simp only [apply, hpreview, hperform]

/-- What a parameter that was added leaves behind. -/
theorem apply_addParameter {r : AddParameter.Request} {applied : Applied}
    (h : apply session settings (.addParameter r) = (image', .ok applied)) :
    ∃ p e header, AddParameter.Plan.Planned session r p e header ∧
      image'.Writable r.className ∧ session.image.Rewritten image' p.announced [] := by
  obtain ⟨hpreview, hperform⟩ := apply_eq_ok h
  obtain ⟨p, hp, hplan⟩ := map_eq_ok.1 hpreview
  obtain ⟨e, header, hplanned⟩ := AddParameter.plan_eq_ok hp
  rw [← hplan] at hperform
  have hrewritten := ((AddParameter.announces hp).1.rewritten
    (unambiguous_pair hplanned.newMethod_ne) hperform).2
  have hwritable : image'.Writable p.method.className :=
    (Image.kept_of_perform hperform).2.2 _ _ _ _ List.mem_cons_self
  rw [hplanned.method] at hwritable
  exact ⟨p, e, header, hplanned, hwritable, hrewritten⟩

/-- An argument that is not used is removed from a method of a class that can be written to. -/
theorem exists_apply_removeParameter {m : MethodRef} {e : MethodEntry} {header : Header}
    {argument : String} (extraSenders : List MethodRef) (settings : Settings)
    (hwritable : image.Writable m.className) (he : image.method? m = some e)
    (hheader : Header.ofText? e.source = some header) (hkind : header.kind = .keyword)
    (hselector : header.selector = m.selector) (hargument : argument ∈ header.arguments)
    (hunused : (Source.ofText e.source).occurrences argument
      ⟨header.signatureEnd, (Source.ofText e.source).size⟩ = [])
    {position : Nat} (hposition : header.arguments.idxOf argument = position) {new : Header}
    (hnew : RemoveParameter.headerWithout header position = new)
    (hne : new.selector ≠ m.selector) :
    ∃ image' applied category,
      apply ⟨image, extraSenders⟩ settings
        (.removeParameter ⟨m.className, m.side, m.selector, argument, true⟩) =
        (image', .ok applied) ∧
      image.Rewritten image'
        [({ m with selector := new.selector }, ⟨replaceHeader e.source header new, category⟩),
          (m, ⟨forwarder header new (header.arguments.eraseIdx position), category⟩)] [] := by
  have htarget : Session.keywordMethod ⟨image, extraSenders⟩ m.className m.side m.selector =
      .ok ⟨m, e.source, header⟩ := Session.keywordMethod_of_method? he hheader hkind hselector
  obtain ⟨p, hp⟩ := RemoveParameter.exists_plan settings he htarget hargument hunused
  have hannounced := RemoveParameter.announced_of_plan htarget hp hposition hnew
  have hannounces := (RemoveParameter.announces hp).1
  have hstored := hannounces.spelled
  have hwrites := hannounces.writes_eq
  rw [hannounced] at hstored hwrites
  obtain ⟨image', effects, hperform⟩ := Image.exists_perform hstored
    (List.forall_mem_cons.2 ⟨hwritable, List.forall_mem_singleton.2 hwritable⟩)
  rw [List.map_nil, List.append_nil] at hwrites
  rw [← hwrites] at hperform
  refine ⟨image', _, p.category,
    apply_of_preview (map_eq_ok.2 ⟨p, hp, rfl⟩) hperform, ?_⟩
  have hrewritten := hannounces.rewritten (hannounced ▸ unambiguous_pair fun heq => hne
    (congrArg MethodRef.selector heq)) hperform
  rw [hannounced] at hrewritten
  exact hrewritten.2

/-- A parameter that was added to a method and is not mentioned in it can be removed again. Then the
method is back, its signature spelled in the plain way and everything after it as it was, and the
selector with the parameter has become a forwarder to it. All other methods are as they were before.
-/
theorem removeParameter_undoes_addParameter (session : Session) (settings settings' : Settings)
    (r : AddParameter.Request) (image : Image) (applied : Applied)
    (h : apply session settings (.addParameter r) = (image, .ok applied)) :
    ∃ e header, session.image.method? ⟨r.className, r.side, r.selector⟩ = some e ∧
      Header.ofText? e.source = some header ∧ header.selector = r.selector ∧
      ((Source.ofText e.source).occurrences r.argumentName
          ⟨header.signatureEnd, (Source.ofText e.source).size⟩ = [] →
        ∃ image' applied',
          apply ⟨image, session.extraSenders⟩ settings'
            (.removeParameter
              ⟨r.className, r.side, r.selector ++ r.keyword, r.argumentName, true⟩) =
            (image', .ok applied') ∧
          (image'.method? ⟨r.className, r.side, r.selector⟩).map (·.source) =
            some (header.render ++
              String.Pos.Raw.extract e.source ⟨header.signatureEnd⟩ e.source.rawEndPos) ∧
          (image'.method? ⟨r.className, r.side, r.selector ++ r.keyword⟩).map (·.source) =
            some (forwarder (header.extended r.keyword r.argumentName) header header.arguments) ∧
          ∀ m, m ≠ ⟨r.className, r.side, r.selector⟩ →
            m ≠ ⟨r.className, r.side, r.selector ++ r.keyword⟩ →
            image'.method? m = session.image.method? m) := by
  obtain ⟨p, e, header, hplanned, hwritable, hadded⟩ := apply_addParameter h
  obtain ⟨sig, after, hreading⟩ := Header.ofText?_eq_some hplanned.read
  have he := hplanned.stored
  rw [hplanned.method] at he
  refine ⟨e, header, he, hplanned.read, hplanned.selector, fun hunused => ?_⟩
  have hnew : image.method? p.newMethod = some ⟨p.newSource, p.category⟩ :=
    hadded.holds (p.newMethod, ⟨p.newSource, p.category⟩) List.mem_cons_self
  rw [hplanned.newMethod] at hnew
  obtain ⟨found, hbefore, hafter⟩ :=
    Header.occurrences_replaceHeader hplanned.read hplanned.wellFormed r.argumentName
  rw [hunused] at hbefore
  obtain rfl : found = [] := List.map_eq_nil_iff.1 hbefore.symm
  have hposition : (header.arguments ++ [r.argumentName]).idxOf r.argumentName =
      header.arguments.length := by
    rw [List.idxOf_append_of_notMem hplanned.fresh, List.idxOf_cons_self, Nat.add_zero]
  have hselector : (header.extended r.keyword r.argumentName).selector =
      r.selector ++ r.keyword := by
    rw [Header.selector_extended hreading.wellFormed, hplanned.selector]
  have hne : header.selector ≠ r.selector ++ r.keyword := fun heq => hplanned.newMethod_ne (by
    rw [hplanned.newMethod, hplanned.method, ← heq, hplanned.selector])
  obtain ⟨image', applied', category, happly, hremoved⟩ :=
    exists_apply_removeParameter session.extraSenders settings' hwritable hnew
      hplanned.read_newSource rfl hselector (List.mem_append_right _ (List.mem_singleton_self _))
      (by rw [hplanned.newSource]; exact hafter) hposition
      (Header.headerWithout_extended hreading.wellFormed hplanned.kind _) hne
  have hmethod : image'.method? ⟨r.className, r.side, header.selector⟩ = _ :=
    hremoved.holds _ List.mem_cons_self
  have hforwarder : image'.method? ⟨r.className, r.side, r.selector ++ r.keyword⟩ = _ :=
    hremoved.holds _ (List.mem_cons_of_mem _ List.mem_cons_self)
  refine ⟨image', applied', happly, ?_, ?_, fun m hm hm' => ?_⟩
  · rw [← hplanned.selector, hmethod, hplanned.newSource,
      Header.replaceHeader_replaceHeader hplanned.read hplanned.wellFormed]
    rfl
  · rw [hforwarder, Option.map_some]
    change some (forwarder (header.extended r.keyword r.argumentName) header
      ((header.arguments ++ [r.argumentName]).eraseIdx header.arguments.length)) = _
    rw [Header.eraseIdx_concat rfl]
  · rw [← hplanned.selector] at hm
    have hkept := hremoved.others m (by simp [hm, hm']) (by simp)
    rw [hplanned.selector, ← hplanned.method] at hm
    rw [← hplanned.newMethod] at hm'
    rw [hkept]
    exact hadded.others m (by simp [AddParameter.Plan.announced, hm, hm']) (by simp)

/-- A class with a method whose signature has more spaces than it needs. -/
def offsetCounter : Image :=
  ((Image.empty.defineClass "Counter" (some "Object") "Kernel").perform
    [.compile "Counter" .instanceSide "plus:  n\n^count + n" "arithmetic"]).1

theorem removeParameter_undoes_addParameter_plus :
    ∃ image applied image' applied',
      apply ⟨offsetCounter, []⟩ .standard
        (.addParameter ⟨"Counter", .instanceSide, "plus:", "times:", "k", "1", false⟩) =
          (image, .ok applied) ∧
      apply ⟨image, []⟩ .standard
        (.removeParameter ⟨"Counter", .instanceSide, "plus:times:", "k", true⟩) =
          (image', .ok applied') ∧
      (image'.method? ⟨"Counter", .instanceSide, "plus:"⟩).map (·.source) =
        some "plus: n\n^count + n" ∧
      (image'.method? ⟨"Counter", .instanceSide, "plus:times:"⟩).map (·.source) =
        some "plus: n times: k\n    ^self plus: n" := by
  obtain ⟨image, applied, h⟩ := exists_eq_ok (x := apply ⟨offsetCounter, []⟩ .standard
    (.addParameter ⟨"Counter", .instanceSide, "plus:", "times:", "k", "1", false⟩))
    (by decide +kernel)
  obtain ⟨e, header, he, hheader, -, hback⟩ :=
    removeParameter_undoes_addParameter _ _ .standard _ _ _ h
  obtain rfl : ⟨"plus:  n\n^count + n", "arithmetic"⟩ = e := Option.some.inj
    ((by decide +kernel : offsetCounter.method? ⟨"Counter", .instanceSide, "plus:"⟩ =
      some ⟨"plus:  n\n^count + n", "arithmetic"⟩).symm.trans he)
  obtain rfl : ⟨"plus:", .keyword, ["plus:"], ["n"], 8⟩ = header := Option.some.inj
    ((by decide +kernel : Header.ofText? "plus:  n\n^count + n" =
      some ⟨"plus:", .keyword, ["plus:"], ["n"], 8⟩).symm.trans hheader)
  obtain ⟨image', applied', happly, hmethod, hforwarder, -⟩ := hback (by decide +kernel)
  have hsource : Header.render ⟨"plus:", .keyword, ["plus:"], ["n"], 8⟩ ++
      String.Pos.Raw.extract "plus:  n\n^count + n" ⟨8⟩ "plus:  n\n^count + n".rawEndPos =
        "plus: n\n^count + n" := by decide +kernel
  have hforward : forwarder (Header.extended ⟨"plus:", .keyword, ["plus:"], ["n"], 8⟩ "times:" "k")
      ⟨"plus:", .keyword, ["plus:"], ["n"], 8⟩ ["n"] =
        "plus: n times: k\n    ^self plus: n" := by decide +kernel
  exact ⟨image, applied, image', applied', h, happly, hmethod.trans (congrArg some hsource),
    hforwarder.trans (congrArg some hforward)⟩

end Refactoring

end MethodBrowser
