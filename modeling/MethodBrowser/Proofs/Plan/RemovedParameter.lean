import MethodBrowser.Proofs.Plan.Forwarding

/-!
# What is left of a removed parameter

A parameter that no code mentions is taken out of the signature, and the old signature becomes a
forwarder to the new one (`RemoveParameter.removed_parameter_forwarded`).

**The forwarder** passes the arguments that are left, which are names. So its body is one return, and the
new selector is the only thing it sends, to `self` (`forwarder_sends`).

**The method** is read under the new signature. What follows the signature is the same text as before, so
the removed argument is not mentioned there either (`Header.occurrences_replaceHeader`).
-/

namespace MethodBrowser

/-- What follows a part of a text. -/
theorem toList_extract_rest {text : String} {l r : List Char} (htext : text.toList = l ++ r) :
    (String.Pos.Raw.extract text ⟨String.utf8Len l⟩ text.rawEndPos).toList = r :=
  Edit.splice_of_spliced htext .nil

/-- Another signature leaves what follows it alone. -/
theorem extract_replaceHeader {text : String} {header new : Header}
    (hp : Header.ofText? text = some header) (hwf : new.WellFormed) :
    String.Pos.Raw.extract (replaceHeader text header new) ⟨new.render.toList.length⟩
        (replaceHeader text header new).rawEndPos =
      String.Pos.Raw.extract text ⟨header.signatureEnd⟩ text.rawEndPos := by
  obtain ⟨sig, after, hreading⟩ := Header.ofText?_eq_some hp
  have hnew := Header.toList_replaceHeader hreading.text_eq hreading.signatureEnd new
  have hlen : String.utf8Len new.render.toList = new.render.toList.length :=
    Header.utf8Len_signature fun c hc => (Header.mem_render hwf hc).1
  rw [← String.toList_inj, ← hlen, toList_extract_rest hnew, hreading.signatureEnd,
    toList_extract_rest hreading.text_eq]

namespace RemoveParameter

variable {session : Session} {settings : Settings} {r : Request} {p : Plan}

/-- The signature that is left. -/
theorem headerWithout_eq {header : Header} (hwf : header.WellFormed) (hkind : header.kind = .keyword)
    {position : Nat} (hposition : position < header.arguments.length) :
    (headerWithout header position).kind ≠ .binary ∧
      (headerWithout header position).arguments = header.arguments.eraseIdx position := by
  obtain ⟨words, -, -, hparts, hlen⟩ := hwf.exists_words hkind
  simp only [headerWithout, hparts, eraseIdx_keywordsOf]
  cases hwords : words.eraseIdx position with
  | nil =>
    have hnone : (header.arguments.eraseIdx position).length = 0 := by
      have hrest := congrArg List.length hwords
      rw [List.length_eraseIdx_of_lt (hlen ▸ hposition), List.length_nil] at hrest
      rw [List.length_eraseIdx_of_lt hposition, hlen, hrest]
    exact ⟨by simp [Selector.keywordsOf, Selector.withColons, Header.ofParts],
      (List.length_eq_zero_iff.1 hnone).symm⟩
  | cons w rest => exact ⟨by simp [Selector.keywordsOf, Selector.withColons, Header.ofParts], rfl⟩

/-- What a plan to remove a parameter holds. -/
structure Plan.Planned (r : Request) (p : Plan) (header : Header) : Prop where
  read : Header.ofText? p.oldSource = some header
  kind : header.kind = .keyword
  selector : header.selector = r.selector
  argument : r.argumentName ∈ header.arguments
  unused : (Source.ofText p.oldSource).occurrences r.argumentName
    ⟨header.signatureEnd, (Source.ofText p.oldSource).size⟩ = []
  newMethod : p.newMethod.selector =
    (headerWithout header (header.arguments.idxOf r.argumentName)).selector
  newSource : p.newSource =
    replaceHeader p.oldSource header (headerWithout header (header.arguments.idxOf r.argumentName))
  compatibilitySource : p.compatibilitySource =
    forwarder header (headerWithout header (header.arguments.idxOf r.argumentName))
      (header.arguments.eraseIdx (header.arguments.idxOf r.argumentName))

theorem plan_eq_ok (h : plan session settings r = .ok p) : ∃ header, p.Planned r header := by
  simp only [plan, bind_eq_ok, require_eq_ok, pure, Except.pure, Except.ok.injEq] at h
  obtain ⟨target, htarget, -, hargument, -, hunused, newMethod, hnew, category, -, rfl⟩ := h
  obtain ⟨-, hheader, hkind, hselector⟩ := Session.keywordMethod_eq_ok htarget
  obtain ⟨rfl, -⟩ := Session.freeMethod_eq_ok hnew
  rw [Session.method_of_keywordMethod htarget] at hselector
  exact ⟨target.header, hheader, hkind, hselector, by simpa using hargument,
    List.isEmpty_iff.1 hunused, rfl, rfl, rfl⟩

/-- The forwarder of a removed parameter has the old signature and is one return, with the new selector,
sent to `self`, as its only send. The method itself is read under the new selector with the arguments that
are left. What follows its signature is unchanged and does not mention the removed argument. -/
theorem removed_parameter_forwarded (session : Session) (settings : Settings) (r : Request) (p : Plan)
    (h : plan session settings r = .ok p) :
    ∃ header, Header.ofText? p.oldSource = some header ∧ header.selector = r.selector ∧
      (∃ old, Header.ofText? p.compatibilitySource = some old ∧ old.selector = r.selector ∧
        old.arguments = header.arguments) ∧
      (∃ st, (Outline.ofText p.compatibilitySource).statements = [st] ∧ st.kind = .returns) ∧
      (∃ send, (SendReport.ofText p.compatibilitySource none).sends = [send] ∧
        send.selector = p.newMethod.selector ∧ send.receiver = .self) ∧
      ∃ new, Header.ofText? p.newSource = some new ∧ new.selector = p.newMethod.selector ∧
        new.arguments = header.arguments.erase r.argumentName ∧
        String.Pos.Raw.extract p.newSource ⟨new.signatureEnd⟩ p.newSource.rawEndPos =
          String.Pos.Raw.extract p.oldSource ⟨header.signatureEnd⟩ p.oldSource.rawEndPos ∧
        (Source.ofText p.newSource).occurrences r.argumentName
          ⟨new.signatureEnd, (Source.ofText p.newSource).size⟩ = [] := by
  obtain ⟨header, hplanned⟩ := plan_eq_ok h
  obtain ⟨sig, after, hreading⟩ := Header.ofText?_eq_some hplanned.read
  have hposition := List.idxOf_lt_length_of_mem hplanned.argument
  obtain ⟨hwf, hends⟩ := wellFormed_headerWithout hreading.wellFormed hplanned.kind hposition
  obtain ⟨hkind, harguments⟩ := headerWithout_eq hreading.wellFormed hplanned.kind hposition
  obtain ⟨⟨st, hstatements, hreturns⟩, send, hsends, hselector, hreceiver⟩ :=
    forwarder_sends hreading.wellFormed hwf hkind
  rw [harguments, ← hplanned.compatibilitySource] at hstatements hsends
  obtain ⟨found, hbefore, hafter⟩ :=
    Header.occurrences_replaceHeader hplanned.read hwf r.argumentName
  rw [hplanned.unused] at hbefore
  obtain rfl : found = [] := List.map_eq_nil_iff.1 hbefore.symm
  have hold := Header.ofText?_forwarder hreading.wellFormed
    (headerWithout header (header.arguments.idxOf r.argumentName))
    (header.arguments.eraseIdx (header.arguments.idxOf r.argumentName))
  have hnew := Header.ofText?_replaceHeader hplanned.read hwf (hplanned.kind ▸ hends)
  have hrest := extract_replaceHeader hplanned.read hwf
  rw [← hplanned.compatibilitySource] at hold
  rw [← hplanned.newSource] at hnew hrest hafter
  refine ⟨header, hplanned.read, hplanned.selector, ⟨_, hold, hplanned.selector, rfl⟩,
    ⟨.ofStatement (.ofText p.compatibilitySource) (Source.ofText p.compatibilitySource).sends st 1, ?_,
      hreturns⟩,
    ⟨send, hsends, hselector.trans hplanned.newMethod.symm, hreceiver⟩, _, hnew, hplanned.newMethod.symm,
    harguments.trans (List.erase_eq_eraseIdx_of_idxOf rfl).symm, hrest, hafter⟩
  simp only [Outline.ofText, hstatements]
  rfl

/-- A class with a method that uses one of its two arguments. -/
def placingCounter : Image :=
  ((Image.empty.defineClass "Counter" (some "Object") "Kernel").perform
    [.compile "Counter" .instanceSide "at: i put: x  \"i\"\n^count + x" "arithmetic"]).1

theorem removed_parameter_forwarded_at :
    ∃ p, plan ⟨placingCounter, []⟩ .standard ⟨"Counter", .instanceSide, "at:put:", "i", false⟩ = .ok p ∧
      p.compatibilitySource = "at: i put: x\n    ^self put: x" ∧
      ∃ send, (SendReport.ofText p.compatibilitySource none).sends = [send] ∧
        send.selector = p.newMethod.selector ∧ send.receiver = .self := by
  have hsource : (plan ⟨placingCounter, []⟩ .standard
      ⟨"Counter", .instanceSide, "at:put:", "i", false⟩).map (·.compatibilitySource) =
        .ok "at: i put: x\n    ^self put: x" := by decide +kernel
  obtain ⟨p, h, hp⟩ := map_eq_ok.1 hsource
  obtain ⟨header, -, -, -, -, hsends, -⟩ := removed_parameter_forwarded _ _ _ p h
  exact ⟨p, h, hp, hsends⟩

end RemoveParameter

end MethodBrowser
